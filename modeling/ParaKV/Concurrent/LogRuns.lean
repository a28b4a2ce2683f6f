/- GID: ParaKV/Concurrent/LogRuns
   source: parakv/core/index/index.cc, parakv/core/index/wal.cc
   digest: What a restart recovers once interleaved updates, and a checkpoint among them, have
     returned. -/

import Mathlib.Data.List.TakeWhile
import ParaKV.Concurrent.Logging

set_option autoImplicit false
set_option synthInstance.maxSize 512

namespace ParaKV.Concurrent.LogRuns

open Lib.LogMap Lib.OwnedSlots Lib.StepRun Index.Key Index.Wal Index.Operations Index.Durability
open Index.Ownership Index.CrashSafety Index.Runs Index.Sessions Core.State Concurrent.Machine
open Concurrent.Slots Concurrent.SlotRuns Concurrent.Logging

variable {K : Type} [DecidableEq K] [KeyType K] {n : ℕ}
variable {sys : System K n} {s s' : State K n} {t : Fin n}

/-! The files after a section of a call, in each phase of the checkpoint. -/

theorem filed_update {w w' : World K} {us : List (Binding K UInt64)} {b : Binding K UInt64}
    {ck : CheckpointPc K} (h : Filed sys w us ck) (hsame : SameLog w w')
    (hmap : w'.map = write w.map b) : Filed sys w' (us ++ [b]) ck := by
  cases ck with
  | off => exact Current.update h hsame hmap
  | finished st => exact Current.update h hsame hmap
  | dump j copied =>
    refine ⟨h.1.update hsame hmap, h.2.1, ?_⟩
    rw [hmap]
    exact h.2.2.update
  | rename =>
    obtain ⟨hcurrent, hdir, copied, htmp, hcopies⟩ := h
    refine ⟨hcurrent.update hsame hmap, hdir, copied, hsame.snapshotTmp.trans htmp, ?_⟩
    rw [hmap]
    exact hcopies.update
  | rotate =>
    obtain ⟨⟨m, hlogged⟩, hdir, copied, hsnapshot, hcopies⟩ := h
    refine ⟨⟨m, hsame.logged hlogged⟩, hdir, copied, hsame.snapshot.trans hsnapshot, ?_⟩
    rw [hmap]
    exact hcopies.update

theorem filed_same {w w' : World K} {us : List (Binding K UInt64)} {ck : CheckpointPc K}
    (h : Filed sys w us ck) (hsame : SameLog w w') (hmap : w'.map = w.map) :
    Filed sys w' us ck := by
  have hcurrent : Current sys.o w us → Current sys.o w' us := fun ⟨m, hlogged, hreplay⟩ =>
    ⟨m, hsame.logged hlogged, hmap.trans hreplay⟩
  cases ck with
  | off => exact hcurrent h
  | finished st => exact hcurrent h
  | dump j copied => exact ⟨hcurrent h.1, h.2.1, by rw [hmap]; exact h.2.2⟩
  | rename =>
    obtain ⟨hc, hdir, copied, htmp, hcopies⟩ := h
    exact ⟨hcurrent hc, hdir, copied, hsame.snapshotTmp.trans htmp, by rw [hmap]; exact hcopies⟩
  | rotate =>
    obtain ⟨⟨m, hlogged⟩, hdir, copied, hsnapshot, hcopies⟩ := h
    exact ⟨⟨m, hsame.logged hlogged⟩, hdir, copied, hsame.snapshot.trans hsnapshot,
      by rw [hmap]; exact hcopies⟩

theorem filed_append {w : World K} {us cs : List (Binding K UInt64)} {ck : CheckpointPc K}
    {rec : WalRecord K} (h : Filed sys w (us ++ binding rec :: cs) ck)
    (hfires : fires sys.o w = false) (hwal : WalOpen w) (hknown : rec.type.Known)
    (hfirst : (binding rec).1 ∉ us.map Prod.fst)
    (hcaught : ∀ x ∈ dumped sys.shards w.disk (binding rec).1 ck,
      x = w.map.lookup (binding rec).1) :
    Filed sys (run (appendWal sys.o rec) w).state (us ++ cs) ck := by
  have hmap := (run_appendWal_ok (o := sys.o) hwal rec).2.1.map
  have hcurrent : Current sys.o w (us ++ binding rec :: cs) →
      Current sys.o (run (appendWal sys.o rec) w).state (us ++ cs) := fun hc =>
    hc.append hfires hknown rfl hfirst hmap
  cases ck with
  | off => exact hcurrent h
  | finished st => exact hcurrent h
  | dump j copied =>
    refine ⟨hcurrent h.1, h.2.1, ?_⟩
    rw [hmap]
    refine h.2.2.append hfirst fun hj => hcaught _ ?_
    simp only [dumped, hj, if_true, Option.mem_def]
  | rename =>
    obtain ⟨hc, hdir, copied, htmp, hcopies⟩ := h
    have hlogged : ∃ m, Logged sys.o w m := ⟨hc.choose, hc.choose_spec.1⟩
    refine ⟨hcurrent hc, hdir, copied,
      (appendWal_snapshots hlogged hfires rec).2.trans htmp, ?_⟩
    rw [hmap]
    refine hcopies.append hfirst fun _ => hcaught _ ?_
    simp only [dumped, htmp, Option.mem_def]
  | rotate =>
    obtain ⟨hlogged, hdir, copied, hsnapshot, hcopies⟩ := h
    refine ⟨⟨_, logged_appendWal hlogged.choose_spec hknown⟩, hdir, copied,
      (appendWal_snapshots hlogged hfires rec).1.trans hsnapshot, ?_⟩
    rw [hmap]
    refine hcopies.append hfirst fun _ => hcaught _ ?_
    simp only [dumped, hsnapshot, Option.mem_def]

/-! The invariant, for calls and a checkpoint without compactions. -/

structure Journal (sys : System K n) (s : State K n) : Prop where
  sane : Sane sys s
  below : ∀ t a, retiredBy (s.pcs t) = some a → Below sys.o s.world a
  pending : Pending sys s
  filed : Filed sys s.world (s.unlogged.map Prod.snd) s.checkpointer

theorem below_mono {K : Type} {o : Options} {w w' : World K} {a : UInt64} (h : Below o w a)
    (hcursors : ∀ id, (w.segs id).appendCursor ≤ (w'.segs id).appendCursor) : Below o w' a := by
  obtain ⟨seg, hseg, i, hi, ha⟩ := h
  exact ⟨seg, hseg, i, lt_of_lt_of_le hi (hcursors seg), ha⟩

theorem cursors_call (hadm : sys.o.Admissible K) (h : Journal sys s) {r : Pc × World K}
    (hr : callStep sys.o s.compactor.locks s.world (sys.calls t) (s.pcs t) = some r) (id : ℕ) :
    (s.world.segs id).appendCursor ≤ (r.2.segs id).appendCursor := by
  cases hlogs : logs (sys.calls t) (s.pcs t) with
  | none => exact (callStep_sameLog hadm h.sane hlogs hr).1.cursors id
  | some rec =>
    rw [callStep_appends hlogs hr, (run_appendWal_ok (o := sys.o) h.sane.live.wal rec).2.1.segs]

theorem below_call (hadm : sys.o.Admissible K) (h : Journal sys s) {r : Pc × World K}
    (hr : callStep sys.o s.compactor.locks s.world (sys.calls t) (s.pcs t) = some r) (u : Fin n)
    (a : UInt64) (ha : retiredBy (Function.update s.pcs t r.1 u) = some a) :
    Below sys.o r.2 a := by
  refine below_mono ?_ (cursors_call hadm h hr)
  by_cases hu : u = t
  · subst hu
    rw [Function.update_self] at ha
    rcases callStep_retired hr ha with hold | hlookup
    · exact h.below u a hold
    · exact below_of_lookup h.sane.live hlookup
  · rw [Function.update_of_ne hu] at ha
    exact h.below u a ha

theorem pending_call (h : Pending sys s) {r : Pc × World K}
    (hr : callStep sys.o s.compactor.locks s.world (sys.calls t) (s.pcs t) = some r) (u : Fin n) :
    (unloggedAfter s.world.map s.unlogged t (sys.calls t) (s.pcs t)).filter (·.1 = u) =
      ((logs (sys.calls u) (Function.update s.pcs t r.1 u)).map
        fun rec => (u, binding rec)).toList := by
  have hnext := callStep_next hr
  have hold := h u
  rw [unloggedAfter_eq]
  by_cases hu : u = t
  · subst hu
    rw [Function.update_self]
    cases hupdates : updates s.world.map (sys.calls u) (s.pcs u) with
    | some b =>
      have hlogs : logs (sys.calls u) (s.pcs u) = none := by
        by_contra hsome
        obtain ⟨rec, hrec⟩ := Option.ne_none_iff_exists'.mp hsome
        rw [updates_none hrec] at hupdates
        cases hupdates
      rw [hupdates] at hnext
      obtain ⟨rec, hrec, rfl⟩ := Option.map_eq_some_iff.mp hnext
      rw [hlogs] at hold
      simp [hrec, hold]
    | none =>
      rw [hupdates, Option.map_eq_none_iff] at hnext
      rw [hnext]
      cases hlogs : logs (sys.calls u) (s.pcs u) with
      | none =>
        rw [hlogs] at hold
        exact hold
      | some rec => simp [List.filter_filter]
  · rw [Function.update_of_ne hu, ← hold]
    cases hupdates : updates s.world.map (sys.calls t) (s.pcs t) with
    | some b => simp [Ne.symm hu]
    | none =>
      cases hlogs : logs (sys.calls t) (s.pcs t) with
      | none => rfl
      | some rec =>
        simp only [List.filter_filter]
        refine List.filter_congr fun p _ => ?_
        by_cases hp : p.1 = u
        · simp [hp, hu]
        · simp [hp]

theorem filed_call (hadm : sys.o.Admissible K)
    (hfires : ∀ rec ∈ logs (sys.calls t) (s.pcs t), fires sys.o s.world = false)
    (h : Journal sys s) (horder : InOrder sys s (.call t)) (hcaught : Caught sys s (.call t))
    {r : Pc × World K}
    (hr : callStep sys.o s.compactor.locks s.world (sys.calls t) (s.pcs t) = some r) :
    Filed sys r.2
      ((unloggedAfter s.world.map s.unlogged t (sys.calls t) (s.pcs t)).map Prod.snd)
      s.checkpointer := by
  rw [unloggedAfter_eq]
  cases hlogs : logs (sys.calls t) (s.pcs t) with
  | none =>
    obtain ⟨hsame, hmap⟩ := callStep_sameLog hadm h.sane hlogs hr
    cases hupdates : updates s.world.map (sys.calls t) (s.pcs t) with
    | none =>
      rw [hupdates] at hmap
      exact filed_same h.filed hsame hmap
    | some b =>
      rw [hupdates] at hmap
      rw [List.map_append]
      exact filed_update h.filed hsame hmap
  | some rec =>
    obtain ⟨hknown, hkey⟩ := logs_key hlogs
    have hpending := h.pending t
    rw [hlogs] at hpending
    obtain ⟨cs, hsplit, hfilter⟩ := split_pending hpending
    have hfiled := h.filed
    rw [hsplit, List.map_append, List.map_cons] at hfiled
    rw [updates_none hlogs, callStep_appends hlogs hr]
    show Filed sys _ ((s.unlogged.filter (·.1 ≠ t)).map Prod.snd) _
    rw [hfilter, List.map_append]
    refine filed_append hfiled (hfires rec hlogs) h.sane.live.wal hknown ?_ ?_
    · rw [hkey, List.map_map]
      intro hmem
      obtain ⟨p, hp, hpkey⟩ := List.mem_map.mp hmem
      exact horder rec hlogs p hp hpkey
    · rw [hkey]
      exact hcaught rec hlogs

theorem journal_call (hadm : sys.o.Admissible K)
    (hfires : ∀ rec ∈ logs (sys.calls t) (s.pcs t), fires sys.o s.world = false)
    (h : Journal sys s) (horder : InOrder sys s (.call t)) (hcaught : Caught sys s (.call t))
    (hstep : Machine.step sys s (.call t) = some s') : Journal sys s' := by
  have hsane := sane_step hadm h.sane (timely_of_below hadm h.sane h.below t) hstep
  obtain ⟨r, hr, rfl⟩ := Option.map_eq_some_iff.mp hstep
  exact ⟨hsane, below_call hadm h hr, pending_call h.pending hr,
    filed_call hadm hfires h horder hcaught hr⟩

theorem holds_snapshot {K : Type} [KeyType K] {o : Options} {d : Disk K} {base copied : Map K}
    {recs : List (WalRecord K)} (h : Holds o d base recs []) (hdir : o.snapshotDir ≠ "")
    {d' : Disk K} (hsnapshot : d'.snapshot = some (.dump copied)) (hwal : d'.wal = d.wal) :
    Holds o d' copied recs [] :=
  ⟨by simp only [snapshotBase, if_neg hdir, hsnapshot], by rw [hwal]; exact h.wal, h.known, h.torn⟩

theorem filed_checkpoint {w : World K} {us : List (Binding K UInt64)} {ck : CheckpointPc K}
    (h : Filed sys w us ck) {r : CheckpointPc K × World K}
    (hr : checkpointStep sys.o sys.shards w ck = some r) : Filed sys r.2 us r.1 := by
  have htmp : ∀ file, Current sys.o w us → Current sys.o (setTmp w file) us := by
    rintro file ⟨m, hlogged, hmap⟩
    exact ⟨m, hlogged.congr rfl rfl rfl, hmap⟩
  cases ck with
  | off =>
    simp only [checkpointStep] at hr
    split at hr <;> cases hr
    · exact h
    · rename_i hdir
      exact ⟨htmp _ h, hdir, fun k hk => (Nat.not_lt_zero _ hk).elim⟩
  | dump j copied =>
    obtain ⟨hcurrent, hdir, hcopies⟩ := h
    simp only [checkpointStep] at hr
    split at hr <;> cases hr
    · obtain ⟨m, -, hmap⟩ := id hcurrent
      exact ⟨hcurrent, hdir, hcopies.shard ⟨m, hmap⟩⟩
    · rename_i hj
      refine ⟨htmp _ hcurrent, hdir, copied, rfl, fun k _ => hcopies k ?_⟩
      have := sys.shards.shard_lt k
      omega
  | rename =>
    obtain ⟨⟨m, ⟨base, recs, hholds, -, hwriter⟩, -⟩, hdir, copied, hsnapshot, hcopies⟩ := h
    cases hr
    exact ⟨⟨_, copied, recs, holds_snapshot hholds hdir hsnapshot rfl, rfl, hwriter⟩, hdir, copied,
      hsnapshot, hcopies⟩
  | rotate =>
    obtain ⟨⟨m, base, recs, hholds, -, hwriter⟩, hdir, copied, hsnapshot, hcopies⟩ := h
    simp only [checkpointStep, (run_rotateWal w).2, hwriter, Option.isNone_some,
      Bool.false_eq_true, if_false] at hr
    cases hr
    refine ⟨copied, ⟨copied, [], ⟨?_, rfl, fun _ hrec => (List.not_mem_nil hrec).elim, hholds.torn⟩,
      rfl, rfl⟩, ?_⟩
    · simp only [snapshotBase, if_neg hdir, hsnapshot]
    · exact Finmap.ext_lookup fun k => hcopies k trivial
  | finished st => cases hr

theorem journal_checkpoint (hadm : sys.o.Admissible K) (h : Journal sys s)
    (hstep : Machine.step sys s .checkpoint = some s') : Journal sys s' := by
  have htimely : Timely sys s .checkpoint := by
    constructor
    · intro a ha
      cases ha
    · intro a ha
      cases ha
  have hsane := sane_step hadm h.sane htimely hstep
  obtain ⟨r, hr, rfl⟩ := Option.map_eq_some_iff.mp hstep
  refine ⟨hsane, fun u a ha => below_mono (h.below u a ha) fun id => ?_, h.pending,
    filed_checkpoint h.filed hr⟩
  rw [(checkpointStep_logOnly h.sane.live.wal hr).1.segs]

theorem journal_initial {w : World K} (h : Journaled sys.o (fun _ _ => True) w w.map) :
    Journal sys (State.initial n w (value sys.o w)) where
  sane := sane_initial h.live
  below _ _ ha := by cases ha
  pending t := by
    cases hcall : sys.calls t <;> rfl
  filed := ⟨w.map, h.logged, rfl⟩

theorem unlogged_nil {K : Type} {sys : System K n} {s : State K n} (h : Pending sys s)
    (hquiet : s.Quiescent) : s.unlogged = [] := by
  refine List.eq_nil_iff_forall_not_mem.mpr fun p hp => ?_
  have hmem : p ∈ s.unlogged.filter (·.1 = p.1) := List.mem_filter.mpr ⟨hp, by simp⟩
  rw [h p.1] at hmem
  have hnone : logs (sys.calls p.1) (s.pcs p.1) = none := by
    rcases hquiet p.1 with hpc | ⟨st, v, hpc⟩
    · rw [hpc]
      cases sys.calls p.1 <;> rfl
    · rw [hpc]
      cases sys.calls p.1 <;> rfl
  rw [hnone] at hmem
  cases hmem

/-- Files that hold the live map give it back at a restart, with its contents. -/
theorem recovers_live (hadm : sys.o.Admissible K) (hpath : sys.o.walPath ≠ "")
    (h : Journal sys s) (hcurrent : Current sys.o s.world []) :
    recover sys.o s.world.disk = some s.world.map ∧
      Recovers sys.o s.world.disk (value sys.o s.world) := by
  obtain ⟨m, hlogged, hmap⟩ := hcurrent
  obtain rfl : s.world.map = m := hmap
  have hjournaled : Journaled sys.o (fun _ _ => True) s.world s.world.map :=
    ⟨h.sane.live, hlogged, h.sane.live.owns⟩
  exact ⟨recover_of_durable hadm.keySize hpath hlogged.durable,
    recovers_of_crashSafe hadm hpath hjournaled.crashSafe (live_complete h.sane.live) rfl⟩

theorem journaled_of_prior (hadm : sys.o.Admissible K) (hpath : sys.o.walPath ≠ "")
    {stateFile : Option Bytes} {prior : List (Act K)} {st : Session K}
    (hprior : GuardedRun (Session.step sys.o) Uncompacted (Session.initial K stateFile) prior st)
    (hup : st.store.up = true) :
    Journaled sys.o (fun _ _ => True) st.store.world st.store.world.map := by
  cases recorded_run hadm hpath hprior with
  | down h => cases hup
  | up h => exact h

/-! Updates only. -/

/-- A section of a call that appends in the order of the map updates. -/
def Sequenced (sys : System K n) (s : State K n) (act : Action n) : Prop :=
  (∃ t, act = .call t) ∧ InOrder sys s act

instance (sys : System K n) (s : State K n) (act : Action n) : Decidable (InOrder sys s act) :=
  match act with
  | .call _ => @Option.decidableForallMem _ _ (fun _ => List.decidableBAll _ _) _
  | .compact => isTrue trivial
  | .checkpoint => isTrue trivial

instance (sys : System K n) (s : State K n) (act : Action n) : Decidable (Sequenced sys s act) :=
  match act with
  | .call t => decidable_of_iff (InOrder sys s (.call t)) ⟨fun h => ⟨⟨t, rfl⟩, h⟩, And.right⟩
  | .compact => isFalse fun ⟨⟨_, h⟩, _⟩ => by cases h
  | .checkpoint => isFalse fun ⟨⟨_, h⟩, _⟩ => by cases h

/-- Calls interleave whose records of one key are appended in the order of its map updates. Once
all of them have returned, a restart recovers the live map and its contents. -/
theorem log_replays_live_map (hadm : sys.o.Admissible K) (hpath : sys.o.walPath ≠ "")
    (hdisabled : sys.o.walCheckpointBytes = 0) {stateFile : Option Bytes} {prior : List (Act K)}
    {st : Session K}
    (hprior : GuardedRun (Session.step sys.o) Uncompacted (Session.initial K stateFile) prior st)
    (hup : st.store.up = true) {acts : List (Action n)}
    (hrun : GuardedRun (Machine.step sys) (Sequenced sys)
      (State.initial n st.store.world (value sys.o st.store.world)) acts s)
    (hquiet : s.Quiescent) :
    recover sys.o s.world.disk = some s.world.map ∧
      Recovers sys.o s.world.disk (value sys.o s.world) := by
  have hjournaled := journaled_of_prior hadm hpath hprior hup
  have hinv := hrun.invariant
    (I := fun _ s => Journal sys s ∧ s.checkpointer = .off) ⟨journal_initial hjournaled, rfl⟩ ?_
  · obtain ⟨hjournal, hoff⟩ := hinv
    refine recovers_live hadm hpath hjournal ?_
    have hfiled := hjournal.filed
    rw [hoff, unlogged_nil hjournal.pending hquiet] at hfiled
    exact hfiled
  · rintro as s act s' ⟨hjournal, hoff⟩ ⟨⟨t, rfl⟩, horder⟩ hstep
    have hcaught : Caught sys s (.call t) := by
      intro rec _ x hx
      rw [hoff] at hx
      cases hx
    refine ⟨journal_call hadm (fun _ _ => fires_disabled hdisabled _) hjournal horder hcaught hstep,
      ?_⟩
    obtain ⟨r, -, rfl⟩ := Option.map_eq_some_iff.mp hstep
    exact hoff

def raceSystem : System Key64 2 := ⟨smallOptions 4 0, oneShard, ![.put 5 [1], .put 5 [2]]⟩

/-- Both have updated the map when the second appends its record before the first. -/
def crossedRun : List (Action 2) :=
  .replicate 4 first ++ .replicate 4 second ++ [second, first, second]

set_option maxRecDepth 100000 in
theorem log_replays_overwritten_entry :
    (smallOptions 4 0).Admissible Key64 ∧
    ((interleave raceSystem [.complete .start] crossedRun).map fun s =>
      (s.pcs 0, s.pcs 1, value (smallOptions 4 0) s.world 5,
        (recover (smallOptions 4 0) s.world.disk).map fun m =>
          (decide (m.lookup 5 = s.world.map.lookup 5),
            content (entries m) (view (smallOptions 4 0) s.world.disk) 5))) =
      some (.done .ok [], .done .ok [], some [2], some (false, none)) :=
  ⟨smallOptions_admissible 0 (by decide), by decide +kernel⟩

/-- The records are appended in the order of the map updates. -/
def orderedRun : List (Action 2) :=
  .replicate 4 first ++ .replicate 4 second ++ [first, second, second]

theorem quiescent_two {K : Type} {s : State K 2} {st st' : Status} {v v' : Bytes}
    (h : s.pcs 0 = .done st v) (h' : s.pcs 1 = .done st' v') : s.Quiescent := by
  intro t
  match t with
  | 0 => exact Or.inr ⟨st, v, h⟩
  | 1 => exact Or.inr ⟨st', v', h'⟩

set_option maxRecDepth 100000 in
theorem log_replays_live_map_ordered :
    ∃ st s, GuardedRun (Session.step raceSystem.o) Uncompacted (Session.initial Key64 none)
        [.complete .start] st ∧ st.store.up = true ∧
      GuardedRun (Machine.step raceSystem) (Sequenced raceSystem)
        (State.initial 2 st.store.world (value raceSystem.o st.store.world)) orderedRun s ∧
      s.Quiescent ∧ value raceSystem.o s.world 5 = some [2] ∧
      recover raceSystem.o s.world.disk = some s.world.map ∧
      Recovers raceSystem.o s.world.disk (value raceSystem.o s.world) := by
  obtain ⟨st, hprior, hst⟩ := exists_guardedRun
    (f := fun st : Session Key64 => (st.store.up, (performGuarded (Machine.step raceSystem)
      (Sequenced raceSystem)
      (State.initial 2 st.store.world (value raceSystem.o st.store.world))
      orderedRun).map fun s => (s.pcs 0, s.pcs 1, value raceSystem.o s.world 5)))
    (show (performGuarded (Session.step raceSystem.o) Uncompacted
      (Session.initial Key64 none) [.complete .start]).map _ =
        some (true, some (.done .ok [], .done .ok [], some ([2] : Bytes))) by decide +kernel)
  obtain ⟨hup, hacts⟩ := Prod.mk.inj hst
  obtain ⟨s, hrun, hs⟩ := exists_guardedRun hacts
  obtain ⟨h0, hrest⟩ := Prod.mk.inj hs
  obtain ⟨h1, hvalue⟩ := Prod.mk.inj hrest
  have hquiet := quiescent_two h0 h1
  have hadm : raceSystem.o.Admissible Key64 := smallOptions_admissible 0 (by decide)
  exact ⟨st, s, hprior, hup, hrun, hquiet, hvalue,
    log_replays_live_map hadm (by decide) rfl hprior hup hrun hquiet⟩

/-! Updates of distinct keys, and a checkpoint. -/

/-- A section of a call or a step of the checkpoint such that the snapshot lacks no update whose
record is truncated. -/
def Covered (sys : System K n) (s : State K n) (act : Action n) : Prop :=
  act ≠ .compact ∧ Caught sys s act

instance (sys : System K n) (s : State K n) (act : Action n) : Decidable (Caught sys s act) :=
  match act with
  | .call _ => @Option.decidableForallMem _ _ (fun _ => Option.decidableForallMem _) _
  | .compact => isTrue trivial
  | .checkpoint => isTrue trivial

instance (sys : System K n) (s : State K n) (act : Action n) : Decidable (Covered sys s act) :=
  inferInstanceAs (Decidable (act ≠ .compact ∧ Caught sys s act))

def returned : CheckpointPc K → Option Status
  | .finished st => some st
  | _ => none

theorem inOrder_of_distinct {K : Type} {sys : System K n} {s : State K n} (h : Pending sys s)
    (hkeys : Function.Injective fun t => (sys.calls t).key) (t : Fin n) :
    InOrder sys s (.call t) := by
  intro rec _ p hp hkey
  have hne : p.1 ≠ t := by simpa using List.mem_takeWhile_imp hp
  have hmem : p ∈ s.unlogged.filter (·.1 = p.1) :=
    List.mem_filter.mpr ⟨(List.takeWhile_sublist _).subset hp, by simp⟩
  rw [h p.1] at hmem
  cases hlogs : logs (sys.calls p.1) (s.pcs p.1) with
  | none =>
    rw [hlogs] at hmem
    cases hmem
  | some rec' =>
    rw [hlogs] at hmem
    have hp : p = (p.1, binding rec') := by simpa using hmem
    have hpkey : p.2.1 = (sys.calls p.1).key := by
      rw [hp]
      exact (logs_key hlogs).2
    exact hne (hkeys (hpkey.symm.trans hkey))

/-- Calls on distinct keys interleave with a checkpoint that misses no record. Once all of them
have returned, a restart recovers the live map and its contents. -/
theorem checkpoint_keeps_updates (hadm : sys.o.Admissible K) (hpath : sys.o.walPath ≠ "")
    (hdisabled : sys.o.walCheckpointBytes = 0)
    (hkeys : Function.Injective fun t => (sys.calls t).key) {stateFile : Option Bytes}
    {prior : List (Act K)} {st : Session K}
    (hprior : GuardedRun (Session.step sys.o) Uncompacted (Session.initial K stateFile) prior st)
    (hup : st.store.up = true) {acts : List (Action n)}
    (hrun : GuardedRun (Machine.step sys) (Covered sys)
      (State.initial n st.store.world (value sys.o st.store.world)) acts s)
    (hquiet : s.Quiescent) (hreturned : returned s.checkpointer = some .ok) :
    recover sys.o s.world.disk = some s.world.map ∧
      Recovers sys.o s.world.disk (value sys.o s.world) := by
  have hjournaled := journaled_of_prior hadm hpath hprior hup
  have hjournal := hrun.invariant (I := fun _ s => Journal sys s) (journal_initial hjournaled) ?_
  · refine recovers_live hadm hpath hjournal ?_
    have hfiled := hjournal.filed
    rw [unlogged_nil hjournal.pending hquiet] at hfiled
    cases hck : s.checkpointer with
    | finished st =>
      rw [hck] at hfiled
      exact hfiled
    | _ => simp [hck, returned] at hreturned
  · rintro as s act s' hjournal ⟨hact, hcaught⟩ hstep
    cases act with
    | call t =>
      exact journal_call hadm (fun _ _ => fires_disabled hdisabled _) hjournal
        (inOrder_of_distinct hjournal.pending hkeys t) hcaught hstep
    | compact => exact (hact rfl).elim
    | checkpoint => exact journal_checkpoint hadm hjournal hstep

def snapshotSystem : System Key64 2 := ⟨smallOptions 4 0, oneShard, ![.put 5 [1], .put 6 [2]]⟩

/-- `Put(6)` is logged between the copy of its sub-map and the truncation. -/
def truncatedRun : List (Action 2) :=
  .replicate 5 first ++ [.checkpoint, .checkpoint] ++ .replicate 5 second ++
    .replicate 3 .checkpoint

set_option maxRecDepth 100000 in
theorem checkpoint_loses_update :
    (smallOptions 4 0).Admissible Key64 ∧
    ((interleave snapshotSystem [.complete .start] truncatedRun).map fun s =>
      (s.pcs 0, s.pcs 1, returned s.checkpointer, value (smallOptions 4 0) s.world 6,
        (recover (smallOptions 4 0) s.world.disk).map fun m => m.lookup 6)) =
      some (.done .ok [], .done .ok [], some .ok, some [2], some none) :=
  ⟨smallOptions_admissible 0 (by decide), by decide +kernel⟩

/-- `Put(6)` updates the map after the copy of its sub-map and is logged after the truncation. -/
def coveredRun : List (Action 2) :=
  .replicate 5 first ++ [.checkpoint, .checkpoint] ++ .replicate 4 second ++
    .replicate 3 .checkpoint ++ [second]

set_option maxRecDepth 100000 in
theorem checkpoint_keeps_updates_covered :
    ∃ st s, GuardedRun (Session.step snapshotSystem.o) Uncompacted (Session.initial Key64 none)
        [.complete .start] st ∧ st.store.up = true ∧
      GuardedRun (Machine.step snapshotSystem) (Covered snapshotSystem)
        (State.initial 2 st.store.world (value snapshotSystem.o st.store.world)) coveredRun s ∧
      s.Quiescent ∧ returned s.checkpointer = some .ok ∧
      value snapshotSystem.o s.world 6 = some [2] ∧
      recover snapshotSystem.o s.world.disk = some s.world.map ∧
      Recovers snapshotSystem.o s.world.disk (value snapshotSystem.o s.world) := by
  obtain ⟨st, hprior, hst⟩ := exists_guardedRun
    (f := fun st : Session Key64 => (st.store.up, (performGuarded (Machine.step snapshotSystem)
      (Covered snapshotSystem)
      (State.initial 2 st.store.world (value snapshotSystem.o st.store.world))
      coveredRun).map fun s => (s.pcs 0, s.pcs 1, returned s.checkpointer,
        value snapshotSystem.o s.world 6)))
    (show (performGuarded (Session.step snapshotSystem.o) Uncompacted
      (Session.initial Key64 none) [.complete .start]).map _ =
        some (true, some (.done .ok [], .done .ok [], some .ok, some ([2] : Bytes))) by
      decide +kernel)
  obtain ⟨hup, hacts⟩ := Prod.mk.inj hst
  obtain ⟨s, hrun, hs⟩ := exists_guardedRun hacts
  obtain ⟨h0, hrest⟩ := Prod.mk.inj hs
  obtain ⟨h1, hrest⟩ := Prod.mk.inj hrest
  obtain ⟨hreturned, hvalue⟩ := Prod.mk.inj hrest
  have hquiet := quiescent_two h0 h1
  have hadm : snapshotSystem.o.Admissible Key64 := smallOptions_admissible 0 (by decide)
  have hkeys : Function.Injective fun t => (snapshotSystem.calls t).key :=
    show ∀ t u, (snapshotSystem.calls t).key = (snapshotSystem.calls u).key → t = u by decide
  exact ⟨st, s, hprior, hup, hrun, hquiet, hreturned, hvalue,
    checkpoint_keeps_updates hadm (by decide) rfl hkeys hprior hup hrun hquiet hreturned⟩

end ParaKV.Concurrent.LogRuns
