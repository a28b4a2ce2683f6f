/- GID: ParaKV/Index/Sessions
   source: parakv/core/index/index.cc
   digest: What a restart recovers after a crash in a run without compaction. -/

import ParaKV.Index.Runs

set_option autoImplicit false

namespace ParaKV.Index.Sessions

open Lib.OwnedSlots Lib.StepRun Index.Key Index.Operations Index.Durability Index.Ownership
open Index.CrashSafety Index.Recovery Index.Runs Core.State

variable {K : Type} [DecidableEq K] [KeyType K]

/-- What an operation does to the contents when it is applied. -/
def apply (c : K → Option Bytes) : Op K → K → Option Bytes
  | .put key v => Function.update c key (some v)
  | .delete key => Function.update c key none
  | _ => c

/-- A store, and the contents that the acknowledged operations left. -/
structure Session (K : Type) where
  store : Store K
  acked : K → Option Bytes

def Session.initial (K : Type) (stateFile : Option Bytes) : Session K :=
  ⟨Store.initial K stateFile, fun _ => none⟩

/-- An operation that returns `kOk` is acknowledged. A restart goes on from what it recovered. -/
def Session.acknowledge (o : Options) (s : Session K) (s' : Store K) : Act K → K → Option Bytes
  | .complete .start => if s'.up then value o s'.world else s.acked
  | .complete op =>
    if (run (op.program o) s.store.world).val = some .ok then apply s.acked op else s.acked
  | _ => s.acked

def Session.step (o : Options) (s : Session K) (a : Act K) : Option (Session K) :=
  (Runs.step o s.store a).map fun s' => ⟨s', s.acknowledge o s' a⟩

def Uncompacted (_ : Session K) (a : Act K) : Prop := a.op ≠ some .compact

instance (s : Session K) (a : Act K) : Decidable (Uncompacted s a) :=
  inferInstanceAs (Decidable (a.op ≠ some .compact))

/-- A restart over the files gives the contents `c`: `Index::Open` recovers a map whose entries
point at occupied slots with their key and value, and `Get` returns them. -/
structure Recovers (o : Options) (d : Disk K) (c : K → Option Bytes) : Prop where
  opened : ∃ m, recover o d = some m ∧ (∀ k, m.lookup k = none → c k = none) ∧
    ∀ k a, m.lookup k = some a → ∃ s i v, a = encodeSegmentSlot s i ∧
      d.slot s i = some ⟨toBytes k, v⟩ ∧ c k = some v
  started : (run (openStore o) (World.boot d)).val = .ok
  get : ∀ k, (run (Operations.get o k o.segmentConfig.valueSize)
      (run (openStore o) (World.boot d)).state).val =
    match c k with
    | some v => (.ok, v)
    | none => (.notFound, [])

variable {o : Options} {H : K → Bytes → Prop} {w : World K} {d : Disk K} {m : Map K}

theorem recovers_of_crashSafe (hadm : o.Admissible K) (hpath : o.walPath ≠ "")
    (h : CrashSafe o H d m) (hcomplete : Complete o d) {c : K → Option Bytes}
    (hc : content (entries m) (view o d) = c) : Recovers o d c := by
  obtain ⟨-, -, ⟨hview, -⟩, hok, hval⟩ := openStore_spec hadm hpath h
  have hstarted := hval fun s hs _ => (hcomplete s hs).2
  obtain ⟨hjournal, hmap⟩ := hok hstarted
  refine ⟨⟨m, recover_of_durable hadm.keySize hpath h.durable, fun k hk => ?_,
    fun k a hk => ?_⟩, hstarted, fun k => ?_⟩
  · rw [← hc]
    exact content_none hk
  · obtain ⟨v, hv, hcv⟩ := h.owns.content_isSome hk
    obtain ⟨s, hs, i, hi, ha, slot, hslot, hp⟩ := view_eq_some hv
    obtain ⟨rfl, rfl⟩ := Prod.mk.inj hp
    obtain ⟨k', hk', -⟩ := h.stored s hs i slot hslot
    refine ⟨s, i, slot.value, ha, ?_, hc ▸ hcv⟩
    rw [hslot, hk', ofBytes_toBytes, ← hk']
  · have hget := run_get hadm hjournal.live k
    rw [value, hmap, hview, hc] at hget
    exact hget

theorem plain_value (hadm : o.Admissible K) (h : Live o H w) {op : Op K}
    (hop : op.plain = true) (hput : ∀ k v, op = .put k v → H k v) :
    value o (run (op.program o) w).state =
      if (run (op.program o) w).val = some .ok then apply (value o w) op else value o w := by
  cases op with
  | start => cases hop
  | compact => cases hop
  | put k v =>
    have hspec := (put_spec hadm h (hput k v rfl)).2
    simpa [Op.program, apply] using hspec
  | delete k =>
    obtain ⟨-, hval, hvalue⟩ := delete_spec hadm h k
    change value o (run (Operations.delete o k) w).state =
      if some (run (Operations.delete o k) w).val = some .ok then _ else _
    rw [hval, hvalue]
    by_cases hk : value o w k = none
    · simp [hk]
    · simp [hk, apply]
  | checkpoint =>
    have hsame : value o (run (checkpoint o) w).state = value o w := by
      by_cases hdir : o.snapshotDir = ""
      · rw [(run_checkpoint_refused hdir).2.1]
      · have hlog := logOnly_afterCheckpoint w
        rw [(run_checkpoint hdir).2, value, hlog.map, view_congr hlog.images]
        rfl
    change value o (run (checkpoint o) w).state = if _ then value o w else value o w
    rw [hsame, ite_self]

/-- The invariant of these runs: while the store is up its files hold the live map, and its
contents are those of the acknowledged operations. -/
inductive Recorded (o : Options) (H : K → Bytes → Prop) : Session K → Prop
  | up {w : World K} : Journaled o H w w.map → Recorded o H ⟨⟨w, true⟩, value o w⟩
  | down {d : Disk K} {m : Map K} {c : K → Option Bytes} :
      CrashSafe o H d m → Recorded o H ⟨.stopped d, c⟩

theorem recorded_start (hadm : o.Admissible K) (hpath : o.walPath ≠ "") (h : CrashSafe o H d m)
    (c : K → Option Bytes) {s' : Store K}
    (hs' : Store.settle .start (run (Op.program o .start) (World.boot d)) = some s') :
    Recorded o H ⟨s', if s'.up then value o s'.world else c⟩ := by
  obtain ⟨-, hsafe, -, hok, -⟩ := openStore_spec hadm hpath h
  obtain rfl := Option.some.inj ((settle_start o _ _).symm.trans hs')
  by_cases hval : (run (openStore o) (World.boot d)).val = .ok
  · obtain ⟨hjournal, hmap⟩ := hok hval
    simp only [show (openStore o (fun _ => IoOutcome.ok) (World.boot d)).val = .ok from hval,
      if_true]
    exact .up (hmap ▸ hjournal)
  · simp only [show (openStore o (fun _ => IoOutcome.ok) (World.boot d)).val ≠ .ok from hval,
      if_false, Store.stopped]
    exact .down hsafe

theorem acknowledge_plain {op : Op K} (hop : op.plain = true) (s : Session K) (s' : Store K) :
    s.acknowledge o s' (.complete op) =
      if (run (op.program o) s.store.world).val = some .ok then apply s.acked op
      else s.acked := by
  cases op <;> first | rfl | cases hop

theorem recorded_step (hadm : o.Admissible K) (hpath : o.walPath ≠ "") {s s' : Session K}
    {a : Act K} (h : Recorded o (fun _ _ => True) s) (ha : Uncompacted s a)
    (hstep : s.step o a = some s') : Recorded o (fun _ _ => True) s' := by
  obtain ⟨t, ht, rfl⟩ := Option.map_eq_some_iff.mp hstep
  have hplain : ∀ op : Op K, a.op = some op → op ≠ .start → op.plain = true := by
    intro op hop hstart
    cases op <;> first | rfl | exact (hstart rfl).elim | exact (ha hop).elim
  cases a with
  | crash =>
    obtain rfl : Store.stopped s.store.world.disk = t := by simpa [Runs.step] using ht
    cases h with
    | up h => exact .down h.crashSafe
    | down h => exact .down h
  | complete op =>
    simp only [Runs.step] at ht
    split_ifs at ht with hen
    cases h with
    | down h =>
      obtain rfl : op = .start := by
        cases op <;> simp [Store.enabled, Store.stopped] at hen ⊢
      exact recorded_start hadm hpath h _ ht
    | @up w h =>
      have hstart : op ≠ .start := fun hstart => by
        simp [hstart, Store.enabled] at hen
      have hop : op.plain = true := hplain op rfl hstart
      obtain ⟨m', hjournal, hm'⟩ :=
        (plain_sound hadm h hop fun _ _ _ => trivial).journaled
      rw [acknowledge_plain hop, (settle_running hstart ht).1,
        ← plain_value hadm h.live hop fun _ _ _ => trivial]
      exact .up (hm' rfl ▸ hjournal)
  | crashIn op n =>
    simp only [Runs.step] at ht
    split_ifs at ht with hen
    obtain ⟨e, he, rfl⟩ := Option.map_eq_some_iff.mp ht
    cases h with
    | @down d m c h =>
      obtain rfl : op = .start := by
        cases op <;> simp [Store.enabled, Store.stopped] at hen ⊢
      obtain ⟨hevents, -⟩ := openStore_spec hadm hpath h
      exact .down (hevents e (List.mem_of_getElem? he)).2.1
    | up h =>
      have hop : op.plain = true := hplain op rfl fun hstart => by
        simp [hstart, Store.enabled] at hen
      obtain ⟨-, -, m', hsafe, -⟩ := (plain_sound hadm h hop fun _ _ _ => trivial).events e
        (List.mem_of_getElem? he)
      exact .down hsafe

theorem recorded_run (hadm : o.Admissible K) (hpath : o.walPath ≠ "") {stateFile : Option Bytes}
    {acts : List (Act K)} {s : Session K}
    (hrun : GuardedRun (Session.step o) Uncompacted (Session.initial K stateFile) acts s) :
    Recorded o (fun _ _ => True) s := by
  refine hrun.invariant (I := fun _ s => Recorded o (fun _ _ => True) s) ?_ ?_
  · exact .down (crashSafe_initial stateFile)
  · exact fun _ _ _ _ h ha hstep => recorded_step hadm hpath h ha hstep

/-- Between two operations a restart gives the acknowledged contents, and at every point of an
operation it gives them with or without that operation. -/
theorem restart_recovers_acked (hadm : o.Admissible K) (hpath : o.walPath ≠ "")
    {stateFile : Option Bytes} {acts : List (Act K)} {s : Session K}
    (hrun : GuardedRun (Session.step o) Uncompacted (Session.initial K stateFile) acts s)
    (hup : s.store.up = true) :
    recover o s.store.world.disk = some s.store.world.map ∧
    Recovers o s.store.world.disk s.acked ∧
    ∀ op : Op K, op.plain = true → ∀ e ∈ (run (op.program o) s.store.world).trace,
      Recovers o e.world.disk s.acked ∨ Recovers o e.world.disk (apply s.acked op) := by
  cases recorded_run hadm hpath hrun with
  | down h => cases hup
  | @up w h =>
    refine ⟨recover_of_durable hadm.keySize hpath h.logged.durable,
      recovers_of_crashSafe hadm hpath h.crashSafe (live_complete h.live) rfl,
      fun op hop e he => ?_⟩
    obtain ⟨-, hcomplete, m', hsafe, hcontent⟩ :=
      (plain_sound hadm h hop fun _ _ _ => trivial).events e he
    have hvalue := plain_value hadm h.live hop fun _ _ _ => trivial
    rcases hcontent rfl with hbefore | hafter
    · exact Or.inl (recovers_of_crashSafe hadm hpath hsafe hcomplete hbefore)
    · rw [hvalue] at hafter
      split_ifs at hafter
      · exact Or.inr (recovers_of_crashSafe hadm hpath hsafe hcomplete hafter)
      · exact Or.inl (recovers_of_crashSafe hadm hpath hsafe hcomplete hafter)

/-- A checkpoint at every append, a crash inside a `Put`, and a restart. -/
def tornRun : List (Act Key64) :=
  [.complete .start] ++ [0, 1, 2].map putKey ++
    [deleteKey 1, .crashIn (.put 5 [5]) 6, .complete .start, putKey 1]

set_option maxRecDepth 100000 in
theorem restart_recovers_acked_torn :
    ∃ s, GuardedRun (Session.step (smallOptions 4 1)) Uncompacted (Session.initial Key64 none)
        tornRun s ∧ s.store.up = true ∧ Recovers (smallOptions 4 1) s.store.world.disk s.acked ∧
      s.acked 1 = some [1] := by
  obtain ⟨s, hrun, hs⟩ := exists_guardedRun
    (f := fun s : Session Key64 => (s.store.up, s.acked 1))
    (show (performGuarded (Session.step (smallOptions 4 1)) Uncompacted
      (Session.initial Key64 none) tornRun).map _ = some (true, some [1]) by decide +kernel)
  obtain ⟨hup, hget⟩ := Prod.mk.inj hs
  exact ⟨s, hrun, hup, (restart_recovers_acked (smallOptions_admissible 1 (by decide)) (by decide)
    hrun hup).2.1, hget⟩

end ParaKV.Index.Sessions
