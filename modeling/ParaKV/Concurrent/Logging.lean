/- GID: ParaKV/Concurrent/Logging
   source: parakv/core/index/index.cc, parakv/core/index/wal.cc
   digest: Interleaved updates and a checkpoint keep the files up to date with the map, record by
     record. -/

import ParaKV.Index.Sessions
import ParaKV.Concurrent.SlotRuns

set_option autoImplicit false

namespace ParaKV.Concurrent.Logging

open Lib.LogMap Index.Key Index.Wal Index.Operations Index.Durability Index.Ownership
open Index.CrashSafety Segment.FileSpec Core.State Concurrent.Machine Concurrent.Slots
open Concurrent.SlotRuns

variable {K : Type} [DecidableEq K] [KeyType K] {n : ℕ}

def logs : Call K → Pc → Option (WalRecord K)
  | .put key _, .log newEnc old => some (putRecord key newEnc old)
  | .delete key, .logErase old => some (deleteRecord key old)
  | _, _ => none

def updates (m : Map K) : Call K → Pc → Option (Binding K UInt64)
  | .put key _, .install newEnc => some (key, some newEnc)
  | .delete key, .erase => if (m.lookup key).isSome then some (key, none) else none
  | _, _ => none

theorem logs_key {K : Type} {call : Call K} {pc : Pc} {rec : WalRecord K}
    (h : logs call pc = some rec) :
    rec.type.Known ∧ (binding rec).1 = call.key := by
  cases call <;> cases pc <;> cases h
  · rename_i key value a old
    obtain ⟨hknown, hbinding⟩ := binding_put key a old
    exact ⟨hknown, by rw [hbinding]; rfl⟩
  · exact ⟨fun _ => WalRecordType.noConfusion, rfl⟩

theorem updates_none {K : Type} [DecidableEq K] {m : Map K} {call : Call K} {pc : Pc}
    {rec : WalRecord K} (h : logs call pc = some rec) : updates m call pc = none := by
  cases call <;> cases pc <;> cases h <;> rfl

/-! What a section does to the log, the map and the append cursors. -/

structure SameLog (w w' : World K) : Prop where
  writer : w'.wal = w.wal
  wal : w'.disk.wal = w.disk.wal
  snapshot : w'.disk.snapshot = w.disk.snapshot
  snapshotTmp : w'.disk.snapshotTmp = w.disk.snapshotTmp
  cursors : ∀ id, (w.segs id).appendCursor ≤ (w'.segs id).appendCursor

theorem sameLog_refl {K : Type} (w : World K) : SameLog w w := ⟨rfl, rfl, rfl, rfl, fun _ => le_rfl⟩

def applied (m : Map K) : Option (Binding K UInt64) → Map K
  | none => m
  | some b => write m b

section Sections

variable {sys : System K n} {s : State K n} {t : Fin n} {r : Pc × World K}

theorem sameLog_freeSlot (hadm : sys.o.Admissible K) (h : Sane sys s) {a : UInt64}
    (hheld : retiredBy (s.pcs t) = some a) :
    SameLog s.world (run (freeSlot sys.o a) s.world).state ∧
      (run (freeSlot sys.o a) s.world).state.map = s.world.map := by
  obtain ⟨seg, hseg, i, hi, rfl⟩ := (h.calls t).retired a hheld
  rw [(run_freeSlot hadm h.live.mgr hseg hi).1]
  have hok := h.live.segs seg hseg
  by_cases hbit : (s.world.segs seg).bitmap i = true
  · rw [(run_delete hok hbit).2]
    refine ⟨⟨rfl, rfl, rfl, rfl, fun id => ?_⟩, rfl⟩
    by_cases hid : id = seg
    · subst hid
      simp [afterDelete]
    · simp [afterDelete, World.setSegment, World.setImage, hid]
  · rw [(run_delete_vacant hok (by simpa using hbit)).1]
    exact ⟨sameLog_refl _, rfl⟩

theorem sameLog_afterInsert {K : Type} (o : Options) (w : World K) (seg : ℕ) (key value : Bytes) :
    SameLog w (afterInsert o w seg key value) := by
  refine ⟨rfl, rfl, rfl, rfl, fun id => ?_⟩
  by_cases hid : id = seg
  · subst hid
    simp [afterInsert]
  · simp [afterInsert, World.setSegment, World.setImage, hid]

theorem updates_plain {K : Type} [DecidableEq K] {pc : Pc} (h : Plain pc = true) (m : Map K)
    (call : Call K) :
    updates m call pc = none := by
  cases pc <;> first | (cases call <;> rfl) | cases h

theorem callStep_sameLog (hadm : sys.o.Admissible K) (h : Sane sys s)
    (hlogs : logs (sys.calls t) (s.pcs t) = none)
    (hr : callStep sys.o s.compactor.locks s.world (sys.calls t) (s.pcs t) = some r) :
    SameLog s.world r.2 ∧
      r.2.map = applied s.world.map (updates s.world.map (sys.calls t) (s.pcs t)) := by
  have hsection := callStep_section hadm h hr
  have hfree := fun a => sameLog_freeSlot (t := t) (a := a) hadm h
  obtain ⟨pc', w'⟩ := r
  generalize sys.calls t = call at hsection hlogs ⊢
  generalize s.pcs t = pc at hsection hlogs hfree ⊢
  cases hsection with
  | quiet hplain hpc' =>
    rw [updates_plain hplain]
    exact ⟨sameLog_refl _, rfl⟩
  | manage hplain hpc' hmgr hre =>
    rw [updates_plain hplain]
    exact ⟨⟨rfl, rfl, rfl, rfl, fun _ => le_rfl⟩, rfl⟩
  | insert hseg hroom hlock => exact ⟨sameLog_afterInsert _ _ _ _ _, rfl⟩
  | install => exact ⟨⟨rfl, rfl, rfl, rfl, fun _ => le_rfl⟩, rfl⟩
  | logPut => cases hlogs
  | @release _ _ old hlock => exact hfree old rfl
  | miss hlookup =>
    refine ⟨sameLog_refl _, ?_⟩
    simp only [updates, hlookup, Option.isSome_none, Bool.false_eq_true, if_false, applied]
  | erase hlookup =>
    refine ⟨⟨rfl, rfl, rfl, rfl, fun _ => le_rfl⟩, ?_⟩
    simp only [updates, hlookup, Option.isSome_some, if_true, applied]
    rfl
  | logErase => cases hlogs
  | @releaseErased _ old hlock => exact hfree old rfl

theorem callStep_appends {o : Options} {locks : ℕ → Bool} {w : World K} {call : Call K} {pc : Pc}
    {rec : WalRecord K} (hlogs : logs call pc = some rec)
    (hr : callStep o locks w call pc = some r) : r.2 = (run (appendWal o rec) w).state := by
  cases call with
  | put key value =>
    cases pc <;> cases hlogs
    simp only [callStep] at hr
    split at hr
    · cases hr
      rfl
    · split at hr <;> cases hr
      · rfl
      · rfl
  | delete key =>
    cases pc <;> cases hlogs
    simp only [callStep] at hr
    split at hr <;> cases hr
    · rfl
    · rfl
  | get key size => cases pc <;> cases hlogs

theorem callStep_next {o : Options} {locks : ℕ → Bool} {w : World K} {call : Call K} {pc : Pc}
    (hr : callStep o locks w call pc = some r) :
    (logs call r.1).map binding = updates w.map call pc := by
  cases call with
  | put key value =>
    cases pc <;> simp only [callStep, reduceCtorEq] at hr
    all_goals repeat' split at hr
    all_goals cases hr
    all_goals first | rfl | exact congrArg some (binding_put _ _ _).2
  | delete key =>
    cases pc with
    | erase =>
      simp only [callStep] at hr
      split at hr <;> cases hr
      · rename_i hlookup
        simp only [updates, show w.map.lookup key = none from hlookup]
        rfl
      · rename_i a hlookup
        simp only [updates, show w.map.lookup key = some a from hlookup]
        rfl
    | _ =>
      simp only [callStep, reduceCtorEq] at hr
      try split at hr
      all_goals first | (cases hr; done) | (cases hr; rfl)
  | get key size =>
    cases pc <;> simp only [callStep, reduceCtorEq] at hr
    all_goals repeat' split at hr
    all_goals cases hr
    all_goals rfl

end Sections

/-! Without a compaction no slot is taken twice: the append cursors never go back. -/

def Below (o : Options) (w : World K) (a : UInt64) : Prop :=
  ∃ seg < o.segmentCount, ∃ i < (w.segs seg).appendCursor, a = encodeSegmentSlot seg i

theorem isSlot_of_below {K : Type} {o : Options} {w : World K} (h : SegmentsOk o w) {a : UInt64}
    (ha : Below o w a) : IsSlot o a := by
  obtain ⟨seg, hseg, i, hi, rfl⟩ := ha
  exact ⟨seg, hseg, i, lt_of_lt_of_le hi (h seg hseg).bound, rfl⟩

theorem below_of_lookup {o : Options} {w : World K} (h : Live o (fun _ _ => True) w) {k : K}
    {a : UInt64} (ha : w.map.lookup k = some a) : Below o w a := by
  obtain ⟨seg, hseg, i, hi, rfl, slot, hslot, -⟩ := h.slot_view ha
  have hok := h.segs seg hseg
  exact ⟨seg, hseg, i, hok.below i ((hok.slot_isSome i).mpr ⟨slot, hslot⟩), rfl⟩

theorem callStep_retired {o : Options} {locks : ℕ → Bool} {w : World K} {call : Call K} {pc : Pc}
    {r : Pc × World K} (hr : callStep o locks w call pc = some r) {a : UInt64}
    (ha : retiredBy r.1 = some a) :
    retiredBy pc = some a ∨ w.map.lookup call.key = some a := by
  cases call with
  | put key value =>
    cases pc <;> simp only [callStep, reduceCtorEq] at hr
    all_goals repeat' split at hr
    all_goals cases hr
    all_goals first | exact Or.inr ha | exact Or.inl ha | cases ha
  | delete key =>
    cases pc with
    | erase =>
      simp only [callStep] at hr
      split at hr <;> cases hr
      · cases ha
      · rename_i old hold
        obtain rfl := Option.some.inj ha
        exact Or.inr hold
    | _ =>
      simp only [callStep, reduceCtorEq] at hr
      try split at hr
      all_goals first | (cases hr; done) | (cases hr; exact Or.inl ha) | (cases hr; cases ha)
  | get key size =>
    obtain ⟨-, -, -, -, hnone, -⟩ := get_stays hr
    rw [ha] at hnone
    cases hnone

section Order

variable {sys : System K n} {s s' : State K n} {t : Fin n}

theorem timely_of_below (hadm : sys.o.Admissible K) (h : Sane sys s)
    (hbelow : ∀ u a, retiredBy (s.pcs u) = some a → Below sys.o s.world a) (t : Fin n) :
    Timely sys s (.call t) := by
  refine ⟨fun a ha u hu => ?_, fun a ha => by cases ha⟩
  obtain ⟨seg', hseg', i, hi, rfl⟩ := hbelow u a hu
  cases hcall : sys.calls t with
  | put key value =>
    cases hpc : s.pcs t with
    | insert seg again =>
      simp only [writes, hcall, hpc, callWrites, nextSlot, Option.mem_def] at ha
      split at ha
      · rename_i hroom
        have hbound := (h.live.segs seg' hseg').bound
        obtain ⟨rfl, rfl⟩ := encodeSegmentSlot_inj
          (lt_of_lt_of_le ((h.calls t).seg seg again hpc) hadm.segments)
          (lt_of_lt_of_le hroom hadm.slots) (lt_of_lt_of_le hseg' hadm.segments)
          (lt_of_lt_of_le (lt_of_lt_of_le hi hbound) hadm.slots) (Option.some.inj ha)
        exact lt_irrefl _ hi
      · cases ha
    | _ => simp [writes, hcall, hpc, callWrites] at ha
  | delete key => simp [writes, hcall, callWrites] at ha
  | get key size => simp [writes, hcall, callWrites] at ha

end Order

/-! The updates that are not yet in the log. -/

theorem unloggedAfter_eq {K : Type} [DecidableEq K] (m : Map K)
    (us : List (Fin n × Binding K UInt64)) (t : Fin n) (call : Call K) (pc : Pc) :
    unloggedAfter m us t call pc = match updates m call pc, logs call pc with
      | some b, _ => us ++ [(t, b)]
      | none, some _ => us.filter (·.1 ≠ t)
      | none, none => us := by
  cases call with
  | put key value => cases pc <;> rfl
  | get key size => cases pc <;> rfl
  | delete key =>
    cases pc with
    | erase =>
      simp only [unloggedAfter, updates]
      split <;> rfl
    | _ => rfl

/-- Each call has the update it is about to log, and no other, among the unlogged ones. -/
def Pending (sys : System K n) (s : State K n) : Prop :=
  ∀ t, s.unlogged.filter (·.1 = t) =
    ((logs (sys.calls t) (s.pcs t)).map fun rec => (t, binding rec)).toList

theorem split_pending {K : Type} {us : List (Fin n × Binding K UInt64)} {t : Fin n}
    {b : Binding K UInt64} (h : us.filter (·.1 = t) = [(t, b)]) :
    ∃ cs, us = us.takeWhile (·.1 ≠ t) ++ (t, b) :: cs ∧
      us.filter (·.1 ≠ t) = us.takeWhile (·.1 ≠ t) ++ cs := by
  induction us with
  | nil => cases h
  | cons p us ih =>
    by_cases hp : p.1 = t
    · simp only [List.filter_cons, hp, decide_true, if_true, List.cons.injEq] at h
      obtain ⟨rfl, hrest⟩ := h
      refine ⟨us, by simp, ?_⟩
      have hkeep : us.filter (·.1 ≠ t) = us := by
        refine List.filter_eq_self.mpr fun q hq => ?_
        have hnot := List.filter_eq_nil_iff.mp hrest q hq
        simpa using hnot
      simpa using hkeep
    · simp only [List.filter_cons, hp, decide_false, Bool.false_eq_true, if_false] at h
      obtain ⟨cs, hsplit, hfilter⟩ := ih h
      refine ⟨cs, ?_, ?_⟩
      · simp only [List.takeWhile_cons, ne_eq, hp, not_false_eq_true, decide_true, if_true,
          List.cons_append]
        exact congrArg (p :: ·) hsplit
      · simp only [List.takeWhile_cons, List.filter_cons, ne_eq, hp, not_false_eq_true,
          decide_true, if_true, List.cons_append]
        exact congrArg (p :: ·) hfilter

/-- The records of one key are appended in the order of the map updates. -/
def InOrder (sys : System K n) (s : State K n) : Action n → Prop
  | .call t => ∀ rec ∈ logs (sys.calls t) (s.pcs t),
      ∀ p ∈ s.unlogged.takeWhile (·.1 ≠ t), p.2.1 ≠ (sys.calls t).key
  | _ => True

def dumped (shards : Shards K) (d : Disk K) (k : K) : CheckpointPc K → Option (Option UInt64)
  | .dump j copied => if shards.shard k < j then some (copied.lookup k) else none
  | .rename =>
    match d.snapshotTmp with
    | some (.dump copied) => some (copied.lookup k)
    | _ => none
  | .rotate =>
    match d.snapshot with
    | some (.dump copied) => some (copied.lookup k)
    | _ => none
  | _ => none

/-- No call logs an update between the copy of its sub-map and the truncation of the log, unless
the copy has it. -/
def Caught (sys : System K n) (s : State K n) : Action n → Prop
  | .call t => ∀ rec ∈ logs (sys.calls t) (s.pcs t),
      ∀ x ∈ dumped sys.shards s.world.disk (sys.calls t).key s.checkpointer,
        x = s.world.map.lookup (sys.calls t).key
  | _ => True

/-! The files and the map. -/

/-- The files hold the map without the unlogged updates `us`. -/
def Current (o : Options) (w : World K) (us : List (Binding K UInt64)) : Prop :=
  ∃ m, Logged o w m ∧ w.map = replay m us

/-- On the keys in `p` the copy lacks at most the unlogged updates `us`. -/
def Copies (p : K → Prop) (copied m : Map K) (us : List (Binding K UInt64)) : Prop :=
  ∀ k, p k → m.lookup k = (replay copied us).lookup k

/-- The state of the files in each phase of the checkpoint. -/
def Filed (sys : System K n) (w : World K) (us : List (Binding K UInt64)) :
    CheckpointPc K → Prop
  | .dump j copied => Current sys.o w us ∧ sys.o.snapshotDir ≠ "" ∧
      Copies (fun k => sys.shards.shard k < j) copied w.map us
  | .rename => Current sys.o w us ∧ sys.o.snapshotDir ≠ "" ∧
      ∃ copied, w.disk.snapshotTmp = some (.dump copied) ∧
        Copies (fun _ => True) copied w.map us
  | .rotate => (∃ m, Logged sys.o w m) ∧ sys.o.snapshotDir ≠ "" ∧
      ∃ copied, w.disk.snapshot = some (.dump copied) ∧ Copies (fun _ => True) copied w.map us
  | _ => Current sys.o w us

section Files

variable {o : Options} {w w' : World K} {us cs : List (Binding K UInt64)} {b : Binding K UInt64}
  {p : K → Prop} {copied m : Map K}

theorem SameLog.logged (h : SameLog w w') (hlogged : Logged o w m) : Logged o w' m :=
  hlogged.congr h.wal h.snapshot h.writer

theorem Current.update (h : Current o w us) (hsame : SameLog w w')
    (hmap : w'.map = write w.map b) : Current o w' (us ++ [b]) := by
  obtain ⟨m, hlogged, hreplay⟩ := h
  refine ⟨m, hsame.logged hlogged, ?_⟩
  rw [hmap, hreplay, replay_append]
  rfl

theorem Copies.update {K : Type} [DecidableEq K] {us : List (Binding K UInt64)}
    {b : Binding K UInt64} {p : K → Prop} {copied m : Map K} (h : Copies p copied m us) :
    Copies p copied (write m b) (us ++ [b]) := by
  intro k hk
  rw [replay_append, replay_cons, replay_nil, lookup_write, lookup_write]
  split
  · rfl
  · exact h k hk

theorem fires_disabled {K : Type} [KeyType K] (h : o.walCheckpointBytes = 0) (w : World K) :
    fires o w = false := by
  simp [fires, reachesThreshold, h]

theorem Current.append (h : Current o w (us ++ b :: cs)) (hfires : fires o w = false)
    {rec : WalRecord K} (hknown : rec.type.Known) (hb : binding rec = b)
    (hfirst : b.1 ∉ us.map Prod.fst) (hmap : (run (appendWal o rec) w).state.map = w.map) :
    Current o (run (appendWal o rec) w).state (us ++ cs) := by
  obtain ⟨m, hlogged, hreplay⟩ := h
  have happended := logged_appendWal hlogged hknown
  rw [hfires] at happended
  refine ⟨_, happended, ?_⟩
  rw [hmap, hreplay, replay_hoist m cs hfirst, hb]
  rfl

theorem Copies.append {K : Type} [DecidableEq K] {us cs : List (Binding K UInt64)}
    {b : Binding K UInt64} {p : K → Prop} {copied m : Map K}
    (h : Copies p copied m (us ++ b :: cs)) (hfirst : b.1 ∉ us.map Prod.fst)
    (hcaught : p b.1 → copied.lookup b.1 = m.lookup b.1) : Copies p copied m (us ++ cs) := by
  intro k hk
  rw [h k hk]
  refine (lookup_replay_drop copied cs hfirst fun heq => ?_).symm
  rw [← h k hk, heq]
  exact hcaught (heq ▸ hk)

theorem Copies.shard {K : Type} [DecidableEq K] {us : List (Binding K UInt64)} {copied m : Map K}
    {shards : Shards K} {j : ℕ} (h : Copies (fun k => shards.shard k < j) copied m us)
    (hcurrent : ∃ m₀, m = replay m₀ us) :
    Copies (fun k => shards.shard k < j + 1) (graft (fun k => shards.shard k = j) m copied) m
      us := by
  intro k hk
  by_cases hj : shards.shard k = j
  · by_cases hmem : k ∈ us.map Prod.fst
    · obtain ⟨m₀, hm₀⟩ := hcurrent
      nth_rewrite 1 [hm₀]
      exact lookup_replay_congr _ _ _ _ (Or.inl hmem)
    · rw [lookup_replay_untouched _ _ _ hmem, lookup_graft, if_pos hj]
  · rw [h k (by omega)]
    refine lookup_replay_congr _ _ _ _ (Or.inr ?_)
    rw [lookup_graft, if_neg hj]

theorem appendWal_snapshots (h : ∃ m, Logged o w m) (hfires : fires o w = false)
    (rec : WalRecord K) :
    (run (appendWal o rec) w).state.disk.snapshot = w.disk.snapshot ∧
      (run (appendWal o rec) w).state.disk.snapshotTmp = w.disk.snapshotTmp := by
  obtain ⟨m, base, recs, -, -, hwal⟩ := h
  obtain ⟨-, hstate, -⟩ := run_appendWal (o := o) hwal rfl rec
  rw [hstate, hfires]
  exact ⟨rfl, rfl⟩

end Files

end ParaKV.Concurrent.Logging
