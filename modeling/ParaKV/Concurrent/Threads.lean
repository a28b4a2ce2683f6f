/- GID: ParaKV/Concurrent/Threads
   source: parakv/core/index/index.cc, parakv/core/segment/segment_manager.cc,
     parakv/core/segment/segment_file.cc
   digest: A thread that no lock is in the way of comes closer to its end with every section. -/

import Mathlib.Data.Prod.Lex
import ParaKV.Segment.Faults
import ParaKV.Index.Faults
import ParaKV.Concurrent.Slots

set_option autoImplicit false

namespace ParaKV.Concurrent.Threads

open Index Index.Key Index.Operations Index.Faults Segment Segment.Manager Segment.ManagerSpec
open Segment.FileSpec Core.State Concurrent.Machine Concurrent.Slots

variable {K : Type} [DecidableEq K] [KeyType K] {n : ℕ}

/-! A call. -/

def Belongs : Call K → Pc → Prop
  | _, .begin | _, .done _ _ => True
  | .put _ _, .active _ | .put _ _, .insert _ _ | .put _ _, .mark _ | .put _ _, .install _
  | .put _ _, .log _ _ | .put _ _, .revert _ _ _ | .put _ _, .discard _ _
  | .put _ _, .release _ => True
  | .delete _, .erase | .delete _, .logErase _ | .delete _, .restore _ _
  | .delete _, .releaseErased _ => True
  | .get _ _, .lookup | .get _ _, .locate _ | .get _ _, .read _ => True
  | _, _ => False

/-- The sections that a call has before it at most. -/
def remaining : Pc → ℕ
  | .begin => 10
  | .active again => if again then 6 else 9
  | .insert _ again => if again then 5 else 8
  | .mark _ => 7
  | .install _ => 4
  | .log _ _ => 3
  | .revert _ _ _ => 2
  | .discard _ _ => 1
  | .release _ => 1
  | .erase => 3
  | .logErase _ => 2
  | .restore _ _ => 1
  | .releaseErased _ => 1
  | .lookup => 3
  | .locate _ => 2
  | .read _ => 1
  | .done _ _ => 0

variable {o : Options} {locked : ℕ → Bool} {w : World K} {call : Call K} {pc : Pc}
  {r : Pc × World K}

theorem remaining_eq_zero (h : remaining pc = 0) : ∃ st v, pc = .done st v := by
  cases pc <;> simp [remaining] at h ⊢
  all_goals split_ifs at h

theorem callStep_remaining (h : callStep o locked w call pc = some r) :
    Belongs call r.1 ∧ remaining r.1 < remaining pc := by
  unfold callStep at h
  dsimp only at h
  repeat' split at h
  all_goals cases h
  all_goals simp_all [Belongs, remaining]
  -- the two attempts of `WriteToSegment`
  all_goals split_ifs <;> decide

theorem callStep_able (h : Belongs call pc) (hleft : remaining pc ≠ 0)
    (hfree : ∀ id, locked id = false) : callStep o locked w call pc ≠ none := by
  cases call <;> cases pc <;> simp [Belongs, remaining] at h hleft
  all_goals
    simp only [callStep, hfree]
    repeat' split
  all_goals simp_all

/-! What a section does to the classes of the segments. -/

theorem freeSlot_mgr {K : Type} (enc : UInt64) (w : World K) :
    (run (freeSlot o enc) w).state.mgr = w.mgr := by
  by_cases hflag : getFlag enc = .segmentSlot
  · by_cases hreg : getSegmentId enc ∈ w.mgr.segments
    · have hrun : (run (freeSlot o enc) w).state =
          (run (File.delete o (getSegmentId enc) (getSlotId enc)) w).state := by
        simp [freeSlot, hflag, hreg]
      rw [hrun]
      rcases Faults.delete_any (getSegmentId enc) (getSlotId enc) (fun _ => .ok) w rfl with
        hmem | ⟨-, hmem⟩ <;> exact congrArg Faults.Mem.mgr hmem
    · simp [freeSlot, hflag, hreg]
  · simp [freeSlot, hflag]

theorem active_manager {K : Type} {w : World K} (h : Sorted o w.mgr) :
    Sorted o (run (getActiveSegment o) w).state.mgr ∧
      Reassigned w.mgr (run (getActiveSegment o) w).state.mgr := by
  exact ⟨sorted_chooseActive w.segs h, (chooseActive_reassigned w.segs h.ok.toRegistered).1⟩

theorem mark_manager {K : Type} {w : World K} (h : Sorted o w.mgr) (id : ℕ) :
    Sorted o (markSegmentFullInternal o w.mgr id) ∧
      Reassigned w.mgr (markSegmentFullInternal o w.mgr id) :=
  ⟨sorted_mark h id, markSegmentFullInternal_reassigned h.ok.toRegistered id⟩

theorem callStep_manager (hmgr : Sorted o w.mgr) (h : callStep o locked w call pc = some r) :
    Sorted o r.2.mgr ∧ Reassigned w.mgr r.2.mgr := by
  have hsame : ∀ m, m = w.mgr → Sorted o m ∧ Reassigned w.mgr m := by
    rintro _ rfl
    exact ⟨hmgr, .refl hmgr.ok.toRegistered⟩
  unfold callStep at h
  dsimp only at h
  repeat' split at h
  all_goals cases h
  all_goals first
    | exact active_manager hmgr
    | exact mark_manager hmgr _
    | exact hsame _ rfl
    | exact hsame _ (insert_mgr ..)
    | exact hsame _ (appendWal_mgr ..)
    | exact hsame _ (freeSlot_mgr ..)

/-! The compaction thread. -/

structure Apart (o : Options) (w : World K) (job : Job) : Prop extends JobOk o w job where
  distinct : job.target ≠ job.src
  busy : job.target ∉ w.mgr.idleSet

theorem Apart.mono {K : Type} {w : World K} {w' : World K} {job : Job} (h : Apart o w job)
    (hre : Reassigned w.mgr w'.mgr) : Apart o w' job :=
  ⟨h.toJobOk.mono hre.full, h.distinct, fun hid => h.busy (hre.idle _ hid)⟩

/-- The segments of a compaction are in the classes its sections expect. -/
def Placed (o : Options) (w : World K) : CompactPc → Prop
  | .off => True
  | .finished _ => True
  | .select rest => rest.Nodup ∧ ∀ id ∈ rest, id ∈ w.mgr.fullSet
  | .enter job => Apart o w job
  | .scan job _ _ => Apart o w job
  | .log job _ _ _ _ => Apart o w job
  | .remap job _ _ _ _ => Apart o w job
  | .reclassify job => Apart o w job

def Between (cp : CompactPc) : Prop := cp = .off ∨ ∃ st, cp = .finished st

theorem Between.locks {cp : CompactPc} (h : Between cp) (id : ℕ) : cp.locks id = false := by
  rcases h with rfl | ⟨st, rfl⟩ <;> rfl

/-- How far a compaction is from its end: the candidates that are left, and the slots of the one
that is being compacted. The cursor of a source is not known before it is locked. -/
def distance : CompactPc → ℕ ×ₗ ℕ
  | .off => toLex (0, 0)
  | .finished _ => toLex (0, 0)
  | .select rest => toLex (2 * rest.length, 0)
  | .enter job => toLex (2 * job.rest.length + 1, 0)
  | .scan job cursor i => toLex (2 * job.rest.length, 3 * (cursor - i) + 2)
  | .log job cursor i _ _ => toLex (2 * job.rest.length, 3 * (cursor - (i + 1)) + 4)
  | .remap job cursor i _ _ => toLex (2 * job.rest.length, 3 * (cursor - (i + 1)) + 3)
  | .reclassify job => toLex (2 * job.rest.length, 1)

theorem Placed.mono {K : Type} {w : World K} {w' : World K} {cp : CompactPc} (h : Placed o w cp)
    (hre : Reassigned w.mgr w'.mgr) : Placed o w' cp := by
  cases cp with
  | off => trivial
  | finished st => trivial
  | select rest => exact ⟨h.1, fun id hid => hre.full id (h.2 id hid)⟩
  | enter job => exact Apart.mono h hre
  | scan job cursor i => exact Apart.mono h hre
  | log job cursor i key newSlot => exact Apart.mono h hre
  | remap job cursor i key newSlot => exact Apart.mono h hre
  | reclassify job => exact Apart.mono h hre

theorem placed_congr {K : Type} {w : World K} {w' : World K} (hmgr : Sorted o w.mgr)
    (cp : CompactPc) (h : Placed o w cp) (heq : w'.mgr = w.mgr) :
    Sorted o w'.mgr ∧ Placed o w' cp :=
  ⟨heq.symm ▸ hmgr, h.mono (heq.symm ▸ .refl hmgr.ok.toRegistered)⟩

theorem placed_select {K : Type} {w : World K} {src : ℕ} {rest : List ℕ} (hmgr : Sorted o w.mgr)
    (h : Placed o w (.select (src :: rest))) (herases : ¬ Erases o w) {target : ℕ}
    (htarget : (run (getActiveSegment o) w).val = some target) :
    Placed o (run (getActiveSegment o) w).state (.enter ⟨src, target, rest⟩) := by
  obtain ⟨hsorted, hre⟩ := active_manager hmgr
  have happending := chooseActive_appending herases htarget
  have hfull : ∀ id ∈ src :: rest, id ∈ (run (getActiveSegment o) w).state.mgr.fullSet :=
    fun id hid => hre.full id (h.2 id hid)
  refine ⟨⟨h.1, hfull, (hsorted.ok.segments _).mp (hsorted.ok.appending _ happending)⟩, ?_, ?_⟩
  · intro (heq : target = src)
    exact hsorted.classified.appending_full _ happending (heq ▸ hfull src List.mem_cons_self)
  · exact fun hidle => hsorted.classified.idle_appending _ hidle happending

theorem placed_reclassify {K : Type} {w : World K} {job : Job} (hmgr : Sorted o w.mgr)
    (h : Apart o w job) :
    Sorted o (reclassify o job.src job.target w).mgr ∧
      Placed o (reclassify o job.src job.target w) (.select job.rest) := by
  have hsrc : job.src ∉ job.rest := (List.nodup_cons.mp h.nodup).1
  have hfull := h.full _ List.mem_cons_self
  have htarget := (hmgr.ok.segments _).mpr h.target_lt
  refine ⟨⟨reclassify_ok hmgr.ok (hmgr.ok.full _ hfull) htarget, reclassify_classified
    hmgr.classified hfull ⟨htarget, h.busy⟩ fun heq => absurd heq h.distinct⟩,
    (List.nodup_cons.mp h.nodup).2, fun id hid => ?_⟩
  exact reclassify_full (h.full id (List.mem_cons_of_mem _ hid)) fun heq => hsrc (heq ▸ hid)

/-- The compaction thread waits only to copy a slot of a segment into that segment. -/
theorem compactStep_none {cp : CompactPc} (h : compactStep o w cp = none) :
    ∃ job cursor i, cp = .scan job cursor i ∧ i < cursor ∧
      (w.segs job.src).bitmap i = true ∧ job.target = job.src := by
  cases cp with
  | scan job cursor i =>
    refine ⟨job, cursor, i, rfl, ?_⟩
    by_cases hi : i < cursor
    · cases hbit : (w.segs job.src).bitmap i with
      | false => simp [compactStep, hi, hbit] at h
      | true =>
        by_cases hself : job.target = job.src
        · exact ⟨hi, rfl, hself⟩
        · simp only [compactStep, hi, hbit, hself, if_true, if_false, Bool.not_true,
            Bool.false_eq_true] at h
          split at h <;> cases h
    · simp only [compactStep, hi, if_false] at h
      split at h <;> cases h
  | select rest =>
    cases rest with
    | nil => cases h
    | cons src rest => cases htarget : (run (getActiveSegment o) w).val <;>
        simp [compactStep, htarget] at h
  | enter job =>
    simp only [compactStep] at h
    split_ifs at h
  | _ => cases h

theorem compactStep_distance {cp : CompactPc} {r : CompactPc × World K}
    (h : compactStep o w cp = some r) :
    Between cp ∨ (∃ st, r.1 = .finished st) ∨ distance r.1 < distance cp := by
  have hfewer : ∀ {m m' : ℕ} (k k' : ℕ), m < m' → toLex (m, k) < toLex (m', k') :=
    fun _ _ hm => Prod.Lex.toLex_lt_toLex.mpr (.inl hm)
  have hnearer : ∀ (m : ℕ) {k k' : ℕ}, k < k' → toLex (m, k) < toLex (m, k') :=
    fun m _ _ hk => Prod.Lex.toLex_lt_toLex.mpr (.inr ⟨rfl, hk⟩)
  cases cp with
  | off => exact .inl (.inl rfl)
  | finished st => exact .inl (.inr ⟨st, rfl⟩)
  | select rest =>
    cases rest with
    | nil =>
      cases h
      exact .inr (.inl ⟨_, rfl⟩)
    | cons src rest =>
      simp only [compactStep] at h
      split at h <;> cases h
      · exact .inr (.inl ⟨_, rfl⟩)
      · exact .inr (.inr (hfewer _ _ (by simp only [List.length_cons]; omega)))
  | enter job =>
    simp only [compactStep] at h
    split_ifs at h <;> cases h
    · exact .inr (.inl ⟨_, rfl⟩)
    · exact .inr (.inr (hfewer _ _ (by omega)))
    · exact .inr (.inr (hfewer _ _ (by omega)))
  | scan job cursor i =>
    by_cases hi : i < cursor
    · simp only [compactStep, hi, if_true] at h
      split_ifs at h <;> cases h
      · exact .inr (.inr (hnearer _ (by omega)))
      · exact .inr (.inl ⟨_, rfl⟩)
      · exact .inr (.inr (hnearer _ (by omega)))
    · simp only [compactStep, hi, if_false] at h
      split_ifs at h <;> cases h
      · exact .inr (.inl ⟨_, rfl⟩)
      · exact .inr (.inr (hnearer _ (by omega)))
  | log job cursor i key newSlot =>
    cases h
    exact .inr (.inr (hnearer _ (Nat.lt_succ_self _)))
  | remap job cursor i key newSlot =>
    cases h
    exact .inr (.inr (hnearer _ (Nat.lt_succ_self _)))
  | reclassify job =>
    cases h
    exact .inr (.inr (hnearer _ Nat.one_pos))

theorem compactStep_able {cp : CompactPc} (h : Placed o w cp) : compactStep o w cp ≠ none := by
  intro hnone
  obtain ⟨job, cursor, i, rfl, -, -, hself⟩ := compactStep_none hnone
  exact Apart.distinct h hself

theorem compactStep_placed (hmgr : Sorted o w.mgr) {cp : CompactPc} (h : Placed o w cp)
    (hcalm : ∀ src rest, cp = .select (src :: rest) → ¬ Erases o w) {r : CompactPc × World K}
    (hr : compactStep o w cp = some r) : Sorted o r.2.mgr ∧ Placed o r.2 r.1 := by
  cases cp with
  | off =>
    cases hr
    exact ⟨hmgr, candidates_nodup w, fun _ hid => candidates_full hid⟩
  | finished st =>
    cases hr
    exact ⟨hmgr, candidates_nodup w, fun _ hid => candidates_full hid⟩
  | select rest =>
    cases rest with
    | nil =>
      cases hr
      exact ⟨hmgr, trivial⟩
    | cons src rest =>
      have hsorted := (active_manager hmgr).1
      simp only [compactStep] at hr
      split at hr <;> cases hr
      · exact ⟨hsorted, trivial⟩
      · rename_i target htarget
        exact ⟨hsorted, placed_select hmgr h (hcalm src rest rfl) htarget⟩
  | enter job =>
    have hreg : job.src ∈ w.mgr.segments := hmgr.ok.full _ (h.full _ List.mem_cons_self)
    simp only [compactStep, hreg, not_true_eq_false, if_false] at hr
    split_ifs at hr <;> cases hr
    · exact ⟨hmgr, trivial⟩
    · exact ⟨hmgr, h⟩
  | scan job cursor i =>
    by_cases hi : i < cursor
    · simp only [compactStep, hi, if_true] at hr
      split_ifs at hr <;> cases hr
      · exact ⟨hmgr, h⟩
      · exact placed_congr hmgr (.finished _) trivial (insert_mgr ..)
      · exact placed_congr hmgr (.log job cursor i _ _) h (insert_mgr ..)
    · obtain ⟨hok, hstate⟩ := FileSpec.run_resetSegment o w job.src
      simp only [compactStep, hi, if_false, hok, hstate, ne_eq, not_true_eq_false] at hr
      cases hr
      exact placed_congr hmgr (.reclassify job) h rfl
  | log job cursor i key newSlot =>
    cases hr
    exact placed_congr hmgr (.remap job cursor i key newSlot) h (appendWal_mgr ..)
  | remap job cursor i key newSlot =>
    cases hr
    exact placed_congr hmgr (.scan job cursor (i + 1)) h rfl
  | reclassify job =>
    cases hr
    exact placed_reclassify hmgr h

/-! The checkpoint. -/

theorem checkpointStep_mgr {K : Type} [DecidableEq K] {w : World K} {shards : Shards K}
    {ck : CheckpointPc K} {r : CheckpointPc K × World K}
    (h : checkpointStep o shards w ck = some r) : r.2.mgr = w.mgr := by
  unfold checkpointStep at h
  dsimp only at h
  repeat' split at h
  all_goals cases h
  all_goals first
    | rfl
    | exact (Faults.rotateWal_logOnly (fun _ => .ok) w).mgr

def checkpointLeft (shards : Shards K) : CheckpointPc K → ℕ
  | .off => shards.count + 4
  | .dump j _ => (shards.count - j) + 3
  | .rename => 2
  | .rotate => 1
  | .finished _ => 0

theorem checkpointStep_left {K : Type} [DecidableEq K] {w : World K} {shards : Shards K}
    {ck : CheckpointPc K} (hleft : checkpointLeft shards ck ≠ 0) :
    ∃ r, checkpointStep o shards w ck = some r ∧
      checkpointLeft shards r.1 < checkpointLeft shards ck := by
  cases ck with
  | off =>
    by_cases hdir : o.snapshotDir = ""
    · exact ⟨(.finished .invalidArgument, w), by simp [checkpointStep, hdir],
        by simp [checkpointLeft]⟩
    · exact ⟨(.dump 0 ∅, setTmp w .corrupt), by simp [checkpointStep, hdir],
        by simp [checkpointLeft]⟩
  | dump j copied =>
    by_cases hj : j < shards.count
    · refine ⟨_, if_pos hj, ?_⟩
      simp only [checkpointLeft]
      omega
    · refine ⟨_, if_neg hj, ?_⟩
      simp [checkpointLeft]
  | rename => exact ⟨_, rfl, by simp [checkpointLeft]⟩
  | rotate => exact ⟨_, rfl, by simp [checkpointLeft]⟩
  | finished st => exact (hleft rfl).elim

/-! The whole system. -/

variable {sys : System K n} {s s' : State K n} {a : Action n}

/-- What no step spoils, however the threads interleave. -/
structure Tidy (sys : System K n) (s : State K n) : Prop where
  mgr : Sorted sys.o s.world.mgr
  calls : ∀ t, Belongs (sys.calls t) (s.pcs t)
  compactor : Placed sys.o s.world s.compactor

theorem tidy_initial {K : Type} {sys : System K n} {w : World K} (h : Sorted sys.o w.mgr)
    (content : K → Option Bytes) :
    Tidy sys (State.initial n w content) :=
  ⟨h, fun _ => trivial, trivial⟩

/-- When the compaction thread chooses a target, `GetActiveSegment` erases no element under its
iterator. -/
def Undisturbed (sys : System K n) (s : State K n) : Action n → Prop
  | .compact =>
    match s.compactor with
    | .select (_ :: _) => ¬ Erases sys.o s.world
    | _ => True
  | _ => True

instance (sys : System K n) (s : State K n) (a : Action n) : Decidable (Undisturbed sys s a) := by
  unfold Undisturbed
  repeat' split
  all_goals infer_instance

theorem Undisturbed.target {K : Type} {sys : System K n} {s : State K n}
    (h : Undisturbed sys s .compact) (src : ℕ) (rest : List ℕ)
    (hcp : s.compactor = .select (src :: rest)) : ¬ Erases sys.o s.world := by
  simpa [Undisturbed, hcp] using h

theorem tidy_step (h : Tidy sys s) (hcalm : Undisturbed sys s a)
    (hstep : Machine.step sys s a = some s') : Tidy sys s' := by
  cases a with
  | call t =>
    obtain ⟨r, hr, rfl⟩ := Option.map_eq_some_iff.mp hstep
    obtain ⟨hmgr, hre⟩ := callStep_manager h.mgr hr
    refine ⟨hmgr, fun u => ?_, h.compactor.mono hre⟩
    by_cases hu : u = t
    · subst hu
      simpa using (callStep_remaining hr).1
    · simpa [Function.update_of_ne hu] using h.calls u
  | compact =>
    obtain ⟨r, hr, rfl⟩ := Option.map_eq_some_iff.mp hstep
    obtain ⟨hmgr, hplaced⟩ := compactStep_placed h.mgr h.compactor hcalm.target hr
    exact ⟨hmgr, h.calls, hplaced⟩
  | checkpoint =>
    obtain ⟨r, hr, rfl⟩ := Option.map_eq_some_iff.mp hstep
    obtain ⟨hmgr, hplaced⟩ := placed_congr h.mgr s.compactor h.compactor (checkpointStep_mgr hr)
    exact ⟨hmgr, h.calls, hplaced⟩

structure Others (a : Action n) (s s' : State K n) : Prop where
  calls : ∀ t, a ≠ .call t → s'.pcs t = s.pcs t
  compactor : a ≠ .compact → s'.compactor = s.compactor
  checkpointer : a ≠ .checkpoint → s'.checkpointer = s.checkpointer

theorem Others.trans {K : Type} {s s' : State K n} {s'' : State K n} (h : Others a s s')
    (h' : Others a s' s'') :
    Others a s s'' where
  calls t ha := (h'.calls t ha).trans (h.calls t ha)
  compactor ha := (h'.compactor ha).trans (h.compactor ha)
  checkpointer ha := (h'.checkpointer ha).trans (h.checkpointer ha)

theorem step_others (hstep : Machine.step sys s a = some s') : Others a s s' := by
  cases a with
  | call t =>
    obtain ⟨r, -, rfl⟩ := Option.map_eq_some_iff.mp hstep
    refine ⟨fun u hu => Function.update_of_ne ?_ _ _, fun _ => rfl, fun _ => rfl⟩
    rintro rfl
    exact hu rfl
  | compact =>
    obtain ⟨r, -, rfl⟩ := Option.map_eq_some_iff.mp hstep
    exact ⟨fun _ _ => rfl, fun ha => (ha rfl).elim, fun _ => rfl⟩
  | checkpoint =>
    obtain ⟨r, -, rfl⟩ := Option.map_eq_some_iff.mp hstep
    exact ⟨fun _ _ => rfl, fun _ => rfl, fun ha => (ha rfl).elim⟩

theorem step_compact_able (h : Tidy sys s) :
    ∃ s', Machine.step sys s .compact = some s' := by
  obtain ⟨r, hr⟩ := Option.ne_none_iff_exists'.mp (compactStep_able h.compactor)
  exact ⟨_, congrArg (Option.map _) hr⟩

theorem step_compact_distance (hstep : Machine.step sys s .compact = some s') :
    Between s.compactor ∨ (∃ st, s'.compactor = .finished st) ∨
      distance s'.compactor < distance s.compactor := by
  obtain ⟨r, hr, rfl⟩ := Option.map_eq_some_iff.mp hstep
  exact compactStep_distance hr

theorem step_call_able {t : Fin n} (h : Belongs (sys.calls t) (s.pcs t))
    (hfree : Between s.compactor)
    (hleft : remaining (s.pcs t) ≠ 0) : Machine.step sys s (.call t) ≠ none := by
  obtain ⟨r, hr⟩ := Option.ne_none_iff_exists'.mp
    (callStep_able (o := sys.o) (w := s.world) h hleft hfree.locks)
  simp [Machine.step, hr]

theorem step_call_remaining {t : Fin n} (hstep : Machine.step sys s (.call t) = some s') :
    remaining (s'.pcs t) < remaining (s.pcs t) := by
  obtain ⟨r, hr, rfl⟩ := Option.map_eq_some_iff.mp hstep
  simpa using (callStep_remaining hr).2

theorem step_checkpoint_able (hleft : checkpointLeft sys.shards s.checkpointer ≠ 0) :
    ∃ s', Machine.step sys s .checkpoint = some s' ∧
      checkpointLeft sys.shards s'.checkpointer < checkpointLeft sys.shards s.checkpointer := by
  obtain ⟨r, hr, hlt⟩ := checkpointStep_left (o := sys.o) (w := s.world) hleft
  exact ⟨_, congrArg (Option.map _) hr, hlt⟩

end ParaKV.Concurrent.Threads
