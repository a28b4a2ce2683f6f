/- GID: ParaKV/Concurrent/FullOrder
   source: parakv/core/segment/segment_manager.cc
   digest: The order of the full segments over every interleaving of the manager's sections. -/

import ParaKV.Concurrent.Sections

/-!
`full_order_` should list the members of `full_set_` by the moment they entered it. The last section
of a compaction appends its target without looking at the set, so the target must not have been
marked by another thread since it was chosen.
-/

set_option autoImplicit false

namespace ParaKV.Concurrent.FullOrder

open Lib.HashOrder.UnorderedSet Lib.StepRun Segment.Base Segment.Manager Segment.ManagerSpec
open Index.Key Core.State Concurrent.Sections

variable {K : Type}

/-! The moments at which segments enter the full set. -/

def entering (m : SegmentManager) (id : ℕ) : List ℕ :=
  if id ∈ m.segments ∧ id ∉ m.fullSet then [id] else []

def scanEntries (o : Options) (segs : ℕ → SegmentBase) : List ℕ → SegmentManager → List ℕ
  | [], _ => []
  | id :: rest, m =>
    if (segs id).getFreeSlots o.segmentConfig > 0 then []
    else entering m id ++ scanEntries o segs rest (markSegmentFullInternal o m id)

def scanFromEntries (o : Options) (segs : ℕ → SegmentBase) (stale : List ℕ)
    (m : SegmentManager) : List ℕ :=
  match m.appendingSet.order with
  | [] => []
  | id :: _ => scanEntries o segs (id :: stale) m

def entries (o : Options) (s : Shared K) : Section → List ℕ
  | .addSegment id =>
    if id ∉ s.world.mgr.segments ∧ (s.world.segs id).state = .full ∧ id ∉ s.world.mgr.fullSet
    then [id] else []
  | .getActiveSegment stale => scanFromEntries o s.world.segs stale s.world.mgr
  | .chooseTarget stale => scanFromEntries o s.world.segs stale s.world.mgr
  | .markSegmentFull id => entering s.world.mgr id
  | .reclassify =>
    match s.phase with
    | .copying src active _ =>
      if (s.world.segs active).state = .full ∧ active ∉ s.world.mgr.fullSet.erase src
      then [active] else []
    | _ => []
  | _ => []

/-- The threads together with a log of the entries into the full set so far. -/
structure Logged (K : Type) where
  shared : Shared K
  log : List ℕ

def loggedStep (o : Options) (s : Logged K) (a : Section) : Option (Logged K) :=
  (sectionStep o s.shared a).map fun shared => ⟨shared, s.log ++ entries o s.shared a⟩

/-- The moment of the last entry of a segment, counted in entries. -/
def lastEntry (log : List ℕ) (id : ℕ) : ℕ := log.length - log.reverse.idxOf id

/-- The list holds each member of the set once, by the moments of their last entries. -/
structure Chronological (log : List ℕ) (m : SegmentManager) : Prop where
  nodup : m.fullOrder.Nodup
  mem_iff : ∀ id, id ∈ m.fullOrder ↔ id ∈ m.fullSet
  entered : ∀ id ∈ m.fullSet, id ∈ log
  ordered : m.fullOrder.Pairwise (lastEntry log · < lastEntry log ·)

variable {o : Options} {log : List ℕ} {m m' : SegmentManager} {id : ℕ}

theorem lastEntry_le : lastEntry log id ≤ log.length := Nat.sub_le _ _

theorem lastEntry_append_self : lastEntry (log ++ [id]) id = log.length + 1 := by
  simp [lastEntry]

theorem lastEntry_append_of_ne {j : ℕ} (hne : j ≠ id) :
    lastEntry (log ++ [id]) j = lastEntry log j := by
  have hidx : (log ++ [id]).reverse.idxOf j = log.reverse.idxOf j + 1 := by
    rw [List.reverse_append, List.reverse_singleton, List.singleton_append,
      List.idxOf_cons_ne _ hne.symm]
  rw [lastEntry, lastEntry, hidx, List.length_append, List.length_singleton]
  omega

theorem Chronological.push (h : Chronological log m) (hid : id ∉ m.fullSet)
    (horder : m'.fullOrder = m.fullOrder ++ [id])
    (hset : ∀ j, j ∈ m'.fullSet ↔ j = id ∨ j ∈ m.fullSet) : Chronological (log ++ [id]) m' := by
  have hne : ∀ j ∈ m.fullOrder, j ≠ id := by
    rintro j hj rfl
    exact hid ((h.mem_iff j).mp hj)
  refine ⟨?_, fun j => ?_, fun j hj => ?_, ?_⟩
  · rw [horder, List.nodup_append]
    refine ⟨h.nodup, List.nodup_singleton id, fun j hj i hi => ?_⟩
    exact (List.mem_singleton.mp hi) ▸ hne j hj
  · rw [horder, hset, List.mem_append, List.mem_singleton, h.mem_iff, or_comm]
  · rw [List.mem_append, List.mem_singleton]
    exact ((hset j).mp hj).symm.imp_left (h.entered j)
  · rw [horder, List.pairwise_append]
    refine ⟨?_, List.pairwise_singleton _ _, fun j hj i hi => ?_⟩
    · refine h.ordered.imp_of_mem fun {a b} ha hb hlt => ?_
      rwa [lastEntry_append_of_ne (hne a ha), lastEntry_append_of_ne (hne b hb)]
    · rw [List.mem_singleton.mp hi, lastEntry_append_of_ne (hne j hj), lastEntry_append_self]
      exact Nat.lt_succ_of_le lastEntry_le

theorem Chronological.remove (h : Chronological log m)
    (horder : m'.fullOrder = m.fullOrder.filter (· ≠ id))
    (hset : m'.fullSet = m.fullSet.erase id) : Chronological log m' := by
  refine ⟨?_, fun j => ?_, fun j hj => ?_, ?_⟩
  · rw [horder]
    exact h.nodup.filter _
  · rw [horder, hset, List.mem_filter, decide_eq_true_eq, h.mem_iff, mem_erase, and_comm]
  · rw [hset] at hj
    exact h.entered j (mem_erase.mp hj).2
  · rw [horder]
    exact h.ordered.filter _

theorem Chronological.same (h : Chronological log m) (horder : m'.fullOrder = m.fullOrder)
    (hset : m'.fullSet = m.fullSet) : Chronological log m' := by
  refine ⟨?_, ?_, ?_, ?_⟩
  · rw [horder]
    exact h.nodup
  · rw [horder, hset]
    exact h.mem_iff
  · rw [hset]
    exact h.entered
  · rw [horder]
    exact h.ordered

/-! The sections one by one. -/

/-- The classified segments are registered, whatever the threads did. -/
structure Tidy (log : List ℕ) (m : SegmentManager) : Prop extends Chronological log m where
  known : ∀ id, id ∈ m.idleSet ∨ id ∈ m.appendingSet ∨ id ∈ m.fullSet → id ∈ m.segments

theorem Tidy.moved {log' : List ℕ} (h : Tidy log m) (hm' : Chronological log' m')
    (hsegments : ∀ j, j ∈ m.segments → j ∈ m'.segments) (hid : id ∈ m'.segments)
    (hclasses : ∀ j, j ∈ m'.idleSet ∨ j ∈ m'.appendingSet ∨ j ∈ m'.fullSet →
      j = id ∨ j ∈ m.idleSet ∨ j ∈ m.appendingSet ∨ j ∈ m.fullSet) : Tidy log' m' := by
  refine ⟨hm', fun j hj => ?_⟩
  rcases hclasses j hj with rfl | hj
  · exact hid
  · exact hsegments j (h.known j hj)

theorem Tidy.silent (h : Tidy log m) : Tidy (log ++ []) m := by
  rwa [List.append_nil]

theorem tidy_markSegmentFullInternal (h : Tidy log m) (id : ℕ) :
    Tidy (log ++ entering m id) (markSegmentFullInternal o m id) := by
  unfold markSegmentFullInternal entering
  by_cases hid : id ∈ m.segments
  · by_cases hfull : id ∈ m.fullSet
    · rw [if_neg (not_not.mpr hid), if_pos hfull, if_neg fun hp => hp.2 hfull, List.append_nil]
      exact h
    · rw [if_neg (not_not.mpr hid), if_neg hfull, if_pos ⟨hid, hfull⟩]
      refine h.moved (h.push hfull rfl fun j => mem_insert) (fun j hj => hj) hid fun j hj => ?_
      simp only [mem_erase, mem_insert] at hj
      tauto
  · rw [if_pos hid, if_neg fun hp => hid hp.1, List.append_nil]
    exact h

theorem markSegmentFullInternal_segments :
    (markSegmentFullInternal o m id).segments = m.segments := by
  unfold markSegmentFullInternal
  split_ifs <;> rfl

theorem tidy_promoteIdleSegment (h : Tidy log m) :
    Tidy log (promoteIdleSegment o m).2 ∧
      (promoteIdleSegment o m).2.segments = m.segments ∧
      ∀ id ∈ (promoteIdleSegment o m).1, id ∈ m.segments := by
  unfold promoteIdleSegment
  split
  · exact ⟨h, rfl, by simp⟩
  · rename_i id rest horder
    have hid : id ∈ m.segments := h.known id (Or.inl (by simp [mem_def, horder]))
    refine ⟨h.moved (h.same rfl rfl) (fun j hj => hj) hid fun j hj => ?_, rfl, by simpa using hid⟩
    simp only [mem_erase, mem_insert] at hj
    tauto

theorem tidy_scanAppending (segs : ℕ → SegmentBase) (l : List ℕ) (h : Tidy log m)
    (hl : ∀ id ∈ l, id ∈ m.segments) :
    Tidy (log ++ scanEntries o segs l m) (scanAppending o segs l m).2 ∧
      (scanAppending o segs l m).2.segments = m.segments ∧
      ∀ id ∈ (scanAppending o segs l m).1, id ∈ m.segments := by
  induction l generalizing log m with
  | nil =>
    rw [scanEntries, List.append_nil]
    exact tidy_promoteIdleSegment h
  | cons id rest ih =>
    rw [scanEntries, scanAppending]
    split_ifs with hfree
    · rw [List.append_nil]
      exact ⟨h, rfl, by simpa using hl id (by simp)⟩
    · have hsegments : (markSegmentFullInternal o m id).segments = m.segments :=
        markSegmentFullInternal_segments
      rw [← List.append_assoc, ← hsegments]
      refine ih (tidy_markSegmentFullInternal h id) fun j hj => ?_
      rw [hsegments]
      exact hl j (by simp [hj])

theorem tidy_scanFrom (segs : ℕ → SegmentBase) {stale : List ℕ} (h : Tidy log m)
    (hstale : ∀ id ∈ stale, id ∈ m.segments) :
    Tidy (log ++ scanFromEntries o segs stale m) (scanFrom o segs stale m).2 ∧
      (scanFrom o segs stale m).2.segments = m.segments ∧
      ∀ id ∈ (scanFrom o segs stale m).1, id ∈ m.segments := by
  unfold scanFrom scanFromEntries
  cases horder : m.appendingSet.order with
  | nil =>
    rw [List.append_nil]
    exact tidy_promoteIdleSegment h
  | cons id rest =>
    have hid : id ∈ m.segments := h.known id (Or.inr (Or.inl (by simp [mem_def, horder])))
    exact tidy_scanAppending segs (id :: stale) h (by simpa [hid] using hstale)

variable {w : World K}

theorem tidy_addSegment (h : Tidy log w.mgr) (hid : id ∉ w.mgr.segments) :
    Tidy (log ++ if (w.segs id).state = .full ∧ id ∉ w.mgr.fullSet then [id] else [])
      (run (addSegment o id) w).state.mgr := by
  have hgrown : ∀ j, j ∈ w.mgr.segments → j ∈ w.mgr.segments.insert o.hash id :=
    fun j hj => mem_insert.mpr (Or.inr hj)
  have hnew : id ∈ w.mgr.segments.insert o.hash id := mem_insert.mpr (Or.inl rfl)
  have hfull : id ∉ w.mgr.fullSet := fun hin => hid (h.known id (Or.inr (Or.inr hin)))
  rw [(run_addSegment hid).2.2]
  cases (w.segs id).state with
  | idle =>
    simp only [reduceCtorEq, false_and, if_false, List.append_nil]
    refine h.moved (h.same rfl rfl) hgrown hnew fun j hj => ?_
    simp only [SegmentManager.classify, mem_insert] at hj
    tauto
  | appending =>
    simp only [reduceCtorEq, false_and, if_false, List.append_nil]
    refine h.moved (h.same rfl rfl) hgrown hnew fun j hj => ?_
    simp only [SegmentManager.classify, mem_insert] at hj
    tauto
  | full =>
    rw [if_pos ⟨rfl, hfull⟩]
    refine h.moved (h.push hfull rfl fun j => mem_insert) hgrown hnew fun j hj => ?_
    simp only [SegmentManager.classify, mem_insert] at hj
    tauto

theorem tidy_reclassify {src active : ℕ} (h : Tidy log w.mgr) (hsrc : src ∈ w.mgr.segments)
    (hactive : active ∈ w.mgr.segments)
    (hunmarked : (w.segs active).state = .full → active ∉ w.mgr.fullSet.erase src) :
    Tidy (log ++ if (w.segs active).state = .full ∧ active ∉ w.mgr.fullSet.erase src
      then [active] else []) (reclassify o src active w).mgr := by
  have hmid : Tidy log { w.mgr with
      fullSet := w.mgr.fullSet.erase src
      fullOrder := w.mgr.fullOrder.filter (· ≠ src)
      idleSet := w.mgr.idleSet.insert o.hash src } := by
    refine h.moved (h.remove rfl rfl) (fun j hj => hj) hsrc fun j hj => ?_
    simp only [mem_erase, mem_insert] at hj
    tauto
  by_cases hfull : (w.segs active).state = .full
  · have hnew := hunmarked hfull
    simp only [reclassify, if_pos hfull]
    rw [if_pos ⟨hfull, hnew⟩]
    refine hmid.moved (hmid.push hnew rfl fun j => mem_insert) (fun j hj => hj) hactive
      fun j hj => ?_
    simp only [mem_erase, mem_insert] at hj ⊢
    tauto
  · simp only [reclassify, if_neg hfull]
    rw [if_neg fun hp => hfull hp.1, List.append_nil]
    exact hmid

/-! Every run. -/

def PhaseKnown (m : SegmentManager) : Phase → Prop
  | .chosen _ active _ => active ∈ m.segments
  | .copying src active _ => src ∈ m.segments ∧ active ∈ m.segments
  | _ => True

theorem PhaseKnown.mono {p : Phase} (h : PhaseKnown m p)
    (hsub : ∀ j, j ∈ m.segments → j ∈ m'.segments) : PhaseKnown m' p := by
  cases p with
  | starting => trivial
  | waiting rest => trivial
  | chosen src active rest => exact hsub active h
  | copying src active rest => exact ⟨hsub src h.1, hsub active h.2⟩

def TargetUnmarked (w : World K) : Phase → Prop
  | .copying src active _ => (w.segs active).state = .full → active ∉ w.mgr.fullSet.erase src
  | _ => True

/-- The last section of a compaction finds a full target unmarked. -/
def Unmarked (s : Logged K) : Section → Prop
  | .reclassify => TargetUnmarked s.shared.world s.shared.phase
  | _ => True

instance (w : World K) (p : Phase) : Decidable (TargetUnmarked w p) := by
  cases p <;> unfold TargetUnmarked <;> infer_instance

instance (s : Logged K) : (a : Section) → Decidable (Unmarked s a)
  | .reclassify => inferInstanceAs (Decidable (TargetUnmarked s.shared.world s.shared.phase))
  | .segments _ | .addSegment _ | .loadState | .getActiveSegment _ | .markSegmentFull _
  | .saveState | .selectCandidates | .chooseTarget _ | .findSource | .compactFails =>
    .isTrue trivial

structure Kept (s : Logged K) : Prop where
  tidy : Tidy s.log s.shared.world.mgr
  phase : PhaseKnown s.shared.world.mgr s.shared.phase
  started : s.shared.phase ≠ .starting

theorem Kept.others {s : Logged K} {w' : World K} {es : List ℕ} (h : Kept s)
    (htidy : Tidy (s.log ++ es) w'.mgr)
    (hsegments : ∀ j, j ∈ s.shared.world.mgr.segments → j ∈ w'.mgr.segments) :
    Kept ⟨{ s.shared with world := w' }, s.log ++ es⟩ :=
  ⟨htidy, h.phase.mono hsegments, h.started⟩

theorem kept_step {s s' : Logged K} {a : Section} (h : Kept s) (hunmarked : Unmarked s a)
    (hstep : loggedStep o s a = some s') : Kept s' := by
  obtain ⟨shared, hshared, rfl⟩ := Option.map_eq_some_iff.mp hstep
  cases a with
  | segments segs =>
    cases hshared
    exact h.others h.tidy.silent fun j hj => hj
  | addSegment id =>
    cases hshared
    by_cases hid : id ∈ s.shared.world.mgr.segments
    · have hstate : (run (addSegment o id) s.shared.world).state = s.shared.world := by
        simp [addSegment, hid]
      rw [hstate, entries, if_neg fun hp => hp.1 hid]
      exact h.others h.tidy.silent fun j hj => hj
    · have htidy := tidy_addSegment (o := o) h.tidy hid
      refine h.others ?_ fun j hj => ?_
      · simpa only [entries, hid, not_false_eq_true, true_and] using htidy
      · rw [(run_addSegment hid).2.2, classify_segments]
        exact mem_insert.mpr (Or.inr hj)
  | loadState =>
    simp only [sectionStep] at hshared
    split at hshared
    · rename_i hp
      exact (h.started hp).elim
    · cases hshared
  | getActiveSegment stale =>
    simp only [sectionStep] at hshared
    split_ifs at hshared with hready
    cases hshared
    obtain ⟨htidy, hsegments, -⟩ := tidy_scanFrom (o := o) s.shared.world.segs h.tidy hready.2
    exact h.others htidy fun j hj => hsegments ▸ hj
  | markSegmentFull id =>
    simp only [sectionStep] at hshared
    split_ifs at hshared
    cases hshared
    have hsegments : (markSegmentFullInternal o s.shared.world.mgr id).segments =
        s.shared.world.mgr.segments := markSegmentFullInternal_segments
    exact h.others (tidy_markSegmentFullInternal h.tidy id) fun j hj => hsegments ▸ hj
  | saveState =>
    simp only [sectionStep] at hshared
    split_ifs at hshared
    cases hshared
    have hmgr : (run saveState s.shared.world).state.mgr = s.shared.world.mgr := by
      simp [saveState]
    refine h.others ?_ fun j hj => hmgr ▸ hj
    rw [hmgr]
    exact h.tidy.silent
  | selectCandidates =>
    simp only [sectionStep] at hshared
    split at hshared
    · cases hshared
      exact ⟨h.tidy.silent, trivial, by simp⟩
    · cases hshared
  | chooseTarget stale =>
    simp only [sectionStep] at hshared
    split at hshared
    · split_ifs at hshared with hready
      obtain ⟨htidy, hsegments, hval⟩ := tidy_scanFrom (o := o) s.shared.world.segs h.tidy hready
      cases hchosen : (run (getActiveSegmentFrom o stale) s.shared.world).val with
      | none =>
        simp only [hchosen] at hshared
        cases hshared
        exact ⟨htidy, trivial, by simp⟩
      | some active =>
        simp only [hchosen] at hshared
        cases hshared
        refine ⟨htidy, ?_, by simp⟩
        show active ∈ (scanFrom o s.shared.world.segs stale s.shared.world.mgr).2.segments
        rw [hsegments]
        exact hval active hchosen
    · cases hshared
  | findSource =>
    have hphase := h.phase
    simp only [sectionStep] at hshared
    split at hshared
    · rename_i src active rest hp
      rw [hp] at hphase
      split_ifs at hshared with hsrc
      · cases hshared
        exact ⟨h.tidy.silent, ⟨hsrc, hphase⟩, by simp⟩
      · cases hshared
        exact ⟨h.tidy.silent, trivial, by simp⟩
    · cases hshared
  | compactFails =>
    simp only [sectionStep] at hshared
    split at hshared
    · cases hshared
      exact ⟨h.tidy.silent, trivial, by simp⟩
    · cases hshared
  | reclassify =>
    have hphase := h.phase
    simp only [sectionStep] at hshared
    split at hshared
    · rename_i src active rest hp
      cases hshared
      rw [hp] at hphase
      simp only [Unmarked, TargetUnmarked, hp] at hunmarked
      refine ⟨?_, trivial, by simp⟩
      simp only [entries, hp]
      exact tidy_reclassify h.tidy hphase.1 hphase.2 hunmarked
    · cases hshared

def Logged.initial (d : Disk K) : Logged K := ⟨⟨World.boot d, .waiting []⟩, []⟩

theorem kept_initial (d : Disk K) : Kept (Logged.initial d) := by
  refine ⟨⟨⟨?_, ?_, ?_, ?_⟩, ?_⟩, trivial, by simp [Logged.initial]⟩ <;>
    simp [Logged.initial, World.boot, SegmentManager.fresh]

/-- As long as no other section marks the target of a compaction before the compaction does, the
list of the full segments is chronological and free of repetitions. -/
theorem full_order_chronological {d : Disk K} {as : List Section} {s : Logged K}
    (hrun : GuardedRun (loggedStep o) Unmarked (Logged.initial d) as s) :
    Chronological s.log s.shared.world.mgr := by
  have hkept : Kept s := hrun.invariant (I := fun _ s => Kept s) (kept_initial d)
    fun _ _ _ _ h hunmarked hstep => kept_step h hunmarked hstep
  exact hkept.tidy.toChronological

/-- A compaction of segment 0 into segment 1, which it fills; `others` runs before it takes the
mutex again. -/
def fillingRun (others : List Section) : List Section :=
  [.segments (threeSegments 3), .addSegment 0, .addSegment 1, .addSegment 2, .selectCandidates,
    .chooseTarget [], .findSource,
    .segments (Function.update (threeSegments 4) 1
      { threeSegments 4 1 with state := .full })] ++ others ++ [.reclassify]

/-- Another thread looks for an active segment and marks the target. -/
theorem target_listed_twice :
    (perform (loggedStep (Index.Runs.smallOptions 4 0)) (Logged.initial (Disk.empty Key64))
      (fillingRun [.getActiveSegment []])).map (fun s => s.shared.world.mgr.fullOrder) =
        some [1, 1] := by
  decide +kernel

theorem full_order_chronological_filled :
    ∃ s : Logged Key64, GuardedRun (loggedStep (Index.Runs.smallOptions 4 0)) Unmarked
      (Logged.initial (Disk.empty Key64)) (fillingRun []) s ∧
      s.shared.world.mgr.fullOrder = [1] ∧ Chronological s.log s.shared.world.mgr := by
  obtain ⟨s, hrun, hs⟩ := exists_guardedRun (f := fun s : Logged Key64 =>
      s.shared.world.mgr.fullOrder)
    (show (performGuarded (loggedStep (Index.Runs.smallOptions 4 0)) Unmarked
      (Logged.initial (Disk.empty Key64)) (fillingRun [])).map _ = some [1] by decide +kernel)
  exact ⟨s, hrun, hs, full_order_chronological hrun⟩

end ParaKV.Concurrent.FullOrder
