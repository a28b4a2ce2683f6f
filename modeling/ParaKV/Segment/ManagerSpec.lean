/- GID: ParaKV/Segment/ManagerSpec
   source: parakv/core/segment/segment_manager.cc
   digest: What the manager's steps do to the classes of the segments. -/

import ParaKV.Segment.Manager

set_option autoImplicit false

namespace ParaKV.Segment.ManagerSpec

open Lib.HashOrder Lib.HashOrder.UnorderedSet Segment.Base Segment.Manager Core.State

variable {K : Type} {o : Options}

/-- The three classes hold registered segments only. -/
structure Registered (m : SegmentManager) : Prop where
  idle : ∀ id ∈ m.idleSet, id ∈ m.segments
  appending : ∀ id ∈ m.appendingSet, id ∈ m.segments
  full : ∀ id ∈ m.fullSet, id ∈ m.segments

/-- The classes do not overlap. Nothing but the choice of segments depends on it. -/
structure Classified (m : SegmentManager) : Prop extends Registered m where
  idle_appending : ∀ id ∈ m.idleSet, id ∉ m.appendingSet
  idle_full : ∀ id ∈ m.idleSet, id ∉ m.fullSet
  appending_full : ∀ id ∈ m.appendingSet, id ∉ m.fullSet

instance (m : SegmentManager) : Decidable (Classified m) :=
  decidable_of_iff
    (((∀ id ∈ m.idleSet.order, id ∈ m.segments) ∧ (∀ id ∈ m.appendingSet.order, id ∈ m.segments) ∧
        ∀ id ∈ m.fullSet.order, id ∈ m.segments) ∧
      (∀ id ∈ m.idleSet.order, id ∉ m.appendingSet) ∧ (∀ id ∈ m.idleSet.order, id ∉ m.fullSet) ∧
        ∀ id ∈ m.appendingSet.order, id ∉ m.fullSet)
    ⟨fun h => ⟨⟨h.1.1, h.1.2.1, h.1.2.2⟩, h.2.1, h.2.2.1, h.2.2.2⟩,
      fun h => ⟨⟨h.idle, h.appending, h.full⟩, h.idle_appending, h.idle_full, h.appending_full⟩⟩

structure ManagerOk (o : Options) (m : SegmentManager) : Prop extends Registered m where
  segments : ∀ id, id ∈ m.segments ↔ id < o.segmentCount

structure Sorted (o : Options) (m : SegmentManager) : Prop where
  ok : ManagerOk o m
  classified : Classified m

def Unclassified (m : SegmentManager) (id : ℕ) : Prop :=
  id ∉ m.idleSet ∧ id ∉ m.appendingSet ∧ id ∉ m.fullSet

variable {m : SegmentManager} {id : ℕ}

@[simp] theorem classify_segments (state : SegmentState) :
    (SegmentManager.classify o m id state).segments = m.segments := by
  cases state <;> rfl

theorem classified_classify (h : Classified m) (hid : id ∈ m.segments)
    (hnew : Unclassified m id) (state : SegmentState) :
    Classified (SegmentManager.classify o m id state) := by
  obtain ⟨hi, ha, hf⟩ := hnew
  have hi' : ∀ j ∈ m.idleSet, j ≠ id := fun j hj heq => hi (heq ▸ hj)
  have ha' : ∀ j ∈ m.appendingSet, j ≠ id := fun j hj heq => ha (heq ▸ hj)
  cases state
  case idle =>
    refine ⟨⟨?_, h.appending, h.full⟩, ?_, ?_, h.appending_full⟩ <;>
      intro j hj <;> rcases mem_insert.mp hj with rfl | hj
    exacts [hid, h.idle j hj, ha, h.idle_appending j hj, hf, h.idle_full j hj]
  case appending =>
    refine ⟨⟨h.idle, ?_, h.full⟩, ?_, h.idle_full, ?_⟩ <;> intro j hj
    · rcases mem_insert.mp hj with rfl | hj
      exacts [hid, h.appending j hj]
    · simp [SegmentManager.classify, hi' j hj, h.idle_appending j hj]
    · rcases mem_insert.mp hj with rfl | hj
      exacts [hf, h.appending_full j hj]
  case full =>
    refine ⟨⟨h.idle, h.appending, ?_⟩, h.idle_appending, ?_, ?_⟩ <;> intro j hj
    · rcases mem_insert.mp hj with rfl | hj
      exacts [hid, h.full j hj]
    · simp [SegmentManager.classify, hi' j hj, h.idle_full j hj]
    · simp [SegmentManager.classify, ha' j hj, h.appending_full j hj]

/-! The active segment. -/

structure Reassigned (m m' : SegmentManager) : Prop where
  registered : Registered m'
  segments : m'.segments = m.segments
  full : ∀ id ∈ m.fullSet, id ∈ m'.fullSet
  idle : ∀ id ∈ m'.idleSet, id ∈ m.idleSet

theorem Reassigned.refl (h : Registered m) : Reassigned m m :=
  ⟨h, rfl, fun _ hj => hj, fun _ hj => hj⟩

theorem Reassigned.trans {m' m'' : SegmentManager} (h : Reassigned m m')
    (h' : Reassigned m' m'') : Reassigned m m'' :=
  ⟨h'.registered, h'.segments.trans h.segments, fun id hid => h'.full id (h.full id hid),
    fun id hid => h.idle id (h'.idle id hid)⟩

theorem Reassigned.managerOk {m' : SegmentManager} (h : Reassigned m m') (hm : ManagerOk o m) :
    ManagerOk o m' :=
  ⟨h.registered, fun id => by rw [h.segments]; exact hm.segments id⟩

theorem markSegmentFullInternal_reassigned (h : Registered m) (id : ℕ) :
    Reassigned m (markSegmentFullInternal o m id) := by
  unfold markSegmentFullInternal
  split_ifs with hid hfull
  · exact .refl h
  · refine ⟨⟨?_, ?_, ?_⟩, rfl, ?_, ?_⟩ <;> intro j hj <;>
      simp only [mem_erase, mem_insert] at hj ⊢
    · exact h.idle j hj.2
    · exact h.appending j hj.2
    · rcases hj with rfl | hj
      exacts [hid, h.full j hj]
    · exact Or.inr hj
    · exact hj.2
  · exact .refl h

theorem markSegmentFullInternal_classified (h : Classified m) (id : ℕ) :
    Classified (markSegmentFullInternal o m id) := by
  refine ⟨(markSegmentFullInternal_reassigned h.toRegistered id).registered, ?_, ?_, ?_⟩ <;>
    unfold markSegmentFullInternal <;> split_ifs <;> intro j hj
  · exact h.idle_appending j hj
  · exact fun ha => h.idle_appending j (mem_erase.mp hj).2 (mem_erase.mp ha).2
  · exact h.idle_appending j hj
  · exact h.idle_full j hj
  · obtain ⟨hne, hj⟩ := mem_erase.mp hj
    exact fun hf => (mem_insert.mp hf).elim hne (h.idle_full j hj)
  · exact h.idle_full j hj
  · exact h.appending_full j hj
  · obtain ⟨hne, hj⟩ := mem_erase.mp hj
    exact fun hf => (mem_insert.mp hf).elim hne (h.appending_full j hj)
  · exact h.appending_full j hj

theorem promoteIdleSegment_reassigned (h : Registered m) :
    Reassigned m (promoteIdleSegment o m).2 := by
  unfold promoteIdleSegment
  cases hidle : m.idleSet.order with
  | nil => exact .refl h
  | cons id rest =>
    have hid : id ∈ m.idleSet := by simp [mem_def, hidle]
    refine ⟨⟨fun j hj => h.idle j (mem_erase.mp hj).2, fun j hj => ?_, h.full⟩, rfl,
      fun _ hj => hj, fun _ hj => (mem_erase.mp hj).2⟩
    rcases mem_insert.mp hj with rfl | hj
    exacts [h.idle j hid, h.appending j hj]

theorem promoteIdleSegment_appending (hid : (promoteIdleSegment o m).1 = some id) :
    id ∈ (promoteIdleSegment o m).2.appendingSet := by
  unfold promoteIdleSegment at hid ⊢
  cases hidle : m.idleSet.order with
  | nil => simp [hidle] at hid
  | cons first rest =>
    obtain rfl : first = id := by simpa [hidle] using hid
    simp

theorem promoteIdleSegment_classified (h : Classified m) :
    Classified (promoteIdleSegment o m).2 := by
  refine ⟨(promoteIdleSegment_reassigned h.toRegistered).registered, ?_, ?_, ?_⟩ <;>
    unfold promoteIdleSegment <;> cases hidle : m.idleSet.order <;> intro j hj
  · exact h.idle_appending j hj
  · obtain ⟨hne, hj⟩ := mem_erase.mp hj
    exact fun ha => (mem_insert.mp ha).elim hne (h.idle_appending j hj)
  · exact h.idle_full j hj
  · exact h.idle_full j (mem_erase.mp hj).2
  · exact h.appending_full j hj
  · rename_i first rest
    rcases mem_insert.mp hj with rfl | hj
    exacts [h.idle_full j (by simp [mem_def, hidle]), h.appending_full j hj]

def Started (m : SegmentManager) (id : ℕ) : Prop := id ∈ m.segments ∧ id ∉ m.idleSet

theorem Classified.started_of_appending (h : Classified m) (hid : id ∈ m.appendingSet) :
    Started m id :=
  ⟨h.appending id hid, fun hidle => h.idle_appending id hidle hid⟩

theorem Classified.started_of_full (h : Classified m) (hid : id ∈ m.fullSet) : Started m id :=
  ⟨h.full id hid, fun hidle => h.idle_full id hidle hid⟩

theorem Reassigned.started {m' : SegmentManager} (h : Reassigned m m') (hid : Started m id) :
    Started m' id :=
  ⟨h.segments ▸ hid.1, fun hidle => hid.2 (h.idle id hidle)⟩

theorem scanAppending_reassigned (segs : ℕ → SegmentBase) (l : List ℕ) (h : Registered m)
    (hl : ∀ id ∈ l, id ∈ m.segments) :
    Reassigned m (scanAppending o segs l m).2 ∧
      ∀ id, (scanAppending o segs l m).1 = some id → id ∈ m.segments := by
  induction l generalizing m with
  | nil =>
    have hre := promoteIdleSegment_reassigned (o := o) h
    refine ⟨hre, fun id hid => ?_⟩
    rw [← hre.segments]
    exact hre.registered.appending id (promoteIdleSegment_appending hid)
  | cons id rest ih =>
    unfold scanAppending
    split_ifs
    · refine ⟨.refl h, fun j hj => ?_⟩
      obtain rfl : id = j := by simpa using hj
      exact hl id (by simp)
    · have hmark := markSegmentFullInternal_reassigned (o := o) h id
      obtain ⟨hre, hactive⟩ := ih hmark.registered fun j hj => by
        rw [hmark.segments]
        exact hl j (by simp [hj])
      exact ⟨hmark.trans hre, fun j hj => hmark.segments ▸ hactive j hj⟩

theorem scanAppending_classified (segs : ℕ → SegmentBase) (l : List ℕ) (h : Classified m)
    (hl : ∀ id ∈ l, Started m id) :
    Classified (scanAppending o segs l m).2 ∧
      ∀ id, (scanAppending o segs l m).1 = some id → Started (scanAppending o segs l m).2 id := by
  induction l generalizing m with
  | nil =>
    have hclass := promoteIdleSegment_classified (o := o) h
    exact ⟨hclass, fun id hid =>
      hclass.started_of_appending (promoteIdleSegment_appending hid)⟩
  | cons id rest ih =>
    unfold scanAppending
    split_ifs
    · refine ⟨h, fun j hj => ?_⟩
      obtain rfl : id = j := by simpa using hj
      exact hl id (by simp)
    · have hmark := markSegmentFullInternal_reassigned (o := o) h.toRegistered id
      exact ih (markSegmentFullInternal_classified h id) fun j hj =>
        hmark.started (hl j (by simp [hj]))

section Stale

variable {first : ℕ} {rest : List ℕ} (horder : m.appendingSet.order = first :: rest)

include horder

/-- The loop reads elements of the appending or of the full set, wherever it goes. -/
theorem mem_staleIds (hid : id ∈ staleIds o m) :
    id ∈ (markSegmentFullInternal o m first).appendingSet ∨
      id ∈ (markSegmentFullInternal o m first).fullSet := by
  simp only [staleIds, horder] at hid
  exact o.hash.stale_mem _ _ _ id hid

theorem registered_staleIds (h : Registered m) (hid : id ∈ staleIds o m) :
    id ∈ (markSegmentFullInternal o m first).segments := by
  have hmark := (markSegmentFullInternal_reassigned (o := o) h first).registered
  exact (mem_staleIds horder hid).elim (hmark.appending id) (hmark.full id)

theorem started_staleIds (h : Classified m) (hid : id ∈ staleIds o m) :
    Started (markSegmentFullInternal o m first) id := by
  have hmark := markSegmentFullInternal_classified (o := o) h first
  exact (mem_staleIds horder hid).elim hmark.started_of_appending hmark.started_of_full

end Stale

theorem chooseActive_reassigned (segs : ℕ → SegmentBase) (h : Registered m) :
    Reassigned m (chooseActive o segs m).2 ∧
      ∀ id, (chooseActive o segs m).1 = some id → id ∈ m.segments := by
  unfold chooseActive scanFrom
  split
  · exact scanAppending_reassigned segs [] h (by simp)
  · rename_i first rest horder
    split_ifs
    · refine ⟨.refl h, fun j hj => ?_⟩
      obtain rfl : first = j := by simpa using hj
      exact h.appending first (by simp [mem_def, horder])
    · have hmark := markSegmentFullInternal_reassigned (o := o) h first
      obtain ⟨hre, hactive⟩ := scanAppending_reassigned (o := o) segs (staleIds o m)
        hmark.registered fun j hj => registered_staleIds horder h hj
      exact ⟨hmark.trans hre, fun j hj => hmark.segments ▸ hactive j hj⟩

theorem chooseActive_classified (segs : ℕ → SegmentBase) (h : Classified m) :
    Classified (chooseActive o segs m).2 ∧
      ∀ id, (chooseActive o segs m).1 = some id → Started (chooseActive o segs m).2 id := by
  unfold chooseActive scanFrom
  split
  · exact scanAppending_classified segs [] h (by simp)
  · rename_i first rest horder
    split_ifs
    · refine ⟨h, fun j hj => ?_⟩
      obtain rfl : first = j := by simpa using hj
      exact h.started_of_appending (by simp [mem_def, horder])
    · exact scanAppending_classified segs (staleIds o m)
        (markSegmentFullInternal_classified h first) fun j hj => started_staleIds horder h hj

theorem getActiveSegment_spec {w : World K} (h : ManagerOk o w.mgr) :
    ∃ m', (run (getActiveSegment o) w).state = { w with mgr := m' } ∧
      (run (getActiveSegment o) w).trace = [] ∧ ManagerOk o m' ∧
      Reassigned w.mgr m' ∧
      ∀ id, (run (getActiveSegment o) w).val = some id → id < o.segmentCount := by
  obtain ⟨hre, hactive⟩ := chooseActive_reassigned (o := o) w.segs h.toRegistered
  exact ⟨_, rfl, rfl, hre.managerOk h, hre, fun id hid => (h.segments id).mp (hactive id hid)⟩

/-- Unless the loop erases an element, the active segment is an appending one. -/
theorem chooseActive_appending {w : World K} (herases : ¬ Erases o w)
    (hid : (chooseActive o w.segs w.mgr).1 = some id) :
    id ∈ (chooseActive o w.segs w.mgr).2.appendingSet := by
  unfold chooseActive scanFrom at hid ⊢
  split at hid
  · exact promoteIdleSegment_appending hid
  · rename_i first rest horder
    have hfree : (w.segs first).getFreeSlots o.segmentConfig > 0 := by
      by_contra hfree
      exact herases ⟨first, by simp [horder], hfree⟩
    rw [if_pos hfree] at hid ⊢
    obtain rfl : first = id := by simpa using hid
    simp [mem_def, horder]

theorem markSegmentFull_ok (h : ManagerOk o m) (id : ℕ) :
    ManagerOk o (markSegmentFullInternal o m id) :=
  (markSegmentFullInternal_reassigned h.toRegistered id).managerOk h

theorem sorted_chooseActive (segs : ℕ → SegmentBase) (h : Sorted o m) :
    Sorted o (chooseActive o segs m).2 :=
  ⟨(chooseActive_reassigned segs h.ok.toRegistered).1.managerOk h.ok,
    (chooseActive_classified segs h.classified).1⟩

theorem sorted_mark (h : Sorted o m) (id : ℕ) : Sorted o (markSegmentFullInternal o m id) :=
  ⟨markSegmentFull_ok h.ok id, markSegmentFullInternal_classified h.classified id⟩

/-! The end of one compaction. -/

theorem reclassify_ok {w : World K} {srcId active : ℕ} (h : ManagerOk o w.mgr)
    (hsrc : srcId ∈ w.mgr.segments) (hactive : active ∈ w.mgr.segments) :
    ManagerOk o (reclassify o srcId active w).mgr := by
  have hidle : ∀ j ∈ w.mgr.idleSet.insert o.hash srcId, j ∈ w.mgr.segments := by
    intro j hj
    rcases mem_insert.mp hj with rfl | hj
    exacts [hsrc, h.idle j hj]
  unfold reclassify
  split_ifs
  · refine ⟨⟨hidle, fun j hj => h.appending j (mem_erase.mp hj).2, fun j hj => ?_⟩, h.segments⟩
    rcases mem_insert.mp hj with rfl | hj
    exacts [hactive, h.full j (mem_erase.mp hj).2]
  · exact ⟨⟨hidle, h.appending, fun j hj => h.full j (mem_erase.mp hj).2⟩, h.segments⟩

theorem reclassify_classified {w : World K} {srcId active : ℕ} (h : Classified w.mgr)
    (hsrc : srcId ∈ w.mgr.fullSet) (hactive : Started w.mgr active)
    (hself : active = srcId → (w.segs active).state ≠ .full) :
    Classified (reclassify o srcId active w).mgr := by
  -- the source leaves the full class for the idle one
  have hmid : Classified { w.mgr with
      fullSet := w.mgr.fullSet.erase srcId
      fullOrder := w.mgr.fullOrder.filter (· ≠ srcId)
      idleSet := w.mgr.idleSet.insert o.hash srcId } := by
    refine ⟨⟨?_, h.appending, ?_⟩, ?_, ?_, ?_⟩ <;> intro j hj
    · rcases mem_insert.mp hj with rfl | hj
      exacts [h.full j hsrc, h.idle j hj]
    · exact h.full j (mem_erase.mp hj).2
    · rcases mem_insert.mp hj with rfl | hj
      exacts [fun ha => h.appending_full j ha hsrc, h.idle_appending j hj]
    · rcases mem_insert.mp hj with rfl | hj
      · exact fun hf => (mem_erase.mp hf).1 rfl
      · exact fun hf => h.idle_full j hj (mem_erase.mp hf).2
    · exact fun hf => h.appending_full j hj (mem_erase.mp hf).2
  unfold reclassify
  split_ifs with hfull
  · refine ⟨⟨hmid.idle, ?_, ?_⟩, ?_, ?_, ?_⟩ <;> intro j hj
    · exact hmid.appending j (mem_erase.mp hj).2
    · rcases mem_insert.mp hj with rfl | hj
      exacts [hactive.1, hmid.full j hj]
    · exact fun ha => hmid.idle_appending j hj (mem_erase.mp ha).2
    · intro hf
      rcases mem_insert.mp hf with rfl | hf
      · rcases mem_insert.mp hj with heq | hj
        exacts [hself heq hfull, hactive.2 hj]
      · exact hmid.idle_full j hj hf
    · obtain ⟨hja, hj⟩ := mem_erase.mp hj
      intro hf
      rcases mem_insert.mp hf with rfl | hf
      exacts [hja rfl, hmid.appending_full j hj hf]
  · exact hmid

theorem reclassify_full {w : World K} {srcId active j : ℕ} (hj : j ∈ w.mgr.fullSet)
    (hne : j ≠ srcId) : j ∈ (reclassify o srcId active w).mgr.fullSet := by
  unfold reclassify
  split_ifs
  · exact mem_insert.mpr (Or.inr (mem_erase.mpr ⟨hne, hj⟩))
  · exact mem_erase.mpr ⟨hne, hj⟩

theorem candidates_full {w : World K} (hid : id ∈ candidates o w) : id ∈ w.mgr.fullSet :=
  (List.mem_filter.mp hid).1

theorem candidates_nodup (w : World K) : (candidates o w).Nodup :=
  w.mgr.fullSet.nodup.filter _

/-! Start: registration, and the classification read from the state file. -/

theorem run_addSegment {w : World K} (hid : id ∉ w.mgr.segments) :
    (run (addSegment o id) w).val = .ok ∧ (run (addSegment o id) w).trace = [] ∧
      (run (addSegment o id) w).state = { w with
        mgr := SegmentManager.classify o
          { w.mgr with segments := w.mgr.segments.insert o.hash id } id (w.segs id).state } := by
  simp [addSegment, hid]

theorem classified_addSegment (h : Classified m) (hid : id ∉ m.segments)
    (state : SegmentState) : Classified (SegmentManager.classify o
      { m with segments := m.segments.insert o.hash id } id state) := by
  have hbase : Classified { m with segments := m.segments.insert o.hash id } :=
    ⟨⟨fun j hj => mem_insert.mpr (Or.inr (h.idle j hj)),
      fun j hj => mem_insert.mpr (Or.inr (h.appending j hj)),
      fun j hj => mem_insert.mpr (Or.inr (h.full j hj))⟩,
      h.idle_appending, h.idle_full, h.appending_full⟩
  refine classified_classify hbase (mem_insert.mpr (Or.inl rfl)) ⟨?_, ?_, ?_⟩ state
  · exact fun hi => hid (h.idle id hi)
  · exact fun ha => hid (h.appending id ha)
  · exact fun hf => hid (h.full id hf)

/-! What the loops of `LoadState` make of the lists. -/

def members (m : SegmentManager) : SegmentState → UnorderedSet ℕ
  | .idle => m.idleSet
  | .appending => m.appendingSet
  | .full => m.fullSet

theorem mem_members_classify {m : SegmentManager} {id j : ℕ} {c c' : SegmentState} :
    j ∈ members (SegmentManager.classify o m id c) c' ↔ j = id ∧ c = c' ∨ j ∈ members m c' := by
  cases c <;> cases c' <;> simp [SegmentManager.classify, members]

theorem classify_fullOrder {m : SegmentManager} {id : ℕ} (c : SegmentState) :
    (SegmentManager.classify o m id c).fullOrder =
      m.fullOrder ++ if c = .full then [id] else [] := by
  cases c <;> simp [SegmentManager.classify]

theorem loadFull_loop (l : List ℕ) (acc : Reclass) :
    (l.foldl (loadFull o) acc).1.segments = acc.1.segments ∧
      (l.foldl (loadFull o) acc).1.fullOrder =
        acc.1.fullOrder ++ l.filter (· ∈ acc.1.segments) ∧
      (∀ id, id ∈ (l.foldl (loadFull o) acc).2 ↔ id ∈ acc.2 ∨ id ∈ l ∧ id ∈ acc.1.segments) ∧
      ∀ c id, id ∈ members (l.foldl (loadFull o) acc).1 c ↔
        id ∈ members acc.1 c ∨ c = .full ∧ id ∈ l ∧ id ∈ acc.1.segments := by
  induction l generalizing acc with
  | nil => simp
  | cons j l ih =>
    obtain ⟨hsegments, horder, hrec, hmem⟩ := ih (loadFull o acc j)
    rw [List.foldl_cons, hsegments, horder]
    simp only [hrec, hmem]
    by_cases hj : j ∈ acc.1.segments
    · have hstep : loadFull o acc j = (SegmentManager.classify o acc.1 j .full, j :: acc.2) := by
        simp [loadFull, hj]
      simp only [hstep, classify_segments, classify_fullOrder, mem_members_classify]
      refine ⟨trivial, by simp [hj], fun id => ?_, fun c id => ?_⟩
      · by_cases hid : id = j <;> simp [hid, hj]
      · by_cases hid : id = j <;> by_cases hc : c = .full <;> simp [hid, hj, hc, eq_comm]
    · have hstep : loadFull o acc j = acc := by simp [loadFull, hj]
      rw [hstep]
      refine ⟨rfl, by simp [hj], fun id => ?_, fun c id => ?_⟩ <;>
        by_cases hid : id = j <;> simp [hid, hj]

theorem loadClass_loop {c : SegmentState} (hc : c ≠ .full) (l : List ℕ) (acc : Reclass) :
    (l.foldl (loadClass o c) acc).1.segments = acc.1.segments ∧
      (l.foldl (loadClass o c) acc).1.fullOrder = acc.1.fullOrder ∧
      (∀ id, id ∈ (l.foldl (loadClass o c) acc).2 ↔
        id ∈ acc.2 ∨ id ∈ l ∧ id ∈ acc.1.segments) ∧
      ∀ c' id, id ∈ members (l.foldl (loadClass o c) acc).1 c' ↔
        id ∈ members acc.1 c' ∨ c = c' ∧ id ∈ l ∧ id ∈ acc.1.segments ∧ id ∉ acc.2 := by
  induction l generalizing acc with
  | nil => simp
  | cons j l ih =>
    obtain ⟨hsegments, horder, hrec, hmem⟩ := ih (loadClass o c acc j)
    rw [List.foldl_cons, hsegments, horder]
    simp only [hrec, hmem]
    by_cases hj : j ∉ acc.1.segments ∨ j ∈ acc.2
    · have hstep : loadClass o c acc j = acc := by simp [loadClass, hj]
      rw [hstep]
      refine ⟨rfl, rfl, fun id => ?_, fun c' id => ?_⟩ <;> by_cases hid : id = j
      any_goals simp [hid]
      all_goals rcases hj with hj | hj <;> simp [hj]
    · have hstep : loadClass o c acc j = (SegmentManager.classify o acc.1 j c, j :: acc.2) := by
        simp [loadClass, hj]
      rw [not_or, not_not] at hj
      simp only [hstep, classify_segments, classify_fullOrder, mem_members_classify]
      refine ⟨trivial, by simp [hc], fun id => ?_, fun c' id => ?_⟩ <;> by_cases hid : id = j
      any_goals simp [hid, hj]
      by_cases hc' : c = c' <;> simp [hc']

theorem loadRemaining_loop (segs : ℕ → SegmentBase) (l : List ℕ) (acc : Reclass) :
    (l.foldl (loadRemaining o segs) acc).1.segments = acc.1.segments ∧
      (l.foldl (loadRemaining o segs) acc).1.fullOrder =
        acc.1.fullOrder ++ l.filter (fun id => id ∉ acc.2 ∧ (segs id).state = .full) ∧
      ∀ c id, id ∈ members (l.foldl (loadRemaining o segs) acc).1 c ↔
        id ∈ members acc.1 c ∨ id ∈ l ∧ id ∉ acc.2 ∧ (segs id).state = c := by
  induction l generalizing acc with
  | nil => simp
  | cons j l ih =>
    obtain ⟨hsegments, horder, hmem⟩ := ih (loadRemaining o segs acc j)
    rw [List.foldl_cons, hsegments, horder]
    simp only [hmem]
    by_cases hj : j ∈ acc.2
    · have hstep : loadRemaining o segs acc j = acc := by simp [loadRemaining, hj]
      rw [hstep]
      refine ⟨rfl, by simp [hj], fun c id => ?_⟩
      by_cases hid : id = j <;> simp [hid, hj]
    · have hstep : loadRemaining o segs acc j =
          (SegmentManager.classify o acc.1 j (segs j).state, acc.2) := by
        simp [loadRemaining, hj]
      simp only [hstep, classify_segments, classify_fullOrder, mem_members_classify]
      refine ⟨trivial, ?_, fun c id => ?_⟩
      · by_cases hstate : (segs j).state = .full <;> simp [hj, hstate]
      · by_cases hid : id = j
        · subst hid
          by_cases hc : (segs id).state = c <;> simp [hj, hc]
        · simp [hid]

/-- The first list that names a segment decides its class, and its own state when none does. -/
theorem applyState_members (segs : ℕ → SegmentBase) (m : SegmentManager)
    (saved : List ℕ × List ℕ × List ℕ) (c : SegmentState) (id : ℕ) :
    id ∈ members (applyState o segs m saved) c ↔ id ∈ m.segments ∧
      (if id ∈ saved.1 then c = .full
        else if id ∈ saved.2.1 then c = .appending
        else if id ∈ saved.2.2 then c = .idle
        else (segs id).state = c) := by
  unfold applyState
  simp only [loadRemaining_loop, loadClass_loop, loadFull_loop, ne_eq, reduceCtorEq,
    not_false_eq_true, ← mem_def]
  cases c <;> simp only [members, not_mem_clear, false_or, reduceCtorEq, false_and, or_false,
    true_and, List.not_mem_nil] <;> split_ifs <;> simp_all

theorem applyState_segments (segs : ℕ → SegmentBase) (m : SegmentManager)
    (saved : List ℕ × List ℕ × List ℕ) : (applyState o segs m saved).segments = m.segments := by
  simp only [applyState, loadRemaining_loop, loadClass_loop, loadFull_loop, ne_eq, reduceCtorEq,
    not_false_eq_true]

/-- Whatever the file says, the classification read from it is disjoint. -/
theorem applyState_classified (segs : ℕ → SegmentBase) (m : SegmentManager)
    (saved : List ℕ × List ℕ × List ℕ) :
    Classified (applyState o segs m saved) ∧
      (applyState o segs m saved).segments = m.segments := by
  have hsegments := applyState_segments (o := o) segs m saved
  have hreg : ∀ c, ∀ id ∈ members (applyState o segs m saved) c,
      id ∈ (applyState o segs m saved).segments := by
    intro c id hid
    rw [hsegments]
    exact ((applyState_members segs m saved c id).mp hid).1
  have hone : ∀ id c c', id ∈ members (applyState o segs m saved) c →
      id ∈ members (applyState o segs m saved) c' → c = c' := by
    intro id c c' h h'
    replace h := ((applyState_members segs m saved c id).mp h).2
    replace h' := ((applyState_members segs m saved c' id).mp h').2
    split_ifs at h h'
    any_goals exact h.trans h'.symm
    exact h.symm.trans h'
  refine ⟨⟨⟨hreg .idle, hreg .appending, hreg .full⟩, fun id h h' => ?_, fun id h h' => ?_,
    fun id h h' => ?_⟩, hsegments⟩
  · cases hone id .idle .appending h h'
  · cases hone id .idle .full h h'
  · cases hone id .appending .full h h'

theorem applyState_ok (segs : ℕ → SegmentBase) (h : ManagerOk o m)
    (saved : List ℕ × List ℕ × List ℕ) : ManagerOk o (applyState o segs m saved) := by
  obtain ⟨hclass, hsegments⟩ := applyState_classified (o := o) segs m saved
  exact ⟨hclass.toRegistered, fun id => by rw [hsegments]; exact h.segments id⟩

theorem loadState_spec {w : World K} (h : ManagerOk o w.mgr) (hclass : Classified w.mgr) :
    ∃ m', (run (loadState o) w).state = { w with mgr := m' } ∧
      (run (loadState o) w).trace = [] ∧ ManagerOk o m' ∧ Classified m' := by
  unfold loadState
  cases hfile : w.disk.managerState with
  | none => exact ⟨w.mgr, by simp [hfile], by simp [hfile], h, hclass⟩
  | some file =>
    by_cases hshort : file.length < 8
    · exact ⟨w.mgr, by simp [hfile, hshort], by simp [hfile, hshort], h, hclass⟩
    · cases hparse : parseState file with
      | none =>
        exact ⟨w.mgr, by simp [hfile, hshort, hparse], by simp [hfile, hshort, hparse], h, hclass⟩
      | some saved =>
        exact ⟨applyState o w.segs w.mgr saved, by simp [hfile, hshort, hparse],
          by simp [hfile, hshort, hparse], applyState_ok w.segs h saved,
          (applyState_classified w.segs w.mgr saved).1⟩

end ParaKV.Segment.ManagerSpec
