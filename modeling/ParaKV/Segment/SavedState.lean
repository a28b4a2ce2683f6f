/- GID: ParaKV/Segment/SavedState
   source: parakv/core/segment/segment_manager.cc
   digest: The state file reads back as it was written, and the classes it restores. -/

import ParaKV.Segment.Accounting

set_option autoImplicit false

namespace ParaKV.Segment.SavedState

open Lib.LittleEndian Segment.Base Segment.Manager Segment.ManagerSpec Segment.Accounting Index.Key
open Core.State

variable {K : Type} {o : Options} {m : SegmentManager} {w w' : World K}

/-! Round trip. -/

theorem getU32_putU32 {v : ℕ} (hv : v < 2 ^ 32) (rest : Bytes) :
    getU32 (putU32 v ++ rest) = some (v, rest) := by
  have hlength : (putU32 v).length = 4 := length_writeLE 4 v
  have hread : readLE (putU32 v) = v := by
    rw [putU32, readLE_writeLE, Nat.mod_eq_of_lt (by simpa using hv)]
  unfold getU32
  rw [if_neg (by simp [hlength]), List.take_left' hlength, List.drop_left' hlength, hread]

theorem readIdsLoop_flatMap {ids : List ℕ} (hids : ∀ id ∈ ids, id < 2 ^ 32) (rest : Bytes) :
    readIdsLoop ids.length (ids.flatMap putU32 ++ rest) = some (ids, rest) := by
  induction ids with
  | nil => rfl
  | cons id ids ih =>
    have hrest := ih fun j hj => hids j (by simp [hj])
    rw [List.flatMap_cons, List.append_assoc, List.length_cons, readIdsLoop,
      getU32_putU32 (hids id (by simp))]
    simp [hrest]

theorem readIds_serializeIds {ids : List ℕ} (hlength : ids.length < 2 ^ 32)
    (hids : ∀ id ∈ ids, id < 2 ^ 32) (rest : Bytes) :
    readIds (serializeIds ids ++ rest) = some (ids, rest) := by
  rw [serializeIds, List.append_assoc, readIds, getU32_putU32 hlength]
  exact readIdsLoop_flatMap hids rest

/-- The lists fit the 32-bit fields of the file. -/
structure Encodable (m : SegmentManager) : Prop where
  full : m.fullOrder.length < 2 ^ 32 ∧ ∀ id ∈ m.fullOrder, id < 2 ^ 32
  appending : m.appendingSet.order.length < 2 ^ 32 ∧ ∀ id ∈ m.appendingSet.order, id < 2 ^ 32
  idle : m.idleSet.order.length < 2 ^ 32 ∧ ∀ id ∈ m.idleSet.order, id < 2 ^ 32

theorem parseState_serializeState (h : Encodable m) :
    parseState (serializeState m) =
      some (m.fullOrder, m.appendingSet.order, m.idleSet.order) := by
  have hidle := readIds_serializeIds h.idle.1 h.idle.2 []
  rw [List.append_nil] at hidle
  simp only [serializeState, List.append_assoc]
  rw [parseState, getU32_putU32 (by decide)]
  simp only [Option.bind_eq_bind, Option.bind_some, ne_eq, not_true_eq_false, if_false]
  rw [getU32_putU32 (by decide)]
  simp [readIds_serializeIds h.full.1 h.full.2, readIds_serializeIds h.appending.1 h.appending.2,
    hidle]

/-! The order in which segments became full lists the full set. -/

structure Listed (m : SegmentManager) : Prop where
  mem : ∀ id, id ∈ m.fullOrder ↔ id ∈ m.fullSet
  nodup : m.fullOrder.Nodup

/-- The list names the members of the set. A compaction into a full segment names it again. -/
def Enumerates (m : SegmentManager) : Prop := ∀ id, id ∈ m.fullOrder ↔ id ∈ m.fullSet

theorem Enumerates.push (h : Enumerates m) (id : ℕ) : Enumerates { m with
    fullSet := m.fullSet.insert o.hash id, fullOrder := m.fullOrder ++ [id] } := by
  intro j
  simp [h j, or_comm]

theorem enumerates_markSegmentFullInternal (h : Enumerates m) (id : ℕ) :
    Enumerates (markSegmentFullInternal o m id) := by
  unfold markSegmentFullInternal
  split_ifs
  · exact h
  · exact h.push (o := o) id
  · exact h

theorem enumerates_promoteIdleSegment (h : Enumerates m) :
    Enumerates (promoteIdleSegment o m).2 := by
  unfold promoteIdleSegment
  split <;> exact h

theorem enumerates_scanAppending (segs : ℕ → SegmentBase) (l : List ℕ) (h : Enumerates m) :
    Enumerates (scanAppending o segs l m).2 := by
  induction l generalizing m with
  | nil => exact enumerates_promoteIdleSegment h
  | cons id rest ih =>
    unfold scanAppending
    split_ifs
    · exact h
    · exact ih (enumerates_markSegmentFullInternal h id)

theorem enumerates_chooseActive (segs : ℕ → SegmentBase) (h : Enumerates m) :
    Enumerates (chooseActive o segs m).2 := by
  unfold chooseActive scanFrom
  split
  · exact enumerates_promoteIdleSegment h
  · split_ifs
    · exact h
    · exact enumerates_scanAppending _ _ (enumerates_markSegmentFullInternal h _)

theorem enumerates_reclassify (src active : ℕ) (h : Enumerates w.mgr) :
    Enumerates (reclassify o src active w).mgr := by
  have hmid : Enumerates { w.mgr with
      fullSet := w.mgr.fullSet.erase src
      fullOrder := w.mgr.fullOrder.filter (· ≠ src)
      idleSet := w.mgr.idleSet.insert o.hash src } := by
    intro j
    simp [h j, and_comm]
  unfold reclassify
  split_ifs
  · exact hmid.push (o := o) active
  · exact hmid

theorem enumerates_shift (h : Enumerates w.mgr) (hshift : Shift o w w') : Enumerates w'.mgr := by
  cases hshift with
  | frame hmgr _ => rwa [hmgr]
  | activate hmgr _ =>
    rw [hmgr]
    exact enumerates_chooseActive _ h
  | mark id _ _ hmgr _ =>
    rw [hmgr]
    exact enumerates_markSegmentFullInternal h id
  | insert _ _ _ hmgr _ => rwa [hmgr]
  | delete _ _ _ hmgr _ => rwa [hmgr]
  | reclaim src active _ _ hmgr _ =>
    rw [hmgr]
    exact enumerates_reclassify src active h

theorem enumerates_addSegment (h : Enumerates m) (id : ℕ) (state : SegmentState) :
    Enumerates (SegmentManager.classify o
      { m with segments := m.segments.insert o.hash id } id state) := by
  cases state with
  | idle => exact h
  | appending => exact h
  | full => exact h.push (o := o) id

theorem length_le_of_nodup {ids : List ℕ} {n : ℕ} (hnodup : ids.Nodup)
    (hids : ∀ id ∈ ids, id < n) : ids.length ≤ n := by
  have hsub := List.Nodup.subperm hnodup fun id hid => List.mem_range.mpr (hids id hid)
  simpa using hsub.length_le

/-- What a running manager saves can be read back while the order counts in 32 bits. -/
theorem encodable_of_enumerates (hcount : o.segmentCount < 2 ^ 32) (hm : ManagerOk o m)
    (h : Enumerates m) (hlength : m.fullOrder.length < 2 ^ 32) : Encodable m := by
  have hlt : ∀ id ∈ m.segments, id < 2 ^ 32 := fun id hid =>
    lt_trans ((hm.segments id).mp hid) hcount
  have hset : ∀ ids : List ℕ, ids.Nodup → (∀ id ∈ ids, id ∈ m.segments) →
      ids.length < 2 ^ 32 ∧ ∀ id ∈ ids, id < 2 ^ 32 := fun ids hnodup hids =>
    ⟨lt_of_le_of_lt (length_le_of_nodup hnodup fun id hid => (hm.segments id).mp (hids id hid))
      hcount, fun id hid => hlt id (hids id hid)⟩
  exact ⟨⟨hlength, fun id hid => hlt id (hm.full id ((h id).mp hid))⟩,
    hset _ m.appendingSet.nodup hm.appending, hset _ m.idleSet.nodup hm.idle⟩

end ParaKV.Segment.SavedState
