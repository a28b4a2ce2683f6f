/- GID: ParaKV/Segment/Faults
   source: parakv/core/segment/segment_file.cc, parakv/core/segment/segment_manager.cc
   digest: What slot operations do to a running store when any file operation can fail. -/

import ParaKV.Segment.Accounting

set_option autoImplicit false

namespace ParaKV.Segment.Faults

open Lib.TracedProgram Index.Key Segment.Base Segment.Manager Segment.ManagerSpec Segment.Accounting
open Core.State

/-! What a running store reads: its memory, and the slots in the files. -/

structure Mem (K : Type) where
  mgr : SegmentManager
  segs : ℕ → SegmentBase
  map : Map K
  slots : ℕ → ℕ → Slot

variable {K : Type} {o : Options} {x : Mem K}

def mem (w : World K) : Mem K := ⟨w.mgr, w.segs, w.map, fun id => (w.disk.images id).slots⟩

def At (x : Mem K) (w : World K) : Prop := mem w = x

def putSlot (slots : ℕ → ℕ → Slot) (id sid : ℕ) (slot : Slot) : ℕ → ℕ → Slot :=
  Function.update slots id (Function.update (slots id) sid slot)

theorem putSlot_self (slots : ℕ → ℕ → Slot) (id sid : ℕ) (slot : Slot) :
    putSlot slots id sid slot id sid = slot := by
  simp [putSlot]

theorem putSlot_of_ne {slots : ℕ → ℕ → Slot} {id sid j i : ℕ} {slot : Slot}
    (h : ¬ (j = id ∧ i = sid)) : putSlot slots id sid slot j i = slots j i := by
  unfold putSlot
  by_cases hj : j = id
  · subst hj
    have hi : i ≠ sid := fun hi => h ⟨rfl, hi⟩
    rw [Function.update_self, Function.update_of_ne hi]
  · rw [Function.update_of_ne hj]

@[simp] theorem putSlot_putSlot (slots : ℕ → ℕ → Slot) (id sid : ℕ) (slot slot' : Slot) :
    putSlot (putSlot slots id sid slot) id sid slot' = putSlot slots id sid slot' := by
  simp [putSlot]

@[simp] theorem putSlot_eq_self (slots : ℕ → ℕ → Slot) (id sid : ℕ) :
    putSlot slots id sid (slots id sid) = slots := by
  simp [putSlot]

theorem mem_setSegment (w : World K) (id : ℕ) (s : SegmentBase) :
    mem (w.setSegment id s) = { mem w with segs := Function.update w.segs id s } := rfl

theorem mem_setImage (w : World K) (id : ℕ) (f : SegmentImage) :
    mem (w.setImage id f) = { mem w with slots := Function.update (mem w).slots id f.slots } := by
  have hslots : (fun j => ((w.setImage id f).disk.images j).slots) =
      Function.update (fun j => (w.disk.images j).slots) id f.slots := by
    funext j
    by_cases hj : j = id
    · subst hj
      simp [World.setImage]
    · simp [World.setImage, hj]
  exact congrArg (fun slots => (⟨w.mgr, w.segs, w.map, slots⟩ : Mem K)) hslots

/-! Writes. -/

theorem pwrite_any {P : World K → Prop} (len : ℕ) (upto : ℕ → World K → World K) :
    Ensures P (pwrite len upto) fun st w =>
      ∃ w₀ n, P w₀ ∧ w = upto n w₀ ∧ (st = .ok → n = len) := by
  intro io w hw
  cases hio : io 0 with
  | ok =>
    refine ⟨w, len, hw, ?_, fun _ => rfl⟩
    simp [pwrite, hio]
  | fail n =>
    refine ⟨w, min n (len - 1), hw, ?_, ?_⟩ <;> simp [pwrite, hio]

theorem pwriteKey_any (id sid : ℕ) (key : Bytes) :
    Ensures (At x) (File.pwriteKey id sid key) fun st w =>
      ∃ slot, At { x with slots := putSlot x.slots id sid slot } w ∧
        (st = .ok → slot.key = key) := by
  refine (pwrite_any _ _).weaken (fun _ h => h) fun st w h => ?_
  obtain ⟨w₀, n, rfl, rfl, hn⟩ := h
  refine ⟨⟨overlay n key ((w₀.disk.images id).slots sid).key,
    ((w₀.disk.images id).slots sid).value⟩, mem_setImage .., fun hok => ?_⟩
  rw [hn hok]
  simp [overlay]

theorem pwriteValue_any (id sid : ℕ) (value : Bytes) :
    Ensures (At x) (File.pwriteValue id sid value) fun st w =>
      ∃ slot, At { x with slots := putSlot x.slots id sid slot } w ∧
        slot.key = (x.slots id sid).key ∧ (st = .ok → slot.value = value) := by
  refine (pwrite_any _ _).weaken (fun _ h => h) fun st w h => ?_
  obtain ⟨w₀, n, rfl, rfl, hn⟩ := h
  refine ⟨⟨((w₀.disk.images id).slots sid).key,
    overlay n value ((w₀.disk.images id).slots sid).value⟩, mem_setImage .., rfl, fun hok => ?_⟩
  rw [hn hok]
  simp [overlay]

theorem flushBitmap_any (id : ℕ) :
    Ensures (At x) (File.flushBitmap o id) fun _ => At x := by
  refine .read fun w hw => (pwrite_any _ _).weaken (fun _ h => h) fun st w' h => ?_
  obtain ⟨w₀, n, rfl, rfl, -⟩ := h
  rw [At, mem_setImage, ← hw]
  simp [mem]

theorem probe_any {P : World K → Prop} : Ensures P (probe : M K Status) fun _ => P := by
  refine Ensures.draw.bind fun outcome => ?_
  cases outcome with
  | ok => exact .ret fun _ h => h
  | fail n => exact .ret fun _ h => h

theorem setSegment_any {y : Mem K} (id : ℕ) (f : SegmentBase → SegmentBase)
    (h : y = { x with segs := Function.update x.segs id (f (x.segs id)) }) :
    Ensures (At x) (modify (fun w => w.setSegment id (f (w.segs id))) : M K PUnit)
      fun _ => At y := by
  refine .change fun w hw => ?_
  subst hw
  rw [At, mem_setSegment, h]
  rfl

/-! Slots. -/

/-- An insert that fails has written at most to the slot at the cursor. -/
theorem insert_any (id : ℕ) (key value : Bytes)
    (hvacant : (x.segs id).appendCursor < o.totalSlots →
      (x.segs id).bitmap (x.segs id).appendCursor = false) :
    Ensures (At x) (File.insert o id key value) fun r w =>
      (r.1 ≠ .ok ∧ ∃ slot, At
        { x with slots := putSlot x.slots id (x.segs id).appendCursor slot } w) ∨
      (r = (.ok, (x.segs id).appendCursor) ∧ (x.segs id).appendCursor < o.totalSlots ∧
        At { x with
          segs := Function.update x.segs id (insertedSegment o (x.segs id))
          slots := putSlot x.slots id (x.segs id).appendCursor ⟨key, value⟩ } w) := by
  have hsame : ∀ w : World K, At x w → ∃ slot,
      At { x with slots := putSlot x.slots id (x.segs id).appendCursor slot } w :=
    fun w hw => ⟨x.slots id (x.segs id).appendCursor, by rw [putSlot_eq_self]; exact hw⟩
  refine .read fun w hw => ?_
  have hsegs : w.segs = x.segs := congrArg Mem.segs hw
  rw [hsegs]
  refine .ite (fun _ => .ret fun t ht => Or.inl ⟨by decide, hsame t (ht ▸ hw)⟩) fun _ => ?_
  cases hfree : (x.segs id).findFreeSlot o.segmentConfig with
  | none => exact .ret fun t ht => Or.inl ⟨by decide, hsame t (ht ▸ hw)⟩
  | some sid =>
    obtain ⟨rfl, hroom⟩ := FileSpec.findFreeSlot_some hfree
    set sid := (x.segs id).appendCursor with hsid
    refine ((pwriteKey_any id sid key).weaken (fun t ht => ht ▸ hw) fun _ _ h => h).bind
      fun st => ?_
    refine .given fun slot₁ => .fact fun hkey => ?_
    refine .ite (fun hst => .ret fun t ht => Or.inl ⟨hst, slot₁, ht⟩) fun hst => ?_
    refine (pwriteValue_any id sid value).bind fun st' => .given fun slot₂ => .fact fun hvalue => ?_
    rw [putSlot_putSlot]
    refine .ite (fun hst' => .ret fun t ht => Or.inl ⟨hst', slot₂, ht⟩) fun hst' => ?_
    have hslot : slot₂ = ⟨key, value⟩ := by
      have hk : slot₂.key = (putSlot x.slots id sid slot₁ id sid).key := hvalue.1
      rw [putSlot_self, hkey (not_not.mp hst)] at hk
      rw [← hk, ← hvalue.2 (not_not.mp hst')]
    subst hslot
    refine (setSegment_any id (·.setSlotBit sid) rfl).bind fun _ => ?_
    refine (flushBitmap_any id).bind fun st'' => ?_
    refine .ite (fun hst'' => ?_) fun _ => ?_
    · -- the bit is taken back
      refine (setSegment_any (y := { x with slots := putSlot x.slots id sid ⟨key, value⟩ }) id
        (·.clearSlotBit sid) ?_).bind fun _ => .ret fun t ht => Or.inl ⟨hst'', _, ht⟩
      have hclear := hvacant hroom
      simp [SegmentBase.setSlotBit, SegmentBase.clearSlotBit, ← hclear]
    · refine Ensures.bind (setSegment_any (y := { x with
        segs := Function.update x.segs id (insertedSegment o (x.segs id))
        slots := putSlot x.slots id sid ⟨key, value⟩ }) id (fun s => { s with
          usedSlots := s.usedSlots + 1
          appendCursor := s.appendCursor + 1 }.updateState o.segmentConfig) ?_) fun _ =>
        .ret fun t ht => Or.inr ⟨rfl, hroom, ht⟩
      simp [insertedSegment, SegmentBase.setSlotBit, hsid]

theorem delete_any (id sid : ℕ) :
    Ensures (At x) (File.delete o id sid) fun _ w =>
      At x w ∨ (x.segs id).bitmap sid = true ∧
        At { x with segs := Function.update x.segs id (deletedSegment o (x.segs id) sid) } w := by
  refine .ite (fun _ => .ret fun _ h => Or.inl h) fun _ => .read fun w hw => ?_
  have hsegs : w.segs = x.segs := congrArg Mem.segs hw
  rw [hsegs]
  refine .ite (fun _ => .ret fun t ht => Or.inl (ht ▸ hw)) fun _ => ?_
  refine .ite (fun _ => .ret fun t ht => Or.inl (ht ▸ hw)) fun hbit => ?_
  have hset : (x.segs id).bitmap sid = true := by simpa using hbit
  refine Ensures.weaken (P := At x) ?_ (fun t ht => ht ▸ hw) fun _ _ h => h
  refine (setSegment_any id (·.clearSlotBit sid) rfl).bind fun _ => ?_
  refine (flushBitmap_any id).bind fun st => .ite (fun _ => ?_) fun _ => ?_
  · refine (setSegment_any (y := x) id (·.setSlotBit sid) ?_).bind fun _ =>
      .ret fun t ht => Or.inl ht
    simp [SegmentBase.setSlotBit, SegmentBase.clearSlotBit, ← hset]
  · refine Ensures.bind (setSegment_any (y := { x with
      segs := Function.update x.segs id (deletedSegment o (x.segs id) sid) }) id (fun s => { s with
        usedSlots := s.usedSlots - 1
        deletedSlots := s.deletedSlots + 1 }.updateState o.segmentConfig) ?_) fun _ =>
      .ret fun t ht => Or.inr ⟨hset, ht⟩
    simp [deletedSegment, SegmentBase.clearSlotBit]

/-! The manager. -/

theorem getActiveSegment_any :
    Ensures (At x) (getActiveSegment o) fun r w =>
      r = (chooseActive o x.segs x.mgr).1 ∧
        At { x with mgr := (chooseActive o x.segs x.mgr).2 } w := by
  intro io w hw
  subst hw
  exact ⟨rfl, rfl⟩

theorem chooseActive_ok (h : ManagerOk o x.mgr) :
    ManagerOk o (chooseActive o x.segs x.mgr).2 ∧
      (∀ id ∈ x.mgr.fullSet, id ∈ (chooseActive o x.segs x.mgr).2.fullSet) ∧
      ∀ id, (chooseActive o x.segs x.mgr).1 = some id → id < o.segmentCount := by
  obtain ⟨hre, hactive⟩ := chooseActive_reassigned (o := o) x.segs h.toRegistered
  exact ⟨hre.managerOk h, hre.full, fun id hid => (h.segments id).mp (hactive id hid)⟩

end ParaKV.Segment.Faults
