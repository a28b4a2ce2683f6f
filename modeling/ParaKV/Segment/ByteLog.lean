/- GID: ParaKV/Segment/ByteLog
   source: parakv/core/segment/segment_base.cc, parakv/core/segment/segment_file.cc
   digest: The slots of a segment file behave as a log over every run of its operations. -/

import ParaKV.Segment.Changes

set_option autoImplicit false

namespace ParaKV.Segment.ByteLog

open Lib.TracedProgram Lib.ByteStore Index.Key Segment.Base
open Core.State (Slot)
open Segment.Bytes Segment.BytesSpec Segment.Media Segment.Changes
open Segment.Bytes.SegmentFile (Disk onFile medium)

abbrev Content := ℕ → Option Slot

/-- The segment is open, its file has the content, and its bitmap is the one in the file. -/
structure Holds (c : SegmentConfig) (content : Content) (s : Object Disk) : Prop where
  opened : s.opened = true
  length : s.members.bitmap.length = (calculateLayout c).bitmapSize
  file : ∃ f, s.dev = some f ∧ f.size = c.segmentSize ∧
    slice f.byte 0 (calculateLayout c).bitmapSize = s.members.bitmap ∧
    ∀ i slot, content i = some slot → stored c f i = slot
  bits : ∀ i < (calculateLayout c).totalSlots,
    s.members.isSlotOccupied i = (content i).isSome
  below : ∀ i slot, content i = some slot → i < s.members.appendCursor
  bound : s.members.appendCursor ≤ (calculateLayout c).totalSlots

variable {c : SegmentConfig} {content : Content} {s : Object Disk}

/-! Inserting. -/

theorem findFreeSlot_cases (m : Members) :
    m.findFreeSlot c = none ∨
      m.findFreeSlot c = some m.appendCursor ∧
        m.appendCursor < (calculateLayout c).totalSlots := by
  cases hfree : m.findFreeSlot c with
  | none => exact Or.inl rfl
  | some sid =>
    obtain ⟨rfl, hroom⟩ := findFreeSlot_eq_some hfree
    exact Or.inr ⟨rfl, hroom⟩

theorem go_insert_full (hopen : s.opened = true) (hfull : s.members.findFreeSlot c = none)
    (key value : Bytes) :
    (go (SegmentFile.insert c key value) s).val = (.full, 0) ∧
      (go (SegmentFile.insert c key value) s).state = s := by
  simp [SegmentFile.insert, insertSlot, hopen, hfull]

theorem go_insert (hopen : s.opened = true) {sid : ℕ} (hfree : s.members.findFreeSlot c = some sid)
    (key value : Bytes) :
    (go (SegmentFile.insert c key value) s).val = (.ok, sid) ∧
      (go (SegmentFile.insert c key value) s).state =
        ⟨true, (s.members.setSlotBit sid).appended c 1, s.dev.map fun f =>
          ((f.write (key.take c.keySize) (getSlotOffset c sid)).write (value.take c.valueSize)
            (valueOffset c (getSlotOffset c sid))).write (setBit s.members.bitmap sid) 0⟩ := by
  obtain ⟨hslot, hslotState⟩ := go_writeSlot c s sid (key.take c.keySize) (value.take c.valueSize)
  constructor
  · simp [SegmentFile.insert, insertSlot, hopen, hfree, hslot, hslotState, go_flushBitmap]
  · simp [SegmentFile.insert, insertSlot, hopen, hfree, hslot, hslotState, go_flushBitmap, onFile,
      onMembers, Members.setSlotBit, Function.comp_def]

def payloadsWritten (c : SegmentConfig) : ByteFile → ℕ → List Slot → ByteFile
  | f, _, [] => f
  | f, i, slot :: slots => payloadsWritten c (slotWritten c f i slot) (i + 1) slots

def contentWith : Content → ℕ → List Slot → Content
  | content, _, [] => content
  | content, i, slot :: slots => contentWith (Function.update content i (some slot)) (i + 1) slots

theorem contentWith_outside {i j : ℕ} {slots : List Slot} (h : j < i ∨ i + slots.length ≤ j) :
    contentWith content i slots j = content j := by
  induction slots generalizing content i with
  | nil => rfl
  | cons slot slots ih =>
    have hlen : (slot :: slots).length = slots.length + 1 := rfl
    have hne : j ≠ i := by omega
    rw [contentWith, ih (by omega), Function.update_of_ne hne]

theorem contentWith_isSome {i j : ℕ} {slots : List Slot} (h : i ≤ j ∧ j < i + slots.length) :
    (contentWith content i slots j).isSome = true := by
  induction slots generalizing content i with
  | nil =>
    simp only [List.length_nil] at h
    omega
  | cons slot slots ih =>
    have hlen : (slot :: slots).length = slots.length + 1 := rfl
    rw [contentWith]
    by_cases hj : j = i
    · rw [contentWith_outside (by omega), hj, Function.update_self]
      rfl
    · exact ih (by omega)

theorem payloadsWritten_spec (h : Sound c) {f : ByteFile} (hf : f.size = c.segmentSize) {i : ℕ}
    {slots : List Slot} (hsized : ∀ slot ∈ slots, Sized c slot)
    (hroom : i + slots.length ≤ (calculateLayout c).totalSlots)
    (hcontent : ∀ j slot, content j = some slot →
      j < (calculateLayout c).totalSlots ∧ stored c f j = slot) :
    (payloadsWritten c f i slots).size = c.segmentSize ∧
      slice (payloadsWritten c f i slots).byte 0 (calculateLayout c).bitmapSize =
        slice f.byte 0 (calculateLayout c).bitmapSize ∧
      ∀ j slot, contentWith content i slots j = some slot →
        j < (calculateLayout c).totalSlots ∧ stored c (payloadsWritten c f i slots) j = slot := by
  induction slots generalizing content f i with
  | nil => exact ⟨hf, rfl, hcontent⟩
  | cons slot slots ih =>
    have hlen : (slot :: slots).length = slots.length + 1 := rfl
    have hi : i < (calculateLayout c).totalSlots := by omega
    have hslot := hsized slot List.mem_cons_self
    have hnext : ∀ j slot', Function.update content i (some slot) j = some slot' →
        j < (calculateLayout c).totalSlots ∧ stored c (slotWritten c f i slot) j = slot' := by
      intro j slot' hj
      by_cases hji : j = i
      · subst hji
        rw [Function.update_self] at hj
        obtain rfl := Option.some.inj hj
        exact ⟨hi, stored_slotWritten_self h hf hi hslot⟩
      · rw [Function.update_of_ne hji] at hj
        obtain ⟨hlt, hstored⟩ := hcontent j slot' hj
        exact ⟨hlt, (stored_slotWritten_other h hf hi hlt hji hslot).trans hstored⟩
    have hbitmap : slice (slotWritten c f i slot).byte 0 (calculateLayout c).bitmapSize =
        slice f.byte 0 (calculateLayout c).bitmapSize := by
      have hinside := h.bitmap_inside
      have hapart := bitmap_apart (c := c) i
      exact slotWritten_outside h hf hi hslot (by omega) (by omega)
    obtain ⟨hsize, hrest, hstored⟩ := ih (slotWritten_size h hf hi hslot)
      (fun p hp => hsized p (List.mem_cons_of_mem _ hp))
      (show i + 1 + slots.length ≤ _ by omega) hnext
    exact ⟨hsize, hrest.trans hbitmap, hstored⟩

theorem holds_appended (h : Sound c) (hholds : Holds c content s) {slots : List Slot}
    (hsized : ∀ slot ∈ slots, Sized c slot)
    (hroom : s.members.appendCursor + slots.length ≤ (calculateLayout c).totalSlots) :
    let m := setSlotBits s.members (List.range' s.members.appendCursor slots.length)
    Holds c (contentWith content s.members.appendCursor slots)
      ⟨true, m.appended c slots.length, s.dev.map fun f =>
        (payloadsWritten c f s.members.appendCursor slots).write m.bitmap 0⟩ := by
  intro m
  obtain ⟨f, hdev, hsize, hbitmap, hstored⟩ := hholds.file
  have hlength : m.bitmap.length = (calculateLayout c).bitmapSize :=
    (setSlotBits_length _ _).trans hholds.length
  have hcontent : ∀ j slot, content j = some slot →
      j < (calculateLayout c).totalSlots ∧ stored c f j = slot := fun j slot hj =>
    ⟨lt_of_lt_of_le (hholds.below j slot hj) hholds.bound, hstored j slot hj⟩
  obtain ⟨hsize', -, hstored'⟩ := payloadsWritten_spec h hsize hsized hroom hcontent
  have hcursor : (m.appended c slots.length).appendCursor =
      s.members.appendCursor + slots.length := by
    rw [Members.appended, updateState_appendCursor]
    exact congrArg (· + slots.length) (setSlotBits_appendCursor _ _)
  refine ⟨rfl, ?_, ⟨_, by rw [hdev]; rfl, ?_, ?_, fun i slot hi => ?_⟩, fun i hi => ?_,
    fun i slot hi => ?_, ?_⟩
  · simpa [Members.appended] using hlength
  · rw [write_size (by rw [hlength, hsize']; have := h.bitmap_inside; omega), hsize']
  · simpa [Members.appended] using flushed_bitmap (c := c) _ hlength
  · obtain ⟨hlt, hslot⟩ := hstored' i slot hi
    exact (stored_flushed h hsize' hlength hlt).trans hslot
  · have hbits : (m.appended c slots.length).isSlotOccupied i = m.isSlotOccupied i := by
      simp [Members.isSlotOccupied, Members.appended]
    have hids : ∀ j ∈ List.range' s.members.appendCursor slots.length,
        j / 8 < s.members.bitmap.length := by
      intro j hj
      rw [List.mem_range'_1] at hj
      rw [hholds.length]
      exact h.byte_lt (by omega)
    rw [hbits, occupied_setSlotBits hids, hholds.bits i hi]
    by_cases hin : s.members.appendCursor ≤ i ∧ i < s.members.appendCursor + slots.length
    · rw [contentWith_isSome hin]
      simp [List.mem_range'_1, hin]
    · rw [contentWith_outside (by omega)]
      simp [List.mem_range'_1, hin]
  · rw [hcursor]
    by_contra hge
    rw [contentWith_outside (by omega)] at hi
    have := hholds.below i slot hi
    omega
  · rw [hcursor]
    exact hroom

abbrev Payload (c : SegmentConfig) := {slot : Slot // Sized c slot}

def keysOf (slots : List Slot) : Bytes := slots.flatMap Slot.key

def valuesOf (slots : List Slot) : Bytes := slots.flatMap Slot.value

theorem length_flatMap_const {g : Slot → Bytes} {size : ℕ} {slots : List Slot}
    (h : ∀ slot ∈ slots, (g slot).length = size) :
    (slots.flatMap g).length = slots.length * size := by
  induction slots with
  | nil => simp
  | cons slot slots ih =>
    rw [List.flatMap_cons, List.length_append, h slot List.mem_cons_self,
      ih fun p hp => h p (List.mem_cons_of_mem _ hp), List.length_cons, Nat.succ_mul, Nat.add_comm]

theorem chunk_flatMap {g : Slot → Bytes} {size : ℕ} {front rest : List Slot} {slot : Slot}
    (h : ∀ p ∈ front ++ slot :: rest, (g p).length = size) :
    chunk ((front ++ slot :: rest).flatMap g) size front.length = g slot := by
  have hfront : (front.flatMap g).length = front.length * size :=
    length_flatMap_const fun p hp => h p (List.mem_append_left _ hp)
  have hslot : (g slot).length = size := h slot (by simp)
  rw [chunk, List.flatMap_append, ← hfront, List.drop_left, List.flatMap_cons, ← hslot,
    List.take_left]

theorem go_writePayloads (h : Sound c) {slots : List Slot} (hsized : ∀ p ∈ slots, Sized c p)
    {cursor : ℕ} (hroom : cursor + slots.length ≤ (calculateLayout c).totalSlots)
    (front rest : List Slot) (hsplit : slots = front ++ rest) (s : Object Disk) :
    (go (writePayloads c medium (keysOf slots) (valuesOf slots) cursor rest.length front.length)
        s).val = .ok ∧
      (go (writePayloads c medium (keysOf slots) (valuesOf slots) cursor rest.length front.length)
        s).state = onFile (fun f => payloadsWritten c f (cursor + front.length) rest) s := by
  induction rest generalizing front s with
  | nil =>
    refine ⟨by simp [writePayloads], ?_⟩
    simp [writePayloads, payloadsWritten, onFile]
  | cons slot rest ih =>
    have hlen : slots.length = front.length + rest.length + 1 := by
      rw [hsplit, List.length_append, List.length_cons]
      omega
    have hi : cursor + front.length < (calculateLayout c).totalSlots := by omega
    have hkey : chunk (keysOf slots) c.keySize front.length = slot.key := by
      rw [hsplit]
      exact chunk_flatMap fun p hp => (hsized p (hsplit ▸ hp)).1
    have hvalue : chunk (valuesOf slots) c.valueSize front.length = slot.value := by
      rw [hsplit]
      exact chunk_flatMap fun p hp => (hsized p (hsplit ▸ hp)).2
    obtain ⟨hslot, hslotState⟩ := go_writeSlot c s (cursor + front.length) slot.key slot.value
    rw [h.getSlotOffset_eq hi, h.valueOffset_eq hi] at hslotState
    obtain ⟨hval, hstate⟩ := ih (front ++ [slot]) (by rw [hsplit]; simp)
      (onFile (fun f => slotWritten c f (cursor + front.length) slot) s)
    rw [List.length_append, List.length_singleton] at hval hstate
    constructor
    · simp [writePayloads, hkey, hvalue, hslot, hslotState]
      exact hval
    · rw [onFile_onFile] at hstate
      simp [writePayloads, hkey, hvalue, hslot, hslotState]
      exact hstate

theorem holds_insert (h : Sound c) (hholds : Holds c content s) (p : Payload c) {sid : ℕ}
    (hfree : s.members.findFreeSlot c = some sid) :
    sid < (calculateLayout c).totalSlots ∧ content sid = none ∧
      Holds c (Function.update content sid (some p.1))
        (go (SegmentFile.insert c p.1.key p.1.value) s).state := by
  obtain ⟨slot, hslot⟩ := p
  obtain ⟨rfl, hroom⟩ : s.members.appendCursor = sid ∧ sid < (calculateLayout c).totalSlots := by
    rcases findFreeSlot_cases (c := c) s.members with hnone | ⟨hsome, hroom⟩
    · simp [hnone] at hfree
    · obtain rfl := Option.some.inj (hsome.symm.trans hfree)
      exact ⟨rfl, hroom⟩
  have hvacant : content s.members.appendCursor = none := by
    by_contra hsome
    obtain ⟨slot', hslot'⟩ := Option.ne_none_iff_exists'.mp hsome
    have hlt := hholds.below _ _ hslot'
    omega
  have hsized : ∀ p ∈ [slot], Sized c p := by simpa using hslot
  have happended := holds_appended h hholds hsized (Nat.succ_le_of_lt hroom)
  rw [(go_insert hholds.opened hfree slot.key slot.value).2, h.getSlotOffset_eq hroom,
    h.valueOffset_eq hroom, List.take_of_length_le (le_of_eq hslot.1),
    List.take_of_length_le (le_of_eq hslot.2)]
  exact ⟨hroom, hvacant, happended⟩

/-- A batch is refused and nothing happens, or its slots are the next ones. -/
theorem holds_batchInsert (h : Sound c) (hholds : Holds c content s) (slots : List Slot)
    (hsized : ∀ p ∈ slots, Sized c p) :
    let r := go (SegmentFile.batchInsert c (keysOf slots) (valuesOf slots) slots.length) s
    (r.val.1 ≠ .ok ∧ r.state = s) ∨
      r.val = (.ok, List.range' s.members.appendCursor slots.length) ∧
        s.members.appendCursor + slots.length ≤ (calculateLayout c).totalSlots ∧
        Holds c (contentWith content s.members.appendCursor slots) r.state := by
  intro r
  have hopen := hholds.opened
  have havailable : sub32 (calculateLayout c).totalSlots s.members.appendCursor =
      (calculateLayout c).totalSlots - s.members.appendCursor :=
    sub32_eq hholds.bound (total_lt c)
  by_cases hempty : slots.length = 0
  · left
    simp [r, SegmentFile.batchInsert, batchInsertSlots, hempty]
  by_cases hroom : slots.length > (calculateLayout c).totalSlots - s.members.appendCursor
  · left
    simp [r, SegmentFile.batchInsert, batchInsertSlots, hempty, hopen, havailable, hroom]
  right
  have hbound := hholds.bound
  have hfits : s.members.appendCursor + slots.length ≤ (calculateLayout c).totalSlots := by omega
  obtain ⟨hval, hstate⟩ := go_writePayloads h hsized hfits [] slots rfl s
  rw [List.length_nil, Nat.add_zero] at hstate
  rw [List.length_nil] at hval
  have happended := holds_appended h hholds hsized hfits
  have hrstate : r.state = ⟨true, (setSlotBits s.members
      (List.range' s.members.appendCursor slots.length)).appended c slots.length,
      s.dev.map fun f => (payloadsWritten c f s.members.appendCursor slots).write
        (setSlotBits s.members (List.range' s.members.appendCursor slots.length)).bitmap 0⟩ := by
    simp [r, SegmentFile.batchInsert, batchInsertSlots, hempty, hopen, havailable, hroom, hval,
      hstate, go_flushBitmap, onFile, onMembers, Function.comp_def]
  refine ⟨?_, hfits, ?_⟩
  · simp [r, SegmentFile.batchInsert, batchInsertSlots, hempty, hopen, havailable, hroom, hval,
      hstate, go_flushBitmap]
  · rw [hrstate]
    exact happended

/-! Deleting and reading. -/

theorem go_delete (hopen : s.opened = true) {i : ℕ} (hi : i < (calculateLayout c).totalSlots)
    (hbit : s.members.isSlotOccupied i = true) :
    (go (SegmentFile.delete c i) s).val = .ok ∧
      (go (SegmentFile.delete c i) s).state =
        ⟨true, (s.members.clearSlotBit i).deleted c, s.dev.map fun f =>
          f.write (clearBit s.members.bitmap i) 0⟩ := by
  have hlt : ¬ i ≥ (calculateLayout c).totalSlots := by omega
  constructor
  · simp [SegmentFile.delete, deleteSlot, hopen, hlt, hbit, go_flushBitmap]
  · simp [SegmentFile.delete, deleteSlot, hopen, hlt, hbit, go_flushBitmap, onFile, onMembers,
      Members.clearSlotBit]

theorem go_delete_refused (hopen : s.opened = true) {i : ℕ}
    (h : (calculateLayout c).totalSlots ≤ i ∨ s.members.isSlotOccupied i = false) :
    (go (SegmentFile.delete c i) s).val ≠ .ok ∧ (go (SegmentFile.delete c i) s).state = s := by
  by_cases hlt : i ≥ (calculateLayout c).totalSlots
  · simp [SegmentFile.delete, deleteSlot, hlt]
  · have hbit := h.resolve_left hlt
    simp [SegmentFile.delete, deleteSlot, hlt, hopen, hbit]

theorem holds_delete (h : Sound c) (hholds : Holds c content s) {i : ℕ}
    (hi : i < (calculateLayout c).totalSlots) (hbit : s.members.isSlotOccupied i = true) :
    Holds c (Function.update content i none) (go (SegmentFile.delete c i) s).state := by
  rw [(go_delete hholds.opened hi hbit).2]
  obtain ⟨f, hdev, hsize, -, hstored⟩ := hholds.file
  have hlength : (clearBit s.members.bitmap i).length = (calculateLayout c).bitmapSize :=
    (length_clearBit _ _).trans hholds.length
  have hold : ∀ j slot, Function.update content i none j = some slot →
      j ≠ i ∧ content j = some slot := by
    intro j slot hj
    by_cases hji : j = i
    · simp [hji] at hj
    · rw [Function.update_of_ne hji] at hj
      exact ⟨hji, hj⟩
  refine ⟨rfl, ?_, ⟨_, by rw [hdev]; rfl, ?_, ?_, fun j slot hj => ?_⟩, fun j hj => ?_,
    fun j slot hj => ?_, ?_⟩
  · simpa [Members.deleted, Members.clearSlotBit] using hlength
  · have hinside := h.bitmap_inside
    rw [write_size (by rw [hlength]; omega), hsize]
  · simpa [Members.deleted, Members.clearSlotBit] using flushed_bitmap (c := c) f hlength
  · obtain ⟨-, hj⟩ := hold j slot hj
    have hlt := lt_of_lt_of_le (hholds.below j slot hj) hholds.bound
    exact (stored_flushed h hsize hlength hlt).trans (hstored j slot hj)
  · have hbits : ((s.members.clearSlotBit i).deleted c).isSlotOccupied j =
        (s.members.clearSlotBit i).isSlotOccupied j := by
      simp [Members.isSlotOccupied, Members.deleted]
    rw [hbits, occupied_clearSlotBit, hholds.bits j hj]
    by_cases hji : j = i
    · simp [hji]
    · simp [hji]
  · obtain ⟨-, hj⟩ := hold j slot hj
    simpa [Members.deleted, Members.clearSlotBit] using hholds.below j slot hj
  · simpa [Members.deleted, Members.clearSlotBit] using hholds.bound

theorem go_read (h : Sound c) (hholds : Holds c content s) {i : ℕ}
    (hi : i < (calculateLayout c).totalSlots) :
    (go (SegmentFile.read c i) s).val =
      match content i with
      | some slot => (.ok, slot)
      | none => (.notFound, ⟨[], []⟩) := by
  have hlt : ¬ i ≥ (calculateLayout c).totalSlots := by omega
  have hopen := hholds.opened
  have hbit := hholds.bits i hi
  cases hcontent : content i with
  | none =>
    rw [hcontent] at hbit
    simp [SegmentFile.read, readOccupied, hlt, hopen, hbit]
  | some slot =>
    rw [hcontent] at hbit
    obtain ⟨f, hdev, hsize, -, hstored⟩ := hholds.file
    have hinside := h.slot_inside hi
    have hslot := hstored i slot hcontent
    have hkey := go_pread hdev c.keySize (slotOffset c i) (by omega)
    have hvalue := go_pread hdev c.valueSize (slotOffset c i + c.keySize) (by omega)
    simp [SegmentFile.read, readOccupied, readSlot, hlt, hopen, hbit, medium,
      h.getSlotOffset_eq hi, h.valueOffset_eq hi, hkey, go_pread_state, hvalue, ← hslot,
      stored]

theorem readSlot_stays (i : ℕ) : Moves Eq (readSlot c medium i) := by
  refine (pread_stays _ _).bind fun r => Moves.ite (Moves.ret _) ?_
  refine (pread_stays _ _).bind fun r' => Moves.ite (Moves.ret _) (Moves.ret _)

theorem read_stays (i : ℕ) : Moves Eq (SegmentFile.read c i) := by
  refine Moves.ite (Moves.ret _) (Moves.read.bind fun s => ?_)
  exact Moves.ite (Moves.ret _) (Moves.ite (Moves.ret _) (readSlot_stays i))

/-! Closing and opening. -/

theorem holds_reopen (h : Sound c) (hholds : Holds c content s) :
    let closed := (go SegmentFile.close s).state
    (go (SegmentFile.openSegment c) closed).val = .ok ∧
      Holds c content (go (SegmentFile.openSegment c) closed).state := by
  intro closed
  obtain ⟨f, hdev, hsize, -, hstored⟩ := hholds.file
  have hinside := h.bitmap_inside
  have hlength := hholds.length
  have hclosed : closed = ⟨false, s.members, some (f.write s.members.bitmap 0)⟩ := by
    rw [show closed = _ from (go_close hholds.opened).2, hdev]
    rfl
  have hsize' : (f.write s.members.bitmap 0).size = c.segmentSize := by
    rw [write_size (by rw [hlength]; omega), hsize]
  have hbitmap := flushed_bitmap (c := c) f hlength
  obtain ⟨hval, hstate⟩ := go_open_existing (c := c) (s := closed) (by rw [hclosed])
    (by rw [hclosed]) (by omega) (by rw [hclosed]; exact hlength)
  refine ⟨hval, ?_⟩
  rw [hstate, hclosed, hbitmap]
  obtain ⟨hbelow, hbound⟩ := scanBitmap_spec s.members.bitmap (calculateLayout c).totalSlots
  refine ⟨rfl, ?_, ⟨_, rfl, hsize', ?_, fun i slot hi => ?_⟩, fun i hi => ?_, fun i slot hi => ?_,
    ?_⟩
  · simpa [Members.rebuild] using hlength
  · simpa [Members.rebuild] using hbitmap
  · have hlt := lt_of_lt_of_le (hholds.below i slot hi) hholds.bound
    exact (stored_flushed h hsize hlength hlt).trans (hstored i slot hi)
  · rw [← hholds.bits i hi]
    simp [Members.isSlotOccupied, Members.rebuild]
  · have hlt := lt_of_lt_of_le (hholds.below i slot hi) hholds.bound
    have hbit := hholds.bits i hlt
    rw [hi] at hbit
    simpa [Members.rebuild] using hbelow i hlt hbit
  · simpa [Members.rebuild] using hbound

def started (c : SegmentConfig) : Object Disk :=
  (go (SegmentFile.openSegment c) ⟨false, .fresh c, none⟩).state

theorem holds_started (h : Sound c) : Holds c (fun _ => none) (started c) := by
  have hinside := h.bitmap_inside
  have hstate := (go_open_new (c := c) (s := ⟨false, .fresh c, none⟩) rfl rfl).2
  have hlength : (List.replicate (Members.fresh c).bitmap.length (0 : UInt8)).length =
      (calculateLayout c).bitmapSize := by
    simp [Members.fresh]
  rw [started, hstate]
  refine ⟨rfl, hlength, ⟨_, rfl, ?_, flushed_bitmap _ hlength, by simp⟩, ?_, by simp,
    Nat.zero_le _⟩
  · rw [write_size (by rw [hlength, Nat.zero_add]; exact hinside)]
    rfl
  · intro i _
    simp [Members.isSlotOccupied, Members.resetBitmap]

/-! Runs. -/

inductive Op (c : SegmentConfig)
  | insert (p : Payload c)
  | batchInsert (ps : List (Payload c))
  | read (slotId : ℕ)
  | delete (slotId : ℕ)
  | reopen

inductive Reply
  | insert (st : Status) (slotId : ℕ)
  | batchInsert (st : Status) (slotIds : List ℕ)
  | read (st : Status) (slot : Slot)
  | delete (st : Status)
  | reopen (closed opened : Status)
  deriving DecidableEq

/-- One operation; `reopen` is `Close` and then `Open`. -/
def execute : Op c → P Disk Reply
  | .insert p => do
    let r ← SegmentFile.insert c p.1.key p.1.value
    return .insert r.1 r.2
  | .batchInsert ps => do
    let slots := ps.map Subtype.val
    let r ← SegmentFile.batchInsert c (keysOf slots) (valuesOf slots) slots.length
    return .batchInsert r.1 r.2
  | .read slotId => do
    let r ← SegmentFile.read c slotId
    return .read r.1 r.2
  | .delete slotId => return .delete (← SegmentFile.delete c slotId)
  | .reopen => do
    let closed ← SegmentFile.close
    let opened ← SegmentFile.openSegment c
    return .reopen closed opened

/-- An execution that reaches outside the bitmap has no result. -/
def perform (s : Object Disk) (op : Op c) : Option (Reply × Object Disk) :=
  let r := go (execute op) s
  if r.trace = [] then some (r.val, r.state) else none

/-- The operations with their replies, and the segment after them. -/
def performAll (s : Object Disk) : List (Op c) → Option (List (Op c × Reply) × Object Disk)
  | [] => some ([], s)
  | op :: ops => do
    let (reply, s) ← perform s op
    let (events, s) ← performAll s ops
    return ((op, reply) :: events, s)

/-- What a reply says about the slots. -/
def after (content : Content) : Op c × Reply → Content
  | (.insert p, .insert .ok slotId) => Function.update content slotId (some p.1)
  | (.batchInsert ps, .batchInsert .ok slotIds) =>
    (slotIds.zip ps).foldl (fun content q => Function.update content q.1 (some q.2.1)) content
  | (.delete slotId, .delete .ok) => Function.update content slotId none
  | _ => content

/-- For each slot the payload of the most recent insert that returned it, unless it was deleted
since. -/
def latest (events : List (Op c × Reply)) : Content := events.foldl after fun _ => none

theorem after_batchInsert (content : Content) (i : ℕ) (ps : List (Payload c)) :
    after content (.batchInsert ps, .batchInsert .ok (List.range' i ps.length)) =
      contentWith content i (ps.map Subtype.val) := by
  simp only [after]
  induction ps generalizing content i with
  | nil => rfl
  | cons p ps ih =>
    rw [List.length_cons, List.range'_succ, List.zip_cons_cons, List.foldl_cons, ih]
    rfl

theorem after_refused_batch {ps : List (Payload c)} {st : Status} {slotIds : List ℕ}
    (h : st ≠ .ok) : after content (.batchInsert ps, .batchInsert st slotIds) = content := by
  cases st <;> first | rfl | exact absurd rfl h

theorem after_refused_delete {i : ℕ} {st : Status} (h : st ≠ .ok) :
    after content ((.delete i : Op c), .delete st) = content := by
  cases st <;> first | rfl | exact absurd rfl h

theorem holds_execute (h : Sound c) (hholds : Holds c content s) (op : Op c) :
    let r := go (execute op) s
    Holds c (after content (op, r.val)) r.state := by
  cases op with
  | insert p =>
    rcases findFreeSlot_cases (c := c) s.members with hnone | ⟨hsome, -⟩
    · obtain ⟨hval, hstate⟩ := go_insert_full hholds.opened hnone p.1.key p.1.value
      simp [execute, hval, hstate, after, hholds]
    · obtain ⟨hval, -⟩ := go_insert hholds.opened hsome p.1.key p.1.value
      simp [execute, hval, after, (holds_insert h hholds p hsome).2.2]
  | batchInsert ps =>
    have hsized : ∀ slot ∈ ps.map Subtype.val, Sized c slot := by
      intro slot hslot
      obtain ⟨p, -, rfl⟩ := List.mem_map.mp hslot
      exact p.2
    rcases holds_batchInsert h hholds (ps.map Subtype.val) hsized with
      ⟨hval, hstate⟩ | ⟨hval, -, hnext⟩
    · simp only [execute, Prog.exec_bind_val, Prog.exec_bind_state, Prog.exec_pure_val,
        Prog.exec_pure_state]
      rw [hstate, after_refused_batch hval]
      exact hholds
    · simp only [execute, Prog.exec_bind_val, Prog.exec_bind_state, Prog.exec_pure_val,
        Prog.exec_pure_state, hval]
      simp only [List.length_map] at hnext ⊢
      rw [after_batchInsert]
      exact hnext
  | read i =>
    have hstate : (go (SegmentFile.read c i) s).state = s := (read_stays i _ s).symm
    simp [execute, after, hstate, hholds]
  | delete i =>
    by_cases hrefused : (calculateLayout c).totalSlots ≤ i ∨ s.members.isSlotOccupied i = false
    · obtain ⟨hval, hstate⟩ := go_delete_refused hholds.opened hrefused
      simp only [execute, Prog.exec_bind_val, Prog.exec_bind_state, Prog.exec_pure_val,
        Prog.exec_pure_state]
      rw [hstate, after_refused_delete hval]
      exact hholds
    · have hi : i < (calculateLayout c).totalSlots := by omega
      have hbit : s.members.isSlotOccupied i = true := by
        simpa using fun h => hrefused (Or.inr h)
      have hval := (go_delete hholds.opened hi hbit).1
      simp [execute, hval, after, holds_delete h hholds hi hbit]
  | reopen =>
    simpa [execute, after] using (holds_reopen h hholds).2

theorem execute_inside (h : Sound c) (hholds : Holds c content s) (op : Op c) :
    (go (execute op) s).trace = [] := by
  have hinside : Covers c ∧ Fenced c s := ⟨h.covers, hholds.length, fun _ => hholds.bound⟩
  have hends : ∀ {α : Type} {p : P SegmentFile.Disk α} {Q : α → Object SegmentFile.Disk → Prop}
      (f : α → Reply), Safe (Covers c ∧ Fenced c s) (fun t => t = s) p Q →
      (go (p >>= fun a => pure (f a)) s).trace = [] := fun f hp =>
    ((hp.bind fun a => Safe.ret (Q := fun _ _ => True) fun _ _ => trivial) _ s rfl).1 hinside
  cases op with
  | insert p => exact hends _ (insert_changes file_quiet p.1.key p.1.value s)
  | batchInsert ps => exact hends _ (batchInsert_changes file_quiet _ _ _ s)
  | read i => exact hends _ (read_changes file_quiet i s)
  | delete i => exact hends _ (delete_changes file_quiet i s)
  | reopen =>
    have hclosed : Long c (go SegmentFile.close s).state := by
      rw [(go_close hholds.opened).2]
      exact hholds.length
    have hclose : (go SegmentFile.close s).trace = [] := (close_changes s _ s rfl).1 trivial
    have hopen : (go (SegmentFile.openSegment c) (go SegmentFile.close s).state).trace = [] :=
      (open_changes _ _ _ rfl).1 ⟨h.covers, hclosed⟩
    simp [execute, hclose, hopen]

theorem perform_eq (h : Sound c) (hholds : Holds c content s) (op : Op c) :
    perform s op = some ((go (execute op) s).val, (go (execute op) s).state) :=
  if_pos (execute_inside h hholds op)

theorem holds_performAll (h : Sound c) (hholds : Holds c content s) (ops : List (Op c)) :
    ∃ r, performAll s ops = some r ∧ Holds c (r.1.foldl after content) r.2 := by
  induction ops generalizing content s with
  | nil => exact ⟨_, rfl, hholds⟩
  | cons op ops ih =>
    obtain ⟨r, hr, hrest⟩ := ih (holds_execute h hholds op)
    refine ⟨((op, (go (execute op) s).val) :: r.1, r.2), ?_, hrest⟩
    rw [performAll, perform_eq h hholds op]
    show (performAll _ ops >>= fun rest => some _) = _
    rw [hr]
    rfl

/-! The law of the log. -/

/-- What a segment that holds `content` answers: to `Read`, which slots `Insert` and `BatchInsert`
give out, and that every operation has a result. -/
structure Answers (c : SegmentConfig) (content : Content) (s : Object Disk) : Prop where
  occupied : ∀ i < (calculateLayout c).totalSlots,
    s.members.isSlotOccupied i = (content i).isSome
  read : ∀ i < (calculateLayout c).totalSlots, (go (SegmentFile.read c i) s).val =
    match content i with
    | some slot => (.ok, slot)
    | none => (.notFound, ⟨[], []⟩)
  insert : ∀ (p : Payload c) (sid : ℕ),
    (go (SegmentFile.insert c p.1.key p.1.value) s).val = (.ok, sid) →
      sid < (calculateLayout c).totalSlots ∧ s.members.isSlotOccupied sid = false
  batchInsert : ∀ (ps : List (Payload c)) (sids : List ℕ),
    (go (SegmentFile.batchInsert c (keysOf (ps.map Subtype.val)) (valuesOf (ps.map Subtype.val))
        ps.length) s).val = (.ok, sids) →
      sids.length = ps.length ∧ sids.Nodup ∧
        ∀ sid ∈ sids, sid < (calculateLayout c).totalSlots ∧ s.members.isSlotOccupied sid = false
  defined : ∀ op : Op c, perform s op = some ((go (execute op) s).val, (go (execute op) s).state)

theorem unoccupied_at_cursor (hholds : Holds c content s) {i : ℕ}
    (hi : i < (calculateLayout c).totalSlots) (hcursor : s.members.appendCursor ≤ i) :
    s.members.isSlotOccupied i = false := by
  rw [hholds.bits i hi]
  cases hslot : content i with
  | none => rfl
  | some slot =>
    have := hholds.below i slot hslot
    omega

theorem answers_of_holds (h : Sound c) (hholds : Holds c content s) : Answers c content s := by
  refine ⟨hholds.bits, fun i hi => go_read h hholds hi, ?_, ?_, perform_eq h hholds⟩
  · intro p sid hval
    rcases findFreeSlot_cases (c := c) s.members with hnone | ⟨hsome, hlt⟩
    · rw [(go_insert_full hholds.opened hnone p.1.key p.1.value).1] at hval
      cases hval
    · rw [(go_insert hholds.opened hsome p.1.key p.1.value).1] at hval
      cases hval
      exact ⟨hlt, unoccupied_at_cursor hholds hlt le_rfl⟩
  · intro ps sids hval
    have hsized : ∀ slot ∈ ps.map Subtype.val, Sized c slot := by
      intro slot hslot
      obtain ⟨p, -, rfl⟩ := List.mem_map.mp hslot
      exact p.2
    have hcases := holds_batchInsert h hholds (ps.map Subtype.val) hsized
    simp only [List.length_map, hval] at hcases
    rcases hcases with ⟨hrefused, -⟩ | ⟨heq, hroom, -⟩
    · exact absurd rfl hrefused
    · cases heq
      refine ⟨by simp, List.nodup_range', fun sid hsid => ?_⟩
      have hrange := List.mem_range'_1.mp hsid
      have hlt : sid < (calculateLayout c).totalSlots := by omega
      exact ⟨hlt, unoccupied_at_cursor hholds hlt hrange.1⟩

/-- Every sequence of operations on a new segment has a result, after which the slots hold what the
last inserts that returned them wrote, and still do so after `Close` and `Open`. -/
theorem segment_is_log (hslot : c.keySize + c.valueSize < 2 ^ 32) (hsize : c.segmentSize < 2 ^ 64)
    (hfits : Fits c) (hunwrapped : Unwrapped c) (ops : List (Op c)) :
    ∃ events s, performAll (started c) ops = some (events, s) ∧ Answers c (latest events) s ∧
      ∃ s', perform s (.reopen : Op c) = some (.reopen .ok .ok, s') ∧
        Answers c (latest events) s' := by
  have h : Sound c := ⟨hslot, hsize, hfits, covers_of_unwrapped hunwrapped⟩
  obtain ⟨⟨events, s⟩, hrun, hholds⟩ := holds_performAll h (holds_started h) ops
  have hreopened : Holds c (latest events) _ := holds_execute h hholds .reopen
  have hreply : (go (execute (.reopen : Op c)) s).val = .reopen .ok .ok := by
    simp [execute, (go_close hholds.opened).1, (holds_reopen h hholds).1]
  refine ⟨events, s, hrun, answers_of_holds h hholds, _, ?_, answers_of_holds h hreopened⟩
  rw [perform_eq h hholds, hreply]

def smallRun : List (Op small) :=
  [.insert ⟨⟨[1], [2]⟩, rfl, rfl⟩, .insert ⟨⟨[3], [4]⟩, rfl, rfl⟩, .delete 1, .reopen,
    .batchInsert [⟨⟨[5], [6]⟩, rfl, rfl⟩], .read 1]

theorem segment_is_log_small :
    ((performAll (started small) smallRun).map fun r => r.1.map Prod.snd) =
        some [.insert .ok 0, .insert .ok 1, .delete .ok, .reopen .ok .ok, .batchInsert .ok [1],
          .read .ok ⟨[5], [6]⟩] ∧
      ∃ events s, performAll (started small) smallRun = some (events, s) ∧
        Answers small (latest events) s := by
  refine ⟨by decide +kernel, ?_⟩
  obtain ⟨events, s, hrun, hanswers, -⟩ := segment_is_log (c := small) (by decide) (by decide)
    (by decide) ⟨by decide, by decide⟩ smallRun
  exact ⟨events, s, hrun, hanswers⟩

def wrappedPayload : Payload wrapped :=
  ⟨⟨List.replicate 8 1, List.replicate 8 2⟩, by decide, by decide⟩

/-- The layout has slots and no bitmap: the first insert sets a bit outside of it. -/
theorem insert_without_result :
    wrapped.keySize + wrapped.valueSize < 2 ^ 32 ∧ wrapped.segmentSize < 2 ^ 64 ∧ Fits wrapped ∧
      (calculateLayout wrapped).totalSlots = 33554431 ∧
      (calculateLayout wrapped).bitmapSize = 0 ∧
      (go (execute (.insert wrappedPayload)) (started wrapped)).trace = [.outside 0] ∧
      (performAll (started wrapped) [.insert wrappedPayload]).isNone = true := by
  decide +kernel

end ParaKV.Segment.ByteLog
