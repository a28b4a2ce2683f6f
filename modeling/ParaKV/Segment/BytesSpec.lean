/- GID: ParaKV/Segment/BytesSpec
   source: parakv/core/segment/segment_base.cc, parakv/core/segment/segment_file.cc
   digest: Layouts, bit counts and file regions, and what the programs of a segment do. -/

import ParaKV.Segment.Bytes

set_option autoImplicit false

namespace ParaKV.Segment.BytesSpec

open Lib.TracedProgram Lib.ByteStore Index.Key Segment.Base
open Core.State (IoOutcome Slot)
open Segment.Bytes Segment.Bytes.SegmentFile

abbrev go {δ α : Type} (m : P δ α) (s : Object δ) : Outcome (Object δ) Fault α :=
  m.exec IoOutcome.ok s

section Accesses

variable {δ : Type} (slotIds : List ℕ) (outcomes : ℕ → IoOutcome) (s : Object δ)

@[simp] theorem touch_used : (touch slotIds outcomes s).used = 0 := rfl

@[simp] theorem touch_state : (touch slotIds outcomes s).state = s := rfl

@[simp] theorem go_touch_state : (go (touch slotIds) s).state = s := rfl

@[simp] theorem go_rebuildCounters_state (c : SegmentConfig) :
    (go (rebuildCounters c) s).state = onMembers (·.rebuild c) s := rfl

end Accesses

theorem findFreeSlot_eq_some {c : SegmentConfig} {m : Members} {sid : ℕ}
    (h : m.findFreeSlot c = some sid) :
    sid = m.appendCursor ∧ m.appendCursor < (calculateLayout c).totalSlots := by
  unfold Members.findFreeSlot at h
  split_ifs at h with hlt hsmall
  cases h
  exact ⟨rfl, hlt⟩

/-! Layouts. -/

/-- The first value of `total_slots_` in `CalculateLayout`. -/
def firstTotal (c : SegmentConfig) : ℕ :=
  c.segmentSize * 8 % 2 ^ 64 / (8 * ((c.keySize + c.valueSize) % 2 ^ 32) + 1) % 2 ^ 32

/-- Rounding the bitmap up wraps neither in 32 nor in 64 bits. -/
structure Unwrapped (c : SegmentConfig) : Prop where
  bytes : firstTotal c + 7 < 2 ^ 32
  align : (firstTotal c + 7) / 8 + c.bitmapAlignment ≤ 2 ^ 64

/-- The bitmap and the keys and values of all slots fit in the segment. -/
def Fits (c : SegmentConfig) : Prop :=
  (calculateLayout c).bitmapSize +
    (calculateLayout c).totalSlots * (c.keySize + c.valueSize) ≤ c.segmentSize

instance (c : SegmentConfig) : Decidable (Fits c) := inferInstanceAs (Decidable (_ ≤ _))

def small : SegmentConfig :=
  { keySize := 1, valueSize := 1, segmentSize := 5, bitmapAlignment := 1 }

/-- The first slot count is one below 2 ^ 32, and rounding it up to bytes wraps. -/
def wrapped : SegmentConfig :=
  { keySize := 8, valueSize := 8, segmentSize := 69256347632 }

def Covers (c : SegmentConfig) : Prop :=
  (calculateLayout c).totalSlots ≤ 8 * (calculateLayout c).bitmapSize

theorem covers_of_unwrapped {c : SegmentConfig} (h : Unwrapped c) : Covers c := by
  obtain ⟨hbytes, halign⟩ := h
  have htotal : (calculateLayout c).totalSlots ≤ firstTotal c := min_le_left _ _
  have hbitmap : (firstTotal c + 7) / 8 ≤ (calculateLayout c).bitmapSize := by
    have hwrap : (firstTotal c + 7) % 2 ^ 32 = firstTotal c + 7 := Nat.mod_eq_of_lt hbytes
    show (firstTotal c + 7) / 8 ≤ if c.bitmapAlignment > 0 then
      ((firstTotal c + 7) % 2 ^ 32 / 8 + c.bitmapAlignment - 1) % 2 ^ 64 / c.bitmapAlignment *
        c.bitmapAlignment % 2 ^ 64 else (firstTotal c + 7) % 2 ^ 32 / 8
    rw [hwrap]
    generalize (firstTotal c + 7) / 8 = b at *
    generalize c.bitmapAlignment = a at *
    split_ifs with ha
    · have hmod : (b + a - 1) % 2 ^ 64 = b + a - 1 := Nat.mod_eq_of_lt (by omega)
      have hdown := Nat.div_mul_le_self (b + a - 1) a
      have hup := Nat.lt_div_mul_add (a := b + a - 1) ha
      rw [hmod, Nat.mod_eq_of_lt (by omega)]
      omega
    · exact le_rfl
  unfold Covers
  omega

theorem Covers.byte_lt {c : SegmentConfig} (h : Covers c) {i : ℕ}
    (hi : i < (calculateLayout c).totalSlots) : i / 8 < (calculateLayout c).bitmapSize := by
  unfold Covers at h
  omega

theorem sub32_eq {a b : ℕ} (hab : b ≤ a) (ha : a < 2 ^ 32) : sub32 a b = a - b := by
  unfold sub32
  omega

theorem total_lt (c : SegmentConfig) : (calculateLayout c).totalSlots < 2 ^ 32 :=
  lt_of_le_of_lt (min_le_left _ _) (Nat.mod_lt _ (by decide))

/-! Bits and counters. -/

section Members

variable {c : SegmentConfig} {m : Members}

@[simp] theorem updateState_bitmap : (m.updateState c).bitmap = m.bitmap := by
  unfold Members.updateState
  split_ifs <;> rfl

@[simp] theorem updateState_appendCursor : (m.updateState c).appendCursor = m.appendCursor := by
  unfold Members.updateState
  split_ifs <;> rfl

@[simp] theorem deleted_bitmap : (m.deleted c).bitmap = m.bitmap := updateState_bitmap

@[simp] theorem deleted_appendCursor : (m.deleted c).appendCursor = m.appendCursor :=
  updateState_appendCursor

theorem occupied_setSlotBit {i : ℕ} (hi : i / 8 < m.bitmap.length) (j : ℕ) :
    (m.setSlotBit i).isSlotOccupied j = (decide (j = i) || m.isSlotOccupied j) :=
  bit_setBit hi j

theorem occupied_clearSlotBit (i j : ℕ) :
    (m.clearSlotBit i).isSlotOccupied j = (decide (j ≠ i) && m.isSlotOccupied j) :=
  bit_clearBit m.bitmap i j

theorem setSlotBits_length (m : Members) (ids : List ℕ) :
    (setSlotBits m ids).bitmap.length = m.bitmap.length := by
  induction ids generalizing m with
  | nil => rfl
  | cons i ids ih =>
    rw [setSlotBits, List.foldl_cons]
    exact (ih (m.setSlotBit i)).trans (length_setBit _ _)

theorem setSlotBits_appendCursor (m : Members) (ids : List ℕ) :
    (setSlotBits m ids).appendCursor = m.appendCursor := by
  induction ids generalizing m with
  | nil => rfl
  | cons i ids ih => exact ih (m.setSlotBit i)

theorem occupied_setSlotBits {ids : List ℕ} (hids : ∀ i ∈ ids, i / 8 < m.bitmap.length) (j : ℕ) :
    (setSlotBits m ids).isSlotOccupied j = (decide (j ∈ ids) || m.isSlotOccupied j) := by
  induction ids generalizing m with
  | nil => simp [setSlotBits]
  | cons i ids ih =>
    have hrest : ∀ k ∈ ids, k / 8 < (m.setSlotBit i).bitmap.length := by
      intro k hk
      rw [Members.setSlotBit, length_setBit]
      exact hids k (List.mem_cons_of_mem _ hk)
    have hstep : setSlotBits m (i :: ids) = setSlotBits (m.setSlotBit i) ids := rfl
    rw [hstep, ih hrest, occupied_setSlotBit (hids i List.mem_cons_self)]
    by_cases hj : j = i <;> by_cases hmem : j ∈ ids <;> simp [hj, hmem]

theorem scanBitmap_spec (bitmap : Bytes) (n : ℕ) :
    (∀ i < n, bit bitmap i = true → i < (Members.scanBitmap bitmap n).2) ∧
      (Members.scanBitmap bitmap n).2 ≤ n := by
  induction n with
  | zero => simp [Members.scanBitmap]
  | succ n ih =>
    obtain ⟨hbelow, hle⟩ := ih
    simp only [Members.scanBitmap]
    split_ifs with hbit
    · exact ⟨fun i hi _ => hi, le_rfl⟩
    · refine ⟨fun i hi hset => ?_, by omega⟩
      have hne : i ≠ n := by
        intro heq
        rw [heq] at hset
        exact hbit hset
      exact hbelow i (by omega) hset

end Members

/-! Regions of a file. -/

section Files

variable {f : ByteFile} {buf : Bytes} {off off' n : ℕ}

theorem write_size (h : off + buf.length ≤ f.size) : (f.write buf off).size = f.size := by
  unfold ByteFile.write
  split_ifs
  · rfl
  · exact max_eq_left h

theorem extended_slice (h : off + n ≤ f.size) : slice f.extended off n = slice f.byte off n := by
  apply slice_congr
  intro k hk
  have hin : off + k < f.size := by omega
  simp only [ByteFile.extended, if_pos hin]

theorem write_slice_self (f : ByteFile) (buf : Bytes) (off : ℕ) :
    slice (f.write buf off).byte off buf.length = buf := by
  unfold ByteFile.write
  split_ifs with hempty
  · simp [hempty]
  · exact slice_put_self _ _ _

theorem write_slice_disjoint (hin : off' + n ≤ f.size)
    (h : off' + n ≤ off ∨ off + buf.length ≤ off') :
    slice (f.write buf off).byte off' n = slice f.byte off' n := by
  unfold ByteFile.write
  split_ifs
  · rfl
  · exact (slice_put_disjoint h).trans (extended_slice hin)

theorem read_inside (h : off + n ≤ f.size) : f.read n off = slice f.byte off n := by
  have hmin : min n (f.size - off) = n := by omega
  rw [ByteFile.read, hmin]

end Files

/-! The file operations when they succeed. -/

section Primitives

variable {c : SegmentConfig} {s : Object Disk} {f : ByteFile} {buf : Bytes} {off n : ℕ}

@[simp] theorem onFile_onFile (g h : ByteFile → ByteFile) (s : Object Disk) :
    onFile g (onFile h s) = onFile (fun f => g (h f)) s := by
  simp [onFile, Function.comp_def]

theorem go_pwrite (s : Object Disk) (buf : Bytes) (off : ℕ) :
    (go (pwrite buf off) s).val = .ok ∧
      (go (pwrite buf off) s).state = onFile (·.write buf off) s := by
  by_cases hempty : buf = []
  · subst hempty
    have hwrite : (fun f : ByteFile => f.write [] off) = id := rfl
    refine ⟨by simp [pwrite], ?_⟩
    simp only [pwrite, onFile, hwrite, Option.map_id, id, if_true, Prog.exec_pure_state]
  · exact ⟨by simp [pwrite, hempty], by simp [pwrite, hempty]⟩

theorem pread_stays (n off : ℕ) : Moves Eq (pread n off) := by
  refine Moves.ite (Moves.ret _) (Moves.read.bind fun s => Moves.draw.bind fun outcome => ?_)
  cases outcome with
  | ok => exact Moves.ret _
  | fail k => exact Moves.ret _

theorem go_pread_state (s : Object Disk) (n off : ℕ) : (go (pread n off) s).state = s :=
  (pread_stays n off _ s).symm

theorem go_pread (hfile : s.dev = some f) (n off : ℕ) (hin : off + n ≤ f.size) :
    (go (pread n off) s).val = (.ok, slice f.byte off n) := by
  by_cases hzero : n = 0
  · simp [pread, hzero]
  · simp [pread, hzero, hfile, read_inside hin]

theorem go_writeSlot (c : SegmentConfig) (s : Object Disk) (sid : ℕ) (key value : Bytes) :
    (go (writeSlot c medium sid key value) s).val = .ok ∧
      (go (writeSlot c medium sid key value) s).state =
        onFile (fun f => (f.write key (getSlotOffset c sid)).write value
          (valueOffset c (getSlotOffset c sid))) s := by
  obtain ⟨hkey, hkeyState⟩ := go_pwrite s key (getSlotOffset c sid)
  obtain ⟨hvalue, hvalueState⟩ := go_pwrite (onFile (·.write key (getSlotOffset c sid)) s) value
    (valueOffset c (getSlotOffset c sid))
  constructor
  · simp [writeSlot, medium, hkey, hkeyState, hvalue]
  · simp [writeSlot, medium, hkey, hkeyState, hvalueState]

theorem go_flushBitmap (s : Object Disk) :
    (go (flushBitmap medium) s).val = .ok ∧
      (go (flushBitmap medium) s).state = onFile (·.write s.members.bitmap 0) s :=
  go_pwrite s s.members.bitmap 0

theorem go_close (hopen : s.opened = true) :
    (go close s).val = .ok ∧
      (go close s).state =
        ⟨false, s.members, s.dev.map (·.write s.members.bitmap 0)⟩ := by
  constructor
  · simp [close, attempt, hopen, go_flushBitmap]
  · simp [close, attempt, hopen, go_flushBitmap, onFile,
      setOpened]

theorem go_open_existing (hopen : s.opened = false) (hdev : s.dev = some f)
    (hsize : (calculateLayout c).bitmapSize ≤ f.size)
    (hlength : s.members.bitmap.length = (calculateLayout c).bitmapSize) :
    (go (SegmentFile.openSegment c) s).val = .ok ∧
      (go (SegmentFile.openSegment c) s).state =
        ⟨true, { s.members with
          bitmap := slice f.byte 0 (calculateLayout c).bitmapSize }.rebuild c, some f⟩ := by
  have hread : ∀ s' : Object Disk, s'.dev = some f →
      (go (pread (calculateLayout c).bitmapSize 0) s').val =
        (.ok, slice f.byte 0 (calculateLayout c).bitmapSize) := fun s' hs' =>
    go_pread hs' _ 0 (by omega)
  have hdrop : s.members.bitmap.drop (calculateLayout c).bitmapSize = [] := by
    rw [← hlength, List.drop_length]
  constructor
  · simp [SegmentFile.openSegment, attempt, hopen, hdev, loadBitmap, medium, hread,
      go_pread_state]
  · simp [SegmentFile.openSegment, attempt, hopen, hdev, loadBitmap, medium, hread,
      go_pread_state, onMembers, hdrop]

theorem go_open_new (hopen : s.opened = false) (hdev : s.dev = none) :
    (go (SegmentFile.openSegment c) s).val = .ok ∧
      (go (SegmentFile.openSegment c) s).state =
        ⟨true, s.members.resetBitmap, some ((ByteFile.empty.resize c.segmentSize).write
          (List.replicate s.members.bitmap.length 0) 0)⟩ := by
  constructor
  · simp [SegmentFile.openSegment, attempt, hopen, hdev, go_flushBitmap]
  · simp [SegmentFile.openSegment, attempt, hopen, hdev, go_flushBitmap, onMembers,
      onFile, Members.resetBitmap]

end Primitives

/-! The regions of a layout that fits. -/

/-- The configurations for which the layout is what it should be; `size` is the range of the
64-bit field. -/
structure Sound (c : SegmentConfig) : Prop where
  slot : c.keySize + c.valueSize < 2 ^ 32
  size : c.segmentSize < 2 ^ 64
  fits : Fits c
  covers : Covers c

def slotOffset (c : SegmentConfig) (i : ℕ) : ℕ :=
  (calculateLayout c).bitmapSize + i * (c.keySize + c.valueSize)

def stored (c : SegmentConfig) (f : ByteFile) (i : ℕ) : Slot :=
  ⟨slice f.byte (slotOffset c i) c.keySize, slice f.byte (slotOffset c i + c.keySize) c.valueSize⟩

section Regions

variable {c : SegmentConfig} {f : ByteFile} {i j : ℕ}

theorem Sound.slot_inside (h : Sound c) (hi : i < (calculateLayout c).totalSlots) :
    slotOffset c i + c.keySize + c.valueSize ≤ c.segmentSize := by
  have hslots := Nat.mul_le_mul_right (c.keySize + c.valueSize) (Nat.succ_le_of_lt hi)
  rw [Nat.succ_mul] at hslots
  have hfits := h.fits
  unfold Fits at hfits
  unfold slotOffset
  omega

theorem Sound.getSlotOffset_eq (h : Sound c) (hi : i < (calculateLayout c).totalSlots) :
    getSlotOffset c i = slotOffset c i := by
  have hinside := h.slot_inside hi
  have hsize := h.size
  have hslot : (calculateLayout c).slotSize = c.keySize + c.valueSize := Nat.mod_eq_of_lt h.slot
  have hoffset : (calculateLayout c).slotDataOffset = (calculateLayout c).bitmapSize := rfl
  rw [getSlotOffset, hslot, hoffset]
  exact Nat.mod_eq_of_lt (show slotOffset c i < 2 ^ 64 by omega)

theorem Sound.valueOffset_eq (h : Sound c) (hi : i < (calculateLayout c).totalSlots) :
    valueOffset c (slotOffset c i) = slotOffset c i + c.keySize := by
  have hinside := h.slot_inside hi
  have hsize := h.size
  exact Nat.mod_eq_of_lt (by omega)

theorem slotOffset_apart (hij : i < j) :
    slotOffset c i + c.keySize + c.valueSize ≤ slotOffset c j := by
  have hslots := Nat.mul_le_mul_right (c.keySize + c.valueSize) (Nat.succ_le_of_lt hij)
  rw [Nat.succ_mul] at hslots
  unfold slotOffset
  omega

theorem bitmap_apart (i : ℕ) : (calculateLayout c).bitmapSize ≤ slotOffset c i :=
  Nat.le_add_right _ _

def slotWritten (c : SegmentConfig) (f : ByteFile) (i : ℕ) (slot : Slot) : ByteFile :=
  (f.write slot.key (slotOffset c i)).write slot.value (slotOffset c i + c.keySize)

def Sized (c : SegmentConfig) (slot : Slot) : Prop :=
  slot.key.length = c.keySize ∧ slot.value.length = c.valueSize

variable {slot : Slot}

theorem slotWritten_size (h : Sound c) (hf : f.size = c.segmentSize)
    (hi : i < (calculateLayout c).totalSlots) (hslot : Sized c slot) :
    (slotWritten c f i slot).size = c.segmentSize := by
  have hinside := h.slot_inside hi
  obtain ⟨hkey, hvalue⟩ := hslot
  have hfirst : (f.write slot.key (slotOffset c i)).size = f.size :=
    write_size (by rw [hkey]; omega)
  rw [slotWritten, write_size (by rw [hfirst, hvalue]; omega), hfirst, hf]

theorem slotWritten_outside (h : Sound c) (hf : f.size = c.segmentSize)
    (hi : i < (calculateLayout c).totalSlots) (hslot : Sized c slot) {off n : ℕ}
    (hin : off + n ≤ c.segmentSize)
    (hout : off + n ≤ slotOffset c i ∨ slotOffset c i + c.keySize + c.valueSize ≤ off) :
    slice (slotWritten c f i slot).byte off n = slice f.byte off n := by
  have hinside := h.slot_inside hi
  obtain ⟨hkey, hvalue⟩ := hslot
  have hfirst : (f.write slot.key (slotOffset c i)).size = f.size :=
    write_size (by rw [hkey]; omega)
  rw [slotWritten, write_slice_disjoint (by rw [hfirst]; omega) (by rw [hvalue]; omega),
    write_slice_disjoint (by omega) (by rw [hkey]; omega)]

theorem stored_slotWritten_self (h : Sound c) (hf : f.size = c.segmentSize)
    (hi : i < (calculateLayout c).totalSlots) (hslot : Sized c slot) :
    stored c (slotWritten c f i slot) i = slot := by
  have hinside := h.slot_inside hi
  obtain ⟨hkey, hvalue⟩ := hslot
  have hfirst : (f.write slot.key (slotOffset c i)).size = f.size :=
    write_size (by rw [hkey]; omega)
  have hkeyBytes : slice (slotWritten c f i slot).byte (slotOffset c i) c.keySize = slot.key := by
    rw [slotWritten, write_slice_disjoint (by rw [hfirst]; omega) (by omega), ← hkey]
    exact write_slice_self _ _ _
  have hvalueBytes : slice (slotWritten c f i slot).byte (slotOffset c i + c.keySize)
      c.valueSize = slot.value := by
    rw [slotWritten, ← hvalue]
    exact write_slice_self _ _ _
  rw [stored, hkeyBytes, hvalueBytes]

theorem stored_slotWritten_other (h : Sound c) (hf : f.size = c.segmentSize)
    (hi : i < (calculateLayout c).totalSlots) (hj : j < (calculateLayout c).totalSlots)
    (hij : j ≠ i) (hslot : Sized c slot) :
    stored c (slotWritten c f i slot) j = stored c f j := by
  have hinside := h.slot_inside hj
  have hapart : slotOffset c j + c.keySize + c.valueSize ≤ slotOffset c i ∨
      slotOffset c i + c.keySize + c.valueSize ≤ slotOffset c j := by
    rcases Nat.lt_or_gt_of_ne hij with hlt | hgt
    · exact Or.inl (slotOffset_apart hlt)
    · exact Or.inr (slotOffset_apart hgt)
  rw [stored, slotWritten_outside h hf hi hslot (by omega) (by omega),
    slotWritten_outside h hf hi hslot (by omega) (by omega)]
  rfl

theorem flushed_bitmap (f : ByteFile) {bitmap : Bytes}
    (hlen : bitmap.length = (calculateLayout c).bitmapSize) :
    slice (f.write bitmap 0).byte 0 (calculateLayout c).bitmapSize = bitmap := by
  rw [← hlen]
  exact write_slice_self _ _ _

theorem Sound.bitmap_inside (h : Sound c) : (calculateLayout c).bitmapSize ≤ c.segmentSize := by
  have hfits := h.fits
  unfold Fits at hfits
  omega

theorem stored_flushed (h : Sound c) (hf : f.size = c.segmentSize) {bitmap : Bytes}
    (hlen : bitmap.length = (calculateLayout c).bitmapSize)
    (hj : j < (calculateLayout c).totalSlots) :
    stored c (f.write bitmap 0) j = stored c f j := by
  have hinside := h.slot_inside hj
  have hapart := bitmap_apart (c := c) j
  rw [stored, write_slice_disjoint (by omega) (by omega),
    write_slice_disjoint (by omega) (by omega)]
  rfl

theorem Sound.byte_lt (h : Sound c) (hi : i < (calculateLayout c).totalSlots) :
    i / 8 < (calculateLayout c).bitmapSize := h.covers.byte_lt hi

end Regions

end ParaKV.Segment.BytesSpec
