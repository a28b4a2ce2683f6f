/- GID: ParaKV/Segment/Interchange
   source: parakv/core/segment/segment_file.cc, parakv/core/segment/segment_block_dev.h,
     parakv/core/segment/segment_block_dev.cc
   digest: A segment in a file and one on a block device answer alike over every run. -/

import ParaKV.Segment.BytesSpec

set_option autoImplicit false

namespace ParaKV.Segment.Interchange

open Lib.TracedProgram Lib.ByteStore Index.Key Segment.Base
open Core.State (IoOutcome Slot)
open Segment.Bytes Segment.BytesSpec
open Segment.Bytes.SegmentFile (Disk onFile)
open Segment.Bytes.SegmentBlockDev (Device)

/-- The assumptions on a configuration and the place of its segment on the device. -/
structure Placed (c : SegmentConfig) (base : ℕ) : Prop where
  fits : Fits c
  room : base + c.segmentSize < 2 ^ 64

variable {τ : Type} {c : SegmentConfig} {base : ℕ} {dev₀ : Device}

/-! Regions of the segment. -/

theorem Placed.bitmap_inside (h : Placed c base) :
    (calculateLayout c).bitmapSize ≤ c.segmentSize :=
  le_trans (Nat.le_add_right _ _) h.fits

theorem Placed.slot_inside (h : Placed c base) {i : ℕ} (hi : i < (calculateLayout c).totalSlots) :
    getSlotOffset c i + (c.keySize + c.valueSize) ≤ c.segmentSize := by
  have hfits := h.fits
  unfold Fits at hfits
  have hslot : (calculateLayout c).slotSize ≤ c.keySize + c.valueSize := Nat.mod_le _ _
  have hoffset : (calculateLayout c).slotDataOffset = (calculateLayout c).bitmapSize := rfl
  have hbefore : i * (calculateLayout c).slotSize ≤ i * (c.keySize + c.valueSize) :=
    Nat.mul_le_mul_left i hslot
  have hnext : (i + 1) * (c.keySize + c.valueSize) ≤
      (calculateLayout c).totalSlots * (c.keySize + c.valueSize) :=
    Nat.mul_le_mul_right _ hi
  rw [Nat.succ_mul] at hnext
  have hmod : getSlotOffset c i ≤ (calculateLayout c).slotDataOffset +
    i * (calculateLayout c).slotSize := Nat.mod_le _ _
  omega

theorem Placed.valueOffset_eq (h : Placed c base) {off : ℕ}
    (hoff : off + (c.keySize + c.valueSize) ≤ c.segmentSize) :
    valueOffset c off = off + c.keySize := by
  have hroom := h.room
  exact Nat.mod_eq_of_lt (by omega)

theorem Placed.absoluteOffset_eq (h : Placed c base) {off : ℕ} (hoff : off ≤ c.segmentSize) :
    SegmentBlockDev.absoluteOffset base off = base + off := by
  have hroom := h.room
  exact Nat.mod_eq_of_lt (by omega)

theorem Placed.valueOffset_absolute (h : Placed c base) {off : ℕ}
    (hoff : off + (c.keySize + c.valueSize) ≤ c.segmentSize) :
    valueOffset c (base + off) = base + (off + c.keySize) := by
  have hroom := h.room
  rw [valueOffset, Nat.mod_eq_of_lt (by omega), Nat.add_assoc]

/-! The two segments. -/

/-- The objects have the same members and the same bytes, or there is no file yet and the region
of the device is zero; outside of it the device is as it was. -/
structure Related (c : SegmentConfig) (base : ℕ) (dev₀ : Device) (s : Object Disk)
    (d : Object Device) : Prop where
  opened : s.opened = d.opened
  members : s.members = d.members
  length : d.members.bitmap.length = (calculateLayout c).bitmapSize
  cursor : d.members.appendCursor ≤ (calculateLayout c).totalSlots
  bytes : (∃ f, s.dev = some f ∧ f.size = c.segmentSize ∧
      ∀ j < c.segmentSize, f.byte j = d.dev (base + j)) ∨
    s.dev = none ∧ d.opened = false ∧ ∀ j < c.segmentSize, d.dev (base + j) = 0
  outside : ∀ j, j < base ∨ base + c.segmentSize ≤ j → d.dev j = dev₀ j

/-- The objects are open and related, and `Q` holds of their members. -/
def Running (c : SegmentConfig) (base : ℕ) (dev₀ : Device) (Q : Members → Prop) (s : Object Disk)
    (d : Object Device) : Prop :=
  Related c base dev₀ s d ∧ d.opened = true ∧ Q d.members

variable {Q : Members → Prop} {s : Object Disk} {d : Object Device}

theorem Running.file (h : Running c base dev₀ Q s d) :
    ∃ f, s.dev = some f ∧ f.size = c.segmentSize ∧
      ∀ j < c.segmentSize, f.byte j = d.dev (base + j) := by
  rcases h.1.bytes with hfile | ⟨-, hclosed, -⟩
  · exact hfile
  · rw [h.2.1] at hclosed
    cases hclosed

/-- Programs of the two objects, all operations of the file and of the device succeeding. -/
abbrev Alike {α : Type} (R : Object Disk → Object Device → Prop) (m : P Disk α) (m' : P Device α)
    (R' : Object Disk → Object Device → Prop) : Prop :=
  Agree IoOutcome.ok R m m' R'

theorem onMembers_alike (Q' : Members → Prop) {g : Members → Members}
    (hg : ∀ m, Q m → m.bitmap.length = (calculateLayout c).bitmapSize →
      m.appendCursor ≤ (calculateLayout c).totalSlots →
      (g m).bitmap.length = (calculateLayout c).bitmapSize ∧
        (g m).appendCursor ≤ (calculateLayout c).totalSlots ∧ Q' (g m)) :
    Alike (Running c base dev₀ Q) (modify (onMembers g)) (modify (onMembers g))
      (Running c base dev₀ Q') := by
  apply Agree.change
  rintro s d ⟨hrel, hopen, hQ⟩
  obtain ⟨hlength, hcursor, hQ'⟩ := hg _ hQ hrel.length hrel.cursor
  refine ⟨⟨hrel.opened, ?_, hlength, hcursor, hrel.bytes, hrel.outside⟩, hopen, hQ'⟩
  rw [onMembers, hrel.members]
  rfl

theorem touch_alike {R : Object Disk → Object Device → Prop} (slotIds : List ℕ) :
    Alike R (touch slotIds) (touch slotIds) R := .emit _ _

theorem byte_write {f : ByteFile} {buf : Bytes} {off j : ℕ} (hj : j < f.size) :
    (f.write buf off).byte j = put f.byte off buf j := by
  unfold ByteFile.write
  split_ifs with hempty
  · rw [hempty, put_nil]
  · simp only [put, ByteFile.extended, if_pos hj]

theorem running_write {buf : Bytes} {off : ℕ} (hin : off + buf.length ≤ c.segmentSize)
    (h : Running c base dev₀ Q s d) :
    Running c base dev₀ Q (onFile (·.write buf off) s)
      { d with dev := put d.dev (base + off) buf } := by
  obtain ⟨f, hdev, hsize, hbytes⟩ := h.file
  obtain ⟨hrel, hopen, hQ⟩ := h
  refine ⟨⟨hrel.opened, hrel.members, hrel.length, hrel.cursor, Or.inl ?_, ?_⟩, hopen, hQ⟩
  · refine ⟨f.write buf off, by rw [onFile, hdev]; rfl, ?_, ?_⟩
    · rw [write_size (by omega), hsize]
    · intro j hj
      rw [byte_write (by omega)]
      exact put_congr hbytes hj
  · intro j hj
    show put d.dev (base + off) buf j = dev₀ j
    rw [put_outside (by omega)]
    exact hrel.outside j hj

theorem write_alike {buf : Bytes} {off : ℕ} (hin : off + buf.length ≤ c.segmentSize) :
    Alike (Running c base dev₀ Q) (SegmentFile.pwrite buf off)
      (SegmentBlockDev.write buf (base + off)) (Running c base dev₀ Q) := by
  intro s d h
  obtain ⟨hval, hstate⟩ := go_pwrite s buf off
  refine ⟨hval, ?_⟩
  show Running c base dev₀ Q (go _ s).state { d with dev := put d.dev (base + off) buf }
  rw [hstate]
  exact running_write hin h

theorem read_alike {n off : ℕ} (hin : off + n ≤ c.segmentSize) :
    Alike (Running c base dev₀ Q) (SegmentFile.pread n off)
      (SegmentBlockDev.readDevice n (base + off)) (Running c base dev₀ Q) := by
  intro s d h
  obtain ⟨f, hdev, hsize, hbytes⟩ := h.file
  have hval := go_pread hdev n off (by omega)
  have hstate := go_pread_state s n off
  have hsame : slice f.byte off n = slice d.dev (base + off) n := by
    apply slice_congr
    intro k hk
    rw [hbytes (off + k) (by omega), Nat.add_assoc]
  refine ⟨hval.trans (by rw [hsame]; rfl), ?_⟩
  show Running c base dev₀ Q (go _ s).state d
  rw [hstate]
  exact h

theorem flushBitmap_alike (h : Placed c base) :
    Alike (Running c base dev₀ Q) (flushBitmap SegmentFile.medium)
      (flushBitmap (SegmentBlockDev.medium base)) (Running c base dev₀ Q) := by
  have hinside := h.bitmap_inside
  apply Agree.read
  intro s d hrun
  have hzero : SegmentBlockDev.absoluteOffset base 0 = base + 0 :=
    h.absoluteOffset_eq (Nat.zero_le _)
  simp only [SegmentFile.medium, SegmentBlockDev.medium, hzero, hrun.1.members]
  apply (write_alike _).here hrun
  rw [hrun.1.length]
  omega

theorem writeSlot_alike (h : Placed c base) {i : ℕ} (hi : i < (calculateLayout c).totalSlots)
    {key value : Bytes} (hkey : key.length ≤ c.keySize) (hvalue : value.length ≤ c.valueSize) :
    Alike (Running c base dev₀ Q) (writeSlot c SegmentFile.medium i key value)
      (writeSlot c (SegmentBlockDev.medium base) i key value) (Running c base dev₀ Q) := by
  have hinside := h.slot_inside hi
  simp only [writeSlot, SegmentFile.medium, SegmentBlockDev.medium,
    h.absoluteOffset_eq (show getSlotOffset c i ≤ c.segmentSize by omega),
    h.valueOffset_eq hinside, h.valueOffset_absolute hinside]
  refine (write_alike (by omega)).bind fun st => ?_
  exact Agree.ite (fun _ => .ret st) fun _ => write_alike (by omega)

theorem readSlot_alike (h : Placed c base) {i : ℕ} (hi : i < (calculateLayout c).totalSlots) :
    Alike (Running c base dev₀ Q) (readSlot c SegmentFile.medium i)
      (readSlot c (SegmentBlockDev.medium base) i) (Running c base dev₀ Q) := by
  have hinside := h.slot_inside hi
  simp only [readSlot, SegmentFile.medium, SegmentBlockDev.medium,
    h.absoluteOffset_eq (show getSlotOffset c i ≤ c.segmentSize by omega),
    h.valueOffset_eq hinside, h.valueOffset_absolute hinside]
  refine (read_alike (by omega)).bind fun key => Agree.ite (fun _ => .ret _) fun _ => ?_
  exact (read_alike (by omega)).bind fun value => Agree.ite (fun _ => .ret _) fun _ => .ret _

/-! The operations. -/

theorem opened_alike {α : Type} {a : α} {m : Object Disk → P Disk α}
    {m' : Object Device → P Device α}
    (hm : ∀ s d, Running c base dev₀ (fun _ => True) s d →
      Alike (fun t t' => t = s ∧ t' = d) (m s) (m' d) (Running c base dev₀ fun _ => True)) :
    Alike (Related c base dev₀) (get >>= fun s => if !s.opened then pure a else m s)
      (get >>= fun d => if !d.opened then pure a else m' d) (Related c base dev₀) := by
  apply Agree.read
  intro s d hrel
  rw [hrel.opened]
  refine Agree.ite (fun _ => (Agree.ret a).here hrel) fun hopen => ?_
  have hrun : Running c base dev₀ (fun _ => True) s d := ⟨hrel, by simpa using hopen, trivial⟩
  exact (hm s d hrun).weaken (fun _ _ h => h) fun _ _ h => h.1

theorem forget {α : Type} (a : α) :
    Alike (Running c base dev₀ Q) (pure a) (pure a) (Running c base dev₀ fun _ => True) :=
  (Agree.ret a).weaken (fun _ _ h => h) fun _ _ h => ⟨h.1, h.2.1, trivial⟩

theorem insert_alike (h : Placed c base) (key value : Bytes) :
    Alike (Related c base dev₀) (SegmentFile.insert c key value)
      (SegmentBlockDev.insert c base key value) (Related c base dev₀) := by
  refine opened_alike fun s d hrun => ?_
  rw [hrun.1.members]
  cases hfree : d.members.findFreeSlot c with
  | none => exact (Agree.ret _).here hrun
  | some sid =>
    have hsid : d.members.appendCursor = sid ∧ sid < (calculateLayout c).totalSlots := by
      obtain ⟨rfl, hroom⟩ := findFreeSlot_eq_some hfree
      exact ⟨rfl, hroom⟩
    have hkey : (key.take c.keySize).length ≤ c.keySize := List.length_take_le _ _
    have hvalue : (value.take c.valueSize).length ≤ c.valueSize := List.length_take_le _ _
    have hhere : Running c base dev₀ (fun m => m.appendCursor = sid) s d :=
      ⟨hrun.1, hrun.2.1, hsid.1⟩
    refine ((writeSlot_alike h hsid.2 hkey hvalue).here hhere).bind fun st => ?_
    refine Agree.ite (fun _ => forget _) fun _ => (touch_alike _).bind fun _ => ?_
    refine (onMembers_alike (fun m => m.appendCursor = sid) fun m hm hlength hcursor =>
      ?_).bind fun _ => ?_
    · exact ⟨(length_setBit _ _).trans hlength, hcursor, hm⟩
    refine (flushBitmap_alike h).bind fun st => ?_
    refine Agree.ite (fun _ => (touch_alike _).bind fun _ => ?_) fun _ => ?_
    · refine (onMembers_alike (fun _ => True) fun m _ hlength hcursor => ?_).bind fun _ => .ret _
      exact ⟨(length_clearBit _ _).trans hlength, hcursor, trivial⟩
    · refine (onMembers_alike (fun _ => True) fun m hm hlength hcursor => ?_).bind fun _ => .ret _
      refine ⟨by simpa [Members.appended] using hlength, ?_, trivial⟩
      simp only [Members.appended, updateState_appendCursor]
      omega

theorem writePayloads_alike (h : Placed c base) (keys values : Bytes) {cursor n i : ℕ}
    (hroom : cursor + (i + n) ≤ (calculateLayout c).totalSlots) :
    Alike (Running c base dev₀ Q) (writePayloads c SegmentFile.medium keys values cursor n i)
      (writePayloads c (SegmentBlockDev.medium base) keys values cursor n i)
      (Running c base dev₀ Q) := by
  induction n generalizing i with
  | zero => exact .ret _
  | succ n ih =>
    have hkey : (chunk keys c.keySize i).length ≤ c.keySize := List.length_take_le _ _
    have hvalue : (chunk values c.valueSize i).length ≤ c.valueSize := List.length_take_le _ _
    refine (writeSlot_alike h (by omega) hkey hvalue).bind fun st => ?_
    exact Agree.ite (fun _ => .ret st) fun _ => ih (by omega)

theorem batchInsert_alike (h : Placed c base) (keys values : Bytes) (count : ℕ) :
    Alike (Related c base dev₀) (SegmentFile.batchInsert c keys values count)
      (SegmentBlockDev.batchInsert c base keys values count) (Related c base dev₀) := by
  refine Agree.ite (fun _ => .ret _) fun _ => opened_alike fun s d hrun => ?_
  rw [hrun.1.members]
  refine Agree.ite (fun _ => (Agree.ret _).here hrun) fun hroom => ?_
  have hcursor := hrun.1.cursor
  have htotal : (calculateLayout c).totalSlots < 2 ^ 32 := total_lt c
  rw [sub32_eq hcursor htotal] at hroom
  generalize hat : d.members.appendCursor = cursor at *
  have hhere : Running c base dev₀ (fun m => m.appendCursor = cursor) s d :=
    ⟨hrun.1, hrun.2.1, hat⟩
  refine ((writePayloads_alike h keys values (by omega)).here hhere).bind fun st => ?_
  refine Agree.ite (fun _ => forget _) fun _ => (touch_alike _).bind fun _ => ?_
  refine (onMembers_alike (fun m => m.appendCursor = cursor) fun m hm hlength hcursor =>
    ?_).bind fun _ => ?_
  · rw [setSlotBits_appendCursor]
    exact ⟨(setSlotBits_length _ _).trans hlength, hcursor, hm⟩
  refine (flushBitmap_alike h).bind fun st => ?_
  refine Agree.ite (fun _ => forget _) fun _ => ?_
  refine (onMembers_alike (fun _ => True) fun m hm hlength hcursor => ?_).bind fun _ => .ret _
  refine ⟨by simpa [Members.appended] using hlength, ?_, trivial⟩
  simp only [Members.appended, updateState_appendCursor]
  omega

theorem read_slot_alike (h : Placed c base) (slotId : ℕ) :
    Alike (Related c base dev₀) (SegmentFile.read c slotId) (SegmentBlockDev.read c base slotId)
      (Related c base dev₀) := by
  refine Agree.ite (fun _ => .ret _) fun hlt => opened_alike fun s d hrun => ?_
  rw [hrun.1.members]
  refine ((touch_alike _).here hrun).bind fun _ => Agree.ite (fun _ => .ret _) fun _ => ?_
  exact readSlot_alike h (by omega)

theorem onMembers_keeps {g : Members → Members}
    (hg : ∀ m, (g m).bitmap.length = m.bitmap.length ∧ (g m).appendCursor = m.appendCursor) :
    Alike (Running c base dev₀ fun _ => True) (modify (onMembers g)) (modify (onMembers g))
      (Running c base dev₀ fun _ => True) := by
  apply onMembers_alike
  intro m _ hlength hcursor
  rw [(hg m).1, (hg m).2]
  exact ⟨hlength, hcursor, trivial⟩

theorem deleted_alike :
    Alike (Running c base dev₀ fun _ => True) (modify (onMembers (Members.deleted c)))
      (modify (onMembers (Members.deleted c))) (Running c base dev₀ fun _ => True) := by
  apply onMembers_keeps
  exact fun m => ⟨by rw [deleted_bitmap], deleted_appendCursor⟩

theorem delete_alike (h : Placed c base) (slotId : ℕ) :
    Alike (Related c base dev₀) (SegmentFile.delete c slotId)
      (SegmentBlockDev.delete c base slotId) (Related c base dev₀) := by
  refine Agree.ite (fun _ => .ret _) fun _ => opened_alike fun s d hrun => ?_
  rw [hrun.1.members]
  refine ((touch_alike _).here hrun).bind fun _ => Agree.ite (fun _ => .ret _) fun _ => ?_
  refine (touch_alike _).bind fun _ => (onMembers_keeps fun m => ?_).bind fun _ => ?_
  · exact ⟨length_clearBit _ _, rfl⟩
  refine (flushBitmap_alike h).bind fun st => ?_
  refine Agree.ite (fun _ => (touch_alike _).bind fun _ => ?_) fun _ => ?_
  · refine (onMembers_keeps fun m => ?_).bind fun _ => .ret _
    exact ⟨length_setBit _ _, rfl⟩
  · exact deleted_alike.bind fun _ => .ret _

theorem moveSlots_alike (h : Placed c base) (segmentId : ℕ) (target : Target τ) {n i : ℕ} (t : τ)
    (hbound : i + n ≤ (calculateLayout c).totalSlots) :
    Alike (Running c base dev₀ Q) (moveSlots c SegmentFile.medium segmentId target n i t)
      (moveSlots c (SegmentBlockDev.medium base) segmentId target n i t)
      (Running c base dev₀ Q) := by
  induction n generalizing i t with
  | zero => exact .ret _
  | succ n ih =>
    refine (touch_alike _).bind fun _ => Agree.read fun s d hrun => ?_
    rw [hrun.1.members]
    refine Agree.ite (fun _ => (ih t (by omega)).here hrun) fun _ => ?_
    refine ((readSlot_alike h (by omega)).here hrun).bind fun slot => ?_
    refine Agree.ite (fun _ => .ret _) fun _ => Agree.ite (fun _ => .ret _) fun _ => ?_
    exact (ih _ (by omega)).bind fun r => .ret _

theorem compact_alike (h : Placed c base) (segmentId : ℕ) (target : Target τ) (t : τ) :
    Alike (Related c base dev₀) (SegmentFile.compact c segmentId target t)
      (SegmentBlockDev.compact c base segmentId target t) (Related c base dev₀) := by
  refine opened_alike fun s d hrun => ?_
  rw [hrun.1.members]
  have hcursor := hrun.1.cursor
  refine ((moveSlots_alike h segmentId target t (by omega)).here hrun).bind fun r => ?_
  refine Agree.ite (fun _ => .ret _) fun _ => ?_
  refine (onMembers_alike (fun _ => True) fun m _ hlength _ => ?_).bind fun _ => ?_
  · exact ⟨by simpa [Members.resetBitmap] using hlength, Nat.zero_le _, trivial⟩
  · exact (flushBitmap_alike h).bind fun st => .ret _

theorem syncBitmap_alike (h : Placed c base) :
    Alike (Related c base dev₀) SegmentFile.syncBitmap (SegmentBlockDev.syncBitmap base)
      (Related c base dev₀) :=
  opened_alike fun _ _ hrun => (flushBitmap_alike h).here hrun

/-! `Open` and `Close`. -/

theorem scanBitmap_zeros (k n : ℕ) : Members.scanBitmap (List.replicate k 0) n = (0, 0) := by
  induction n with
  | zero => rfl
  | succ n ih => simp [Members.scanBitmap, ih]

theorem rebuild_zeros (m : Members) (k : ℕ) :
    Members.rebuild c { m with bitmap := List.replicate k 0 } =
      ⟨List.replicate k 0, 0, 0, 0, .idle⟩ := by
  simp [Members.rebuild, scanBitmap_zeros, Members.updateState, sub32]

theorem rebuild_spec (m : Members) :
    (Members.rebuild c m).bitmap = m.bitmap ∧
      (Members.rebuild c m).appendCursor ≤ (calculateLayout c).totalSlots := by
  simp only [Members.rebuild, updateState_bitmap, updateState_appendCursor, true_and]
  exact (scanBitmap_spec m.bitmap (calculateLayout c).totalSlots).2

theorem go_device_open (h : Placed c base) {d : Object Device} (hclosed : d.opened = false)
    (hlength : d.members.bitmap.length = (calculateLayout c).bitmapSize) :
    (go (SegmentBlockDev.openSegment c base) d).val = .ok ∧
      (go (SegmentBlockDev.openSegment c base) d).state =
        ⟨true, Members.rebuild c { d.members with
          bitmap := slice d.dev base (calculateLayout c).bitmapSize }, d.dev⟩ := by
  have hzero : SegmentBlockDev.absoluteOffset base 0 = base :=
    h.absoluteOffset_eq (Nat.zero_le _)
  have hdrop : d.members.bitmap.drop (calculateLayout c).bitmapSize = [] := by
    rw [← hlength, List.drop_length]
  constructor
  · simp [SegmentBlockDev.openSegment, hclosed, loadBitmap, SegmentBlockDev.medium,
      SegmentBlockDev.readDevice]
  · simp [SegmentBlockDev.openSegment, hclosed, loadBitmap, SegmentBlockDev.medium,
      SegmentBlockDev.readDevice, hzero, onMembers, hdrop]

theorem open_alike (h : Placed c base) :
    Alike (Related c base dev₀) (SegmentFile.openSegment c) (SegmentBlockDev.openSegment c base)
      (Related c base dev₀) := by
  intro s d hrel
  have hinside := h.bitmap_inside
  cases hopen : d.opened with
  | true =>
    have hs : s.opened = true := hrel.opened.trans hopen
    simp [SegmentFile.openSegment, SegmentBlockDev.openSegment, hs, hopen, hrel]
  | false =>
    have hs : s.opened = false := hrel.opened.trans hopen
    obtain ⟨hval', hstate'⟩ := go_device_open h hopen hrel.length
    rcases hrel.bytes with ⟨f, hdev, hsize, hbytes⟩ | ⟨hdev, -, hzero⟩
    · obtain ⟨hval, hstate⟩ := go_open_existing (c := c) hs hdev (by omega)
        (by rw [hrel.members]; exact hrel.length)
      refine ⟨hval.trans hval'.symm, ?_⟩
      show Related c base dev₀ (go _ s).state (go _ d).state
      have hsame : slice f.byte 0 (calculateLayout c).bitmapSize =
          slice d.dev base (calculateLayout c).bitmapSize := by
        apply slice_congr
        intro k hk
        rw [Nat.zero_add]
        exact hbytes k (by omega)
      rw [hstate, hstate', hsame, hrel.members]
      obtain ⟨hbitmap, hcursor⟩ := rebuild_spec (c := c) { d.members with
        bitmap := slice d.dev base (calculateLayout c).bitmapSize }
      refine ⟨rfl, rfl, ?_, hcursor, Or.inl ⟨f, rfl, hsize, hbytes⟩, hrel.outside⟩
      rw [hbitmap]
      exact length_slice _ _ _
    · obtain ⟨hval, hstate⟩ := go_open_new (c := c) hs hdev
      refine ⟨hval.trans hval'.symm, ?_⟩
      show Related c base dev₀ (go _ s).state (go _ d).state
      have hempty : slice d.dev base (calculateLayout c).bitmapSize =
          List.replicate (calculateLayout c).bitmapSize 0 := by
        apply List.eq_replicate_iff.mpr
        refine ⟨length_slice _ _ _, fun b hb => ?_⟩
        obtain ⟨k, hk, rfl⟩ := List.mem_map.mp hb
        exact hzero k (by have := List.mem_range.mp hk; omega)
      rw [hstate, hstate', hempty, rebuild_zeros, hrel.members, hrel.length]
      refine ⟨rfl, by rw [Members.resetBitmap, hrel.length], List.length_replicate, Nat.zero_le _,
        Or.inl ⟨_, rfl, ?_, fun j hj => ?_⟩, hrel.outside⟩
      · rw [write_size (by rw [List.length_replicate, Nat.zero_add]; exact hinside)]
        rfl
      · rw [hzero j hj, byte_write hj]
        exact put_zeros rfl

theorem close_alike (h : Placed c base) :
    Alike (Related c base dev₀) SegmentFile.close (SegmentBlockDev.close base)
      (Related c base dev₀) := by
  intro s d hrel
  have hinside := h.bitmap_inside
  cases hopen : d.opened with
  | false =>
    have hs : s.opened = false := hrel.opened.trans hopen
    simp [SegmentFile.close, SegmentBlockDev.close, hs, hopen, hrel]
  | true =>
    have hs : s.opened = true := hrel.opened.trans hopen
    have hzero : SegmentBlockDev.absoluteOffset base 0 = base :=
      h.absoluteOffset_eq (Nat.zero_le _)
    have hdevice : (go (SegmentBlockDev.close base) d).val = .ok ∧
        (go (SegmentBlockDev.close base) d).state =
          ⟨false, d.members, put d.dev base d.members.bitmap⟩ := by
      simp [SegmentBlockDev.close, hopen, flushBitmap, SegmentBlockDev.medium,
        SegmentBlockDev.write, SegmentBlockDev.sync, hzero]
    obtain ⟨hval', hstate'⟩ := hdevice
    obtain ⟨hval, hstate⟩ := go_close hs
    refine ⟨hval.trans hval'.symm, ?_⟩
    show Related c base dev₀ (go _ s).state (go _ d).state
    rw [hstate, hstate', hrel.members]
    have hrun : Running c base dev₀ (fun _ => True) s d := ⟨hrel, hopen, trivial⟩
    have hin : 0 + d.members.bitmap.length ≤ c.segmentSize := by
      rw [hrel.length]
      omega
    obtain ⟨hflushed, -⟩ := running_write hin hrun
    refine ⟨rfl, rfl, hrel.length, hrel.cursor, ?_, hflushed.outside⟩
    rcases hflushed.bytes with hfile | ⟨-, hclosed, -⟩
    · exact Or.inl hfile
    · rw [show d.opened = false from hclosed] at hopen
      cases hopen

/-! Runs. -/

inductive Op (τ : Type)
  | open
  | insert (key value : Bytes)
  | batchInsert (keys values : Bytes) (count : ℕ)
  | read (slotId : ℕ)
  | delete (slotId : ℕ)
  | compact (target : Target τ) (t : τ)
  | syncBitmap
  | close

/-- What a call returns; for `compact` also the calls of the callback and the target after it. -/
inductive Reply (τ : Type)
  | status (st : Status)
  | slot (st : Status) (slotId : ℕ)
  | slots (st : Status) (slotIds : List ℕ)
  | bytes (st : Status) (slot : Slot)
  | moves (st : Status) (moves : List Move) (t : τ)
  deriving DecidableEq

def fileOp (c : SegmentConfig) (segmentId : ℕ) : Op τ → P Disk (Reply τ)
  | .open => return .status (← SegmentFile.openSegment c)
  | .insert key value => do
    let (st, slotId) ← SegmentFile.insert c key value
    return .slot st slotId
  | .batchInsert keys values count => do
    let (st, slotIds) ← SegmentFile.batchInsert c keys values count
    return .slots st slotIds
  | .read slotId => do
    let (st, slot) ← SegmentFile.read c slotId
    return .bytes st slot
  | .delete slotId => return .status (← SegmentFile.delete c slotId)
  | .compact target t => do
    let (st, moves, t) ← SegmentFile.compact c segmentId target t
    return .moves st moves t
  | .syncBitmap => return .status (← SegmentFile.syncBitmap)
  | .close => return .status (← SegmentFile.close)

def deviceOp (c : SegmentConfig) (base segmentId : ℕ) : Op τ → P Device (Reply τ)
  | .open => return .status (← SegmentBlockDev.openSegment c base)
  | .insert key value => do
    let (st, slotId) ← SegmentBlockDev.insert c base key value
    return .slot st slotId
  | .batchInsert keys values count => do
    let (st, slotIds) ← SegmentBlockDev.batchInsert c base keys values count
    return .slots st slotIds
  | .read slotId => do
    let (st, slot) ← SegmentBlockDev.read c base slotId
    return .bytes st slot
  | .delete slotId => return .status (← SegmentBlockDev.delete c base slotId)
  | .compact target t => do
    let (st, moves, t) ← SegmentBlockDev.compact c base segmentId target t
    return .moves st moves t
  | .syncBitmap => return .status (← SegmentBlockDev.syncBitmap base)
  | .close => return .status (← SegmentBlockDev.close base)

theorem op_alike (h : Placed c base) (segmentId : ℕ) (op : Op τ) :
    Alike (Related c base dev₀) (fileOp c segmentId op) (deviceOp c base segmentId op)
      (Related c base dev₀) := by
  cases op with
  | «open» => exact (open_alike h).bind fun _ => .ret _
  | insert key value => exact (insert_alike h key value).bind fun _ => .ret _
  | batchInsert keys values count =>
    exact (batchInsert_alike h keys values count).bind fun _ => .ret _
  | read slotId => exact (read_slot_alike h slotId).bind fun _ => .ret _
  | delete slotId => exact (delete_alike h slotId).bind fun _ => .ret _
  | compact target t => exact (compact_alike h segmentId target t).bind fun _ => .ret _
  | syncBitmap => exact (syncBitmap_alike h).bind fun _ => .ret _
  | close => exact (close_alike h).bind fun _ => .ret _

/-- The operations one after the other: what each returns and the members after it, from which
all counters are read. -/
def runAll {δ : Type} (perform : Op τ → P δ (Reply τ)) :
    List (Op τ) → P δ (List (Reply τ × Members))
  | [] => return []
  | op :: ops => do
    let reply ← perform op
    let s ← get
    let rest ← runAll perform ops
    return (reply, s.members) :: rest

theorem runAll_alike (h : Placed c base) (segmentId : ℕ) (ops : List (Op τ)) :
    Alike (Related c base dev₀) (runAll (fileOp c segmentId) ops)
      (runAll (deviceOp c base segmentId) ops) (Related c base dev₀) := by
  induction ops with
  | nil => exact .ret _
  | cons op ops ih =>
    refine (op_alike h segmentId op).bind fun reply => Agree.read fun s d hrel => ?_
    rw [hrel.members]
    exact (ih.here hrel).bind fun rest => .ret _

def unopened {δ : Type} (c : SegmentConfig) (dev : δ) : Object δ := ⟨false, .fresh c, dev⟩

theorem related_unopened (hzero : ∀ j < c.segmentSize, dev₀ (base + j) = 0) :
    Related c base dev₀ (unopened c none) (unopened c dev₀) :=
  ⟨rfl, rfl, List.length_replicate, Nat.zero_le _, Or.inr ⟨rfl, rfl, hzero⟩, fun _ _ => rfl⟩

/-- A file that does not exist and a zeroed region of a device are interchangeable, and outside
of its region the device keeps its bytes. -/
theorem file_and_device_interchangeable (hfits : Fits c) (hroom : base + c.segmentSize < 2 ^ 64)
    (hzero : ∀ j < c.segmentSize, dev₀ (base + j) = 0) (segmentId : ℕ) (ops : List (Op τ)) :
    let file := go (runAll (fileOp c segmentId) ops) (unopened c none)
    let device := go (runAll (deviceOp c base segmentId) ops) (unopened c dev₀)
    file.val = device.val ∧ file.state.opened = device.state.opened ∧
      ∀ j, j < base ∨ base + c.segmentSize ≤ j → device.state.dev j = dev₀ j := by
  intro file device
  obtain ⟨hval, hrel⟩ := runAll_alike ⟨hfits, hroom⟩ segmentId ops _ _ (related_unopened hzero)
  exact ⟨hval, hrel.opened, hrel.outside⟩

def counting : Target ℕ := ⟨8, fun _ _ t => (.ok, t, t + 1)⟩

def smallRun : List (Op ℕ) :=
  [.open, .insert [1] [2], .batchInsert [3] [4] 1, .delete 0, .read 0, .close, .open, .read 1,
    .compact counting 5, .insert [5] [6], .syncBitmap, .insert [7] [8], .insert [9] [9]]

def smallDevice : Device := fun j => if 3 ≤ j ∧ j < 8 then 0 else 9

theorem file_and_device_interchangeable_small :
    (go (runAll (fileOp small 7) smallRun) (unopened small none)).val.map Prod.fst =
      [.status .ok, .slot .ok 0, .slots .ok [1], .status .ok, .bytes .notFound ⟨[], []⟩,
        .status .ok, .status .ok, .bytes .ok ⟨[3], [4]⟩, .moves .ok [⟨[3], 7, 1, 8, 5⟩] 6,
        .slot .ok 0, .status .ok, .slot .ok 1, .slot .full 0] ∧
      (go (runAll (fileOp small 7) smallRun) (unopened small none)).val =
        (go (runAll (deviceOp small 3 7) smallRun) (unopened small smallDevice)).val :=
  ⟨by decide +kernel, (file_and_device_interchangeable (c := small) (by decide) (by decide)
    (by decide) 7 smallRun).1⟩

end ParaKV.Segment.Interchange
