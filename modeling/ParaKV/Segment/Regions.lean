/- GID: ParaKV/Segment/Regions
   source: parakv/core/segment/segment_base.cc, parakv/core/segment/segment_file.cc
   digest: A segment by region follows the bytes of its file through every operation. -/

import ParaKV.Segment.ByteLog
import ParaKV.Segment.ByteCounters

set_option autoImplicit false

namespace ParaKV.Segment.Regions

open Lib.TracedProgram Lib.ByteStore Index.Key Segment.Base Segment.FileSpec Segment.Accounting
open Segment.Bytes Segment.BytesSpec Segment.ByteLog
open Segment.ByteCounters (created)
open Core.State
open Segment.Bytes.SegmentFile (Disk)

/-! The bytes of a segment and its regions. -/

/-- A file of the full size with the bits and the slots of the image. There is no slot from
`total_slots_` on. -/
structure Shows (o : Options) (file : ByteFile) (f : SegmentImage) : Prop where
  size : file.size = o.segmentConfig.segmentSize
  complete : f.Complete
  bits : ∀ i < o.totalSlots,
    bit (slice file.byte 0 (calculateLayout o.segmentConfig).bitmapSize) i = f.bitmap i
  slots : ∀ i < o.totalSlots, stored o.segmentConfig file i = f.slots i

/-- The counters of the two objects. -/
structure Counts (m : Members) (b : SegmentBase) : Prop where
  usedSlots : m.usedSlots = b.usedSlots
  deletedSlots : m.deletedSlots = b.deletedSlots
  appendCursor : m.appendCursor = b.appendCursor
  state : m.state = b.state

/-- A segment object over its file and the object of the region model over its image. -/
structure Mirrors (o : Options) (s : Object Disk) (b : SegmentBase) (f : SegmentImage) :
    Prop where
  opened : s.opened = b.isOpen
  counts : Counts s.members b
  length : s.members.bitmap.length = (calculateLayout o.segmentConfig).bitmapSize
  bits : ∀ i < o.totalSlots, s.members.isSlotOccupied i = b.bitmap i
  file : ∀ file, s.dev = some file → Shows o file f
  absent : s.dev = none → f.present = false ∧ s.opened = false
  image : ImageOk o f
  valid : b.isOpen = true → SegmentOk o b f ∧ Tallied o b

variable {K : Type} {o : Options} {s : Object Disk} {b : SegmentBase} {f : SegmentImage}
  {file : ByteFile} {m : Members}

theorem Counts.updateState (h : Counts m b) (c : SegmentConfig) :
    Counts (m.updateState c) (b.updateState c) := by
  have hused := h.usedSlots
  have hcursor := h.appendCursor
  unfold Members.updateState SegmentBase.updateState SegmentBase.totalSlots
  split_ifs <;> first
    | exact ⟨hused, h.deletedSlots, hcursor, rfl⟩
    | omega

theorem Counts.findFreeSlot (h : Counts m b) :
    m.findFreeSlot o.segmentConfig = b.findFreeSlot o.segmentConfig := by
  unfold Members.findFreeSlot SegmentBase.findFreeSlot SegmentBase.totalSlots
  rw [h.appendCursor]

theorem Mirrors.file_of_open (h : Mirrors o s b f) (hopen : s.opened = true) :
    ∃ file, s.dev = some file ∧ Shows o file f := by
  cases hdev : s.dev with
  | none =>
    rw [(h.absent hdev).2] at hopen
    cases hopen
  | some file => exact ⟨file, rfl, h.file file hdev⟩

theorem Mirrors.segmentOk (h : Mirrors o s b f) (hopen : s.opened = true) : SegmentOk o b f :=
  (h.valid (h.opened ▸ hopen)).1

theorem Mirrors.tallied (h : Mirrors o s b f) (hopen : s.opened = true) : Tallied o b :=
  (h.valid (h.opened ▸ hopen)).2

/-! A flush, and a slot written before it. -/

theorem Shows.flushed (hsound : Sound o.segmentConfig) (h : Shows o file f) {bitmap : Bytes}
    (hlength : bitmap.length = (calculateLayout o.segmentConfig).bitmapSize) {bits : ℕ → Bool}
    (hbits : ∀ i < o.totalSlots, bit bitmap i = bits i) :
    Shows o (file.write bitmap 0) { f with bitmap := bits } where
  size := by
    have hinside := hsound.bitmap_inside
    rw [write_size (by rw [hlength, h.size]; omega), h.size]
  complete := h.complete
  bits i hi := by rw [flushed_bitmap file hlength, hbits i hi]
  slots i hi := by rw [stored_flushed hsound h.size hlength hi, h.slots i hi]

theorem Shows.slotWritten (hsound : Sound o.segmentConfig) (h : Shows o file f) {i : ℕ}
    (hi : i < o.totalSlots) {slot : Slot} (hslot : Sized o.segmentConfig slot) :
    Shows o (slotWritten o.segmentConfig file i slot)
      { f with slots := Function.update f.slots i slot } where
  size := slotWritten_size hsound h.size hi hslot
  complete := h.complete
  bits j hj := by
    have hinside := hsound.bitmap_inside
    have hapart := bitmap_apart (c := o.segmentConfig) i
    rw [slotWritten_outside hsound h.size hi hslot (by omega) (by omega), h.bits j hj]
  slots j hj := by
    show _ = Function.update f.slots i slot j
    by_cases hji : j = i
    · subst hji
      rw [stored_slotWritten_self hsound h.size hj hslot, Function.update_self]
    · rw [stored_slotWritten_other hsound h.size hi hj hji hslot, Function.update_of_ne hji,
        h.slots j hj]

/-! What an operation makes of the two objects. -/

theorem mirrors_flushed (hsound : Sound o.segmentConfig) (hshows : Shows o file f)
    (hopen : b.isOpen = true) (hcounts : Counts m b)
    (hlength : m.bitmap.length = (calculateLayout o.segmentConfig).bitmapSize)
    (hbits : ∀ i < o.totalSlots, bit m.bitmap i = b.bitmap i) (htallied : Tallied o b) :
    Mirrors o ⟨true, m, some (file.write m.bitmap 0)⟩ b { f with bitmap := b.bitmap } := by
  have hsegment : SegmentOk o b { f with bitmap := b.bitmap } :=
    ⟨hopen, rfl, htallied.below, htallied.bound, hshows.complete⟩
  refine ⟨hopen.symm, hcounts, hlength, hbits, ?_, ?_, hsegment.imageOk,
    fun _ => ⟨hsegment, htallied⟩⟩
  · intro file' hfile'
    obtain rfl := Option.some.inj hfile'
    exact hshows.flushed hsound hlength hbits
  · intro hnone
    cases hnone

theorem mirrors_inserted (hsound : Sound o.segmentConfig) (h : Mirrors o s b f)
    (hopen : s.opened = true) (hroom : b.appendCursor < o.totalSlots) {slot : Slot}
    (hslot : Sized o.segmentConfig slot) :
    Mirrors o
      ⟨true, (s.members.setSlotBit b.appendCursor).appended o.segmentConfig 1,
        s.dev.map fun file => (slotWritten o.segmentConfig file b.appendCursor slot).write
          (setBit s.members.bitmap b.appendCursor) 0⟩
      (insertedSegment o b)
      { f with
        bitmap := Function.update b.bitmap b.appendCursor true
        slots := Function.update f.slots b.appendCursor slot } := by
  obtain ⟨file, hdev, hshows⟩ := h.file_of_open hopen
  have hbyte : b.appendCursor / 8 < s.members.bitmap.length := by
    rw [h.length]
    exact hsound.byte_lt hroom
  have hbitmap : ((s.members.setSlotBit b.appendCursor).appended o.segmentConfig 1).bitmap =
      setBit s.members.bitmap b.appendCursor := by
    simp [Members.appended, Members.setSlotBit]
  have hbitmap' : (insertedSegment o b).bitmap = Function.update b.bitmap b.appendCursor true := by
    simp [insertedSegment]
  rw [hdev, Option.map_some, ← hbitmap, ← hbitmap']
  refine mirrors_flushed hsound (hshows.slotWritten hsound hroom hslot) ?_ ?_ ?_ ?_
    (tallied_inserted (h.tallied hopen) hroom)
  · simpa [insertedSegment] using (h.segmentOk hopen).isOpen
  · refine Counts.updateState ?_ o.segmentConfig
    exact ⟨congrArg (· + 1) h.counts.usedSlots, h.counts.deletedSlots,
      congrArg (· + 1) h.counts.appendCursor, h.counts.state⟩
  · rw [hbitmap, length_setBit, h.length]
  · intro i hi
    rw [hbitmap, hbitmap', bit_setBit hbyte]
    by_cases hic : i = b.appendCursor
    · simp [hic]
    · rw [Function.update_of_ne hic, ← h.bits i hi]
      simp [hic, Members.isSlotOccupied]

theorem mirrors_deleted (hsound : Sound o.segmentConfig) (h : Mirrors o s b f)
    (hopen : s.opened = true) {sid : ℕ} (hbit : b.bitmap sid = true) :
    Mirrors o
      ⟨true, (s.members.clearSlotBit sid).deleted o.segmentConfig, s.dev.map fun file =>
        file.write (clearBit s.members.bitmap sid) 0⟩
      (deletedSegment o b sid) { f with bitmap := Function.update b.bitmap sid false } := by
  obtain ⟨file, hdev, hshows⟩ := h.file_of_open hopen
  have hused : sub32 s.members.usedSlots 1 = b.usedSlots - 1 := by
    have hpos := (h.tallied hopen).used_pos hbit
    have hcursor := (h.tallied hopen).cursor
    have hbound : b.appendCursor ≤ (calculateLayout o.segmentConfig).totalSlots :=
      (h.tallied hopen).bound
    have htotal := total_lt o.segmentConfig
    rw [h.counts.usedSlots, sub32_eq (by omega) (by omega)]
  have hbitmap : ((s.members.clearSlotBit sid).deleted o.segmentConfig).bitmap =
      clearBit s.members.bitmap sid := by
    simp [Members.deleted, Members.clearSlotBit]
  have hbitmap' : (deletedSegment o b sid).bitmap = Function.update b.bitmap sid false := by
    simp [deletedSegment]
  rw [hdev, Option.map_some, ← hbitmap, ← hbitmap']
  refine mirrors_flushed hsound hshows ?_ ?_ ?_ ?_ (tallied_deleted (h.tallied hopen) hbit)
  · simpa [deletedSegment] using (h.segmentOk hopen).isOpen
  · refine Counts.updateState ?_ o.segmentConfig
    exact ⟨hused, congrArg (· + 1) h.counts.deletedSlots, h.counts.appendCursor, h.counts.state⟩
  · rw [hbitmap, length_clearBit, h.length]
  · intro i hi
    rw [hbitmap, hbitmap', bit_clearBit]
    by_cases his : i = sid
    · simp [his]
    · rw [Function.update_of_ne his, ← h.bits i hi]
      simp [his, Members.isSlotOccupied]

theorem mirrors_reset (hsound : Sound o.segmentConfig) (hshows : Shows o file f)
    (hlength : m.bitmap.length = (calculateLayout o.segmentConfig).bitmapSize)
    (hopen : b.isOpen = true) :
    Mirrors o ⟨true, m.resetBitmap, some (file.write m.resetBitmap.bitmap 0)⟩ b.resetBitmap
      { f with bitmap := fun _ => false } := by
  refine mirrors_flushed hsound hshows hopen ⟨rfl, rfl, rfl, rfl⟩ ?_ ?_ (tallied_reset o b)
  · simpa [Members.resetBitmap] using hlength
  · intro i _
    simp [Members.resetBitmap, SegmentBase.resetBitmap]

theorem scanBitmap_eq {bitmap : Bytes} {bits : ℕ → Bool} {n : ℕ}
    (h : ∀ i < n, bit bitmap i = bits i) :
    Members.scanBitmap bitmap n = File.rebuildCounters n bits := by
  induction n with
  | zero => rfl
  | succ n ih =>
    rw [rebuildCounters_succ, Members.scanBitmap, ih fun i hi => h i (by omega), h n (by omega)]

theorem mirrors_opened (h : Mirrors o s b f) (hshows : Shows o file f) :
    Mirrors o
      ⟨true, { s.members with
        bitmap := slice file.byte 0 (calculateLayout o.segmentConfig).bitmapSize }.rebuild
          o.segmentConfig, some file⟩
      (openedSegment o b f) f := by
  have hsegment : SegmentOk o (openedSegment o b f) f := segmentOk_opened h.image hshows.complete
  have hscan := scanBitmap_eq hshows.bits
  have htotal := total_lt o.segmentConfig
  have hdeleted : sub32 (File.rebuildCounters o.totalSlots f.bitmap).2
      (File.rebuildCounters o.totalSlots f.bitmap).1 =
      (File.rebuildCounters o.totalSlots f.bitmap).2 -
        (File.rebuildCounters o.totalSlots f.bitmap).1 := by
    have hle : (File.rebuildCounters o.totalSlots f.bitmap).2 ≤
        (calculateLayout o.segmentConfig).totalSlots := (rebuildCounters_cursor _ _).2
    have hused := rebuildCounters_used o.totalSlots f.bitmap
    have hcount := Nat.count_le (p := fun i => f.bitmap i = true)
      (n := (File.rebuildCounters o.totalSlots f.bitmap).2)
    exact sub32_eq (by omega) (by omega)
  refine ⟨hsegment.isOpen.symm, ?_, ?_, ?_, ?_, ?_, h.image,
    fun _ => ⟨hsegment, tallied_opened h.image.bound⟩⟩
  · unfold Members.rebuild openedSegment
    dsimp only
    refine Counts.updateState ?_ o.segmentConfig
    refine ⟨?_, ?_, ?_, h.counts.state⟩
    · exact congrArg Prod.fst hscan
    · show sub32 (Members.scanBitmap _ _).2 (Members.scanBitmap _ _).1 = _
      rw [show Members.scanBitmap _ (calculateLayout o.segmentConfig).totalSlots = _ from hscan]
      exact hdeleted
    · exact congrArg Prod.snd hscan
  · simp [Members.rebuild]
  · intro i hi
    simpa [Members.rebuild, Members.isSlotOccupied, openedSegment] using hshows.bits i hi
  · intro file' hfile'
    obtain rfl := Option.some.inj hfile'
    exact hshows
  · intro hnone
    cases hnone

theorem shows_created (o : Options) :
    Shows o (ByteFile.empty.resize o.segmentConfig.segmentSize) (createdImage o true) := by
  have hzeros : ∀ off n, slice (ByteFile.empty.resize o.segmentConfig.segmentSize).byte off n =
      List.replicate n 0 := by
    intro off n
    apply List.ext_getElem
    · simp
    · intro k hk hk'
      simp [slice, ByteFile.resize, ByteFile.extended, ByteFile.empty]
  refine ⟨rfl, ⟨rfl, rfl⟩, fun i _ => ?_, fun i hi => ?_⟩
  · rw [hzeros]
    simp [createdImage]
  · simp only [stored, createdImage, hzeros]

/-! The operations on one segment of a store. -/

variable {w : World K} {id : ℕ}

abbrev Linked (o : Options) (id : ℕ) (s : Object Disk) (w : World K) : Prop :=
  Mirrors o s (w.segs id) (w.disk.images id)

structure Aside (id : ℕ) (w w' : World K) : Prop where
  segs : ∀ j, j ≠ id → w'.segs j = w.segs j
  images : ∀ j, j ≠ id → w'.disk.images j = w.disk.images j
  wal : w'.wal = w.wal

theorem aside_refl (id : ℕ) (w : World K) : Aside id w w := ⟨fun _ _ => rfl, fun _ _ => rfl, rfl⟩

theorem aside_set (id : ℕ) (w : World K) (f : SegmentImage) (b : SegmentBase) :
    Aside id w ((w.setImage id f).setSegment id b) where
  segs _ hj := Function.update_of_ne hj _ _
  images _ hj := Function.update_of_ne hj _ _
  wal := rfl

theorem Linked.aside {j : ℕ} {w' : World K} (h : Linked o j s w) (hw : Aside id w w')
    (hj : j ≠ id) : Linked o j s w' := by
  rw [Linked, hw.segs j hj, hw.images j hj]
  exact h

/-- An operation on the segment `id` of the region model and one on its bytes. -/
structure Matches {α : Type} (o : Options) (id : ℕ) (w : World K)
    (bytes : Outcome (Object Disk) Fault α) (regions : Outcome (World K) (Event K) α) :
    Prop where
  val : bytes.val = regions.val
  linked : Linked o id bytes.state regions.state
  aside : Aside id w regions.state

theorem Matches.refused {α : Type} {a : α} {bytes : Outcome (Object Disk) Fault α}
    {regions : Outcome (World K) (Event K) α} (h : Linked o id s w)
    (hb : bytes.val = a ∧ bytes.state = s) (hr : regions.val = a ∧ regions.state = w) :
    Matches o id w bytes regions where
  val := hb.1.trans hr.1.symm
  linked := by
    rw [hb.2, hr.2]
    exact h
  aside := by
    rw [hr.2]
    exact aside_refl id w

theorem Matches.changed {α : Type} {a : α} {bytes : Outcome (Object Disk) Fault α}
    {regions : Outcome (World K) (Event K) α} {s' : Object Disk} {b : SegmentBase}
    (hb : bytes.val = a ∧ bytes.state = s')
    (hr : regions.val = a ∧ regions.state = (w.setImage id f).setSegment id b)
    (h : Mirrors o s' b f) : Matches o id w bytes regions where
  val := hb.1.trans hr.1.symm
  linked := by
    rw [hb.2, hr.2, Linked, setSegment_self, setSegment_disk, setImage_self]
    exact h
  aside := by
    rw [hr.2]
    exact aside_set _ _ _ _

theorem Linked.closed (h : Linked o id s w) (hopen : ¬ s.opened = true) :
    s.opened = false ∧ (w.segs id).isOpen = false := by
  have hclosed : s.opened = false := by simpa using hopen
  exact ⟨hclosed, h.opened ▸ hclosed⟩

theorem insert_matches (hsound : Sound o.segmentConfig) (hslots : o.totalSlots ≤ 2 ^ 28)
    (h : Linked o id s w) {slot : Slot} (hslot : Sized o.segmentConfig slot) :
    Matches o id w (go (SegmentFile.insert o.segmentConfig slot.key slot.value) s)
      (run (File.insert o id slot.key slot.value) w) := by
  by_cases hopen : s.opened = true
  · have hok := h.segmentOk hopen
    have hfree : s.members.findFreeSlot o.segmentConfig = _ :=
      h.counts.findFreeSlot.trans (findFreeSlot_eq hslots _)
    by_cases hroom : (w.segs id).appendCursor < o.totalSlots
    · rw [if_pos hroom] at hfree
      have hinsert := go_insert hopen hfree slot.key slot.value
      rw [hsound.getSlotOffset_eq hroom, hsound.valueOffset_eq hroom,
        List.take_of_length_le hslot.1.le, List.take_of_length_le hslot.2.le] at hinsert
      exact .changed hinsert (run_insert slot.key slot.value hslots hok hroom)
        (mirrors_inserted hsound h hopen hroom hslot)
    · rw [if_neg hroom] at hfree
      obtain ⟨hval, hstate⟩ := go_insert_full hopen hfree slot.key slot.value
      obtain ⟨hval', hstate', -⟩ := run_insert_full slot.key slot.value hslots hok hroom
      exact .refused h ⟨hval, hstate⟩ ⟨hval', hstate'⟩
  · obtain ⟨hclosed, hclosed'⟩ := h.closed hopen
    refine .refused (a := (.ioError, 0)) h ?_ ?_
    · simp [SegmentFile.insert, insertSlot, hclosed]
    · simp [File.insert, hclosed']

theorem insert_labels (hslots : o.totalSlots ≤ 2 ^ 28) (h : Linked o id s w) (key value : Bytes) :
    ∀ e ∈ (run (File.insert o id key value) w).trace, e.label = .io := by
  by_cases hopen : s.opened = true
  · have hok := h.segmentOk hopen
    by_cases hroom : (w.segs id).appendCursor < o.totalSlots
    · exact fun e he => (insert_writes hslots hok hroom e he).1
    · rw [(run_insert_full key value hslots hok hroom).2.2]
      simp
  · simp [File.insert, (h.closed hopen).2]

theorem go_readSlot (hsound : Sound o.segmentConfig) (hdev : s.dev = some file)
    (hshows : Shows o file f) {i : ℕ} (hi : i < o.totalSlots) :
    (go (readSlot o.segmentConfig SegmentFile.medium i) s).val = (.ok, f.slots i) := by
  have hinside := hsound.slot_inside hi
  have hkey := go_pread hdev o.segmentConfig.keySize (slotOffset o.segmentConfig i)
    (by rw [hshows.size]; omega)
  have hvalue := go_pread hdev o.segmentConfig.valueSize
    (slotOffset o.segmentConfig i + o.segmentConfig.keySize) (by rw [hshows.size]; omega)
  simp [readSlot, SegmentFile.medium, hsound.getSlotOffset_eq hi, hsound.valueOffset_eq hi, hkey,
    go_pread_state, hvalue, ← hshows.slots i hi, stored]

theorem read_matches (hsound : Sound o.segmentConfig) (h : Linked o id s w) (sid : ℕ) :
    Matches o id w (go (SegmentFile.read o.segmentConfig sid) s) (run (File.read o id sid) w) := by
  have hstate : (go (SegmentFile.read o.segmentConfig sid) s).state = s :=
    (read_stays sid _ s).symm
  refine .refused h ⟨rfl, hstate⟩ ⟨?_, (run_read_quiet w id sid).1⟩
  by_cases hsid : sid ≥ o.totalSlots
  · have hsid' : sid ≥ (calculateLayout o.segmentConfig).totalSlots := hsid
    simp [File.read, SegmentFile.read, readOccupied, hsid, hsid']
  · have hlt : sid < o.totalSlots := by omega
    have hsid' : ¬ sid ≥ (calculateLayout o.segmentConfig).totalSlots := hsid
    by_cases hopen : s.opened = true
    · obtain ⟨file, hdev, hshows⟩ := h.file_of_open hopen
      have hopen' : (w.segs id).isOpen = true := h.opened ▸ hopen
      have hbit := h.bits sid hlt
      cases hbit' : (w.segs id).bitmap sid with
      | false =>
        rw [hbit'] at hbit
        simp [File.read, SegmentFile.read, readOccupied, hsid, hsid', hopen, hopen', hbit, hbit']
      | true =>
        rw [hbit'] at hbit
        have hread := go_readSlot hsound hdev hshows hlt
        simp [File.read, hsid, hopen', hbit', SegmentFile.read, readOccupied, hsid', hopen, hbit,
          hread]
    · obtain ⟨hclosed, hclosed'⟩ := h.closed hopen
      simp [File.read, SegmentFile.read, readOccupied, hsid, hsid', hclosed, hclosed']

theorem delete_matches (hsound : Sound o.segmentConfig) (h : Linked o id s w) (sid : ℕ) :
    Matches o id w (go (SegmentFile.delete o.segmentConfig sid) s)
      (run (File.delete o id sid) w) := by
  by_cases hsid : sid ≥ o.totalSlots
  · have hsid' : sid ≥ (calculateLayout o.segmentConfig).totalSlots := hsid
    refine .refused (a := .invalidArgument) h ?_ ?_
    · simp [SegmentFile.delete, deleteSlot, hsid']
    · simp [File.delete, hsid]
  · have hlt : sid < o.totalSlots := by omega
    have hsid' : ¬ sid ≥ (calculateLayout o.segmentConfig).totalSlots := hsid
    by_cases hopen : s.opened = true
    · have hopen' : (w.segs id).isOpen = true := h.opened ▸ hopen
      have hbit := h.bits sid hlt
      cases hbit' : (w.segs id).bitmap sid with
      | false =>
        rw [hbit'] at hbit
        refine .refused (a := .notFound) h ?_ ?_
        · simp [SegmentFile.delete, deleteSlot, hsid', hopen, hbit]
        · simp [File.delete, hsid, hopen', hbit']
      | true =>
        rw [hbit'] at hbit
        exact .changed (go_delete hopen hlt hbit) (run_delete (h.segmentOk hopen) hbit')
          (mirrors_deleted hsound h hopen hbit')
    · obtain ⟨hclosed, hclosed'⟩ := h.closed hopen
      refine .refused (a := .ioError) h ?_ ?_
      · simp [SegmentFile.delete, deleteSlot, hsid', hclosed]
      · simp [File.delete, hsid, hclosed']

theorem open_matches (hsound : Sound o.segmentConfig) (h : Linked o id s w) :
    Matches o id w (go (SegmentFile.openSegment o.segmentConfig) s)
      (run (File.openSegment o id) w) := by
  by_cases hopen : s.opened = true
  · have hopen' : (w.segs id).isOpen = true := h.opened ▸ hopen
    refine .refused (a := .ok) h ?_ ?_
    · simp [SegmentFile.openSegment, hopen]
    · simp [File.openSegment, hopen']
  · obtain ⟨hclosed, hclosed'⟩ := h.closed hopen
    cases hdev : s.dev with
    | none =>
      exact .changed (go_open_new hclosed hdev) (run_openSegment_new hclosed' (h.absent hdev).1)
        (mirrors_reset (b := { w.segs id with isOpen := true }) hsound (shows_created o) h.length
          rfl)
    | some file =>
      have hshows := h.file file hdev
      have hinside := hsound.bitmap_inside
      obtain ⟨hval, hstate⟩ := go_open_existing (c := o.segmentConfig) hclosed hdev
        (by rw [hshows.size]; exact hinside) h.length
      obtain ⟨hval', hstate', -⟩ := run_openSegment_existing (o := o) hclosed' hshows.complete
      refine ⟨hval.trans hval'.symm, ?_, ?_⟩
      · rw [hstate, hstate', Linked, setSegment_self, setSegment_disk]
        exact mirrors_opened h hshows
      · rw [hstate']
        exact ⟨fun _ hj => Function.update_of_ne hj _ _, fun _ _ => rfl, rfl⟩

theorem close_matches (hsound : Sound o.segmentConfig) (h : Linked o id s w) :
    Matches o id w (go SegmentFile.close s) (run (File.closeSegment o id) w) := by
  by_cases hopen : s.opened = true
  · have hopen' : (w.segs id).isOpen = true := h.opened ▸ hopen
    have hok := h.segmentOk hopen
    obtain ⟨file, hdev, hshows⟩ := h.file_of_open hopen
    have hclose : (run (File.closeSegment o id) w).val = .ok ∧
        (run (File.closeSegment o id) w).state =
          (w.setImage id { w.disk.images id with bitmap := (w.segs id).bitmap }).setSegment id
            { w.segs id with isOpen := false } := by
      simp [File.closeSegment, File.flushBitmap, hopen', File.closeDescriptor]
    have himage : ImageOk o { w.disk.images id with bitmap := (w.segs id).bitmap } := by
      rw [← hok.bitmap]
      exact hok.imageOk
    refine .changed (go_close hopen) hclose ⟨rfl, ⟨h.counts.usedSlots, h.counts.deletedSlots,
      h.counts.appendCursor, h.counts.state⟩, h.length, h.bits, ?_, ?_, himage, ?_⟩
    · intro file' hfile'
      rw [hdev] at hfile'
      obtain rfl := Option.some.inj hfile'
      exact hshows.flushed hsound h.length h.bits
    · intro hnone
      rw [hdev] at hnone
      cases hnone
    · intro hclosed
      cases hclosed
  · obtain ⟨hclosed, hclosed'⟩ := h.closed hopen
    refine .refused (a := .ok) h ?_ ?_
    · simp [SegmentFile.close, hclosed]
    · simp [File.closeSegment, hclosed']

theorem linked_boot (h : Linked o id s w) :
    Linked o id (created o.segmentConfig s.dev) (World.boot w.disk) := by
  refine ⟨rfl, ⟨rfl, rfl, rfl, rfl⟩, List.length_replicate, ?_, h.file, ?_, h.image, ?_⟩
  · intro i _
    simp [created, Members.fresh, Members.isSlotOccupied, World.boot, SegmentBase.fresh]
  · intro hnone
    exact ⟨(h.absent hnone).1, rfl⟩
  · intro hopen
    cases hopen

end ParaKV.Segment.Regions
