/- GID: ParaKV/Segment/File
   source: parakv/core/segment/segment_file.cc
   digest: Slot inserts, reads, deletes and the migration of one segment into another. -/

import ParaKV.Core.State

set_option autoImplicit false

namespace ParaKV.Segment.File

open Index.Key Segment.Base Core.State

variable {K : Type} (o : Options)

def pwriteKey (id sid : ℕ) (key : Bytes) : M K Status :=
  pwrite key.length fun n w =>
    let image := w.disk.images id
    let slot := image.slots sid
    w.setImage id { image with
      slots := Function.update image.slots sid { slot with key := overlay n key slot.key } }

def pwriteValue (id sid : ℕ) (value : Bytes) : M K Status :=
  pwrite value.length fun n w =>
    let image := w.disk.images id
    let slot := image.slots sid
    w.setImage id { image with
      slots := Function.update image.slots sid { slot with value := overlay n value slot.value } }

/-- The whole in-memory bitmap goes to the head of the file. -/
def flushBitmap (id : ℕ) : M K Status := do
  let bitmap := ((← get).segs id).bitmap
  let size := (calculateLayout o.segmentConfig).bitmapSize
  pwrite size fun n w =>
    let image := w.disk.images id
    w.setImage id { image with bitmap := overlayBits size n bitmap image.bitmap }

/-- The occupied slots below `total` and the position after the last of them. -/
def rebuildCounters (total : ℕ) (bitmap : ℕ → Bool) : ℕ × ℕ :=
  (List.range total).foldl
    (fun acc i => if bitmap i then (acc.1 + 1, i + 1) else acc) (0, 0)

def closeDescriptor (id : ℕ) (w : World K) : World K :=
  w.setSegment id { w.segs id with isOpen := false }

def openSegment (id : ℕ) : M K Status := do
  let w ← get
  if (w.segs id).isOpen then return .ok
  let fileExists := (w.disk.images id).present
  let st ← syscall fun w =>
    if fileExists then w
    else w.setImage id ⟨true, false, fun _ => false, fun _ =>
      ⟨List.replicate o.segmentConfig.keySize 0, List.replicate o.segmentConfig.valueSize 0⟩⟩
  if st ≠ .ok then return .ioError
  modify fun w => w.setSegment id { w.segs id with isOpen := true }
  if fileExists then
    let image := (← get).disk.images id
    let st ← probe
    if st ≠ .ok ∨ !image.sized then
      modify (closeDescriptor id)
      return if st ≠ .ok then st else .corruption
    let (used, cursor) := rebuildCounters o.totalSlots image.bitmap
    modify fun w => w.setSegment id ({ w.segs id with
      bitmap := image.bitmap
      usedSlots := used
      appendCursor := cursor
      deletedSlots := cursor - used }.updateState o.segmentConfig)
    return .ok
  else
    let st ← syscall fun w => w.setImage id { w.disk.images id with sized := true }
    if st ≠ .ok then
      modify (closeDescriptor id)
      return .ioError
    modify fun w => w.setSegment id (w.segs id).resetBitmap
    let st ← flushBitmap o id
    if st ≠ .ok then
      modify (closeDescriptor id)
      return st
    return .ok

/-- `SegmentFile::Close`: the results of the flush and of `fsync` are dropped. -/
def closeSegment (id : ℕ) : M K Status := do
  if !((← get).segs id).isOpen then return .ok
  let _ ← flushBitmap o id
  let _ ← probe
  modify (closeDescriptor id)
  return .ok

/-- `SegmentFile::Insert`: payload, bitmap on disk, then the counters. -/
def insert (id : ℕ) (key value : Bytes) : M K (Status × ℕ) := do
  let s := (← get).segs id
  if !s.isOpen then return (.ioError, 0)
  match s.findFreeSlot o.segmentConfig with
  | none => return (.full, 0)
  | some sid =>
    let st ← pwriteKey id sid key
    if st ≠ .ok then return (st, 0)
    let st ← pwriteValue id sid value
    if st ≠ .ok then return (st, 0)
    modify fun w => w.setSegment id ((w.segs id).setSlotBit sid)
    let st ← flushBitmap o id
    if st ≠ .ok then
      modify fun w => w.setSegment id ((w.segs id).clearSlotBit sid)
      return (st, 0)
    modify fun w =>
      let s := w.segs id
      w.setSegment id ({ s with
        usedSlots := s.usedSlots + 1
        appendCursor := s.appendCursor + 1 }.updateState o.segmentConfig)
    return (.ok, sid)

/-- `SegmentFile::Read` into a key and a value buffer. -/
def read (id sid : ℕ) : M K (Status × Slot) := do
  if sid ≥ o.totalSlots then return (.invalidArgument, ⟨[], []⟩)
  let w ← get
  if !(w.segs id).isOpen then return (.ioError, ⟨[], []⟩)
  if !(w.segs id).bitmap sid then return (.notFound, ⟨[], []⟩)
  let st ← probe
  if st ≠ .ok then return (st, ⟨[], []⟩)
  let st ← probe
  if st ≠ .ok then return (st, ⟨[], []⟩)
  return (.ok, (w.disk.images id).slots sid)

def delete (id sid : ℕ) : M K Status := do
  if sid ≥ o.totalSlots then return .invalidArgument
  let w ← get
  if !(w.segs id).isOpen then return .ioError
  if !(w.segs id).bitmap sid then return .notFound
  modify fun w => w.setSegment id ((w.segs id).clearSlotBit sid)
  let st ← flushBitmap o id
  if st ≠ .ok then
    modify fun w => w.setSegment id ((w.segs id).setSlotBit sid)
    return st
  modify fun w =>
    let s := w.segs id
    w.setSegment id ({ s with
      usedSlots := s.usedSlots - 1
      deletedSlots := s.deletedSlots + 1 }.updateState o.segmentConfig)
  return .ok

/-- `SlotMoveCallback`: the key bytes, the old segment and slot, the new segment and slot. -/
abbrev SlotMoveCallback (K : Type) := Bytes → ℕ → ℕ → ℕ → ℕ → M K Unit

/-! `Compact` holds the mutex of its source, so it never returns from an `Insert` into the source
itself; the results below have no status then. -/

/-- The loop body of `Compact` on the occupied slot `i`. -/
def compactSlot (src target : ℕ) (onSlotMoved : SlotMoveCallback K) (i : ℕ) :
    M K (Option Status) := do
  let slot := ((← get).disk.images src).slots i
  let st ← probe
  if st ≠ .ok then return some st
  let st ← probe
  if st ≠ .ok then return some st
  if target = src then return none
  let (st, newSlotId) ← insert o target slot.key slot.value
  if st ≠ .ok then return some st
  onSlotMoved slot.key src i target newSlotId
  return some .ok

/-- The loop of `Compact` over the `n` slots from `i` on. -/
def compactLoop (src target : ℕ) (onSlotMoved : SlotMoveCallback K) : ℕ → ℕ → M K (Option Status)
  | 0, _ => return some .ok
  | n + 1, i => do
    if !((← get).segs src).bitmap i then compactLoop src target onSlotMoved n (i + 1)
    else
      let st ← compactSlot o src target onSlotMoved i
      if st ≠ some .ok then return st
      compactLoop src target onSlotMoved n (i + 1)

/-- The end of `Compact`: clear the bitmap and the counters, then the file. -/
def resetSegment (id : ℕ) : M K Status := do
  modify fun w => w.setSegment id (w.segs id).resetBitmap
  flushBitmap o id

def compact (src target : ℕ) (onSlotMoved : SlotMoveCallback K) : M K (Option Status) := do
  let s := (← get).segs src
  if !s.isOpen then return some .ioError
  let st ← compactLoop o src target onSlotMoved s.appendCursor 0
  if st ≠ some .ok then return st
  some <$> resetSegment o src

end ParaKV.Segment.File
