/- GID: ParaKV/Segment/Bytes
   source: parakv/core/segment/segment_base.cc, parakv/core/segment/segment_file.cc,
     parakv/core/segment/segment_block_dev.h, parakv/core/segment/segment_block_dev.cc
   digest: Segments byte by byte, in a file and on a block device. -/

import ParaKV.Lib.ByteStore
import ParaKV.Core.State

set_option autoImplicit false

namespace ParaKV.Segment.Bytes

open Lib.TracedProgram Lib.ByteStore Index.Key Segment.Base
open Core.State (IoOutcome Slot)

def sub32 (a b : ℕ) : ℕ := (a + 2 ^ 32 - b) % 2 ^ 32

structure Members where
  bitmap : Bytes
  usedSlots : ℕ
  deletedSlots : ℕ
  appendCursor : ℕ
  state : SegmentState
  deriving DecidableEq

namespace Members

variable (c : SegmentConfig) (m : Members)

def fresh : Members := ⟨List.replicate (calculateLayout c).bitmapSize 0, 0, 0, 0, .idle⟩

def isSlotOccupied (slotId : ℕ) : Bool := bit m.bitmap slotId

def setSlotBit (slotId : ℕ) : Members := { m with bitmap := setBit m.bitmap slotId }

def clearSlotBit (slotId : ℕ) : Members := { m with bitmap := clearBit m.bitmap slotId }

def getFreeSlots : ℕ :=
  (sub32 (calculateLayout c).totalSlots m.appendCursor + m.deletedSlots) % 2 ^ 32

def findFreeSlot : Option ℕ :=
  if m.appendCursor < (calculateLayout c).totalSlots then
    if m.appendCursor < 2 ^ 31 then some m.appendCursor else none
  else none

def updateState : Members :=
  if m.usedSlots = 0 ∧ m.appendCursor = 0 then { m with state := .idle }
  else if m.appendCursor ≥ (calculateLayout c).totalSlots then { m with state := .full }
  else { m with state := .appending }

def resetBitmap : Members := ⟨List.replicate m.bitmap.length 0, 0, 0, 0, .idle⟩

/-- The loop of `Open` over the slots below `n`: the occupied ones and the position after the
last of them. -/
def scanBitmap (bitmap : Bytes) : ℕ → ℕ × ℕ
  | 0 => (0, 0)
  | n + 1 =>
    let acc := scanBitmap bitmap n
    if bit bitmap n then (acc.1 + 1, n + 1) else acc

/-- `Open` rebuilds the counters from the bitmap. -/
def rebuild : Members :=
  let (used, cursor) := scanBitmap m.bitmap (calculateLayout c).totalSlots
  { m with
    usedSlots := used
    appendCursor := cursor
    deletedSlots := sub32 cursor used }.updateState c

/-- The counters after an insert of `count` slots at the cursor. -/
def appended (count : ℕ) : Members :=
  { m with
    usedSlots := m.usedSlots + count
    appendCursor := m.appendCursor + count }.updateState c

def deleted : Members :=
  { m with
    usedSlots := sub32 m.usedSlots 1
    deletedSlots := m.deletedSlots + 1 }.updateState c

end Members

/-! What the two kinds of segments share. They differ in how bytes are read and written, and in
`Open` and `Close`. -/

/-- The byte of a slot's bit is outside `bitmap_`. The program reads or writes it all the same, and
what it does from there on is undefined: an execution counts only if it emits none of these. -/
inductive Fault
  | outside (slotId : ℕ)
  deriving DecidableEq

/-- A segment object and the device its bytes are on; `opened` is `fd_ >= 0` or `opened_`. -/
structure Object (δ : Type) where
  opened : Bool
  members : Members
  dev : δ

abbrev P (δ : Type) := Prog (Object δ) Fault IoOutcome

/-- Where a relative offset is on the device, and how bytes there are written and read. A read
returns the bytes it has put into the buffer. -/
structure Medium (δ : Type) where
  position : ℕ → ℕ
  write : Bytes → ℕ → P δ Status
  read : ℕ → ℕ → P δ (Status × Bytes)

section Shared

variable {δ τ : Type} (c : SegmentConfig) (io : Medium δ)

def getSlotOffset (slotId : ℕ) : ℕ :=
  ((calculateLayout c).slotDataOffset + slotId * (calculateLayout c).slotSize) % 2 ^ 64

def valueOffset (offset : ℕ) : ℕ := (offset + c.keySize) % 2 ^ 64

def onMembers (f : Members → Members) (s : Object δ) : Object δ :=
  { s with members := f s.members }

/-- The accesses to `bitmap_[slot_id / 8]` in `SetSlotBit`, `ClearSlotBit` and `IsSlotOccupied`. -/
def touch (slotIds : List ℕ) : P δ Unit :=
  Prog.emit fun s =>
    (slotIds.filter fun slotId => s.members.bitmap.length ≤ slotId / 8).map Fault.outside

def flushBitmap : P δ Status := do
  io.write (← get).members.bitmap (io.position 0)

def loadBitmap : P δ Status := do
  let (st, got) ← io.read (calculateLayout c).bitmapSize (io.position 0)
  modify (onMembers fun m => { m with bitmap := got ++ m.bitmap.drop got.length })
  return st

/-- The key, then the value of one slot. -/
def writeSlot (slotId : ℕ) (key value : Bytes) : P δ Status := do
  let offset := io.position (getSlotOffset c slotId)
  let st ← io.write key offset
  if st ≠ .ok then return st
  io.write value (valueOffset c offset)

def readSlot (slotId : ℕ) : P δ (Status × Slot) := do
  let offset := io.position (getSlotOffset c slotId)
  let (st, key) ← io.read c.keySize offset
  if st ≠ .ok then return (st, ⟨[], []⟩)
  let (st, value) ← io.read c.valueSize (valueOffset c offset)
  if st ≠ .ok then return (st, ⟨[], []⟩)
  return (.ok, ⟨key, value⟩)

def insertSlot (key value : Bytes) : P δ (Status × ℕ) := do
  let s ← get
  if !s.opened then return (.ioError, 0)
  match s.members.findFreeSlot c with
  | none => return (.full, 0)
  | some sid =>
    let st ← writeSlot c io sid (key.take c.keySize) (value.take c.valueSize)
    if st ≠ .ok then return (st, 0)
    touch [sid]
    modify (onMembers (·.setSlotBit sid))
    let st ← flushBitmap io
    if st ≠ .ok then
      touch [sid]
      modify (onMembers (·.clearSlotBit sid))
      return (st, 0)
    modify (onMembers (·.appended c 1))
    return (.ok, sid)

/-- The `i`th of the keys or values of a batch, which are `size` bytes each. -/
def chunk (buf : Bytes) (size i : ℕ) : Bytes := (buf.drop (i * size)).take size

/-- Phase 1 of `BatchInsert` for the `n` payloads from `i` on. -/
def writePayloads (keys values : Bytes) (cursor : ℕ) : ℕ → ℕ → P δ Status
  | 0, _ => return .ok
  | n + 1, i => do
    let st ← writeSlot c io (cursor + i) (chunk keys c.keySize i) (chunk values c.valueSize i)
    if st ≠ .ok then return st
    writePayloads keys values cursor n (i + 1)

def setSlotBits (m : Members) (slotIds : List ℕ) : Members := slotIds.foldl Members.setSlotBit m

def batchInsertSlots (keys values : Bytes) (count : ℕ) : P δ (Status × List ℕ) := do
  if count = 0 then return (.invalidArgument, [])
  let s ← get
  if !s.opened then return (.ioError, [])
  let available := sub32 (calculateLayout c).totalSlots s.members.appendCursor
  if count > available then return (.full, [])
  let st ← writePayloads c io keys values s.members.appendCursor count 0
  if st ≠ .ok then return (st, [])
  let slotIds := List.range' s.members.appendCursor count
  touch slotIds
  modify (onMembers (setSlotBits · slotIds))
  let st ← flushBitmap io
  if st ≠ .ok then return (st, [])
  modify (onMembers (·.appended c count))
  return (.ok, slotIds)

def readOccupied (slotId : ℕ) : P δ (Status × Slot) := do
  if slotId ≥ (calculateLayout c).totalSlots then return (.invalidArgument, ⟨[], []⟩)
  let s ← get
  if !s.opened then return (.ioError, ⟨[], []⟩)
  touch [slotId]
  if !s.members.isSlotOccupied slotId then return (.notFound, ⟨[], []⟩)
  readSlot c io slotId

def deleteSlot (slotId : ℕ) : P δ Status := do
  if slotId ≥ (calculateLayout c).totalSlots then return .invalidArgument
  let s ← get
  if !s.opened then return .ioError
  touch [slotId]
  if !s.members.isSlotOccupied slotId then return .notFound
  touch [slotId]
  modify (onMembers (·.clearSlotBit slotId))
  let st ← flushBitmap io
  if st ≠ .ok then
    touch [slotId]
    modify (onMembers (·.setSlotBit slotId))
    return st
  modify (onMembers (·.deleted c))
  return .ok

structure Target (τ : Type) where
  segmentId : ℕ
  insert : Bytes → Bytes → τ → Status × ℕ × τ

structure Move where
  key : Bytes
  oldSegment : ℕ
  oldSlot : ℕ
  newSegment : ℕ
  newSlot : ℕ
  deriving DecidableEq

/-- The loop of `Compact` over the `n` slots from `i` on. -/
def moveSlots (segmentId : ℕ) (target : Target τ) : ℕ → ℕ → τ → P δ (Status × List Move × τ)
  | 0, _, t => return (.ok, [], t)
  | n + 1, i, t => do
    touch [i]
    if !(← get).members.isSlotOccupied i then moveSlots segmentId target n (i + 1) t
    else
      let (st, slot) ← readSlot c io i
      if st ≠ .ok then return (st, [], t)
      let (st, newSlot, t) := target.insert slot.key slot.value t
      if st ≠ .ok then return (st, [], t)
      let (st, moves, t) ← moveSlots segmentId target n (i + 1) t
      return (st, ⟨slot.key, segmentId, i, target.segmentId, newSlot⟩ :: moves, t)

def compactSlots (segmentId : ℕ) (target : Target τ) (t : τ) : P δ (Status × List Move × τ) := do
  let s ← get
  if !s.opened then return (.ioError, [], t)
  let (st, moves, t) ← moveSlots c io segmentId target s.members.appendCursor 0 t
  if st ≠ .ok then return (st, moves, t)
  modify (onMembers (·.resetBitmap))
  let st ← flushBitmap io
  return (st, moves, t)

/-- `Open` asks for the bit of every slot and counts. -/
def rebuildCounters : P δ Unit := do
  touch (List.range (calculateLayout c).totalSlots)
  modify (onMembers (·.rebuild c))

def syncBitmap : P δ Status := do
  if !(← get).opened then return .ioError
  flushBitmap io

end Shared

/-! `SegmentFile` -/

/-- A file: its size and its bytes; a byte from `size` on has no meaning. -/
structure ByteFile where
  size : ℕ
  byte : ℕ → UInt8

namespace ByteFile

def empty : ByteFile := ⟨0, fun _ => 0⟩

/-- What a longer file would have: a hole reads as zeros. -/
def extended (f : ByteFile) : ℕ → UInt8 := fun j => if j < f.size then f.byte j else 0

def write (f : ByteFile) (buf : Bytes) (offset : ℕ) : ByteFile :=
  if buf = [] then f else ⟨max f.size (offset + buf.length), put f.extended offset buf⟩

def resize (f : ByteFile) (size : ℕ) : ByteFile := ⟨size, f.extended⟩

def read (f : ByteFile) (count offset : ℕ) : Bytes :=
  slice f.byte offset (min count (f.size - offset))

end ByteFile

namespace SegmentFile

/-- There is no file before the first `Open`. -/
abbrev Disk := Option ByteFile

def onFile (f : ByteFile → ByteFile) (s : Object Disk) : Object Disk :=
  { s with dev := s.dev.map f }

/-- `SegmentFile::PWrite`: nothing is called for an empty buffer. -/
def pwrite (buf : Bytes) (offset : ℕ) : P Disk Status := do
  if buf = [] then return .ok
  match ← Prog.draw with
  | .ok =>
    modify (onFile (·.write buf offset))
    return .ok
  | .fail n =>
    modify (onFile (·.write (buf.take (min n (buf.length - 1))) offset))
    return .ioError

/-- `SegmentFile::PRead`: the end of the file within the range is a corruption. -/
def pread (count offset : ℕ) : P Disk (Status × Bytes) := do
  if count = 0 then return (.ok, [])
  let file := (← get).dev.getD .empty
  match ← Prog.draw with
  | .ok =>
    let got := file.read count offset
    return (if got.length < count then .corruption else .ok, got)
  | .fail n => return (.ioError, file.read (min n (count - 1)) offset)

def medium : Medium Disk := ⟨fun offset => offset, pwrite, pread⟩

variable {τ : Type} (c : SegmentConfig)

/-- A call of the system that either has its effect or fails without one. -/
def attempt (effect : Object Disk → Object Disk) : P Disk Bool := do
  match ← Prog.draw with
  | .ok =>
    modify effect
    return true
  | .fail _ => return false

def setOpened (opened : Bool) (s : Object Disk) : Object Disk := { s with opened := opened }

def openSegment : P Disk Status := do
  if (← get).opened then return .ok
  let found := (← get).dev.isSome
  let statOk ← attempt id
  let fileExists := found && statOk
  -- O_CREAT only if the file was not found
  let openOk ← attempt fun s =>
    { s with opened := true, dev := if fileExists then s.dev else some (s.dev.getD .empty) }
  if !openOk then return .ioError
  if !fileExists then
    let sized ← attempt (onFile (·.resize c.segmentSize))
    if !sized then
      modify (setOpened false)
      return .ioError
    modify (onMembers (·.resetBitmap))
    let st ← flushBitmap medium
    if st ≠ .ok then
      modify (setOpened false)
      return st
    return .ok
  else
    let st ← loadBitmap c medium
    if st ≠ .ok then
      modify (setOpened false)
      return st
    rebuildCounters c
    return .ok

/-- `SegmentFile::Close`: the results of the flush, of `fsync` and of `close` are dropped. -/
def close : P Disk Status := do
  if !(← get).opened then return .ok
  let _ ← flushBitmap medium
  let _ ← attempt id
  let _ ← attempt id
  modify (setOpened false)
  return .ok

def insert (key value : Bytes) : P Disk (Status × ℕ) := insertSlot c medium key value

def batchInsert (keys values : Bytes) (count : ℕ) : P Disk (Status × List ℕ) :=
  batchInsertSlots c medium keys values count

def read (slotId : ℕ) : P Disk (Status × Slot) := readOccupied c medium slotId

def delete (slotId : ℕ) : P Disk Status := deleteSlot c medium slotId

def compact (segmentId : ℕ) (target : Target τ) (t : τ) : P Disk (Status × List Move × τ) :=
  compactSlots c medium segmentId target t

def syncBitmap : P Disk Status := Bytes.syncBitmap medium

end SegmentFile

/-! `SegmentBlockDev` -/

namespace SegmentBlockDev

abbrev Device := ℕ → UInt8

def write (buf : Bytes) (offset : ℕ) : P Device Status := do
  match ← Prog.draw with
  | .ok =>
    modify fun s => { s with dev := put s.dev offset buf }
    return .ok
  | .fail n =>
    modify fun s => { s with dev := put s.dev offset (buf.take n) }
    return .ioError

def readDevice (count offset : ℕ) : P Device (Status × Bytes) := do
  let dev := (← get).dev
  match ← Prog.draw with
  | .ok => return (.ok, slice dev offset count)
  | .fail n => return (.ioError, slice dev offset (min n count))

def sync : P Device Status := do
  match ← Prog.draw with
  | .ok => return .ok
  | .fail _ => return .ioError

variable {τ : Type} (c : SegmentConfig) (base : ℕ)

def absoluteOffset (relative : ℕ) : ℕ := (base + relative) % 2 ^ 64

def medium : Medium Device := ⟨absoluteOffset base, write, readDevice⟩

/-- `SegmentBlockDev::Open`: there is nothing to create. -/
def openSegment : P Device Status := do
  if (← get).opened then return .ok
  let st ← loadBitmap c (medium base)
  if st ≠ .ok then return st
  rebuildCounters c
  modify fun s => { s with opened := true }
  return .ok

/-- `SegmentBlockDev::Close`: the segment stays open when the flush or the sync fails. -/
def close : P Device Status := do
  if !(← get).opened then return .ok
  let st ← flushBitmap (medium base)
  if st ≠ .ok then return st
  let st ← sync
  if st ≠ .ok then return st
  modify fun s => { s with opened := false }
  return .ok

def insert (key value : Bytes) : P Device (Status × ℕ) := insertSlot c (medium base) key value

def batchInsert (keys values : Bytes) (count : ℕ) : P Device (Status × List ℕ) :=
  batchInsertSlots c (medium base) keys values count

def read (slotId : ℕ) : P Device (Status × Slot) := readOccupied c (medium base) slotId

def delete (slotId : ℕ) : P Device Status := deleteSlot c (medium base) slotId

def compact (segmentId : ℕ) (target : Target τ) (t : τ) : P Device (Status × List Move × τ) :=
  compactSlots c (medium base) segmentId target t

def syncBitmap : P Device Status := Bytes.syncBitmap (medium base)

end SegmentBlockDev

end ParaKV.Segment.Bytes
