/- GID: ParaKV/Index/Operations
   source: parakv/core/index/index.cc
   digest: Put, Get, Delete, checkpointing, recovery and the slot-move callback. -/

import ParaKV.Segment.Manager

set_option autoImplicit false

namespace ParaKV.Index.Operations

open Segment Lib.TracedProgram Index.Key Index.Wal Segment.Manager Core.State

variable {K : Type} [DecidableEq K] [KeyType K] (o : Options)

/-! Snapshot and log files. -/

/-- `DumpSnapshot` to the temporary path, which holds a partial dump until it is complete. -/
def dumpSnapshot : M K Status := do
  let map := (← get).map
  match ← Prog.draw with
  | .ok =>
    Prog.emit fun w =>
      [⟨.io, { w with disk := { w.disk with snapshotTmp := some .corrupt } }⟩]
    modify fun w => { w with disk := { w.disk with snapshotTmp := some (.dump map) } }
    Prog.emit fun w => [⟨.io, w⟩]
    return .ok
  | .fail _ =>
    modify fun w => { w with disk := { w.disk with snapshotTmp := some .corrupt } }
    Prog.emit fun w => [⟨.io, w⟩]
    return .ioError

def renameSnapshot : M K Status :=
  syscall fun w => { w with
    disk := { w.disk with snapshot := w.disk.snapshotTmp, snapshotTmp := none } }

/-- `WalWriter::Open`: open or create the file, discarding its content on request, and start
at its end. -/
def walOpen (truncate : Bool) : M K (Status × WalWriter) := do
  let st ← syscall fun w =>
    w.setWalFile (some (if truncate then [] else w.disk.wal.getD []))
  if st ≠ .ok then return (.ioError, ⟨false, 0⟩)
  let st ← probe
  if st ≠ .ok then return (.ioError, ⟨false, 0⟩)
  return (.ok, ⟨true, ((← get).disk.wal.getD []).length⟩)

/-- `Index::RotateWal`: while the file is reopened there is no writer. -/
def rotateWal : M K Status := do
  if (← get).wal.isNone then return .ok
  modify fun w => { w with wal := none }
  let (st, fresh) ← walOpen true
  if st ≠ .ok then return st
  modify fun w => { w with wal := some fresh, walBytes := 0 }
  return .ok

def checkpoint : M K Status := do
  if o.snapshotDir = "" then return .invalidArgument
  let st ← dumpSnapshot
  if st ≠ .ok then return st
  let st ← renameSnapshot
  if st ≠ .ok then return st
  rotateWal

/-- Bytes written at an offset, with a hole before it filled by zeros. -/
def writeAt (file : Bytes) (offset : ℕ) (b : Bytes) : Bytes :=
  file.take offset ++ List.replicate (offset - file.length) 0 ++ b ++
    file.drop (offset + b.length)

/-- `WalWriter::Append` of one record: write at the current offset, advance it, `fsync`. -/
def walAppend (writer : WalWriter) (rec : WalRecord K) : M K Status := do
  let buf := rec.encode
  if !writer.isOpen then return .ioError
  let st ← pwrite buf.length fun n w =>
    w.setWalFile (some (writeAt (w.disk.wal.getD []) writer.bytesWritten (buf.take n)))
  if st ≠ .ok then return st
  modify fun w => { w with
    wal := some { writer with bytesWritten := writer.bytesWritten + buf.length } }
  let st ← probe
  if st ≠ .ok then return .ioError
  return .ok

/-- The threshold test of `AppendWal`. -/
def reachesThreshold (bytes : ℕ) : Bool :=
  decide (o.walCheckpointBytes > 0) && decide (bytes ≥ o.walCheckpointBytes) &&
    decide (o.snapshotDir ≠ "")

def appendWal (rec : WalRecord K) : M K Status := do
  match (← get).wal with
  | none => return .ok
  | some writer =>
    let st ← walAppend writer rec
    if st ≠ .ok then return st
    let bytes := ((← get).wal.getD writer).bytesWritten
    modify fun w => { w with walBytes := bytes }
    if reachesThreshold o bytes then
      -- a failed checkpoint is not reported
      let _ ← checkpoint o
      return .ok
    return .ok

def applyRecord (m : Map K) (rec : WalRecord K) : Map K :=
  match rec.type with
  | .insert => m.insert rec.key rec.diskAddr
  | .update => m.insert rec.key rec.diskAddr
  | .delete => m.erase rec.key
  | .unknown _ => m

/-- `LoadSnapshot` on the content of the snapshot file. -/
def loadSnapshot (file : SnapshotFile K) : M K Status := do
  let st ← probe
  if st ≠ .ok then return .corruption
  match file with
  | .corrupt => return .corruption
  | .dump m =>
    modify fun w => { w with map := m }
    return .ok

/-- The replay of `Index::Open`. A read error stops it after the records read so far. -/
def replayWal (file : Bytes) : M K (Status × ℕ) := do
  match ← Prog.draw with
  | .ok =>
    let r := walReplay file
    modify fun w => { w with map := r.1.foldl applyRecord w.map }
    return (.ok, r.2)
  | .fail n =>
    modify fun w => { w with map := (walReplay (file.take n)).1.foldl applyRecord w.map }
    return (.ioError, 0)

/-- Step 1 of `Index::Open`: load the snapshot if present. -/
def openSnapshot : M K Status := do
  if o.snapshotDir = "" then return .ok
  match (← get).disk.snapshot with
  | none => return .ok
  | some file => loadSnapshot file

/-- Step 2 of `Index::Open`: replay the log if present and cut off its corrupt tail. -/
def openLog : M K Status := do
  match (← get).disk.wal with
  | none => return .ok
  | some file =>
    let st ← probe
    if st ≠ .ok then return .ioError
    let (st, good) ← replayWal file
    if st ≠ .ok then return st
    let st ← syscall fun w => w.setWalFile (w.disk.wal.map (·.take good))
    if st ≠ .ok then return .ioError
    return .ok

/-- Step 3 of `Index::Open`: open the writer for subsequent appends. -/
def openWriter : M K Status := do
  let (st, writer) ← walOpen false
  modify fun w => { w with wal := some writer }
  if st ≠ .ok then return st
  modify fun w => { w with walBytes := writer.bytesWritten }
  return .ok

def openIndex : M K Status := do
  if (← get).opened then return .ok
  modify fun w => { w with opened := true }
  if o.segmentConfig.keySize ≠ KeyType.size K then return .invalidArgument
  let st ← openSnapshot o
  if st ≠ .ok then return st
  if o.walPath = "" then return .ok
  let st ← openLog
  if st ≠ .ok then return st
  openWriter

def freshIndex (w : World K) : World K :=
  { w with map := ∅, wal := none, walBytes := 0, opened := false }

def closeIndex : M K Status := do
  if !(← get).opened then return .ok
  modify fun w => { w with opened := false, wal := none }
  return .ok

def destroyIndex : M K Unit := do
  let _ ← checkpoint o
  let _ ← closeIndex

/-! The typed data path. -/

def lookup (key : K) : M K (Option UInt64) := do
  return (← get).map.lookup key

def freeSlot (encoded : UInt64) : M K Status := do
  if getFlag encoded ≠ .segmentSlot then return .ok
  let segId := getSegmentId encoded
  if segId ∉ (← get).mgr.segments then return .notFound
  File.delete o segId (getSlotId encoded)

def writeToSegment (key : K) (value : Bytes) : M K (Status × UInt64) := do
  match ← getActiveSegment o with
  | none => return (.noSpace, 0)
  | some seg =>
    let (st, slotId) ← File.insert o seg (toBytes key) value
    if st = .full then
      markSegmentFull o seg
      match ← getActiveSegment o with
      | none => return (.noSpace, 0)
      | some seg =>
        let (st, slotId) ← File.insert o seg (toBytes key) value
        if st ≠ .ok then return (st, 0)
        return (.ok, encodeSegmentSlot seg slotId)
    if st ≠ .ok then return (st, 0)
    return (.ok, encodeSegmentSlot seg slotId)

/-- The `lazy_emplace_l` of `Put`: install the offset and return the one it replaced. -/
def emplace (key : K) (newEnc : UInt64) : M K (Option UInt64) := do
  let old := (← get).map.lookup key
  modify fun w => { w with map := w.map.insert key newEnc }
  return old

def putRecord (key : K) (newEnc : UInt64) (old : Option UInt64) : WalRecord K :=
  ⟨if old.isSome then .update else .insert, key, newEnc, old.getD 0⟩

/-- The map part of the rollback of `Put` after a failed append. -/
def revertPut (key : K) (old : Option UInt64) : M K Unit :=
  modify fun w => { w with map :=
    match old with
    | some oldEnc => if key ∈ w.map then w.map.insert key oldEnc else w.map
    | none => w.map.erase key }

def rollbackPut (key : K) (newEnc : UInt64) (old : Option UInt64) : M K Unit := do
  revertPut key old
  let _ ← freeSlot o newEnc

/-- The `FreeSlot` of the offset an update replaced, if it replaced one. -/
def releaseOld (old : Option UInt64) : M K Unit := do
  match old with
  | some oldEnc => let _ ← freeSlot o oldEnc
  | none => return ()

/-- `Put` from the map update on. -/
def installPut (key : K) (newEnc : UInt64) : M K Status := do
  let old ← emplace key newEnc
  let walSt ← appendWal o (putRecord key newEnc old)
  if walSt ≠ .ok then
    rollbackPut o key newEnc old
    return walSt
  releaseOld o old
  return .ok

protected def put (key : K) (value : Bytes) : M K Status := do
  if value.length ≠ o.segmentConfig.valueSize then return .invalidArgument
  let (st, newEnc) ← writeToSegment o key value
  if st ≠ .ok then return st
  installPut o key newEnc

protected def get (key : K) (valueSize : ℕ) : M K (Status × Bytes) := do
  if valueSize ≠ o.segmentConfig.valueSize then return (.invalidArgument, [])
  match ← lookup key with
  | none => return (.notFound, [])
  | some enc =>
    if getFlag enc ≠ .segmentSlot then return (.notFound, [])
    let segId := getSegmentId enc
    if segId ∉ (← get).mgr.segments then return (.notFound, [])
    let (st, slot) ← File.read o segId (getSlotId enc)
    return (st, slot.value)

def contains (key : K) : M K Bool := do
  return decide (key ∈ (← get).map)

def size : M K ℕ := do
  return (← get).map.keys.card

/-- The `erase_if` of `Delete`. -/
def eraseKey (key : K) : M K (Option UInt64) := do
  let old := (← get).map.lookup key
  modify fun w => { w with map := w.map.erase key }
  return old

def deleteRecord (key : K) (oldEnc : UInt64) : WalRecord K := ⟨.delete, key, 0, oldEnc⟩

/-- The `try_emplace` of `Delete` after a failed append. -/
def restoreKey (key : K) (oldEnc : UInt64) : M K Unit :=
  modify fun w => { w with map := if key ∈ w.map then w.map else w.map.insert key oldEnc }

protected def delete (key : K) : M K Status := do
  match ← eraseKey key with
  | none => return .notFound
  | some oldEnc =>
    let st ← appendWal o (deleteRecord key oldEnc)
    if st ≠ .ok then
      restoreKey key oldEnc
      return st
    let _ ← freeSlot o oldEnc
    return .ok

/-! Compaction. -/

def remapIfEquals (key : K) (oldOff newOff : UInt64) : M K Unit :=
  modify fun w => { w with
    map := if w.map.lookup key = some oldOff then w.map.insert key newOff else w.map }

def moveRecord (key : K) (oldEnc newEnc : UInt64) : WalRecord K :=
  ⟨.update, key, newEnc, oldEnc⟩

/-- The callback of `AttachToSegmentManager`: log the move, then remap. -/
def slotMoved : File.SlotMoveCallback K := fun keyBytes oldSeg oldSlot newSeg newSlot => do
  let before ← get
  let key : K := ofBytes keyBytes
  let oldEnc := encodeSegmentSlot oldSeg oldSlot
  let newEnc := encodeSegmentSlot newSeg newSlot
  let _ ← appendWal o (moveRecord key oldEnc newEnc)
  remapIfEquals key oldEnc newEnc
  Prog.emit fun w => [⟨.moved before key oldEnc newEnc, w⟩]

/-- `RunCompaction` of the manager the index is attached to. -/
def runAttachedCompaction : M K (Option Status) := runCompaction o (slotMoved o)

/-! Start of a process. -/

def openSegments : List ℕ → M K Status
  | [] => return .ok
  | id :: ids => do
    let st ← File.openSegment o id
    if st ≠ .ok then return st
    let st ← addSegment o id
    if st ≠ .ok then return st
    openSegments ids

/-- Segments, classification, index: the order of `CreateContext`, which only warns about a
state file it cannot use. -/
def openStore : M K Status := do
  let st ← openSegments o (List.range o.segmentCount)
  if st ≠ .ok then return st
  let _ ← loadState o
  openIndex o

end ParaKV.Index.Operations
