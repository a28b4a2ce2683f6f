/- GID: ParaKV/Segment/Manager
   source: parakv/core/segment/segment_manager.cc
   digest: Segment classification, its persisted state, and the compaction loop. -/

import ParaKV.Segment.File

set_option autoImplicit false

namespace ParaKV.Segment.Manager

open Lib.LittleEndian Index.Key Segment.Base Core.State

variable {K : Type} (o : Options)

def SegmentManager.classify (m : SegmentManager) (id : ℕ) (state : SegmentState) :
    SegmentManager :=
  match state with
  | .idle => { m with idleSet := m.idleSet.insert o.hash id }
  | .appending => { m with appendingSet := m.appendingSet.insert o.hash id }
  | .full =>
    { m with fullSet := m.fullSet.insert o.hash id, fullOrder := m.fullOrder ++ [id] }

def addSegment (id : ℕ) : M K Status := do
  let w ← get
  if id ∈ w.mgr.segments then return .invalidArgument
  let m := { w.mgr with segments := w.mgr.segments.insert o.hash id }
  modify fun w => { w with mgr := SegmentManager.classify o m id (w.segs id).state }
  return .ok

def markSegmentFullInternal (m : SegmentManager) (id : ℕ) : SegmentManager :=
  if id ∉ m.segments then m
  else if id ∈ m.fullSet then m
  else { m with
    appendingSet := m.appendingSet.erase id
    idleSet := m.idleSet.erase id
    fullSet := m.fullSet.insert o.hash id
    fullOrder := m.fullOrder ++ [id] }

def markSegmentFull (id : ℕ) : M K Unit :=
  modify fun w => { w with mgr := markSegmentFullInternal o w.mgr id }

def promoteIdleSegment (m : SegmentManager) : Option ℕ × SegmentManager :=
  match m.idleSet.order with
  | [] => (none, m)
  | id :: _ => (some id, { m with
      idleSet := m.idleSet.erase id
      appendingSet := m.appendingSet.insert o.hash id })

/-- The loop of `GetActiveSegment` over the ids that it reads. -/
def scanAppending (segs : ℕ → SegmentBase) : List ℕ → SegmentManager → Option ℕ × SegmentManager
  | [], m => promoteIdleSegment o m
  | id :: rest, m =>
    if (segs id).getFreeSlots o.segmentConfig > 0 then (some id, m)
    else scanAppending segs rest (markSegmentFullInternal o m id)

/-- The loop from its start. It marks a first segment without free slots as full and so erases the
element that its iterator stands on, which the language leaves undefined: `stale` are the ids it
reads from then on. -/
def scanFrom (segs : ℕ → SegmentBase) (stale : List ℕ) (m : SegmentManager) :
    Option ℕ × SegmentManager :=
  match m.appendingSet.order with
  | [] => promoteIdleSegment o m
  | id :: _ =>
    if (segs id).getFreeSlots o.segmentConfig > 0 then (some id, m)
    else scanAppending o segs stale (markSegmentFullInternal o m id)

/-- The ids that the library leads the loop to once it has erased the first element. -/
def staleIds (m : SegmentManager) : List ℕ :=
  match m.appendingSet.order with
  | [] => []
  | id :: _ =>
    let m' := markSegmentFullInternal o m id
    o.hash.stale m'.appendingSet.order m'.fullSet.order id

def chooseActive (segs : ℕ → SegmentBase) (m : SegmentManager) : Option ℕ × SegmentManager :=
  scanFrom o segs (staleIds o m) m

def getActiveSegment : M K (Option ℕ) := do
  let w ← get
  let r := chooseActive o w.segs w.mgr
  modify fun w => { w with mgr := r.2 }
  return r.1

/-- The first appending segment has no free slots, so that `GetActiveSegment` erases the element
its iterator stands on. -/
def Erases (w : World K) : Prop :=
  ∃ id ∈ w.mgr.appendingSet.order.head?, ¬ (w.segs id).getFreeSlots o.segmentConfig > 0

instance (w : World K) : Decidable (Erases o w) :=
  match h : w.mgr.appendingSet.order.head? with
  | none => isFalse (by simp [Erases, h])
  | some id => decidable_of_iff (¬ (w.segs id).getFreeSlots o.segmentConfig > 0)
      (by simp [Erases, h])

/-! The state file: magic, version, then three counted lists of little-endian ids. -/

def kStateMagic : ℕ := 0x534D4753
def kStateVersion : ℕ := 1

def getU32 (p : Bytes) : Option (ℕ × Bytes) :=
  if p.length < 4 then none else some (readLE (p.take 4), p.drop 4)

def readIdsLoop : ℕ → Bytes → Option (List ℕ × Bytes)
  | 0, p => some ([], p)
  | n + 1, p => do
    let (id, p) ← getU32 p
    let (ids, p) ← readIdsLoop n p
    return (id :: ids, p)

def readIds (p : Bytes) : Option (List ℕ × Bytes) := do
  let (count, p) ← getU32 p
  readIdsLoop count p

/-- The three lists of a well-formed state file. -/
def parseState (file : Bytes) : Option (List ℕ × List ℕ × List ℕ) := do
  let (magic, p) ← getU32 file
  if magic ≠ kStateMagic then none
  let (version, p) ← getU32 p
  if version ≠ kStateVersion then none
  let (full, p) ← readIds p
  let (appending, p) ← readIds p
  let (idle, _) ← readIds p
  return (full, appending, idle)

def putU32 (v : ℕ) : Bytes := writeLE 4 v

def serializeIds (ids : List ℕ) : Bytes := putU32 ids.length ++ ids.flatMap putU32

def serializeState (m : SegmentManager) : Bytes :=
  putU32 kStateMagic ++ putU32 kStateVersion ++ serializeIds m.fullOrder ++
    serializeIds m.appendingSet.order ++ serializeIds m.idleSet.order

/-- `SegmentManager::SaveState`: the temporary file, which nothing reads, replaces the state file
once it is complete. -/
def saveState : M K Status := do
  let buf := serializeState (← get).mgr
  let st ← probe
  if st ≠ .ok then return .ioError
  let st ← probe
  if st ≠ .ok then return .ioError
  let st ← probe
  if st ≠ .ok then return .ioError
  let st ← syscall fun w => { w with disk := { w.disk with managerState := some buf } }
  if st ≠ .ok then return .ioError
  return .ok

/-- The manager with its classification being rebuilt, and the ids classified so far. -/
abbrev Reclass := SegmentManager × List ℕ

def loadFull (acc : Reclass) (id : ℕ) : Reclass :=
  if id ∉ acc.1.segments then acc
  else (SegmentManager.classify o acc.1 id .full, id :: acc.2)

def loadClass (state : SegmentState) (acc : Reclass) (id : ℕ) : Reclass :=
  if id ∉ acc.1.segments ∨ id ∈ acc.2 then acc
  else (SegmentManager.classify o acc.1 id state, id :: acc.2)

/-- Segments missing from the file are classified by their own state. -/
def loadRemaining (segs : ℕ → SegmentBase) (acc : Reclass) (id : ℕ) : Reclass :=
  if id ∈ acc.2 then acc
  else (SegmentManager.classify o acc.1 id (segs id).state, acc.2)

def applyState (segs : ℕ → SegmentBase) (m : SegmentManager)
    (saved : List ℕ × List ℕ × List ℕ) : SegmentManager :=
  let cleared := { m with
    idleSet := m.idleSet.clear
    appendingSet := m.appendingSet.clear
    fullSet := m.fullSet.clear
    fullOrder := [] }
  let acc : Reclass := (cleared, [])
  let acc := saved.1.foldl (loadFull o) acc
  let acc := saved.2.1.foldl (loadClass o .appending) acc
  let acc := saved.2.2.foldl (loadClass o .idle) acc
  (m.segments.order.foldl (loadRemaining o segs) acc).1

def loadState : M K Status := do
  let w ← get
  match w.disk.managerState with
  | none => return .ok
  | some file =>
    if file.length < 8 then return .corruption
    let st ← probe
    if st ≠ .ok then return .ioError
    let st ← probe
    if st ≠ .ok then return .ioError
    match parseState file with
    | none => return .corruption
    | some saved =>
      modify fun w => { w with mgr := applyState o w.segs w.mgr saved }
      return .ok

/-- The segments that the manager holds are destroyed with it. -/
def destroySegments : List ℕ → M K Unit
  | [] => return ()
  | id :: ids => do
    let _ ← File.closeSegment o id
    destroySegments ids

/-! Compaction. -/

/-- The full, cold segments whose deleted ratio reached the threshold. -/
def candidates (w : World K) : List ℕ :=
  w.mgr.fullSet.order.filter fun id =>
    !decide (id ∈ w.mgr.hotSegments) && (w.segs id).needsCompaction o.segmentConfig

/-- The last critical section of the loop body. -/
def reclassify (srcId active : ℕ) (w : World K) : World K :=
  let m := { w.mgr with
    fullSet := w.mgr.fullSet.erase srcId
    fullOrder := w.mgr.fullOrder.filter (· ≠ srcId)
    idleSet := w.mgr.idleSet.insert o.hash srcId }
  let m :=
    if (w.segs active).state = .full then { m with
      appendingSet := m.appendingSet.erase active
      fullSet := m.fullSet.insert o.hash active
      fullOrder := m.fullOrder ++ [active] }
    else m
  { w with mgr := m }

def compactCandidates (slotMoveCb : File.SlotMoveCallback K) : List ℕ → M K (Option Status)
  | [] => return some .ok
  | srcId :: rest => do
    match ← getActiveSegment o with
    | none => return some .noSpace
    | some active =>
      if srcId ∉ (← get).mgr.segments then compactCandidates slotMoveCb rest
      else
        let st ← File.compact o srcId active slotMoveCb
        if st ≠ some .ok then return st
        modify (reclassify o srcId active)
        compactCandidates slotMoveCb rest

/-- `SegmentManager::RunCompaction` with the registered slot-move callback. -/
def runCompaction (slotMoveCb : File.SlotMoveCallback K) : M K (Option Status) := do
  let ids := candidates o (← get)
  compactCandidates o slotMoveCb ids

end ParaKV.Segment.Manager
