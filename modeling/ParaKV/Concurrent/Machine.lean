/- GID: ParaKV/Concurrent/Machine
   source: parakv/core/index/index.cc, parakv/core/segment/segment_manager.cc,
     parakv/core/segment/segment_file.cc
   digest: Interleavings of calls, one compaction thread and one checkpoint, section by section. -/

import ParaKV.Lib.StepRun
import ParaKV.Index.Operations

set_option autoImplicit false

namespace ParaKV.Concurrent.Machine

open Segment Lib.LogMap Index.Key Segment.Manager Index.Operations Core.State

variable {K : Type} [DecidableEq K] [KeyType K] {n : ℕ}

/-! A section is what runs under one lock: a sub-map operation, a WAL append with the checkpoint
it may trigger, a segment operation, a manager operation. `FreeSlot` looks its segment up in the
same step, because segments are never unregistered. -/

inductive Call (K : Type)
  | put (key : K) (value : Bytes)
  | delete (key : K)
  | get (key : K) (valueSize : ℕ)

def Call.key : Call K → K
  | .put key _ => key
  | .delete key => key
  | .get key _ => key

/-- The section a call is about to run, with its local variables. -/
inductive Pc
  | begin
  -- `Put`: `again` is set for the second attempt of `WriteToSegment`
  | active (again : Bool)
  | insert (seg : ℕ) (again : Bool)
  | mark (seg : ℕ)
  | install (newEnc : UInt64)
  | log (newEnc : UInt64) (old : Option UInt64)
  | revert (newEnc : UInt64) (old : Option UInt64) (st : Status)
  | discard (newEnc : UInt64) (st : Status)
  | release (old : UInt64)
  -- `Delete`
  | erase
  | logErase (old : UInt64)
  | restore (old : UInt64) (st : Status)
  | releaseErased (old : UInt64)
  -- `Get`
  | lookup
  | locate (enc : UInt64)
  | read (enc : UInt64)
  | done (st : Status) (value : Bytes)
  deriving DecidableEq

/-- One section of a call. A segment another thread has locked blocks it. -/
def callStep (o : Options) (locked : ℕ → Bool) (w : World K) : Call K → Pc → Option (Pc × World K)
  | .put _ value, .begin =>
    if value.length ≠ o.segmentConfig.valueSize then some (.done .invalidArgument [], w)
    else some (.active false, w)
  | .put _ _, .active again =>
    let r := run (getActiveSegment o) w
    match r.val with
    | none => some (.done .noSpace [], r.state)
    | some seg => some (.insert seg again, r.state)
  | .put key value, .insert seg again =>
    if locked seg then none
    else
      let r := run (File.insert o seg (toBytes key) value) w
      if r.val.1 = .full ∧ again = false then some (.mark seg, r.state)
      else if r.val.1 ≠ .ok then some (.done r.val.1 [], r.state)
      else some (.install (encodeSegmentSlot seg r.val.2), r.state)
  | .put _ _, .mark seg => some (.active true, (run (markSegmentFull o seg) w).state)
  | .put key _, .install newEnc =>
    let r := run (emplace key newEnc) w
    some (.log newEnc r.val, r.state)
  | .put key _, .log newEnc old =>
    let r := run (appendWal o (putRecord key newEnc old)) w
    if r.val ≠ .ok then some (.revert newEnc old r.val, r.state)
    else match old with
      | some oldEnc => some (.release oldEnc, r.state)
      | none => some (.done .ok [], r.state)
  | .put key _, .revert newEnc old st =>
    some (.discard newEnc st, (run (revertPut key old) w).state)
  | .put _ _, .discard newEnc st =>
    if locked (getSegmentId newEnc) then none
    else some (.done st [], (run (freeSlot o newEnc) w).state)
  | .put _ _, .release oldEnc =>
    if locked (getSegmentId oldEnc) then none
    else some (.done .ok [], (run (freeSlot o oldEnc) w).state)
  | .delete _, .begin => some (.erase, w)
  | .delete key, .erase =>
    let r := run (eraseKey key) w
    match r.val with
    | none => some (.done .notFound [], r.state)
    | some oldEnc => some (.logErase oldEnc, r.state)
  | .delete key, .logErase oldEnc =>
    let r := run (appendWal o (deleteRecord key oldEnc)) w
    if r.val ≠ .ok then some (.restore oldEnc r.val, r.state)
    else some (.releaseErased oldEnc, r.state)
  | .delete key, .restore oldEnc st =>
    some (.done st [], (run (restoreKey key oldEnc) w).state)
  | .delete _, .releaseErased oldEnc =>
    if locked (getSegmentId oldEnc) then none
    else some (.done .ok [], (run (freeSlot o oldEnc) w).state)
  | .get _ valueSize, .begin =>
    if valueSize ≠ o.segmentConfig.valueSize then some (.done .invalidArgument [], w)
    else some (.lookup, w)
  | .get key _, .lookup =>
    match (run (lookup key) w).val with
    | none => some (.done .notFound [], w)
    | some enc =>
      if getFlag enc ≠ .segmentSlot then some (.done .notFound [], w)
      else some (.locate enc, w)
  | .get _ _, .locate enc =>
    if getSegmentId enc ∉ w.mgr.segments then some (.done .notFound [], w)
    else some (.read enc, w)
  | .get _ _, .read enc =>
    if locked (getSegmentId enc) then none
    else
      let r := run (File.read o (getSegmentId enc) (getSlotId enc)) w
      some (.done r.val.1 r.val.2.value, w)
  | _, _ => none

/-! `RunCompaction`. The source stays locked from `scan` to the reset. -/

structure Job where
  src : ℕ
  target : ℕ
  rest : List ℕ
  deriving DecidableEq

inductive CompactPc
  | off
  | select (rest : List ℕ)
  | enter (job : Job)
  | scan (job : Job) (cursor i : ℕ)
  | log (job : Job) (cursor i : ℕ) (key : Bytes) (newSlot : ℕ)
  | remap (job : Job) (cursor i : ℕ) (key : Bytes) (newSlot : ℕ)
  | reclassify (job : Job)
  | finished (st : Status)
  deriving DecidableEq

def CompactPc.locks : CompactPc → ℕ → Bool
  | .scan job _ _, id => id == job.src
  | .log job _ _ _ _, id => id == job.src
  | .remap job _ _ _ _, id => id == job.src
  | _, _ => false

/-- One section of the compaction thread. A target that is the locked source would block it. -/
def compactStep (o : Options) (w : World K) : CompactPc → Option (CompactPc × World K)
  | .off => some (.select (candidates o w), w)
  | .finished _ => some (.select (candidates o w), w)
  | .select [] => some (.finished .ok, w)
  | .select (src :: rest) =>
    let r := run (getActiveSegment o) w
    match r.val with
    | none => some (.finished .noSpace, r.state)
    | some target => some (.enter ⟨src, target, rest⟩, r.state)
  | .enter job =>
    if job.src ∉ w.mgr.segments then some (.select job.rest, w)
    else if !(w.segs job.src).isOpen then some (.finished .ioError, w)
    else some (.scan job (w.segs job.src).appendCursor 0, w)
  | .scan job cursor i =>
    if i < cursor then
      if !(w.segs job.src).bitmap i then some (.scan job cursor (i + 1), w)
      else if job.target = job.src then none
      else
        let slot := (w.disk.images job.src).slots i
        let r := run (File.insert o job.target slot.key slot.value) w
        if r.val.1 ≠ .ok then some (.finished r.val.1, r.state)
        else some (.log job cursor i slot.key r.val.2, r.state)
    else
      let r := run (File.resetSegment o job.src) w
      if r.val ≠ .ok then some (.finished r.val, r.state) else some (.reclassify job, r.state)
  | .log job cursor i key newSlot =>
    let r := run (appendWal o (moveRecord (ofBytes key : K) (encodeSegmentSlot job.src i)
      (encodeSegmentSlot job.target newSlot))) w
    some (.remap job cursor i key newSlot, r.state)
  | .remap job cursor i key newSlot =>
    some (.scan job cursor (i + 1), (run (remapIfEquals (ofBytes key : K)
      (encodeSegmentSlot job.src i) (encodeSegmentSlot job.target newSlot)) w).state)
  | .reclassify job => some (.select job.rest, reclassify o job.src job.target w)

/-! `Checkpoint`. The dump copies one sub-map after the other. -/

structure Shards (K : Type) where
  count : ℕ
  shard : K → ℕ
  shard_lt : ∀ k, shard k < count

inductive CheckpointPc (K : Type)
  | off
  | dump (j : ℕ) (copied : Map K)
  | rename
  | rotate
  | finished (st : Status)

def setTmp (w : World K) (file : SnapshotFile K) : World K :=
  { w with disk := { w.disk with snapshotTmp := some file } }

/-- One step of the checkpoint; the truncation of the log is one step. -/
def checkpointStep (o : Options) (shards : Shards K) (w : World K) :
    CheckpointPc K → Option (CheckpointPc K × World K)
  | .off =>
    if o.snapshotDir = "" then some (.finished .invalidArgument, w)
    else some (.dump 0 ∅, setTmp w .corrupt)
  | .dump j copied =>
    if j < shards.count then
      some (.dump (j + 1) (graft (fun k => shards.shard k = j) w.map copied), w)
    else some (.rename, setTmp w (.dump copied))
  | .rename => some (.rotate, (run renameSnapshot w).state)
  | .rotate =>
    let r := run rotateWal w
    some (.finished r.val, r.state)
  | .finished _ => none

/-! The whole system. -/

structure System (K : Type) (n : ℕ) where
  o : Options
  shards : Shards K
  calls : Fin n → Call K

/-- The last three fields are history variables, which no step reads. `content` holds the
contents in the order of the map updates, `unlogged` the map updates whose record is not yet
in the log, `seen` the contents of its key that a `Get` overlaps. -/
structure State (K : Type) (n : ℕ) where
  world : World K
  pcs : Fin n → Pc
  compactor : CompactPc
  checkpointer : CheckpointPc K
  content : K → Option Bytes
  unlogged : List (Fin n × Binding K UInt64)
  seen : Fin n → List (Option Bytes)

def State.initial (n : ℕ) (w : World K) (content : K → Option Bytes) : State K n :=
  ⟨w, fun _ => .begin, .off, .off, content, [], fun _ => []⟩

inductive Action (n : ℕ)
  | call (t : Fin n)
  | compact
  | checkpoint
  deriving DecidableEq

def contentAfter (c : K → Option Bytes) : Call K → Pc → K → Option Bytes
  | .put key value, .install _ => Function.update c key (some value)
  | .delete key, .erase => Function.update c key none
  | _, _ => c

def unloggedAfter (m : Map K) (us : List (Fin n × Binding K UInt64)) (t : Fin n) :
    Call K → Pc → List (Fin n × Binding K UInt64)
  | .put key _, .install newEnc => us ++ [(t, key, some newEnc)]
  | .delete key, .erase => if (m.lookup key).isSome then us ++ [(t, key, none)] else us
  | .put _ _, .log _ _ => us.filter (·.1 ≠ t)
  | .delete _, .logErase _ => us.filter (·.1 ≠ t)
  | _, _ => us

/-- A `Get` that runs sees the new contents of its key. -/
def seenAfter (calls : Fin n → Call K) (pcs pcs' : Fin n → Pc) (c : K → Option Bytes)
    (seen : Fin n → List (Option Bytes)) (u : Fin n) : List (Option Bytes) :=
  match pcs u, pcs' u with
  | .done _ _, _ => seen u
  | _, .begin => seen u
  | _, _ => seen u ++ [c (calls u).key]

def step (sys : System K n) (s : State K n) : Action n → Option (State K n)
  | .call t =>
    (callStep sys.o s.compactor.locks s.world (sys.calls t) (s.pcs t)).map fun r =>
      let pcs := Function.update s.pcs t r.1
      let content := contentAfter s.content (sys.calls t) (s.pcs t)
      { s with
        world := r.2
        pcs := pcs
        content := content
        unlogged := unloggedAfter s.world.map s.unlogged t (sys.calls t) (s.pcs t)
        seen := seenAfter sys.calls s.pcs pcs content s.seen }
  | .compact =>
    (compactStep sys.o s.world s.compactor).map fun r =>
      { s with
        world := r.2
        compactor := r.1
        seen := seenAfter sys.calls s.pcs s.pcs s.content s.seen }
  | .checkpoint =>
    (checkpointStep sys.o sys.shards s.world s.checkpointer).map fun r =>
      { s with
        world := r.2
        checkpointer := r.1
        seen := seenAfter sys.calls s.pcs s.pcs s.content s.seen }

def State.Quiescent (s : State K n) : Prop :=
  ∀ t, s.pcs t = .begin ∨ ∃ st v, s.pcs t = .done st v

end ParaKV.Concurrent.Machine
