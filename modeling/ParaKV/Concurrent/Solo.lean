/- GID: ParaKV/Concurrent/Solo
   source: parakv/core/index/index.cc, parakv/core/segment/segment_manager.cc,
     parakv/core/segment/segment_file.cc
   digest: What is left of a call, a compaction or a checkpoint at each of its sections. -/

import ParaKV.Concurrent.Threads

set_option autoImplicit false

namespace ParaKV.Concurrent.Solo

open Lib.LogMap Index Index.Key Index.Operations Segment Segment.Manager Concurrent.Machine
open Core.State

variable {K : Type} [DecidableEq K] [KeyType K] {o : Options} {w w' : World K}

/-! The function a call runs, and the results that a thread shows. -/

def serveCall (o : Options) : Call K → M K (Status × Bytes)
  | .put key value => do return (← Operations.put o key value, [])
  | .delete key => do return (← Operations.delete o key, [])
  | .get key valueSize => Operations.get o key valueSize

def Pc.result : Pc → Option (Status × Bytes)
  | .done st value => some (st, value)
  | _ => none

def CompactPc.result : CompactPc → Option (Status × Bytes)
  | .finished st => some (st, [])
  | _ => none

def CheckpointPc.result : CheckpointPc K → Option (Status × Bytes)
  | .finished st => some (st, [])
  | _ => none

theorem Pc.result_eq_some {pc : Pc} {r : Status × Bytes} :
    Pc.result pc = some r ↔ pc = .done r.1 r.2 := by
  cases pc <;> simp [Pc.result, Prod.ext_iff]

theorem CompactPc.result_eq_some {cp : CompactPc} {r : Status × Bytes} :
    CompactPc.result cp = some r ↔ cp = .finished r.1 ∧ r.2 = [] := by
  cases cp <;> simp [CompactPc.result, Prod.ext_iff, eq_comm]

theorem CheckpointPc.result_eq_some {K : Type} {ck : CheckpointPc K} {r : Status × Bytes} :
    CheckpointPc.result ck = some r ↔ ck = .finished r.1 ∧ r.2 = [] := by
  cases ck <;> simp [CheckpointPc.result, Prod.ext_iff, eq_comm]

def finish {α : Type} (m : M K α) (w : World K) : α × World K := ((run m w).val, (run m w).state)

/-! What is left of a call. -/

section Put

variable (o) (key : K) (value : Bytes)

def logPut (newEnc : UInt64) (old : Option UInt64) : M K (Status × Bytes) := do
  let walSt ← appendWal o (putRecord key newEnc old)
  if walSt ≠ .ok then
    rollbackPut o key newEnc old
    return (walSt, [])
  releaseOld o old
  return (.ok, [])

/-- `Put` from the segment insert on; `full` follows a segment that turns out to be full. -/
def insertPut (full : ℕ → M K (Status × Bytes)) (seg : ℕ) : M K (Status × Bytes) := do
  let (st, slotId) ← File.insert o seg (toBytes key) value
  if st = .full then full seg
  else if st ≠ .ok then return (st, [])
  else return (← installPut o key (encodeSegmentSlot seg slotId), [])

def activePut (full : ℕ → M K (Status × Bytes)) : M K (Status × Bytes) := do
  match ← getActiveSegment o with
  | none => return (.noSpace, [])
  | some seg => insertPut o key value full seg

/-- What follows a full segment: the second attempt reports it. -/
def fullPut : Bool → ℕ → M K (Status × Bytes)
  | true, _ => return (.full, [])
  | false, seg => do
    markSegmentFull o seg
    activePut o key value fun _ => return (.full, [])

end Put

def logDelete (o : Options) (key : K) (oldEnc : UInt64) : M K (Status × Bytes) := do
  let st ← appendWal o (deleteRecord key oldEnc)
  if st ≠ .ok then
    restoreKey key oldEnc
    return (st, [])
  let _ ← freeSlot o oldEnc
  return (.ok, [])

def readAt (o : Options) (enc : UInt64) : M K (Status × Bytes) := do
  let (st, slot) ← File.read o (getSegmentId enc) (getSlotId enc)
  return (st, slot.value)

def locateAt (o : Options) (enc : UInt64) : M K (Status × Bytes) := do
  if getSegmentId enc ∉ (← get).mgr.segments then return (.notFound, [])
  else readAt o enc

def lookupKey (o : Options) (key : K) : M K (Status × Bytes) := do
  match ← lookup key with
  | none => return (.notFound, [])
  | some enc => if getFlag enc ≠ .segmentSlot then return (.notFound, []) else locateAt o enc

/-- The sections from `pc` on, as one program. -/
def callRest (o : Options) : Call K → Pc → M K (Status × Bytes)
  | _, .done st value => return (st, value)
  | .put key value, .active again => activePut o key value (fullPut o key value again)
  | .put key value, .insert seg again => insertPut o key value (fullPut o key value again) seg
  | .put key value, .mark seg => fullPut o key value false seg
  | .put key _, .install newEnc => do return (← installPut o key newEnc, [])
  | .put key _, .log newEnc old => logPut o key newEnc old
  | .put key _, .revert newEnc old st => do
    rollbackPut o key newEnc old
    return (st, [])
  | .put _ _, .discard newEnc st => do
    let _ ← freeSlot o newEnc
    return (st, [])
  | .put _ _, .release oldEnc => do
    let _ ← freeSlot o oldEnc
    return (.ok, [])
  | .delete key, .logErase oldEnc => logDelete o key oldEnc
  | .delete key, .restore oldEnc st => do
    restoreKey key oldEnc
    return (st, [])
  | .delete _, .releaseErased oldEnc => do
    let _ ← freeSlot o oldEnc
    return (.ok, [])
  | .get key _, .lookup => lookupKey o key
  | .get _ _, .locate enc => locateAt o enc
  | .get _ _, .read enc => readAt o enc
  | call, _ => serveCall o call

theorem finish_put (key : K) (value : Bytes) (w : World K)
    (hsize : value.length = o.segmentConfig.valueSize) :
    finish (activePut o key value (fullPut o key value false)) w =
      finish (serveCall o (.put key value)) w := by
  set r := run (getActiveSegment o) w with hr
  cases hactive : r.val with
  | none =>
    simp [finish, serveCall, activePut, Operations.put, writeToSegment, hsize, ← hr, hactive]
  | some seg =>
    set r₁ := run (File.insert o seg (toBytes key) value) r.state with hr₁
    by_cases hfull : r₁.val.1 = .full
    · set r₂ := run (getActiveSegment o) (run (markSegmentFull o seg) r₁.state).state with hr₂
      cases hactive' : r₂.val with
      | none =>
        simp [finish, serveCall, activePut, insertPut, fullPut, Operations.put, writeToSegment,
          hsize, ← hr, hactive, ← hr₁, hfull, ← hr₂, hactive']
      | some seg' =>
        set r₃ := run (File.insert o seg' (toBytes key) value) r₂.state with hr₃
        by_cases hfull' : r₃.val.1 = .full
        · simp [finish, serveCall, activePut, insertPut, fullPut, Operations.put, writeToSegment,
            hsize, ← hr, hactive, ← hr₁, hfull, ← hr₂, hactive', ← hr₃, hfull']
        · by_cases hok : r₃.val.1 = .ok
          · simp [finish, serveCall, activePut, insertPut, fullPut, Operations.put, writeToSegment,
              hsize, ← hr, hactive, ← hr₁, hfull, ← hr₂, hactive', ← hr₃, hok]
          · simp [finish, serveCall, activePut, insertPut, fullPut, Operations.put, writeToSegment,
              hsize, ← hr, hactive, ← hr₁, hfull, ← hr₂, hactive', ← hr₃, hfull', hok]
    · by_cases hok : r₁.val.1 = .ok
      · simp [finish, serveCall, activePut, insertPut, Operations.put, writeToSegment, hsize, ← hr,
          hactive, ← hr₁, hok]
      · simp [finish, serveCall, activePut, insertPut, Operations.put, writeToSegment, hsize, ← hr,
          hactive, ← hr₁, hfull, hok]

theorem finish_install (o : Options) (key : K) (newEnc : UInt64) (w : World K) :
    finish (logPut o key newEnc (run (emplace key newEnc) w).val) (run (emplace key newEnc) w).state
      = finish (do return (← installPut o key newEnc, [])) w := by
  set r := run (emplace key newEnc) w with hr
  by_cases hwal : (run (appendWal o (putRecord key newEnc r.val)) r.state).val = .ok
  · simp [finish, installPut, logPut, ← hr, hwal]
  · simp [finish, installPut, logPut, ← hr, hwal]

theorem finish_erase (o : Options) (key : K) {oldEnc : UInt64} (w : World K)
    (herased : (run (eraseKey key) w).val = some oldEnc) :
    finish (logDelete o key oldEnc) (run (eraseKey key) w).state =
      finish (serveCall o (.delete key)) w := by
  set r := run (eraseKey key) w with hr
  by_cases hwal : (run (appendWal o (deleteRecord key oldEnc)) r.state).val = .ok
  · simp [finish, serveCall, Operations.delete, logDelete, ← hr, herased, hwal]
  · simp [finish, serveCall, Operations.delete, logDelete, ← hr, herased, hwal]

/-! A section does not change what its call comes to. -/

variable {key : K} {value : Bytes} {valueSize : ℕ} {pc : Pc} {r : Pc × World K}

theorem put_rest (h : callStep o (fun _ => false) w (.put key value) pc = some r) :
    finish (callRest o (.put key value) r.1) r.2 = finish (callRest o (.put key value) pc) w := by
  cases pc with
  | begin =>
    by_cases hsize : value.length = o.segmentConfig.valueSize
    · simp [callStep, hsize] at h
      subst h
      exact finish_put key value w hsize
    · simp [callStep, hsize] at h
      subst h
      simp [finish, callRest, serveCall, Operations.put, hsize]
  | active again =>
    cases hactive : (run (getActiveSegment o) w).val <;> simp [callStep, hactive] at h <;>
      subst h <;> simp [finish, callRest, activePut, hactive]
  | insert seg again =>
    set i := run (File.insert o seg (toBytes key) value) w with hi
    by_cases hfull : i.val.1 = .full
    · cases again <;> simp [callStep, ← hi, hfull] at h <;> subst h <;>
        simp [finish, callRest, insertPut, fullPut, ← hi, hfull]
    · by_cases hok : i.val.1 = .ok <;> simp [callStep, ← hi, hfull, hok] at h <;> subst h <;>
        simp [finish, callRest, insertPut, ← hi, hfull, hok]
  | mark seg =>
    cases h
    rfl
  | install newEnc =>
    cases h
    exact finish_install o key newEnc w
  | log newEnc old =>
    set l := run (appendWal o (putRecord key newEnc old)) w with hl
    by_cases hok : l.val = .ok
    · cases old <;> simp [callStep, ← hl, hok] at h <;> subst h <;>
        simp [finish, callRest, logPut, releaseOld, ← hl, hok]
    · simp [callStep, ← hl, hok] at h
      subst h
      simp [finish, callRest, logPut, ← hl, hok]
  | revert newEnc old st =>
    cases h
    rfl
  | discard newEnc st =>
    cases h
    rfl
  | release oldEnc =>
    cases h
    rfl
  | _ => cases h

theorem delete_rest (h : callStep o (fun _ => false) w (.delete key) pc = some r) :
    finish (callRest o (.delete key) r.1) r.2 = finish (callRest o (.delete key) pc) w := by
  cases pc with
  | begin =>
    cases h
    rfl
  | erase =>
    cases herased : (run (eraseKey key) w).val with
    | none =>
      simp [callStep, herased] at h
      subst h
      simp [finish, callRest, serveCall, Operations.delete, herased]
    | some oldEnc =>
      simp [callStep, herased] at h
      subst h
      exact finish_erase o key w herased
  | logErase oldEnc =>
    by_cases hok : (run (appendWal o (deleteRecord key oldEnc)) w).val = .ok <;>
      simp [callStep, hok] at h <;> subst h <;> simp [finish, callRest, logDelete, hok]
  | restore oldEnc st =>
    cases h
    rfl
  | releaseErased oldEnc =>
    cases h
    rfl
  | _ => cases h

theorem get_rest (h : callStep o (fun _ => false) w (.get key valueSize) pc = some r) :
    finish (callRest o (.get key valueSize) r.1) r.2 =
      finish (callRest o (.get key valueSize) pc) w := by
  cases pc with
  | begin =>
    by_cases hsize : valueSize = o.segmentConfig.valueSize <;> simp [callStep, hsize] at h <;>
      subst h <;> cases hkey : w.map.lookup key <;>
      simp [finish, callRest, serveCall, Operations.get, hsize, lookupKey, lookup, hkey, locateAt,
        readAt]
  | lookup =>
    cases hkey : w.map.lookup key with
    | none =>
      simp [callStep, lookup, hkey] at h
      subst h
      simp [finish, callRest, lookupKey, lookup, hkey]
    | some enc =>
      by_cases hflag : getFlag enc = .segmentSlot <;> simp [callStep, lookup, hkey, hflag] at h <;>
        subst h <;> simp [finish, callRest, lookupKey, lookup, hkey, hflag]
  | locate enc =>
    by_cases hreg : getSegmentId enc ∈ w.mgr.segments <;> simp [callStep, hreg] at h <;>
      subst h <;> simp [finish, callRest, locateAt, hreg]
  | read enc =>
    cases h
    simp [finish, callRest, readAt, FileSpec.run_read_quiet]
  | _ => cases h

theorem callStep_rest {call : Call K} (h : callStep o (fun _ => false) w call pc = some r) :
    finish (callRest o call r.1) r.2 = finish (callRest o call pc) w := by
  cases call with
  | put key value => exact put_rest h
  | delete key => exact delete_rest h
  | get key valueSize => exact get_rest h

/-! What is left of a compaction. -/

def reclassifyRest (o : Options) (job : Job) : M K (Option Status) := do
  modify (reclassify o job.src job.target)
  compactCandidates o (slotMoved o) job.rest

def scanRest (o : Options) (job : Job) (cursor i : ℕ) : M K (Option Status) := do
  let st ← File.compactLoop o job.src job.target (slotMoved o) (cursor - i) i
  if st ≠ some .ok then return st
  let st ← File.resetSegment o job.src
  if st ≠ .ok then return some st
  reclassifyRest o job

/-- The sections from `cp` on, as one program. -/
def compactRest (o : Options) : CompactPc → M K (Option Status)
  | .off => runAttachedCompaction o
  | .finished st => return some st
  | .select l => compactCandidates o (slotMoved o) l
  | .enter job => do
    if job.src ∉ (← get).mgr.segments then compactCandidates o (slotMoved o) job.rest
    else
      let st ← File.compact o job.src job.target (slotMoved o)
      if st ≠ some .ok then return st
      reclassifyRest o job
  | .scan job cursor i => scanRest o job cursor i
  | .log job cursor i key newSlot => do
    slotMoved o key job.src i job.target newSlot
    scanRest o job cursor (i + 1)
  | .remap job cursor i key newSlot => do
    remapIfEquals (ofBytes key : K) (encodeSegmentSlot job.src i)
      (encodeSegmentSlot job.target newSlot)
    scanRest o job cursor (i + 1)
  | .reclassify job => reclassifyRest o job

theorem scan_rest {job : Job} {cursor i : ℕ} {r : CompactPc × World K}
    (h : compactStep o w (.scan job cursor i) = some r) :
    finish (compactRest o r.1) r.2 = finish (scanRest o job cursor i) w := by
  by_cases hi : i < cursor
  · obtain ⟨m, hm⟩ : ∃ m, cursor - i = m + 1 := ⟨cursor - i - 1, by omega⟩
    have hm' : cursor - (i + 1) = m := by omega
    cases hbit : (w.segs job.src).bitmap i with
    | false =>
      simp [compactStep, hi, hbit] at h
      subst h
      simp [finish, compactRest, scanRest, hm, hm', File.compactLoop, hbit]
    | true =>
      set slot := (w.disk.images job.src).slots i with hslot
      set c := run (File.insert o job.target slot.key slot.value) w with hc
      have hne : job.target ≠ job.src := fun heq => by simp [compactStep, hi, hbit, heq] at h
      by_cases hok : c.val.1 = .ok <;>
        simp [compactStep, hi, hbit, hne, ← hslot, ← hc, hok] at h <;> subst h <;>
        simp [finish, compactRest, scanRest, hm, hm', File.compactLoop, File.compactSlot, hbit, hne,
          ← hslot, ← hc, hok]
  · have hm : cursor - i = 0 := by omega
    have hok := (FileSpec.run_resetSegment o w job.src).1
    simp [compactStep, hi, hok] at h
    subst h
    simp [finish, compactRest, scanRest, hm, File.compactLoop, hok]

theorem compactStep_rest {cp : CompactPc} {r : CompactPc × World K}
    (hcp : CompactPc.result cp = none) (h : compactStep o w cp = some r) :
    finish (compactRest o r.1) r.2 = finish (compactRest o cp) w := by
  cases cp with
  | off =>
    cases h
    rfl
  | finished st => cases hcp
  | select l =>
    cases l with
    | nil =>
      cases h
      rfl
    | cons src rest =>
      cases htarget : (run (getActiveSegment o) w).val <;> simp [compactStep, htarget] at h <;>
        subst h <;> simp [finish, compactRest, compactCandidates, reclassifyRest, htarget]
  | enter job =>
    by_cases hreg : job.src ∈ w.mgr.segments
    · cases hopen : (w.segs job.src).isOpen with
      | false =>
        simp [compactStep, hreg, hopen] at h
        subst h
        simp [finish, compactRest, hreg, File.compact, hopen]
      | true =>
        simp [compactStep, hreg, hopen] at h
        subst h
        set l := run (File.compactLoop o job.src job.target (slotMoved o)
          (w.segs job.src).appendCursor 0) w with hl
        by_cases hok : l.val = some .ok <;>
          simp [finish, compactRest, scanRest, hreg, File.compact, hopen, ← hl, hok]
    · simp [compactStep, hreg] at h
      subst h
      simp [finish, compactRest, hreg]
  | scan job cursor i => exact scan_rest h
  | log job cursor i key newSlot =>
    cases h
    simp [finish, compactRest, slotMoved]
  | remap job cursor i key newSlot =>
    cases h
    rfl
  | reclassify job =>
    cases h
    rfl

/-- The copy of a slot into its own segment waits for the lock of that segment. -/
theorem compactRest_stuck {job : Job} {cursor i : ℕ} (hi : i < cursor)
    (hbit : (w.segs job.src).bitmap i = true) (hself : job.target = job.src) :
    (finish (compactRest o (.scan job cursor i)) w).1 = none := by
  obtain ⟨m, hm⟩ : ∃ m, cursor - i = m + 1 := ⟨cursor - i - 1, by omega⟩
  simp [finish, compactRest, scanRest, hm, File.compactLoop, File.compactSlot, hbit, hself]

/-! What is left of a checkpoint. -/

def checkpointRest (o : Options) : CheckpointPc K → M K Status
  | .off => checkpoint o
  | .dump _ _ => do
    modify fun w => setTmp w (.dump w.map)
    let _ ← renameSnapshot
    rotateWal
  | .rename => do
    let _ ← renameSnapshot
    rotateWal
  | .rotate => rotateWal
  | .finished st => return st

def Dumping (shards : Shards K) (w : World K) : CheckpointPc K → Prop
  | .dump j copied => ∀ k, shards.shard k < j → copied.lookup k = w.map.lookup k
  | _ => True

theorem checkpointStep_rest {K : Type} [DecidableEq K] {w : World K} {shards : Shards K}
    {ck : CheckpointPc K} {r : CheckpointPc K × World K} (hdump : Dumping shards w ck)
    (h : checkpointStep o shards w ck = some r) :
    Dumping shards r.2 r.1 ∧
      finish (checkpointRest o r.1) r.2 = finish (checkpointRest o ck) w := by
  cases ck with
  | off =>
    by_cases hdir : o.snapshotDir = ""
    · simp [checkpointStep, hdir] at h
      subst h
      exact ⟨trivial, by simp [finish, checkpointRest, checkpoint, hdir]⟩
    · simp [checkpointStep, hdir] at h
      subst h
      refine ⟨fun k hk => (Nat.not_lt_zero _ hk).elim, ?_⟩
      simp [finish, checkpointRest, checkpoint, hdir, dumpSnapshot, renameSnapshot, setTmp]
  | dump j copied =>
    by_cases hj : j < shards.count
    · simp [checkpointStep, hj] at h
      subst h
      refine ⟨fun k hk => ?_, rfl⟩
      rw [lookup_graft]
      by_cases hkj : shards.shard k = j
      · rw [if_pos hkj]
      · rw [if_neg hkj]
        exact hdump k (by omega)
    · have hall : copied = w.map :=
        Finmap.ext_lookup fun k => hdump k (by have := shards.shard_lt k; omega)
      simp [checkpointStep, hj, hall] at h
      subst h
      exact ⟨trivial, rfl⟩
  | rename =>
    cases h
    exact ⟨trivial, rfl⟩
  | rotate =>
    cases h
    exact ⟨trivial, rfl⟩
  | finished st => cases h

end ParaKV.Concurrent.Solo
