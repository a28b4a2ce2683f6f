/- GID: ParaKV/Core/State
   source: parakv/core/segment/segment_manager.h, parakv/core/index/index.h
   digest: The files, the in-memory objects over them, and the programs that act on both. -/

import ParaKV.Lib.TracedProgram
import ParaKV.Lib.LogMap
import ParaKV.Lib.HashOrder
import ParaKV.Index.Wal
import ParaKV.Segment.Base

set_option autoImplicit false

namespace ParaKV.Core.State

open Lib.TracedProgram Lib.LogMap Lib.HashOrder Index.Key Segment.Base

/-- The index map: the phmap is taken to be a finite map with a faithful dump and load. -/
abbrev Map (K : Type) := FMap K UInt64

/-! What survives a crash. -/

/-- A snapshot file is a complete dump, or bytes `phmap_load` rejects. -/
inductive SnapshotFile (K : Type)
  | dump (m : Map K)
  | corrupt

structure Slot where
  key : Bytes
  value : Bytes
  deriving DecidableEq, Repr

/-- A segment file by its regions: bitmap bits and the key and value bytes of each slot. A
file that was created but not yet extended to the segment size is not `sized`. -/
structure SegmentImage where
  present : Bool
  sized : Bool
  bitmap : ℕ → Bool
  slots : ℕ → Slot

def SegmentImage.slot (f : SegmentImage) (sid : ℕ) : Option Slot :=
  if f.bitmap sid then some (f.slots sid) else none

/-- Created and extended, so that a later start can open it. -/
def SegmentImage.Complete (f : SegmentImage) : Prop := f.present = true ∧ f.sized = true

def SegmentImage.Openable (f : SegmentImage) : Prop := f.present = true → f.sized = true

structure Disk (K : Type) where
  images : ℕ → SegmentImage
  wal : Option Bytes
  snapshot : Option (SnapshotFile K)
  snapshotTmp : Option (SnapshotFile K)
  managerState : Option Bytes

def Disk.empty (K : Type) : Disk K where
  images := fun _ => ⟨false, false, fun _ => false, fun _ => ⟨[], []⟩⟩
  wal := none
  snapshot := none
  snapshotTmp := none
  managerState := none

def Disk.slot {K : Type} (d : Disk K) (id sid : ℕ) : Option Slot := (d.images id).slot sid

/-! What a crash loses. -/

/-- `isOpen` stands for a non-negative descriptor. -/
structure WalWriter where
  isOpen : Bool
  bytesWritten : ℕ
  deriving DecidableEq, Repr

structure SegmentManager where
  segments : UnorderedSet ℕ
  idleSet : UnorderedSet ℕ
  appendingSet : UnorderedSet ℕ
  fullSet : UnorderedSet ℕ
  fullOrder : List ℕ
  hotSegments : UnorderedSet ℕ

def SegmentManager.fresh : SegmentManager :=
  ⟨.empty, .empty, .empty, .empty, [], .empty⟩

structure World (K : Type) where
  disk : Disk K
  segs : ℕ → SegmentBase
  mgr : SegmentManager
  map : Map K
  wal : Option WalWriter
  walBytes : ℕ
  opened : Bool

def World.boot {K : Type} (d : Disk K) : World K where
  disk := d
  segs := fun _ => .fresh
  mgr := .fresh
  map := ∅
  wal := none
  walBytes := 0
  opened := false

/-- `Index::Options` with the number of segments registered at start. The segment manager
pointer is never null here, and the WAL and the snapshot are different files. -/
structure Options where
  segmentConfig : SegmentConfig
  segmentCount : ℕ
  walPath : String
  snapshotDir : String
  walCheckpointBytes : ℕ
  hash : HashPolicy ℕ

def Options.totalSlots (o : Options) : ℕ := SegmentBase.totalSlots o.segmentConfig

/-- The key size `Open` checks and the id ranges `EncodeSegmentSlot` asserts. -/
structure Options.Admissible (K : Type) [KeyType K] (o : Options) : Prop where
  keySize : o.segmentConfig.keySize = KeyType.size K
  segments : o.segmentCount ≤ 2 ^ 20
  slots : o.totalSlots ≤ 2 ^ 28

/-- The outcome of one system call: success, or an error after some bytes went through. -/
inductive IoOutcome
  | ok
  | fail (transferred : ℕ)

/-- A point a program passes: a durable write, or the return of a slot-move callback that was
entered in the world `before`. -/
inductive Label (K : Type)
  | io
  | moved (before : World K) (key : K) (oldEnc newEnc : UInt64)

structure Event (K : Type) where
  label : Label K
  world : World K

abbrev M (K : Type) := Prog (World K) (Event K) IoOutcome

variable {K : Type}

/-- The execution in which every system call succeeds. -/
abbrev run {α : Type} (m : M K α) (w : World K) : Outcome (World K) (Event K) α :=
  m.exec IoOutcome.ok w

namespace World

def setSegment (w : World K) (id : ℕ) (s : SegmentBase) : World K :=
  { w with segs := Function.update w.segs id s }

def setImage (w : World K) (id : ℕ) (f : SegmentImage) : World K :=
  { w with disk := { w.disk with images := Function.update w.disk.images id f } }

def setWalFile (w : World K) (f : Option Bytes) : World K :=
  { w with disk := { w.disk with wal := f } }

end World

def overlay (n : ℕ) (new old : Bytes) : Bytes :=
  if n < new.length then new.take n ++ old.drop n else new

def overlayBits (size n : ℕ) (new old : ℕ → Bool) : ℕ → Bool :=
  if n < size then fun i => if i / 8 < n then new i else old i else new

/-- A write of `len` bytes, where `upto n w` has the first `n` of them in the file. It passes
every prefix, and a failing call leaves a proper one. -/
def pwrite (len : ℕ) (upto : ℕ → World K → World K) : M K Status := do
  match ← Prog.draw with
  | .ok =>
    Prog.emit fun w => (List.range (len + 1)).map fun n => ⟨.io, upto n w⟩
    modify (upto len)
    return .ok
  | .fail n =>
    Prog.emit fun w => (List.range (min n (len - 1) + 1)).map fun n => ⟨.io, upto n w⟩
    modify (upto (min n (len - 1)))
    return .ioError

/-- Any other call: one durable effect, or none when it fails. -/
def syscall (effect : World K → World K) : M K Status := do
  match ← Prog.draw with
  | .ok =>
    modify effect
    Prog.emit fun w => [⟨.io, w⟩]
    return .ok
  | .fail _ => return .ioError

/-- A call that only reads or syncs. -/
def probe : M K Status := do
  match ← Prog.draw with
  | .ok => return .ok
  | .fail _ => return .ioError

section Successful

variable (w : World K)

@[simp] theorem run_pwrite_val (len : ℕ) (upto : ℕ → World K → World K) :
    (run (pwrite len upto) w).val = .ok := rfl
@[simp] theorem run_pwrite_state (len : ℕ) (upto : ℕ → World K → World K) :
    (run (pwrite len upto) w).state = upto len w := rfl
@[simp] theorem run_pwrite_used (len : ℕ) (upto : ℕ → World K → World K) :
    (run (pwrite len upto) w).used = 1 := rfl
@[simp] theorem run_pwrite_trace (len : ℕ) (upto : ℕ → World K → World K) :
    (run (pwrite len upto) w).trace =
      (List.range (len + 1)).map fun n => ⟨.io, upto n w⟩ := by
  change [] ++ ((List.range (len + 1)).map (fun n => (⟨.io, upto n w⟩ : Event K)) ++
    ([] ++ [])) = _
  simp

@[simp] theorem run_syscall_val (f : World K → World K) :
    (run (syscall f) w).val = .ok := rfl
@[simp] theorem run_syscall_state (f : World K → World K) :
    (run (syscall f) w).state = f w := rfl
@[simp] theorem run_syscall_used (f : World K → World K) :
    (run (syscall f) w).used = 1 := rfl
@[simp] theorem run_syscall_trace (f : World K → World K) :
    (run (syscall f) w).trace = [⟨.io, f w⟩] := rfl

@[simp] theorem run_probe_val : (run (probe : M K Status) w).val = .ok := rfl
@[simp] theorem run_probe_state : (run (probe : M K Status) w).state = w := rfl
@[simp] theorem run_probe_used : (run (probe : M K Status) w).used = 1 := rfl
@[simp] theorem run_probe_trace : (run (probe : M K Status) w).trace = [] := rfl

end Successful

end ParaKV.Core.State
