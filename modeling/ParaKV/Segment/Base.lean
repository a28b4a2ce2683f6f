/- GID: ParaKV/Segment/Base
   source: parakv/core/segment/segment_base.h, parakv/core/segment/segment_base.cc
   digest: SegmentBase configuration, layout arithmetic, counters and the compaction test. -/

import Mathlib.Algebra.Group.Nat.Defs
import Mathlib.Data.Nat.Basic
import Mathlib.Logic.Function.Basic

set_option autoImplicit false

namespace ParaKV.Segment.Base

inductive SegmentState
  | idle
  | appending
  | full
  deriving DecidableEq, Repr

/-! The deleted ratio is a `float`; the three operations below are IEEE binary32 with rounding to
    nearest, ties to even, on the non-negative quotients the ratio can take. -/

structure Binary32 where
  mantissa : ℕ
  scale : ℕ
  deriving DecidableEq, Repr

def roundTiesEven (num den : ℕ) : ℕ :=
  let q := num / den
  let r := num % den
  if 2 * r < den then q
  else if den < 2 * r then q + 1
  else if q % 2 = 0 then q else q + 1

namespace Binary32

/-- Conversion of an unsigned integer keeps its leading 24 bits. -/
def ofNat (n : ℕ) : Binary32 :=
  let dropped := n.log2 - 23
  ⟨roundTiesEven n (2 ^ dropped) * 2 ^ dropped, 0⟩

/-- Division with a 24-bit quotient, for a dividend that does not exceed the divisor. -/
def div (a b : Binary32) : Binary32 :=
  let num := a.mantissa * 2 ^ b.scale
  let den := b.mantissa * 2 ^ a.scale
  if num = 0 then ⟨0, 0⟩
  else
    let s := 23 + den.log2 - num.log2
    let s := if num * 2 ^ s < 2 ^ 23 * den then s + 1 else s
    ⟨roundTiesEven (num * 2 ^ s) den, s⟩

def le (a b : Binary32) : Bool := a.mantissa * 2 ^ b.scale ≤ b.mantissa * 2 ^ a.scale

end Binary32

structure SegmentConfig where
  keySize : ℕ := 8
  valueSize : ℕ := 512
  segmentSize : ℕ := 256 * 1024 * 1024
  compactionThreshold : Binary32 := ⟨3, 2⟩
  bitmapAlignment : ℕ := 4096

structure Layout where
  slotSize : ℕ
  totalSlots : ℕ
  bitmapSize : ℕ
  slotDataOffset : ℕ
  deriving DecidableEq, Repr

/-- `SegmentBase::CalculateLayout` in the widths of the source: slot counts and sizes are
32-bit, offsets and the segment size 64-bit. -/
def calculateLayout (c : SegmentConfig) : Layout :=
  let slotSize := (c.keySize + c.valueSize) % 2 ^ 32
  let totalSlots := c.segmentSize * 8 % 2 ^ 64 / (8 * slotSize + 1) % 2 ^ 32
  let bitmapSize := (totalSlots + 7) % 2 ^ 32 / 8
  let align := c.bitmapAlignment
  let bitmapSize :=
    if align > 0 then (bitmapSize + align - 1) % 2 ^ 64 / align * align % 2 ^ 64 else bitmapSize
  -- the subtraction is unguarded in the source
  let dataArea := (c.segmentSize + 2 ^ 64 - bitmapSize) % 2 ^ 64
  let maxSlots := dataArea / slotSize % 2 ^ 32
  ⟨slotSize, min totalSlots maxSlots, bitmapSize, bitmapSize⟩

/-- The members of a segment object; `isOpen` stands for a non-negative descriptor. -/
structure SegmentBase where
  isOpen : Bool
  bitmap : ℕ → Bool
  usedSlots : ℕ
  deletedSlots : ℕ
  appendCursor : ℕ
  state : SegmentState

namespace SegmentBase

def fresh : SegmentBase := ⟨false, fun _ => false, 0, 0, 0, .idle⟩

variable (c : SegmentConfig) (s : SegmentBase)

def totalSlots : ℕ := (calculateLayout c).totalSlots

/-- Slots that were never appended to, plus deleted slots that an insert cannot reuse. -/
def getFreeSlots : ℕ := totalSlots c - s.appendCursor + s.deletedSlots

def getDeletedRatio : Binary32 :=
  if s.appendCursor > 0 then (Binary32.ofNat s.deletedSlots).div (Binary32.ofNat s.appendCursor)
  else ⟨0, 0⟩

def needsCompaction : Bool :=
  decide (s.state = .full) && decide (s.appendCursor > 0) &&
    c.compactionThreshold.le s.getDeletedRatio

/-- The append cursor through `int32_t`: from 2 ^ 31 on the cast is negative. -/
def findFreeSlot : Option ℕ :=
  if s.appendCursor < totalSlots c then
    if s.appendCursor < 2 ^ 31 then some s.appendCursor else none
  else none

def setSlotBit (slotId : ℕ) : SegmentBase :=
  { s with bitmap := Function.update s.bitmap slotId true }

def clearSlotBit (slotId : ℕ) : SegmentBase :=
  { s with bitmap := Function.update s.bitmap slotId false }

def updateState : SegmentBase :=
  if s.usedSlots = 0 ∧ s.appendCursor = 0 then { s with state := .idle }
  else if s.appendCursor ≥ totalSlots c then { s with state := .full }
  else { s with state := .appending }

def resetBitmap : SegmentBase :=
  { s with
    bitmap := fun _ => false
    usedSlots := 0
    deletedSlots := 0
    appendCursor := 0
    state := .idle }

@[simp] theorem updateState_isOpen : (s.updateState c).isOpen = s.isOpen := by
  unfold updateState; split_ifs <;> rfl

@[simp] theorem updateState_bitmap : (s.updateState c).bitmap = s.bitmap := by
  unfold updateState; split_ifs <;> rfl

@[simp] theorem updateState_appendCursor :
    (s.updateState c).appendCursor = s.appendCursor := by
  unfold updateState; split_ifs <;> rfl

end SegmentBase

end ParaKV.Segment.Base
