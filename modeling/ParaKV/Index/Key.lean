/- GID: ParaKV/Index/Key
   source: parakv/core/index/key.h, parakv/core/index/offset.h, parakv/common/status.h
   digest: Statuses, key types with their byte images, and the encoded offset codec. -/

import ParaKV.Lib.LittleEndian
import Mathlib.Data.Nat.Bitwise

set_option autoImplicit false

namespace ParaKV.Index.Key

open Lib.LittleEndian

abbrev Bytes := List UInt8

inductive Status
  | ok
  | notFound
  | full
  | ioError
  | invalidArgument
  | corruption
  | noSpace
  deriving DecidableEq, Repr

/-- A trivially copyable key: a fixed number of bytes that determine it and that it
determines, so that a slot or a log record stores it by `memcpy`. -/
class KeyType (K : Type) where
  size : ℕ
  toBytes : K → Bytes
  ofBytes : Bytes → K
  length_toBytes : ∀ k, (toBytes k).length = size
  ofBytes_toBytes : ∀ k, ofBytes (toBytes k) = k
  toBytes_ofBytes : ∀ b, b.length = size → toBytes (ofBytes b) = b

export KeyType (toBytes ofBytes length_toBytes ofBytes_toBytes toBytes_ofBytes)

theorem toBytes_injective {K : Type} [KeyType K] {k k' : K} (h : toBytes k = toBytes k') :
    k = k' := by
  rw [← ofBytes_toBytes k, h, ofBytes_toBytes]

theorem readLE_uint64 (v : UInt64) : UInt64.ofNat (readLE (writeLE 8 v.toNat)) = v := by
  have hv : v.toNat < 256 ^ 8 := v.toNat_lt
  rw [readLE_writeLE, Nat.mod_eq_of_lt hv, UInt64.ofNat_toNat]

theorem writeLE_uint64 (b : Bytes) (h : b.length = 8) :
    writeLE 8 (UInt64.ofNat (readLE b)).toNat = b := by
  have hb : readLE b < 2 ^ 64 := by
    have hmod := readLE_writeLE 8 (readLE b)
    rw [← h, writeLE_readLE, h] at hmod
    rw [hmod]
    exact Nat.mod_lt _ (by norm_num)
  rw [UInt64.toNat_ofNat_of_lt' hb, ← h, writeLE_readLE]

abbrev Key64 := UInt64

instance : KeyType Key64 where
  size := 8
  toBytes k := writeLE 8 k.toNat
  ofBytes b := UInt64.ofNat (readLE b)
  length_toBytes _ := length_writeLE 8 _
  ofBytes_toBytes k := readLE_uint64 k
  toBytes_ofBytes b h := writeLE_uint64 b h

@[ext] structure Key128 where
  hi : UInt64
  lo : UInt64
  deriving DecidableEq, Repr

instance : KeyType Key128 where
  size := 16
  toBytes k := writeLE 8 k.hi.toNat ++ writeLE 8 k.lo.toNat
  ofBytes b := ⟨UInt64.ofNat (readLE (b.take 8)), UInt64.ofNat (readLE ((b.drop 8).take 8))⟩
  length_toBytes k := by simp
  ofBytes_toBytes k := by
    have hlo : (writeLE 8 k.lo.toNat).take 8 = writeLE 8 k.lo.toNat :=
      List.take_of_length_le (by simp)
    ext1
    · rw [List.take_left' (length_writeLE 8 _), readLE_uint64]
    · rw [List.drop_left' (length_writeLE 8 _), hlo, readLE_uint64]
  toBytes_ofBytes b h := by
    have hlo : (b.drop 8).take 8 = b.drop 8 := List.take_of_length_le (by simp [h])
    rw [writeLE_uint64 _ (by simp [h]), writeLE_uint64 _ (by simp [h]), hlo,
      List.take_append_drop]

/-- `Key128::FromString`: a byte string of exactly the key size. -/
def Key128.fromString (s : Bytes) : Option Key128 :=
  if s.length ≠ 16 then none else some (ofBytes s)

/-! The 64-bit offset: a 3-bit flag over a segment id of 20 bits and a slot id of 28. -/

inductive OffsetFlag
  | fileOffset
  | segmentSlot
  | memory
  | reserved (bits : UInt64)
  deriving DecidableEq, Repr

def kFlagShift : UInt64 := 61
def kFlagMask : UInt64 := 7
def kSlotIdBits : UInt64 := 28
def kSlotIdMask : UInt64 := 0xFFFFFFF
def kSegmentIdMask : UInt64 := 0xFFFFF

/-- `OffsetCodec::EncodeSegmentSlot` with its asserts compiled out: neither id is masked. -/
def encodeSegmentSlot (segmentId slotId : ℕ) : UInt64 :=
  let payload := (UInt64.ofNat segmentId <<< kSlotIdBits) ||| UInt64.ofNat slotId
  ((1 : UInt64) <<< kFlagShift) ||| payload

def kFileOffsetMask : UInt64 := 0xFFFFFFFFFFFF
def kMemoryAddrMask : UInt64 := 0xFFFFFFFFFFFF
def kInvalid : UInt64 := 0xFFFFFFFFFFFFFFFF

def encodeFileOffset (fileOffset : UInt64) : UInt64 :=
  ((0 : UInt64) <<< kFlagShift) ||| (fileOffset &&& kFileOffsetMask)

def encodeMemoryAddress (addr : UInt64) : UInt64 :=
  ((2 : UInt64) <<< kFlagShift) ||| (addr &&& kMemoryAddrMask)

def getFlag (encoded : UInt64) : OffsetFlag :=
  let bits := (encoded >>> kFlagShift) &&& kFlagMask
  if bits = 0 then .fileOffset
  else if bits = 1 then .segmentSlot
  else if bits = 2 then .memory
  else .reserved bits

def getSegmentId (encoded : UInt64) : ℕ := ((encoded >>> kSlotIdBits) &&& kSegmentIdMask).toNat

def getSlotId (encoded : UInt64) : ℕ := (encoded &&& kSlotIdMask).toNat

theorem flag_bits_masked (flag payload : UInt64) :
    ((flag <<< kFlagShift ||| (payload &&& 0xFFFFFFFFFFFF)) >>> kFlagShift) &&& kFlagMask =
      (flag <<< kFlagShift >>> kFlagShift) &&& kFlagMask := by
  apply UInt64.toNat_inj.mp
  have hb : kFlagShift.toNat % 64 = 61 := rfl
  have hzero : (payload.toNat &&& 0xFFFFFFFFFFFF) >>> 61 = 0 := by
    have hle : payload.toNat &&& 0xFFFFFFFFFFFF ≤ 0xFFFFFFFFFFFF := Nat.and_le_right
    rw [Nat.shiftRight_eq_div_pow]
    exact Nat.div_eq_of_lt (by omega)
  have hmask : (0xFFFFFFFFFFFF : UInt64).toNat = 0xFFFFFFFFFFFF := rfl
  rw [UInt64.toNat_and, UInt64.toNat_and, UInt64.toNat_shiftRight, UInt64.toNat_shiftRight, hb,
    UInt64.toNat_or, UInt64.toNat_and, hmask, Nat.shiftRight_or_distrib, hzero, Nat.or_zero]

theorem getFlag_encodeFileOffset (fileOffset : UInt64) :
    getFlag (encodeFileOffset fileOffset) = .fileOffset := by
  rw [getFlag, encodeFileOffset, kFileOffsetMask, flag_bits_masked]
  decide

theorem getFlag_encodeMemoryAddress (addr : UInt64) :
    getFlag (encodeMemoryAddress addr) = .memory := by
  rw [getFlag, encodeMemoryAddress, kMemoryAddrMask, flag_bits_masked]
  decide

section SegmentSlotCodec

variable {seg slot : ℕ} (hs : seg < 2 ^ 20) (hi : slot < 2 ^ 28)
include hs hi

theorem toNat_encodeSegmentSlot :
    (encodeSegmentSlot seg slot).toNat = 2 ^ 61 + (seg * 2 ^ 28 + slot) := by
  have hseg : (UInt64.ofNat seg).toNat = seg := by
    rw [UInt64.toNat_ofNat', Nat.mod_eq_of_lt (by omega)]
  have hslot : (UInt64.ofNat slot).toNat = slot := by
    rw [UInt64.toNat_ofNat', Nat.mod_eq_of_lt (by omega)]
  have hpayload : (UInt64.ofNat seg <<< kSlotIdBits ||| UInt64.ofNat slot).toNat =
      seg * 2 ^ 28 + slot := by
    have hb : kSlotIdBits.toNat % 64 = 28 := rfl
    rw [UInt64.toNat_or, UInt64.toNat_shiftLeft, hseg, hslot, hb, Nat.shiftLeft_eq,
      Nat.mod_eq_of_lt (by omega), ← Nat.shiftLeft_eq, ← Nat.shiftLeft_add_eq_or_of_lt hi,
      Nat.shiftLeft_eq]
  have hflag : ((1 : UInt64) <<< kFlagShift).toNat = 1 <<< 61 := rfl
  have hlt : seg * 2 ^ 28 + slot < 2 ^ 61 := by omega
  rw [encodeSegmentSlot, UInt64.toNat_or, hpayload, hflag,
    ← Nat.shiftLeft_add_eq_or_of_lt hlt, Nat.shiftLeft_eq, one_mul]

theorem getSlotId_encodeSegmentSlot : getSlotId (encodeSegmentSlot seg slot) = slot := by
  have hm : kSlotIdMask.toNat = 2 ^ 28 - 1 := rfl
  rw [getSlotId, UInt64.toNat_and, toNat_encodeSegmentSlot hs hi, hm,
    Nat.and_two_pow_sub_one_eq_mod]
  omega

theorem getSegmentId_encodeSegmentSlot : getSegmentId (encodeSegmentSlot seg slot) = seg := by
  have hm : kSegmentIdMask.toNat = 2 ^ 20 - 1 := rfl
  have hb : kSlotIdBits.toNat % 64 = 28 := rfl
  rw [getSegmentId, UInt64.toNat_and, UInt64.toNat_shiftRight, toNat_encodeSegmentSlot hs hi,
    hm, Nat.and_two_pow_sub_one_eq_mod, hb, Nat.shiftRight_eq_div_pow]
  omega

theorem getFlag_encodeSegmentSlot : getFlag (encodeSegmentSlot seg slot) = .segmentSlot := by
  have hbits : (encodeSegmentSlot seg slot >>> kFlagShift) &&& kFlagMask = 1 := by
    apply UInt64.toNat_inj.mp
    have hm : kFlagMask.toNat = 2 ^ 3 - 1 := rfl
    have hb : kFlagShift.toNat % 64 = 61 := rfl
    have h1 : (1 : UInt64).toNat = 1 := rfl
    rw [UInt64.toNat_and, UInt64.toNat_shiftRight, toNat_encodeSegmentSlot hs hi, hm, h1,
      Nat.and_two_pow_sub_one_eq_mod, hb, Nat.shiftRight_eq_div_pow]
    omega
  rw [getFlag, hbits]
  decide

theorem encodeSegmentSlot_inj {seg' slot' : ℕ} (hs' : seg' < 2 ^ 20) (hi' : slot' < 2 ^ 28)
    (h : encodeSegmentSlot seg slot = encodeSegmentSlot seg' slot') :
    seg = seg' ∧ slot = slot' := by
  constructor
  · rw [← getSegmentId_encodeSegmentSlot hs hi, h, getSegmentId_encodeSegmentSlot hs' hi']
  · rw [← getSlotId_encodeSegmentSlot hs hi, h, getSlotId_encodeSegmentSlot hs' hi']

end SegmentSlotCodec

end ParaKV.Index.Key
