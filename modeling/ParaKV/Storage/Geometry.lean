/- GID: ParaKV/Storage/Geometry
   source: parakv/core/segment/segment_base.cc, parakv/core/index/offset.h,
     parakv/core/kvcache_storage/index_kvcache_storage_backend.cc
   digest: The options for which the layout of a segment and the encoded offsets are sound. -/

import ParaKV.Segment.BytesSpec
import ParaKV.Storage.Simulation

/-!
`EnsureValidOptions` accepts every segment size, every slot size above the header and every
positive number of segments. `CalculateLayout` and `OffsetCodec` then compute with them in fixed
widths, and neither checks that the numbers fit.

The layout is compared with a second computation that takes the same steps and stops at the first
one whose result does not fit its width, subtracts more than there is, or divides by zero.
-/

set_option autoImplicit false

namespace ParaKV.Storage.Geometry

open Lib.HashOrder Index.Key Segment.Base Segment.Bytes Storage.Backend Storage.Backend.Indexed
open Storage.Simulation

/-! Arithmetic that stops instead of wrapping. -/

def fit (width value : ℕ) : Option ℕ := if value < 2 ^ width then some value else none

def subtract (x y : ℕ) : Option ℕ := if y ≤ x then some (x - y) else none

def divide (x y : ℕ) : Option ℕ := if y ≠ 0 then some (x / y) else none

@[simp] theorem fit_eq_some {width value r : ℕ} :
    fit width value = some r ↔ value < 2 ^ width ∧ value = r := by
  unfold fit
  split_ifs with h <;> simp [h]

@[simp] theorem subtract_eq_some {x y r : ℕ} : subtract x y = some r ↔ y ≤ x ∧ x - y = r := by
  unfold subtract
  split_ifs with h <;> simp [h]

@[simp] theorem divide_eq_some {x y r : ℕ} : divide x y = some r ↔ y ≠ 0 ∧ x / y = r := by
  unfold divide
  split_ifs with h <;> simp [h]

def checkedRound (align bytes : ℕ) : Option ℕ :=
  if align > 0 then do
    let sum ← fit 64 (bytes + align)
    let sum ← subtract sum 1
    let blocks ← divide sum align
    fit 64 (blocks * align)
  else some bytes

/-- The steps of `CalculateLayout`, none of which may wrap. -/
def checkedLayout (c : SegmentConfig) : Option Layout := do
  let slotSize ← fit 32 (c.keySize + c.valueSize)
  let bits ← fit 64 (c.segmentSize * 8)
  let cost ← fit 64 (8 * slotSize + 1)
  let slots ← divide bits cost
  let totalSlots ← fit 32 slots
  let padded ← fit 32 (totalSlots + 7)
  let bitmapSize ← checkedRound c.bitmapAlignment (padded / 8)
  let dataArea ← subtract c.segmentSize bitmapSize
  let slots ← divide dataArea slotSize
  let maxSlots ← fit 32 slots
  return ⟨slotSize, min totalSlots maxSlots, bitmapSize, bitmapSize⟩

theorem checkedRound_eq_some {align bytes r : ℕ} :
    checkedRound align bytes = some r ↔
      if align > 0 then bytes + align < 2 ^ 64 ∧ (bytes + align - 1) / align * align = r
      else bytes = r := by
  unfold checkedRound
  split_ifs with halign
  · simp only [Option.bind_eq_bind, Option.bind_eq_some_iff, fit_eq_some, subtract_eq_some,
      divide_eq_some]
    constructor
    · rintro ⟨_, ⟨hsum, rfl⟩, _, ⟨_, rfl⟩, _, ⟨_, rfl⟩, _, hr⟩
      exact ⟨hsum, hr⟩
    · rintro ⟨hsum, hr⟩
      have hle := Nat.div_mul_le_self (bytes + align - 1) align
      exact ⟨_, ⟨hsum, rfl⟩, _, ⟨by omega, rfl⟩, _, ⟨by omega, rfl⟩, by omega, hr⟩
  · simp

theorem checkedLayout_eq_some {c : SegmentConfig} {l : Layout} :
    checkedLayout c = some l ↔
      c.keySize + c.valueSize < 2 ^ 32 ∧ c.segmentSize * 8 < 2 ^ 64 ∧
      c.segmentSize * 8 / (8 * (c.keySize + c.valueSize) + 1) + 7 < 2 ^ 32 ∧
      checkedRound c.bitmapAlignment
        ((c.segmentSize * 8 / (8 * (c.keySize + c.valueSize) + 1) + 7) / 8) = some l.bitmapSize ∧
      l.bitmapSize ≤ c.segmentSize ∧ c.keySize + c.valueSize ≠ 0 ∧
      (c.segmentSize - l.bitmapSize) / (c.keySize + c.valueSize) < 2 ^ 32 ∧
      l = ⟨c.keySize + c.valueSize,
        min (c.segmentSize * 8 / (8 * (c.keySize + c.valueSize) + 1))
          ((c.segmentSize - l.bitmapSize) / (c.keySize + c.valueSize)),
        l.bitmapSize, l.bitmapSize⟩ := by
  simp only [checkedLayout, Option.bind_eq_bind, Option.bind_eq_some_iff, fit_eq_some,
    subtract_eq_some, divide_eq_some, Option.pure_def, Option.some.injEq]
  constructor
  · rintro ⟨_, ⟨hslot, rfl⟩, _, ⟨hbits, rfl⟩, _, ⟨_, rfl⟩, _, ⟨_, rfl⟩, _, ⟨_, rfl⟩, _,
      ⟨hpadded, rfl⟩, bitmapSize, hround, _, ⟨hfits, rfl⟩, _, ⟨hzero, rfl⟩, _, ⟨hmax, rfl⟩, rfl⟩
    exact ⟨hslot, hbits, hpadded, hround, hfits, hzero, hmax, rfl⟩
  · rintro ⟨hslot, hbits, hpadded, hround, hfits, hzero, hmax, hl⟩
    exact ⟨_, ⟨hslot, rfl⟩, _, ⟨hbits, rfl⟩, _, ⟨by omega, rfl⟩, _, ⟨by omega, rfl⟩, _,
      ⟨by omega, rfl⟩, _, ⟨hpadded, rfl⟩, _, hround, _, ⟨hfits, rfl⟩, _, ⟨hzero, rfl⟩, _,
      ⟨hmax, rfl⟩, hl.symm⟩

theorem round_eq {align bytes r : ℕ} (h : checkedRound align bytes = some r) :
    (if align > 0 then (bytes + align - 1) % 2 ^ 64 / align * align % 2 ^ 64 else bytes) = r := by
  rw [checkedRound_eq_some] at h
  split_ifs at h ⊢ with halign
  · obtain ⟨hsum, rfl⟩ := h
    have hle := Nat.div_mul_le_self (bytes + align - 1) align
    have hinner : (bytes + align - 1) % 2 ^ 64 = bytes + align - 1 := Nat.mod_eq_of_lt (by omega)
    rw [hinner, Nat.mod_eq_of_lt (by omega)]
  · exact h

theorem le_round {align bytes r : ℕ} (h : checkedRound align bytes = some r) : bytes ≤ r := by
  rw [checkedRound_eq_some] at h
  split_ifs at h with halign
  · obtain ⟨_, rfl⟩ := h
    have hlt := Nat.lt_div_mul_add (a := bytes + align - 1) halign
    omega
  · exact le_of_eq h

theorem calculateLayout_eq {c : SegmentConfig} {l : Layout} (h : checkedLayout c = some l) :
    calculateLayout c = l := by
  obtain ⟨hslot, hbits, hpadded, hround, hfits, _, hmax, hl⟩ := checkedLayout_eq_some.mp h
  have htotal : c.segmentSize * 8 / (8 * (c.keySize + c.valueSize) + 1) < 2 ^ 32 := by omega
  have harea : (c.segmentSize + 2 ^ 64 - l.bitmapSize) % 2 ^ 64 =
      c.segmentSize - l.bitmapSize := by omega
  rw [hl]
  simp only [calculateLayout, Nat.mod_eq_of_lt hslot, Nat.mod_eq_of_lt hbits,
    Nat.mod_eq_of_lt htotal, Nat.mod_eq_of_lt hpadded, round_eq hround, harea,
    Nat.mod_eq_of_lt hmax]

/-! The layouts of a backend. -/

/-- No step of the computation wraps, there is a bit for every slot, and every slot lies behind
the bitmap and inside the segment. -/
def SoundLayout (c : SegmentConfig) : Prop :=
  checkedLayout c = some (calculateLayout c) ∧
    (calculateLayout c).totalSlots ≤ 8 * (calculateLayout c).bitmapSize ∧
    (calculateLayout c).slotDataOffset +
      (calculateLayout c).totalSlots * (calculateLayout c).slotSize ≤ c.segmentSize ∧
    ∀ slotId < (calculateLayout c).totalSlots,
      (calculateLayout c).bitmapSize ≤ getSlotOffset c slotId ∧
      getSlotOffset c slotId + (calculateLayout c).slotSize ≤ c.segmentSize

/-- Wrapping is all that can go wrong. -/
theorem sound_of_checked {c : SegmentConfig} {l : Layout} (h : checkedLayout c = some l) :
    SoundLayout c := by
  have hlayout := calculateLayout_eq h
  obtain ⟨_, hbits, _, hround, hfits, hzero, _, hl⟩ := checkedLayout_eq_some.mp h
  have hbytes := le_round hround
  have hslot : l.slotSize = c.keySize + c.valueSize := by rw [hl]
  have hoffset : l.slotDataOffset = l.bitmapSize := by rw [hl]
  have hfirst : l.totalSlots ≤ c.segmentSize * 8 / (8 * (c.keySize + c.valueSize) + 1) := by
    rw [hl]
    exact min_le_left _ _
  have hdata : l.totalSlots * l.slotSize ≤ c.segmentSize - l.bitmapSize := by
    have hmax : l.totalSlots ≤ (c.segmentSize - l.bitmapSize) / (c.keySize + c.valueSize) := by
      rw [hl]
      exact min_le_right _ _
    rw [hslot]
    exact (Nat.le_div_iff_mul_le (Nat.pos_of_ne_zero hzero)).mp hmax
  refine ⟨by rw [hlayout, h], ?_, ?_, fun slotId hid => ?_⟩
  · rw [hlayout]
    omega
  · rw [hlayout]
    omega
  · rw [hlayout] at hid
    have hend : slotId * l.slotSize + l.slotSize ≤ l.totalSlots * l.slotSize := by
      rw [← Nat.succ_mul]
      exact Nat.mul_le_mul_right _ hid
    have hwhole : getSlotOffset c slotId = l.bitmapSize + slotId * l.slotSize := by
      rw [getSlotOffset, hlayout, hoffset, Nat.mod_eq_of_lt (by omega)]
    rw [hlayout, hwhole]
    omega

/-- The segment sizes and slot sizes whose layout is sound: the slot size fits 32 bits, the
segment has fewer than 2 ^ 64 bits and not nearly 2 ^ 32 slots, and it has room for a block of the
bitmap unless it is too small for a slot anyway. -/
def Regular (b : Indexed.Options) : Prop :=
  b.slotValueSize.toNat + 16 < 2 ^ 32 ∧ b.segmentSize.toNat < 2 ^ 61 ∧
    8 * b.segmentSize.toNat < (2 ^ 32 - 7) * (8 * (b.slotValueSize.toNat + 16) + 1) ∧
    (4096 ≤ b.segmentSize.toNat ∨ b.segmentSize.toNat ≤ b.slotValueSize.toNat + 16)

instance (b : Indexed.Options) : Decidable (Regular b) := inferInstanceAs (Decidable (_ ∧ _))

section Backend

variable {b : Indexed.Options} (hash : HashPolicy ℕ)

/-- Behind a bitmap of a bit for every slot, rounded up to 4096 bytes, there are at most as many
slots as were counted, and one more. -/
theorem maxSlots_le {size slot n r : ℕ} (hslot : 0 < slot) (hn : n = size * 8 / (8 * slot + 1))
    (hr : (n + 7) / 8 ≤ r) : (size - r) / slot ≤ n + 1 := by
  have hlt : size * 8 < (n + 1) * (8 * slot + 1) := by
    rw [hn]
    exact Nat.lt_mul_of_div_lt (Nat.lt_succ_self _) (by omega)
  have hexpand : (n + 1) * (8 * slot + 1) = 8 * ((n + 1) * slot) + (n + 1) := by ring
  have hsize : size - r < (n + 1) * slot + slot := by omega
  have hdiv : (size - r) / slot < n + 2 := by
    rw [Nat.div_lt_iff_lt_mul hslot]
    calc size - r < (n + 1) * slot + slot := hsize
      _ = (n + 2) * slot := by ring
  omega

theorem round_le {size slot n : ℕ} (hslot : 16 < slot) (hn : n = size * 8 / (8 * slot + 1))
    (hsize : 4096 ≤ size) : ((n + 7) / 8 + 4096 - 1) / 4096 * 4096 ≤ size := by
  have hle : n * (8 * slot + 1) ≤ size * 8 := by
    rw [hn]
    exact Nat.div_mul_le_self _ _
  have hslots : n * 137 ≤ n * (8 * slot + 1) := Nat.mul_le_mul_left n (by omega)
  omega

theorem layout_sound_iff (hvalid : ensureValidOptions b = .ok) :
    SoundLayout (indexOptions b hash).segmentConfig ↔ Regular b := by
  have hheader := header_lt hvalid
  set c := (indexOptions b hash).segmentConfig with hc
  set slot := b.slotValueSize.toNat + 16 with hslot
  set size := b.segmentSize.toNat with hsize
  have hkey : c.keySize + c.valueSize = slot := Nat.add_comm _ _
  have hseg : c.segmentSize = size := rfl
  have halign : c.bitmapAlignment = 4096 := rfl
  have hdivlt : size * 8 / (8 * slot + 1) < 2 ^ 32 - 7 ↔
      8 * size < (2 ^ 32 - 7) * (8 * slot + 1) := by
    rw [Nat.div_lt_iff_lt_mul (by omega), Nat.mul_comm size]
  constructor
  · rintro ⟨hchecked, -⟩
    obtain ⟨hs, hbits, hpadded, hround, hfits, -⟩ := checkedLayout_eq_some.mp hchecked
    rw [hkey] at hs hpadded hround
    rw [hseg] at hbits hpadded hround hfits
    rw [halign, checkedRound_eq_some, if_pos (by decide)] at hround
    refine ⟨hs, by omega, hdivlt.mp (by omega), ?_⟩
    by_contra hsmall
    obtain ⟨hblock, hroom⟩ := not_or.mp hsmall
    -- There is room for a slot, so the bitmap has a block, which is larger than the segment.
    have hone : 1 ≤ size * 8 / (8 * slot + 1) := by
      rw [Nat.le_div_iff_mul_le (by omega)]
      omega
    omega
  · rintro ⟨hs, hbits, hquotient, hroom⟩
    have htotal := hdivlt.mpr hquotient
    set n := size * 8 / (8 * slot + 1) with hn
    have hround : checkedRound 4096 ((n + 7) / 8) =
        some (((n + 7) / 8 + 4096 - 1) / 4096 * 4096) := by
      rw [checkedRound_eq_some, if_pos (by decide)]
      exact ⟨by omega, rfl⟩
    have hfits : ((n + 7) / 8 + 4096 - 1) / 4096 * 4096 ≤ size := by
      rcases hroom with hlarge | hsmall
      · exact round_le (by omega) hn hlarge
      · have hzero : n = 0 := by
          rw [hn]
          exact Nat.div_eq_of_lt (by omega)
        rw [hzero]
        exact Nat.zero_le _
    have hmax := maxSlots_le (by omega) hn (le_round hround)
    refine sound_of_checked (l := ⟨slot, min n ((size - ((n + 7) / 8 + 4096 - 1) / 4096 * 4096) /
      slot), ((n + 7) / 8 + 4096 - 1) / 4096 * 4096, ((n + 7) / 8 + 4096 - 1) / 4096 * 4096⟩)
      (checkedLayout_eq_some.mpr ?_)
    rw [hkey, hseg, halign]
    exact ⟨hs, by omega, by omega, hround, hfits, by omega, lt_of_le_of_lt hmax (by omega), rfl⟩

end Backend

theorem layout_sound_default : SoundLayout (indexOptions {} (frontPolicy ℕ)).segmentConfig :=
  (layout_sound_iff (b := {}) (frontPolicy ℕ) rfl).mpr (by decide)

def tinySegment : Indexed.Options := { segmentSize := 4000, slotValueSize := 16 }

/-- The bitmap is rounded up beyond the segment, the size of the data area wraps, and all 124
slots stand behind the end. -/
theorem bitmap_exceeds_segment :
    ensureValidOptions tinySegment = .ok ∧
      calculateLayout (indexOptions tinySegment (frontPolicy ℕ)).segmentConfig =
        ⟨32, 124, 4096, 4096⟩ ∧
      getSlotOffset (indexOptions tinySegment (frontPolicy ℕ)).segmentConfig 0 = 4096 ∧
      ¬ SoundLayout (indexOptions tinySegment (frontPolicy ℕ)).segmentConfig := by
  refine ⟨rfl, by decide, by decide, fun hsound => ?_⟩
  have hend := hsound.2.2.1
  revert hend
  decide

/-! The offsets of a backend. -/

theorem segmentCount_pos {b : Indexed.Options} (hvalid : ensureValidOptions b = .ok) :
    0 < b.segmentCount.toNat := by
  by_contra hzero
  have hcount : b.segmentCount = 0 := UInt32.toNat_inj.mp (Nat.eq_zero_of_not_pos hzero)
  unfold ensureValidOptions at hvalid
  split_ifs at hvalid

/-- Every slot of a store has an offset of its own that decodes to it, and no other kind of
encoded offset is equal to it. -/
def Addressable (segmentCount totalSlots : ℕ) : Prop :=
  ∀ segmentId < segmentCount, ∀ slotId < totalSlots,
    getFlag (encodeSegmentSlot segmentId slotId) = .segmentSlot ∧
    getSegmentId (encodeSegmentSlot segmentId slotId) = segmentId ∧
    getSlotId (encodeSegmentSlot segmentId slotId) = slotId ∧
    (∀ segmentId' < segmentCount, ∀ slotId' < totalSlots,
      encodeSegmentSlot segmentId slotId = encodeSegmentSlot segmentId' slotId' →
      segmentId = segmentId' ∧ slotId = slotId') ∧
    (∀ fileOffset, encodeSegmentSlot segmentId slotId ≠ encodeFileOffset fileOffset) ∧
    (∀ address, encodeSegmentSlot segmentId slotId ≠ encodeMemoryAddress address) ∧
    encodeSegmentSlot segmentId slotId ≠ kInvalid

theorem addressable_of_le {segmentCount totalSlots : ℕ} (hcount : segmentCount ≤ 2 ^ 20)
    (htotal : totalSlots ≤ 2 ^ 28) : Addressable segmentCount totalSlots := by
  intro i hi s hs
  have hi' : i < 2 ^ 20 := lt_of_lt_of_le hi hcount
  have hs' : s < 2 ^ 28 := lt_of_lt_of_le hs htotal
  have hflag := getFlag_encodeSegmentSlot hi' hs'
  refine ⟨hflag, getSegmentId_encodeSegmentSlot hi' hs', getSlotId_encodeSegmentSlot hi' hs',
    fun j hj t ht heq => ?_, fun x heq => ?_, fun p heq => ?_, fun heq => ?_⟩
  · exact encodeSegmentSlot_inj hi' hs' (lt_of_lt_of_le hj hcount) (lt_of_lt_of_le ht htotal) heq
  · rw [heq, getFlag_encodeFileOffset] at hflag
    cases hflag
  · rw [heq, getFlag_encodeMemoryAddress] at hflag
    cases hflag
  · rw [heq] at hflag
    revert hflag
    decide

theorem offsets_unique_iff {b : Indexed.Options} (hash : HashPolicy ℕ)
    (hvalid : ensureValidOptions b = .ok) :
    Addressable b.segmentCount.toNat
        (calculateLayout (indexOptions b hash).segmentConfig).totalSlots ↔
      (calculateLayout (indexOptions b hash).segmentConfig).totalSlots = 0 ∨
      (b.segmentCount.toNat ≤ 2 ^ 20 ∧
        (calculateLayout (indexOptions b hash).segmentConfig).totalSlots ≤ 2 ^ 28) := by
  generalize (calculateLayout (indexOptions b hash).segmentConfig).totalSlots = total
  have hcount := segmentCount_pos hvalid
  constructor
  · intro haddr
    by_contra hnone
    obtain ⟨hslots, hwide⟩ := not_or.mp hnone
    -- The first id that does not fit its field decodes to 0.
    rcases not_and_or.mp hwide with hids | hids
    · have hid := (haddr (2 ^ 20) (by omega) 0 (by omega)).2.1
      revert hid
      decide
    · have hid := (haddr 0 hcount (2 ^ 28) (by omega)).2.2.1
      revert hid
      decide
  · rintro (hnone | ⟨hcount, htotal⟩)
    · intro i _ s hs
      omega
    · exact addressable_of_le hcount htotal

theorem offsets_unique_default :
    Addressable 1 (calculateLayout (indexOptions {} (frontPolicy ℕ)).segmentConfig).totalSlots :=
  (offsets_unique_iff (b := {}) (frontPolicy ℕ) rfl).mpr (Or.inr (by decide))

def denseSegments : Indexed.Options :=
  { segmentSize := 8 * 1024 * 1024 * 1024, slotValueSize := 9, segmentCount := 2 }

/-- The slot 2 ^ 28 of the first segment and the slot 0 of the second share their offset. -/
theorem offset_shared :
    ensureValidOptions denseSegments = .ok ∧
      2 ^ 28 < (calculateLayout
        (indexOptions denseSegments (frontPolicy ℕ)).segmentConfig).totalSlots ∧
      encodeSegmentSlot 0 (2 ^ 28) = encodeSegmentSlot 1 0 ∧
      ¬ Addressable denseSegments.segmentCount.toNat
        (calculateLayout
          (indexOptions denseSegments (frontPolicy ℕ)).segmentConfig).totalSlots := by
  refine ⟨rfl, by decide, by decide, fun haddr => ?_⟩
  have hid := (haddr 0 (by decide) (2 ^ 28) (by decide)).2.2.1
  revert hid
  decide

end ParaKV.Storage.Geometry
