/- GID: ParaKV/Lib/ReflectedCrc
   layer: library
   digest: Reflected cyclic redundancy checks of any width: linearity, injectivity and bursts. -/

import Mathlib.Data.BitVec
import Mathlib.Logic.Function.Iterate
import Mathlib.Tactic.Ring
import ParaKV.Lib.LittleEndian

set_option autoImplicit false

namespace ParaKV.Lib.ReflectedCrc

open Lib.LittleEndian

variable {w : ℕ} (p : BitVec w)

/-! One bit. -/

/-- The remainder after one bit: the lowest bit decides whether the polynomial is subtracted. -/
def bitStep (c : BitVec w) : BitVec w :=
  if c.getLsbD 0 then p ^^^ (c >>> 1) else c >>> 1

theorem bitStep_xor (a b : BitVec w) : bitStep p (a ^^^ b) = bitStep p a ^^^ bitStep p b := by
  unfold bitStep
  rw [BitVec.getLsbD_xor, BitVec.ushiftRight_xor_distrib]
  apply BitVec.eq_of_getLsbD_eq
  intro i _
  cases a.getLsbD 0 <;> cases b.getLsbD 0 <;> simp <;>
    cases p.getLsbD i <;> cases a.getLsbD (1 + i) <;> cases b.getLsbD (1 + i) <;> rfl

@[simp] theorem bitStep_zero : bitStep p 0#w = 0#w := by
  simp [bitStep]

variable {p} in
theorem eq_zero_of_bitStep (hp : p.msb = true) {c : BitVec w} (h : bitStep p c = 0#w) :
    c = 0#w := by
  have hlow : c.getLsbD 0 = false := by
    by_contra hset
    have hmsb := congrArg BitVec.msb h
    simp [bitStep, Bool.eq_true_of_not_eq_false hset, BitVec.msb_xor, hp, BitVec.msb_ushiftRight]
      at hmsb
  apply BitVec.eq_of_getLsbD_eq
  intro i hi
  cases i with
  | zero => simpa using hlow
  | succ i =>
    have hbit := congrArg (fun x => x.getLsbD i) h
    simp only [bitStep, hlow, Bool.false_eq_true, if_false, BitVec.getLsbD_ushiftRight] at hbit
    rw [Nat.add_comm, hbit]
    simp

/-! Several bits. -/

def bitSteps (n : ℕ) (c : BitVec w) : BitVec w := (bitStep p)^[n] c

theorem bitSteps_succ (n : ℕ) (c : BitVec w) :
    bitSteps p (n + 1) c = bitSteps p n (bitStep p c) := Function.iterate_succ_apply ..

theorem bitSteps_add (m n : ℕ) (c : BitVec w) :
    bitSteps p (m + n) c = bitSteps p m (bitSteps p n c) := Function.iterate_add_apply ..

@[simp] theorem bitSteps_zero (n : ℕ) : bitSteps p n 0#w = 0#w := by
  induction n with
  | zero => rfl
  | succ n ih => rw [bitSteps_succ, bitStep_zero, ih]

theorem bitSteps_xor (n : ℕ) (a b : BitVec w) :
    bitSteps p n (a ^^^ b) = bitSteps p n a ^^^ bitSteps p n b := by
  induction n generalizing a b with
  | zero => rfl
  | succ n ih => rw [bitSteps_succ, bitStep_xor, ih, ← bitSteps_succ, ← bitSteps_succ]

variable {p} in
theorem eq_zero_of_bitSteps (hp : p.msb = true) {n : ℕ} {c : BitVec w}
    (h : bitSteps p n c = 0#w) : c = 0#w := by
  induction n generalizing c with
  | zero => exact h
  | succ n ih =>
    rw [bitSteps_succ] at h
    exact eq_zero_of_bitStep hp (ih h)

theorem shiftLeft_succ_shiftRight {x : BitVec w} {k : ℕ} (hx : x.toNat < 2 ^ (w - (k + 1))) :
    (x <<< (k + 1)) >>> 1 = x <<< k := by
  apply BitVec.eq_of_getLsbD_eq
  intro i hi
  rw [BitVec.getLsbD_ushiftRight, BitVec.getLsbD_shiftLeft, BitVec.getLsbD_shiftLeft]
  have hsub : 1 + i - (k + 1) = i - k := by omega
  by_cases hlast : 1 + i < w
  · have hiff : (1 + i < k + 1) = (i < k) := by simp; omega
    simp [hlast, hi, hiff, hsub]
  · by_cases hik : i < k
    · simp [hlast, hik]
    · have hbit : x.getLsbD (i - k) = false := by
        apply Nat.testBit_lt_two_pow
        exact hx.trans_le (Nat.pow_le_pow_right (by omega) (by omega))
      simp [hlast, hbit]

theorem bitSteps_shiftLeft {x : BitVec w} {k : ℕ} (hk : k ≤ w) (hx : x.toNat < 2 ^ (w - k)) :
    bitSteps p k (x <<< k) = x := by
  induction k with
  | zero => simp [bitSteps]
  | succ k ih =>
    have hlow : (x <<< (k + 1)).getLsbD 0 = false := by simp
    have hle : 2 ^ (w - (k + 1)) ≤ 2 ^ (w - k) := Nat.pow_le_pow_right (by omega) (by omega)
    rw [bitSteps_succ, bitStep, hlow, if_neg (by simp), shiftLeft_succ_shiftRight hx]
    exact ih (by omega) (by omega)

/-! Bytes. -/

def ofByte (w : ℕ) (b : UInt8) : BitVec w := b.toBitVec.setWidth w

theorem ofByte_xor (a b : UInt8) : ofByte w (a ^^^ b) = ofByte w a ^^^ ofByte w b := by
  simp [ofByte]

@[simp] theorem ofByte_zero : ofByte w 0 = 0#w := by
  simp [ofByte]

def byteStep (c : BitVec w) (b : UInt8) : BitVec w := bitSteps p 8 (c ^^^ ofByte w b)

/-- The remainder after one more bit of the message. -/
def feedBit (c : BitVec w) (bit : Bool) : BitVec w :=
  if (c.getLsbD 0 ^^ bit) then p ^^^ (c >>> 1) else c >>> 1

theorem bitStep_xor_eq_feedBit (c x : BitVec w) :
    bitStep p (c ^^^ x) = feedBit p c (x.getLsbD 0) ^^^ (x >>> 1) := by
  rw [bitStep, feedBit, BitVec.getLsbD_xor, BitVec.ushiftRight_xor_distrib]
  split_ifs
  · rw [BitVec.xor_assoc]
  · rfl

def messageBits (bs : List UInt8) : List Bool :=
  bs.flatMap fun b => (List.range 8).map b.toBitVec.getLsbD

theorem bitSteps_eq_feedBits {n : ℕ} {x : BitVec w} (hx : ∀ i, n ≤ i → x.getLsbD i = false)
    (c : BitVec w) :
    bitSteps p n (c ^^^ x) = ((List.range n).map x.getLsbD).foldl (feedBit p) c := by
  induction n generalizing c x with
  | zero =>
    have hzero : x = 0#w := BitVec.eq_of_getLsbD_eq fun i _ => by simpa using hx i (Nat.zero_le i)
    rw [hzero, BitVec.xor_zero]
    rfl
  | succ n ih =>
    have hshift : ∀ i, n ≤ i → (x >>> 1).getLsbD i = false := by
      intro i hi
      rw [BitVec.getLsbD_ushiftRight]
      exact hx (1 + i) (by omega)
    have hbits : (List.range n).map (x >>> 1).getLsbD =
        ((List.range n).map Nat.succ).map x.getLsbD := by
      rw [List.map_map]
      refine List.map_congr_left fun i _ => ?_
      rw [BitVec.getLsbD_ushiftRight, Nat.add_comm]
      rfl
    rw [bitSteps_succ, bitStep_xor_eq_feedBit, ih hshift, hbits, List.range_succ_eq_map,
      List.map_cons, List.foldl_cons]

theorem byteStep_eq_feedBits (hw : 8 ≤ w) (c : BitVec w) (b : UInt8) :
    byteStep p c b = ((List.range 8).map b.toBitVec.getLsbD).foldl (feedBit p) c := by
  have hbit : ∀ i, (ofByte w b).getLsbD i = (decide (i < w) && b.toBitVec.getLsbD i) := by
    intro i
    rw [ofByte, BitVec.getLsbD_setWidth]
  have hhigh : ∀ i, 8 ≤ i → (ofByte w b).getLsbD i = false := by
    intro i hi
    rw [hbit, BitVec.getLsbD_of_ge _ _ hi, Bool.and_false]
  have hlow : (List.range 8).map (ofByte w b).getLsbD =
      (List.range 8).map b.toBitVec.getLsbD := by
    refine List.map_congr_left fun i hi => ?_
    have hlt : i < w := Nat.lt_of_lt_of_le (List.mem_range.mp hi) hw
    rw [hbit, decide_eq_true hlt, Bool.true_and]
  rw [byteStep, bitSteps_eq_feedBits p hhigh, hlow]

theorem split_low (x : BitVec w) : x = (x &&& 255#w) ^^^ ((x >>> 8) <<< 8) := by
  have hmask : ∀ i, (255#w).getLsbD i = (decide (i < w) && decide (i < 8)) := by
    intro i
    rw [BitVec.getLsbD_ofNat, show (255 : ℕ) = 2 ^ 8 - 1 by rfl, Nat.testBit_two_pow_sub_one]
  apply BitVec.eq_of_getLsbD_eq
  intro i hi
  rw [BitVec.getLsbD_xor, BitVec.getLsbD_and, hmask, BitVec.getLsbD_shiftLeft,
    BitVec.getLsbD_ushiftRight]
  by_cases h8 : i < 8
  · simp [hi, h8]
  · have hsum : 8 + (i - 8) = i := by omega
    simp [hi, h8, hsum]

theorem byteStep_eq (hw : 8 ≤ w) (c : BitVec w) (b : UInt8) :
    byteStep p c b = bitSteps p 8 ((c ^^^ ofByte w b) &&& 255#w) ^^^ (c >>> 8) := by
  have hhigh : (c ^^^ ofByte w b) >>> 8 = c >>> 8 := by
    have hbyte : ofByte w b >>> 8 = 0#w := by
      apply BitVec.eq_of_getLsbD_eq
      intro i _
      simp [ofByte]
    rw [BitVec.ushiftRight_xor_distrib, hbyte, BitVec.xor_zero]
  have hbound : (c >>> 8).toNat < 2 ^ (w - 8) := by
    have hpow : 2 ^ w = 2 ^ (w - 8) * 2 ^ 8 := by
      rw [← pow_add, Nat.sub_add_cancel hw]
    rw [BitVec.toNat_ushiftRight, Nat.shiftRight_eq_div_pow, Nat.div_lt_iff_lt_mul (by simp),
      ← hpow]
    exact c.isLt
  rw [byteStep, split_low (c ^^^ ofByte w b), bitSteps_xor, ← split_low, hhigh,
    bitSteps_shiftLeft p hw hbound]

def remainder (bs : List UInt8) (c : BitVec w) : BitVec w := bs.foldl (byteStep p) c

@[simp] theorem remainder_nil (c : BitVec w) : remainder p [] c = c := rfl

theorem remainder_cons (b : UInt8) (bs : List UInt8) (c : BitVec w) :
    remainder p (b :: bs) c = remainder p bs (byteStep p c b) := rfl

theorem remainder_append (as bs : List UInt8) (c : BitVec w) :
    remainder p (as ++ bs) c = remainder p bs (remainder p as c) := List.foldl_append

theorem remainder_eq_feedBits (hw : 8 ≤ w) (bs : List UInt8) (c : BitVec w) :
    remainder p bs c = (messageBits bs).foldl (feedBit p) c := by
  induction bs generalizing c with
  | nil => rfl
  | cons b bs ih =>
    rw [remainder_cons, ih, byteStep_eq_feedBits p hw, messageBits, messageBits,
      List.flatMap_cons, List.foldl_append]

def diff (as bs : List UInt8) : List UInt8 := List.zipWith (· ^^^ ·) as bs

/-- The remainders of two strings differ by the remainder of their difference. -/
theorem remainder_diff {as bs : List UInt8} (hlength : as.length = bs.length) (c d : BitVec w) :
    remainder p (diff as bs) (c ^^^ d) = remainder p as c ^^^ remainder p bs d := by
  induction as generalizing bs c d with
  | nil =>
    obtain rfl : bs = [] := List.eq_nil_of_length_eq_zero hlength.symm
    rfl
  | cons a as ih =>
    cases bs with
    | nil => simp at hlength
    | cons b bs =>
      have hstep : byteStep p (c ^^^ d) (a ^^^ b) = byteStep p c a ^^^ byteStep p d b := by
        have hword :
            c ^^^ d ^^^ ofByte w (a ^^^ b) = (c ^^^ ofByte w a) ^^^ (d ^^^ ofByte w b) := by
          rw [ofByte_xor]
          ac_rfl
        rw [byteStep, hword, bitSteps_xor]
        rfl
      rw [diff, List.zipWith_cons_cons, remainder_cons, hstep, remainder_cons, remainder_cons]
      exact ih (by simpa using hlength) _ _

theorem remainder_zeros {bs : List UInt8} (h : ∀ b ∈ bs, b = 0) (c : BitVec w) :
    remainder p bs c = bitSteps p (8 * bs.length) c := by
  induction bs generalizing c with
  | nil => rfl
  | cons b bs ih =>
    have hb : b = 0 := h b (by simp)
    have hlength : 8 * (b :: bs).length = 8 * bs.length + 8 := by
      rw [List.length_cons]
      ring
    rw [remainder_cons, ih (fun b' hb' => h b' (by simp [hb'])), hlength, bitSteps_add, byteStep,
      hb, ofByte_zero, BitVec.xor_zero]

def word (w : ℕ) (bs : List UInt8) : BitVec w := BitVec.ofNat w (readLE bs)

theorem readLE_lt (bs : List UInt8) : readLE bs < 2 ^ (8 * bs.length) := by
  induction bs with
  | nil => simp [readLE]
  | cons b bs ih =>
    have hb : b.toNat < 256 := b.toNat_lt
    have hpow : 2 ^ (8 * (b :: bs).length) = 256 * 2 ^ (8 * bs.length) := by
      rw [List.length_cons, Nat.mul_add, pow_add]
      ring
    rw [readLE_cons, hpow]
    omega

theorem eq_zero_of_readLE {bs : List UInt8} (h : readLE bs = 0) : ∀ b ∈ bs, b = 0 := by
  induction bs with
  | nil => simp
  | cons b bs ih =>
    rw [readLE_cons] at h
    intro b' hb'
    rcases List.mem_cons.mp hb' with rfl | hb'
    · apply UInt8.toNat_inj.mp
      simp
      omega
    · exact ih (by omega) b' hb'

theorem word_cons (b : UInt8) (bs : List UInt8) :
    word w (b :: bs) = ofByte w b ^^^ (word w bs <<< 8) := by
  apply BitVec.eq_of_getLsbD_eq
  intro i hi
  have hbyte : (ofByte w b).getLsbD i = b.toNat.testBit i := by
    rw [ofByte, BitVec.getLsbD_setWidth, decide_eq_true hi, Bool.true_and]
    rfl
  have hword : (word w (b :: bs)).getLsbD i =
      (b.toNat.testBit i || (decide (8 ≤ i) && (readLE bs).testBit (i - 8))) := by
    rw [word, readLE, BitVec.getLsbD_ofNat, decide_eq_true hi, Bool.true_and, Nat.testBit_or,
      Nat.testBit_shiftLeft]
  have hrest : (word w bs <<< 8).getLsbD i =
      (decide (8 ≤ i) && (readLE bs).testBit (i - 8)) := by
    rw [word, BitVec.getLsbD_shiftLeft, BitVec.getLsbD_ofNat, decide_eq_true hi,
      decide_eq_true (show i - 8 < w by omega)]
    by_cases h8 : i < 8
    · simp [h8]
    · simp [h8]
      omega
  rw [BitVec.getLsbD_xor, hbyte, hword, hrest]
  by_cases h8 : 8 ≤ i
  · have hhigh : b.toNat.testBit i = false := by
      apply Nat.testBit_lt_two_pow
      exact b.toNat_lt.trans_le (Nat.pow_le_pow_right (by omega) h8)
    simp [hhigh]
  · simp [h8]

theorem remainder_word {bs : List UInt8} (h : 8 * bs.length ≤ w) (c : BitVec w) :
    remainder p bs c = bitSteps p (8 * bs.length) (c ^^^ word w bs) := by
  induction bs generalizing c with
  | nil => simp [word, readLE, bitSteps]
  | cons b bs ih =>
    have hlength : 8 * (b :: bs).length = 8 * bs.length + 8 := by
      rw [List.length_cons]
      ring
    have hbound : (word w bs).toNat < 2 ^ (w - 8) := by
      have hlt := readLE_lt bs
      have hle : 2 ^ (8 * bs.length) ≤ 2 ^ (w - 8) := Nat.pow_le_pow_right (by omega) (by omega)
      rw [word, BitVec.toNat_ofNat]
      exact (Nat.mod_le _ _).trans_lt (by omega)
    have hshift : bitSteps p 8 (word w bs <<< 8) = word w bs :=
      bitSteps_shiftLeft p (by omega) hbound
    have hword : c ^^^ word w (b :: bs) = (c ^^^ ofByte w b) ^^^ (word w bs <<< 8) := by
      rw [word_cons]
      ac_rfl
    rw [remainder_cons, ih (by omega), hlength, bitSteps_add, hword, bitSteps_xor p 8, hshift]
    rfl

variable {p} in
theorem remainder_short_ne_zero (hp : p.msb = true) {bs : List UInt8} (h : 8 * bs.length ≤ w)
    (hne : ∃ b ∈ bs, b ≠ 0) : remainder p bs 0#w ≠ 0#w := by
  intro hzero
  rw [remainder_word p h, BitVec.zero_xor] at hzero
  have hword := eq_zero_of_bitSteps hp hzero
  have hnat : readLE bs = 0 := by
    have hlt := readLE_lt bs
    have hle : 2 ^ (8 * bs.length) ≤ 2 ^ w := Nat.pow_le_pow_right (by omega) h
    have htoNat := congrArg BitVec.toNat hword
    rw [word, BitVec.toNat_ofNat, Nat.mod_eq_of_lt (by omega)] at htoNat
    simpa using htoNat
  obtain ⟨b, hb, hbne⟩ := hne
  exact hbne (eq_zero_of_readLE hnat b hb)

variable {p} in
/-- A string whose nonzero bytes lie in a window no longer than the remainder leaves a remainder,
wherever the window is. -/
theorem remainder_burst_ne_zero (hp : p.msb = true) {bs : List UInt8} {i n : ℕ} (hn : 8 * n ≤ w)
    (hne : ∃ b ∈ bs, b ≠ 0)
    (hwindow : ∀ j b, bs[j]? = some b → b ≠ 0 → i ≤ j ∧ j < i + n) :
    remainder p bs 0#w ≠ 0#w := by
  have hsplit : bs = bs.take i ++ ((bs.drop i).take n ++ bs.drop (i + n)) := by
    rw [← List.drop_drop, List.take_append_drop, List.take_append_drop]
  have hfront : ∀ b ∈ bs.take i, b = 0 := by
    intro b hb
    obtain ⟨j, hj, hget⟩ := List.mem_iff_getElem.mp hb
    by_contra hbne
    rw [List.length_take] at hj
    have hmem : bs[j]? = some b := by
      rw [← hget, List.getElem_take, List.getElem?_eq_getElem]
    have := hwindow j b hmem hbne
    omega
  have hback : ∀ b ∈ bs.drop (i + n), b = 0 := by
    intro b hb
    obtain ⟨j, hj, hget⟩ := List.mem_iff_getElem.mp hb
    by_contra hbne
    rw [List.length_drop] at hj
    have hmem : bs[i + n + j]? = some b := by
      rw [← hget, List.getElem_drop, List.getElem?_eq_getElem]
    have := hwindow (i + n + j) b hmem hbne
    omega
  have hmiddle : ∃ b ∈ (bs.drop i).take n, b ≠ 0 := by
    obtain ⟨b, hb, hbne⟩ := hne
    rw [hsplit, List.mem_append, List.mem_append] at hb
    rcases hb with hb | hb | hb
    · exact absurd (hfront b hb) hbne
    · exact ⟨b, hb, hbne⟩
    · exact absurd (hback b hb) hbne
  have hlength : 8 * ((bs.drop i).take n).length ≤ w := by
    have := List.length_take_le n (bs.drop i)
    omega
  intro hzero
  rw [hsplit, remainder_append, remainder_append, remainder_zeros p hfront, bitSteps_zero,
    remainder_zeros p hback] at hzero
  exact remainder_short_ne_zero hp hlength hmiddle (eq_zero_of_bitSteps hp hzero)

end ParaKV.Lib.ReflectedCrc
