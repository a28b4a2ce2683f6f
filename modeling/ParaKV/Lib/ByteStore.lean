/- GID: ParaKV/Lib/ByteStore
   layer: library
   digest: Arrays of bytes addressed by offset, and bit vectors stored in bytes. -/

import Mathlib.Data.List.Basic
import Mathlib.Data.Nat.Bitwise

set_option autoImplicit false

namespace ParaKV.Lib.ByteStore

/-! Bytes at offsets. -/

def slice (s : ℕ → UInt8) (off n : ℕ) : List UInt8 := (List.range n).map fun k => s (off + k)

def put (s : ℕ → UInt8) (off : ℕ) (buf : List UInt8) : ℕ → UInt8 := fun j =>
  if off ≤ j ∧ j < off + buf.length then buf.getD (j - off) 0 else s j

variable {s s' : ℕ → UInt8} {off off' n : ℕ} {buf : List UInt8}

@[simp] theorem length_slice (s : ℕ → UInt8) (off n : ℕ) : (slice s off n).length = n := by
  simp [slice]

@[simp] theorem slice_zero (s : ℕ → UInt8) (off : ℕ) : slice s off 0 = [] := rfl

@[simp] theorem put_nil (s : ℕ → UInt8) (off : ℕ) : put s off [] = s := by
  funext j
  have hempty : ¬ (off ≤ j ∧ j < off + 0) := by omega
  simp only [put, List.length_nil, if_neg hempty]

theorem put_outside {j : ℕ} (h : j < off ∨ off + buf.length ≤ j) : put s off buf j = s j := by
  have houtside : ¬ (off ≤ j ∧ j < off + buf.length) := by omega
  simp only [put, if_neg houtside]

theorem slice_congr (h : ∀ k < n, s (off + k) = s' (off' + k)) :
    slice s off n = slice s' off' n := by
  apply List.map_congr_left
  intro k hk
  exact h k (List.mem_range.mp hk)

theorem slice_put_self (s : ℕ → UInt8) (off : ℕ) (buf : List UInt8) :
    slice (put s off buf) off buf.length = buf := by
  apply List.ext_getElem
  · simp
  · intro k hk hk'
    have hinside : off ≤ off + k ∧ off + k < off + buf.length := by omega
    simp only [slice, List.getElem_map, List.getElem_range, put, if_pos hinside,
      Nat.add_sub_cancel_left, List.getD_eq_getElem _ _ hk']

theorem slice_put_disjoint (h : off' + n ≤ off ∨ off + buf.length ≤ off') :
    slice (put s off buf) off' n = slice s off' n := by
  apply slice_congr
  intro k hk
  apply put_outside
  omega

theorem put_congr {base size : ℕ} (h : ∀ j < size, s j = s' (base + j)) {j : ℕ} (hj : j < size) :
    put s off buf j = put s' (base + off) buf (base + j) := by
  by_cases hin : off ≤ j ∧ j < off + buf.length
  · have hin' : base + off ≤ base + j ∧ base + j < base + off + buf.length := by omega
    have hsub : base + j - (base + off) = j - off := by omega
    simp only [put, if_pos hin, if_pos hin', hsub]
  · have hin' : ¬ (base + off ≤ base + j ∧ base + j < base + off + buf.length) := by omega
    simp only [put, if_neg hin, if_neg hin', h j hj]

theorem put_zeros {j : ℕ} (h : s j = 0) : put s off (List.replicate n 0) j = 0 := by
  unfold put
  split_ifs
  · rw [List.getD_eq_getElem?_getD, List.getElem?_replicate]
    split_ifs <;> rfl
  · exact h

/-! Bits in bytes, least significant first. -/

def mask (i : ℕ) : UInt8 := 1 <<< UInt8.ofNat (i % 8)

/-- The bit `i`; there is none beyond the last byte. -/
def bit (bm : List UInt8) (i : ℕ) : Bool := decide (bm.getD (i / 8) 0 &&& mask i ≠ 0)

def setBit (bm : List UInt8) (i : ℕ) : List UInt8 := bm.modify (i / 8) (· ||| mask i)

def clearBit (bm : List UInt8) (i : ℕ) : List UInt8 := bm.modify (i / 8) (· &&& ~~~ mask i)

theorem toNat_mask (i : ℕ) : (mask i).toNat = 2 ^ (i % 8) := by
  have hlt : i % 8 < 8 := Nat.mod_lt _ (by decide)
  have hpow : 2 ^ (i % 8) < 2 ^ 8 := Nat.pow_lt_pow_right (by decide) hlt
  have hsmall : i % 8 % 2 ^ 8 % 8 = i % 8 := by omega
  simp only [mask, UInt8.toNat_shiftLeft, UInt8.toNat_ofNat', UInt8.toNat_one, hsmall,
    Nat.shiftLeft_eq, Nat.one_mul, Nat.mod_eq_of_lt hpow]

theorem bit_eq_testBit (bm : List UInt8) (i : ℕ) :
    bit bm i = (bm.getD (i / 8) 0).toNat.testBit (i % 8) := by
  generalize hx : bm.getD (i / 8) 0 = x
  have hzero : x &&& mask i = 0 ↔ x.toNat &&& 2 ^ (i % 8) = 0 := by
    rw [← UInt8.toNat_inj, UInt8.toNat_and, toNat_mask]
    rfl
  have hpow : 0 < 2 ^ (i % 8) := Nat.pos_of_ne_zero (by simp)
  simp only [bit, hx, ne_eq, hzero, Nat.and_two_pow]
  cases x.toNat.testBit (i % 8)
  · simp
  · simp

@[simp] theorem length_setBit (bm : List UInt8) (i : ℕ) : (setBit bm i).length = bm.length := by
  simp [setBit]

@[simp] theorem length_clearBit (bm : List UInt8) (i : ℕ) :
    (clearBit bm i).length = bm.length := by
  simp [clearBit]

theorem eq_iff_div_mod (i j : ℕ) : j = i ↔ j / 8 = i / 8 ∧ j % 8 = i % 8 := by
  omega

theorem getD_modify (bm : List UInt8) (f : UInt8 → UInt8) (p q : ℕ) :
    (bm.modify p f).getD q 0 = if p = q ∧ p < bm.length then f (bm.getD q 0) else bm.getD q 0 := by
  rw [List.getD_eq_getElem?_getD, List.getD_eq_getElem?_getD, List.getElem?_modify]
  by_cases hpq : p = q
  · subst hpq
    by_cases hlt : p < bm.length
    · simp [hlt]
    · simp [hlt]
  · simp [hpq]

theorem testBit_toNat_not (x : UInt8) {k : ℕ} (hk : k < 8) :
    (~~~ x).toNat.testBit k = !x.toNat.testBit k := by
  have hbits : (~~~ x.toBitVec).getLsbD k = !x.toBitVec.getLsbD k := by
    simp [hk]
  exact hbits

theorem bit_setBit {bm : List UInt8} {i : ℕ} (hi : i / 8 < bm.length) (j : ℕ) :
    bit (setBit bm i) j = (decide (j = i) || bit bm j) := by
  rw [bit_eq_testBit, bit_eq_testBit, setBit, getD_modify]
  by_cases hbyte : i / 8 = j / 8
  · rw [if_pos ⟨hbyte, hi⟩, UInt8.toNat_or, toNat_mask, Nat.testBit_or, Nat.testBit_two_pow,
      Bool.or_comm]
    congr 1
    simp only [eq_iff_div_mod i j, hbyte, true_and]
    exact decide_eq_decide.mpr eq_comm
  · have hne : j ≠ i := fun h => hbyte (by rw [h])
    simp [hbyte, hne]

theorem bit_clearBit (bm : List UInt8) (i j : ℕ) :
    bit (clearBit bm i) j = (decide (j ≠ i) && bit bm j) := by
  have hj : j % 8 < 8 := Nat.mod_lt _ (by decide)
  rw [bit_eq_testBit, bit_eq_testBit, clearBit, getD_modify]
  by_cases hbyte : i / 8 = j / 8 ∧ i / 8 < bm.length
  · rw [if_pos hbyte, UInt8.toNat_and, Nat.testBit_and, testBit_toNat_not _ hj, toNat_mask,
      Nat.testBit_two_pow, Bool.and_comm, ← decide_not]
    congr 1
    simp only [ne_eq, eq_iff_div_mod i j, hbyte.1, true_and]
    exact decide_eq_decide.mpr (not_congr eq_comm)
  · rw [if_neg hbyte]
    by_cases hji : j = i
    · subst hji
      have hout : bm.length ≤ j / 8 := by
        by_contra hlt
        exact hbyte ⟨rfl, by omega⟩
      simp [hout]
    · simp [hji]

@[simp] theorem bit_replicate_zero (n i : ℕ) : bit (List.replicate n 0) i = false := by
  simp [bit_eq_testBit]

end ParaKV.Lib.ByteStore
