/- GID: ParaKV/Lib/LittleEndian
   layer: library
   digest: Little-endian byte strings of naturals and their two round trips. -/

import Mathlib.Data.Nat.Bitwise
import Mathlib.Tactic.Ring

set_option autoImplicit false

namespace ParaKV.Lib.LittleEndian

/-- The low `n` bytes of `v`, least significant first. -/
def writeLE : ℕ → ℕ → List UInt8
  | 0, _ => []
  | n + 1, v => UInt8.ofNat v :: writeLE n (v >>> 8)

def readLE : List UInt8 → ℕ
  | [] => 0
  | b :: bs => b.toNat ||| (readLE bs <<< 8)

@[simp] theorem length_writeLE (n v : ℕ) : (writeLE n v).length = n := by
  induction n generalizing v with
  | zero => rfl
  | succ n ih => simp [writeLE, ih]

theorem readLE_cons (b : UInt8) (bs : List UInt8) :
    readLE (b :: bs) = 256 * readLE bs + b.toNat := by
  have hb : b.toNat < 2 ^ 8 := b.toNat_lt
  rw [readLE, Nat.or_comm, ← Nat.shiftLeft_add_eq_or_of_lt hb, Nat.shiftLeft_eq]
  ring

theorem readLE_writeLE (n v : ℕ) : readLE (writeLE n v) = v % 256 ^ n := by
  induction n generalizing v with
  | zero => simp [writeLE, readLE, Nat.mod_one]
  | succ n ih =>
    have hb : (UInt8.ofNat v).toNat = v % 256 := by simp
    have hs : v >>> 8 = v / 256 := by simp [Nat.shiftRight_eq_div_pow]
    rw [writeLE, readLE_cons, ih, hb, hs, pow_succ' 256 n, Nat.mod_mul]
    omega

theorem writeLE_readLE (bs : List UInt8) : writeLE bs.length (readLE bs) = bs := by
  induction bs with
  | nil => rfl
  | cons b bs ih =>
    have hb : b.toNat < 256 := b.toNat_lt
    have hlow : UInt8.ofNat (readLE (b :: bs)) = b := by
      apply UInt8.toNat_inj.mp
      rw [readLE_cons]
      simp only [UInt8.toNat_ofNat']
      omega
    have hhigh : readLE (b :: bs) >>> 8 = readLE bs := by
      rw [readLE_cons, Nat.shiftRight_eq_div_pow]
      omega
    rw [List.length_cons, writeLE, hlow, hhigh, ih]

end ParaKV.Lib.LittleEndian
