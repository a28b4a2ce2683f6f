/- GID: ParaKV/Lib/HashOrder
   layer: library
   digest: Hash sets whose iteration order is chosen by an arbitrary placement policy. -/

import Mathlib.Data.List.Perm.Basic
import Mathlib.Data.List.Nodup

set_option autoImplicit false

namespace ParaKV.Lib.HashOrder

variable {α : Type}

/-- What an implementation of hash sets decides. `place`: where a container with a given bucket
count and iteration order puts a new element, and the bucket count it has afterwards; any
rearrangement is allowed. `stale`: what an iterator reads from an element on that was erased under
it, when the set now has the first order and the element went to a set with the second; its node
was freed and may have become a node of that set. -/
structure HashPolicy (α : Type) where
  place : ℕ → List α → α → ℕ × List α
  place_perm : ∀ b l x, (place b l x).2.Perm (x :: l)
  stale : List α → List α → α → List α
  stale_mem : ∀ l r x, ∀ y ∈ stale l r x, y ∈ l ∨ y ∈ r

structure UnorderedSet (α : Type) where
  buckets : ℕ
  order : List α
  nodup : order.Nodup

namespace UnorderedSet

instance : Membership α (UnorderedSet α) := ⟨fun s x => x ∈ s.order⟩

instance [DecidableEq α] (x : α) (s : UnorderedSet α) : Decidable (x ∈ s) :=
  inferInstanceAs (Decidable (x ∈ s.order))

theorem mem_def {x : α} {s : UnorderedSet α} : x ∈ s ↔ x ∈ s.order := Iff.rfl

def empty : UnorderedSet α := ⟨1, [], List.nodup_nil⟩

def clear (s : UnorderedSet α) : UnorderedSet α := ⟨s.buckets, [], List.nodup_nil⟩

@[simp] theorem not_mem_clear {s : UnorderedSet α} {x : α} : x ∉ s.clear := by
  simp [mem_def, clear]

@[simp] theorem not_mem_empty {x : α} : x ∉ (empty : UnorderedSet α) := by
  simp [mem_def, empty]

variable [DecidableEq α]

def insert (h : HashPolicy α) (s : UnorderedSet α) (x : α) : UnorderedSet α :=
  if hx : x ∈ s.order then s
  else ⟨(h.place s.buckets s.order x).1, (h.place s.buckets s.order x).2,
    (h.place_perm _ _ _).nodup_iff.mpr (List.nodup_cons.mpr ⟨hx, s.nodup⟩)⟩

def erase (s : UnorderedSet α) (x : α) : UnorderedSet α :=
  ⟨s.buckets, s.order.erase x, s.nodup.erase x⟩

@[simp] theorem mem_insert {h : HashPolicy α} {s : UnorderedSet α} {x y : α} :
    y ∈ s.insert h x ↔ y = x ∨ y ∈ s := by
  unfold insert
  split
  · rename_i hx
    constructor
    · exact Or.inr
    · rintro (rfl | hy)
      · exact hx
      · exact hy
  · simp only [mem_def, (h.place_perm _ _ _).mem_iff, List.mem_cons]

@[simp] theorem mem_erase {s : UnorderedSet α} {x y : α} :
    y ∈ s.erase x ↔ y ≠ x ∧ y ∈ s := by
  simp only [mem_def, erase, s.nodup.mem_erase_iff]

theorem length_insert_le (h : HashPolicy α) (s : UnorderedSet α) (x : α) :
    (s.insert h x).order.length ≤ s.order.length + 1 := by
  unfold insert
  split
  · exact Nat.le_succ _
  · exact Nat.le_of_eq (h.place_perm _ _ _).length_eq

theorem length_erase_le (s : UnorderedSet α) (x : α) :
    (s.erase x).order.length ≤ s.order.length := List.length_erase_le

end UnorderedSet

/-- The policy that puts a new element first and never grows. The node of an erased element is the
next one that is allocated, so its iterator goes on in the set that the element went to. -/
def frontPolicy (α : Type) [DecidableEq α] : HashPolicy α where
  place b l x := (b, x :: l)
  place_perm _ _ _ := List.Perm.refl _
  stale _ r x := (r.dropWhile (· ≠ x)).tail
  stale_mem _ _ _ _ hy := Or.inr ((List.dropWhile_sublist _).mem (List.mem_of_mem_tail hy))

end ParaKV.Lib.HashOrder
