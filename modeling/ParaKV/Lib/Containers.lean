/- GID: ParaKV/Lib/Containers
   layer: library
   digest: A list whose positions stay valid while its nodes are moved, and a sorted multimap. -/

import Mathlib.Data.List.Sort
import Mathlib.Data.List.Nodup
import Mathlib.Order.Basic

set_option autoImplicit false

namespace ParaKV.Lib.Containers

/-! Nodes in a list. A position is a node or, as `none`, the end of the list. -/

section StableList

variable {α : Type} [DecidableEq α]

def insertBefore (l : List α) (pos : Option α) (x : α) : List α :=
  match pos with
  | none => l ++ [x]
  | some p => l.takeWhile (· ≠ p) ++ x :: l.dropWhile (· ≠ p)

/-- The node `x` is moved before another position. -/
def splice (l : List α) (pos : Option α) (x : α) : List α := insertBefore (l.erase x) pos x

def prev (l : List α) (pos : Option α) : Option α :=
  match pos with
  | none => l.getLast?
  | some p => (l.takeWhile (· ≠ p)).getLast?

def next (l : List α) (x : α) : Option α := (l.dropWhile (· ≠ x)).tail.head?

variable {a b : List α} {x p : α}

theorem takeWhile_ne_append (h : p ∉ a) : (a ++ p :: b).takeWhile (· ≠ p) = a := by
  induction a with
  | nil => simp
  | cons y a ih =>
    have hy : y ≠ p := fun heq => h (heq ▸ List.mem_cons_self)
    simpa [hy] using ih fun hp => h (List.mem_cons_of_mem _ hp)

theorem dropWhile_ne_append (h : p ∉ a) : (a ++ p :: b).dropWhile (· ≠ p) = p :: b := by
  induction a with
  | nil => simp
  | cons y a ih =>
    have hy : y ≠ p := fun heq => h (heq ▸ List.mem_cons_self)
    simpa [hy] using ih fun hp => h (List.mem_cons_of_mem _ hp)

omit [DecidableEq α] in
theorem splitWhile_congr {l : List α} {f g : α → Bool} (h : ∀ y ∈ l, f y = g y) :
    l.takeWhile f = l.takeWhile g ∧ l.dropWhile f = l.dropWhile g := by
  induction l with
  | nil => exact ⟨rfl, rfl⟩
  | cons y l ih =>
    obtain ⟨htake, hdrop⟩ := ih fun z hz => h z (List.mem_cons_of_mem _ hz)
    rw [List.takeWhile_cons, List.takeWhile_cons, List.dropWhile_cons, List.dropWhile_cons,
      h y List.mem_cons_self, htake, hdrop]
    exact ⟨rfl, rfl⟩

omit [DecidableEq α] in
theorem notMem_left (h : (a ++ p :: b).Nodup) : p ∉ a := fun hp =>
  List.disjoint_of_nodup_append h hp List.mem_cons_self

theorem insertBefore_append (h : (a ++ b).Nodup) :
    insertBefore (a ++ b) b.head? x = a ++ x :: b := by
  cases b with
  | nil => simp [insertBefore]
  | cons p b =>
    have hp := notMem_left h
    simp only [insertBefore, List.head?_cons, takeWhile_ne_append hp, dropWhile_ne_append hp]

theorem prev_append (h : (a ++ b).Nodup) : prev (a ++ b) b.head? = a.getLast? := by
  cases b with
  | nil => simp [prev]
  | cons p b => simp only [prev, List.head?_cons, takeWhile_ne_append (notMem_left h)]

theorem next_append (h : (a ++ x :: b).Nodup) : next (a ++ x :: b) x = b.head? := by
  rw [next, dropWhile_ne_append (notMem_left h), List.tail_cons]

theorem splice_append (h : (a ++ b).Nodup) (hx : x ∈ a) :
    splice (a ++ b) b.head? x = a.erase x ++ x :: b := by
  have hsub : (a.erase x ++ b).Nodup :=
    h.sublist ((List.erase_sublist).append_right b)
  rw [splice, List.erase_append_left b hx, insertBefore_append hsub]

end StableList

/-! A multimap: equal keys stay in the order in which they came. -/

section Multimap

variable {κ β : Type} [LinearOrder κ]

def emplace (m : List (κ × β)) (k : κ) (v : β) : List (κ × β) :=
  m.orderedInsert (fun x y => x.1 < y.1) (k, v)

def SortedKeys (m : List (κ × β)) : Prop := m.Pairwise fun x y => x.1 ≤ y.1

theorem emplace_perm (m : List (κ × β)) (k : κ) (v : β) : (emplace m k v).Perm ((k, v) :: m) :=
  List.perm_orderedInsert _ _ _

theorem SortedKeys.emplace {m : List (κ × β)} (h : SortedKeys m) (k : κ) (v : β) :
    SortedKeys (emplace m k v) := by
  induction m with
  | nil => simp [Containers.emplace, SortedKeys]
  | cons y m ih =>
    obtain ⟨hy, hm⟩ := List.pairwise_cons.mp h
    unfold Containers.emplace
    rw [List.orderedInsert_cons]
    split_ifs with hlt
    · refine List.pairwise_cons.mpr ⟨fun z hz => ?_, h⟩
      rcases List.mem_cons.mp hz with rfl | hz
      · exact hlt.le
      · exact hlt.le.trans (hy z hz)
    · refine List.pairwise_cons.mpr ⟨fun z hz => ?_, ih hm⟩
      rcases List.mem_cons.mp ((emplace_perm m k v).mem_iff.mp hz) with rfl | hz
      · exact not_lt.mp hlt
      · exact hy z hz

theorem SortedKeys.erase [DecidableEq β] {m : List (κ × β)} (h : SortedKeys m) (x : κ × β) :
    SortedKeys (m.erase x) :=
  h.sublist List.erase_sublist

theorem SortedKeys.head_le {m : List (κ × β)} (h : SortedKeys m) {x y : κ × β}
    (hx : m.head? = some x) (hy : y ∈ m) : x.1 ≤ y.1 := by
  cases m with
  | nil => cases hx
  | cons z m =>
    obtain rfl : z = x := Option.some.inj hx
    rcases List.mem_cons.mp hy with rfl | hy
    · exact le_refl _
    · exact (List.pairwise_cons.mp h).1 y hy

end Multimap

end ParaKV.Lib.Containers
