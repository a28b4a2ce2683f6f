/- GID: ParaKV/Lib/LogMap
   layer: library
   digest: Finite maps replayed from a log of bindings obey a last-writer law. -/

import Mathlib.Data.Finmap

set_option autoImplicit false

namespace ParaKV.Lib.LogMap

variable {κ ν : Type} [DecidableEq κ]

/-- Finite maps from `κ` to `ν`, equal as soon as all lookups agree. -/
abbrev FMap (κ ν : Type) := Finmap (fun _ : κ => ν)

/-- A binding sets its key to a value, or removes it. -/
abbrev Binding (κ ν : Type) := κ × Option ν

def write (m : FMap κ ν) (b : Binding κ ν) : FMap κ ν :=
  match b.2 with
  | some a => m.insert b.1 a
  | none => m.erase b.1

def replay (m : FMap κ ν) (bs : List (Binding κ ν)) : FMap κ ν := bs.foldl write m

theorem lookup_insert_eq (m : FMap κ ν) (k k' : κ) (a : ν) :
    (m.insert k a).lookup k' = if k' = k then some a else m.lookup k' := by
  split_ifs with h
  · rw [h, Finmap.lookup_insert]
  · exact Finmap.lookup_insert_of_ne m h

theorem lookup_erase_eq (m : FMap κ ν) (k k' : κ) :
    (m.erase k).lookup k' = if k' = k then none else m.lookup k' := by
  split_ifs with h
  · rw [h, Finmap.lookup_erase]
  · exact Finmap.lookup_erase_ne h

theorem lookup_write (m : FMap κ ν) (b : Binding κ ν) (k : κ) :
    (write m b).lookup k = if k = b.1 then b.2 else m.lookup k := by
  obtain ⟨k', _ | a⟩ := b
  · exact lookup_erase_eq m k' k
  · exact lookup_insert_eq m k' k a

@[simp] theorem replay_nil (m : FMap κ ν) : replay m [] = m := rfl

@[simp] theorem replay_cons (m : FMap κ ν) (b : Binding κ ν) (bs : List (Binding κ ν)) :
    replay m (b :: bs) = replay (write m b) bs := rfl

theorem replay_append (m : FMap κ ν) (bs cs : List (Binding κ ν)) :
    replay m (bs ++ cs) = replay (replay m bs) cs :=
  List.foldl_append

theorem lookup_replay_untouched (m : FMap κ ν) (bs : List (Binding κ ν)) (k : κ)
    (h : k ∉ bs.map Prod.fst) : (replay m bs).lookup k = m.lookup k := by
  induction bs generalizing m with
  | nil => rfl
  | cons b bs ih =>
    simp only [List.map_cons, List.mem_cons, not_or] at h
    rw [replay_cons, ih _ h.2, lookup_write, if_neg h.1]

theorem lookup_replay_congr (m m' : FMap κ ν) (bs : List (Binding κ ν)) (k : κ)
    (h : k ∈ bs.map Prod.fst ∨ m.lookup k = m'.lookup k) :
    (replay m bs).lookup k = (replay m' bs).lookup k := by
  induction bs generalizing m m' with
  | nil => exact h.resolve_left (by simp)
  | cons b bs ih =>
    apply ih
    by_cases hk : k = b.1
    · right
      simp only [lookup_write, if_pos hk]
    · rcases h with h | h
      · exact Or.inl (by simpa [hk] using h)
      · right
        simp only [lookup_write, if_neg hk, h]

theorem lookup_replay_cases (m m' : FMap κ ν) (bs : List (Binding κ ν)) (k : κ) :
    (replay m' bs).lookup k = (replay m bs).lookup k ∨
      (replay m' bs).lookup k = m'.lookup k := by
  by_cases h : k ∈ bs.map Prod.fst
  · exact Or.inl (lookup_replay_congr m' m bs k (Or.inl h))
  · exact Or.inr (lookup_replay_untouched m' bs k h)

/-- A binding may be written before those that precede it, if none of them is of its key. -/
theorem replay_hoist (m : FMap κ ν) {bs : List (Binding κ ν)} {b : Binding κ ν}
    (cs : List (Binding κ ν)) (h : b.1 ∉ bs.map Prod.fst) :
    replay m (bs ++ b :: cs) = replay (write m b) (bs ++ cs) := by
  have hcomm : write (replay m bs) b = replay (write m b) bs := by
    refine Finmap.ext_lookup fun k => ?_
    rw [lookup_write]
    by_cases hk : k = b.1
    · rw [if_pos hk, lookup_replay_untouched _ _ _ (hk ▸ h), lookup_write, if_pos hk]
    · rw [if_neg hk]
      refine lookup_replay_congr _ _ _ _ (Or.inr ?_)
      rw [lookup_write, if_neg hk]
  rw [replay_append, replay_cons, hcomm, replay_append]

theorem lookup_replay_drop (m : FMap κ ν) {bs : List (Binding κ ν)} {b : Binding κ ν}
    (cs : List (Binding κ ν)) (h : b.1 ∉ bs.map Prod.fst) {k : κ}
    (hstart : k = b.1 → m.lookup k = (replay m (bs ++ b :: cs)).lookup k) :
    (replay m (bs ++ cs)).lookup k = (replay m (bs ++ b :: cs)).lookup k := by
  by_cases hk : k = b.1
  · by_cases hmem : k ∈ (bs ++ cs).map Prod.fst
    · rw [replay_hoist m cs h]
      exact lookup_replay_congr _ _ _ _ (Or.inl hmem)
    · rw [lookup_replay_untouched _ _ _ hmem]
      exact hstart hk
  · rw [replay_hoist m cs h]
    refine lookup_replay_congr _ _ _ _ (Or.inr ?_)
    rw [lookup_write, if_neg hk]

/-! Parts of maps. -/

def restrict (p : κ → Prop) [DecidablePred p] (m : FMap κ ν) : FMap κ ν :=
  ⟨m.entries.filter fun e => p e.1, Multiset.nodup_keys.mp (Multiset.nodup_of_le
    (Multiset.map_le_map (Multiset.filter_le _ _)) m.nodupKeys.nodup_keys)⟩

theorem lookup_restrict (p : κ → Prop) [DecidablePred p] (m : FMap κ ν) (k : κ) :
    (restrict p m).lookup k = if p k then m.lookup k else none := by
  ext a
  rw [Finmap.lookup_eq_some_iff]
  simp only [restrict, Multiset.mem_filter]
  split_ifs with hp
  · rw [Finmap.lookup_eq_some_iff]
    exact and_iff_left hp
  · simp [hp]

/-- The map `m` on the keys in `p` and `n` on the others. -/
def graft (p : κ → Prop) [DecidablePred p] (m n : FMap κ ν) : FMap κ ν :=
  restrict p m ∪ restrict (fun k => ¬ p k) n

theorem lookup_graft (p : κ → Prop) [DecidablePred p] (m n : FMap κ ν) (k : κ) :
    (graft p m n).lookup k = if p k then m.lookup k else n.lookup k := by
  unfold graft
  by_cases hp : p k
  · rw [Finmap.lookup_union_left_of_not_in, lookup_restrict, if_pos hp, if_pos hp]
    rw [← Finmap.lookup_eq_none, lookup_restrict, if_neg (not_not.mpr hp)]
  · rw [Finmap.lookup_union_right, lookup_restrict, if_neg hp, if_pos hp]
    rw [← Finmap.lookup_eq_none, lookup_restrict, if_neg hp]

end ParaKV.Lib.LogMap
