/- GID: ParaKV/Lib/OwnedSlots
   layer: library
   digest: An index into a store of keyed cells, where every entry points at a cell of its key. -/

import Mathlib.Logic.Function.Basic
import Mathlib.Data.Option.Basic

set_option autoImplicit false

namespace ParaKV.Lib.OwnedSlots

variable {κ α ν : Type}

/-- Every entry points at an occupied cell that stores its key. -/
def Owns (ix : κ → Option α) (st : α → Option (κ × ν)) : Prop :=
  ∀ k a, ix k = some a → ∃ v, st a = some (k, v)

def content (ix : κ → Option α) (st : α → Option (κ × ν)) (k : κ) : Option ν :=
  (ix k).bind fun a => (st a).map Prod.snd

def Stores (H : κ → ν → Prop) (st : α → Option (κ × ν)) : Prop :=
  ∀ a k v, st a = some (k, v) → H k v

def Fills (ix : κ → Option α) (st : α → Option (κ × ν)) : Prop :=
  ∀ a k v, st a = some (k, v) → ix k = some a

def Avoids (ix : κ → Option α) (X : α → Prop) : Prop := ∀ k a, ix k = some a → ¬ X a

variable {ix ix' : κ → Option α} {st st' : α → Option (κ × ν)} {k : κ} {a : α} {v : ν}
variable {X : α → Prop}

theorem content_of_entry (hix : ix k = some a) (hst : st a = some (k, v)) :
    content ix st k = some v := by
  simp [content, hix, hst]

theorem content_none (hix : ix k = none) : content ix st k = none := by
  simp [content, hix]

theorem Owns.content_isSome (h : Owns ix st) (hix : ix k = some a) :
    ∃ v, st a = some (k, v) ∧ content ix st k = some v := by
  obtain ⟨v, hv⟩ := h k a hix
  exact ⟨v, hv, content_of_entry hix hv⟩

theorem Owns.mem_of_content {H : κ → ν → Prop} (h : Owns ix st) (hH : Stores H st)
    (hc : content ix st k = some v) : H k v := by
  cases hix : ix k with
  | none => rw [content_none hix] at hc; cases hc
  | some a =>
    obtain ⟨u, hu, hcu⟩ := h.content_isSome hix
    obtain rfl : u = v := Option.some.inj (hcu.symm.trans hc)
    exact hH a k u hu

theorem Owns.not_vacant (h : Owns ix st) (hst : st a = none) (k : κ) : ix k ≠ some a := by
  intro hix
  obtain ⟨v, hv⟩ := h k a hix
  rw [hst] at hv
  cases hv

theorem Owns.avoids_vacant (h : Owns ix st) (hX : ∀ a, X a → st a = none) : Avoids ix X :=
  fun k a hix hx => h.not_vacant (hX a hx) k hix

theorem Owns.key_eq {k' : κ} (h : Owns ix st) (hst : st a = some (k, v))
    (hix : ix k' = some a) : k' = k := by
  obtain ⟨u, hu⟩ := h k' a hix
  rw [hst] at hu
  cases hu
  rfl

theorem Owns.avoids_cell (h : Owns ix st) (hst : st a = some (k, v)) (hne : ix k ≠ some a) :
    Avoids ix (· = a) := by
  rintro k' b hix rfl
  exact hne (h.key_eq hst hix ▸ hix)

/-! Changes of the store that the index does not see. -/

theorem Owns.frame (h : Owns ix st) (havoid : Avoids ix X)
    (hst : ∀ a, ¬ X a → st' a = st a) : Owns ix st' := by
  intro k a hix
  rw [hst a (havoid k a hix)]
  exact h k a hix

theorem content_frame (havoid : Avoids ix X) (hst : ∀ a, ¬ X a → st' a = st a) :
    content ix st' = content ix st := by
  funext k
  unfold content
  cases hix : ix k with
  | none => rfl
  | some a => simp [hst a (havoid k a hix)]

/-! Changes of the index. -/

variable [DecidableEq κ]

theorem Owns.set (h : Owns ix st) (hst : st a = some (k, v)) :
    Owns (Function.update ix k (some a)) st := by
  intro k' b hix
  by_cases hk : k' = k
  · subst hk
    rw [Function.update_self] at hix
    cases hix
    exact ⟨v, hst⟩
  · rw [Function.update_of_ne hk] at hix
    exact h k' b hix

theorem Owns.unset (h : Owns ix st) (k : κ) : Owns (Function.update ix k none) st := by
  intro k' b hix
  by_cases hk : k' = k
  · subst hk
    simp at hix
  · rw [Function.update_of_ne hk] at hix
    exact h k' b hix

theorem content_set (hst : st a = some (k, v)) :
    content (Function.update ix k (some a)) st = Function.update (content ix st) k (some v) := by
  funext k'
  by_cases hk : k' = k
  · subst hk
    simp [content, hst]
  · simp [content, hk]

theorem content_unset (k : κ) :
    content (Function.update ix k none) st = Function.update (content ix st) k none := by
  funext k'
  by_cases hk : k' = k
  · subst hk
    simp [content]
  · simp [content, hk]

theorem Fills.update (h : Fills ix st) {new : Option α}
    (hst : ∀ b k' v', st' b = some (k', v') →
      (new = some b ∧ k' = k) ∨ (ix k ≠ some b ∧ st b = some (k', v'))) :
    Fills (Function.update ix k new) st' := by
  intro b k' v' hb
  rcases hst b k' v' hb with ⟨hnew, rfl⟩ | ⟨hne, hold⟩
  · rw [Function.update_self, hnew]
  · have hix := h b k' v' hold
    have hk : k' ≠ k := by
      rintro rfl
      exact hne hix
    rw [Function.update_of_ne hk, hix]

theorem content_move {b : α} (hix : ix k = some b) (hb : st b = some (k, v))
    (ha : st a = some (k, v)) : content (Function.update ix k (some a)) st = content ix st := by
  rw [content_set ha]
  exact Function.update_eq_self_iff.mpr (content_of_entry hix hb).symm

end ParaKV.Lib.OwnedSlots
