/- GID: ParaKV/Lib/Fairness
   layer: library
   digest: Endless schedules of a step function, fairness, and progress by a variant. -/

import Mathlib.Order.WellFounded
import Mathlib.Order.Monotone.Basic
import Mathlib.Tactic.Common

set_option autoImplicit false

namespace ParaKV.Lib.Fairness

variable {σ α β : Type} {step : σ → α → Option σ} {s : σ} {act : ℕ → α} {a : α}

/-- One turn. An action that cannot step waits for another turn. -/
def attempt (step : σ → α → Option σ) (s : σ) (a : α) : σ := (step s a).getD s

def stateAt (step : σ → α → Option σ) (s : σ) (act : ℕ → α) : ℕ → σ
  | 0 => s
  | i + 1 => attempt step (stateAt step s act i) (act i)

def Recurs (p : ℕ → Prop) : Prop := ∀ i, ∃ j ≥ i, p j

/-- An action that can step again and again does so again and again. -/
def StronglyFair (step : σ → α → Option σ) (s : σ) (act : ℕ → α) (a : α) : Prop :=
  Recurs (fun i => step (stateAt step s act i) a ≠ none) →
    Recurs fun i => act i = a ∧ step (stateAt step s act i) a ≠ none

theorem stateAt_succ_of_eq {i : ℕ} {s' : σ}
    (h : step (stateAt step s act i) (act i) = some s') : stateAt step s act (i + 1) = s' := by
  simp [stateAt, attempt, h]

theorem stateAt_succ_cases (step : σ → α → Option σ) (s : σ) (act : ℕ → α) (i : ℕ) :
    step (stateAt step s act i) (act i) = some (stateAt step s act (i + 1)) ∨
      stateAt step s act (i + 1) = stateAt step s act i := by
  cases h : step (stateAt step s act i) (act i) with
  | none => exact Or.inr (by simp [stateAt, attempt, h])
  | some s' => exact Or.inl (by rw [stateAt_succ_of_eq h])

theorem stateAt_invariant {I : σ → Prop} {i j : ℕ} (hi : I (stateAt step s act i))
    (hstep : ∀ k ≥ i, ∀ s', I (stateAt step s act k) →
      step (stateAt step s act k) (act k) = some s' → I s') (hj : i ≤ j) :
    I (stateAt step s act j) := by
  induction j, hj using Nat.le_induction with
  | base => exact hi
  | succ k hk ih =>
    rcases stateAt_succ_cases step s act k with h | h
    · exact hstep k hk _ ih h
    · rw [h]
      exact ih

section Progress

variable {I : σ → Prop} (hI : ∀ i, I (stateAt step s act i))

include hI

theorem stateAt_le [Preorder β] {m : σ → β} {i : ℕ}
    (hstep : ∀ k ≥ i, ∀ s', I (stateAt step s act k) →
      step (stateAt step s act k) (act k) = some s' → m s' ≤ m (stateAt step s act k))
    {j : ℕ} (hj : i ≤ j) : m (stateAt step s act j) ≤ m (stateAt step s act i) :=
  stateAt_invariant (I := fun s' => m s' ≤ m (stateAt step s act i)) (le_refl _)
    (fun k hk s' hle hs' => (hstep k hk s' (hI k) hs').trans hle) hj

/-- An action that gets its turn again and again and can step until `p` holds, coming closer to
it with each step, brings `p` about again and again. -/
theorem recurs_of_variant [Preorder β] [WellFoundedLT β] {p : σ → Prop} {r : σ → β}
    (hstep : ∀ s b s', I s → ¬ p s → step s b = some s' → p s' ∨ r s' ≤ r s)
    (hact : ∀ s, I s → ¬ p s → ∃ s', step s a = some s' ∧ (p s' ∨ r s' < r s))
    (hturn : Recurs fun i => act i = a) : Recurs fun i => p (stateAt step s act i) := by
  have hcloser : ∀ b : β, ∀ i, r (stateAt step s act i) = b →
      ∃ j ≥ i, p (stateAt step s act j) := by
    intro b
    induction b using WellFoundedLT.induction with
    | ind b ih =>
      rintro i rfl
      by_contra hnever
      have hp : ∀ k ≥ i, ¬ p (stateAt step s act k) := fun k hk h => hnever ⟨k, hk, h⟩
      obtain ⟨j, hj, rfl⟩ := hturn i
      have hle : r (stateAt step s act j) ≤ r (stateAt step s act i) := by
        refine stateAt_le hI (fun k hk s' hs hs' => ?_) hj
        rcases hstep _ _ _ hs (hp k hk) hs' with h | h
        · exact (hp (k + 1) (Nat.le_succ_of_le hk) (stateAt_succ_of_eq hs' ▸ h)).elim
        · exact h
      obtain ⟨s', hs', hlt⟩ := hact _ (hI j) (hp j hj)
      have hnext : stateAt step s act (j + 1) = s' := stateAt_succ_of_eq hs'
      rcases hlt with h | hlt
      · exact hp (j + 1) (Nat.le_succ_of_le hj) (hnext ▸ h)
      · obtain ⟨k, hk, h⟩ := ih _ (hlt.trans_le hle) (j + 1) (by rw [hnext])
        exact hp k (by omega) h
  exact fun i => hcloser _ i rfl

theorem stays_zero {m : σ → ℕ} (hle : ∀ s b s', I s → step s b = some s' → m s' ≤ m s) {i j : ℕ}
    (hzero : m (stateAt step s act i) = 0) (hj : i ≤ j) : m (stateAt step s act j) = 0 :=
  Nat.le_zero.mp (hzero ▸ stateAt_le (m := m) hI (fun _ _ _ hs hs' => hle _ _ _ hs hs') hj)

/-- A strongly fair action whose steps use up a measure, and that can step again and again until
the measure is zero, uses it up. -/
theorem StronglyFair.exhausts (hfair : StronglyFair step s act a) {m : σ → ℕ}
    (hle : ∀ s b s', I s → step s b = some s' → m s' ≤ m s)
    (hlt : ∀ s s', I s → step s a = some s' → m s' < m s)
    (hable : Recurs fun i =>
      m (stateAt step s act i) = 0 ∨ step (stateAt step s act i) a ≠ none) :
    ∃ i, ∀ j ≥ i, m (stateAt step s act j) = 0 := by
  by_cases hzero : ∃ i, m (stateAt step s act i) = 0
  · obtain ⟨i, hi⟩ := hzero
    exact ⟨i, fun j hj => stays_zero hI hle hi hj⟩
  · have htaken : Recurs fun i => act i = a ∧ step (stateAt step s act i) a ≠ none := by
      refine hfair fun i => ?_
      obtain ⟨j, hj, h⟩ := hable i
      exact ⟨j, hj, h.resolve_left fun h => hzero ⟨j, h⟩⟩
    -- each time the action is taken the measure goes down, and it never goes up
    have hdescent : ∀ b i, m (stateAt step s act i) ≠ b := by
      intro b
      induction b using Nat.strong_induction_on with
      | _ b ih =>
        rintro i rfl
        obtain ⟨j, hj, rfl, henabled⟩ := htaken i
        obtain ⟨s', hs'⟩ := Option.ne_none_iff_exists'.mp henabled
        have hdown := hlt _ _ (hI j) hs'
        rw [← stateAt_succ_of_eq hs'] at hdown
        have hbelow : m (stateAt step s act j) ≤ m (stateAt step s act i) :=
          stateAt_le (m := m) hI (fun _ _ _ hs hs' => hle _ _ _ hs hs') hj
        exact ih _ (hdown.trans_le hbelow) (j + 1) rfl
    exact (hdescent _ 0 rfl).elim

end Progress

end ParaKV.Lib.Fairness
