/- GID: ParaKV/Lib/StepRun
   layer: library
   digest: Runs of a partial step function whose steps meet a guard, and their invariant rule. -/

import Mathlib.Logic.Basic
import Mathlib.Tactic.Common

set_option autoImplicit false

namespace ParaKV.Lib.StepRun

variable {σ α : Type}

/-- The states reached from `s₀` by performing the listed actions, each of them enabled
and each meeting the guard in the state before it. -/
inductive GuardedRun (step : σ → α → Option σ) (guard : σ → α → Prop) (s₀ : σ) :
    List α → σ → Prop
  | init : GuardedRun step guard s₀ [] s₀
  | step {as : List α} {s s' : σ} {a : α} :
      GuardedRun step guard s₀ as s → guard s a → step s a = some s' →
      GuardedRun step guard s₀ (as ++ [a]) s'

/-- The unguarded execution of a list of actions. -/
def perform (step : σ → α → Option σ) : σ → List α → Option σ
  | s, [] => some s
  | s, a :: as => (step s a).bind (perform step · as)

variable {step : σ → α → Option σ} {guard : σ → α → Prop} {s₀ : σ}

/-- An invariant that may mention the actions performed so far. -/
theorem GuardedRun.invariant {I : List α → σ → Prop} (h₀ : I [] s₀)
    (hstep : ∀ as s a s', I as s → guard s a → step s a = some s' → I (as ++ [a]) s')
    {as : List α} {s : σ} (h : GuardedRun step guard s₀ as s) : I as s := by
  induction h with
  | init => exact h₀
  | step _ hg hs ih => exact hstep _ _ _ _ ih hg hs

/-- Execution that stops at an action that misses the guard. -/
def performGuarded (step : σ → α → Option σ) (guard : σ → α → Prop)
    [∀ s a, Decidable (guard s a)] : σ → List α → Option σ
  | s, [] => some s
  | s, a :: as => if guard s a then (step s a).bind (performGuarded step guard · as) else none

theorem performGuarded_run [∀ s a, Decidable (guard s a)] {as bs : List α} {s s' : σ}
    (hrun : GuardedRun step guard s₀ as s) (h : performGuarded step guard s bs = some s') :
    GuardedRun step guard s₀ (as ++ bs) s' := by
  induction bs generalizing as s with
  | nil =>
    obtain rfl : s = s' := by simpa [performGuarded] using h
    simpa using hrun
  | cons b bs ih =>
    unfold performGuarded at h
    split_ifs at h with hguard
    obtain ⟨t, ht, hrest⟩ := Option.bind_eq_some_iff.mp h
    simpa using ih (hrun.step hguard ht) hrest

theorem exists_guardedRun {β : Type} [∀ s a, Decidable (guard s a)] {as : List α}
    {f : σ → β} {b : β} (h : (performGuarded step guard s₀ as).map f = some b) :
    ∃ s, GuardedRun step guard s₀ as s ∧ f s = b := by
  obtain ⟨s, hs, hf⟩ := Option.map_eq_some_iff.mp h
  exact ⟨s, by simpa using performGuarded_run .init hs, hf⟩

end ParaKV.Lib.StepRun
