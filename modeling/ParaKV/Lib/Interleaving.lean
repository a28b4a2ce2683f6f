/- GID: ParaKV/Lib/Interleaving
   layer: library
   digest: Threads over a shared state, one step of one thread at a time, and a thread alone. -/

import ParaKV.Lib.StepRun
import Mathlib.Logic.Function.Basic
import Mathlib.Order.WellFounded

set_option autoImplicit false

namespace ParaKV.Lib.Interleaving

open Lib.StepRun

/-- The shared state and the point each thread is at. -/
structure Config (ι σ π : Type) where
  shared : σ
  pcs : ι → π

variable {ι σ π ρ : Type} [DecidableEq ι]

def Config.initial (s : σ) (pc : π) : Config ι σ π := ⟨s, fun _ => pc⟩

def turn (next : ι → σ → π → Option (π × σ)) (g : Config ι σ π) (t : ι) :
    Option (Config ι σ π) :=
  (next t g.shared (g.pcs t)).map fun r => ⟨r.2, Function.update g.pcs t r.1⟩

variable {next : ι → σ → π → Option (π × σ)} {g g' : Config ι σ π} {t : ι}

theorem turn_eq_some (h : turn next g t = some g') :
    ∃ pc, next t g.shared (g.pcs t) = some (pc, g'.shared) ∧
      g'.pcs = Function.update g.pcs t pc := by
  obtain ⟨r, hr, rfl⟩ := Option.map_eq_some_iff.mp h
  exact ⟨r.1, hr, rfl⟩

/-- A thread runs from `pc` to the point `done r` without another step in between. -/
inductive Alone (step : σ → π → Option (π × σ)) (done : ρ → π) : σ → π → ρ → σ → Prop
  | last {s s' : σ} {pc : π} {r : ρ} :
      step s pc = some (done r, s') → Alone step done s pc r s'
  | next {s s' s'' : σ} {pc pc' : π} {r : ρ} :
      step s pc = some (pc', s') → Alone step done s' pc' r s'' → Alone step done s pc r s''

theorem Alone.perform {done : ρ → π} {s s' : σ} {pc : π} {r : ρ}
    (h : Alone (next t) done s pc r s') :
    ∀ {g : Config ι σ π}, g.shared = s → g.pcs t = pc →
      ∃ m, perform (turn next) g (List.replicate m t) =
        some ⟨s', Function.update g.pcs t (done r)⟩ := by
  induction h with
  | last hlast =>
    rintro g rfl rfl
    refine ⟨1, ?_⟩
    simp [StepRun.perform, turn, hlast]
  | next hnext _ ih =>
    rintro g rfl rfl
    rename_i s₁ s₂ pc₁ r hrest
    obtain ⟨m, hm⟩ := ih (g := ⟨s₁, Function.update g.pcs t pc₁⟩) rfl (by simp)
    refine ⟨m + 1, ?_⟩
    simpa [List.replicate_succ, StepRun.perform, turn, hnext] using hm

/-! A machine that runs until it first has a result. -/

section Until

variable {γ : Type}

inductive Until (next : γ → Option γ) (result : γ → Option ρ) : γ → ρ → γ → Prop
  | last {g g' : γ} {r : ρ} : next g = some g' → result g' = some r → Until next result g r g'
  | next {g g' g'' : γ} {r : ρ} : next g = some g' → result g' = none →
      Until next result g' r g'' → Until next result g r g''

variable {next : γ → Option γ} {result : γ → Option ρ}
  {g g' g₁ : γ} {r : ρ}

theorem Until.starts (h : Until next result g r g') : next g ≠ none := by
  cases h with
  | last hnext _ => simp [hnext]
  | next hnext _ _ => simp [hnext]

theorem Until.result_eq (h : Until next result g r g') : result g' = some r := by
  induction h with
  | last _ hresult => exact hresult
  | next _ _ _ ih => exact ih

theorem until_step (hnext : next g = some g₁) (hresult : result g₁ = none) :
    Until next result g r g' ↔ Until next result g₁ r g' := by
  constructor
  · intro h
    cases h with
    | last hnext' hresult' =>
      obtain rfl := Option.some.inj (hnext.symm.trans hnext')
      cases hresult.symm.trans hresult'
    | next hnext' _ hrest =>
      obtain rfl := Option.some.inj (hnext.symm.trans hnext')
      exact hrest
  · exact .next hnext hresult

theorem exists_until {β : Type} [Preorder β] [WellFoundedLT β] {I : γ → Prop} {m : γ → β}
    (hnext : ∀ g, I g → result g = none → ∃ g', next g = some g' ∧ I g' ∧
      (result g' ≠ none ∨ m g' < m g)) (hI : I g) (hg : result g = none) :
    ∃ r g', Until next result g r g' := by
  have hcloser : ∀ b : β, ∀ g, m g = b → I g → result g = none →
      ∃ r g', Until next result g r g' := by
    intro b
    induction b using WellFoundedLT.induction with
    | ind b ih =>
      rintro g rfl hI hg
      obtain ⟨g', hstep, hI', hlt⟩ := hnext g hI hg
      cases hg' : result g' with
      | some r => exact ⟨r, g', .last hstep hg'⟩
      | none =>
        obtain ⟨r, g'', hrest⟩ := ih _ (hlt.resolve_left (not_not.mpr hg')) g' rfl hI' hg'
        exact ⟨r, g'', .next hstep hg' hrest⟩
  exact hcloser _ g rfl hI hg

end Until

end ParaKV.Lib.Interleaving
