/- GID: ParaKV/Lib/Transducer
   layer: library
   digest: Machines that answer one request after the other, and relations between two of them. -/

import Mathlib.Logic.Basic
import Mathlib.Tactic.Common

set_option autoImplicit false

namespace ParaKV.Lib.Transducer

variable {σ τ ι ρ : Type}

/-- The answers to a list of requests, in order, and the state after the last. -/
def serveAll (serve : σ → ι → ρ × σ) : σ → List ι → List ρ × σ
  | s, [] => ([], s)
  | s, x :: xs =>
    let rest := serveAll serve (serve s x).2 xs
    ((serve s x).1 :: rest.1, rest.2)

variable {serve : σ → ι → ρ × σ} {serve' : τ → ι → ρ × τ}

theorem serveAll_append (s : σ) (xs ys : List ι) :
    serveAll serve s (xs ++ ys) =
      ((serveAll serve s xs).1 ++ (serveAll serve (serveAll serve s xs).2 ys).1,
        (serveAll serve (serveAll serve s xs).2 ys).2) := by
  induction xs generalizing s with
  | nil => rfl
  | cons x xs ih => simp [serveAll, ih]

/-- Machines that answer alike in related states, and stay related, as long as the requests and
the answers of the first meet a condition, answer alike over runs. -/
theorem serveAll_agree {R : σ → τ → Prop} (ok : ι → ρ → Prop)
    (hstep : ∀ s t x, R s t → ok x (serve s x).1 →
      (serve s x).1 = (serve' t x).1 ∧ R (serve s x).2 (serve' t x).2)
    {s : σ} {t : τ} (h : R s t) (xs : List ι)
    (hok : ∀ p ∈ xs.zip (serveAll serve s xs).1, ok p.1 p.2) :
    (serveAll serve s xs).1 = (serveAll serve' t xs).1 ∧
      R (serveAll serve s xs).2 (serveAll serve' t xs).2 := by
  induction xs generalizing s t with
  | nil => exact ⟨rfl, h⟩
  | cons x xs ih =>
    obtain ⟨hreply, hnext⟩ := hstep s t x h (hok _ List.mem_cons_self)
    obtain ⟨hrest, hlast⟩ := ih hnext fun p hp => hok p (List.mem_cons_of_mem _ hp)
    refine ⟨?_, hlast⟩
    simp only [serveAll, hreply, hrest]

/-- A machine seen through `view`: requests that are not `mine` keep the view, and those that are
depend on nothing else. Then the answers to mine are those of a run without the others. -/
theorem serveAll_project (view : σ → τ) (mine : ι → Bool) {xs : List ι}
    (hother : ∀ s, ∀ x ∈ xs, mine x = false → view (serve s x).2 = view s)
    (hmine : ∀ s t x, mine x = true → view s = view t →
      (serve s x).1 = (serve t x).1 ∧ view (serve s x).2 = view (serve t x).2)
    {s t : σ} (h : view s = view t) :
    ((xs.zip (serveAll serve s xs).1).filter fun p => mine p.1).map Prod.snd =
        (serveAll serve t (xs.filter mine)).1 ∧
      view (serveAll serve s xs).2 = view (serveAll serve t (xs.filter mine)).2 := by
  induction xs generalizing s t with
  | nil => exact ⟨rfl, h⟩
  | cons x xs ih =>
    have ih := fun {s t} =>
      ih (s := s) (t := t) fun s y hy => hother s y (List.mem_cons_of_mem x hy)
    cases hx : mine x with
    | false =>
      obtain ⟨hrest, hlast⟩ := ih ((hother s x List.mem_cons_self hx).trans h)
      simpa [serveAll, hx] using ⟨hrest, hlast⟩
    | true =>
      obtain ⟨hreply, hnext⟩ := hmine s t x hx h
      obtain ⟨hrest, hlast⟩ := ih hnext
      simpa [serveAll, hx, hreply] using ⟨hrest, hlast⟩

/-! Machines whose answers are not determined. -/

section Behaves

/-- The requests, their answers and the states at both ends of a run. -/
inductive Behaves (step : τ → ι → ρ → τ → Prop) : τ → List ι → List ρ → τ → Prop
  | nil (t : τ) : Behaves step t [] [] t
  | cons {t t' t'' : τ} {x : ι} {r : ρ} {xs : List ι} {rs : List ρ} :
      step t x r t' → Behaves step t' xs rs t'' → Behaves step t (x :: xs) (r :: rs) t''

variable {step : τ → ι → ρ → τ → Prop}

theorem Behaves.concat {t t' t'' : τ} {xs : List ι} {rs : List ρ} {x : ι} {r : ρ}
    (h : Behaves step t xs rs t') (hlast : step t' x r t'') :
    Behaves step t (xs ++ [x]) (rs ++ [r]) t'' := by
  induction h with
  | nil t => exact .cons hlast (.nil _)
  | cons hstep _ ih => exact .cons hstep (ih hlast)

/-- Answers that each step of the second machine can give in related states make a run of it. -/
theorem serveAll_behaves (R : σ → τ → Prop) {xs : List ι}
    (hstep : ∀ s t, ∀ x ∈ xs, R s t → ∃ t', step t x (serve s x).1 t' ∧ R (serve s x).2 t')
    {s : σ} {t : τ} (h : R s t) :
    ∃ t', Behaves step t xs (serveAll serve s xs).1 t' ∧ R (serveAll serve s xs).2 t' := by
  induction xs generalizing s t with
  | nil => exact ⟨t, .nil t, h⟩
  | cons x xs ih =>
    obtain ⟨t', hfirst, hnext⟩ := hstep s t x List.mem_cons_self h
    obtain ⟨t'', hrest, hlast⟩ := ih (fun s t y hy => hstep s t y (List.mem_cons_of_mem x hy)) hnext
    exact ⟨t'', .cons hfirst hrest, hlast⟩

/-- A run of a machine that does not take every request in every state. -/
def performAll (next : σ → ι → Option (ρ × σ)) : σ → List ι → Option (List ρ × σ)
  | s, [] => some ([], s)
  | s, x :: xs =>
    (next s x).bind fun r => (performAll next r.2 xs).map fun rest => (r.1 :: rest.1, rest.2)

theorem performAll_behaves {next : σ → ι → Option (ρ × σ)} (R : σ → τ → Prop) {xs : List ι}
    (hstep : ∀ s t, ∀ x ∈ xs, R s t → ∀ r, next s x = some r → ∃ t', step t x r.1 t' ∧ R r.2 t')
    {s : σ} {t : τ} {r : List ρ × σ} (hrun : performAll next s xs = some r) (h : R s t) :
    ∃ t', Behaves step t xs r.1 t' ∧ R r.2 t' := by
  induction xs generalizing s t r with
  | nil =>
    obtain rfl := Option.some.inj hrun
    exact ⟨t, .nil t, h⟩
  | cons x xs ih =>
    obtain ⟨first, hfirst, hmap⟩ := Option.bind_eq_some_iff.mp hrun
    obtain ⟨rest, hrest, rfl⟩ := Option.map_eq_some_iff.mp hmap
    obtain ⟨t₁, hanswer, hnext⟩ := hstep s t x List.mem_cons_self h first hfirst
    obtain ⟨t', hbehaves, hlast⟩ :=
      ih (fun s t y hy => hstep s t y (List.mem_cons_of_mem x hy)) hrest hnext
    exact ⟨t', .cons hanswer hbehaves, hlast⟩

end Behaves

end ParaKV.Lib.Transducer
