/- GID: ParaKV/Lib/TracedProgram
   layer: library
   digest: State programs over a stream of operation outcomes, with guarded traces and triples. -/

import Mathlib.Logic.Basic
import Mathlib.Tactic.Common

set_option autoImplicit false

namespace ParaKV.Lib.TracedProgram

variable {σ ε φ α β : Type}

/-- One execution: the number of outcomes drawn, the events passed in order, the
returned value and the final state. -/
structure Outcome (σ ε α : Type) where
  used : ℕ
  trace : List ε
  val : α
  state : σ

/-- A program draws the outcomes of its external operations from a stream, so the
same text describes the failing and the successful executions. -/
def Prog (σ ε φ α : Type) : Type := (ℕ → φ) → σ → Outcome σ ε α

namespace Prog

instance : Monad (Prog σ ε φ) where
  pure a := fun _ s => ⟨0, [], a, s⟩
  bind m f := fun io s =>
    let o := m io s
    let o' := f o.val (fun n => io (n + o.used)) o.state
    ⟨o.used + o'.used, o.trace ++ o'.trace, o'.val, o'.state⟩
  map f m := fun io s => { m io s with val := f (m io s).val }

instance : MonadStateOf σ (Prog σ ε φ) where
  get := fun _ s => ⟨0, [], s, s⟩
  set s' := fun _ _ => ⟨0, [], PUnit.unit, s'⟩
  modifyGet f := fun _ s => ⟨0, [], (f s).1, (f s).2⟩

def draw : Prog σ ε φ φ := fun io s => ⟨1, [], io 0, s⟩

def emit (f : σ → List ε) : Prog σ ε φ Unit := fun _ s => ⟨0, f s, (), s⟩

/-- The execution in which every external operation has the outcome `good`. -/
def exec (good : φ) (m : Prog σ ε φ α) (s : σ) : Outcome σ ε α := m (fun _ => good) s

/-! One execution over any outcomes. -/

section Any

variable (io : ℕ → φ) (s : σ)

@[simp] theorem pure_used (a : α) : ((pure a : Prog σ ε φ α) io s).used = 0 := rfl
@[simp] theorem pure_val (a : α) : ((pure a : Prog σ ε φ α) io s).val = a := rfl
@[simp] theorem pure_state (a : α) : ((pure a : Prog σ ε φ α) io s).state = s := rfl

@[simp] theorem bind_used (m : Prog σ ε φ α) (f : α → Prog σ ε φ β) :
    ((m >>= f) io s).used = (m io s).used +
      (f (m io s).val (fun n => io (n + (m io s).used)) (m io s).state).used := rfl
@[simp] theorem bind_val (m : Prog σ ε φ α) (f : α → Prog σ ε φ β) :
    ((m >>= f) io s).val =
      (f (m io s).val (fun n => io (n + (m io s).used)) (m io s).state).val := rfl
@[simp] theorem bind_state (m : Prog σ ε φ α) (f : α → Prog σ ε φ β) :
    ((m >>= f) io s).state =
      (f (m io s).val (fun n => io (n + (m io s).used)) (m io s).state).state := rfl

@[simp] theorem map_used (f : α → β) (m : Prog σ ε φ α) : ((f <$> m) io s).used = (m io s).used :=
  rfl
@[simp] theorem map_val (f : α → β) (m : Prog σ ε φ α) : ((f <$> m) io s).val = f (m io s).val :=
  rfl
@[simp] theorem map_state (f : α → β) (m : Prog σ ε φ α) :
    ((f <$> m) io s).state = (m io s).state := rfl

@[simp] theorem get_used : ((get : Prog σ ε φ σ) io s).used = 0 := rfl
@[simp] theorem get_val : ((get : Prog σ ε φ σ) io s).val = s := rfl
@[simp] theorem get_state : ((get : Prog σ ε φ σ) io s).state = s := rfl

@[simp] theorem modify_used (f : σ → σ) : ((modify f : Prog σ ε φ PUnit) io s).used = 0 := rfl
@[simp] theorem modify_state (f : σ → σ) :
    ((modify f : Prog σ ε φ PUnit) io s).state = f s := rfl

@[simp] theorem draw_used : ((draw : Prog σ ε φ φ) io s).used = 1 := rfl
@[simp] theorem draw_val : ((draw : Prog σ ε φ φ) io s).val = io 0 := rfl
@[simp] theorem draw_state : ((draw : Prog σ ε φ φ) io s).state = s := rfl

@[simp] theorem emit_used (f : σ → List ε) : ((emit f : Prog σ ε φ Unit) io s).used = 0 := rfl
@[simp] theorem emit_state (f : σ → List ε) : ((emit f : Prog σ ε φ Unit) io s).state = s := rfl

end Any

variable (good : φ)

@[simp] theorem exec_pure_trace (a : α) (s : σ) :
    (exec good (pure a : Prog σ ε φ α) s).trace = [] := rfl
@[simp] theorem exec_pure_val (a : α) (s : σ) :
    (exec good (pure a : Prog σ ε φ α) s).val = a := rfl
@[simp] theorem exec_pure_state (a : α) (s : σ) :
    (exec good (pure a : Prog σ ε φ α) s).state = s := rfl

@[simp] theorem exec_bind_trace (m : Prog σ ε φ α) (f : α → Prog σ ε φ β) (s : σ) :
    (exec good (m >>= f) s).trace = (exec good m s).trace ++
      (exec good (f (exec good m s).val) (exec good m s).state).trace := rfl
@[simp] theorem exec_bind_val (m : Prog σ ε φ α) (f : α → Prog σ ε φ β) (s : σ) :
    (exec good (m >>= f) s).val =
      (exec good (f (exec good m s).val) (exec good m s).state).val := rfl
@[simp] theorem exec_bind_state (m : Prog σ ε φ α) (f : α → Prog σ ε φ β) (s : σ) :
    (exec good (m >>= f) s).state =
      (exec good (f (exec good m s).val) (exec good m s).state).state := rfl

@[simp] theorem exec_map_trace (f : α → β) (m : Prog σ ε φ α) (s : σ) :
    (exec good (f <$> m) s).trace = (exec good m s).trace := rfl
@[simp] theorem exec_map_val (f : α → β) (m : Prog σ ε φ α) (s : σ) :
    (exec good (f <$> m) s).val = f (exec good m s).val := rfl
@[simp] theorem exec_map_state (f : α → β) (m : Prog σ ε φ α) (s : σ) :
    (exec good (f <$> m) s).state = (exec good m s).state := rfl

@[simp] theorem exec_get_trace (s : σ) : (exec good (get : Prog σ ε φ σ) s).trace = [] := rfl
@[simp] theorem exec_get_val (s : σ) : (exec good (get : Prog σ ε φ σ) s).val = s := rfl
@[simp] theorem exec_get_state (s : σ) : (exec good (get : Prog σ ε φ σ) s).state = s := rfl

@[simp] theorem exec_modify_trace (f : σ → σ) (s : σ) :
    (exec good (modify f : Prog σ ε φ PUnit) s).trace = [] := rfl
@[simp] theorem exec_modify_state (f : σ → σ) (s : σ) :
    (exec good (modify f : Prog σ ε φ PUnit) s).state = f s := rfl

@[simp] theorem exec_draw_trace (s : σ) : (exec good (draw : Prog σ ε φ φ) s).trace = [] := rfl
@[simp] theorem exec_draw_val (s : σ) : (exec good (draw : Prog σ ε φ φ) s).val = good := rfl
@[simp] theorem exec_draw_state (s : σ) : (exec good (draw : Prog σ ε φ φ) s).state = s := rfl

@[simp] theorem exec_emit_trace (f : σ → List ε) (s : σ) :
    (exec good (emit f : Prog σ ε φ Unit) s).trace = f s := rfl
@[simp] theorem exec_emit_state (f : σ → List ε) (s : σ) :
    (exec good (emit f : Prog σ ε φ Unit) s).state = s := rfl

@[simp] theorem exec_pure_used (a : α) (s : σ) :
    (exec good (pure a : Prog σ ε φ α) s).used = 0 := rfl
@[simp] theorem exec_bind_used (m : Prog σ ε φ α) (f : α → Prog σ ε φ β) (s : σ) :
    (exec good (m >>= f) s).used = (exec good m s).used +
      (exec good (f (exec good m s).val) (exec good m s).state).used := rfl
@[simp] theorem exec_map_used (f : α → β) (m : Prog σ ε φ α) (s : σ) :
    (exec good (f <$> m) s).used = (exec good m s).used := rfl
@[simp] theorem exec_get_used (s : σ) : (exec good (get : Prog σ ε φ σ) s).used = 0 := rfl
@[simp] theorem exec_modify_used (f : σ → σ) (s : σ) :
    (exec good (modify f : Prog σ ε φ PUnit) s).used = 0 := rfl
@[simp] theorem exec_draw_used (s : σ) : (exec good (draw : Prog σ ε φ φ) s).used = 1 := rfl
@[simp] theorem exec_emit_used (f : σ → List ε) (s : σ) :
    (exec good (emit f : Prog σ ε φ Unit) s).used = 0 := rfl

end Prog

/-! Executions over two streams. -/

/-- The outcomes a program draws are all it knows of the stream. -/
def Local (m : Prog σ ε φ α) : Prop :=
  ∀ io io' s, (∀ n < (m io s).used, io' n = io n) → m io' s = m io s

namespace Local

theorem ret (a : α) : Local (pure a : Prog σ ε φ α) := fun _ _ _ _ => rfl

theorem read : Local (get : Prog σ ε φ σ) := fun _ _ _ _ => rfl

theorem change (f : σ → σ) : Local (modify f : Prog σ ε φ PUnit) := fun _ _ _ _ => rfl

theorem emit (f : σ → List ε) : Local (Prog.emit f : Prog σ ε φ Unit) := fun _ _ _ _ => rfl

theorem draw : Local (Prog.draw : Prog σ ε φ φ) := by
  intro io io' s h
  have hfirst := h 0 Nat.zero_lt_one
  simp [Prog.draw, hfirst]

theorem bind {m : Prog σ ε φ α} {f : α → Prog σ ε φ β} (hm : Local m) (hf : ∀ a, Local (f a)) :
    Local (m >>= f) := by
  intro io io' s h
  have hused : ((m >>= f) io s).used = (m io s).used +
    (f (m io s).val (fun n => io (n + (m io s).used)) (m io s).state).used := rfl
  have hfirst : m io' s = m io s := hm io io' s fun n hn => h n (by omega)
  have hrest : f (m io s).val (fun n => io' (n + (m io s).used)) (m io s).state =
      f (m io s).val (fun n => io (n + (m io s).used)) (m io s).state :=
    hf _ _ _ _ fun n hn => h (n + (m io s).used) (by omega)
  change (⟨_, _, _, _⟩ : Outcome σ ε β) = ⟨_, _, _, _⟩
  rw [hfirst, hrest]

theorem map {m : Prog σ ε φ α} (f : α → β) (hm : Local m) : Local (f <$> m) := by
  intro io io' s h
  have heq : m io' s = m io s := hm io io' s h
  change (⟨_, _, _, _⟩ : Outcome σ ε β) = ⟨_, _, _, _⟩
  rw [heq]

theorem ite {c : Prop} [Decidable c] {m m' : Prog σ ε φ α} (ht : Local m) (he : Local m') :
    Local (if c then m else m') := by
  split_ifs
  · exact ht
  · exact he

theorem exec_eq {good : φ} {m : Prog σ ε φ α} (h : Local m) {io : ℕ → φ} {s : σ}
    (hio : ∀ n < (m.exec good s).used, io n = good) : m io s = m.exec good s :=
  h (fun _ => good) io s hio

end Local

/-- Whatever the outcomes are, the states before and after are related. -/
def Moves (R : σ → σ → Prop) (m : Prog σ ε φ α) : Prop := ∀ io s, R s (m io s).state

namespace Moves

variable {R : σ → σ → Prop}

theorem ret [Std.Refl R] (a : α) : Moves R (pure a : Prog σ ε φ α) := fun _ s => Std.Refl.refl s

theorem read [Std.Refl R] : Moves R (get : Prog σ ε φ σ) := fun _ s => Std.Refl.refl s

theorem emit [Std.Refl R] (f : σ → List ε) : Moves R (Prog.emit f : Prog σ ε φ Unit) :=
  fun _ s => Std.Refl.refl s

theorem draw [Std.Refl R] : Moves R (Prog.draw : Prog σ ε φ φ) := fun _ s => Std.Refl.refl s

theorem change {f : σ → σ} (h : ∀ s, R s (f s)) : Moves R (modify f : Prog σ ε φ PUnit) :=
  fun _ s => h s

theorem bind [IsTrans σ R] {m : Prog σ ε φ α} {f : α → Prog σ ε φ β} (hm : Moves R m)
    (hf : ∀ a, Moves R (f a)) : Moves R (m >>= f) :=
  fun io s => IsTrans.trans _ _ _ (hm io s) (hf _ _ _)

theorem ite {c : Prop} [Decidable c] {m m' : Prog σ ε φ α} (ht : Moves R m) (he : Moves R m') :
    Moves R (if c then m else m') := by
  split_ifs
  · exact ht
  · exact he

end Moves

/-- From a state satisfying `P`, whatever the outcomes are, the execution ends in `Q`. -/
def Ensures (P : σ → Prop) (m : Prog σ ε φ α) (Q : α → σ → Prop) : Prop :=
  ∀ io s, P s → Q (m io s).val (m io s).state

namespace Ensures

variable {P P' : σ → Prop} {Q : α → σ → Prop} {R : β → σ → Prop}

theorem ret {a : α} (h : ∀ s, P s → Q a s) : Ensures P (pure a : Prog σ ε φ α) Q :=
  fun _ s hs => h s hs

theorem bind {m : Prog σ ε φ α} {f : α → Prog σ ε φ β} (hm : Ensures P m Q)
    (hf : ∀ a, Ensures (Q a) (f a) R) : Ensures P (m >>= f) R :=
  fun io s hs => hf _ _ _ (hm io s hs)

theorem draw : Ensures P (Prog.draw : Prog σ ε φ φ) fun _ => P := fun _ _ hs => hs

theorem emit (f : σ → List ε) : Ensures P (Prog.emit f : Prog σ ε φ Unit) fun _ => P :=
  fun _ _ hs => hs

theorem read {f : σ → Prog σ ε φ β} (h : ∀ s, P s → Ensures (fun t => t = s) (f s) R) :
    Ensures P (get >>= f) R :=
  fun io s hs => h s hs io s rfl

theorem inspect {f : σ → Prog σ ε φ β} (h : ∀ s, P s → Ensures P (f s) R) :
    Ensures P (get >>= f) R :=
  fun io s hs => h s hs io s hs

theorem change {f : σ → σ} {R : PUnit → σ → Prop} (h : ∀ s, P s → R PUnit.unit (f s)) :
    Ensures P (modify f : Prog σ ε φ PUnit) R :=
  fun _ s hs => h s hs

theorem ite {c : Prop} [Decidable c] {m m' : Prog σ ε φ α} (ht : c → Ensures P m Q)
    (he : ¬ c → Ensures P m' Q) : Ensures P (if c then m else m') Q := by
  split_ifs with h
  · exact ht h
  · exact he h

theorem weaken {m : Prog σ ε φ α} {Q' : α → σ → Prop} (hm : Ensures P m Q)
    (hP : ∀ s, P' s → P s) (hQ : ∀ a s, Q a s → Q' a s) : Ensures P' m Q' :=
  fun io s hs => hQ _ _ (hm io s (hP s hs))

theorem given {ι : Type} {m : Prog σ ε φ α} {P : ι → σ → Prop} (h : ∀ i, Ensures (P i) m Q) :
    Ensures (fun s => ∃ i, P i s) m Q := by
  rintro io s ⟨i, hs⟩
  exact h i io s hs

theorem fact {c : Prop} {m : Prog σ ε φ α} (h : c → Ensures P m Q) :
    Ensures (fun s => P s ∧ c) m Q :=
  fun io s hs => h hs.2 io s hs.1

end Ensures

/-- From a state satisfying `P`, whatever the outcomes are, the execution ends in `Q`, and if `A`
holds it emits nothing. -/
def Safe (A : Prop) (P : σ → Prop) (m : Prog σ ε φ α) (Q : α → σ → Prop) : Prop :=
  ∀ io s, P s → (A → (m io s).trace = []) ∧ Q (m io s).val (m io s).state

namespace Safe

variable {A : Prop} {P P' : σ → Prop} {Q : α → σ → Prop} {R : β → σ → Prop}

theorem ensures {m : Prog σ ε φ α} (h : Safe True P m Q) : Ensures P m Q :=
  fun io s hs => (h io s hs).2

theorem ret {a : α} (h : ∀ s, P s → Q a s) : Safe A P (pure a : Prog σ ε φ α) Q :=
  fun _ s hs => ⟨fun _ => rfl, h s hs⟩

theorem bind {m : Prog σ ε φ α} {f : α → Prog σ ε φ β} (hm : Safe A P m Q)
    (hf : ∀ a, Safe A (Q a) (f a) R) : Safe A P (m >>= f) R := by
  intro io s hs
  obtain ⟨hfirst, hmid⟩ := hm io s hs
  obtain ⟨hsecond, hend⟩ := hf _ (fun n => io (n + (m io s).used)) _ hmid
  refine ⟨fun ha => ?_, hend⟩
  show (m io s).trace ++ _ = []
  rw [hfirst ha, hsecond ha, List.append_nil]

theorem draw : Safe A P (Prog.draw : Prog σ ε φ φ) fun _ => P :=
  fun _ _ hs => ⟨fun _ => rfl, hs⟩

theorem emit {f : σ → List ε} (h : A → ∀ s, P s → f s = []) :
    Safe A P (Prog.emit f : Prog σ ε φ Unit) fun _ => P :=
  fun _ s hs => ⟨fun ha => h ha s hs, hs⟩

theorem read {f : σ → Prog σ ε φ β} (h : ∀ s, P s → Safe A (fun t => t = s) (f s) R) :
    Safe A P (get >>= f) R :=
  fun io s hs => h s hs io s rfl

theorem change {f : σ → σ} {R : PUnit → σ → Prop} (h : ∀ s, P s → R PUnit.unit (f s)) :
    Safe A P (modify f : Prog σ ε φ PUnit) R :=
  fun _ s hs => ⟨fun _ => rfl, h s hs⟩

theorem ite {c : Prop} [Decidable c] {m m' : Prog σ ε φ α} (ht : c → Safe A P m Q)
    (he : ¬ c → Safe A P m' Q) : Safe A P (if c then m else m') Q := by
  split_ifs with h
  · exact ht h
  · exact he h

theorem weaken {m : Prog σ ε φ α} {Q' : α → σ → Prop} (hm : Safe A P m Q)
    (hP : ∀ s, P' s → P s) (hQ : ∀ a s, Q a s → Q' a s) : Safe A P' m Q' :=
  fun io s hs => ⟨(hm io s (hP s hs)).1, hQ _ _ (hm io s (hP s hs)).2⟩

end Safe

/-- From states related by `R` the successful executions of the two programs return the same and
end in states related by `Q`. -/
def Agree {σ' ε' : Type} (good : φ) (R : σ → σ' → Prop) (m : Prog σ ε φ α) (m' : Prog σ' ε' φ α)
    (Q : σ → σ' → Prop) : Prop :=
  ∀ s s', R s s' → (m.exec good s).val = (m'.exec good s').val ∧
    Q (m.exec good s).state (m'.exec good s').state

namespace Agree

variable {σ' ε' : Type} {good : φ} {R Q S : σ → σ' → Prop}

theorem ret (a : α) : Agree good R (pure a : Prog σ ε φ α) (pure a : Prog σ' ε' φ α) R :=
  fun _ _ h => ⟨rfl, h⟩

theorem bind {m : Prog σ ε φ α} {m' : Prog σ' ε' φ α} {f : α → Prog σ ε φ β}
    {f' : α → Prog σ' ε' φ β} (hm : Agree good R m m' Q) (hf : ∀ a, Agree good Q (f a) (f' a) S) :
    Agree good R (m >>= f) (m' >>= f') S := by
  intro s s' h
  obtain ⟨hval, hstate⟩ := hm s s' h
  simp only [Prog.exec_bind_val, Prog.exec_bind_state, ← hval]
  exact hf _ _ _ hstate

theorem here {m : Prog σ ε φ α} {m' : Prog σ' ε' φ α} (hm : Agree good R m m' Q) {s : σ} {s' : σ'}
    (h : R s s') : Agree good (fun t t' => t = s ∧ t' = s') m m' Q := by
  intro t t' ht
  rw [ht.1, ht.2]
  exact hm s s' h

theorem emit (f : σ → List ε) (f' : σ' → List ε') :
    Agree good R (Prog.emit f : Prog σ ε φ Unit) (Prog.emit f' : Prog σ' ε' φ Unit) R :=
  fun _ _ h => ⟨rfl, h⟩

theorem read {f : σ → Prog σ ε φ β} {f' : σ' → Prog σ' ε' φ β}
    (h : ∀ s s', R s s' → Agree good (fun t t' => t = s ∧ t' = s') (f s) (f' s') S) :
    Agree good R (get >>= f) (get >>= f') S :=
  fun s s' hR => h s s' hR s s' ⟨rfl, rfl⟩

theorem change {f : σ → σ} {f' : σ' → σ'} (h : ∀ s s', R s s' → Q (f s) (f' s')) :
    Agree good R (modify f : Prog σ ε φ PUnit) (modify f' : Prog σ' ε' φ PUnit) Q :=
  fun s s' hR => ⟨rfl, h s s' hR⟩

theorem ite {c : Prop} [Decidable c] {m n : Prog σ ε φ α} {m' n' : Prog σ' ε' φ α}
    (ht : c → Agree good R m m' Q) (he : ¬ c → Agree good R n n' Q) :
    Agree good R (if c then m else n) (if c then m' else n') Q := by
  split_ifs with h
  · exact ht h
  · exact he h

theorem weaken {R' Q' : σ → σ' → Prop} {m : Prog σ ε φ α} {m' : Prog σ' ε' φ α}
    (hm : Agree good R m m' Q) (hR : ∀ s s', R' s s' → R s s') (hQ : ∀ s s', Q s s' → Q' s s') :
    Agree good R' m m' Q' :=
  fun s s' h => ⟨(hm s s' (hR s s' h)).1, hQ _ _ (hm s s' (hR s s' h)).2⟩

end Agree

/-- Along the list, `T` holds at every event before which all events satisfied `G`. -/
def Guarded (G T : ε → Prop) : List ε → Prop
  | [] => True
  | e :: es => T e ∧ (G e → Guarded G T es)

@[simp] theorem guarded_nil (G T : ε → Prop) : Guarded G T [] := trivial

theorem guarded_append (G T : ε → Prop) (l r : List ε) :
    Guarded G T (l ++ r) ↔ Guarded G T l ∧ ((∀ e ∈ l, G e) → Guarded G T r) := by
  induction l with
  | nil => simp
  | cons e l ih =>
    simp only [List.cons_append, Guarded, ih, List.mem_cons, forall_eq_or_imp]
    tauto

theorem guarded_of_forall {G T : ε → Prop} {l : List ε} (h : ∀ e ∈ l, T e) :
    Guarded G T l := by
  induction l with
  | nil => trivial
  | cons e l ih =>
    exact ⟨h e (by simp), fun _ => ih fun e' he' => h e' (by simp [he'])⟩

theorem Guarded.mono {G G' T T' : ε → Prop} {l : List ε} (h : Guarded G T l)
    (hG : ∀ e, G' e → G e) (hT : ∀ e, T e → T' e) : Guarded G' T' l := by
  induction l with
  | nil => trivial
  | cons e l ih => exact ⟨hT e h.1, fun hg => ih (h.2 (hG e hg))⟩

theorem Guarded.getElem {G T : ε → Prop} {l : List ε} (h : Guarded G T l) (n : ℕ) (e : ε)
    (he : l[n]? = some e) (hg : ∀ e' ∈ l.take n, G e') : T e := by
  induction l generalizing n with
  | nil => simp at he
  | cons e₀ l ih =>
    cases n with
    | zero =>
      obtain rfl : e₀ = e := by simpa using he
      exact h.1
    | succ n =>
      simp only [List.take_succ_cons, List.mem_cons, forall_eq_or_imp] at hg
      exact ih (h.2 hg.1) n (by simpa using he) hg.2

/-- When the assertion is an equivalence between `R` and the guard, `R` holds everywhere
exactly when the guard does. -/
theorem Guarded.forall_iff {G T R : ε → Prop} {l : List ε} (h : Guarded G T l)
    (hT : ∀ e, T e → (R e ↔ G e)) : (∀ e ∈ l, R e) ↔ ∀ e ∈ l, G e := by
  induction l with
  | nil => simp
  | cons e l ih =>
    simp only [List.mem_cons, forall_eq_or_imp]
    constructor
    · rintro ⟨he, hl⟩
      have hg : G e := (hT e h.1).mp he
      exact ⟨hg, (ih (h.2 hg)).mp hl⟩
    · rintro ⟨he, hl⟩
      exact ⟨(hT e h.1).mpr he, (ih (h.2 he)).mpr hl⟩

/-- From a state satisfying `P`, the successful execution satisfies `T` along its guarded
trace and, when every event satisfies the guard, ends in `Q`. -/
def Triple (good : φ) (G T : ε → Prop) (P : σ → Prop) (m : Prog σ ε φ α)
    (Q : α → σ → Prop) : Prop :=
  ∀ s, P s → Guarded G T (m.exec good s).trace ∧
    ((∀ e ∈ (m.exec good s).trace, G e) → Q (m.exec good s).val (m.exec good s).state)

namespace Triple

variable {good : φ} {G T : ε → Prop} {P P' : σ → Prop}

theorem ret {a : α} {Q : α → σ → Prop} (h : ∀ s, P s → Q a s) :
    Triple good G T P (pure a) Q :=
  fun s hs => ⟨trivial, fun _ => h s hs⟩

theorem bind {m : Prog σ ε φ α} {f : α → Prog σ ε φ β} {Q : α → σ → Prop} {R : β → σ → Prop}
    (hm : Triple good G T P m Q) (hf : ∀ a, Triple good G T (Q a) (f a) R) :
    Triple good G T P (m >>= f) R := by
  intro s hs
  obtain ⟨htrace, hval⟩ := hm s hs
  simp only [Prog.exec_bind_trace, Prog.exec_bind_val, Prog.exec_bind_state, guarded_append,
    List.mem_append, or_imp, forall_and]
  refine ⟨⟨htrace, fun hg => (hf _ _ (hval hg)).1⟩, ?_⟩
  rintro ⟨hg, hg'⟩
  exact (hf _ _ (hval hg)).2 hg'

theorem weaken {m : Prog σ ε φ α} {Q Q' : α → σ → Prop} (hm : Triple good G T P m Q)
    (hP : ∀ s, P' s → P s) (hQ : ∀ a s, Q a s → Q' a s) : Triple good G T P' m Q' :=
  fun s hs => ⟨(hm s (hP s hs)).1, fun hg => hQ _ _ ((hm s (hP s hs)).2 hg)⟩

theorem read {f : σ → Prog σ ε φ β} {R : β → σ → Prop}
    (h : ∀ s₀, Triple good G T (fun s => P s ∧ s = s₀) (f s₀) R) :
    Triple good G T P (get >>= f) R := by
  intro s hs
  have hf := h s s ⟨hs, rfl⟩
  simpa only [Prog.exec_bind_trace, Prog.exec_bind_val, Prog.exec_bind_state, Prog.exec_get_trace,
    Prog.exec_get_val, Prog.exec_get_state, List.nil_append] using hf

theorem change {f : σ → σ} {R : PUnit → σ → Prop} (h : ∀ s, P s → R PUnit.unit (f s)) :
    Triple good G T P (modify f) R :=
  fun s hs => ⟨trivial, fun _ => h s hs⟩

theorem ite {c : Prop} [Decidable c] {m m' : Prog σ ε φ α} {Q : α → σ → Prop}
    (ht : c → Triple good G T P m Q) (he : ¬ c → Triple good G T P m' Q) :
    Triple good G T P (if c then m else m') Q := by
  split_ifs with h
  · exact ht h
  · exact he h

end Triple

end ParaKV.Lib.TracedProgram
