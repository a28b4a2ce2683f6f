/- GID: ParaKV/Lib/VersionStack
   layer: library
   digest: Writers of one register that install a version each and undo it when they fail. -/

import Mathlib.Data.List.Basic
import Mathlib.Data.List.Nodup
import Mathlib.Logic.Function.Basic

set_option autoImplicit false

namespace ParaKV.Lib.VersionStack

variable {α ν τ : Type}

/-- How far a writer has come with its version. -/
inductive Stage (α : Type)
  | idle
  | written (a : α)
  | pending (a : α) (old : Option α)
  | committed (old : α)
  | undone (a : α)
  | won
  | lost

/-- The version of the writer is the current one or below it. -/
def Stage.kept : Stage α → Bool
  | .pending _ _ => true
  | .committed _ => true
  | .won => true
  | _ => false

def Stage.holds : Stage α → Option α
  | .written a => some a
  | .undone a => some a
  | _ => none

/-- `order` has the writers in the order in which they installed their versions. -/
structure Race (α ν τ : Type) where
  current : Option α
  cells : α → Option ν
  used : α → Prop
  stage : τ → Stage α
  order : List τ

/-- A writer that fails restores the version it replaced, and only while its own is current. -/
inductive Step [DecidableEq α] [DecidableEq τ] (val : τ → ν) : Race α ν τ → Race α ν τ → Prop
  | rest (s : Race α ν τ) : Step val s s
  | fail {s : Race α ν τ} (t : τ) (h : s.stage t = .idle) :
      Step val s { s with stage := Function.update s.stage t .lost }
  | write {s : Race α ν τ} (t : τ) (a : α) (h : s.stage t = .idle) (hnew : ¬ s.used a) :
      Step val s { s with
        cells := Function.update s.cells a (some (val t))
        used := fun b => s.used b ∨ b = a
        stage := Function.update s.stage t (.written a) }
  | install {s : Race α ν τ} (t : τ) (a : α) (h : s.stage t = .written a) :
      Step val s { s with
        current := some a
        stage := Function.update s.stage t (.pending a s.current)
        order := s.order ++ [t] }
  | commit {s : Race α ν τ} (t : τ) (a b : α) (h : s.stage t = .pending a (some b)) :
      Step val s { s with stage := Function.update s.stage t (.committed b) }
  | first {s : Race α ν τ} (t : τ) (a : α) (h : s.stage t = .pending a none) :
      Step val s { s with stage := Function.update s.stage t .won }
  | undo {s : Race α ν τ} (t : τ) (a : α) (old : Option α) (h : s.stage t = .pending a old)
      (hown : s.current = some a) :
      Step val s { s with
        current := old, stage := Function.update s.stage t (.undone a) }
  | discard {s : Race α ν τ} (t : τ) (a : α) (h : s.stage t = .undone a) :
      Step val s { s with
        cells := Function.update s.cells a none
        stage := Function.update s.stage t .lost }
  | release {s : Race α ν τ} (t : τ) (b : α) (h : s.stage t = .committed b) :
      Step val s { s with
        cells := Function.update s.cells b none
        stage := Function.update s.stage t .won }

/-! The versions form a stack over the version the race began with. -/

def top (base : Option (α × ν)) : List (τ × α) → Option α
  | [] => base.map Prod.fst
  | (_, a) :: _ => some a

def addresses (base : Option (α × ν)) : List (τ × α) → List α
  | [] => (base.map Prod.fst).toList
  | (_, a) :: stack => a :: addresses base stack

def below (base : Option (α × ν)) : List (τ × α) → List α
  | [] => []
  | _ :: stack => addresses base stack

section Stack

variable (val : τ → ν) (base : Option (α × ν)) (cells : α → Option ν) (stage : τ → Stage α)

def Stored : List (τ × α) → Prop
  | [] => ∀ p, base = some p → cells p.1 = some p.2
  | (t, a) :: _ => cells a = some (val t)

/-- A version whose successor may still be undone is stored. -/
def Linked : List (τ × α) → Prop
  | [] => True
  | (t, a) :: stack => Linked stack ∧
      (stage t = .won ∨ Stored val base cells stack ∧
        (stage t = .pending a (top base stack) ∨
          ∃ b, stage t = .committed b ∧ top base stack = some b))

end Stack

structure Ok (val : τ → ν) (base : Option (α × ν)) (s : Race α ν τ) (stack : List (τ × α)) :
    Prop where
  current : s.current = top base stack
  stored : Stored val base s.cells stack
  linked : Linked val base s.cells s.stage stack
  order : (stack.map Prod.fst).reverse = s.order.filter fun t => (s.stage t).kept
  distinct : (addresses base stack).Nodup
  used : ∀ a ∈ addresses base stack, s.used a
  once : s.order.Nodup
  installed : ∀ t, (s.stage t).kept = true → t ∈ s.order
  waiting : ∀ t ∈ s.order, s.stage t ≠ .idle ∧ ∀ a, s.stage t ≠ .written a
  written : ∀ t a, s.stage t = .written a → s.cells a = some (val t)
  held : ∀ t a, (s.stage t).holds = some a → s.used a ∧ a ∉ addresses base stack
  exclusive : ∀ t t' a, (s.stage t).holds = some a → (s.stage t').holds = some a → t = t'

variable {val : τ → ν} {base : Option (α × ν)} {s s' : Race α ν τ} {stack : List (τ × α)}
  {cells cells' : α → Option ν} {stage stage' : τ → Stage α} {t : τ} {a b : α}

theorem top_mem (h : top base stack = some a) : a ∈ addresses base stack := by
  cases stack with
  | nil =>
    simp only [top] at h
    simp [addresses, h]
  | cons p stack =>
    obtain rfl := Option.some.inj h
    exact List.mem_cons_self

theorem below_subset (h : a ∈ below base stack) : a ∈ addresses base stack := by
  cases stack with
  | nil => simp [below] at h
  | cons p stack => exact List.mem_cons_of_mem _ h

theorem top_not_below (hdistinct : (addresses base stack).Nodup) (h : top base stack = some a) :
    a ∉ below base stack := by
  cases stack with
  | nil => simp [below]
  | cons p stack =>
    obtain rfl := Option.some.inj h
    exact (List.nodup_cons.mp hdistinct).1

theorem addresses_of_mem {p : τ × α} (h : p ∈ stack) : p.2 ∈ addresses base stack := by
  induction stack with
  | nil => simp at h
  | cons q stack ih =>
    rcases List.mem_cons.mp h with rfl | h
    · exact List.mem_cons_self
    · exact List.mem_cons_of_mem _ (ih h)

theorem Stored.frame (h : Stored val base cells stack)
    (hcells : ∀ a, top base stack = some a → cells' a = cells a) :
    Stored val base cells' stack := by
  cases stack with
  | nil =>
    intro p hp
    rw [hcells p.1 (by simp [top, hp])]
    exact h p hp
  | cons p stack => exact (hcells p.2 rfl).trans h

theorem Linked.frame (h : Linked val base cells stage stack)
    (hstage : ∀ p ∈ stack, stage' p.1 = stage p.1)
    (hcells : ∀ a ∈ below base stack, cells' a = cells a) :
    Linked val base cells' stage' stack := by
  induction stack with
  | nil => trivial
  | cons p stack ih =>
    refine ⟨ih h.1 (fun q hq => hstage q (List.mem_cons_of_mem _ hq))
      fun a ha => hcells a (below_subset ha), ?_⟩
    rw [hstage p List.mem_cons_self]
    exact h.2.imp id fun ⟨hstored, hstage⟩ =>
      ⟨hstored.frame fun a ha => hcells a (top_mem ha), hstage⟩

theorem Stored.set [DecidableEq α] (h : Stored val base cells stack) (ha : top base stack ≠ some a)
    (x : Option ν) : Stored val base (Function.update cells a x) stack := by
  refine h.frame fun b hb => Function.update_of_ne ?_ _ _
  intro hba
  exact ha (hba ▸ hb)

theorem Linked.set [DecidableEq α] (h : Linked val base cells stage stack)
    (hstage : ∀ p ∈ stack, stage' p.1 = stage p.1) (ha : a ∉ below base stack) (x : Option ν) :
    Linked val base (Function.update cells a x) stage' stack := by
  refine h.frame hstage fun b hb => Function.update_of_ne ?_ _ _
  intro hba
  exact ha (hba ▸ hb)

theorem Linked.pending_eq (h : Linked val base cells stage stack) {c : α} {old : Option α}
    (hmem : (t, c) ∈ stack) (ht : stage t = .pending a old) : c = a := by
  induction stack with
  | nil => simp at hmem
  | cons p stack ih =>
    rcases List.mem_cons.mp hmem with rfl | hmem
    · rcases h.2 with hwon | ⟨-, hpending | ⟨b, hb, -⟩⟩
      · simp [hwon] at ht
      · rw [ht] at hpending
        exact (Stage.pending.inj hpending).1.symm
      · simp [hb] at ht
    · exact ih h.1 hmem

theorem Linked.pending_stored (h : Linked val base cells stage ((t, a) :: stack))
    {old : Option α} (ht : stage t = .pending a old) :
    Stored val base cells stack ∧ old = top base stack := by
  rcases h.2 with hwon | ⟨hstored, hpending | ⟨b, hb, -⟩⟩
  · simp [hwon] at ht
  · rw [ht] at hpending
    exact ⟨hstored, (Stage.pending.inj hpending).2⟩
  · simp [hb] at ht

theorem Linked.committed_below (h : Linked val base cells stage stack)
    (ht : t ∈ stack.map Prod.fst) (hstage : stage t = .committed b) : b ∈ below base stack := by
  induction stack with
  | nil => simp at ht
  | cons p stack ih =>
    rcases List.mem_cons.mp ht with rfl | ht
    · rcases h.2 with hwon | ⟨-, hpending | ⟨b', hb', htop⟩⟩
      · simp [hwon] at hstage
      · simp [hpending] at hstage
      · obtain rfl : b' = b := by simpa [hb'] using hstage
        exact top_mem htop
    · exact below_subset (ih h.1 ht)

theorem Linked.release [DecidableEq α] [DecidableEq τ] (h : Linked val base cells stage stack)
    (hdistinct : (addresses base stack).Nodup) (honce : (stack.map Prod.fst).Nodup)
    (ht : t ∈ stack.map Prod.fst) (hstage : stage t = .committed b) :
    Linked val base (Function.update cells b none) (Function.update stage t .won) stack := by
  induction stack with
  | nil => trivial
  | cons p stack ih =>
    obtain ⟨hfresh, honce⟩ := List.nodup_cons.mp honce
    have hrest := (List.nodup_cons.mp hdistinct).2
    by_cases hp : p.1 = t
    · refine ⟨h.1.set (fun q hq => ?_) ?_ _, Or.inl (by rw [hp]; simp)⟩
      · refine Function.update_of_ne (fun hq' => hfresh ?_) _ _
        rw [hp, ← hq']
        exact List.mem_map_of_mem hq
      · rcases h.2 with hwon | ⟨-, hpending | ⟨b', hb', htop⟩⟩
        · rw [hp, hstage] at hwon
          simp at hwon
        · rw [hp, hstage] at hpending
          simp at hpending
        · rw [hp, hstage] at hb'
          obtain rfl := Stage.committed.inj hb'
          exact top_not_below hrest htop
    · have ht' : t ∈ stack.map Prod.fst := (List.mem_cons.mp ht).resolve_left (Ne.symm hp)
      refine ⟨ih h.1 hrest honce ht', ?_⟩
      rw [Function.update_of_ne hp]
      refine h.2.imp id fun ⟨hstored, hp⟩ => ⟨hstored.set (fun htop => ?_) _, hp⟩
      exact top_not_below hrest htop (h.1.committed_below ht' hstage)

theorem Linked.decide [DecidableEq τ] (h : Linked val base cells stage stack) {old : Option α}
    {next : Stage α} (hstage : stage t = .pending a old)
    (hnext : next = .won ∨ ∃ b, next = .committed b ∧ old = some b) :
    Linked val base cells (Function.update stage t next) stack := by
  induction stack with
  | nil => trivial
  | cons p stack ih =>
    refine ⟨ih h.1, ?_⟩
    by_cases hp : p.1 = t
    · rw [hp, Function.update_self]
      rcases h.2 with hwon | ⟨hstored, hpending | ⟨b', hb', -⟩⟩
      · rw [hp, hstage] at hwon
        simp at hwon
      · rw [hp, hstage] at hpending
        obtain ⟨rfl, rfl⟩ := Stage.pending.inj hpending
        rcases hnext with rfl | ⟨b, rfl, hb⟩
        · exact Or.inl rfl
        · exact Or.inr ⟨hstored, Or.inr ⟨b, rfl, hb⟩⟩
      · rw [hp, hstage] at hb'
        simp at hb'
    · rw [Function.update_of_ne hp]
      exact h.2

/-! What each step keeps. -/

theorem filter_kept_update [DecidableEq τ] {order : List τ} {next : Stage α}
    (h : next.kept = (stage t).kept ∨ t ∉ order) :
    (order.filter fun u => (Function.update stage t next u).kept) =
      order.filter fun u => (stage u).kept := by
  refine List.filter_congr fun u hu => ?_
  by_cases hut : u = t
  · subst hut
    rw [Function.update_self]
    exact h.resolve_right (not_not.mpr hu)
  · rw [Function.update_of_ne hut]

theorem filter_kept_undone [DecidableEq τ] (order : List τ) (a : α) :
    (order.filter fun u => (Function.update stage t (.undone a) u).kept) =
      (order.filter fun u => (stage u).kept).filter (· ≠ t) := by
  rw [List.filter_filter]
  refine List.filter_congr fun u _ => ?_
  by_cases hut : u = t
  · simp [hut, Stage.kept]
  · simp [hut]

theorem holds_of_update [DecidableEq τ] {next : Stage α} {u : τ}
    (hnext : next.holds = none ∨ next.holds = (stage t).holds)
    (h : (Function.update stage t next u).holds = some a) : (stage u).holds = some a := by
  by_cases hut : u = t
  · subst hut
    rw [Function.update_self] at h
    rcases hnext with hnext | hnext
    · simp [hnext] at h
    · rw [← hnext, h]
  · rwa [Function.update_of_ne hut] at h

theorem Ok.mem_stack (h : Ok val base s stack) (ht : (s.stage t).kept = true) :
    t ∈ stack.map Prod.fst := by
  have hmem : t ∈ s.order.filter fun u => (s.stage u).kept :=
    List.mem_filter.mpr ⟨h.installed t ht, ht⟩
  rw [← h.order] at hmem
  exact List.mem_reverse.mp hmem

theorem Ok.writers_nodup (h : Ok val base s stack) : (stack.map Prod.fst).Nodup := by
  rw [← List.nodup_reverse, h.order]
  exact h.once.filter _

theorem Ok.stack_kept (h : Ok val base s stack) (ht : t ∈ stack.map Prod.fst) :
    (s.stage t).kept = true := by
  have hmem := List.mem_reverse.mpr ht
  rw [h.order] at hmem
  exact (List.mem_filter.mp hmem).2

theorem Ok.advance [DecidableEq τ] (h : Ok val base s stack) {next : Stage α}
    (hkept : next.kept = (s.stage t).kept) (hholds : next.holds = none) (hidle : next ≠ .idle)
    (hstored : Stored val base cells' stack)
    (hlinked : Linked val base cells' (Function.update s.stage t next) stack)
    (hwritten : ∀ u a, u ≠ t → s.stage u = .written a → cells' a = s.cells a) :
    Ok val base { s with cells := cells', stage := Function.update s.stage t next } stack where
  current := h.current
  stored := hstored
  linked := hlinked
  order := h.order.trans (filter_kept_update (Or.inl hkept)).symm
  distinct := h.distinct
  used := h.used
  once := h.once
  installed u hu := by
    dsimp only at hu
    by_cases hut : u = t
    · subst hut
      rw [Function.update_self, hkept] at hu
      exact h.installed u hu
    · rw [Function.update_of_ne hut] at hu
      exact h.installed u hu
  waiting u hu := by
    dsimp only
    by_cases hut : u = t
    · subst hut
      rw [Function.update_self]
      refine ⟨hidle, fun a ha => ?_⟩
      rw [ha] at hholds
      simp [Stage.holds] at hholds
    · rw [Function.update_of_ne hut]
      exact h.waiting u hu
  written u a hu := by
    dsimp only at hu ⊢
    by_cases hut : u = t
    · subst hut
      rw [Function.update_self] at hu
      rw [hu] at hholds
      simp [Stage.holds] at hholds
    · rw [Function.update_of_ne hut] at hu
      exact (hwritten u a hut hu).trans (h.written u a hu)
  held u a hu := h.held u a (holds_of_update (Or.inl hholds) hu)
  exclusive u u' a hu hu' :=
    h.exclusive u u' a (holds_of_update (Or.inl hholds) hu) (holds_of_update (Or.inl hholds) hu')

theorem Ok.unlisted (h : Ok val base s stack) (ht : (s.stage t).kept = false) {p : τ × α}
    (hp : p ∈ stack) : p.1 ≠ t := by
  intro hpt
  have hkept := h.stack_kept (List.mem_map_of_mem hp)
  rw [hpt, ht] at hkept
  simp at hkept

theorem Ok.fail [DecidableEq τ] (h : Ok val base s stack) (ht : s.stage t = .idle) :
    Ok val base { s with stage := Function.update s.stage t .lost } stack := by
  refine h.advance (by rw [ht]; rfl) rfl (by simp) h.stored ?_ fun _ _ _ _ => rfl
  refine h.linked.frame (fun p hp => Function.update_of_ne ?_ _ _) fun _ _ => rfl
  exact h.unlisted (by rw [ht]; rfl) hp

theorem Ok.commit [DecidableEq τ] (h : Ok val base s stack) {old : Option α} {next : Stage α}
    (ht : s.stage t = .pending a old)
    (hnext : next = .won ∨ ∃ b, next = .committed b ∧ old = some b) :
    Ok val base { s with stage := Function.update s.stage t next } stack := by
  have hlinked := h.linked.decide ht hnext
  rcases hnext with rfl | ⟨b, rfl, -⟩
  · exact h.advance (by rw [ht]; rfl) rfl (by simp) h.stored hlinked fun _ _ _ _ => rfl
  · exact h.advance (by rw [ht]; rfl) rfl (by simp) h.stored hlinked fun _ _ _ _ => rfl

theorem Ok.discard [DecidableEq α] [DecidableEq τ] (h : Ok val base s stack)
    (ht : s.stage t = .undone a) :
    Ok val base { s with
      cells := Function.update s.cells a none
      stage := Function.update s.stage t .lost } stack := by
  have hholds : (s.stage t).holds = some a := by rw [ht]; rfl
  have hout := (h.held t a hholds).2
  refine h.advance (by rw [ht]; rfl) rfl (by simp) ?_ ?_ fun u b hut hu => ?_
  · exact h.stored.set (fun htop => hout (top_mem htop)) _
  · refine h.linked.set (fun p hp => Function.update_of_ne ?_ _ _)
      (fun hbelow => hout (below_subset hbelow)) _
    exact h.unlisted (by rw [ht]; rfl) hp
  · refine Function.update_of_ne (fun hba => hut ?_) _ _
    exact h.exclusive u t a (by rw [hu, hba]; rfl) hholds

theorem Ok.release [DecidableEq α] [DecidableEq τ] (h : Ok val base s stack)
    (ht : s.stage t = .committed b) :
    Ok val base { s with
      cells := Function.update s.cells b none
      stage := Function.update s.stage t .won } stack := by
  have hmem : t ∈ stack.map Prod.fst := h.mem_stack (by rw [ht]; rfl)
  have hbelow := h.linked.committed_below hmem ht
  refine h.advance (by rw [ht]; rfl) rfl (by simp) ?_
    (h.linked.release h.distinct h.writers_nodup hmem ht) fun u a _ hu => ?_
  · exact h.stored.set (fun htop => top_not_below h.distinct htop hbelow) _
  · refine Function.update_of_ne (fun hab => ?_) _ _
    exact (h.held u a (by rw [hu]; rfl)).2 (hab ▸ below_subset hbelow)

theorem Ok.write [DecidableEq α] [DecidableEq τ] (h : Ok val base s stack)
    (ht : s.stage t = .idle) (hnew : ¬ s.used a) :
    Ok val base { s with
      cells := Function.update s.cells a (some (val t))
      used := fun b => s.used b ∨ b = a
      stage := Function.update s.stage t (.written a) } stack where
  current := h.current
  stored := h.stored.set (fun htop => hnew (h.used a (top_mem htop))) _
  linked := by
    refine h.linked.set (fun p hp => Function.update_of_ne ?_ _ _)
      (fun hbelow => hnew (h.used a (below_subset hbelow))) _
    exact h.unlisted (by rw [ht]; rfl) hp
  order := h.order.trans (filter_kept_update (Or.inl (by rw [ht]; rfl))).symm
  distinct := h.distinct
  used b hb := Or.inl (h.used b hb)
  once := h.once
  installed u hu := by
    dsimp only at hu
    by_cases hut : u = t
    · subst hut
      simp [Stage.kept] at hu
    · rw [Function.update_of_ne hut] at hu
      exact h.installed u hu
  waiting u hu := by
    dsimp only
    have hut : u ≠ t := fun hut => (h.waiting u hu).1 (hut ▸ ht)
    rw [Function.update_of_ne hut]
    exact h.waiting u hu
  written u b hu := by
    dsimp only at hu ⊢
    by_cases hut : u = t
    · subst hut
      rw [Function.update_self] at hu
      obtain rfl := Stage.written.inj hu
      rw [Function.update_self]
    · rw [Function.update_of_ne hut] at hu
      have hba : b ≠ a := fun hba => hnew (hba ▸ (h.held u b (by rw [hu]; rfl)).1)
      rw [Function.update_of_ne hba]
      exact h.written u b hu
  held u b hu := by
    dsimp only at hu ⊢
    by_cases hut : u = t
    · subst hut
      rw [Function.update_self] at hu
      obtain rfl := Option.some.inj hu
      exact ⟨Or.inr rfl, fun hb => hnew (h.used _ hb)⟩
    · rw [Function.update_of_ne hut] at hu
      exact ⟨Or.inl (h.held u b hu).1, (h.held u b hu).2⟩
  exclusive u u' b hu hu' := by
    dsimp only at hu hu'
    have hother : ∀ v, v ≠ t → (Function.update s.stage t (.written a) v).holds = some b →
        (s.stage v).holds = some b ∧ b ≠ a := by
      intro v hv hb
      rw [Function.update_of_ne hv] at hb
      exact ⟨hb, fun hba => hnew (hba ▸ (h.held v b hb).1)⟩
    have hself : ∀ v, v = t → (Function.update s.stage t (.written a) v).holds = some b →
        b = a := by
      intro v hv hb
      rw [hv, Function.update_self] at hb
      exact (Option.some.inj hb).symm
    by_cases hut : u = t
    · by_cases hut' : u' = t
      · exact hut.trans hut'.symm
      · exact absurd (hself u hut hu) (hother u' hut' hu').2
    · by_cases hut' : u' = t
      · exact absurd (hself u' hut' hu') (hother u hut hu).2
      · exact h.exclusive u u' b (hother u hut hu).1 (hother u' hut' hu').1

theorem Ok.install [DecidableEq τ] (h : Ok val base s stack) (ht : s.stage t = .written a) :
    Ok val base { s with
      current := some a
      stage := Function.update s.stage t (.pending a s.current)
      order := s.order ++ [t] } ((t, a) :: stack) := by
  have hholds : (s.stage t).holds = some a := by rw [ht]; rfl
  have hfresh : t ∉ s.order := fun hmem => (h.waiting t hmem).2 a ht
  have hout := h.held t a hholds
  exact {
    current := rfl
    stored := h.written t a ht
    linked := by
      refine ⟨h.linked.frame (fun p hp => Function.update_of_ne ?_ _ _) fun _ _ => rfl,
        Or.inr ⟨h.stored, Or.inl ?_⟩⟩
      · exact h.unlisted (by rw [ht]; rfl) hp
      · dsimp only
        rw [Function.update_self, h.current]
    order := by
      dsimp only
      rw [List.filter_append, filter_kept_update (Or.inr hfresh), ← h.order]
      simp [Stage.kept]
    distinct := List.nodup_cons.mpr ⟨hout.2, h.distinct⟩
    used := by
      intro b hb
      rcases List.mem_cons.mp hb with rfl | hb
      · exact hout.1
      · exact h.used b hb
    once := by
      refine h.once.append (List.nodup_singleton t) ?_
      simpa using hfresh
    installed := by
      intro u hu
      dsimp only at hu ⊢
      by_cases hut : u = t
      · simp [hut]
      · rw [Function.update_of_ne hut] at hu
        exact List.mem_append_left _ (h.installed u hu)
    waiting := by
      intro u hu
      dsimp only at hu ⊢
      by_cases hut : u = t
      · subst hut
        simp
      · rw [Function.update_of_ne hut]
        exact h.waiting u ((List.mem_append.mp hu).resolve_right (by simpa using hut))
    written := by
      intro u b hu
      dsimp only at hu
      by_cases hut : u = t
      · subst hut
        simp at hu
      · rw [Function.update_of_ne hut] at hu
        exact h.written u b hu
    held := by
      intro u b hu
      dsimp only at hu
      have hut : u ≠ t := by
        intro hut
        simp [hut, Stage.holds] at hu
      rw [Function.update_of_ne hut] at hu
      refine ⟨(h.held u b hu).1, fun hb => ?_⟩
      rcases List.mem_cons.mp hb with rfl | hb
      · exact hut (h.exclusive u t _ hu hholds)
      · exact (h.held u b hu).2 hb
    exclusive := fun u u' b hu hu' => h.exclusive u u' b
      (holds_of_update (Or.inl rfl) hu) (holds_of_update (Or.inl rfl) hu') }

theorem Ok.undo [DecidableEq τ] (h : Ok val base s stack) {old : Option α}
    (ht : s.stage t = .pending a old) (hown : s.current = some a) :
    ∃ rest, Ok val base { s with
      current := old, stage := Function.update s.stage t (.undone a) } rest := by
  obtain ⟨c, hc⟩ : ∃ c, (t, c) ∈ stack := by
    have hmem := h.mem_stack (t := t) (by rw [ht]; rfl)
    obtain ⟨⟨u, c⟩, hc, rfl⟩ := List.mem_map.mp hmem
    exact ⟨c, hc⟩
  obtain rfl : c = a := h.linked.pending_eq hc ht
  have htop := h.current.symm.trans hown
  cases stack with
  | nil => simp at hc
  | cons p stack =>
    obtain ⟨u, b⟩ := p
    obtain rfl : b = c := Option.some.inj htop
    obtain ⟨hout, hdistinct⟩ := List.nodup_cons.mp h.distinct
    obtain ⟨hlast, -⟩ := List.nodup_cons.mp h.writers_nodup
    obtain rfl : t = u := by
      rcases List.mem_cons.mp hc with hp | hp
      · exact (Prod.mk.inj hp).1
      · exact absurd (addresses_of_mem hp) hout
    obtain ⟨hstored, hold⟩ := h.linked.pending_stored ht
    exact ⟨stack, {
      current := hold
      stored := hstored
      linked := by
        refine h.linked.1.frame (fun q hq => Function.update_of_ne ?_ _ _) fun _ _ => rfl
        intro hqt
        exact hlast (List.mem_map.mpr ⟨q, hq, hqt⟩)
      order := by
        dsimp only
        rw [filter_kept_undone, ← h.order]
        have hothers : ∀ u ∈ (stack.map Prod.fst).reverse, decide (u ≠ t) = true := by
          intro u hu
          refine decide_eq_true fun hut => hlast ?_
          rw [← hut]
          exact List.mem_reverse.mp hu
        rw [List.map_cons, List.reverse_cons, List.filter_append,
          List.filter_eq_self.mpr hothers]
        simp
      distinct := hdistinct
      used := fun c hc => h.used c (List.mem_cons_of_mem _ hc)
      once := h.once
      installed := by
        intro v hv
        dsimp only at hv ⊢
        have hvt : v ≠ t := by
          intro hvt
          simp [hvt, Stage.kept] at hv
        rw [Function.update_of_ne hvt] at hv
        exact h.installed v hv
      waiting := by
        intro v hv
        dsimp only at hv ⊢
        by_cases hvt : v = t
        · subst hvt
          simp
        · rw [Function.update_of_ne hvt]
          exact h.waiting v hv
      written := by
        intro v c hv
        dsimp only at hv ⊢
        have hvt : v ≠ t := by
          intro hvt
          simp [hvt] at hv
        rw [Function.update_of_ne hvt] at hv
        exact h.written v c hv
      held := by
        intro v c hv
        dsimp only at hv ⊢
        by_cases hvt : v = t
        · subst hvt
          rw [Function.update_self] at hv
          obtain rfl := Option.some.inj hv
          exact ⟨h.used _ List.mem_cons_self, hout⟩
        · rw [Function.update_of_ne hvt] at hv
          exact ⟨(h.held v c hv).1, fun hmem => (h.held v c hv).2 (List.mem_cons_of_mem _ hmem)⟩
      exclusive := by
        -- the undone version was on the stack, so nobody else holds its cell
        have hself : ∀ v c, v ≠ t → (Function.update s.stage t (.undone b) v).holds = some c →
            (s.stage v).holds = some c ∧ c ≠ b := by
          intro v c hvt hv
          rw [Function.update_of_ne hvt] at hv
          refine ⟨hv, fun hcb => (h.held v c hv).2 ?_⟩
          rw [hcb]
          exact List.mem_cons_self
        have hundone : ∀ c, (Function.update s.stage t (.undone b) t).holds = some c → c = b := by
          intro c hc
          rw [Function.update_self] at hc
          exact (Option.some.inj hc).symm
        intro v v' c hv hv'
        dsimp only at hv hv'
        by_cases hvt : v = t
        · by_cases hvt' : v' = t
          · exact hvt.trans hvt'.symm
          · exact absurd (hundone c (hvt ▸ hv)) (hself v' c hvt' hv').2
        · by_cases hvt' : v' = t
          · exact absurd (hundone c (hvt' ▸ hv')) (hself v c hvt hv).2
          · exact h.exclusive v v' c (hself v c hvt hv).1 (hself v' c hvt' hv').1 }⟩

theorem Step.ok [DecidableEq α] [DecidableEq τ] (hstep : Step val s s')
    (h : ∃ stack, Ok val base s stack) :
    ∃ stack, Ok val base s' stack := by
  obtain ⟨stack, h⟩ := h
  cases hstep with
  | rest => exact ⟨stack, h⟩
  | fail t ht => exact ⟨stack, h.fail ht⟩
  | write t a ht hnew => exact ⟨stack, h.write ht hnew⟩
  | install t a ht => exact ⟨(t, a) :: stack, h.install ht⟩
  | commit t a b ht => exact ⟨stack, h.commit ht (Or.inr ⟨b, rfl, rfl⟩)⟩
  | first t a ht => exact ⟨stack, h.commit ht (Or.inl rfl)⟩
  | undo t a old ht hown => exact h.undo ht hown
  | discard t a ht => exact ⟨stack, h.discard ht⟩
  | release t b ht => exact ⟨stack, h.release ht⟩

theorem ok_initial (hcurrent : s.current = base.map Prod.fst)
    (hstored : ∀ p, base = some p → s.cells p.1 = some p.2)
    (hused : ∀ p, base = some p → s.used p.1) (hidle : ∀ t, s.stage t = .idle)
    (horder : s.order = []) : Ok val base s [] where
  current := hcurrent
  stored := hstored
  linked := trivial
  order := by simp [horder]
  distinct := by cases base <;> simp [addresses]
  used a ha := by
    obtain ⟨p, hp, rfl⟩ : ∃ p, base = some p ∧ p.1 = a := by simpa [addresses] using ha
    exact hused p hp
  once := by simp [horder]
  installed t ht := by simp [hidle, Stage.kept] at ht
  waiting t ht := by simp [horder] at ht
  written t a ht := by simp [hidle] at ht
  held t a ht := by simp [hidle, Stage.holds] at ht
  exclusive t t' a ht := by simp [hidle, Stage.holds] at ht

/-- When all writers have finished, the current version is the one of the last writer that won,
in the order of the installations. -/
theorem Ok.settled (h : Ok val base s stack) (hdone : ∀ t, s.stage t = .won ∨ s.stage t = .lost) :
    (∃ earlier t later a, s.order = earlier ++ t :: later ∧ s.stage t = .won ∧
      (∀ u ∈ later, s.stage u ≠ .won) ∧ s.current = some a ∧ s.cells a = some (val t)) ∨
    (∀ t, s.stage t ≠ .won) ∧ s.current = base.map Prod.fst ∧
      ∀ p, base = some p → s.cells p.1 = some p.2 := by
  cases stack with
  | nil =>
    refine Or.inr ⟨fun t ht => ?_, h.current, h.stored⟩
    have hmem := h.mem_stack (t := t) (by rw [ht]; rfl)
    simp at hmem
  | cons p stack =>
    have horder := h.order
    rw [List.map_cons, List.reverse_cons, eq_comm, List.filter_eq_append_iff] at horder
    obtain ⟨front, back, hsplit, -, hback⟩ := horder
    obtain ⟨losers, later, rfl, -, hkept, hlater⟩ := List.filter_eq_cons_iff.mp hback
    refine Or.inl ⟨front ++ losers, p.1, later, p.2, ?_, ?_, fun u hu hwon => ?_, h.current,
      h.stored⟩
    · rw [hsplit, List.append_assoc]
    · rcases hdone p.1 with hwon | hlost
      · exact hwon
      · rw [hlost] at hkept
        simp [Stage.kept] at hkept
    · have hout := List.filter_eq_nil_iff.mp hlater u hu
      rw [hwon] at hout
      simp [Stage.kept] at hout

end ParaKV.Lib.VersionStack
