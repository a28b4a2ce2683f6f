/- GID: ParaKV/Lib/SlotProtocol
   layer: library
   digest: Cells that interleaving parties reserve, publish in an index, replace and release. -/

import ParaKV.Lib.OwnedSlots

set_option autoImplicit false

namespace ParaKV.Lib.SlotProtocol

open Lib.OwnedSlots

variable {κ α ν τ : Type}

/-- An index into a store of cells, and what each party holds between its steps: a cell it has
written but not published, and a cell it took out of the index but has not released. -/
structure Shared (κ α ν τ : Type) where
  ix : κ → Option α
  st : α → Option (κ × ν)
  reserved : τ → Option α
  retired : τ → Option α

/-- Entries own their cells. Reserved cells are written, private and held once, and nothing
refers to a retired cell. -/
structure Shared.Ok (s : Shared κ α ν τ) : Prop where
  owns : Owns s.ix s.st
  written : ∀ t a, s.reserved t = some a → s.st a ≠ none
  unpublished : ∀ t a k, s.reserved t = some a → s.ix k ≠ some a
  exclusive : ∀ t t' a, s.reserved t = some a → s.reserved t' = some a → t = t'
  unlinked : ∀ t a k, s.retired t = some a → s.ix k ≠ some a
  disjoint : ∀ t t' a, s.retired t = some a → s.reserved t' ≠ some a

/-- Neither the index nor a reservation refers to the cells in `X`. -/
def Shared.Vacated (s : Shared κ α ν τ) (X : α → Prop) : Prop :=
  ∀ a, X a → (∀ k, s.ix k ≠ some a) ∧ ∀ t, s.reserved t ≠ some a

variable [DecidableEq κ] [DecidableEq α] [DecidableEq τ]

/-- The steps of the parties, each with the change of the contents it makes. -/
inductive Step : Option (κ × Option ν) → Shared κ α ν τ → Shared κ α ν τ → Prop
  /-- A step inside a party. -/
  | pass {s : Shared κ α ν τ} : Step none s s
  /-- A party writes a free cell that nobody is about to release. -/
  | reserve {s s' : Shared κ α ν τ} (t : τ) (a : α) (k : κ) (v : ν) (hvacant : s.st a = none)
      (hfresh : ∀ u, s.retired u ≠ some a) (hix : s'.ix = s.ix)
      (hst : s'.st = Function.update s.st a (some (k, v)))
      (hres : s'.reserved = Function.update s.reserved t (some a))
      (hret : s'.retired = s.retired) : Step none s s'
  /-- It publishes the cell and retires the one the entry had. -/
  | publish {s s' : Shared κ α ν τ} (t : τ) (a : α) (k : κ) (v : ν)
      (hheld : s.reserved t = some a) (hcell : s.st a = some (k, v))
      (hix : s'.ix = Function.update s.ix k (some a)) (hst : s'.st = s.st)
      (hres : s'.reserved = Function.update s.reserved t none)
      (hret : s'.retired = Function.update s.retired t (s.ix k)) : Step (some (k, some v)) s s'
  /-- It removes an entry and retires its cell. -/
  | withdraw {s s' : Shared κ α ν τ} (t : τ) (k : κ)
      (hix : s'.ix = Function.update s.ix k none) (hst : s'.st = s.st)
      (hres : s'.reserved = s.reserved)
      (hret : s'.retired = Function.update s.retired t (s.ix k)) : Step (some (k, none)) s s'
  /-- It releases the cell it retired. -/
  | release {s s' : Shared κ α ν τ} (t : τ) (a : α) (hheld : s.retired t = some a)
      (hix : s'.ix = s.ix) (hst : s'.st = Function.update s.st a none)
      (hres : s'.reserved = s.reserved) (hret : s'.retired = Function.update s.retired t none) :
      Step none s s'
  /-- It moves an entry to the copy it holds. -/
  | relocate {s s' : Shared κ α ν τ} (t : τ) (a b : α) (k : κ) (v : ν)
      (hheld : s.reserved t = some a) (hcopy : s.st a = some (k, v))
      (hentry : s.ix k = some b) (hcell : s.st b = some (k, v))
      (hix : s'.ix = Function.update s.ix k (some a)) (hst : s'.st = s.st)
      (hres : s'.reserved = Function.update s.reserved t none) (hret : s'.retired = s.retired) :
      Step none s s'
  /-- It gives up the copy it holds, which stays written. -/
  | abandon {s s' : Shared κ α ν τ} (t : τ) (hix : s'.ix = s.ix) (hst : s'.st = s.st)
      (hres : s'.reserved = Function.update s.reserved t none) (hret : s'.retired = s.retired) :
      Step none s s'
  /-- Cells nothing refers to are cleared. -/
  | clear {s s' : Shared κ α ν τ} (X : α → Prop) (hvacated : s.Vacated X)
      (hix : s'.ix = s.ix) (hin : ∀ a, X a → s'.st a = none)
      (hout : ∀ a, ¬ X a → s'.st a = s.st a)
      (hres : s'.reserved = s.reserved) (hret : s'.retired = s.retired) : Step none s s'

variable {s s' : Shared κ α ν τ} {c : Option (κ × Option ν)}

theorem Step.st_eq (h : Step c s s') (hok : s.Ok) {a : α}
    (ha : (∃ k, s.ix k = some a) ∨ ∃ t, s.reserved t = some a) : s'.st a = s.st a := by
  have hwritten : s.st a ≠ none := by
    rcases ha with ⟨k, hk⟩ | ⟨t, ht⟩
    · obtain ⟨v, hv⟩ := hok.owns k a hk
      rw [hv]
      exact Option.some_ne_none _
    · exact hok.written t a ht
  cases h with
  | pass => rfl
  | reserve t b k v hvacant _ _ hst =>
    have hne : a ≠ b := by
      rintro rfl
      exact hwritten hvacant
    rw [hst, Function.update_of_ne hne]
  | release t b hheld _ hst =>
    have hne : a ≠ b := by
      rintro rfl
      rcases ha with ⟨k, hk⟩ | ⟨u, hu⟩
      · exact hok.unlinked t a k hheld hk
      · exact hok.disjoint t u a hheld hu
    rw [hst, Function.update_of_ne hne]
  | clear X hvacated _ _ hout =>
    refine hout a fun hX => ?_
    rcases ha with ⟨k, hk⟩ | ⟨u, hu⟩
    · exact (hvacated a hX).1 k hk
    · exact (hvacated a hX).2 u hu
  | publish _ _ _ _ _ _ _ hst => rw [hst]
  | withdraw _ _ _ hst => rw [hst]
  | relocate _ _ _ _ _ _ _ _ _ _ hst => rw [hst]
  | abandon _ _ hst => rw [hst]

theorem Step.reserved_cases (h : Step c s s') {t : τ} {a : α} (ha : s'.reserved t = some a) :
    s.reserved t = some a ∨
      s.st a = none ∧ (∀ u, s.retired u ≠ some a) ∧ s'.ix = s.ix ∧ s'.retired = s.retired ∧
        s'.st a ≠ none ∧ ∀ u, u ≠ t → s'.reserved u = s.reserved u := by
  have hdrop : ∀ u, Function.update s.reserved u none t = some a → s.reserved t = some a := by
    intro u hu
    by_cases htu : t = u
    · subst htu
      rw [Function.update_self] at hu
      cases hu
    · rwa [Function.update_of_ne htu] at hu
  cases h with
  | pass => exact Or.inl ha
  | reserve u b k v hvacant hfresh hix hst hres hret =>
    by_cases htu : t = u
    · subst htu
      rw [hres, Function.update_self] at ha
      obtain rfl := Option.some.inj ha
      refine Or.inr ⟨hvacant, hfresh, hix, hret, ?_, fun u hu => ?_⟩
      · rw [hst, Function.update_self]
        exact Option.some_ne_none _
      · rw [hres, Function.update_of_ne hu]
    · rw [hres, Function.update_of_ne htu] at ha
      exact Or.inl ha
  | publish u _ _ _ _ _ _ _ hres => exact Or.inl (hdrop u (hres ▸ ha))
  | withdraw _ _ _ _ hres => exact Or.inl (hres ▸ ha)
  | release _ _ _ _ _ hres => exact Or.inl (hres ▸ ha)
  | relocate u _ _ _ _ _ _ _ _ _ _ hres => exact Or.inl (hdrop u (hres ▸ ha))
  | abandon u _ _ hres => exact Or.inl (hdrop u (hres ▸ ha))
  | clear _ _ _ _ _ hres => exact Or.inl (hres ▸ ha)

theorem Step.ix_cases (h : Step c s s') (hok : s.Ok) {k : κ} {a : α} (ha : s'.ix k = some a) :
    s.ix k = some a ∨ (∃ t v, s.reserved t = some a ∧ s.st a = some (k, v)) ∧
      ∀ t, s'.reserved t ≠ some a := by
  have hpublish : ∀ {t b j v}, s.reserved t = some b → s.st b = some (j, v) →
      s'.ix = Function.update s.ix j (some b) →
      s'.reserved = Function.update s.reserved t none → s.ix k = some a ∨
        (∃ t v, s.reserved t = some a ∧ s.st a = some (k, v)) ∧ ∀ t, s'.reserved t ≠ some a := by
    intro t b j v hheld hcell hix hres
    by_cases hk : k = j
    · subst hk
      rw [hix, Function.update_self] at ha
      obtain rfl := Option.some.inj ha
      refine Or.inr ⟨⟨t, v, hheld, hcell⟩, fun u hu => ?_⟩
      by_cases hut : u = t
      · rw [hres, hut, Function.update_self] at hu
        cases hu
      · rw [hres, Function.update_of_ne hut] at hu
        exact hut (hok.exclusive u t b hu hheld)
    · rw [hix, Function.update_of_ne hk] at ha
      exact Or.inl ha
  cases h with
  | pass => exact Or.inl ha
  | publish t b j v hheld hcell hix _ hres => exact hpublish hheld hcell hix hres
  | relocate t b b' j v hheld hcopy _ _ hix _ hres => exact hpublish hheld hcopy hix hres
  | withdraw t j hix =>
    by_cases hk : k = j
    · rw [hix, hk, Function.update_self] at ha
      cases ha
    · rw [hix, Function.update_of_ne hk] at ha
      exact Or.inl ha
  | reserve _ _ _ _ _ _ hix => exact Or.inl (hix ▸ ha)
  | release _ _ _ hix => exact Or.inl (hix ▸ ha)
  | abandon _ hix => exact Or.inl (hix ▸ ha)
  | clear _ _ hix => exact Or.inl (hix ▸ ha)

theorem Step.retired_cases (h : Step c s s') (hok : s.Ok) {t : τ} {a : α}
    (ha : s'.retired t = some a) :
    s.retired t = some a ∨ (∃ k, s.ix k = some a) ∧ ∀ k, s'.ix k ≠ some a := by
  have hretire : ∀ {u j new}, s'.retired = Function.update s.retired u (s.ix j) →
      s'.ix = Function.update s.ix j new → new ≠ some a ∨ s.ix j ≠ some a →
      s.retired t = some a ∨ (∃ k, s.ix k = some a) ∧ ∀ k, s'.ix k ≠ some a := by
    intro u j new hret hix hnew
    by_cases htu : t = u
    · subst htu
      rw [hret, Function.update_self] at ha
      refine Or.inr ⟨⟨j, ha⟩, fun k hk => ?_⟩
      by_cases hkj : k = j
      · rw [hix, hkj, Function.update_self] at hk
        exact hnew.elim (fun h => h hk) fun h => h ha
      -- two entries with one cell have one key
      · rw [hix, Function.update_of_ne hkj] at hk
        obtain ⟨v, hv⟩ := hok.owns k a hk
        obtain ⟨v', hv'⟩ := hok.owns j a ha
        rw [hv] at hv'
        exact hkj (Prod.mk.inj (Option.some.inj hv')).1
    · rw [hret, Function.update_of_ne htu] at ha
      exact Or.inl ha
  cases h with
  | pass => exact Or.inl ha
  | publish u b j v hheld _ hix _ _ hret =>
    refine hretire hret hix ?_
    by_cases hb : b = a
    · exact Or.inr (hb ▸ hok.unpublished u b j hheld)
    · exact Or.inl fun heq => hb (Option.some.inj heq)
  | withdraw u j hix _ _ hret => exact hretire hret hix (Or.inl (by simp))
  | reserve _ _ _ _ _ _ _ _ _ hret => exact Or.inl (hret ▸ ha)
  | relocate _ _ _ _ _ _ _ _ _ _ _ _ hret => exact Or.inl (hret ▸ ha)
  | abandon _ _ _ _ hret => exact Or.inl (hret ▸ ha)
  | clear _ _ _ _ _ _ hret => exact Or.inl (hret ▸ ha)
  | release u b hheld _ _ _ hret =>
    by_cases htu : t = u
    · rw [hret, htu, Function.update_self] at ha
      cases ha
    · rw [hret, Function.update_of_ne htu] at ha
      exact Or.inl ha

theorem Step.ok (h : Step c s s') (hok : s.Ok) : s'.Ok where
  owns := by
    intro k a hk
    rcases h.ix_cases hok hk with hold | ⟨⟨t, v, ht, hcell⟩, -⟩
    · obtain ⟨v, hv⟩ := hok.owns k a hold
      exact ⟨v, (h.st_eq hok (Or.inl ⟨k, hold⟩)).trans hv⟩
    · exact ⟨v, (h.st_eq hok (Or.inr ⟨t, ht⟩)).trans hcell⟩
  written := by
    intro t a ht
    rcases h.reserved_cases ht with hold | ⟨-, -, -, -, hwritten, -⟩
    · rw [h.st_eq hok (Or.inr ⟨t, hold⟩)]
      exact hok.written t a hold
    · exact hwritten
  unpublished := by
    intro t a k ht hk
    rcases h.ix_cases hok hk with hold | ⟨-, hnone⟩
    · rcases h.reserved_cases ht with hres | ⟨hvacant, -⟩
      · exact hok.unpublished t a k hres hold
      · obtain ⟨v, hv⟩ := hok.owns k a hold
        rw [hvacant] at hv
        cases hv
    · exact hnone t ht
  exclusive := by
    intro t t' a ht ht'
    rcases h.reserved_cases ht with hold | ⟨hvacant, -, -, -, -, hothers⟩
    · rcases h.reserved_cases ht' with hold' | ⟨hvacant, -⟩
      · exact hok.exclusive t t' a hold hold'
      · exact (hok.written t a hold hvacant).elim
    · by_contra hne
      rw [hothers t' fun heq => hne heq.symm] at ht'
      exact hok.written t' a ht' hvacant
  unlinked := by
    intro t a k ht hk
    rcases h.retired_cases hok ht with hold | ⟨-, hnone⟩
    · rcases h.ix_cases hok hk with hix | ⟨⟨u, v, hu, -⟩, -⟩
      · exact hok.unlinked t a k hold hix
      · exact hok.disjoint t u a hold hu
    · exact hnone k hk
  disjoint := by
    intro t t' a ht ht'
    rcases h.reserved_cases ht' with hres | ⟨-, hfresh, hix, hret, -⟩
    · rcases h.retired_cases hok ht with hold | ⟨⟨k, hk⟩, -⟩
      · exact hok.disjoint t t' a hold hres
      · exact hok.unpublished t' a k hres hk
    · rw [hret] at ht
      exact hfresh t ht

theorem Step.vacated (h : Step c s s') (hok : s.Ok) {X : α → Prop} (hX : s.Vacated X)
    (hnew : ∀ t a, s'.reserved t = some a → X a → s.reserved t = some a) : s'.Vacated X := by
  intro a ha
  refine ⟨fun k hk => ?_, fun t ht => (hX a ha).2 t (hnew t a ht ha)⟩
  rcases h.ix_cases hok hk with hold | ⟨⟨t, v, ht, -⟩, -⟩
  · exact (hX a ha).1 k hold
  · exact (hX a ha).2 t ht

theorem Step.content_eq (h : Step c s s') (hok : s.Ok) :
    content s'.ix s'.st = match c with
      | none => content s.ix s.st
      | some (k, v) => Function.update (content s.ix s.st) k v := by
  have hframe : s'.ix = s.ix → content s'.ix s'.st = content s.ix s.st := by
    intro hix
    rw [hix]
    funext k
    cases hk : s.ix k with
    | none => rw [content_none hk, content_none hk]
    | some a => simp only [content, hk, Option.bind_some, h.st_eq hok (Or.inl ⟨k, hk⟩)]
  cases h with
  | pass => rfl
  | reserve _ _ _ _ _ _ hix => exact hframe hix
  | release _ _ _ hix => exact hframe hix
  | abandon _ hix => exact hframe hix
  | clear _ _ hix => exact hframe hix
  | publish t a k v _ hcell hix hst =>
    rw [hix, hst]
    exact content_set hcell
  | withdraw t k hix hst =>
    rw [hix, hst]
    exact content_unset k
  | relocate t a b k v _ hcopy hentry hcell hix hst =>
    rw [hix, hst]
    exact content_move hentry hcell hcopy

end ParaKV.Lib.SlotProtocol
