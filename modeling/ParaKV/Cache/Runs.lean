/- GID: ParaKV/Cache/Runs
   source: parakv/core/cache/lfuda_cache.h
   digest: Runs of the cache return, and the nodes and both indexes over them agree throughout. -/

import ParaKV.Cache.AgeQueue

set_option autoImplicit false

namespace ParaKV.Cache.Runs

open Cache.Lfuda Cache.Representation Cache.AgeQueue

variable {κ ν : Type} [DecidableEq κ] {c : Config} {capacity : ℕ} {now : ℤ}
variable {s : LfudaCache κ ν} {q : Queue κ ν}

theorem execAll_cons {op : Op κ ν} {ops : List (Op κ ν × ℤ)} {turns : List (Turn κ ν)}
    (h : execAll c s ((op, now) :: ops) = some turns) :
    ∃ r rest, exec c s op now = some r ∧ execAll c r.cache ops = some rest ∧
      turns = ⟨s, op, now, r⟩ :: rest := by
  obtain ⟨r, hexec, hrest⟩ := Option.bind_eq_some_iff.mp h
  obtain ⟨rest, hall, hreturn⟩ := Option.bind_eq_some_iff.mp hrest
  exact ⟨r, rest, hexec, hall, (Option.some.inj hreturn).symm⟩

theorem execAll_cons_eq {op : Op κ ν} {ops : List (Op κ ν × ℤ)} {r : Result κ ν}
    {rest : List (Turn κ ν)} (hexec : exec c s op now = some r)
    (hrest : execAll c r.cache ops = some rest) :
    execAll c s ((op, now) :: ops) = some (⟨s, op, now, r⟩ :: rest) := by
  simp [execAll, hexec, hrest]

theorem execAll_returns (hcapacity : 0 < capacity) (htick : 0 ≤ c.dynamicAgeTick)
    (ops : List (Op κ ν × ℤ)) : ∀ {s : LfudaCache κ ν} {q : Queue κ ν}, Shows s capacity q →
    ∃ turns, execAll c s ops = some turns := by
  induction ops with
  | nil => exact fun _ => ⟨[], rfl⟩
  | cons head ops ih =>
    intro s q h
    obtain ⟨op, now⟩ := head
    obtain ⟨r, hexec⟩ := exec_returns h hcapacity htick op now
    obtain ⟨q', h', -⟩ := exec_refines h hexec
    obtain ⟨turns, hall⟩ := ih h'
    exact ⟨_, execAll_cons_eq hexec hall⟩

theorem execAll_shows (ops : List (Op κ ν × ℤ)) : ∀ {s : LfudaCache κ ν} {q : Queue κ ν}
    {turns : List (Turn κ ν)}, Shows s capacity q → execAll c s ops = some turns →
    ∀ t ∈ turns, ∃ q', Shows t.result.cache capacity q' := by
  induction ops with
  | nil =>
    intro s q turns h hall
    obtain rfl := Option.some.inj hall
    simp
  | cons head ops ih =>
    intro s q turns h hall
    obtain ⟨op, now⟩ := head
    obtain ⟨r, rest, hexec, hrest, rfl⟩ := execAll_cons hall
    obtain ⟨q', h', -⟩ := exec_refines h hexec
    intro t ht
    rcases List.mem_cons.mp ht with rfl | ht
    · exact ⟨q', h'⟩
    · exact ih h' hrest t ht

def states (s : LfudaCache κ ν) (turns : List (Turn κ ν)) : List (LfudaCache κ ν) :=
  s :: turns.map (·.result.cache)

/-- An aging returns, and only reorders the used nodes. -/
def AgesUsed (c : Config) (s : LfudaCache κ ν) (used free : List Node) : Prop :=
  ∀ now, ∃ aged s' used', s.doDynamicAge c now = some (aged, s') ∧ used'.Perm used ∧
    Rep s' used' free

theorem agesUsed_of_rep {used free : List Node} (h : Rep s used free)
    (htick : 0 ≤ c.dynamicAgeTick) : AgesUsed c s used free := by
  intro now
  have hends : AgingEnds c now s used := Or.inl htick
  obtain ⟨s', hage, haged⟩ := doDynamicAge_ends h hends
  exact ⟨_, s', agedNodes c now s used, hage, agedNodes_perm s used, rep_aged haged⟩

theorem representation_kept [Inhabited κ] [Inhabited ν] (c : Config) (capacity : ℕ)
    (hcapacity : 0 < capacity) (htick : 0 ≤ c.dynamicAgeTick) (calls : List (Call κ ν × ℤ)) :
    ∃ turns, execCalls c (.create capacity) calls = some turns ∧
      ∀ s ∈ states (.create capacity) turns, ∃ used free, Rep s used free ∧
        s.dynamicAgeList.length = capacity ∧
        (∀ n ∈ used, ((s.elements n).useCount, n) ∈ s.lfuList) ∧ AgesUsed c s used free := by
  have hcreate : Shows (.create capacity : LfudaCache κ ν) capacity [] := shows_create capacity
  obtain ⟨turns, hall⟩ := execAll_returns hcapacity htick _ hcreate
  refine ⟨turns, hall, fun s hs => ?_⟩
  have hshows : ∃ q, Shows s capacity q := by
    rcases List.mem_cons.mp hs with rfl | hs
    · exact ⟨[], hcreate⟩
    · obtain ⟨t, ht, rfl⟩ := List.mem_map.mp hs
      exact execAll_shows _ hcreate hall t ht
  obtain ⟨q, h⟩ := hshows
  have hlength := h.capacity_eq
  obtain ⟨used, free, hrep, -, -⟩ := h
  refine ⟨used, free, hrep, hlength, fun n hn => ?_, agesUsed_of_rep hrep htick⟩
  exact hrep.lfu.mem_iff.mpr (List.mem_map.mpr ⟨n, hn, rfl⟩)

/-- Three keys for a cache of two elements; the first has been used more than the second. -/
def crowded : List (Call ℕ ℕ × ℤ) :=
  [(.insertRange [(1, 10), (2, 20)] .insertOrUpdate, 0), (.findRange [1] false, 1),
    (.insertRange [(3, 30)] .insertOrUpdate, 2), (.findRange [1, 2, 3] true, 3)]

theorem representation_kept_crowded : 0 < 2 ∧ 0 ≤ (⟨10, halve⟩ : Config).dynamicAgeTick ∧
    ∃ turns, execCalls ⟨10, halve⟩ (.create 2) crowded = some turns ∧
      ∀ s ∈ states (.create 2) turns, ∃ used free, Rep s used free ∧
        s.dynamicAgeList.length = 2 ∧
        (∀ n ∈ used, ((s.elements n).useCount, n) ∈ s.lfuList) ∧
        AgesUsed ⟨10, halve⟩ s used free :=
  ⟨by decide, by decide, representation_kept ⟨10, halve⟩ 2 (by decide) (by decide) crowded⟩

end ParaKV.Cache.Runs
