/- GID: ParaKV/Cache/Aging
   source: parakv/core/cache/lfuda_cache.h
   digest: Aging reaches every idle element exactly as long as the age list is in the order of
     the ages. -/

import Mathlib.Data.List.TakeWhile
import ParaKV.Cache.AgeQueue

/-!
`do_dynamic_age` looks at the front of the age list and stops at the first element that is not idle.
`do_access` puts the element it uses before the last one, not after it: when the last element was
last used earlier, it is behind a younger one from then on.
-/

set_option autoImplicit false

namespace ParaKV.Cache.Aging

open Lib.Containers Cache.Lfuda Cache.Representation Cache.AgeQueue LfudaCache

variable {κ ν : Type} [DecidableEq κ] {c : Config} {capacity : ℕ} {now : ℤ}
variable {s : LfudaCache κ ν} {q : Queue κ ν}

def idleKeys (c : Config) (now : ℤ) (s : LfudaCache κ ν) : Finset κ :=
  s.keyedElements.keys.filter fun k => (entry s k).any (idle c now)

/-- Exactly the idle elements are aged, each once, and the number of them is returned. -/
def AgesAllIdle (c : Config) (now : ℤ) (s : LfudaCache κ ν) : Prop :=
  ∃ s', s.doDynamicAge c now = some ((idleKeys c now s).card, s') ∧
    ∀ k, entry s' k = (entry s k).map fun e => if idle c now e then agedElement c now e else e

/-! The idle entries of a queue. -/

theorem idleKeys_eq (h : Shows s capacity q) :
    idleKeys c now s = ((q.filter (idle c now)).map (·.key)).toFinset := by
  ext k
  have hentry : entry s k = held q k := (h.held k).symm
  have hmem : k ∈ s.keyedElements.keys ↔ (held q k).isSome := by
    rw [Finmap.mem_keys, ← Finmap.lookup_isSome, h.held, Option.isSome_map]
  simp only [idleKeys, Finset.mem_filter, hmem, hentry, List.mem_toFinset, List.mem_map,
    List.mem_filter]
  constructor
  · rintro ⟨-, hany⟩
    obtain ⟨e, he, hidle⟩ := (Option.any_eq_true _ _).mp hany
    exact ⟨e, ⟨(mem_of_held he).1, hidle⟩, (mem_of_held he).2⟩
  · rintro ⟨e, ⟨he, hidle⟩, hkey⟩
    rw [h.distinct.held_of_mem he hkey]
    exact ⟨rfl, hidle⟩

theorem idleKeys_card (h : Shows s capacity q) :
    (idleKeys c now s).card = (q.filter (idle c now)).length := by
  rw [idleKeys_eq h, List.toFinset_card_of_nodup, List.length_map]
  exact List.pairwise_map.mpr (h.distinct.filter _)

theorem takeWhile_sublist_filter {α : Type} (p : α → Bool) (q : List α) :
    (q.takeWhile p).Sublist (q.filter p) := by
  have hself : (q.takeWhile p).filter p = q.takeWhile p :=
    List.filter_eq_self.mpr fun e he => List.mem_takeWhile_imp he
  rw [← hself]
  exact (List.takeWhile_sublist p).filter p

theorem held_aged (h' : Distinct (aged c now q))
    (hall : q.takeWhile (idle c now) = q.filter (idle c now)) (k : κ) :
    held (aged c now q) k =
      (held q k).map fun e => if idle c now e then agedElement c now e else e := by
  cases hheld : held q k with
  | none =>
    refine held_eq_none_iff.mpr fun e he => ?_
    rcases mem_aged.mp he with he | ⟨e₀, he₀, rfl⟩
    · exact held_eq_none_iff.mp hheld e (List.dropWhile_subset _ he)
    · exact held_eq_none_iff.mp hheld e₀ (List.takeWhile_subset _ he₀)
  | some e =>
    obtain ⟨he, hkey⟩ := mem_of_held hheld
    simp only [Option.map_some]
    split_ifs with hidle
    · have hfront : e ∈ q.takeWhile (idle c now) := by
        rw [hall]
        exact List.mem_filter.mpr ⟨he, hidle⟩
      exact h'.held_of_mem (mem_aged.mpr (Or.inr ⟨e, hfront, rfl⟩)) hkey
    · have hback : e ∈ q.dropWhile (idle c now) := by
        rw [← List.takeWhile_append_dropWhile (p := idle c now) (l := q)] at he
        exact (List.mem_append.mp he).resolve_left fun hfront =>
          hidle (List.mem_takeWhile_imp hfront)
      exact h'.held_of_mem (mem_aged.mpr (Or.inl hback)) hkey

theorem agesAllIdle_iff (h : Shows s capacity q) (htick : 0 ≤ c.dynamicAgeTick) :
    AgesAllIdle c now s ↔ q.takeWhile (idle c now) = q.filter (idle c now) := by
  obtain ⟨s', hage, hshows⟩ := doDynamicAge_returns h htick now
  constructor
  · rintro ⟨s'', hage', -⟩
    rw [hage] at hage'
    have hlength := (Prod.mk.inj (Option.some.inj hage')).1
    rw [idleKeys_card h] at hlength
    exact (takeWhile_sublist_filter _ q).eq_of_length hlength
  · intro hall
    refine ⟨s', by rw [hage, hall, idleKeys_card h], fun k => ?_⟩
    rw [entry, ← hshows.held, entry, ← h.held]
    exact held_aged hshows.distinct hall k

/-! The order of the ages. -/

def InAgeOrder (q : Queue κ ν) : Prop := q.Pairwise fun e e' => e.dynamicAge ≤ e'.dynamicAge

theorem complete_iff_inAgeOrder {κ : Type} {q : Queue κ ν} :
    (∀ now, q.takeWhile (idle c now) = q.filter (idle c now)) ↔ InAgeOrder q := by
  induction q with
  | nil => simp [InAgeOrder]
  | cons e q ih =>
    rw [InAgeOrder, List.pairwise_cons, ← InAgeOrder, ← ih]
    constructor
    · intro hall
      refine ⟨fun e' he' => ?_, fun now => ?_⟩
      · -- at the moment when the first entry is not idle yet
        by_contra hlt
        have hfirst : idle c (e.dynamicAge + c.dynamicAgeTick) e = false := by simp [idle]
        have hother : idle c (e.dynamicAge + c.dynamicAgeTick) e' = true := by
          simp only [idle, decide_eq_true_eq]
          omega
        have hnow := hall (e.dynamicAge + c.dynamicAgeTick)
        rw [List.takeWhile_cons_of_neg (by simp [hfirst])] at hnow
        have hmem : e' ∈ (e :: q).filter (idle c (e.dynamicAge + c.dynamicAgeTick)) :=
          List.mem_filter.mpr ⟨List.mem_cons_of_mem _ he', hother⟩
        rw [← hnow] at hmem
        cases hmem
      · have hnow := hall now
        cases hidle : idle c now e with
        | true =>
          rw [List.takeWhile_cons_of_pos hidle, List.filter_cons_of_pos hidle] at hnow
          exact (List.cons.inj hnow).2
        | false =>
          rw [List.takeWhile_cons_of_neg (by simp [hidle]),
            List.filter_cons_of_neg (by simp [hidle])] at hnow
          have hnil := (takeWhile_sublist_filter (idle c now) q)
          rw [← hnow] at hnil ⊢
          exact List.sublist_nil.mp hnil
    · rintro ⟨hfirst, hrest⟩ now
      cases hidle : idle c now e with
      | true =>
        rw [List.takeWhile_cons_of_pos hidle, List.filter_cons_of_pos hidle, hrest now]
      | false =>
        rw [List.takeWhile_cons_of_neg (by simp [hidle]),
          List.filter_cons_of_neg (by simp [hidle])]
        refine (List.filter_eq_nil_iff.mpr fun e' he' => ?_).symm
        have hle := hfirst e' he'
        simp only [idle, decide_eq_true_eq, decide_eq_false_iff_not] at hidle ⊢
        omega

theorem InAgeOrder.append_now {κ ν : Type} {q tail : Queue κ ν} (h : InAgeOrder q)
    (hbound : ∀ e ∈ q, e.dynamicAge ≤ now) (htail : ∀ e ∈ tail, e.dynamicAge = now) :
    InAgeOrder (q ++ tail) := by
  refine List.pairwise_append.mpr ⟨h, ?_, fun e he e' he' => (htail e' he').symm ▸ hbound e he⟩
  exact List.pairwise_of_forall_mem_list fun e he e' he' => by rw [htail e he, htail e' he']

theorem aged_order {κ : Type} {q : Queue κ ν} (h : InAgeOrder q)
    (hbound : ∀ e ∈ q, e.dynamicAge ≤ now) :
    InAgeOrder (aged c now q) ∧ ∀ e ∈ aged c now q, e.dynamicAge ≤ now := by
  have htail : ∀ e ∈ ((q.takeWhile (idle c now)).map (agedElement c now)).reverse,
      e.dynamicAge = now := by
    intro e he
    obtain ⟨e₀, -, rfl⟩ := List.mem_map.mp (List.mem_reverse.mp he)
    rfl
  have hfront : ∀ e ∈ q.dropWhile (idle c now), e.dynamicAge ≤ now :=
    fun e he => hbound e (List.dropWhile_subset _ he)
  refine ⟨InAgeOrder.append_now (h.sublist (List.dropWhile_sublist _)) hfront htail, fun e he => ?_⟩
  rcases List.mem_append.mp he with he | he
  · exact hfront e he
  · exact (htail e he).le

theorem placed_order (h : InAgeOrder q) (hbound : ∀ e ∈ q, e.dynamicAge ≤ now) {e : Element κ ν}
    (hage : e.dynamicAge = now) :
    (InAgeOrder (placed q e) ↔ ∀ l, q.getLast? = some l → e.key = l.key ∨ l.dynamicAge = now) ∧
      ∀ e' ∈ placed q e, e'.dynamicAge ≤ now := by
  rcases List.eq_nil_or_concat' q with rfl | ⟨front, l, rfl⟩
  · simp [placed, InAgeOrder]
  · obtain ⟨hfront, -, hlast⟩ := List.pairwise_append.mp h
    have hbefore : ∀ e' ∈ front, e'.dynamicAge ≤ now :=
      fun e' he' => hbound e' (List.mem_append_left _ he')
    have hwithout : InAgeOrder (without front e.key) := hfront.sublist List.filter_sublist
    have hin : ∀ e' ∈ without front e.key, e' ∈ front := fun e' he' => List.mem_of_mem_filter he'
    have hl : l.dynamicAge ≤ now := hbound l (by simp)
    have hiff : (∀ l', (front ++ [l]).getLast? = some l' → e.key = l'.key ∨ l'.dynamicAge = now) ↔
        e.key = l.key ∨ l.dynamicAge = now := by
      simp
    rw [hiff, placed_concat]
    split_ifs with hkey
    · refine ⟨iff_of_true (InAgeOrder.append_now hfront hbefore (by simpa using hage))
        (Or.inl hkey), fun e' he' => ?_⟩
      rcases List.mem_append.mp he' with he' | he'
      · exact hbefore e' he'
      · rw [List.mem_singleton.mp he', hage]
    · have hnever : e.key = l.key ∨ l.dynamicAge = now ↔ now ≤ l.dynamicAge :=
        ⟨fun h => (h.resolve_left hkey).ge, fun h => Or.inr (le_antisymm hl h)⟩
      rw [hnever]
      refine ⟨⟨fun h' => ?_, fun hle => ?_⟩, fun e' he' => ?_⟩
      · obtain ⟨-, hend, -⟩ := List.pairwise_append.mp h'
        have hpair := (List.pairwise_cons.mp hend).1 l (by simp)
        rwa [hage] at hpair
      · have htail : ∀ e' ∈ [e, l], e'.dynamicAge = now := by
          simpa [hage] using le_antisymm hl hle
        exact InAgeOrder.append_now hwithout (fun e' he' => hbefore e' (hin e' he')) htail
      · rcases List.mem_append.mp he' with he' | he'
        · exact hbefore e' (hin e' he')
        · rcases List.mem_pair.mp he' with rfl | rfl
          · exact hage.le
          · exact hl

/-! Runs. -/

def usedKey : Op κ ν → Option κ
  | .insert k _ a => if updateAllowed a then some k else none
  | .find k peek => if peek then none else some k
  | .findWithUseCount k peek => if peek then none else some k
  | .erase _ => none
  | .dynamicallyAge => none

/-- A use is of the last used node of the age list, or at the time of that node. -/
def UsesLast (s : LfudaCache κ ν) (op : Op κ ν) (now : ℤ) : Prop :=
  ∀ k n l, usedKey op = some k → s.keyedElements.lookup k = some n →
    prev s.dynamicAgeList s.openListEnd = some l → n = l ∨ (s.elements l).dynamicAge = now

def UsesLastEntry (q : Queue κ ν) (op : Op κ ν) (now : ℤ) : Prop :=
  ∀ k e, usedKey op = some k → held q k = some e →
    ∀ l, q.getLast? = some l → e.key = l.key ∨ l.dynamicAge = now

theorem usesLast_iff (h : Shows s capacity q) (op : Op κ ν) :
    UsesLast s op now ↔ UsesLastEntry q op now := by
  have hlast := h.last
  constructor
  · intro huse k e hk he l hl
    rw [h.held] at he
    obtain ⟨n, hn, rfl⟩ := Option.map_eq_some_iff.mp he
    rw [← hlast] at hl
    obtain ⟨m, hm, rfl⟩ := Option.map_eq_some_iff.mp hl
    rcases huse k n m hk hn hm with rfl | hage
    · exact Or.inl rfl
    · exact Or.inr hage
  · intro huse k n l hk hn hl
    have he : held q k = some (s.elements n) := by rw [h.held, hn]; rfl
    have hl' : q.getLast? = some (s.elements l) := by rw [← hlast, hl]; rfl
    refine (huse k _ hk he _ hl').imp_left fun hkey => ?_
    obtain ⟨used, free, hrep, rfl, -⟩ := h
    rw [hrep.list, hrep.openEnd, prev_append hrep.nodup] at hl
    exact hrep.key_inj ((hrep.keyed k n).mp hn).1 (List.mem_of_getLast? hl) hkey

theorem usesLastEntry_of_none {op : Op κ ν} (h : ∀ k, usedKey op = some k → held q k = none) :
    UsesLastEntry q op now := by
  intro k e hk he
  rw [h k hk] at he
  cases he

theorem usesLastEntry_insert {k : κ} {v : ν} {a : Allow}
    (h : held q k = none ∨ updateAllowed a = false) : UsesLastEntry q (.insert k v a) now := by
  refine usesLastEntry_of_none fun k' hk' => ?_
  simp only [usedKey] at hk'
  split_ifs at hk' with hallow
  obtain rfl := Option.some.inj hk'
  rcases h with hnone | hfalse
  · exact hnone
  · rw [hfalse] at hallow
    cases hallow

theorem insert_order {κ : Type} {q : Queue κ ν} (h : InAgeOrder q)
    (hbound : ∀ e ∈ q, e.dynamicAge ≤ now) (k : κ) (v : ν) :
    InAgeOrder (q ++ [⟨k, 1, now, v⟩]) ∧ ∀ e ∈ q ++ [⟨k, 1, now, v⟩], e.dynamicAge ≤ now := by
  refine ⟨h.append_now hbound (by simp), fun e he => ?_⟩
  rcases List.mem_append.mp he with he | he
  · exact hbound e he
  · rw [List.mem_singleton.mp he]

section Step

variable (h : InAgeOrder q) (hbound : ∀ e ∈ q, e.dynamicAge ≤ now)
include h hbound

theorem use_order {op : Op κ ν} {k : κ} {e e' : Element κ ν} (hk : usedKey op = some k)
    (he : held q k = some e) (hkey : e'.key = e.key) (hage : e'.dynamicAge = now) :
    (InAgeOrder (placed q e') ↔ UsesLastEntry q op now) ∧
      ∀ e ∈ placed q e', e.dynamicAge ≤ now := by
  obtain ⟨hiff, hle⟩ := placed_order h hbound hage
  refine ⟨hiff.trans ⟨fun hlast k' e₁ hk' he₁ => ?_, fun huse => ?_⟩, hle⟩
  · obtain rfl : k = k' := Option.some.inj (hk.symm.trans hk')
    obtain rfl : e = e₁ := Option.some.inj (he.symm.trans he₁)
    rwa [hkey] at hlast
  · rw [hkey]
    exact huse k e hk he

theorem find_order {op : Op κ ν} {k : κ} {peek : Bool}
    (hop : usedKey op = if peek then none else some k) :
    (InAgeOrder (afterFind q k peek now) ↔ UsesLastEntry q op now) ∧
      ∀ e ∈ afterFind q k peek now, e.dynamicAge ≤ now := by
  by_cases hused : peek = false ∧ ∃ e, held q k = some e
  · obtain ⟨rfl, e, he⟩ := hused
    rw [afterFind, he]
    exact use_order h hbound hop he rfl rfl
  · have hsame : afterFind q k peek now = q := by
      rw [afterFind]
      cases hheld : held q k with
      | none => rfl
      | some e =>
        have hpeek : peek = true := by
          by_contra hne
          exact hused ⟨by simpa using hne, e, hheld⟩
        rw [hpeek]
        rfl
    rw [hsame]
    refine ⟨iff_of_true h (usesLastEntry_of_none fun k' hk' => ?_), hbound⟩
    rw [hop] at hk'
    split_ifs at hk' with hpeek
    obtain rfl := Option.some.inj hk'
    by_contra hne
    exact hused ⟨by simpa using hpeek, Option.ne_none_iff_exists'.mp hne⟩

theorem without_order (k : κ) :
    InAgeOrder (without q k) ∧ ∀ e ∈ without q k, e.dynamicAge ≤ now :=
  ⟨h.sublist List.filter_sublist, fun e he => hbound e (List.mem_of_mem_filter he)⟩

theorem step_order {op : Op κ ν} {reply : Reply ν} {evicted : List (κ × ν)} {q' : Queue κ ν}
    (hstep : Step c capacity now q op reply evicted q') :
    (InAgeOrder q' ↔ UsesLastEntry q op now) ∧ ∀ e ∈ q', e.dynamicAge ≤ now := by
  cases hstep with
  | @update k v a e hheld hallow => exact use_order h hbound (if_pos hallow) hheld rfl rfl
  | @insert k v a hheld hallow hroom =>
    obtain ⟨horder, hle⟩ := insert_order h hbound k v
    exact ⟨iff_of_true horder (usesLastEntry_insert (Or.inl hheld)), hle⟩
  | @evict k v a victim hheld hallow hfull hvictim hleast =>
    obtain ⟨haged, hagedle⟩ := aged_order (c := c) h hbound
    obtain ⟨hwithout, hwithoutle⟩ := without_order haged hagedle victim.key
    obtain ⟨horder, hle⟩ := insert_order hwithout hwithoutle k v
    exact ⟨iff_of_true horder (usesLastEntry_insert (Or.inl hheld)), hle⟩
  | @refuse k v a hallow =>
    refine ⟨iff_of_true h (usesLastEntry_insert ?_), hbound⟩
    cases hheld : held q k with
    | none => exact Or.inl rfl
    | some e => exact Or.inr (by simpa [hheld] using hallow)
  | @erase k =>
    obtain ⟨horder, hle⟩ := without_order h hbound k
    exact ⟨iff_of_true horder (usesLastEntry_of_none fun _ hk => by cases hk), hle⟩
  | find => exact find_order h hbound rfl
  | findWithUseCount => exact find_order h hbound rfl
  | age =>
    obtain ⟨hage, hle⟩ := aged_order (c := c) h hbound
    exact ⟨iff_of_true hage (usesLastEntry_of_none fun _ hk => by cases hk), hle⟩

end Step

theorem agesAllIdle_forall_iff (h : Shows s capacity q) (htick : 0 ≤ c.dynamicAgeTick) :
    (∀ now, AgesAllIdle c now s) ↔ InAgeOrder q := by
  rw [← complete_iff_inAgeOrder (c := c)]
  exact forall_congr' fun now => agesAllIdle_iff h htick

/-- The caches that operations with non-decreasing clock readings reach, each meeting `ok`, with the
last reading. -/
inductive Reached [Inhabited κ] [Inhabited ν] (c : Config)
    (ok : LfudaCache κ ν → Op κ ν → ℤ → Prop) : LfudaCache κ ν → ℤ → Prop
  | create (capacity : ℕ) (t : ℤ) : Reached c ok (create capacity) t
  | step {s : LfudaCache κ ν} {t now : ℤ} {op : Op κ ν} {r : Result κ ν} (h : Reached c ok s t)
      (hclock : t ≤ now) (hok : ok s op now) (hexec : exec c s op now = some r) :
      Reached c ok r.cache now

variable [Inhabited κ] [Inhabited ν]

theorem reached_order {t : ℤ} (h : Reached c UsesLast s t) :
    ∃ capacity q, Shows s capacity q ∧ InAgeOrder q ∧ ∀ e ∈ q, e.dynamicAge ≤ t := by
  induction h with
  | create capacity t => exact ⟨capacity, [], shows_create capacity, List.Pairwise.nil, by simp⟩
  | @step s t now op r _ hclock hok hexec ih =>
    obtain ⟨capacity, q, hshows, horder, hbound⟩ := ih
    obtain ⟨q', hshows', hstep⟩ := exec_refines hshows hexec
    have hbound' : ∀ e ∈ q, e.dynamicAge ≤ now := fun e he => (hbound e he).trans hclock
    obtain ⟨hiff, hle⟩ := step_order horder hbound' hstep
    exact ⟨capacity, q', hshows', hiff.mpr ((usesLast_iff hshows op).mp hok), hle⟩

/-- Aging is complete as long as every use is of the last used node or at its time, and the first
other use ends that. -/
theorem aging_complete (htick : 0 ≤ c.dynamicAgeTick) {t : ℤ} (h : Reached c UsesLast s t) :
    (∀ now, AgesAllIdle c now s) ∧
      ∀ op now r, t ≤ now → exec c s op now = some r →
        ((∀ later, AgesAllIdle c later r.cache) ↔ UsesLast s op now) := by
  obtain ⟨capacity, q, hshows, horder, hbound⟩ := reached_order h
  refine ⟨(agesAllIdle_forall_iff hshows htick).mpr horder, fun op now r hclock hexec => ?_⟩
  obtain ⟨q', hshows', hstep⟩ := exec_refines hshows hexec
  have hbound' : ∀ e ∈ q, e.dynamicAge ≤ now := fun e he => (hbound e he).trans hclock
  rw [agesAllIdle_forall_iff hshows' htick, usesLast_iff hshows]
  exact (step_order horder hbound' hstep).1

def halving : Config := ⟨10, halve⟩

/-- The cache and the last reading after operations that each meet `ok`, at clock readings that do
not go back. -/
def runWhile (c : Config) (ok : LfudaCache κ ν → Op κ ν → ℤ → Prop)
    [∀ s op now, Decidable (ok s op now)] :
    LfudaCache κ ν → ℤ → List (Op κ ν × ℤ) → Option (LfudaCache κ ν × ℤ)
  | s, t, [] => some (s, t)
  | s, t, (op, now) :: ops =>
    if t ≤ now ∧ ok s op now then do
      let r ← exec c s op now
      runWhile c ok r.cache now ops
    else none

theorem reached_runWhile {ok : LfudaCache κ ν → Op κ ν → ℤ → Prop}
    [∀ s op now, Decidable (ok s op now)] {ops : List (Op κ ν × ℤ)} {s s' : LfudaCache κ ν}
    {t t' : ℤ} (h : Reached c ok s t) (hrun : runWhile c ok s t ops = some (s', t')) :
    Reached c ok s' t' := by
  induction ops generalizing s t with
  | nil =>
    obtain ⟨rfl, rfl⟩ := Prod.mk.inj (Option.some.inj hrun)
    exact h
  | cons head ops ih =>
    obtain ⟨op, now⟩ := head
    rw [runWhile] at hrun
    split_ifs at hrun with hok
    obtain ⟨r, hexec, hrest⟩ := Option.bind_eq_some_iff.mp hrun
    exact ih (.step h hok.1 hok.2 hexec) hrest

instance (s : LfudaCache κ ν) (op : Op κ ν) (now : ℤ) : Decidable (UsesLast s op now) :=
  decidable_of_iff (∀ k ∈ usedKey op, ∀ n ∈ s.keyedElements.lookup k,
    ∀ l ∈ prev s.dynamicAgeList s.openListEnd, n = l ∨ (s.elements l).dynamicAge = now)
    ⟨fun h k n l hk hn hl => h k hk n hn l hl, fun h k hk n hn l hl => h k n l hk hn hl⟩

/-- Two elements, the second a little younger; long after that one of them is used. -/
def usedLater (k : ℕ) : List (Op ℕ Bool × ℤ) :=
  [(.insert 1 true .insertOrUpdate, 0), (.insert 2 true .insertOrUpdate, 1), (.find k false, 100)]

/-- What an aging at 105 returns, and the use counts it leaves to the two elements. -/
def agedAt105 (s : LfudaCache ℕ Bool) : Option (ℕ × Option SizeT × Option SizeT) :=
  (s.doDynamicAge halving 105).map fun r =>
    (r.1, (entry r.2 1).map (·.useCount), (entry r.2 2).map (·.useCount))

/-- The last element is used, and the other one is aged. -/
theorem aging_complete_used : ∃ s, Reached halving UsesLast s 100 ∧ idleKeys halving 105 s = {1} ∧
    agedAt105 s = some (1, some 0, some 2) ∧ ∀ now, AgesAllIdle halving now s := by
  have hrun : (runWhile halving UsesLast (create 2) 0 (usedLater 2)).any (fun r =>
      decide (r.2 = 100 ∧ idleKeys halving 105 r.1 = {1} ∧
        agedAt105 r.1 = some (1, some 0, some 2))) := by
    decide +kernel
  obtain ⟨⟨s, t⟩, hs, hfacts⟩ := (Option.any_eq_true _ _).mp hrun
  obtain ⟨rfl, hidle, hage⟩ := of_decide_eq_true hfacts
  have hreached := reached_runWhile (.create 2 0) hs
  exact ⟨s, hreached, hidle, hage, (aging_complete (by decide) hreached).1⟩

/-- The first element is used and goes before the last one, which has been idle for more than a
hundred and is not aged. -/
theorem idle_element_not_aged : ∃ s, Reached halving (fun _ _ _ => True) s 100 ∧
    idleKeys halving 105 s = {2} ∧ agedAt105 s = some (0, some 2, some 1) := by
  have hrun : (runWhile halving (fun _ _ _ => True) (create 2) 0 (usedLater 1)).any (fun r =>
      decide (r.2 = 100 ∧ idleKeys halving 105 r.1 = {2} ∧
        agedAt105 r.1 = some (0, some 2, some 1))) := by
    decide +kernel
  obtain ⟨⟨s, t⟩, hs, hfacts⟩ := (Option.any_eq_true _ _).mp hrun
  obtain ⟨rfl, hidle, hage⟩ := of_decide_eq_true hfacts
  exact ⟨s, reached_runWhile (.create 2 0) hs, hidle, hage⟩

end ParaKV.Cache.Aging
