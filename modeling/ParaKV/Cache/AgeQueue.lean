/- GID: ParaKV/Cache/AgeQueue
   source: parakv/core/cache/lfuda_cache.h
   digest: The cache as a queue of entries in the order of the age list, which the nodes refine. -/

import ParaKV.Cache.Representation

/-!
A reader of the cache can forget about nodes: what matters is the list of cached entries, first
the one that ages first. The queue says what each operation does to that list. Among the entries
with the fewest uses it lets any one be evicted; the cache takes the one that has had its use count
for longest.
-/

set_option autoImplicit false

namespace ParaKV.Cache.AgeQueue

open Lib.Containers Cache.Lfuda Cache.Representation LfudaCache

variable {κ ν : Type} [DecidableEq κ]

abbrev Queue (κ ν : Type) := List (Element κ ν)

def held (q : Queue κ ν) (k : κ) : Option (Element κ ν) := q.find? fun e => decide (e.key = k)

def without (q : Queue κ ν) (k : κ) : Queue κ ν := q.filter fun e => decide (e.key ≠ k)

def touched (now : ℤ) (e : Element κ ν) : Element κ ν :=
  { e with useCount := increment e.useCount, dynamicAge := now }

/-- The entry of its key becomes `e`, which goes before the last entry. -/
def placed (q : Queue κ ν) (e : Element κ ν) : Queue κ ν :=
  match q.getLast? with
  | none => []
  | some l => if e.key = l.key then q.dropLast ++ [e] else without q.dropLast e.key ++ [e, l]

theorem placed_concat (front : Queue κ ν) (l e : Element κ ν) : placed (front ++ [l]) e =
    if e.key = l.key then front ++ [e] else without front e.key ++ [e, l] := by
  simp [placed]

def afterFind (q : Queue κ ν) (k : κ) (peek : Bool) (now : ℤ) : Queue κ ν :=
  match held q k with
  | some e => if !peek then placed q (touched now e) else q
  | none => q

/-- The idle entries at the front are aged and go to the back. -/
def aged (c : Config) (now : ℤ) (q : Queue κ ν) : Queue κ ν :=
  q.dropWhile (idle c now) ++ ((q.takeWhile (idle c now)).map (agedElement c now)).reverse

theorem mem_aged {κ : Type} {c : Config} {now : ℤ} {q : Queue κ ν} {e : Element κ ν} :
    e ∈ aged c now q ↔
    e ∈ q.dropWhile (idle c now) ∨ ∃ e₀ ∈ q.takeWhile (idle c now), agedElement c now e₀ = e := by
  simp [aged]

inductive Step (c : Config) (capacity : ℕ) (now : ℤ) :
    Queue κ ν → Op κ ν → Reply ν → List (κ × ν) → Queue κ ν → Prop
  | update {q : Queue κ ν} {k : κ} {v : ν} {a : Allow} {e : Element κ ν} (hheld : held q k = some e)
      (hallow : updateAllowed a = true) :
      Step c capacity now q (.insert k v a) (.done true) []
        (placed q (touched now { e with value := v }))
  | insert {q : Queue κ ν} {k : κ} {v : ν} {a : Allow} (hheld : held q k = none)
      (hallow : insertAllowed a = true) (hroom : q.length < capacity) :
      Step c capacity now q (.insert k v a) (.done true) [] (q ++ [⟨k, 1, now, v⟩])
  | evict {q : Queue κ ν} {k : κ} {v : ν} {a : Allow} {victim : Element κ ν}
      (hheld : held q k = none) (hallow : insertAllowed a = true) (hfull : q.length = capacity)
      (hvictim : victim ∈ aged c now q)
      (hleast : ∀ e ∈ aged c now q, victim.useCount ≤ e.useCount) :
      Step c capacity now q (.insert k v a) (.done true) [(victim.key, victim.value)]
        (without (aged c now q) victim.key ++ [⟨k, 1, now, v⟩])
  | refuse {q : Queue κ ν} {k : κ} {v : ν} {a : Allow}
      (hallow : (if (held q k).isSome then updateAllowed a else insertAllowed a) = false) :
      Step c capacity now q (.insert k v a) (.done false) [] q
  | erase {q : Queue κ ν} {k : κ} :
      Step c capacity now q (.erase k) (.done (held q k).isSome) [] (without q k)
  | find {q : Queue κ ν} {k : κ} {peek : Bool} :
      Step c capacity now q (.find k peek) (.found ((held q k).map (·.value))) []
        (afterFind q k peek now)
  | findWithUseCount {q : Queue κ ν} {k : κ} {peek : Bool} :
      Step c capacity now q (.findWithUseCount k peek)
        (.counted ((held (afterFind q k peek now) k).map fun e => (e.value, e.useCount))) []
        (afterFind q k peek now)
  | age {q : Queue κ ν} :
      Step c capacity now q .dynamicallyAge (.aged (q.takeWhile (idle c now)).length) []
        (aged c now q)

/-! Queues with distinct keys. -/

def Distinct (q : Queue κ ν) : Prop := q.Pairwise fun e e' => e.key ≠ e'.key

section Distinct

variable {q : Queue κ ν} {e : Element κ ν} {k : κ}

theorem mem_of_held (h : held q k = some e) : e ∈ q ∧ e.key = k :=
  ⟨List.mem_of_find?_eq_some h, by simpa using List.find?_some h⟩

theorem held_eq_none_iff : held q k = none ↔ ∀ e ∈ q, e.key ≠ k := by
  simp [held, List.find?_eq_none]

theorem Distinct.eq_of_mem {κ : Type} {q : Queue κ ν} {e : Element κ ν} (hq : Distinct q)
    {e' : Element κ ν} (he : e ∈ q) (he' : e' ∈ q) (hkey : e.key = e'.key) : e = e' := by
  by_contra hne
  have : Std.Symm fun e e' : Element κ ν => e.key ≠ e'.key := ⟨fun _ _ h => h.symm⟩
  exact List.Pairwise.forall hq he he' hne hkey

theorem Distinct.held_of_mem (hq : Distinct q) (he : e ∈ q) (hkey : e.key = k) :
    held q k = some e := by
  cases hheld : held q k with
  | none => exact absurd hkey (held_eq_none_iff.mp hheld e he)
  | some e' =>
    obtain ⟨hmem, hkey'⟩ := mem_of_held hheld
    rw [hq.eq_of_mem hmem he (hkey'.trans hkey.symm)]

end Distinct

/-! What the nodes show. -/

def entry (s : LfudaCache κ ν) (k : κ) : Option (Element κ ν) :=
  (s.keyedElements.lookup k).map s.elements

def Shows (s : LfudaCache κ ν) (capacity : ℕ) (q : Queue κ ν) : Prop :=
  ∃ used free, Rep s used free ∧ used.map s.elements = q ∧ used.length + free.length = capacity

theorem shows_create [Inhabited κ] [Inhabited ν] (capacity : ℕ) :
    Shows (create capacity : LfudaCache κ ν) capacity [] :=
  ⟨[], List.range capacity, rep_create capacity, rfl, by simp⟩

section Nodes

variable {c : Config} {s : LfudaCache κ ν} {used free : List Node} {n : Node} {now : ℤ}

theorem distinct_of_rep (h : Rep s used free) : Distinct (used.map s.elements) := by
  rw [Distinct, List.pairwise_map]
  refine h.used_nodup.imp_of_mem fun hn hm hne hkey => ?_
  exact hne (h.key_inj hn hm hkey)

theorem held_of_rep (h : Rep s used free) (k : κ) :
    held (used.map s.elements) k = (s.keyedElements.lookup k).map s.elements := by
  cases hlookup : s.keyedElements.lookup k with
  | none =>
    refine held_eq_none_iff.mpr fun e he hkey => ?_
    obtain ⟨n, hn, rfl⟩ := List.mem_map.mp he
    rw [(h.keyed k n).mpr ⟨hn, hkey⟩] at hlookup
    cases hlookup
  | some n =>
    obtain ⟨hn, hkey⟩ := (h.keyed k n).mp hlookup
    exact (distinct_of_rep h).held_of_mem (List.mem_map_of_mem hn) hkey

theorem map_erase (hnodup : used.Nodup)
    (hkey : ∀ m ∈ used, (s.elements m).key = (s.elements n).key → m = n) :
    (used.erase n).map s.elements = without (used.map s.elements) (s.elements n).key := by
  rw [without, List.filter_map, hnodup.erase_eq_filter]
  refine congrArg _ (List.filter_congr fun m hm => ?_)
  by_cases heq : m = n
  · simp [heq]
  · have hne : (s.elements m).key ≠ (s.elements n).key := fun h => heq (hkey m hm h)
    simp [heq, hne]

theorem map_update_of_notMem {κ : Type} {s : LfudaCache κ ν} (hn : n ∉ used) (e : Element κ ν) :
    used.map (Function.update s.elements n e) = used.map s.elements := by
  refine List.map_congr_left fun m hm => ?_
  have hne : m ≠ n := fun heq => hn (heq ▸ hm)
  simp [hne]

theorem map_beforeLast {init : List Node} {l : Node} (h : Rep s (init ++ [l]) free)
    (hn : n ∈ init ++ [l]) {e : Element κ ν} (hkey : e.key = (s.elements n).key) :
    (beforeLast init l n).map (Function.update s.elements n e) =
      placed ((init ++ [l]).map s.elements) e := by
  have hnodup := h.used_nodup
  rw [List.map_append, List.map_singleton, placed_concat, hkey]
  by_cases hnl : n = l
  · subst hnl
    have hout : n ∉ init := notMem_left hnodup
    rw [if_pos rfl, beforeLast, if_pos rfl, List.map_append, map_update_of_notMem hout]
    simp
  · have hlmem : l ∈ init ++ [l] := by simp
    have hne : (s.elements n).key ≠ (s.elements l).key := fun heq => hnl (h.key_inj hn hlmem heq)
    have hinit : init.Nodup := (List.nodup_append.mp hnodup).1
    have hout : n ∉ init.erase n := hinit.not_mem_erase
    rw [if_neg hne, beforeLast, if_neg hnl, List.map_append, map_update_of_notMem hout,
      map_erase hinit fun m hm hmk => h.key_inj (List.mem_append_left _ hm) hn hmk]
    simp [Ne.symm hnl]

theorem shows_placed {s' : LfudaCache κ ν} {e : Element κ ν} {capacity : ℕ} (h : Rep s used free)
    (hcapacity : used.length + free.length = capacity) (hn : n ∈ used)
    (hkey : e.key = (s.elements n).key) (helements : s'.elements = Function.update s.elements n e)
    (hrep : ∀ init l, used = init ++ [l] → Rep s' (beforeLast init l n) free) :
    Shows s' capacity (placed (used.map s.elements) e) := by
  have hne : used ≠ [] := List.ne_nil_of_mem hn
  obtain ⟨init, l, rfl⟩ := (List.eq_nil_or_concat' used).resolve_left hne
  refine ⟨beforeLast init l n, free, hrep init l rfl, ?_, ?_⟩
  · rw [helements, map_beforeLast h hn hkey]
  · rw [(beforeLast_perm hn).length_eq, hcapacity]

theorem shows_access {capacity : ℕ} (h : Rep s used free)
    (hcapacity : used.length + free.length = capacity) (hn : n ∈ used) (now : ℤ) :
    Shows (s.doAccess n now) capacity
      (placed (used.map s.elements) (touched now (s.elements n))) := by
  refine shows_placed (n := n) h hcapacity hn rfl ?_ fun init l heq => ?_
  · funext m
    by_cases hm : m = n
    · subst hm
      simp [touched]
    · simp [hm, doAccess_elements_of_ne hm]
  · subst heq
    exact doAccess_rep h hn now

theorem shows_update {capacity : ℕ} (h : Rep s used free)
    (hcapacity : used.length + free.length = capacity) (hn : n ∈ used) (v : ν) (now : ℤ) :
    Shows (s.doUpdate n v now) capacity
      (placed (used.map s.elements) (touched now { s.elements n with value := v })) := by
  refine shows_placed (n := n) h hcapacity hn rfl ?_ fun init l heq => ?_
  · funext m
    by_cases hm : m = n
    · subst hm
      simp [doUpdate, touched]
    · simp [doUpdate, hm, doAccess_elements_of_ne hm]
  · subst heq
    refine doAccess_rep (h.congr (fun m => ?_) fun m => ?_) hn now
    all_goals
      by_cases hm : m = n
      · subst hm
        simp
      · simp [hm]

theorem shows_erase {capacity : ℕ} (h : Rep s used free)
    (hcapacity : used.length + free.length = capacity) (hn : n ∈ used) :
    Shows (s.doErase n) capacity (without (used.map s.elements) (s.elements n).key) := by
  refine ⟨used.erase n, n :: free, doErase_rep h hn, ?_, ?_⟩
  · exact map_erase h.used_nodup fun m hm hkey => h.key_inj hm hn hkey
  · have hpos := List.length_pos_of_mem hn
    rw [List.length_erase_of_mem hn, List.length_cons]
    omega

def agedNodes (c : Config) (now : ℤ) (s : LfudaCache κ ν) (used : List Node) : List Node :=
  used.dropWhile (fun m => idle c now (s.elements m)) ++
    (used.takeWhile fun m => idle c now (s.elements m)).reverse

theorem agedNodes_perm {κ : Type} (s : LfudaCache κ ν) (used : List Node) :
    (agedNodes c now s used).Perm used := by
  have hperm : (agedNodes c now s used).Perm
      (used.takeWhile (fun m => idle c now (s.elements m)) ++
        used.dropWhile fun m => idle c now (s.elements m)) :=
    List.perm_append_comm.trans ((List.reverse_perm _).append_right _)
  rwa [List.takeWhile_append_dropWhile] at hperm

theorem rep_aged {s' : LfudaCache κ ν} (haged : AgedTo c now s used [] free s') :
    Rep s' (agedNodes c now s used) free := by
  have hrep := haged.rep
  rwa [List.append_nil] at hrep

theorem map_agedNodes {s' : LfudaCache κ ν} (h : Rep s used free)
    (haged : AgedTo c now s used [] free s') :
    (agedNodes c now s used).map s'.elements = aged c now (used.map s.elements) := by
  have hdisjoint : ∀ m ∈ used.dropWhile (fun m => idle c now (s.elements m)),
      m ∉ used.takeWhile fun m => idle c now (s.elements m) := by
    intro m hm hm'
    have hnodup := h.used_nodup
    rw [← List.takeWhile_append_dropWhile (p := fun m => idle c now (s.elements m)) (l := used)]
      at hnodup
    exact List.disjoint_of_nodup_append hnodup hm' hm
  have hback : (used.dropWhile fun m => idle c now (s.elements m)).map s'.elements =
      (used.map s.elements).dropWhile (idle c now) := by
    rw [List.dropWhile_map]
    refine List.map_congr_left fun m hm => ?_
    rw [haged.elements, if_neg (hdisjoint m hm)]
  have hfront : (used.takeWhile fun m => idle c now (s.elements m)).map s'.elements =
      ((used.map s.elements).takeWhile (idle c now)).map (agedElement c now) := by
    rw [List.takeWhile_map, List.map_map]
    refine List.map_congr_left fun m hm => ?_
    rw [haged.elements, if_pos hm]
    rfl
  rw [agedNodes, List.map_append, List.map_reverse, hback, hfront]
  rfl

theorem shows_aged {capacity : ℕ} {s' : LfudaCache κ ν} (h : Rep s used free)
    (hcapacity : used.length + free.length = capacity) (haged : AgedTo c now s used [] free s') :
    Shows s' capacity (aged c now (used.map s.elements)) :=
  ⟨_, free, rep_aged haged, map_agedNodes h haged, by
    rw [(agedNodes_perm s used).length_eq, hcapacity]⟩

theorem head_least (h : Rep s used free) {count : SizeT}
    (hhead : s.lfuList.head? = some (count, n)) :
    n ∈ used ∧ ∀ m ∈ used, (s.elements n).useCount ≤ (s.elements m).useCount := by
  have hmem := h.lfu.mem_iff.mp (List.mem_of_mem_head? hhead)
  obtain ⟨m, hm, heq⟩ := List.mem_map.mp hmem
  obtain ⟨rfl, rfl⟩ := Prod.mk.inj heq
  refine ⟨hm, fun m' hm' => ?_⟩
  exact h.sorted.head_le hhead (h.lfu.mem_iff.mpr (List.mem_map.mpr ⟨m', hm', rfl⟩))

theorem shows_occupy {capacity : ℕ} {k : κ} (h : Rep s used (n :: free))
    (hcapacity : used.length + (n :: free).length = capacity)
    (hkey : s.keyedElements.lookup k = none) (v : ν) (now : ℤ) :
    Shows (s.occupy n k v now) capacity (used.map s.elements ++ [⟨k, 1, now, v⟩]) := by
  refine ⟨used ++ [n], free, occupy_rep h hkey v now, ?_, ?_⟩
  · have hout : n ∉ used := notMem_left h.nodup
    have helements : (s.occupy n k v now).elements =
      Function.update s.elements n ⟨k, 1, now, v⟩ := rfl
    rw [helements, List.map_append, map_update_of_notMem hout]
    simp
  · simp only [List.length_append, List.length_cons, List.length_nil] at hcapacity ⊢
    omega

end Nodes

/-! The operations. -/

section Refinement

variable {c : Config} {capacity : ℕ} {now : ℤ} {s : LfudaCache κ ν} {q : Queue κ ν}

theorem doPrune_refines (h : Shows s capacity q) (hused : q ≠ [])
    {r : List (κ × ν) × LfudaCache κ ν} (hprune : s.doPrune c now = some r) :
    ∃ victim ∈ aged c now q, (∀ e ∈ aged c now q, victim.useCount ≤ e.useCount) ∧
      r.1 = [(victim.key, victim.value)] ∧
      Shows r.2 capacity (without (aged c now q) victim.key) ∧
      r.2.keyedElements = s.keyedElements.erase victim.key := by
  obtain ⟨used, free, hrep, rfl, hcapacity⟩ := h
  have hpos : s.usedSize > 0 := by
    rw [hrep.size]
    exact List.length_pos_iff.mpr fun hnil => hused (hnil ▸ rfl)
  rw [doPrune, if_pos hpos] at hprune
  obtain ⟨⟨count, s₁⟩, hage, hrest⟩ := Option.bind_eq_some_iff.mp hprune
  obtain ⟨⟨least, victim⟩, hhead, hreturn⟩ := Option.bind_eq_some_iff.mp hrest
  obtain rfl := Option.some.inj hreturn
  have haged : AgedTo c now s used [] free s₁ := (doDynamicAge_some hrep hage).2
  have hrep₁ := rep_aged haged
  obtain ⟨hvictim, hleast⟩ := head_least hrep₁ hhead
  rw [← map_agedNodes hrep haged]
  refine ⟨s₁.elements victim, List.mem_map_of_mem hvictim, fun e he => ?_, rfl, ?_, ?_⟩
  · obtain ⟨m, hm, rfl⟩ := List.mem_map.mp he
    exact hleast m hm
  · exact shows_erase hrep₁ (by rw [(agedNodes_perm s used).length_eq, hcapacity]) hvictim
  · rw [← haged.keyed]
    rfl

theorem Shows.length_le (h : Shows s capacity q) : q.length ≤ capacity := by
  obtain ⟨used, free, -, rfl, rfl⟩ := h
  simp

theorem Shows.distinct (h : Shows s capacity q) : Distinct q := by
  obtain ⟨used, free, hrep, rfl, -⟩ := h
  exact distinct_of_rep hrep

theorem Shows.usedSize (h : Shows s capacity q) : s.usedSize = q.length := by
  obtain ⟨used, free, hrep, rfl, -⟩ := h
  rw [hrep.size, List.length_map]

theorem Shows.capacity_eq (h : Shows s capacity q) : s.dynamicAgeList.length = capacity := by
  obtain ⟨used, free, hrep, -, rfl⟩ := h
  rw [hrep.list, List.length_append]

theorem Shows.last (h : Shows s capacity q) :
    (prev s.dynamicAgeList s.openListEnd).map s.elements = q.getLast? := by
  obtain ⟨used, free, hrep, rfl, -⟩ := h
  rw [hrep.list, hrep.openEnd, prev_append hrep.nodup, List.getLast?_map]

theorem Shows.held (h : Shows s capacity q) (k : κ) :
    AgeQueue.held q k = (s.keyedElements.lookup k).map s.elements := by
  obtain ⟨used, free, hrep, rfl, -⟩ := h
  exact held_of_rep hrep k

theorem Shows.entry (h : Shows s capacity q) (k : κ) : AgeQueue.entry s k = AgeQueue.held q k :=
  (h.held k).symm

theorem occupy_refines (h : Shows s capacity q) {k : κ} (hkey : s.keyedElements.lookup k = none)
    {n : Node} (hopen : s.openListEnd = some n) (v : ν) :
    Shows (s.occupy n k v now) capacity (q ++ [⟨k, 1, now, v⟩]) := by
  obtain ⟨used, free, hrep, rfl, hcapacity⟩ := h
  obtain ⟨free, rfl⟩ : ∃ rest, free = n :: rest := by
    have hhead := hrep.openEnd.symm.trans hopen
    cases free with
    | nil => cases hhead
    | cons m rest => exact ⟨rest, by rw [Option.some.inj hhead]⟩
  exact shows_occupy hrep hcapacity hkey v now

theorem doInsert_refines (h : Shows s capacity q) {k : κ} (hkey : s.keyedElements.lookup k = none)
    (v : ν) {a : Allow} (hallow : insertAllowed a = true) {r : List (κ × ν) × LfudaCache κ ν}
    (hinsert : s.doInsert c k v now = some r) :
    ∃ q', Shows r.2 capacity q' ∧ Step c capacity now q (.insert k v a) (.done true) r.1 q' := by
  have hheld : AgeQueue.held q k = none := by rw [h.held, hkey]; rfl
  rw [doInsert, h.usedSize, h.capacity_eq] at hinsert
  by_cases hfull : q.length ≥ capacity
  · rw [if_pos hfull] at hinsert
    obtain ⟨⟨evicted, s₁⟩, hprune, hrest⟩ := Option.bind_eq_some_iff.mp hinsert
    obtain ⟨n, hopen, hreturn⟩ := Option.bind_eq_some_iff.mp hrest
    obtain rfl := Option.some.inj hreturn
    have hused : q ≠ [] := by
      rintro rfl
      obtain ⟨used, free, hrep, hmap, hcapacity⟩ := h
      obtain rfl := List.map_eq_nil_iff.mp hmap
      obtain rfl : free = [] := List.length_eq_zero_iff.mp (by simpa [← hcapacity] using hfull)
      rw [doPrune, if_neg (by rw [hrep.size]; exact Nat.lt_irrefl 0)] at hprune
      obtain ⟨rfl, rfl⟩ := Prod.mk.inj (Option.some.inj hprune)
      rw [hrep.openEnd] at hopen
      cases hopen
    obtain ⟨victim, hvictim, hleast, hevicted, hshows, hkeyed⟩ := doPrune_refines h hused hprune
    have hkey₁ : s₁.keyedElements.lookup k = none := by
      rw [show s₁.keyedElements = _ from hkeyed]
      by_cases hk : k = victim.key
      · rw [hk, Finmap.lookup_erase]
      · rw [Finmap.lookup_erase_ne hk, hkey]
    refine ⟨_, occupy_refines hshows hkey₁ hopen v, ?_⟩
    rw [show evicted = _ from hevicted]
    exact .evict hheld hallow (le_antisymm h.length_le hfull) hvictim hleast
  · rw [if_neg hfull] at hinsert
    obtain ⟨⟨evicted, s₁⟩, hsame, hrest⟩ := Option.bind_eq_some_iff.mp hinsert
    obtain ⟨rfl, rfl⟩ := Prod.mk.inj (Option.some.inj hsame)
    obtain ⟨n, hopen, hreturn⟩ := Option.bind_eq_some_iff.mp hrest
    obtain rfl := Option.some.inj hreturn
    exact ⟨_, occupy_refines h hkey hopen v, .insert hheld hallow (not_le.mp hfull)⟩

theorem doAccess_refines (h : Shows s capacity q) {k : κ} {n : Node}
    (hkey : s.keyedElements.lookup k = some n) (now : ℤ) :
    Shows (s.doAccess n now) capacity (placed q (touched now (s.elements n))) := by
  obtain ⟨used, free, hrep, rfl, hcapacity⟩ := h
  exact shows_access hrep hcapacity ((hrep.keyed k n).mp hkey).1 now

theorem doUpdate_refines (h : Shows s capacity q) {k : κ} {n : Node}
    (hkey : s.keyedElements.lookup k = some n) (v : ν) (now : ℤ) :
    Shows (s.doUpdate n v now) capacity
      (placed q (touched now { s.elements n with value := v })) := by
  obtain ⟨used, free, hrep, rfl, hcapacity⟩ := h
  exact shows_update hrep hcapacity ((hrep.keyed k n).mp hkey).1 v now

theorem doErase_refines (h : Shows s capacity q) {k : κ} {n : Node}
    (hkey : s.keyedElements.lookup k = some n) : Shows (s.doErase n) capacity (without q k) := by
  obtain ⟨used, free, hrep, rfl, hcapacity⟩ := h
  obtain ⟨hn, rfl⟩ := (hrep.keyed k n).mp hkey
  exact shows_erase hrep hcapacity hn

theorem without_of_held_eq_none {k : κ} (h : held q k = none) : without q k = q := by
  refine List.filter_eq_self.mpr fun e he => ?_
  simpa using held_eq_none_iff.mp h e he

theorem afterFind_refines (h : Shows s capacity q) (k : κ) (peek : Bool) (now : ℤ) :
    Shows (s.doFind k peek now).2 capacity (afterFind q k peek now) := by
  rw [doFind, afterFind, h.held]
  cases hkey : s.keyedElements.lookup k with
  | none => exact h
  | some n =>
    cases peek with
    | true => exact h
    | false => exact doAccess_refines h hkey now

theorem doFind_val (h : Shows s capacity q) (k : κ) (peek : Bool) (now : ℤ) :
    (s.doFind k peek now).1 = (held q k).map (·.value) := by
  rw [doFind, h.held]
  cases hkey : s.keyedElements.lookup k with
  | none => rfl
  | some n => cases peek <;> simp

theorem takeWhile_length {κ : Type} (s : LfudaCache κ ν) (used : List Node) :
    (used.takeWhile fun m => idle c now (s.elements m)).length =
      ((used.map s.elements).takeWhile (idle c now)).length := by
  rw [List.takeWhile_map, List.length_map]
  rfl

theorem exec_refines (h : Shows s capacity q) {op : Op κ ν} {r : Result κ ν}
    (hexec : exec c s op now = some r) :
    ∃ q', Shows r.cache capacity q' ∧ Step c capacity now q op r.reply r.evicted q' := by
  cases op with
  | insert k v a =>
    obtain ⟨⟨ok, evicted, s'⟩, hinsert, rfl⟩ := Option.map_eq_some_iff.mp hexec
    rw [doInsertUpdate] at hinsert
    cases hkey : s.keyedElements.lookup k with
    | some n =>
      have hheld : AgeQueue.held q k = some (s.elements n) := by rw [h.held, hkey]; rfl
      simp only [hkey] at hinsert
      split_ifs at hinsert with hallow
      · obtain ⟨rfl, rfl, rfl⟩ := by simpa using hinsert
        exact ⟨_, doUpdate_refines h hkey v now, .update hheld hallow⟩
      · obtain ⟨rfl, rfl, rfl⟩ := by simpa using hinsert
        exact ⟨q, h, .refuse (by simpa [hheld] using hallow)⟩
    | none =>
      have hheld : AgeQueue.held q k = none := by rw [h.held, hkey]; rfl
      simp only [hkey] at hinsert
      split_ifs at hinsert with hallow
      · obtain ⟨⟨evicted, s'⟩, hdo, heq⟩ := Option.map_eq_some_iff.mp hinsert
        obtain ⟨rfl, rfl, rfl⟩ := by simpa using heq
        exact doInsert_refines h hkey v hallow hdo
      · obtain ⟨rfl, rfl, rfl⟩ := by simpa using hinsert
        exact ⟨q, h, .refuse (by simpa [hheld] using hallow)⟩
  | erase k =>
    obtain rfl := Option.some.inj hexec
    refine ⟨without q k, ?_, ?_⟩
    · rw [erase]
      cases hkey : s.keyedElements.lookup k with
      | some n => exact doErase_refines h hkey
      | none =>
        have hheld : AgeQueue.held q k = none := by rw [h.held, hkey]; rfl
        rw [without_of_held_eq_none hheld]
        exact h
    · have hdone : (s.erase k).1 = (AgeQueue.held q k).isSome := by
        rw [erase, h.held]
        cases s.keyedElements.lookup k <;> rfl
      rw [hdone]
      exact .erase
  | find k peek =>
    obtain rfl := Option.some.inj hexec
    refine ⟨_, afterFind_refines h k peek now, ?_⟩
    rw [doFind_val h]
    exact .find
  | findWithUseCount k peek =>
    obtain rfl := Option.some.inj hexec
    have hstate : (s.doFindWithUseCount k peek now).2 = (s.doFind k peek now).2 := by
      rw [doFindWithUseCount, doFind]
      cases s.keyedElements.lookup k <;> rfl
    have hshows := afterFind_refines h k peek now
    rw [hstate]
    refine ⟨_, hshows, ?_⟩
    have hval : (s.doFindWithUseCount k peek now).1 =
        (AgeQueue.held (afterFind q k peek now) k).map fun e => (e.value, e.useCount) := by
      rw [hshows.held, doFindWithUseCount, doFind]
      cases hkey : s.keyedElements.lookup k with
      | none => simp [hkey]
      | some n => cases peek <;> simp [hkey]
    rw [hval]
    exact .findWithUseCount
  | dynamicallyAge =>
    obtain ⟨⟨n, s'⟩, hage, rfl⟩ := Option.map_eq_some_iff.mp hexec
    obtain ⟨used, free, hrep, rfl, hcapacity⟩ := h
    obtain ⟨rfl, haged⟩ := doDynamicAge_some hrep hage
    refine ⟨_, shows_aged hrep hcapacity haged, ?_⟩
    rw [takeWhile_length]
    exact .age

/-! With a capacity and a tick that is not negative every operation returns. -/

theorem doDynamicAge_returns (h : Shows s capacity q) (htick : 0 ≤ c.dynamicAgeTick) (now : ℤ) :
    ∃ s', s.doDynamicAge c now = some ((q.takeWhile (idle c now)).length, s') ∧
      Shows s' capacity (aged c now q) := by
  obtain ⟨used, free, hrep, rfl, hcapacity⟩ := h
  have hends : AgingEnds c now s used := Or.inl htick
  obtain ⟨s', hage, haged⟩ := doDynamicAge_ends hrep hends
  rw [takeWhile_length] at hage
  exact ⟨s', hage, shows_aged hrep hcapacity haged⟩

theorem aged_ne_nil {κ : Type} {q : Queue κ ν} (h : q ≠ []) : aged c now q ≠ [] := by
  intro hnil
  obtain ⟨hdrop, htake⟩ := List.append_eq_nil_iff.mp hnil
  have hsplit := List.takeWhile_append_dropWhile (p := idle c now) (l := q)
  rw [hdrop, List.map_eq_nil_iff.mp (List.reverse_eq_nil_iff.mp htake)] at hsplit
  exact h hsplit.symm

theorem doPrune_returns (h : Shows s capacity q) (htick : 0 ≤ c.dynamicAgeTick) (hused : q ≠ [])
    (now : ℤ) :
    ∃ r n, s.doPrune c now = some r ∧ r.2.openListEnd = some n := by
  obtain ⟨s₁, hage, used, free, hrep, hmap, -⟩ := doDynamicAge_returns h htick now
  have hne : used ≠ [] := by
    rintro rfl
    exact aged_ne_nil hused hmap.symm
  have hpos : s.usedSize > 0 := by
    rw [h.usedSize]
    exact List.length_pos_iff.mpr hused
  obtain ⟨⟨least, victim⟩, hhead⟩ : ∃ x, s₁.lfuList.head? = some x := by
    refine Option.ne_none_iff_exists'.mp fun hnone => ?_
    have hlength := hrep.lfu.length_eq
    rw [List.head?_eq_none_iff.mp hnone, List.length_map] at hlength
    exact hne (List.length_eq_zero_iff.mp hlength.symm)
  have herased := doErase_rep hrep (head_least hrep hhead).1
  refine ⟨([((s₁.elements victim).key, (s₁.elements victim).value)], s₁.doErase victim), victim, ?_,
    herased.openEnd⟩
  simp only [doPrune, if_pos hpos, hage, Option.bind_eq_bind, Option.bind_some, hhead]
  rfl

theorem exec_returns (h : Shows s capacity q) (hcapacity : 0 < capacity)
    (htick : 0 ≤ c.dynamicAgeTick) (op : Op κ ν) (now : ℤ) : ∃ r, exec c s op now = some r := by
  cases op with
  | erase k => exact ⟨_, rfl⟩
  | find k peek => exact ⟨_, rfl⟩
  | findWithUseCount k peek => exact ⟨_, rfl⟩
  | dynamicallyAge =>
    obtain ⟨s', hage, -⟩ := doDynamicAge_returns h htick now
    exact ⟨_, by rw [exec, hage]; rfl⟩
  | insert k v a =>
    have hinsert : ∃ r, s.doInsert c k v now = some r := by
      rw [doInsert, h.usedSize, h.capacity_eq]
      by_cases hfull : q.length ≥ capacity
      · have hused : q ≠ [] := List.length_pos_iff.mp (lt_of_lt_of_le hcapacity hfull)
        obtain ⟨r, n, hprune, hopen⟩ := doPrune_returns h htick hused now
        refine ⟨(r.1, r.2.occupy n k v now), ?_⟩
        rw [if_pos hfull, hprune]
        simp [hopen]
      · obtain ⟨used, free, hrep, rfl, rfl⟩ := h
        have hfree : free ≠ [] := by
          rintro rfl
          simp at hfull
        obtain ⟨n, free, rfl⟩ := List.exists_cons_of_ne_nil hfree
        refine ⟨([], s.occupy n k v now), ?_⟩
        rw [if_neg hfull]
        simp [hrep.openEnd]
    obtain ⟨r, hinsert⟩ := hinsert
    rw [exec, doInsertUpdate]
    cases s.keyedElements.lookup k with
    | some n => cases updateAllowed a <;> exact ⟨_, rfl⟩
    | none =>
      cases insertAllowed a with
      | false => exact ⟨_, rfl⟩
      | true => exact ⟨_, by rw [hinsert]; rfl⟩

end Refinement

end ParaKV.Cache.AgeQueue
