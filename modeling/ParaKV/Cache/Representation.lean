/- GID: ParaKV/Cache/Representation
   source: parakv/core/cache/lfuda_cache.h
   digest: The used nodes, the free nodes and the two indexes over them agree after every
     operation. -/

import ParaKV.Cache.Lfuda

set_option autoImplicit false

namespace ParaKV.Cache.Representation

open Lib.Containers Cache.Lfuda LfudaCache

variable {κ ν : Type} {c : Config} {s : LfudaCache κ ν}
variable {used free : List Node} {n : Node} {now : ℤ}

/-! The elements after a step, and one turn of the aging loop. -/

@[simp] theorem recount_elements_self (f : SizeT → SizeT) : (s.recount n f).elements n =
    { s.elements n with useCount := f (s.elements n).useCount } := by
  simp [recount]

@[simp] theorem setAge_elements_self : (s.setAge n now).elements n =
    { s.elements n with dynamicAge := now } := by
  simp [setAge]

@[simp] theorem doAccess_elements_self : (s.doAccess n now).elements n =
    { s.elements n with useCount := increment (s.elements n).useCount, dynamicAge := now } := by
  simp [doAccess, moveBefore]

theorem doAccess_elements_of_ne {m : Node} (h : m ≠ n) :
    (s.doAccess n now).elements m = s.elements m := by
  simp [doAccess, moveBefore, setAge, recount, eraseLfuEntry, h]

@[simp] theorem doAccess_keyed : (s.doAccess n now).keyedElements = s.keyedElements := rfl

def idle (c : Config) (now : ℤ) (e : Element κ ν) : Bool :=
  decide (e.dynamicAge + c.dynamicAgeTick < now)

def agedElement (c : Config) (now : ℤ) (e : Element κ ν) : Element κ ν :=
  { e with useCount := c.dynamicAge e.useCount, dynamicAge := now }

@[simp] theorem ageNode_elements_self {daLast : Option Node} :
    (s.ageNode c now n daLast).elements n = agedElement c now (s.elements n) := by
  simp [ageNode, moveBefore, agedElement]

theorem ageNode_elements_of_ne {daLast : Option Node} {m : Node} (h : m ≠ n) :
    (s.ageNode c now n daLast).elements m = s.elements m := by
  simp [ageNode, moveBefore, setAge, recount, eraseLfuEntry, h]

theorem ageNode_ages {daLast : Option Node} {done : List Node}
    (h : ∀ m ∈ done, (s.elements m).dynamicAge = now) :
    ∀ m ∈ n :: done, ((s.ageNode c now n daLast).elements m).dynamicAge = now := by
  intro m hm
  by_cases hmn : m = n
  · subst hmn
    rw [ageNode_elements_self]
    rfl
  · rw [ageNode_elements_of_ne hmn]
    exact h m (by simpa [hmn] using hm)

theorem idle_of_ne {rest : List Node} {m : Node} {daLast : Option Node} (hn : n ∉ rest)
    (hm : m ∈ rest) : idle c now ((s.ageNode c now n daLast).elements m) =
      idle c now (s.elements m) := by
  have hne : m ≠ n := fun heq => hn (heq ▸ hm)
  rw [ageNode_elements_of_ne hne]

theorem ageLoop_turn {daLast : Option Node} {fuel aged : ℕ}
    (hhead : s.dynamicAgeList.head? = some n) (hopen : some n ≠ s.openListEnd)
    (hidle : idle c now (s.elements n) = true) :
    ageLoop c now (fuel + 1) s daLast aged =
      ageLoop c now fuel (s.ageNode c now n daLast) (some n) (aged + 1) := by
  have hcond : (s.elements n).dynamicAge + c.dynamicAgeTick < now := by simpa [idle] using hidle
  simp [ageLoop, hhead, hopen, hcond]

theorem ageLoop_stop {daLast : Option Node} {fuel aged : ℕ}
    (hhead : s.dynamicAgeList.head? = some n) (hidle : idle c now (s.elements n) = false) :
    ageLoop c now (fuel + 1) s daLast aged = some (aged, s) := by
  have hcond : ¬ (s.elements n).dynamicAge + c.dynamicAgeTick < now := by simpa [idle] using hidle
  simp [ageLoop, hhead, hcond]

/-! The invariant. -/

variable [DecidableEq κ]

/-- The age list is the used nodes and then the free ones; the hash map and the tree index the used
nodes. -/
structure Rep (s : LfudaCache κ ν) (used free : List Node) : Prop where
  list : s.dynamicAgeList = used ++ free
  nodup : (used ++ free).Nodup
  openEnd : s.openListEnd = free.head?
  size : s.usedSize = used.length
  keyed : ∀ k n, s.keyedElements.lookup k = some n ↔ n ∈ used ∧ (s.elements n).key = k
  lfu : s.lfuList.Perm (used.map fun n => ((s.elements n).useCount, n))
  sorted : SortedKeys s.lfuList

theorem rep_create [Inhabited κ] [Inhabited ν] (capacity : ℕ) :
    Rep (create capacity : LfudaCache κ ν) [] (List.range capacity) where
  list := rfl
  nodup := List.nodup_range
  openEnd := rfl
  size := rfl
  keyed k n := by simp [create]
  lfu := List.Perm.refl _
  sorted := List.Pairwise.nil

namespace Rep

theorem used_nodup (h : Rep s used free) : used.Nodup := (List.nodup_append.mp h.nodup).1

theorem lookup (h : Rep s used free) (hn : n ∈ used) :
    s.keyedElements.lookup (s.elements n).key = some n :=
  (h.keyed _ n).mpr ⟨hn, rfl⟩

theorem key_inj (h : Rep s used free) {m : Node} (hn : n ∈ used) (hm : m ∈ used)
    (hkey : (s.elements n).key = (s.elements m).key) : n = m := by
  have hlookup := h.lookup hn
  rw [hkey, h.lookup hm] at hlookup
  exact (Option.some.inj hlookup).symm

theorem congr (h : Rep s used free) {elements : Node → Element κ ν}
    (hkey : ∀ n, (elements n).key = (s.elements n).key)
    (hcount : ∀ n, (elements n).useCount = (s.elements n).useCount) :
    Rep { s with elements := elements } used free where
  list := h.list
  nodup := h.nodup
  openEnd := h.openEnd
  size := h.size
  keyed k n := by
    simp only [hkey]
    exact h.keyed k n
  lfu := by
    simp only [hcount]
    exact h.lfu
  sorted := h.sorted

theorem setAge (h : Rep s used free) (n : Node) (now : ℤ) :
    Rep (s.setAge n now) used free := by
  refine h.congr (fun m => ?_) fun m => ?_
  all_goals
    by_cases hm : m = n
    · subst hm
      simp
    · simp [hm]

theorem reorder (h : Rep s used free) {used' : List Node} (hperm : used'.Perm used) :
    Rep { s with dynamicAgeList := used' ++ free } used' free where
  list := rfl
  nodup := (hperm.append_right free).nodup_iff.mpr h.nodup
  openEnd := h.openEnd
  size := h.size.trans hperm.length_eq.symm
  keyed k n := (h.keyed k n).trans (and_congr_left fun _ => hperm.mem_iff.symm)
  lfu := h.lfu.trans (hperm.map _).symm
  sorted := h.sorted

theorem lfu_erase (h : Rep s used free) (hn : n ∈ used) :
    (s.lfuList.erase ((s.elements n).useCount, n)).Perm
      ((used.erase n).map fun n => ((s.elements n).useCount, n)) := by
  have hsplit : s.lfuList.Perm
      (((s.elements n).useCount, n) :: (used.erase n).map fun n => ((s.elements n).useCount, n)) :=
    h.lfu.trans ((List.perm_cons_erase hn).map _)
  have herase := hsplit.erase ((s.elements n).useCount, n)
  rwa [List.erase_cons_head] at herase

theorem recount (h : Rep s used free) (hn : n ∈ used) (f : SizeT → SizeT) :
    Rep (s.recount n f) used free where
  list := h.list
  nodup := h.nodup
  openEnd := h.openEnd
  size := h.size
  keyed k m := by
    rw [show (s.recount n f).keyedElements = s.keyedElements from rfl, h.keyed]
    by_cases hm : m = n
    · subst hm
      simp [LfudaCache.recount]
    · simp [LfudaCache.recount, eraseLfuEntry, hm]
  lfu := by
    have hother : (used.erase n).map (fun m => (((s.recount n f).elements m).useCount, m)) =
        (used.erase n).map fun m => ((s.elements m).useCount, m) := by
      refine List.map_congr_left fun m hm => ?_
      have hne : m ≠ n := fun heq => h.used_nodup.not_mem_erase (heq ▸ hm)
      simp [LfudaCache.recount, eraseLfuEntry, hne]
    have hself : ((s.recount n f).elements n).useCount = f (s.elements n).useCount := by
      simp [LfudaCache.recount]
    have hperm := (List.perm_cons_erase hn).map fun m =>
      (((s.recount n f).elements m).useCount, m)
    rw [List.map_cons, hother, hself] at hperm
    exact (emplace_perm _ _ _).trans (((h.lfu_erase hn).cons _).trans hperm.symm)
  sorted := (h.sorted.erase _).emplace _ _

end Rep

/-! Access. -/

/-- The used nodes after an access: the node goes before the last one. -/
def beforeLast (init : List Node) (l n : Node) : List Node :=
  if n = l then init ++ [l] else init.erase n ++ [n, l]

theorem beforeLast_perm {init : List Node} {l : Node} (hn : n ∈ init ++ [l]) :
    (beforeLast init l n).Perm (init ++ [l]) := by
  unfold beforeLast
  split_ifs with hl
  · exact List.Perm.refl _
  · have hinit : n ∈ init := by simpa [hl] using hn
    have hperm := (List.perm_cons_erase hinit).symm
    have hmove : (init.erase n ++ [n, l]).Perm ((n :: init.erase n) ++ [l]) := List.perm_middle
    exact hmove.trans (hperm.append_right [l])

theorem doAccess_rep {init : List Node} {l : Node} (h : Rep s (init ++ [l]) free)
    (hn : n ∈ init ++ [l]) (now : ℤ) :
    Rep (s.doAccess n now) (beforeLast init l n) free := by
  have hcount := h.recount hn increment
  have hlast : prev (s.recount n increment).dynamicAgeList (s.recount n increment).openListEnd =
      some l := by
    rw [hcount.list, hcount.openEnd, prev_append hcount.nodup, List.getLast?_append]
    simp
  have hlist : ((s.recount n increment).moveBefore (some l) n).dynamicAgeList =
      beforeLast init l n ++ free := by
    by_cases heq : n = l
    · subst heq
      simpa [moveBefore, beforeLast] using hcount.list
    · have hinit : n ∈ init := by simpa [heq] using hn
      have hnodup : (init ++ l :: free).Nodup := by simpa using h.nodup
      have hsplice := splice_append hnodup hinit
      simp only [moveBefore, hcount.list, List.append_assoc, List.singleton_append, beforeLast,
        if_neg heq]
      simpa [heq] using hsplice
  have hmoved := (hcount.reorder (beforeLast_perm hn)).setAge n now
  rw [← hlist] at hmoved
  simp only [doAccess, hlast]
  exact hmoved

/-! Erasing. -/

theorem doErase_rep (h : Rep s used free) (hn : n ∈ used) :
    Rep (s.doErase n) (used.erase n) (n :: free) := by
  have hnodup := h.nodup
  have hlist : (s.doErase n).dynamicAgeList = used.erase n ++ n :: free := by
    simp only [doErase, eraseLfuEntry, h.list, h.openEnd, prev_append hnodup]
    split_ifs with hlast
    · exact splice_append hnodup hn
    · have hend : used.getLast? = some n := (not_not.mp hlast).symm
      obtain ⟨init, rfl⟩ := List.getLast?_eq_some_iff.mp hend
      have hout : n ∉ init := notMem_left (by simpa using hnodup)
      simp [List.erase_append_right _ hout]
  have hperm : (used.erase n ++ n :: free).Perm (used ++ free) :=
    List.perm_middle.trans ((List.perm_cons_erase hn).symm.append_right free)
  have hnodup' : (used.erase n ++ n :: free).Nodup := hperm.nodup_iff.mpr hnodup
  refine ⟨hlist, hnodup', ?_, ?_, fun k m => ?_, h.lfu_erase hn, h.sorted.erase _⟩
  · have hopen : (s.doErase n).openListEnd = prev (s.doErase n).dynamicAgeList s.openListEnd := rfl
    have hsplit : used.erase n ++ n :: free = (used.erase n ++ [n]) ++ free := by simp
    rw [hopen, hlist, h.openEnd, hsplit, prev_append (hsplit ▸ hnodup')]
    simp
  · have hlen : (s.doErase n).usedSize = used.length - 1 := by rw [← h.size]; rfl
    rw [hlen, List.length_erase_of_mem hn]
  · have hkeyed : (s.doErase n).keyedElements = s.keyedElements.erase (s.elements n).key := rfl
    have helements : (s.doErase n).elements = s.elements := rfl
    rw [hkeyed, helements, h.used_nodup.mem_erase_iff]
    by_cases hk : k = (s.elements n).key
    · subst hk
      rw [Finmap.lookup_erase]
      refine iff_of_false (by simp) fun hm => ?_
      exact hm.1.1 (h.key_inj hm.1.2 hn hm.2)
    · rw [Finmap.lookup_erase_ne hk, h.keyed]
      refine ⟨fun hm => ⟨⟨fun heq => hk (heq ▸ hm.2.symm), hm.1⟩, hm.2⟩,
        fun hm => ⟨hm.1.2, hm.2⟩⟩

/-! Inserting into a free node. -/

theorem occupy_rep {key : κ} (h : Rep s used (n :: free)) (hkey : s.keyedElements.lookup key = none)
    (value : ν) (now : ℤ) : Rep (s.occupy n key value now) (used ++ [n]) free := by
  have hout : n ∉ used := notMem_left h.nodup
  have helse : ∀ m ∈ used, (s.occupy n key value now).elements m = s.elements m := by
    intro m hm
    have hne : m ≠ n := fun heq => hout (heq ▸ hm)
    simp [occupy, hne]
  have hself : (s.occupy n key value now).elements n = ⟨key, 1, now, value⟩ := by simp [occupy]
  refine ⟨by simpa [occupy] using h.list, by simpa using h.nodup, ?_, ?_, fun k m => ?_, ?_,
    h.sorted.emplace _ _⟩
  · have hopen : (s.occupy n key value now).openListEnd = next s.dynamicAgeList n := rfl
    rw [hopen, h.list, next_append h.nodup]
  · have hsize : (s.occupy n key value now).usedSize = s.usedSize + 1 := rfl
    rw [hsize, h.size, List.length_append, List.length_singleton]
  · have hkeyed : (s.occupy n key value now).keyedElements = s.keyedElements.insert key n := rfl
    rw [hkeyed, List.mem_append, List.mem_singleton]
    by_cases hk : k = key
    · subst hk
      rw [Finmap.lookup_insert]
      constructor
      · rintro heq
        obtain rfl := Option.some.inj heq
        exact ⟨Or.inr rfl, by rw [hself]⟩
      · rintro ⟨hm | rfl, hmk⟩
        · rw [helse m hm] at hmk
          have hlookup := (h.keyed k m).mpr ⟨hm, hmk⟩
          rw [hkey] at hlookup
          cases hlookup
        · rfl
    · rw [Finmap.lookup_insert_of_ne _ hk, h.keyed]
      constructor
      · rintro ⟨hm, hmk⟩
        exact ⟨Or.inl hm, by rw [helse m hm]; exact hmk⟩
      · rintro ⟨hm | rfl, hmk⟩
        · exact ⟨hm, by rw [← helse m hm]; exact hmk⟩
        · rw [hself] at hmk
          exact absurd hmk.symm hk
  · have hentries : used.map (fun m => (((s.occupy n key value now).elements m).useCount, m)) =
        used.map fun m => ((s.elements m).useCount, m) :=
      List.map_congr_left fun m hm => by rw [helse m hm]
    have hlfu : (s.occupy n key value now).lfuList = emplace s.lfuList 1 n := rfl
    rw [hlfu, List.map_append, hentries, List.map_singleton, hself]
    exact (emplace_perm _ _ _).trans ((h.lfu.cons _).trans (List.perm_append_singleton _ _).symm)

/-! Aging. -/

theorem Rep.head_ne_open {rest : List Node} (h : Rep s (n :: rest) free) :
    some n ≠ s.openListEnd := by
  rw [h.openEnd]
  intro heq
  have hnodup : ((n :: rest) ++ free).Nodup := h.nodup
  exact List.disjoint_of_nodup_append hnodup List.mem_cons_self (List.mem_of_mem_head? heq.symm)

theorem ageNode_again {rest : List Node} (h : Rep s (n :: rest) free) :
    Rep (s.ageNode c now n (some n)) (n :: rest) free := by
  have hsame : s.moveBefore (some n) n = s := by simp [moveBefore]
  rw [ageNode, hsame]
  exact (h.setAge n now).recount List.mem_cons_self c.dynamicAge

theorem ageNode_rep {rest done : List Node} (h : Rep s (n :: rest ++ done) free) :
    Rep (s.ageNode c now n (done ++ free).head?) (rest ++ n :: done) free := by
  have hnodup : ((n :: rest) ++ (done ++ free)).Nodup := by simpa using h.nodup
  have hne : some n ≠ (done ++ free).head? := fun heq =>
    List.disjoint_of_nodup_append hnodup List.mem_cons_self (List.mem_of_mem_head? heq.symm)
  have hlist : (s.moveBefore (done ++ free).head? n).dynamicAgeList =
      (rest ++ n :: done) ++ free := by
    have hsplit : s.dynamicAgeList = (n :: rest) ++ (done ++ free) := by simpa using h.list
    rw [moveBefore, if_pos hne, hsplit, splice_append hnodup List.mem_cons_self,
      List.erase_cons_head]
    simp
  have hperm : (rest ++ n :: done).Perm (n :: rest ++ done) := List.perm_middle
  have hmoved := h.reorder hperm
  rw [← hlist] at hmoved
  exact (hmoved.setAge n now).recount (by simp) c.dynamicAge

/-- What an aging that ends has done: the idle nodes at the front are aged and at the back now. -/
structure AgedTo (c : Config) (now : ℤ) (s : LfudaCache κ ν) (rest done free : List Node)
    (s' : LfudaCache κ ν) : Prop where
  rep : Rep s' (rest.dropWhile (fun m => idle c now (s.elements m)) ++
    ((rest.takeWhile fun m => idle c now (s.elements m)).reverse ++ done)) free
  elements : ∀ m, s'.elements m =
    if m ∈ rest.takeWhile (fun m => idle c now (s.elements m)) then agedElement c now (s.elements m)
    else s.elements m
  keyed : s'.keyedElements = s.keyedElements

/-- The loop ends when it meets an element that is not idle, or when a tick is not negative. -/
theorem ageLoop_ends {rest : List Node} (done : List Node) (aged fuel : ℕ)
    (h : Rep s (rest ++ done) free)
    (hdone : ∀ m ∈ done, (s.elements m).dynamicAge = now)
    (hstop : 0 ≤ c.dynamicAgeTick ∨ (∃ m ∈ rest, idle c now (s.elements m) = false) ∨
      rest ++ done = []) (hfuel : rest.length < fuel) :
    ∃ s', ageLoop c now fuel s (done ++ free).head? aged =
        some (aged + (rest.takeWhile fun m => idle c now (s.elements m)).length, s') ∧
      AgedTo c now s rest done free s' := by
  induction rest generalizing s done aged fuel with
  | nil =>
    obtain ⟨fuel, rfl⟩ := Nat.exists_eq_add_one_of_ne_zero (Nat.ne_of_gt hfuel)
    refine ⟨s, ?_, by simpa using h, by simp, rfl⟩
    cases done with
    | nil =>
      rw [ageLoop, show s.dynamicAgeList = free from h.list, h.openEnd]
      cases free <;> simp
    | cons d done =>
      have htick : 0 ≤ c.dynamicAgeTick := by simpa using hstop
      have hhead : s.dynamicAgeList.head? = some d := by rw [h.list]; rfl
      refine ageLoop_stop hhead ?_
      simp [idle, hdone d List.mem_cons_self, htick]
  | cons n rest ih =>
    obtain ⟨fuel, rfl⟩ := Nat.exists_eq_add_one_of_ne_zero (Nat.ne_of_gt (Nat.zero_lt_of_lt hfuel))
    have hnodup : (n :: (rest ++ done ++ free)).Nodup := by simpa using h.nodup
    have hout : n ∉ rest ∧ n ∉ done ∧ n ∉ free := by simpa using (List.nodup_cons.mp hnodup).1
    have hopen : some n ≠ s.openListEnd := h.head_ne_open
    have hhead : s.dynamicAgeList.head? = some n := by rw [h.list]; rfl
    by_cases hidle : idle c now (s.elements n) = true
    · set s₁ := s.ageNode c now n (done ++ free).head? with hs₁
      have hold : ∀ m ∈ rest, idle c now (s₁.elements m) = idle c now (s.elements m) :=
        fun m hm => idle_of_ne hout.1 hm
      have hstop₁ : 0 ≤ c.dynamicAgeTick ∨ (∃ m ∈ rest, idle c now (s₁.elements m) = false) ∨
          rest ++ n :: done = [] := by
        rcases hstop with htick | ⟨m, hm, hmi⟩ | hnil
        · exact Or.inl htick
        · rcases List.mem_cons.mp hm with rfl | hm
          · rw [hidle] at hmi
            cases hmi
          · exact Or.inr (Or.inl ⟨m, hm, (hold m hm).trans hmi⟩)
        · cases hnil
      obtain ⟨s', hloop, hend⟩ :=
        ih (n :: done) (aged + 1) fuel (ageNode_rep h) (ageNode_ages hdone)
        hstop₁
        (by simpa using hfuel)
      obtain ⟨hfront, hback⟩ := splitWhile_congr hold
      have htake : (n :: rest).takeWhile (fun m => idle c now (s.elements m)) =
          n :: rest.takeWhile fun m => idle c now (s.elements m) := by
        rw [List.takeWhile_cons, if_pos hidle]
      have hdrop : (n :: rest).dropWhile (fun m => idle c now (s.elements m)) =
          rest.dropWhile fun m => idle c now (s.elements m) := by
        rw [List.dropWhile_cons, if_pos hidle]
      refine ⟨s', ?_, ?_, fun m => ?_, hend.keyed⟩
      · rw [ageLoop_turn hhead hopen hidle, htake, List.length_cons, ← hfront, ← Nat.add_assoc,
          Nat.add_right_comm]
        exact hloop
      · have hrep := hend.rep
        rw [← hs₁, hfront, hback] at hrep
        rw [htake, hdrop]
        simpa using hrep
      · have helem := hend.elements m
        rw [← hs₁, hfront] at helem
        rw [helem, htake]
        by_cases hm : m = n
        · subst hm
          have hnot : m ∉ rest.takeWhile fun m => idle c now (s.elements m) := fun hm =>
            hout.1 (List.takeWhile_subset _ hm)
          rw [if_neg hnot, if_pos List.mem_cons_self, hs₁, ageNode_elements_self]
        · simp [hm, hs₁, ageNode_elements_of_ne hm]
    · have hkept : idle c now (s.elements n) = false := by simpa using hidle
      have htake : (n :: rest).takeWhile (fun m => idle c now (s.elements m)) = [] := by
        rw [List.takeWhile_cons, if_neg hidle]
      have hdrop : (n :: rest).dropWhile (fun m => idle c now (s.elements m)) = n :: rest := by
        rw [List.dropWhile_cons, if_neg hidle]
      refine ⟨s, ?_, ?_, fun m => ?_, rfl⟩
      · rw [ageLoop_stop hhead hkept, htake]
        rfl
      · rw [htake, hdrop]
        exact h
      · rw [htake, if_neg List.not_mem_nil]

theorem ageLoop_again {rest : List Node} (aged fuel : ℕ) (h : Rep s (n :: rest) free)
    (htick : c.dynamicAgeTick < 0) (hages : ∀ m ∈ n :: rest, (s.elements m).dynamicAge = now) :
    ageLoop c now fuel s (some n) aged = none := by
  induction fuel generalizing s aged with
  | zero => rfl
  | succ fuel ih =>
    have hhead : s.dynamicAgeList.head? = some n := by rw [h.list]; rfl
    have hidle : idle c now (s.elements n) = true := by
      simp [idle, hages n List.mem_cons_self, htick]
    rw [ageLoop_turn hhead h.head_ne_open hidle]
    exact ih (aged + 1) (ageNode_again h)
      (ageNode_ages fun m hm => hages m (List.mem_cons_of_mem _ hm))

/-- Over a cache all of whose elements are idle such a loop never ends. -/
theorem ageLoop_diverges {rest : List Node} (done : List Node) (aged fuel : ℕ)
    (h : Rep s (rest ++ done) free)
    (htick : c.dynamicAgeTick < 0) (hused : rest ++ done ≠ [])
    (hdone : ∀ m ∈ done, (s.elements m).dynamicAge = now)
    (hidle : ∀ m ∈ rest, idle c now (s.elements m) = true) :
    ageLoop c now fuel s (done ++ free).head? aged = none := by
  induction rest generalizing s done aged fuel with
  | nil =>
    obtain ⟨d, done, rfl⟩ := List.exists_cons_of_ne_nil hused
    exact ageLoop_again aged fuel h htick hdone
  | cons n rest ih =>
    cases fuel with
    | zero => rfl
    | succ fuel =>
      have hnodup : (n :: rest).Nodup := (List.nodup_append.mp h.used_nodup).1
      have hout : n ∉ rest := (List.nodup_cons.mp hnodup).1
      have hhead : s.dynamicAgeList.head? = some n := by rw [h.list]; rfl
      rw [ageLoop_turn hhead h.head_ne_open (hidle n List.mem_cons_self)]
      refine ih (n :: done) (aged + 1) fuel (ageNode_rep h) (by simp) (ageNode_ages hdone)
        fun m hm => ?_
      rw [idle_of_ne hout hm]
      exact hidle m (List.mem_cons_of_mem _ hm)

/-! `do_dynamic_age`. -/

def AgingEnds (c : Config) (now : ℤ) (s : LfudaCache κ ν) (used : List Node) : Prop :=
  0 ≤ c.dynamicAgeTick ∨ (∃ m ∈ used, idle c now (s.elements m) = false) ∨ used = []

theorem doDynamicAge_ends (h : Rep s used free) (hends : AgingEnds c now s used) :
    ∃ s', s.doDynamicAge c now =
        some ((used.takeWhile fun m => idle c now (s.elements m)).length, s') ∧
      AgedTo c now s used [] free s' := by
  obtain ⟨s', hloop, haged⟩ := ageLoop_ends [] 0 (s.usedSize + 1)
    (by simpa using h) (by simp) (by simpa [AgingEnds] using hends) (by rw [h.size]; omega)
  refine ⟨s', ?_, haged⟩
  rw [doDynamicAge, h.openEnd]
  simpa using hloop

theorem ageLoop_none (h : Rep s used free) (hends : ¬ AgingEnds c now s used) (fuel : ℕ) :
    ageLoop c now fuel s s.openListEnd 0 = none := by
  simp only [AgingEnds, not_or, not_le, not_exists, not_and, Bool.not_eq_false] at hends
  obtain ⟨htick, hidle, hused⟩ := hends
  have hloop := ageLoop_diverges [] 0 fuel (by simpa using h) htick
    (by simpa using hused) (by simp) hidle
  rw [h.openEnd]
  simpa using hloop

theorem doDynamicAge_some (h : Rep s used free) {r : ℕ × LfudaCache κ ν}
    (hage : s.doDynamicAge c now = some r) :
    r.1 = (used.takeWhile fun m => idle c now (s.elements m)).length ∧
      AgedTo c now s used [] free r.2 := by
  by_cases hends : AgingEnds c now s used
  · obtain ⟨s', hage', haged⟩ := doDynamicAge_ends h hends
    obtain rfl := Option.some.inj (hage.symm.trans hage')
    exact ⟨rfl, haged⟩
  · rw [doDynamicAge, ageLoop_none h hends] at hage
    cases hage

end ParaKV.Cache.Representation
