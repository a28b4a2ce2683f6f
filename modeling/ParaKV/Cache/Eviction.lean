/- GID: ParaKV/Cache/Eviction
   source: parakv/core/cache/lfuda_cache.h, parakv/core/cache/allow.h
   digest: The cache is a bounded map that evicts a least frequently used key for a new one. -/

import ParaKV.Cache.Runs

set_option autoImplicit false

namespace ParaKV.Cache.Eviction

open Cache.Lfuda Cache.Representation Cache.AgeQueue Cache.Runs

variable {κ ν : Type} {c : Config} {capacity : ℕ} {now : ℤ}
variable {s s' : LfudaCache κ ν} {q q' : Queue κ ν} {k : κ} {e : Element κ ν}

/-! The keys of a queue. -/

def keys (q : Queue κ ν) : List κ := q.map (·.key)

theorem mem_keys : k ∈ keys q ↔ ∃ e ∈ q, e.key = k := List.mem_map

theorem distinct_iff : Distinct q ↔ (keys q).Nodup := List.pairwise_map.symm

theorem keys_aged_perm : (keys (aged c now q)).Perm (keys q) := by
  have hfront : keys ((q.takeWhile (idle c now)).map (agedElement c now)).reverse =
      (keys (q.takeWhile (idle c now))).reverse := by
    rw [keys, List.map_reverse, List.map_map]
    rfl
  have happend : keys (aged c now q) =
      keys (q.dropWhile (idle c now)) ++ (keys (q.takeWhile (idle c now))).reverse := by
    rw [← hfront]
    exact List.map_append
  have hsplit : keys q = keys (q.takeWhile (idle c now)) ++ keys (q.dropWhile (idle c now)) := by
    rw [keys, keys, keys, ← List.map_append, List.takeWhile_append_dropWhile]
  rw [happend, hsplit]
  exact List.perm_append_comm.trans ((List.reverse_perm _).append_right _)

theorem distinct_aged (h : Distinct q) : Distinct (aged c now q) :=
  distinct_iff.mpr (keys_aged_perm.nodup_iff.mpr (distinct_iff.mp h))

theorem placed_ne_nil (h : e.key ∈ keys q) : ∃ front l, q = front ++ [l] := by
  rcases List.eq_nil_or_concat' q with rfl | hsplit
  · simp [keys] at h
  · exact hsplit

variable [DecidableEq κ]

theorem held_eq_none_iff_notMem : held q k = none ↔ k ∉ keys q := by
  simp [held_eq_none_iff, keys]

theorem mem_without : e ∈ without q k ↔ e ∈ q ∧ e.key ≠ k := by simp [without]

theorem mem_placed (h : Distinct q) (he : e.key ∈ keys q) {x : Element κ ν} :
    x ∈ placed q e ↔ x = e ∨ x ∈ q ∧ x.key ≠ e.key := by
  obtain ⟨front, l, rfl⟩ := placed_ne_nil he
  have hfront : ∀ x ∈ front, x.key ≠ l.key := fun x hx =>
    (List.pairwise_append.mp h).2.2 x hx l (by simp)
  rw [placed_concat]
  split_ifs with hkey
  · constructor
    · intro hx
      rcases List.mem_append.mp hx with hx | hx
      · exact Or.inr ⟨List.mem_append_left _ hx, hkey ▸ hfront x hx⟩
      · exact Or.inl (List.mem_singleton.mp hx)
    · rintro (rfl | ⟨hx, hne⟩)
      · simp
      · rcases List.mem_append.mp hx with hx | hx
        · exact List.mem_append_left _ hx
        · rw [List.mem_singleton.mp hx] at hne
          exact absurd hkey.symm hne
  · constructor
    · intro hx
      rcases List.mem_append.mp hx with hx | hx
      · exact Or.inr ⟨List.mem_append_left _ (mem_without.mp hx).1, (mem_without.mp hx).2⟩
      · rcases List.mem_pair.mp hx with rfl | rfl
        · exact Or.inl rfl
        · exact Or.inr ⟨by simp, Ne.symm hkey⟩
    · rintro (rfl | ⟨hx, hne⟩)
      · simp
      · rcases List.mem_append.mp hx with hx | hx
        · exact List.mem_append_left _ (mem_without.mpr ⟨hx, hne⟩)
        · rw [List.mem_singleton.mp hx]
          simp

theorem held_congr (h : Distinct q') (hmem : ∀ x : Element κ ν, x.key = k → (x ∈ q' ↔ x ∈ q)) :
    held q' k = held q k := by
  cases hheld : held q k with
  | none =>
    refine held_eq_none_iff.mpr fun x hx hkey => ?_
    exact held_eq_none_iff.mp hheld x ((hmem x hkey).mp hx) hkey
  | some x =>
    obtain ⟨hx, hkey⟩ := mem_of_held hheld
    exact h.held_of_mem ((hmem x hkey).mpr hx) hkey

/-! The values of the keys. -/

def valueOf (q : Queue κ ν) (k : κ) : Option ν := (held q k).map (·.value)

theorem valueOf_new (h : Distinct (q ++ [e])) :
    valueOf (q ++ [e]) = Function.update (valueOf q) e.key (some e.value) := by
  funext k
  by_cases hk : k = e.key
  · subst hk
    rw [Function.update_self, valueOf, h.held_of_mem (by simp) rfl]
    rfl
  · rw [Function.update_of_ne hk, valueOf, valueOf, held_congr h]
    intro x hx
    have hne : x ≠ e := fun heq => hk (heq ▸ hx.symm)
    simp [hne]

theorem valueOf_without (h : Distinct q) (k : κ) :
    valueOf (without q k) = Function.update (valueOf q) k none := by
  funext k'
  by_cases hk : k' = k
  · subst hk
    have hnone : held (without q k') k' = none :=
      held_eq_none_iff.mpr fun x hx => (mem_without.mp hx).2
    rw [Function.update_self, valueOf, hnone]
    rfl
  · have hd : Distinct (without q k) := h.filter _
    rw [Function.update_of_ne hk, valueOf, valueOf, held_congr hd]
    intro x hx
    have hne : x.key ≠ k := fun heq => hk (hx.symm.trans heq)
    simp [mem_without, hne]

theorem valueOf_placed (h : Distinct q) (h' : Distinct (placed q e)) (he : e.key ∈ keys q) :
    valueOf (placed q e) = Function.update (valueOf q) e.key (some e.value) := by
  funext k
  by_cases hk : k = e.key
  · subst hk
    rw [Function.update_self, valueOf, h'.held_of_mem ((mem_placed h he).mpr (Or.inl rfl)) rfl]
    rfl
  · rw [Function.update_of_ne hk, valueOf, valueOf, held_congr h']
    intro x hx
    have hne : x.key ≠ e.key := fun heq => hk (hx.symm.trans heq)
    have hxe : x ≠ e := fun heq => hne (heq ▸ rfl)
    rw [mem_placed h he]
    simp [hne, hxe]

theorem valueOf_afterFind {peek : Bool} (h : Distinct q) (h' : Distinct (afterFind q k peek now)) :
    valueOf (afterFind q k peek now) = valueOf q := by
  unfold afterFind at h' ⊢
  cases hheld : held q k with
  | none => rfl
  | some e =>
    rw [hheld] at h'
    cases peek with
    | true => rfl
    | false =>
      obtain ⟨he, rfl⟩ := mem_of_held hheld
      have hvalue : valueOf q e.key = some e.value := by rw [valueOf, hheld]; rfl
      calc valueOf (placed q (touched now e))
        _ = Function.update (valueOf q) e.key (some e.value) :=
          valueOf_placed h h' (mem_keys.mpr ⟨e, he, rfl⟩)
        _ = valueOf q := by rw [← hvalue, Function.update_eq_self]

theorem valueOf_aged (c : Config) (now : ℤ) (h : Distinct q) :
    valueOf (aged c now q) = valueOf q := by
  funext k
  rw [valueOf, valueOf]
  cases hheld : held q k with
  | none =>
    have hnone : held (aged c now q) k = none := by
      rw [held_eq_none_iff_notMem] at hheld ⊢
      exact fun hk => hheld (keys_aged_perm.mem_iff.mp hk)
    rw [hnone]
  | some x =>
    obtain ⟨hx, hkey⟩ := mem_of_held hheld
    rw [← List.takeWhile_append_dropWhile (p := idle c now) (l := q)] at hx
    rcases List.mem_append.mp hx with hx | hx
    · have hmem : agedElement c now x ∈ aged c now q := mem_aged.mpr (Or.inr ⟨x, hx, rfl⟩)
      rw [(distinct_aged h).held_of_mem hmem hkey]
      rfl
    · rw [(distinct_aged h).held_of_mem (mem_aged.mpr (Or.inl hx)) hkey]

/-! What has happened to the keys. -/

inductive Event (κ ν : Type)
  | stored (k : κ) (v : ν)
  | erased (k : κ)
  | evicted (k : κ) (v : ν)

def Event.apply (m : κ → Option ν) : Event κ ν → κ → Option ν
  | .stored k v => Function.update m k (some v)
  | .erased k => Function.update m k none
  | .evicted k _ => Function.update m k none

def Event.key : Event κ ν → κ
  | .stored k _ => k
  | .erased k => k
  | .evicted k _ => k

def lastEvent (happened : List (Event κ ν)) (k : κ) : Option (Event κ ν) :=
  happened.reverse.find? fun e => decide (e.key = k)

/-- The value a key was last stored with, if it has been neither erased nor evicted since. -/
def content (happened : List (Event κ ν)) : κ → Option ν :=
  happened.foldl Event.apply fun _ => none

def events (op : Op κ ν) (reply : Reply ν) (evicted : List (κ × ν)) : List (Event κ ν) :=
  match op, reply with
  | .insert k v _, .done true => evicted.map (fun p => .evicted p.1 p.2) ++ [.stored k v]
  | .erase k, .done true => [.erased k]
  | _, _ => []

def history (turns : List (Turn κ ν)) : List (Event κ ν) :=
  turns.flatMap fun t => events t.op t.result.reply t.result.evicted

theorem step_valueOf (h : Distinct q) (h' : Distinct q') {op : Op κ ν} {reply : Reply ν}
    {evicted : List (κ × ν)} (hstep : Step c capacity now q op reply evicted q') :
    valueOf q' = (events op reply evicted).foldl Event.apply (valueOf q) := by
  cases hstep with
  | @update k v a e hheld hallow =>
    obtain ⟨he, rfl⟩ := mem_of_held hheld
    exact valueOf_placed h h' (mem_keys.mpr ⟨e, he, rfl⟩)
  | @insert k v a hheld hallow hroom => exact valueOf_new h'
  | @evict k v a victim hheld hallow hfull hvictim hleast =>
    rw [valueOf_new h', valueOf_without (distinct_aged h), valueOf_aged c now h]
    rfl
  | refuse => rfl
  | @erase k =>
    rw [valueOf_without h]
    cases hheld : held q k with
    | none =>
      have hnone : valueOf q k = none := by rw [valueOf, hheld]; rfl
      rw [← hnone, Function.update_eq_self]
      rfl
    | some e => rfl
  | @find k peek => exact valueOf_afterFind h h'
  | @findWithUseCount k peek => exact valueOf_afterFind h h'
  | age => exact valueOf_aged c now h

/-! The keys of the cache. -/

theorem isSome_valueOf : (valueOf q k).isSome ↔ k ∈ keys q := by
  rw [valueOf, Option.isSome_map, Option.isSome_iff_ne_none, Ne, held_eq_none_iff_notMem, not_not]

theorem mem_cachedKeys (h : Shows s capacity q) :
    k ∈ s.keyedElements.keys ↔ (valueOf q k).isSome := by
  rw [Finmap.mem_keys, ← Finmap.lookup_isSome, valueOf, h.held, Option.isSome_map,
    Option.isSome_map]

/-- The keys after an operation that evicts nothing. -/
def keptKeys (s : LfudaCache κ ν) (op : Op κ ν) (reply : Reply ν) : Finset κ :=
  match op, reply with
  | .insert k _ _, .done true => insert k s.keyedElements.keys
  | .erase k, .done true => s.keyedElements.keys.erase k
  | _, _ => s.keyedElements.keys

def Keeps (t : Turn κ ν) : Prop :=
  t.result.evicted = [] ∧
    t.result.cache.keyedElements.keys = keptKeys t.before t.op t.result.reply

/-- A new key for a full cache: one key makes room for it, which has a smallest use count after the
aging. -/
def EvictsOne (c : Config) (t : Turn κ ν) : Prop :=
  ∃ k v a n aged victim e, t.op = .insert k v a ∧ entry t.before k = none ∧
    t.before.size = t.before.capacity ∧ t.before.doDynamicAge c t.now = some (n, aged) ∧
    entry aged victim = some e ∧ (∀ k' e', entry aged k' = some e' → e.useCount ≤ e'.useCount) ∧
    (entry t.before victim).map (·.value) = some e.value ∧
    t.result.evicted = [(victim, e.value)] ∧
    t.result.cache.keyedElements.keys = insert k (t.before.keyedElements.keys.erase victim)

theorem isSome_update {m : κ → Option ν} {k k' : κ} {v : Option ν} :
    (Function.update m k v k').isSome = if k' = k then v.isSome else (m k').isSome := by
  split_ifs with hk
  · rw [hk, Function.update_self]
  · rw [Function.update_of_ne hk]

theorem step_keeps (h : Shows s capacity q) (h' : Shows s' capacity q') {op : Op κ ν}
    {reply : Reply ν} (hstep : Step c capacity now q op reply [] q') :
    s'.keyedElements.keys = keptKeys s op reply := by
  have hvalue := step_valueOf h.distinct h'.distinct hstep
  ext k'
  rw [mem_cachedKeys h', hvalue]
  unfold keptKeys
  split
  · rw [Finset.mem_insert, mem_cachedKeys h]
    simp only [events, List.map_nil, List.nil_append, List.foldl_cons, List.foldl_nil, Event.apply,
      isSome_update]
    split_ifs with hk <;> simp [hk]
  · rw [Finset.mem_erase, mem_cachedKeys h]
    simp only [events, List.foldl_cons, List.foldl_nil, Event.apply, isSome_update]
    split_ifs with hk <;> simp [hk]
  · next hinsert herase =>
    have hnone : events op reply [] = [] := by
      unfold events
      split
      · exact absurd rfl (hinsert _ _ _ rfl)
      · exact absurd rfl (herase _ rfl)
      · rfl
    rw [mem_cachedKeys h, hnone]
    rfl

theorem doDynamicAge_of_full (h : Shows s capacity q) {v : ν} {a : Allow} {r : Result κ ν}
    (hheld : held q k = none) (hallow : insertAllowed a = true) (hfull : q.length = capacity)
    (hused : q ≠ []) (hexec : exec c s (.insert k v a) now = some r) :
    ∃ n s₁, s.doDynamicAge c now = some (n, s₁) ∧ Shows s₁ capacity (aged c now q) := by
  have hkey : s.keyedElements.lookup k = none := by
    rw [h.held] at hheld
    exact Option.map_eq_none_iff.mp hheld
  have hpos : s.usedSize > 0 := by
    rw [h.usedSize]
    exact List.length_pos_iff.mpr hused
  obtain ⟨⟨ok, evicted, s'⟩, hinsert, -⟩ := Option.map_eq_some_iff.mp hexec
  rw [LfudaCache.doInsertUpdate] at hinsert
  simp only [hkey, hallow, if_true] at hinsert
  obtain ⟨r', hdo, -⟩ := Option.map_eq_some_iff.mp hinsert
  rw [LfudaCache.doInsert, h.usedSize, h.capacity_eq, if_pos hfull.ge] at hdo
  obtain ⟨r'', hprune, -⟩ := Option.bind_eq_some_iff.mp hdo
  rw [LfudaCache.doPrune, if_pos hpos] at hprune
  obtain ⟨⟨n, s₁⟩, hage, -⟩ := Option.bind_eq_some_iff.mp hprune
  obtain ⟨used, free, hrep, rfl, hcapacity⟩ := h
  exact ⟨n, s₁, hage, shows_aged hrep hcapacity (doDynamicAge_some hrep hage).2⟩

theorem evictsOne_of_full (h : Shows s capacity q) {v : ν} {a : Allow} {victim : Element κ ν}
    {r : Result κ ν} (hheld : held q k = none) (hallow : insertAllowed a = true)
    (hfull : q.length = capacity) (hvictim : victim ∈ aged c now q)
    (hleast : ∀ e ∈ aged c now q, victim.useCount ≤ e.useCount)
    (hexec : exec c s (.insert k v a) now = some r)
    (hevicted : r.evicted = [(victim.key, victim.value)])
    (hshows : Shows r.cache capacity (without (aged c now q) victim.key ++ [⟨k, 1, now, v⟩])) :
    EvictsOne c ⟨s, .insert k v a, now, r⟩ := by
  have hused : q ≠ [] := by
    rintro rfl
    simp [aged] at hvictim
  obtain ⟨n, s₁, hage, hshows₁⟩ := doDynamicAge_of_full h hheld hallow hfull hused hexec
  have hentry : entry s₁ victim.key = some victim := by
    rw [hshows₁.entry, hshows₁.distinct.held_of_mem hvictim rfl]
  have hvalue : valueOf q victim.key = some victim.value := by
    rw [← valueOf_aged c now h.distinct, valueOf,
      hshows₁.distinct.held_of_mem hvictim rfl]
    rfl
  refine ⟨k, v, a, n, s₁, victim.key, victim, rfl, ?_, ?_, hage, hentry, ?_, ?_, hevicted, ?_⟩
  · rw [h.entry, hheld]
  · rw [LfudaCache.size, LfudaCache.capacity, h.usedSize, h.capacity_eq, hfull]
  · intro k' e' he'
    rw [hshows₁.entry] at he'
    exact hleast e' (mem_of_held he').1
  · rw [h.entry]
    exact hvalue
  · ext k'
    rw [mem_cachedKeys hshows, valueOf_new hshows.distinct, valueOf_without hshows₁.distinct,
      valueOf_aged c now h.distinct, isSome_update, isSome_update, Finset.mem_insert,
      Finset.mem_erase,
      mem_cachedKeys h]
    split_ifs with hk hk' <;> simp_all

theorem exec_sound (h : Shows s capacity q) {op : Op κ ν} {r : Result κ ν}
    (hexec : exec c s op now = some r) :
    ∃ q', Shows r.cache capacity q' ∧
      valueOf q' = (events op r.reply r.evicted).foldl Event.apply (valueOf q) ∧
      (Keeps ⟨s, op, now, r⟩ ∨ EvictsOne c ⟨s, op, now, r⟩) := by
  obtain ⟨q', hshows, hstep⟩ := exec_refines h hexec
  refine ⟨q', hshows, step_valueOf h.distinct hshows.distinct hstep, ?_⟩
  by_cases hnone : r.evicted = []
  · rw [hnone] at hstep
    exact Or.inl ⟨hnone, step_keeps h hshows hstep⟩
  · refine Or.inr ?_
    generalize hreply : r.reply = reply at hstep
    generalize hevicted : r.evicted = evicted at hstep
    cases hstep with
    | evict hheld hallow hfull hvictim hleast =>
      exact evictsOne_of_full h hheld hallow hfull hvictim hleast hexec hevicted hshows
    | update | insert | refuse | erase | find | findWithUseCount | age =>
      exact absurd hevicted hnone

/-! Runs. -/

theorem execAll_sound (ops : List (Op κ ν × ℤ)) : ∀ {s : LfudaCache κ ν} {q : Queue κ ν}
    {turns : List (Turn κ ν)}, Shows s capacity q → execAll c s ops = some turns →
    ∃ q', Shows (final s turns) capacity q' ∧
      valueOf q' = (history turns).foldl Event.apply (valueOf q) ∧
      ∀ t ∈ turns, Keeps t ∨ EvictsOne c t := by
  induction ops with
  | nil =>
    intro s q turns h hall
    obtain rfl := Option.some.inj hall
    exact ⟨q, h, rfl, by simp⟩
  | cons head ops ih =>
    intro s q turns h hall
    obtain ⟨op, now⟩ := head
    obtain ⟨r, rest, hexec, hrest, rfl⟩ := execAll_cons hall
    obtain ⟨q₁, h₁, hvalue₁, hkeys₁⟩ := exec_sound h hexec
    obtain ⟨q', h', hvalue, hkeys⟩ := ih h₁ hrest
    refine ⟨q', h', ?_, ?_⟩
    · rw [hvalue, hvalue₁, ← List.foldl_append]
      rfl
    · intro t ht
      rcases List.mem_cons.mp ht with rfl | ht
      · exact hkeys₁
      · exact hkeys t ht

/-! Finds, alone and over a range. -/

theorem find_values (c : Config) (now : ℤ) (keys : List κ) (peek : Bool) :
    ∀ {s : LfudaCache κ ν} {q : Queue κ ν},
    Shows s capacity q → ∃ turns, execAll c s (keys.map fun k => (.find k peek, now)) = some turns ∧
      turns.map (·.result.reply.value) = keys.map (valueOf q) := by
  induction keys with
  | nil => exact fun _ => ⟨[], rfl, rfl⟩
  | cons k keys ih =>
    intro s q h
    have h' := afterFind_refines h k peek now
    obtain ⟨turns, hall, hvalues⟩ := ih h'
    rw [valueOf_afterFind h.distinct h'.distinct] at hvalues
    refine ⟨_, execAll_cons_eq rfl hall, ?_⟩
    rw [List.map_cons, List.map_cons, hvalues]
    exact congrArg (· :: _) (doFind_val h k peek now)

theorem foldl_apply_concat (m : κ → Option ν) (happened : List (Event κ ν)) (e : Event κ ν) :
    (happened ++ [e]).foldl Event.apply m = Event.apply (happened.foldl Event.apply m) e := by
  rw [List.foldl_append, List.foldl_cons, List.foldl_nil]

theorem content_eq_some_iff {happened : List (Event κ ν)} {v : ν} :
    content happened k = some v ↔ lastEvent happened k = some (.stored k v) := by
  induction happened using List.reverseRecOn with
  | nil => simp [content, lastEvent]
  | append_singleton happened e ih =>
    rw [content, foldl_apply_concat, lastEvent, List.reverse_append]
    by_cases hk : e.key = k
    · subst hk
      cases e <;> simp [Event.apply, Event.key]
    · have happly : Event.apply (content happened) e k = content happened k := by
        cases e <;> exact Function.update_of_ne (Ne.symm hk) _ _
      have hfind : ([e].reverse ++ happened.reverse).find? (fun e => decide (e.key = k)) =
          lastEvent happened k := by simp [lastEvent, hk]
      rw [hfind, ← ih]
      exact iff_of_eq (congrArg (· = some v) happly)

def callReply (c : Config) (s : LfudaCache κ ν) (call : Call κ ν) (now : ℤ) :
    Option (CallReply κ ν) := (execCalls c s [(call, now)]).map call.reply

/-- Every way to find a key finds what it has in `m`. -/
structure Finds (c : Config) (s : LfudaCache κ ν) (m : κ → Option ν) : Prop where
  find : ∀ k peek now, (s.doFind k peek now).1 = m k
  findWithUseCount : ∀ k peek now, (s.doFindWithUseCount k peek now).1.map Prod.fst = m k
  findRange : ∀ keys peek now,
    callReply c s (.findRange keys peek) now = some (.pairs (keys.map fun k => (k, m k)))
  findRangeFill : ∀ items peek now, callReply c s (.findRangeFill items peek) now =
    some (.pairs (items.map fun item => (item.1, m item.1)))

theorem callReply_find (h : Shows s capacity q) (call : Call κ ν) (keys : List κ) (peek : Bool)
    (now : ℤ) (hops : call.ops = keys.map (.find · peek))
    (hreply : ∀ turns, call.reply turns = .pairs (keys.zip (turns.map (·.result.reply.value)))) :
    callReply c s call now = some (.pairs (keys.map fun k => (k, valueOf q k))) := by
  obtain ⟨turns, hall, hvalues⟩ := find_values c now keys peek h
  have hops' : (([(call, now)] : List (Call κ ν × ℤ)).flatMap fun call =>
      call.1.ops.map (·, call.2)) = keys.map fun k => (.find k peek, now) := by
    simp [hops]
  rw [callReply, execCalls, hops', hall, Option.map_some, hreply, hvalues,
    List.map_prod_left_eq_zip]

theorem finds_of_shows (c : Config) (h : Shows s capacity q) : Finds c s (valueOf q) where
  find k peek now := doFind_val h k peek now
  findWithUseCount k peek now := by
    have hsame : (s.doFindWithUseCount k peek now).1.map Prod.fst = (s.doFind k peek now).1 := by
      rw [LfudaCache.doFindWithUseCount, LfudaCache.doFind]
      cases s.keyedElements.lookup k <;> rfl
    rw [hsame]
    exact doFind_val h k peek now
  findRange keys peek now := callReply_find h _ keys peek now rfl fun _ => rfl
  findRangeFill items peek now := by
    rw [callReply_find h _ (items.map Prod.fst) peek now (by simp [Call.ops]) fun _ => rfl]
    simp

/-- The cache is a bounded map, whatever calls it has served. -/
theorem bounded_map [Inhabited κ] [Inhabited ν] (c : Config) (capacity : ℕ)
    (hcapacity : 0 < capacity) (calls : List (Call κ ν × ℤ)) :
    (0 ≤ c.dynamicAgeTick → ∃ turns, execCalls c (.create capacity) calls = some turns) ∧
    ∀ turns, execCalls c (.create capacity) calls = some turns →
      Finds c (final (.create capacity) turns) (content (history turns)) ∧
      (∀ k v, content (history turns) k = some v ↔
        lastEvent (history turns) k = some (.stored k v)) ∧
      (final (.create capacity) turns).size ≤ (final (.create capacity) turns).capacity ∧
      (final (.create capacity) turns).capacity = capacity ∧
      ∀ t ∈ turns, Keeps t ∨ EvictsOne c t := by
  have hcreate : Shows (.create capacity : LfudaCache κ ν) capacity [] := shows_create capacity
  refine ⟨fun htick => execAll_returns hcapacity htick _ hcreate, fun turns hall => ?_⟩
  obtain ⟨q, h, hvalue, hkeys⟩ := execAll_sound _ hcreate hall
  have hcontent : valueOf q = content (history turns) := hvalue
  refine ⟨hcontent ▸ finds_of_shows c h, fun k v => content_eq_some_iff, ?_, h.capacity_eq, hkeys⟩
  rw [LfudaCache.size, LfudaCache.capacity, h.usedSize, h.capacity_eq]
  exact h.length_le

theorem bounded_map_crowded :
    (execCalls ⟨10, halve⟩ (.create 2) crowded).map (·.map (·.result.evicted)) =
      some [[], [], [], [(2, 20)], [], [], []] ∧
    ∃ turns, execCalls ⟨10, halve⟩ (.create 2) crowded = some turns ∧
      Finds ⟨10, halve⟩ (final (.create 2) turns) (content (history turns)) ∧
      ∀ t ∈ turns, Keeps t ∨ EvictsOne ⟨10, halve⟩ t := by
  obtain ⟨hreturns, hsound⟩ := bounded_map ⟨10, halve⟩ 2 (by decide) crowded
  obtain ⟨turns, hall⟩ := hreturns (by decide)
  obtain ⟨hfinds, -, -, -, hkeys⟩ := hsound turns hall
  exact ⟨by decide +kernel, turns, hall, hfinds, hkeys⟩

end ParaKV.Cache.Eviction
