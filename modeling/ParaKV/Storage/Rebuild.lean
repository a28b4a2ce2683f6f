/- GID: ParaKV/Storage/Rebuild
   source: parakv/core/kvcache_storage/index_kvcache_storage_backend.cc,
     parakv/core/index/index.cc, parakv/core/cache/lfuda_cache.h
   digest: The eviction cache of a backend, and its rebuild from the recovered index. -/

import ParaKV.Cache.Eviction
import ParaKV.Index.FailedOpen
import ParaKV.Index.FailedRuns
import ParaKV.Storage.Simulation

/-!
`CreateContext` fills the eviction cache while `ForEachKey` goes over the index. A cache that is
full evicts, and its callback deletes a key from the index under the iteration. The index of a
running backend can hold one key more than the cache has room for: `Put` logs the new key before
the cache evicts an old one.
-/

set_option autoImplicit false

namespace ParaKV.Storage.Rebuild

open Cache.Lfuda Cache.AgeQueue Index.Key Core.State Storage.Backend.Indexed

/-! The cache of a context. -/

instance : Inhabited Key128 := ⟨⟨0, 0⟩⟩

/-- The options of the cache. `scaled` is the number of slots times `lfu_capacity_ratio`, rounded
down, and `age` what the ratio of 0.5f makes of a use count. -/
structure CacheOptions where
  ageTickSec : UInt32 := 60
  scaled : ℕ → ℕ
  age : SizeT → SizeT

def lfuConfig (co : CacheOptions) : Config := ⟨co.ageTickSec.toNat * 10 ^ 9, co.age⟩

def lfuCapacity (co : CacheOptions) (o : ParaKV.Core.State.Options) : ℕ :=
  let capacity := co.scaled (o.segmentCount * o.totalSlots)
  if capacity = 0 then 1 else capacity

theorem lfuCapacity_pos (co : CacheOptions) (o : ParaKV.Core.State.Options) :
    0 < lfuCapacity co o := by
  simp only [lfuCapacity]
  split_ifs <;> omega

theorem tick_nonneg (co : CacheOptions) : 0 ≤ (lfuConfig co).dynamicAgeTick := by
  simp only [lfuConfig]
  omega

/-- The cache with the clock readings that are still to come. -/
structure Clocked where
  cache : LfudaCache Key128 Bool
  clock : ℕ → ℤ

def Clocked.next (l : Clocked) (cache : LfudaCache Key128 Bool) : Clocked :=
  ⟨cache, fun n => l.clock (n + 1)⟩

/-- The calls the backend makes. A call that does not return is left out. -/
def clockedLfu (c : Config) : Lfu Clocked where
  insert key l :=
    match exec c l.cache (.insert key true .insertOrUpdate) (l.clock 0) with
    | some r => (l.next r.cache, r.evicted.map Prod.fst)
    | none => (l, [])
  find key l :=
    match exec c l.cache (.find key false) (l.clock 0) with
    | some r => l.next r.cache
    | none => l
  erase key l := { l with cache := (l.cache.erase key).2 }

def Clocked.keys (l : Clocked) : Finset Key128 := l.cache.keyedElements.keys

def Clocked.Bounded (capacity : ℕ) (l : Clocked) : Prop := ∃ q, Shows l.cache capacity q

/-- The callback of `ForEachKey`, over the keys in the order of the iteration; with the keys that
the cache evicts. -/
def rebuild (c : Config) : List Key128 → Clocked → Option (Clocked × List Key128)
  | [], l => some (l, [])
  | key :: keys, l => do
    let r ← exec c l.cache (.insert key true .insert) (l.clock 0)
    let (l, evicted) ← rebuild c keys (l.next r.cache)
    return (l, r.evicted.map Prod.fst ++ evicted)

/-- The eviction cache of `CreateContext`. -/
def createCache (co : CacheOptions) (o : ParaKV.Core.State.Options) (keys : List Key128)
    (clock : ℕ → ℤ) : Option (Clocked × List Key128) :=
  rebuild (lfuConfig co) keys ⟨.create (lfuCapacity co o), clock⟩

/-- `ForEachKey` meets every key of the map once, in any order. -/
def Enumerates (keys : List Key128) (m : Map Key128) : Prop :=
  keys.Nodup ∧ ∀ k, k ∈ keys ↔ k ∈ m

theorem Enumerates.length_eq {keys : List Key128} {m : Map Key128} (h : Enumerates keys m) :
    keys.length = m.keys.card := by
  rw [← List.toFinset_card_of_nodup h.1]
  refine congrArg _ (Finset.ext fun k => ?_)
  rw [List.mem_toFinset, h.2, Finmap.mem_keys]

/-! The keys of the cache. -/

variable {c : Config} {capacity : ℕ} {l : Clocked} {key : Key128}

theorem card_keys_eq {s : LfudaCache Key128 Bool} {q : Queue Key128 Bool}
    (h : Shows s capacity q) : s.keyedElements.keys.card = q.length := by
  have hnodup : (Cache.Eviction.keys q).Nodup := Cache.Eviction.distinct_iff.mp h.distinct
  have hkeys : s.keyedElements.keys = (Cache.Eviction.keys q).toFinset := by
    ext k
    rw [Cache.Eviction.mem_cachedKeys h, Cache.Eviction.isSome_valueOf, List.mem_toFinset]
  rw [hkeys, List.toFinset_card_of_nodup hnodup, Cache.Eviction.keys, List.length_map]

theorem Clocked.Bounded.card_le (h : l.Bounded capacity) : l.keys.card ≤ capacity := by
  obtain ⟨q, hq⟩ := h
  rw [Clocked.keys, card_keys_eq hq]
  exact hq.length_le

theorem mem_keys_iff {s : LfudaCache Key128 Bool} {q : Queue Key128 Bool}
    (h : Shows s capacity q) : key ∈ s.keyedElements.keys ↔ (held q key).isSome = true := by
  rw [Cache.Eviction.mem_cachedKeys h, Cache.Eviction.valueOf, Option.isSome_map]

theorem exec_insert_keys {s : LfudaCache Key128 Bool} {q : Queue Key128 Bool} {now : ℤ} {a : Allow}
    {r : Result Key128 Bool} (h : Shows s capacity q)
    (hallow : insertAllowed a = true ∧ (key ∈ s.keyedElements.keys → updateAllowed a = true))
    (hexec : exec c s (.insert key true a) now = some r) :
    (∃ q', Shows r.cache capacity q') ∧
      (r.evicted = [] ∧ r.cache.keyedElements.keys = insert key s.keyedElements.keys ∨
        ∃ v ∈ s.keyedElements.keys, key ∉ s.keyedElements.keys ∧
          s.keyedElements.keys.card = capacity ∧ r.evicted.map Prod.fst = [v] ∧
          r.cache.keyedElements.keys = insert key (s.keyedElements.keys.erase v)) := by
  have hreply : r.reply = .done true := by
    obtain ⟨q', -, hstep⟩ := exec_refines h hexec
    generalize r.reply = reply, r.evicted = evicted at hstep ⊢
    cases hstep with
    | update => rfl
    | insert => rfl
    | evict => rfl
    | refuse hrefuse =>
      split_ifs at hrefuse with hheld
      · rw [hallow.2 ((mem_keys_iff h).mpr hheld)] at hrefuse
        cases hrefuse
      · rw [hallow.1] at hrefuse
        cases hrefuse
  obtain ⟨q', hq', -, ⟨hevicted, hkeys⟩ | hevicts⟩ := Cache.Eviction.exec_sound h hexec
  · refine ⟨⟨q', hq'⟩, Or.inl ⟨hevicted, ?_⟩⟩
    rw [hkeys]
    simp only [Cache.Eviction.keptKeys, hreply]
  · obtain ⟨k, v, a', n, aged, victim, e, hop, hnone, hsize, -, -, -, hvictim, hevicted, hkeys⟩ :=
      hevicts
    cases hop
    refine ⟨⟨q', hq'⟩, Or.inr ⟨victim, ?_, ?_, ?_, ?_, hkeys⟩⟩
    · rw [mem_keys_iff h, ← h.entry]
      exact Option.isSome_map.symm.trans (congrArg Option.isSome hvictim)
    · rw [mem_keys_iff h, ← h.entry, hnone]
      simp
    · rw [card_keys_eq h, ← h.usedSize]
      exact hsize.trans h.capacity_eq
    · rw [hevicted]
      rfl

theorem insert_spec (hcapacity : 0 < capacity) (htick : 0 ≤ c.dynamicAgeTick)
    (h : l.Bounded capacity) (key : Key128) :
    ((clockedLfu c).insert key l).1.Bounded capacity ∧
      (((clockedLfu c).insert key l).2 = [] ∧
          ((clockedLfu c).insert key l).1.keys = insert key l.keys ∨
        ∃ v ∈ l.keys, key ∉ l.keys ∧ l.keys.card = capacity ∧
          ((clockedLfu c).insert key l).2 = [v] ∧
          ((clockedLfu c).insert key l).1.keys = insert key (l.keys.erase v)) := by
  obtain ⟨q, hq⟩ := h
  obtain ⟨r, hr⟩ := exec_returns hq hcapacity htick (.insert key true .insertOrUpdate) (l.clock 0)
  have hinsert : (clockedLfu c).insert key l = (l.next r.cache, r.evicted.map Prod.fst) := by
    simp only [clockedLfu, hr]
  obtain ⟨hbounded, hkeys⟩ := exec_insert_keys hq ⟨rfl, fun _ => rfl⟩ hr
  rw [hinsert]
  refine ⟨hbounded, hkeys.imp_left fun hkept => ⟨?_, hkept.2⟩⟩
  rw [hkept.1]
  rfl

theorem exec_other_keys {s : LfudaCache Key128 Bool} {q : Queue Key128 Bool} {now : ℤ}
    {op : Op Key128 Bool} {r : Result Key128 Bool} (h : Shows s capacity q)
    (hop : ∀ k v a, op ≠ .insert k v a) (hexec : exec c s op now = some r) :
    (∃ q', Shows r.cache capacity q') ∧
      r.cache.keyedElements.keys = Cache.Eviction.keptKeys s op r.reply := by
  obtain ⟨q', hq', -, ⟨-, hkeys⟩ | ⟨k, v, a, -, -, -, -, hinsert, -⟩⟩ :=
    Cache.Eviction.exec_sound h hexec
  · exact ⟨⟨q', hq'⟩, hkeys⟩
  · exact absurd hinsert (hop k v a)

theorem find_spec (h : l.Bounded capacity) (key : Key128) :
    ((clockedLfu c).find key l).Bounded capacity ∧
      ((clockedLfu c).find key l).keys = l.keys := by
  obtain ⟨q, hq⟩ := h
  have hexec : exec c l.cache (.find key false) (l.clock 0) = some _ := rfl
  exact exec_other_keys hq (by simp) hexec

theorem erase_spec (h : l.Bounded capacity) (key : Key128) :
    ((clockedLfu c).erase key l).Bounded capacity ∧
      ((clockedLfu c).erase key l).keys = l.keys.erase key := by
  obtain ⟨q, hq⟩ := h
  have hexec : exec c l.cache (.erase key) 0 = some _ := rfl
  obtain ⟨hbounded, hkeys⟩ := exec_other_keys hq (by simp) hexec
  refine ⟨hbounded, hkeys.trans ?_⟩
  cases hk : l.cache.keyedElements.lookup key with
  | none =>
    have hnot : key ∉ l.cache.keyedElements.keys := by
      rw [Finmap.mem_keys]
      exact Finmap.lookup_eq_none.mp hk
    simp [LfudaCache.erase, hk, Cache.Eviction.keptKeys, Clocked.keys,
      Finset.erase_eq_of_notMem hnot]
  | some n => simp [LfudaCache.erase, hk, Cache.Eviction.keptKeys, Clocked.keys]

theorem rebuild_spec (hcapacity : 0 < capacity) (htick : 0 ≤ c.dynamicAgeTick)
    {keys : List Key128} (hnodup : keys.Nodup) : ∀ {l : Clocked}, l.Bounded capacity →
    (∀ k ∈ keys, k ∉ l.keys) → l.keys.card + keys.length ≤ capacity →
    ∃ l', rebuild c keys l = some (l', []) ∧ l'.Bounded capacity ∧
      l'.keys = l.keys ∪ keys.toFinset := by
  induction keys with
  | nil =>
    intro l h _ _
    exact ⟨l, rfl, h, by simp⟩
  | cons key keys ih =>
    intro l ⟨q, hq⟩ hnew hroom
    obtain ⟨hkey, hnodup⟩ := List.nodup_cons.mp hnodup
    have hout : key ∉ l.keys := hnew key List.mem_cons_self
    obtain ⟨r, hr⟩ := exec_returns hq hcapacity htick (.insert key true .insert) (l.clock 0)
    obtain ⟨hbounded, ⟨hevicted, hkeys⟩ | ⟨v, -, -, hfull, -⟩⟩ :=
      exec_insert_keys hq ⟨rfl, fun hin => absurd hin hout⟩ hr
    · have hkeys' : (l.next r.cache).keys = insert key l.keys := hkeys
      have hcard : (l.next r.cache).keys.card = l.keys.card + 1 := by
        rw [hkeys', Finset.card_insert_of_notMem hout]
      obtain ⟨l', hl', hbounded', hunion⟩ := ih hnodup (l := l.next r.cache) hbounded
        (fun k hk => by
          rw [hkeys', Finset.mem_insert, not_or]
          exact ⟨fun heq => hkey (heq ▸ hk), hnew k (List.mem_cons_of_mem _ hk)⟩)
        (by rw [hcard]; rw [List.length_cons] at hroom; omega)
      refine ⟨l', ?_, hbounded', ?_⟩
      · simp [rebuild, hr, hl', hevicted]
      · rw [hunion, hkeys', List.toFinset_cons, Finset.union_insert, Finset.insert_union]
    · -- a cache with room is not full
      rw [List.length_cons] at hroom
      have hcard : l.keys.card = capacity := hfull
      omega

theorem createCache_spec (co : CacheOptions) (o : ParaKV.Core.State.Options) {keys : List Key128}
    {m : Map Key128} (hkeys : Enumerates keys m) (hroom : m.keys.card ≤ lfuCapacity co o)
    (clock : ℕ → ℤ) :
    ∃ l, createCache co o keys clock = some (l, []) ∧ l.Bounded (lfuCapacity co o) ∧
      l.keys = m.keys := by
  have hempty : (⟨.create (lfuCapacity co o), clock⟩ : Clocked).keys = ∅ := rfl
  obtain ⟨l, hl, hbounded, hunion⟩ := rebuild_spec (c := lfuConfig co) (lfuCapacity_pos co o)
    (tick_nonneg co) hkeys.1 (l := ⟨.create (lfuCapacity co o), clock⟩) ⟨[], shows_create _⟩
    (by simp [hempty]) (by simpa [hempty, hkeys.length_eq] using hroom)
  refine ⟨l, hl, hbounded, hunion.trans ?_⟩
  ext k
  simp [hempty, hkeys.2 k, Finmap.mem_keys]

end ParaKV.Storage.Rebuild
