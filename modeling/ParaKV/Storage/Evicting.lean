/- GID: ParaKV/Storage/Evicting
   source: parakv/core/kvcache_storage/index_kvcache_storage_backend.cc,
     parakv/core/kvcache_storage/mocked_inmemory_kvcache_storage.cc,
     parakv/core/cache/lfuda_cache.h
   digest: A backend with a cache is an in-memory store that evicts its least used keys. -/

import ParaKV.Lib.Transducer
import ParaKV.Storage.Persistence

set_option autoImplicit false

namespace ParaKV.Storage.Evicting

open Lib.HashOrder Lib.OwnedSlots Lib.Transducer Index Index.Key Index.Ownership Index.CrashSafety
open Index.Recovery Index.Runs Core.State Cache.Lfuda Cache.AgeQueue Storage.Backend
open Storage.Backend.Indexed Storage.Simulation Storage.Restart Storage.Rebuild Storage.Tracking
open Storage.Persistence (Usable Backs puts backs_request backs_other backs_opened)

/-! The calls of a backend with their replies. -/

/-- A call, with the clock readings of the in-memory backend. -/
inductive Timely
  | start (keys : List Key128) (clock : ℕ → ℤ)
  | serve (t : Timed)
  | close

def Timely.call : Timely → Call
  | .start keys clock => .start keys clock
  | .serve t => .serve t.request
  | .close => .close

section Next

variable (u : Setup)

def reply : Stage → Timely → Option Reply
  | .up s, .serve t => some (s.serve u.backend u.hash u.lfu t.request).1
  | _, _ => none

def next (g : Stage) (call : Timely) : Option (Option Reply × Stage) :=
  (callStage u g call.call).map fun g' => (reply u g call, g')

end Next

/-! The in-memory store with the use counts of its keys. -/

structure Memory where
  store : Mocked.Store
  uses : Queue Key128 Bool

/-- The eviction callback deletes the keys. -/
def evictAll (evicted : List (Key128 × Bool)) (store : Mocked.Store) : Mocked.Store :=
  evicted.foldl (fun st v => (Mocked.delete (toBytes v.1) st).2) store

section Memory

variable (u : Setup)

/-- What a request that is answered with `kOk` is to the queue, which says whom a new key evicts. -/
inductive Uses (q : Queue Key128 Bool) :
    Request → List (Key128 × Bool) → Queue Key128 Bool → Prop
  | put {key value metadata : Bytes} {opts : WriteOptions} {done : Cache.Lfuda.Reply Bool}
      {evicted : List (Key128 × Bool)} {uses : Queue Key128 Bool} (now : ℤ) :
      Step (lfuConfig u.cache) u.capacity now q (.insert (ofBytes key) true .insertOrUpdate) done
        evicted uses → Uses q (.put key value metadata opts) evicted uses
  | get (key : Bytes) (opts : ReadOptions) (now : ℤ) :
      Uses q (.get key opts) [] (afterFind q (ofBytes key) false now)
  | delete (key : Bytes) : Uses q (.delete key) [] (without q (ofBytes key))
  | compact : Uses q .compact [] q

inductive Serves (t : Timed) (p : Memory) : Reply → Memory → Prop
  | ok {evicted : List (Key128 × Bool)} {uses : Queue Key128 Bool} :
      (serveMocked t p.store).1.code = .ok → Uses u p.uses t.request evicted uses →
      Serves t p (serveMocked t p.store).1 ⟨evictAll evicted (serveMocked t p.store).2, uses⟩
  | refused : (serveMocked t p.store).1.code ≠ .ok →
      Serves t p (serveMocked t p.store).1 ⟨(serveMocked t p.store).2, p.uses⟩
  | full : puts t.request = true → Serves t p (.wrote ⟨.storageFull, "index put failed"⟩) p

theorem one_lt_size : 1 < 2 ^ 64 := by decide

/-- The keys as a start enters them, one after the other. -/
def stamped : List Key128 → (ℕ → ℤ) → Queue Key128 Bool
  | [], _ => []
  | key :: keys, clock =>
    ⟨key, ⟨1, one_lt_size⟩, clock 0, true⟩ :: stamped keys fun n => clock (n + 1)

def Lists (keys : List Key128) (store : Mocked.Store) : Prop :=
  keys.Nodup ∧ ∀ k, k ∈ keys ↔ (store.lookup (toBytes k)).isSome = true

inductive MemoryStage
  | up (p : Memory)
  | down (store : Mocked.Store)

/-- A restart keeps the store and forgets the use counts. -/
inductive Turns : MemoryStage → Timely → Option Reply → MemoryStage → Prop
  | serve {t : Timed} {p p' : Memory} {r : Reply} :
      Serves u t p r p' → Turns (.up p) (.serve t) (some r) (.up p')
  | close (p : Memory) : Turns (.up p) .close none (.down p.store)
  | start {keys : List Key128} {store : Mocked.Store} (clock : ℕ → ℤ) : Lists keys store →
      Turns (.down store) (.start keys clock) none (.up ⟨store, stamped keys clock⟩)

end Memory

/-! A backend with a cache and the same backend without. -/

section Bare

variable {L : Type} (b : Indexed.Options) (hash : HashPolicy ℕ) (lfu : Lfu L) {s : Server L} {l : L}

def bare (s : Server L) : Server L := ⟨s.world, some ⟨none⟩⟩

/-- What the cache does when a request succeeds: its next state and the keys it evicts. -/
def touch (l : L) : Request → L × List Key128
  | .put key _ _ _ => lfu.insert (ofBytes key) l
  | .get key _ => (lfu.find (ofBytes key) l, [])
  | .delete key => (lfu.erase (ofBytes key) l, [])
  | .compact => (l, [])

theorem serve_bare (hctx : s.ctx = some ⟨some l⟩) {r : Request} (hadmitted : r.Admitted b) :
    let x := s.serve b hash lfu r
    let y := (bare s).serve b hash lfu r
    x.1 = y.1 ∧ x.2 = if x.1.code = .ok then
      ⟨(run (evict (indexOptions b hash) (touch lfu l r).2) y.2.world).state,
        some ⟨some (touch lfu l r).1⟩⟩
      else ⟨y.2.world, s.ctx⟩ := by
  cases r with
  | put key value metadata opts =>
    have hkey := fromString_eq hadmitted.1
    have hstate := probeExisting_state (b := b) (o := indexOptions b hash) (ofBytes key) opts
      s.world
    cases hprobe : (run (probeExisting b (indexOptions b hash) (ofBytes key) opts) s.world).val with
    | some refusal =>
      simp [Server.serve, bare, Indexed.put, hkey, hctx, hprobe, hstate, Reply.code,
        probeExisting_refusal hprobe]
    | none =>
      cases hpayload : encodePayload b value metadata with
      | error e =>
        simp [Server.serve, bare, Indexed.put, hkey, hctx, hprobe, hstate, hpayload, Reply.code,
          encodePayload_refusal hpayload]
      | ok payload =>
        by_cases hval : (run (Operations.put (indexOptions b hash) (ofBytes key) payload)
            s.world).val = .ok
        · simp [Server.serve, bare, Indexed.put, hkey, hctx, hprobe, hstate, hpayload, hval,
            lfuInsert, touch, Reply.code]
        · simp [Server.serve, bare, Indexed.put, hkey, hctx, hprobe, hstate, hpayload, hval,
            Reply.code, toBackendCode_ne_ok hval]
  | get key opts =>
    have hkey := fromString_eq hadmitted.1
    have hstate := run_get_state (o := indexOptions b hash) (w := s.world) (ofBytes key : Key128)
      b.slotValueSize.toNat
    by_cases hval : (run (Operations.get (indexOptions b hash) (ofBytes key)
        b.slotValueSize.toNat) s.world).val.1 = .ok
    · cases hdecode : decodePayload (run (Operations.get (indexOptions b hash) (ofBytes key)
          b.slotValueSize.toNat) s.world).val.2 with
      | error e =>
        have hcode : e.1 = .corrupted := decodePayload_error hdecode
        simp [Server.serve, bare, Indexed.get, hkey, hctx, hstate, hval, hdecode, Reply.code, hcode]
      | ok parts =>
        simp [Server.serve, bare, Indexed.get, hkey, hctx, hstate, hval, hdecode, lfuFind, touch,
          evict, Reply.code]
    · simp [Server.serve, bare, Indexed.get, hkey, hctx, hstate, hval, Reply.code,
        toBackendCode_ne_ok hval]
  | delete key =>
    have hkey := fromString_eq hadmitted
    by_cases hval : (run (Operations.delete (indexOptions b hash) (ofBytes key)) s.world).val = .ok
    · simp [Server.serve, bare, Indexed.delete, hkey, hctx, hval, lfuErase, touch, evict,
        Reply.code]
    · simp [Server.serve, bare, Indexed.delete, hkey, hctx, hval, Reply.code,
        toBackendCode_ne_ok hval]
  | compact => exact ⟨rfl, by simp [Server.serve, bare, touch, evict, hctx, Reply.code]⟩

variable {b hash}

theorem backs_bare {s' : Server L} {store : Mocked.Store} (h : Backs b hash s' store)
    (hworld : s.world = s'.world) : Backs b hash (bare s) store := by
  obtain ⟨w, ctx⟩ := s'
  obtain rfl : ctx = some ⟨none⟩ := h.simulates.ctx
  rw [bare, hworld]
  exact h

end Bare

/-! The cache refines the queue. -/

section Cache

variable {u : Setup} {l : Clocked} {q : Queue Key128 Bool}

theorem touch_refines (h : Shows l.cache u.capacity q) (r : Request) :
    ∃ evicted uses, Uses u q r evicted uses ∧ Shows (touch u.lfu l r).1.cache u.capacity uses ∧
      (touch u.lfu l r).2 = evicted.map Prod.fst := by
  cases r with
  | put key value metadata opts =>
    obtain ⟨x, hx⟩ := exec_returns h u.capacity_pos (tick_nonneg u.cache)
      (.insert (ofBytes key) true .insertOrUpdate) (l.clock 0)
    obtain ⟨uses, hshows, hstep⟩ := exec_refines h hx
    have hinsert : u.lfu.insert (ofBytes key) l = (l.next x.cache, x.evicted.map Prod.fst) := by
      simp [Setup.lfu, clockedLfu, hx]
    rw [touch, hinsert]
    exact ⟨x.evicted, uses, .put _ hstep, hshows, rfl⟩
  | get key opts =>
    have hexec : exec (lfuConfig u.cache) l.cache (.find (ofBytes key) false) (l.clock 0) =
      some _ := rfl
    obtain ⟨uses, hshows, hstep⟩ := exec_refines h hexec
    generalize hreply : (Result.reply _ : Cache.Lfuda.Reply Bool) = reply at hstep
    cases hstep
    exact ⟨[], _, .get key opts _, hshows, rfl⟩
  | delete key =>
    have hexec : exec (lfuConfig u.cache) l.cache (.erase (ofBytes key)) 0 = some _ := rfl
    obtain ⟨uses, hshows, hstep⟩ := exec_refines h hexec
    generalize hreply : (Result.reply _ : Cache.Lfuda.Reply Bool) = reply at hstep
    cases hstep
    exact ⟨[], _, .delete key, hshows, rfl⟩
  | compact => exact ⟨[], q, .compact, h, rfl⟩

theorem rebuild_refines {c : Config} {capacity : ℕ} (keys : List Key128) :
    ∀ {l l' : Clocked} {q : Queue Key128 Bool}, Shows l.cache capacity q →
      (∀ k ∈ keys, held q k = none) → keys.Nodup → q.length + keys.length ≤ capacity →
      ∀ {evicted}, rebuild c keys l = some (l', evicted) →
      Shows l'.cache capacity (q ++ stamped keys l.clock) := by
  induction keys with
  | nil =>
    intro l l' q h _ _ _ evicted hrebuild
    obtain ⟨rfl, -⟩ := Prod.mk.inj (Option.some.inj hrebuild)
    simpa [stamped] using h
  | cons key keys ih =>
    intro l l' q h hnew hnodup hroom evicted hrebuild
    obtain ⟨hkey, hnodup⟩ := List.nodup_cons.mp hnodup
    rw [List.length_cons] at hroom
    obtain ⟨r, hr, hrest⟩ := Option.bind_eq_some_iff.mp hrebuild
    obtain ⟨⟨l₁, rest⟩, hl₁, hpair⟩ := Option.bind_eq_some_iff.mp hrest
    obtain ⟨rfl, -⟩ := Prod.mk.inj (Option.some.inj hpair)
    obtain ⟨uses, hshows, hstep⟩ := exec_refines h hr
    have huses : uses = q ++ [⟨key, ⟨1, one_lt_size⟩, l.clock 0, true⟩] := by
      have hheld := hnew key List.mem_cons_self
      generalize r.reply = reply at hstep
      generalize r.evicted = gone at hstep
      cases hstep with
      | update hsome _ => simp [hheld] at hsome
      | insert _ _ _ => rfl
      | evict _ _ hfull _ _ => omega
      | refuse hallow =>
        simp only [hheld, Option.isSome_none, Bool.false_eq_true, if_false] at hallow
        exact absurd hallow (by decide)
    subst huses
    have hnext := ih (l := l.next r.cache) hshows (fun k hk => ?_) hnodup
      (by simp only [List.length_append, List.length_cons, List.length_nil]; omega) hl₁
    · simpa [stamped, Clocked.next] using hnext
    · have hne : key ≠ k := fun heq => hkey (heq ▸ hk)
      have hold := hnew k (List.mem_cons_of_mem _ hk)
      simp only [held, List.find?_append, Option.or_eq_none_iff] at hold ⊢
      exact ⟨hold, by simp [hne]⟩

end Cache

/-! One request. -/

section Serve

variable {u : Setup} {s : Server Clocked} {p : Memory}

/-- The index holds the store, and the cache shows the use counts of its keys. -/
structure Caches (u : Setup) (s : Server Clocked) (p : Memory) : Prop where
  cache : ∃ l, Synced u s l ∧ Shows l.cache u.capacity p.uses
  backs : Backs u.backend u.hash (bare s) p.store

theorem backs_evictAll (husable : Usable u.backend u.hash) (evicted : List (Key128 × Bool)) :
    ∀ {w : World Key128} {store : Mocked.Store},
      Backs u.backend u.hash (⟨w, some ⟨none⟩⟩ : Server Clocked) store →
      Backs u.backend u.hash
        (⟨(run (evict u.index (evicted.map Prod.fst)) w).state, some ⟨none⟩⟩ : Server Clocked)
        (evictAll evicted store) := by
  induction evicted with
  | nil => exact fun h => h
  | cons v evicted ih =>
    intro w store h
    have hlength : (toBytes v.1).length = 16 := length_toBytes v.1
    have hnext := backs_other u.lfu husable h ⟨.delete (toBytes v.1), 0, 0⟩ rfl hlength rfl
    have hworld : ((⟨w, some ⟨none⟩⟩ : Server Clocked).serve u.backend u.hash u.lfu
        (.delete (toBytes v.1))).2 =
        ⟨(run (Operations.delete u.index v.1) w).state, some ⟨none⟩⟩ := by
      have hkey : Key128.fromString (toBytes v.1) = some v.1 := by
        rw [fromString_eq hlength, ofBytes_toBytes]
      by_cases hval : (run (Operations.delete u.index v.1) w).val = .ok <;>
        simp [Server.serve, Indexed.delete, hkey, u.indexOptions_eq, hval, lfuErase]
    rw [hworld] at hnext
    rw [List.map_cons, run_evict_cons]
    exact ih hnext

theorem synced_serve (husable : Usable u.backend u.hash) (h : Caches u s p) (r : Request)
    {l : Clocked} (hctx : (s.serve u.backend u.hash u.lfu r).2.ctx = some ⟨some l⟩) :
    Synced u (s.serve u.backend u.hash u.lfu r).2 l := by
  obtain ⟨l₀, hsynced, -⟩ := h.cache
  obtain ⟨l', hnext⟩ := serve_synced husable.admissible hsynced r
  have heq := hnext.ctx.symm.trans hctx
  cases heq
  exact hnext

theorem serve_caches (husable : Usable u.backend u.hash) (h : Caches u s p) (t : Timed)
    (hadmitted : t.request.Admitted u.backend)
    (hreturned : (s.serve u.backend u.hash u.lfu t.request).1.returned = true) :
    ∃ p', Serves u t p (s.serve u.backend u.hash u.lfu t.request).1 p' ∧
      Caches u (s.serve u.backend u.hash u.lfu t.request).2 p' := by
  obtain ⟨l, hsynced, hshows⟩ := h.cache
  obtain ⟨hreply, hend⟩ := serve_bare u.backend u.hash u.lfu hsynced.ctx hadmitted
  have hbare := backs_request u.lfu husable h.backs t hadmitted (hreply ▸ hreturned)
  rw [← hreply] at hbare
  by_cases hok : (s.serve u.backend u.hash u.lfu t.request).1.code = .ok
  · rw [if_pos hok] at hend
    obtain ⟨evicted, uses, huses, hshows', hevicted⟩ := touch_refines hshows t.request
    rcases hbare with ⟨hmocked, hbacks⟩ | ⟨-, hfull, -⟩
    · have hnext := backs_evictAll husable evicted (backs_bare hbacks rfl)
      rw [← hevicted] at hnext
      have hcache := synced_serve husable h t.request (l := (touch u.lfu l t.request).1)
        (by rw [hend])
      rw [hmocked] at hok ⊢
      exact ⟨_, .ok hok huses, ⟨_, hcache, hshows'⟩, backs_bare hnext (by rw [hend]; rfl)⟩
    · rw [hfull] at hok
      cases hok
  · rw [if_neg hok] at hend
    have hcache := synced_serve husable h t.request (l := l) (by rw [hend, hsynced.ctx])
    rcases hbare with ⟨hmocked, hbacks⟩ | ⟨hputs, hfull, hbacks⟩
    · rw [hmocked] at hok ⊢
      exact ⟨_, .refused hok, ⟨l, hcache, hshows⟩, backs_bare hbacks (by rw [hend])⟩
    · rw [hfull]
      exact ⟨p, .full hputs, ⟨l, hcache, hshows⟩, backs_bare hbacks (by rw [hend])⟩

end Serve

/-! Starting and closing. -/

section Stages

variable {u : Setup} {d : Disk Key128} {store : Mocked.Store} {keys : List Key128}

/-- Files that recover to a store that fits into the cache. -/
structure Rests (u : Setup) (d : Disk Key128) (store : Mocked.Store) : Prop where
  recovers : ∃ m, CrashSafe u.index AnyValue d m ∧ m.keys.card ≤ u.capacity ∧
    ∀ key : Bytes, key.length = 16 → content (entries m) (view u.index d) (ofBytes key) =
      (store.lookup key).map (stored u.backend)
  openable : ∀ id < u.index.segmentCount, (d.images id).Openable
  entries : ∀ key e, store.lookup key = some e →
    e.expirationMs = 0 ∧ Fits u.backend e.value e.metadata

theorem lists_iff {m : Map Key128} (hsafe : CrashSafe u.index AnyValue d m)
    (hcontent : ∀ key : Bytes, key.length = 16 →
      content (entries m) (view u.index d) (ofBytes key) =
        (store.lookup key).map (stored u.backend)) :
    Lists keys store ↔ Enumerates keys m := by
  refine and_congr_right fun _ => forall_congr' fun k => iff_congr Iff.rfl ?_
  have hk := hcontent (toBytes k) (length_toBytes k)
  rw [ofBytes_toBytes] at hk
  rw [← Finmap.mem_keys, mem_keys_iff_content hsafe.owns, hk]
  cases store.lookup (toBytes k) <;> simp

theorem start_caches (husable : Usable u.backend u.hash) (h : Rests u d store)
    (keys : List Key128) (clock : ℕ → ℤ) :
    (∀ g, startStage u keys clock d = some g → Lists keys store) ∧
      (Lists keys store → ∃ s, startStage u keys clock d = some (.up s) ∧
        Caches u s ⟨store, stamped keys clock⟩) := by
  obtain ⟨m, hsafe, hcard, hcontent⟩ := h.recovers
  obtain ⟨-, -, -, hjournaled, hopen⟩ := openStore_spec husable.admissible walPath_ne hsafe
  have hval := hopen h.openable
  obtain ⟨hcode, hstate⟩ := run_createContext husable.valid husable.root hval
  have hmap : (run (createContext u.backend u.hash) (World.boot d)).state.map = m := by
    rw [hstate]
    exact (hjournaled hval).2
  have hlists : Lists keys store ↔
      Enumerates keys (run (createContext u.backend u.hash) (World.boot d)).state.map := by
    rw [hmap]
    exact lists_iff hsafe hcontent
  refine ⟨fun g hstart => hlists.mpr ?_, fun hkeys => ?_⟩
  · by_contra hne
    simp [startStage, hcode, hne] at hstart
  · have henum := hlists.mp hkeys
    obtain ⟨l, hl, hstart, -, -, hsynced⟩ := start_spec husable.admissible ⟨m, hsafe, hcard⟩ clock
      hcode henum
    have hshows := rebuild_refines keys (shows_create u.capacity) (fun _ _ => rfl) hkeys.1
      (by rw [hmap] at henum
          simpa [henum.length_eq] using hcard) hl
    obtain ⟨hbacks, -⟩ := backs_opened (L := Clocked) husable hsafe h.openable hcontent h.entries
    exact ⟨_, hstart, ⟨l, hsynced, hshows⟩, backs_bare hbacks rfl⟩

theorem close_rests {s : Server Clocked} {p : Memory} (husable : Usable u.backend u.hash)
    (h : Caches u s p) :
    Rests u (run (Indexed.close u.index s.ctx) s.world).state.disk p.store := by
  obtain ⟨l, hsynced, -⟩ := h.cache
  have hdir : u.index.snapshotDir ≠ "" := husable.root
  have himages := (close_files hdir hsynced.running.live.segs ⟨some l⟩).1
  rw [hsynced.ctx]
  refine ⟨⟨s.world.map, close_durable hdir hsynced.running _, hsynced.card_le, ?_⟩, ?_,
    h.backs.simulates.entries⟩
  · intro key hkey
    rw [view_congr himages]
    exact h.backs.simulates.contents key hkey
  · intro id hid _
    rw [himages]
    exact (live_complete hsynced.running.live id hid).2

/-! Runs. -/

inductive Agrees (u : Setup) : Stage → MemoryStage → Prop
  | up {s : Server Clocked} {p : Memory} (h : Caches u s p) : Agrees u (.up s) (.up p)
  | down {d : Disk Key128} {store : Mocked.Store} (h : Rests u d store) :
      Agrees u (.down d) (.down store)

theorem turns_of_next (husable : Usable u.backend u.hash) {g : Stage} {q : MemoryStage}
    {call : Timely} (h : Agrees u g q)
    (hadmitted : ∀ t, call = .serve t → t.request.Admitted u.backend) {r : Option Reply × Stage}
    (hnext : next u g call = some r) : ∃ q', Turns u q call r.1 q' ∧ Agrees u r.2 q' := by
  obtain ⟨g', hstage, rfl⟩ := Option.map_eq_some_iff.mp hnext
  cases h with
  | up h =>
    cases call with
    | start keys clock => cases hstage
    | serve t =>
      obtain ⟨s', hafter, rfl⟩ := Option.map_eq_some_iff.mp hstage
      obtain ⟨rfl, hreturned⟩ := Server.after_eq_some hafter
      obtain ⟨p', hserves, hcaches⟩ := serve_caches husable h t (hadmitted t rfl) hreturned
      exact ⟨_, .serve hserves, .up hcaches⟩
    | close =>
      obtain rfl := Option.some.inj hstage
      exact ⟨_, .close _, .down (close_rests husable h)⟩
  | down h =>
    cases call with
    | start keys clock =>
      obtain ⟨hlists, hstarts⟩ := start_caches husable h keys clock
      have hkeys := hlists g' hstage
      obtain ⟨s, hs, hcaches⟩ := hstarts hkeys
      obtain rfl := Option.some.inj (hs.symm.trans hstage)
      exact ⟨_, .start clock hkeys, .up hcaches⟩
    | serve t => cases hstage
    | close => cases hstage

theorem rests_empty (u : Setup) : Rests u (Disk.empty Key128) ∅ := by
  refine ⟨⟨∅, crashSafe_initial none, ?_, fun key _ => content_none rfl⟩, ?_, ?_⟩
  · simp
  · intro id _ hpresent
    simp [Disk.empty] at hpresent
  · intro key e he
    simp at he

theorem Caches.answers {s : Server Clocked} {p : Memory} (h : Caches u s p) {t : Timed}
    (hcalm : t.request.Calm u.backend u.hash s.world) :
    ∃ reply s', next u (.up s) (.serve t) = some (some reply, .up s') := by
  have hreturned : (s.serve u.backend u.hash u.lfu t.request).1.returned = true := by
    by_cases hr : t.request = .compact
    · rw [hr] at hcalm ⊢
      exact h.backs.simulates.returned u.lfu hcalm
    · exact Server.returned_of_ne hr
  refine ⟨(s.serve u.backend u.hash u.lfu t.request).1,
    (s.serve u.backend u.hash u.lfu t.request).2, ?_⟩
  simp [next, reply, Timely.call, callStage, Server.after, hreturned]

/-- The second of two keys takes the place of the first, which is then missed, and a compaction
finds nothing to do. -/
def crowdedCalls : List Timely :=
  [.start [] fun n => n, .serve ⟨.put (keyOf 1) [1] [] {}, 0, 0⟩,
    .serve ⟨.put (keyOf 2) [2] [7] {}, 0, 0⟩, .serve ⟨.get (keyOf 1) {}, 0, 0⟩,
    .serve ⟨.compact, 0, 0⟩, .serve ⟨.get (keyOf 2) {}, 0, 0⟩, .close]

def crowdedReplies : List (Option Reply) :=
  [none, some (.wrote ⟨.ok, ""⟩), some (.wrote ⟨.ok, ""⟩),
    some (.found { code := .notFound, message := "miss" }), some (.compacted true),
    some (.found { code := .ok, value := [2], metadata := [7] }), none]

end Stages

end ParaKV.Storage.Evicting
