/- GID: ParaKV/Concurrent/Backend
   source: parakv/core/kvcache_storage/index_kvcache_storage_backend.cc
   digest: Interleavings of backend calls, and the keys that the eviction cache loses. -/

import ParaKV.Lib.Interleaving
import ParaKV.Storage.Tracking

/-!
`Put` and `Delete` change the index first and the eviction cache afterwards, each under a lock of
its own. An operation of the cache runs its eviction callback, hence `Index::Delete`, under the
lock of the cache.
-/

set_option autoImplicit false

namespace ParaKV.Concurrent.Backend

open Lib.StepRun Lib.Interleaving Index Index.Key Index.Ownership Core.State Storage.Backend
open Storage.Backend.Indexed Storage.Simulation Storage.Restart Storage.Rebuild Storage.Tracking

/-! The calls, one operation of the index or of the cache at a time. -/

inductive Call
  | put (key value metadata : Bytes) (opts : WriteOptions)
  | get (key : Bytes) (opts : ReadOptions)
  | delete (key : Bytes)

def Call.request : Call → Request
  | .put key value metadata opts => .put key value metadata opts
  | .get key opts => .get key opts
  | .delete key => .delete key

/-- The operation a call is about to run. -/
inductive Pc
  | begin
  -- `Put` after its probe, and before `lfu->insert`
  | write (k : Key128)
  | track (k : Key128)
  -- `Get` before `lfu->find`, `Delete` before `lfu->erase`
  | touch (k : Key128) (result : ReadResult)
  | untrack (k : Key128)
  | done (reply : Reply)
  deriving DecidableEq

structure Shared where
  world : World Key128
  cache : Clocked

def callStep (u : Setup) (s : Shared) : Call → Pc → Option (Pc × Shared)
  | .put key _ _ opts, .begin =>
    match Key128.fromString key with
    | none => some (.done (.wrote ⟨.invalidArgument, invalidKey⟩), s)
    | some k =>
      let r := run (probeExisting u.backend u.index k opts) s.world
      match r.val with
      | some refusal => some (.done (.wrote refusal), ⟨r.state, s.cache⟩)
      | none => some (.write k, ⟨r.state, s.cache⟩)
  | .put _ value metadata _, .write k =>
    match encodePayload u.backend value metadata with
    | .error (code, err) => some (.done (.wrote ⟨code, err⟩), s)
    | .ok payload =>
      let r := run (Operations.put u.index k payload) s.world
      if r.val ≠ .ok then
        some (.done (.wrote ⟨toBackendCode r.val, "index put failed"⟩), ⟨r.state, s.cache⟩)
      else some (.track k, ⟨r.state, s.cache⟩)
  | .put _ _ _ _, .track k =>
    let inserted := u.lfu.insert k s.cache
    some (.done (.wrote ⟨.ok, ""⟩),
      ⟨(run (evict u.index inserted.2) s.world).state, inserted.1⟩)
  | .get key opts, .begin =>
    match Key128.fromString key with
    | none => some (.done (.found { code := .invalidArgument, message := invalidKey }), s)
    | some k =>
      let r := run (Operations.get u.index k u.backend.slotValueSize.toNat) s.world
      if r.val.1 ≠ .ok then
        some (.done (.found
          { code := toBackendCode r.val.1
            message := if r.val.1 = .notFound then "miss" else "index get failed" }),
          ⟨r.state, s.cache⟩)
      else
        match decodePayload r.val.2 with
        | .error (code, err) =>
          some (.done (.found { code := code, message := err }), ⟨r.state, s.cache⟩)
        | .ok (value, metadata) =>
          some (.touch k
            { code := .ok
              value := if opts.includeValue then value else []
              metadata := metadata }, ⟨r.state, s.cache⟩)
  | .get _ _, .touch k result => some (.done (.found result), ⟨s.world, u.lfu.find k s.cache⟩)
  | .delete key, .begin =>
    match Key128.fromString key with
    | none => some (.done (.wrote ⟨.invalidArgument, invalidKey⟩), s)
    | some k =>
      let r := run (Operations.delete u.index k) s.world
      if r.val ≠ .ok then
        some (.done (.wrote ⟨toBackendCode r.val,
          if r.val = .notFound then "key not found" else "index delete failed"⟩),
          ⟨r.state, s.cache⟩)
      else some (.untrack k, ⟨r.state, s.cache⟩)
  | .delete _, .untrack k =>
    some (.done (.wrote ⟨.ok, ""⟩), ⟨s.world, u.lfu.erase k s.cache⟩)
  | _, _ => none

abbrev State (n : ℕ) : Type := Config (Fin n) Shared Pc

def next {n : ℕ} (u : Setup) (calls : Fin n → Call) (t : Fin n) (s : Shared) (pc : Pc) :
    Option (Pc × Shared) :=
  callStep u s (calls t) pc

def step {n : ℕ} (u : Setup) (calls : Fin n → Call) : State n → Fin n → Option (State n) :=
  turn (next u calls)

variable {n : ℕ} {u : Setup} {calls : Fin n → Call} {s s' : Shared} {g g' : State n}

/-! A call that runs alone is the call of the sequential backend. -/

def Shared.server (s : Shared) : Server Clocked := ⟨s.world, some ⟨some s.cache⟩⟩

/-- Alone, the call has the reply and the effect of the sequential backend. -/
def Sequential (u : Setup) (call : Call) (s : Shared) : Prop :=
  ∃ reply s', Alone (fun s pc => callStep u s call pc) Pc.done s .begin reply s' ∧
    s.server.serve u.backend u.hash u.lfu call.request = (reply, s'.server)

theorem sequential_put (u : Setup) (s : Shared) (key value metadata : Bytes)
    (opts : WriteOptions) : Sequential u (.put key value metadata opts) s := by
  cases hkey : Key128.fromString key with
  | none =>
    refine ⟨_, s, .last (by simp only [callStep, hkey]; rfl), ?_⟩
    simp [Call.request, Shared.server, Server.serve, Indexed.put, hkey]
  | some k =>
    have hstate := probeExisting_state (b := u.backend) (o := u.index) k opts s.world
    cases hprobe : (run (probeExisting u.backend u.index k opts) s.world).val with
    | some refusal =>
      refine ⟨_, s, .last (by simp only [callStep, hkey, hprobe, hstate]; rfl), ?_⟩
      simp [Call.request, Shared.server, Server.serve, u.indexOptions_eq, Indexed.put, hkey,
        hprobe, hstate]
    | none =>
      have hprobed : callStep u s (.put key value metadata opts) .begin = some (.write k, s) := by
        simp only [callStep, hkey, hprobe, hstate]
      cases hpayload : encodePayload u.backend value metadata with
      | error e =>
        obtain ⟨code, err⟩ := e
        refine ⟨_, s, .next hprobed (.last (by simp only [callStep, hpayload]; rfl)), ?_⟩
        simp [Call.request, Shared.server, Server.serve, u.indexOptions_eq, Indexed.put, hkey,
          hprobe, hstate, hpayload]
      | ok payload =>
        by_cases hval : (run (Operations.put u.index k payload) s.world).val = .ok
        · have hwritten : callStep u s (.put key value metadata opts) (.write k) = some (.track k,
              ⟨(run (Operations.put u.index k payload) s.world).state, s.cache⟩) := by
            simp [callStep, hpayload, hval]
          refine ⟨_, _, .next hprobed (.next hwritten (.last rfl)), ?_⟩
          simp [Call.request, Shared.server, Server.serve, u.indexOptions_eq, Indexed.put, hkey,
            hprobe, hstate, hpayload, hval, lfuInsert]
        · refine ⟨_, _, .next hprobed (.last
            (by simp only [callStep, hpayload, ne_eq, hval, not_false_eq_true, if_true]; rfl)), ?_⟩
          simp [Call.request, Shared.server, Server.serve, u.indexOptions_eq, Indexed.put, hkey,
            hprobe, hstate, hpayload, hval]

theorem sequential_get (u : Setup) (s : Shared) (key : Bytes) (opts : ReadOptions) :
    Sequential u (.get key opts) s := by
  cases hkey : Key128.fromString key with
  | none =>
    refine ⟨_, s, .last (by simp only [callStep, hkey]; rfl), ?_⟩
    simp [Call.request, Shared.server, Server.serve, Indexed.get, hkey]
  | some k =>
    have hstate := run_get_state (o := u.index) (w := s.world) k u.backend.slotValueSize.toNat
    by_cases hval :
        (run (Operations.get u.index k u.backend.slotValueSize.toNat) s.world).val.1 = .ok
    · cases hdecode : decodePayload
          (run (Operations.get u.index k u.backend.slotValueSize.toNat) s.world).val.2 with
      | error e =>
        obtain ⟨code, err⟩ := e
        refine ⟨_, s, .last (by
          simp only [callStep, hkey, hval, hdecode, hstate, ne_eq, not_true_eq_false, if_false]
          rfl), ?_⟩
        simp [Call.request, Shared.server, Server.serve, u.indexOptions_eq, Indexed.get, hkey,
          hval, hdecode, hstate]
      | ok parts =>
        obtain ⟨value, metadata⟩ := parts
        have hread : callStep u s (.get key opts) .begin = some (.touch k
            { code := .ok
              value := if opts.includeValue then value else []
              metadata := metadata }, s) := by
          simp [callStep, hkey, hval, hdecode, hstate]
        refine ⟨_, _, .next hread (.last rfl), ?_⟩
        simp [Call.request, Shared.server, Server.serve, u.indexOptions_eq, Indexed.get, hkey,
          hval, hdecode, hstate, lfuFind]
    · refine ⟨_, s, .last (by
        simp only [callStep, hkey, hstate, ne_eq, hval, not_false_eq_true, if_true]
        rfl), ?_⟩
      simp [Call.request, Shared.server, Server.serve, u.indexOptions_eq, Indexed.get, hkey, hval,
        hstate]

theorem sequential_delete (u : Setup) (s : Shared) (key : Bytes) :
    Sequential u (.delete key) s := by
  cases hkey : Key128.fromString key with
  | none =>
    refine ⟨_, s, .last (by simp only [callStep, hkey]; rfl), ?_⟩
    simp [Call.request, Shared.server, Server.serve, Indexed.delete, hkey]
  | some k =>
    by_cases hval : (run (Operations.delete u.index k) s.world).val = .ok
    · have hremoved : callStep u s (.delete key) .begin = some (.untrack k,
          ⟨(run (Operations.delete u.index k) s.world).state, s.cache⟩) := by
        simp [callStep, hkey, hval]
      refine ⟨_, _, .next hremoved (.last rfl), ?_⟩
      simp [Call.request, Shared.server, Server.serve, u.indexOptions_eq, Indexed.delete, hkey,
        hval, lfuErase]
    · refine ⟨_, _, .last (by
        simp only [callStep, hkey, ne_eq, hval, not_false_eq_true, if_true]
        rfl), ?_⟩
      simp [Call.request, Shared.server, Server.serve, u.indexOptions_eq, Indexed.delete, hkey,
        hval]

/-- A call that no other call interrupts has the reply and the effect of the sequential backend. -/
theorem perform_serve {t : Fin n} (hbegin : g.pcs t = .begin) :
    ∃ m reply s', perform (step u calls) g (List.replicate m t) =
        some ⟨s', Function.update g.pcs t (.done reply)⟩ ∧
      g.shared.server.serve u.backend u.hash u.lfu (calls t).request = (reply, s'.server) := by
  have hsequential : Sequential u (calls t) g.shared := by
    cases calls t with
    | put key value metadata opts => exact sequential_put u _ key value metadata opts
    | get key opts => exact sequential_get u _ key opts
    | delete key => exact sequential_delete u _ key
  obtain ⟨reply, s', halone, hserve⟩ := hsequential
  have hnext : Alone (next u calls t) Pc.done g.shared .begin reply s' := halone
  obtain ⟨m, hm⟩ := hnext.perform rfl hbegin
  exact ⟨m, reply, s', hm, hserve⟩

/-! What one operation does to the keys of the index and of the cache. -/

def Pc.tracks : Pc → Option Key128
  | .track k => some k
  | _ => none

def Pc.untracks : Pc → Option Key128
  | .untrack k => some k
  | _ => none

/-- The change from the keys of the index and of the cache to `keys'` and `cached'`. -/
inductive Effect (keys cached : Finset Key128) :
    Pc → Pc → Finset Key128 → Finset Key128 → Prop
  | quiet {pc pc' : Pc} (h : pc.tracks = none) (h' : pc'.tracks = none) :
      Effect keys cached pc pc' keys cached
  | store (k : Key128) : Effect keys cached (.write k) (.track k) (insert k keys) cached
  | track (k : Key128) (evicted : Finset Key128) (reply : Reply) (h : k ∉ evicted) :
      Effect keys cached (.track k) (.done reply) (keys \ evicted) (insert k cached \ evicted)
  | remove (k : Key128) : Effect keys cached .begin (.untrack k) (keys.erase k) cached
  | untrack (k : Key128) (reply : Reply) :
      Effect keys cached (.untrack k) (.done reply) keys (cached.erase k)

structure Sound (u : Setup) (s : Shared) : Prop where
  running : Running u.index s.world
  bounded : s.cache.Bounded u.capacity

/-- The shared state stays sound, and its keys change as described. -/
def Takes (u : Setup) (s : Shared) (pc pc' : Pc) (s' : Shared) : Prop :=
  Sound u s' ∧
    Effect s.world.map.keys s.cache.keys pc pc' s'.world.map.keys s'.cache.keys

theorem Sound.quiet (h : Sound u s) {pc pc' : Pc} (hpc : pc.tracks = none)
    (hpc' : pc'.tracks = none) : Takes u s pc pc' s :=
  ⟨h, .quiet hpc hpc'⟩

theorem putStep_takes (hadm : u.index.Admissible Key128) (h : Sound u s)
    {key value metadata : Bytes} {opts : WriteOptions} {pc pc' : Pc}
    (hstep : callStep u s (.put key value metadata opts) pc = some (pc', s')) :
    Takes u s pc pc' s' := by
  cases pc with
  | begin =>
    simp only [callStep] at hstep
    cases hkey : Key128.fromString key with
    | none =>
      simp only [hkey] at hstep
      cases hstep
      exact h.quiet rfl rfl
    | some k =>
      have hstate := probeExisting_state (b := u.backend) (o := u.index) k opts s.world
      simp only [hkey, hstate] at hstep
      split at hstep <;> cases hstep <;> exact h.quiet rfl rfl
  | write k =>
    simp only [callStep] at hstep
    split at hstep
    · cases hstep
      exact h.quiet rfl rfl
    · rename_i payload _
      obtain ⟨hrunning, hkeys⟩ := put_keys hadm h.running k payload
      by_cases hval : (run (Operations.put u.index k payload) s.world).val = .ok
      · rw [if_neg (not_not.mpr hval)] at hstep
        cases hstep
        refine ⟨⟨hrunning, h.bounded⟩, ?_⟩
        rw [hkeys, if_pos hval]
        exact .store k
      · rw [if_pos hval] at hstep
        cases hstep
        refine ⟨⟨hrunning, h.bounded⟩, ?_⟩
        rw [hkeys, if_neg hval]
        exact .quiet rfl rfl
  | track k =>
    cases hstep
    obtain ⟨hrunning, hkeys⟩ := evict_keys hadm (u.lfu.insert k s.cache).2 h.running
    obtain ⟨hbounded, -, hnot, -, hcache⟩ := insert_evicts h.bounded k
    refine ⟨⟨hrunning, hbounded⟩, ?_⟩
    rw [hkeys, hcache]
    exact .track k _ _ (by simpa using hnot)
  | touch k result => cases hstep
  | untrack k => cases hstep
  | done reply => cases hstep

theorem getStep_takes (h : Sound u s) {key : Bytes} {opts : ReadOptions} {pc pc' : Pc}
    (hstep : callStep u s (.get key opts) pc = some (pc', s')) : Takes u s pc pc' s' := by
  cases pc with
  | begin =>
    simp only [callStep, run_get_state] at hstep
    split at hstep
    · cases hstep
      exact h.quiet rfl rfl
    · split at hstep
      · cases hstep
        exact h.quiet rfl rfl
      · split at hstep <;> cases hstep <;> exact h.quiet rfl rfl
  | touch k result =>
    cases hstep
    obtain ⟨hbounded, hkeys⟩ := find_spec (c := lfuConfig u.cache) h.bounded k
    refine ⟨⟨h.running, hbounded⟩, ?_⟩
    have hcached : (u.lfu.find k s.cache).keys = s.cache.keys := hkeys
    rw [hcached]
    exact .quiet rfl rfl
  | write k => cases hstep
  | track k => cases hstep
  | untrack k => cases hstep
  | done reply => cases hstep

theorem deleteStep_takes (hadm : u.index.Admissible Key128) (h : Sound u s) {key : Bytes}
    {pc pc' : Pc} (hstep : callStep u s (.delete key) pc = some (pc', s')) :
    Takes u s pc pc' s' := by
  cases pc with
  | begin =>
    simp only [callStep] at hstep
    split at hstep
    · cases hstep
      exact h.quiet rfl rfl
    · rename_i k _
      obtain ⟨hrunning, hmem, hkeys⟩ := delete_keys hadm h.running k
      by_cases hval : (run (Operations.delete u.index k) s.world).val = .ok
      · rw [if_neg (not_not.mpr hval)] at hstep
        cases hstep
        refine ⟨⟨hrunning, h.bounded⟩, ?_⟩
        rw [hkeys]
        exact .remove k
      · rw [if_pos hval] at hstep
        cases hstep
        refine ⟨⟨hrunning, h.bounded⟩, ?_⟩
        rw [hkeys, Finset.erase_eq_of_notMem (hmem.not.mp hval)]
        exact .quiet rfl rfl
  | untrack k =>
    cases hstep
    obtain ⟨hbounded, hkeys⟩ := erase_spec (c := lfuConfig u.cache) h.bounded k
    refine ⟨⟨h.running, hbounded⟩, ?_⟩
    have hcached : (u.lfu.erase k s.cache).keys = s.cache.keys.erase k := hkeys
    rw [hcached]
    exact .untrack k _
  | write k => cases hstep
  | track k => cases hstep
  | touch k result => cases hstep
  | done reply => cases hstep

/-! The keys of the index are in the cache, or on their way to it. -/

/-- A `Delete` that is about to take its key from the cache: the key is not in the index, or a
`Put` of it has yet to reach the cache. -/
def Unraced (g : State n) (t : Fin n) : Prop :=
  ∀ k ∈ (g.pcs t).untracks, k ∉ g.shared.world.map.keys ∨ ∃ t', (g.pcs t').tracks = some k

instance (g : State n) (t : Fin n) : Decidable (Unraced g t) :=
  inferInstanceAs (Decidable (∀ k ∈ (g.pcs t).untracks, _))

structure Covered (u : Setup) (g : State n) : Prop where
  sound : Sound u g.shared
  keys : ∀ k ∈ g.shared.world.map.keys,
    k ∈ g.shared.cache.keys ∨ ∃ t, (g.pcs t).tracks = some k

theorem tracks_update {pcs : Fin n → Pc} {t t' : Fin n} {pc : Pc} {k : Key128}
    (hpc : (pcs t).tracks = none) (h : (pcs t').tracks = some k) :
    (Function.update pcs t pc t').tracks = some k := by
  have hne : t' ≠ t := by
    rintro rfl
    rw [hpc] at h
    cases h
  rwa [Function.update_of_ne hne]

theorem effect_covered {keys cached keys' cached' : Finset Key128} {pcs : Fin n → Pc} {t : Fin n}
    {pc : Pc} (heffect : Effect keys cached (pcs t) pc keys' cached')
    (h : ∀ k ∈ keys, k ∈ cached ∨ ∃ t, (pcs t).tracks = some k)
    (hguard : ∀ k ∈ (pcs t).untracks, k ∉ keys ∨ ∃ t', (pcs t').tracks = some k) :
    ∀ k ∈ keys', k ∈ cached' ∨ ∃ t', (Function.update pcs t pc t').tracks = some k := by
  generalize hat : pcs t = old at heffect hguard
  intro j hj
  cases heffect with
  | quiet hpc hpc' =>
    rcases h j hj with hcached | ⟨t', ht'⟩
    · exact Or.inl hcached
    · exact Or.inr ⟨t', tracks_update (hat ▸ hpc) ht'⟩
  | store k =>
    rcases Finset.mem_insert.mp hj with rfl | hj
    · exact Or.inr ⟨t, by rw [Function.update_self]; rfl⟩
    · rcases h j hj with hcached | ⟨t', ht'⟩
      · exact Or.inl hcached
      · exact Or.inr ⟨t', tracks_update (by rw [hat]; rfl) ht'⟩
  | track k evicted reply hk =>
    obtain ⟨hj, hkept⟩ := Finset.mem_sdiff.mp hj
    by_cases hjk : j = k
    · subst hjk
      exact Or.inl (Finset.mem_sdiff.mpr ⟨Finset.mem_insert_self _ _, hk⟩)
    · rcases h j hj with hcached | ⟨t', ht'⟩
      · exact Or.inl (Finset.mem_sdiff.mpr ⟨Finset.mem_insert_of_mem hcached, hkept⟩)
      · have hne : t' ≠ t := by
          rintro rfl
          rw [hat] at ht'
          exact hjk (Option.some.inj ht').symm
        exact Or.inr ⟨t', by rwa [Function.update_of_ne hne]⟩
  | remove k =>
    rcases h j (Finset.mem_of_mem_erase hj) with hcached | ⟨t', ht'⟩
    · exact Or.inl hcached
    · exact Or.inr ⟨t', tracks_update (by rw [hat]; rfl) ht'⟩
  | untrack k reply =>
    have hcovered : j ∈ cached.erase k ∨ ∃ t', (pcs t').tracks = some j := by
      by_cases hjk : j = k
      · subst hjk
        exact (hguard j rfl).imp (absurd hj) id
      · exact (h j hj).imp_left fun hcached => Finset.mem_erase.mpr ⟨hjk, hcached⟩
    rcases hcovered with hcached | ⟨t', ht'⟩
    · exact Or.inl hcached
    · exact Or.inr ⟨t', tracks_update (by rw [hat]; rfl) ht'⟩

theorem covered_step (hadm : u.index.Admissible Key128) {t : Fin n} (h : Covered u g)
    (hguard : Unraced g t) (hstep : step u calls g t = some g') : Covered u g' := by
  obtain ⟨pc, hcall, hpcs⟩ := turn_eq_some hstep
  rw [next] at hcall
  have htakes : Takes u g.shared (g.pcs t) pc g'.shared := by
    cases hc : calls t with
    | put key value metadata opts => exact putStep_takes hadm h.sound (hc ▸ hcall)
    | get key opts => exact getStep_takes h.sound (hc ▸ hcall)
    | delete key => exact deleteStep_takes hadm h.sound (hc ▸ hcall)
  refine ⟨htakes.1, ?_⟩
  rw [hpcs]
  exact effect_covered htakes.2 h.keys hguard

def Pc.outside : Pc → Bool
  | .begin => true
  | .done _ => true
  | _ => false

def Idle (g : State n) : Prop := ∀ t, (g.pcs t).outside = true

instance (g : State n) : Decidable (Idle g) :=
  inferInstanceAs (Decidable (∀ t, (g.pcs t).outside = true))

theorem Pc.tracks_of_outside {pc : Pc} (h : pc.outside = true) : pc.tracks = none := by
  cases pc <;> first | rfl | cases h

theorem Covered.idle (h : Covered u g) (hidle : Idle g) :
    g.shared.world.map.keys ⊆ g.shared.cache.keys := by
  intro k hk
  rcases h.keys k hk with hcached | ⟨t, ht⟩
  · exact hcached
  · rw [Pc.tracks_of_outside (hidle t)] at ht
    cases ht

/-- If a `Delete` takes its key from the cache only while the key is not in the index, or a `Put`
of it has yet to reach the cache, then between the calls the cache holds the keys of the index. -/
theorem index_keys_tracked (u : Setup) (hadm : u.index.Admissible Key128) (calls : Fin n → Call)
    {s : Shared} (hsound : Sound u s) (hkeys : s.world.map.keys ⊆ s.cache.keys)
    {ts : List (Fin n)} (hrun : GuardedRun (step u calls) Unraced (.initial s .begin) ts g)
    (hidle : Idle g) :
    g.shared.world.map.keys ⊆ g.shared.cache.keys ∧
      g.shared.world.map.keys.card ≤ u.capacity := by
  have hcovered : Covered u g := by
    refine hrun.invariant (I := fun _ g => Covered u g) ⟨hsound, fun k hk => ?_⟩ ?_
    · exact Or.inl (hkeys hk)
    · exact fun _ _ _ _ h hguard hstep => covered_step hadm h hguard hstep
  have hsub := hcovered.idle hidle
  exact ⟨hsub, (Finset.card_le_card hsub).trans hcovered.sound.bounded.card_le⟩

/-! The calls of a backend that has just been started. -/

def Shared.ofStage : Stage → Option Shared
  | .up ⟨w, some ⟨some l⟩⟩ => some ⟨w, l⟩
  | _ => none

def started (u : Setup) : Option Shared :=
  (startStage u [] (fun n => n) (Disk.empty Key128)).bind Shared.ofStage

theorem started_synced (hadm : u.index.Admissible Key128) (h : started u = some s) :
    Sound u s ∧ s.cache.keys = s.world.map.keys := by
  obtain ⟨stage, hstage, hs⟩ := Option.bind_eq_some_iff.mp h
  have hcall : callStage u (.down (Disk.empty Key128)) (.start [] fun n => n) = some stage := hstage
  have hsettled : Settled u stage :=
    settled_call hadm (.down (recoverable_initial u none)) hcall
  cases hsettled with
  | down hd => cases hs
  | up hroot hsynced =>
    obtain ⟨hctx, hrunning, hbounded, hkeys⟩ := hsynced
    rename_i server l
    obtain ⟨w, ctx⟩ := server
    obtain rfl : ctx = some ⟨some l⟩ := hctx
    cases hs
    exact ⟨⟨hrunning, hbounded⟩, hkeys⟩

/-- Three calls about one key, and a `Put` of another. -/
def racing : Fin 4 → Call
  | 0 => .put (keyOf 1) [1] [] {}
  | 1 => .delete (keyOf 1)
  | 2 => .put (keyOf 1) [2] [] {}
  | 3 => .put (keyOf 2) [3] [] {}

def sizes (g : State n) : Bool × ℕ × ℕ :=
  (decide (Idle g), g.shared.world.map.keys.card, g.shared.cache.keys.card)

/-- The `Delete` takes the key of a `Put` from the cache that went through between the two
operations of the `Delete`. The next `Put` evicts nothing, and the index outgrows the cache. -/
theorem key_escapes :
    oneKey.capacity = 1 ∧ (started oneKey).bind (fun s =>
      (perform (step oneKey racing) (.initial s .begin) [0, 0, 0, 1, 2, 2, 2, 1, 3, 3, 3]).map
        sizes) = some (true, 2, 1) := by
  decide +kernel

/-- Between the operations of the `Delete`, the `Put` has only written to the index. -/
theorem index_keys_tracked_interleaved :
    ∃ s g, started oneKey = some s ∧
      GuardedRun (step oneKey racing) Unraced (.initial s .begin)
        [0, 0, 0, 1, 2, 2, 1, 2, 3, 3, 3] g ∧
      g.shared.world.map.keys ⊆ g.shared.cache.keys ∧
      g.shared.world.map.keys.card ≤ oneKey.capacity := by
  have hadm : oneKey.index.Admissible Key128 := ⟨rfl, by decide, by decide⟩
  have hperform : (started oneKey).bind (fun s => (performGuarded (step oneKey racing) Unraced
      (.initial s .begin) [0, 0, 0, 1, 2, 2, 1, 2, 3, 3, 3]).map sizes) = some (true, 1, 1) := by
    decide +kernel
  obtain ⟨s, hs, hperform⟩ := Option.bind_eq_some_iff.mp hperform
  obtain ⟨g, hrun, hsizes⟩ := exists_guardedRun hperform
  have hidle : Idle g := of_decide_eq_true (congrArg Prod.fst hsizes)
  obtain ⟨hsound, hkeys⟩ := started_synced hadm hs
  exact ⟨s, g, hs, hrun, index_keys_tracked oneKey hadm racing hsound hkeys.ge hrun hidle⟩

end ParaKV.Concurrent.Backend
