/- GID: ParaKV/Storage/Tracking
   source: parakv/core/kvcache_storage/index_kvcache_storage_backend.cc
   digest: The keys of the index and of the eviction cache over every sequential run. -/

import ParaKV.Storage.Rebuild
import ParaKV.Storage.Restart

set_option autoImplicit false

namespace ParaKV.Storage.Tracking

open Lib.TracedProgram Lib.HashOrder Lib.StepRun Lib.OwnedSlots Index Index.Key Index.Wal
open Index.Operations Index.Durability Index.Ownership Index.CrashSafety Index.Recovery
open Index.Compaction Index.Runs Core.State Storage.Backend Storage.Backend.Indexed
open Storage.Simulation Storage.Restart Storage.Rebuild

/-! What the operations do to the keys of the index. -/

variable {o : ParaKV.Core.State.Options} {w : World Key128} {key : Key128}

/-- What is asked of the values of a store: nothing. -/
abbrev AnyValue : Key128 → Bytes → Prop := fun _ _ => True

theorem mem_keys_iff_content {d : Disk Key128} {m : Map Key128}
    (h : Owns (entries m) (view o d)) :
    key ∈ m.keys ↔ content (entries m) (view o d) key ≠ none := by
  rw [Finmap.mem_keys]
  cases hk : m.lookup key with
  | none =>
    have hnone : content (entries m) (view o d) key = none := content_none hk
    exact iff_of_false (Finmap.lookup_eq_none.mp hk) (not_not.mpr hnone)
  | some a =>
    obtain ⟨u, -, hsome⟩ := h.content_isSome hk
    refine iff_of_true (Finmap.mem_of_lookup_eq_some hk) ?_
    rw [hsome]
    simp

structure Running (o : ParaKV.Core.State.Options) (w : World Key128) : Prop where
  live : Live o AnyValue w
  writer : w.wal.isSome = true

theorem Running.mem_keys_iff (h : Running o w) : key ∈ w.map.keys ↔ value o w key ≠ none :=
  mem_keys_iff_content h.live.owns

theorem appendWal_writer (h : WalOpen w) (rec : WalRecord Key128) :
    (run (appendWal o rec) w).state.wal.isSome = w.wal.isSome := by
  cases hwal : w.wal with
  | none => rw [(run_appendWal_none (o := o) hwal rec).2.1, hwal]
  | some writer =>
    rw [(run_appendWal (o := o) hwal (h writer hwal) rec).2.1]
    split_ifs <;> rfl

theorem put_writer (hadm : o.Admissible Key128) (h : Live o AnyValue w) (v : Bytes) :
    (run (Operations.put o key v) w).state.wal.isSome = w.wal.isSome := by
  rcases put_cases hadm h key v with
    ⟨-, ⟨mgr, -, hstate⟩, -⟩ | ⟨mgr, s, hmgr, hs, hroom, -, hstate, -⟩
  · rw [hstate]
  · obtain ⟨-, hlog, -⟩ := run_appendWal_ok (o := o) (w := installed o w mgr s key v) h.wal
      (putRecord key (newAddr w s) (w.map.lookup key))
    have hwal := (put_released hadm h hmgr hs hroom hlog).1.wal
    rw [hstate]
    refine (congrArg Option.isSome hwal).trans ?_
    exact appendWal_writer (w := installed o w mgr s key v) h.wal _

theorem delete_writer (hadm : o.Admissible Key128) (h : Live o AnyValue w) :
    (run (Operations.delete o key) w).state.wal.isSome = w.wal.isSome := by
  rcases delete_cases (o := o) h.wal key with ⟨-, -, hstate, -⟩ | ⟨a, hk, -, hstate, -⟩
  · rw [hstate]
  · obtain ⟨u, hu⟩ := h.owns key a hk
    obtain ⟨-, hlog, hwal⟩ := run_appendWal_ok (o := o)
      (w := { w with map := w.map.erase key }) h.wal (deleteRecord key a)
    have hlogged := (live_erased h key).logOnly hlog hwal
    have hreleased : Released o (some a) _ _ := releaseOld_spec hadm hlogged.mgr hlogged.segs
      fun b hb => Option.some.inj hb ▸ isSlot_of_view hu
    rw [hstate]
    refine (congrArg Option.isSome hreleased.wal).trans ?_
    exact appendWal_writer (w := { w with map := w.map.erase key }) h.wal _

theorem put_keys (hadm : o.Admissible Key128) (h : Running o w) (key : Key128) (v : Bytes) :
    Running o (run (Operations.put o key v) w).state ∧
      (run (Operations.put o key v) w).state.map.keys =
        if (run (Operations.put o key v) w).val = .ok then insert key w.map.keys
        else w.map.keys := by
  obtain ⟨hlive, hvalue⟩ := put_spec hadm h.live (show AnyValue key v from trivial)
  have hrunning : Running o (run (Operations.put o key v) w).state :=
    ⟨hlive, (put_writer hadm h.live v).trans h.writer⟩
  refine ⟨hrunning, Finset.ext fun k => ?_⟩
  rw [hrunning.mem_keys_iff, hvalue]
  split_ifs with hok
  · by_cases hk : k = key
    · simp [hk]
    · rw [Function.update_of_ne hk, Finset.mem_insert, h.mem_keys_iff]
      simp [hk]
  · exact h.mem_keys_iff.symm

theorem delete_keys (hadm : o.Admissible Key128) (h : Running o w) (key : Key128) :
    Running o (run (Operations.delete o key) w).state ∧
      ((run (Operations.delete o key) w).val = .ok ↔ key ∈ w.map.keys) ∧
      (run (Operations.delete o key) w).state.map.keys = w.map.keys.erase key := by
  obtain ⟨hlive, hval, hvalue⟩ := delete_spec hadm h.live key
  have hrunning : Running o (run (Operations.delete o key) w).state :=
    ⟨hlive, (delete_writer hadm h.live).trans h.writer⟩
  refine ⟨hrunning, ?_, Finset.ext fun k => ?_⟩
  · rw [hval, h.mem_keys_iff]
    split_ifs with hnone <;> simp [hnone]
  · rw [hrunning.mem_keys_iff, hvalue, Finset.mem_erase, h.mem_keys_iff]
    by_cases hk : k = key
    · simp [hk]
    · simp [hk]

theorem run_evict_cons (o : ParaKV.Core.State.Options) (key : Key128) (keys : List Key128)
    (w : World Key128) : (run (evict o (key :: keys)) w).state =
      (run (evict o keys) (run (Operations.delete o key) w).state).state := by
  simp [evict]

theorem evict_keys (hadm : o.Admissible Key128) (keys : List Key128) :
    ∀ {w : World Key128}, Running o w → Running o (run (evict o keys) w).state ∧
      (run (evict o keys) w).state.map.keys = w.map.keys \ keys.toFinset := by
  induction keys with
  | nil =>
    intro w h
    exact ⟨h, by simp [evict]⟩
  | cons key keys ih =>
    intro w h
    obtain ⟨hrunning, -, hkeys⟩ := delete_keys hadm h key
    obtain ⟨hend, hrest⟩ := ih hrunning
    rw [run_evict_cons]
    refine ⟨hend, ?_⟩
    rw [hrest, hkeys]
    ext k
    simp only [Finset.mem_sdiff, Finset.mem_erase, List.toFinset_cons, Finset.mem_insert]
    tauto

theorem writer_carried : Carried o AnyValue (fun _ => True) (fun _ => True)
    (fun _ w => w.wal.isSome = true) (fun _ _ _ w => w.wal.isSome = true)
    (fun w => w.wal.isSome = true) where
  manager h := h
  start _ h := h
  skip _ _ _ _ h := h
  move hlive hmove _ _ h := by
    refine ⟨guarded_of_forall fun _ _ => trivial, fun _ => ?_⟩
    rw [movedWorld, appendWal_writer]
    · exact h
    · exact hlive.wal
  reset _ _ _ h := ⟨guarded_of_forall fun _ _ => trivial, h⟩
  early h := h
  final h := h

theorem compaction_keys (hadm : o.Admissible Key128) (h : Running o w) :
    Running o (run (runAttachedCompaction o) w).state ∧
      (run (runAttachedCompaction o) w).state.map.keys = w.map.keys := by
  obtain ⟨hlive, hvalue, hwriter⟩ := (runCompaction_carried hadm writer_carried (value o w) w
    ⟨h.live, rfl, h.writer⟩).2 fun _ _ => trivial
  have hrunning : Running o (run (runAttachedCompaction o) w).state := ⟨hlive, hwriter⟩
  refine ⟨hrunning, Finset.ext fun k => ?_⟩
  rw [hrunning.mem_keys_iff, h.mem_keys_iff]
  exact not_congr (by rw [← hvalue])

/-! A backend with its cache, over several sessions. -/

instance (keys : List Key128) (m : Map Key128) : Decidable (Enumerates keys m) :=
  decidable_of_iff (keys.Nodup ∧ keys.toFinset = m.keys) (by
    refine and_congr_right fun _ => Finset.ext_iff.trans (forall_congr' fun k => ?_)
    rw [List.mem_toFinset, Finmap.mem_keys])

/-- The options of a backend: those of the index, those of the cache, and the order of the hash
containers. -/
structure Setup where
  backend : Indexed.Options
  cache : CacheOptions
  hash : HashPolicy ℕ

namespace Setup

variable (u : Setup)

def index : ParaKV.Core.State.Options := indexOptions u.backend u.hash
def lfu : Lfu Clocked := clockedLfu (lfuConfig u.cache)
def capacity : ℕ := lfuCapacity u.cache u.index

theorem indexOptions_eq : indexOptions u.backend u.hash = u.index := rfl

end Setup

inductive Stage
  | up (s : Server Clocked)
  | down (d : Disk Key128)

/-- A call of the backend. The start comes with the order in which `ForEachKey` meets the keys and
with the clock readings of its session. -/
inductive Call
  | start (keys : List Key128) (clock : ℕ → ℤ)
  | serve (r : Request)
  | close

inductive Act
  | complete (call : Call)
  | crash
  | crashIn (call : Call) (n : ℕ)

section Machine

variable (u : Setup)

/-- The files and the memory after `CreateContext`. A cache that evicts deletes from the index. -/
def startStage (keys : List Key128) (clock : ℕ → ℤ) (d : Disk Key128) : Option Stage :=
  let r := run (createContext u.backend u.hash) (World.boot d)
  if r.val ≠ .ok then some (.down r.state.disk)
  else if Enumerates keys r.state.map then
    (createCache u.cache u.index keys clock).map fun c =>
      .up ⟨(run (evict u.index c.2) r.state).state, some ⟨some c.1⟩⟩
  else none

def callStage : Stage → Call → Option Stage
  | .down d, .start keys clock => startStage u keys clock d
  | .up s, .serve r => (s.after u.backend u.hash u.lfu r).map .up
  | .up s, .close => some (.down (run (Indexed.close u.index s.ctx) s.world).state.disk)
  | _, _ => none

/-- The points of a call at which the process can stop. -/
def callTrace : Stage → Call → List (Event Key128)
  | .down d, .start keys clock =>
    let r := run (createContext u.backend u.hash) (World.boot d)
    r.trace ++ if r.val = .ok ∧ Enumerates keys r.state.map then
        (createCache u.cache u.index keys clock).elim [] fun c =>
          (run (evict u.index c.2) r.state).trace
      else []
  | .up s, .serve r => s.trace u.backend u.hash u.lfu r
  | .up s, .close => (run (Indexed.close u.index s.ctx) s.world).trace
  | _, _ => []

def step (g : Stage) : Act → Option Stage
  | .complete call => callStage u g call
  | .crash =>
    match g with
    | .up s => some (.down s.world.disk)
    | .down d => some (.down d)
  | .crashIn call n => (callTrace u g call)[n]?.map fun e => .down e.world.disk

end Machine

/-! One request. -/

variable {u : Setup} {s : Server Clocked} {l : Clocked}

theorem toBackendCode_ne_ok {st : Status} (h : st ≠ .ok) : toBackendCode st ≠ .ok := by
  cases st <;> simp_all [toBackendCode]

theorem probeExisting_refusal {b : Indexed.Options} {opts : WriteOptions} {refusal : WriteResult}
    (h : (run (probeExisting b o key opts) w).val = some refusal) : refusal.code ≠ .ok := by
  unfold probeExisting at h
  split_ifs at h
  · cases h
  · by_cases hok : (run (Operations.get o key b.slotValueSize.toNat) w).val.1 = .ok
    · have hrefusal : refusal = ⟨.alreadyExists, "key already exists"⟩ := by
        simpa [hok] using h.symm
      rw [hrefusal]
      decide
    · by_cases hmiss : (run (Operations.get o key b.slotValueSize.toNat) w).val.1 = .notFound
      · simp [hmiss] at h
      · have hrefusal : refusal = ⟨toBackendCode
            (run (Operations.get o key b.slotValueSize.toNat) w).val.1,
            "failed to probe existing key"⟩ := by
          simpa [hok, hmiss] using h.symm
        rw [hrefusal]
        exact toBackendCode_ne_ok hok

theorem encodePayload_refusal {b : Indexed.Options} {value metadata : Bytes} {code : BackendCode}
    {err : String} (h : encodePayload b value metadata = .error (code, err)) : code ≠ .ok := by
  simp only [encodePayload] at h
  split_ifs at h
  cases h
  decide

/-- A `Put` that is answered with `kOk` goes to the index and then to the cache; any other leaves
the cache alone and does not write to the index successfully. -/
theorem serve_put_cases (hctx : s.ctx = some ⟨some l⟩) (key value metadata : Bytes)
    (opts : WriteOptions) :
    let r := s.serve u.backend u.hash u.lfu (.put key value metadata opts)
    (r.1.code ≠ .ok ∧ r.2.ctx = s.ctx ∧ (r.2.world = s.world ∨ ∃ k payload,
      (run (Operations.put u.index k payload) s.world).val ≠ .ok ∧
      r.2.world = (run (Operations.put u.index k payload) s.world).state)) ∨
    ∃ k payload, Key128.fromString key = some k ∧ r.1.code = .ok ∧
      (run (Operations.put u.index k payload) s.world).val = .ok ∧
      r.2 = ⟨(run (evict u.index (u.lfu.insert k l).2)
        (run (Operations.put u.index k payload) s.world).state).state,
          some ⟨some (u.lfu.insert k l).1⟩⟩ := by
  cases hkey : Key128.fromString key with
  | none =>
    left
    simp [Server.serve, Indexed.put, hkey, Reply.code]
  | some k =>
    have hstate := probeExisting_state (b := u.backend) (o := u.index) k opts s.world
    cases hprobe : (run (probeExisting u.backend u.index k opts) s.world).val with
    | some refusal =>
      left
      have hcode := probeExisting_refusal hprobe
      simp [Server.serve, u.indexOptions_eq, Indexed.put, hkey, hctx, hprobe, hstate, Reply.code,
        hcode]
    | none =>
      cases hpayload : encodePayload u.backend value metadata with
      | error e =>
        obtain ⟨code, err⟩ := e
        left
        have hcode := encodePayload_refusal hpayload
        simp [Server.serve, u.indexOptions_eq, Indexed.put, hkey, hctx, hprobe, hstate, hpayload,
          Reply.code, hcode]
      | ok payload =>
        by_cases hval : (run (Operations.put u.index k payload) s.world).val = .ok
        · right
          refine ⟨k, payload, rfl, ?_, hval, ?_⟩ <;>
            simp [Server.serve, u.indexOptions_eq, Indexed.put, hkey, hctx, hprobe, hstate,
              hpayload, hval, lfuInsert, Reply.code]
        · left
          refine ⟨?_, ?_, Or.inr ⟨k, payload, hval, ?_⟩⟩ <;>
            simp [Server.serve, u.indexOptions_eq, Indexed.put, hkey, hctx, hprobe, hstate,
              hpayload, hval, Reply.code, toBackendCode_ne_ok hval]

theorem serve_get_cases (hctx : s.ctx = some ⟨some l⟩) (key : Bytes) (opts : ReadOptions) :
    let r := s.serve u.backend u.hash u.lfu (.get key opts)
    r.2.world = s.world ∧ (r.2.ctx = s.ctx ∨ ∃ k, r.2.ctx = some ⟨some (u.lfu.find k l)⟩) := by
  cases hkey : Key128.fromString key with
  | none => simp [Server.serve, Indexed.get, hkey]
  | some k =>
    have hstate := run_get_state (o := u.index) (w := s.world) k u.backend.slotValueSize.toNat
    by_cases hval :
        (run (Operations.get u.index k u.backend.slotValueSize.toNat) s.world).val.1 = .ok
    · cases hdecode : decodePayload
          (run (Operations.get u.index k u.backend.slotValueSize.toNat) s.world).val.2 with
      | error e => simp [Server.serve, u.indexOptions_eq, Indexed.get, hkey, hctx, hstate, hval,
        hdecode]
      | ok parts =>
        refine ⟨?_, Or.inr ⟨k, ?_⟩⟩ <;>
          simp [Server.serve, u.indexOptions_eq, Indexed.get, hkey, hctx, hstate, hval, hdecode,
            lfuFind]
    · simp [Server.serve, u.indexOptions_eq, Indexed.get, hkey, hctx, hstate, hval]

theorem serve_delete_cases (hctx : s.ctx = some ⟨some l⟩) (key : Bytes) :
    let r := s.serve u.backend u.hash u.lfu (.delete key)
    (r.2.ctx = s.ctx ∧ (r.2.world = s.world ∨ ∃ k,
      (run (Operations.delete u.index k) s.world).val ≠ .ok ∧
      r.2.world = (run (Operations.delete u.index k) s.world).state)) ∨
    ∃ k, (run (Operations.delete u.index k) s.world).val = .ok ∧
      r.2 = ⟨(run (Operations.delete u.index k) s.world).state,
        some ⟨some (u.lfu.erase k l)⟩⟩ := by
  cases hkey : Key128.fromString key with
  | none => simp [Server.serve, Indexed.delete, hkey]
  | some k =>
    by_cases hval : (run (Operations.delete u.index k) s.world).val = .ok
    · right
      refine ⟨k, hval, ?_⟩
      simp [Server.serve, u.indexOptions_eq, Indexed.delete, hkey, hctx, hval, lfuErase]
    · left
      refine ⟨?_, Or.inr ⟨k, hval, ?_⟩⟩ <;>
        simp [Server.serve, u.indexOptions_eq, Indexed.delete, hkey, hctx, hval]

/-! The invariant of a running backend. -/

theorem Setup.capacity_pos (u : Setup) : 0 < u.capacity := lfuCapacity_pos _ _

structure Synced (u : Setup) (s : Server Clocked) (l : Clocked) : Prop where
  ctx : s.ctx = some ⟨some l⟩
  running : Running u.index s.world
  bounded : l.Bounded u.capacity
  keys : l.keys = s.world.map.keys

theorem Synced.card_le (h : Synced u s l) : s.world.map.keys.card ≤ u.capacity := by
  rw [← h.keys]
  exact h.bounded.card_le

theorem insert_evicts (h : l.Bounded u.capacity) (k : Key128) :
    (u.lfu.insert k l).1.Bounded u.capacity ∧ (u.lfu.insert k l).2.length ≤ 1 ∧
      k ∉ (u.lfu.insert k l).2 ∧
      (k ∈ l.keys ∨ l.keys.card < u.capacity → (u.lfu.insert k l).2 = []) ∧
      (u.lfu.insert k l).1.keys = insert k l.keys \ (u.lfu.insert k l).2.toFinset := by
  obtain ⟨hbounded, ⟨hnone, hkeys⟩ | ⟨v, hv, hk, hfull, hone, hkeys⟩⟩ :=
    insert_spec u.capacity_pos (tick_nonneg u.cache) h k
  · have hnone' : (u.lfu.insert k l).2 = [] := hnone
    refine ⟨hbounded, by simp [hnone'], by simp [hnone'], fun _ => hnone', ?_⟩
    rw [hnone', List.toFinset_nil, Finset.sdiff_empty]
    exact hkeys
  · have hone' : (u.lfu.insert k l).2 = [v] := hone
    have hne : k ≠ v := fun heq => hk (heq ▸ hv)
    refine ⟨hbounded, by simp [hone'], by simpa [hone'] using hne, fun hroom => ?_, ?_⟩
    · rcases hroom with hin | hroom
      · exact absurd hin hk
      · omega
    · rw [hone', List.toFinset_cons, List.toFinset_nil, insert_empty_eq,
        Finset.sdiff_singleton_eq_erase, Finset.erase_insert_of_ne hne]
      exact hkeys

theorem Synced.same {s' : Server Clocked} (h : Synced u s l) (hctx : s'.ctx = s.ctx)
    (hrunning : Running u.index s'.world) (hkeys : s'.world.map.keys = s.world.map.keys) :
    Synced u s' l :=
  ⟨hctx.trans h.ctx, hrunning, h.bounded, h.keys.trans hkeys.symm⟩

theorem put_synced (hadm : u.index.Admissible Key128) (h : Synced u s l)
    (key value metadata : Bytes) (opts : WriteOptions) :
    let r := s.serve u.backend u.hash u.lfu (.put key value metadata opts)
    (∃ l', Synced u r.2 l') ∧ (r.1.code ≠ .ok → r.2.world.map.keys = s.world.map.keys) ∧
      (r.1.code = .ok → ∃ k, Key128.fromString key = some k ∧
        r.2.world.map.keys = insert k s.world.map.keys \ (u.lfu.insert k l).2.toFinset) := by
  intro r
  rcases serve_put_cases (u := u) h.ctx key value metadata opts with
    ⟨hcode, hctx, hworld⟩ | ⟨k, payload, hkey, hcode, hval, hend⟩
  · have hsame : Running u.index r.2.world ∧ r.2.world.map.keys = s.world.map.keys := by
      rcases hworld with hworld | ⟨k, payload, hval, hworld⟩
      · exact ⟨hworld ▸ h.running, by rw [hworld]⟩
      · obtain ⟨hrunning, hkeys⟩ := put_keys hadm h.running k payload
        rw [if_neg hval, ← hworld] at hkeys
        exact ⟨hworld ▸ hrunning, hkeys⟩
    exact ⟨⟨l, h.same hctx hsame.1 hsame.2⟩, fun _ => hsame.2, fun hok => absurd hok hcode⟩
  · obtain ⟨hrunning, hkeys⟩ := put_keys hadm h.running k payload
    rw [if_pos hval] at hkeys
    obtain ⟨hevicted, hrest⟩ := evict_keys hadm (u.lfu.insert k l).2 hrunning
    obtain ⟨hbounded, -, -, -, hcache⟩ := insert_evicts h.bounded k
    rw [hkeys] at hrest
    have hr : r.2 = _ := hend
    rw [hr]
    refine ⟨⟨_, rfl, hevicted, hbounded, ?_⟩, fun hne => absurd hcode hne,
      fun _ => ⟨k, hkey, hrest⟩⟩
    rw [hcache, hrest, h.keys]

theorem get_synced (h : Synced u s l) (key : Bytes) (opts : ReadOptions) :
    ∃ l', Synced u (s.serve u.backend u.hash u.lfu (.get key opts)).2 l' := by
  obtain ⟨hworld, hctx | ⟨k, hctx⟩⟩ := serve_get_cases (u := u) h.ctx key opts
  · exact ⟨l, h.same hctx (hworld ▸ h.running) (by rw [hworld])⟩
  · obtain ⟨hbounded, hkeys⟩ := find_spec (c := lfuConfig u.cache) h.bounded k
    exact ⟨_, hctx, hworld ▸ h.running, hbounded, hkeys.trans (hworld ▸ h.keys)⟩

theorem delete_synced (hadm : u.index.Admissible Key128) (h : Synced u s l) (key : Bytes) :
    ∃ l', Synced u (s.serve u.backend u.hash u.lfu (.delete key)).2 l' := by
  rcases serve_delete_cases (u := u) h.ctx key with ⟨hctx, hworld⟩ | ⟨k, hval, hend⟩
  · refine ⟨l, ?_⟩
    rcases hworld with hworld | ⟨k, hval, hworld⟩
    · exact h.same hctx (hworld ▸ h.running) (by rw [hworld])
    · obtain ⟨hrunning, hmem, hkeys⟩ := delete_keys hadm h.running k
      rw [Finset.erase_eq_of_notMem (hmem.not.mp hval), ← hworld] at hkeys
      exact h.same hctx (hworld ▸ hrunning) hkeys
  · obtain ⟨hrunning, -, hkeys⟩ := delete_keys hadm h.running k
    obtain ⟨hbounded, hcache⟩ := erase_spec (c := lfuConfig u.cache) h.bounded k
    rw [hend]
    exact ⟨_, rfl, hrunning, hbounded, hcache.trans (by rw [hkeys, h.keys])⟩

theorem serve_synced (hadm : u.index.Admissible Key128) (h : Synced u s l) (r : Request) :
    ∃ l', Synced u (s.serve u.backend u.hash u.lfu r).2 l' := by
  cases r with
  | put key value metadata opts => exact (put_synced hadm h key value metadata opts).1
  | get key opts => exact get_synced h key opts
  | delete key => exact delete_synced hadm h key
  | compact =>
    obtain ⟨hrunning, hkeys⟩ := compaction_keys hadm h.running
    exact ⟨l, h.same rfl hrunning hkeys⟩

/-! Starting and closing. -/

/-- The files recover to an index that fits into the cache. -/
def Recoverable (u : Setup) (d : Disk Key128) : Prop :=
  ∃ m, CrashSafe u.index AnyValue d m ∧ m.keys.card ≤ u.capacity

/-- The files once the map has been dumped and the log truncated. -/
structure Dumped (w : World Key128) (d : Disk Key128) : Prop where
  images : d.images = w.disk.images
  snapshot : d.snapshot = some (.dump w.map)
  log : d.wal = some []

theorem Dumped.crashSafe (hdir : o.snapshotDir ≠ "") (h : Live o AnyValue w) {d : Disk Key128}
    (hd : Dumped w d) : CrashSafe o AnyValue d w.map := by
  refine ⟨⟨w.map, [], [], ⟨?_, ?_, by simp, kEncodedSize_pos⟩, rfl⟩, ?_, ?_, fun id hid => ?_⟩
  · simp [snapshotBase, hdir, hd.snapshot]
  · rw [hd.log]
    rfl
  · rw [view_congr hd.images]
    exact h.owns
  · exact stored_congr hd.images h.stored
  · rw [hd.images]
    exact (h.segs id hid).imageOk

theorem close_durable (hdir : o.snapshotDir ≠ "") (h : Running o w) (c : Context Clocked) :
    CrashSafe o AnyValue (run (Indexed.close o (some c)) w).state.disk w.map := by
  obtain ⟨-, himages, -, hsnapshot, hlog⟩ := indexClosed_files hdir w
  rw [close_disk hdir h.live.segs c]
  exact Dumped.crashSafe hdir h.live ⟨himages, hsnapshot, hlog h.writer⟩

theorem createContext_spec (hadm : u.index.Admissible Key128) {d : Disk Key128}
    {m : Map Key128} (h : CrashSafe u.index AnyValue d m) :
    let r := run (createContext u.backend u.hash) (World.boot d)
    (∀ e ∈ r.trace, CrashSafe u.index AnyValue e.world.disk m) ∧
      CrashSafe u.index AnyValue r.state.disk m ∧
      (r.val = .ok → u.backend.rootDir ≠ "" ∧ Journaled u.index AnyValue r.state m ∧
        r.state.map = m) := by
  obtain ⟨hevents, hstate, -, hok, -⟩ := openStore_spec hadm walPath_ne h
  by_cases hvalid : ensureValidOptions u.backend = .ok
  · by_cases hroot : u.backend.rootDir = ""
    · simpa [createContext, hvalid, hroot, World.boot] using h
    · have htrace : (run (createContext u.backend u.hash) (World.boot d)).trace =
          (run (openStore u.index) (World.boot d)).trace := by
        simp [createContext, hvalid, hroot, u.indexOptions_eq]
      have hend : (run (createContext u.backend u.hash) (World.boot d)).state =
          (run (openStore u.index) (World.boot d)).state := by
        simp [createContext, hvalid, hroot, u.indexOptions_eq]
      have hval : (run (createContext u.backend u.hash) (World.boot d)).val =
          toBackendCode (run (openStore u.index) (World.boot d)).val := by
        simp [createContext, hvalid, hroot, u.indexOptions_eq]
      refine ⟨fun e he => (hevents e (htrace ▸ he)).2.1, hend ▸ hstate, fun hcode => ?_⟩
      have hopened : (run (openStore u.index) (World.boot d)).val = .ok := by
        by_contra hne
        exact toBackendCode_ne_ok hne (hval ▸ hcode)
      rw [hend]
      exact ⟨hroot, hok hopened⟩
  · simpa [createContext, hvalid, World.boot] using h

theorem start_spec (hadm : u.index.Admissible Key128) {d : Disk Key128} (h : Recoverable u d)
    {keys : List Key128} (clock : ℕ → ℤ)
    (hok : (run (createContext u.backend u.hash) (World.boot d)).val = .ok)
    (hkeys : Enumerates keys (run (createContext u.backend u.hash) (World.boot d)).state.map) :
    ∃ l, createCache u.cache u.index keys clock = some (l, []) ∧
      startStage u keys clock d = some (.up
        ⟨(run (createContext u.backend u.hash) (World.boot d)).state, some ⟨some l⟩⟩) ∧
      u.backend.rootDir ≠ "" ∧
      Journaled u.index AnyValue (run (createContext u.backend u.hash) (World.boot d)).state
        (run (createContext u.backend u.hash) (World.boot d)).state.map ∧
      Synced u ⟨(run (createContext u.backend u.hash) (World.boot d)).state, some ⟨some l⟩⟩ l := by
  obtain ⟨m, hm, hcard⟩ := h
  obtain ⟨-, -, hcontext⟩ := createContext_spec hadm hm
  obtain ⟨hroot, hjournaled, hmap⟩ := hcontext hok
  obtain ⟨l, hl, hbounded, hcache⟩ := createCache_spec u.cache u.index hkeys
    (by rw [hmap]; exact hcard) clock
  have hwriter : (run (createContext u.backend u.hash) (World.boot d)).state.wal.isSome = true := by
    obtain ⟨base, recs, -, -, hwal⟩ := hjournaled.logged
    rw [hwal]
    rfl
  refine ⟨l, hl, ?_, hroot, hmap.symm ▸ hjournaled, rfl, ⟨hjournaled.live, hwriter⟩, hbounded,
    hcache⟩
  simp only [startStage, hok, ne_eq, not_true_eq_false, if_false, if_pos hkeys, hl]
  rfl

theorem startStage_cases (hadm : u.index.Admissible Key128) {d : Disk Key128}
    (h : Recoverable u d) {keys : List Key128} {clock : ℕ → ℤ} {g : Stage}
    (hstart : startStage u keys clock d = some g) :
    (∃ d', g = .down d' ∧ Recoverable u d') ∨ ∃ w l, g = .up ⟨w, some ⟨some l⟩⟩ ∧
      u.backend.rootDir ≠ "" ∧ Journaled u.index AnyValue w w.map ∧
      Synced u ⟨w, some ⟨some l⟩⟩ l := by
  by_cases hok : (run (createContext u.backend u.hash) (World.boot d)).val = .ok
  · by_cases hkeys :
        Enumerates keys (run (createContext u.backend u.hash) (World.boot d)).state.map
    · obtain ⟨l, -, hup, hroot, hlog, hsynced⟩ := start_spec hadm h clock hok hkeys
      rw [hup] at hstart
      exact Or.inr ⟨_, l, (Option.some.inj hstart).symm, hroot, hlog, hsynced⟩
    · simp [startStage, hok, hkeys] at hstart
  · obtain ⟨m, hm, hcard⟩ := h
    simp only [startStage, ne_eq, hok, not_false_eq_true, if_true, Option.some.injEq] at hstart
    exact Or.inl ⟨_, hstart.symm, m, (createContext_spec hadm hm).2.1, hcard⟩

/-! Runs without crashes. -/

/-- What holds between two calls. -/
inductive Settled (u : Setup) : Stage → Prop
  | up {s : Server Clocked} {l : Clocked} (hroot : u.backend.rootDir ≠ "") (h : Synced u s l) :
      Settled u (.up s)
  | down {d : Disk Key128} (h : Recoverable u d) : Settled u (.down d)

def Act.Completed : Act → Prop
  | .complete _ => True
  | _ => False

instance (a : Act) : Decidable a.Completed := by
  cases a <;> unfold Act.Completed <;> infer_instance

theorem settled_call (hadm : u.index.Admissible Key128) {g g' : Stage} {call : Call}
    (h : Settled u g) (hstep : callStage u g call = some g') : Settled u g' := by
  cases h with
  | up hroot h =>
    cases call with
    | start keys clock => cases hstep
    | serve r =>
      obtain ⟨s', hafter, rfl⟩ := Option.map_eq_some_iff.mp hstep
      obtain ⟨rfl, -⟩ := Server.after_eq_some hafter
      obtain ⟨l', hl'⟩ := serve_synced hadm h r
      exact .up hroot hl'
    | close =>
      cases hstep
      rw [h.ctx]
      exact .down ⟨_, close_durable hroot h.running _, h.card_le⟩
  | down h =>
    cases call with
    | start keys clock =>
      rcases startStage_cases hadm h hstep with ⟨d', rfl, hd'⟩ | ⟨w, l, rfl, hroot, -, hsynced⟩
      · exact .down hd'
      · exact .up hroot hsynced
    | serve r => cases hstep
    | close => cases hstep

theorem recoverable_initial (u : Setup) (stateFile : Option Bytes) :
    Recoverable u { Disk.empty Key128 with managerState := stateFile } :=
  ⟨∅, crashSafe_initial stateFile, by simp⟩

/-- In every run without crashes the cache and the index hold the same keys, which the capacity
bounds, and a `Put` that stores its key evicts at most one key and not its own. -/
theorem cache_tracks_index (u : Setup) (hadm : u.index.Admissible Key128)
    {stateFile : Option Bytes} {acts : List Act} {s : Server Clocked}
    (hrun : GuardedRun (step u) (fun _ a => a.Completed)
      (.down { Disk.empty Key128 with managerState := stateFile }) acts (.up s)) :
    ∃ l, s.ctx = some ⟨some l⟩ ∧ l.keys = s.world.map.keys ∧
      s.world.map.keys.card ≤ u.capacity ∧
      ∀ (key value metadata : Bytes) (opts : WriteOptions),
        let r := s.serve u.backend u.hash u.lfu (.put key value metadata opts)
        (r.1.code ≠ .ok → r.2.world.map.keys = s.world.map.keys) ∧
        (r.1.code = .ok → ∃ k, Key128.fromString key = some k ∧
          (u.lfu.insert k l).2.length ≤ 1 ∧ k ∉ (u.lfu.insert k l).2 ∧
          r.2.world.map.keys = insert k s.world.map.keys \ (u.lfu.insert k l).2.toFinset) := by
  have hsettled : Settled u (.up s) := by
    refine hrun.invariant (I := fun _ g => Settled u g) (.down (recoverable_initial u stateFile)) ?_
    intro _ g a g' h hcompleted hstep
    cases a with
    | complete call => exact settled_call hadm h hstep
    | crash => exact hcompleted.elim
    | crashIn call n => exact hcompleted.elim
  cases hsettled with
  | up hroot h =>
    rename_i l
    refine ⟨l, h.ctx, h.keys, h.card_le, fun key value metadata opts => ?_⟩
    obtain ⟨-, hrefused, hstored⟩ := put_synced hadm h key value metadata opts
    refine ⟨hrefused, fun hok => ?_⟩
    obtain ⟨k, hkey, hkeys⟩ := hstored hok
    obtain ⟨-, hlength, hnot, -⟩ := insert_evicts (u := u) h.bounded k
    exact ⟨k, hkey, hlength, hnot, hkeys⟩

def Stage.server : Stage → Option (Server Clocked)
  | .up s => some s
  | .down _ => none

def Stage.disk : Stage → Option (Disk Key128)
  | .up _ => none
  | .down d => some d

def oneKey : Setup where
  backend := smallBackend
  cache := { scaled := fun _ => 1, age := Cache.Lfuda.halve }
  hash := frontPolicy ℕ

/-- The second key evicts the first; the cache is rebuilt with it. -/
def evictingRun : List Act :=
  [.complete (.start [] fun n => n), .complete (.serve (.put (keyOf 1) [1] [] {})),
    .complete (.serve (.put (keyOf 2) [2] [] {})), .complete (.serve .compact), .complete .close,
    .complete (.start [⟨0x0202020202020202, 0x0202020202020202⟩] fun n => n),
    .complete (.serve (.get (keyOf 2) {}))]

theorem cache_tracks_index_evicting :
    ∃ s : Server Clocked, GuardedRun (step oneKey) (fun _ a => a.Completed)
        (.down (Disk.empty Key128)) evictingRun (.up s) ∧
      ∃ l, s.ctx = some ⟨some l⟩ ∧ l.keys = s.world.map.keys ∧
        s.world.map.keys.card ≤ oneKey.capacity := by
  have hperform : (performGuarded (step oneKey) (fun _ a => a.Completed) (.down (Disk.empty Key128))
      evictingRun).map (fun g => g.server.isSome) = some true := by
    decide +kernel
  obtain ⟨g, hrun, hup⟩ := exists_guardedRun hperform
  cases g with
  | down d => cases hup
  | up s =>
    obtain ⟨l, hctx, hkeys, hcard, -⟩ := cache_tracks_index oneKey ⟨rfl, by decide, by decide⟩ hrun
    exact ⟨s, hrun, l, hctx, hkeys, hcard⟩

end ParaKV.Storage.Tracking
