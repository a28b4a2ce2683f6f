/- GID: ParaKV/Storage/RebuildRuns
   source: parakv/core/kvcache_storage/index_kvcache_storage_backend.cc, parakv/core/index/index.h
   digest: The rebuild of the eviction cache after a crash at any point. -/

import ParaKV.Storage.Tracking

/-!
`Put` logs a new key before the cache makes room for it. A crash in between leaves a log with one
key more than the cache holds, and the next start evicts a key while `ForEachKey` goes over the
index.
-/

set_option autoImplicit false

namespace ParaKV.Storage.RebuildRuns

open Lib.TracedProgram Lib.StepRun Index Index.Key Index.Operations Index.Durability Index.Ownership
open Index.CrashSafety Segment Segment.FileSpec Segment.Manager Core.State Storage.Backend
open Storage.Backend.Indexed Storage.Simulation Storage.Restart Storage.Rebuild Storage.Tracking

variable {u : Setup} {o : ParaKV.Core.State.Options} {w w' : World Key128} {s : Server Clocked}
variable {l : Clocked}

/-! Crash points of the calls. -/

theorem recoverable_event {es : List (Event Key128)} (hw : Live u.index AnyValue w)
    (hw' : Live u.index AnyValue w') (h : CrashSound u.index AnyValue w w.map es w')
    (hcard : w.map.keys.card ≤ u.capacity) (hcard' : w'.map.keys.card ≤ u.capacity) :
    ∀ e ∈ es, Recoverable u e.world.disk := by
  intro e he
  obtain ⟨-, -, m, hm, hcontent⟩ := h.events e he
  refine ⟨m, hm, ?_⟩
  rcases hcontent rfl with hcontent | hcontent
  · have hkeys : m.keys = w.map.keys := Finset.ext fun k => by
      rw [mem_keys_iff_content hm.owns, mem_keys_iff_content hw.owns, hcontent]
      rfl
    rwa [hkeys]
  · have hkeys : m.keys = w'.map.keys := Finset.ext fun k => by
      rw [mem_keys_iff_content hm.owns, mem_keys_iff_content hw'.owns, hcontent]
      rfl
    rwa [hkeys]

theorem put_trace_cases (hctx : s.ctx = some ⟨some l⟩) {key value metadata : Bytes}
    {opts : WriteOptions} {e : Event Key128}
    (he : e ∈ s.trace u.backend u.hash u.lfu (.put key value metadata opts)) :
    ∃ k payload, Key128.fromString key = some k ∧
      (e ∈ (run (Operations.put u.index k payload) s.world).trace ∨
        e ∈ (run (evict u.index (u.lfu.insert k l).2)
          (run (Operations.put u.index k payload) s.world).state).trace) := by
  cases hkey : Key128.fromString key with
  | none => simp [Server.trace, Indexed.put, hkey] at he
  | some k =>
    have hstate := probeExisting_state (b := u.backend) (o := u.index) k opts s.world
    have htrace := (probeExisting_quiet (b := u.backend) (o := u.index) k opts s.world).2
    cases hprobe : (run (probeExisting u.backend u.index k opts) s.world).val with
    | some refusal => simp [Server.trace, u.indexOptions_eq, Indexed.put, hkey, hctx, hprobe,
      htrace] at he
    | none =>
      cases hpayload : encodePayload u.backend value metadata with
      | error e' =>
        obtain ⟨code, err⟩ := e'
        simp [Server.trace, u.indexOptions_eq, Indexed.put, hkey, hctx, hprobe, htrace,
          hpayload] at he
      | ok payload =>
        refine ⟨k, payload, rfl, ?_⟩
        by_cases hval : (run (Operations.put u.index k payload) s.world).val = .ok
        · simpa [Server.trace, u.indexOptions_eq, Indexed.put, hkey, hctx, hprobe, hstate, htrace,
            hpayload, hval, lfuInsert] using he
        · left
          simpa [Server.trace, u.indexOptions_eq, Indexed.put, hkey, hctx, hprobe, hstate, htrace,
            hpayload, hval]
            using he

theorem get_request_trace (hctx : s.ctx = some ⟨some l⟩) (key : Bytes) (opts : ReadOptions) :
    s.trace u.backend u.hash u.lfu (.get key opts) = [] := by
  cases hkey : Key128.fromString key with
  | none => simp [Server.trace, Indexed.get, hkey]
  | some k =>
    have htrace := (run_get_quiet (o := u.index) (w := s.world) k u.backend.slotValueSize.toNat).2
    by_cases hval :
        (run (Operations.get u.index k u.backend.slotValueSize.toNat) s.world).val.1 = .ok
    · cases hdecode : decodePayload
          (run (Operations.get u.index k u.backend.slotValueSize.toNat) s.world).val.2 <;>
        simp [Server.trace, u.indexOptions_eq, Indexed.get, hkey, hctx, htrace, hval, hdecode]
    · simp [Server.trace, u.indexOptions_eq, Indexed.get, hkey, hctx, htrace, hval]

theorem delete_trace_cases (hctx : s.ctx = some ⟨some l⟩) {key : Bytes} {e : Event Key128}
    (he : e ∈ s.trace u.backend u.hash u.lfu (.delete key)) :
    ∃ k, e ∈ (run (Operations.delete u.index k) s.world).trace := by
  cases hkey : Key128.fromString key with
  | none => simp [Server.trace, Indexed.delete, hkey] at he
  | some k =>
    refine ⟨k, ?_⟩
    by_cases hval : (run (Operations.delete u.index k) s.world).val = .ok <;>
      simpa [Server.trace, u.indexOptions_eq, Indexed.delete, hkey, hctx, hval] using he

/-! Crash points of `Close`. -/

theorem dumped_checkpoint (hdir : o.snapshotDir ≠ "") (hmap : w'.map = w.map)
    (h : Dumped w w'.disk) : ∀ e ∈ (run (checkpoint o) w').trace, Dumped w e.world.disk := by
  obtain ⟨himages, hsnapshot, hlog⟩ := h
  intro e he
  cases hwriter : w'.wal with
  | none =>
    have htrace : (run (checkpoint o) w').trace =
        [⟨.io, { w' with disk := { w'.disk with snapshotTmp := some .corrupt } }⟩,
          ⟨.io, { w' with disk := { w'.disk with snapshotTmp := some (.dump w'.map) } }⟩,
          ⟨.io, { w' with disk := { w'.disk with
            snapshot := some (.dump w'.map), snapshotTmp := none } }⟩] := by
      simp [checkpoint, dumpSnapshot, renameSnapshot, rotateWal, hdir, hwriter]
    rw [htrace] at he
    simp only [List.mem_cons, List.not_mem_nil, or_false] at he
    rcases he with rfl | rfl | rfl
    · exact ⟨himages, hsnapshot, hlog⟩
    · exact ⟨himages, hsnapshot, hlog⟩
    · exact ⟨himages, by rw [hmap], hlog⟩
  | some writer =>
    rw [checkpoint_trace hdir hwriter] at he
    simp only [List.mem_cons, List.not_mem_nil, or_false] at he
    rcases he with rfl | rfl | rfl | rfl
    · exact ⟨himages, hsnapshot, hlog⟩
    · exact ⟨himages, hsnapshot, hlog⟩
    · exact ⟨himages, by rw [hmap], hlog⟩
    · exact ⟨himages, by rw [hmap], rfl⟩

theorem closeSegment_events {id : ℕ} (hbits : (w.segs id).isOpen = true →
      (w.disk.images id).bitmap = (w.segs id).bitmap) :
    ∀ e ∈ (run (File.closeSegment o id) w).trace, e.world.disk = w.disk := by
  intro e he
  cases hopen : (w.segs id).isOpen with
  | false => simp [File.closeSegment, hopen] at he
  | true =>
    have hsame : ∀ size n, overlayBits size n (w.segs id).bitmap (w.disk.images id).bitmap =
        (w.disk.images id).bitmap := by
      intro size n
      ext i
      rw [hbits hopen]
      rcases overlayBits_cases size n (w.segs id).bitmap (w.segs id).bitmap i with hi | hi <;>
        rw [hi]
    have htrace : (run (File.closeSegment o id) w).trace =
        (run (File.flushBitmap o id) w).trace := by
      simp [File.closeSegment, hopen]
    rw [htrace] at he
    simp only [File.flushBitmap, Prog.exec_bind_trace, Prog.exec_get_trace, Prog.exec_get_val,
      Prog.exec_get_state, List.nil_append, run_pwrite_trace, List.mem_map, hsame] at he
    obtain ⟨n, -, rfl⟩ := he
    simp [World.setImage]

theorem destroySegments_events (ids : List ℕ) : ∀ {w : World Key128},
    (∀ id ∈ ids, (w.segs id).isOpen = true →
      (w.disk.images id).bitmap = (w.segs id).bitmap) →
    ∀ e ∈ (run (destroySegments o ids) w).trace, e.world.disk = w.disk := by
  induction ids with
  | nil =>
    intro w _ e he
    simp [destroySegments] at he
  | cons id ids ih =>
    intro w hbits e he
    obtain ⟨hdisk, hsegs⟩ := closeSegment_disk (o := o) (hbits id List.mem_cons_self)
    have htrace : (run (destroySegments o (id :: ids)) w).trace =
        (run (File.closeSegment o id) w).trace ++
          (run (destroySegments o ids) (run (File.closeSegment o id) w).state).trace := by
      simp [destroySegments]
    rw [htrace, List.mem_append] at he
    rcases he with he | he
    · exact closeSegment_events (hbits id List.mem_cons_self) e he
    · rw [← hdisk]
      refine ih (fun j hj hopen => ?_) e he
      have hj' := hsegs j hopen
      rw [hdisk, hj']
      exact hbits j (List.mem_cons_of_mem _ hj) (hj' ▸ hopen)

theorem closeIndex_frame (w : World Key128) : (run closeIndex w).trace = [] ∧
    (run closeIndex w).state.disk = w.disk ∧ (run closeIndex w).state.map = w.map := by
  cases hopened : w.opened <;> simp [closeIndex, hopened]

/-- A crash in `Close` is a crash in its first checkpoint, or the map has been dumped. -/
theorem close_trace_cases (hdir : o.snapshotDir ≠ "") (h : Running o w) (c : Context Clocked)
    {e : Event Key128} (he : e ∈ (run (Indexed.close o (some c)) w).trace) :
    e ∈ (run (checkpoint o) w).trace ∨ Dumped w e.world.disk := by
  have hstate := (run_checkpoint (w := w) hdir).2
  have hdumped : Dumped w (afterCheckpoint w).disk := by
    obtain ⟨writer, hwriter⟩ := Option.isSome_iff_exists.mp h.writer
    exact ⟨rfl, rfl, by simp [afterCheckpoint, hwriter]⟩
  -- the world between the state file and the destructor of the index
  obtain ⟨w₂, hw₂⟩ : ∃ w₂, w₂ = (run saveState (afterCheckpoint w)).state := ⟨_, rfl⟩
  have hdumped₂ : Dumped w w₂.disk := by
    rw [hw₂]
    simpa [saveState] using ⟨hdumped.1, hdumped.2, hdumped.3⟩
  obtain ⟨htrace₃, hdisk₃, hmap₃⟩ := closeIndex_frame w₂
  have htrace : (run (Indexed.close o (some c)) w).trace = (run (checkpoint o) w).trace ++
      ((run saveState (afterCheckpoint w)).trace ++
        ((run (checkpoint o) (run closeIndex w₂).state).trace ++
          (run (destroySegments o (List.range o.segmentCount)) (indexClosed o w)).trace)) := by
    simp [Indexed.close, destroyIndex, indexClosed, hstate, hw₂, closeIndex_frame]
  rw [htrace] at he
  simp only [List.mem_append] at he
  rcases he with he | he | he | he
  · exact Or.inl he
  · have hevent : e.world.disk = w₂.disk := by
      rw [hw₂]
      simp [saveState] at he ⊢
      rw [he]
    exact Or.inr (hevent ▸ hdumped₂)
  · have hmap : (run closeIndex w₂).state.map = w.map := by
      rw [hmap₃, hw₂]
      simp [saveState, afterCheckpoint]
    exact Or.inr (dumped_checkpoint hdir hmap (hdisk₃ ▸ hdumped₂) e he)
  · obtain ⟨hsegs, himages, -, hsnapshot, hlog⟩ := indexClosed_files hdir w
    have hevent := destroySegments_events (o := o) (List.range o.segmentCount)
      (w := indexClosed o w) (fun id hid _ => by
        rw [hsegs, himages]
        exact (h.live.segs id (List.mem_range.mp hid)).bitmap) e he
    rw [hevent]
    exact Or.inr ⟨himages, hsnapshot, hlog h.writer⟩

/-! The log of a running backend. -/

abbrev InStep (o : ParaKV.Core.State.Options) (w : World Key128) : Prop :=
  Journaled o AnyValue w w.map

theorem inStep_of_sound {es : List (Event Key128)}
    (h : CrashSound o AnyValue w w.map es w') : InStep o w' := by
  obtain ⟨m, hm, hmap⟩ := h.journaled
  obtain rfl := hmap rfl
  exact hm

theorem inStep_put (hadm : o.Admissible Key128) (h : InStep o w) (key : Key128) (v : Bytes) :
    InStep o (run (Operations.put o key v) w).state :=
  inStep_of_sound (put_sound hadm h trivial)

theorem inStep_delete (hadm : o.Admissible Key128) (h : InStep o w) (key : Key128) :
    InStep o (run (Operations.delete o key) w).state :=
  inStep_of_sound (delete_sound hadm h key)

theorem inStep_evict (hadm : o.Admissible Key128) (keys : List Key128) :
    ∀ {w : World Key128}, InStep o w → InStep o (run (evict o keys) w).state := by
  induction keys with
  | nil => exact fun h => h
  | cons key keys ih =>
    intro w h
    rw [run_evict_cons]
    exact ih (inStep_delete hadm h key)

theorem inStep_serve (hadm : u.index.Admissible Key128) (hctx : s.ctx = some ⟨some l⟩)
    (h : InStep u.index s.world) {r : Request} (hr : r ≠ .compact) :
    InStep u.index (s.serve u.backend u.hash u.lfu r).2.world := by
  cases r with
  | put key value metadata opts =>
    rcases serve_put_cases (u := u) hctx key value metadata opts with
      ⟨-, -, hworld | ⟨k, payload, -, hworld⟩⟩ | ⟨k, payload, -, -, -, hend⟩
    · rw [hworld]
      exact h
    · rw [hworld]
      exact inStep_put hadm h k payload
    · rw [hend]
      exact inStep_evict hadm _ (inStep_put hadm h k payload)
  | get key opts =>
    rw [(serve_get_cases (u := u) hctx key opts).1]
    exact h
  | delete key =>
    rcases serve_delete_cases (u := u) hctx key with
      ⟨-, hworld | ⟨k, -, hworld⟩⟩ | ⟨k, -, hend⟩
    · rw [hworld]
      exact h
    · rw [hworld]
      exact inStep_delete hadm h k
    · rw [hend]
      exact inStep_delete hadm h k
  | compact => exact absurd rfl hr

/-! Runs with crashes. -/

def Plain : Call → Prop
  | .serve .compact => False
  | _ => True

instance : (call : Call) → Decidable (Plain call)
  | .serve .compact => .isFalse fun h => h
  | .serve (.put _ _ _ _) | .serve (.get _ _) | .serve (.delete _) | .start _ _ | .close =>
    .isTrue trivial

theorem Plain.ne_compact {r : Request} (h : Plain (.serve r)) : r ≠ .compact := by
  rintro rfl
  exact h

/-- The key is in the index, or the cache is not full. -/
def HasRoom (u : Setup) (w : World Key128) (key : Bytes) : Prop :=
  ∀ k ∈ Key128.fromString key, k ∈ w.map.keys ∨ w.map.keys.card < u.capacity

instance (u : Setup) (w : World Key128) (key : Bytes) : Decidable (HasRoom u w key) :=
  inferInstanceAs (Decidable (∀ k ∈ Key128.fromString key, _))

/-- A crash does not fall into a `Put` that brings a new key to a full cache. -/
def Survives (u : Setup) : Stage → Call → Prop
  | .up s, .serve (.put key _ _ _) => HasRoom u s.world key
  | _, _ => True

instance (u : Setup) : (g : Stage) → (call : Call) → Decidable (Survives u g call)
  | .up s, .serve (.put key _ _ _) => inferInstanceAs (Decidable (HasRoom u s.world key))
  | .down _, _ | .up _, .start _ _ | .up _, .serve (.get _ _) | .up _, .serve (.delete _)
  | .up _, .serve .compact | .up _, .close => .isTrue trivial

def Allowed (u : Setup) (g : Stage) : Act → Prop
  | .complete call => Plain call
  | .crash => True
  | .crashIn call _ => Plain call ∧ Survives u g call

instance (u : Setup) (g : Stage) : (a : Act) → Decidable (Allowed u g a)
  | .complete call => inferInstanceAs (Decidable (Plain call))
  | .crash => .isTrue trivial
  | .crashIn call _ => inferInstanceAs (Decidable (Plain call ∧ Survives u g call))

/-- What holds between two calls. -/
inductive Kept (u : Setup) : Stage → Prop
  | up {s : Server Clocked} {l : Clocked} (hroot : u.backend.rootDir ≠ "")
      (hlog : InStep u.index s.world) (h : Synced u s l) : Kept u (.up s)
  | down {d : Disk Key128} (h : Recoverable u d) : Kept u (.down d)

theorem recoverable_request (hadm : u.index.Admissible Key128) (hlog : InStep u.index s.world)
    (h : Synced u s l) {r : Request} (hr : r ≠ .compact)
    (hsurvives : Survives u (.up s) (.serve r)) {e : Event Key128}
    (he : e ∈ s.trace u.backend u.hash u.lfu r) : Recoverable u e.world.disk := by
  cases r with
  | put key value metadata opts =>
    obtain ⟨k, payload, hkey, he | he⟩ := put_trace_cases h.ctx he
    · have hroom := hsurvives k hkey
      obtain ⟨hrunning, hkeys⟩ := put_keys hadm h.running k payload
      refine recoverable_event h.running.live hrunning.live (put_sound hadm hlog trivial)
        h.card_le ?_ e he
      have hle := h.card_le
      have hinsert := Finset.card_insert_le k s.world.map.keys
      rw [hkeys]
      split_ifs
      · rcases hroom with hin | hroom
        · rwa [Finset.insert_eq_of_mem hin]
        · omega
      · exact hle
    · have hroom := hsurvives k hkey
      rw [← h.keys] at hroom
      rw [(insert_evicts (u := u) h.bounded k).2.2.2.1 hroom] at he
      simp [evict] at he
  | get key opts =>
    rw [get_request_trace h.ctx] at he
    cases he
  | delete key =>
    obtain ⟨k, he⟩ := delete_trace_cases h.ctx he
    obtain ⟨hrunning, -, hkeys⟩ := delete_keys hadm h.running k
    refine recoverable_event h.running.live hrunning.live (delete_sound hadm hlog k)
      h.card_le ?_ e he
    rw [hkeys]
    exact (Finset.card_erase_le).trans h.card_le
  | compact => exact absurd rfl hr

theorem recoverable_checkpoint (hdir : u.index.snapshotDir ≠ "") (hlog : InStep u.index w)
    (hcard : w.map.keys.card ≤ u.capacity) {e : Event Key128}
    (he : e ∈ (run (checkpoint u.index) w).trace) : Recoverable u e.world.disk := by
  have hsound := checkpoint_sound hlog
  refine recoverable_event hlog.live (inStep_of_sound hsound).live hsound hcard ?_ e he
  rw [(run_checkpoint hdir).2]
  exact hcard

theorem recoverable_crashIn (hadm : u.index.Admissible Key128) {g : Stage} {call : Call}
    (h : Kept u g) (hplain : Plain call) (hsurvives : Survives u g call) {e : Event Key128}
    (he : e ∈ callTrace u g call) : Recoverable u e.world.disk := by
  cases h with
  | up hroot hlog h =>
    cases call with
    | start keys clock => cases he
    | serve r => exact recoverable_request hadm hlog h hplain.ne_compact hsurvives he
    | close =>
      simp only [callTrace, h.ctx] at he
      rcases close_trace_cases hroot h.running _ he with he | hdumped
      · exact recoverable_checkpoint hroot hlog h.card_le he
      · exact ⟨_, hdumped.crashSafe hroot h.running.live, h.card_le⟩
  | down h =>
    cases call with
    | start keys clock =>
      simp only [callTrace, List.mem_append] at he
      rcases he with he | he
      · obtain ⟨m, hm, hcard⟩ := h
        exact ⟨m, (createContext_spec hadm hm).1 e he, hcard⟩
      · split_ifs at he with hopened
        · obtain ⟨l, hl, -⟩ := start_spec hadm h clock hopened.1 hopened.2
          rw [hl] at he
          simp [evict] at he
        · cases he
    | serve r => cases he
    | close => cases he

theorem kept_call (hadm : u.index.Admissible Key128) {g g' : Stage} {call : Call} (h : Kept u g)
    (hplain : Plain call) (hstep : callStage u g call = some g') : Kept u g' := by
  cases h with
  | up hroot hlog h =>
    cases call with
    | start keys clock => cases hstep
    | serve r =>
      obtain ⟨s', hafter, rfl⟩ := Option.map_eq_some_iff.mp hstep
      obtain ⟨rfl, -⟩ := Server.after_eq_some hafter
      obtain ⟨l', hl'⟩ := serve_synced hadm h r
      exact .up hroot (inStep_serve hadm h.ctx hlog hplain.ne_compact) hl'
    | close =>
      cases hstep
      rw [h.ctx]
      exact .down ⟨_, close_durable hroot h.running _, h.card_le⟩
  | down h =>
    cases call with
    | start keys clock =>
      rcases startStage_cases hadm h hstep with
        ⟨d', rfl, hd'⟩ | ⟨w, l, rfl, hroot, hlog, hsynced⟩
      · exact .down hd'
      · exact .up hroot hlog hsynced
    | serve r => cases hstep
    | close => cases hstep

theorem kept_step (hadm : u.index.Admissible Key128) {g g' : Stage} {a : Act} (h : Kept u g)
    (hallowed : Allowed u g a) (hstep : step u g a = some g') : Kept u g' := by
  cases a with
  | complete call => exact kept_call hadm h hallowed hstep
  | crash =>
    cases h with
    | up hroot hlog h =>
      cases hstep
      exact .down ⟨_, hlog.crashSafe, h.card_le⟩
    | down h =>
      cases hstep
      exact .down h
  | crashIn call n =>
    obtain ⟨e, he, rfl⟩ := Option.map_eq_some_iff.mp hstep
    exact .down (recoverable_crashIn hadm h hallowed.1 hallowed.2 (List.mem_of_getElem? he))

/-- If no crash falls into a `Put` that brings a new key to a full cache, then no start evicts a
key while it goes over the index. -/
theorem rebuild_evicts_nothing (u : Setup) (hadm : u.index.Admissible Key128)
    {stateFile : Option Bytes} {acts : List Act} {d : Disk Key128}
    (hrun : GuardedRun (step u) (Allowed u)
      (.down { Disk.empty Key128 with managerState := stateFile }) acts (.down d))
    {keys : List Key128} (clock : ℕ → ℤ)
    (hok : (run (createContext u.backend u.hash) (World.boot d)).val = .ok)
    (hkeys : Enumerates keys (run (createContext u.backend u.hash) (World.boot d)).state.map) :
    ∃ l, createCache u.cache u.index keys clock = some (l, []) := by
  have hkept : Kept u (.down d) := by
    refine hrun.invariant (I := fun _ g => Kept u g) (.down (recoverable_initial u stateFile)) ?_
    exact fun _ _ _ _ h hallowed hstep => kept_step hadm h hallowed hstep
  cases hkept with
  | down h =>
    obtain ⟨l, hl, -⟩ := start_spec hadm h clock hok hkeys
    exact ⟨l, hl⟩

def repeated (n : ℕ) : Key128 := (Key128.fromString (keyOf n)).getD default

/-- The process stops in a `Put`, at point `n`. -/
def stoppedRun (first : List Act) (key n : ℕ) : List Act :=
  [.complete (.start [] fun n => n)] ++ first ++
    [.crashIn (.serve (.put (keyOf key) [UInt8.ofNat key] [] {})) n]

/-- What a start over the files makes of an index with the given keys. -/
def restarted (keys : List Key128) (g : Stage) : Option (BackendCode × Bool × List Key128) :=
  g.disk.bind fun d =>
    let r := run (createContext oneKey.backend oneKey.hash) (World.boot d)
    (createCache oneKey.cache oneKey.index keys fun n => n).map fun c =>
      (r.val, decide (Enumerates keys r.state.map), c.2)

/-- The record of the second key is in the log, that of the eviction is not. The cache has room for
one of the two keys. -/
theorem rebuild_evicts :
    (perform (step oneKey) (.down (Disk.empty Key128))
      (stoppedRun [.complete (.serve (.put (keyOf 1) [1] [] {}))] 2 4171)).bind
        (restarted [repeated 1, repeated 2]) = some (.ok, true, [repeated 1]) := by
  decide +kernel

theorem rebuild_evicts_nothing_first :
    ∃ d, GuardedRun (step oneKey) (Allowed oneKey) (.down (Disk.empty Key128))
        (stoppedRun [] 1 4171) (.down d) ∧
      (run (createContext oneKey.backend oneKey.hash) (World.boot d)).val = .ok ∧
      ∃ l, createCache oneKey.cache oneKey.index [repeated 1] (fun n => n) = some (l, []) := by
  have hperform : (performGuarded (step oneKey) (Allowed oneKey) (.down (Disk.empty Key128))
      (stoppedRun [] 1 4171)).map (restarted [repeated 1]) = some (some (.ok, true, [])) := by
    decide +kernel
  obtain ⟨g, hrun, hg⟩ := exists_guardedRun hperform
  cases g with
  | up s => cases hg
  | down d =>
    have hopened : (run (createContext oneKey.backend oneKey.hash) (World.boot d)).val = .ok ∧
        Enumerates [repeated 1]
          (run (createContext oneKey.backend oneKey.hash) (World.boot d)).state.map := by
      rw [restarted, Stage.disk, Option.bind_some] at hg
      obtain ⟨c, -, hc⟩ := Option.map_eq_some_iff.mp hg
      have hval := congrArg Prod.fst hc
      have hkeys := congrArg (fun p => p.2.1) hc
      exact ⟨hval, of_decide_eq_true hkeys⟩
    exact ⟨d, hrun, hopened.1, rebuild_evicts_nothing oneKey ⟨rfl, by decide, by decide⟩ hrun _
      hopened.1 hopened.2⟩

end ParaKV.Storage.RebuildRuns
