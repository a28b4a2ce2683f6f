/- GID: ParaKV/Storage/Persistence
   source: parakv/core/kvcache_storage/index_kvcache_storage_backend.cc, parakv/core/index/index.cc
   digest: A backend without a cache keeps its contents through Close, kills and the next start. -/

import ParaKV.Storage.RebuildRuns
import ParaKV.Index.Sessions

set_option autoImplicit false

namespace ParaKV.Storage.Persistence

open Lib.HashOrder Lib.OwnedSlots Index Index.Key Index.Operations Index.Durability Index.Ownership
open Index.CrashSafety Index.Recovery Index.Runs Index.Bookkeeping Core.State Storage.Backend
open Storage.Backend.Indexed Storage.Simulation Storage.Restart Storage.Tracking Storage.RebuildRuns

variable {L : Type} {b : Indexed.Options} {hash : HashPolicy ℕ} {lfu : Lfu L}

/-! A process that starts, and one that is killed. -/

def closed (b : Indexed.Options) (hash : HashPolicy ℕ) (s : Server L) : Disk Key128 :=
  (run (Indexed.close (indexOptions b hash) s.ctx) s.world).state.disk

structure Usable (b : Indexed.Options) (hash : HashPolicy ℕ) : Prop where
  valid : ensureValidOptions b = .ok
  root : b.rootDir ≠ ""
  admissible : (indexOptions b hash).Admissible Key128

/-- The backend holds the contents of the in-memory store, and has its log open. -/
structure Backs (b : Indexed.Options) (hash : HashPolicy ℕ) (s : Server L) (store : Mocked.Store) :
    Prop where
  simulates : Simulates b hash ⟨s, store⟩
  writer : s.world.wal.isSome = true

/-- What is in the log and in the snapshot is the map. -/
abbrev Settled (b : Indexed.Options) (hash : HashPolicy ℕ) (s : Server L) : Prop :=
  Journaled (indexOptions b hash) AnyValue s.world s.world.map

variable {s : Server L} {store : Mocked.Store}

/-! What a request does to the index. -/

/-- A request other than a compaction is one operation of the index, or none. -/
inductive Effect (o : ParaKV.Core.State.Options) (w : World Key128) :
    World Key128 → List (Event Key128) → Prop
  | nothing : Effect o w w []
  | put (k : Key128) (v : Bytes) :
      Effect o w (run (Operations.put o k v) w).state (run (Operations.put o k v) w).trace
  | delete (k : Key128) :
      Effect o w (run (Operations.delete o k) w).state (run (Operations.delete o k) w).trace

theorem request_effect (b : Indexed.Options) (hash : HashPolicy ℕ) (lfu : Lfu L)
    (hctx : s.ctx = some ⟨none⟩) (r : Request) (hr : r ≠ .compact) :
    Effect (indexOptions b hash) s.world (s.serve b hash lfu r).2.world (s.trace b hash lfu r) := by
  cases r with
  | compact => exact (hr rfl).elim
  | put key value metadata opts =>
    cases hkey : Key128.fromString key with
    | none =>
      simp [Server.serve, Server.trace, Indexed.put, hkey]
      exact .nothing
    | some k =>
      obtain ⟨hstate, htrace⟩ := probeExisting_quiet (b := b) (o := indexOptions b hash) k opts
        s.world
      cases hprobe : (run (probeExisting b (indexOptions b hash) k opts) s.world).val with
      | some refusal =>
        simp [Server.serve, Server.trace, Indexed.put, hkey, hctx, hprobe, hstate, htrace]
        exact .nothing
      | none =>
        cases hencode : encodePayload b value metadata with
        | error e =>
          simp [Server.serve, Server.trace, Indexed.put, hkey, hctx, hprobe, hstate, htrace,
            hencode]
          exact .nothing
        | ok payload =>
          by_cases hok : (run (Operations.put (indexOptions b hash) k payload) s.world).val = .ok
          · simp [Server.serve, Server.trace, Indexed.put, hkey, hctx, hprobe, hstate, htrace,
              hencode, hok, lfuInsert]
            exact .put k payload
          · simp [Server.serve, Server.trace, Indexed.put, hkey, hctx, hprobe, hstate, htrace,
              hencode, hok]
            exact .put k payload
  | get key opts =>
    cases hkey : Key128.fromString key with
    | none =>
      simp [Server.serve, Server.trace, Indexed.get, hkey]
      exact .nothing
    | some k =>
      obtain ⟨hstate, htrace⟩ := run_get_quiet (o := indexOptions b hash) (w := s.world) k
        b.slotValueSize.toNat
      by_cases hok : (run (Operations.get (indexOptions b hash) k b.slotValueSize.toNat)
          s.world).val.1 = .ok
      · cases hdecode : decodePayload (run (Operations.get (indexOptions b hash) k
            b.slotValueSize.toNat) s.world).val.2 with
        | error e =>
          simp [Server.serve, Server.trace, Indexed.get, hkey, hctx, hok, hstate, htrace, hdecode]
          exact .nothing
        | ok p =>
          simp [Server.serve, Server.trace, Indexed.get, hkey, hctx, hok, hstate, htrace, hdecode]
          exact .nothing
      · simp [Server.serve, Server.trace, Indexed.get, hkey, hctx, hok, hstate, htrace]
        exact .nothing
  | delete key =>
    cases hkey : Key128.fromString key with
    | none =>
      simp [Server.serve, Server.trace, Indexed.delete, hkey]
      exact .nothing
    | some k =>
      by_cases hok : (run (Operations.delete (indexOptions b hash) k) s.world).val = .ok
      · simp [Server.serve, Server.trace, Indexed.delete, hkey, hctx, hok]
        exact .delete k
      · simp [Server.serve, Server.trace, Indexed.delete, hkey, hctx, hok]
        exact .delete k

section Effect

variable {o : ParaKV.Core.State.Options} {w w' : World Key128} {es : List (Event Key128)}

theorem Effect.sound (h : Effect o w w' es) (hadm : o.Admissible Key128)
    (hw : Journaled o AnyValue w w.map) : CrashSound o AnyValue w w.map es w' := by
  cases h with
  | nothing => exact ⟨⟨w.map, hw, fun _ => rfl⟩, fun e he => by cases he⟩
  | put k v => exact put_sound hadm hw trivial
  | delete k => exact delete_sound hadm hw k

theorem Effect.writer (h : Effect o w w' es) (hadm : o.Admissible Key128)
    (hw : Live o AnyValue w) : w'.wal.isSome = w.wal.isSome := by
  cases h with
  | nothing => rfl
  | put k v => exact put_writer hadm hw v
  | delete k => exact delete_writer hadm hw

end Effect

/-! Serving. -/

def puts : Request → Bool
  | .put _ _ _ _ => true
  | _ => false

theorem puts_iff {r : Request} :
    puts r = true ↔ ∃ key value metadata opts, r = .put key value metadata opts := by
  cases r <;> simp [puts]

theorem backs_serve (lfu : Lfu L) (husable : Usable b hash) (h : Backs b hash s store) (t : Timed)
    (hadmitted : t.request.Admitted b)
    (hspace : (s.serve b hash lfu t.request).1.code ≠ .storageFull)
    (hreturned : (s.serve b hash lfu t.request).1.returned = true) :
    (s.serve b hash lfu t.request).1 = (serveMocked t store).1 ∧
      Backs b hash (s.serve b hash lfu t.request).2 (serveMocked t store).2 := by
  obtain ⟨hreply, hnext⟩ := simulates_step h.simulates husable.valid husable.admissible t hadmitted
    hspace hreturned
  refine ⟨hreply, hnext, ?_⟩
  by_cases hr : t.request = .compact
  · rw [hr]
    exact (compaction_keys husable.admissible ⟨h.simulates.tended.live, h.writer⟩).1.writer
  · rw [(request_effect b hash lfu h.simulates.ctx t.request hr).writer husable.admissible
      h.simulates.tended.live]
    exact h.writer

theorem puts_of_full (lfu : Lfu L) (husable : Usable b hash) (h : Backs b hash s store) (t : Timed)
    (hadmitted : t.request.Admitted b)
    (hfull : (s.serve b hash lfu t.request).1.code = .storageFull) : puts t.request = true := by
  cases hrequest : t.request with
  | put key value metadata opts => rfl
  | get key opts =>
    rw [(simulates_get h.simulates husable.valid husable.admissible t hrequest hadmitted).1]
      at hfull
    cases hentry : store.lookup key <;>
      simp only [serveMocked, hrequest, Mocked.get, hentry] at hfull
    · cases hfull
    · split_ifs at hfull <;> cases hfull
  | delete key =>
    rw [(simulates_delete h.simulates husable.admissible t hrequest hadmitted).1] at hfull
    cases hentry : store.lookup key <;>
      simp [serveMocked, hrequest, Mocked.delete, hentry, Reply.code] at hfull
  | compact =>
    rw [hrequest] at hfull
    cases hfull

/-- The reply of a request that returns is that of the in-memory backend, or there is no free slot
for a `Put` and everything is left as it was. -/
theorem backs_request (lfu : Lfu L) (husable : Usable b hash) (h : Backs b hash s store)
    (t : Timed) (hadmitted : t.request.Admitted b)
    (hreturned : (s.serve b hash lfu t.request).1.returned = true) :
    ((s.serve b hash lfu t.request).1 = (serveMocked t store).1 ∧
        Backs b hash (s.serve b hash lfu t.request).2 (serveMocked t store).2) ∨
      (puts t.request = true ∧
        (s.serve b hash lfu t.request).1 = .wrote ⟨.storageFull, "index put failed"⟩ ∧
        Backs b hash (s.serve b hash lfu t.request).2 store) := by
  by_cases hfull : (s.serve b hash lfu t.request).1.code = .storageFull
  swap
  · exact Or.inl (backs_serve lfu husable h t hadmitted hfull hreturned)
  have hputs := puts_of_full lfu husable h t hadmitted hfull
  obtain ⟨key, value, metadata, opts, hrequest⟩ := puts_iff.mp hputs
  refine Or.inr ⟨hputs, ?_⟩
  rw [hrequest] at hfull hadmitted ⊢
  obtain ⟨hkey, hfits, -⟩ := hadmitted
  obtain ⟨hprobe, hprobed⟩ := h.simulates.run_probe husable.admissible hkey opts
  have hctx : s.ctx = some ⟨none⟩ := h.simulates.ctx
  have hencode := encodePayload_eq husable.valid hfits
  have hlive : Live (indexOptions b hash) AnyValue s.world := h.simulates.tended.live
  have hnext : Tended (indexOptions b hash) (run (Operations.put (indexOptions b hash)
      (ofBytes key) (payload b value metadata)) s.world).state :=
    tended_op husable.admissible h.simulates.tended (.put _ _) (by simp)
  obtain ⟨-, hvalue⟩ := put_spec husable.admissible hlive (v := payload b value metadata)
    (show AnyValue (ofBytes key) (payload b value metadata) from trivial)
  by_cases hrefused : opts.overwrite = false ∧ (store.lookup key).isSome = true
  · rw [if_pos hrefused] at hprobe
    simp [Server.serve, Indexed.put, fromString_eq hkey, hctx, hprobe, hprobed,
      Reply.code] at hfull
  rw [if_neg hrefused] at hprobe
  let r := run (Operations.put (indexOptions b hash) (ofBytes key) (payload b value metadata))
    s.world
  have hbacks : r.val ≠ .ok → Backs b hash (⟨r.state, some ⟨none⟩⟩ : Server L) store := by
    intro hval
    rw [if_neg hval] at hvalue
    refine ⟨⟨rfl, hnext, fun key' hkey' => ?_, h.simulates.entries⟩, ?_⟩
    · exact (congrFun hvalue _).trans (h.simulates.contents key' hkey')
    · exact (put_writer husable.admissible hlive _).trans h.writer
  rcases put_status husable.admissible hlive (ofBytes key)
    (length_payload_eq husable.valid hfits) with hval | hval | hval
  · simp [Server.serve, Indexed.put, fromString_eq hkey, hctx, hprobe, hprobed, hencode, hval,
      lfuInsert, Reply.code] at hfull
  all_goals
    simp [Server.serve, Indexed.put, fromString_eq hkey, hctx, hprobe, hprobed, hencode, hval,
      toBackendCode]
    exact hbacks (by simp [r, hval])

theorem backs_other (lfu : Lfu L) (husable : Usable b hash) (h : Backs b hash s store) (t : Timed)
    (hother : puts t.request = false) (hadmitted : t.request.Admitted b)
    (hreturned : (s.serve b hash lfu t.request).1.returned = true) :
    Backs b hash (s.serve b hash lfu t.request).2 (serveMocked t store).2 := by
  rcases backs_request lfu husable h t hadmitted hreturned with hserved | hfull
  · exact hserved.2
  · rw [hother] at hfull
    cases hfull.1

theorem settled_serve (lfu : Lfu L) (husable : Usable b hash) (h : Backs b hash s store)
    (hsettled : Settled b hash s) {r : Request} (hr : r ≠ .compact) :
    Settled b hash (s.serve b hash lfu r).2 := by
  obtain ⟨m, hm, hmap⟩ := ((request_effect b hash lfu h.simulates.ctx r hr).sound
    husable.admissible hsettled).journaled
  rw [hmap rfl] at hm
  exact hm

/-! Starting again. -/

/-- The files at the `n`-th point of a trace, or behind it. -/
def diskAt (events : List (Event Key128)) (last : Disk Key128) (n : ℕ) : Disk Key128 :=
  match events[n]? with
  | some e => e.world.disk
  | none => last

theorem diskAt_cases (events : List (Event Key128)) (last : Disk Key128) (n : ℕ) :
    (∃ e ∈ events, diskAt events last n = e.world.disk) ∨ diskAt events last n = last := by
  unfold diskAt
  cases h : events[n]? with
  | none => exact Or.inr rfl
  | some e => exact Or.inl ⟨e, List.mem_of_getElem? h, rfl⟩

/-- Complete files that recover to the contents of the store. -/
structure Leaves (b : Indexed.Options) (hash : HashPolicy ℕ) (d : Disk Key128)
    (store : Mocked.Store) : Prop where
  recovers : ∃ m, CrashSafe (indexOptions b hash) AnyValue d m ∧ ∀ key : Bytes, key.length = 16 →
    content (entries m) (view (indexOptions b hash) d) (ofBytes key) =
      (store.lookup key).map (stored b)
  complete : Complete (indexOptions b hash) d
  entries : ∀ key e, store.lookup key = some e →
    e.expirationMs = 0 ∧ Fits b e.value e.metadata

theorem backs_opened (husable : Usable b hash) {d : Disk Key128} {m : Map Key128}
    (hm : CrashSafe (indexOptions b hash) AnyValue d m)
    (hopenable : ∀ id < (indexOptions b hash).segmentCount, (d.images id).Openable)
    (hcontent : ∀ key : Bytes, key.length = 16 →
      content (entries m) (view (indexOptions b hash) d) (ofBytes key) =
        (store.lookup key).map (stored b))
    (hentries : ∀ key e, store.lookup key = some e →
      e.expirationMs = 0 ∧ Fits b e.value e.metadata) :
    Backs b hash (boot L b hash d) store ∧ Settled b hash (boot L b hash d) := by
  obtain ⟨-, -, ⟨hview, -⟩, hok, hopen⟩ := openStore_spec husable.admissible walPath_ne hm
  have hval := hopen hopenable
  obtain ⟨hjournaled, hmap⟩ := hok hval
  obtain ⟨hcode, hstate⟩ := run_createContext husable.valid husable.root hval
  have hworld : (boot L b hash d).world =
      (run (openStore (indexOptions b hash)) (World.boot d)).state := hstate
  have hctx : (boot L b hash d).ctx = some ⟨none⟩ := if_pos hcode
  have hwriter : (boot L b hash d).world.wal.isSome = true := by
    obtain ⟨base, recs, -, -, hwal⟩ := hjournaled.logged
    rw [hworld, hwal]
    rfl
  refine ⟨⟨⟨hctx, ?_, ?_, hentries⟩, hwriter⟩, ?_⟩
  · rw [hworld]
    exact ⟨hjournaled.live, classified_openStore hval,
      tally_openStore (fun id hid i hi => (hm.images id hid).bound i hi) hval⟩
  · intro key hkey
    show value _ (boot L b hash d).world _ = _
    rw [hworld, value, hmap, hview]
    exact hcontent key hkey
  · rw [Settled, hworld, hmap]
    exact hjournaled

theorem boot_backs (husable : Usable b hash) {d : Disk Key128} (h : Leaves b hash d store) :
    Backs b hash (boot L b hash d) store ∧ Settled b hash (boot L b hash d) := by
  obtain ⟨m, hm, hcontent⟩ := h.recovers
  exact backs_opened husable hm (fun id hid _ => (h.complete id hid).2) hcontent h.entries

theorem boot_empty (husable : Usable b hash) :
    Backs b hash (boot L b hash (Disk.empty Key128)) ∅ ∧
      Settled b hash (boot L b hash (Disk.empty Key128)) := by
  refine backs_opened husable (m := ∅) (crashSafe_initial none)
    (fun id _ hpresent => by simp [Disk.empty] at hpresent) (fun key _ => ?_) fun key e he => ?_
  · exact content_none rfl
  · simp at he

/-- The files that a start leaves when it is killed after `n` points. -/
def interrupted (b : Indexed.Options) (hash : HashPolicy ℕ) (d : Disk Key128) (n : ℕ) :
    Disk Key128 :=
  let r := run (createContext b hash) (World.boot d)
  diskAt r.trace r.state.disk n

theorem leaves_interrupted (husable : Usable b hash) {d : Disk Key128} (h : Leaves b hash d store)
    (n : ℕ) : Leaves b hash (interrupted b hash d n) store := by
  obtain ⟨m, hm, hcontent⟩ := h.recovers
  obtain ⟨hevents, hsafe, hsame, -, -⟩ := openStore_spec husable.admissible walPath_ne hm
  have hstate : (run (createContext b hash) (World.boot d)).state =
      (run (openStore (indexOptions b hash)) (World.boot d)).state := by
    simp [createContext, husable.valid, husable.root]
  have htrace : (run (createContext b hash) (World.boot d)).trace =
      (run (openStore (indexOptions b hash)) (World.boot d)).trace := by
    simp [createContext, husable.valid, husable.root]
  simp only [interrupted, htrace, hstate]
  rcases diskAt_cases (run (openStore (indexOptions b hash)) (World.boot d)).trace
    (run (openStore (indexOptions b hash)) (World.boot d)).state.disk n with ⟨e, he, hdisk⟩ | hdisk
  · rw [hdisk]
    obtain ⟨-, hsafe', hsame'⟩ := hevents e he
    exact ⟨⟨m, hsafe', fun key hkey => hsame'.view ▸ hcontent key hkey⟩,
      hsame'.complete h.complete, h.entries⟩
  · rw [hdisk]
    exact ⟨⟨m, hsafe, fun key hkey => hsame.view ▸ hcontent key hkey⟩,
      hsame.complete h.complete, h.entries⟩

/-! The end of a process. -/

theorem Backs.leaves (h : Backs b hash s store) {d : Disk Key128} {m : Map Key128}
    (hm : CrashSafe (indexOptions b hash) AnyValue d m)
    (hcomplete : Complete (indexOptions b hash) d)
    (hcontent : content (entries m) (view (indexOptions b hash) d) =
      value (indexOptions b hash) s.world) : Leaves b hash d store := by
  refine ⟨⟨m, hm, fun key hkey => ?_⟩, hcomplete, h.simulates.entries⟩
  rw [hcontent]
  exact h.simulates.contents key hkey

theorem leaves_dumped (h : Backs b hash s store) (hroot : b.rootDir ≠ "") {d : Disk Key128}
    (hd : Dumped s.world d) : Leaves b hash d store := by
  have hlive := h.simulates.tended.live
  refine h.leaves (Dumped.crashSafe hroot hlive hd)
    (complete_congr hd.images (live_complete hlive)) ?_
  rw [view_congr hd.images]
  rfl

/-- `Close` leaves the map in the snapshot and an empty log, whatever compactions did. -/
theorem leaves_closed (h : Backs b hash s store) (hroot : b.rootDir ≠ "") :
    Leaves b hash (closed b hash s) store := by
  obtain ⟨-, himages, -, hsnapshot, hlog⟩ := indexClosed_files (o := indexOptions b hash) hroot
    s.world
  refine leaves_dumped h hroot ?_
  rw [closed, show s.ctx = some ⟨none⟩ from h.simulates.ctx,
    close_disk (o := indexOptions b hash) hroot h.simulates.tended.live.segs]
  exact ⟨himages, hsnapshot, hlog h.writer⟩

theorem leaves_killed (h : Backs b hash s store) (hsettled : Settled b hash s) :
    Leaves b hash s.world.disk store :=
  h.leaves hsettled.crashSafe (live_complete h.simulates.tended.live) rfl

/-- The files of a process that is killed at the `n`-th point of `Close`. -/
def closing (b : Indexed.Options) (hash : HashPolicy ℕ) (s : Server L) (n : ℕ) : Disk Key128 :=
  let r := run (Indexed.close (indexOptions b hash) s.ctx) s.world
  diskAt r.trace r.state.disk n

theorem leaves_closing (husable : Usable b hash) (h : Backs b hash s store)
    (hsettled : Settled b hash s) (n : ℕ) : Leaves b hash (closing b hash s n) store := by
  have hctx : s.ctx = some ⟨none⟩ := h.simulates.ctx
  rcases diskAt_cases (run (Indexed.close (indexOptions b hash) s.ctx) s.world).trace
    (closed b hash s) n with ⟨e, he, hdisk⟩ | hdisk
  · rw [show closing b hash s n = _ from hdisk]
    rw [hctx] at he
    rcases close_trace_cases (o := indexOptions b hash) husable.root
      ⟨h.simulates.tended.live, h.writer⟩ ⟨none⟩ he with he | hdumped
    · obtain ⟨-, hcomplete, m, hm, hcontent⟩ := (checkpoint_sound hsettled).events e he
      have hsame : value (indexOptions b hash)
          (run (checkpoint (indexOptions b hash)) s.world).state =
            value (indexOptions b hash) s.world := by
        rw [(run_checkpoint (o := indexOptions b hash) husable.root).2]
        rfl
      rw [hsame, or_self] at hcontent
      exact h.leaves hm hcomplete (hcontent rfl)
    · exact leaves_dumped h husable.root hdumped
  · rw [show closing b hash s n = _ from hdisk]
    exact leaves_closed h husable.root

/-- The files of a process that is killed at the `n`-th point of a request. -/
def serving (b : Indexed.Options) (hash : HashPolicy ℕ) (lfu : Lfu L) (s : Server L) (r : Request)
    (n : ℕ) : Disk Key128 :=
  diskAt (s.trace b hash lfu r) (s.serve b hash lfu r).2.world.disk n

/-- A kill inside a request leaves the contents before it or after it. -/
theorem leaves_serving (lfu : Lfu L) (husable : Usable b hash) (h : Backs b hash s store)
    (hsettled : Settled b hash s) (t : Timed) (hr : t.request ≠ .compact)
    (hadmitted : t.request.Admitted b) (n : ℕ) :
    Leaves b hash (serving b hash lfu s t.request n) store ∨
      Leaves b hash (serving b hash lfu s t.request n) (serveMocked t store).2 := by
  have hsound := (request_effect b hash lfu h.simulates.ctx t.request hr).sound
    husable.admissible hsettled
  have hnext := settled_serve lfu husable h hsettled hr
  set d := serving b hash lfu s t.request n with hd
  obtain ⟨hcomplete, m, hm, hcontent⟩ : Complete (indexOptions b hash) d ∧
      ∃ m, CrashSafe (indexOptions b hash) AnyValue d m ∧
        (content (entries m) (view (indexOptions b hash) d) =
            value (indexOptions b hash) s.world ∨
          content (entries m) (view (indexOptions b hash) d) =
            value (indexOptions b hash) (s.serve b hash lfu t.request).2.world) := by
    rcases diskAt_cases (s.trace b hash lfu t.request)
      (s.serve b hash lfu t.request).2.world.disk n with ⟨e, he, hdisk⟩ | hdisk
    · rw [hd.trans hdisk]
      obtain ⟨-, hcomplete, m, hm, hcontent⟩ := hsound.events e he
      exact ⟨hcomplete, m, hm, hcontent rfl⟩
    · rw [hd.trans hdisk]
      exact ⟨live_complete hnext.live, _, hnext.crashSafe, Or.inr rfl⟩
  rcases hcontent with hcontent | hcontent
  · exact Or.inl (h.leaves hm hcomplete hcontent)
  · rcases backs_request lfu husable h t hadmitted (Server.returned_of_ne hr) with ⟨-,
      hbacks⟩ | ⟨-, -, hbacks⟩
    · exact Or.inr (hbacks.leaves hm hcomplete hcontent)
    · exact Or.inl (hbacks.leaves hm hcomplete hcontent)

end ParaKV.Storage.Persistence
