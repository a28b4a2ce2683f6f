/- GID: ParaKV/Storage/Restart
   source: parakv/core/kvcache_storage/index_kvcache_storage_backend.cc
   digest: Closing a backend and opening its directory again: which segments stay usable. -/

import ParaKV.Segment.StateFile
import ParaKV.Index.Bookkeeping
import ParaKV.Storage.Simulation

set_option autoImplicit false

namespace ParaKV.Storage.Restart

open Lib.TracedProgram Lib.HashOrder Lib.LittleEndian Index Index.Key Index.Operations
open Index.Durability Index.Ownership Index.Recovery Index.Runs Index.Bookkeeping Segment
open Segment.Base Segment.FileSpec Segment.Accounting Segment.Manager Segment.ManagerSpec
open Segment.SavedState
open Segment.StateFile (InClass applyState_spec)
open Core.State Storage.Backend Storage.Backend.Indexed Storage.Simulation

variable {K : Type} [DecidableEq K] [KeyType K]

/-! Requests as sequences of index operations. -/

/-- Some operations of a running index lead from one world to the other. -/
inductive Through (o : ParaKV.Core.State.Options) (w : World K) : World K → Prop
  | refl : Through o w w
  | step {w' : World K} (op : Op K) (hop : op ≠ .start) (h : Through o w w') :
      Through o w (run (op.program o) w').state

variable {L : Type} {b : Indexed.Options} {hash : HashPolicy ℕ} {lfu : Lfu L}
variable {o : ParaKV.Core.State.Options}

theorem evict_through (keys : List Key128) {w w' : World Key128} (h : Through o w w') :
    Through o w (run (evict o keys) w').state := by
  induction keys generalizing w' with
  | nil => exact h
  | cons key keys ih => exact ih (h.step (.delete key) (by simp))

theorem lfuInsert_through (key : Key128) (c : Context L) {w w' : World Key128}
    (h : Through o w w') : Through o w (run (lfuInsert lfu o key c) w').state := by
  cases hcache : c.lfu with
  | none => simpa [lfuInsert, hcache] using h
  | some cache =>
    have hevict := evict_through (lfu.insert key cache).2 h
    simpa [lfuInsert, hcache] using hevict

theorem probeExisting_quiet (key : Key128) (opts : WriteOptions) (w : World Key128) :
    (run (probeExisting b o key opts) w).state = w ∧
      (run (probeExisting b o key opts) w).trace = [] := by
  have hget := run_get_quiet (o := o) (w := w) key b.slotValueSize.toNat
  unfold probeExisting
  split_ifs
  · exact ⟨rfl, rfl⟩
  · by_cases hok : (run (Operations.get o key b.slotValueSize.toNat) w).val.1 = .ok
    · simp [hok, hget]
    · by_cases hmiss : (run (Operations.get o key b.slotValueSize.toNat) w).val.1 = .notFound
      · simp [hmiss, hget]
      · simp [hok, hmiss, hget]

theorem probeExisting_state (key : Key128) (opts : WriteOptions) (w : World Key128) :
    (run (probeExisting b o key opts) w).state = w :=
  (probeExisting_quiet key opts w).1

theorem put_through (c : Context L) (key value metadata : Bytes) (opts : WriteOptions)
    (w : World Key128) :
    Through o w (run (Indexed.put b lfu o (some c) key value metadata opts) w).state ∧
      (run (Indexed.put b lfu o (some c) key value metadata opts) w).val.2.isSome = true := by
  cases hkey : Key128.fromString key with
  | none => simp [Indexed.put, hkey, Through.refl]
  | some k =>
    have hstate := probeExisting_state (b := b) (o := o) k opts w
    cases hprobe : (run (probeExisting b o k opts) w).val with
    | some refusal => simp [Indexed.put, hkey, hprobe, hstate, Through.refl]
    | none =>
      cases hpayload : encodePayload b value metadata with
      | error e =>
        obtain ⟨code, err⟩ := e
        simp [Indexed.put, hkey, hprobe, hstate, hpayload, Through.refl]
      | ok payload =>
        have hput : Through o w (run (Operations.put o k payload) w).state :=
          Through.refl.step (.put k payload) (by simp)
        by_cases hval : (run (Operations.put o k payload) w).val = .ok
        · simp [Indexed.put, hkey, hprobe, hstate, hpayload, hval, lfuInsert_through k c hput]
        · simp [Indexed.put, hkey, hprobe, hstate, hpayload, hval, hput]

theorem get_through (c : Context L) (key : Bytes) (opts : ReadOptions) (w : World Key128) :
    Through o w (run (Indexed.get b lfu o (some c) key opts) w).state ∧
      (run (Indexed.get b lfu o (some c) key opts) w).val.2.isSome = true := by
  cases hkey : Key128.fromString key with
  | none => simp [Indexed.get, hkey, Through.refl]
  | some k =>
    have hstate := run_get_state (o := o) (w := w) k b.slotValueSize.toNat
    by_cases hval : (run (Operations.get o k b.slotValueSize.toNat) w).val.1 = .ok
    · cases hdecode : decodePayload (run (Operations.get o k b.slotValueSize.toNat) w).val.2 with
      | error e => simp [Indexed.get, hkey, hstate, hval, hdecode, Through.refl]
      | ok parts => simp [Indexed.get, hkey, hstate, hval, hdecode, Through.refl]
    · simp [Indexed.get, hkey, hstate, hval, Through.refl]

theorem delete_through (c : Context L) (key : Bytes) (w : World Key128) :
    Through o w (run (Indexed.delete lfu o (some c) key) w).state ∧
      (run (Indexed.delete lfu o (some c) key) w).val.2.isSome = true := by
  cases hkey : Key128.fromString key with
  | none => simp [Indexed.delete, hkey, Through.refl]
  | some k =>
    have hdelete : Through o w (run (Operations.delete o k) w).state :=
      Through.refl.step (.delete k) (by simp)
    by_cases hval : (run (Operations.delete o k) w).val = .ok
    · simp [Indexed.delete, hkey, hval, hdelete]
    · simp [Indexed.delete, hkey, hval, hdelete]

theorem serve_through {s : Server L} (hctx : s.ctx.isSome = true) (r : Request) :
    Through (indexOptions b hash) s.world (s.serve b hash lfu r).2.world ∧
      (s.serve b hash lfu r).2.ctx.isSome = true := by
  obtain ⟨c, hc⟩ := Option.isSome_iff_exists.mp hctx
  cases r with
  | put key value metadata opts =>
    simp only [Server.serve, hc]
    exact put_through c key value metadata opts s.world
  | get key opts =>
    simp only [Server.serve, hc]
    exact get_through c key opts s.world
  | delete key =>
    simp only [Server.serve, hc]
    exact delete_through c key s.world
  | compact => exact ⟨Through.refl.step .compact (by simp), hctx⟩

/-! A session, from an empty directory to `Close`, and the start of the next one. -/

def started (b : Indexed.Options) (hash : HashPolicy ℕ) (cache : Option L) : Server L :=
  ⟨(run (createContext b hash) (World.boot (Disk.empty Key128))).state, some ⟨cache⟩⟩

/-- The requests one after the other, as long as each of them returns. -/
def serveAll (b : Indexed.Options) (hash : HashPolicy ℕ) (lfu : Lfu L) (s : Server L)
    (requests : List Request) : Option (Server L) :=
  requests.foldlM (Server.after b hash lfu) s

/-- `Close`, then a new backend over the files that are left. -/
def reopen (b : Indexed.Options) (hash : HashPolicy ℕ) (s : Server L) :
    Outcome (World Key128) (Event Key128) BackendCode :=
  run (createContext b hash)
    (World.boot (run (Indexed.close (indexOptions b hash) s.ctx) s.world).state.disk)

structure Serving (o : ParaKV.Core.State.Options) (w : World K) : Prop where
  tended : Tended o w
  enumerates : Enumerates w.mgr

theorem serving_through (hadm : o.Admissible K) {w w' : World K} (h : Serving o w)
    (hthrough : Through o w w') : Serving o w' := by
  induction hthrough with
  | refl => exact h
  | step op hop _ ih =>
    exact ⟨tended_op hadm ih.tended op hop, shifts_invariant (I := fun w => Enumerates w.mgr)
      (fun _ _ => enumerates_shift) ih.enumerates
      (op_shifts hadm ih.tended.live ih.tended.classified op hop)⟩

theorem serving_serveAll (hadm : (indexOptions b hash).Admissible Key128) (requests : List Request)
    {s s' : Server L} (hctx : s.ctx.isSome = true) (h : Serving (indexOptions b hash) s.world)
    (hserved : serveAll b hash lfu s requests = some s') :
    s'.ctx.isSome = true ∧ Serving (indexOptions b hash) s'.world := by
  induction requests generalizing s with
  | nil =>
    obtain rfl := Option.some.inj hserved
    exact ⟨hctx, h⟩
  | cons r requests ih =>
    obtain ⟨s₁, hafter, hrest⟩ := Option.bind_eq_some_iff.mp hserved
    obtain ⟨rfl, -⟩ := Server.after_eq_some hafter
    obtain ⟨hthrough, hctx'⟩ : Through (indexOptions b hash) s.world
        (s.serve b hash lfu r).2.world ∧ _ := serve_through hctx r
    exact ih hctx' (serving_through hadm h hthrough) hrest

theorem enumerates_openStore {d : Disk K} (hfile : d.managerState = none)
    (hval : (run (openStore o) (World.boot d)).val = .ok) :
    Enumerates (run (openStore o) (World.boot d)).state.mgr := by
  have hopened := openSegments_invariant (o := o) (w := World.boot d)
    (I := fun w => Enumerates w.mgr ∧ w.disk.managerState = none)
    (fun w id _ h => by
      rcases openSegment_cases (o := o) w id with hstate | hstate | hstate | hstate <;>
        rw [hstate] <;> exact h)
    (fun w id h => by
      rcases addSegment_cases (o := o) w id with hstate | ⟨-, hstate⟩ <;> rw [hstate]
      · exact h
      · exact ⟨enumerates_addSegment h.1 id _, h.2⟩)
    (List.range o.segmentCount) (fun id hid => List.mem_range.mp hid)
    ⟨fun id => by simp [World.boot, SegmentManager.fresh], hfile⟩
  rw [(openStore_framed hval).mgr]
  simpa [loadState, hopened.2] using hopened.1

theorem serving_started (hvalid : ensureValidOptions b = .ok) (hroot : b.rootDir ≠ "")
    (hadm : (indexOptions b hash).Admissible Key128) (cache : Option L) :
    Serving (indexOptions b hash) (started b hash cache).world := by
  have hpath : (indexOptions b hash).walPath ≠ "" := walPath_ne
  have hsafe := crashSafe_initial (K := Key128) (o := indexOptions b hash)
    (H := fun _ _ => True) none
  obtain ⟨-, -, -, -, hstarted⟩ := openStore_spec hadm hpath hsafe
  have hval := hstarted fun s _ hpresent => by simp [Disk.empty] at hpresent
  have hworld : (started b hash cache).world =
      (run (openStore (indexOptions b hash)) (World.boot (Disk.empty Key128))).state :=
    (run_createContext hvalid hroot hval).2
  rw [hworld]
  exact ⟨(starts_tended hadm ⟨hsafe, fun hempty => (hpath hempty).elim⟩).1 hval,
    enumerates_openStore rfl hval⟩

/-! What `Close` leaves in the files. -/

theorem closeSegment_disk {id : ℕ} {w : World Key128}
    (hbits : (w.segs id).isOpen = true → (w.disk.images id).bitmap = (w.segs id).bitmap) :
    (run (File.closeSegment o id) w).state.disk = w.disk ∧
      ∀ j, ((run (File.closeSegment o id) w).state.segs j).isOpen = true →
        (run (File.closeSegment o id) w).state.segs j = w.segs j := by
  cases hopen : (w.segs id).isOpen with
  | false => simp [File.closeSegment, hopen]
  | true =>
    have hsame : w.setImage id { w.disk.images id with bitmap := (w.segs id).bitmap } = w := by
      rw [← hbits hopen]
      simp [World.setImage]
    have hstate : (run (File.closeSegment o id) w).state = File.closeDescriptor id w := by
      simp [File.closeSegment, File.flushBitmap, hopen, hsame]
    rw [hstate]
    refine ⟨rfl, fun j hj => ?_⟩
    by_cases hne : j = id
    · subst hne
      simp [File.closeDescriptor] at hj
    · simp [File.closeDescriptor, World.setSegment, hne]

/-- The flushes of the destructors find nothing new to write. -/
theorem destroySegments_disk (ids : List ℕ) {w : World Key128}
    (hbits : ∀ id ∈ ids, (w.segs id).isOpen = true →
      (w.disk.images id).bitmap = (w.segs id).bitmap) :
    (run (destroySegments o ids) w).state.disk = w.disk := by
  induction ids generalizing w with
  | nil => rfl
  | cons id ids ih =>
    obtain ⟨hdisk, hsegs⟩ := closeSegment_disk (o := o) (hbits id (by simp))
    have hrest := ih (w := (run (File.closeSegment o id) w).state) fun j hj hopen => by
      have hj' := hsegs j hopen
      rw [hdisk, hj']
      exact hbits j (by simp [hj]) (hj' ▸ hopen)
    exact hrest.trans hdisk

/-- The world that the index leaves to the destructors of the segments. -/
def indexClosed (o : ParaKV.Core.State.Options) (w : World Key128) : World Key128 :=
  (run (do let _ ← checkpoint o; let _ ← saveState; let _ ← closeIndex
           destroyIndex o : M Key128 Unit) w).state

theorem indexClosed_files (hdir : o.snapshotDir ≠ "") (w : World Key128) :
    (indexClosed o w).segs = w.segs ∧ (indexClosed o w).disk.images = w.disk.images ∧
      (indexClosed o w).disk.managerState = some (serializeState w.mgr) ∧
      (indexClosed o w).disk.snapshot = some (.dump w.map) ∧
      (w.wal.isSome = true → (indexClosed o w).disk.wal = some []) := by
  cases hopened : w.opened <;> cases hwal : w.wal <;>
    simp [indexClosed, run_checkpoint hdir, afterCheckpoint, saveState, closeIndex, destroyIndex,
      hopened, hwal]

theorem close_disk (hdir : o.snapshotDir ≠ "") {w : World Key128} (h : SegmentsOk o w)
    (c : Context L) :
    (run (Indexed.close o (some c)) w).state.disk = (indexClosed o w).disk := by
  obtain ⟨hsegs, himages, -⟩ := indexClosed_files hdir w
  have hstate : (run (Indexed.close o (some c)) w).state =
      (run (destroySegments o (List.range o.segmentCount)) (indexClosed o w)).state := by
    simp [Indexed.close, indexClosed]
  rw [hstate, destroySegments_disk]
  intro id hid _
  rw [hsegs, himages]
  exact (h id (List.mem_range.mp hid)).bitmap

theorem close_files (hdir : o.snapshotDir ≠ "") {w : World Key128} (h : SegmentsOk o w)
    (c : Context L) :
    (run (Indexed.close o (some c)) w).state.disk.images = w.disk.images ∧
      (run (Indexed.close o (some c)) w).state.disk.managerState = some (serializeState w.mgr) ∧
      (run (Indexed.close o (some c)) w).state.disk.snapshot = some (.dump w.map) := by
  obtain ⟨-, himages, hfile, hsnap, -⟩ := indexClosed_files hdir w
  rw [close_disk hdir h c]
  exact ⟨himages, hfile, hsnap⟩

/-! What the next start makes of them. -/

theorem openIndex_val {w : World K} (hkey : o.segmentConfig.keySize = KeyType.size K)
    (hsnap : w.disk.snapshot ≠ some .corrupt) (hopened : w.opened = false) :
    (run (openIndex o) w).val = .ok := by
  have hsnapshot : (run (openSnapshot o) { w with opened := true }).val = .ok := by
    by_cases hdir : o.snapshotDir = ""
    · simp [openSnapshot, hdir]
    · cases hfile : w.disk.snapshot with
      | none => simp [openSnapshot, hdir, hfile]
      | some file =>
        cases file with
        | corrupt => exact absurd hfile hsnap
        | dump m => simp [openSnapshot, hdir, hfile, loadSnapshot]
  have hlog : ∀ w' : World K, (run openLog w').val = .ok := by
    intro w'
    cases hfile : w'.disk.wal <;> simp [openLog, hfile, replayWal]
  by_cases hpath : o.walPath = "" <;>
    simp [openIndex, hopened, hkey, hsnapshot, hpath, hlog, run_openWriter]

structure Closed (o : ParaKV.Core.State.Options) (w : World K) (d : Disk K) : Prop where
  images : d.images = w.disk.images
  stateFile : d.managerState = some (serializeState w.mgr)
  snapshot : d.snapshot ≠ some .corrupt

theorem length_serializeState (m : SegmentManager) : 8 ≤ (serializeState m).length := by
  simp only [serializeState, putU32, List.length_append, length_writeLE]
  omega

/-- The objects come from the bitmaps, the classification from the state file. -/
theorem openStore_closed (hadm : o.Admissible K) {w : World K} {d : Disk K} (h : Serving o w)
    (hlength : w.mgr.fullOrder.length < 2 ^ 32) (hd : Closed o w d) :
    (run (openStore o) (World.boot d)).val = .ok ∧
      (∀ id < o.segmentCount, (run (openStore o) (World.boot d)).state.segs id =
        openedSegment o .fresh (w.disk.images id)) ∧
      ∃ m, Sorted o m ∧ (run (openStore o) (World.boot d)).state.mgr =
        applyState o (run (openStore o) (World.boot d)).state.segs m
          (w.mgr.fullOrder, w.mgr.appendingSet.order, w.mgr.idleSet.order) := by
  have himages : ∀ id < o.segmentCount, SegmentOk o (w.segs id) (d.images id) := fun id hid =>
    hd.images ▸ h.tended.live.segs id hid
  obtain ⟨hval, hdisk, hsegs⟩ := openSegments_rebuilt (o := o) (w := World.boot d)
    (List.range o.segmentCount) List.nodup_range (fun _ _ => rfl)
    (fun id hid => (himages id (List.mem_range.mp hid)).complete)
    (fun id _ => by simp [World.boot, SegmentManager.fresh])
  have hopening := (openSegments_spec (o := o) (d := d) (n := 0) o.segmentCount
    (fun id hid => (himages id (by omega)).imageOk) (opening_boot d)).2.2.1
  rw [← List.range_eq_range', Nat.zero_add] at hopening
  obtain hopened := hopening hval
  set w₁ := (run (openSegments o (List.range o.segmentCount)) (World.boot d)).state with hw₁
  have hparse := parseState_serializeState (encodable_of_enumerates
    (by have := hadm.segments; omega) h.tended.live.mgr h.enumerates hlength)
  have hlong := length_serializeState w.mgr
  set saved := (w.mgr.fullOrder, w.mgr.appendingSet.order, w.mgr.idleSet.order) with hsaved
  have hload : (run (loadState o) w₁).state =
      { w₁ with mgr := applyState o w₁.segs w₁.mgr saved } := by
    simp [loadState, hdisk, hd.stateFile, World.boot, hparse, Nat.not_lt.mpr hlong]
  have hok : (run (openStore o) (World.boot d)).val = .ok := by
    have hindex := openIndex_val (o := o) (w := (run (loadState o) w₁).state) hadm.keySize
      (by rw [hload]; simpa [hdisk, World.boot] using hd.snapshot)
      (by rw [hload]; exact hopened.opened)
    simpa [openStore, hval, ← hw₁] using hindex
  have hframed := openStore_framed hok
  rw [← hw₁, hload] at hframed
  refine ⟨hok, fun id hid => ?_, w₁.mgr,
    ⟨⟨hopened.classified.toRegistered, hopened.segments⟩, hopened.classified⟩, ?_⟩
  · rw [hframed.segs, hsegs id, if_pos (List.mem_range.mpr hid)]
    simp [World.boot, hd.images]
  · rw [hframed.mgr, hframed.segs]

/-! Full segments across the restart. -/

def LastOccupied (o : ParaKV.Core.State.Options) (s : SegmentBase) : Prop :=
  0 < o.totalSlots ∧ s.bitmap (o.totalSlots - 1) = true

instance (o : ParaKV.Core.State.Options) (s : SegmentBase) : Decidable (LastOccupied o s) :=
  inferInstanceAs (Decidable (_ ∧ _))

/-- `GetActiveSegment` comes by the segment, or the segment is a candidate for compaction as soon
as enough of its slots are deleted. -/
def Usable (o : ParaKV.Core.State.Options) (w : World K) (id : ℕ) : Prop :=
  id ∈ w.mgr.idleSet ∨ id ∈ w.mgr.appendingSet ∨
    id ∈ w.mgr.fullSet ∧ ∀ deleted, { w.segs id with deletedSlots := deleted }.needsCompaction
      o.segmentConfig = o.segmentConfig.compactionThreshold.le
        { w.segs id with deletedSlots := deleted }.getDeletedRatio

theorem usable_of_full {K : Type} {w : World K} {id : ℕ} (hclass : InClass w.mgr id)
    (htallied : Tallied o (w.segs id)) (hfull : id ∈ w.mgr.fullSet → (w.segs id).state = .full) :
    Usable o w id := by
  obtain ⟨c, hmem⟩ := hclass
  cases c with
  | idle => exact Or.inl hmem
  | appending => exact Or.inr (Or.inl hmem)
  | full =>
    have hstate := hfull hmem
    have hcursor := (htallied.full_iff.mp hstate).2
    refine Or.inr (Or.inr ⟨hmem, fun deleted => ?_⟩)
    simp [SegmentBase.needsCompaction, hstate, hcursor]

/-- After a session and a restart, the segments in `full_set_` are those in state FULL exactly when
each segment that was in `full_set_` at `Close` had its last slot occupied; then every segment is
still of use. The state file counts the entries of `full_order_` in 32 bits. -/
theorem restart_keeps_segments (lfu : Lfu L) (cache : Option L)
    (hvalid : ensureValidOptions b = .ok) (hroot : b.rootDir ≠ "")
    (hadm : (indexOptions b hash).Admissible Key128) {requests : List Request} {s : Server L}
    (hserved : serveAll b hash lfu (started b hash cache) requests = some s)
    (hlength : s.world.mgr.fullOrder.length < 2 ^ 32) :
    let r := reopen b hash s
    r.val = .ok ∧
      ((∀ id ∈ r.state.mgr.fullSet, (r.state.segs id).state = .full) ↔
        ∀ id ∈ s.world.mgr.fullSet, LastOccupied (indexOptions b hash) (s.world.segs id)) ∧
      ((∀ id ∈ s.world.mgr.fullSet, LastOccupied (indexOptions b hash) (s.world.segs id)) →
        ∀ id < b.segmentCount.toNat, Usable (indexOptions b hash) r.state id) := by
  intro r
  set o := indexOptions b hash with ho
  have hsession : s.ctx.isSome = true ∧ Serving o s.world :=
    serving_serveAll hadm requests rfl (serving_started hvalid hroot hadm cache) hserved
  obtain ⟨hctx, hserving⟩ := hsession
  have hlive := hserving.tended.live
  obtain ⟨c, hc⟩ := Option.isSome_iff_exists.mp hctx
  obtain ⟨himages, hfile, hsnap⟩ := close_files (o := o) hroot hlive.segs c
  obtain ⟨hval, hsegs, m, hm, hmgr⟩ := openStore_closed hadm hserving hlength
    ⟨himages, hfile, by rw [hsnap]; simp⟩
  have hcreate := run_createContext hvalid hroot hval
  rw [← hc] at hcreate hsegs hmgr
  rw [← hcreate.2] at hsegs hmgr
  change ∀ id < o.segmentCount, r.state.segs id = openedSegment o .fresh (s.world.disk.images id)
    at hsegs
  change r.state.mgr = applyState o r.state.segs m _ at hmgr
  have hbits : ∀ id < o.segmentCount, SegmentOk o (s.world.segs id) (s.world.disk.images id) :=
    hlive.segs
  have htallied : ∀ id < o.segmentCount, Tallied o (r.state.segs id) := fun id hid =>
    hsegs id hid ▸ tallied_opened (hbits id hid).imageOk.bound
  have hstate : ∀ id < o.segmentCount,
      ((r.state.segs id).state = .full ↔ LastOccupied o (s.world.segs id)) := by
    intro id hid
    rw [hsegs id hid, openedSegment_full_iff (hbits id hid).imageOk.bound, (hbits id hid).bitmap]
    rfl
  have hreg : ∀ id, id ∈ m.segments ↔ id < o.segmentCount := hm.ok.segments
  have hfull : (∀ id ∈ r.state.mgr.fullSet, (r.state.segs id).state = .full) ↔
      ∀ id ∈ s.world.mgr.fullSet, LastOccupied o (s.world.segs id) := by
    rw [hmgr]
    constructor
    · intro h id hid
      have hlt := (hlive.mgr.segments id).mp (hlive.mgr.full id hid)
      have hsaved := (hserving.enumerates id).mpr hid
      exact (hstate id hlt).mp
        (h id ((applyState_spec r.state.segs m _ id ((hreg id).mpr hlt)).1 hsaved))
    · intro h id hid
      have hok := applyState_ok (o := o) r.state.segs hm.ok
        (s.world.mgr.fullOrder, s.world.mgr.appendingSet.order, s.world.mgr.idleSet.order)
      have hlt := (hok.segments id).mp (hok.full id hid)
      rcases (applyState_spec r.state.segs m _ id ((hreg id).mpr hlt)).2.1 hid with hsaved | hself
      · exact (hstate id hlt).mpr (h id ((hserving.enumerates id).mp hsaved))
      · exact hself
  refine ⟨hcreate.1, hfull, fun hlast id hid => ?_⟩
  have hclass : InClass r.state.mgr id := by
    rw [hmgr]
    exact (applyState_spec r.state.segs m _ id ((hreg id).mpr hid)).2.2
  exact usable_of_full hclass (htallied id hid) (hfull.mpr hlast id)

/-- Four keys fill a segment, a fifth one makes the manager mark it, one of the four goes. -/
def filledThen (n : ℕ) : List Request :=
  ([0, 1, 2, 3, 4].map fun k => .put (keyOf k) [UInt8.ofNat k] [] {}) ++ [.delete (keyOf n)]

/-- The last slot of the marked segment is free at `Close`. The segment comes back in `full_set_`
in state APPENDING: it is never active again, and never compacted. -/
theorem restart_strands_segment :
    ((serveAll smallBackend (frontPolicy ℕ) noCache (started smallBackend (frontPolicy ℕ) none)
      (filledThen 3)).map fun s =>
        let r := reopen smallBackend (frontPolicy ℕ) s
        (r.val, s.world.mgr.fullSet.order, r.state.mgr.fullSet.order, (r.state.segs 1).state)) =
      some (.ok, [1], [1], .appending) := by
  decide +kernel

theorem restart_keeps_segments_front :
    ∃ s, serveAll smallBackend (frontPolicy ℕ) noCache
        (started smallBackend (frontPolicy ℕ) none) (filledThen 0) = some s ∧
      s.world.mgr.fullSet.order = [1] ∧
      ∀ id < smallBackend.segmentCount.toNat, Usable (indexOptions smallBackend (frontPolicy ℕ))
        (reopen smallBackend (frontPolicy ℕ) s).state id := by
  have hadm : (indexOptions smallBackend (frontPolicy ℕ)).Admissible Key128 :=
    ⟨rfl, by decide, by decide⟩
  obtain ⟨s, hserved, hs⟩ := Option.map_eq_some_iff.mp
    (show (serveAll smallBackend (frontPolicy ℕ) noCache (started smallBackend (frontPolicy ℕ) none)
      (filledThen 0)).map (fun s => (s.world.mgr.fullSet.order, s.world.mgr.fullOrder,
        decide (LastOccupied (indexOptions smallBackend (frontPolicy ℕ)) (s.world.segs 1)))) =
      some ([1], [1], true) by decide +kernel)
  simp only [Prod.mk.injEq, decide_eq_true_eq] at hs
  obtain ⟨hfull, horder, hlast⟩ := hs
  refine ⟨s, hserved, hfull, (restart_keeps_segments noCache none (by decide) (by decide) hadm
    hserved (by simp [horder])).2.2 fun id hid => ?_⟩
  have hid' : id ∈ [1] := hfull ▸ hid
  obtain rfl := List.mem_singleton.mp hid'
  exact hlast

end ParaKV.Storage.Restart
