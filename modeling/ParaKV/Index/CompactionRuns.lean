/- GID: ParaKV/Index/CompactionRuns
   source: parakv/core/index/index.cc, parakv/core/segment/segment_manager.cc
   digest: Compaction in sequential runs: the contents it keeps, and when recovery follows it. -/

import ParaKV.Index.Runs

set_option autoImplicit false

namespace ParaKV.Index.CompactionRuns

open Lib.OwnedSlots Lib.StepRun Index.Key Index.Operations Index.Durability Index.Ownership
open Index.CrashSafety Index.Compaction Index.CompactionSafety Index.Recovery Index.Runs
open Segment.FileSpec Segment.ManagerSpec Core.State

variable {K : Type} [DecidableEq K] [KeyType K]
variable {o : Options} {H : K → Bytes → Prop} {w : World K} {d : Disk K} {m : Map K}

/-! Runs without crashes, with or without a log. -/

def Uncrashed (_ : Store K) (a : Act K) : Prop := ∃ op, a = .complete op

instance (s : Store K) (a : Act K) : Decidable (Uncrashed s a) :=
  match a with
  | .complete op => isTrue ⟨op, rfl⟩
  | .crash => isFalse fun ⟨_, h⟩ => by cases h
  | .crashIn _ _ => isFalse fun ⟨_, h⟩ => by cases h

/-- Files a first start, perhaps a failed one, works on. -/
structure Fresh (o : Options) (H : K → Bytes → Prop) (d : Disk K) : Prop where
  safe : CrashSafe o H d ∅
  base : o.walPath = "" → snapshotBase o d = some ∅

theorem openStore_unlogged (hadm : o.Admissible K) (hpath : o.walPath = "")
    (h : CrashSafe o H d m) (hbase : snapshotBase o d = some m) :
    ((run (openStore o) (World.boot d)).val = .ok →
      Live o H (run (openStore o) (World.boot d)).state) ∧
    Touches NoSlot Nothing d (run (openStore o) (World.boot d)).state.disk := by
  obtain ⟨-, htouch, hopening, -⟩ := openSegments_spec (o := o) (d := d) (n := 0)
    o.segmentCount (fun id hid => h.images id (by omega)) (opening_boot d)
  rw [← List.range_eq_range', Nat.zero_add] at *
  by_cases hval : (run (openSegments o (List.range o.segmentCount)) (World.boot d)).val = .ok
  · have hw := hopening hval
    obtain ⟨mgr, hlstate, -, hmgr, -⟩ := loadState_spec (o := o)
      ⟨hw.classified.toRegistered, hw.segments⟩ hw.classified
    have hsnap := run_openSnapshot (o := o) (w := { (run (openSegments o
      (List.range o.segmentCount)) (World.boot d)).state with mgr := mgr, opened := true })
      (by simpa [snapshotBase, htouch.snapshot] using hbase) hw.map
    have hrun : (run (openStore o) (World.boot d)).state = { (run (openSegments o
        (List.range o.segmentCount)) (World.boot d)).state with
        mgr := mgr, opened := true, map := m } := by
      simp [openStore, hval, hlstate, openIndex, hw.opened, hadm.keySize, hsnap, hpath]
    rw [hrun]
    refine ⟨fun _ => ⟨hmgr, hw.done, touches_owns htouch h.owns (avoids_noSlot _),
      touches_stored htouch h.stored fun _ hn => hn.elim, fun writer hwriter => ?_⟩, htouch⟩
    rw [show _ = none from hw.wal] at hwriter
    cases hwriter
  · have hrun : (run (openStore o) (World.boot d)).val ≠ .ok ∧
        (run (openStore o) (World.boot d)).state =
          (run (openSegments o (List.range o.segmentCount)) (World.boot d)).state := by
      simp [openStore, hval]
    rw [hrun.2]
    exact ⟨fun hok => (hrun.1 hok).elim, htouch⟩

theorem starts_fresh (hadm : o.Admissible K) (h : Fresh o H d) :
    Starts o (Live o H) (Fresh o H) d := by
  by_cases hpath : o.walPath = ""
  · have hbase := h.base hpath
    obtain ⟨hlive, htouch⟩ := openStore_unlogged hadm hpath h.safe hbase
    refine ⟨hlive, h.safe.clear htouch (avoids_noSlot _), fun _ => ?_⟩
    simpa [snapshotBase, htouch.snapshot] using hbase
  · obtain ⟨-, hsafe, -, hok, -⟩ := openStore_spec hadm hpath h.safe
    exact ⟨fun hval => (hok hval).1.live, hsafe, fun hempty => (hpath hempty).elim⟩

theorem live_checkpoint (h : Live o H w) : Live o H (run (checkpoint o) w).state := by
  by_cases hdir : o.snapshotDir = ""
  · rw [(run_checkpoint_refused hdir).2.1]
    exact h
  · rw [(run_checkpoint hdir).2]
    refine h.logOnly (logOnly_afterCheckpoint w) fun writer hwriter => ?_
    obtain ⟨_, -, rfl⟩ := Option.map_eq_some_iff.mp hwriter
    rfl

theorem live_op (hadm : o.Admissible K) (h : Live o H w) (op : Op K) (hop : op ≠ .start)
    (hput : ∀ k v, op = .put k v → H k v) : Live o H (run (op.program o) w).state := by
  cases op with
  | start => exact (hop rfl).elim
  | put k v => exact (put_spec hadm h (hput k v rfl)).1
  | delete k => exact (delete_spec hadm h k).1
  | checkpoint => exact live_checkpoint h
  | compact => exact (compaction_spec hadm h).1

theorem live_run (hadm : o.Admissible K) {stateFile : Option Bytes} {acts : List (Act K)}
    {s : Store K} (hrun : GuardedRun (step o) Uncrashed (Store.initial K stateFile) acts s) :
    Phase (Live o fun _ _ => True) (Fresh o fun _ _ => True) s := by
  refine hrun.invariant
    (I := fun _ s => Phase (Live o fun _ _ => True) (Fresh o fun _ _ => True) s)
    (.down ⟨crashSafe_initial stateFile, fun _ => ?_⟩) ?_
  · simp [snapshotBase, Disk.empty]
  · rintro _ s _ s' h ⟨op, rfl⟩ hstep
    refine phase_step h hstep (fun d => starts_fresh hadm) ?_ ?_ ?_ ?_
    · rintro n d e ⟨⟩
    · rintro w ⟨⟩
    · rintro w _ - ⟨⟩ hop hw
      exact live_op hadm hw op hop fun _ _ _ => trivial
    · rintro w _ n e - ⟨⟩

/-! Runs without compaction keep exactly the referenced slots. -/

theorem fills_put (hadm : o.Admissible K) (h : Live o H w)
    (hfills : Fills (entries w.map) (view o w.disk)) (key : K) (v : Bytes) :
    Fills (entries (run (Operations.put o key v) w).state.map)
      (view o (run (Operations.put o key v) w).state.disk) := by
  rcases put_cases hadm h key v with
    ⟨-, ⟨mgr, -, hstate⟩, -⟩ | ⟨mgr, s, hmgr, hs, hroom, -, hstate, -⟩
  · rw [hstate]
    exact hfills
  · have hlog : LogOnly (installed o w mgr s key v)
        (run (logPut o w s key) (installed o w mgr s key v)).state :=
      (run_appendWal_ok (w := installed o w mgr s key v) h.wal _).2.1
    obtain ⟨hr, -⟩ := put_released hadm h hmgr hs hroom hlog
    obtain ⟨X, -, htouch, hat⟩ := hr.writes
    rw [hstate, hr.map, hlog.map]
    change Fills (entries (w.map.insert key (newAddr w s))) _
    rw [entries_insert]
    refine hfills.update fun b k' v' hb => ?_
    have hold : w.map.lookup key ≠ some b := fun heq => by
      rw [hr.cleared b heq] at hb
      cases hb
    have hkept : view o (installed o w mgr s key v).disk b = some (k', v') := by
      rw [← view_congr hlog.images, ← hb]
      exact (touches_view_eq htouch fun ha => hold (hat b ha)).symm
    by_cases hnew : b = newAddr w s
    · left
      rw [hnew, view_installed mgr key v hadm h hs hroom] at hkept
      obtain ⟨rfl, -⟩ := Prod.mk.inj (Option.some.inj hkept)
      exact ⟨by rw [hnew], rfl⟩
    · right
      refine ⟨hold, ?_⟩
      rw [← hkept, touches_view_eq (touches_installed mgr key v h hs)]
      rintro ⟨_, _, ⟨rfl, rfl⟩, rfl⟩
      exact hnew rfl

theorem fills_delete (hadm : o.Admissible K) (h : Live o H w)
    (hfills : Fills (entries w.map) (view o w.disk)) (key : K) :
    Fills (entries (run (Operations.delete o key) w).state.map)
      (view o (run (Operations.delete o key) w).state.disk) := by
  rcases delete_cases (o := o) h.wal key with ⟨-, -, hstate, -⟩ | ⟨a, hk, -, hstate, -⟩
  · rw [hstate]
    exact hfills
  · obtain ⟨u, hu⟩ := h.owns key a hk
    have herased := live_erased h key
    obtain ⟨-, hlog, hwal⟩ := run_appendWal_ok (o := o) herased.wal (deleteRecord key a)
    have hlogged := herased.logOnly hlog hwal
    have hr : Released o (some a) _ _ := releaseOld_spec hadm hlogged.mgr hlogged.segs
      fun b hb => Option.some.inj hb ▸ isSlot_of_view hu
    obtain ⟨X, -, htouch, hat⟩ := hr.writes
    rw [hstate, hr.map, hlog.map, entries_erase]
    refine hfills.update fun b k' v' hb => Or.inr ?_
    have hold : some a ≠ some b := fun heq => by
      rw [hr.cleared b heq] at hb
      cases hb
    refine ⟨fun hb' => hold (hk.symm.trans hb'), ?_⟩
    rw [← hb, touches_view_eq htouch fun ha => hold (hat b ha), view_congr hlog.images]

theorem fills_checkpoint (hfills : Fills (entries w.map) (view o w.disk)) :
    Fills (entries (run (checkpoint o) w).state.map)
      (view o (run (checkpoint o) w).state.disk) := by
  by_cases hdir : o.snapshotDir = ""
  · rw [(run_checkpoint_refused hdir).2.1]
    exact hfills
  · have hlog := logOnly_afterCheckpoint w
    rw [(run_checkpoint hdir).2, hlog.map, view_congr hlog.images]
    exact hfills

theorem fills_plain (hadm : o.Admissible K) (h : Live o H w)
    (hfills : Fills (entries w.map) (view o w.disk)) {op : Op K} (hop : op.plain = true) :
    Fills (entries (run (op.program o) w).state.map)
      (view o (run (op.program o) w).state.disk) := by
  cases op with
  | start => cases hop
  | put k v => exact fills_put hadm h hfills k v
  | delete k => exact fills_delete hadm h hfills k
  | checkpoint => exact fills_checkpoint hfills
  | compact => cases hop

def Unmoved (s : Store K) (a : Act K) : Prop := Uncrashed s a ∧ a ≠ .complete .compact

instance (s : Store K) (a : Act K) : Decidable (Unmoved s a) :=
  inferInstanceAs (Decidable (Uncrashed s a ∧ a ≠ .complete .compact))

/-- A store whose files hold the live map and whose occupied slots are all referenced. -/
def Filled (o : Options) (w : World K) : Prop :=
  Journaled o (fun _ _ => True) w w.map ∧ Fills (entries w.map) (view o w.disk)

theorem filled_plain (hadm : o.Admissible K) (h : Filled o w) (op : Op K)
    (hop : op.plain = true) : Filled o (run (op.program o) w).state := by
  obtain ⟨hjournal, hfills⟩ := h
  obtain ⟨m', hjournal', hm'⟩ := (plain_sound hadm hjournal hop fun _ _ _ => trivial).journaled
  exact ⟨hm' rfl ▸ hjournal', fills_plain hadm hjournal.live hfills hop⟩

def Blank (o : Options) (d : Disk K) : Prop :=
  CrashSafe o (fun _ _ => True) d ∅ ∧ ∀ a, view o d a = none

theorem starts_blank (hadm : o.Admissible K) (hpath : o.walPath ≠ "") (h : Blank o d) :
    Starts o (Filled o) (Blank o) d := by
  obtain ⟨-, hsafe, ⟨hview, -⟩, hok, -⟩ := openStore_spec hadm hpath h.1
  refine ⟨fun hval => ?_, hsafe, fun a => ?_⟩
  · obtain ⟨hjournal, hmap⟩ := hok hval
    refine ⟨hmap.symm ▸ hjournal, fun a k v ha => ?_⟩
    rw [hview, h.2 a] at ha
    cases ha
  · rw [hview]
    exact h.2 a

theorem filled_run (hadm : o.Admissible K) (hpath : o.walPath ≠ "") {stateFile : Option Bytes}
    {acts : List (Act K)} {s : Store K}
    (hrun : GuardedRun (step o) Unmoved (Store.initial K stateFile) acts s) :
    Phase (Filled o) (Blank o) s := by
  refine hrun.invariant (I := fun _ s => Phase (Filled o) (Blank o) s)
    (.down ⟨crashSafe_initial stateFile, fun a => ?_⟩) ?_
  · simp [view, Disk.slot, SegmentImage.slot, Disk.empty]
  · rintro _ s _ s' h ⟨⟨op, rfl⟩, hmoved⟩ hstep
    refine phase_step h hstep (fun d => starts_blank hadm hpath) ?_ ?_ ?_ ?_
    · rintro n d e ⟨⟩
    · rintro w ⟨⟩
    · rintro w _ - ⟨⟩ hop hfilled
      have hplain : op.plain = true := by
        cases op <;> first | rfl | exact (hop rfl).elim | exact (hmoved rfl).elim
      exact filled_plain hadm hfilled op hplain
    · rintro w _ n e - ⟨⟩

/-! One compaction with automatic checkpoints. -/

/-- The occupied slots are exactly the slots of the entries. -/
structure Exact (o : Options) (w : World K) : Prop where
  referenced : ∀ k a, w.map.lookup k = some a → ∃ s < o.segmentCount, ∃ i < o.totalSlots, ∃ v,
    a = encodeSegmentSlot s i ∧ w.disk.slot s i = some ⟨toBytes k, v⟩
  occupied : ∀ s < o.segmentCount, ∀ i slot, w.disk.slot s i = some slot →
    ∃ k, slot.key = toBytes k ∧ w.map.lookup k = some (encodeSegmentSlot s i)

theorem Exact.live (hadm : o.Admissible K) (h : Exact o w) (hmgr : ManagerOk o w.mgr)
    (hsegs : SegmentsOk o w) (hwal : WalOpen w) : Live o (fun _ _ => True) w := by
  refine ⟨hmgr, hsegs, fun k a hk => ?_, fun s hs i slot hslot => ?_, hwal⟩
  · obtain ⟨s, hs, i, hi, v, rfl, hslot⟩ := h.referenced k a hk
    refine ⟨v, ?_⟩
    rw [view_encode hadm _ hs hi, hslot]
    simp [decodeSlot, ofBytes_toBytes]
  · obtain ⟨k, hk, -⟩ := h.occupied s hs i slot hslot
    exact ⟨k, hk, trivial⟩

theorem Exact.tight (h : Exact o w) (X : ℕ → ℕ → Prop) : Tight o X w := by
  intro s i slot hs _ _ hslot
  obtain ⟨k, hk, hentry⟩ := h.occupied s hs i slot hslot
  rw [hk, ofBytes_toBytes, hentry]

theorem Filled.exact (hadm : o.Admissible K) (h : Filled o w) : Exact o w where
  referenced k a hk := by
    obtain ⟨s, hs, i, hi, ha, slot, hslot, hkey, -⟩ := h.1.live.slot_view hk
    obtain ⟨k', hk', -⟩ := h.1.live.stored s hs i slot hslot
    obtain rfl : k' = k := by rw [← hkey, hk', ofBytes_toBytes]
    exact ⟨s, hs, i, hi, slot.value, ha, hslot.trans (by rw [← hk'])⟩
  occupied s hs i slot hslot := by
    obtain ⟨k, hk, -⟩ := h.1.live.stored s hs i slot hslot
    have hok := h.1.live.segs s hs
    have hi : i < o.totalSlots :=
      lt_of_lt_of_le (hok.below i ((hok.slot_isSome i).mpr ⟨slot, hslot⟩)) hok.bound
    refine ⟨k, hk, h.2 _ k slot.value ?_⟩
    rw [view_encode hadm _ hs hi, hslot]
    simp [decodeSlot, hk, ofBytes_toBytes]

theorem fires_eq_false_iff {K : Type} [KeyType K] {w : World K}
    (hbytes : 0 < o.walCheckpointBytes) (hdir : o.snapshotDir ≠ "") :
    fires o w = false ↔ sizeAfter w < o.walCheckpointBytes := by
  simp [fires, reachesThreshold, hbytes, hdir]

/-- After each callback of a compaction the files recover to the live map. -/
def Recoverable (o : Options) (w : World K) : Prop :=
  ∀ e ∈ (run (runAttachedCompaction o) w).trace, Faithful o e

instance (o : Options) (w : World K) : Decidable (Recoverable o w) :=
  inferInstanceAs (Decidable (∀ e ∈ (run (runAttachedCompaction o) w).trace, Faithful o e))

/-- From files that recover to the live map, with exactly the referenced slots occupied, every
callback of a compaction leaves such files if and only if no callback reaches the threshold. -/
theorem compaction_recoverable_iff (hadm : o.Admissible K) (hpath : o.walPath ≠ "")
    (hbytes : 0 < o.walCheckpointBytes) (hdir : o.snapshotDir ≠ "")
    (hmgr : ManagerOk o w.mgr) (hsegs : SegmentsOk o w) (hlogged : Logged o w m)
    (hexact : Exact o w) (hrecover : recover o w.disk = some w.map) :
    Recoverable o w ↔
      ∀ e ∈ (run (runAttachedCompaction o) w).trace, ∀ before key oldEnc newEnc,
        e.label = .moved before key oldEnc newEnc → sizeAfter before < o.walCheckpointBytes := by
  obtain rfl : m = w.map := by
    rw [recover_of_durable hadm.keySize hpath hlogged.durable] at hrecover
    exact Option.some.inj hrecover
  have hlive := hexact.live hadm hmgr hsegs hlogged.walOpen
  have href := compaction_referenced hadm hlive (hexact.tight _)
  obtain ⟨htrace, -⟩ := compaction_sound hadm hpath True ⟨hlive, hlogged, hlive.owns⟩
    fun _ => rfl
  rw [Recoverable, htrace.forall_iff (R := Faithful o) fun e he => (he.faithful trivial).trans
    ⟨fun hmatched => ⟨hmatched.quiet, fun _ => hmatched⟩, fun htracks => htracks.2 trivial⟩]
  refine forall₂_congr fun e he => ?_
  have hmatched := matched_iff_of_referenced (o := o) (href e he)
  simp only [fires_eq_false_iff hbytes hdir] at hmatched
  rw [← hmatched]
  exact ⟨fun htracks => htracks.2 trivial, fun hm => ⟨hm.quiet, fun _ => hm⟩⟩

/-- One slot is left in segment 0 and one is used in segment 1. -/
def sparseRun : List (Act Key64) :=
  [.complete .start] ++ [0, 1, 2, 3].map putKey ++ [0, 1, 2].map deleteKey ++ [putKey 4]

set_option maxRecDepth 100000 in
/-- With a threshold every append reaches, the files keep the old offset of key 3. -/
theorem compaction_not_recoverable :
    ∃ w : World Key64, ManagerOk (smallOptions 4 1) w.mgr ∧ SegmentsOk (smallOptions 4 1) w ∧
      Logged (smallOptions 4 1) w w.map ∧ Exact (smallOptions 4 1) w ∧
      recover (smallOptions 4 1) w.disk = some w.map ∧
      ¬ Recoverable (smallOptions 4 1) w := by
  obtain ⟨s, hrun, hs⟩ := exists_guardedRun
    (f := fun s : Store Key64 => (s.up, decide (Recoverable (smallOptions 4 1) s.world)))
    (show (performGuarded (step (smallOptions 4 1)) Unmoved
      (Store.initial Key64 none) sparseRun).map _ = some (true, false) by decide +kernel)
  obtain ⟨hup, hunfaithful⟩ := Prod.mk.inj hs
  have hadm : (smallOptions 4 1).Admissible Key64 := smallOptions_admissible 1 (by decide)
  have hfilled := (filled_run hadm (by decide) hrun).world hup
  exact ⟨s.world, hfilled.1.live.mgr, hfilled.1.live.segs, hfilled.1.logged, hfilled.exact hadm,
    recover_of_durable hadm.keySize (by decide) hfilled.1.logged.durable,
    of_decide_eq_false hunfaithful⟩

set_option maxRecDepth 100000 in
theorem compaction_recoverable_iff_sparse :
    ∃ w : World Key64, recover (smallOptions 4 1000) w.disk = some w.map ∧
      Recoverable (smallOptions 4 1000) w ∧
      ∀ e ∈ (run (runAttachedCompaction (smallOptions 4 1000)) w).trace,
        ∀ before key oldEnc newEnc, e.label = .moved before key oldEnc newEnc →
          sizeAfter before < 1000 := by
  obtain ⟨s, hrun, hs⟩ := exists_guardedRun
    (f := fun s : Store Key64 => (s.up, decide (Recoverable (smallOptions 4 1000) s.world)))
    (show (performGuarded (step (smallOptions 4 1000)) Unmoved
      (Store.initial Key64 none) sparseRun).map _ = some (true, true) by decide +kernel)
  obtain ⟨hup, hfaithful⟩ := Prod.mk.inj hs
  have hadm : (smallOptions 4 1000).Admissible Key64 := smallOptions_admissible 1000 (by decide)
  have hfilled := (filled_run hadm (by decide) hrun).world hup
  have hrecover := recover_of_durable hadm.keySize (by decide) hfilled.1.logged.durable
  exact ⟨s.world, hrecover, of_decide_eq_true hfaithful,
    (compaction_recoverable_iff hadm (by decide) (by decide) (by decide) hfilled.1.live.mgr
      hfilled.1.live.segs hfilled.1.logged (hfilled.exact hadm) hrecover).mp
      (of_decide_eq_true hfaithful)⟩

/-! Runs with compactions and without automatic checkpoints. -/

/-- The compactions that complete find every slot they move referenced. -/
def ReferencedAct (o : Options) (s : Store K) : Act K → Prop
  | .complete op => ∀ e ∈ (run (op.program o) s.world).trace, Referenced e
  | _ => True

instance (o : Options) (s : Store K) (a : Act K) : Decidable (ReferencedAct o s a) :=
  match a with
  | .complete op =>
    inferInstanceAs (Decidable (∀ e ∈ (run (op.program o) s.world).trace, Referenced e))
  | .crash => isTrue trivial
  | .crashIn _ _ => isTrue trivial

theorem quiet_of_disabled (hbytes : o.walCheckpointBytes = 0) (e : Event K) : Quiet o e := by
  obtain ⟨_ | ⟨before, key, oldEnc, newEnc⟩, w'⟩ := e
  · trivial
  · rintro ⟨hfires, -⟩
    simp [fires, reachesThreshold, hbytes] at hfires

theorem tracks_of_disabled (hbytes : o.walCheckpointBytes = 0) {e : Event K}
    (href : Referenced e) : Tracks o True e := by
  refine ⟨quiet_of_disabled hbytes e, fun _ => (matched_iff_of_referenced href).mpr ?_⟩
  intro before key oldEnc newEnc _
  simp [fires, reachesThreshold, hbytes]

def Replayed (o : Options) (w : World K) : Prop := Journaled o (fun _ _ => True) w w.map

theorem replayed_op (hadm : o.Admissible K) (hpath : o.walPath ≠ "")
    (hbytes : o.walCheckpointBytes = 0) (h : Replayed o w) (op : Op K) (hop : op ≠ .start)
    (href : ∀ e ∈ (run (op.program o) w).trace, Referenced e) :
    Replayed o (run (op.program o) w).state := by
  by_cases hplain : op.plain = true
  · obtain ⟨m', hjournal, hm'⟩ := (plain_sound hadm h hplain fun _ _ _ => trivial).journaled
    obtain rfl := hm' rfl
    exact hjournal
  · obtain rfl : op = .compact := by
      cases op <;> first | rfl | exact (hop rfl).elim | exact (hplain rfl).elim
    obtain ⟨-, hend⟩ := compaction_sound hadm hpath True h fun _ => rfl
    obtain ⟨m', hjournal, hm'⟩ := hend fun e he => tracks_of_disabled hbytes (href e he)
    obtain rfl := hm' trivial
    exact hjournal

theorem replayed_step (hadm : o.Admissible K) (hpath : o.walPath ≠ "")
    (hbytes : o.walCheckpointBytes = 0) {s s' : Store K} {a : Act K}
    (h : Phase (Replayed o) (Left o fun _ _ => True) s) (href : ReferencedAct o s a)
    (hstep : step o s a = some s') : Phase (Replayed o) (Left o fun _ _ => True) s' := by
  refine phase_step h hstep (fun d hd => ?_)
    (fun n d e _ hd he => left_startIn hadm hpath hd he) ?_ ?_ ?_
  · obtain ⟨m, hm⟩ := hd
    obtain ⟨-, hsafe, -, hok, -⟩ := openStore_spec hadm hpath hm
    refine ⟨fun hval => ?_, m, hsafe⟩
    obtain ⟨hjournal, rfl⟩ := hok hval
    exact hjournal
  · exact fun w _ hw => ⟨w.map, Journaled.crashSafe hw⟩
  · rintro w op rfl rfl hop hw
    exact replayed_op hadm hpath hbytes hw op hop href
  · rintro w op n e rfl rfl hop hw he
    exact (op_safe hadm hpath hw op hop fun _ _ _ => trivial).1.getElem n e he
      fun e _ => quiet_of_disabled hbytes e

/-- In a run whose compactions move referenced slots only, the files recover to the live map at
the end of every operation. -/
theorem recover_eq_live (hadm : o.Admissible K) (hpath : o.walPath ≠ "")
    (hbytes : o.walCheckpointBytes = 0) {stateFile : Option Bytes} {acts : List (Act K)}
    {s : Store K}
    (hrun : GuardedRun (step o) (ReferencedAct o) (Store.initial K stateFile) acts s)
    (hup : s.up = true) : recover o s.world.disk = some s.world.map := by
  have hphase := hrun.invariant
    (I := fun _ s => Phase (Replayed o) (Left o fun _ _ => True) s)
    (.down ⟨∅, crashSafe_initial stateFile⟩)
    fun _ _ _ _ h href hstep => replayed_step hadm hpath hbytes h href hstep
  exact recover_of_durable hadm.keySize hpath (hphase.world hup).logged.durable

/-- Segment 1 has room for one of the two slots left in segment 0. -/
def fullRun : List (Act Key64) :=
  [.complete .start] ++ (List.range 8).map putKey ++ [0, 1, 2, 3, 4, 5].map deleteKey ++
    [10, 11, 12, 13, 14, 15, 16].map putKey

/-- The first compaction stops after it moved key 6, whose old slot stays occupied. The second
one finds room and logs that slot again, after key 6 was deleted. -/
def staleRun : List (Act Key64) :=
  fullRun ++ [.complete .compact, deleteKey 6, putKey 17, .complete .compact]

set_option maxRecDepth 100000 in
/-- A deleted key comes back at the next start. -/
theorem recover_revives_deleted :
    ((perform (step (smallOptions 8 0)) (Store.initial Key64 none) staleRun).map fun s =>
      (s.up, s.world.map.lookup 6,
        ((recover (smallOptions 8 0) s.world.disk).bind (·.lookup 6)).isSome)) =
      some (true, none, true) := by
  decide +kernel

set_option maxRecDepth 100000 in
theorem recover_eq_live_refill :
    ∃ s, GuardedRun (step (smallOptions 4 0)) (ReferencedAct (smallOptions 4 0))
        (Store.initial Key64 none) refillRun s ∧ s.up = true ∧
      recover (smallOptions 4 0) s.world.disk = some s.world.map := by
  obtain ⟨s, hrun, hup⟩ := exists_guardedRun (f := fun s : Store Key64 => s.up)
    (show (performGuarded (step (smallOptions 4 0)) (ReferencedAct (smallOptions 4 0))
      (Store.initial Key64 none) refillRun).map _ = some true by decide +kernel)
  exact ⟨s, hrun, hup, recover_eq_live (smallOptions_admissible 0 (by decide)) (by decide) rfl
    hrun hup⟩

end ParaKV.Index.CompactionRuns
