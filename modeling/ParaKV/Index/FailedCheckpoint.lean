/- GID: ParaKV/Index/FailedCheckpoint
   source: parakv/core/index/index.cc
   digest: Put and Delete around checkpoints whose file operations fail. -/

import ParaKV.Index.Faults
import ParaKV.Index.Runs

set_option autoImplicit false

namespace ParaKV.Index.FailedCheckpoint

open Lib.TracedProgram Lib.LogMap Lib.StepRun Index.Key Index.Wal Index.Operations Index.Durability
open Index.Ownership Index.CrashSafety Index.Recovery Index.Runs Index.Faults Segment Segment.Base
open Segment.FileSpec Segment.Manager Core.State

variable {K : Type} {o : Options} {w : World K} {m : Map K}

/-! The segment part of a `Put` knows only the outcomes it draws. -/

theorem local_pwrite (len : ℕ) (upto : ℕ → World K → World K) :
    Local (pwrite len upto) := by
  refine Local.draw.bind fun outcome => ?_
  cases outcome with
  | ok => exact (Local.emit _).bind fun _ => (Local.change _).bind fun _ => Local.ret _
  | fail n => exact (Local.emit _).bind fun _ => (Local.change _).bind fun _ => Local.ret _

theorem local_flushBitmap (id : ℕ) : Local (File.flushBitmap o id : M K Status) :=
  Local.read.bind fun _ => local_pwrite _ _

theorem local_insert (id : ℕ) (key value : Bytes) :
    Local (File.insert o id key value : M K (Status × ℕ)) := by
  refine Local.read.bind fun w => Local.ite (Local.ret _) ?_
  cases SegmentBase.findFreeSlot o.segmentConfig (w.segs id) with
  | none => exact Local.ret _
  | some sid =>
    refine (local_pwrite _ _).bind fun _ => Local.ite (Local.ret _) ?_
    refine (local_pwrite _ _).bind fun _ => Local.ite (Local.ret _) ?_
    refine (Local.change _).bind fun _ => (local_flushBitmap id).bind fun _ => Local.ite ?_ ?_
    · exact (Local.change _).bind fun _ => Local.ret _
    · exact (Local.change _).bind fun _ => Local.ret _

theorem local_getActiveSegment : Local (getActiveSegment o : M K (Option ℕ)) :=
  Local.read.bind fun _ => (Local.change _).bind fun _ => Local.ret _

theorem insert_used (w : World K) (id : ℕ) (key value : Bytes) :
    ((run (File.insert o id key value) w).val.1 = .ok →
      (run (File.insert o id key value) w).used = 3) ∧
    ((run (File.insert o id key value) w).val.1 = .full →
      (run (File.insert o id key value) w).used = 0) ∧
    (run (File.insert o id key value) w).used ≤ 3 := by
  cases hopen : (w.segs id).isOpen with
  | false => simp [File.insert, hopen]
  | true =>
    cases hfree : (w.segs id).findFreeSlot o.segmentConfig with
    | none => simp [File.insert, hopen, hfree]
    | some sid =>
      simp [File.insert, hopen, hfree, File.pwriteKey, File.pwriteValue, File.flushBitmap]

variable [KeyType K]

theorem local_writeToSegment (key : K) (value : Bytes) :
    Local (writeToSegment o key value) := by
  refine local_getActiveSegment.bind fun active => ?_
  cases active with
  | none => exact Local.ret _
  | some seg =>
    refine (local_insert seg _ _).bind fun r => Local.ite ?_ (Local.ite (Local.ret _) (Local.ret _))
    refine (Local.change _).bind fun _ => local_getActiveSegment.bind fun active => ?_
    cases active with
    | none => exact Local.ret _
    | some seg => exact (local_insert seg _ _).bind fun r => Local.ite (Local.ret _) (Local.ret _)

theorem writeToSegment_used (w : World K) (key : K) (value : Bytes) :
    ((run (writeToSegment o key value) w).val.1 = .ok →
      (run (writeToSegment o key value) w).used = 3) ∧
    (run (writeToSegment o key value) w).used ≤ 3 := by
  set w₁ := (run (getActiveSegment o) w).state with hw₁
  have hnone : (run (getActiveSegment o) w).used = 0 := rfl
  cases hactive : (run (getActiveSegment o) w).val with
  | none => simp [writeToSegment, hactive, hnone]
  | some seg =>
    obtain ⟨hok, hfull, hle⟩ := insert_used (o := o) w₁ seg (toBytes key) value
    by_cases hval : (run (File.insert o seg (toBytes key) value) w₁).val.1 = .full
    · set w₂ := (run (markSegmentFull o seg)
        (run (File.insert o seg (toBytes key) value) w₁).state).state with hw₂
      have hused := hfull hval
      have hmark : (run (markSegmentFull o seg)
        (run (File.insert o seg (toBytes key) value) w₁).state).used = 0 := rfl
      have hnone₂ : (run (getActiveSegment o) w₂).used = 0 := rfl
      cases hactive₂ : (run (getActiveSegment o) w₂).val with
      | none =>
        simp [writeToSegment, hactive, ← hw₁, hval, ← hw₂, hactive₂, hnone, hused, hmark, hnone₂]
      | some seg₂ =>
        obtain ⟨hok₂, -, hle₂⟩ := insert_used (o := o) (run (getActiveSegment o) w₂).state seg₂
          (toBytes key) value
        by_cases hval₂ : (run (File.insert o seg₂ (toBytes key) value)
            (run (getActiveSegment o) w₂).state).val.1 = .ok
        · simp [writeToSegment, hactive, ← hw₁, hval, ← hw₂, hactive₂, hnone, hused, hmark, hnone₂,
            hval₂, hok₂ hval₂]
        · simp [writeToSegment, hactive, ← hw₁, hval, ← hw₂, hactive₂, hnone, hused, hmark, hnone₂,
            hval₂, hle₂]
    · by_cases hval' : (run (File.insert o seg (toBytes key) value) w₁).val.1 = .ok
      · simp [writeToSegment, hactive, ← hw₁, hval', hnone, hok hval']
      · simp [writeToSegment, hactive, ← hw₁, hval, hval', hnone, hle]

/-! The outcomes of an operation in which only the checkpoint can fail. -/

/-- Success for the first `n` draws, then the listed outcomes, then success. -/
def outcomes (n : ℕ) (faults : List IoOutcome) (i : ℕ) : IoOutcome :=
  if i < n then .ok else faults.getD (i - n) .ok

theorem outcomes_lt {n i : ℕ} (faults : List IoOutcome) (h : i < n) : outcomes n faults i = .ok :=
  if_pos h

theorem outcomes_shift (n k : ℕ) (faults : List IoOutcome) :
    (fun i => outcomes (n + k) faults (i + k)) = outcomes n faults := by
  funext i
  simp [outcomes, Nat.add_sub_add_right]

theorem outcomes_end {k : ℕ} {faults : List IoOutcome} (h : faults.length ≤ k) :
    (fun i => outcomes 0 faults (i + k)) = fun _ => .ok := by
  funext i
  have hnone : faults[i + k]? = none := List.getElem?_eq_none (by omega)
  simp [outcomes, List.getD, hnone]

/-! What a checkpoint leaves, whichever of its operations fail. -/

variable [DecidableEq K]

/-- Only snapshot and log may have changed; together they hold the live map, and a writer that is
still there stands at the end of the log. -/
structure Kept (o : Options) (w w' : World K) : Prop where
  log : LogOnly w w'
  durable : Durable o w'.disk w.map
  logged : w'.wal ≠ none → Logged o w' w.map

theorem Kept.walOpen {w' : World K} (h : Kept o w w') : WalOpen w' := by
  intro writer hwriter
  exact (h.logged (by simp [hwriter])).walOpen writer hwriter

/-- The records since the last rotation change nothing in the map they led to. -/
theorem durable_snapshotted (hdir : o.snapshotDir ≠ "") (h : Durable o w.disk w.map) :
    Durable o (snapshotted w).disk w.map := by
  obtain ⟨base, recs, torn, hholds, hmap⟩ := h
  refine ⟨w.map, recs, torn, ⟨?_, hholds.wal, hholds.known, hholds.torn⟩, ?_⟩
  · simp [snapshotBase, hdir, snapshotted]
  · refine (mixes_self fun k => ?_).symm
    have hcases := lookup_replay_cases base w.map (recs.map binding) k
    rwa [← hmap] at hcases

theorem logged_truncated (hdir : o.snapshotDir ≠ "") (n : ℕ) :
    Logged o { truncated (snapshotted w) (some ⟨true, 0⟩) with walBytes := n } w.map := by
  refine ⟨w.map, [], ⟨?_, rfl, by simp, kEncodedSize_pos⟩, rfl, rfl⟩
  simp [snapshotBase, hdir, snapshotted, truncated]

theorem checkpoint_kept (io : ℕ → IoOutcome) (hdurable : Durable o w.disk w.map)
    (hlogged : w.wal ≠ none → Logged o w w.map) : Kept o w (checkpoint o io w).state := by
  by_cases hdir : o.snapshotDir = ""
  · rw [(checkpoint_disabled io hdir).2]
    exact ⟨⟨rfl, rfl, rfl, rfl, rfl, rfl⟩, hdurable, hlogged⟩
  rcases checkpoint_cases io (w := w) hdir with ⟨-, -, tmp, hstate⟩ | ⟨-, -, hstate⟩
  · rw [hstate]
    exact ⟨⟨rfl, rfl, rfl, rfl, rfl, rfl⟩, hdurable.congr rfl rfl,
      fun hwal => (hlogged hwal).congr rfl rfl rfl⟩
  rw [hstate]
  have hsnap := durable_snapshotted hdir hdurable
  have hframe : LogOnly w (snapshotted w) := ⟨rfl, rfl, rfl, rfl, rfl, rfl⟩
  have hempty := logged_truncated (w := w) hdir 0
  cases hwal : w.wal with
  | none =>
    rw [(rotateWal_none (fun n => io (n + 2)) (w := snapshotted w) hwal).2]
    exact ⟨hframe, hsnap, fun hne => (hne hwal).elim⟩
  | some writer =>
    rcases rotateWal_cases (fun n => io (n + 2)) (w := snapshotted w) hwal with
      ⟨-, hrotated⟩ | ⟨-, hrotated⟩ | ⟨-, hrotated⟩
    · rw [hrotated]
      exact ⟨⟨rfl, rfl, rfl, rfl, rfl, rfl⟩, hsnap.congr rfl rfl, fun hne => (hne rfl).elim⟩
    · rw [hrotated]
      exact ⟨⟨rfl, rfl, rfl, rfl, rfl, rfl⟩, hempty.durable.congr rfl rfl,
        fun hne => (hne rfl).elim⟩
    · rw [hrotated]
      exact ⟨⟨rfl, rfl, rfl, rfl, rfl, rfl⟩, hempty.durable, fun _ => hempty⟩

theorem rotateWal_used {K : Type} (io : ℕ → IoOutcome) (w : World K) :
    (rotateWal io w).used = if w.wal.isNone then 0 else
      match io 0 with
      | .ok => 2
      | .fail _ => 1 := by
  cases hwal : w.wal with
  | none => simp [rotateWal, hwal]
  | some writer =>
    cases h0 : io 0 with
    | fail n => simp [rotateWal, walOpen, syscall, hwal, h0]
    | ok =>
      cases h1 : io 1 <;> simp [rotateWal, walOpen, syscall, probe, hwal, h0, h1]

theorem checkpoint_used_congr {K : Type} {w : World K} (io : ℕ → IoOutcome) {w' : World K}
    (h : w'.wal.isNone = w.wal.isNone) : (checkpoint o io w').used = (checkpoint o io w).used := by
  by_cases hdir : o.snapshotDir = ""
  · simp [checkpoint, hdir]
  · cases h0 : io 0 with
    | fail n => simp [checkpoint, hdir, dumpSnapshot, h0]
    | ok =>
      cases h1 : io 1 with
      | fail n => simp [checkpoint, hdir, dumpSnapshot, renameSnapshot, syscall, h0, h1]
      | ok =>
        simp [checkpoint, hdir, dumpSnapshot, renameSnapshot, syscall, h0, h1, rotateWal_used, h]

/-! The log append with a checkpoint that may fail. -/

theorem appendWal_outcome {K : Type} [KeyType K] {w : World K} (io : ℕ → IoOutcome)
    {writer : WalWriter} (hwal : w.wal = some writer) (hopen : writer.isOpen = true)
    (h0 : io 0 = .ok) (h1 : io 1 = .ok) (rec : WalRecord K) :
    (appendWal o rec io w).val = .ok ∧
      (appendWal o rec io w).state = (if fires o w
        then (checkpoint o (fun n => io (n + 2)) (appended w writer rec)).state
        else appended w writer rec) ∧
      (appendWal o rec io w).used = 2 + if fires o w
        then (checkpoint o (fun n => io (n + 2)) (appended w writer rec)).used else 0 := by
  have hlength : rec.encode.length = kEncodedSize K := WalRecord.length_encode rec
  have hfires : fires o w = reachesThreshold o (writer.bytesWritten + kEncodedSize K) := by
    simp [fires, sizeAfter, hwal]
  have htake : rec.encode.take (kEncodedSize K) = rec.encode :=
    List.take_of_length_le (le_of_eq hlength)
  rw [hfires]
  cases hreach : reachesThreshold o (writer.bytesWritten + kEncodedSize K) <;>
    simp [appendWal, walAppend, pwrite, probe, hwal, hopen, h0, h1, hlength, htake, hreach,
      appended, World.setWalFile]

theorem appendWal_kept (h : Logged o w m) {rec : WalRecord K} (hknown : rec.type.Known)
    (hmap : write m (binding rec) = w.map) {faults : List IoOutcome}
    (hfaults : faults.length ≤ if fires o w then (checkpoint o (outcomes 0 faults) w).used else 0) :
    (appendWal o rec (outcomes 2 faults) w).val = .ok ∧
      Kept o w (appendWal o rec (outcomes 2 faults) w).state ∧
      (fun n => outcomes 2 faults (n + (appendWal o rec (outcomes 2 faults) w).used)) =
        fun _ => .ok := by
  obtain ⟨base, recs, hholds, rfl, hwal⟩ := h
  obtain ⟨hval, hstate, hused⟩ := appendWal_outcome (o := o) (outcomes 2 faults) hwal rfl
    (outcomes_lt faults (by omega)) (outcomes_lt faults (by omega)) rec
  have hlogged : Logged o (appended w ⟨true, (encodeAll recs).length⟩ rec) w.map :=
    hmap ▸ logged_appended hholds hknown
  have hshift : (fun n => outcomes 2 faults (n + 2)) = outcomes 0 faults :=
    outcomes_shift 0 2 faults
  have hframe : LogOnly w (appended w ⟨true, (encodeAll recs).length⟩ rec) :=
    ⟨rfl, rfl, rfl, rfl, rfl, rfl⟩
  rw [hshift] at hstate hused
  refine ⟨hval, ?_, ?_⟩
  · rw [hstate]
    split_ifs
    · have hkept := checkpoint_kept (outcomes 0 faults) hlogged.durable fun _ => hlogged
      exact ⟨⟨hkept.log.segs, hkept.log.mgr, hkept.log.map, hkept.log.opened, hkept.log.images,
        hkept.log.managerState⟩, hkept.durable, hkept.logged⟩
    · exact ⟨hframe, hlogged.durable, fun _ => hlogged⟩
  · have hend : (fun n => outcomes 2 faults (n + (appendWal o rec (outcomes 2 faults) w).used)) =
        fun n => outcomes 0 faults (n + ((appendWal o rec (outcomes 2 faults) w).used - 2)) := by
      rw [← hshift]
      funext n
      congr 1
      omega
    rw [hend]
    refine outcomes_end ?_
    rw [hused]
    split_ifs at hfaults ⊢
    · rw [checkpoint_used_congr (w := w) _ (by simp [appended, hwal])]
      omega
    · omega

/-! Operations. -/

/-- What holds between the operations: the files have the live map, and a writer that is there
stands at the end of the log. -/
structure Running (o : Options) (w : World K) : Prop where
  live : Live o (fun _ _ => True) w
  durable : Durable o w.disk w.map
  logged : w.wal ≠ none → Logged o w w.map

theorem Running.released {w' : World K} {old : Option UInt64} (hkept : Kept o w w')
    (hr : Released o old w' (run (releaseOld o old) w'))
    (hlive : Live o (fun _ _ => True) (run (releaseOld o old) w').state) :
    Running o (run (releaseOld o old) w').state := by
  obtain ⟨X, -, htouch, -⟩ := hr.writes
  have hmap : (run (releaseOld o old) w').state.map = w.map := hr.map.trans hkept.log.map
  refine ⟨hlive, ?_, fun hne => ?_⟩
  · rw [hmap]
    exact hkept.durable.congr htouch.wal htouch.snapshot
  · rw [hmap]
    exact (hkept.logged (hr.wal ▸ hne)).congr htouch.wal htouch.snapshot hr.wal

/-- The outcomes an operation draws before its checkpoint: key, value and bitmap of a `Put`, then
the record and its `fsync`. -/
def drawsBefore : Op K → ℕ
  | .put _ _ => 5
  | .delete _ => 2
  | _ => 0

def reaches (o : Options) (w : World K) : Op K → Bool
  | .checkpoint => true
  | _ => w.wal.isSome && fires o w

structure Call (K : Type) where
  op : Op K
  faults : List IoOutcome

/-- All draws outside the checkpoint succeed. -/
def Call.perform (o : Options) (c : Call K) (w : World K) :
    Outcome (World K) (Event K) (Option Status) :=
  c.op.program o (outcomes (drawsBefore c.op) c.faults) w

def Call.Confined (o : Options) (w : World K) (c : Call K) : Prop :=
  c.faults.length ≤ if reaches o w c.op then (checkpoint o (outcomes 0 c.faults) w).used else 0

instance (o : Options) (w : World K) (c : Call K) : Decidable (c.Confined o w) :=
  inferInstanceAs (Decidable (_ ≤ _))

theorem installPut_outcome {io : ℕ → IoOutcome} {key : K} {a : UInt64} {w₁ : World K}
    (hw₁ : { w with map := w.map.insert key a } = w₁)
    (hval : (appendWal o (putRecord key a (w.map.lookup key)) io w₁).val = .ok)
    (hrest : (fun n => io (n + (appendWal o (putRecord key a (w.map.lookup key)) io w₁).used)) =
      fun _ => .ok) :
    (installPut o key a io w).state = (run (releaseOld o (w.map.lookup key))
      (appendWal o (putRecord key a (w.map.lookup key)) io w₁).state).state := by
  subst hw₁
  simp [installPut, emplace, hval, hrest, Prog.exec]

theorem running_put (hadm : o.Admissible K) (h : Running o w) (hwal : w.wal ≠ none) (key : K)
    (v : Bytes) {faults : List IoOutcome}
    (hfaults : faults.length ≤ if fires o w then (checkpoint o (outcomes 0 faults) w).used else 0) :
    let r := Operations.put o key v (outcomes 5 faults) w
    Running o r.state ∧ (r.val = .ok → value o r.state key = some v) := by
  intro r
  by_cases hsize : v.length = o.segmentConfig.valueSize
  · obtain ⟨hthree, hle⟩ := writeToSegment_used (o := o) w key v
    have hwrite : writeToSegment o key v (outcomes 5 faults) w = run (writeToSegment o key v) w :=
      (local_writeToSegment key v).exec_eq fun n hn => outcomes_lt faults (by
        have := lt_of_lt_of_le hn hle
        omega)
    obtain ⟨mgr, -, -, hmgr, ⟨s, hs, -, hroom, hval, hstate, -⟩ | ⟨hval, hstate, -⟩⟩ :=
      writeToSegment_spec hadm h.live key v
    · have hused := hthree (by rw [hval])
      obtain ⟨hknown, hbinding⟩ := binding_put key (newAddr w s) (w.map.lookup key)
      have hmap : write w.map (binding (putRecord key (newAddr w s) (w.map.lookup key))) =
          (installed o w mgr s key v).map := by
        rw [hbinding]
        rfl
      have hlogged : Logged o (installed o w mgr s key v) w.map := (h.logged hwal).congr rfl rfl rfl
      have hdraws : (checkpoint o (outcomes 0 faults) (installed o w mgr s key v)).used =
          (checkpoint o (outcomes 0 faults) w).used := checkpoint_used_congr _ rfl
      obtain ⟨hlval, hkept, hrest⟩ := appendWal_kept hlogged hknown hmap (hdraws ▸ hfaults)
      have hpstate := installPut_outcome
        (w := afterInsert o { w with mgr := mgr } s (toBytes key) v) rfl hlval hrest
      have hshift : (fun n => outcomes 5 faults (n + 3)) = outcomes 2 faults :=
        outcomes_shift 2 3 faults
      have hput : r.state = (installPut o key (newAddr w s) (outcomes 2 faults)
            (afterInsert o { w with mgr := mgr } s (toBytes key) v)).state := by
        simp [r, Operations.put, hsize, hwrite, hval, hstate, hused, hshift, newAddr]
      have hr : r.state = (run (releaseOld o (w.map.lookup key))
          (appendWal o (putRecord key (newAddr w s) (w.map.lookup key)) (outcomes 2 faults)
            (installed o w mgr s key v)).state).state := hput.trans hpstate
      obtain ⟨hlive, hvalue⟩ :=
        put_committed hadm h.live hmgr hs hroom trivial hkept.log hkept.walOpen
      rw [hr]
      refine ⟨Running.released hkept (put_released hadm h.live hmgr hs hroom hkept.log).1 hlive,
        fun _ => ?_⟩
      rw [hvalue, Function.update_self]
    · have hne : (run (writeToSegment o key v) w).val.1 ≠ .ok := by
        rcases hval with hval | hval <;> simp [hval]
      have hr : r.state = { w with mgr := mgr } ∧ r.val ≠ .ok := by
        simp [r, Operations.put, hsize, hwrite, hne, hstate]
      rw [hr.1]
      exact ⟨⟨h.live.congr hmgr rfl rfl rfl h.live.wal, h.durable,
        fun hne => (h.logged hne).congr rfl rfl rfl⟩, fun hok => (hr.2 hok).elim⟩
  · have hr : r.state = w ∧ r.val = .invalidArgument := by
      simp [r, Operations.put, hsize]
    rw [hr.1, hr.2]
    exact ⟨h, by simp⟩

theorem running_delete (hadm : o.Admissible K) (h : Running o w) (hwal : w.wal ≠ none) (key : K)
    {faults : List IoOutcome}
    (hfaults : faults.length ≤ if fires o w then (checkpoint o (outcomes 0 faults) w).used else 0) :
    let r := Operations.delete o key (outcomes 2 faults) w
    Running o r.state ∧ (r.val = .ok → value o r.state key = none) := by
  intro r
  cases hk : w.map.lookup key with
  | none =>
    have hr : r.state = w ∧ r.val = .notFound := by
      simp [r, Operations.delete, eraseKey, hk, erase_of_lookup_none hk]
    rw [hr.1, hr.2]
    exact ⟨h, by simp⟩
  | some a =>
    let w₁ : World K := { w with map := w.map.erase key }
    obtain ⟨hknown, hbinding⟩ := binding_delete key a
    have hmap : write w.map (binding (deleteRecord key a)) = w₁.map := by
      rw [hbinding]
      rfl
    have hlogged : Logged o w₁ w.map := (h.logged hwal).congr rfl rfl rfl
    have hdraws : (checkpoint o (outcomes 0 faults) w₁).used =
        (checkpoint o (outcomes 0 faults) w).used := checkpoint_used_congr _ rfl
    obtain ⟨hlval, hkept, hrest⟩ := appendWal_kept hlogged hknown hmap (hdraws ▸ hfaults)
    have hr : r.state = (run (releaseOld o (some a))
        (appendWal o (deleteRecord key a) (outcomes 2 faults) w₁).state).state := by
      simp [r, Operations.delete, eraseKey, hk, w₁, hlval, hrest, releaseOld, Prog.exec]
    obtain ⟨hlive, hvalue⟩ := delete_committed hadm h.live hk hkept.log hkept.walOpen
    obtain ⟨u, hu⟩ := h.live.owns key a hk
    have hlive₁ := (live_erased h.live key).logOnly hkept.log hkept.walOpen
    rw [hr]
    refine ⟨Running.released hkept (releaseOld_spec hadm hlive₁.mgr hlive₁.segs fun b hb =>
      Option.some.inj hb ▸ isSlot_of_view hu) hlive, fun _ => ?_⟩
    rw [hvalue, Function.update_self]

/-- `Put` and `Delete` find a log writer. -/
def Writing (w : World K) (c : Call K) : Prop := c.op = .checkpoint ∨ w.wal ≠ none

instance (w : World K) (c : Call K) : Decidable (Writing w c) :=
  inferInstanceAs (Decidable (_ ∨ _))

/-- The effect that an acknowledged operation promises. -/
def Promised (o : Options) (w : World K) : Op K → Prop
  | .put key v => value o w key = some v
  | .delete key => value o w key = none
  | _ => True

theorem running_call (hadm : o.Admissible K) (h : Running o w) {c : Call K}
    (hplain : c.op.plain = true) (hconfined : c.Confined o w) (hwriting : Writing w c) :
    Running o (c.perform o w).state ∧
      ((c.perform o w).val = some .ok → Promised o (c.perform o w).state c.op) := by
  obtain ⟨op, faults⟩ := c
  cases op with
  | start => cases hplain
  | compact => cases hplain
  | checkpoint =>
    have hkept := checkpoint_kept (outcomes 0 faults) h.durable h.logged
    refine ⟨⟨h.live.logOnly hkept.log hkept.walOpen, ?_, fun hne => ?_⟩, fun _ => trivial⟩
    · exact hkept.log.map.symm ▸ hkept.durable
    · exact hkept.log.map.symm ▸ hkept.logged hne
  | put key v =>
    have hwal : w.wal ≠ none := hwriting.resolve_left (by simp)
    have hsome : w.wal.isSome = true := Option.isSome_iff_ne_none.mpr hwal
    obtain ⟨hrunning, hvalue⟩ := running_put hadm h hwal key v
      (by simpa [Call.Confined, reaches, hsome] using hconfined)
    exact ⟨hrunning, fun hval => hvalue (Option.some.inj hval)⟩
  | delete key =>
    have hwal : w.wal ≠ none := hwriting.resolve_left (by simp)
    have hsome : w.wal.isSome = true := Option.isSome_iff_ne_none.mpr hwal
    obtain ⟨hrunning, hvalue⟩ := running_delete hadm h hwal key
      (by simpa [Call.Confined, reaches, hsome] using hconfined)
    exact ⟨hrunning, fun hval => hvalue (Option.some.inj hval)⟩

/-! Runs. -/

def firstStart (K : Type) [DecidableEq K] [KeyType K] (o : Options) (stateFile : Option Bytes) :
    World K :=
  (run (openStore o) (World.boot { Disk.empty K with managerState := stateFile })).state

/-- `Put`, `Delete` or `Checkpoint` with faults inside the checkpoint only. -/
def faultyStep (o : Options) (w : World K) (c : Call K) : Option (World K) :=
  if c.op.plain = true ∧ c.Confined o w then some (c.perform o w).state else none

theorem running_firstStart (hadm : o.Admissible K) (hpath : o.walPath ≠ "")
    (stateFile : Option Bytes) : Running o (firstStart K o stateFile) := by
  obtain ⟨-, -, -, hok, hstarted⟩ := openStore_spec hadm hpath (crashSafe_initial stateFile)
  have hval := hstarted fun s _ hpresent => by simp [Disk.empty] at hpresent
  obtain ⟨hjournal, hmap⟩ := hok hval
  refine ⟨hjournal.live, ?_, fun _ => ?_⟩
  · exact hmap.symm ▸ hjournal.logged.durable
  · exact hmap.symm ▸ hjournal.logged

theorem running_run (hadm : o.Admissible K) (hpath : o.walPath ≠ "") {stateFile : Option Bytes}
    {calls : List (Call K)}
    (hrun : GuardedRun (faultyStep o) Writing (firstStart K o stateFile) calls w) :
    Running o w := by
  refine hrun.invariant (I := fun _ w => Running o w) (running_firstStart hadm hpath stateFile) ?_
  intro _ w c w' h hwriting hstep
  unfold faultyStep at hstep
  split_ifs at hstep with hcall
  obtain rfl := Option.some.inj hstep
  exact (running_call hadm h hcall.1 hcall.2 hwriting).1

/-- As long as every `Put` and `Delete` finds a log writer, snapshot and log hold the live map after
each of them, whichever operations of the checkpoints fail, and an acknowledged one has its effect
there. -/
theorem acknowledged_survive (hadm : o.Admissible K) (hpath : o.walPath ≠ "")
    {stateFile : Option Bytes} {calls : List (Call K)}
    (hrun : GuardedRun (faultyStep o) Writing (firstStart K o stateFile) calls w) {c : Call K}
    {w' : World K} (hwriting : Writing w c) (hstep : faultyStep o w c = some w') :
    recover o w'.disk = some w'.map ∧ ((c.perform o w).val = some .ok → Promised o w' c.op) := by
  have h := running_run hadm hpath hrun
  unfold faultyStep at hstep
  split_ifs at hstep with hcall
  obtain rfl := Option.some.inj hstep
  obtain ⟨hrunning, hpromised⟩ := running_call hadm h hcall.1 hcall.2 hwriting
  exact ⟨recover_of_durable hadm.keySize hpath hrunning.durable, hpromised⟩

/-- The checkpoint of the first `Put` cannot reopen the log. The second `Put` returns `kOk`, but is
in no file. -/
theorem failed_rotation_loses_put :
    ((perform (faultyStep (smallOptions 4 1)) (firstStart Key64 (smallOptions 4 1) none)
        [⟨.put 0 [0], [.ok, .ok, .fail 0]⟩]).map fun w =>
      let c : Call Key64 := ⟨.put 1 [1], []⟩
      let r := c.perform (smallOptions 4 1) w
      ((faultyStep (smallOptions 4 1) w c).isSome, r.val, (r.state.map.lookup 1).isSome,
        (recover (smallOptions 4 1) r.state.disk).map fun m => (m.lookup 1).isSome)) =
      some (true, some .ok, true, some false) := by
  decide +kernel

/-- Dump and rename fail, then a checkpoint goes through. -/
def stumblingCalls : List (Call Key64) :=
  [⟨.put 0 [0], [.fail 3]⟩, ⟨.delete 0, [.ok, .fail 0]⟩, ⟨.put 1 [1], []⟩, ⟨.checkpoint, [.fail 0]⟩]

def lastCall : Call Key64 := ⟨.put 2 [2], [.ok, .ok, .ok, .fail 0]⟩

theorem acknowledged_survive_stumbling :
    ∃ w w', GuardedRun (faultyStep (smallOptions 4 1)) Writing
        (firstStart Key64 (smallOptions 4 1) none) stumblingCalls w ∧
      faultyStep (smallOptions 4 1) w lastCall = some w' ∧
      recover (smallOptions 4 1) w'.disk = some w'.map ∧
      value (smallOptions 4 1) w' 2 = some [2] := by
  obtain ⟨w, hrun, hw⟩ := exists_guardedRun
    (f := fun w : World Key64 => (decide (Writing w lastCall),
      (faultyStep (smallOptions 4 1) w lastCall).isSome,
      (lastCall.perform (smallOptions 4 1) w).val))
    (show (performGuarded (faultyStep (smallOptions 4 1)) Writing
      (firstStart Key64 (smallOptions 4 1) none) stumblingCalls).map _ =
        some (true, true, some .ok) by decide +kernel)
  obtain ⟨hwriting, hstep, hval⟩ : Writing w lastCall ∧
      (faultyStep (smallOptions 4 1) w lastCall).isSome = true ∧
      (lastCall.perform (smallOptions 4 1) w).val = some .ok := by simpa using hw
  obtain ⟨w', hw'⟩ := Option.isSome_iff_exists.mp hstep
  obtain ⟨hrecover, hpromised⟩ := acknowledged_survive (smallOptions_admissible 1 (by decide))
    (by decide) hrun hwriting hw'
  exact ⟨w, w', hrun, hw', hrecover, hpromised hval⟩

end ParaKV.Index.FailedCheckpoint
