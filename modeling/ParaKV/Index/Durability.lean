/- GID: ParaKV/Index/Durability
   source: parakv/core/index/index.cc, parakv/core/index/wal.cc
   digest: The map the snapshot and the log hold, through appends, checkpoints and recovery. -/

import ParaKV.Index.Operations

set_option autoImplicit false

namespace ParaKV.Index.Durability

open Lib.TracedProgram Lib.LogMap Index.Key Index.Wal Index.Operations Core.State

variable {K : Type} [DecidableEq K] [KeyType K]

/-- The binding a record of a known type replays. -/
def binding (rec : WalRecord K) : Binding K UInt64 :=
  (rec.key, match rec.type with
    | .delete => none
    | _ => some rec.diskAddr)

theorem applyRecord_eq_write {K : Type} [DecidableEq K] (m : Map K) (rec : WalRecord K)
    (h : rec.type.Known) :
    applyRecord m rec = write m (binding rec) := by
  obtain ⟨type, key, diskAddr, oldDiskAddr⟩ := rec
  cases type with
  | insert => rfl
  | update => rfl
  | delete => rfl
  | unknown b => exact (h b rfl).elim

theorem foldl_applyRecord {K : Type} [DecidableEq K] (m : Map K) (recs : List (WalRecord K))
    (h : ∀ rec ∈ recs, rec.type.Known) :
    recs.foldl applyRecord m = replay m (recs.map binding) := by
  induction recs generalizing m with
  | nil => rfl
  | cons rec recs ih =>
    rw [List.foldl_cons, applyRecord_eq_write m rec (h rec (by simp)),
      ih _ fun r hr => h r (by simp [hr])]
    rfl

/-! The files. -/

def snapshotBase (o : Options) (d : Disk K) : Option (Map K) :=
  if o.snapshotDir = "" then some ∅
  else match d.snapshot with
    | none => some ∅
    | some (.dump m) => some m
    | some .corrupt => none

/-- A snapshot of `base` and a log of `recs` that may end in a torn record. -/
structure Holds (o : Options) (d : Disk K) (base : Map K) (recs : List (WalRecord K))
    (torn : Bytes) : Prop where
  base : snapshotBase o d = some base
  wal : d.wal.getD [] = encodeAll recs ++ torn
  known : ∀ rec ∈ recs, rec.type.Known
  torn : torn.length < kEncodedSize K

/-- The files recover to `m`. -/
def Durable (o : Options) (d : Disk K) (m : Map K) : Prop :=
  ∃ base recs torn, Holds o d base recs torn ∧ m = replay base (recs.map binding)

/-- The files recover to `m`, and the writer stands at the end of a log of whole records. -/
def Logged (o : Options) (w : World K) (m : Map K) : Prop :=
  ∃ base recs, Holds o w.disk base recs [] ∧ m = replay base (recs.map binding) ∧
    w.wal = some ⟨true, (encodeAll recs).length⟩

def WalOpen (w : World K) : Prop := ∀ writer, w.wal = some writer → writer.isOpen = true

variable {o : Options} {w : World K} {m : Map K}

theorem Logged.durable (h : Logged o w m) : Durable o w.disk m := by
  obtain ⟨base, recs, hholds, hm, -⟩ := h
  exact ⟨base, recs, [], hholds, hm⟩

theorem Logged.walOpen (h : Logged o w m) : WalOpen w := by
  obtain ⟨base, recs, -, -, hwal⟩ := h
  intro writer hwriter
  rw [hwal] at hwriter
  cases hwriter
  rfl

theorem Holds.congr {K : Type} [KeyType K] {d d' : Disk K} {base : Map K}
    {recs : List (WalRecord K)} {torn : Bytes} (h : Holds o d base recs torn)
    (hwal : d'.wal = d.wal) (hsnap : d'.snapshot = d.snapshot) :
    Holds o d' base recs torn := by
  refine ⟨?_, ?_, h.known, h.torn⟩
  · unfold snapshotBase
    rw [hsnap]
    exact h.base
  · rw [hwal]
    exact h.wal

theorem Durable.congr {d d' : Disk K} (h : Durable o d m) (hwal : d'.wal = d.wal)
    (hsnap : d'.snapshot = d.snapshot) : Durable o d' m := by
  obtain ⟨base, recs, torn, hholds, hm⟩ := h
  exact ⟨base, recs, torn, hholds.congr hwal hsnap, hm⟩

theorem Logged.congr {w' : World K} (h : Logged o w m) (hwal : w'.disk.wal = w.disk.wal)
    (hsnap : w'.disk.snapshot = w.disk.snapshot) (hwriter : w'.wal = w.wal) :
    Logged o w' m := by
  obtain ⟨base, recs, hholds, hm, hw⟩ := h
  exact ⟨base, recs, hholds.congr hwal hsnap, hm, hwriter.trans hw⟩

/-- The second world differs from the first in the log, the snapshot and the writer only. -/
structure LogOnly (w w' : World K) : Prop where
  segs : w'.segs = w.segs
  mgr : w'.mgr = w.mgr
  map : w'.map = w.map
  opened : w'.opened = w.opened
  images : w'.disk.images = w.disk.images
  managerState : w'.disk.managerState = w.disk.managerState

/-! Appending one record. -/

/-- The log size `AppendWal` compares with the threshold after one more record. -/
def sizeAfter (w : World K) : ℕ :=
  (match w.wal with
    | some writer => writer.bytesWritten
    | none => 0) + kEncodedSize K

def fires (o : Options) (w : World K) : Bool := reachesThreshold o (sizeAfter w)

theorem snapshotDir_of_fires {K : Type} [KeyType K] {w : World K} (h : fires o w = true) :
    o.snapshotDir ≠ "" := by
  simp only [fires, reachesThreshold, Bool.and_eq_true, decide_eq_true_eq] at h
  exact h.2

theorem writeAt_end (file b : Bytes) : writeAt file file.length b = file ++ b := by
  simp [writeAt]

theorem run_walAppend {K : Type} [KeyType K] {w : World K} {writer : WalWriter}
    (hopen : writer.isOpen = true) (rec : WalRecord K) :
    (run (walAppend writer rec) w).val = .ok ∧
      (run (walAppend writer rec) w).state = { w.setWalFile (some (writeAt
        (w.disk.wal.getD []) writer.bytesWritten rec.encode)) with
        wal := some { writer with bytesWritten := writer.bytesWritten + kEncodedSize K } } ∧
      (run (walAppend writer rec) w).trace = (List.range (kEncodedSize K + 1)).map fun n =>
        ⟨.io, w.setWalFile (some (writeAt (w.disk.wal.getD []) writer.bytesWritten
          (rec.encode.take n)))⟩ := by
  have htake : rec.encode.take (kEncodedSize K) = rec.encode :=
    List.take_of_length_le (le_of_eq (WalRecord.length_encode rec))
  simp [walAppend, hopen, htake]

theorem walAppend_length {K : Type} [KeyType K] {w : World K} {writer : WalWriter}
    (hopen : writer.isOpen = true) (rec : WalRecord K) :
    (run (walAppend writer rec) w).trace.length = kEncodedSize K + 1 := by
  rw [(run_walAppend hopen rec).2.2]
  simp

def afterCheckpoint (w : World K) : World K :=
  { w with
    disk := { w.disk with
      snapshot := some (.dump w.map), snapshotTmp := none,
      wal := if w.wal.isNone then w.disk.wal else some [] }
    wal := w.wal.map fun _ => ⟨true, 0⟩
    walBytes := if w.wal.isNone then w.walBytes else 0 }

theorem run_checkpoint {K : Type} {w : World K} (hdir : o.snapshotDir ≠ "") :
    (run (checkpoint o) w).val = .ok ∧ (run (checkpoint o) w).state = afterCheckpoint w := by
  cases hwal : w.wal with
  | none => simp [checkpoint, dumpSnapshot, renameSnapshot, rotateWal, hdir, hwal, afterCheckpoint]
  | some writer =>
    simp [checkpoint, dumpSnapshot, renameSnapshot, rotateWal, walOpen, hdir, hwal,
      afterCheckpoint, World.setWalFile]

theorem run_checkpoint_refused {K : Type} {w : World K} (hdir : o.snapshotDir = "") :
    (run (checkpoint o) w).val = .invalidArgument ∧ (run (checkpoint o) w).state = w ∧
      (run (checkpoint o) w).trace = [] := by
  simp [checkpoint, hdir]

theorem checkpoint_label {K : Type} (w : World K) :
    ∀ e ∈ (run (checkpoint o) w).trace, e.label = .io := by
  by_cases hdir : o.snapshotDir = ""
  · simp [checkpoint, hdir]
  · cases hwal : w.wal <;>
      simp [checkpoint, dumpSnapshot, renameSnapshot, rotateWal, walOpen, hdir, hwal,
        World.setWalFile]

def Mixes (m n m' : Map K) : Prop := ∀ k, m'.lookup k = m.lookup k ∨ m'.lookup k = n.lookup k

/-- A point at which only log and snapshot have changed, and recovery gives a map in `P`. -/
structure LogEvent (o : Options) (w : World K) (P : Map K → Prop) (e : Event K) : Prop where
  label : e.label = .io
  images : e.world.disk.images = w.disk.images
  managerState : e.world.disk.managerState = w.disk.managerState
  recovers : ∃ m', Durable o e.world.disk m' ∧ P m'

theorem logged_afterCheckpoint (h : Logged o w m) (hdir : o.snapshotDir ≠ "") :
    Logged o (afterCheckpoint w) w.map := by
  obtain ⟨base, recs, -, -, hwal⟩ := h
  refine ⟨w.map, [], ⟨?_, ?_, by simp, kEncodedSize_pos⟩, rfl, ?_⟩
  · simp [snapshotBase, hdir, afterCheckpoint]
  · simp [afterCheckpoint, hwal]
  · simp [afterCheckpoint, hwal]

theorem logOnly_afterCheckpoint {K : Type} (w : World K) : LogOnly w (afterCheckpoint w) :=
  ⟨rfl, rfl, rfl, rfl, rfl, rfl⟩

theorem checkpoint_trace {K : Type} {w : World K} (hdir : o.snapshotDir ≠ "") {writer : WalWriter}
    (hwal : w.wal = some writer) :
    (run (checkpoint o) w).trace =
      [⟨.io, { w with disk := { w.disk with snapshotTmp := some .corrupt } }⟩,
        ⟨.io, { w with disk := { w.disk with snapshotTmp := some (.dump w.map) } }⟩,
        ⟨.io, { w with disk := { w.disk with
          snapshot := some (.dump w.map), snapshotTmp := none } }⟩,
        ⟨.io, { w with
          disk := { w.disk with
            snapshot := some (.dump w.map), snapshotTmp := none, wal := some [] }
          wal := none }⟩] := by
  simp [checkpoint, dumpSnapshot, renameSnapshot, rotateWal, walOpen, hdir, hwal, World.setWalFile]

/-- Before the rename a checkpoint recovers to the old map. Between the rename and the
truncation the whole log is replayed over the new snapshot. -/
theorem checkpoint_events (h : Logged o w m) (hdir : o.snapshotDir ≠ "") :
    ∀ e ∈ (run (checkpoint o) w).trace, LogEvent o w (Mixes m w.map) e := by
  obtain ⟨base, recs, hholds, hm, hwal⟩ := h
  have hold : Mixes m w.map m := fun k => Or.inl rfl
  rw [checkpoint_trace hdir hwal]
  intro e he
  simp only [List.mem_cons, List.not_mem_nil, or_false] at he
  rcases he with rfl | rfl | rfl | rfl
  · exact ⟨rfl, rfl, rfl, m, ⟨base, recs, [], hholds.congr rfl rfl, hm⟩, hold⟩
  · exact ⟨rfl, rfl, rfl, m, ⟨base, recs, [], hholds.congr rfl rfl, hm⟩, hold⟩
  · refine ⟨rfl, rfl, rfl, _, ⟨w.map, recs, [], ⟨?_, hholds.wal, hholds.known, hholds.torn⟩,
      rfl⟩, fun k => ?_⟩
    · simp [snapshotBase, hdir]
    · rw [hm]
      exact lookup_replay_cases base w.map (recs.map binding) k
  · refine ⟨rfl, rfl, rfl, w.map, ⟨w.map, [], [], ⟨?_, ?_, by simp, kEncodedSize_pos⟩, rfl⟩,
      fun k => Or.inr rfl⟩
    · simp [snapshotBase, hdir]
    · simp

/-! `AppendWal`. -/

def appended (w : World K) (writer : WalWriter) (rec : WalRecord K) : World K :=
  { w.setWalFile (some (writeAt (w.disk.wal.getD []) writer.bytesWritten rec.encode)) with
    wal := some { writer with bytesWritten := writer.bytesWritten + kEncodedSize K }
    walBytes := writer.bytesWritten + kEncodedSize K }

theorem run_appendWal {K : Type} [KeyType K] {w : World K} {writer : WalWriter}
    (hwal : w.wal = some writer) (hopen : writer.isOpen = true) (rec : WalRecord K) :
    (run (appendWal o rec) w).val = .ok ∧
      (run (appendWal o rec) w).state =
        (if fires o w then afterCheckpoint (appended w writer rec) else appended w writer rec) ∧
      (run (appendWal o rec) w).trace = (run (walAppend writer rec) w).trace ++
        if fires o w then (run (checkpoint o) (appended w writer rec)).trace else [] := by
  obtain ⟨hval, hstate, -⟩ := run_walAppend (w := w) hopen rec
  have hfires : fires o w = reachesThreshold o (writer.bytesWritten + kEncodedSize K) := by
    simp [fires, sizeAfter, hwal]
  cases hf : fires o w with
  | false => simp [appendWal, hwal, hval, hstate, ← hfires, hf, appended]
  | true =>
    have hcheckpoint := run_checkpoint (w := appended w writer rec) (snapshotDir_of_fires hf)
    unfold appended at hcheckpoint
    simp [appendWal, hwal, hval, hstate, ← hfires, hf, appended, hcheckpoint]

theorem run_appendWal_none {K : Type} [KeyType K] {w : World K} (hwal : w.wal = none)
    (rec : WalRecord K) :
    (run (appendWal o rec) w).val = .ok ∧ (run (appendWal o rec) w).state = w ∧
      (run (appendWal o rec) w).trace = [] := by
  simp [appendWal, hwal]

theorem run_appendWal_ok {K : Type} [KeyType K] {w : World K} (h : WalOpen w) (rec : WalRecord K) :
    (run (appendWal o rec) w).val = .ok ∧ LogOnly w (run (appendWal o rec) w).state ∧
      WalOpen (run (appendWal o rec) w).state := by
  cases hwal : w.wal with
  | none =>
    obtain ⟨hval, hstate, -⟩ := run_appendWal_none (o := o) hwal rec
    rw [hstate]
    exact ⟨hval, ⟨rfl, rfl, rfl, rfl, rfl, rfl⟩, h⟩
  | some writer =>
    obtain ⟨hval, hstate, -⟩ := run_appendWal (o := o) hwal (h writer hwal) rec
    refine ⟨hval, ?_⟩
    rw [hstate]
    split_ifs
    · refine ⟨⟨rfl, rfl, rfl, rfl, rfl, rfl⟩, fun writer' hw => ?_⟩
      obtain rfl : ⟨true, 0⟩ = writer' := by simpa [afterCheckpoint, appended] using hw
      rfl
    · refine ⟨⟨rfl, rfl, rfl, rfl, rfl, rfl⟩, fun writer' hw => ?_⟩
      obtain rfl : { writer with bytesWritten := writer.bytesWritten + kEncodedSize K } =
        writer' := by simpa [appended] using hw
      exact h writer hwal

theorem appendWal_label {K : Type} [KeyType K] {w : World K} (h : WalOpen w) (rec : WalRecord K) :
    ∀ e ∈ (run (appendWal o rec) w).trace, e.label = .io := by
  intro e he
  cases hwal : w.wal with
  | none =>
    rw [(run_appendWal_none hwal rec).2.2] at he
    cases he
  | some writer =>
    rw [(run_appendWal hwal (h writer hwal) rec).2.2,
      (run_walAppend (h writer hwal) rec).2.2] at he
    rcases List.mem_append.mp he with he | he
    · obtain ⟨n, -, rfl⟩ := List.mem_map.mp he
      rfl
    · split_ifs at he
      · exact checkpoint_label _ e he
      · cases he

theorem replay_snoc {K : Type} [DecidableEq K] (base : Map K) (recs : List (WalRecord K))
    (rec : WalRecord K) :
    replay base ((recs ++ [rec]).map binding) =
      write (replay base (recs.map binding)) (binding rec) := by
  rw [List.map_append, replay_append]
  rfl

theorem logged_appended {base : Map K} {recs : List (WalRecord K)}
    (hholds : Holds o w.disk base recs []) {rec : WalRecord K} (hknown : rec.type.Known) :
    Logged o (appended w ⟨true, (encodeAll recs).length⟩ rec)
      (write (replay base (recs.map binding)) (binding rec)) := by
  have hfile : w.disk.wal.getD [] = encodeAll recs := by simpa using hholds.wal
  refine ⟨base, recs ++ [rec], ⟨hholds.base, ?_, ?_, kEncodedSize_pos⟩,
    (replay_snoc base recs rec).symm, ?_⟩
  · simp only [appended, World.setWalFile, Option.getD_some, hfile, writeAt_end,
      encodeAll_append, encodeAll_singleton, List.append_nil]
  · intro r hr
    rcases List.mem_append.mp hr with hr | hr
    · exact hholds.known r hr
    · exact List.mem_singleton.mp hr ▸ hknown
  · simp [appended, encodeAll_append]

theorem logged_appendWal (h : Logged o w m) {rec : WalRecord K} (hknown : rec.type.Known) :
    Logged o (run (appendWal o rec) w).state
      (if fires o w then w.map else write m (binding rec)) := by
  obtain ⟨base, recs, hholds, rfl, hwal⟩ := h
  have hlogged := logged_appended hholds hknown
  obtain ⟨-, hstate, -⟩ := run_appendWal (o := o) hwal rfl rec
  rw [hstate]
  split_ifs with hf
  · exact logged_afterCheckpoint hlogged (snapshotDir_of_fires hf)
  · exact hlogged

theorem walAppend_event {base : Map K} {recs : List (WalRecord K)}
    (hholds : Holds o w.disk base recs []) {rec : WalRecord K} (hknown : rec.type.Known)
    {n : ℕ} {e : Event K}
    (he : (run (walAppend ⟨true, (encodeAll recs).length⟩ rec) w).trace[n]? = some e) :
    LogEvent o w (· = if n < kEncodedSize K then replay base (recs.map binding)
      else write (replay base (recs.map binding)) (binding rec)) e := by
  have hlogged := logged_appended hholds hknown
  have hfile : w.disk.wal.getD [] = encodeAll recs := by simpa using hholds.wal
  rw [(run_walAppend rfl rec).2.2, List.getElem?_map] at he
  obtain ⟨n', hn, rfl⟩ := Option.map_eq_some_iff.mp he
  obtain ⟨-, rfl⟩ := List.getElem?_eq_some_iff.mp hn
  refine ⟨rfl, rfl, rfl, _, ?_, rfl⟩
  simp only [World.setWalFile, hfile, writeAt_end, List.getElem_range]
  split_ifs with hwhole
  -- a proper part of the record is a torn tail
  · refine ⟨base, recs, rec.encode.take n, ⟨hholds.base, rfl, hholds.known, ?_⟩, rfl⟩
    rw [List.length_take]
    omega
  · have htake : rec.encode.take n = rec.encode :=
      List.take_of_length_le (by rw [WalRecord.length_encode]; omega)
    refine hlogged.durable.congr ?_ rfl
    simp only [appended, World.setWalFile, hfile, writeAt_end, htake]

theorem LogEvent.mono {P Q : Map K → Prop} {e : Event K} (h : LogEvent o w P e)
    (himp : ∀ m', P m' → Q m') : LogEvent o w Q e := by
  obtain ⟨hlabel, himages, hstate, m', hdurable, hm'⟩ := h
  exact ⟨hlabel, himages, hstate, m', hdurable, himp m' hm'⟩

theorem appendWal_event_cases (h : Logged o w m) {rec : WalRecord K} (hknown : rec.type.Known)
    {n : ℕ} {e : Event K} (he : (run (appendWal o rec) w).trace[n]? = some e) :
    LogEvent o w (· = if n < kEncodedSize K then m else write m (binding rec)) e ∨
      ¬ n < kEncodedSize K ∧ fires o w = true ∧
        LogEvent o w (Mixes (write m (binding rec)) w.map) e := by
  obtain ⟨base, recs, hholds, rfl, hwal⟩ := h
  rw [(run_appendWal (o := o) hwal rfl rec).2.2] at he
  by_cases hn : n < (run (walAppend ⟨true, (encodeAll recs).length⟩ rec) w).trace.length
  · rw [List.getElem?_append_left hn] at he
    exact Or.inl (walAppend_event hholds hknown he)
  · rw [List.getElem?_append_right (Nat.not_lt.mp hn)] at he
    rw [walAppend_length rfl] at hn
    split_ifs at he with hf
    · obtain ⟨hlabel, himages, hstate, hrecovers⟩ := checkpoint_events
        (logged_appended hholds hknown) (snapshotDir_of_fires hf) e (List.mem_of_getElem? he)
      exact Or.inr ⟨by omega, hf, hlabel, himages, hstate, hrecovers⟩
    · simp at he

theorem appendWal_events (h : Logged o w m) {rec : WalRecord K} (hknown : rec.type.Known) :
    ∀ e ∈ (run (appendWal o rec) w).trace,
      LogEvent o w (fun m' => m' = m ∨ Mixes (write m (binding rec)) w.map m') e := by
  intro e he
  obtain ⟨n, hn⟩ := List.mem_iff_getElem?.mp he
  rcases appendWal_event_cases h hknown hn with hevent | ⟨-, -, hevent⟩
  · refine hevent.mono ?_
    rintro m' rfl
    split_ifs
    · exact Or.inl rfl
    · exact Or.inr fun k => Or.inl rfl
  · exact hevent.mono fun m' hmix => Or.inr hmix

theorem mixes_self {K : Type} [DecidableEq K] {m : Map K} {m' : Map K} (h : Mixes m m m') :
    m' = m :=
  Finmap.ext_lookup fun k => (h k).elim id id

theorem appendWal_event (h : Logged o w m) {rec : WalRecord K} (hknown : rec.type.Known)
    (hmap : write m (binding rec) = w.map) {n : ℕ} {e : Event K}
    (he : (run (appendWal o rec) w).trace[n]? = some e) :
    LogEvent o w (· = if n < kEncodedSize K then m else w.map) e := by
  have hcases := appendWal_event_cases h hknown he
  rw [hmap] at hcases
  rcases hcases with hevent | ⟨hwhole, -, hevent⟩
  · exact hevent
  · rw [if_neg hwhole]
    exact hevent.mono fun _ => mixes_self

theorem appendWal_length (h : Logged o w m) (rec : WalRecord K) :
    (run (appendWal o rec) w).trace.length =
      kEncodedSize K + 1 + if fires o w then 4 else 0 := by
  obtain ⟨base, recs, -, -, hwal⟩ := h
  rw [(run_appendWal (o := o) hwal rfl rec).2.2, List.length_append, walAppend_length rfl]
  split_ifs with hf
  · rw [checkpoint_trace (snapshotDir_of_fires hf) rfl]
    rfl
  · rfl

/-! Recovery. -/

/-- The map `Index::Open` builds from the files, when it succeeds. -/
def recover (o : Options) (d : Disk K) : Option (Map K) :=
  let r := run (openIndex o) (World.boot d)
  if r.val = .ok then some r.state.map else none

def afterOpen (w : World K) (base : Map K) (recs : List (WalRecord K)) : World K :=
  { w with
    disk := { w.disk with wal := some (encodeAll recs) }
    map := replay base (recs.map binding)
    wal := some ⟨true, (encodeAll recs).length⟩
    walBytes := (encodeAll recs).length
    opened := true }

theorem run_openSnapshot {K : Type} {w : World K} {base : Map K}
    (hbase : snapshotBase o w.disk = some base) (hmap : w.map = ∅) :
    (run (openSnapshot o) w).val = .ok ∧
      (run (openSnapshot o) w).state = { w with map := base } ∧
      (run (openSnapshot o) w).trace = [] := by
  unfold snapshotBase at hbase
  by_cases hdir : o.snapshotDir = ""
  · obtain rfl : ∅ = base := by simpa [hdir] using hbase
    simp [openSnapshot, hdir, ← hmap]
  · rw [if_neg hdir] at hbase
    cases hsnap : w.disk.snapshot with
    | none =>
      obtain rfl : ∅ = base := by simpa [hsnap] using hbase
      simp [openSnapshot, hdir, hsnap, ← hmap]
    | some file =>
      cases file with
      | corrupt => simp [hsnap] at hbase
      | dump m =>
        obtain rfl : m = base := by simpa [hsnap] using hbase
        simp [openSnapshot, hdir, hsnap, loadSnapshot]

theorem take_encodeAll_append {K : Type} [KeyType K] (recs : List (WalRecord K)) (torn : Bytes) :
    (encodeAll recs ++ torn).take (recs.length * kEncodedSize K) = encodeAll recs :=
  List.take_left' (length_encodeAll recs)

theorem records_nil {K : Type} [KeyType K] {d : Disk K} {recs : List (WalRecord K)} {torn : Bytes}
    (hwal : d.wal.getD [] = encodeAll recs ++ torn) (hfile : d.wal = none) : recs = [] := by
  rw [hfile] at hwal
  obtain ⟨hrecs, -⟩ := List.append_eq_nil_iff.mp hwal.symm
  have hlen := length_encodeAll recs
  have hpos := kEncodedSize_pos (K := K)
  rw [hrecs, List.length_nil, eq_comm, Nat.mul_eq_zero] at hlen
  exact List.length_eq_zero_iff.mp (hlen.resolve_right (by omega))

theorem run_openLog {recs : List (WalRecord K)} {torn : Bytes}
    (hwal : w.disk.wal.getD [] = encodeAll recs ++ torn)
    (hknown : ∀ rec ∈ recs, rec.type.Known) (htorn : torn.length < kEncodedSize K) :
    (run openLog w).val = .ok ∧
      (run openLog w).state = { w with
        disk := { w.disk with wal := w.disk.wal.map fun _ => encodeAll recs }
        map := replay w.map (recs.map binding) } ∧
      ∀ e ∈ (run openLog w).trace, e.label = .io ∧
        e.world.disk = { w.disk with wal := some (encodeAll recs) } := by
  cases hfile : w.disk.wal with
  | none =>
    obtain rfl := records_nil hwal hfile
    simp only [openLog, Prog.exec_bind_val, Prog.exec_bind_state, Prog.exec_bind_trace,
      Prog.exec_get_val, Prog.exec_get_state, Prog.exec_get_trace, hfile, Prog.exec_pure_val,
      Prog.exec_pure_state, Prog.exec_pure_trace, List.append_nil, List.not_mem_nil,
      Option.map_none, List.map_nil, replay_nil, IsEmpty.forall_iff, implies_true, and_true,
      true_and]
    rw [← hfile]
  | some file =>
    obtain rfl : file = encodeAll recs ++ torn := by simpa [hfile] using hwal
    have hreplay := walReplay_encodeAll recs torn hknown htorn
    simp [openLog, hfile, replayWal, hreplay, World.setWalFile, take_encodeAll_append,
      foldl_applyRecord _ recs hknown]

theorem run_openWriter {K : Type} {w : World K} :
    (run openWriter w).val = .ok ∧
      (run openWriter w).state = { w with
        disk := { w.disk with wal := some (w.disk.wal.getD []) }
        wal := some ⟨true, (w.disk.wal.getD []).length⟩
        walBytes := (w.disk.wal.getD []).length } ∧
      (run openWriter w).trace =
        [⟨.io, { w with disk := { w.disk with wal := some (w.disk.wal.getD []) } }⟩] := by
  simp [openWriter, walOpen, World.setWalFile]

theorem run_openIndex {base : Map K} {recs : List (WalRecord K)} {torn : Bytes}
    (hkey : o.segmentConfig.keySize = KeyType.size K) (hpath : o.walPath ≠ "")
    (hclosed : w.opened = false) (hmap : w.map = ∅) (h : Holds o w.disk base recs torn) :
    (run (openIndex o) w).val = .ok ∧
      (run (openIndex o) w).state = afterOpen w base recs ∧
      ∀ e ∈ (run (openIndex o) w).trace, LogEvent o w (· = replay base (recs.map binding)) e := by
  obtain ⟨hsval, hsstate, hstrace⟩ :=
    run_openSnapshot (w := { w with opened := true }) h.base hmap
  obtain ⟨hlval, hlstate, hltrace⟩ :=
    run_openLog (w := { w with opened := true, map := base }) h.wal h.known h.torn
  have hlog : (w.disk.wal.map fun _ => encodeAll recs).getD [] = encodeAll recs := by
    cases hfile : w.disk.wal with
    | none => rw [records_nil h.wal hfile]; rfl
    | some file => rfl
  have hafter : ∀ w' : World K, w'.disk = { w.disk with wal := some (encodeAll recs) } →
      LogEvent o w (· = replay base (recs.map binding)) ⟨.io, w'⟩ := by
    intro w' hw'
    refine ⟨rfl, by rw [hw'], by rw [hw'], _, ⟨base, recs, [], ⟨?_, ?_, h.known,
      kEncodedSize_pos⟩, rfl⟩, rfl⟩
    · simpa [hw', snapshotBase] using h.base
    · simp [hw']
  have htrace : (run (openIndex o) w).trace =
      (run openLog { w with opened := true, map := base }).trace ++
        [⟨.io, { afterOpen w base recs with wal := w.wal, walBytes := w.walBytes }⟩] := by
    simp [openIndex, hclosed, hkey, hpath, hsval, hsstate, hstrace, hlval, hlstate,
      run_openWriter, hlog, afterOpen]
  refine ⟨?_, ?_, fun e he => ?_⟩
  · simp [openIndex, hclosed, hkey, hpath, hsval, hsstate, hlval, hlstate, run_openWriter]
  · simp [openIndex, hclosed, hkey, hpath, hsval, hsstate, hlval, hlstate, run_openWriter,
      hlog, afterOpen]
  · rw [htrace] at he
    rcases List.mem_append.mp he with he | he
    · obtain ⟨label, w'⟩ := e
      obtain ⟨rfl, hw'⟩ := hltrace _ he
      exact hafter w' hw'
    · obtain rfl := List.mem_singleton.mp he
      exact hafter _ rfl

theorem recover_of_durable {d : Disk K} (hkey : o.segmentConfig.keySize = KeyType.size K)
    (hpath : o.walPath ≠ "") (h : Durable o d m) : recover o d = some m := by
  obtain ⟨base, recs, torn, hholds, rfl⟩ := h
  obtain ⟨hval, hstate, -⟩ := run_openIndex (w := World.boot d) hkey hpath rfl rfl hholds
  simp only [recover, hval, hstate, if_true]
  rfl

theorem Durable.unique {d : Disk K} {m' : Map K}
    (hkey : o.segmentConfig.keySize = KeyType.size K) (hpath : o.walPath ≠ "")
    (h : Durable o d m) (h' : Durable o d m') : m = m' := by
  have heq := (recover_of_durable hkey hpath h).symm.trans (recover_of_durable hkey hpath h')
  exact Option.some.inj heq

end ParaKV.Index.Durability
