/- GID: ParaKV/Index/FailedOpen
   source: parakv/core/index/index.cc, parakv/core/kvcache_storage/index_kvcache_storage_backend.cc
   digest: What the snapshot and the log hold after an Open that failed and the destructor. -/

import ParaKV.Index.Faults
import ParaKV.Index.Runs

set_option autoImplicit false

namespace ParaKV.Index.FailedOpen

open Lib.LogMap Lib.StepRun Index.Key Index.Wal Index.Operations Index.Durability Index.Faults
open Index.Runs Core.State

variable {K : Type} [DecidableEq K] [KeyType K] {o : Options}

/-! Replay of any records over a map. -/

/-- The bindings of the records that `ApplyRecord` does not skip. -/
def effects (recs : List (WalRecord K)) : List (Binding K UInt64) :=
  recs.filterMap fun rec => match rec.type with
    | .unknown _ => none
    | _ => some (binding rec)

theorem foldl_applyRecord_effects {K : Type} [DecidableEq K] (m : Map K)
    (recs : List (WalRecord K)) :
    recs.foldl applyRecord m = replay m (effects recs) := by
  induction recs generalizing m with
  | nil => rfl
  | cons rec recs ih =>
    rw [List.foldl_cons, ih]
    obtain ⟨type, key, diskAddr, oldDiskAddr⟩ := rec
    cases type <;> rfl

theorem effects_subset {K : Type} {recs recs' : List (WalRecord K)} (h : recs ⊆ recs') :
    effects recs ⊆ effects recs' := by
  intro b hb
  obtain ⟨rec, hrec, heq⟩ := List.mem_filterMap.mp hb
  exact List.mem_filterMap.mpr ⟨rec, h hrec, heq⟩

theorem foldl_absorb {K : Type} [DecidableEq K] (base : Map K) {recs recs' : List (WalRecord K)}
    (h : recs' ⊆ recs) :
    recs.foldl applyRecord (recs'.foldl applyRecord base) = recs.foldl applyRecord base := by
  simp only [foldl_applyRecord_effects]
  refine Finmap.ext_lookup fun k => lookup_replay_congr _ _ _ _ ?_
  by_cases hk : k ∈ (effects recs).map Prod.fst
  · exact Or.inl hk
  · refine Or.inr (lookup_replay_untouched _ _ _ fun hk' => hk ?_)
    exact List.map_subset _ (effects_subset h) hk'

/-! The files, whatever they contain. -/

def logRecords (o : Options) (d : Disk K) : List (WalRecord K) :=
  if o.walPath = "" then [] else (walReplay (d.wal.getD [])).1

/-- The entries in the snapshot and the log, unless the snapshot cannot be loaded. -/
def filesMap (o : Options) (d : Disk K) : Option (Map K) :=
  (snapshotBase o d).map fun base => (logRecords o d).foldl applyRecord base

theorem filesMap_congr {d d' : Disk K} (hsnapshot : d'.snapshot = d.snapshot)
    (hrecords : logRecords o d' = logRecords o d) : filesMap o d' = filesMap o d := by
  unfold filesMap snapshotBase
  rw [hsnapshot, hrecords]

theorem logRecords_congr {K : Type} [KeyType K] {d d' : Disk K} (hwal : d'.wal = d.wal) :
    logRecords o d' = logRecords o d := by
  unfold logRecords
  rw [hwal]

theorem walReplay_nil {K : Type} [KeyType K] : (walReplay (K := K) []).1 = [] := by
  simp [walReplay_eq, kEncodedSize_pos]

theorem run_openLog_map (w : World K) :
    (run openLog w).val = .ok ∧
      (run openLog w).state.map = (walReplay (w.disk.wal.getD [])).1.foldl applyRecord w.map := by
  cases hwal : w.disk.wal with
  | none => simp [openLog, hwal, walReplay_nil]
  | some file => simp [openLog, hwal, replayWal, World.setWalFile]

theorem run_openWriter_map {K : Type} (w : World K) :
    (run openWriter w).val = .ok ∧ (run openWriter w).state.map = w.map := by
  simp [openWriter, walOpen, World.setWalFile]

theorem run_openSnapshot_map {K : Type} (w : World K) (hmap : w.map = ∅) :
    ((run (openSnapshot o) w).val = .ok ↔ (snapshotBase o w.disk).isSome) ∧
      ∀ base ∈ snapshotBase o w.disk, (run (openSnapshot o) w).state = { w with map := base } := by
  by_cases hdir : o.snapshotDir = ""
  · simp [openSnapshot, snapshotBase, hdir, ← hmap]
  · cases hsnapshot : w.disk.snapshot with
    | none => simp [openSnapshot, snapshotBase, hdir, hsnapshot, ← hmap]
    | some file => cases file <;> simp [openSnapshot, snapshotBase, hdir, hsnapshot, loadSnapshot]

theorem recover_eq_filesMap (hkey : o.segmentConfig.keySize = KeyType.size K) (d : Disk K) :
    recover o d = filesMap o d := by
  obtain ⟨hval, hstate⟩ :=
    run_openSnapshot_map (o := o) { World.boot d with opened := true } rfl
  simp only [World.boot] at hval hstate
  unfold recover filesMap
  cases hbase : snapshotBase o d with
  | none =>
    rw [hbase] at hval
    have hstop := mt hval.mp (by simp)
    simp [openIndex, World.boot, hkey, hstop]
  | some base =>
    rw [hbase] at hval
    have hok := hval.mpr rfl
    have hloaded := hstate base hbase
    by_cases hpath : o.walPath = ""
    · simp [openIndex, World.boot, hkey, hok, hloaded, hpath, logRecords]
    · simp [openIndex, World.boot, hkey, hok, hloaded, hpath, logRecords, run_openLog_map,
        run_openWriter_map]

/-- A log over a snapshot that already has a part of it, as between the rename and the rotation of a
`Checkpoint`. -/
theorem replay_over_newer_snapshot :
    (∀ (m : Map K) (w₁ w₂ : List (WalRecord K)),
      (w₁ ++ w₂).foldl applyRecord (w₁.foldl applyRecord m) = (w₁ ++ w₂).foldl applyRecord m) ∧
    (∀ (m : Map K) (w : List (WalRecord K)),
      w.foldl applyRecord (w.foldl applyRecord m) = w.foldl applyRecord m) ∧
    ∀ (o : Options) (d : Disk K) (base : Map K) (n : ℕ), snapshotBase o d = some base →
      recover o { d with
        snapshot := some (.dump (((logRecords o d).take n).foldl applyRecord base)) } =
          recover o d := by
  refine ⟨fun m w₁ w₂ => foldl_absorb m (List.subset_append_left w₁ w₂),
    fun m w => foldl_absorb m (List.Subset.refl w), fun o d base n hbase => ?_⟩
  set d' := { d with
    snapshot := some (.dump (((logRecords o d).take n).foldl applyRecord base)) }
  have hrecords : logRecords o d' = logRecords o d := logRecords_congr rfl
  by_cases hkey : o.segmentConfig.keySize = KeyType.size K
  · rw [recover_eq_filesMap hkey, recover_eq_filesMap hkey, filesMap, filesMap, hbase, hrecords]
    by_cases hdir : o.snapshotDir = ""
    · obtain rfl : ∅ = base := by simpa [snapshotBase, hdir] using hbase
      simp [snapshotBase, hdir]
    · simp [snapshotBase, hdir, d', foldl_absorb base (List.take_subset n (logRecords o d))]
  · simp [recover, openIndex, World.boot, hkey]

def loggedDisk : Disk Key64 :=
  { Disk.empty Key64 with
    wal := some (WalRecord.encode (K := Key64) ⟨.insert, 5, 1, 0⟩ ++
      WalRecord.encode (K := Key64) ⟨.delete, 5, 1, 0⟩) }

theorem replay_over_newer_snapshot_logged :
    (logRecords (smallOptions 4 0) loggedDisk).length = 2 ∧
    recover (smallOptions 4 0) { loggedDisk with
      snapshot := some (.dump (((logRecords (smallOptions 4 0) loggedDisk).take 1).foldl
        applyRecord ∅)) } = recover (smallOptions 4 0) loggedDisk :=
  ⟨by decide +kernel, (replay_over_newer_snapshot (K := Key64)).2.2 _ _ ∅ 1 rfl⟩

/-! `Open` up to the exit it takes. -/

/-- The key size is right and the snapshot, if there is one, is read without an error. -/
def LoadsSnapshot (o : Options) (d : Disk K) (io : ℕ → IoOutcome) : Prop :=
  o.segmentConfig.keySize = KeyType.size K ∧
    (o.snapshotDir = "" ∨ d.snapshot = none ∨ ∃ m, d.snapshot = some (.dump m) ∧ io 0 = .ok)

section Exits

variable {w : World K} (io : ℕ → IoOutcome)

theorem openSnapshot_loads {K : Type} [KeyType K] {w : World K} {io : ℕ → IoOutcome}
    (h : LoadsSnapshot o w.disk io) (hmap : w.map = ∅) :
    ∃ base, snapshotBase o w.disk = some base ∧ (openSnapshot o io w).val = .ok ∧
      (openSnapshot o io w).state = { w with map := base } := by
  obtain ⟨-, hdir | hnone | ⟨m, hdump, h0⟩⟩ := h
  · refine ⟨∅, by simp [snapshotBase, hdir], ?_, ?_⟩
    · simp [openSnapshot, hdir]
    · simp [openSnapshot, hdir, ← hmap]
  · refine ⟨∅, by simp [snapshotBase, hnone], ?_, ?_⟩
    · by_cases hdir : o.snapshotDir = "" <;> simp [openSnapshot, hdir, hnone]
    · by_cases hdir : o.snapshotDir = "" <;> simp [openSnapshot, hdir, hnone, ← hmap]
  · by_cases hdir : o.snapshotDir = ""
    · refine ⟨∅, by simp [snapshotBase, hdir], ?_, ?_⟩
      · simp [openSnapshot, hdir]
      · simp [openSnapshot, hdir, ← hmap]
    · refine ⟨m, by simp [snapshotBase, hdir, hdump], ?_, ?_⟩
      · simp [openSnapshot, hdir, hdump, loadSnapshot, probe, h0]
      · simp [openSnapshot, hdir, hdump, loadSnapshot, probe, h0]

theorem openIndex_rejects {io : ℕ → IoOutcome} (h : ¬ LoadsSnapshot o w.disk io) :
    (openIndex o io (freshIndex w)).val ≠ .ok ∧
      (openIndex o io (freshIndex w)).state = { freshIndex w with opened := true } := by
  by_cases hkey : o.segmentConfig.keySize = KeyType.size K
  · have hdir : o.snapshotDir ≠ "" := fun hdir => h ⟨hkey, Or.inl hdir⟩
    cases hsnapshot : w.disk.snapshot with
    | none => exact (h ⟨hkey, Or.inr (Or.inl hsnapshot)⟩).elim
    | some file =>
      cases h0 : io 0 with
      | fail n =>
        simp [openIndex, freshIndex, hkey, openSnapshot, hdir, hsnapshot, loadSnapshot, probe, h0]
      | ok =>
        cases file with
        | dump m => exact (h ⟨hkey, Or.inr (Or.inr ⟨m, hsnapshot, h0⟩)⟩).elim
        | corrupt =>
          simp [openIndex, freshIndex, hkey, openSnapshot, hdir, hsnapshot, loadSnapshot, probe,
            h0]
  · simp [openIndex, freshIndex, hkey]

/-- A later exit: the map has the snapshot and some of the records, all of them if there is a
writer already, and the files have lost nothing. -/
structure HalfOpen (o : Options) (d : Disk K) (base : Map K) (w : World K) : Prop where
  snapshot : w.disk.snapshot = d.snapshot
  records : logRecords o w.disk = logRecords o d
  map : ∃ recs, recs ⊆ logRecords o d ∧ w.map = recs.foldl applyRecord base
  whole : w.wal ≠ none → w.map = (logRecords o d).foldl applyRecord base

theorem logRecords_some {K : Type} [KeyType K] (hpath : o.walPath ≠ "") {d : Disk K}
    {file : Bytes} (hfile : d.wal = some file) : logRecords o d = (walReplay file).1 := by
  rw [logRecords, if_neg hpath, hfile]
  rfl

theorem logRecords_none {K : Type} [KeyType K] {d : Disk K} (hfile : d.wal = none) :
    logRecords o d = [] := by
  rw [logRecords, hfile]
  split_ifs
  · rfl
  · exact walReplay_nil

theorem halfOpen_writer {d : Disk K} {base : Map K} {io : ℕ → IoOutcome} {w : World K}
    (hsnapshot : w.disk.snapshot = d.snapshot) (hrecords : logRecords o w.disk = logRecords o d)
    (hmap : w.map = (logRecords o d).foldl applyRecord base)
    (hfail : (openWriter io w).val ≠ .ok) : HalfOpen o d base (openWriter io w).state := by
  rcases openWriter_cases io (w := w) with hok | ⟨file, hfile, hstate⟩
  · exact (hfail hok).elim
  · have hsame : logRecords o { w.disk with wal := file } = logRecords o w.disk := by
      rcases hfile with rfl | rfl
      · rfl
      · simp only [logRecords, Option.getD_some]
    rw [hstate]
    exact ⟨hsnapshot, hsame.trans hrecords, ⟨_, List.Subset.refl _, hmap⟩, fun _ => hmap⟩

def loadedIndex (w : World K) (base : Map K) : World K :=
  { freshIndex w with opened := true, map := base }

theorem openIndex_loaded {io : ℕ → IoOutcome} (h : LoadsSnapshot o w.disk io) :
    ∃ base io₁ io₂, snapshotBase o w.disk = some base ∧
      (o.walPath = "" → (openIndex o io (freshIndex w)).val = .ok) ∧
      (o.walPath ≠ "" → (openLog io₁ (loadedIndex w base)).val ≠ .ok →
        (openIndex o io (freshIndex w)).state = (openLog io₁ (loadedIndex w base)).state) ∧
      (o.walPath ≠ "" → (openLog io₁ (loadedIndex w base)).val = .ok →
        (openIndex o io (freshIndex w)).val =
            (openWriter io₂ (openLog io₁ (loadedIndex w base)).state).val ∧
          (openIndex o io (freshIndex w)).state =
            (openWriter io₂ (openLog io₁ (loadedIndex w base)).state).state) := by
  obtain ⟨base, hbase, hval, hstate⟩ :=
    openSnapshot_loads (w := { freshIndex w with opened := true }) h rfl
  have hkey := h.1
  simp only [freshIndex] at hval hstate
  refine ⟨base, fun n => io (n + (openSnapshot o io { freshIndex w with opened := true }).used),
    fun n => io (n + (openLog (fun n => io (n + (openSnapshot o io
      { freshIndex w with opened := true }).used)) (loadedIndex w base)).used +
        (openSnapshot o io { freshIndex w with opened := true }).used), hbase, ?_, ?_, ?_⟩
  · intro hpath
    simp [openIndex, freshIndex, hkey, hval, hpath]
  · intro hpath hlog
    simp only [loadedIndex, freshIndex] at hlog
    simp [openIndex, loadedIndex, freshIndex, hkey, hval, hstate, hpath, hlog]
  · intro hpath hlog
    simp only [loadedIndex, freshIndex] at hlog
    simp [openIndex, loadedIndex, freshIndex, hkey, hval, hstate, hpath, hlog]

theorem openIndex_stops {io : ℕ → IoOutcome} (h : LoadsSnapshot o w.disk io)
    (hfail : (openIndex o io (freshIndex w)).val ≠ .ok) :
    ∃ base, snapshotBase o w.disk = some base ∧
      HalfOpen o w.disk base (openIndex o io (freshIndex w)).state := by
  obtain ⟨base, io₁, io₂, hbase, hdone, hlog, hwriter⟩ := openIndex_loaded h
  refine ⟨base, hbase, ?_⟩
  have hpath : o.walPath ≠ "" := fun hpath => hfail (hdone hpath)
  cases hfile : w.disk.wal with
  | none =>
    obtain ⟨hok, hsame⟩ := openLog_none io₁ (w := loadedIndex w base) hfile
    obtain ⟨hval, hstate⟩ := hwriter hpath hok
    rw [hsame] at hval hstate
    rw [hstate]
    refine halfOpen_writer rfl rfl ?_ (hval ▸ hfail)
    rw [logRecords_none hfile]
    rfl
  | some file =>
    have hrecords := logRecords_some hpath hfile
    rcases openLog_cases io₁ (w := loadedIndex w base) hfile with
      ⟨hstop, recs, hrecs, hmap⟩ | ⟨hok, hmap⟩
    · rw [hlog hpath hstop, hmap]
      refine ⟨rfl, rfl, ⟨recs, ?_, rfl⟩, fun hwriter => (hwriter rfl).elim⟩
      rw [hrecords]
      exact hrecs.subset
    · obtain ⟨hval, hstate⟩ := hwriter hpath hok
      rw [hmap] at hval hstate
      rw [hstate]
      refine halfOpen_writer rfl ?_ ?_ (hval ▸ hfail)
      · rw [hrecords, logRecords_some hpath rfl]
        exact walReplay_take_good file
      · rw [hrecords]
        rfl

/-! The destructor. -/

theorem destroyIndex_disk {K : Type} (io : ℕ → IoOutcome) (w : World K) :
    (destroyIndex o io w).state.disk = (checkpoint o io w).state.disk := by
  cases hopened : (checkpoint o io w).state.opened <;> simp [destroyIndex, closeIndex, hopened]

/-- The destructor's dump takes the place of the snapshot. -/
def Replaces (o : Options) (io : ℕ → IoOutcome) : Prop :=
  o.snapshotDir ≠ "" ∧ io 0 = .ok ∧ io 1 = .ok

theorem destroyIndex_spared {io : ℕ → IoOutcome} (h : ¬ Replaces o io) (w : World K) :
    filesMap o (destroyIndex o io w).state.disk = filesMap o w.disk := by
  rw [destroyIndex_disk]
  by_cases hdir : o.snapshotDir = ""
  · rw [(checkpoint_disabled io hdir).2]
  · rcases checkpoint_cases io (w := w) hdir with ⟨-, -, tmp, hstate⟩ | ⟨⟨h0, h1⟩, -⟩
    · rw [hstate]
      exact filesMap_congr rfl rfl
    · exact (h ⟨hdir, h0, h1⟩).elim

/-- With the dump in place, the log is what it was or empty; it is what it was when there is no
writer. -/
theorem destroyIndex_replaced {io : ℕ → IoOutcome} (h : Replaces o io) (w : World K) :
    ∃ recs, filesMap o (destroyIndex o io w).state.disk = some (recs.foldl applyRecord w.map) ∧
      (recs = logRecords o w.disk ∨ recs = [] ∧ w.wal ≠ none) := by
  obtain ⟨hdir, h0, h1⟩ := h
  have hbase : ∀ d : Disk K, d.snapshot = some (.dump w.map) →
      filesMap o d = some ((logRecords o d).foldl applyRecord w.map) := by
    intro d hd
    simp [filesMap, snapshotBase, hdir, hd]
  rw [destroyIndex_disk]
  rcases checkpoint_cases io (w := w) hdir with ⟨h0' | h1', -⟩ | ⟨-, -, hstate⟩
  · exact (h0' h0).elim
  · exact (h1' h1).elim
  rw [hstate]
  cases hwal : w.wal with
  | none =>
    have hsame := (rotateWal_none (fun n => io (n + 2)) (w := snapshotted w) hwal).2
    rw [hsame]
    exact ⟨_, hbase _ rfl, Or.inl rfl⟩
  | some writer =>
    have hempty : ∀ d : Disk K, d.wal = some [] → logRecords o d = [] := by
      intro d hd
      unfold logRecords
      rw [hd]
      split_ifs
      · rfl
      · exact walReplay_nil
    rcases rotateWal_cases (fun n => io (n + 2)) (w := snapshotted w) hwal with
      ⟨-, hstate⟩ | ⟨-, hstate⟩ | ⟨-, hstate⟩
    · rw [hstate]
      exact ⟨_, hbase _ rfl, Or.inl rfl⟩
    · rw [hstate]
      exact ⟨_, hbase _ rfl, Or.inr ⟨hempty _ rfl, by simp⟩⟩
    · rw [hstate]
      exact ⟨_, hbase _ rfl, Or.inr ⟨hempty _ rfl, by simp⟩⟩

end Exits

/-- Every entry of the snapshot is in the log as well. -/
def CoveredByLog (o : Options) (d : Disk K) : Prop :=
  ∃ base, snapshotBase o d = some base ∧
    ∀ k, base.lookup k ≠ none → k ∈ (effects (logRecords o d)).map Prod.fst

theorem entries_without_snapshot_iff (o : Options) (d : Disk K) :
    some ((logRecords o d).foldl applyRecord ∅) = filesMap o d ↔ CoveredByLog o d := by
  simp only [filesMap, foldl_applyRecord_effects]
  constructor
  · intro h
    obtain ⟨base, hbase, hmap⟩ := Option.map_eq_some_iff.mp h.symm
    refine ⟨base, hbase, fun k hk => ?_⟩
    by_contra huntouched
    have hlookup := congrArg (Finmap.lookup k) hmap
    rw [lookup_replay_untouched _ _ _ huntouched, lookup_replay_untouched _ _ _ huntouched]
      at hlookup
    exact hk hlookup
  · rintro ⟨base, hbase, hcovered⟩
    rw [hbase, Option.map_some]
    refine congrArg some (Finmap.ext_lookup fun k => lookup_replay_congr _ _ _ _ ?_)
    by_cases hk : base.lookup k = none
    · exact Or.inr hk.symm
    · exact Or.inl (hcovered k hk)

/-- An `Open` that fails, and the destructor after it, keep the entries of the files exactly when
the snapshot had been loaded, or the dump of the destructor does not replace it, or all its
entries are in the log. The streams are the outcomes of the file operations of the two. -/
theorem failed_open_keeps_entries_iff (o : Options) (w : World K) (io io' : ℕ → IoOutcome)
    (hfail : (openIndex o io (freshIndex w)).val ≠ .ok) :
    filesMap o (destroyIndex o io' (openIndex o io (freshIndex w)).state).state.disk =
        filesMap o w.disk ↔
      LoadsSnapshot o w.disk io ∨ ¬ Replaces o io' ∨ CoveredByLog o w.disk := by
  by_cases hload : LoadsSnapshot o w.disk io
  · refine iff_of_true ?_ (Or.inl hload)
    obtain ⟨base, hbase, hhalf⟩ := openIndex_stops hload hfail
    have hbefore : filesMap o w.disk = some ((logRecords o w.disk).foldl applyRecord base) := by
      rw [filesMap, hbase]
      rfl
    by_cases hreplaces : Replaces o io'
    · obtain ⟨recs, hafter, hrecs | ⟨rfl, hwriter⟩⟩ :=
        destroyIndex_replaced hreplaces (openIndex o io (freshIndex w)).state
      · obtain ⟨recs', hsubset, hmap⟩ := hhalf.map
        rw [hafter, hbefore, hrecs, hhalf.records, hmap, foldl_absorb base hsubset]
      · rw [hafter, hbefore, hhalf.whole hwriter]
        rfl
    · rw [destroyIndex_spared hreplaces]
      exact filesMap_congr hhalf.snapshot hhalf.records
  · obtain ⟨-, hstate⟩ := openIndex_rejects hload
    rw [hstate]
    by_cases hreplaces : Replaces o io'
    · have hafter :
          filesMap o (destroyIndex o io' { freshIndex w with opened := true }).state.disk =
            some ((logRecords o w.disk).foldl applyRecord ∅) := by
        obtain ⟨recs, hafter, rfl | ⟨-, hwriter⟩⟩ :=
          destroyIndex_replaced hreplaces { freshIndex w with opened := true }
        · exact hafter
        · exact (hwriter rfl).elim
      rw [hafter, entries_without_snapshot_iff]
      simp [hload, hreplaces]
    · refine iff_of_true ?_ (Or.inr (Or.inl hreplaces))
      exact destroyIndex_spared hreplaces _

def otherKeyOptions : Options :=
  { smallOptions 4 0 with segmentConfig := { smallConfig 4 with keySize := 16 } }

def hasFive (o : Options) (d : Disk Key64) : Option Bool :=
  (filesMap o d).map fun m => (m.lookup 5).isSome

/-- The status of an `Open` over the files `d`, and the entry after the destructor. -/
def destroyedAfter (o : Options) (io : ℕ → IoOutcome) (d : Disk Key64) : Status × Option Bool :=
  let r := openIndex o io (freshIndex (World.boot d))
  (r.val, hasFive o (destroyIndex o (fun _ => .ok) r.state).state.disk)

set_option maxRecDepth 100000 in
/-- A read error on a good snapshot, and a wrong key size. -/
theorem failed_open_loses_snapshot :
    ((perform (Runs.step (smallOptions 4 0)) (Store.initial Key64 none)
      [.complete .start, putKey 5, .complete .checkpoint]).map fun s =>
        (hasFive (smallOptions 4 0) s.world.disk,
          destroyedAfter (smallOptions 4 0) (fun _ => .fail 0) s.world.disk,
          destroyedAfter otherKeyOptions (fun _ => .ok) s.world.disk)) =
      some (some true, (.corruption, some false), (.invalidArgument, some false)) := by
  decide +kernel

def savedWorld : World Key64 :=
  .boot { Disk.empty Key64 with
    snapshot := some (.dump (Finmap.singleton 5 (encodeSegmentSlot 0 0))), wal := some [] }

def logUnreadable : ℕ → IoOutcome
  | 0 => .ok
  | _ => .fail 0

theorem failed_open_keeps_entries_unread :
    (openIndex (smallOptions 4 0) logUnreadable (freshIndex savedWorld)).val = .ioError ∧
      filesMap (smallOptions 4 0) (destroyIndex (smallOptions 4 0) (fun _ => .ok)
          (openIndex (smallOptions 4 0) logUnreadable (freshIndex savedWorld)).state).state.disk =
        filesMap (smallOptions 4 0) savedWorld.disk := by
  have hval : (openIndex (smallOptions 4 0) logUnreadable (freshIndex savedWorld)).val =
    .ioError := by decide +kernel
  refine ⟨hval, (failed_open_keeps_entries_iff _ savedWorld logUnreadable _ ?_).mpr (Or.inl ?_)⟩
  · rw [hval]
    decide
  · exact ⟨rfl, Or.inr (Or.inr ⟨_, rfl, rfl⟩)⟩

end ParaKV.Index.FailedOpen
