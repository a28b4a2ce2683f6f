/- GID: ParaKV/Index/Faults
   source: parakv/core/index/index.cc, parakv/core/index/wal.cc
   digest: Opening, checkpointing and rotating the log when any file operation can fail. -/

import ParaKV.Index.Durability

set_option autoImplicit false

namespace ParaKV.Index.Faults

open Lib.TracedProgram Index.Key Index.Wal Index.Operations Index.Durability Core.State

variable {K : Type} {o : Options} {w : World K}
variable (io : ℕ → IoOutcome)

/-! The checkpoint. -/

def snapshotted (w : World K) : World K :=
  { w with disk := { w.disk with snapshot := some (.dump w.map), snapshotTmp := none } }

def truncated (w : World K) (writer : Option WalWriter) : World K :=
  { w with disk := { w.disk with wal := some [] }, wal := writer }

theorem rotateWal_none (hwal : w.wal = none) :
    (rotateWal io w).val = .ok ∧ (rotateWal io w).state = w := by
  simp [rotateWal, hwal]

theorem rotateWal_cases {writer : WalWriter} (hwal : w.wal = some writer) :
    ((rotateWal io w).val = .ioError ∧ (rotateWal io w).state = { w with wal := none }) ∨
    ((rotateWal io w).val = .ioError ∧ (rotateWal io w).state = truncated w none) ∨
    ((rotateWal io w).val = .ok ∧
      (rotateWal io w).state = { truncated w (some ⟨true, 0⟩) with walBytes := 0 }) := by
  cases h0 : io 0 with
  | fail n =>
    left
    simp [rotateWal, walOpen, syscall, h0, hwal]
  | ok =>
    right
    cases h1 : io 1 with
    | fail n =>
      left
      simp [rotateWal, walOpen, syscall, probe, h0, h1, hwal, World.setWalFile, truncated]
    | ok =>
      right
      simp [rotateWal, walOpen, syscall, probe, h0, h1, hwal, World.setWalFile, truncated]

theorem checkpoint_cases (hdir : o.snapshotDir ≠ "") :
    ((io 0 ≠ .ok ∨ io 1 ≠ .ok) ∧ (checkpoint o io w).val = .ioError ∧
      ∃ tmp, (checkpoint o io w).state = { w with disk := { w.disk with snapshotTmp := tmp } }) ∨
    (io 0 = .ok ∧ io 1 = .ok) ∧
      (checkpoint o io w).val = (rotateWal (fun n => io (n + 2)) (snapshotted w)).val ∧
      (checkpoint o io w).state = (rotateWal (fun n => io (n + 2)) (snapshotted w)).state := by
  cases h0 : io 0 with
  | fail n =>
    refine Or.inl ⟨Or.inl (by simp), ?_, some .corrupt, ?_⟩
    · simp [checkpoint, hdir, dumpSnapshot, h0]
    · simp [checkpoint, hdir, dumpSnapshot, h0]
  | ok =>
    cases h1 : io 1 with
    | fail n =>
      refine Or.inl ⟨Or.inr (by simp), ?_, some (.dump w.map), ?_⟩
      · simp [checkpoint, hdir, dumpSnapshot, renameSnapshot, syscall, h0, h1]
      · simp [checkpoint, hdir, dumpSnapshot, renameSnapshot, syscall, h0, h1]
    | ok =>
      refine Or.inr ⟨⟨rfl, rfl⟩, ?_, ?_⟩
      · simp [checkpoint, hdir, dumpSnapshot, renameSnapshot, syscall, h0, h1, snapshotted,
          Nat.add_assoc]
      · simp [checkpoint, hdir, dumpSnapshot, renameSnapshot, syscall, h0, h1, snapshotted,
          Nat.add_assoc]

theorem checkpoint_disabled (hdir : o.snapshotDir = "") :
    (checkpoint o io w).val = .invalidArgument ∧ (checkpoint o io w).state = w := by
  simp [checkpoint, hdir]

@[simp] theorem probe_used : ((probe : M K Status) io w).used = 1 := by
  cases h0 : io 0 <;> simp [probe, h0]

@[simp] theorem probe_state : ((probe : M K Status) io w).state = w := by
  cases h0 : io 0 <;> simp [probe, h0]

theorem probe_cases : ((probe : M K Status) io w).val = .ok ∨
    ((probe : M K Status) io w).val = .ioError := by
  cases h0 : io 0 <;> simp [probe, h0]

/-! Whatever fails, an append and the checkpoint it triggers work on the log and the snapshot
only. -/

instance : Std.Refl (LogOnly : World K → World K → Prop) :=
  ⟨fun _ => ⟨rfl, rfl, rfl, rfl, rfl, rfl⟩⟩

instance : IsTrans (World K) LogOnly :=
  ⟨fun _ _ _ h h' => ⟨h'.segs.trans h.segs, h'.mgr.trans h.mgr, h'.map.trans h.map,
    h'.opened.trans h.opened, h'.images.trans h.images, h'.managerState.trans h.managerState⟩⟩

theorem probe_logOnly : Moves LogOnly (probe : M K Status) := by
  intro io w
  rw [probe_state]
  exact Std.Refl.refl w

theorem pwrite_logOnly (len : ℕ) {upto : ℕ → World K → World K}
    (h : ∀ n w, LogOnly w (upto n w)) : Moves LogOnly (pwrite len upto) := by
  refine Moves.draw.bind fun outcome => ?_
  cases outcome with
  | ok =>
    exact (Moves.emit _).bind fun _ =>
      (Moves.change (h _)).bind fun _ => Moves.ret _
  | fail n =>
    exact (Moves.emit _).bind fun _ =>
      (Moves.change (h _)).bind fun _ => Moves.ret _

theorem rotateWal_logOnly : Moves LogOnly (rotateWal : M K Status) := by
  intro io w
  cases hwal : w.wal with
  | none =>
    rw [(rotateWal_none io hwal).2]
    exact Std.Refl.refl w
  | some writer =>
    rcases rotateWal_cases io hwal with ⟨-, h⟩ | ⟨-, h⟩ | ⟨-, h⟩ <;> rw [h] <;>
      exact ⟨rfl, rfl, rfl, rfl, rfl, rfl⟩

theorem checkpoint_logOnly : Moves LogOnly (checkpoint o : M K Status) := by
  intro io w
  by_cases hdir : o.snapshotDir = ""
  · rw [(checkpoint_disabled (w := w) io hdir).2]
    exact Std.Refl.refl w
  · rcases checkpoint_cases (w := w) io hdir with ⟨-, -, tmp, h⟩ | ⟨-, -, h⟩
    · rw [h]
      exact ⟨rfl, rfl, rfl, rfl, rfl, rfl⟩
    · rw [h]
      have hdump : LogOnly w (snapshotted w) := ⟨rfl, rfl, rfl, rfl, rfl, rfl⟩
      exact IsTrans.trans _ _ _ hdump (rotateWal_logOnly _ _)

variable [KeyType K]

theorem walAppend_logOnly (writer : WalWriter) (rec : WalRecord K) :
    Moves LogOnly (walAppend writer rec) := by
  refine Moves.ite (Moves.ret _) ?_
  refine Moves.bind (pwrite_logOnly _ ?_) fun _ => Moves.ite (Moves.ret _) ?_
  · intro n w
    exact ⟨rfl, rfl, rfl, rfl, rfl, rfl⟩
  refine Moves.bind (Moves.change ?_) fun _ => ?_
  · intro w
    exact ⟨rfl, rfl, rfl, rfl, rfl, rfl⟩
  refine probe_logOnly.bind fun _ => Moves.ite ?_ ?_
  · exact Moves.ret _
  · exact Moves.ret _

theorem appendWal_logOnly (rec : WalRecord K) : Moves LogOnly (appendWal o rec) := by
  refine Moves.read.bind fun w => ?_
  cases w.wal with
  | none => exact Moves.ret _
  | some writer =>
    refine (walAppend_logOnly writer rec).bind fun _ =>
      Moves.ite (Moves.ret _) ?_
    refine Moves.read.bind fun _ => ?_
    refine Moves.bind (Moves.change ?_) fun _ => Moves.ite (checkpoint_logOnly.bind fun _ => ?_) ?_
    · intro w
      exact ⟨rfl, rfl, rfl, rfl, rfl, rfl⟩
    · exact Moves.ret _
    · exact Moves.ret _

theorem appendWal_mgr (rec : WalRecord K) (w : World K) :
    (run (appendWal o rec) w).state.mgr = w.mgr :=
  (appendWal_logOnly rec (fun _ => .ok) w).mgr

/-! The stages of `Open`. -/

variable [DecidableEq K]

theorem replayWal_cases (file : Bytes) :
    ((replayWal file io w).val = (.ok, (walReplay (K := K) file).2) ∧
      (replayWal file io w).state =
        { w with map := (walReplay file).1.foldl applyRecord w.map }) ∨
    (replayWal file io w).val = (.ioError, 0) ∧ ∃ recs, recs <+: (walReplay (K := K) file).1 ∧
      (replayWal file io w).state = { w with map := recs.foldl applyRecord w.map } := by
  cases h0 : io 0 with
  | ok =>
    left
    simp [replayWal, h0]
  | fail n =>
    right
    refine ⟨?_, _, walReplay_cut file n, ?_⟩
    · simp [replayWal, h0]
    · simp [replayWal, h0]

theorem openLog_cases {file : Bytes} (hfile : w.disk.wal = some file) :
    ((openLog io w).val ≠ .ok ∧ ∃ recs, recs <+: (walReplay (K := K) file).1 ∧
      (openLog io w).state = { w with map := recs.foldl applyRecord w.map }) ∨
    ((openLog io w).val = .ok ∧ (openLog io w).state =
      { w with
        map := (walReplay file).1.foldl applyRecord w.map
        disk := { w.disk with wal := some (file.take (walReplay (K := K) file).2) } }) := by
  rcases probe_cases (w := w) io with hprobe | hprobe
  · rcases replayWal_cases (fun n => io (n + 1)) (w := w) file with
      ⟨hval, hstate⟩ | ⟨hval, recs, hrecs, hstate⟩
    · cases h2 : io ((replayWal file (fun n => io (n + 1)) w).used + 1) with
      | ok =>
        right
        simp [openLog, hfile, hprobe, hval, hstate, syscall, h2, World.setWalFile]
      | fail n =>
        refine Or.inl ⟨?_, _, List.prefix_rfl, ?_⟩
        · simp [openLog, hfile, hprobe, hval, hstate, syscall, h2]
        · simp [openLog, hfile, hprobe, hval, hstate, syscall, h2]
    · refine Or.inl ⟨?_, recs, hrecs, ?_⟩
      · simp [openLog, hfile, hprobe, hval]
      · simp [openLog, hfile, hprobe, hval, hstate]
  · refine Or.inl ⟨?_, [], List.nil_prefix, ?_⟩
    · simp [openLog, hfile, hprobe]
    · simp [openLog, hfile, hprobe]

theorem openLog_none (hfile : w.disk.wal = none) :
    (openLog io w).val = .ok ∧ (openLog io w).state = w := by
  simp [openLog, hfile]

theorem openWriter_cases {K : Type} {w : World K} :
    (openWriter io w).val = .ok ∨ ∃ file, (file = w.disk.wal ∨ file = some (w.disk.wal.getD [])) ∧
      (openWriter io w).state =
        { w with disk := { w.disk with wal := file }, wal := some ⟨false, 0⟩ } := by
  cases h0 : io 0 with
  | fail n =>
    refine Or.inr ⟨_, Or.inl rfl, ?_⟩
    simp [openWriter, walOpen, syscall, h0]
  | ok =>
    cases h1 : io 1 with
    | fail n =>
      refine Or.inr ⟨_, Or.inr rfl, ?_⟩
      simp [openWriter, walOpen, syscall, probe, h0, h1, World.setWalFile]
    | ok =>
      left
      simp [openWriter, walOpen, syscall, probe, h0, h1]

end ParaKV.Index.Faults
