/- GID: ParaKV/Index/LogWriter
   source: parakv/core/index/wal.cc
   digest: Appends of one record and of batches under failing writes, and what replay makes of
     them. -/

import ParaKV.Index.Durability

set_option autoImplicit false

namespace ParaKV.Index.LogWriter

open Lib.TracedProgram Index.Key Index.Wal Index.Operations Core.State

variable {K : Type} [KeyType K]

def writeLocked (buf : Bytes) : M K Status := do
  let writer := (← get).wal.getD ⟨false, 0⟩
  if !writer.isOpen then return .ioError
  let st ← pwrite buf.length fun n w =>
    w.setWalFile (some (writeAt (w.disk.wal.getD []) writer.bytesWritten (buf.take n)))
  if st ≠ .ok then return st
  modify fun w => { w with
    wal := some { writer with bytesWritten := writer.bytesWritten + buf.length } }
  return .ok

/-- `WalWriter::Append` of `n` bytes; the null pointer is the empty buffer. -/
def append (buf : Bytes) : M K Status := do
  if buf = [] then return .invalidArgument
  let st ← writeLocked buf
  if st ≠ .ok then return st
  let st ← probe
  if st ≠ .ok then return .ioError
  return .ok

/-- The loop of `AppendBatch` over the `n` records from `i` on. -/
def batchLoop (buf : Bytes) (recordSize : ℕ) : ℕ → ℕ → M K Status
  | 0, _ => return .ok
  | n + 1, i => do
    let st ← writeLocked ((buf.drop (i * recordSize)).take recordSize)
    if st ≠ .ok then return st
    batchLoop buf recordSize n (i + 1)

def appendBatch (buf : Bytes) (recordSize count : ℕ) : M K Status := do
  if buf = [] ∨ recordSize = 0 ∨ count = 0 then return .invalidArgument
  let st ← batchLoop buf recordSize count 0
  if st ≠ .ok then return st
  let st ← probe
  if st ≠ .ok then return .ioError
  return .ok

variable {w : World K} {recs : List (WalRecord K)}

theorem encode_ne_nil (rec : WalRecord K) : rec.encode ≠ [] := by
  intro hnil
  have hlength := rec.length_encode
  have hpos := kEncodedSize_pos (K := K)
  simp [hnil] at hlength
  omega

theorem append_eq_walAppend {writer : WalWriter} (hwal : w.wal = some writer) (rec : WalRecord K)
    (io : ℕ → IoOutcome) :
    (append rec.encode io w).val = (walAppend writer rec io w).val ∧
      (append rec.encode io w).state = (walAppend writer rec io w).state ∧
      (append rec.encode io w).used = (walAppend writer rec io w).used := by
  cases hopen : writer.isOpen with
  | false => simp [append, writeLocked, walAppend, hwal, hopen, encode_ne_nil rec]
  | true =>
    cases h0 : io 0 with
    | fail n => simp [append, writeLocked, walAppend, pwrite, hwal, hopen, h0, encode_ne_nil rec]
    | ok =>
      cases h1 : io 1 <;>
        simp [append, writeLocked, walAppend, pwrite, probe, hwal, hopen, h0, h1, encode_ne_nil rec]

/-! The log file under failing writes. -/

/-- The file begins with the records, what follows is shorter than a record, and the writer stands
in between. -/
structure Logs (w : World K) (recs : List (WalRecord K)) : Prop where
  file : ∃ tail, w.disk.wal.getD [] = encodeAll recs ++ tail ∧ tail.length < kEncodedSize K
  writer : w.wal = some ⟨true, (encodeAll recs).length⟩

theorem Logs.replay (h : Logs w recs) (hknown : ∀ rec ∈ recs, rec.type.Known) :
    (walReplay (w.disk.wal.getD [])).1 = recs := by
  obtain ⟨tail, hfile, htail⟩ := h.file
  rw [hfile, walReplay_encodeAll recs tail hknown htail]

theorem writeAt_tail (pre tail b : Bytes) :
    writeAt (pre ++ tail) pre.length b = pre ++ (b ++ tail.drop b.length) := by
  have htake : (pre ++ tail).take pre.length = pre := List.take_left
  have hdrop : (pre ++ tail).drop (pre.length + b.length) = tail.drop b.length := by
    rw [← List.drop_drop, List.drop_left]
  have hgap : pre.length - (pre ++ tail).length = 0 := by simp
  rw [writeAt, htake, hdrop, hgap]
  simp

theorem writeLocked_logs (h : Logs w recs) (rec : WalRecord K) (io : ℕ → IoOutcome) :
    (writeLocked rec.encode io w).used = 1 ∧
      (io 0 = .ok → (writeLocked rec.encode io w).val = .ok ∧
        Logs (writeLocked rec.encode io w).state (recs ++ [rec])) ∧
      (io 0 ≠ .ok → (writeLocked rec.encode io w).val = .ioError ∧
        Logs (writeLocked rec.encode io w).state recs) := by
  obtain ⟨tail, hfile, htail⟩ := h.file
  have hlength := rec.length_encode
  cases h0 : io 0 with
  | ok =>
    have hrun : (writeLocked rec.encode io w).used = 1 ∧
        (writeLocked rec.encode io w).val = .ok ∧
        (writeLocked rec.encode io w).state = { w.setWalFile (some (encodeAll recs ++
          (rec.encode ++ tail.drop rec.encode.length))) with
          wal := some ⟨true, (encodeAll recs).length + rec.encode.length⟩ } := by
      have htake : rec.encode.take (kEncodedSize K) = rec.encode :=
        List.take_of_length_le (le_of_eq hlength)
      simp [writeLocked, pwrite, h.writer, h0, hfile, writeAt_tail, htake]
    refine ⟨hrun.1, fun _ => ⟨hrun.2.1, ?_⟩, fun hne => (hne rfl).elim⟩
    rw [hrun.2.2]
    refine ⟨⟨tail.drop rec.encode.length, ?_, ?_⟩, ?_⟩
    · simp [World.setWalFile, encodeAll_append]
    · rw [List.length_drop]
      omega
    · simp [encodeAll_append]
  | fail n =>
    let part := rec.encode.take (min n (rec.encode.length - 1))
    have hrun : (writeLocked rec.encode io w).used = 1 ∧
        (writeLocked rec.encode io w).val = .ioError ∧
        (writeLocked rec.encode io w).state = w.setWalFile (some (encodeAll recs ++
          (part ++ tail.drop part.length))) := by
      simp [writeLocked, pwrite, h.writer, h0, hfile, writeAt_tail, part]
    have hpart : part.length < kEncodedSize K := by
      have hpos := kEncodedSize_pos (K := K)
      simp only [part, List.length_take]
      omega
    refine ⟨hrun.1, fun hok => absurd hok (by simp), fun _ => ⟨hrun.2.1, ?_⟩⟩
    rw [hrun.2.2]
    refine ⟨⟨part ++ tail.drop part.length, rfl, ?_⟩, h.writer⟩
    rw [List.length_append, List.length_drop]
    omega

/-- The records of a call that are written as a whole, by the outcomes of their writes. -/
def wholeRecords (io : ℕ → IoOutcome) : List (WalRecord K) → List (WalRecord K)
  | [] => []
  | rec :: recs =>
    match io 0 with
    | .ok => rec :: wholeRecords (fun n => io (n + 1)) recs
    | .fail _ => []

theorem wholeRecords_ok {K : Type} (io : ℕ → IoOutcome) (recs : List (WalRecord K))
    (h : ∀ i < recs.length, io i = .ok) : wholeRecords io recs = recs := by
  induction recs generalizing io with
  | nil => rfl
  | cons rec recs ih =>
    have hrest := ih (fun n => io (n + 1)) fun i hi => h (i + 1) (by simpa using hi)
    simp [wholeRecords, h 0 (by simp), hrest]

theorem wholeRecords_eq_nil {K : Type} (io : ℕ → IoOutcome) (recs : List (WalRecord K)) :
    wholeRecords io recs = [] ↔ recs = [] ∨ io 0 ≠ .ok := by
  cases recs with
  | nil => simp [wholeRecords]
  | cons rec recs => cases h0 : io 0 <;> simp [wholeRecords, h0]

theorem wholeRecords_isPrefix {K : Type} (io : ℕ → IoOutcome) (recs : List (WalRecord K)) :
    wholeRecords io recs <+: recs := by
  induction recs generalizing io with
  | nil => exact List.nil_prefix
  | cons rec recs ih =>
    cases h0 : io 0 with
    | ok => simpa [wholeRecords, h0] using ih fun n => io (n + 1)
    | fail n => simp [wholeRecords, h0]

theorem batchLoop_logs {done : List (WalRecord K)} (rest : List (WalRecord K)) {buf : Bytes} {i : ℕ}
    (io : ℕ → IoOutcome) (hbuf : buf.drop (i * kEncodedSize K) = encodeAll rest)
    (h : Logs w done) :
    let r := batchLoop buf (kEncodedSize K) rest.length i io w
    Logs r.state (done ++ wholeRecords io rest) ∧
      (r.val = .ok ↔ ∀ j < rest.length, io j = .ok) ∧ (r.val = .ok → r.used = rest.length) := by
  induction rest generalizing w done i io with
  | nil => simp [batchLoop, wholeRecords, h]
  | cons rec rest ih =>
    have hsplit : buf.drop (i * kEncodedSize K) = rec.encode ++ encodeAll rest := by
      rw [hbuf]
      simp [encodeAll]
    have hslice : (buf.drop (i * kEncodedSize K)).take (kEncodedSize K) = rec.encode := by
      rw [hsplit, List.take_left' rec.length_encode]
    have hnext : buf.drop ((i + 1) * kEncodedSize K) = encodeAll rest := by
      rw [Nat.succ_mul, ← List.drop_drop, hsplit, List.drop_left' rec.length_encode]
    obtain ⟨hused, hok, hfail⟩ := writeLocked_logs h rec io
    intro r
    by_cases h0 : io 0 = .ok
    · obtain ⟨hval, hlogs⟩ := hok h0
      obtain ⟨hstate, hall, hcount⟩ := ih (fun n => io (n + 1)) hnext hlogs
      have hr : r.val = (batchLoop buf (kEncodedSize K) rest.length (i + 1) (fun n => io (n + 1))
            (writeLocked rec.encode io w).state).val ∧
          r.state = (batchLoop buf (kEncodedSize K) rest.length (i + 1) (fun n => io (n + 1))
            (writeLocked rec.encode io w).state).state ∧
          r.used = 1 + (batchLoop buf (kEncodedSize K) rest.length (i + 1) (fun n => io (n + 1))
            (writeLocked rec.encode io w).state).used := by
        simp [r, batchLoop, hslice, hval, hused]
      refine ⟨?_, ?_, fun hend => ?_⟩
      · rw [hr.2.1]
        simpa [wholeRecords, h0] using hstate
      · rw [hr.1, hall]
        constructor
        · intro hrest j hj
          cases j with
          | zero => exact h0
          | succ j => exact hrest j (by simpa using hj)
        · intro hrest j hj
          exact hrest (j + 1) (by simpa using hj)
      · rw [hr.2.2, hcount (hr.1 ▸ hend), List.length_cons]
        omega
    · obtain ⟨hval, hlogs⟩ := hfail h0
      have hr : r.val = .ioError ∧ r.state = (writeLocked rec.encode io w).state := by
        simp [r, batchLoop, hslice, hval]
      have hnone : wholeRecords io (rec :: rest) = [] :=
        (wholeRecords_eq_nil io _).mpr (Or.inr h0)
      rw [hr.1, hr.2, hnone]
      refine ⟨by simpa using hlogs, ⟨fun hok => absurd hok (by simp), fun hall => ?_⟩,
        fun hok => absurd hok (by simp)⟩
      exact (h0 (hall 0 (by simp))).elim

/-! Calls. -/

inductive Call (K : Type)
  | append (rec : WalRecord K)
  | appendBatch (recs : List (WalRecord K))

def Call.records : Call K → List (WalRecord K)
  | .append rec => [rec]
  | .appendBatch recs => recs

def Call.program : Call K → M K Status
  | .append rec => LogWriter.append rec.encode
  | .appendBatch recs => LogWriter.appendBatch (encodeAll recs) (kEncodedSize K) recs.length

/-- A call together with the outcomes of its writes and of its `fsync`. -/
structure Attempt (K : Type) where
  call : Call K
  io : ℕ → IoOutcome

theorem append_logs (h : Logs w recs) (rec : WalRecord K) (io : ℕ → IoOutcome) :
    let r := append rec.encode io w
    Logs r.state (recs ++ wholeRecords io [rec]) ∧ (r.val = .ok ↔ ∀ i ≤ 1, io i = .ok) := by
  intro r
  obtain ⟨hused, hok, hfail⟩ := writeLocked_logs h rec io
  by_cases h0 : io 0 = .ok
  · obtain ⟨hval, hlogs⟩ := hok h0
    have hwhole : wholeRecords io [rec] = [rec] := by simp [wholeRecords, h0]
    have hr : r.state = (writeLocked rec.encode io w).state ∧
        (r.val = .ok ↔ io 1 = .ok) := by
      cases h1 : io 1 <;> simp [r, append, encode_ne_nil rec, hval, hused, probe, h1]
    rw [hr.1, hr.2, hwhole]
    refine ⟨hlogs, fun h1 i hi => ?_, fun hall => hall 1 (le_refl 1)⟩
    rcases Nat.le_one_iff_eq_zero_or_eq_one.mp hi with rfl | rfl
    · exact h0
    · exact h1
  · obtain ⟨hval, hlogs⟩ := hfail h0
    have hr : r.state = (writeLocked rec.encode io w).state ∧ r.val = .ioError := by
      simp [r, append, encode_ne_nil rec, hval]
    have hnone : wholeRecords io [rec] = [] := (wholeRecords_eq_nil io _).mpr (Or.inr h0)
    rw [hr.1, hr.2, hnone, List.append_nil]
    exact ⟨hlogs, fun hok => absurd hok (by simp), fun hall => (h0 (hall 0 (by omega))).elim⟩

theorem appendBatch_logs {done : List (WalRecord K)} (h : Logs w done)
    (batch : List (WalRecord K)) (io : ℕ → IoOutcome) :
    let r := appendBatch (encodeAll batch) (kEncodedSize K) batch.length io w
    Logs r.state (done ++ wholeRecords io batch) ∧
      (r.val = .ok ↔ batch ≠ [] ∧ ∀ i ≤ batch.length, io i = .ok) := by
  intro r
  cases batch with
  | nil =>
    have hr : r.state = w ∧ r.val = .invalidArgument := by simp [r, appendBatch]
    rw [hr.1, hr.2]
    simpa [wholeRecords] using h
  | cons rec rest =>
    have hpos := kEncodedSize_pos (K := K)
    have hguard : ¬ (encodeAll (rec :: rest) = [] ∨ kEncodedSize K = 0 ∨
        (rec :: rest).length = 0) := by
      have hne : kEncodedSize K ≠ 0 := by omega
      simp [encodeAll, encode_ne_nil rec, hne]
    set loop := batchLoop (encodeAll (rec :: rest)) (kEncodedSize K) (rec :: rest).length 0 io w
      with hloop
    obtain ⟨hlogs, hall, hused⟩ : Logs loop.state (done ++ wholeRecords io (rec :: rest)) ∧
        (loop.val = .ok ↔ ∀ j < (rec :: rest).length, io j = .ok) ∧
        (loop.val = .ok → loop.used = (rec :: rest).length) :=
      batchLoop_logs (rec :: rest) io (by simp) h
    by_cases hval : loop.val = .ok
    · have hcount := hused hval
      have hr : r.state = loop.state ∧ (r.val = .ok ↔ io (rec :: rest).length = .ok) := by
        cases hend : io (rec :: rest).length <;>
          simp only [r, appendBatch, if_neg hguard, Prog.bind_val, Prog.bind_state, ← hloop, hval,
            hcount, probe, Prog.draw_val, Prog.draw_used, Prog.draw_state, Nat.zero_add, hend,
            ne_eq, not_true_eq_false, if_false, Prog.pure_val, Prog.pure_state, reduceCtorEq,
            not_false_eq_true, if_true, and_self]
      rw [hr.1, hr.2]
      refine ⟨hlogs, fun hend => ⟨by simp, fun i hi => ?_⟩, fun hok => hok.2 _ (le_refl _)⟩
      rcases Nat.lt_or_eq_of_le hi with hlt | rfl
      · exact hall.mp hval i hlt
      · exact hend
    · have hr : r.state = loop.state ∧ r.val = loop.val := by
        simp only [r, appendBatch, if_neg hguard, Prog.bind_val, Prog.bind_state, ← hloop, hval,
          ne_eq, not_false_eq_true, if_true, Prog.pure_val, Prog.pure_state, and_self]
      rw [hr.1, hr.2]
      refine ⟨hlogs, fun hok => (hval hok).elim, fun hok => ?_⟩
      exact hall.mpr fun j hj => hok.2 j (le_of_lt hj)

theorem attempt_logs {done : List (WalRecord K)} (h : Logs w done) (a : Attempt K) :
    let r := a.call.program a.io w
    Logs r.state (done ++ wholeRecords a.io a.call.records) ∧
      (r.val = .ok ↔ a.call.records ≠ [] ∧ ∀ i ≤ a.call.records.length, a.io i = .ok) := by
  obtain ⟨call, io⟩ := a
  cases call with
  | append rec =>
    obtain ⟨hlogs, hval⟩ := append_logs h rec io
    exact ⟨hlogs, by simpa [Call.records, Call.program] using hval⟩
  | appendBatch batch => exact appendBatch_logs h batch io

/-! Sequences of calls. -/

/-- The world, and the records of the calls that returned `kOk`. -/
def attempt (s : World K × List (WalRecord K)) (a : Attempt K) : World K × List (WalRecord K) :=
  let r := a.call.program a.io s.1
  (r.state, if r.val = .ok then s.2 ++ a.call.records else s.2)

def freshLog (K : Type) : World K := (run openWriter (World.boot (Disk.empty K))).state

theorem logs_freshLog : Logs (freshLog K) [] := by
  refine ⟨⟨[], ?_, kEncodedSize_pos⟩, ?_⟩
  · simp [freshLog, openWriter, walOpen, World.setWalFile, World.boot, Disk.empty]
  · simp [freshLog, openWriter, walOpen, World.setWalFile, World.boot, Disk.empty]

/-- A call fails in the write of its first record, if at all. -/
def Attempt.Clean (a : Attempt K) : Prop :=
  a.call.records = [] ∨ a.io 0 ≠ .ok ∨ ∀ i ≤ a.call.records.length, a.io i = .ok

/-- What a call adds to the log and to the acknowledged records: the same if it is clean, and else
more to the log. -/
theorem clean_iff {done : List (WalRecord K)} (h : Logs w done) (a : Attempt K) :
    let acked := if (a.call.program a.io w).val = .ok then a.call.records else []
    acked.length ≤ (wholeRecords a.io a.call.records).length ∧
      (wholeRecords a.io a.call.records = acked ↔ a.Clean) := by
  obtain ⟨-, hval⟩ := attempt_logs h a
  by_cases hok : (a.call.program a.io w).val = .ok
  · obtain ⟨-, hall⟩ := hval.mp hok
    have hwhole := wholeRecords_ok a.io a.call.records fun i hi => hall i (le_of_lt hi)
    rw [if_pos hok, hwhole]
    exact ⟨le_refl _, fun _ => Or.inr (Or.inr hall), fun _ => rfl⟩
  · rw [if_neg hok]
    change 0 ≤ _ ∧ (wholeRecords a.io a.call.records = [] ↔ a.Clean)
    rw [wholeRecords_eq_nil]
    refine ⟨Nat.zero_le _, fun hnone => ?_, fun hclean => ?_⟩
    · exact hnone.imp_right Or.inl
    · rcases hclean with hnil | hfirst | hall
      · exact Or.inl hnil
      · exact Or.inr hfirst
      · exact or_iff_not_imp_left.mpr fun hne => (hok (hval.mpr ⟨hne, hall⟩)).elim

theorem attempts_logs (attempts : List (Attempt K)) {done : List (WalRecord K)}
    (acked : List (WalRecord K)) (h : Logs w done)
    (hknown : ∀ a ∈ attempts, ∀ rec ∈ a.call.records, rec.type.Known) :
    ∃ written added, Logs (attempts.foldl attempt (w, acked)).1 (done ++ written) ∧
      (attempts.foldl attempt (w, acked)).2 = acked ++ added ∧ added.length ≤ written.length ∧
      (∀ rec ∈ written, rec.type.Known) ∧
      (written = added ↔ ∀ a ∈ attempts, a.Clean) := by
  induction attempts generalizing w done acked with
  | nil => exact ⟨[], [], by simpa using h, by simp, le_refl _, by simp, by simp⟩
  | cons a attempts ih =>
    set first := wholeRecords a.io a.call.records with hfirst
    set mine := if (a.call.program a.io w).val = .ok then a.call.records else [] with hmine
    obtain ⟨hle, hclean⟩ : mine.length ≤ first.length ∧ (first = mine ↔ a.Clean) := clean_iff h a
    have hstep : attempt (w, acked) a = ((a.call.program a.io w).state, acked ++ mine) := by
      simp only [attempt, hmine]
      split_ifs <;> simp
    obtain ⟨written, added, hlogs, hacked, hle', hknown', hclean'⟩ :=
      ih (acked ++ mine) (attempt_logs h a).1 fun b hb => hknown b (by simp [hb])
    refine ⟨first ++ written, mine ++ added, ?_, ?_, ?_, ?_, ?_⟩
    · rw [List.foldl_cons, hstep, ← List.append_assoc]
      exact hlogs
    · rw [List.foldl_cons, hstep, hacked, List.append_assoc]
    · rw [List.length_append, List.length_append]
      omega
    · intro rec hrec
      rcases List.mem_append.mp hrec with hrec | hrec
      · exact hknown a (by simp) rec ((wholeRecords_isPrefix a.io _).subset hrec)
      · exact hknown' rec hrec
    · rw [List.forall_mem_cons, ← hclean, ← hclean']
      constructor
      · intro heq
        -- neither part is longer than its counterpart in the log
        have hlength := congrArg List.length heq
        rw [List.length_append, List.length_append] at hlength
        exact List.append_inj heq (by omega)
      · rintro ⟨heq, heq'⟩
        rw [heq, heq']

/-- On a fresh log, replay gives the records of the calls that returned `kOk`, in their order,
exactly when each call that failed did so in the write of its first record. -/
theorem replay_acknowledged_iff (attempts : List (Attempt K))
    (hknown : ∀ a ∈ attempts, ∀ rec ∈ a.call.records, rec.type.Known) :
    let s := attempts.foldl attempt (freshLog K, [])
    (walReplay (s.1.disk.wal.getD [])).1 = s.2 ↔ ∀ a ∈ attempts, a.Clean := by
  obtain ⟨written, added, hlogs, hacked, -, hwritten, hclean⟩ :=
    attempts_logs attempts [] logs_freshLog hknown
  intro s
  rw [hlogs.replay (by simpa using hwritten), hacked, List.nil_append, List.nil_append]
  exact hclean

def sampleRecord (n : ℕ) : WalRecord Key64 := ⟨.insert, UInt64.ofNat n, UInt64.ofNat n, 0⟩

/-- The `fsync` of an append fails: the call returns an error, its record is replayed. -/
theorem failed_fsync_keeps_record :
    let s := [⟨.append (sampleRecord 1), fun n => if n = 1 then .fail 0 else .ok⟩].foldl attempt
      (freshLog Key64, [])
    (walReplay (s.1.disk.wal.getD [])).1 = [sampleRecord 1] ∧ s.2 = [] := by
  decide +kernel

/-- An append that stops after five bytes, between calls that go through. -/
def tornAttempts : List (Attempt Key64) :=
  [⟨.append (sampleRecord 1), fun _ => .ok⟩, ⟨.append (sampleRecord 2), fun _ => .fail 5⟩,
    ⟨.appendBatch [sampleRecord 3, sampleRecord 4], fun _ => .ok⟩,
    ⟨.appendBatch [sampleRecord 5, sampleRecord 6], fun n => if n = 0 then .fail 7 else .ok⟩]

theorem replay_acknowledged_iff_torn :
    let s := tornAttempts.foldl attempt (freshLog Key64, [])
    s.2 = [sampleRecord 1, sampleRecord 3, sampleRecord 4] ∧
      (walReplay (s.1.disk.wal.getD [])).1 = s.2 := by
  refine ⟨by decide +kernel, (replay_acknowledged_iff tornAttempts ?_).mpr ?_⟩
  · have htype : ∀ n, (sampleRecord n).type.Known := fun n b => by simp [sampleRecord]
    simp [tornAttempts, Call.records, htype]
  · simp [tornAttempts, Attempt.Clean, Call.records]

end ParaKV.Index.LogWriter
