/- GID: ParaKV/Index/TornTail
   source: parakv/core/index/wal.cc, parakv/core/index/wal.h, parakv/core/index/index.cc
   digest: Replay through partial reads, and rounds of torn logs, truncation and appends. -/

import ParaKV.Lib.StepRun
import ParaKV.Index.LogWriter

set_option autoImplicit false

namespace ParaKV.Index.TornTail

open Lib.StepRun Index.Key Index.Wal Index.Operations Index.Durability Index.LogWriter Core.State

variable {K : Type} [KeyType K]

/-! Reading in chunks. -/

/-- What the `k`-th call of `read` does: `some n` allows it up to `n + 1` bytes, `none` is an
error. An interrupted call is repeated as it was and does not count. -/
abbrev Reads := ℕ → Option ℕ

/-- The number of calls made and the bytes from the file cursor on. -/
structure Cursor where
  calls : ℕ
  rest : Bytes

/-- The returns of `ReadAll`: its statuses, with `kOk` split by the flag `eof`. -/
inductive ReadResult
  | ok (buf : Bytes)
  | eof
  | corruption
  | ioError

/-- The loop of `ReadAll`. A call that returns bytes lowers the count, so that a fuel of the first
count is never used up. -/
def readAllLoop (reads : Reads) : ℕ → ℕ → Bytes → Cursor → ReadResult × Cursor
  | _, 0, got, c => (.ok got, c)
  | 0, _ + 1, got, c => (.ok got, c)
  | fuel + 1, count + 1, got, c =>
    match reads c.calls with
    | none => (.ioError, ⟨c.calls + 1, c.rest⟩)
    | some n =>
      let chunk := c.rest.take (min (n + 1) (count + 1))
      let c' : Cursor := ⟨c.calls + 1, c.rest.drop chunk.length⟩
      if chunk.length = 0 then (if got.length = 0 then .eof else .corruption, c')
      else readAllLoop reads fuel (count + 1 - chunk.length) (got ++ chunk) c'

def readAllFrom (reads : Reads) (count : ℕ) (c : Cursor) : ReadResult × Cursor :=
  readAllLoop reads count count [] c

/-- What a replay leaves: its status, the records it applied, `LastGoodOffset`. -/
structure Replayed (K : Type) where
  status : Status
  applied : List (WalRecord K)
  lastGoodOffset : ℕ
  deriving DecidableEq

/-- The loop of `WalReader::Replay` with the callback of the typed overload. -/
def replayFrom (reads : Reads) : ℕ → Cursor → Replayed K
  | 0, _ => ⟨.ok, [], 0⟩
  | fuel + 1, c =>
    match readAllFrom reads (kEncodedSize K) c with
    | (.ioError, _) => ⟨.ioError, [], 0⟩
    | (.corruption, _) => ⟨.ok, [], 0⟩
    | (.eof, _) => ⟨.ok, [], 0⟩
    | (.ok buf, c') =>
      match WalRecord.decode buf with
      | none => ⟨.ok, [], 0⟩
      | some r =>
        let rest := replayFrom reads fuel c'
        ⟨rest.status, r :: rest.applied, rest.lastGoodOffset + kEncodedSize K⟩

/-- Each pass consumes a record, so the file length bounds the number of passes. -/
def replayFile (reads : Reads) (file : Bytes) : Replayed K :=
  replayFrom reads (file.length + 1) ⟨0, file⟩

def Reads.Succeed (reads : Reads) : Prop := ∀ k, (reads k).isSome = true

variable {reads : Reads}

theorem readAllLoop_enough (hreads : reads.Succeed) (fuel count : ℕ) (got : Bytes) (c : Cursor)
    (hfuel : count ≤ fuel) (henough : count ≤ c.rest.length) :
    ∃ k, readAllLoop reads fuel count got c =
      (.ok (got ++ c.rest.take count), ⟨k, c.rest.drop count⟩) := by
  induction fuel generalizing count got c with
  | zero =>
    obtain rfl : count = 0 := by omega
    exact ⟨c.calls, by simp [readAllLoop]⟩
  | succ fuel ih =>
    cases count with
    | zero => exact ⟨c.calls, by simp [readAllLoop]⟩
    | succ count =>
      obtain ⟨n, hn⟩ := Option.isSome_iff_exists.mp (hreads c.calls)
      set size := min (n + 1) (count + 1) with hsize
      have hchunk : (c.rest.take size).length = size := by
        rw [List.length_take]
        omega
      have hpos : size ≠ 0 := by omega
      obtain ⟨k, hk⟩ := ih (count + 1 - size) (got ++ c.rest.take size)
        ⟨c.calls + 1, c.rest.drop size⟩ (by omega) (by rw [List.length_drop]; omega)
      refine ⟨k, ?_⟩
      have hall : size + (count + 1 - size) = count + 1 := by omega
      simp only [readAllLoop, hn, ← hsize, hchunk, hpos, if_false, hk, List.append_assoc]
      rw [← List.take_add, List.drop_drop, hall]

theorem readAllLoop_short (hreads : reads.Succeed) (fuel count : ℕ) (got : Bytes) (c : Cursor)
    (hfuel : count ≤ fuel) (hshort : c.rest.length < count) :
    (readAllLoop reads fuel count got c).1 =
      if got.length + c.rest.length = 0 then .eof else .corruption := by
  induction fuel generalizing count got c with
  | zero => omega
  | succ fuel ih =>
    obtain ⟨count, rfl⟩ := Nat.exists_eq_succ_of_ne_zero (Nat.ne_zero_of_lt hshort)
    obtain ⟨n, hn⟩ := Option.isSome_iff_exists.mp (hreads c.calls)
    set size := min (n + 1) (count + 1) with hsize
    by_cases hempty : c.rest.length = 0
    · have hrest : c.rest = [] := List.length_eq_zero_iff.mp hempty
      simp only [readAllLoop, hn, hrest]
      simp
    · have hchunk : (c.rest.take size).length ≠ 0 := by
        rw [List.length_take]
        omega
      have hle : (c.rest.take size).length ≤ c.rest.length := List.length_take_le' ..
      have hrec := ih (count + 1 - (c.rest.take size).length) (got ++ c.rest.take size)
        ⟨c.calls + 1, c.rest.drop (c.rest.take size).length⟩ (by omega)
        (by simp only [List.length_drop]; omega)
      simp only [readAllLoop, hn, ← hsize, hchunk, if_false, hrec]
      rw [List.length_append, List.length_drop, if_neg (by omega), if_neg (by omega)]

theorem replayFrom_eq (hreads : reads.Succeed) (fuel : ℕ) (c : Cursor) :
    (replayFrom reads fuel c : Replayed K) =
      ⟨.ok, (replayLoop fuel c.rest).1, (replayLoop (K := K) fuel c.rest).2⟩ := by
  induction fuel generalizing c with
  | zero => rfl
  | succ fuel ih =>
    have hpos := kEncodedSize_pos (K := K)
    by_cases hshort : c.rest.length < kEncodedSize K
    · have hread := readAllLoop_short hreads (kEncodedSize K) (kEncodedSize K) [] c (Nat.le_refl _)
        hshort
      have hloop : replayLoop (K := K) (fuel + 1) c.rest = ([], 0) := by
        by_cases hempty : c.rest.length = 0 <;> simp [replayLoop, readAll, hempty, hshort]
      rw [hloop]
      unfold replayFrom readAllFrom
      generalize readAllLoop reads (kEncodedSize K) (kEncodedSize K) [] c = result at hread
      obtain ⟨result, c'⟩ := result
      obtain rfl : result = _ := hread
      by_cases hempty : c.rest.length = 0 <;> simp [hempty]
    · obtain ⟨k, hread⟩ := readAllLoop_enough hreads (kEncodedSize K) (kEncodedSize K) [] c
        (Nat.le_refl _) (Nat.le_of_not_lt hshort)
      have hfile : readAll (kEncodedSize K) c.rest =
          .data (c.rest.take (kEncodedSize K)) (c.rest.drop (kEncodedSize K)) := by
        unfold readAll
        rw [if_neg (by omega), if_neg hshort]
      simp only [replayFrom, readAllFrom, hread, replayLoop, hfile, List.nil_append]
      cases WalRecord.decode (K := K) (c.rest.take (kEncodedSize K)) with
      | none => rfl
      | some r => simp only [ih]

theorem replayFile_eq (hreads : reads.Succeed) (file : Bytes) :
    (replayFile reads file : Replayed K) =
      ⟨.ok, (walReplay file).1, (walReplay (K := K) file).2⟩ :=
  replayFrom_eq hreads _ _

/-! A log of whole records and a tail the scan stops at. -/

variable (K) in
/-- The block after the last whole record is incomplete or rejected. -/
def Stops (tail : Bytes) : Prop :=
  tail.length < kEncodedSize K ∨ WalRecord.decode (K := K) (tail.take (kEncodedSize K)) = none

instance (tail : Bytes) : Decidable (Stops K tail) :=
  inferInstanceAs (Decidable (_ ∨ _))

/-- The types of the records are written as `Decode` reads them. -/
def Canonical (rs : List (WalRecord K)) : Prop := ∀ r ∈ rs, r.type.Canonical

instance (rs : List (WalRecord K)) : Decidable (Canonical rs) :=
  inferInstanceAs (Decidable (∀ r ∈ rs, _))

theorem walReplay_stops (rs : List (WalRecord K)) (tail : Bytes) (hrs : Canonical rs)
    (htail : Stops K tail) :
    walReplay (encodeAll rs ++ tail) = (rs, (encodeAll rs).length) := by
  induction rs with
  | nil =>
    rw [encodeAll_nil, List.nil_append, walReplay_eq]
    rcases htail with hshort | hrejected
    · rw [if_pos hshort]
      rfl
    · rw [hrejected]
      simp
  | cons r rs ih =>
    have hfile : encodeAll (r :: rs) ++ tail = r.encode ++ (encodeAll rs ++ tail) := by
      simp [encodeAll]
    have hlength : (encodeAll (r :: rs)).length = (encodeAll rs).length + kEncodedSize K := by
      simp [encodeAll, Nat.add_comm]
    have hnot : ¬ (r.encode ++ (encodeAll rs ++ tail)).length < kEncodedSize K := by
      simp
    rw [hfile, walReplay_eq, if_neg hnot, List.take_left' r.length_encode,
      List.drop_left' r.length_encode, r.decode_encode_canonical (hrs r (by simp)),
      ih fun r' hr' => hrs r' (by simp [hr']), hlength]

def wholeBefore (rs : List (WalRecord K)) (cut : ℕ) : List (WalRecord K) :=
  rs.take (cut / kEncodedSize K)

/-- A crash leaves the file up to a cut, and perhaps other bytes after it. -/
def tornFile (file : Bytes) (cut : ℕ) (junk : Bytes) : Bytes := file.take cut ++ junk

/-- What follows the last whole record of a torn file. -/
def tornTail (rs : List (WalRecord K)) (cut : ℕ) (junk : Bytes) : Bytes :=
  (tornFile (encodeAll rs) cut junk).drop (encodeAll (wholeBefore rs cut)).length

theorem take_encodeAll (rs : List (WalRecord K)) (n : ℕ) :
    (encodeAll rs).take (n * kEncodedSize K) = encodeAll (rs.take n) := by
  by_cases hn : n ≤ rs.length
  · have hsplit : encodeAll rs = encodeAll (rs.take n) ++ encodeAll (rs.drop n) := by
      rw [← encodeAll_append, List.take_append_drop]
    have hlength : (encodeAll (rs.take n)).length = n * kEncodedSize K := by
      rw [length_encodeAll, List.length_take, min_eq_left hn]
    rw [hsplit, List.take_left' hlength]
  · have hlength : (encodeAll rs).length ≤ n * kEncodedSize K := by
      rw [length_encodeAll]
      exact Nat.mul_le_mul_right _ (by omega)
    rw [List.take_of_length_le hlength, List.take_of_length_le (by omega)]

theorem tornFile_eq (rs : List (WalRecord K)) (cut : ℕ) (junk : Bytes) :
    tornFile (encodeAll rs) cut junk = encodeAll (wholeBefore rs cut) ++ tornTail rs cut junk := by
  have hle : cut / kEncodedSize K * kEncodedSize K ≤ cut := Nat.div_mul_le_self ..
  have hwhole : encodeAll (wholeBefore rs cut) =
      ((encodeAll rs).take cut).take (cut / kEncodedSize K * kEncodedSize K) := by
    rw [List.take_take, min_eq_left hle, take_encodeAll]
    rfl
  have hsplit : tornFile (encodeAll rs) cut junk = encodeAll (wholeBefore rs cut) ++
      (((encodeAll rs).take cut).drop (cut / kEncodedSize K * kEncodedSize K) ++ junk) := by
    rw [hwhole, ← List.append_assoc, List.take_append_drop]
    rfl
  rw [tornTail, hsplit, List.drop_left]

theorem replayFile_torn (hreads : reads.Succeed) {rs : List (WalRecord K)} (hrs : Canonical rs)
    {cut : ℕ} {junk : Bytes} (hstop : Stops K (tornTail rs cut junk)) :
    replayFile reads (tornFile (encodeAll rs) cut junk) =
      ⟨.ok, wholeBefore rs cut, (encodeAll (wholeBefore rs cut)).length⟩ := by
  have hwhole : Canonical (wholeBefore rs cut) := fun r hr => hrs r (List.mem_of_mem_take hr)
  rw [replayFile_eq hreads, tornFile_eq, walReplay_stops _ _ hwhole hstop]

theorem replayFile_encodeAll (hreads : reads.Succeed) {rs : List (WalRecord K)}
    (hrs : Canonical rs) :
    replayFile reads (encodeAll rs) = ⟨.ok, rs, (encodeAll rs).length⟩ := by
  have hstop : Stops K [] := Or.inl (by simpa using kEncodedSize_pos (K := K))
  have hreplay := walReplay_stops rs [] hrs hstop
  rw [List.append_nil] at hreplay
  rw [replayFile_eq hreads, hreplay]

/-! Rounds: a crash, the recovery of `Index::Open`, and further appends. -/

variable [DecidableEq K]

/-- Step 2 of `Index::Open` with the reads of its replay. -/
def openLogFrom (reads : Reads) : M K Status := do
  match (← get).disk.wal with
  | none => return .ok
  | some file =>
    let st ← probe
    if st ≠ .ok then return .ioError
    let r : Replayed K := replayFile reads file
    modify fun w => { w with map := r.applied.foldl applyRecord w.map }
    if r.status ≠ .ok then return r.status
    let st ← syscall fun w => w.setWalFile (w.disk.wal.map (·.take r.lastGoodOffset))
    if st ≠ .ok then return .ioError
    return .ok

theorem run_openLogFrom (hreads : reads.Succeed) (w : World K) :
    (run (openLogFrom reads) w).val = (run openLog w).val ∧
      (run (openLogFrom reads) w).state = (run openLog w).state := by
  cases hwal : w.disk.wal with
  | none => simp [openLogFrom, openLog, hwal]
  | some file => simp [openLogFrom, openLog, replayWal, hwal, replayFile_eq hreads]

def appendAll : List (WalRecord K) → M K Status
  | [] => return .ok
  | rec :: recs => do
    let st ← append rec.encode
    if st ≠ .ok then return st
    appendAll recs

/-- The log part of `Index::Open` and the appends of the run that follows. -/
def reopen (reads : Reads) (news : List (WalRecord K)) : M K Status := do
  let st ← openLogFrom reads
  if st ≠ .ok then return st
  let st ← openWriter
  if st ≠ .ok then return st
  appendAll news

/-- The file is exactly the records and the writer stands at its end. -/
structure Exact (w : World K) (recs : List (WalRecord K)) : Prop where
  file : w.disk.wal = some (encodeAll recs)
  writer : w.wal = some ⟨true, (encodeAll recs).length⟩

variable {w : World K} {recs : List (WalRecord K)}

theorem exact_append {K : Type} [KeyType K] {w : World K} {recs : List (WalRecord K)}
    (h : Exact w recs) (rec : WalRecord K) :
    (run (append rec.encode) w).val = .ok ∧
      Exact (run (append rec.encode) w).state (recs ++ [rec]) := by
  have hwrite : writeAt (encodeAll recs) (encodeAll recs).length rec.encode =
      encodeAll (recs ++ [rec]) := by
    have htail := writeAt_tail (encodeAll recs) [] rec.encode
    simpa [encodeAll_append] using htail
  have htake : rec.encode.take (kEncodedSize K) = rec.encode :=
    List.take_of_length_le (le_of_eq rec.length_encode)
  refine ⟨by simp [append, writeLocked, encode_ne_nil rec, h.writer], ?_, ?_⟩
  · simp [append, writeLocked, encode_ne_nil rec, h.writer, h.file, World.setWalFile, htake,
      hwrite]
  · simp [append, writeLocked, encode_ne_nil rec, h.writer, encodeAll_append]

theorem exact_appendAll {K : Type} [KeyType K] {w : World K} {recs : List (WalRecord K)}
    (news : List (WalRecord K)) (h : Exact w recs) :
    (run (appendAll news) w).val = .ok ∧
      Exact (run (appendAll news) w).state (recs ++ news) := by
  induction news generalizing w recs with
  | nil => simpa [appendAll] using h
  | cons rec news ih =>
    obtain ⟨hval, hexact⟩ := exact_append h rec
    obtain ⟨hval', hexact'⟩ := ih hexact
    have hrun : (run (appendAll (rec :: news)) w).val =
          (run (appendAll news) (run (append rec.encode) w).state).val ∧
        (run (appendAll (rec :: news)) w).state =
          (run (appendAll news) (run (append rec.encode) w).state).state := by
      simp [appendAll, hval]
    rw [hrun.1, hrun.2]
    exact ⟨hval', by simpa using hexact'⟩

theorem exact_reopen (hreads : reads.Succeed) {rs : List (WalRecord K)} (hrs : Canonical rs)
    {cut : ℕ} {junk : Bytes} (hstop : Stops K (tornTail rs cut junk))
    (hfile : w.disk.wal = some (tornFile (encodeAll rs) cut junk)) (news : List (WalRecord K)) :
    (run (reopen reads news) w).val = .ok ∧
      Exact (run (reopen reads news) w).state (wholeBefore rs cut ++ news) := by
  have hreplay := replayFile_torn hreads hrs hstop
  have htruncate : (tornFile (encodeAll rs) cut junk).take
      (encodeAll (wholeBefore rs cut)).length = encodeAll (wholeBefore rs cut) := by
    rw [tornFile_eq, List.take_left]
  have hlog : (run (openLogFrom reads) w).val = .ok ∧
      (run (openLogFrom reads) w).state.disk.wal = some (encodeAll (wholeBefore rs cut)) := by
    simp [openLogFrom, hfile, hreplay, World.setWalFile, htruncate]
  obtain ⟨hwval, hwstate, -⟩ := run_openWriter (w := (run (openLogFrom reads) w).state)
  have hexact : Exact (run openWriter (run (openLogFrom reads) w).state).state
      (wholeBefore rs cut) := by
    rw [hwstate]
    exact ⟨by simp [hlog.2], by simp [hlog.2]⟩
  have hrun : (run (reopen reads news) w).val = (run (appendAll news)
        (run openWriter (run (openLogFrom reads) w).state).state).val ∧
      (run (reopen reads news) w).state = (run (appendAll news)
        (run openWriter (run (openLogFrom reads) w).state).state).state := by
    simp [reopen, hlog.1, hwval]
  rw [hrun.1, hrun.2]
  exact exact_appendAll news hexact

/-- One round: where the crash cuts the log and what it leaves after the cut, how the file is read,
and what is appended then. -/
structure Round (K : Type) where
  cut : ℕ
  junk : Bytes
  reads : Reads
  news : List (WalRecord K)

structure Log (K : Type) where
  disk : Disk K
  records : List (WalRecord K)

def Log.file (s : Log K) : Bytes := s.disk.wal.getD []

def Log.initial (rs : List (WalRecord K)) : Log K :=
  ⟨{ Disk.empty K with wal := some (encodeAll rs) }, rs⟩

def Log.restart (s : Log K) (cut : ℕ) (junk : Bytes) : World K :=
  World.boot { s.disk with wal := some (tornFile s.file cut junk) }

def Log.round (s : Log K) (r : Round K) : Option (Log K) :=
  some ⟨(run (reopen r.reads r.news) (s.restart r.cut r.junk)).state.disk,
    wholeBefore s.records r.cut ++ r.news⟩

/-- The crash leaves a torn tail. -/
structure Torn (s : Log K) (r : Round K) : Prop where
  cut : r.cut ≤ s.file.length
  stops : Stops K (tornTail s.records r.cut r.junk)
  reads : r.reads.Succeed
  news : Canonical r.news

theorem rounds_exact {rs : List (WalRecord K)} (hrs : Canonical rs) {rounds : List (Round K)}
    {s : Log K} (hrun : GuardedRun Log.round Torn (Log.initial rs) rounds s) :
    s.disk.wal = some (encodeAll s.records) ∧ Canonical s.records := by
  refine hrun.invariant (I := fun _ s => s.disk.wal = some (encodeAll s.records) ∧
    Canonical s.records) ⟨rfl, hrs⟩ ?_
  rintro _ s r _ ⟨hfile, hcanonical⟩ htorn ⟨⟩
  have hrestart : (s.restart r.cut r.junk).disk.wal =
      some (tornFile (encodeAll s.records) r.cut r.junk) := by
    simp [Log.restart, World.boot, Log.file, hfile]
  refine ⟨(exact_reopen htorn.reads hcanonical htorn.stops hrestart r.news).2.file, ?_⟩
  intro rec hrec
  rcases List.mem_append.mp hrec with hrec | hrec
  · exact hcanonical rec (List.mem_of_mem_take hrec)
  · exact htorn.news rec hrec

/-- After any rounds, wherever the log is cut and however it is read, a replay applies the records
wholly before the cut, and after the truncation and further appends it applies those as well. -/
theorem torn_tail_recovered {rs : List (WalRecord K)} (hrs : Canonical rs)
    {rounds : List (Round K)} {s : Log K}
    (hrun : GuardedRun Log.round Torn (Log.initial rs) rounds s) (r : Round K) (htorn : Torn s r) :
    replayFile r.reads (tornFile s.file r.cut r.junk) =
        ⟨.ok, wholeBefore s.records r.cut, (encodeAll (wholeBefore s.records r.cut)).length⟩ ∧
      (run (reopen r.reads r.news) (s.restart r.cut r.junk)).val = .ok ∧
      ∀ reads : Reads, reads.Succeed → replayFile reads
          ((run (reopen r.reads r.news) (s.restart r.cut r.junk)).state.disk.wal.getD []) =
        ⟨.ok, wholeBefore s.records r.cut ++ r.news,
          (encodeAll (wholeBefore s.records r.cut ++ r.news)).length⟩ := by
  obtain ⟨hfile, hcanonical⟩ := rounds_exact hrs hrun
  have hlog : s.file = encodeAll s.records := by simp [Log.file, hfile]
  have hrestart : (s.restart r.cut r.junk).disk.wal =
      some (tornFile (encodeAll s.records) r.cut r.junk) := by
    simp [Log.restart, World.boot, hlog]
  obtain ⟨hval, hexact⟩ := exact_reopen htorn.reads hcanonical htorn.stops hrestart r.news
  refine ⟨?_, hval, fun reads hreads => ?_⟩
  · rw [hlog]
    exact replayFile_torn htorn.reads hcanonical htorn.stops
  · rw [hexact.file, Option.getD_some]
    refine replayFile_encodeAll hreads fun rec hrec => ?_
    rcases List.mem_append.mp hrec with hrec | hrec
    · exact hcanonical rec (List.mem_of_mem_take hrec)
    · exact htorn.news rec hrec

/-- The second record is cut after eight bytes and 24 zero bytes follow, a block with the magic byte
and a wrong checksum. It is read three bytes at a time. -/
def rejectedRound : Round Key64 :=
  ⟨40, List.replicate 24 0, fun _ => some 2, [sampleRecord 3]⟩

/-- The third record is cut in its last byte, and read in growing chunks. -/
def incompleteRound : Round Key64 := ⟨63, [], fun k => some k, [sampleRecord 4, sampleRecord 5]⟩

set_option maxRecDepth 100000 in
theorem torn_tail_recovered_twice :
    ∃ s, GuardedRun Log.round Torn (Log.initial [sampleRecord 1, sampleRecord 2])
        [rejectedRound] s ∧
      s.records = [sampleRecord 1, sampleRecord 3] ∧
      (replayFile (fun _ => some 0) ((run (reopen incompleteRound.reads incompleteRound.news)
        (s.restart 63 [])).state.disk.wal.getD [])).applied =
          [sampleRecord 1, sampleRecord 4, sampleRecord 5] := by
  have hfirst : Torn (Log.initial [sampleRecord 1, sampleRecord 2]) rejectedRound :=
    ⟨by decide +kernel, by decide +kernel, fun _ => rfl, by decide⟩
  obtain ⟨s, hstep, hrecords⟩ : ∃ s,
      Log.round (Log.initial [sampleRecord 1, sampleRecord 2]) rejectedRound = some s ∧
        s.records = [sampleRecord 1, sampleRecord 3] := ⟨_, rfl, rfl⟩
  have hrun := GuardedRun.init.step hfirst hstep
  have hcanonical : Canonical [sampleRecord 1, sampleRecord 2] := by decide
  have hlength : s.file.length = 64 := by
    rw [Log.file, (rounds_exact hcanonical hrun).1, hrecords]
    decide +kernel
  have hsecond : Torn s incompleteRound :=
    ⟨by rw [hlength]; decide, by rw [hrecords]; decide +kernel, fun _ => rfl, by decide⟩
  have hend := (torn_tail_recovered hcanonical hrun incompleteRound hsecond).2.2
    (fun _ => some 0) fun _ => rfl
  rw [hrecords] at hend
  exact ⟨s, hrun, hrecords, congrArg Replayed.applied hend⟩

end ParaKV.Index.TornTail
