/- GID: ParaKV/Index/Runs
   source: parakv/core/index/index.cc, parakv/core/segment/segment_manager.cc
   digest: Sequential runs with crashes at any point, and what Get can return in them. -/

import ParaKV.Lib.StepRun
import ParaKV.Index.Recovery
import ParaKV.Index.CompactionSafety

set_option autoImplicit false

namespace ParaKV.Index.Runs

open Lib.TracedProgram Lib.StepRun Lib.HashOrder Index.Key Index.Wal Index.Operations
open Index.Durability Index.Ownership Index.CrashSafety Index.CompactionSafety Index.Recovery
open Segment.Base Core.State

variable {K : Type} [DecidableEq K] [KeyType K]

/-! The process: its operations one after the other, and the crashes. -/

inductive Op (K : Type)
  | start
  | put (key : K) (value : Bytes)
  | delete (key : K)
  | checkpoint
  | compact
  deriving DecidableEq

/-- The program of an operation. Only a compaction may wait for ever. -/
def Op.program (o : Options) : Op K → M K (Option Status)
  | .start => some <$> openStore o
  | .put key value => some <$> Operations.put o key value
  | .delete key => some <$> Operations.delete o key
  | .checkpoint => some <$> Operations.checkpoint o
  | .compact => runAttachedCompaction o

def Op.plain : Op K → Bool
  | .put _ _ => true
  | .delete _ => true
  | .checkpoint => true
  | _ => false

/-- A complete operation, a crash between two operations, or a crash at the `n`-th point of
an operation. -/
inductive Act (K : Type)
  | complete (op : Op K)
  | crash
  | crashIn (op : Op K) (n : ℕ)
  deriving DecidableEq

def Act.op : Act K → Option (Op K)
  | .complete op => some op
  | .crash => none
  | .crashIn op _ => some op

/-- The files with, while the process is up, the objects over them. -/
structure Store (K : Type) where
  world : World K
  up : Bool

def Store.stopped (d : Disk K) : Store K := ⟨World.boot d, false⟩

/-- An empty directory, but for a state file of any content. -/
def Store.initial (K : Type) (stateFile : Option Bytes) : Store K :=
  .stopped { Disk.empty K with managerState := stateFile }

/-- A process starts when it is down and does everything else when it is up. -/
def Store.enabled (s : Store K) : Op K → Bool
  | .start => !s.up
  | _ => s.up

/-- A start that fails ends the process, and an operation that never returns is never complete. -/
def Store.settle (op : Op K) (r : Outcome (World K) (Event K) (Option Status)) :
    Option (Store K) :=
  r.val.map fun st => match op with
    | .start => if st = .ok then ⟨r.state, true⟩ else .stopped r.state.disk
    | _ => ⟨r.state, true⟩

def step (o : Options) (s : Store K) : Act K → Option (Store K)
  | .complete op =>
    if s.enabled op then Store.settle op (run (op.program o) s.world) else none
  | .crash => some (.stopped s.world.disk)
  | .crashIn op n =>
    if s.enabled op then
      ((run (op.program o) s.world).trace[n]?).map fun e => .stopped e.world.disk
    else none

/-- The callbacks that return before the action ends are quiet. -/
def QuietAct (o : Options) (s : Store K) : Act K → Prop
  | .complete op => ∀ e ∈ (run (op.program o) s.world).trace, Quiet o e
  | .crash => True
  | .crashIn op n => ∀ e ∈ (run (op.program o) s.world).trace.take n, Quiet o e

instance (o : Options) (s : Store K) (a : Act K) : Decidable (QuietAct o s a) :=
  match a with
  | .complete op =>
    inferInstanceAs (Decidable (∀ e ∈ (run (op.program o) s.world).trace, Quiet o e))
  | .crash => isTrue trivial
  | .crashIn op n =>
    inferInstanceAs (Decidable (∀ e ∈ (run (op.program o) s.world).trace.take n, Quiet o e))

/-- Some action put the value under the key, if only in part. -/
def PutIn (acts : List (Act K)) (key : K) (v : Bytes) : Prop :=
  ∃ a ∈ acts, a.op = some (.put key v)

instance (acts : List (Act K)) (key : K) (v : Bytes) : Decidable (PutIn acts key v) :=
  inferInstanceAs (Decidable (∃ a ∈ acts, a.op = some (.put key v)))

variable {o : Options} {H H' : K → Bytes → Prop} {w : World K} {d : Disk K} {m : Map K}

theorem Stored.mono {K : Type} [KeyType K] {H H' : K → Bytes → Prop} {d : Disk K}
    (h : Stored o H d) (hH : ∀ k v, H k v → H' k v) : Stored o H' d := by
  intro s hs i slot hslot
  obtain ⟨k, hk, hv⟩ := h s hs i slot hslot
  exact ⟨k, hk, hH k _ hv⟩

theorem CrashSafe.mono (h : CrashSafe o H d m) (hH : ∀ k v, H k v → H' k v) :
    CrashSafe o H' d m :=
  ⟨h.durable, h.owns, Stored.mono h.stored hH, h.images⟩

theorem Journaled.mono (h : Journaled o H w m) (hH : ∀ k v, H k v → H' k v) :
    Journaled o H' w m :=
  ⟨⟨h.live.mgr, h.live.segs, h.live.owns, Stored.mono h.live.stored hH, h.live.wal⟩,
    h.logged, h.owns⟩

/-! Small stores for concrete runs. -/

def smallConfig (n : ℕ) : SegmentConfig :=
  { keySize := 8, valueSize := 1, segmentSize := 9 * n + 1, bitmapAlignment := 1 }

def smallOptions (n threshold : ℕ) : Options where
  segmentConfig := smallConfig n
  segmentCount := 3
  walPath := "index.wal"
  snapshotDir := "snapshots"
  walCheckpointBytes := threshold
  hash := frontPolicy ℕ

theorem smallOptions_admissible {n : ℕ} (threshold : ℕ)
    (h : SegmentBase.totalSlots (smallConfig n) ≤ 2 ^ 28) :
    (smallOptions n threshold).Admissible Key64 :=
  ⟨rfl, show 3 ≤ 2 ^ 20 by decide, h⟩

def putKey (n : ℕ) : Act Key64 := .complete (.put (UInt64.ofNat n) [UInt8.ofNat n])

def deleteKey (n : ℕ) : Act Key64 := .complete (.delete (UInt64.ofNat n))

theorem plain_sound (hadm : o.Admissible K) (h : Journaled o H w m) {op : Op K}
    (hop : op.plain = true) (hput : ∀ k v, op = .put k v → H k v) :
    CrashSound o H w m (run (op.program o) w).trace (run (op.program o) w).state := by
  cases op with
  | start => cases hop
  | put k v => exact put_sound hadm h (hput k v rfl)
  | delete k => exact delete_sound hadm h k
  | checkpoint => exact checkpoint_sound h
  | compact => cases hop

theorem op_safe (hadm : o.Admissible K) (hpath : o.walPath ≠ "") (h : Journaled o H w m)
    (op : Op K) (hop : op ≠ .start) (hput : ∀ k v, op = .put k v → H k v) :
    Guarded (Quiet o) (fun e => ∃ m', CrashSafe o H e.world.disk m')
        (run (op.program o) w).trace ∧
      ((∀ e ∈ (run (op.program o) w).trace, Quiet o e) →
        ∃ m', Journaled o H (run (op.program o) w).state m') := by
  by_cases hplain : op.plain = true
  · have hsound := plain_sound hadm h hplain hput
    refine ⟨guarded_of_forall fun e he => ?_, fun _ => ?_⟩
    · obtain ⟨-, -, m', hsafe, -⟩ := hsound.events e he
      exact ⟨m', hsafe⟩
    · obtain ⟨m', hjournal, -⟩ := hsound.journaled
      exact ⟨m', hjournal⟩
  · obtain rfl : op = .compact := by
      cases op <;> first | rfl | exact (hop rfl).elim | exact (hplain rfl).elim
    obtain ⟨htrace, hend⟩ := compaction_sound hadm hpath False h False.elim
    have htracks : ∀ e : Event K, Quiet o e → Tracks o False e := fun _ he => ⟨he, False.elim⟩
    refine ⟨htrace.mono htracks fun e he => he.safe, fun hquiet => ?_⟩
    obtain ⟨m', hjournal, -⟩ := hend fun e he => htracks e (hquiet e he)
    exact ⟨m', hjournal⟩

/-! Invariants of runs: one for the process and one for the files it leaves. -/

inductive Phase (U : World K → Prop) (D : Disk K → Prop) : Store K → Prop
  | up {w : World K} : U w → Phase U D ⟨w, true⟩
  | down {d : Disk K} : D d → Phase U D (.stopped d)

theorem Phase.world {K : Type} {U : World K → Prop} {D : Disk K → Prop} {s : Store K}
    (h : Phase U D s) (hup : s.up = true) : U s.world := by
  cases h with
  | up h => exact h
  | down h => cases hup

theorem Phase.mono {K : Type} {U U' : World K → Prop} {D D' : Disk K → Prop} {s : Store K}
    (h : Phase U D s) (hU : ∀ w, U w → U' w) (hD : ∀ d, D d → D' d) : Phase U' D' s := by
  cases h with
  | up h => exact .up (hU _ h)
  | down h => exact .down (hD _ h)

/-- What a start makes of files with `D`. -/
structure Starts (o : Options) (U : World K → Prop) (D : Disk K → Prop) (d : Disk K) : Prop where
  world : (run (openStore o) (World.boot d)).val = .ok →
    U (run (openStore o) (World.boot d)).state
  disk : D (run (openStore o) (World.boot d)).state.disk

theorem settle_start (o : Options) (io : ℕ → IoOutcome) (w : World K) :
    Store.settle .start (Op.program o .start io w) =
      some (if (openStore o io w).val = .ok then ⟨(openStore o io w).state, true⟩
        else .stopped (openStore o io w).state.disk) :=
  rfl

theorem settle_running {K : Type} {op : Op K} (hop : op ≠ .start)
    {r : Outcome (World K) (Event K) (Option Status)} {s : Store K}
    (h : Store.settle op r = some s) : s = ⟨r.state, true⟩ ∧ r.val.isSome = true := by
  obtain ⟨st, hst, rfl⟩ := Option.map_eq_some_iff.mp h
  refine ⟨?_, Option.isSome_of_mem hst⟩
  cases op <;> first | rfl | exact (hop rfl).elim

theorem phase_step {U : World K → Prop} {D : Disk K → Prop} {s s' : Store K} {a : Act K}
    (h : Phase U D s) (hstep : step o s a = some s') (hstart : ∀ d, D d → Starts o U D d)
    (hstartIn : ∀ n d e, a = .crashIn .start n → D d →
      e ∈ (run (openStore o) (World.boot d)).trace → D e.world.disk)
    (hcrash : ∀ w, a = .crash → U w → D w.disk)
    (hcomplete : ∀ w op, s = ⟨w, true⟩ → a = .complete op → op ≠ .start → U w →
      U (run (op.program o) w).state)
    (hcrashIn : ∀ w op n e, s = ⟨w, true⟩ → a = .crashIn op n → op ≠ .start → U w →
      (run (op.program o) w).trace[n]? = some e → D e.world.disk) :
    Phase U D s' := by
  have hdown : ∀ {d : Disk K} {op : Op K}, (Store.stopped d).enabled op = true → op = .start := by
    intro d op hen
    cases op <;> simp [Store.enabled, Store.stopped] at hen ⊢
  have hup : ∀ {w : World K} {op : Op K}, Store.enabled ⟨w, true⟩ op = true → op ≠ .start := by
    rintro w op hen rfl
    simp [Store.enabled] at hen
  cases a with
  | crash =>
    obtain rfl : Store.stopped s.world.disk = s' := by simpa [step] using hstep
    cases h with
    | up h => exact .down (hcrash _ rfl h)
    | down h => exact .down h
  | complete op =>
    simp only [step] at hstep
    split_ifs at hstep with hen
    cases h with
    | down h =>
      obtain rfl := hdown hen
      obtain rfl := Option.some.inj ((settle_start o _ _).symm.trans hstep)
      split_ifs with hval
      · exact .up ((hstart _ h).world hval)
      · exact .down (hstart _ h).disk
    | @up w h =>
      have hop := hup hen
      rw [(settle_running hop hstep).1]
      exact .up (hcomplete w op rfl rfl hop h)
  | crashIn op n =>
    simp only [step] at hstep
    split_ifs at hstep with hen
    obtain ⟨e, he, rfl⟩ := Option.map_eq_some_iff.mp hstep
    cases h with
    | @down d h =>
      obtain rfl := hdown hen
      exact .down (hstartIn n d e rfl h (List.mem_of_getElem? he))
    | @up w h => exact .down (hcrashIn w op n e rfl rfl (hup hen) h he)

theorem crashSafe_initial (stateFile : Option Bytes) :
    CrashSafe o H { Disk.empty K with managerState := stateFile } ∅ := by
  refine ⟨⟨∅, [], [], ⟨?_, rfl, by simp, kEncodedSize_pos⟩, rfl⟩, ?_, ?_, ?_⟩
  · simp [snapshotBase, Disk.empty]
  · intro k a hk
    simp [entries] at hk
  · intro s _ i slot hslot
    simp [Disk.slot, SegmentImage.slot, Disk.empty] at hslot
  · exact fun s _ =>
      ⟨fun i hi => by simp [Disk.empty] at hi, fun i hi => by simp [Disk.empty] at hi⟩

/-! The invariant of runs with crashes: the files hold an owning map. -/

def Files (o : Options) (H : K → Bytes → Prop) (w : World K) : Prop := ∃ m, Journaled o H w m

def Left (o : Options) (H : K → Bytes → Prop) (d : Disk K) : Prop := ∃ m, CrashSafe o H d m

theorem starts_safe (hadm : o.Admissible K) (hpath : o.walPath ≠ "") (h : Left o H d) :
    Starts o (Files o H) (Left o H) d := by
  obtain ⟨m, hm⟩ := h
  obtain ⟨-, hsafe, -, hok, -⟩ := openStore_spec hadm hpath hm
  exact ⟨fun hval => ⟨m, (hok hval).1⟩, m, hsafe⟩

theorem left_startIn (hadm : o.Admissible K) (hpath : o.walPath ≠ "") (h : Left o H d)
    {e : Event K} (he : e ∈ (run (openStore o) (World.boot d)).trace) :
    Left o H e.world.disk := by
  obtain ⟨m, hm⟩ := h
  exact ⟨m, ((openStore_spec hadm hpath hm).1 e he).2.1⟩

theorem safe_step (hadm : o.Admissible K) (hpath : o.walPath ≠ "") {s s' : Store K} {a : Act K}
    (h : Phase (Files o H) (Left o H) s) (hH : ∀ k v, a.op = some (.put k v) → H k v)
    (hquiet : QuietAct o s a) (hstep : step o s a = some s') :
    Phase (Files o H) (Left o H) s' := by
  refine phase_step h hstep (fun d => starts_safe hadm hpath)
    (fun n d e _ hd he => left_startIn hadm hpath hd he) ?_ ?_ ?_
  · rintro w - ⟨m, hm⟩
    exact ⟨m, hm.crashSafe⟩
  · rintro w op rfl rfl hop ⟨m, hm⟩
    exact (op_safe hadm hpath hm op hop fun k v hput => hH k v (congrArg some hput)).2 hquiet
  · rintro w op n e rfl rfl hop ⟨m, hm⟩ he
    exact (op_safe hadm hpath hm op hop fun k v hput => hH k v (congrArg some hput)).1.getElem
      n e he hquiet

theorem safe_run (hadm : o.Admissible K) (hpath : o.walPath ≠ "") {stateFile : Option Bytes}
    {acts : List (Act K)} {s : Store K}
    (hrun : GuardedRun (step o) (QuietAct o) (Store.initial K stateFile) acts s) :
    Phase (Files o (PutIn acts)) (Left o (PutIn acts)) s := by
  refine hrun.invariant (I := fun acts s => Phase (Files o (PutIn acts)) (Left o (PutIn acts)) s)
    (.down ⟨∅, crashSafe_initial stateFile⟩) ?_
  intro acts s a s' h hquiet hstep
  have hput : ∀ k v, PutIn acts k v → PutIn (acts ++ [a]) k v := by
    rintro k v ⟨b, hb, hput⟩
    exact ⟨b, List.mem_append_left _ hb, hput⟩
  have hmono := h.mono (fun w ⟨m, hm⟩ => (⟨m, Journaled.mono hm hput⟩ : Files o _ w))
    fun d ⟨m, hm⟩ => (⟨m, CrashSafe.mono hm hput⟩ : Left o _ d)
  exact safe_step hadm hpath hmono (fun k v hop => ⟨a, by simp, hop⟩) hquiet hstep

/-- In a run whose callbacks are quiet, `Get` returns only values that were put under its key. -/
theorem get_returns_own_value (hadm : o.Admissible K) (hpath : o.walPath ≠ "")
    {stateFile : Option Bytes} {acts : List (Act K)} {s : Store K}
    (hrun : GuardedRun (step o) (QuietAct o) (Store.initial K stateFile) acts s)
    (hup : s.up = true) {key : K} {size : ℕ} {v : Bytes}
    (hget : (run (Operations.get o key size) s.world).val = (.ok, v)) : PutIn acts key v := by
  obtain ⟨m, h⟩ := (safe_run hadm hpath hrun).world hup
  obtain rfl : size = o.segmentConfig.valueSize := by
    by_contra hsize
    simp [Operations.get, hsize] at hget
  rw [run_get hadm h.live] at hget
  split at hget
  · rename_i u hvalue
    obtain rfl : u = v := by simpa using hget
    exact h.live.owns.mem_of_content h.live.stored.stores hvalue
  · cases hget

/-- Segment 0 is filled, three of its keys are deleted, and segment 1 gets one key. The
compaction moves key 3 and recycles segment 0, and the run after the restart refills it. -/
def refillRun : List (Act Key64) :=
  [.complete .start] ++ [0, 1, 2, 3].map putKey ++ [0, 1, 2].map deleteKey ++ [putKey 4] ++
    [.complete .compact, .crash, .complete .start] ++ [5, 6, 7, 8, 9, 10].map putKey

set_option maxRecDepth 100000 in
/-- With a threshold every append reaches, the dump inside the callback has the old offset of
key 3, the truncation drops the record of the move, and key 3 reads the value of key 10. -/
theorem get_returns_foreign_value :
    (smallOptions 4 1).Admissible Key64 ∧
    ((perform (step (smallOptions 4 1)) (Store.initial Key64 none) refillRun).map fun s =>
      (s.up, (run (Operations.get (smallOptions 4 1) 3 1) s.world).val)) =
        some (true, (.ok, [10])) ∧ ¬ PutIn refillRun 3 [10] :=
  ⟨smallOptions_admissible 1 (by decide), by decide +kernel, by decide +kernel⟩

set_option maxRecDepth 100000 in
theorem get_returns_own_value_refill :
    ∃ s, GuardedRun (step (smallOptions 4 0)) (QuietAct (smallOptions 4 0))
      (Store.initial Key64 none) refillRun s ∧ s.up = true ∧
      (run (Operations.get (smallOptions 4 0) 3 1) s.world).val = (.ok, [3]) ∧
      PutIn refillRun 3 [3] := by
  obtain ⟨s, hrun, hs⟩ := exists_guardedRun
    (f := fun s : Store Key64 => (s.up, (run (Operations.get (smallOptions 4 0) 3 1) s.world).val))
    (show (performGuarded (step (smallOptions 4 0)) (QuietAct (smallOptions 4 0))
      (Store.initial Key64 none) refillRun).map _ = some (true, (.ok, [3])) by decide +kernel)
  obtain ⟨hup, hget⟩ := Prod.mk.inj hs
  exact ⟨s, hrun, hup, hget, get_returns_own_value (smallOptions_admissible 0 (by decide))
    (by decide) hrun hup hget⟩

end ParaKV.Index.Runs
