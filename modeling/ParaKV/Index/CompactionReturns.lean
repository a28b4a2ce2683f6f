/- GID: ParaKV/Index/CompactionReturns
   source: parakv/core/segment/segment_manager.cc, parakv/core/segment/segment_file.cc
   digest: When a compaction returns, and what a store answers after it. -/

import ParaKV.Index.Faults
import ParaKV.Index.Bookkeeping

set_option autoImplicit false

namespace ParaKV.Index.CompactionReturns

open Lib.StepRun Index.Key Index.Operations Index.Faults Index.Ownership Index.Compaction Index.Runs
open Index.CompactionRuns Index.Bookkeeping Segment Segment.FileSpec Segment.Manager
open Segment.ManagerSpec Core.State

variable {K : Type} [DecidableEq K] [KeyType K] {o : Options} {w : World K}

/-! `Compact` holds the mutex of its source, and the insert into the target takes that of the
target. -/

section Compact

variable (src target : ℕ)

theorem compactSlot_frame (i : ℕ) (w : World K) :
    (run (File.compactSlot o src target (slotMoved o) i) w).state.mgr = w.mgr ∧
      (target ≠ src → (run (File.compactSlot o src target (slotMoved o) i) w).val ≠ none) := by
  by_cases hself : target = src
  · simp [File.compactSlot, hself]
  · set slot := (w.disk.images src).slots i with hslot
    have hinsert := insert_mgr (o := o) w target slot.key slot.value
    by_cases hok : (run (File.insert o target slot.key slot.value) w).val.1 = .ok
    · simp [File.compactSlot, hself, ← hslot, hok, slotMoved, remapIfEquals, appendWal_mgr,
        hinsert]
    · simp [File.compactSlot, hself, ← hslot, hok, hinsert]

theorem compactLoop_frame (n i : ℕ) (w : World K) :
    (run (File.compactLoop o src target (slotMoved o) n i) w).state.mgr = w.mgr ∧
      (target ≠ src → (run (File.compactLoop o src target (slotMoved o) n i) w).val ≠ none) := by
  induction n generalizing i w with
  | zero => simp [File.compactLoop]
  | succ n ih =>
    cases hbit : (w.segs src).bitmap i with
    | false => simpa [File.compactLoop, hbit] using ih (i + 1) w
    | true =>
      obtain ⟨hmgr, hreturns⟩ := compactSlot_frame (o := o) src target i w
      obtain ⟨hmgr', hreturns'⟩ :=
        ih (i + 1) (run (File.compactSlot o src target (slotMoved o) i) w).state
      by_cases hval : (run (File.compactSlot o src target (slotMoved o) i) w).val = some .ok
      · simpa [File.compactLoop, hbit, hval, hmgr] using ⟨hmgr'.trans hmgr, hreturns'⟩
      · simpa [File.compactLoop, hbit, hval] using ⟨hmgr, hreturns⟩

theorem compact_frame (w : World K) :
    (run (File.compact o src target (slotMoved o)) w).state.mgr = w.mgr ∧
      (target ≠ src → (run (File.compact o src target (slotMoved o)) w).val ≠ none) := by
  cases hopen : (w.segs src).isOpen with
  | false => simp [File.compact, hopen]
  | true =>
    obtain ⟨hmgr, hreturns⟩ := compactLoop_frame (o := o) src target
      (w.segs src).appendCursor 0 w
    set r := run (File.compactLoop o src target (slotMoved o) (w.segs src).appendCursor 0) w
      with hr
    by_cases hval : r.val = some .ok
    · have hreset := (run_resetSegment o r.state src).2
      simp [File.compact, hopen, ← hr, hval, hreset, afterReset, World.setSegment,
        World.setImage, hmgr]
    · simpa [File.compact, hopen, ← hr, hval] using ⟨hmgr, hreturns⟩

end Compact

/-! The candidates of a compaction, one after the other. -/

/-- The candidates are compacted without a `GetActiveSegment` that erases the element its iterator
stands on. -/
def Calm (o : Options) : List ℕ → World K → Prop
  | [], _ => True
  | src :: rest, w => ¬ Erases o w ∧ ∀ target ∈ (run (getActiveSegment o) w).val,
      let r := run (File.compact o src target (slotMoved o)) (run (getActiveSegment o) w).state
      r.val = some .ok → Calm o rest (reclassify o src target r.state)

instance Calm.decidable (o : Options) : (l : List ℕ) → (w : World K) → Decidable (Calm o l w)
  | [], _ => isTrue trivial
  | src :: rest, w =>
    haveI : ∀ w' : World K, Decidable (Calm o rest w') := Calm.decidable o rest
    inferInstanceAs (Decidable (¬ Erases o w ∧ ∀ target ∈ (run (getActiveSegment o) w).val,
      (run (File.compact o src target (slotMoved o)) (run (getActiveSegment o) w).state).val =
        some .ok → Calm o rest (reclassify o src target (run
          (File.compact o src target (slotMoved o)) (run (getActiveSegment o) w).state).state)))

theorem compactCandidates_returns (l : List ℕ) (hclass : Classified w.mgr)
    (hfull : ∀ id ∈ l, id ∈ w.mgr.fullSet) (hnodup : l.Nodup) (hcalm : Calm o l w) :
    (run (compactCandidates o (slotMoved o) l) w).val ≠ none := by
  induction l generalizing w with
  | nil => simp [compactCandidates]
  | cons src rest ih =>
    obtain ⟨hsrc, hrest⟩ := List.nodup_cons.mp hnodup
    obtain ⟨herases, hnext⟩ := hcalm
    have hclass' := (chooseActive_classified (o := o) w.segs hclass).1
    have hkept := (chooseActive_reassigned (o := o) w.segs hclass.toRegistered).1
    cases hval : (run (getActiveSegment o) w).val with
    | none => simp [compactCandidates, hval]
    | some target =>
      have happending := chooseActive_appending herases hval
      have hfull' := hkept.full src (hfull src (by simp))
      have hne : target ≠ src := fun heq =>
        hclass'.appending_full target happending (heq ▸ hfull')
      have hreg := hclass'.full src hfull'
      obtain ⟨hmgr, hreturns⟩ := compact_frame (o := o) src target
        (run (getActiveSegment o) w).state
      have hnext' := hnext target hval
      set r := run (File.compact o src target (slotMoved o)) (run (getActiveSegment o) w).state
        with hr
      have hstep : src ∈ (run (getActiveSegment o) w).state.mgr.segments := hreg
      by_cases hok : r.val = some .ok
      · have hend := ih (w := reclassify o src target r.state)
          (reclassify_classified (hmgr ▸ hclass') (hmgr ▸ hfull')
            (hmgr ▸ hclass'.started_of_appending happending) fun heq => absurd heq hne)
          (fun id hid => reclassify_full (hmgr ▸ hkept.full id (hfull id (by simp [hid])))
            fun heq => hsrc (heq ▸ hid)) hrest (hnext' hok)
        simpa [compactCandidates, hval, hstep, ← hr, hok] using hend
      · simpa [compactCandidates, hval, hstep, ← hr, hok] using hreturns hne

theorem runCompaction_returns (hclass : Classified w.mgr) (hcalm : Calm o (candidates o w) w) :
    ∃ st, (run (runAttachedCompaction o) w).val = some st :=
  Option.ne_none_iff_exists'.mp (compactCandidates_returns (candidates o w) hclass
    (fun _ hid => candidates_full hid) (candidates_nodup w) hcalm)

/-- Where no `GetActiveSegment` of it erases an element, a compaction returns, whatever its status,
and changes the result of no `Get`. -/
theorem get_after_compaction (hadm : o.Admissible K) {stateFile : Option Bytes}
    {acts : List (Act K)} {s : Store K}
    (hrun : GuardedRun (step o) Uncrashed (Store.initial K stateFile) acts s)
    (hup : s.up = true) (hcalm : Calm o (candidates o s.world) s.world) :
    ∃ st, (run (runAttachedCompaction o) s.world).val = some st ∧ ∀ (key : K) (size : ℕ),
      (run (Operations.get o key size) (run (runAttachedCompaction o) s.world).state).val =
        (run (Operations.get o key size) s.world).val := by
  have htended := (tended_run hadm hrun).world hup
  obtain ⟨hafter, hvalue⟩ := compaction_spec hadm htended.live
  obtain ⟨st, hst⟩ := runCompaction_returns htended.classified hcalm
  refine ⟨st, hst, fun key size => ?_⟩
  by_cases hsize : size = o.segmentConfig.valueSize
  · rw [hsize, run_get hadm htended.live, run_get hadm hafter, hvalue]
  · simp [Operations.get, hsize]

set_option maxRecDepth 100000 in
/-- The target has room for one of the two slots that are left. -/
theorem get_after_compaction_full :
    ∃ s, GuardedRun (step (smallOptions 8 0)) Uncrashed (Store.initial Key64 none) fullRun s ∧
      s.up = true ∧
      (run (runAttachedCompaction (smallOptions 8 0)) s.world).val = some .full ∧
      (run (Operations.get (smallOptions 8 0) 6 1)
        (run (runAttachedCompaction (smallOptions 8 0)) s.world).state).val =
      (run (Operations.get (smallOptions 8 0) 6 1) s.world).val := by
  obtain ⟨s, hrun, hs⟩ := exists_guardedRun
    (f := fun s : Store Key64 =>
      (s.up, (run (runAttachedCompaction (smallOptions 8 0)) s.world).val,
        decide (Calm (smallOptions 8 0) (candidates (smallOptions 8 0) s.world) s.world)))
    (show (performGuarded (step (smallOptions 8 0)) Uncrashed
      (Store.initial Key64 none) fullRun).map _ = some (true, some .full, true) by decide +kernel)
  obtain ⟨hup, hfull, hcalm⟩ : s.up = true ∧
      (run (runAttachedCompaction (smallOptions 8 0)) s.world).val = some .full ∧
      Calm (smallOptions 8 0) (candidates (smallOptions 8 0) s.world) s.world := by simpa using hs
  obtain ⟨st, -, hget⟩ :=
    get_after_compaction (smallOptions_admissible 0 (by decide)) hrun hup hcalm
  exact ⟨s, hrun, hup, hfull, hget 6 1⟩

/-- A segment with one key left, and the next one filled to its last slot. -/
def selfRun : List (Act Key64) :=
  [.complete .start] ++ [0, 1, 2, 3].map putKey ++ [0, 1, 2].map deleteKey ++
    [4, 5, 6, 7].map putKey

set_option maxRecDepth 100000 in
/-- `GetActiveSegment` marks the filled segment and goes on through the full ones: the compaction
of the segment of key 3 gets that segment as its target, and never returns. -/
theorem compaction_waits_for_itself :
    ((perform (step (smallOptions 4 0)) (Store.initial Key64 none) selfRun).map fun s =>
      ((run (Operations.get (smallOptions 4 0) 3 1) s.world).val,
        (s.world.map.lookup 3).map getSegmentId,
        (run (getActiveSegment (smallOptions 4 0)) s.world).val,
        (run (runAttachedCompaction (smallOptions 4 0)) s.world).val)) =
      some ((.ok, [3]), some 2, some 2, none) := by
  decide +kernel

end ParaKV.Index.CompactionReturns
