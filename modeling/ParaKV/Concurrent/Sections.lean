/- GID: ParaKV/Concurrent/Sections
   source: parakv/core/segment/segment_manager.cc
   digest: Interleavings of the critical sections of the manager with one compaction thread. -/

import ParaKV.Segment.Classification
import ParaKV.Index.Runs

set_option autoImplicit false

namespace ParaKV.Concurrent.Sections

open Lib.HashOrder.UnorderedSet Lib.StepRun Segment.Base Segment.Manager Segment.ManagerSpec
open Segment.Classification Index.Key Core.State

variable {K : Type}

/-- `GetActiveSegment` when an iterator advanced from an erased element may lead anywhere. -/
def getActiveSegmentFrom (o : Options) (stale : List ℕ) : M K (Option ℕ) := do
  let w ← get
  let r := scanFrom o w.segs stale w.mgr
  modify fun w => { w with mgr := r.2 }
  return r.1

/-! The threads. -/

/-- Where the manager is: before `LoadState`, or after it with the thread of `RunCompaction`
between two candidates (with none left it has returned), past its `GetActiveSegment`, or past the
lookup of the source. -/
inductive Phase
  | starting
  | waiting (rest : List ℕ)
  | chosen (src active : ℕ) (rest : List ℕ)
  | copying (src active : ℕ) (rest : List ℕ)
  deriving DecidableEq

structure Shared (K : Type) where
  world : World K
  phase : Phase

/-- What a thread does under the mutex of the manager, and `segments` for what happens to the
segments outside it: inserts, deletes and the copying of a compaction. -/
inductive Section
  | segments (segs : ℕ → SegmentBase)
  | addSegment (id : ℕ)
  | loadState
  | getActiveSegment (stale : List ℕ)
  | markSegmentFull (id : ℕ)
  | saveState
  | selectCandidates
  | chooseTarget (stale : List ℕ)
  | findSource
  | compactFails
  | reclassify

/-- The ids the loop reads are registered; from any other it would get a null segment. -/
def Readable (w : World K) (stale : List ℕ) : Prop := ∀ id ∈ stale, id ∈ w.mgr.segments

instance (w : World K) (stale : List ℕ) : Decidable (Readable w stale) :=
  inferInstanceAs (Decidable (∀ id ∈ stale, id ∈ w.mgr.segments))

def Shared.started (s : Shared K) : Bool := s.phase ≠ .starting

def sectionStep (o : Options) (s : Shared K) : Section → Option (Shared K)
  | .segments segs => some { s with world := { s.world with segs := segs } }
  | .addSegment id => some { s with world := (run (addSegment o id) s.world).state }
  | .loadState =>
    match s.phase with
    | .starting => some ⟨(run (loadState o) s.world).state, .waiting []⟩
    | _ => none
  | .getActiveSegment stale =>
    if s.started ∧ Readable s.world stale then
      some { s with world := (run (getActiveSegmentFrom o stale) s.world).state }
    else none
  | .markSegmentFull id =>
    if s.started then some { s with world := (run (markSegmentFull o id) s.world).state } else none
  | .saveState =>
    if s.started then some { s with world := (run saveState s.world).state } else none
  | .selectCandidates =>
    match s.phase with
    | .waiting [] => some { s with phase := .waiting (candidates o s.world) }
    | _ => none
  | .chooseTarget stale =>
    match s.phase with
    | .waiting (src :: rest) =>
      if Readable s.world stale then
        let r := run (getActiveSegmentFrom o stale) s.world
        match r.val with
        | none => some ⟨r.state, .waiting []⟩
        | some active => some ⟨r.state, .chosen src active rest⟩
      else none
    | _ => none
  | .findSource =>
    match s.phase with
    | .chosen src active rest =>
      if src ∉ s.world.mgr.segments then some { s with phase := .waiting rest }
      else some { s with phase := .copying src active rest }
    | _ => none
  | .compactFails =>
    match s.phase with
    | .copying _ _ _ => some { s with phase := .waiting [] }
    | _ => none
  | .reclassify =>
    match s.phase with
    | .copying src active rest => some ⟨reclassify o src active s.world, .waiting rest⟩
    | _ => none

def Shared.initial (d : Disk K) : Shared K := ⟨World.boot d, .starting⟩

/-- When the loop that chooses a target erases the element it stands on, it goes on with elements
of the appending set. -/
def Orderly (o : Options) (s : Shared K) : Section → Prop
  | .chooseTarget stale => Erases o s.world → ∀ id ∈ stale, id ∈ s.world.mgr.appendingSet
  | _ => True

instance (o : Options) (s : Shared K) (a : Section) : Decidable (Orderly o s a) := by
  cases a <;> unfold Orderly <;> infer_instance

/-! The invariant. -/

/-- The candidates are full, and the target is past the idle class and not the source. -/
def PhaseOk (f : Assignment) : Phase → Prop
  | .starting => True
  | .waiting rest => rest.Nodup ∧ ∀ id ∈ rest, f id = some .full
  | .chosen src active rest | .copying src active rest =>
    (src :: rest).Nodup ∧ (∀ id ∈ src :: rest, f id = some .full) ∧
      (∃ c, f active = some c ∧ c ≠ .idle) ∧ active ≠ src

variable {o : Options} {s s' : Shared K} {w : World K} {f f' : Assignment}

theorem PhaseOk.advances {p : Phase} (h : PhaseOk f p) (hadv : Advances f f') : PhaseOk f' p := by
  cases p with
  | starting => trivial
  | waiting rest => exact ⟨h.1, fun id hid => hadv.full (h.2 id hid)⟩
  | chosen src active rest =>
    obtain ⟨hnodup, hfull, hactive, hne⟩ := h
    exact ⟨hnodup, fun id hid => hadv.full (hfull id hid), hadv.started hactive, hne⟩
  | copying src active rest =>
    obtain ⟨hnodup, hfull, hactive, hne⟩ := h
    exact ⟨hnodup, fun id hid => hadv.full (hfull id hid), hadv.started hactive, hne⟩

def Coherent (s : Shared K) : Prop := ∃ f, Represents s.world.mgr f ∧ PhaseOk f s.phase

theorem Coherent.advance {w' : World K} (h : Coherent s)
    (hw' : ∀ f, Represents s.world.mgr f → ∃ f', Represents w'.mgr f' ∧ Advances f f') :
    Coherent { s with world := w' } := by
  obtain ⟨f, hf, hphase⟩ := h
  obtain ⟨f', hf', hadv⟩ := hw' f hf
  exact ⟨f', hf', hphase.advances hadv⟩

theorem represents_addSegment (id : ℕ) (h : Represents w.mgr f) :
    ∃ f', Represents (run (addSegment o id) w).state.mgr f' ∧ Advances f f' := by
  by_cases hid : id ∈ w.mgr.segments
  · have hstate : (run (addSegment o id) w).state = w := by simp [addSegment, hid]
    rw [hstate]
    exact ⟨f, h, .refl f⟩
  · rw [(run_addSegment hid).2.2]
    refine ⟨_, represents_classify h hid _, advances_update fun c hc => ?_⟩
    have hsome : (f id).isSome = true := by simp [hc]
    exact (hid ((h.segments id).mpr hsome)).elim

/-- `GetActiveSegment` moves segments on, wherever the loop goes. What it returns is appending, or
has free slots and was read after an erased element. -/
theorem represents_scanFrom (stale : List ℕ) (h : Represents w.mgr f) :
    ∃ f', Represents (scanFrom o w.segs stale w.mgr).2 f' ∧ Advances f f' ∧
      ∀ id, (scanFrom o w.segs stale w.mgr).1 = some id → f' id = some .appending ∨
        Erases o w ∧ id ∈ stale ∧ (w.segs id).getFreeSlots o.segmentConfig > 0 := by
  unfold scanFrom
  split
  · obtain ⟨f', hf', hadv, hid⟩ := represents_promoteIdleSegment (o := o) h
    exact ⟨f', hf', hadv, fun id hval => Or.inl (hid id hval)⟩
  · rename_i first rest horder
    split_ifs with hfree
    · refine ⟨f, h, .refl f, ?_⟩
      rintro id ⟨⟩
      exact Or.inl ((h.appending first).mp (by simp [mem_def, horder]))
    · obtain ⟨f₁, hf₁, hadv₁⟩ := represents_markSegmentFullInternal (o := o) h first
      obtain ⟨f₂, hf₂, hadv₂, hval⟩ := represents_scanAppending (o := o) w.segs stale hf₁
      refine ⟨f₂, hf₂, hadv₁.trans hadv₂, fun id hid => ?_⟩
      rcases hval id hid with happending | ⟨hstale, hroom⟩
      · exact Or.inl happending
      · exact Or.inr ⟨⟨first, by simp [horder], hfree⟩, hstale, hroom⟩

theorem represents_loadState (h : Represents w.mgr f) :
    ∃ f', Represents (run (loadState o) w).state.mgr f' := by
  unfold loadState
  cases hfile : w.disk.managerState with
  | none => exact ⟨f, by simpa [hfile] using h⟩
  | some file =>
    by_cases hshort : file.length < 8
    · exact ⟨f, by simpa [hfile, hshort] using h⟩
    · cases hparse : parseState file with
      | none => exact ⟨f, by simpa [hfile, hshort, hparse] using h⟩
      | some saved =>
        obtain ⟨f', hf'⟩ := represents_applyState (o := o) w.segs w.mgr saved
        exact ⟨f', by simpa [hfile, hshort, hparse] using hf'⟩

/-- The choice of a target: a full candidate is not in the appending set, so it is not chosen
unless the loop reads it after an erased element. -/
theorem coherent_chooseTarget {src : ℕ} {rest stale : List ℕ} (h : Represents w.mgr f)
    (hphase : PhaseOk f (.waiting (src :: rest)))
    (horderly : Erases o w → ∀ id ∈ stale, id ∈ w.mgr.appendingSet) {active : ℕ}
    (hval : (scanFrom o w.segs stale w.mgr).1 = some active) :
    ∃ f', Represents (scanFrom o w.segs stale w.mgr).2 f' ∧
      PhaseOk f' (.chosen src active rest) := by
  obtain ⟨f', hf', hadv, hactive⟩ := represents_scanFrom (o := o) stale h
  obtain ⟨hnodup, hfull⟩ := hphase
  have hsrc : f src = some .full := hfull src (by simp)
  refine ⟨f', hf', hnodup, fun id hid => hadv.full (hfull id hid), ?_⟩
  rcases hactive active hval with happending | ⟨herases, hstale, -⟩
  · refine ⟨⟨_, happending, by decide⟩, ?_⟩
    rintro rfl
    rw [hadv.full hsrc] at happending
    cases happending
  · have happending : f active = some .appending :=
      (h.appending active).mp (horderly herases active hstale)
    refine ⟨hadv.started ⟨_, happending, by decide⟩, ?_⟩
    rintro rfl
    rw [hsrc] at happending
    cases happending

theorem coherent_reclassify {src active : ℕ} {rest : List ℕ} (h : Represents w.mgr f)
    (hphase : PhaseOk f (.copying src active rest)) :
    Coherent ⟨reclassify o src active w, .waiting rest⟩ := by
  obtain ⟨hnodup, hfull, hactive, hne⟩ := hphase
  obtain ⟨hsrc, hrest⟩ := List.nodup_cons.mp hnodup
  obtain ⟨f', hf', hothers⟩ := represents_reclassify (o := o) h (hfull src (by simp)) hactive hne
  refine ⟨f', hf', hrest, fun id hid => hothers id (fun heq => hsrc (heq ▸ hid)) ?_⟩
  exact hfull id (by simp [hid])

theorem coherent_step {a : Section} (h : Coherent s) (horderly : Orderly o s a)
    (hstep : sectionStep o s a = some s') : Coherent s' := by
  obtain ⟨w, p⟩ := s
  cases a with
  | segments segs =>
    cases hstep
    exact h
  | addSegment id =>
    cases hstep
    exact h.advance fun f hf => represents_addSegment id hf
  | loadState =>
    cases p <;> simp [sectionStep] at hstep
    obtain ⟨f, hf, -⟩ := h
    obtain ⟨f', hf'⟩ := represents_loadState (o := o) hf
    subst hstep
    exact ⟨f', hf', by simp, by simp⟩
  | getActiveSegment stale =>
    simp only [sectionStep] at hstep
    split_ifs at hstep
    cases hstep
    refine h.advance fun f hf => ?_
    obtain ⟨f', hf', hadv, -⟩ := represents_scanFrom (o := o) stale hf
    exact ⟨f', hf', hadv⟩
  | markSegmentFull id =>
    simp only [sectionStep] at hstep
    split_ifs at hstep
    cases hstep
    exact h.advance fun f hf => represents_markSegmentFullInternal hf id
  | saveState =>
    simp only [sectionStep] at hstep
    split_ifs at hstep
    cases hstep
    refine h.advance fun f hf => ⟨f, ?_, .refl f⟩
    simpa [saveState] using hf
  | selectCandidates =>
    obtain ⟨f, hf, -⟩ := h
    simp only [sectionStep] at hstep
    split at hstep
    · cases hstep
      exact ⟨f, hf, candidates_nodup w, fun id hid => (hf.full id).mp (candidates_full hid)⟩
    · cases hstep
  | chooseTarget stale =>
    obtain ⟨f, hf, hphase⟩ := h
    simp only [sectionStep] at hstep
    split at hstep
    · rename_i src rest
      split_ifs at hstep
      cases hval : (scanFrom o w.segs stale w.mgr).1 with
      | none =>
        obtain ⟨f', hf', -⟩ := represents_scanFrom (o := o) stale hf
        have hval' : (run (getActiveSegmentFrom o stale) w).val = none := hval
        simp only [hval'] at hstep
        cases hstep
        exact ⟨f', hf', by simp, by simp⟩
      | some active =>
        obtain ⟨f', hf', hchosen⟩ := coherent_chooseTarget hf hphase horderly hval
        have hval' : (run (getActiveSegmentFrom o stale) w).val = some active := hval
        simp only [hval'] at hstep
        cases hstep
        exact ⟨f', hf', hchosen⟩
    · cases hstep
  | findSource =>
    obtain ⟨f, hf, hphase⟩ := h
    simp only [sectionStep] at hstep
    split at hstep
    · rename_i src active rest
      split_ifs at hstep
      · cases hstep
        exact ⟨f, hf, hphase⟩
      · cases hstep
        obtain ⟨hnodup, hfull, -⟩ := hphase
        exact ⟨f, hf, (List.nodup_cons.mp hnodup).2, fun id hid => hfull id (by simp [hid])⟩
    · cases hstep
  | compactFails =>
    obtain ⟨f, hf, -⟩ := h
    simp only [sectionStep] at hstep
    split at hstep
    · cases hstep
      exact ⟨f, hf, by simp, by simp⟩
    · cases hstep
  | reclassify =>
    obtain ⟨f, hf, hphase⟩ := h
    simp only [sectionStep] at hstep
    split at hstep
    · cases hstep
      exact coherent_reclassify hf hphase
    · cases hstep

theorem coherent_run {d : Disk K} {as : List Section}
    (hrun : GuardedRun (sectionStep o) (Orderly o) (Shared.initial d) as s) : Coherent s := by
  have h₀ : Coherent (Shared.initial d) := by
    refine ⟨fun _ => none, ⟨⟨?_, ?_, ?_⟩, ?_⟩, trivial⟩ <;>
      simp [Shared.initial, World.boot, SegmentManager.fresh]
  exact hrun.invariant (I := fun _ s => Coherent s) h₀
    fun _ _ _ _ h horderly hstep => coherent_step h horderly hstep

def Distinct : Phase → Prop
  | .chosen src active _ => active ≠ src
  | .copying src active _ => active ≠ src
  | _ => True

/-- As long as the choice of a target is orderly, the classes are a partition of the registered
segments and no segment is compacted into itself. -/
theorem sections_keep_partition {d : Disk K} {as : List Section}
    (hrun : GuardedRun (sectionStep o) (Orderly o) (Shared.initial d) as s) :
    Partition s.world.mgr ∧ Distinct s.phase := by
  obtain ⟨f, hf, hphase⟩ := coherent_run hrun
  refine ⟨hf.partition, ?_⟩
  cases hp : s.phase with
  | starting => trivial
  | waiting rest => trivial
  | chosen src active rest =>
    rw [hp] at hphase
    exact hphase.2.2.2
  | copying src active rest =>
    rw [hp] at hphase
    exact hphase.2.2.2

/-- Segments of four slots: 0 is full with three deleted slots, 1 has `used` slots in use, and 2 is
idle. -/
def threeSegments (used : ℕ) : ℕ → SegmentBase
  | 0 => { SegmentBase.fresh with
      isOpen := true, usedSlots := 1, deletedSlots := 3, appendCursor := 4, state := .full }
  | 1 => { SegmentBase.fresh with
      isOpen := true, usedSlots := used, appendCursor := used, state := .appending }
  | _ => { SegmentBase.fresh with isOpen := true }

/-- Segment 1 is filled after the start, and then a compaction looks for a target. -/
def filledRun (stale : List ℕ) : List Section :=
  [.segments (threeSegments 3), .addSegment 0, .addSegment 1, .addSegment 2, .loadState,
    .segments (threeSegments 4), .selectCandidates, .chooseTarget stale, .findSource]

/-- The loop erases segment 1 from the appending set and inserts it into the full set, whose next
element is segment 0. An iterator that goes on from the reused node returns the source. -/
theorem source_chosen_as_target :
    (perform (sectionStep (Index.Runs.smallOptions 4 0)) (Shared.initial (Disk.empty Key64))
      (filledRun [0])).map Shared.phase = some (.copying 0 0 []) := by
  decide +kernel

theorem sections_keep_partition_filled :
    ∃ s : Shared Key64, GuardedRun (sectionStep (Index.Runs.smallOptions 4 0))
      (Orderly (Index.Runs.smallOptions 4 0)) (Shared.initial (Disk.empty Key64)) (filledRun []) s ∧
      s.phase = .copying 0 2 [] ∧ Partition s.world.mgr ∧ Distinct s.phase := by
  obtain ⟨s, hrun, hs⟩ := exists_guardedRun (f := Shared.phase)
    (show (performGuarded (sectionStep (Index.Runs.smallOptions 4 0))
      (Orderly (Index.Runs.smallOptions 4 0)) (Shared.initial (Disk.empty Key64))
      (filledRun [])).map _ = some (.copying 0 2 []) by decide +kernel)
  exact ⟨s, hrun, hs, sections_keep_partition hrun⟩

end ParaKV.Concurrent.Sections
