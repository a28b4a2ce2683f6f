/- GID: ParaKV/Concurrent/Progress
   source: parakv/core/index/index.cc, parakv/core/segment/segment_manager.cc,
     parakv/core/segment/segment_file.cc
   digest: No call waits forever for a segment that the compaction thread has locked. -/

import Mathlib.Data.Fintype.Basic
import Mathlib.Data.Finset.Lattice.Fold
import ParaKV.Lib.Fairness
import ParaKV.Index.Bookkeeping
import ParaKV.Concurrent.Threads
import ParaKV.Concurrent.SlotRuns

set_option autoImplicit false

namespace ParaKV.Concurrent.Progress

open Lib.StepRun Lib.Fairness Index Index.Key Index.Runs Index.CompactionRuns Index.Bookkeeping
open Segment.Manager Concurrent.Machine Concurrent.Threads Concurrent.SlotRuns

variable {K : Type} [DecidableEq K] [KeyType K] {n : ℕ} {sys : System K n} {s s' : State K n}
  {a : Action n}

/-- The compaction thread gets its turns, and a call that can go on again and again does. -/
structure Fair (sys : System K n) (s : State K n) (act : ℕ → Action n) : Prop where
  compact : Recurs fun i => act i = .compact
  calls : ∀ t, StronglyFair (Machine.step sys) s act (.call t)

theorem remaining_step (t : Fin n) (hstep : Machine.step sys s a = some s') :
    remaining (s'.pcs t) ≤ remaining (s.pcs t) := by
  by_cases ha : a = .call t
  · subst ha
    exact (step_call_remaining hstep).le
  · rw [(step_others hstep).calls t ha]

theorem checkpointLeft_step (hstep : Machine.step sys s a = some s') :
    checkpointLeft sys.shards s'.checkpointer ≤ checkpointLeft sys.shards s.checkpointer := by
  by_cases ha : a = .checkpoint
  · subst ha
    by_cases hleft : checkpointLeft sys.shards s.checkpointer = 0
    · cases hck : s.checkpointer <;> simp [hck, checkpointLeft] at hleft
      simp [Machine.step, checkpointStep, hck] at hstep
    · obtain ⟨s'', hs'', hlt⟩ := step_checkpoint_able hleft
      cases hs''.symm.trans hstep
      exact hlt.le
  · rw [(step_others hstep).checkpointer ha]

theorem compactor_recurs {act : ℕ → Action n}
    (htidy : ∀ i, Tidy sys (stateAt (Machine.step sys) s act i))
    (hturn : Recurs fun i => act i = .compact) :
    Recurs fun i => Between (stateAt (Machine.step sys) s act i).compactor := by
  refine recurs_of_variant (a := .compact) (p := fun s => Between s.compactor)
    (r := fun s => distance s.compactor) htidy ?_ ?_ hturn
  · intro s b s' htidy hp hstep
    by_cases hb : b = .compact
    · subst hb
      exact ((step_compact_distance hstep).resolve_left hp).imp .inr le_of_lt
    · exact .inr (le_of_eq (by rw [(step_others hstep).compactor hb]))
  · intro s htidy hp
    obtain ⟨s', hs'⟩ := step_compact_able htidy
    exact ⟨s', hs', ((step_compact_distance hs').resolve_left hp).imp_left .inr⟩

theorem call_exhausts {act : ℕ → Action n} (hfair : Fair sys s act)
    (htidy : ∀ i, Tidy sys (stateAt (Machine.step sys) s act i)) (t : Fin n) :
    ∃ i, ∀ j ≥ i, remaining ((stateAt (Machine.step sys) s act j).pcs t) = 0 := by
  refine (hfair.calls t).exhausts (m := fun s => remaining (s.pcs t)) htidy
    (fun _ _ _ _ hstep => remaining_step t hstep) (fun _ _ _ hstep => step_call_remaining hstep)
    fun i => ?_
  obtain ⟨j, hj, hfree⟩ := compactor_recurs htidy hfair.compact i
  exact ⟨j, hj, or_iff_not_imp_left.mpr (step_call_able ((htidy j).calls t) hfree)⟩

theorem checkpoint_exhausts (sys : System K n) (s : State K n) {act : ℕ → Action n}
    (hturn : Recurs fun i => act i = .checkpoint) :
    ∃ i, ∀ j ≥ i,
      checkpointLeft sys.shards (stateAt (Machine.step sys) s act j).checkpointer = 0 := by
  let left : State K n → ℕ := fun s => checkpointLeft sys.shards s.checkpointer
  have hle : ∀ s b s', True → Machine.step sys s b = some s' → left s' ≤ left s :=
    fun _ _ _ _ hstep => checkpointLeft_step hstep
  obtain ⟨i, -, hi⟩ := recurs_of_variant (a := .checkpoint) (p := fun s => left s = 0) (r := left)
    (fun _ => trivial) (fun s b s' h _ hstep => .inr (hle s b s' h hstep)) (fun s _ hleft => by
      obtain ⟨s', hs', hlt⟩ := step_checkpoint_able hleft
      exact ⟨s', hs', .inr hlt⟩) hturn 0
  exact ⟨i, fun j hj => stays_zero (fun _ => trivial) hle hi hj⟩

/-- From any store a run can reach and under any fair schedule in which the compaction thread
chooses its targets without an erase, whatever the calls are: the compaction thread never waits,
every call returns, and a checkpoint that gets its turns returns. -/
theorem calls_return (hadm : sys.o.Admissible K) {stateFile : Option Bytes} {prior : List (Act K)}
    {st : Store K}
    (hprior : GuardedRun (Runs.step sys.o) Uncrashed (Store.initial K stateFile) prior st)
    (hup : st.up = true) {content : K → Option Bytes} {act : ℕ → Action n}
    (hs : s = State.initial n st.world content) (hfair : Fair sys s act)
    (hcalm : ∀ i, Undisturbed sys (stateAt (Machine.step sys) s act i) (act i)) :
    (∀ i, Machine.step sys (stateAt (Machine.step sys) s act i) .compact ≠ none) ∧
    (∃ i, ∀ j ≥ i, ∀ t, ∃ status v,
      (stateAt (Machine.step sys) s act j).pcs t = .done status v) ∧
    ((Recurs fun i => act i = .checkpoint) → ∃ i, ∀ j ≥ i, ∃ status,
      (stateAt (Machine.step sys) s act j).checkpointer = .finished status) := by
  have hinit : Tidy sys s := by
    subst hs
    have htended := (tended_run hadm hprior).world hup
    exact tidy_initial ⟨htended.live.mgr, htended.classified⟩ content
  have htidy : ∀ i, Tidy sys (stateAt (Machine.step sys) s act i) := fun i =>
    stateAt_invariant (i := 0) hinit (fun k _ _ h hstep => tidy_step h (hcalm k) hstep)
      (Nat.zero_le i)
  refine ⟨fun i => ?_, ?_, fun hturn => ?_⟩
  · obtain ⟨s', hs'⟩ := step_compact_able (htidy i)
    simp [hs']
  · choose last hlast using call_exhausts hfair htidy
    refine ⟨Finset.univ.sup last, fun j hj t => remaining_eq_zero (hlast t j ?_)⟩
    exact (Finset.le_sup (Finset.mem_univ t)).trans hj
  · obtain ⟨i, hi⟩ := checkpoint_exhausts sys s hturn
    refine ⟨i, fun j hj => ?_⟩
    have hleft := hi j hj
    cases hck : (stateAt (Machine.step sys) s act j).checkpointer <;>
      simp [hck, checkpointLeft] at hleft ⊢

theorem fair_of_returned {act : ℕ → Action n} (hturn : Recurs fun i => act i = .compact)
    (m : ℕ) (h : ∀ t, remaining ((stateAt (Machine.step sys) s act m).pcs t) = 0) :
    Fair sys s act where
  compact := hturn
  calls t hable := by
    obtain ⟨j, hj, hstep⟩ := hable m
    obtain ⟨s', hs'⟩ := Option.ne_none_iff_exists'.mp hstep
    have hle : ∀ s b s', True → Machine.step sys s b = some s' →
        remaining (s'.pcs t) ≤ remaining (s.pcs t) := fun _ _ _ _ hs => remaining_step t hs
    have hzero := stays_zero (fun _ => trivial) hle (h t) hj
    have hlt := step_call_remaining hs'
    omega

/-- The calls and the checkpoint are over, and there is nothing to compact. -/
structure Settled (sys : System K n) (s : State K n) : Prop where
  calls : ∀ t, remaining (s.pcs t) = 0
  checkpointer : checkpointLeft sys.shards s.checkpointer = 0
  compactor : Between s.compactor ∨ s.compactor = .select []
  nothing : candidates sys.o s.world = []

theorem settled_step (h : Settled sys s) (hstep : Machine.step sys s a = some s') :
    Settled sys s' := by
  have hothers := step_others hstep
  cases a with
  | call t =>
    have hlt := step_call_remaining hstep
    have hzero := h.calls t
    omega
  | compact =>
    obtain ⟨r, hr, rfl⟩ := Option.map_eq_some_iff.mp hstep
    rcases h.compactor with (hcp | ⟨st, hcp⟩) | hcp <;> rw [hcp] at hr <;> cases hr
    · exact ⟨h.calls, h.checkpointer, .inr (congrArg _ h.nothing), h.nothing⟩
    · exact ⟨h.calls, h.checkpointer, .inr (congrArg _ h.nothing), h.nothing⟩
    · exact ⟨h.calls, h.checkpointer, .inl (.inr ⟨_, rfl⟩), h.nothing⟩
  | checkpoint =>
    have hzero := h.checkpointer
    cases hck : s.checkpointer <;> simp [hck, checkpointLeft] at hzero
    simp [Machine.step, checkpointStep, hck] at hstep

theorem Settled.undisturbed {K : Type} {sys : System K n} {s : State K n} (h : Settled sys s)
    (a : Action n) : Undisturbed sys s a := by
  cases a with
  | compact => rcases h.compactor with (hcp | ⟨st, hcp⟩) | hcp <;> simp [Undisturbed, hcp]
  | _ => trivial

/-- The compaction thread locks the segment of key 0 before the call reads it. -/
def waitSystem : System Key64 1 := ⟨smallOptions 4 0, oneShard, fun _ => .get 0 1⟩

def waitTurns (i : ℕ) : Action 1 :=
  if i < 3 then .compact
  else match i % 3 with
    | 0 => .call ⟨0, by decide⟩
    | 1 => .compact
    | _ => .checkpoint

theorem waitTurns_recurs (k : ℕ) : Recurs fun i => waitTurns i = waitTurns (k + 3) := by
  intro i
  refine ⟨3 * i + (k + 3), by omega, ?_⟩
  have hmod : (3 * i + (k + 3)) % 3 = (k + 3) % 3 := by omega
  have hlate : ¬ 3 * i + (k + 3) < 3 := by omega
  simp only [waitTurns, hmod, hlate, if_false, show ¬ k + 3 < 3 by omega]

/-- The turns in which the compaction thread chooses a target, and the state they lead to. -/
def waitCheck (s : State Key64 1) : Bool :=
  let last := stateAt (Machine.step waitSystem) s waitTurns 30
  ((List.range 30).all fun i => decide (Undisturbed waitSystem
      (stateAt (Machine.step waitSystem) s waitTurns i) (waitTurns i))) &&
    remaining (last.pcs 0) == 0 && checkpointLeft oneShard last.checkpointer == 0 &&
    (last.compactor matches .off | .finished _ | .select []) &&
    candidates waitSystem.o last.world == []

theorem waitCheck_spec {s : State Key64 1} (h : waitCheck s = true) :
    (∀ i < 30, Undisturbed waitSystem (stateAt (Machine.step waitSystem) s waitTurns i)
      (waitTurns i)) ∧ Settled waitSystem (stateAt (Machine.step waitSystem) s waitTurns 30) := by
  simp only [waitCheck, Bool.and_eq_true, List.all_eq_true, List.mem_range, decide_eq_true_eq,
    beq_iff_eq] at h
  obtain ⟨⟨⟨⟨hturns, hcall⟩, hcheckpoint⟩, hcompactor⟩, hcandidates⟩ := h
  refine ⟨hturns, fun t => Fin.fin_one_eq_zero t ▸ hcall, hcheckpoint, ?_, hcandidates⟩
  split at hcompactor
  · exact .inl (.inl ‹_›)
  · exact .inl (.inr ⟨_, ‹_›⟩)
  · exact .inr ‹_›
  · cases hcompactor

/-- The call is at its last section before turn 10, waits there, and has returned before
turn 30. -/
theorem calls_return_waiting :
    ∃ st, GuardedRun (Runs.step (smallOptions 4 0)) Uncrashed (Store.initial Key64 none)
        sparsePrior st ∧ st.up = true ∧
      Fair waitSystem (State.initial 1 st.world fun _ => none) waitTurns ∧
      (∀ i, Undisturbed waitSystem (stateAt (Machine.step waitSystem)
        (State.initial 1 st.world fun _ => none) waitTurns i) (waitTurns i)) ∧
      (∃ i, ∀ j ≥ i, ∀ t, ∃ status v, (stateAt (Machine.step waitSystem)
        (State.initial 1 st.world fun _ => none) waitTurns j).pcs t = .done status v) ∧
      ∃ i, ∀ j ≥ i, ∃ status, (stateAt (Machine.step waitSystem)
        (State.initial 1 st.world fun _ => none) waitTurns j).checkpointer = .finished status := by
  obtain ⟨st, hprior, hst⟩ := exists_guardedRun (f := fun st : Store Key64 =>
      (st.up, waitCheck (State.initial 1 st.world fun _ => none)))
    (show (performGuarded (Runs.step (smallOptions 4 0)) Uncrashed (Store.initial Key64 none)
      sparsePrior).map _ = some (true, true) by decide +kernel)
  obtain ⟨hup, hcheck⟩ := Prod.mk.inj hst
  obtain ⟨hturns, hsettled⟩ := waitCheck_spec hcheck
  have hfair := fair_of_returned (waitTurns_recurs 1) 30 hsettled.calls
  have hcalm : ∀ i, Undisturbed waitSystem (stateAt (Machine.step waitSystem)
      (State.initial 1 st.world fun _ => none) waitTurns i) (waitTurns i) := by
    intro i
    by_cases hi : i < 30
    · exact hturns i hi
    · exact (stateAt_invariant hsettled (fun _ _ _ h hstep => settled_step h hstep)
        (Nat.le_of_not_lt hi)).undisturbed _
  have hadm : waitSystem.o.Admissible Key64 := smallOptions_admissible 0 (by decide)
  obtain ⟨-, hcalls, hcheckpoint⟩ := calls_return hadm hprior hup rfl hfair hcalm
  exact ⟨st, hprior, hup, hfair, hcalm, hcalls, hcheckpoint (waitTurns_recurs 2)⟩

end ParaKV.Concurrent.Progress
