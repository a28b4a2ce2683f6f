/- GID: ParaKV/Concurrent/Serial
   source: parakv/core/index/index.cc, parakv/core/segment/segment_manager.cc,
     parakv/core/segment/segment_file.cc
   digest: Tasks that run one after the other in the concurrent machine amount to the sequential
     functions, over every run. -/

import ParaKV.Lib.Interleaving
import ParaKV.Lib.Transducer
import ParaKV.Index.CompactionReturns
import ParaKV.Concurrent.Solo
import ParaKV.Concurrent.SlotRuns

set_option autoImplicit false

namespace ParaKV.Concurrent.Serial

open Lib.Interleaving Lib.Transducer Lib.StepRun Index Index.Key Index.Operations Index.Ownership
open Index.Runs Index.CompactionRuns Index.Bookkeeping Index.CompactionReturns Segment.Manager
open Concurrent.Machine Concurrent.Threads Concurrent.Solo Concurrent.SlotRuns Core.State

variable {K : Type} [DecidableEq K] [KeyType K] {n : ℕ}

/-- The function of a task; a compaction may never return. -/
def sequential (sys : System K n) (w : World K) : Action n → Option (Status × Bytes) × World K
  | .call t =>
    let r := run (serveCall sys.o (sys.calls t)) w
    (some r.val, r.state)
  | .compact =>
    let r := run (runAttachedCompaction sys.o) w
    (r.val.map (·, []), r.state)
  | .checkpoint =>
    let r := run (checkpoint sys.o) w
    (some (r.val, []), r.state)

def outcome (a : Action n) (s : State K n) : Option (Status × Bytes) :=
  match a with
  | .call t => Pc.result (s.pcs t)
  | .compact => CompactPc.result s.compactor
  | .checkpoint => CheckpointPc.result s.checkpointer

variable {sys : System K n} {s s' : State K n} {r : Status × Bytes} {a : Action n}

/-- The machine takes steps of the one task until it has a result. -/
abbrev Block (sys : System K n) (a : Action n) : State K n → Status × Bytes → State K n → Prop :=
  Until (fun s => Machine.step sys s a) (outcome a)

/-- Tasks that run one after the other, each with its result. -/
inductive InTurn (sys : System K n) (s₀ : State K n) :
    List (Action n × Status × Bytes) → State K n → Prop
  | nil : InTurn sys s₀ [] s₀
  | snoc {h : List (Action n × Status × Bytes)} {s s' : State K n} {a : Action n}
      {r : Status × Bytes} :
      InTurn sys s₀ h s → Block sys a s r s' → InTurn sys s₀ (h ++ [(a, r)]) s'

def Ready (s : State K n) : Action n → Prop
  | .call t => s.pcs t = .begin
  | .compact => Between s.compactor
  | .checkpoint => s.checkpointer = .off

def left (sys : System K n) (a : Action n) (s : State K n) : Option (Status × Bytes) × World K :=
  match a with
  | .call t =>
    let r := finish (callRest sys.o (sys.calls t) (s.pcs t)) s.world
    (some r.1, r.2)
  | .compact =>
    let r := finish (compactRest sys.o s.compactor) s.world
    (r.1.map (·, []), r.2)
  | .checkpoint =>
    let r := finish (checkpointRest sys.o s.checkpointer) s.world
    (some (r.1, []), r.2)

structure Within (sys : System K n) (a : Action n) (s₀ s : State K n) : Prop where
  others : Others a s₀ s
  unlocked : a ≠ .compact → Between s.compactor
  belongs : ∀ t, a = .call t → Belongs (sys.calls t) (s.pcs t)
  dumping : a = .checkpoint → Dumping sys.shards s.world s.checkpointer

theorem within_step {s₀ : State K n} (h : Within sys a s₀ s) (hres : outcome a s = none)
    (hstep : Machine.step sys s a = some s') :
    Within sys a s₀ s' ∧ left sys a s' = left sys a s := by
  have hothers := step_others hstep
  have hunlocked : a ≠ .compact → Between s'.compactor := fun ha => by
    rw [hothers.compactor ha]
    exact h.unlocked ha
  cases a with
  | call t =>
    have hlocks : s.compactor.locks = fun _ => false := funext (h.unlocked (by simp)).locks
    rw [Machine.step, hlocks] at hstep
    obtain ⟨r, hr, rfl⟩ := Option.map_eq_some_iff.mp hstep
    refine ⟨⟨h.others.trans hothers, hunlocked, ?_, by simp⟩, ?_⟩
    · rintro u ⟨⟩
      simpa using (callStep_remaining hr).1
    · simp only [left, Function.update_self, callStep_rest hr]
  | compact =>
    obtain ⟨r, hr, rfl⟩ := Option.map_eq_some_iff.mp hstep
    refine ⟨⟨h.others.trans hothers, hunlocked, by simp, by simp⟩, ?_⟩
    simp only [left, compactStep_rest hres hr]
  | checkpoint =>
    obtain ⟨r, hr, rfl⟩ := Option.map_eq_some_iff.mp hstep
    obtain ⟨hdump, hrest⟩ := checkpointStep_rest (h.dumping rfl) hr
    refine ⟨⟨h.others.trans hothers, hunlocked, by simp, fun _ => hdump⟩, ?_⟩
    simp only [left, hrest]

theorem left_of_outcome (h : outcome a s = some r) : left sys a s = (some r, s.world) := by
  cases a with
  | call t => simp [left, Pc.result_eq_some.mp h, callRest, finish]
  | compact =>
    obtain ⟨hcp, hr⟩ := CompactPc.result_eq_some.mp h
    simp [left, hcp, compactRest, finish, ← hr]
  | checkpoint =>
    obtain ⟨hck, hr⟩ := CheckpointPc.result_eq_some.mp h
    simp [left, hck, checkpointRest, finish, ← hr]

theorem within_block {s₀ : State K n} (h : Within sys a s₀ s) (hres : outcome a s = none)
    (hblock : Block sys a s r s') : left sys a s = (some r, s'.world) ∧ Within sys a s₀ s' := by
  induction hblock with
  | last hnext hresult =>
    obtain ⟨hwithin, hleft⟩ := within_step h hres hnext
    rw [← hleft]
    exact ⟨left_of_outcome hresult, hwithin⟩
  | next hnext hresult _ ih =>
    obtain ⟨hwithin, hleft⟩ := within_step h hres hnext
    rw [← hleft]
    exact ih hwithin hresult

def taskLeft (sys : System K n) (a : Action n) (s : State K n) : ℕ ×ₗ ℕ :=
  match a with
  | .call t => toLex (0, remaining (s.pcs t))
  | .compact => distance s.compactor
  | .checkpoint => toLex (0, checkpointLeft sys.shards s.checkpointer)

theorem within_able {s₀ : State K n} (h : Within sys a s₀ s) (hres : outcome a s = none)
    (hoff : a = .compact → s.compactor ≠ .off) (hends : (left sys a s).1 ≠ none) :
    ∃ s', Machine.step sys s a = some s' ∧
      (outcome a s' ≠ none ∨ taskLeft sys a s' < taskLeft sys a s) := by
  cases a with
  | call t =>
    have hleft : remaining (s.pcs t) ≠ 0 := fun hzero => by
      obtain ⟨st, v, hpc⟩ := remaining_eq_zero hzero
      simp [outcome, hpc, Pc.result] at hres
    obtain ⟨s', hs'⟩ := Option.ne_none_iff_exists'.mp
      (step_call_able (h.belongs t rfl) (h.unlocked (by simp)) hleft)
    exact ⟨s', hs', .inr (Prod.Lex.toLex_lt_toLex.mpr (.inr ⟨rfl, step_call_remaining hs'⟩))⟩
  | compact =>
    cases hs' : Machine.step sys s .compact with
    | none =>
      obtain ⟨job, cursor, i, hcp, hi, hbit, hself⟩ :=
        compactStep_none (Option.map_eq_none_iff.mp hs')
      simp [left, hcp, compactRest_stuck hi hbit hself] at hends
    | some s' =>
      refine ⟨s', rfl, ?_⟩
      rcases step_compact_distance hs' with (heq | ⟨st, heq⟩) | ⟨st, heq⟩ | hlt
      · exact (hoff rfl heq).elim
      · simp [outcome, heq, CompactPc.result] at hres
      · exact .inl (by simp [outcome, heq, CompactPc.result])
      · exact .inr hlt
  | checkpoint =>
    have hleft : checkpointLeft sys.shards s.checkpointer ≠ 0 := fun hzero => by
      cases hck : s.checkpointer <;> simp [hck, checkpointLeft, outcome, CheckpointPc.result]
        at hzero hres
    obtain ⟨s', hs', hlt⟩ := step_checkpoint_able hleft
    exact ⟨s', hs', .inr (Prod.Lex.toLex_lt_toLex.mpr (.inr ⟨rfl, hlt⟩))⟩

theorem compactStep_ne_off {o : Options} {w : World K} {cp : CompactPc} {r : CompactPc × World K}
    (h : compactStep o w cp = some r) : r.1 ≠ .off := by
  unfold compactStep at h
  dsimp only at h
  repeat' split at h
  all_goals cases h
  all_goals simp

theorem exists_block {s₀ : State K n} (h : Within sys a s₀ s) (hres : outcome a s = none)
    (hoff : a = .compact → s.compactor ≠ .off) (hends : (left sys a s).1 ≠ none) :
    ∃ r s', Block sys a s r s' := by
  let I : State K n → Prop := fun s =>
    Within sys a s₀ s ∧ (a = .compact → s.compactor ≠ .off) ∧ (left sys a s).1 ≠ none
  have hnext : ∀ s, I s → outcome a s = none → ∃ s', Machine.step sys s a = some s' ∧ I s' ∧
      (outcome a s' ≠ none ∨ taskLeft sys a s' < taskLeft sys a s) := by
    intro s ⟨hwithin, hoff, hends⟩ hres
    obtain ⟨s', hs', hnear⟩ := within_able hwithin hres hoff hends
    obtain ⟨hwithin', hleft⟩ := within_step hwithin hres hs'
    refine ⟨s', hs', ⟨hwithin', ?_, hleft ▸ hends⟩, hnear⟩
    rintro rfl
    obtain ⟨r, hr, rfl⟩ := Option.map_eq_some_iff.mp hs'
    exact compactStep_ne_off hr
  exact exists_until hnext ⟨h, hoff, hends⟩ hres

/-- A task that is ready comes to the result of the sequential function. The first section of a
compaction lists the candidates. -/
theorem ready_starts (sys : System K n) (hfree : Between s.compactor) (h : Ready s a) :
    ∃ s₁, Within sys a s s₁ ∧ outcome a s₁ = none ∧ (a = .compact → s₁.compactor ≠ .off) ∧
      left sys a s₁ = sequential sys s.world a ∧
      ∀ r s', Block sys a s r s' ↔ Block sys a s₁ r s' := by
  have hself : Others a s s := ⟨fun _ _ => rfl, fun _ => rfl, fun _ => rfl⟩
  cases a with
  | call t =>
    have hpc : s.pcs t = .begin := h
    refine ⟨s, ⟨hself, fun _ => hfree, ?_, by simp⟩, by simp [outcome, hpc, Pc.result], by simp, ?_,
      fun _ _ => Iff.rfl⟩
    · rintro u ⟨⟩
      rw [hpc]
      cases sys.calls t <;> trivial
    · simp only [left, hpc, sequential]
      cases sys.calls t <;> rfl
  | compact =>
    have hfirst : compactStep sys.o s.world s.compactor =
        some (.select (candidates sys.o s.world), s.world) := by
      rcases h with heq | ⟨st, heq⟩ <;> rw [heq] <;> rfl
    obtain ⟨s₁, hs₁, hselect, hworld⟩ : ∃ s₁, Machine.step sys s .compact = some s₁ ∧
        s₁.compactor = .select (candidates sys.o s.world) ∧ s₁.world = s.world :=
      ⟨_, congrArg (Option.map _) hfirst, rfl, rfl⟩
    have hres : outcome .compact s₁ = none := by simp [outcome, hselect, CompactPc.result]
    refine ⟨s₁, ⟨step_others hs₁, by simp, by simp, by simp⟩, hres, by simp [hselect], ?_,
      fun _ _ => until_step hs₁ hres⟩
    simp only [left, hselect, hworld]
    rfl
  | checkpoint =>
    have hck : s.checkpointer = .off := h
    refine ⟨s, ⟨hself, fun _ => hfree, by simp, fun _ => by rw [hck]; trivial⟩,
      by simp [outcome, hck, CheckpointPc.result], by simp, ?_, fun _ _ => Iff.rfl⟩
    simp only [left, hck]
    rfl

structure Resting (h : List (Action n × Status × Bytes)) (s : State K n) : Prop where
  unlocked : Between s.compactor
  ready : ∀ a, a = .compact ∨ a ∉ h.map Prod.fst → Ready s a
  ended : ∀ a, a ≠ .compact → a ∈ h.map Prod.fst → ∃ r, outcome a s = some r

/-- A task that has run cannot run again, a compaction apart. -/
theorem over_stuck (ha : a ≠ .compact) (h : outcome a s = some r) :
    Machine.step sys s a = none := by
  cases a with
  | call t =>
    simp only [Machine.step, Pc.result_eq_some.mp h]
    cases sys.calls t <;> rfl
  | compact => exact (ha rfl).elim
  | checkpoint =>
    simp only [Machine.step, (CheckpointPc.result_eq_some.mp h).1]
    rfl

theorem resting_block {h : List (Action n × Status × Bytes)} (hrest : Resting h s)
    (hblock : Block sys a s r s') (hlock : Between s'.compactor) (hothers : Others a s s') :
    Resting (h ++ [(a, r)]) s' := by
  have hkeep : ∀ b, b ≠ a →
      (Ready s b → Ready s' b) ∧ (b ≠ .compact → outcome b s' = outcome b s) := by
    intro b hb
    cases b with
    | call t =>
      have heq := hothers.calls t hb.symm
      exact ⟨fun hr => heq.trans hr, fun _ => congrArg Pc.result heq⟩
    | compact => exact ⟨fun _ => hlock, fun hne => (hne rfl).elim⟩
    | checkpoint =>
      have heq := hothers.checkpointer hb.symm
      exact ⟨fun hr => heq.trans hr, fun _ => congrArg CheckpointPc.result heq⟩
  refine ⟨hlock, fun b hb => ?_, fun b hne hb => ?_⟩
  · by_cases hcompact : b = .compact
    · rw [hcompact]
      exact hlock
    · have hnew : b ∉ (h ++ [(a, r)]).map Prod.fst := hb.resolve_left hcompact
      simp only [List.map_append, List.map_cons, List.map_nil, List.mem_append,
        List.mem_singleton, not_or] at hnew
      exact (hkeep b hnew.2).1 (hrest.ready b (.inr hnew.1))
  · by_cases hba : b = a
    · subst hba
      exact ⟨r, hblock.result_eq⟩
    · simp only [List.map_append, List.map_cons, List.map_nil, List.mem_append,
        List.mem_singleton, hba, or_false] at hb
      rw [(hkeep b hba).2 hne]
      exact hrest.ended b hne hb

theorem tended_sequential (hadm : sys.o.Admissible K) {w : World K} (h : Tended sys.o w)
    (a : Action n) : Tended sys.o (sequential sys w a).2 := by
  cases a with
  | call t =>
    show Tended _ (run (serveCall sys.o (sys.calls t)) w).state
    cases hcall : sys.calls t with
    | put key value =>
      have hput := tended_op hadm h (.put key value) (by simp)
      simpa [serveCall, Op.program] using hput
    | delete key =>
      have hdelete := tended_op hadm h (.delete key) (by simp)
      simpa [serveCall, Op.program] using hdelete
    | get key valueSize =>
      rw [serveCall, run_get_state]
      exact h
  | compact => exact tended_op hadm h .compact (by simp)
  | checkpoint =>
    have hcheckpoint := tended_op hadm h .checkpoint (by simp)
    simpa [sequential, Op.program] using hcheckpoint

/-- The tasks so far have the results and the world of the sequential functions. -/
structure Agrees (sys : System K n) (w : World K) (h : List (Action n × Status × Bytes))
    (s : State K n) : Prop where
  results : h.map (fun e => some e.2) = (serveAll (sequential sys) w (h.map Prod.fst)).1
  world : s.world = (serveAll (sequential sys) w (h.map Prod.fst)).2
  tended : Tended sys.o s.world
  resting : Resting h s

theorem agrees_initial {w : World K} (h : Tended sys.o w) (content : K → Option Bytes) :
    Agrees sys w [] (State.initial n w content) where
  results := rfl
  world := rfl
  tended := h
  resting := by
    refine ⟨.inl rfl, fun a _ => ?_, fun a _ ha => by cases ha⟩
    cases a with
    | call t => rfl
    | compact => exact .inl rfl
    | checkpoint => rfl

theorem agrees_block (hadm : sys.o.Admissible K) {w : World K}
    {h : List (Action n × Status × Bytes)} (hs : Agrees sys w h s) (hblock : Block sys a s r s') :
    Agrees sys w (h ++ [(a, r)]) s' := by
  have hready : Ready s a := by
    by_cases hcompact : a = .compact
    · rw [hcompact]
      exact hs.resting.unlocked
    · refine hs.resting.ready a (.inr fun hmem => ?_)
      obtain ⟨r', hr'⟩ := hs.resting.ended a hcompact hmem
      exact hblock.starts (over_stuck hcompact hr')
  obtain ⟨s₁, hwithin, hres, -, hleft, hsame⟩ := ready_starts sys hs.resting.unlocked hready
  obtain ⟨hend, hwithin'⟩ := within_block hwithin hres ((hsame r s').mp hblock)
  have hseq : sequential sys s.world a = (some r, s'.world) := hleft.symm.trans hend
  have hlock : Between s'.compactor := by
    by_cases hcompact : a = .compact
    · subst hcompact
      exact .inr ⟨_, (CompactPc.result_eq_some.mp hblock.result_eq).1⟩
    · exact hwithin'.unlocked hcompact
  have htended := tended_sequential hadm hs.tended a
  rw [hseq] at htended
  refine ⟨?_, ?_, htended, resting_block hs.resting hblock hlock hwithin'.others⟩
  · rw [List.map_append, List.map_append, serveAll_append, hs.results, ← hs.world]
    simp [serveAll, hseq]
  · rw [List.map_append, serveAll_append, ← hs.world]
    simp [serveAll, hseq]

/-- A compaction whose `GetActiveSegment` erases no element, or a task that has not run yet. -/
def Due (sys : System K n) (h : List (Action n × Status × Bytes)) (s : State K n) :
    Action n → Prop
  | .compact => Calm sys.o (candidates sys.o s.world) s.world
  | a => a ∉ h.map Prod.fst

/-- Calls, compactions and checkpoints that run one after the other in the machine of the
threads, in any order, have the results and the effects of the sequential functions; and each that
is due can run to its end. -/
theorem serial_is_sequential (hadm : sys.o.Admissible K) {stateFile : Option Bytes}
    {prior : List (Act K)} {st : Store K}
    (hprior : GuardedRun (Runs.step sys.o) Uncrashed (Store.initial K stateFile) prior st)
    (hup : st.up = true) {content : K → Option Bytes} {h : List (Action n × Status × Bytes)}
    (hrun : InTurn sys (State.initial n st.world content) h s) :
    h.map (fun e => some e.2) = (serveAll (sequential sys) st.world (h.map Prod.fst)).1 ∧
      s.world = (serveAll (sequential sys) st.world (h.map Prod.fst)).2 ∧
      ∀ a, Due sys h s a → ∃ r s', Block sys a s r s' := by
  have htended := (tended_run hadm hprior).world hup
  have hs : Agrees sys st.world h s := by
    induction hrun with
    | nil => exact agrees_initial htended content
    | snoc _ hblock ih => exact agrees_block hadm ih hblock
  refine ⟨hs.results, hs.world, fun a hdue => ?_⟩
  have hready : Ready s a := by
    cases a with
    | call t => exact hs.resting.ready _ (.inr hdue)
    | compact => exact hs.resting.unlocked
    | checkpoint => exact hs.resting.ready _ (.inr hdue)
  have hends : (sequential sys s.world a).1 ≠ none := by
    cases a with
    | call t => simp [sequential]
    | compact =>
      obtain ⟨status, hstatus⟩ := runCompaction_returns hs.tended.classified hdue
      simp [sequential, hstatus]
    | checkpoint => simp [sequential]
  obtain ⟨s₁, hwithin, hres, hoff, hleft, hsame⟩ := ready_starts sys hs.resting.unlocked hready
  obtain ⟨r, s', hblock⟩ := exists_block hwithin hres hoff (hleft ▸ hends)
  exact ⟨r, s', (hsame r s').mpr hblock⟩

/-- A `Get` before and one after a compaction, a `Put` of its key and a checkpoint. -/
def turnSystem : System Key64 3 :=
  ⟨smallOptions 4 0, oneShard, ![.get 0 1, .put 0 [100], .get 0 1]⟩

def turnTasks : List (Action 3) :=
  [.call ⟨0, by decide⟩, .compact, .call ⟨1, by decide⟩, .checkpoint, .call ⟨2, by decide⟩]

set_option maxRecDepth 100000 in
theorem serial_is_sequential_turns :
    ∃ st h s, GuardedRun (Runs.step (smallOptions 4 0)) Uncrashed (Store.initial Key64 none)
        sparsePrior st ∧ st.up = true ∧
      InTurn turnSystem (State.initial 3 st.world fun _ => none) h s ∧
      h.map Prod.fst = turnTasks ∧
      h.map Prod.snd = [(.ok, [0]), (.ok, []), (.ok, []), (.ok, []), (.ok, [100])] := by
  obtain ⟨st, hprior, hst⟩ := exists_guardedRun
    (f := fun st : Store Key64 => (decide (st.up = true ∧ Calm (smallOptions 4 0)
        (candidates (smallOptions 4 0) st.world) st.world),
      (serveAll (sequential turnSystem) st.world turnTasks).1))
    (show (performGuarded (Runs.step (smallOptions 4 0)) Uncrashed (Store.initial Key64 none)
      sparsePrior).map _ = some (true,
        [(.ok, [0]), (.ok, []), (.ok, []), (.ok, []), (.ok, [100])].map some) by decide +kernel)
  simp only [Prod.mk.injEq, decide_eq_true_eq] at hst
  obtain ⟨⟨hup, hcalm⟩, hresults⟩ := hst
  have hadm : turnSystem.o.Admissible Key64 := smallOptions_admissible 0 (by decide)
  have hnext : ∀ {h s} (a : Action 3), Due turnSystem h s a →
      InTurn turnSystem (State.initial 3 st.world fun _ => none) h s → ∃ r s',
        InTurn turnSystem (State.initial 3 st.world fun _ => none) (h ++ [(a, r)]) s' := by
    intro h s a ha hrun
    obtain ⟨r, s', hblock⟩ := (serial_is_sequential hadm hprior hup hrun).2.2 a ha
    exact ⟨r, s', hrun.snoc hblock⟩
  obtain ⟨r₁, s₁, h₁⟩ := hnext (.call 0) (by simp [Due]) .nil
  -- the first `Get` leaves the world as the run before it does
  have hworld : s₁.world = st.world :=
    (serial_is_sequential hadm hprior hup h₁).2.1.trans (run_get_state ..)
  obtain ⟨r₂, s₂, h₂⟩ := hnext .compact (by rw [Due, hworld]; exact hcalm) h₁
  obtain ⟨r₃, s₃, h₃⟩ := hnext (.call 1) (by simp [Due]) h₂
  obtain ⟨r₄, s₄, h₄⟩ := hnext .checkpoint (by simp [Due]) h₃
  obtain ⟨r₅, s₅, h₅⟩ := hnext (.call 2) (by simp [Due]) h₄
  refine ⟨st, _, s₅, hprior, hup, h₅, rfl, ?_⟩
  refine List.map_injective_iff.mpr (Option.some_injective _) ?_
  rw [List.map_map]
  exact (serial_is_sequential hadm hprior hup h₅).1.trans hresults

end ParaKV.Concurrent.Serial
