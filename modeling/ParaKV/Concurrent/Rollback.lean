/- GID: ParaKV/Concurrent/Rollback
   source: parakv/core/index/index.cc
   digest: Concurrent Puts of one key whose log appends may fail and be rolled back. -/

import ParaKV.Lib.VersionStack
import ParaKV.Index.Faults
import ParaKV.Concurrent.Logging

set_option autoImplicit false

namespace ParaKV.Concurrent.Rollback

open Lib.OwnedSlots Lib.StepRun Lib.VersionStack Index Index.Key Index.Operations Index.Ownership
open Index.Faults Index.Runs Index.CompactionRuns Segment.FileSpec Segment.ManagerSpec Core.State
open Concurrent.Machine Concurrent.Logging

variable {K : Type} [DecidableEq K] [KeyType K] {n : ℕ}

/-! Calls of `Put` with one key, no compaction, and appends that may fail. -/

/-- One section of a `Put` whose append meets the outcomes `io`. -/
def putStep (o : Options) (key : K) (value : Bytes) (io : ℕ → IoOutcome) (w : World K) :
    Pc → Option (Pc × World K)
  | .log newEnc old =>
    let r := appendWal o (putRecord key newEnc old) io w
    if r.val ≠ .ok then some (.revert newEnc old r.val, r.state)
    else match old with
      | some oldEnc => some (.release oldEnc, r.state)
      | none => some (.done .ok [], r.state)
  | pc => callStep o (fun _ => false) w (.put key value) pc

/-- When the append succeeds it is a section of the general machine. -/
theorem putStep_ok (o : Options) (key : K) (value : Bytes) (w : World K) (pc : Pc) :
    putStep o key value (fun _ => .ok) w pc =
      callStep o (fun _ => false) w (.put key value) pc := by
  cases pc <;> rfl

structure Puts (K : Type) (n : ℕ) where
  o : Options
  key : K
  values : Fin n → Bytes

/-- `order` is a history variable: the calls in the order of their map updates. -/
structure State (K : Type) (n : ℕ) where
  world : World K
  pcs : Fin n → Pc
  order : List (Fin n)

def State.initial (n : ℕ) (w : World K) : State K n := ⟨w, fun _ => .begin, []⟩

/-- The call that runs its next section, and the outcomes its file operations meet there. -/
structure Turn (n : ℕ) where
  caller : Fin n
  io : ℕ → IoOutcome

def orderAfter (order : List (Fin n)) (t : Fin n) : Pc → List (Fin n)
  | .install _ => order ++ [t]
  | _ => order

def step (sys : Puts K n) (s : State K n) (turn : Turn n) : Option (State K n) :=
  (putStep sys.o sys.key (sys.values turn.caller) turn.io s.world (s.pcs turn.caller)).map fun r =>
    ⟨r.2, Function.update s.pcs turn.caller r.1,
      orderAfter s.order turn.caller (s.pcs turn.caller)⟩

def revertedBy : Pc → Option UInt64
  | .revert newEnc _ _ => some newEnc
  | _ => none

/-- A call that rolls back finds its own offset in the map. -/
def OwnEntry (sys : Puts K n) (s : State K n) (turn : Turn n) : Prop :=
  ∀ a ∈ revertedBy (s.pcs turn.caller), s.world.map.lookup sys.key = some a

instance (sys : Puts K n) (s : State K n) (turn : Turn n) : Decidable (OwnEntry sys s turn) :=
  Option.decidableForallMem _

/-- The key has this content, and a content is in an occupied slot. -/
def Holds (o : Options) (w : World K) (key : K) : Option Bytes → Prop
  | none => w.map.lookup key = none
  | some v => ∃ a, w.map.lookup key = some a ∧ view o w.disk a = some (key, v)

/-! The calls are the writers of a version stack. -/

def stageOf : Pc → Stage UInt64
  | .install a => .written a
  | .log a old => .pending a old
  | .revert a old _ => .pending a old
  | .discard a _ => .undone a
  | .release old => .committed old
  | .done .ok _ => .won
  | .done _ _ => .lost
  | _ => .idle

def versions (sys : Puts K n) (s : State K n) : Race UInt64 (K × Bytes) (Fin n) where
  current := s.world.map.lookup sys.key
  cells := view sys.o s.world.disk
  used := Below sys.o s.world
  stage t := stageOf (s.pcs t)
  order := s.order

structure PcOk (o : Options) (pc : Pc) : Prop where
  seg : ∀ seg again, pc = .insert seg again → seg < o.segmentCount
  revert : ∀ a old st, pc = .revert a old st → st ≠ .ok
  discard : ∀ a st, pc = .discard a st → st ≠ .ok

structure Sane (sys : Puts K n) (base : Option (UInt64 × K × Bytes)) (s : State K n) : Prop where
  mgr : ManagerOk sys.o s.world.mgr
  segs : SegmentsOk sys.o s.world
  calls : ∀ t, PcOk sys.o (s.pcs t)
  stack : ∃ stack, Ok (fun t => (sys.key, sys.values t)) base (versions sys s) stack

section Sections

variable {o : Options} {w w' : World K} {a b : UInt64}

theorem stageOf_done {st : Status} (v : Bytes) (h : st ≠ .ok) : stageOf (.done st v) = .lost := by
  cases st <;> first | rfl | exact absurd rfl h

theorem below_congr {K : Type} {w w' : World K}
    (h : ∀ id, (w'.segs id).appendCursor = (w.segs id).appendCursor) :
    Below o w' = Below o w := by
  funext b
  simp only [Below, h]

theorem new_not_below {K : Type} [KeyType K] {w : World K} (hadm : o.Admissible K)
    (hsegs : SegmentsOk o w) {seg : ℕ} (hseg : seg < o.segmentCount)
    (hroom : (w.segs seg).appendCursor < o.totalSlots) :
    ¬ Below o w (newAddr w seg) := by
  rintro ⟨seg', hseg', i, hi, heq⟩
  have hbound := (hsegs seg' hseg').bound
  have hi' := lt_of_lt_of_le (lt_of_lt_of_le hi hbound) hadm.slots
  obtain ⟨rfl, rfl⟩ := encodeSegmentSlot_inj (lt_of_lt_of_le hseg hadm.segments)
    (lt_of_lt_of_le hroom hadm.slots) (lt_of_lt_of_le hseg' hadm.segments) hi' heq
  exact lt_irrefl _ hi

theorem below_insert {K : Type} {w : World K} {seg : ℕ} (hseg : seg < o.segmentCount)
    (key value : Bytes) :
    Below o (afterInsert o w seg key value) = fun b => Below o w b ∨ b = newAddr w seg := by
  have hself : ((afterInsert o w seg key value).segs seg).appendCursor =
      (w.segs seg).appendCursor + 1 := by
    simp [afterInsert]
  have hother : ∀ id, id ≠ seg → (afterInsert o w seg key value).segs id = w.segs id := by
    intro id hid
    simp [afterInsert, World.setSegment, World.setImage, hid]
  funext b
  refine propext ⟨?_, ?_⟩
  · rintro ⟨id, hid, i, hi, rfl⟩
    by_cases heq : id = seg
    · subst heq
      rw [hself] at hi
      rcases Nat.lt_succ_iff_lt_or_eq.mp hi with hi | rfl
      · exact Or.inl ⟨id, hid, i, hi, rfl⟩
      · exact Or.inr rfl
    · rw [hother id heq] at hi
      exact Or.inl ⟨id, hid, i, hi, rfl⟩
  · rintro (⟨id, hid, i, hi, rfl⟩ | rfl)
    · refine ⟨id, hid, i, lt_of_lt_of_le hi ?_, rfl⟩
      exact (sameLog_afterInsert o w seg key value).cursors id
    · refine ⟨seg, hseg, (w.segs seg).appendCursor, ?_, rfl⟩
      rw [hself]
      exact Nat.lt_succ_self _

theorem freeSlot_cursor {K : Type} [KeyType K] {w : World K} (hadm : o.Admissible K)
    (hmgr : ManagerOk o w.mgr) (hsegs : SegmentsOk o w) (ha : IsSlot o a) (id : ℕ) :
    ((run (freeSlot o a) w).state.segs id).appendCursor = (w.segs id).appendCursor := by
  obtain ⟨seg, hseg, i, hi, rfl⟩ := ha
  rw [(run_freeSlot hadm hmgr hseg hi).1]
  cases hbit : (w.segs seg).bitmap i with
  | false => rw [(run_delete_vacant (hsegs seg hseg) hbit).1]
  | true =>
    rw [(run_delete (hsegs seg hseg) hbit).2]
    by_cases hid : id = seg
    · subst hid
      simp [afterDelete]
    · simp [afterDelete, World.setSegment, World.setImage, hid]

end Sections

section Turns

variable {sys : Puts K n} {base : Option (UInt64 × K × Bytes)} {s : State K n} {t : Fin n}
  {pc' : Pc} {a b : UInt64} {io : ℕ → IoOutcome}

theorem versions_turn (s : State K n) (w' : World K) (t : Fin n) (pc' : Pc)
    (order : List (Fin n)) :
    versions sys ⟨w', Function.update s.pcs t pc', order⟩ =
      ⟨w'.map.lookup sys.key, view sys.o w'.disk, Below sys.o w',
        Function.update (versions sys s).stage t (stageOf pc'), order⟩ := by
  unfold versions
  congr 1
  funext u
  by_cases hu : u = t
  · subst hu
    simp
  · simp [hu]

theorem sane_turn (h : Sane sys base s) (w' : World K) (hmgr : ManagerOk sys.o w'.mgr)
    (hsegs : SegmentsOk sys.o w') (hpc : PcOk sys.o pc') (order : List (Fin n))
    (hstep : Step (fun u => (sys.key, sys.values u)) (versions sys s)
      ⟨w'.map.lookup sys.key, view sys.o w'.disk, Below sys.o w',
        Function.update (versions sys s).stage t (stageOf pc'), order⟩) :
    Sane sys base ⟨w', Function.update s.pcs t pc', order⟩ where
  mgr := hmgr
  segs := hsegs
  calls u := by
    by_cases hu : u = t
    · subst hu
      simpa using hpc
    · simpa [hu] using h.calls u
  stack := by
    rw [versions_turn s]
    exact hstep.ok h.stack

theorem sane_quiet (h : Sane sys base s) {w' : World K} (hmgr : ManagerOk sys.o w'.mgr)
    (hsegs : w'.segs = s.world.segs) (himages : w'.disk.images = s.world.disk.images)
    (hmap : w'.map = s.world.map) (hpc : PcOk sys.o pc')
    (hstep : Step (fun u => (sys.key, sys.values u)) (versions sys s)
      { versions sys s with
        stage := Function.update (versions sys s).stage t (stageOf pc') }) :
    Sane sys base ⟨w', Function.update s.pcs t pc', s.order⟩ := by
  refine sane_turn h _ hmgr ?_ hpc s.order ?_
  · intro id hid
    rw [hsegs, himages]
    exact h.segs id hid
  · have hbelow : Below sys.o w' = Below sys.o s.world := below_congr fun id => by rw [hsegs]
    rw [hmap, view_congr himages, hbelow]
    exact hstep

theorem step_rest (s : State K n) (hstage : stageOf pc' = stageOf (s.pcs t)) :
    Step (fun u => (sys.key, sys.values u)) (versions sys s)
      { versions sys s with
        stage := Function.update (versions sys s).stage t (stageOf pc') } := by
  rw [show Function.update (versions sys s).stage t (stageOf pc') = (versions sys s).stage from
    Function.update_eq_self_iff.mpr hstage]
  exact .rest _

theorem pcOk_plain {o : Options} (h : ∀ seg again, pc' ≠ .insert seg again)
    (h' : ∀ a old st, pc' ≠ .revert a old st) (h'' : ∀ a st, pc' ≠ .discard a st) :
    PcOk o pc' :=
  ⟨fun seg again hpc => (h seg again hpc).elim, fun a old st hpc => (h' a old st hpc).elim,
    fun a st hpc => (h'' a st hpc).elim⟩

theorem sane_free (hadm : sys.o.Admissible K) (h : Sane sys base s)
    (ha : Below sys.o s.world a) (hpc : PcOk sys.o pc')
    (hstep : Step (fun u => (sys.key, sys.values u)) (versions sys s)
      { versions sys s with
        cells := Function.update (versions sys s).cells a none
        stage := Function.update (versions sys s).stage t (stageOf pc') }) :
    Sane sys base ⟨(run (freeSlot sys.o a) s.world).state, Function.update s.pcs t pc',
      s.order⟩ := by
  have hslot := isSlot_of_below h.segs ha
  have hreleased : Released sys.o (some a) s.world (run (releaseOld sys.o (some a)) s.world) :=
    releaseOld_spec hadm h.mgr h.segs fun b hb => Option.some.inj hb ▸ hslot
  have hstate : (run (releaseOld sys.o (some a)) s.world).state =
      (run (freeSlot sys.o a) s.world).state := by
    simp [releaseOld]
  have hview := Slots.released_view hreleased
  have hmap := hreleased.map
  have hmgr := hreleased.mgr
  have hsegs := hreleased.segs
  rw [hstate] at hview hmap hmgr hsegs
  refine sane_turn h _ ?_ hsegs hpc s.order ?_
  · rw [hmgr]
    exact h.mgr
  · rw [hview, hmap, below_congr (freeSlot_cursor hadm h.mgr h.segs hslot)]
    exact hstep

theorem sane_begin (h : Sane sys base s) (hpc : s.pcs t = .begin) {r : Pc × World K}
    (hr : putStep sys.o sys.key (sys.values t) io s.world .begin = some r) :
    Sane sys base ⟨r.2, Function.update s.pcs t r.1, s.order⟩ := by
  simp only [putStep, callStep] at hr
  split at hr <;> cases hr
  · refine sane_quiet h h.mgr rfl rfl rfl (pcOk_plain (by simp) (by simp) (by simp)) ?_
    exact .fail t (by simp [versions, hpc, stageOf])
  · refine sane_quiet h h.mgr rfl rfl rfl (pcOk_plain (by simp) (by simp) (by simp)) ?_
    exact step_rest s (by rw [hpc]; rfl)

theorem sane_active (h : Sane sys base s) {again : Bool} (hpc : s.pcs t = .active again)
    {r : Pc × World K}
    (hr : putStep sys.o sys.key (sys.values t) io s.world (.active again) = some r) :
    Sane sys base ⟨r.2, Function.update s.pcs t r.1, s.order⟩ := by
  obtain ⟨m', hstate, -, hmgr, -, hmem⟩ := getActiveSegment_spec h.mgr
  simp only [putStep, callStep, hstate] at hr
  split at hr <;> cases hr
  · refine sane_quiet h hmgr rfl rfl rfl (pcOk_plain (by simp) (by simp) (by simp)) ?_
    exact .fail t (by simp [versions, hpc, stageOf])
  · rename_i seg hseg
    refine sane_quiet h hmgr rfl rfl rfl ⟨fun seg' again' hinsert => ?_, by simp, by simp⟩
      (step_rest s (by rw [hpc]; rfl))
    obtain ⟨rfl, -⟩ := Pc.insert.inj hinsert
    exact hmem _ hseg

theorem sane_insert (hadm : sys.o.Admissible K) (h : Sane sys base s) {seg : ℕ} {again : Bool}
    (hpc : s.pcs t = .insert seg again) {r : Pc × World K}
    (hr : putStep sys.o sys.key (sys.values t) io s.world (.insert seg again) = some r) :
    Sane sys base ⟨r.2, Function.update s.pcs t r.1, s.order⟩ := by
  have hseg := (h.calls t).seg seg again hpc
  have hidle : (versions sys s).stage t = .idle := by simp [versions, hpc, stageOf]
  simp only [putStep, callStep, Bool.false_eq_true, if_false] at hr
  by_cases hroom : (s.world.segs seg).appendCursor < sys.o.totalSlots
  · obtain ⟨hval, hstate⟩ := run_insert (toBytes sys.key) (sys.values t) hadm.slots
      (h.segs seg hseg) hroom
    simp only [hval, hstate, reduceCtorEq, false_and, if_false, ne_eq, not_true_eq_false] at hr
    cases hr
    have hview := Slots.inserted_view hadm h.segs hseg hroom ⟨toBytes sys.key, sys.values t⟩
    have hdecode : decodeSlot ⟨toBytes sys.key, sys.values t⟩ = (sys.key, sys.values t) := by
      simp [decodeSlot, ofBytes_toBytes]
    rw [hdecode] at hview
    refine sane_turn h (afterInsert sys.o s.world seg (toBytes sys.key) (sys.values t)) h.mgr
      (segmentsOk_afterInsert h.segs hseg hroom) (pcOk_plain (by simp) (by simp) (by simp))
      s.order ?_
    rw [hview, below_insert hseg]
    exact .write t _ hidle (new_not_below hadm h.segs hseg hroom)
  · obtain ⟨hval, hstate, -⟩ := run_insert_full (toBytes sys.key) (sys.values t) hadm.slots
      (h.segs seg hseg) hroom
    simp only [hval, hstate, true_and, ne_eq, reduceCtorEq, not_false_eq_true, if_true] at hr
    split at hr <;> cases hr
    · refine sane_quiet h h.mgr rfl rfl rfl (pcOk_plain (by simp) (by simp) (by simp)) ?_
      exact step_rest s (by rw [hpc]; rfl)
    · refine sane_quiet h h.mgr rfl rfl rfl (pcOk_plain (by simp) (by simp) (by simp)) ?_
      exact .fail t hidle

theorem sane_mark (h : Sane sys base s) {seg : ℕ} (hpc : s.pcs t = .mark seg) {r : Pc × World K}
    (hr : putStep sys.o sys.key (sys.values t) io s.world (.mark seg) = some r) :
    Sane sys base ⟨r.2, Function.update s.pcs t r.1, s.order⟩ := by
  cases hr
  refine sane_quiet h (markSegmentFull_ok h.mgr seg) rfl rfl rfl
    (pcOk_plain (by simp) (by simp) (by simp)) ?_
  exact step_rest s (by rw [hpc]; rfl)

theorem sane_install (h : Sane sys base s) (hpc : s.pcs t = .install a) {r : Pc × World K}
    (hr : putStep sys.o sys.key (sys.values t) io s.world (.install a) = some r) :
    Sane sys base ⟨r.2, Function.update s.pcs t r.1, s.order ++ [t]⟩ := by
  cases hr
  have hstage : (versions sys s).stage t = .written a := by simp [versions, hpc, stageOf]
  have hcurrent : (s.world.map.insert sys.key a).lookup sys.key = some a := by simp
  refine sane_turn h { s.world with map := s.world.map.insert sys.key a } h.mgr h.segs
    (pcOk_plain (by simp) (by simp) (by simp)) _ ?_
  rw [hcurrent]
  exact .install t a hstage

theorem sane_log (h : Sane sys base s) {old : Option UInt64} (hpc : s.pcs t = .log a old)
    {r : Pc × World K}
    (hr : putStep sys.o sys.key (sys.values t) io s.world (.log a old) = some r) :
    Sane sys base ⟨r.2, Function.update s.pcs t r.1, s.order⟩ := by
  have hlog := appendWal_logOnly (o := sys.o) (putRecord sys.key a old) io s.world
  have hmgr : ManagerOk sys.o (appendWal sys.o (putRecord sys.key a old) io s.world).state.mgr := by
    rw [hlog.mgr]
    exact h.mgr
  have hstage : (versions sys s).stage t = .pending a old := by simp [versions, hpc, stageOf]
  simp only [putStep] at hr
  split at hr
  · rename_i hfailed
    cases hr
    refine sane_quiet h hmgr hlog.segs hlog.images hlog.map ⟨by simp, ?_, by simp⟩ ?_
    · intro a' old' st hrevert
      obtain ⟨-, -, rfl⟩ := Pc.revert.inj hrevert
      exact hfailed
    · exact step_rest s (by rw [hpc]; rfl)
  · cases old with
    | none =>
      cases hr
      refine sane_quiet h hmgr hlog.segs hlog.images hlog.map
        (pcOk_plain (by simp) (by simp) (by simp)) ?_
      exact .first t a hstage
    | some b =>
      cases hr
      refine sane_quiet h hmgr hlog.segs hlog.images hlog.map
        (pcOk_plain (by simp) (by simp) (by simp)) ?_
      exact .commit t a b hstage

theorem sane_revert (h : Sane sys base s) {old : Option UInt64} {st : Status}
    (hpc : s.pcs t = .revert a old st) (hown : s.world.map.lookup sys.key = some a)
    {r : Pc × World K}
    (hr : putStep sys.o sys.key (sys.values t) io s.world (.revert a old st) = some r) :
    Sane sys base ⟨r.2, Function.update s.pcs t r.1, s.order⟩ := by
  cases hr
  have hstage : (versions sys s).stage t = .pending a old := by simp [versions, hpc, stageOf]
  have hfailed := (h.calls t).revert a old st hpc
  have hmem : sys.key ∈ s.world.map := Finmap.mem_of_lookup_eq_some hown
  have hcurrent : (run (revertPut sys.key old) s.world).state.map.lookup sys.key = old := by
    cases old with
    | none => exact Finmap.lookup_erase _ _
    | some b => simp [revertPut, hmem]
  refine sane_turn h (run (revertPut sys.key old) s.world).state h.mgr h.segs
    ⟨by simp, by simp, ?_⟩ _ ?_
  · intro a' st' hdiscard
    obtain ⟨-, rfl⟩ := Pc.discard.inj hdiscard
    exact hfailed
  · rw [hcurrent]
    exact .undo t a old hstage hown

theorem sane_step (hadm : sys.o.Admissible K) (h : Sane sys base s) {turn : Turn n}
    (hown : OwnEntry sys s turn) {s' : State K n} (hstep : step sys s turn = some s') :
    Sane sys base s' := by
  obtain ⟨r, hr, rfl⟩ := Option.map_eq_some_iff.mp hstep
  obtain ⟨stack, hstack⟩ := h.stack
  unfold OwnEntry at hown
  generalize turn.caller = t at *
  cases hpc : s.pcs t with
  | begin => rw [hpc] at hr; exact sane_begin h hpc hr
  | active again => rw [hpc] at hr; exact sane_active h hpc hr
  | insert seg again => rw [hpc] at hr; exact sane_insert hadm h hpc hr
  | mark seg => rw [hpc] at hr; exact sane_mark h hpc hr
  | install a => rw [hpc] at hr; exact sane_install h hpc hr
  | log a old => rw [hpc] at hr; exact sane_log h hpc hr
  | revert a old st =>
    rw [hpc] at hr hown
    exact sane_revert h hpc (hown a rfl) hr
  | discard a st =>
    rw [hpc] at hr
    cases hr
    have hstage : (versions sys s).stage t = .undone a := by simp [versions, hpc, stageOf]
    have hused := (hstack.held t a (by rw [hstage]; rfl)).1
    refine sane_free hadm h hused (pcOk_plain (by simp) (by simp) (by simp)) ?_
    rw [stageOf_done [] ((h.calls t).discard a st hpc)]
    exact .discard t a hstage
  | release b =>
    rw [hpc] at hr
    cases hr
    have hstage : (versions sys s).stage t = .committed b := by simp [versions, hpc, stageOf]
    have hmem := hstack.mem_stack (t := t) (by rw [hstage]; rfl)
    have hused := hstack.used b (below_subset (hstack.linked.committed_below hmem hstage))
    refine sane_free hadm h hused (pcOk_plain (by simp) (by simp) (by simp)) ?_
    exact .release t b hstage
  | _ => simp [hpc, putStep, callStep] at hr

end Turns

/-! Whole interleavings. -/

section Runs

variable {sys : Puts K n} {s : State K n}

def baseOf (o : Options) (w : World K) (key : K) : Option (UInt64 × K × Bytes) :=
  (w.map.lookup key).bind fun a => (view o w.disk a).map fun p => (a, p)

theorem baseOf_spec {o : Options} {w : World K} (h : Live o (fun _ _ => True) w) (key : K) :
    (baseOf o w key).map Prod.fst = w.map.lookup key ∧
      ∀ p, baseOf o w key = some p → view o w.disk p.1 = some p.2 ∧
        w.map.lookup key = some p.1 ∧ p.2.1 = key ∧ value o w key = some p.2.2 := by
  cases hlookup : w.map.lookup key with
  | none => simp [baseOf, hlookup]
  | some a =>
    have hentry : entries w.map key = some a := hlookup
    obtain ⟨v, hview, hvalue⟩ := h.owns.content_isSome hentry
    have hbase : baseOf o w key = some (a, key, v) := by simp [baseOf, hlookup, hview]
    refine ⟨by rw [hbase]; rfl, fun p hp => ?_⟩
    obtain rfl := Option.some.inj (hbase.symm.trans hp)
    exact ⟨hview, rfl, rfl, hvalue⟩

theorem sane_initial {w : World K} (h : Live sys.o (fun _ _ => True) w) :
    Sane sys (baseOf sys.o w sys.key) (State.initial n w) where
  mgr := h.mgr
  segs := h.segs
  calls t := pcOk_plain (by simp [State.initial]) (by simp [State.initial])
    (by simp [State.initial])
  stack := by
    obtain ⟨hcurrent, hbase⟩ := baseOf_spec h sys.key
    refine ⟨[], ok_initial hcurrent.symm (fun p hp => (hbase p hp).1) (fun p hp => ?_)
      (fun t => rfl) rfl⟩
    exact below_of_lookup h (hbase p hp).2.1

theorem sane_run (hadm : sys.o.Admissible K) {w : World K} (h : Live sys.o (fun _ _ => True) w)
    {turns : List (Turn n)}
    (hrun : GuardedRun (step sys) (OwnEntry sys) (State.initial n w) turns s) :
    Sane sys (baseOf sys.o w sys.key) s :=
  hrun.invariant (I := fun _ s => Sane sys (baseOf sys.o w sys.key) s) (sane_initial h)
    fun _ _ _ _ hs hown hstep => sane_step hadm hs hown hstep

/-- From any store that a sequential history has led to, `Put`s of one key interleave, some of
their appends fail, and each of those finds its own entry when it rolls back. When all have
returned, the content is the value of the successful one that updated the map last, or what it
was if none succeeded, and it is in an occupied slot. -/
theorem rollback_keeps_writes (hadm : sys.o.Admissible K) {stateFile : Option Bytes}
    {prior : List (Act K)} {st : Store K}
    (hprior : GuardedRun (Runs.step sys.o) Uncrashed (Store.initial K stateFile) prior st)
    (hup : st.up = true) {turns : List (Turn n)}
    (hrun : GuardedRun (step sys) (OwnEntry sys) (State.initial n st.world) turns s)
    (hdone : ∀ t, ∃ status v, s.pcs t = .done status v) :
    (∃ earlier t later v, s.order = earlier ++ t :: later ∧ s.pcs t = .done .ok v ∧
      (∀ u ∈ later, ∀ v', s.pcs u ≠ .done .ok v') ∧
      Holds sys.o s.world sys.key (some (sys.values t))) ∨
    (∀ t v, s.pcs t ≠ .done .ok v) ∧
      Holds sys.o s.world sys.key (value sys.o st.world sys.key) := by
  have hlive := (live_run hadm hprior).world hup
  obtain ⟨stack, hstack⟩ := (sane_run hadm hlive hrun).stack
  have hwon : ∀ t, (versions sys s).stage t = .won ↔ ∃ v, s.pcs t = .done .ok v := by
    intro t
    obtain ⟨status, v, hpc⟩ := hdone t
    simp only [versions, hpc]
    by_cases hok : status = .ok
    · simp [hok, stageOf]
    · simp [stageOf_done v hok, hok]
  have hfinished : ∀ t, (versions sys s).stage t = .won ∨ (versions sys s).stage t = .lost := by
    intro t
    obtain ⟨status, v, hpc⟩ := hdone t
    simp only [versions, hpc]
    by_cases hok : status = .ok
    · exact Or.inl (by rw [hok]; rfl)
    · exact Or.inr (stageOf_done v hok)
  rcases hstack.settled hfinished with
    ⟨earlier, t, later, a, horder, ht, hlater, hcurrent, hcell⟩ | ⟨hnone, hcurrent, hstored⟩
  · obtain ⟨v, hv⟩ := (hwon t).mp ht
    refine Or.inl ⟨earlier, t, later, v, horder, hv, fun u hu v' hv' => ?_, a, hcurrent, hcell⟩
    exact hlater u hu ((hwon u).mpr ⟨v', hv'⟩)
  · refine Or.inr ⟨fun t v hv => hnone t ((hwon t).mpr ⟨v, hv⟩), ?_⟩
    obtain ⟨hbase, hcontent⟩ := baseOf_spec hlive sys.key
    cases hp : baseOf sys.o st.world sys.key with
    | none =>
      rw [hp] at hbase hcurrent
      have hvalue : value sys.o st.world sys.key = none := content_none hbase.symm
      rw [hvalue]
      exact hcurrent
    | some p =>
      obtain ⟨-, -, hkey, hvalue⟩ := hcontent p hp
      rw [hvalue]
      refine ⟨p.1, ?_, ?_⟩
      · rw [hp] at hcurrent
        exact hcurrent
      · have hcell := hstored p hp
        rw [← hkey]
        exact hcell

end Runs

/-! A section whose file operations succeed, and one where the first fails. -/

def goes (t : Fin n) : Turn n := ⟨t, fun _ => .ok⟩

def stumbles (t : Fin n) : Turn n := ⟨t, fun _ => .fail 0⟩

def race (sys : Puts K n) (prior : List (Act K)) (turns : List (Turn n)) : Option (State K n) :=
  (perform (Runs.step sys.o) (Store.initial K none) prior).bind fun st =>
    perform (step sys) (State.initial n st.world) turns

def twoPuts : Puts Key64 2 := ⟨smallOptions 4 0, 5, ![[1], [2]]⟩

/-- The call `t` updates the map; `u` overwrites the entry and returns; the append of `t` fails,
and its rollback erases the key. -/
def overtakenTurns (t u : Fin n) : List (Turn n) :=
  .replicate 4 (goes t) ++ .replicate 6 (goes u) ++ [stumbles t] ++ .replicate 2 (goes t)

set_option maxRecDepth 100000 in
theorem rollback_erases_successful_put :
    (smallOptions 4 0).Admissible Key64 ∧
    (race twoPuts [.complete .start] (overtakenTurns 0 1)).map
      (fun s => (s.pcs 0, s.pcs 1, s.order, s.world.map.lookup 5)) =
      some (.done .ioError [], .done .ok [], [0, 1], none) :=
  ⟨smallOptions_admissible 0 (by decide), by decide +kernel⟩

def threePuts : Puts Key64 3 := ⟨smallOptions 4 0, 5, ![[1], [2], [3]]⟩

/-- The call `u` overwrites the entry of `t` and takes it back; `v` overwrites it while `t` is
about to log. -/
def nestedTurns (t u v : Fin n) : List (Turn n) :=
  .replicate 4 (goes t) ++ .replicate 4 (goes u) ++ [stumbles u] ++ .replicate 2 (goes u) ++
    .replicate 6 (goes v) ++ .replicate 2 (goes t)

set_option maxRecDepth 100000 in
set_option synthInstance.maxSize 512 in
theorem rollback_keeps_writes_nested :
    ∃ st s, GuardedRun (Runs.step (smallOptions 4 0)) Uncrashed (Store.initial Key64 none)
        [.complete .start, putKey 5] st ∧ st.up = true ∧
      GuardedRun (step threePuts) (OwnEntry threePuts) (State.initial 3 st.world)
        (nestedTurns 0 1 2) s ∧
      s.pcs 0 = .done .ok [] ∧ s.pcs 1 = .done .ioError [] ∧ s.pcs 2 = .done .ok [] ∧
      s.order = [0, 1, 2] ∧ Holds (smallOptions 4 0) s.world 5 (some [3]) := by
  obtain ⟨st, hprior, hst⟩ := exists_guardedRun
    (f := fun st : Store Key64 => (st.up, (performGuarded (step threePuts) (OwnEntry threePuts)
      (State.initial 3 st.world) (nestedTurns 0 1 2)).map fun s =>
        (s.pcs 0, s.pcs 1, s.pcs 2, s.order)))
    (show (performGuarded (Runs.step (smallOptions 4 0)) Uncrashed (Store.initial Key64 none)
      [.complete .start, putKey 5]).map _ =
        some (true, some (.done .ok [], .done .ioError [], .done .ok [],
          ([0, 1, 2] : List (Fin 3)))) by
      decide +kernel)
  obtain ⟨hup, hacts⟩ := Prod.mk.inj hst
  obtain ⟨s, hrun, hs⟩ := exists_guardedRun hacts
  simp only [Prod.mk.injEq] at hs
  obtain ⟨h0, h1, h2, horder⟩ := hs
  refine ⟨st, s, hprior, hup, hrun, h0, h1, h2, horder, ?_⟩
  have hadm : threePuts.o.Admissible Key64 := smallOptions_admissible 0 (by decide)
  have hdone : ∀ t, ∃ status v, s.pcs t = .done status v := by
    intro t
    match t with
    | 0 => exact ⟨_, _, h0⟩
    | 1 => exact ⟨_, _, h1⟩
    | 2 => exact ⟨_, _, h2⟩
  rcases rollback_keeps_writes hadm hprior hup hrun hdone with
    ⟨earlier, t, later, v, hsplit, ht, hlater, hholds⟩ | ⟨hnone, -⟩
  · rw [horder] at hsplit
    rcases earlier with _ | ⟨a, _ | ⟨b, _ | ⟨c, rest⟩⟩⟩
    · obtain ⟨-, rfl⟩ := List.cons.inj hsplit
      exact absurd h2 (hlater 2 (by simp) [])
    · obtain ⟨rfl, -⟩ := List.cons.inj (List.cons.inj hsplit).2
      simp [h1] at ht
    · obtain ⟨rfl, -⟩ := List.cons.inj (List.cons.inj (List.cons.inj hsplit).2).2
      exact hholds
    · simp at hsplit
  · exact absurd h0 (hnone 0 [])

end ParaKV.Concurrent.Rollback
