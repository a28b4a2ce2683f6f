/- GID: ParaKV/Concurrent/Reading
   source: parakv/core/index/index.cc, parakv/core/segment/segment_file.cc
   digest: A Get returns a content its key had while it ran, as long as nobody clears the slot it
     is about to read. -/

import ParaKV.Concurrent.SlotRuns

set_option autoImplicit false

namespace ParaKV.Concurrent.Reading

open Lib.OwnedSlots Lib.StepRun Index Index.Key Index.Operations Index.Durability Index.Ownership
open Index.Runs Index.CompactionRuns Segment.FileSpec Segment.ManagerSpec Core.State
open Concurrent.Machine Concurrent.Slots Concurrent.SlotRuns

variable {K : Type} [DecidableEq K] [KeyType K] {n : ℕ}

/-- The slot a `Get` has resolved and not yet read. -/
def heldBy : Pc → Option UInt64
  | .locate enc => some enc
  | .read enc => some enc
  | _ => none

/-- The slot of an entry that a `Delete` has erased and not yet freed. -/
def erasedBy : Pc → Option UInt64
  | .logErase old => some old
  | .releaseErased old => some old
  | _ => none

theorem retiredBy_of_erasedBy {pc : Pc} {a : UInt64} (h : erasedBy pc = some a) :
    retiredBy pc = some a := by
  cases pc <;> first | exact h | cases h

/-! What a step does to the slot a `Get` holds. -/

def putFrees : Call K → Pc → Option UInt64
  | .put _ _, .release old => some old
  | _, _ => none

def resets : CompactPc → UInt64 → Bool
  | .scan job c i, a => !decide (i < c) && getSegmentId a == job.src
  | _, _ => false

section Views

variable {sys : System K n} {s : State K n} {t : Fin n}

theorem view_freeSlot (hadm : sys.o.Admissible K) (h : Sane sys s) {a : UInt64}
    (hheld : retiredBy (s.pcs t) = some a) (e : UInt64) :
    view sys.o (run (freeSlot sys.o a) s.world).state.disk e = view sys.o s.world.disk e ∨
      a = e ∧ view sys.o (run (freeSlot sys.o a) s.world).state.disk e = none := by
  have hr := releaseOld_spec hadm h.live.mgr h.live.segs
    (show ∀ b, some a = some b → IsSlot sys.o b by
      rintro b hb
      obtain rfl := Option.some.inj hb
      exact (h.calls t).retired a hheld)
  rw [show (run (freeSlot sys.o a) s.world).state =
    (run (releaseOld sys.o (some a)) s.world).state from rfl, released_view hr]
  by_cases he : e = a
  · rw [he, Function.update_self]
    exact Or.inr ⟨rfl, rfl⟩
  · rw [Function.update_of_ne he]
    exact Or.inl rfl

theorem view_call (hadm : sys.o.Admissible K) (h : Sane sys s) {r : Pc × World K}
    (hr : callStep sys.o s.compactor.locks s.world (sys.calls t) (s.pcs t) = some r)
    (e : UInt64) :
    view sys.o r.2.disk e = view sys.o s.world.disk e ∨
      callWrites sys.o s.world (sys.calls t) (s.pcs t) = some e ∨
      (putFrees (sys.calls t) (s.pcs t) = some e ∨ s.pcs t = .releaseErased e) ∧
        view sys.o r.2.disk e = none := by
  have hsection := callStep_section hadm h hr
  have hheld := fun a => view_freeSlot (t := t) (a := a) hadm h
  obtain ⟨pc', w'⟩ := r
  generalize s.pcs t = pc at hsection hheld ⊢
  generalize sys.calls t = call at hsection ⊢
  cases hsection with
  | quiet hplain hpc' => exact Or.inl rfl
  | manage hplain hpc' hmgr hre => exact Or.inl rfl
  | @insert key value seg _ hseg hroom hlock =>
    have hview := congrFun (inserted_view hadm h.live.segs hseg hroom ⟨toBytes key, value⟩) e
    by_cases he : e = newAddr s.world seg
    · refine Or.inr (Or.inl ?_)
      rw [he]
      exact if_pos hroom
    · rw [Function.update_of_ne he] at hview
      exact Or.inl hview
  | install => exact Or.inl rfl
  | @logPut key _ a old =>
    obtain ⟨-, hlog, -⟩ := run_appendWal_ok (o := sys.o) h.live.wal (putRecord key a old)
    exact Or.inl (congrFun (view_congr hlog.images) e)
  | @release _ _ old hlock =>
    rcases hheld old rfl e with hsame | ⟨rfl, hnone⟩
    · exact Or.inl hsame
    · exact Or.inr (Or.inr ⟨Or.inl rfl, hnone⟩)
  | miss hlookup => exact Or.inl rfl
  | erase hlookup => exact Or.inl rfl
  | @logErase key old =>
    obtain ⟨-, hlog, -⟩ := run_appendWal_ok (o := sys.o) h.live.wal (deleteRecord key old)
    exact Or.inl (congrFun (view_congr hlog.images) e)
  | @releaseErased _ old hlock =>
    rcases hheld old rfl e with hsame | ⟨rfl, hnone⟩
    · exact Or.inl hsame
    · exact Or.inr (Or.inr ⟨Or.inr rfl, hnone⟩)

theorem view_compact (hadm : sys.o.Admissible K) (h : Sane sys s) {r : CompactPc × World K}
    (hr : compactStep sys.o s.world s.compactor = some r) (e : UInt64) :
    view sys.o r.2.disk e = view sys.o s.world.disk e ∨
      compactWrites sys.o s.world s.compactor = some e ∨
      resets s.compactor e = true ∧ view sys.o r.2.disk e = none := by
  have hok := h.compactor
  cases hcp : s.compactor with
  | off =>
    rw [hcp] at hr
    cases hr
    exact Or.inl rfl
  | finished st =>
    rw [hcp] at hr
    cases hr
    exact Or.inl rfl
  | select rest =>
    cases rest with
    | nil =>
      rw [hcp] at hr
      cases hr
      exact Or.inl rfl
    | cons src rest =>
      obtain ⟨m', hstate, -⟩ := getActiveSegment_spec h.live.mgr
      simp only [hcp, compactStep, hstate] at hr
      split at hr <;> cases hr
      · exact Or.inl rfl
      · exact Or.inl rfl
  | enter job =>
    simp only [hcp, compactStep] at hr
    split at hr
    · cases hr
      exact Or.inl rfl
    · split at hr <;> cases hr
      · exact Or.inl rfl
      · exact Or.inl rfl
  | scan job c i =>
    rw [hcp] at hok
    have hsrc := hok.toJobOk.source_lt h.live.mgr
    simp only [hcp, compactStep] at hr
    by_cases hi : i < c
    · rw [if_pos hi] at hr
      by_cases hbit : (s.world.segs job.src).bitmap i = true
      · -- a compaction onto its own source waits for the lock it holds
        have hself : job.target ≠ job.src := by
          rintro heq
          simp [hbit, heq] at hr
        simp only [hbit, Bool.not_true, Bool.false_eq_true, if_false, hself] at hr
        have hseg := h.live.segs job.target hok.target_lt
        by_cases hroom : (s.world.segs job.target).appendCursor < sys.o.totalSlots
        · obtain ⟨hval, hstate⟩ := run_insert ((s.world.disk.images job.src).slots i).key
            ((s.world.disk.images job.src).slots i).value hadm.slots hseg hroom
          simp only [hval, hstate, ne_eq, not_true_eq_false, if_false] at hr
          cases hr
          rw [inserted_view hadm h.live.segs hok.target_lt hroom]
          by_cases he : e = newAddr s.world job.target
          · refine Or.inr (Or.inl ?_)
            simp only [compactWrites, nextSlot, hi, hbit, and_self, if_true, hroom, he]
          · rw [Function.update_of_ne he]
            exact Or.inl rfl
        · obtain ⟨hval, hstate, -⟩ := run_insert_full
            ((s.world.disk.images job.src).slots i).key
            ((s.world.disk.images job.src).slots i).value hadm.slots hseg hroom
          simp only [hval, hstate, ne_eq, reduceCtorEq, not_false_eq_true, if_true] at hr
          cases hr
          exact Or.inl rfl
      · simp only [hbit, Bool.not_false, if_true] at hr
        cases hr
        exact Or.inl rfl
    · obtain ⟨hval, hstate⟩ := run_resetSegment sys.o s.world job.src
      simp only [hi, if_false, hval, hstate, ne_eq, not_true_eq_false] at hr
      cases hr
      by_cases he : At (OneSegment sys.o job.src) e
      · obtain ⟨s', j, ⟨rfl, hj⟩, rfl⟩ := he
        refine Or.inr (Or.inr ⟨?_, ?_⟩)
        · simp [resets, hi, getSegmentId_encodeSegmentSlot (lt_of_lt_of_le hsrc hadm.segments)
            (lt_of_lt_of_le hj hadm.slots)]
        · rw [view_encode hadm _ hsrc hj, afterReset_slot, if_pos rfl]
          rfl
      · exact Or.inl (touches_view_eq (touches_afterReset (h.live.segs job.src hsrc)) he)
  | log job c i key newSlot =>
    rw [hcp] at hr
    cases hr
    obtain ⟨-, hlog, -⟩ := run_appendWal_ok (o := sys.o) h.live.wal
      (moveRecord (ofBytes key : K) (encodeSegmentSlot job.src i)
        (encodeSegmentSlot job.target newSlot))
    exact Or.inl (by rw [view_congr hlog.images])
  | remap job c i key newSlot =>
    rw [hcp] at hr
    cases hr
    exact Or.inl rfl
  | reclassify job =>
    rw [hcp] at hr
    cases hr
    exact Or.inl rfl

end Views

/-- The next section of an action clears a slot whose key keeps its content. -/
def clears (sys : System K n) (s : State K n) : Action n → UInt64 → Bool
  | .call t, a => putFrees (sys.calls t) (s.pcs t) == some a
  | .compact, a => resets s.compactor a
  | .checkpoint, _ => false

/-- A timely step that leaves the slots alone that a `Get` is about to read: no insert takes one,
and neither the `FreeSlot` of a `Put` nor the reset of a segment clears one that is occupied. -/
def Steady (sys : System K n) (s : State K n) (act : Action n) : Prop :=
  Timely sys s act ∧ ∀ u, ∀ a ∈ heldBy (s.pcs u), writes sys s act ≠ some a ∧
    (clears sys s act a = true → (view sys.o s.world.disk a).isNone = true)

instance (sys : System K n) (s : State K n) (act : Action n) : Decidable (Steady sys s act) :=
  @instDecidableAnd _ _ inferInstance
    (@Nat.decidableForallFin _ _ fun _ => Option.decidableForallMem _)

variable {sys : System K n} {s s' : State K n} {act : Action n} {u : Fin n}

/-- A steady step keeps the slot a `Get` holds, unless a `Delete` had erased its entry. -/
theorem held_view (hadm : sys.o.Admissible K) (h : Sane sys s) (hsteady : Steady sys s act)
    (hstep : Machine.step sys s act = some s') {e : UInt64} (hheld : heldBy (s.pcs u) = some e) :
    view sys.o s'.world.disk e = view sys.o s.world.disk e ∨
      view sys.o s'.world.disk e = none ∧ ∃ t, erasedBy (s.pcs t) = some e := by
  obtain ⟨hwrites, hclears⟩ := hsteady.2 u e hheld
  -- what is cleared under the guard was vacant
  have hvacant : clears sys s act e = true → view sys.o s'.world.disk e = none →
      view sys.o s'.world.disk e = view sys.o s.world.disk e := fun hclear hnone =>
    hnone.trans (Option.isNone_iff_eq_none.mp (hclears hclear)).symm
  cases act with
  | call t =>
    obtain ⟨r, hr, rfl⟩ := Option.map_eq_some_iff.mp hstep
    simp only [writes, clears] at hwrites hvacant
    rcases view_call hadm h hr e with hsame | hwrite | ⟨hfree | herased, hnone⟩
    · exact Or.inl hsame
    · exact (hwrites hwrite).elim
    · exact Or.inl (hvacant (by rw [hfree]; exact beq_self_eq_true _) hnone)
    · exact Or.inr ⟨hnone, t, by rw [herased]; rfl⟩
  | compact =>
    obtain ⟨r, hr, rfl⟩ := Option.map_eq_some_iff.mp hstep
    rcases view_compact hadm h hr e with hsame | hwrite | ⟨hreset, hnone⟩
    · exact Or.inl hsame
    · exact (hwrites hwrite).elim
    · exact Or.inl (hvacant hreset hnone)
  | checkpoint =>
    obtain ⟨r, hr, rfl⟩ := Option.map_eq_some_iff.mp hstep
    exact Or.inl (by rw [view_congr (checkpointStep_logOnly h.live.wal hr).1.images])

theorem callStep_erasedBy {o : Options} {locks : ℕ → Bool} {w : World K} {call : Call K} {pc : Pc}
    {r : Pc × World K} (hr : callStep o locks w call pc = some r) {e : UInt64}
    (he : erasedBy r.1 = some e) :
    erasedBy pc = some e ∨
      pc = .erase ∧ w.map.lookup call.key = some e ∧ ∃ key, call = .delete key := by
  cases call with
  | put key value =>
    exfalso
    cases pc <;> simp only [callStep, reduceCtorEq] at hr
    all_goals repeat' split at hr
    all_goals cases hr
    all_goals cases he
  | delete key =>
    cases pc with
    | erase =>
      simp only [callStep] at hr
      split at hr <;> cases hr
      · cases he
      · rename_i old hold
        obtain rfl := Option.some.inj he
        exact Or.inr ⟨rfl, hold, key, rfl⟩
    | logErase old =>
      simp only [callStep] at hr
      split at hr <;> cases hr
      · cases he
      · exact Or.inl he
    | releaseErased old =>
      simp only [callStep] at hr
      split at hr <;> cases hr
      cases he
    | begin =>
      cases hr
      cases he
    | restore old st =>
      cases hr
      cases he
    | _ => simp [callStep] at hr
  | get key size =>
    obtain ⟨-, -, -, -, hnone, -⟩ := get_stays hr
    rw [retiredBy_of_erasedBy he] at hnone
    cases hnone

theorem step_erasedBy (hstep : Machine.step sys s act = some s') {t : Fin n} {e : UInt64}
    (he : erasedBy (s'.pcs t) = some e) :
    erasedBy (s.pcs t) = some e ∨ ∃ k, s.world.map.lookup k = some e ∧ s'.content k = none := by
  cases act with
  | call t' =>
    obtain ⟨r, hr, rfl⟩ := Option.map_eq_some_iff.mp hstep
    by_cases ht : t = t'
    · subst ht
      simp only [Function.update_self] at he
      rcases callStep_erasedBy hr he with hold | ⟨hpc, hlookup, key, hcall⟩
      · exact Or.inl hold
      · refine Or.inr ⟨(sys.calls t).key, hlookup, ?_⟩
        simp only [hcall, hpc, contentAfter, Call.key, Function.update_self]
    · simp only [Function.update_of_ne ht] at he
      exact Or.inl he
  | compact =>
    obtain ⟨r, -, rfl⟩ := Option.map_eq_some_iff.mp hstep
    exact Or.inl he
  | checkpoint =>
    obtain ⟨r, -, rfl⟩ := Option.map_eq_some_iff.mp hstep
    exact Or.inl he

/-! The contents a `Get` overlaps. -/

def Running (s s' : State K n) (u : Fin n) : Prop :=
  (∀ st v, s.pcs u ≠ .done st v) ∧ s'.pcs u ≠ .begin

theorem step_seen (hstep : Machine.step sys s act = some s') :
    s'.seen = seenAfter sys.calls s.pcs s'.pcs s'.content s.seen := by
  cases act with
  | call t =>
    obtain ⟨r, -, rfl⟩ := Option.map_eq_some_iff.mp hstep
    rfl
  | compact =>
    obtain ⟨r, -, rfl⟩ := Option.map_eq_some_iff.mp hstep
    rfl
  | checkpoint =>
    obtain ⟨r, -, rfl⟩ := Option.map_eq_some_iff.mp hstep
    rfl

theorem seen_cases (hstep : Machine.step sys s act = some s') (u : Fin n) :
    Running s s' u ∧ s'.seen u = s.seen u ++ [s'.content (sys.calls u).key] ∨
      ¬ Running s s' u ∧ s'.seen u = s.seen u := by
  rw [step_seen hstep]
  unfold seenAfter
  split
  · rename_i hdone
    exact Or.inr ⟨fun hrunning => hrunning.1 _ _ hdone, rfl⟩
  · rename_i hbegin _
    exact Or.inr ⟨fun hrunning => hrunning.2 hbegin, rfl⟩
  · rename_i hdone hbegin
    exact Or.inl ⟨⟨fun st v hst => hdone st v hst, hbegin⟩, rfl⟩

theorem seen_mono (hstep : Machine.step sys s act = some s') {x : Option Bytes}
    (hx : x ∈ s.seen u) : x ∈ s'.seen u := by
  rcases seen_cases hstep u with ⟨-, hseen⟩ | ⟨-, hseen⟩
  · rw [hseen]
    exact List.mem_append_left _ hx
  · rw [hseen]
    exact hx

theorem seen_now (hstep : Machine.step sys s act = some s') (hrunning : Running s s' u) :
    s'.content (sys.calls u).key ∈ s'.seen u := by
  rcases seen_cases hstep u with ⟨-, hseen⟩ | ⟨hnot, -⟩
  · rw [hseen]
    exact List.mem_append_right _ List.mem_cons_self
  · exact (hnot hrunning).elim

/-- The `Get` of `key` holds a slot. It stores a content the key had meanwhile, or it has been
cleared and the key was absent meanwhile. -/
structure Held (sys : System K n) (s : State K n) (u : Fin n) (key : K) (e : UInt64) : Prop where
  slot : IsSlot sys.o e
  sound : (∃ v, view sys.o s.world.disk e = some (key, v) ∧ some v ∈ s.seen u) ∨
    view sys.o s.world.disk e = none ∧ none ∈ s.seen u
  erased : ∀ t, erasedBy (s.pcs t) = some e → none ∈ s.seen u

/-- The result is a content the key had while the call ran. -/
def Seen (s : State K n) (u : Fin n) (st : Status) (v : Bytes) : Prop :=
  st = .ok ∧ some v ∈ s.seen u ∨ st = .notFound ∧ none ∈ s.seen u

structure GetOk (sys : System K n) (s : State K n) (u : Fin n) (key : K) : Prop where
  held : ∀ e, heldBy (s.pcs u) = some e → Held sys s u key e
  done : ∀ st v, s.pcs u = .done st v → Seen s u st v

theorem Seen.mono (hstep : Machine.step sys s act = some s') {st : Status} {v : Bytes}
    (h : Seen s u st v) : Seen s' u st v := by
  rcases h with ⟨rfl, hv⟩ | ⟨rfl, hv⟩
  · exact Or.inl ⟨rfl, seen_mono hstep hv⟩
  · exact Or.inr ⟨rfl, seen_mono hstep hv⟩

theorem running_of_held {K : Type} {s s' : State K n} {e : UInt64}
    (hheld : heldBy (s.pcs u) = some e) (hpc : s'.pcs u = s.pcs u) : Running s s' u := by
  constructor
  · intro st v hst
    rw [hst] at hheld
    cases hheld
  · intro hbegin
    rw [← hpc, hbegin] at hheld
    cases hheld

theorem getOk_other (hadm : sys.o.Admissible K) (hsane : Sane sys s) {key : K} {size : ℕ}
    (hcall : sys.calls u = .get key size) (h : GetOk sys s u key) (hsteady : Steady sys s act)
    (hstep : Machine.step sys s act = some s') (hpc : s'.pcs u = s.pcs u) :
    GetOk sys s' u key where
  held e he := by
    rw [hpc] at he
    have hold := h.held e he
    refine ⟨hold.slot, ?_, fun t ht => ?_⟩
    · rcases held_view hadm hsane hsteady hstep he with hsame | ⟨hnone, t, ht⟩
      · rw [hsame]
        rcases hold.sound with ⟨v, hv, hseen⟩ | ⟨hv, hseen⟩
        · exact Or.inl ⟨v, hv, seen_mono hstep hseen⟩
        · exact Or.inr ⟨hv, seen_mono hstep hseen⟩
      · exact Or.inr ⟨hnone, seen_mono hstep (hold.erased t ht)⟩
    · rcases step_erasedBy hstep ht with hbefore | ⟨k, hlookup, hcontent⟩
      · exact seen_mono hstep (hold.erased t hbefore)
      -- the entry that was erased is the one of this key
      · obtain ⟨v, hv⟩ := hsane.live.owns k e hlookup
        rcases hold.sound with ⟨v', hv', -⟩ | ⟨hnone, -⟩
        · rw [hv] at hv'
          obtain ⟨rfl, -⟩ := Prod.mk.inj (Option.some.inj hv')
          have hnow := seen_now hstep (running_of_held he hpc)
          rwa [hcall, Call.key, hcontent] at hnow
        · rw [hv] at hnone
          cases hnone
  done st v hst := (h.done st v (hpc ▸ hst)).mono hstep

/-- The sections of a `Get` with the right buffer size: it begins, misses, finds its entry,
finds the segment, reads the slot. -/
theorem get_cases {o : Options} {locks : ℕ → Bool} {w : World K} {key : K} {pc : Pc}
    {r : Pc × World K} (hadm : o.Admissible K) (h : Live o (fun _ _ => True) w)
    (hslot : ∀ e, heldBy pc = some e → IsSlot o e)
    (hr : callStep o locks w (.get key o.segmentConfig.valueSize) pc = some r) :
    r.1 = .lookup ∨ (r.1 = .done .notFound [] ∧ w.map.lookup key = none) ∨
      (∃ e, r.1 = .locate e ∧ w.map.lookup key = some e) ∨
      (∃ e, r.1 = .read e ∧ heldBy pc = some e) ∨
      ∃ e, heldBy pc = some e ∧
        ((∃ k v, view o w.disk e = some (k, v) ∧ r.1 = .done .ok v) ∨
          view o w.disk e = none ∧ r.1 = .done .notFound []) := by
  cases pc with
  | begin =>
    simp only [callStep, ne_eq, not_true_eq_false, if_false] at hr
    cases hr
    exact Or.inl rfl
  | lookup =>
    simp only [callStep] at hr
    split at hr
    · rename_i hmiss
      cases hr
      exact Or.inr (Or.inl ⟨rfl, hmiss⟩)
    · rename_i e hhit
      obtain ⟨seg, hseg, i, hi, rfl⟩ := isSlot_of_lookup h hhit
      have hflag := getFlag_encodeSegmentSlot (lt_of_lt_of_le hseg hadm.segments)
        (lt_of_lt_of_le hi hadm.slots)
      simp only [hflag, ne_eq, not_true_eq_false, if_false] at hr
      cases hr
      exact Or.inr (Or.inr (Or.inl ⟨_, rfl, hhit⟩))
  | locate e =>
    obtain ⟨seg, hseg, i, hi, rfl⟩ := hslot e rfl
    have hregistered := (h.mgr.segments seg).mpr hseg
    simp only [callStep, getSegmentId_encodeSegmentSlot (lt_of_lt_of_le hseg hadm.segments)
      (lt_of_lt_of_le hi hadm.slots), hregistered, not_true_eq_false, if_false] at hr
    cases hr
    exact Or.inr (Or.inr (Or.inr (Or.inl ⟨_, rfl, rfl⟩)))
  | read e =>
    obtain ⟨seg, hseg, i, hi, rfl⟩ := hslot e rfl
    have hseg' := lt_of_lt_of_le hseg hadm.segments
    have hi' := lt_of_lt_of_le hi hadm.slots
    simp only [callStep, getSegmentId_encodeSegmentSlot hseg' hi',
      getSlotId_encodeSegmentSlot hseg' hi', run_read (h.segs seg hseg) hi] at hr
    split at hr
    · cases hr
    refine Or.inr (Or.inr (Or.inr (Or.inr ⟨_, rfl, ?_⟩)))
    rw [view_encode hadm _ hseg hi]
    cases hcell : w.disk.slot seg i with
    | some slot =>
      rw [hcell] at hr
      cases hr
      exact Or.inl ⟨_, _, rfl, rfl⟩
    | none =>
      rw [hcell] at hr
      cases hr
      exact Or.inr ⟨rfl, rfl⟩
  | _ => simp [callStep] at hr

theorem getOk_own (hadm : sys.o.Admissible K) (hsane : Sane sys s) {key : K}
    (hcall : sys.calls u = .get key sys.o.segmentConfig.valueSize) (h : GetOk sys s u key)
    (hstep : Machine.step sys s (.call u) = some s') : GetOk sys s' u key := by
  have hmono : ∀ {x}, x ∈ s.seen u → x ∈ s'.seen u := fun hx => seen_mono hstep hx
  have hnow : Running s s' u → s'.content key ∈ s'.seen u := fun hrunning => by
    have hnow := seen_now hstep hrunning
    rwa [hcall] at hnow
  obtain ⟨r, hr, hs'⟩ := Option.map_eq_some_iff.mp hstep
  rw [hcall] at hr hs'
  obtain ⟨hworld, -, -, -, hretired, -⟩ := get_stays hr
  have hpcs : s'.pcs = Function.update s.pcs u r.1 := by rw [← hs']
  have hpc : s'.pcs u = r.1 := by rw [hpcs, Function.update_self]
  have hsame : s'.world = s.world := by rw [← hs', ← hworld]
  have hcontent : s'.content = value sys.o s.world := by
    rw [← hs', hsane.value_eq]
    rfl
  have hrunning : r.1 ≠ .begin → Running s s' u := by
    intro hbegin
    refine ⟨fun st v hst => ?_, by rw [hpc]; exact hbegin⟩
    rw [hst] at hr
    cases hr
  -- the other calls hold what they held
  have herased : ∀ {t e}, erasedBy (s'.pcs t) = some e → erasedBy (s.pcs t) = some e := by
    intro t e ht
    by_cases htu : t = u
    · rw [htu, hpc] at ht
      rw [retiredBy_of_erasedBy ht] at hretired
      cases hretired
    · rwa [hpcs, Function.update_of_ne htu] at ht
  have hheld : ∀ {e}, heldBy (s.pcs u) = some e → Held sys s' u key e := by
    intro e he
    have hold := h.held e he
    refine ⟨hold.slot, ?_, fun t ht => hmono (hold.erased t (herased ht))⟩
    rw [hsame]
    rcases hold.sound with ⟨v, hv, hseen⟩ | ⟨hv, hseen⟩
    · exact Or.inl ⟨v, hv, hmono hseen⟩
    · exact Or.inr ⟨hv, hmono hseen⟩
  rcases get_cases hadm hsane.live (fun e he => (h.held e he).slot) hr with
    hnext | ⟨hnext, hmiss⟩ | ⟨e, hnext, hhit⟩ | ⟨e, hnext, he⟩ | ⟨e, he, hread⟩
  · constructor
    · intro e he
      rw [hpc, hnext] at he
      cases he
    · intro st v hst
      rw [hpc, hnext] at hst
      cases hst
  · refine ⟨fun e he => ?_, fun st v hst => ?_⟩
    · rw [hpc, hnext] at he
      cases he
    · rw [hpc, hnext] at hst
      cases hst
      have hseen := hnow (hrunning (by rw [hnext]; exact Pc.noConfusion))
      rw [hcontent, value, content_none (show entries s.world.map key = none from hmiss)] at hseen
      exact Or.inr ⟨rfl, hseen⟩
  · refine ⟨fun e' he => ?_, fun st v hst => ?_⟩
    · rw [hpc, hnext] at he
      obtain rfl := Option.some.inj he
      obtain ⟨v, hv, hc⟩ := hsane.live.owns.content_isSome
        (show entries s.world.map key = some e from hhit)
      have hseen := hnow (hrunning (by rw [hnext]; exact Pc.noConfusion))
      rw [hcontent, value, hc] at hseen
      refine ⟨isSlot_of_lookup hsane.live hhit, Or.inl ⟨v, by rw [hsame]; exact hv, hseen⟩,
        fun t ht => ?_⟩
      -- a slot with an entry is not retired
      exact (hsane.ok.unlinked (some t) e key (retiredBy_of_erasedBy (herased ht)) hhit).elim
    · rw [hpc, hnext] at hst
      cases hst
  · refine ⟨fun e' he' => ?_, fun st v hst => ?_⟩
    · rw [hpc, hnext] at he'
      obtain rfl := Option.some.inj he'
      exact hheld he
    · rw [hpc, hnext] at hst
      cases hst
  · have hsound := (hheld he).sound
    rw [hsame] at hsound
    rcases hread with ⟨k, v, hv, hnext⟩ | ⟨hv, hnext⟩
    · refine ⟨fun e' he' => ?_, fun st v' hst => ?_⟩
      · rw [hpc, hnext] at he'
        cases he'
      · rw [hpc, hnext] at hst
        cases hst
        rw [hv] at hsound
        rcases hsound with ⟨v', hv', hseen⟩ | ⟨hnone, -⟩
        · obtain ⟨-, rfl⟩ := Prod.mk.inj (Option.some.inj hv')
          exact Or.inl ⟨rfl, hseen⟩
        · cases hnone
    · refine ⟨fun e' he' => ?_, fun st v' hst => ?_⟩
      · rw [hpc, hnext] at he'
        cases he'
      · rw [hpc, hnext] at hst
        cases hst
        rw [hv] at hsound
        rcases hsound with ⟨v', hv', -⟩ | ⟨-, hseen⟩
        · cases hv'
        · exact Or.inr ⟨rfl, hseen⟩

theorem step_pcs_other (hstep : Machine.step sys s act = some s') (hact : act ≠ .call u) :
    s'.pcs u = s.pcs u := by
  cases act with
  | call t =>
    obtain ⟨r, -, rfl⟩ := Option.map_eq_some_iff.mp hstep
    have hne : u ≠ t := by
      rintro rfl
      exact hact rfl
    exact Function.update_of_ne hne _ _
  | compact =>
    obtain ⟨r, -, rfl⟩ := Option.map_eq_some_iff.mp hstep
    rfl
  | checkpoint =>
    obtain ⟨r, -, rfl⟩ := Option.map_eq_some_iff.mp hstep
    rfl

theorem getOk_run (hadm : sys.o.Admissible K) {w : World K}
    (h : Live sys.o (fun _ _ => True) w) {acts : List (Action n)}
    (hrun : GuardedRun (Machine.step sys) (Steady sys) (State.initial n w (value sys.o w)) acts s)
    {key : K} (hcall : sys.calls u = .get key sys.o.segmentConfig.valueSize) :
    Sane sys s ∧ GetOk sys s u key := by
  refine hrun.invariant (I := fun _ s => Sane sys s ∧ GetOk sys s u key) ⟨sane_initial h, ?_⟩ ?_
  · constructor
    · intro e he
      cases he
    · intro st v hst
      cases hst
  · rintro as s act s' ⟨hsane, hget⟩ hsteady hstep
    refine ⟨sane_step hadm hsane hsteady.1 hstep, ?_⟩
    by_cases hact : act = .call u
    · subst hact
      exact getOk_own hadm hsane hcall hget hstep
    · exact getOk_other hadm hsane hcall hget hsteady hstep (step_pcs_other hstep hact)

/-! The moments of a run at which a call is under way. -/

/-- The key of `u` has the content `x` right after a step of the run across which `u` runs. -/
def Overlaps (sys : System K n) (s₀ : State K n) (acts : List (Action n)) (u : Fin n)
    (x : Option Bytes) : Prop :=
  ∃ as act bs s s', acts = as ++ act :: bs ∧
    GuardedRun (Machine.step sys) (Steady sys) s₀ as s ∧ Machine.step sys s act = some s' ∧
    Running s s' u ∧ value sys.o s'.world (sys.calls u).key = x

theorem overlaps_of_seen (hadm : sys.o.Admissible K) {w : World K}
    (h : Live sys.o (fun _ _ => True) w) {acts : List (Action n)}
    (hrun : GuardedRun (Machine.step sys) (Steady sys) (State.initial n w (value sys.o w)) acts s)
    {x : Option Bytes} (hx : x ∈ s.seen u) :
    Overlaps sys (State.initial n w (value sys.o w)) acts u x := by
  have hinv := hrun.invariant
    (I := fun as s => (GuardedRun (Machine.step sys) (Steady sys)
        (State.initial n w (value sys.o w)) as s ∧ Sane sys s) ∧
      ∀ x ∈ s.seen u, Overlaps sys (State.initial n w (value sys.o w)) as u x)
    ⟨⟨.init, sane_initial h⟩, fun x hx => by cases hx⟩ ?_
  · exact hinv.2 x hx
  · rintro as s act s' ⟨⟨hsofar, hsane⟩, hseen⟩ hsteady hstep
    have hsane' := sane_step hadm hsane hsteady.1 hstep
    refine ⟨⟨hsofar.step hsteady hstep, hsane'⟩, fun x hx => ?_⟩
    have hold : x ∈ s.seen u →
        Overlaps sys (State.initial n w (value sys.o w)) (as ++ [act]) u x := by
      intro hx
      obtain ⟨as₁, act₁, bs, s₁, s₁', rfl, hrest⟩ := hseen x hx
      exact ⟨as₁, act₁, bs ++ [act], s₁, s₁', by simp, hrest⟩
    rcases seen_cases hstep u with ⟨hrunning, heq⟩ | ⟨-, heq⟩
    · rw [heq] at hx
      rcases List.mem_append.mp hx with hx | hx
      · exact hold hx
      · obtain rfl := List.mem_singleton.mp hx
        exact ⟨as, act, [], s, s', rfl, hsofar, hstep, hrunning, by rw [hsane'.value_eq]⟩
    · rw [heq] at hx
      exact hold hx

/-- In a steady interleaving every `Get` returns a content that its key had at a moment at which
the `Get` was under way. -/
theorem get_linearizable (hadm : sys.o.Admissible K) {stateFile : Option Bytes}
    {prior : List (Act K)} {st : Store K}
    (hprior : GuardedRun (Runs.step sys.o) Uncrashed (Store.initial K stateFile) prior st)
    (hup : st.up = true) {acts : List (Action n)}
    (hrun : GuardedRun (Machine.step sys) (Steady sys)
      (State.initial n st.world (value sys.o st.world)) acts s) {key : K}
    (hcall : sys.calls u = .get key sys.o.segmentConfig.valueSize) {status : Status} {v : Bytes}
    (hdone : s.pcs u = .done status v) :
    (status = .ok ∧
      Overlaps sys (State.initial n st.world (value sys.o st.world)) acts u (some v)) ∨
    status = .notFound ∧
      Overlaps sys (State.initial n st.world (value sys.o st.world)) acts u none := by
  have hlive := (live_run hadm hprior).world hup
  rcases (getOk_run hadm hlive hrun hcall).2.done status v hdone with ⟨hok, hv⟩ | ⟨hmiss, hv⟩
  · exact Or.inl ⟨hok, overlaps_of_seen hadm hlive hrun hv⟩
  · exact Or.inr ⟨hmiss, overlaps_of_seen hadm hlive hrun hv⟩

def readSystem : System Key64 2 := ⟨smallOptions 4 0, oneShard, ![.get 0 1, .put 0 [100]]⟩

/-- The `Get` has resolved its slot when a `Put` of the same key runs to its end. -/
def overwriteRun : List (Action 2) :=
  .replicate 3 first ++ .replicate 6 second ++ [first]

set_option maxRecDepth 100000 in
theorem get_misses_present_key :
    (smallOptions 4 0).Admissible Key64 ∧ readSystem.calls 0 = .get 0 1 ∧
    (interleave readSystem sparsePrior overwriteRun).map (fun s => (s.pcs 0, s.seen 0)) =
      some (.done .notFound [], .replicate 6 (some [0]) ++ .replicate 4 (some [100])) :=
  ⟨smallOptions_admissible 0 (by decide), rfl, by decide +kernel⟩

/-- The `Put` stops before it frees the slot. -/
def steadyRun : List (Action 2) :=
  .replicate 3 first ++ .replicate 5 second ++ [first, second]

set_option maxRecDepth 100000 in
theorem get_linearizable_steady :
    ∃ st s, GuardedRun (Runs.step (smallOptions 4 0)) Uncrashed (Store.initial Key64 none)
        sparsePrior st ∧ st.up = true ∧
      GuardedRun (Machine.step readSystem) (Steady readSystem)
        (State.initial 2 st.world (value (smallOptions 4 0) st.world)) steadyRun s ∧
      s.pcs 0 = .done .ok [0] ∧ s.content 0 = some [100] ∧
      Overlaps readSystem (State.initial 2 st.world (value (smallOptions 4 0) st.world)) steadyRun
        0 (some [0]) := by
  obtain ⟨st, hprior, hst⟩ := exists_guardedRun
    (f := fun st : Store Key64 => (st.up, (performGuarded (Machine.step readSystem)
      (Steady readSystem) (State.initial 2 st.world (value (smallOptions 4 0) st.world))
      steadyRun).map fun s => (s.pcs 0, s.content 0)))
    (show (performGuarded (Runs.step (smallOptions 4 0)) Uncrashed (Store.initial Key64 none)
      sparsePrior).map _ = some (true, some (.done .ok [0], some ([100] : Bytes))) by
      decide +kernel)
  obtain ⟨hup, hacts⟩ := Prod.mk.inj hst
  obtain ⟨s, hrun, hs⟩ := exists_guardedRun hacts
  obtain ⟨hdone, hcontent⟩ := Prod.mk.inj hs
  have hadm : readSystem.o.Admissible Key64 := smallOptions_admissible 0 (by decide)
  have hcall : readSystem.calls 0 = .get 0 readSystem.o.segmentConfig.valueSize := rfl
  rcases get_linearizable hadm hprior hup hrun hcall hdone with ⟨-, hoverlaps⟩ | ⟨hmiss, -⟩
  · exact ⟨st, s, hprior, hup, hrun, hdone, hcontent, hoverlaps⟩
  · cases hmiss

end ParaKV.Concurrent.Reading
