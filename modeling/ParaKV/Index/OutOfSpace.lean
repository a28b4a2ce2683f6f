/- GID: ParaKV/Index/OutOfSpace
   source: parakv/core/index/index.cc, parakv/core/segment/segment_manager.cc,
     parakv/core/segment/segment_base.cc
   digest: When WriteToSegment finds the segment that has room. -/

import ParaKV.Index.Histories

set_option autoImplicit false

namespace ParaKV.Index.OutOfSpace

open Lib.HashOrder Lib.StepRun Index.Key Index.Operations Index.Ownership Index.Runs Index.Histories
open Segment.Base Segment.Manager Segment.ManagerSpec Core.State

variable {K : Type} [KeyType K]

/-! The order in which `GetActiveSegment` goes through the segments. -/

/-- The appending segments, then the idle ones. -/
def offered (m : SegmentManager) : List ℕ := m.appendingSet.order ++ m.idleSet.order

def Accepts (o : Options) (s : SegmentBase) : Prop :=
  (s.findFreeSlot o.segmentConfig).isSome = true

instance (o : Options) (s : SegmentBase) : Decidable (Accepts o s) :=
  inferInstanceAs (Decidable (_ = true))

variable {o : Options} {w w' : World K} {m : SegmentManager} {id : ℕ}

theorem markSegmentFullInternal_eq (hreg : id ∈ m.segments) (hfull : id ∉ m.fullSet) :
    markSegmentFullInternal o m id = { m with
      appendingSet := m.appendingSet.erase id
      idleSet := m.idleSet.erase id
      fullSet := m.fullSet.insert o.hash id
      fullOrder := m.fullOrder ++ [id] } := by
  simp [markSegmentFullInternal, hreg, hfull]

theorem orders_mark_appending (h : Classified m) {rest : List ℕ}
    (horder : m.appendingSet.order = id :: rest) :
    (markSegmentFullInternal o m id).appendingSet.order = rest ∧
      (markSegmentFullInternal o m id).idleSet.order = m.idleSet.order := by
  have hid : id ∈ m.appendingSet := by simp [UnorderedSet.mem_def, horder]
  have hidle : id ∉ m.idleSet.order := fun hi => h.idle_appending id hi hid
  rw [markSegmentFullInternal_eq (h.appending id hid) (h.appending_full id hid)]
  exact ⟨by simp [UnorderedSet.erase, horder],
    by simp [UnorderedSet.erase, List.erase_of_not_mem hidle]⟩

theorem orders_mark_promoted (h : Classified m) {rest : List ℕ}
    (happending : m.appendingSet.order = []) (hidle : m.idleSet.order = id :: rest) :
    (promoteIdleSegment o m).1 = some id ∧
      (markSegmentFullInternal o (promoteIdleSegment o m).2 id).appendingSet.order = [] ∧
      (markSegmentFullInternal o (promoteIdleSegment o m).2 id).idleSet.order = rest := by
  have hid : id ∈ m.idleSet := by simp [UnorderedSet.mem_def, hidle]
  have hpromote : promoteIdleSegment o m = (some id, { m with
      idleSet := m.idleSet.erase id
      appendingSet := m.appendingSet.insert o.hash id }) := by
    simp [promoteIdleSegment, hidle]
  have hrest : (m.idleSet.erase id).order = rest := by simp [UnorderedSet.erase, hidle]
  have hnot : id ∉ rest := (List.nodup_cons.mp (hidle ▸ m.idleSet.nodup)).1
  have hinsert : (m.appendingSet.insert o.hash id).order = [id] := by
    have hperm := o.hash.place_perm m.appendingSet.buckets m.appendingSet.order id
    rw [happending, List.perm_singleton] at hperm
    simp [UnorderedSet.insert, happending, hperm]
  have hreg : id ∈ (promoteIdleSegment o m).2.segments := by
    rw [hpromote]
    exact h.idle id hid
  have hfull : id ∉ (promoteIdleSegment o m).2.fullSet := by
    rw [hpromote]
    exact h.idle_full id hid
  have hmark := markSegmentFullInternal_eq (o := o) hreg hfull
  rw [hmark, hpromote]
  refine ⟨rfl, ?_, ?_⟩
  · simp [UnorderedSet.erase, hinsert]
  · change (m.idleSet.erase id).order.erase id = rest
    rw [hrest, List.erase_of_not_mem hnot]

/-- Without an erase the loop returns the first segment on offer, and marking that one full leaves
the others in their order. -/
theorem chooseActive_offered (segs : ℕ → SegmentBase) (h : Classified m)
    (hfree : ∀ id ∈ m.appendingSet.order.head?, (segs id).getFreeSlots o.segmentConfig > 0) :
    (chooseActive o segs m).1 = (offered m).head? ∧
      ∀ id, (chooseActive o segs m).1 = some id →
        (markSegmentFullInternal o (chooseActive o segs m).2 id).appendingSet.order =
            m.appendingSet.order.tail ∧
          offered (markSegmentFullInternal o (chooseActive o segs m).2 id) = (offered m).tail := by
  cases horder : m.appendingSet.order with
  | nil =>
    have hchoose : chooseActive o segs m = promoteIdleSegment o m := by
      simp only [chooseActive, scanFrom, horder]
    rw [hchoose]
    cases hidle : m.idleSet.order with
    | nil => simp [promoteIdleSegment, offered, horder, hidle]
    | cons id rest =>
      obtain ⟨hval, happending, hrest⟩ := orders_mark_promoted (o := o) h horder hidle
      refine ⟨by simp [offered, horder, hidle, hval], fun j hj => ?_⟩
      obtain rfl : id = j := Option.some.inj (hval.symm.trans hj)
      simp [offered, horder, hidle, happending, hrest]
  | cons id rest =>
    have hchoose : chooseActive o segs m = (some id, m) := by
      simp only [chooseActive, scanFrom, horder, hfree id (by simp [horder]), if_true]
    rw [hchoose]
    obtain ⟨hrest, hidle⟩ := orders_mark_appending (o := o) h horder
    refine ⟨by simp [offered, horder], fun j hj => ?_⟩
    obtain rfl : id = j := Option.some.inj hj
    simp [offered, horder, hrest, hidle]

/-! The two attempts of `WriteToSegment`. -/

theorem not_erases_iff {K : Type} {w : World K} : ¬ Erases o w ↔
    ∀ id ∈ w.mgr.appendingSet.order.head?, (w.segs id).getFreeSlots o.segmentConfig > 0 := by
  simp only [Erases, not_exists, not_and, not_not]

/-- One attempt: it is made on the first segment on offer, and when that is full the next one
finds the rest. -/
theorem appendActive_offered (h : Standing o w) (herases : ¬ Erases o w) (key : K) (value : Bytes) :
    match offered w.mgr with
    | [] => (run (appendActive o key value) w).val.1 = .noSpace
    | id :: rest =>
      if Accepts o (w.segs id) then (run (appendActive o key value) w).val.1 = .ok
      else (run (appendActive o key value) w).val = (.full, id) ∧
        (run (appendActive o key value) w).state.segs = w.segs ∧
        (markSegmentFullInternal o
          (run (appendActive o key value) w).state.mgr id).appendingSet.order =
            w.mgr.appendingSet.order.tail ∧
        offered (markSegmentFullInternal o
          (run (appendActive o key value) w).state.mgr id) = rest := by
  obtain ⟨hval, htail⟩ := chooseActive_offered (o := o) w.segs h.mgr.classified
    (not_erases_iff.mp herases)
  obtain ⟨hs, hactive⟩ := standing_getActiveSegment h
  change (run (getActiveSegment o) w).val = _ at hval
  cases hoffered : offered w.mgr with
  | nil =>
    rw [hoffered] at hval
    simp [appendActive, hval]
  | cons id rest =>
    rw [hoffered] at hval htail
    obtain ⟨hnext, hrest⟩ := htail id hval
    rcases insert_cases (o := o) (hs.isOpen id (hactive id hval).2) (toBytes key) value
      with ⟨sid, hsome, hins, -⟩ | ⟨hnone, hins, hsame⟩
    · have hacc : Accepts o (w.segs id) := Option.isSome_iff_exists.mpr ⟨sid, hsome⟩
      simp [appendActive, hval, hins, hacc]
    · have hacc : ¬ Accepts o (w.segs id) := fun hacc => by
        obtain ⟨sid, hsome⟩ := Option.isSome_iff_exists.mp hacc
        cases hnone.symm.trans hsome
      have hstate : (run (appendActive o key value) w).state =
          (run (getActiveSegment o) w).state := by
        simp [appendActive, hval, hsame]
      simp only [hacc, if_false, hstate]
      exact ⟨by simp [appendActive, hval, hins], rfl, hnext, hrest⟩

theorem appendActive_ok_iff (h : Standing o w) (herases : ¬ Erases o w) (key : K) (value : Bytes) :
    (run (appendActive o key value) w).val.1 = .ok ↔
      ∃ id ∈ (offered w.mgr).take 1, Accepts o (w.segs id) := by
  have hattempt := appendActive_offered h herases key value
  cases hoffered : offered w.mgr with
  | nil =>
    rw [hoffered] at hattempt
    simp [hattempt]
  | cons id rest =>
    rw [hoffered] at hattempt
    by_cases hacc : Accepts o (w.segs id)
    · simp only [hacc, if_true] at hattempt
      simp [hattempt, hacc]
    · simp only [hacc, if_false] at hattempt
      simp [hattempt.1, hacc]

/-- Neither attempt erases an element: the first appending segment has free slots, and so has the
second one if the first turns out to be used up. -/
def Undisturbed (o : Options) (w : World K) : Prop :=
  ¬ Erases o w ∧ ((∀ id ∈ w.mgr.appendingSet.order.head?, ¬ Accepts o (w.segs id)) →
    ∀ id ∈ w.mgr.appendingSet.order.tail.head?, (w.segs id).getFreeSlots o.segmentConfig > 0)

instance (o : Options) (w : World K) : Decidable (Undisturbed o w) :=
  inferInstanceAs (Decidable (_ ∧ (_ → _)))

theorem writeToSegment_ok_iff (h : Standing o w) (hcalm : Undisturbed o w) (key : K)
    (value : Bytes) :
    (run (writeToSegment o key value) w).val.1 = .ok ↔
      ∃ id ∈ (offered w.mgr).take 2, Accepts o (w.segs id) := by
  have hattempt := appendActive_offered h hcalm.1 key value
  cases hoffered : offered w.mgr with
  | nil =>
    rw [hoffered] at hattempt
    rw [(run_writeToSegment_once (by simp [hattempt])).1]
    simp [hattempt]
  | cons id rest =>
    rw [hoffered] at hattempt
    by_cases hacc : Accepts o (w.segs id)
    · simp only [hacc, if_true] at hattempt
      rw [(run_writeToSegment_once (by simp [hattempt])).1]
      simp [hattempt, hacc]
    · simp only [hacc, if_false] at hattempt
      obtain ⟨hval, hsegs, hnext, hrest⟩ := hattempt
      have hfirst := standing_appendActive h key value
      set r := run (appendActive o key value) w with hr
      set w₁ : World K := { r.state with mgr := markSegmentFullInternal o r.state.mgr id }
      have hmarked : Standing o w₁ := hfirst.withManager (sorted_mark hfirst.mgr id)
      have hstate : (run (markSegmentFull o r.val.2) r.state).state = w₁ := by
        simp [markSegmentFull, hval, w₁]
      -- the first segment on offer, if it is an appending one, is the one that is used up
      have hused : ∀ j ∈ w.mgr.appendingSet.order.head?, ¬ Accepts o (w.segs j) := by
        intro j hj
        obtain ⟨tail, horder⟩ := List.head?_eq_some_iff.mp hj
        simp only [offered, horder, List.cons_append, List.cons.injEq] at hoffered
        exact hoffered.1 ▸ hacc
      have herases : ¬ Erases o w₁ := by
        rw [not_erases_iff]
        change ∀ j ∈ (markSegmentFullInternal o r.state.mgr id).appendingSet.order.head?,
          (r.state.segs j).getFreeSlots o.segmentConfig > 0
        rw [hnext, hsegs]
        exact hcalm.2 hused
      rw [(run_writeToSegment_twice (by simp [← hr, hval]) hstate).1,
        appendActive_ok_iff hmarked herases key value]
      change (∃ j ∈ (offered (markSegmentFullInternal o r.state.mgr id)).take 1,
        Accepts o (r.state.segs j)) ↔ _
      simp [hsegs, hrest, hacc]

variable [DecidableEq K]

theorem put_ok_iff (h : Standing o w) (key : K) {value : Bytes}
    (hsize : value.length = o.segmentConfig.valueSize) :
    (run (Operations.put o key value) w).val = .ok ↔
      (run (writeToSegment o key value) w).val.1 = .ok := by
  by_cases hval : (run (writeToSegment o key value) w).val.1 = .ok
  · have hwrite := standing_writeToSegment h key value
    have hinstall := (run_installPut (o := o) hwrite.wal key
      (run (writeToSegment o key value) w).val.2).1
    simp [Operations.put, hsize, hval, hinstall]
  · simp [Operations.put, hsize, hval]

/-! Histories. -/

/-- Some idle or appending segment has slots that were never appended to. -/
def HasRoom (o : Options) (w : World K) : Prop :=
  ∃ id ∈ w.mgr.segments.order, (id ∈ w.mgr.idleSet ∨ id ∈ w.mgr.appendingSet) ∧
    (w.segs id).appendCursor < o.totalSlots

instance (o : Options) (w : World K) : Decidable (HasRoom o w) :=
  inferInstanceAs (Decidable (∃ id ∈ w.mgr.segments.order, _))

/-- One of the first two segments that `GetActiveSegment` would go through has a free slot. -/
def RoomInFront (o : Options) (w : World K) : Prop :=
  ∃ id ∈ (offered w.mgr).take 2, Accepts o (w.segs id)

instance (o : Options) (w : World K) : Decidable (RoomInFront o w) :=
  inferInstanceAs (Decidable (∃ id ∈ (offered w.mgr).take 2, _))

/-- After any history, where no attempt erases an element, a store with room accepts a value exactly
when the room is in front. -/
theorem put_succeeds_iff_room_in_front {stateFile : Option Bytes} {turns : List (Turn K)}
    {s : Store K}
    (hrun : GuardedRun (turnStep o) (fun _ _ => True) (Store.initial K stateFile) turns s)
    (hup : s.up = true) (hcalm : Undisturbed o s.world) (key : K) (value : Bytes)
    (hsize : value.length = o.segmentConfig.valueSize) :
    (HasRoom o s.world → (run (writeToSegment o key value) s.world).val.1 = .ok ∧
        (run (Operations.put o key value) s.world).val = .ok) ↔
      (HasRoom o s.world → RoomInFront o s.world) := by
  have hstanding := standing_history hrun hup
  rw [put_ok_iff hstanding key hsize, writeToSegment_ok_iff hstanding hcalm key value, and_self]
  rfl

/-- A clean close of the empty store records all segments as idle. Segments 0 and 1 are then
used up, a deleted slot in each, and the restart after the crash reads the old record again. -/
def staleRun : List (Turn Key64) :=
  [.act (.complete .start), .close, .act (.complete .start), .act (putKey 0), .act (deleteKey 0),
    .act (putKey 1), .act (putKey 2), .act (deleteKey 2), .act (putKey 3), .act .crash,
    .act (.complete .start)]

set_option maxRecDepth 100000 in
/-- Both attempts go to used-up segments, and the third one, which is empty, is never tried. -/
theorem full_although_segment_empty :
    ((perform (turnStep (smallOptions 2 0)) (Store.initial Key64 none) staleRun).map fun s =>
      (s.up, decide (HasRoom (smallOptions 2 0) s.world),
        (run (writeToSegment (smallOptions 2 0) (4 : Key64) [4]) s.world).val.1,
        (run (Operations.put (smallOptions 2 0) (4 : Key64) [4]) s.world).val)) =
      some (true, true, .full, .full) := by
  decide +kernel

set_option maxRecDepth 100000 in
theorem put_succeeds_after_close :
    ∃ s, GuardedRun (turnStep (smallOptions 4 0)) (fun _ _ => True) (Store.initial Key64 none)
      staleRun s ∧ s.up = true ∧
      (HasRoom (smallOptions 4 0) s.world ∧ RoomInFront (smallOptions 4 0) s.world) ∧
      (run (Operations.put (smallOptions 4 0) (4 : Key64) [4]) s.world).val = .ok := by
  obtain ⟨s, hrun, hs⟩ := exists_guardedRun
    (f := fun s : Store Key64 => decide (s.up = true ∧ Undisturbed (smallOptions 4 0) s.world ∧
      HasRoom (smallOptions 4 0) s.world ∧ RoomInFront (smallOptions 4 0) s.world))
    (show (performGuarded (turnStep (smallOptions 4 0)) (fun _ _ => True)
      (Store.initial Key64 none) staleRun).map _ = some true by decide +kernel)
  obtain ⟨hup, hcalm, hroom, hfront⟩ := of_decide_eq_true hs
  exact ⟨s, hrun, hup, ⟨hroom, hfront⟩, ((put_succeeds_iff_room_in_front hrun hup hcalm (4 : Key64)
    [4] rfl).mpr (fun _ => hfront) hroom).2⟩

end ParaKV.Index.OutOfSpace
