/- GID: ParaKV/Index/Reclaiming
   source: parakv/core/segment/segment_manager.cc, parakv/core/segment/segment_file.cc
   digest: When a compaction empties its candidates, and when it leaves no copy behind. -/

import ParaKV.Index.Bookkeeping

set_option autoImplicit false

namespace ParaKV.Index.Reclaiming

open Lib.TracedProgram Lib.StepRun Lib.HashOrder Lib.HashOrder.UnorderedSet Index.Key
open Index.Operations Index.Ownership Index.Compaction Index.Runs Index.CompactionRuns
open Index.Bookkeeping Segment.Base Segment.FileSpec Segment.Accounting Segment.Manager
open Segment.ManagerSpec Segment.CompactionRules Core.State

variable {K : Type} {o : Options} {H : K → Bytes → Prop} {w : World K} {m : SegmentManager}
variable {segs : ℕ → SegmentBase} {a : ℕ}

/-! The segment a compaction moves to. -/

def activeSegment (o : Options) (w : World K) : Option ℕ := (chooseActive o w.segs w.mgr).1

theorem promoteIdleSegment_head (happending : m.appendingSet.order = [])
    (ha : (promoteIdleSegment o m).1 = some a) :
    (promoteIdleSegment o m).2.appendingSet.order.head? = some a := by
  unfold promoteIdleSegment at ha ⊢
  cases hidle : m.idleSet.order with
  | nil => simp [hidle] at ha
  | cons id rest =>
    rw [hidle] at ha
    obtain rfl : id = a := Option.some.inj ha
    have hperm := o.hash.place_perm m.appendingSet.buckets m.appendingSet.order id
    rw [happending, List.perm_singleton] at hperm
    simp [UnorderedSet.insert, happending, hperm]

theorem activeSegment_head (herases : ¬ Erases o w) (ha : activeSegment o w = some a) :
    (chooseActive o w.segs w.mgr).2.appendingSet.order.head? = some a := by
  unfold activeSegment chooseActive scanFrom at ha
  unfold chooseActive scanFrom
  cases horder : w.mgr.appendingSet.order with
  | nil =>
    simp only [horder] at ha ⊢
    exact promoteIdleSegment_head horder ha
  | cons id rest =>
    have hfree : (w.segs id).getFreeSlots o.segmentConfig > 0 := by
      by_contra hfree
      exact herases ⟨id, by simp [horder], hfree⟩
    simp only [horder, hfree, if_true] at ha ⊢
    rw [← ha]
    rfl

theorem getFreeSlots_pos (hroom : (segs a).appendCursor < o.totalSlots) :
    (segs a).getFreeSlots o.segmentConfig > 0 := by
  unfold SegmentBase.getFreeSlots
  unfold Options.totalSlots at hroom
  omega

theorem chooseActive_of_head (hhead : m.appendingSet.order.head? = some a)
    (hroom : (segs a).appendCursor < o.totalSlots) : chooseActive o segs m = (some a, m) := by
  obtain ⟨rest, horder⟩ := List.head?_eq_some_iff.mp hhead
  simp only [chooseActive, scanFrom, horder, getFreeSlots_pos hroom, if_true]

theorem not_erases_of_head (hhead : w.mgr.appendingSet.order.head? = some a)
    (hroom : (w.segs a).appendCursor < o.totalSlots) : ¬ Erases o w := by
  rintro ⟨id, hid, hfree⟩
  obtain rfl : a = id := Option.some.inj (hhead.symm.trans hid)
  exact hfree (getFreeSlots_pos hroom)

/-! Room for every live slot of the candidates. -/

def liveSlots (segs : ℕ → SegmentBase) (ids : List ℕ) : ℕ :=
  (ids.map fun id => (segs id).usedSlots).sum

theorem liveSlots_cons (segs : ℕ → SegmentBase) (id : ℕ) (ids : List ℕ) :
    liveSlots segs (id :: ids) = (segs id).usedSlots + liveSlots segs ids := by
  simp [liveSlots]

theorem liveSlots_update {ids : List ℕ} {id : ℕ} (h : id ∉ ids) (s : SegmentBase) :
    liveSlots (Function.update segs id s) ids = liveSlots segs ids := by
  unfold liveSlots
  congr 1
  refine List.map_congr_left fun j hj => ?_
  rw [Function.update_of_ne]
  rintro rfl
  exact h hj

/-- `GetActiveSegment` erases no element, and the segment it returns has more room than the
candidates have live slots. -/
def Roomy (o : Options) (w : World K) : Prop :=
  ¬ Erases o w ∧ ∃ a ∈ activeSegment o w,
    liveSlots w.segs (candidates o w) < o.totalSlots - (w.segs a).appendCursor

instance (o : Options) (w : World K) : Decidable (Roomy o w) :=
  decidable_of_iff (¬ Erases o w ∧ ∃ a ∈ (activeSegment o w).toList,
      liveSlots w.segs (candidates o w) < o.totalSlots - (w.segs a).appendCursor)
    (by simp only [Roomy, Option.mem_toList, Option.mem_def])

/-- The candidates that are no longer left are idle and empty. -/
def Reclaimed (ids rest : List ℕ) (idle : UnorderedSet ℕ) (segs : ℕ → SegmentBase) : Prop :=
  ∀ id ∈ ids, id ∉ rest → id ∈ idle ∧ ∀ i, (segs id).bitmap i = false

/-- Between two candidates. -/
structure Emptying (o : Options) (a : ℕ) (ids rest : List ℕ) (w : World K) : Prop where
  tally : Tally o w
  classified : Classified w.mgr
  undisturbed : ¬ Erases o w
  active : activeSegment o w = some a
  room : liveSlots w.segs rest < o.totalSlots - (w.segs a).appendCursor
  done : Reclaimed ids rest (chooseActive o w.segs w.mgr).2.idleSet w.segs

/-- While the slots of `src` below `i` have been moved to `a`. -/
structure Draining (o : Options) (a : ℕ) (ids rest : List ℕ) (src i : ℕ) (w : World K) : Prop where
  tally : Tally o w
  classified : Classified w.mgr
  head : w.mgr.appendingSet.order.head? = some a
  room : (w.segs src).usedSlots + liveSlots w.segs rest <
    o.totalSlots - (w.segs a).appendCursor + occupied (w.segs src) i
  done : Reclaimed ids (src :: rest) w.mgr.idleSet w.segs

namespace Draining

variable {ids rest : List ℕ} {src i : ℕ} (h : Draining o a ids rest src i w)

include h

theorem appending : a ∈ w.mgr.appendingSet := List.mem_of_mem_head? h.head

theorem started : Started w.mgr a := h.classified.started_of_appending h.appending

theorem has_room (hbit : (w.segs src).bitmap i = true) :
    (w.segs a).appendCursor < o.totalSlots := by
  have hroom := h.room
  have hmono := Nat.count_monotone (fun j => (w.segs src).bitmap j = true)
    (le_of_lt ((h.tally src).below i hbit))
  have hused := (h.tally src).used
  unfold occupied at hroom hused
  omega

end Draining

theorem emptying_start {ids rest : List ℕ} {src : ℕ} (hP : Emptying o a ids (src :: rest) w) :
    Draining o a ids rest src 0 { w with mgr := (chooseActive o w.segs w.mgr).2 } where
  tally := hP.tally
  classified := (chooseActive_classified w.segs hP.classified).1
  head := activeSegment_head hP.undisturbed hP.active
  room := by
    have hroom := hP.room
    rw [liveSlots_cons] at hroom
    simpa [occupied] using hroom
  done := hP.done

theorem draining_skip {ids rest : List ℕ} {src i : ℕ} (h : Draining o a ids rest src i w)
    (hbit : (w.segs src).bitmap i = false) : Draining o a ids rest src (i + 1) w where
  tally := h.tally
  classified := h.classified
  head := h.head
  room := by
    have hroom := h.room
    rwa [occupied, Nat.count_succ, hbit, if_neg (by simp)]
  done := h.done

variable [DecidableEq K] [KeyType K]

theorem Draining.not_candidate {ids rest : List ℕ} {src i : ℕ} (h : Draining o a ids rest src i w)
    (hplaced : Placed o H (value o w) src a rest w) : a ≠ src ∧ a ∉ rest := by
  have hfull := h.classified.appending_full a h.appending
  refine ⟨?_, fun hmem => hfull (hplaced.others a hmem)⟩
  rintro rfl
  exact hfull hplaced.source

theorem moved_counts {rest : List ℕ} {src i : ℕ} {slot : Slot}
    (hplaced : Placed o H (value o w) src a rest w) (hmove : Move o w src i a slot) :
    (movedWorld o w src i a slot).segs = Function.update w.segs a (insertedSegment o (w.segs a)) ∧
      (movedWorld o w src i a slot).mgr = w.mgr ∧
      occupied (w.segs src) (i + 1) = occupied (w.segs src) i + 1 ∧
      (insertedSegment o (w.segs a)).appendCursor = (w.segs a).appendCursor + 1 := by
  obtain ⟨hsegs, hmgr, -, -⟩ := movedWorld_frame hplaced.live src i a slot
  have hbit : (w.segs src).bitmap i = true :=
    ((hplaced.live.segs src hplaced.source_lt).slot_isSome i).mpr ⟨slot, hmove.occupied⟩
  exact ⟨hsegs.trans rfl, hmgr, by simp [occupied, Nat.count_succ, hbit], by simp [insertedSegment]⟩

theorem draining_move {ids rest : List ℕ} {src i : ℕ} {slot : Slot}
    (hplaced : Placed o H (value o w) src a rest w) (hmove : Move o w src i a slot)
    (h : Draining o a ids rest src i w) :
    Draining o a ids rest src (i + 1) (movedWorld o w src i a slot) := by
  obtain ⟨hsegs, hmgr, hcount, hcursor⟩ := moved_counts hplaced hmove
  obtain ⟨hne, hrest⟩ := h.not_candidate hplaced
  have hshift := shift_moved hplaced.live hmove h.started
  refine ⟨tally_shift h.tally hshift, classified_shift h.classified hshift, ?_, ?_, ?_⟩
  · rw [hmgr]
    exact h.head
  · have hroom := h.room
    have hfits := hmove.room
    rw [hsegs, liveSlots_update hrest, Function.update_self, Function.update_of_ne hne.symm,
      hcount, hcursor]
    omega
  · intro id hid hleft
    obtain ⟨hidle, hempty⟩ := h.done id hid hleft
    have hid' : id ≠ a := by
      rintro rfl
      exact h.started.2 hidle
    rw [hsegs, hmgr, Function.update_of_ne hid']
    exact ⟨hidle, hempty⟩

theorem draining_reset {ids rest : List ℕ} {src : ℕ}
    (hplaced : Placed o H (value o w) src a rest w)
    (h : Draining o a ids rest src (w.segs src).appendCursor w) :
    Emptying o a ids rest (reclassify o src a (afterReset w src)) := by
  have hroom := h.room
  rw [← (h.tally src).used] at hroom
  have hsegs : (reclassify o src a (afterReset w src)).segs =
      Function.update w.segs src (w.segs src).resetBitmap := rfl
  have ha : (reclassify o src a (afterReset w src)).segs a = w.segs a := by
    rw [hsegs, Function.update_of_ne (h.not_candidate hplaced).1]
  -- the target is not full, so only the source changes its class
  have hstate : ((afterReset w src).segs a).state ≠ .full := by
    have hfull := (h.tally a).full_iff
    intro heq
    have hcursor := (hfull.mp ((congrArg SegmentBase.state ha).symm.trans heq)).1
    omega
  have hmgr : (reclassify o src a (afterReset w src)).mgr = { w.mgr with
      fullSet := w.mgr.fullSet.erase src
      fullOrder := w.mgr.fullOrder.filter (· ≠ src)
      idleSet := w.mgr.idleSet.insert o.hash src } := by
    simp only [reclassify, if_neg hstate]
    rfl
  have hhead : (reclassify o src a (afterReset w src)).mgr.appendingSet.order.head? = some a := by
    rw [hmgr]
    exact h.head
  have hfree : ((reclassify o src a (afterReset w src)).segs a).appendCursor < o.totalSlots := by
    rw [ha]
    omega
  have hchoose := chooseActive_of_head hhead hfree
  have hshift := shift_reclaimed hplaced h.started
  refine ⟨tally_shift h.tally hshift, classified_shift h.classified hshift,
    not_erases_of_head hhead hfree, congrArg Prod.fst hchoose, ?_, ?_⟩
  · rw [ha, hsegs, liveSlots_update hplaced.source_not_mem]
    omega
  · rw [hchoose, hmgr, hsegs]
    intro id hid hrest
    by_cases hsrc : id = src
    · rw [hsrc, Function.update_self]
      exact ⟨mem_insert.mpr (Or.inl rfl), fun _ => rfl⟩
    · obtain ⟨hidle, hempty⟩ := h.done id hid (by simp [hsrc, hrest])
      rw [Function.update_of_ne hsrc]
      exact ⟨mem_insert.mpr (Or.inr hidle), hempty⟩

theorem compaction_roomy (hadm : o.Admissible K) (h : Tended o w) (herases : ¬ Erases o w)
    (ha : activeSegment o w = some a)
    (hroom : liveSlots w.segs (candidates o w) < o.totalSlots - (w.segs a).appendCursor) :
    (run (runAttachedCompaction o) w).val = some .ok ∧
      Live o (fun _ _ => True) (run (runAttachedCompaction o) w).state ∧
      Emptying o a (candidates o w) [] (run (runAttachedCompaction o) w).state := by
  have hsteered : Steered (K := K) o (fun _ _ => True) (fun _ => True) (fun _ => True)
      (Emptying o a (candidates o w))
      (fun rest src target i w' => target = a ∧ Draining o a (candidates o w) rest src i w')
      fun _ => False :=
    { refused := fun _ hP hnone => by cases hnone.symm.trans hP.active
      start := fun _ hP _ _ htarget =>
        ⟨Option.some.inj (htarget.symm.trans hP.active), emptying_start hP⟩
      skip := fun hplaced _ hvacant hE => ⟨hE.1, draining_skip hE.2
        (((hplaced.live.segs _ hplaced.source_lt).slot_none _).mpr hvacant)⟩
      move := fun hplaced hmove _ hE => by
        obtain ⟨rfl, hE⟩ := hE
        exact ⟨guarded_of_forall fun _ _ => trivial,
          fun _ => ⟨rfl, draining_move hplaced hmove hE⟩⟩
      stuck := fun hplaced hslot hstuck hE => by
        obtain ⟨rfl, hE⟩ := hE
        rcases hstuck with hself | hfull
        · exact (hE.not_candidate hplaced).1 hself
        · exact hfull (hE.has_room
            (((hplaced.live.segs _ hplaced.source_lt).slot_isSome _).mpr ⟨_, hslot⟩))
      reset := fun hplaced hE => by
        obtain ⟨rfl, hE⟩ := hE
        exact ⟨guarded_of_forall fun _ _ => trivial, draining_reset hplaced hE⟩ }
  have hstart : Emptying o a (candidates o w) (candidates o w) w :=
    ⟨h.tally, h.classified, herases, ha, hroom, fun id hid hrest => (hrest hid).elim⟩
  have hend := (runCompaction_steered hadm hsteered (value o w) w ⟨h.live, rfl, hstart⟩).2
    fun _ _ => trivial
  unfold Checked Stopped at hend
  split_ifs at hend with hok
  · exact ⟨hok, hend.1, hend.2.2⟩
  · exact hend.2.2.elim

theorem put_succeeds (hadm : o.Admissible K) (h : Live o H w) (ha : activeSegment o w = some a)
    (hroom : (w.segs a).appendCursor < o.totalSlots) (key : K) {v : Bytes}
    (hsize : v.length = o.segmentConfig.valueSize) :
    (run (Operations.put o key v) w).val = .ok := by
  obtain ⟨mgr, hstate, -, -, -, hactive⟩ := getActiveSegment_spec (o := o) h.mgr
  have hval : (run (getActiveSegment o) w).val = some a := ha
  have hlt := hactive a hval
  obtain ⟨hival, histate⟩ := run_insert (w := { w with mgr := mgr }) (toBytes key) v hadm.slots
    (h.segs a hlt) hroom
  have hinstall := (run_installPut (o := o)
    (w := afterInsert o { w with mgr := mgr } a (toBytes key) v) h.wal key
    (encodeSegmentSlot a (w.segs a).appendCursor)).1
  simpa [Operations.put, hsize, writeToSegment, hval, hstate, hival, histate] using hinstall

/-- A compaction that finds room for the live slots of its candidates, without an erase, empties
every dead segment, and the store takes values again. -/
theorem compaction_reclaims_dead (hadm : o.Admissible K) {stateFile : Option Bytes}
    {acts : List (Act K)} {s : Store K}
    (hrun : GuardedRun (step o) Uncrashed (Store.initial K stateFile) acts s)
    (hup : s.up = true) (hcold : ∀ id, id ∉ s.world.mgr.hotSegments)
    (hthreshold : o.segmentConfig.compactionThreshold.le ⟨1, 0⟩ = true)
    (hroom : Roomy o s.world) :
    (∀ id ∈ s.world.mgr.fullSet, (s.world.segs id).state = .full →
      (∀ i < (s.world.segs id).appendCursor, (s.world.segs id).bitmap i = false) →
      id ∈ (run (runAttachedCompaction o) s.world).state.mgr.idleSet ∧
      ∀ i, ((run (runAttachedCompaction o) s.world).state.segs id).bitmap i = false ∧
        ((run (runAttachedCompaction o) s.world).state.disk.images id).bitmap i = false) ∧
    ∀ key v, v.length = o.segmentConfig.valueSize →
      (run (Operations.put o key v) (run (runAttachedCompaction o) s.world).state).val = .ok := by
  have htended := (tended_run hadm hrun).world hup
  have htally := htended.tally
  obtain ⟨herases, a, ha, hroom⟩ := hroom
  obtain ⟨-, hlive', hend⟩ := compaction_roomy hadm htended herases ha hroom
  constructor
  · intro id hid hfull hdead
    have hempty : ∀ i, (s.world.segs id).bitmap i = false := by
      intro i
      rw [Bool.eq_false_iff]
      intro hbit
      simp [hdead i ((htally id).below i hbit)] at hbit
    have hcandidate : id ∈ candidates o s.world := by
      refine List.mem_filter.mpr ⟨hid, ?_⟩
      simp [hcold id, (htally id).needsCompaction_dead hfull hempty, hthreshold]
    obtain ⟨hidle, hbits⟩ := hend.done id hcandidate (by simp)
    obtain ⟨mgr, hstate, -, -, hkept, -⟩ := getActiveSegment_spec (o := o) hlive'.mgr
    obtain rfl := congrArg World.mgr hstate
    refine ⟨hkept.idle id hidle, fun i => ⟨hbits i, ?_⟩⟩
    have hlt := (htended.live.mgr.segments id).mp (htended.live.mgr.full id hid)
    rw [(hlive'.segs id hlt).bit_eq]
    exact hbits i
  · intro key v hsize
    have hleft := hend.room
    exact put_succeeds hadm hlive' hend.active (by omega) key hsize

def singleOptions : Options := { smallOptions 4 0 with segmentCount := 1 }

def deadRun : List (Act Key64) :=
  [.complete .start] ++ [0, 1, 2, 3].map putKey ++ [0, 1, 2, 3].map deleteKey ++ [putKey 4]

set_option maxRecDepth 100000 in
/-- There is no segment to move nothing to: the dead segment stays full and no value can be
stored, although the store is empty. -/
theorem compaction_keeps_dead :
    ∃ s, GuardedRun (step singleOptions) Uncrashed (Store.initial Key64 none) deadRun s ∧
      s.up = true ∧ s.world.mgr.hotSegments.order = [] ∧ 0 ∈ s.world.mgr.fullSet ∧
      (s.world.segs 0).state = .full ∧
      (∀ i < (s.world.segs 0).appendCursor, (s.world.segs 0).bitmap i = false) ∧
      (run (runAttachedCompaction singleOptions) s.world).val = some .noSpace ∧
      0 ∉ (run (runAttachedCompaction singleOptions) s.world).state.mgr.idleSet ∧
      (run (Operations.put singleOptions 4 [4])
        (run (runAttachedCompaction singleOptions) s.world).state).val = .noSpace := by
  obtain ⟨s, hrun, hs⟩ := exists_guardedRun
    (f := fun s : Store Key64 => decide (s.up = true ∧ s.world.mgr.hotSegments.order = [] ∧
      0 ∈ s.world.mgr.fullSet ∧ (s.world.segs 0).state = .full ∧
      (∀ i < (s.world.segs 0).appendCursor, (s.world.segs 0).bitmap i = false) ∧
      (run (runAttachedCompaction singleOptions) s.world).val = some .noSpace ∧
      0 ∉ (run (runAttachedCompaction singleOptions) s.world).state.mgr.idleSet ∧
      (run (Operations.put singleOptions 4 [4])
        (run (runAttachedCompaction singleOptions) s.world).state).val = .noSpace))
    (show (performGuarded (step singleOptions) Uncrashed (Store.initial Key64 none)
      deadRun).map _ = some true by decide +kernel)
  exact ⟨s, hrun, of_decide_eq_true hs⟩

def spareRun : List (Act Key64) :=
  [.complete .start] ++ [0, 1, 2, 3, 4].map putKey ++ [0, 1, 2, 3].map deleteKey

set_option maxRecDepth 100000 in
theorem compaction_reclaims_dead_spare :
    ∃ s id, GuardedRun (step (smallOptions 4 0)) Uncrashed (Store.initial Key64 none) spareRun s ∧
      id ∈ s.world.mgr.fullSet ∧
      id ∈ (run (runAttachedCompaction (smallOptions 4 0)) s.world).state.mgr.idleSet := by
  obtain ⟨s, hrun, hs⟩ := exists_guardedRun
    (f := fun s : Store Key64 => decide (s.up = true ∧ s.world.mgr.hotSegments.order = [] ∧
      Roomy (smallOptions 4 0) s.world ∧ ∃ id ∈ s.world.mgr.fullSet.order,
        (s.world.segs id).state = .full ∧
        ∀ i < (s.world.segs id).appendCursor, (s.world.segs id).bitmap i = false))
    (show (performGuarded (step (smallOptions 4 0)) Uncrashed (Store.initial Key64 none)
      spareRun).map _ = some true by decide +kernel)
  obtain ⟨hup, hhot, hroom, id, hid, hfull, hdead⟩ := of_decide_eq_true hs
  have hcold : ∀ j, j ∉ s.world.mgr.hotSegments := fun j => by simp [mem_def, hhot]
  have hend := compaction_reclaims_dead (smallOptions_admissible 0 (by decide)) hrun hup hcold
    (by decide) hroom
  exact ⟨s, id, hrun, hid, (hend.1 id hid hfull hdead).1⟩

end ParaKV.Index.Reclaiming
