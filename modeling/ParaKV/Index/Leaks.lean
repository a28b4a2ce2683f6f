/- GID: ParaKV/Index/Leaks
   source: parakv/core/segment/segment_file.cc, parakv/core/segment/segment_manager.cc
   digest: Entries and occupied slots correspond as long as no segment is moved in part. -/

import Mathlib.Algebra.BigOperators.Group.Finset.Piecewise
import Mathlib.Algebra.BigOperators.Group.Finset.Sigma
import ParaKV.Index.Reclaiming

set_option autoImplicit false

namespace ParaKV.Index.Leaks

open Lib.TracedProgram Lib.LogMap Lib.OwnedSlots Lib.StepRun Lib.HashOrder.UnorderedSet Index.Key
open Index.Operations Index.Durability Index.Ownership Index.Compaction Index.Runs
open Index.CompactionRuns Index.Bookkeeping Index.Reclaiming Segment Segment.Base Segment.FileSpec
open Segment.Accounting Segment.Manager Segment.ManagerSpec Segment.CompactionRules Core.State

variable {K : Type} {o : Options} {H : K → Bytes → Prop} {w : World K} {d : Disk K}
variable {src i a : ℕ} {rest : List ℕ}

/-! The plan of a compaction: how the live slots of its candidates fall into the targets. -/

/-- Segments with the listed numbers of live slots are moved one after the other to a target
with `room` free slots, and to empty ones once it is full. None of them is moved in part: each
fits, or finds no room at all and ends the compaction. -/
def Whole (total : ℕ) : ℕ → List ℕ → Prop
  | _, [] => True
  | room, u :: us =>
    room = 0 ∧ 0 < u ∨ u ≤ room ∧ Whole total (if room - u = 0 then total else room - u) us

instance decidableWhole (total : ℕ) : ∀ room us, Decidable (Whole total room us)
  | _, [] => isTrue trivial
  | room, u :: us =>
    have := decidableWhole total (if room - u = 0 then total else room - u) us
    inferInstanceAs (Decidable (room = 0 ∧ 0 < u ∨
      u ≤ room ∧ Whole total (if room - u = 0 then total else room - u) us))

def loads (segs : ℕ → SegmentBase) (ids : List ℕ) : List ℕ := ids.map fun id => (segs id).usedSlots

/-- The next compaction of `ids` moves no segment in part. -/
def Planned (o : Options) (ids : List ℕ) (w : World K) : Prop :=
  ∀ a ∈ activeSegment o w,
    Whole o.totalSlots (o.totalSlots - (w.segs a).appendCursor) (loads w.segs ids)

instance (o : Options) (ids : List ℕ) (w : World K) : Decidable (Planned o ids w) :=
  inferInstanceAs (Decidable (∀ a ∈ activeSegment o w,
    Whole o.totalSlots (o.totalSlots - (w.segs a).appendCursor) (loads w.segs ids)))

theorem loads_update {segs : ℕ → SegmentBase} {ids : List ℕ} {id : ℕ} (h : id ∉ ids)
    (s : SegmentBase) : loads (Function.update segs id s) ids = loads segs ids := by
  refine List.map_congr_left fun j hj => ?_
  rw [Function.update_of_ne]
  rintro rfl
  exact h hj

structure Ordered (o : Options) (w : World K) : Prop where
  tally : Tally o w
  classified : Classified w.mgr
  lined : Lined w
  spent : Spent o w

theorem ordered_shift {w' : World K} (h : Ordered o w) (hshift : Shift o w w') : Ordered o w' :=
  have htally := tally_shift h.tally hshift
  ⟨htally, classified_shift h.classified hshift, lined_shift h.classified h.lined hshift,
    spent_shift h.spent htally hshift⟩

theorem activeSegment_promoted (h : Lined w) (happending : w.mgr.appendingSet.order = [])
    (ha : activeSegment o w = some a) :
    (w.segs a).appendCursor = 0 := by
  unfold activeSegment chooseActive scanFrom at ha
  simp only [happending, promoteIdleSegment] at ha
  cases hidle : w.mgr.idleSet.order with
  | nil => simp [hidle] at ha
  | cons id ids =>
    rw [hidle] at ha
    obtain rfl : id = a := Option.some.inj ha
    exact h.idle id (by simp [mem_def, hidle])

theorem scanAppending_full {m : SegmentManager} (segs : ℕ → SegmentBase) (l : List ℕ)
    (hl : ∀ id ∈ l, id ∈ m.fullSet) : scanAppending o segs l m = promoteIdleSegment o m ∨
      ∃ id ∈ l, (segs id).getFreeSlots o.segmentConfig > 0 ∧
        scanAppending o segs l m = (some id, m) := by
  induction l with
  | nil => exact .inl rfl
  | cons id rest ih =>
    unfold scanAppending
    split_ifs with hfree
    · exact .inr ⟨id, by simp, hfree, rfl⟩
    · have hmark : markSegmentFullInternal o m id = m := by
        unfold markSegmentFullInternal
        rw [if_pos (hl id (by simp)), ite_self]
      rw [hmark]
      refine (ih fun j hj => hl j (by simp [hj])).imp_right ?_
      rintro ⟨j, hj, hrest⟩
      exact ⟨j, by simp [hj], hrest⟩

/-- The active segment comes first among the appending ones, or none is left and the walk has come
to a full one. -/
theorem activeSegment_cases (h : Ordered o w) (ha : activeSegment o w = some a) :
    (chooseActive o w.segs w.mgr).2.appendingSet.order.head? = some a ∨
      (chooseActive o w.segs w.mgr).2.appendingSet.order = [] ∧
        o.totalSlots ≤ (w.segs a).appendCursor := by
  by_cases herases : Erases o w
  · obtain ⟨first, hfirst, hfree⟩ := herases
    obtain ⟨tail, horder⟩ := List.head?_eq_some_iff.mp hfirst
    have hsingle := h.lined.single
    rw [horder, List.length_cons] at hsingle
    obtain rfl : tail = [] := List.length_eq_zero_iff.mp (by omega)
    have hmem : first ∈ w.mgr.appendingSet := by simp [mem_def, horder]
    set m := markSegmentFullInternal o w.mgr first with hm
    have hmark : m = { w.mgr with
        appendingSet := w.mgr.appendingSet.erase first
        idleSet := w.mgr.idleSet.erase first
        fullSet := w.mgr.fullSet.insert o.hash first
        fullOrder := w.mgr.fullOrder ++ [first] } := by
      rw [hm, markSegmentFullInternal, if_neg (not_not.mpr (h.classified.appending first hmem)),
        if_neg (h.classified.appending_full first hmem)]
    have hempty : m.appendingSet.order = [] := by
      rw [hmark]
      exact (congrArg (List.erase · first) horder).trans (List.erase_cons_head first [])
    have hstale : ∀ id ∈ staleIds o w.mgr, id ∈ m.fullSet := fun id hid =>
      (mem_staleIds horder hid).resolve_left (by simp [← hm, mem_def, hempty])
    have hchoose : chooseActive o w.segs w.mgr =
        scanAppending o w.segs (staleIds o w.mgr) m := by
      simp only [chooseActive, scanFrom, horder, hfree, if_false, ← hm]
    unfold activeSegment at ha
    rcases scanAppending_full w.segs _ hstale with hend | ⟨id, hid, hpos, hend⟩
    · rw [hchoose, hend] at ha ⊢
      exact .inl (promoteIdleSegment_head hempty ha)
    · rw [hchoose, hend] at ha ⊢
      obtain rfl : id = a := Option.some.inj ha
      refine .inr ⟨hempty, h.spent id ?_⟩
      have hfull := hstale id hid
      rw [hmark] at hfull
      exact (mem_insert.mp hfull).resolve_left fun heq => hfree (heq ▸ hpos)
  · exact .inl (activeSegment_head herases ha)

/-! One compaction. -/

variable [DecidableEq K] [KeyType K]

/-- Every occupied slot outside `X` has the entry of its key. -/
def FillsOutside (o : Options) (X : ℕ → ℕ → Prop) (w : World K) : Prop :=
  ∀ b k v, ¬ At X b → view o w.disk b = some (k, v) → w.map.lookup k = some b

/-- While the slots of `src` below `i` have been moved to `a`. -/
structure Splitting (o : Options) (rest : List ℕ) (src a i : ℕ) (w : World K) : Prop where
  ordered : Ordered o w
  started : Started w.mgr a
  head : w.mgr.appendingSet.order.head? = some a ∨
    w.mgr.appendingSet.order = [] ∧ o.totalSlots ≤ (w.segs a).appendCursor
  plan : o.totalSlots ≤ (w.segs a).appendCursor ∧ occupied (w.segs src) i = 0 ∧
      0 < (w.segs src).usedSlots ∨
    ∃ left, (w.segs src).usedSlots + left =
        o.totalSlots - (w.segs a).appendCursor + occupied (w.segs src) i ∧
      Whole o.totalSlots (if left = 0 then o.totalSlots else left) (loads w.segs rest)
  left : FillsOutside o (Before src i) w

theorem Splitting.not_full (h : Splitting o rest src a i w)
    (hroom : (w.segs a).appendCursor < o.totalSlots) : a ∉ w.mgr.fullSet := by
  have hhead := h.head.resolve_right fun hspent => by omega
  exact h.ordered.classified.appending_full a (List.mem_of_mem_head? hhead)

theorem splitting_start (h : Ordered o w) (hfills : Fills (entries w.map) (view o w.disk))
    (hplan : Planned o (src :: rest) w) (ha : activeSegment o w = some a) :
    Splitting o rest src a 0 { w with mgr := (chooseActive o w.segs w.mgr).2 } where
  ordered := ordered_shift h (.activate rfl rfl)
  started := (chooseActive_classified w.segs h.classified).2 a ha
  head := activeSegment_cases h ha
  plan := by
    have hwhole : Whole o.totalSlots (o.totalSlots - (w.segs a).appendCursor)
      ((w.segs src).usedSlots :: loads w.segs rest) := hplan a ha
    rcases hwhole with ⟨hroom, hlive⟩ | ⟨hle, hwhole⟩
    · exact Or.inl ⟨Nat.sub_eq_zero_iff_le.mp hroom, by simp [occupied], hlive⟩
    · refine Or.inr ⟨o.totalSlots - (w.segs a).appendCursor - (w.segs src).usedSlots, ?_, ?_⟩
      · simp only [occupied, Nat.count_zero]
        omega
      · exact hwhole
  left := fun b k v _ hb => hfills b k v hb

theorem splitting_skip (h : Splitting o rest src a i w) (hbit : (w.segs src).bitmap i = false) :
    Splitting o rest src a (i + 1) w where
  ordered := h.ordered
  started := h.started
  head := h.head
  plan := by
    have hcount : occupied (w.segs src) (i + 1) = occupied (w.segs src) i := by
      simp [occupied, Nat.count_succ, hbit]
    rw [hcount]
    exact h.plan
  left b k v hb := h.left b k v fun ⟨s, j, ⟨hs, hj⟩, hat⟩ => hb ⟨s, j, ⟨hs, by omega⟩, hat⟩

section Move

variable {slot : Slot} (hadm : o.Admissible K)
variable (hplaced : Placed o H (value o w) src a rest w) (hmove : Move o w src i a slot)

include hadm hplaced hmove

theorem fillsOutside_moved (h : FillsOutside o (Before src i) w) :
    FillsOutside o (Before src (i + 1)) (movedWorld o w src i a slot) := by
  have hlive := hplaced.live
  obtain ⟨-, -, himages, -⟩ := movedWorld_frame hlive src i a slot
  have hentry : w.map.lookup (ofBytes slot.key) = some (encodeSegmentSlot src i) := by
    refine h _ _ _ ?_ (view_old hadm hmove)
    rintro ⟨s, j, ⟨rfl, hj⟩, heq⟩
    have hs := lt_of_lt_of_le hmove.source_lt hadm.segments
    have hi := lt_of_lt_of_le hmove.bound hadm.slots
    have := (encodeSegmentSlot_inj hs hi hs (by omega) heq).2
    omega
  have hmap : (movedWorld o w src i a slot).map =
      w.map.insert (ofBytes slot.key) (newAddr w a) := if_pos hentry
  intro b k v hb hview
  rw [view_congr himages] at hview
  have hold : b ≠ encodeSegmentSlot src i := by
    rintro rfl
    exact hb ⟨src, i, ⟨rfl, Nat.lt_succ_self i⟩, rfl⟩
  rw [hmap, lookup_insert_eq]
  by_cases hnew : b = newAddr w a
  · rw [hnew, copied_new hadm hlive hmove] at hview
    obtain ⟨rfl, -⟩ := Prod.mk.inj (Option.some.inj hview)
    rw [if_pos rfl, hnew]
  · rw [copied_frame hlive hmove hnew] at hview
    have hkept := h b k v (fun ⟨s, j, ⟨hs, hj⟩, hat⟩ => hb ⟨s, j, ⟨hs, by omega⟩, hat⟩) hview
    have hkey : k ≠ ofBytes slot.key := by
      rintro rfl
      exact hold (Option.some.inj (hkept.symm.trans hentry))
    rw [if_neg hkey, hkept]

theorem splitting_move (h : Splitting o rest src a i w) :
    Splitting o rest src a (i + 1) (movedWorld o w src i a slot) := by
  obtain ⟨hsegs, hmgr, hcount, hcursor⟩ := moved_counts hplaced hmove
  have hroom := hmove.room
  have hrest : a ∉ rest := fun hmem => h.not_full hroom (hplaced.others a hmem)
  refine ⟨ordered_shift h.ordered (shift_moved hplaced.live hmove h.started), ?_, ?_, ?_,
    fillsOutside_moved hadm hplaced hmove h.left⟩
  · rw [hmgr]
    exact h.started
  · rw [hmgr]
    exact .inl (h.head.resolve_right fun hspent => by omega)
  · rw [hsegs, loads_update hrest, Function.update_self,
      Function.update_of_ne hmove.distinct.symm, hcount, hcursor]
    rcases h.plan with ⟨hfull, -, -⟩ | ⟨left, hleft, hwhole⟩
    · omega
    · exact Or.inr ⟨left, by omega, hwhole⟩

end Move

/-- The compaction stops at a slot only before it moved one of the same segment. -/
theorem splitting_stuck (hadm : o.Admissible K) (hplaced : Placed o H (value o w) src a rest w)
    (h : Splitting o rest src a i w) (hbit : (w.segs src).bitmap i = true)
    (hstuck : a = src ∨ ¬ (w.segs a).appendCursor < o.totalSlots) :
    Fills (entries w.map) (view o w.disk) := by
  have hfull : ¬ (w.segs a).appendCursor < o.totalSlots := by
    rcases hstuck with rfl | hfull
    · exact fun hroom => h.not_full hroom hplaced.source
    · exact hfull
  have hok := hplaced.live.segs src hplaced.source_lt
  have hi := hok.below i hbit
  have hbound := hok.bound
  have hused := (h.ordered.tally src).used
  have hlt : occupied (w.segs src) i < occupied (w.segs src) (w.segs src).appendCursor :=
    Nat.count_strict_mono hbit hi
  rcases h.plan with ⟨-, hnone, -⟩ | ⟨left, hleft, -⟩
  · intro b k v hb
    refine h.left b k v ?_ hb
    -- no slot below `i` is occupied
    rintro ⟨s, j, ⟨rfl, hj⟩, rfl⟩
    rw [view_encode hadm _ hplaced.source_lt (by omega)] at hb
    obtain ⟨slot, hslot, -⟩ := Option.map_eq_some_iff.mp hb
    have hcount : occupied (w.segs s) j < occupied (w.segs s) i :=
      Nat.count_strict_mono ((hok.slot_isSome j).mpr ⟨slot, hslot⟩) hj
    omega
  · omega

theorem fills_reset (hadm : o.Admissible K) (hplaced : Placed o H (value o w) src a rest w)
    (h : FillsOutside o (Before src (w.segs src).appendCursor) w) :
    Fills (entries w.map) (view o (afterReset w src).disk) := by
  have hok := hplaced.live.segs src hplaced.source_lt
  have hbound := hok.bound
  intro b k v hb
  have hother : ¬ At (OneSegment o src) b := by
    rintro ⟨s, j, ⟨rfl, hj⟩, rfl⟩
    rw [view_encode hadm _ hplaced.source_lt hj, afterReset_slot, if_pos rfl] at hb
    cases hb
  rw [touches_view_eq (touches_afterReset hok) hother] at hb
  refine h b k v ?_ hb
  rintro ⟨s, j, ⟨rfl, hj⟩, rfl⟩
  exact hother ⟨s, j, ⟨rfl, by omega⟩, rfl⟩

theorem reclassify_appending {K : Type} (w : World K) (src a : ℕ) :
    (reclassify o src a (afterReset w src)).mgr.appendingSet =
      if a ≠ src ∧ (w.segs a).state = .full then w.mgr.appendingSet.erase a
      else w.mgr.appendingSet := by
  by_cases hself : a = src
  · subst hself
    have hstate : ((afterReset w a).segs a).state ≠ .full := by
      simp [afterReset, SegmentBase.resetBitmap]
    simp only [reclassify, if_neg hstate, ne_eq, not_true_eq_false, false_and, if_false]
    rfl
  · have hsegs : (afterReset w src).segs a = w.segs a := Function.update_of_ne hself _ _
    by_cases hstate : (w.segs a).state = .full
    · simp only [reclassify, hsegs, hstate, if_true, hself, ne_eq, not_false_eq_true, and_self]
      rfl
    · simp only [reclassify, hsegs, hstate, if_false, and_false]
      rfl

/-- The next segment finds the room that the plan foresees. -/
theorem planned_reset (hplaced : Placed o H (value o w) src a rest w)
    (h : Splitting o rest src a (w.segs src).appendCursor w) :
    Planned o rest (reclassify o src a (afterReset w src)) := by
  have happending := reclassify_appending (o := o) w src a
  have hordered := ordered_shift h.ordered (shift_reclaimed hplaced h.started)
  set w' := reclassify o src a (afterReset w src) with hw'
  have hsegs : w'.segs = Function.update w.segs src (w.segs src).resetBitmap := rfl
  have hused := (h.ordered.tally src).used
  obtain ⟨left, hleft, hwhole⟩ : ∃ left, left = o.totalSlots - (w.segs a).appendCursor ∧
      Whole o.totalSlots (if left = 0 then o.totalSlots else left) (loads w.segs rest) := by
    rcases h.plan with ⟨-, hnone, hpos⟩ | ⟨left, hleft, hwhole⟩
    · omega
    · exact ⟨left, by omega, hwhole⟩
  have hfull_iff := (h.ordered.tally a).full_iff
  intro b hb
  rw [hsegs, loads_update hplaced.source_not_mem, ← hsegs]
  by_cases hroom : (w.segs a).appendCursor < o.totalSlots
  · -- the target stays the active segment
    rw [if_neg (by omega), hleft] at hwhole
    have hself : a ≠ src := fun heq => h.not_full hroom (heq ▸ hplaced.source)
    have ha : w'.segs a = w.segs a := Function.update_of_ne hself _ _
    rw [if_neg fun hstate => by have := (hfull_iff.mp hstate.2).1; omega] at happending
    have hscan : activeSegment o w' = some a := by
      refine congrArg Prod.fst (chooseActive_of_head ?_ (by rw [ha]; exact hroom))
      rw [happending]
      exact h.head.resolve_right fun hspent => by omega
    obtain rfl : a = b := Option.some.inj (hscan.symm.trans hb)
    rw [ha]
    exact hwhole
  · -- the target is full, so an empty segment takes over
    rw [if_pos (by omega)] at hwhole
    suffices hfree : o.totalSlots - (w'.segs b).appendCursor = o.totalSlots by
      rw [hfree]
      exact hwhole
    by_cases htotal : o.totalSlots = 0
    · omega
    have hstate : (w.segs a).state = .full := hfull_iff.mpr (by omega)
    have hempty : w'.mgr.appendingSet.order = [] := by
      rw [happending]
      rcases h.head with hhead | ⟨hnone, -⟩
      · have hself : a ≠ src := by
          rintro rfl
          exact h.ordered.classified.appending_full a (List.mem_of_mem_head? hhead) hplaced.source
        obtain ⟨tail, horder⟩ := List.head?_eq_some_iff.mp hhead
        have hsingle := h.ordered.lined.single
        rw [horder, List.length_cons] at hsingle
        obtain rfl : tail = [] := List.length_eq_zero_iff.mp (by omega)
        rw [if_pos ⟨hself, hstate⟩]
        exact (congrArg (List.erase · a) horder).trans (List.erase_cons_head a [])
      · split_ifs
        · exact congrArg (List.erase · a) hnone
        · exact hnone
    rw [activeSegment_promoted hordered.lined hempty hb]
    exact Nat.sub_zero _

theorem fills_compaction (hadm : o.Admissible K) (h : Live o H w) (hordered : Ordered o w)
    (hfills : Fills (entries w.map) (view o w.disk)) (hplan : Planned o (candidates o w) w) :
    Fills (entries (run (runAttachedCompaction o) w).state.map)
      (view o (run (runAttachedCompaction o) w).state.disk) := by
  have hsteered : Steered o H (fun _ => True) (fun _ => True)
      (fun rest w' => Ordered o w' ∧ Fills (entries w'.map) (view o w'.disk) ∧ Planned o rest w')
      (fun rest src a i w' => Splitting o rest src a i w')
      fun w' => Fills (entries w'.map) (view o w'.disk) :=
    { refused := fun _ hP _ => hP.2.1
      start := fun _ hP _ _ ha => splitting_start hP.1 hP.2.1 hP.2.2 ha
      skip := fun hplaced _ hvacant hE => splitting_skip hE
        (((hplaced.live.segs _ hplaced.source_lt).slot_none _).mpr hvacant)
      move := fun hplaced hmove _ hE => ⟨guarded_of_forall fun _ _ => trivial,
        fun _ => splitting_move hadm hplaced hmove hE⟩
      stuck := fun hplaced hslot hstuck hE => splitting_stuck hadm hplaced hE
        (((hplaced.live.segs _ hplaced.source_lt).slot_isSome _).mpr ⟨_, hslot⟩) hstuck
      reset := fun hplaced hE => ⟨guarded_of_forall fun _ _ => trivial,
        ordered_shift hE.ordered (shift_reclaimed hplaced hE.started),
        fills_reset hadm hplaced hE.left, planned_reset hplaced hE⟩ }
  have hend := (runCompaction_steered hadm hsteered (value o w) w
    ⟨h, rfl, hordered, hfills, hplan⟩).2 fun _ _ => trivial
  unfold Checked Stopped at hend
  split_ifs at hend
  · exact hend.2.2.2.1
  · exact hend.2.2

/-! The first start. -/

/-- Nothing has been appended to a segment, and the manager found no state file. -/
structure Unused (o : Options) (w : World K) : Prop where
  idle : ∀ id, (w.segs id).appendCursor = 0 ∧ (w.segs id).state = .idle
  bits : ∀ id < o.segmentCount, ∀ i, (w.disk.images id).bitmap i = false
  appending : w.mgr.appendingSet.order = []
  full : w.mgr.fullSet.order = []
  stateFile : w.disk.managerState = none

theorem unused_update {K : Type} {w : World K} {s : SegmentBase} {id : ℕ} (h : Unused o w)
    (hcursor : s.appendCursor = 0) (hstate : s.state = .idle) : Unused o (w.setSegment id s) := by
  refine ⟨fun j => ?_, h.bits, h.appending, h.full, h.stateFile⟩
  by_cases hj : j = id
  · rw [hj, setSegment_self]
    exact ⟨hcursor, hstate⟩
  · simpa [World.setSegment, hj] using h.idle j

theorem openedSegment_empty {s : SegmentBase} {f : SegmentImage} (hf : ∀ i, f.bitmap i = false) :
    (openedSegment o s f).appendCursor = 0 ∧ (openedSegment o s f).state = .idle := by
  have hcounters : File.rebuildCounters o.totalSlots f.bitmap = (0, 0) := by
    induction o.totalSlots with
    | zero => rfl
    | succ n ih => rw [rebuildCounters_succ, ih]; simp [hf]
  simp [openedSegment, hcounters, SegmentBase.updateState]

theorem unused_openSegment {K : Type} {w : World K} {id : ℕ} (hid : id < o.segmentCount)
    (h : Unused o w) :
    Unused o (run (File.openSegment o id) w).state := by
  rcases openSegment_cases (o := o) w id with hstate | hstate | hstate | hstate <;> rw [hstate]
  · exact h
  · exact unused_update h (h.idle id).1 (h.idle id).2
  · obtain ⟨hcursor, hidle⟩ := openedSegment_empty (o := o) (s := w.segs id) (h.bits id hid)
    exact unused_update h hcursor hidle
  · refine unused_update ⟨h.idle, fun j hj i => ?_, h.appending, h.full, h.stateFile⟩ rfl rfl
    by_cases hji : j = id
    · simp [hji, createdImage]
    · simpa [World.setImage, hji] using h.bits j hj i

theorem unused_addSegment {K : Type} {w : World K} (id : ℕ) (h : Unused o w) :
    Unused o (run (addSegment o id) w).state := by
  rcases addSegment_cases (o := o) w id with hstate | ⟨-, hstate⟩ <;> rw [hstate]
  · exact h
  · refine ⟨h.idle, h.bits, ?_, ?_, h.stateFile⟩ <;> rw [(h.idle id).2]
    · exact h.appending
    · exact h.full

/-- Files without an occupied slot and without a state file. -/
structure Vacant (o : Options) (d : Disk K) : Prop extends Fresh o (fun _ _ => True) d where
  bits : ∀ id < o.segmentCount, ∀ i, (d.images id).bitmap i = false
  stateFile : d.managerState = none

theorem unused_openStore (h : Vacant o d) :
    Unused o (run (openSegments o (List.range o.segmentCount)) (World.boot d)).state ∧
      ((run (openStore o) (World.boot d)).state =
          (run (openSegments o (List.range o.segmentCount)) (World.boot d)).state ∨
        Framed (run (openSegments o (List.range o.segmentCount)) (World.boot d)).state
          (run (openStore o) (World.boot d)).state) := by
  have hopened := openSegments_invariant (o := o) (I := Unused o) (w := World.boot d)
    (fun _ _ hid h => unused_openSegment hid h) (fun _ id h => unused_addSegment id h)
    (List.range o.segmentCount) (fun id hid => List.mem_range.mp hid)
    ⟨fun _ => ⟨rfl, rfl⟩, h.bits, rfl, rfl, h.stateFile⟩
  refine ⟨hopened, ?_⟩
  by_cases hval : (run (openSegments o (List.range o.segmentCount)) (World.boot d)).val = .ok
  · right
    simpa [openStore, hval, loadState, hopened.stateFile] using openIndex_framed (o := o) _
  · left
    simp [openStore, hval]

theorem unused_framed {K : Type} {w : World K} {w' : World K} (h : Unused o w)
    (hw : w' = w ∨ Framed w w') :
    Unused o w' := by
  rcases hw with rfl | hframed
  · exact h
  · refine ⟨?_, ?_, ?_, ?_, ?_⟩
    · rw [hframed.segs]
      exact h.idle
    · rw [hframed.images]
      exact h.bits
    · rw [hframed.mgr]
      exact h.appending
    · rw [hframed.mgr]
      exact h.full
    · rw [hframed.stateFile]
      exact h.stateFile

/-- A store whose counters, classes and slots are in order. -/
structure Clean (o : Options) (w : World K) : Prop where
  live : Live o (fun _ _ => True) w
  ordered : Ordered o w
  fills : Fills (entries w.map) (view o w.disk)

theorem starts_vacant (hadm : o.Admissible K) (h : Vacant o d) :
    Starts o (Clean o) (Vacant o) d := by
  obtain ⟨hlive, hfresh⟩ := starts_fresh hadm h.toFresh
  obtain ⟨hopened, hframed⟩ := unused_openStore h
  have hunused := unused_framed hopened hframed
  refine ⟨fun hval => ⟨hlive hval, ⟨?_, classified_openStore hval, ?_, ?_⟩, ?_⟩, hfresh,
    hunused.bits, hunused.stateFile⟩
  · exact tally_openStore (fun id hid i hi => (h.safe.images id hid).bound i hi) hval
  · exact ⟨fun id _ => (hunused.idle id).1, by simp [hunused.appending]⟩
  · intro id hid
    simp [mem_def, hunused.full] at hid
  · intro a k v ha
    obtain ⟨s, hs, i, -, -, slot, hslot, -⟩ := view_eq_some ha
    rw [Disk.slot, SegmentImage.slot, hunused.bits s hs i] at hslot
    cases hslot

/-! Runs. -/

/-- A complete operation, where a compaction moves no segment in part. -/
def Unsplit (o : Options) (s : Store K) (act : Act K) : Prop :=
  Uncrashed s act ∧ (act = .complete .compact → Planned o (candidates o s.world) s.world)

instance (o : Options) (s : Store K) (act : Act K) : Decidable (Unsplit o s act) :=
  inferInstanceAs (Decidable (Uncrashed s act ∧
    (act = .complete .compact → Planned o (candidates o s.world) s.world)))

theorem clean_op (hadm : o.Admissible K) (h : Clean o w) (op : Op K) (hop : op ≠ .start)
    (hplan : op = .compact → Planned o (candidates o w) w) :
    Clean o (run (op.program o) w).state := by
  refine ⟨live_op hadm h.live op hop fun _ _ _ => trivial,
    shifts_invariant (fun _ _ => ordered_shift) h.ordered
      (op_shifts hadm h.live h.ordered.classified op hop), ?_⟩
  · by_cases hplain : op.plain = true
    · exact fills_plain hadm h.live h.fills hplain
    · obtain rfl : op = .compact := by
        cases op <;> first | rfl | exact (hop rfl).elim | exact (hplain rfl).elim
      exact fills_compaction hadm h.live h.ordered h.fills (hplan rfl)

theorem clean_run (hadm : o.Admissible K) {acts : List (Act K)} {s : Store K}
    (hrun : GuardedRun (step o) (Unsplit o) (Store.initial K none) acts s) :
    Phase (Clean o) (Vacant o) s := by
  refine hrun.invariant (I := fun _ s => Phase (Clean o) (Vacant o) s)
    (.down ⟨⟨crashSafe_initial none, fun _ => by simp [snapshotBase, Disk.empty]⟩,
      fun _ _ _ => rfl, rfl⟩) ?_
  rintro _ s _ s' h ⟨⟨op, rfl⟩, hplan⟩ hstep
  refine phase_step h hstep (fun d => starts_vacant hadm) ?_ ?_ ?_ ?_
  · rintro n d e ⟨⟩
  · rintro w ⟨⟩
  · rintro w _ rfl ⟨⟩ hop hw
    exact clean_op hadm hw op hop fun heq => hplan (by rw [heq])
  · rintro w _ n e - ⟨⟩

/-! The correspondence of entries and occupied slots. -/

def occupiedSlots (o : Options) (w : World K) : Finset (ℕ × ℕ) :=
  (Finset.range o.segmentCount ×ˢ Finset.range o.totalSlots).filter
    fun p => (w.segs p.1).bitmap p.2 = true

theorem mem_occupiedSlots {K : Type} {w : World K} {p : ℕ × ℕ} : p ∈ occupiedSlots o w ↔
    (p.1 < o.segmentCount ∧ p.2 < o.totalSlots) ∧ (w.segs p.1).bitmap p.2 = true := by
  simp [occupiedSlots]

theorem sum_usedSlots {K : Type} {w : World K} (h : Tally o w) :
    ∑ id ∈ Finset.range o.segmentCount, (w.segs id).usedSlots = (occupiedSlots o w).card := by
  rw [occupiedSlots, Finset.card_filter, Finset.sum_product]
  refine Finset.sum_congr rfl fun id _ => ?_
  rw [(h id).used, occupied, ← Finset.card_filter, ← Nat.count_eq_card_filter_range,
    count_eq_of_below (h id).bound fun i _ hi => (h id).below i hi]

theorem entry_of_occupied (hadm : o.Admissible K) (h : Clean o w) {p : ℕ × ℕ}
    (hp : p ∈ occupiedSlots o w) : w.map.lookup (ofBytes ((w.disk.images p.1).slots p.2).key) =
      some (encodeSegmentSlot p.1 p.2) := by
  obtain ⟨⟨hs, hi⟩, hbit⟩ := mem_occupiedSlots.mp hp
  refine h.fills _ _ ((w.disk.images p.1).slots p.2).value ?_
  rw [view_encode hadm _ hs hi, Disk.slot, SegmentImage.slot, (h.live.segs _ hs).bit_eq,
    if_pos hbit]
  rfl

theorem card_occupiedSlots (hadm : o.Admissible K) (h : Clean o w) :
    (occupiedSlots o w).card = (run (size (K := K)) w).val := by
  have hsize : (run (size (K := K)) w).val = w.map.keys.card := by simp [size]
  rw [hsize]
  refine Finset.card_bij (fun p _ => ofBytes ((w.disk.images p.1).slots p.2).key) ?_ ?_ ?_
  · intro p hp
    rw [Finmap.mem_keys]
    exact Finmap.mem_of_lookup_eq_some (entry_of_occupied hadm h hp)
  · intro p hp q hq heq
    have hp' := entry_of_occupied hadm h hp
    rw [heq, entry_of_occupied hadm h hq] at hp'
    obtain ⟨⟨hs, hi⟩, -⟩ := mem_occupiedSlots.mp hp
    obtain ⟨⟨hs', hi'⟩, -⟩ := mem_occupiedSlots.mp hq
    obtain ⟨h₁, h₂⟩ := encodeSegmentSlot_inj (lt_of_lt_of_le hs' hadm.segments)
      (lt_of_lt_of_le hi' hadm.slots) (lt_of_lt_of_le hs hadm.segments)
      (lt_of_lt_of_le hi hadm.slots) (Option.some.inj hp')
    exact Prod.ext h₁.symm h₂.symm
  · intro k hk
    obtain ⟨a, ha⟩ := Finmap.mem_iff.mp (Finmap.mem_keys.mp hk)
    obtain ⟨s, hs, i, hi, -, slot, hslot, hkey, -⟩ := h.live.slot_view ha
    have hbit := ((h.live.segs s hs).slot_isSome i).mpr ⟨slot, hslot⟩
    refine ⟨(s, i), mem_occupiedSlots.mpr ⟨⟨hs, hi⟩, hbit⟩, ?_⟩
    rw [Disk.slot, SegmentImage.slot, (h.live.segs s hs).bit_eq, if_pos hbit] at hslot
    rw [Option.some.inj hslot]
    exact hkey

/-- In a run whose compactions move no segment in part, entries and occupied slots correspond one
to one, and the used slots add up to the size of the index. -/
theorem entries_correspond_slots (hadm : o.Admissible K) {acts : List (Act K)} {s : Store K}
    (hrun : GuardedRun (step o) (Unsplit o) (Store.initial K none) acts s) (hup : s.up = true) :
    (∀ k b, s.world.map.lookup k = some b → ∃ p ∈ occupiedSlots o s.world,
      b = encodeSegmentSlot p.1 p.2) ∧
    (∀ k k' b, s.world.map.lookup k = some b → s.world.map.lookup k' = some b → k = k') ∧
    (∀ p ∈ occupiedSlots o s.world,
      ∃! k, s.world.map.lookup k = some (encodeSegmentSlot p.1 p.2)) ∧
    ∑ id ∈ Finset.range o.segmentCount, (s.world.segs id).usedSlots =
      (run (size (K := K)) s.world).val := by
  have hclean := (clean_run hadm hrun).world hup
  have howner : ∀ k k' b, s.world.map.lookup k = some b → s.world.map.lookup k' = some b →
      k = k' := by
    intro k k' b hk hk'
    obtain ⟨v, hv⟩ := hclean.live.owns k b hk
    exact (hclean.live.owns.key_eq hv hk').symm
  refine ⟨fun k b hk => ?_, howner, fun p hp => ?_, ?_⟩
  · obtain ⟨id, hid, i, hi, hb, slot, hslot, -⟩ := hclean.live.slot_view hk
    exact ⟨(id, i), mem_occupiedSlots.mpr ⟨⟨hid, hi⟩,
      ((hclean.live.segs id hid).slot_isSome i).mpr ⟨slot, hslot⟩⟩, hb⟩
  · exact ⟨_, entry_of_occupied hadm hclean hp, fun k hk =>
      howner k _ _ hk (entry_of_occupied hadm hclean hp)⟩
  · rw [sum_usedSlots hclean.ordered.tally, card_occupiedSlots hadm hclean]

set_option maxRecDepth 100000 in
/-- A compaction that stops after its first move leaves ten occupied slots for nine keys: the
old slot of key 6 stays occupied. -/
theorem split_move_leaks_slot :
    ∃ s, GuardedRun (step (smallOptions 8 0)) Uncrashed (Store.initial Key64 none)
        (fullRun ++ [.complete .compact]) s ∧ s.up = true ∧
      ∑ id ∈ Finset.range 3, (s.world.segs id).usedSlots = 10 ∧
      (run (size (K := Key64)) s.world).val = 9 := by
  obtain ⟨s, hrun, hs⟩ := exists_guardedRun
    (f := fun s : Store Key64 => (s.up, ∑ id ∈ Finset.range 3, (s.world.segs id).usedSlots,
      (run (size (K := Key64)) s.world).val))
    (show (performGuarded (step (smallOptions 8 0)) Uncrashed (Store.initial Key64 none)
      (fullRun ++ [.complete .compact])).map _ = some (true, 10, 9) by decide +kernel)
  obtain ⟨hup, hrest⟩ := Prod.mk.inj hs
  obtain ⟨hsum, hsize⟩ := Prod.mk.inj hrest
  exact ⟨s, hrun, hup, hsum, hsize⟩

set_option maxRecDepth 100000 in
theorem entries_correspond_slots_sparse :
    ∃ s, GuardedRun (step (smallOptions 4 0)) (Unsplit (smallOptions 4 0))
        (Store.initial Key64 none) (sparseRun ++ [.complete .compact, putKey 9]) s ∧
      ∑ id ∈ Finset.range 3, (s.world.segs id).usedSlots =
        (run (size (K := Key64)) s.world).val := by
  obtain ⟨s, hrun, hup⟩ := exists_guardedRun (f := fun s : Store Key64 => s.up)
    (show (performGuarded (step (smallOptions 4 0)) (Unsplit (smallOptions 4 0))
      (Store.initial Key64 none) (sparseRun ++ [.complete .compact, putKey 9])).map _ =
        some true by decide +kernel)
  exact ⟨s, hrun, (entries_correspond_slots (smallOptions_admissible 0 (by decide)) hrun hup).2.2.2⟩

end ParaKV.Index.Leaks
