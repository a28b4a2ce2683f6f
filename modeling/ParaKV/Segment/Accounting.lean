/- GID: ParaKV/Segment/Accounting
   source: parakv/core/segment/segment_base.cc, parakv/core/segment/segment_manager.cc
   digest: The slot counters and the classes of the segments, step by step. -/

import Mathlib.Data.Nat.Count
import Mathlib.Logic.Relation
import ParaKV.Segment.FileSpec
import ParaKV.Segment.ManagerSpec

set_option autoImplicit false

namespace ParaKV.Segment.Accounting

open Relation Lib.HashOrder Lib.HashOrder.UnorderedSet Segment.Base Segment.FileSpec Segment.Manager
open Segment.ManagerSpec Core.State

variable {K : Type} {o : Options}

/-! The counters of one segment. -/

def occupied (s : SegmentBase) (n : ℕ) : ℕ := Nat.count (fun i => s.bitmap i = true) n

/-- The counters describe the bitmap, and the state describes the counters. -/
structure Tallied (o : Options) (s : SegmentBase) : Prop where
  below : ∀ i, s.bitmap i = true → i < s.appendCursor
  bound : s.appendCursor ≤ o.totalSlots
  used : s.usedSlots = occupied s s.appendCursor
  cursor : s.usedSlots + s.deletedSlots = s.appendCursor
  state : (s.updateState o.segmentConfig).state = s.state

def insertedSegment (o : Options) (s : SegmentBase) : SegmentBase :=
  { s with
    bitmap := Function.update s.bitmap s.appendCursor true
    usedSlots := s.usedSlots + 1
    appendCursor := s.appendCursor + 1 }.updateState o.segmentConfig

def deletedSegment (o : Options) (s : SegmentBase) (sid : ℕ) : SegmentBase :=
  { s with
    bitmap := Function.update s.bitmap sid false
    usedSlots := s.usedSlots - 1
    deletedSlots := s.deletedSlots + 1 }.updateState o.segmentConfig

variable {s : SegmentBase} {sid : ℕ}

@[simp] theorem updateState_usedSlots (c : SegmentConfig) :
    (s.updateState c).usedSlots = s.usedSlots := by
  unfold SegmentBase.updateState
  split_ifs <;> rfl

@[simp] theorem updateState_deletedSlots (c : SegmentConfig) :
    (s.updateState c).deletedSlots = s.deletedSlots := by
  unfold SegmentBase.updateState
  split_ifs <;> rfl

@[simp] theorem updateState_updateState (c : SegmentConfig) :
    (s.updateState c).updateState c = s.updateState c := by
  unfold SegmentBase.updateState
  split_ifs <;> rfl

theorem count_eq_of_below {p : ℕ → Prop} [DecidablePred p] {c n : ℕ} (hc : c ≤ n)
    (h : ∀ i < n, p i → i < c) : Nat.count p n = Nat.count p c := by
  obtain ⟨d, rfl⟩ := Nat.exists_eq_add_of_le hc
  rw [Nat.count_add, Nat.add_eq_left]
  refine Nat.count_of_forall_not fun i hi hp => ?_
  have := h (c + i) (by omega) hp
  omega

theorem count_update (b : ℕ → Bool) (sid : ℕ) (v : Bool) (n : ℕ) :
    Nat.count (fun i => Function.update b sid v i = true) n +
        (if sid < n ∧ b sid = true then 1 else 0) =
      Nat.count (fun i => b i = true) n + (if sid < n ∧ v = true then 1 else 0) := by
  induction n with
  | zero => simp
  | succ n ih =>
    rw [Nat.count_succ, Nat.count_succ]
    by_cases hn : n = sid
    · subst hn
      have hstay : Nat.count (fun i => Function.update b n v i = true) n =
          Nat.count (fun i => b i = true) n := by simpa using ih
      rw [hstay]
      simp only [Function.update_self, Nat.lt_succ_self, true_and]
      omega
    · have hlt : sid < n + 1 ↔ sid < n := by omega
      simp only [Function.update_of_ne hn, hlt]
      omega

theorem tallied_fresh (o : Options) : Tallied o .fresh := by
  refine ⟨?_, Nat.zero_le _, ?_, rfl, ?_⟩ <;>
    simp [SegmentBase.fresh, occupied, SegmentBase.updateState]

theorem tallied_reset (o : Options) (s : SegmentBase) : Tallied o s.resetBitmap := by
  refine ⟨?_, Nat.zero_le _, ?_, rfl, ?_⟩ <;>
    simp [SegmentBase.resetBitmap, occupied, SegmentBase.updateState]

theorem tallied_inserted (h : Tallied o s) (hroom : s.appendCursor < o.totalSlots) :
    Tallied o (insertedSegment o s) := by
  have hcursor := h.cursor
  have hused := h.used
  refine ⟨fun i hi => ?_, ?_, ?_, ?_, ?_⟩
  · simp only [insertedSegment, SegmentBase.updateState_bitmap,
      SegmentBase.updateState_appendCursor] at hi ⊢
    by_cases hic : i = s.appendCursor
    · omega
    · rw [Function.update_of_ne hic] at hi
      exact Nat.lt_succ_of_lt (h.below i hi)
  · simp only [insertedSegment, SegmentBase.updateState_appendCursor]
    omega
  · have hvacant : s.bitmap s.appendCursor = false := by
      rw [Bool.eq_false_iff]
      exact fun hbit => absurd (h.below _ hbit) (lt_irrefl _)
    have hcount := count_update s.bitmap s.appendCursor true (s.appendCursor + 1)
    rw [Nat.count_succ (fun i => s.bitmap i = true)] at hcount
    simp only [hvacant, Bool.false_eq_true, and_false, if_false, Nat.lt_succ_self, and_true,
      if_true] at hcount
    simp only [insertedSegment, occupied, SegmentBase.updateState_bitmap, updateState_usedSlots,
      SegmentBase.updateState_appendCursor]
    unfold occupied at hused
    omega
  · simp only [insertedSegment, updateState_usedSlots, updateState_deletedSlots,
      SegmentBase.updateState_appendCursor]
    omega
  · simp [insertedSegment]

theorem Tallied.used_pos (h : Tallied o s) (hbit : s.bitmap sid = true) : 0 < s.usedSlots := by
  rw [h.used]
  exact lt_of_le_of_lt (Nat.zero_le _) (Nat.count_strict_mono hbit (h.below sid hbit))

theorem tallied_deleted (h : Tallied o s) (hbit : s.bitmap sid = true) :
    Tallied o (deletedSegment o s sid) := by
  have hcursor := h.cursor
  have hused := h.used
  have hlt := h.below sid hbit
  have hpos := h.used_pos hbit
  refine ⟨fun i hi => ?_, ?_, ?_, ?_, ?_⟩
  · simp only [deletedSegment, SegmentBase.updateState_bitmap,
      SegmentBase.updateState_appendCursor] at hi ⊢
    by_cases his : i = sid
    · simp [his] at hi
    · rw [Function.update_of_ne his] at hi
      exact h.below i hi
  · simpa [deletedSegment] using h.bound
  · have hcount := count_update s.bitmap sid false s.appendCursor
    simp only [hlt, hbit, and_self, if_true, Bool.false_eq_true, and_false, if_false] at hcount
    simp only [deletedSegment, occupied, SegmentBase.updateState_bitmap, updateState_usedSlots,
      SegmentBase.updateState_appendCursor]
    unfold occupied at hused
    omega
  · simp only [deletedSegment, updateState_usedSlots, updateState_deletedSlots,
      SegmentBase.updateState_appendCursor]
    omega
  · simp [deletedSegment]

theorem rebuildCounters_used (total : ℕ) (bitmap : ℕ → Bool) :
    (File.rebuildCounters total bitmap).1 =
      Nat.count (fun i => bitmap i = true) (File.rebuildCounters total bitmap).2 := by
  obtain ⟨hbelow, hle⟩ := rebuildCounters_cursor total bitmap
  rw [← count_eq_of_below hle hbelow]
  clear hbelow hle
  induction total with
  | zero => simp [File.rebuildCounters]
  | succ n ih =>
    rw [rebuildCounters_succ, Nat.count_succ, ← ih]
    split_ifs <;> rfl

theorem tallied_opened {f : SegmentImage} (hbits : ∀ i, f.bitmap i = true → i < o.totalSlots) :
    Tallied o (openedSegment o s f) := by
  obtain ⟨hbelow, hle⟩ := rebuildCounters_cursor o.totalSlots f.bitmap
  have hused := rebuildCounters_used o.totalSlots f.bitmap
  refine ⟨fun i hi => ?_, ?_, ?_, ?_, ?_⟩
  · simp only [openedSegment, SegmentBase.updateState_bitmap,
      SegmentBase.updateState_appendCursor] at hi ⊢
    exact hbelow i (hbits i hi) hi
  · simpa [openedSegment] using hle
  · simpa [openedSegment, occupied] using hused
  · have hcount := Nat.count_le (p := fun i => f.bitmap i = true)
      (n := (File.rebuildCounters o.totalSlots f.bitmap).2)
    simp only [openedSegment, updateState_usedSlots, updateState_deletedSlots,
      SegmentBase.updateState_appendCursor]
    omega
  · simp [openedSegment]

theorem Tallied.full_iff (h : Tallied o s) :
    s.state = .full ↔ o.totalSlots ≤ s.appendCursor ∧ 0 < s.appendCursor := by
  have hcursor := h.cursor
  have hstate := h.state
  unfold SegmentBase.updateState at hstate
  rw [← hstate]
  split_ifs with hidle hfull
  · simp only [false_iff]
    omega
  · simp only [true_iff]
    exact ⟨hfull, by omega⟩
  · simp only [false_iff]
    exact fun hge => hfull hge.1

theorem openedSegment_full_iff {f : SegmentImage}
    (hbits : ∀ i, f.bitmap i = true → i < o.totalSlots) :
    (openedSegment o s f).state = .full ↔
      0 < o.totalSlots ∧ f.bitmap (o.totalSlots - 1) = true := by
  obtain ⟨hbelow, hle⟩ := rebuildCounters_cursor o.totalSlots f.bitmap
  have hcursor : (openedSegment o s f).appendCursor =
      (File.rebuildCounters o.totalSlots f.bitmap).2 := by simp [openedSegment]
  rw [(tallied_opened hbits).full_iff, hcursor]
  constructor
  · rintro ⟨hge, hpos⟩
    have hlast := rebuildCounters_last _ _ hpos
    rw [le_antisymm hle hge] at hlast
    exact ⟨by omega, hlast⟩
  · rintro ⟨hpos, hlast⟩
    have := hbelow _ (by omega) hlast
    omega

/-! The deleted ratio of a segment without an occupied slot. -/

theorem roundTiesEven_mul (n : ℕ) {den : ℕ} (hden : 0 < den) : roundTiesEven (n * den) den = n := by
  simp [roundTiesEven, Nat.mul_div_cancel _ hden, hden]

theorem ofNat_mantissa_pos {n : ℕ} (hn : 0 < n) : 0 < (Binary32.ofNat n).mantissa := by
  have hlog : 2 ^ n.log2 ≤ n := Nat.log2_self_le (by omega)
  have hquot : 0 < n / 2 ^ (n.log2 - 23) :=
    Nat.div_pos (le_trans (Nat.pow_le_pow_right (by omega) (Nat.sub_le _ _)) hlog)
      (Nat.two_pow_pos _)
  have hround : n / 2 ^ (n.log2 - 23) ≤ roundTiesEven n (2 ^ (n.log2 - 23)) := by
    unfold roundTiesEven
    dsimp only
    split_ifs <;> omega
  exact Nat.mul_pos (lt_of_lt_of_le hquot hround) (Nat.two_pow_pos _)

theorem le_div_self (t : Binary32) {m : ℕ} (hm : 0 < m) :
    t.le (Binary32.div ⟨m, 0⟩ ⟨m, 0⟩) = t.le ⟨1, 0⟩ := by
  have hdiv : Binary32.div ⟨m, 0⟩ ⟨m, 0⟩ = ⟨2 ^ 23, 23⟩ := by
    have hround := roundTiesEven_mul (2 ^ 23) hm
    simp only [Binary32.div, pow_zero, mul_one]
    rw [if_neg (by omega), Nat.add_sub_cancel, if_neg (by rw [Nat.mul_comm]; omega), Nat.mul_comm,
      hround]
  rw [hdiv]
  simp only [Binary32.le, pow_zero, mul_one, one_mul, decide_eq_decide]
  rw [Nat.mul_comm]
  exact Nat.mul_le_mul_left_iff (Nat.two_pow_pos 23)

theorem Tallied.needsCompaction_dead (h : Tallied o s) (hfull : s.state = .full)
    (hdead : ∀ i, s.bitmap i = false) :
    s.needsCompaction o.segmentConfig = o.segmentConfig.compactionThreshold.le ⟨1, 0⟩ := by
  have hused : s.usedSlots = 0 := by
    rw [h.used, occupied]
    exact Nat.count_of_forall_not fun i _ hbit => by simp [hdead i] at hbit
  have hdeleted : s.deletedSlots = s.appendCursor := by
    have := h.cursor
    omega
  have hpos := (h.full_iff.mp hfull).2
  have hratio : s.getDeletedRatio =
      (Binary32.ofNat s.appendCursor).div (Binary32.ofNat s.appendCursor) := by
    rw [SegmentBase.getDeletedRatio, if_pos hpos, hdeleted]
  have hone := le_div_self o.segmentConfig.compactionThreshold (ofNat_mantissa_pos hpos)
  simp only [SegmentBase.needsCompaction, hfull, hpos, hratio, decide_true, Bool.true_and]
  exact hone

/-! The steps that the operations are made of, as the segment objects and the manager see them. -/

inductive Shift (o : Options) (w w' : World K) : Prop
  | frame (hmgr : w'.mgr = w.mgr) (hsegs : w'.segs = w.segs)
  | activate (hmgr : w'.mgr = (chooseActive o w.segs w.mgr).2) (hsegs : w'.segs = w.segs)
  | mark (id : ℕ) (hid : Started w.mgr id)
      (hfull : o.totalSlots ≤ (w.segs id).appendCursor)
      (hmgr : w'.mgr = markSegmentFullInternal o w.mgr id) (hsegs : w'.segs = w.segs)
  | insert (id : ℕ) (hid : Started w.mgr id)
      (hroom : (w.segs id).appendCursor < o.totalSlots) (hmgr : w'.mgr = w.mgr)
      (hsegs : w'.segs = Function.update w.segs id (insertedSegment o (w.segs id)))
  | delete (id sid : ℕ) (hbit : (w.segs id).bitmap sid = true) (hmgr : w'.mgr = w.mgr)
      (hsegs : w'.segs = Function.update w.segs id (deletedSegment o (w.segs id) sid))
  | reclaim (src active : ℕ) (hsrc : src ∈ w.mgr.fullSet) (hactive : Started w.mgr active)
      (hmgr : w'.mgr = (reclassify o src active { w with segs := w'.segs }).mgr)
      (hsegs : w'.segs = Function.update w.segs src (w.segs src).resetBitmap)

structure Framed (w w' : World K) : Prop where
  mgr : w'.mgr = w.mgr
  segs : w'.segs = w.segs
  images : w'.disk.images = w.disk.images
  stateFile : w'.disk.managerState = w.disk.managerState

theorem Framed.trans {w w' w'' : World K} (h : Framed w w') (h' : Framed w' w'') : Framed w w'' :=
  ⟨h'.mgr.trans h.mgr, h'.segs.trans h.segs, h'.images.trans h.images,
    h'.stateFile.trans h.stateFile⟩

def Tally (o : Options) (w : World K) : Prop := ∀ id, Tallied o (w.segs id)

variable {w w' : World K}

theorem tally_update {segs : ℕ → SegmentBase} {id : ℕ} (h : ∀ j, Tallied o (segs j))
    (hs : Tallied o s) (j : ℕ) : Tallied o (Function.update segs id s j) := by
  by_cases hj : j = id
  · rw [hj, Function.update_self]
    exact hs
  · rw [Function.update_of_ne hj]
    exact h j

theorem tally_shift (h : Tally o w) (hshift : Shift o w w') : Tally o w' := by
  unfold Tally
  cases hshift with
  | frame _ hsegs => rwa [hsegs]
  | activate _ hsegs => rwa [hsegs]
  | mark _ _ _ _ hsegs => rwa [hsegs]
  | insert id _ hroom _ hsegs =>
    rw [hsegs]
    exact tally_update h (tallied_inserted (h id) hroom)
  | delete id sid hbit _ hsegs =>
    rw [hsegs]
    exact tally_update h (tallied_deleted (h id) hbit)
  | reclaim src _ _ _ _ hsegs =>
    rw [hsegs]
    exact tally_update h (tallied_reset o _)

theorem classified_shift (h : Classified w.mgr) (hshift : Shift o w w') : Classified w'.mgr := by
  cases hshift with
  | frame hmgr _ => rwa [hmgr]
  | activate hmgr _ =>
    rw [hmgr]
    exact (chooseActive_classified w.segs h).1
  | mark id _ _ hmgr _ =>
    rw [hmgr]
    exact markSegmentFullInternal_classified h id
  | insert _ _ _ hmgr _ => rwa [hmgr]
  | delete _ _ _ hmgr _ => rwa [hmgr]
  | reclaim src active hsrc hactive hmgr hsegs =>
    rw [hmgr]
    refine reclassify_classified (w := { w with segs := w'.segs }) h hsrc hactive ?_
    rintro rfl
    simp [hsegs, SegmentBase.resetBitmap]

/-- Idle segments are empty, and values go to one segment at a time. -/
structure Lined (w : World K) : Prop where
  idle : ∀ id ∈ w.mgr.idleSet, (w.segs id).appendCursor = 0
  single : w.mgr.appendingSet.order.length ≤ 1

theorem promoteIdleSegment_single {m : SegmentManager} (h : m.appendingSet.order = []) :
    (promoteIdleSegment o m).2.appendingSet.order.length ≤ 1 := by
  unfold promoteIdleSegment
  split
  · simp [h]
  · exact le_of_le_of_eq (length_insert_le _ _ _) (by simp [h])

theorem markSegmentFullInternal_head {m : SegmentManager} (hm : Classified m) {id : ℕ}
    {rest : List ℕ} (horder : m.appendingSet.order = id :: rest) :
    (markSegmentFullInternal o m id).appendingSet.order = rest := by
  have hid : id ∈ m.appendingSet := by simp [mem_def, horder]
  unfold markSegmentFullInternal
  rw [if_neg (not_not.mpr (hm.appending id hid)), if_neg (hm.appending_full id hid)]
  exact (congrArg (List.erase · id) horder).trans (List.erase_cons_head id rest)

theorem scanAppending_single {m : SegmentManager} (segs : ℕ → SegmentBase) (l : List ℕ)
    (h : m.appendingSet.order = []) :
    (scanAppending o segs l m).2.appendingSet.order.length ≤ 1 := by
  induction l generalizing m with
  | nil => exact promoteIdleSegment_single h
  | cons id l ih =>
    unfold scanAppending
    split_ifs
    · simp [h]
    · refine ih ?_
      unfold markSegmentFullInternal
      split_ifs <;> simp [h, UnorderedSet.erase]

theorem chooseActive_single {m : SegmentManager} {segs : ℕ → SegmentBase} (hm : Classified m)
    (h : m.appendingSet.order.length ≤ 1) :
    (chooseActive o segs m).2.appendingSet.order.length ≤ 1 := by
  unfold chooseActive scanFrom
  split
  · rename_i horder
    exact promoteIdleSegment_single horder
  · rename_i id rest horder
    split_ifs
    · exact h
    · refine scanAppending_single segs _ ?_
      rw [markSegmentFullInternal_head hm horder]
      rw [horder, List.length_cons] at h
      exact List.length_eq_zero_iff.mp (by omega)

theorem markSegmentFullInternal_single {m : SegmentManager} (id : ℕ)
    (h : m.appendingSet.order.length ≤ 1) :
    (markSegmentFullInternal o m id).appendingSet.order.length ≤ 1 := by
  unfold markSegmentFullInternal
  split_ifs
  · exact h
  · exact le_trans (length_erase_le _ _) h
  · exact h

theorem reclassify_single {src active : ℕ} (h : w.mgr.appendingSet.order.length ≤ 1) :
    (reclassify o src active w).mgr.appendingSet.order.length ≤ 1 := by
  unfold reclassify
  split_ifs
  · exact le_trans (length_erase_le _ _) h
  · exact h

theorem reclassify_idle {src active : ℕ} :
    (reclassify o src active w).mgr.idleSet = w.mgr.idleSet.insert o.hash src := by
  unfold reclassify
  split_ifs <;> rfl

theorem lined_shift (hm : Classified w.mgr) (h : Lined w) (hshift : Shift o w w') : Lined w' := by
  cases hshift with
  | frame hmgr hsegs => exact ⟨by rw [hmgr, hsegs]; exact h.idle, by rw [hmgr]; exact h.single⟩
  | activate hmgr hsegs =>
    have hkept := (chooseActive_reassigned (o := o) w.segs hm.toRegistered).1
    refine ⟨fun id hid => ?_, ?_⟩
    · rw [hsegs]
      rw [hmgr] at hid
      exact h.idle id (hkept.idle id hid)
    · rw [hmgr]
      exact chooseActive_single hm h.single
  | mark id _ _ hmgr hsegs =>
    have hkept := markSegmentFullInternal_reassigned (o := o) hm.toRegistered id
    refine ⟨fun j hj => ?_, ?_⟩
    · rw [hsegs]
      rw [hmgr] at hj
      exact h.idle j (hkept.idle j hj)
    · rw [hmgr]
      exact markSegmentFullInternal_single id h.single
  | insert id hid _ hmgr hsegs =>
    refine ⟨fun j hj => ?_, by rw [hmgr]; exact h.single⟩
    rw [hmgr] at hj
    have hne : j ≠ id := by
      rintro rfl
      exact hid.2 hj
    rw [hsegs, Function.update_of_ne hne]
    exact h.idle j hj
  | delete id sid _ hmgr hsegs =>
    refine ⟨fun j hj => ?_, by rw [hmgr]; exact h.single⟩
    rw [hmgr] at hj
    rw [hsegs]
    by_cases hji : j = id
    · rw [hji, Function.update_self]
      simpa [deletedSegment] using h.idle id (hji ▸ hj)
    · rw [Function.update_of_ne hji]
      exact h.idle j hj
  | reclaim src active _ _ hmgr hsegs =>
    refine ⟨fun j hj => ?_, by rw [hmgr]; exact reclassify_single h.single⟩
    rw [hmgr, reclassify_idle] at hj
    rw [hsegs]
    by_cases hjs : j = src
    · rw [hjs, Function.update_self]
      rfl
    · rw [Function.update_of_ne hjs]
      exact h.idle j ((mem_insert.mp hj).resolve_left hjs)

def Spent (o : Options) (w : World K) : Prop :=
  ∀ id ∈ w.mgr.fullSet, o.totalSlots ≤ (w.segs id).appendCursor

theorem markSegmentFullInternal_full {m : SegmentManager} {id j : ℕ}
    (hj : j ∈ (markSegmentFullInternal o m id).fullSet) : j = id ∨ j ∈ m.fullSet := by
  unfold markSegmentFullInternal at hj
  split_ifs at hj
  · exact Or.inr hj
  · exact mem_insert.mp hj
  · exact Or.inr hj

theorem cursor_of_not_free {segs : ℕ → SegmentBase} {id : ℕ}
    (h : ¬ (segs id).getFreeSlots o.segmentConfig > 0) :
    o.totalSlots ≤ (segs id).appendCursor := by
  unfold SegmentBase.getFreeSlots at h
  unfold Options.totalSlots
  omega

theorem scanAppending_full {m : SegmentManager} (segs : ℕ → SegmentBase) (l : List ℕ) {j : ℕ}
    (hj : j ∈ (scanAppending o segs l m).2.fullSet) :
    o.totalSlots ≤ (segs j).appendCursor ∨ j ∈ m.fullSet := by
  induction l generalizing m with
  | nil =>
    right
    unfold scanAppending promoteIdleSegment at hj
    split at hj <;> exact hj
  | cons id l ih =>
    unfold scanAppending at hj
    split_ifs at hj with hfree
    · exact Or.inr hj
    · rcases ih hj with hcursor | hmarked
      · exact Or.inl hcursor
      · rcases markSegmentFullInternal_full hmarked with rfl | hfull
        · exact Or.inl (cursor_of_not_free hfree)
        · exact Or.inr hfull

theorem chooseActive_full {m : SegmentManager} (segs : ℕ → SegmentBase) {j : ℕ}
    (hj : j ∈ (chooseActive o segs m).2.fullSet) :
    o.totalSlots ≤ (segs j).appendCursor ∨ j ∈ m.fullSet := by
  unfold chooseActive scanFrom at hj
  split at hj
  · exact scanAppending_full segs [] hj
  · rename_i first rest horder
    refine scanAppending_full segs (first :: staleIds o m) ?_
    rw [scanAppending]
    exact hj

theorem reclassify_mem_full {src active j : ℕ} (hj : j ∈ (reclassify o src active w).mgr.fullSet) :
    j ≠ src ∧ j ∈ w.mgr.fullSet ∨ j = active ∧ (w.segs active).state = .full := by
  unfold reclassify at hj
  split_ifs at hj with hfull
  · rcases mem_insert.mp hj with rfl | hj
    · exact Or.inr ⟨rfl, hfull⟩
    · exact Or.inl (mem_erase.mp hj)
  · exact Or.inl (mem_erase.mp hj)

theorem spent_shift (h : Spent o w) (htally : Tally o w') (hshift : Shift o w w') : Spent o w' := by
  intro j hj
  cases hshift with
  | frame hmgr hsegs =>
    rw [hmgr] at hj
    rw [hsegs]
    exact h j hj
  | activate hmgr hsegs =>
    rw [hmgr] at hj
    rw [hsegs]
    exact (chooseActive_full w.segs hj).elim id (h j)
  | mark id _ hfull hmgr hsegs =>
    rw [hmgr] at hj
    rw [hsegs]
    rcases markSegmentFullInternal_full hj with rfl | hj
    · exact hfull
    · exact h j hj
  | insert id _ hroom hmgr hsegs =>
    rw [hmgr] at hj
    have hne : j ≠ id := by
      rintro rfl
      exact absurd hroom (Nat.not_lt.mpr (h j hj))
    rw [hsegs, Function.update_of_ne hne]
    exact h j hj
  | delete id sid _ hmgr hsegs =>
    rw [hmgr] at hj
    rw [hsegs]
    by_cases hji : j = id
    · rw [hji, Function.update_self]
      simpa [deletedSegment] using h id (hji ▸ hj)
    · rw [Function.update_of_ne hji]
      exact h j hj
  | reclaim src active _ _ hmgr hsegs =>
    rw [hmgr] at hj
    rcases reclassify_mem_full hj with ⟨hne, hj⟩ | ⟨rfl, hfull⟩
    · rw [hsegs, Function.update_of_ne hne]
      exact h j hj
    · exact ((htally j).full_iff.mp hfull).1.ge

theorem shifts_invariant {I : World K → Prop} (hstep : ∀ w w', I w → Shift o w w' → I w')
    (h : I w) (hshifts : ReflTransGen (Shift o) w w') : I w' := by
  induction hshifts with
  | refl => exact h
  | tail _ hshift ih => exact hstep _ _ ih hshift

end ParaKV.Segment.Accounting
