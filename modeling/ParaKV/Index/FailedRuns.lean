/- GID: ParaKV/Index/FailedRuns
   source: parakv/core/index/index.cc, parakv/core/segment/segment_file.cc,
     parakv/core/segment/segment_manager.cc
   digest: Runs in which any file operation can fail, and what failed calls change in them. -/

import ParaKV.Index.FailedCalls
import ParaKV.Index.FailedCheckpoint

/-!
A compaction that fails in the middle leaves moved and unmoved slots behind, and every key refers
to one of them. The source is reset only when no key refers to it any more.

The start is where the property can be lost: the map comes from the log and the snapshot, the
occupied slots come from the bitmaps, and nothing compares the two.
-/

set_option autoImplicit false

namespace ParaKV.Index.FailedRuns

open Lib.TracedProgram Lib.LogMap Index.Key Index.Operations Index.Runs Index.FailedCalls
open Index.FailedCheckpoint (outcomes)
open Segment Segment.Base Segment.Manager Segment.ManagerSpec Segment.FileSpec Segment.Faults
open Core.State

variable {K : Type} [DecidableEq K] [KeyType K] {o : Options} {x y : Mem K}

/-! Compaction. -/

/-- The slots of the source below `i` have been moved to the target. -/
structure Moving (o : Options) (m : SegmentManager) (src target c i : ℕ) (x : Mem K) : Prop where
  sound : Sound o x
  mgr : x.mgr = m
  source : src < o.segmentCount
  destination : target < o.segmentCount
  cursor : (x.segs src).appendCursor = c
  moved : ∀ k, ∀ j < i, x.map.lookup k ≠ some (encodeSegmentSlot src j)

section Moving

variable {m : SegmentManager} {src target c i : ℕ}

theorem Moving.slot_inj (h : Moving o m src target c i x) (hadm : o.Admissible K) (hi : i < c)
    {s j : ℕ} (hs : s < o.segmentCount) (hj : j < o.totalSlots)
    (heq : encodeSegmentSlot src i = encodeSegmentSlot s j) : src = s ∧ i = j := by
  have hbound := h.sound.bound src h.source
  rw [h.cursor] at hbound
  exact encodeSegmentSlot_inj (lt_of_lt_of_le h.source hadm.segments)
    (lt_of_lt_of_le (lt_of_lt_of_le hi hbound) hadm.slots) (lt_of_lt_of_le hs hadm.segments)
    (lt_of_lt_of_le hj hadm.slots) heq

theorem Moving.key_eq (h : Moving o m src target c i x) (hadm : o.Admissible K) (hi : i < c) {k : K}
    (hk : x.map.lookup k = some (encodeSegmentSlot src i)) :
    (x.segs src).bitmap i = true ∧ (x.slots src i).key = toBytes k := by
  obtain ⟨s, hs, j, hj, heq, hbit, hkey⟩ := h.sound.anchored k _ hk
  obtain ⟨rfl, rfl⟩ := h.slot_inj hadm hi hs hj heq
  exact ⟨hbit, hkey⟩

theorem Moving.skip (h : Moving o m src target c i x) (hadm : o.Admissible K) (hi : i < c)
    (hbit : (x.segs src).bitmap i = false) : Moving o m src target c (i + 1) x := by
  refine { h with moved := fun k j hj hk => ?_ }
  rcases Nat.lt_succ_iff_lt_or_eq.mp hj with hj | rfl
  · exact h.moved k j hj hk
  · rw [(h.key_eq hadm hi hk).1] at hbit
    cases hbit

/-- The copy is made, then the key in it is taken to the copy if it referred to the original. -/
theorem Moving.remapped (h : Moving o m src target c i x) (hadm : o.Admissible K)
    (hne : target ≠ src) (hi : i < c)
    (hmgr : y.mgr = m) (hy : Added o x y target (x.slots src i)) :
    Moving o m src target c (i + 1) { y with
      map := if y.map.lookup (ofBytes (x.slots src i).key) = some (encodeSegmentSlot src i)
        then y.map.insert (ofBytes (x.slots src i).key)
          (encodeSegmentSlot target (x.segs target).appendCursor)
        else y.map } := by
  set key : K := ofBytes (x.slots src i).key with hkeydef
  set a := encodeSegmentSlot target (x.segs target).appendCursor with ha
  have hsound := hy.sound h.sound
  have hcursor : (y.segs src).appendCursor = c := by
    rw [hy.segs, Function.update_of_ne hne.symm, h.cursor]
  have hbound := h.sound.bound src h.source
  rw [h.cursor] at hbound
  have hnew : ∀ j < i + 1, a ≠ encodeSegmentSlot src j := by
    intro j hj heq
    exact hne (encodeSegmentSlot_inj (lt_of_lt_of_le h.destination hadm.segments)
      (lt_of_lt_of_le hy.room hadm.slots) (lt_of_lt_of_le h.source hadm.segments)
      (lt_of_lt_of_le (show j < o.totalSlots by omega) hadm.slots) heq).1
  have hold : ∀ k, ∀ j < i + 1, y.map.lookup k = some (encodeSegmentSlot src j) → k = key ∧
      y.map.lookup key = some (encodeSegmentSlot src i) := by
    intro k j hj hk
    rw [hy.map] at hk ⊢
    rcases Nat.lt_succ_iff_lt_or_eq.mp hj with hj | rfl
    · exact absurd hk (h.moved k j hj)
    · have hk' : k = key := by rw [hkeydef, (h.key_eq hadm hi hk).2, ofBytes_toBytes]
      exact ⟨hk', hk' ▸ hk⟩
  split_ifs with hremap
  · have hbytes : (x.slots src i).key = toBytes key :=
      (h.key_eq hadm hi (by rw [← hy.map]; exact hremap)).2
    refine ⟨hsound.insert_entry h.destination hy.room hy.occupied
        (by rw [hy.new]; exact hbytes), hmgr,
      h.source, h.destination, hcursor, fun k j hj hk => ?_⟩
    have hlookup : (y.map.insert key a).lookup k = some (encodeSegmentSlot src j) := hk
    rw [lookup_insert_eq] at hlookup
    split_ifs at hlookup with hkk
    · exact hnew j hj (Option.some.inj hlookup)
    · exact hkk (hold k j hj hlookup).1
  · refine ⟨hsound, hmgr, h.source, h.destination, hcursor, fun k j hj hk => ?_⟩
    exact hremap (hold k j hj hk).2

def Goes (o : Options) (m : SegmentManager) (P : Mem K → Prop) (st : Option Status)
    (w : World K) : Prop :=
  ∃ y, At y w ∧ Sound o y ∧ y.mgr = m ∧ (st = some .ok → P y)

theorem compactSlot_any (hadm : o.Admissible K) (h : Moving o m src target c i x) (hi : i < c) :
    Ensures (At x) (File.compactSlot o src target (slotMoved o) i)
      (Goes o m (Moving o m src target c (i + 1))) := by
  refine .inspect fun w hw => ?_
  have hslot : (w.disk.images src).slots i = x.slots src i := by
    rw [← show mem w = x from hw]
    rfl
  rw [hslot]
  have hstop : ∀ {st : Option Status} {w : World K}, st ≠ some .ok → At x w →
      Goes o m (Moving o m src target c (i + 1)) st w :=
    fun hst hw => ⟨x, hw, h.sound, h.mgr, fun hok => absurd hok hst⟩
  refine probe_any.bind fun st => ?_
  refine .ite (fun hst => .ret fun t ht => hstop (by simpa using hst) ht) fun _ =>
    probe_any.bind fun st => ?_
  refine .ite (fun hst => .ret fun t ht => hstop (by simpa using hst) ht) fun _ => ?_
  refine .ite (fun _ => .ret fun t ht => hstop (by simp) ht) fun hne => ?_
  refine (insert_beside h.sound (.refl h.sound) h.destination _ _).bind fun r => .given fun y =>
    .fact fun hr => ?_
  obtain ⟨st, newSlot⟩ := r
  obtain ⟨hmgr, ⟨hfail, hy⟩ | ⟨hok, hy⟩⟩ := hr
  · refine .ite (fun _ => .ret fun t ht => ?_) fun hok => absurd hok (not_not.mpr hfail)
    exact ⟨y, ht, hy.sound h.sound, hmgr.trans h.mgr, fun hok => absurd (Option.some.inj hok) hfail⟩
  · obtain ⟨rfl, rfl⟩ := Prod.mk.inj hok
    refine .ite (fun h => absurd rfl h) fun _ => ?_
    have hmoved := h.remapped hadm hne hi (hmgr.trans h.mgr) hy
    have hcallback : Ensures (At y) (slotMoved o (x.slots src i).key src i target
        (x.segs target).appendCursor) fun _ => At { y with
      map := if y.map.lookup (ofBytes (x.slots src i).key) = some (encodeSegmentSlot src i)
        then y.map.insert (ofBytes (x.slots src i).key)
          (encodeSegmentSlot target (x.segs target).appendCursor)
        else y.map } := by
      refine .inspect fun before _ => (appendWal_any _).bind fun _ => ?_
      refine Ensures.bind (setMap_any (fun map =>
        if map.lookup (ofBytes (x.slots src i).key) = some (encodeSegmentSlot src i)
        then map.insert (ofBytes (x.slots src i).key)
          (encodeSegmentSlot target (x.segs target).appendCursor)
        else map) rfl) fun _ => ?_
      exact fun _ _ h => h
    exact hcallback.bind fun _ =>
      .ret fun t ht => ⟨_, ht, hmoved.sound, hmoved.mgr, fun _ => hmoved⟩

theorem compactLoop_any (hadm : o.Admissible K) (n i : ℕ) (hc : i + n = c)
    (h : Moving o m src target c i x) :
    Ensures (At x) (File.compactLoop o src target (slotMoved o) n i)
      (Goes o m (Moving o m src target c c)) := by
  induction n generalizing i x with
  | zero =>
    obtain rfl : i = c := by omega
    exact .ret fun t ht => ⟨x, ht, h.sound, h.mgr, fun _ => h⟩
  | succ n ih =>
    have hi : i < c := by omega
    refine .inspect fun w hw => ?_
    have hsegs : w.segs = x.segs := congrArg Mem.segs hw
    rw [hsegs]
    refine .ite (fun hbit => ?_) fun _ => ?_
    · exact ih (i + 1) (by omega) (h.skip hadm hi (by simpa using hbit))
    · refine (compactSlot_any hadm h hi).bind fun st => .given fun y => .fact fun hy => ?_
      refine .ite (fun hst => .ret fun t ht => ?_) fun hst => ?_
      · exact ⟨y, ht, hy.1, hy.2.1, fun hok => absurd hok hst⟩
      · exact ih (i + 1) (by omega) (hy.2.2 (not_not.mp hst))

theorem Moving.reset (h : Moving o m src target c c x) :
    Sound o { x with segs := Function.update x.segs src (x.segs src).resetBitmap } where
  mgr := h.sound.mgr
  isOpen j hj := by
    have hopen := h.sound.isOpen j hj
    by_cases hjs : j = src
    · subst hjs
      simpa [SegmentBase.resetBitmap] using hopen
    · simpa [hjs] using hopen
  below j hj i hi hbit := by
    by_cases hjs : j = src
    · subst hjs
      simp [SegmentBase.resetBitmap] at hbit
    · simp only [Function.update_of_ne hjs] at hbit ⊢
      exact h.sound.below j hj i hi hbit
  bound j hj := by
    have hbound := h.sound.bound j hj
    by_cases hjs : j = src
    · subst hjs
      simp [SegmentBase.resetBitmap]
    · simpa [hjs] using hbound
  anchored := by
    intro k a hk
    obtain ⟨s, hs, i, hi, rfl, hbit, hkey⟩ := h.sound.anchored k a hk
    have hne : s ≠ src := by
      rintro rfl
      have hlt := h.sound.below s hs i hi hbit
      rw [h.cursor] at hlt
      exact h.moved k i hlt hk
    exact ⟨s, hs, i, hi, rfl, by simpa [hne] using hbit, hkey⟩

theorem compact_any (hadm : o.Admissible K)
    (h : Moving o m src target (x.segs src).appendCursor 0 x) :
    Ensures (At x) (File.compact o src target (slotMoved o)) (Goes o m fun _ => True) := by
  refine .inspect fun w hw => ?_
  have hsegs : w.segs = x.segs := congrArg Mem.segs hw
  rw [hsegs]
  refine .ite (fun _ => .ret fun t ht => ?_) fun _ => ?_
  · exact ⟨x, ht, h.sound, h.mgr, fun _ => trivial⟩
  refine (compactLoop_any hadm _ 0 (Nat.zero_add _) h).bind fun st => .given fun y =>
    .fact fun hy => ?_
  refine .ite (fun hst => .ret fun t ht => ?_) fun hst => ?_
  · exact ⟨y, ht, hy.1, hy.2.1, fun _ => trivial⟩
  · have hend := hy.2.2 (not_not.mp hst)
    have hreset : Ensures (At y) (File.resetSegment o src) fun _ => At { y with
        segs := Function.update y.segs src (y.segs src).resetBitmap } :=
      (setSegment_any src (·.resetBitmap) rfl).bind fun _ => flushBitmap_any src
    exact fun io t ht => ⟨_, hreset io t ht, hend.reset, hy.2.1, fun _ => trivial⟩

end Moving

theorem reclassify_sound {w : World K} (hx : Sound o (mem w)) {src active : ℕ}
    (hsrc : src ∈ w.mgr.fullSet) (hactive : active < o.segmentCount) :
    Sound o (mem (reclassify o src active w)) := by
  have hmgr := reclassify_ok hx.mgr (hx.mgr.full src hsrc) ((hx.mgr.segments active).mpr hactive)
  exact ⟨hmgr, hx.isOpen, hx.below, hx.bound, hx.anchored⟩

theorem compactCandidates_any (hadm : o.Admissible K) (l : List ℕ) (hx : Sound o x)
    (hfull : ∀ id ∈ l, id ∈ x.mgr.fullSet) (hnodup : l.Nodup) :
    Ensures (At x) (compactCandidates o (slotMoved o) l) fun _ w => Sound o (mem w) := by
  induction l generalizing x with
  | nil => exact .ret fun w hw => (show mem w = x from hw) ▸ hx
  | cons src rest ih =>
    obtain ⟨hsrc, hrest⟩ := List.nodup_cons.mp hnodup
    obtain ⟨hok, hstay, hactive⟩ := chooseActive_ok (o := o) (x := x) hx.mgr
    refine (getActiveSegment_any.weaken (fun _ h => h) fun r w h => ⟨h.2, h.1⟩).bind
      fun r => .fact fun hr => ?_
    generalize (chooseActive o x.segs x.mgr).2 = m at hok hstay ⊢
    have hy : Sound o { x with mgr := m } := ⟨hok, hx.isOpen, hx.below, hx.bound, hx.anchored⟩
    cases r with
    | none => exact .ret fun w hw => (show mem w = _ from hw) ▸ hy
    | some active =>
      have hlt := hactive active hr.symm
      have hsrcfull : src ∈ m.fullSet := hstay src (hfull src (by simp))
      refine .inspect fun w hw => .ite (fun hout => ?_) fun _ => ?_
      · rw [show w.mgr = m from congrArg Mem.mgr hw] at hout
        exact absurd (hok.full src hsrcfull) hout
      have hmoving : Moving o m src active (x.segs src).appendCursor 0 { x with mgr := m } :=
        ⟨hy, rfl, (hok.segments src).mp (hok.full src hsrcfull), hlt, rfl,
          fun _ _ h => absurd h (Nat.not_lt_zero _)⟩
      refine (compact_any hadm hmoving).bind fun st => .given fun y => .fact fun h => ?_
      obtain ⟨hsound, rfl, -⟩ := h
      refine .ite (fun _ => .ret fun t ht => (show mem t = y from ht) ▸ hsound) fun _ => ?_
      have hchange : Ensures (At y) (modify (reclassify o src active) : M K PUnit) fun _ w =>
          ∃ z, At z w ∧ Sound o z ∧ ∀ id ∈ rest, id ∈ z.mgr.fullSet := by
        refine .change fun t ht => ⟨_, rfl, ?_, fun id hid => ?_⟩
        · have ht : mem t = y := ht
          subst ht
          exact reclassify_sound hsound hsrcfull hlt
        · have ht : mem t = y := ht
          subst ht
          exact reclassify_full (hstay id (hfull id (List.mem_cons_of_mem _ hid)))
            fun heq => hsrc (heq ▸ hid)
      exact hchange.bind fun _ => .given fun z => .fact fun hz => ih hz.1 hz.2 hrest

theorem runAttachedCompaction_any (hadm : o.Admissible K) (hx : Sound o x) :
    Ensures (At x) (runAttachedCompaction o) fun _ w => Sound o (mem w) := by
  refine .inspect fun w hw => ?_
  have hw : mem w = x := hw
  subst hw
  exact compactCandidates_any hadm _ hx (fun _ hid => candidates_full hid) (candidates_nodup w)

/-! The start. -/

structure Ready (o : Options) (s : SegmentBase) : Prop where
  isOpen : s.isOpen = true
  below : ∀ i < o.totalSlots, s.bitmap i = true → i < s.appendCursor
  bound : s.appendCursor ≤ o.totalSlots

theorem ready_opened {s : SegmentBase} (hopen : s.isOpen = true) (bitmap : ℕ → Bool) :
    Ready o ({ s with
      bitmap := bitmap
      usedSlots := (File.rebuildCounters o.totalSlots bitmap).1
      appendCursor := (File.rebuildCounters o.totalSlots bitmap).2
      deletedSlots := (File.rebuildCounters o.totalSlots bitmap).2 -
        (File.rebuildCounters o.totalSlots bitmap).1 }.updateState o.segmentConfig) := by
  obtain ⟨hbelow, hbound⟩ := rebuildCounters_cursor o.totalSlots bitmap
  unfold SegmentBase.updateState
  split_ifs
  all_goals exact ⟨hopen, hbelow, hbound⟩

theorem ready_reset {s : SegmentBase} (hopen : s.isOpen = true) : Ready o s.resetBitmap :=
  ⟨hopen, fun _ _ h => absurd h Bool.false_ne_true, Nat.zero_le _⟩

/-- The manager and the other segments are as they were. -/
def Opening (m : SegmentManager) (segs : ℕ → SegmentBase) (id : ℕ) (w : World K) : Prop :=
  w.mgr = m ∧ ∀ j, j ≠ id → w.segs j = segs j

theorem syscall_any {K : Type} {P : World K → Prop} {f : World K → World K}
    (h : ∀ w, P w → P (f w)) :
    Ensures P (syscall f) fun _ => P := by
  refine Ensures.draw.bind fun outcome => ?_
  cases outcome with
  | ok =>
    refine (Ensures.change (R := fun _ => P) h).bind fun _ => ?_
    exact fun _ _ h => h
  | fail n => exact .ret fun _ h => h

theorem flushBitmap_keeps {K : Type} {P : Mem K → Prop} (id : ℕ) :
    Ensures (fun w => P (mem w)) (File.flushBitmap o id) fun _ w => P (mem w) := by
  intro io w hw
  have hsame := flushBitmap_any (o := o) (x := mem w) id io w rfl
  rw [show mem _ = mem w from hsame]
  exact hw

section Opening

variable {m : SegmentManager} {segs : ℕ → SegmentBase} {id : ℕ}

theorem Opening.setSegment {K : Type} {w : World K} (h : Opening m segs id w) (s : SegmentBase) :
    Opening m segs id (w.setSegment id s) :=
  ⟨h.1, fun j hj => by rw [← h.2 j hj]; simp [World.setSegment, hj]⟩

theorem openSegment_any {K : Type} (m : SegmentManager) (segs : ℕ → SegmentBase) (id : ℕ) :
    Ensures (fun w : World K => Opening m segs id w ∧ (w.segs id).isOpen = false)
      (File.openSegment o id) fun st w =>
        Opening m segs id w ∧ (st = .ok → Ready o (w.segs id)) := by
  have hclose : ∀ st : Status, st ≠ .ok → Ensures (Opening m segs id : World K → Prop)
      (do modify (File.closeDescriptor id); return st : M K Status) fun st w =>
        Opening m segs id w ∧ (st = .ok → Ready o (w.segs id)) := by
    intro st hst
    refine Ensures.bind (Ensures.change (R := fun _ => Opening m segs id) fun w hw =>
      hw.setSegment _) fun _ => .ret fun w hw => ⟨hw, fun hok => absurd hok hst⟩
  refine .inspect fun w hw => .ite (fun hopen => ?_) fun _ => ?_
  · rw [hw.2] at hopen
    cases hopen
  refine (syscall_any fun w hw => ?_).bind fun st => ?_
  · split_ifs
    · exact hw
    · exact hw
  refine .ite (fun _ => .ret fun w hw => ⟨hw.1, fun h => Status.noConfusion h⟩) fun _ => ?_
  have hopened : ∀ w : World K, Opening m segs id w → Opening m segs id (w.setSegment id
      { w.segs id with isOpen := true }) ∧
      ((w.setSegment id { w.segs id with isOpen := true }).segs id).isOpen = true :=
    fun w hw => ⟨hw.setSegment _, by simp [World.setSegment]⟩
  refine Ensures.bind (Ensures.change (R := fun _ (w : World K) => Opening m segs id w ∧
    (w.segs id).isOpen = true) fun w hw => hopened w hw.1) fun _ => ?_
  refine .ite (fun _ => .inspect fun w₁ _ => probe_any.bind fun st => ?_) fun _ => ?_
  · refine .ite (fun hbad => ?_) fun _ => ?_
    · refine (hclose _ ?_).weaken (fun _ h => h.1) fun _ _ h => h
      split_ifs with hst
      · exact hst
      · decide
    · refine Ensures.bind (Ensures.change (R := fun _ (w : World K) => Opening m segs id w ∧
        Ready o (w.segs id)) fun w hw => ⟨hw.1.setSegment _, ?_⟩) fun _ =>
          .ret fun w hw => ⟨hw.1, fun _ => hw.2⟩
      simpa [World.setSegment, File.rebuildCounters] using
        ready_opened (o := o) hw.2 (w₁.disk.images id).bitmap
  · refine Ensures.bind (syscall_any fun w hw => ?_) fun st => .ite (fun _ => ?_) fun _ => ?_
    · exact hw
    · exact (hclose _ (by decide)).weaken (fun _ h => h.1) fun _ _ h => h
    refine Ensures.bind (Ensures.change (R := fun _ (w : World K) => Opening m segs id w ∧
      Ready o (w.segs id)) fun w hw => ⟨hw.1.setSegment _, ?_⟩) fun _ => ?_
    · simpa [World.setSegment] using ready_reset hw.2
    refine Ensures.bind (flushBitmap_keeps (P := fun x : Mem K =>
      (x.mgr = m ∧ ∀ j, j ≠ id → x.segs j = segs j) ∧ Ready o (x.segs id)) id) fun st =>
        .ite (fun hst => ?_) fun _ => .ret fun w hw => ⟨hw.1, fun _ => hw.2⟩
    exact (hclose st hst).weaken (fun _ h => h.1) fun _ _ h => h

end Opening

/-- The segments opened so far are registered and ready, the others closed. -/
structure Raised (o : Options) (ids : List ℕ) (w : World K) : Prop where
  classified : Classified w.mgr
  segments : ∀ id, id ∈ w.mgr.segments ↔ id ∈ ids
  ready : ∀ id ∈ ids, Ready o (w.segs id)
  closed : ∀ id, id ∉ ids → (w.segs id).isOpen = false

theorem addSegment_any {K : Type} {ids : List ℕ} {id : ℕ} (hid : id ∉ ids) :
    Ensures (fun w : World K => Classified w.mgr ∧ (∀ j, j ∈ w.mgr.segments ↔ j ∈ ids) ∧
        (∀ j ∈ id :: ids, Ready o (w.segs j)) ∧ ∀ j, j ∉ id :: ids → (w.segs j).isOpen = false)
      (addSegment o id) fun _ => Raised o (id :: ids) := by
  refine .read fun w hw => ?_
  obtain ⟨hclass, hsegments, hready, hclosed⟩ := hw
  have hreg : id ∉ w.mgr.segments := fun h => hid ((hsegments id).mp h)
  refine .ite (fun h => absurd h hreg) fun _ => ?_
  refine Ensures.bind (Ensures.change (R := fun _ => Raised o (id :: ids)) fun t ht => ?_)
    fun _ => .ret fun _ h => h
  subst ht
  refine ⟨classified_addSegment hclass hreg _, fun j => ?_, hready, hclosed⟩
  rw [classify_segments, Lib.HashOrder.UnorderedSet.mem_insert, hsegments, List.mem_cons]

theorem openSegments_any {K : Type} (ids done : List ℕ) (hnodup : (ids.reverse ++ done).Nodup) :
    Ensures (Raised o done : World K → Prop) (openSegments o ids) fun st w =>
      st = .ok → Raised o (ids.reverse ++ done) w := by
  induction ids generalizing done with
  | nil => exact .ret fun w hw _ => hw
  | cons id ids ih =>
    have hnodup' : (ids.reverse ++ id :: done).Nodup := by simpa using hnodup
    have hnew : id ∉ done := (List.nodup_cons.mp (List.nodup_append.mp hnodup').2.1).1
    have hopen : Ensures (Raised o done : World K → Prop) (File.openSegment o id) fun st w =>
        st = .ok → Classified w.mgr ∧ (∀ j, j ∈ w.mgr.segments ↔ j ∈ done) ∧
          (∀ j ∈ id :: done, Ready o (w.segs j)) ∧
            ∀ j, j ∉ id :: done → (w.segs j).isOpen = false := by
      intro io w hw hok
      obtain ⟨⟨hmgr, hothers⟩, hready⟩ := openSegment_any (o := o) w.mgr w.segs id io w
        ⟨⟨rfl, fun _ _ => rfl⟩, hw.closed id hnew⟩
      refine ⟨hmgr ▸ hw.classified, fun j => by rw [hmgr]; exact hw.segments j,
        fun j hj => ?_, fun j hj => ?_⟩
      · by_cases hji : j = id
        · rw [hji]
          exact hready hok
        · rw [hothers j hji]
          exact hw.ready j (by simpa [hji] using hj)
      · have hji : j ≠ id ∧ j ∉ done := by simpa using hj
        rw [hothers j hji.1]
        exact hw.closed j hji.2
    refine hopen.bind fun st => .ite (fun hst => .ret fun w _ hok => absurd hok hst) fun hst => ?_
    refine Ensures.bind (Ensures.weaken (addSegment_any hnew)
      (fun w hw => hw (not_not.mp hst)) fun _ _ h => h) fun st' => ?_
    refine .ite (fun hst' => .ret fun w _ hok => absurd hok hst') fun _ => ?_
    refine (ih (id :: done) hnodup').weaken (fun _ h => h) fun st w h hok => ?_
    have hend := h hok
    simpa using hend

theorem loadState_any {K : Type} {segs : ℕ → SegmentBase} :
    Ensures (fun w : World K => ManagerOk o w.mgr ∧ w.segs = segs) (loadState o) fun _ w =>
      ManagerOk o w.mgr ∧ w.segs = segs := by
  refine .inspect fun w₀ _ => ?_
  cases w₀.disk.managerState with
  | none => exact .ret fun _ h => h
  | some file =>
    refine .ite (fun _ => .ret fun _ h => h) fun _ => probe_any.bind fun st => ?_
    refine .ite (fun _ => .ret fun _ h => h) fun _ => probe_any.bind fun st => ?_
    refine .ite (fun _ => .ret fun _ h => h) fun _ => ?_
    cases parseState file with
    | none => exact .ret fun _ h => h
    | some saved =>
      refine Ensures.bind (Ensures.change (R := fun _ (w : World K) =>
        ManagerOk o w.mgr ∧ w.segs = segs) fun w hw => ?_) fun _ => .ret fun _ h => h
      exact ⟨applyState_ok w.segs hw.1 saved, hw.2⟩

def Objects (m : SegmentManager) (segs : ℕ → SegmentBase) (w : World K) : Prop :=
  w.mgr = m ∧ w.segs = segs

section Objects

variable {m : SegmentManager} {segs : ℕ → SegmentBase}

theorem change_objects {K : Type} {f : World K → World K}
    (h : ∀ w, Objects m segs w → Objects m segs (f w)) :
    Ensures (Objects m segs) (modify f : M K PUnit) fun _ => Objects m segs :=
  .change h

theorem openSnapshot_any {K : Type} :
    Ensures (Objects m segs : World K → Prop) (openSnapshot o) fun _ => Objects m segs := by
  refine .ite (fun _ => .ret fun _ h => h) fun _ => .inspect fun w _ => ?_
  cases w.disk.snapshot with
  | none => exact .ret fun _ h => h
  | some file =>
    refine probe_any.bind fun st => .ite (fun _ => .ret fun _ h => h) fun _ => ?_
    cases file with
    | corrupt => exact .ret fun _ h => h
    | dump map => exact (change_objects fun _ h => h).bind fun _ => .ret fun _ h => h

theorem replayWal_any (file : Bytes) :
    Ensures (Objects m segs : World K → Prop) (replayWal file) fun _ => Objects m segs := by
  refine Ensures.draw.bind fun outcome => ?_
  cases outcome with
  | ok => exact (change_objects fun _ h => h).bind fun _ => .ret fun _ h => h
  | fail n => exact (change_objects fun _ h => h).bind fun _ => .ret fun _ h => h

theorem openLog_any :
    Ensures (Objects m segs : World K → Prop) openLog fun _ => Objects m segs := by
  refine .inspect fun w _ => ?_
  cases w.disk.wal with
  | none => exact .ret fun _ h => h
  | some file =>
    refine probe_any.bind fun st => .ite (fun _ => .ret fun _ h => h) fun _ => ?_
    refine (replayWal_any file).bind fun r => .ite (fun _ => .ret fun _ h => h) fun _ => ?_
    refine Ensures.bind (syscall_any fun w hw => hw) fun st => ?_
    exact .ite (fun _ => .ret fun _ h => h) fun _ => .ret fun _ h => h

theorem openWriter_any {K : Type} :
    Ensures (Objects m segs : World K → Prop) openWriter fun _ => Objects m segs := by
  have hopen : Ensures (Objects m segs : World K → Prop) (walOpen false)
      fun _ => Objects m segs := by
    refine Ensures.bind (syscall_any fun w hw => hw) fun st => ?_
    refine .ite (fun _ => .ret fun _ h => h) fun _ => probe_any.bind fun st => ?_
    exact .ite (fun _ => .ret fun _ h => h) fun _ => .inspect fun _ _ => .ret fun _ h => h
  refine hopen.bind fun r => Ensures.bind (change_objects fun _ h => h) fun _ => ?_
  refine .ite (fun _ => .ret fun _ h => h) fun _ => ?_
  exact (change_objects fun _ h => h).bind fun _ => .ret fun _ h => h

theorem openIndex_any (m : SegmentManager) (segs : ℕ → SegmentBase) :
    Ensures (Objects m segs : World K → Prop) (openIndex o) fun _ => Objects m segs := by
  refine .inspect fun w _ => .ite (fun _ => .ret fun _ h => h) fun _ => ?_
  refine Ensures.bind (change_objects fun _ h => h) fun _ => ?_
  refine .ite (fun _ => .ret fun _ h => h) fun _ => openSnapshot_any.bind fun st => ?_
  refine .ite (fun _ => .ret fun _ h => h) fun _ => .ite (fun _ => .ret fun _ h => h) fun _ => ?_
  exact openLog_any.bind fun st => .ite (fun _ => .ret fun _ h => h) fun _ => openWriter_any

end Objects

theorem raised_boot {K : Type} (d : Disk K) : Raised o [] (World.boot d) where
  classified := by
    refine ⟨⟨?_, ?_, ?_⟩, ?_, ?_, ?_⟩
    all_goals exact fun j hj => absurd hj (List.not_mem_nil)
  segments id := Iff.rfl
  ready id hid := absurd hid List.not_mem_nil
  closed id _ := rfl

theorem openStore_any (d : Disk K) :
    Ensures (fun w => w = World.boot d) (openStore o) fun st w =>
      st = .ok → ManagerOk o w.mgr ∧ ∀ id < o.segmentCount, Ready o (w.segs id) := by
  have hnodup : ((List.range o.segmentCount).reverse ++ []).Nodup := by
    simpa using List.nodup_range
  refine Ensures.weaken (P := Raised o []) ?_ (fun w hw => hw ▸ raised_boot d) fun _ _ h => h
  refine (openSegments_any _ _ hnodup).bind fun st => ?_
  refine .ite (fun hst => .ret fun w _ hok => absurd hok hst) fun hst => ?_
  refine Ensures.bind (Q := fun _ (w : World K) => ∃ segs, (ManagerOk o w.mgr ∧ w.segs = segs) ∧
    ∀ id < o.segmentCount, Ready o (segs id)) ?_ fun _ => .given fun segs => .fact fun hready => ?_
  · intro io w hw
    have hraised := hw (not_not.mp hst)
    have hmem : ∀ id, id ∈ (List.range o.segmentCount).reverse ++ [] ↔ id < o.segmentCount := by
      simp
    exact ⟨w.segs, loadState_any io w ⟨⟨hraised.classified.toRegistered, fun id =>
      (hraised.segments id).trans (hmem id)⟩, rfl⟩, fun id hid =>
        hraised.ready id ((hmem id).mpr hid)⟩
  · intro io w hw _
    obtain ⟨hmgr, hsegs⟩ := openIndex_any (o := o) w.mgr w.segs io w ⟨rfl, rfl⟩
    rw [hmgr, hsegs, hw.2]
    exact ⟨hw.1, hready⟩

theorem openStore_sound {d : Disk K} {io : ℕ → IoOutcome}
    (hok : (openStore o io (World.boot d)).val = .ok)
    (hanchored : Anchored o (mem (openStore o io (World.boot d)).state)) :
    Sound o (mem (openStore o io (World.boot d)).state) := by
  obtain ⟨hmgr, hready⟩ := openStore_any (o := o) d io _ rfl hok
  exact ⟨hmgr, fun id hid => (hready id hid).isOpen, fun id hid => (hready id hid).below,
    fun id hid => (hready id hid).bound, hanchored⟩

/-! Runs. -/

/-- The stores reached from an empty directory when any file operation can fail and the process
can stop at any point. `SaveState` may have replaced the state file before it stops. What a start
makes of the files it finds satisfies `fit`. -/
inductive Reached (o : Options) (fit : World K → Prop) : Store K → Prop
  | initial (file : Option Bytes) : Reached o fit (.initial K file)
  | complete {s s' : Store K} (op : Op K) (io : ℕ → IoOutcome) (h : Reached o fit s)
      (henabled : s.enabled op = true)
      (hfit : op = .start → (openStore o io s.world).val = .ok →
        fit (openStore o io s.world).state)
      (hend : Store.settle op (op.program o io s.world) = some s') : Reached o fit s'
  | crash {s : Store K} (file : Option Bytes) (h : Reached o fit s) :
      Reached o fit (.stopped { s.world.disk with managerState := file })
  | crashIn {s : Store K} (op : Op K) (io : ℕ → IoOutcome) (e : Event K) (h : Reached o fit s)
      (henabled : s.enabled op = true) (he : e ∈ (op.program o io s.world).trace) :
      Reached o fit (.stopped e.world.disk)

theorem sound_op (hadm : o.Admissible K) {w : World K} (h : Sound o (mem w)) (op : Op K)
    (hop : op ≠ .start) (io : ℕ → IoOutcome) : Sound o (mem (op.program o io w).state) := by
  cases op with
  | start => exact absurd rfl hop
  | put key value => exact (put_any hadm h key value io w rfl).1
  | delete key => exact (delete_any hadm h key io w rfl).1
  | checkpoint =>
    have hsame := logOnly_any (x := mem w) (Faults.checkpoint_logOnly (o := o)) io w rfl
    exact (show mem _ = mem w from hsame) ▸ h
  | compact => exact runAttachedCompaction_any hadm h io w rfl

theorem reached_sound (hadm : o.Admissible K) {s : Store K}
    (h : Reached o (fun w => Anchored o (mem w)) s) :
    Phase (fun w => Sound o (mem w)) (fun _ => True) s := by
  induction h with
  | initial file => exact .down trivial
  | crash file _ _ => exact .down trivial
  | crashIn op io e _ _ _ _ => exact .down trivial
  | @complete s s' op io _ henabled hfit hend ih =>
    by_cases hop : op = .start
    · subst hop
      obtain ⟨d, hd⟩ : ∃ d, s.world = World.boot d := by
        cases ih with
        | up _ => cases henabled
        | down _ => exact ⟨_, rfl⟩
      obtain rfl := Option.some.inj ((settle_start o io s.world).symm.trans hend)
      split_ifs with hok
      · apply Phase.up
        rw [hd] at hok hfit ⊢
        exact openStore_sound hok (hfit rfl hok)
      · apply Phase.down
        trivial
    · have hup : s.up = true := by
        cases op <;> first | exact absurd rfl hop | exact henabled
      rw [(settle_running hop hend).1]
      exact .up (sound_op hadm (ih.world hup) op hop io)

/-- A failed `Put` or `Delete` changes no answer of `Contains` and `Get` as long as every start
found each key of its map in an occupied slot. -/
theorem failed_call_changes_nothing (hadm : o.Admissible K) {s : Store K}
    (h : Reached o (fun w => Anchored o (mem w)) s) (hup : s.up = true) (io : ℕ → IoOutcome) :
    (∀ (key : K) (value : Bytes), (Operations.put o key value io s.world).val ≠ .ok →
      Unchanged o s.world (Operations.put o key value io s.world).state) ∧
    ∀ key : K, (Operations.delete o key io s.world).val ≠ .ok →
      Unchanged o s.world (Operations.delete o key io s.world).state := by
  have hsound := (reached_sound hadm h).world hup
  have hends : ∀ r : Outcome (World K) (Event K) Status, Ends o (mem s.world) r.val r.state →
      r.val ≠ .ok → Unchanged o s.world r.state :=
    fun r hr hfail => unchanged_of_kept hadm hsound hr.1.mgr (hr.2 hfail)
  exact ⟨fun key value => hends _ (put_any hadm hsound key value io s.world rfl),
    fun key => hends _ (delete_any hadm hsound key io s.world rfl)⟩

theorem reached_start {fit : World K → Prop} {s : Store K} {io : ℕ → IoOutcome}
    (h : Reached o fit s) (hdown : s.up = false) (hok : (openStore o io s.world).val = .ok)
    (hfit : fit (openStore o io s.world).state) :
    Reached o fit ⟨(openStore o io s.world).state, true⟩ := by
  refine .complete .start io h (by simp [Store.enabled, hdown]) (fun _ _ => hfit) ?_
  rw [settle_start, if_pos hok]

theorem reached_put {fit : World K → Prop} {s : Store K} (key : K) (v : Bytes)
    (io : ℕ → IoOutcome) (h : Reached o fit s) (hup : s.up = true) :
    Reached o fit ⟨(Operations.put o key v io s.world).state, true⟩ :=
  .complete (.put key v) io h hup (fun h => by cases h) rfl

def firstStart : Store Key64 :=
  ⟨(openStore (smallOptions 4 0) (fun _ => .ok) (Store.initial Key64 none).world).state, true⟩

def failedPut : Store Key64 :=
  ⟨(Operations.put (smallOptions 4 0) 1 [1] (outcomes 4 [.fail 0]) firstStart.world).state, true⟩

def secondStart : Store Key64 :=
  ⟨(openStore (smallOptions 4 0) (fun _ => .ok)
    (Store.stopped { failedPut.world.disk with managerState := none }).world).state, true⟩

set_option maxRecDepth 100000 in
/-- The log write of the second `Put` fails, and so does the flush of its rollback. The slot it
leaves occupied is the one the first key refers to since the start. -/
theorem failed_put_is_read :
    Reached (smallOptions 4 0) (fun _ => True) secondStart ∧ secondStart.up = true ∧
      (run (Operations.get (smallOptions 4 0) (1 : Key64) 1) secondStart.world).val =
        (.notFound, []) ∧
      (Operations.put (smallOptions 4 0) (2 : Key64) [2] (outcomes 3 [.fail 0, .fail 0])
        secondStart.world).val = .ioError ∧
      (run (Operations.get (smallOptions 4 0) (1 : Key64) 1)
        (Operations.put (smallOptions 4 0) (2 : Key64) [2] (outcomes 3 [.fail 0, .fail 0])
          secondStart.world).state).val = (.ok, [2]) := by
  refine ⟨?_, by decide +kernel, by decide +kernel, by decide +kernel, by decide +kernel⟩
  have hfirst : Reached (smallOptions 4 0) (fun _ => True) firstStart :=
    reached_start (.initial none) rfl (by decide +kernel) trivial
  exact reached_start (.crash none (reached_put 1 [1] _ hfirst rfl)) rfl (by decide +kernel) trivial

theorem anchored_of_keys (keys : List K) (hkeys : x.map.keys = keys.toFinset)
    (h : keys.all fun k => ∃ s < o.segmentCount, ∃ i < o.totalSlots,
      x.map.lookup k = some (encodeSegmentSlot s i) ∧ (x.segs s).bitmap i = true ∧
        (x.slots s i).key = toBytes k) : Anchored o x := by
  intro k a hk
  have hmem : k ∈ keys := by
    rw [← List.mem_toFinset, ← hkeys]
    exact Finmap.mem_keys.mpr (Finmap.mem_of_lookup_eq_some hk)
  obtain ⟨s, hs, i, hi, hlookup, hslot⟩ := of_decide_eq_true (List.all_eq_true.mp h k hmem)
  exact ⟨s, hs, i, hi, Option.some.inj (hk.symm.trans hlookup), hslot⟩

def filledStore : Store Key64 :=
  ⟨(Operations.put (smallOptions 4 0) 2 [2] (fun _ => .ok)
    (Operations.put (smallOptions 4 0) 1 [1] (fun _ => .ok) firstStart.world).state).state, true⟩

def restartedStore : Store Key64 :=
  ⟨(openStore (smallOptions 4 0) (fun _ => .ok)
    (Store.stopped { filledStore.world.disk with managerState := none }).world).state, true⟩

set_option maxRecDepth 100000 in
/-- The log write of an overwriting `Put` fails, and so does that of a `Delete`. -/
theorem failed_call_changes_nothing_restarted :
    (run (Operations.get (smallOptions 4 0) (1 : Key64) 1) restartedStore.world).val =
        (.ok, [1]) ∧
      Unchanged (smallOptions 4 0) restartedStore.world (Operations.put (smallOptions 4 0)
        (1 : Key64) [9] (outcomes 3 [.fail 0]) restartedStore.world).state ∧
      Unchanged (smallOptions 4 0) restartedStore.world (Operations.delete (smallOptions 4 0)
        (2 : Key64) (outcomes 0 [.fail 0]) restartedStore.world).state := by
  have hfirst : Reached (smallOptions 4 0) (fun w => Anchored (smallOptions 4 0) (mem w))
      firstStart :=
    reached_start (.initial none) rfl (by decide +kernel)
      (anchored_of_keys [] (by decide +kernel) rfl)
  have hone := reached_put (1 : Key64) [1] (fun _ => .ok) hfirst rfl
  have hfilled := reached_put (2 : Key64) [2] (fun _ => .ok) hone rfl
  have hrestarted : Reached (smallOptions 4 0) (fun w => Anchored (smallOptions 4 0) (mem w))
      restartedStore :=
    reached_start (.crash none hfilled) rfl (by decide +kernel)
      (anchored_of_keys [1, 2] (by decide +kernel) (by decide +kernel))
  have hunchanged := failed_call_changes_nothing (smallOptions_admissible 0 (by decide)) hrestarted
    rfl
  exact ⟨by decide +kernel, (hunchanged _).1 1 [9] (by decide +kernel),
    (hunchanged _).2 2 (by decide +kernel)⟩

end ParaKV.Index.FailedRuns
