/- GID: ParaKV/Segment/Classification
   source: parakv/core/segment/segment_manager.cc
   digest: The critical sections of the manager in any order, and the partition they keep. -/

import ParaKV.Lib.StepRun
import ParaKV.Segment.ManagerSpec

set_option autoImplicit false

namespace ParaKV.Segment.Classification

open Lib.HashOrder Lib.HashOrder.UnorderedSet Segment.Base Segment.Manager Segment.ManagerSpec
open Core.State

variable {K : Type} {o : Options}

/-! The sets of the manager as one function from segments to classes. -/

/-- The class of each segment, and `none` for an id that has none. -/
abbrev Assignment := ℕ → Option SegmentState

structure Classes (m : SegmentManager) (f : Assignment) : Prop where
  idle : ∀ id, id ∈ m.idleSet ↔ f id = some .idle
  appending : ∀ id, id ∈ m.appendingSet ↔ f id = some .appending
  full : ∀ id, id ∈ m.fullSet ↔ f id = some .full

/-- The classified segments are the registered ones. -/
structure Represents (m : SegmentManager) (f : Assignment) : Prop extends Classes m f where
  segments : ∀ id, id ∈ m.segments ↔ (f id).isSome = true

/-- Three disjoint sets whose union are the registered segments. -/
structure Partition (m : SegmentManager) : Prop where
  idle_appending : ∀ id ∈ m.idleSet, id ∉ m.appendingSet
  idle_full : ∀ id ∈ m.idleSet, id ∉ m.fullSet
  appending_full : ∀ id ∈ m.appendingSet, id ∉ m.fullSet
  union : ∀ id, id ∈ m.segments ↔ id ∈ m.idleSet ∨ id ∈ m.appendingSet ∨ id ∈ m.fullSet

variable {m m' : SegmentManager} {f f' : Assignment} {id : ℕ}

theorem Represents.partition (h : Represents m f) : Partition m := by
  refine ⟨fun id hi ha => ?_, fun id hi hf => ?_, fun id ha hf => ?_, fun id => ?_⟩
  · cases ((h.idle id).mp hi).symm.trans ((h.appending id).mp ha)
  · cases ((h.idle id).mp hi).symm.trans ((h.full id).mp hf)
  · cases ((h.appending id).mp ha).symm.trans ((h.full id).mp hf)
  · rw [h.segments, h.idle, h.appending, h.full]
    cases f id with
    | none => simp
    | some c => cases c <;> simp

/-- The order in which a segment goes through its classes. -/
def rank : SegmentState → ℕ
  | .idle => 0
  | .appending => 1
  | .full => 2

/-- Segments keep their class or move on, and new ones may join. -/
def Advances (f f' : Assignment) : Prop :=
  ∀ id c, f id = some c → ∃ c', f' id = some c' ∧ rank c ≤ rank c'

theorem Advances.refl (f : Assignment) : Advances f f := fun _ c h => ⟨c, h, Nat.le_refl _⟩

theorem Advances.trans {f'' : Assignment} (h : Advances f f') (h' : Advances f' f'') :
    Advances f f'' := by
  intro id c hc
  obtain ⟨c', hc', hle⟩ := h id c hc
  obtain ⟨c'', hc'', hle'⟩ := h' id c' hc'
  exact ⟨c'', hc'', Nat.le_trans hle hle'⟩

theorem Advances.full (h : Advances f f') (hid : f id = some .full) : f' id = some .full := by
  obtain ⟨c, hc, hle⟩ := h id .full hid
  cases c with
  | idle => simp [rank] at hle
  | appending => simp [rank] at hle
  | full => exact hc

theorem Advances.started (h : Advances f f') (hid : ∃ c, f id = some c ∧ c ≠ .idle) :
    ∃ c, f' id = some c ∧ c ≠ .idle := by
  obtain ⟨c, hc, hne⟩ := hid
  obtain ⟨c', hc', hle⟩ := h id c hc
  refine ⟨c', hc', ?_⟩
  rintro rfl
  cases c <;> simp [rank] at hle hne

theorem advances_update {c : SegmentState} (h : ∀ c₀, f id = some c₀ → rank c₀ ≤ rank c) :
    Advances f (Function.update f id (some c)) := by
  intro j c₀ hc₀
  by_cases hj : j = id
  · subst hj
    exact ⟨c, Function.update_self .., h c₀ hc₀⟩
  · exact ⟨c₀, by rw [Function.update_of_ne hj, hc₀], Nat.le_refl _⟩

/-! One critical section at a time. -/

theorem update_eq_some {c c' : SegmentState} {j : ℕ} :
    Function.update f id (some c) j = some c' ↔ j = id ∧ c = c' ∨ j ≠ id ∧ f j = some c' := by
  by_cases hj : j = id
  · subst hj
    simp
  · simp [hj]

theorem update_isSome {c : SegmentState} {j : ℕ} :
    (Function.update f id (some c) j).isSome = true ↔ j = id ∨ (f j).isSome = true := by
  by_cases hj : j = id
  · subst hj
    simp
  · simp [hj]

theorem classes_classify (h : Classes m f) {c : SegmentState} (hid : f id = none ∨ f id = some c) :
    Classes (SegmentManager.classify o m id c) (Function.update f id (some c)) := by
  have hcase : ∀ (j : ℕ) (c' : SegmentState), Function.update f id (some c) j = some c' ↔
      j = id ∧ c = c' ∨ f j = some c' := by
    intro j c'
    rw [update_eq_some]
    by_cases hj : j = id
    · subst hj
      rcases hid with hid | hid <;> simp [hid]
    · simp [hj]
  constructor <;> intro j <;> rw [hcase] <;> cases c <;>
    simp [SegmentManager.classify, h.idle, h.appending, h.full]

theorem represents_classify (h : Represents m f) (hid : id ∉ m.segments) (c : SegmentState) :
    Represents (SegmentManager.classify o { m with segments := m.segments.insert o.hash id } id c)
      (Function.update f id (some c)) := by
  have hnone : f id = none := by
    rw [h.segments] at hid
    simpa using hid
  have hclasses : Classes { m with segments := m.segments.insert o.hash id } f :=
    ⟨h.idle, h.appending, h.full⟩
  refine ⟨classes_classify hclasses (Or.inl hnone), fun j => ?_⟩
  rw [classify_segments, mem_insert, h.segments, update_isSome]

theorem represents_move (h : Represents m f) (hid : id ∈ m.segments) {c : SegmentState}
    (hsegments : m'.segments = m.segments)
    (hidle : ∀ j, j ∈ m'.idleSet ↔ j = id ∧ c = .idle ∨ j ≠ id ∧ j ∈ m.idleSet)
    (happending : ∀ j, j ∈ m'.appendingSet ↔ j = id ∧ c = .appending ∨ j ≠ id ∧ j ∈ m.appendingSet)
    (hfull : ∀ j, j ∈ m'.fullSet ↔ j = id ∧ c = .full ∨ j ≠ id ∧ j ∈ m.fullSet) :
    Represents m' (Function.update f id (some c)) := by
  refine ⟨⟨fun j => ?_, fun j => ?_, fun j => ?_⟩, fun j => ?_⟩
  · rw [hidle, h.idle, update_eq_some]
  · rw [happending, h.appending, update_eq_some]
  · rw [hfull, h.full, update_eq_some]
  · rw [hsegments, update_isSome, ← h.segments]
    constructor
    · exact Or.inr
    · rintro (rfl | hj)
      · exact hid
      · exact hj

theorem represents_markSegmentFullInternal (h : Represents m f) (id : ℕ) :
    ∃ f', Represents (markSegmentFullInternal o m id) f' ∧ Advances f f' := by
  unfold markSegmentFullInternal
  split_ifs with hid hfull
  · exact ⟨f, h, .refl f⟩
  · refine ⟨Function.update f id (some .full), represents_move h hid rfl ?_ ?_ ?_,
      advances_update fun c₀ _ => ?_⟩
    · simp
    · simp
    · intro j
      rw [mem_insert]
      by_cases hj : j = id <;> simp [hj]
    · cases c₀ <;> simp [rank]
  · exact ⟨f, h, .refl f⟩

theorem represents_promoteIdleSegment (h : Represents m f) :
    ∃ f', Represents (promoteIdleSegment o m).2 f' ∧ Advances f f' ∧
      ∀ id, (promoteIdleSegment o m).1 = some id → f' id = some .appending := by
  unfold promoteIdleSegment
  split
  · exact ⟨f, h, .refl f, by simp⟩
  · rename_i id rest horder
    have hidle : f id = some .idle := (h.idle id).mp (by simp [mem_def, horder])
    have hid : id ∈ m.segments := (h.segments id).mpr (by simp [hidle])
    refine ⟨Function.update f id (some .appending), represents_move h hid rfl ?_ ?_ ?_,
      advances_update fun c₀ hc₀ => ?_, ?_⟩
    · simp
    · intro j
      rw [mem_insert]
      by_cases hj : j = id <;> simp [hj]
    · intro j
      by_cases hj : j = id
      · simp [hj, h.full, hidle]
      · simp [hj]
    · rw [hidle] at hc₀
      cases hc₀
      simp [rank]
    · rintro j ⟨⟩
      exact Function.update_self ..

/-- The loop over any ids: it only moves segments on, and the segment it returns is one with free
slots that it met, or an idle one that is appending now. -/
theorem represents_scanAppending (segs : ℕ → SegmentBase) (l : List ℕ) (h : Represents m f) :
    ∃ f', Represents (scanAppending o segs l m).2 f' ∧ Advances f f' ∧
      ∀ id, (scanAppending o segs l m).1 = some id →
        f' id = some .appending ∨ id ∈ l ∧ (segs id).getFreeSlots o.segmentConfig > 0 := by
  induction l generalizing m f with
  | nil =>
    obtain ⟨f', hf', hadv, hid⟩ := represents_promoteIdleSegment (o := o) h
    exact ⟨f', hf', hadv, fun id hval => Or.inl (hid id hval)⟩
  | cons id rest ih =>
    unfold scanAppending
    split_ifs with hfree
    · refine ⟨f, h, .refl f, ?_⟩
      rintro j ⟨⟩
      exact Or.inr ⟨by simp, hfree⟩
    · obtain ⟨f₁, hf₁, hadv₁⟩ := represents_markSegmentFullInternal (o := o) h id
      obtain ⟨f₂, hf₂, hadv₂, hval⟩ := ih hf₁
      refine ⟨f₂, hf₂, hadv₁.trans hadv₂, fun j hj => ?_⟩
      rcases hval j hj with hj | ⟨hj, hfree⟩
      · exact Or.inl hj
      · exact Or.inr ⟨by simp [hj], hfree⟩

theorem represents_reclassify {w : World K} {src active : ℕ} (h : Represents w.mgr f)
    (hsrc : f src = some .full) (hactive : ∃ c, f active = some c ∧ c ≠ .idle)
    (hne : active ≠ src) :
    ∃ f', Represents (reclassify o src active w).mgr f' ∧
      ∀ id, id ≠ src → f id = some .full → f' id = some .full := by
  obtain ⟨c, hc, hidle⟩ := hactive
  have hreg : src ∈ w.mgr.segments := (h.segments src).mpr (by simp [hsrc])
  let back : SegmentManager := { w.mgr with
    fullSet := w.mgr.fullSet.erase src
    fullOrder := w.mgr.fullOrder.filter (· ≠ src)
    idleSet := w.mgr.idleSet.insert o.hash src }
  have hback : Represents back (Function.update f src (some .idle)) := by
    refine represents_move h hreg rfl (fun j => ?_) (fun j => ?_) fun j => ?_
    · rw [mem_insert]
      by_cases hj : j = src <;> simp [hj]
    · by_cases hj : j = src
      · simp [hj, back, h.appending, hsrc]
      · simp [hj, back]
    · simp [back]
  have hothers : ∀ id, id ≠ src → f id = some .full →
      Function.update f src (some .idle) id = some .full := by
    intro id hid hfull
    rw [Function.update_of_ne hid, hfull]
  unfold reclassify
  split_ifs with hfull
  · have hid : active ∈ back.segments := (h.segments active).mpr (by simp [hc])
    have hnot : active ∉ back.idleSet := by
      rw [hback.idle, Function.update_of_ne hne, hc]
      simpa using hidle
    refine ⟨Function.update (Function.update f src (some .idle)) active (some .full),
      represents_move hback hid rfl (fun j => ?_) (fun j => ?_) (fun j => ?_), ?_⟩
    · change j ∈ back.idleSet ↔ _
      by_cases hj : j = active <;> simp [hj, hnot]
    · simp [back]
    · rw [mem_insert]
      by_cases hj : j = active <;> simp [hj, back]
    · intro id hid hf
      by_cases hj : id = active
      · rw [hj, Function.update_self]
      · rw [Function.update_of_ne hj]
        exact hothers id hid hf
  · exact ⟨_, hback, hothers⟩

/-! The classification read from a file of any content. -/

theorem represents_applyState (segs : ℕ → SegmentBase) (m : SegmentManager)
    (saved : List ℕ × List ℕ × List ℕ) : ∃ f, Represents (applyState o segs m saved) f := by
  let f : Assignment := fun id => if id ∈ m.segments then
    some (if id ∈ saved.1 then .full else if id ∈ saved.2.1 then .appending
      else if id ∈ saved.2.2 then .idle else (segs id).state) else none
  have hclass : ∀ c id, id ∈ members (applyState o segs m saved) c ↔ f id = some c := by
    intro c id
    rw [applyState_members]
    simp only [f]
    split_ifs <;> simp [*, eq_comm]
  refine ⟨f, ⟨hclass .idle, hclass .appending, hclass .full⟩, fun id => ?_⟩
  rw [applyState_segments]
  by_cases hid : id ∈ m.segments <;> simp [f, hid]

end ParaKV.Segment.Classification
