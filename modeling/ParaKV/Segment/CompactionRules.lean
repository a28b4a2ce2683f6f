/- GID: ParaKV/Segment/CompactionRules
   source: parakv/core/segment/segment_file.cc, parakv/core/segment/segment_manager.cc
   digest: Invariant rules for the slot loop and the candidate loop of a compaction. -/

import ParaKV.Segment.Manager

set_option autoImplicit false

namespace ParaKV.Segment.CompactionRules

open Lib.TracedProgram Segment.Manager Index.Key Core.State

variable {K : Type} {o : Options} {G T : Event K → Prop} {src target : ℕ}
variable {cb : File.SlotMoveCallback K} {F : World K → Prop}

/-- Success leads to `P`, an early return or a wait without end to `F`. -/
def Checked (P F : World K → Prop) (st : Option Status) (w : World K) : Prop :=
  if st = some .ok then P w else F w

theorem checked_ok {P : World K → Prop} {w : World K} (h : P w) : Checked P F (some .ok) w := h

theorem checked_fail {P : World K → Prop} {st : Option Status} {w : World K} (hst : st ≠ some .ok)
    (h : F w) : Checked P F st w :=
  (if_neg hst).mpr h

theorem checked_bind {P Q R : World K → Prop} {m m' : M K (Option Status)}
    (hm : Triple .ok G T P m (Checked Q F)) (hm' : Triple .ok G T Q m' (Checked R F)) :
    Triple .ok G T P (m >>= fun st => if st ≠ some .ok then pure st else m') (Checked R F) := by
  refine hm.bind fun st => Triple.ite (fun hst => ?_) fun hst => ?_
  · exact Triple.ret fun w hw => checked_fail hst ((if_neg hst).mp hw)
  · exact hm'.weaken (fun w hw => (if_pos (not_not.mp hst)).mp hw) fun _ _ h => h

theorem compactLoop_triple {I : ℕ → World K → Prop} {c : ℕ}
    (hskip : ∀ i w, i < c → I i w → (w.segs src).bitmap i = false → I (i + 1) w)
    (hslot : ∀ i < c, Triple .ok G T (fun w => I i w ∧ (w.segs src).bitmap i = true)
      (File.compactSlot o src target cb i) (Checked (I (i + 1)) F)) (n i : ℕ) (hc : i + n = c) :
    Triple .ok G T (I i) (File.compactLoop o src target cb n i) (Checked (I c) F) := by
  induction n generalizing i with
  | zero =>
    obtain rfl : i = c := hc
    exact Triple.ret fun w hw => checked_ok hw
  | succ n ih =>
    have hi : i < c := by omega
    have hrest := ih (i + 1) (by omega)
    unfold File.compactLoop
    refine Triple.read fun w₀ => Triple.ite (fun hbit => ?_) fun hbit => ?_
    · refine hrest.weaken ?_ fun _ _ h => h
      rintro w ⟨hw, rfl⟩
      exact hskip i w hi hw (by simpa using hbit)
    · refine checked_bind ((hslot i hi).weaken ?_ fun _ _ h => h) hrest
      rintro w ⟨hw, rfl⟩
      exact ⟨hw, by simpa using hbit⟩

/-- `Compact` as a loop from slot 0 to the cursor it started with, and a reset. -/
theorem compact_triple {P R : World K → Prop} {I : ℕ → ℕ → World K → Prop}
    (hopen : ∀ w, P w → (w.segs src).isOpen = true)
    (hstart : ∀ w, P w → I (w.segs src).appendCursor 0 w)
    (hskip : ∀ c i w, i < c → I c i w → (w.segs src).bitmap i = false → I c (i + 1) w)
    (hslot : ∀ c i, i < c → Triple .ok G T (fun w => I c i w ∧ (w.segs src).bitmap i = true)
      (File.compactSlot o src target cb i) (Checked (I c (i + 1)) F))
    (hreset : ∀ c, Triple .ok G T (I c c) (some <$> File.resetSegment o src) (Checked R F)) :
    Triple .ok G T P (File.compact o src target cb) (Checked R F) := by
  unfold File.compact
  refine Triple.read fun w₀ => Triple.ite (fun hclosed => ?_) fun _ => ?_
  · rintro w ⟨hw, rfl⟩
    rw [hopen w hw] at hclosed
    cases hclosed
  · have hloop := compactLoop_triple (hskip (w₀.segs src).appendCursor)
      (hslot (w₀.segs src).appendCursor) (w₀.segs src).appendCursor 0 (Nat.zero_add _)
    refine checked_bind (hloop.weaken ?_ fun _ _ h => h) (hreset _)
    rintro w ⟨hw, rfl⟩
    exact hstart w hw

theorem compactCandidates_triple (cb : File.SlotMoveCallback K) {J : List ℕ → World K → Prop}
    {A B : ℕ → ℕ → List ℕ → World K → Prop}
    (hactive : ∀ src rest, Triple .ok G T (J (src :: rest)) (getActiveSegment o)
      fun r w => match r with
        | none => F w
        | some active => A src active rest w)
    (hregistered : ∀ src active rest w, A src active rest w → src ∈ w.mgr.segments)
    (hcompact : ∀ src active rest, Triple .ok G T (A src active rest)
      (File.compact o src active cb) (Checked (B src active rest) F))
    (hreclassify : ∀ src active rest w, B src active rest w → J rest (reclassify o src active w))
    (l : List ℕ) :
    Triple .ok G T (J l) (compactCandidates o cb l) (Checked (J []) F) := by
  induction l with
  | nil => exact Triple.ret fun w hw => checked_ok hw
  | cons src rest ih =>
    unfold compactCandidates
    refine (hactive src rest).bind fun r => ?_
    cases r with
    | none => exact Triple.ret fun w hw => checked_fail (by simp) hw
    | some active =>
      refine Triple.read fun w₀ => Triple.ite (fun hmissing => ?_) fun _ => ?_
      · rintro w ⟨hw, rfl⟩
        exact (hmissing (hregistered src active rest w hw)).elim
      · refine checked_bind ((hcompact src active rest).weaken (fun w hw => hw.1) fun _ _ h => h) ?_
        refine Triple.bind (Q := fun _ => J rest) (Triple.change ?_) fun _ => ih
        exact hreclassify src active rest

end ParaKV.Segment.CompactionRules
