/- GID: ParaKV/Segment/Media
   source: parakv/core/segment/segment_file.cc, parakv/core/segment/segment_block_dev.cc
   digest: Reading and writing bytes leaves the members of a segment alone, on either medium. -/

import ParaKV.Segment.BytesSpec

set_option autoImplicit false

namespace ParaKV.Segment.Media

open Lib.TracedProgram Index.Key Segment.Base Segment.Bytes
open Core.State (IoOutcome)

variable {δ : Type} {A : Prop}

def Untouched (opened : Bool) (m : Members) (s : Object δ) : Prop :=
  s.opened = opened ∧ s.members = m

/-- Only the device changes, and a write fails only by the outcome it draws. -/
structure Quiet (io : Medium δ) : Prop where
  write : ∀ {A : Prop} buf off opened m,
    Safe A (Untouched opened m) (io.write buf off) fun _ => Untouched opened m
  read : ∀ {A : Prop} n off opened m,
    Safe A (Untouched opened m) (io.read n off) fun r s => Untouched opened m s ∧ r.2.length ≤ n
  write_ok : ∀ buf off outcomes s, outcomes 0 = IoOutcome.ok →
    (io.write buf off outcomes s).val = .ok

theorem pwrite_untouched (buf : Bytes) (off : ℕ) (opened : Bool) (m : Members) :
    Safe A (Untouched opened m) (SegmentFile.pwrite buf off) fun _ => Untouched opened m := by
  have hfile : ∀ g, Safe A (Untouched opened m)
      (modify (SegmentFile.onFile g) : P SegmentFile.Disk PUnit) fun _ => Untouched opened m :=
    fun _ => .change fun _ h => h
  refine .ite (fun _ => .ret fun _ h => h) fun _ => Safe.draw.bind fun outcome => ?_
  cases outcome with
  | ok => exact (hfile _).bind fun _ => .ret fun _ h => h
  | fail n => exact (hfile _).bind fun _ => .ret fun _ h => h

theorem file_quiet : Quiet SegmentFile.medium where
  write := pwrite_untouched
  read n off opened m := by
    refine .ite (fun _ => .ret fun _ h => ⟨h, Nat.zero_le _⟩) fun _ => .read fun s hs => ?_
    refine Safe.draw.bind fun outcome => ?_
    cases outcome with
    | ok => exact .ret fun t ht => ⟨ht ▸ hs, by simp [ByteFile.read]⟩
    | fail k => exact .ret fun t ht => ⟨ht ▸ hs, by simp [ByteFile.read]⟩
  write_ok buf off outcomes s hok := by
    show (SegmentFile.pwrite buf off outcomes s).val = .ok
    unfold SegmentFile.pwrite
    split_ifs with hbuf
    · rfl
    · simp only [Prog.bind_val, Prog.draw_val, hok]
      rfl

theorem device_quiet (base : ℕ) : Quiet (SegmentBlockDev.medium base) where
  write buf off opened m := by
    refine Safe.draw.bind fun outcome => ?_
    cases outcome with
    | ok =>
      exact Safe.bind (Q := fun _ => Untouched opened m) (.change fun _ h => h) fun _ =>
        .ret fun _ h => h
    | fail n =>
      exact Safe.bind (Q := fun _ => Untouched opened m) (.change fun _ h => h) fun _ =>
        .ret fun _ h => h
  read n off opened m := by
    refine .read fun s hs => Safe.draw.bind fun outcome => ?_
    cases outcome with
    | ok => exact .ret fun t ht => ⟨ht ▸ hs, by simp⟩
    | fail k => exact .ret fun t ht => ⟨ht ▸ hs, by simp⟩
  write_ok buf off outcomes s hok := by
    show (SegmentBlockDev.write buf off outcomes s).val = .ok
    simp only [SegmentBlockDev.write, Prog.bind_val, Prog.draw_val, hok]
    rfl

section Shared

variable {c : SegmentConfig} {io : Medium δ} {τ : Type} {opened : Bool} {m : Members}

theorem onMembers_untouched (g : Members → Members) :
    Safe A (Untouched opened m) (modify (onMembers g) : P δ PUnit) fun _ =>
      Untouched opened (g m) := by
  refine .change fun s h => ⟨h.1, ?_⟩
  rw [onMembers, h.2]

theorem touch_untouched {slotIds : List ℕ} (h : A → ∀ i ∈ slotIds, i / 8 < m.bitmap.length) :
    Safe A (Untouched opened m) (touch slotIds : P δ Unit) fun _ => Untouched opened m := by
  refine .emit fun ha s hs => ?_
  rw [List.map_eq_nil_iff, List.filter_eq_nil_iff, hs.2]
  intro i hi
  simpa using h ha i hi

theorem touch_one_untouched {i : ℕ} (h : A → i / 8 < m.bitmap.length) :
    Safe A (Untouched opened m) (touch [i] : P δ Unit) fun _ => Untouched opened m :=
  touch_untouched fun ha => by simpa using h ha

theorem flushBitmap_untouched (hio : Quiet io) :
    Safe A (Untouched opened m) (flushBitmap io) fun _ => Untouched opened m :=
  .read fun _ hs => (hio.write _ _ _ _).weaken (fun _ ht => ht ▸ hs) fun _ _ h => h

theorem writeSlot_untouched (hio : Quiet io) (sid : ℕ) (key value : Bytes) :
    Safe A (Untouched opened m) (writeSlot c io sid key value) fun _ => Untouched opened m :=
  (hio.write _ _ _ _).bind fun _ => .ite (fun _ => .ret fun _ h => h) fun _ => hio.write _ _ _ _

theorem readSlot_untouched (hio : Quiet io) (sid : ℕ) :
    Safe A (Untouched opened m) (readSlot c io sid) fun _ => Untouched opened m := by
  have hread : ∀ n off, Safe A (Untouched opened m) (io.read n off) fun _ => Untouched opened m :=
    fun n off => (hio.read n off opened m).weaken (fun _ h => h) fun _ _ h => h.1
  refine (hread _ _).bind fun _ => .ite (fun _ => .ret fun _ h => h) fun _ => ?_
  exact (hread _ _).bind fun _ => .ite (fun _ => .ret fun _ h => h) fun _ => .ret fun _ h => h

theorem writePayloads_untouched (hio : Quiet io) (keys values : Bytes) (cursor n i : ℕ) :
    Safe A (Untouched opened m) (writePayloads c io keys values cursor n i) fun _ =>
      Untouched opened m := by
  induction n generalizing i with
  | zero => exact .ret fun _ h => h
  | succ n ih =>
    refine (writeSlot_untouched hio _ _ _).bind fun st => .ite (fun _ => .ret fun _ h => h)
      fun _ => ?_
    exact ih (i + 1)

theorem moveSlots_untouched (hio : Quiet io) (segmentId : ℕ) (target : Target τ) {n i : ℕ} (t : τ)
    (hin : A → ∀ j, j < i + n → j / 8 < m.bitmap.length) :
    Safe A (Untouched opened m) (moveSlots c io segmentId target n i t) fun _ =>
      Untouched opened m := by
  induction n generalizing i t with
  | zero => exact .ret fun _ h => h
  | succ n ih =>
    have hrest : A → ∀ j, j < i + 1 + n → j / 8 < m.bitmap.length := fun ha j hj =>
      hin ha j (by omega)
    refine (touch_one_untouched fun ha => hin ha i (by omega)).bind fun _ => .read fun s hs => ?_
    have huntouched : ∀ t, t = s → Untouched opened m t := fun t ht => ht ▸ hs
    refine .ite (fun _ => (ih _ hrest).weaken huntouched fun _ _ h => h) fun _ => ?_
    refine ((readSlot_untouched hio i).weaken huntouched fun _ _ h => h).bind fun slot => ?_
    refine .ite (fun _ => .ret fun _ h => h) fun _ => .ite (fun _ => .ret fun _ h => h) fun _ => ?_
    exact (ih _ hrest).bind fun _ => .ret fun _ h => h

end Shared

end ParaKV.Segment.Media
