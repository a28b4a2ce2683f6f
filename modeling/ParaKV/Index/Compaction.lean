/- GID: ParaKV/Index/Compaction
   source: parakv/core/index/index.cc, parakv/core/segment/segment_manager.cc
   digest: One slot move, and compactions as runs of slot moves and segment resets. -/

import ParaKV.Segment.CompactionRules
import ParaKV.Index.Ownership

set_option autoImplicit false

namespace ParaKV.Index.Compaction

open Lib.TracedProgram Lib.LogMap Lib.OwnedSlots Index.Key Index.Wal Index.Operations
open Index.Durability Index.Ownership Segment Segment.FileSpec Segment.CompactionRules
open Segment.Manager Segment.ManagerSpec Core.State

variable {K : Type} [DecidableEq K] [KeyType K]
variable {o : Options} {H : K → Bytes → Prop} {w : World K} {m : Map K}

/-! One slot move: copy the slot, log the move, remap the entry. -/

/-- A move of the occupied slot `i` of `src` to the cursor of `target`. -/
structure Move (o : Options) (w : World K) (src i target : ℕ) (slot : Slot) : Prop where
  source_lt : src < o.segmentCount
  target_lt : target < o.segmentCount
  distinct : target ≠ src
  occupied : w.disk.slot src i = some slot
  bound : i < o.totalSlots
  room : (w.segs target).appendCursor < o.totalSlots

def Before (src j : ℕ) : ℕ → ℕ → Prop := fun s i => s = src ∧ i < j

def remapped (m : Map K) (key : K) (oldEnc newEnc : UInt64) : Map K :=
  if m.lookup key = some oldEnc then m.insert key newEnc else m

def copied (o : Options) (w : World K) (target : ℕ) (slot : Slot) : World K :=
  afterInsert o w target slot.key slot.value

def moveLog (w : World K) (src i target : ℕ) (slot : Slot) : WalRecord K :=
  moveRecord (ofBytes slot.key) (encodeSegmentSlot src i) (newAddr w target)

def movedWorld (o : Options) (w : World K) (src i target : ℕ) (slot : Slot) : World K :=
  { (run (appendWal o (moveLog w src i target slot)) (copied o w target slot)).state with
    map := remapped w.map (ofBytes slot.key) (encodeSegmentSlot src i) (newAddr w target) }

def movedEvent (o : Options) (w : World K) (src i target : ℕ) (slot : Slot) : Event K :=
  ⟨.moved (copied o w target slot) (ofBytes slot.key) (encodeSegmentSlot src i)
    (newAddr w target), movedWorld o w src i target slot⟩

variable {src i target : ℕ} {slot : Slot}

theorem run_compactSlot (hadm : o.Admissible K) (h : Live o H w)
    (hmove : Move o w src i target slot) :
    (run (File.compactSlot o src target (slotMoved o) i) w).val = some .ok ∧
      (run (File.compactSlot o src target (slotMoved o) i) w).state =
        movedWorld o w src i target slot ∧
      (run (File.compactSlot o src target (slotMoved o) i) w).trace =
        (run (File.insert o target slot.key slot.value) w).trace ++
          ((run (appendWal o (moveLog w src i target slot)) (copied o w target slot)).trace ++
            [movedEvent o w src i target slot]) := by
  obtain ⟨hval, hstate⟩ := run_insert slot.key slot.value hadm.slots
    (h.segs target hmove.target_lt) hmove.room
  have hlog := (run_appendWal_ok (o := o) (w := copied o w target slot) h.wal
    (moveLog w src i target slot)).2.1
  have hmap : (run (appendWal o (moveLog w src i target slot))
    (copied o w target slot)).state.map = w.map := hlog.map
  unfold moveLog copied newAddr at hmap
  obtain rfl : (w.disk.images src).slots i = slot := by
    have hocc := hmove.occupied
    unfold Disk.slot SegmentImage.slot at hocc
    split_ifs at hocc
    exact Option.some.inj hocc
  simp [File.compactSlot, hmove.distinct, hval, hstate, slotMoved, movedEvent, movedWorld,
    remapIfEquals, moveLog, copied, newAddr, remapped, hmap]

/-- Without room in the target, or with the source as target, nothing is moved: the call fails, or
it waits for ever. -/
theorem run_compactSlot_stuck (src i : ℕ) (hadm : o.Admissible K)
    (hok : SegmentOk o (w.segs target) (w.disk.images target))
    (hstuck : target = src ∨ ¬ (w.segs target).appendCursor < o.totalSlots) :
    (run (File.compactSlot o src target (slotMoved o) i) w).val ≠ some .ok ∧
      (run (File.compactSlot o src target (slotMoved o) i) w).state = w ∧
      (run (File.compactSlot o src target (slotMoved o) i) w).trace = [] := by
  by_cases hself : target = src
  · simp [File.compactSlot, hself]
  · have hfullRun := fun key value =>
      run_insert_full key value hadm.slots hok (hstuck.resolve_left hself)
    simp [File.compactSlot, hself, hfullRun]

theorem view_old {K : Type} [KeyType K] {w : World K} (hadm : o.Admissible K)
    (hmove : Move o w src i target slot) :
    view o w.disk (encodeSegmentSlot src i) = some (ofBytes slot.key, slot.value) := by
  rw [view_encode hadm _ hmove.source_lt hmove.bound, hmove.occupied]
  rfl

theorem touches_copied (h : Live o H w) (hmove : Move o w src i target slot) :
    Touches (OneSlot target (w.segs target).appendCursor) (· = slot) w.disk
      (copied o w target slot).disk :=
  touches_afterInsert (h.segs target hmove.target_lt)

theorem copied_frame (h : Live o H w) (hmove : Move o w src i target slot) {a : UInt64}
    (ha : a ≠ newAddr w target) :
    view o (copied o w target slot).disk a = view o w.disk a := by
  refine touches_view_eq (touches_copied h hmove) ?_
  rintro ⟨_, _, ⟨rfl, rfl⟩, rfl⟩
  exact ha rfl

theorem movedWorld_frame (h : Live o H w) (src i target : ℕ) (slot : Slot) :
    (movedWorld o w src i target slot).segs = (copied o w target slot).segs ∧
      (movedWorld o w src i target slot).mgr = w.mgr ∧
      (movedWorld o w src i target slot).disk.images = (copied o w target slot).disk.images ∧
      WalOpen (movedWorld o w src i target slot) := by
  obtain ⟨-, hlog, hwal⟩ := run_appendWal_ok (o := o) (w := copied o w target slot) h.wal
    (moveLog w src i target slot)
  exact ⟨hlog.segs, hlog.mgr, hlog.images, hwal⟩

section Move

variable (hadm : o.Admissible K) (h : Live o H w) (hmove : Move o w src i target slot)

include hadm h hmove

theorem old_ne_new : encodeSegmentSlot src i ≠ newAddr w target := by
  intro heq
  have hold := view_old hadm hmove
  rw [heq, h.new_vacant hadm hmove.target_lt hmove.room] at hold
  cases hold

theorem copied_new :
    view o (copied o w target slot).disk (newAddr w target) =
      some (ofBytes slot.key, slot.value) := by
  have hslot := afterInsert_slot slot.key slot.value
    (h.segs target hmove.target_lt) target (w.segs target).appendCursor
  rw [if_pos ⟨rfl, rfl⟩] at hslot
  rw [newAddr, view_encode hadm _ hmove.target_lt hmove.room, copied, hslot]
  rfl

theorem copied_old : view o (copied o w target slot).disk (encodeSegmentSlot src i) =
    some (ofBytes slot.key, slot.value) := by
  rw [copied_frame h hmove (old_ne_new hadm h hmove), view_old hadm hmove]

theorem owns_copied (hown : Owns (entries m) (view o w.disk)) :
    Owns (entries m) (view o (copied o w target slot).disk) :=
  touches_owns (touches_copied h hmove) hown
    (avoids_new hadm h hmove.target_lt hmove.room hown)

theorem content_copied (hown : Owns (entries m) (view o w.disk)) :
    content (entries m) (view o (copied o w target slot).disk) =
      content (entries m) (view o w.disk) :=
  touches_content_eq (touches_copied h hmove)
    (avoids_new hadm h hmove.target_lt hmove.room hown)

theorem live_copied : Live o H (copied o w target slot) where
  mgr := h.mgr
  segs := segmentsOk_afterInsert h.segs hmove.target_lt hmove.room
  owns := owns_copied hadm h hmove h.owns
  stored := by
    refine touches_stored (touches_copied h hmove) h.stored ?_
    rintro _ rfl
    exact h.stored src hmove.source_lt i _ hmove.occupied
  wal := h.wal

theorem owns_remapped (hown : Owns (entries m) (view o w.disk)) :
    Owns (entries (remapped m (ofBytes slot.key) (encodeSegmentSlot src i) (newAddr w target)))
      (view o (copied o w target slot).disk) := by
  unfold remapped
  split_ifs
  · rw [entries_insert]
    exact (owns_copied hadm h hmove hown).set (copied_new hadm h hmove)
  · exact owns_copied hadm h hmove hown

theorem content_remapped (hown : Owns (entries m) (view o w.disk)) :
    content (entries (remapped m (ofBytes slot.key) (encodeSegmentSlot src i) (newAddr w target)))
      (view o (copied o w target slot).disk) = content (entries m) (view o w.disk) := by
  unfold remapped
  split_ifs with hk
  · have hentry : entries m (ofBytes slot.key) = some (encodeSegmentSlot src i) := hk
    rw [entries_insert, content_move hentry (copied_old hadm h hmove)
      (copied_new hadm h hmove), content_copied hadm h hmove hown]
  · exact content_copied hadm h hmove hown

theorem live_moved : Live o H (movedWorld o w src i target slot) ∧
    value o (movedWorld o w src i target slot) = value o w := by
  obtain ⟨hsegs, hmgr, himages, hwal⟩ := movedWorld_frame h src i target slot
  have hcopied := live_copied hadm h hmove
  refine ⟨⟨hmgr ▸ h.mgr, fun id hid => ?_, ?_, ?_, hwal⟩, ?_⟩
  · rw [hsegs, himages]
    exact hcopied.segs id hid
  · rw [view_congr himages]
    exact owns_remapped hadm h hmove h.owns
  · exact stored_congr himages hcopied.stored
  · rw [value, view_congr himages]
    exact content_remapped hadm h hmove h.owns

end Move

/-- Once the entry of its key has left the old slot, one more slot of the source is unused. -/
theorem avoids_step (hadm : o.Admissible K) (hmove : Move o w src i target slot) {n : Map K}
    (hown : Owns (entries m) (view o w.disk))
    (havoid : Avoids (entries m) (At (Before src i)))
    (hn : n = m.insert (ofBytes slot.key) (newAddr w target) ∨
      n = m ∧ m.lookup (ofBytes slot.key) ≠ some (encodeSegmentSlot src i)) :
    Avoids (entries n) (At (Before src (i + 1))) := by
  have hcell := view_old hadm hmove
  have hkept : ∀ k a, m.lookup k = some a →
      (k = ofBytes slot.key → a ≠ encodeSegmentSlot src i) → ¬ At (Before src (i + 1)) a := by
    rintro k a hk hne ⟨s, j, ⟨hs, hj⟩, ha⟩
    rcases Nat.lt_succ_iff_lt_or_eq.mp hj with hlt | hji
    · exact havoid k a hk ⟨s, j, ⟨hs, hlt⟩, ha⟩
    · rw [hs, hji] at ha
      rw [ha] at hk
      exact hne (hown.key_eq hcell hk) ha
  rintro k a hk hat
  rcases hn with rfl | ⟨rfl, hne⟩
  · rw [entries, lookup_insert_eq] at hk
    split_ifs at hk with hkey
    -- the new slot lies in the target
    · obtain ⟨s, j, ⟨rfl, hj⟩, ha⟩ := hat
      rw [← Option.some.inj hk] at ha
      have hsrc := lt_of_lt_of_le hmove.source_lt hadm.segments
      have htarget := lt_of_lt_of_le hmove.target_lt hadm.segments
      have hroom := lt_of_lt_of_le hmove.room hadm.slots
      have hbound := lt_of_lt_of_le hmove.bound hadm.slots
      exact hmove.distinct (encodeSegmentSlot_inj htarget hroom hsrc (by omega) ha).1
    · exact hkept k a hk (fun heq => (hkey heq).elim) hat
  · refine hkept k a hk (fun heq ha => ?_) hat
    rw [heq, ha] at hk
    exact hne hk

theorem avoids_skip (hadm : o.Admissible K) (hsrc : src < o.segmentCount)
    (hi : i < o.totalSlots) (hvacant : w.disk.slot src i = none)
    (hown : Owns (entries m) (view o w.disk)) (havoid : Avoids (entries m) (At (Before src i))) :
    Avoids (entries m) (At (Before src (i + 1))) := by
  rintro k a hk ⟨s, j, ⟨hs, hj⟩, ha⟩
  rcases Nat.lt_succ_iff_lt_or_eq.mp hj with hlt | hji
  · exact havoid k a hk ⟨s, j, ⟨hs, hlt⟩, ha⟩
  · refine hown.not_vacant ?_ k hk
    rw [ha, hs, hji, view_encode hadm _ hsrc hi, hvacant]
    rfl

/-! The reset of a source whose slots have all been moved. -/

theorem avoids_segment (hadm : o.Admissible K) (h : Live o H w) (hsrc : src < o.segmentCount)
    (hown : Owns (entries m) (view o w.disk))
    (havoid : Avoids (entries m) (At (Before src (w.segs src).appendCursor))) :
    Avoids (entries m) (At (OneSegment o src)) := by
  rintro k a hk ⟨s, i, ⟨rfl, hi⟩, ha⟩
  refine havoid k a hk ⟨s, i, ⟨rfl, (h.segs s hsrc).below i ?_⟩, ha⟩
  obtain ⟨v, hv⟩ := hown k a hk
  rw [ha, view_encode hadm _ hsrc hi] at hv
  obtain ⟨slot, hslot, -⟩ := Option.map_eq_some_iff.mp hv
  exact ((h.segs s hsrc).slot_isSome i).mpr ⟨slot, hslot⟩

theorem live_reset (h : Live o H w) (hsrc : src < o.segmentCount)
    (havoid : Avoids (entries w.map) (At (OneSegment o src))) :
    Live o H (afterReset w src) ∧ value o (afterReset w src) = value o w := by
  have htouch := touches_afterReset (h.segs src hsrc)
  refine ⟨⟨h.mgr, segmentsOk_afterReset h.segs hsrc, touches_owns htouch h.owns havoid,
    touches_stored htouch h.stored fun _ hn => hn.elim, h.wal⟩, ?_⟩
  exact touches_content_eq htouch havoid

/-! The whole compaction. -/

theorem live_activated (h : Live o H w) :
    Live o H { w with mgr := (chooseActive o w.segs w.mgr).2 } := by
  obtain ⟨mgr, hstate, -, hmgr, -, -⟩ := getActiveSegment_spec (o := o) h.mgr
  obtain rfl : mgr = (chooseActive o w.segs w.mgr).2 := (congrArg World.mgr hstate).symm
  exact h.congr hmgr rfl rfl rfl h.wal

/-- The manager's part of the invariant while `src` is moved to `target`. -/
structure Placed (o : Options) (H : K → Bytes → Prop) (c₀ : K → Option Bytes) (src target : ℕ)
    (rest : List ℕ) (w : World K) : Prop where
  live : Live o H w
  contents : value o w = c₀
  source : src ∈ w.mgr.fullSet
  active : target ∈ w.mgr.segments
  others : ∀ id ∈ rest, id ∈ w.mgr.fullSet
  nodup : (src :: rest).Nodup

variable {c₀ : K → Option Bytes} {rest : List ℕ}

namespace Placed

variable (h : Placed o H c₀ src target rest w)

include h

theorem source_lt : src < o.segmentCount :=
  (h.live.mgr.segments src).mp (h.live.mgr.full src h.source)

theorem target_lt : target < o.segmentCount := (h.live.mgr.segments target).mp h.active

theorem source_not_mem : src ∉ rest := (List.nodup_cons.mp h.nodup).1

/-- A full segment that is not the source may be one of the candidates left; any other is not. -/
theorem not_candidate {id : ℕ} (hid : id ∉ w.mgr.fullSet) : id ≠ src ∧ id ∉ rest :=
  ⟨fun heq => hid (heq ▸ h.source), fun hmem => hid (h.others id hmem)⟩

theorem move (hslot : w.disk.slot src i = some slot) (hne : target ≠ src)
    (hroom : (w.segs target).appendCursor < o.totalSlots) : Move o w src i target slot := by
  have hok := h.live.segs src h.source_lt
  have hbit := (hok.slot_isSome i).mpr ⟨slot, hslot⟩
  exact ⟨h.source_lt, h.target_lt, hne, hslot,
    lt_of_lt_of_le (hok.below i hbit) hok.bound, hroom⟩

end Placed

/-- A property that a compaction carries from one candidate to the next: `P` speaks of the
candidates that are left, `E` also of the target and of the slots moved so far, and `F` holds
wherever the compaction gives up. -/
structure Steered (o : Options) (H : K → Bytes → Prop) (G T : Event K → Prop)
    (P : List ℕ → World K → Prop) (E : List ℕ → ℕ → ℕ → ℕ → World K → Prop)
    (F : World K → Prop) : Prop where
  refused : ∀ {rest src w}, Live o H w → P (src :: rest) w →
    (chooseActive o w.segs w.mgr).1 = none →
    F { w with mgr := (chooseActive o w.segs w.mgr).2 }
  start : ∀ {rest src target w}, Live o H w → P (src :: rest) w → (src :: rest).Nodup →
    (∀ id ∈ src :: rest, id ∈ w.mgr.fullSet) →
    (chooseActive o w.segs w.mgr).1 = some target →
    E rest src target 0 { w with mgr := (chooseActive o w.segs w.mgr).2 }
  skip : ∀ {rest src target i w}, Placed o H (value o w) src target rest w →
    i < (w.segs src).appendCursor → w.disk.slot src i = none →
    E rest src target i w → E rest src target (i + 1) w
  move : ∀ {rest src i target slot w}, Placed o H (value o w) src target rest w →
    Move o w src i target slot → Avoids (entries w.map) (At (Before src i)) →
    E rest src target i w →
    Guarded G T (run (File.compactSlot o src target (slotMoved o) i) w).trace ∧
      ((∀ e ∈ (run (File.compactSlot o src target (slotMoved o) i) w).trace, G e) →
        E rest src target (i + 1) (movedWorld o w src i target slot))
  stuck : ∀ {rest src i target slot w}, Placed o H (value o w) src target rest w →
    w.disk.slot src i = some slot →
    target = src ∨ ¬ (w.segs target).appendCursor < o.totalSlots →
    E rest src target i w → F w
  reset : ∀ {rest src target w}, Placed o H (value o w) src target rest w →
    E rest src target (w.segs src).appendCursor w →
    Guarded G T (run (File.resetSegment o src) w).trace ∧
      P rest (reclassify o src target (afterReset w src))

section Rules

variable {G T : Event K → Prop} {P : List ℕ → World K → Prop} {F : World K → Prop}

/-- The invariant of the slot loop. -/
structure Moving (o : Options) (H : K → Bytes → Prop) (c₀ : K → Option Bytes)
    (E : List ℕ → ℕ → ℕ → World K → Prop) (src target : ℕ) (rest : List ℕ) (c i : ℕ)
    (w : World K) : Prop extends Placed o H c₀ src target rest w where
  cursor : (w.segs src).appendCursor = c
  cleared : Avoids (entries w.map) (At (Before src i))
  carried : E rest src i w

def Stopped (o : Options) (H : K → Bytes → Prop) (c₀ : K → Option Bytes) (F : World K → Prop)
    (w : World K) : Prop :=
  Live o H w ∧ value o w = c₀ ∧ F w

/-- Between the reset of the source and the last critical section of the loop body. -/
structure Emptied (o : Options) (H : K → Bytes → Prop) (c₀ : K → Option Bytes)
    (P : List ℕ → World K → Prop) (src target : ℕ) (rest : List ℕ) (w : World K) : Prop
    extends Placed o H c₀ src target rest w where
  carried : P rest (reclassify o src target w)

section Steered

variable {E : List ℕ → ℕ → ℕ → ℕ → World K → Prop} (hadm : o.Admissible K)
variable (hc : Steered o H G T P E F)

include hadm hc

theorem moving_skip {c : ℕ} (hi : i < c)
    (h : Moving o H c₀ (fun rest src => E rest src target) src target rest c i w)
    (hbit : (w.segs src).bitmap i = false) :
    Moving o H c₀ (fun rest src => E rest src target) src target rest c (i + 1) w := by
  have hsrc := h.source_lt
  have hok := h.live.segs src hsrc
  have hcursor := h.cursor
  have hbound := hok.bound
  have hvacant := (hok.slot_none i).mp hbit
  exact { h with
    cleared := avoids_skip hadm hsrc (by omega) hvacant h.live.owns h.cleared
    carried := hc.skip (h.contents ▸ h.toPlaced) (by omega) hvacant h.carried }

theorem compactSlot_steered (c i : ℕ) :
    Triple .ok G T
      (fun w => Moving o H c₀ (fun rest src => E rest src target) src target rest c i w ∧
        (w.segs src).bitmap i = true)
      (File.compactSlot o src target (slotMoved o) i)
      (Checked (Moving o H c₀ (fun rest src => E rest src target) src target rest c (i + 1))
        (Stopped o H c₀ F)) := by
  rintro w ⟨h, hbit⟩
  have hplaced : Placed o H (value o w) src target rest w := h.contents ▸ h.toPlaced
  obtain ⟨slot, hslot⟩ := ((h.live.segs src h.source_lt).slot_isSome i).mp hbit
  by_cases hstuck : target = src ∨ ¬ (w.segs target).appendCursor < o.totalSlots
  · obtain ⟨hval, hstate, htrace⟩ :=
      run_compactSlot_stuck src i hadm (h.live.segs target h.target_lt) hstuck
    rw [htrace, hstate]
    exact ⟨trivial, fun _ => checked_fail hval
      ⟨h.live, h.contents, hc.stuck hplaced hslot hstuck h.carried⟩⟩
  · obtain ⟨hne, hroom⟩ := not_or.mp hstuck
    have hmove := h.move hslot hne (not_not.mp hroom)
    obtain ⟨htrace, hcarried⟩ := hc.move hplaced hmove h.cleared h.carried
    obtain ⟨hval, hstate, -⟩ := run_compactSlot hadm h.live hmove
    obtain ⟨hlive, hvalue⟩ := live_moved hadm h.live hmove
    obtain ⟨hsegs, hmgr, -, -⟩ := movedWorld_frame h.live src i target slot
    refine ⟨htrace, fun hg => ?_⟩
    have hend := hcarried hg
    rw [hval, hstate]
    refine checked_ok ⟨⟨hlive, hvalue.trans h.contents, hmgr ▸ h.source, hmgr ▸ h.active,
      hmgr ▸ h.others, h.nodup⟩, ?_, ?_, hend⟩
    · rw [hsegs, ← h.cursor]
      simp [copied, afterInsert, World.setSegment, World.setImage, Ne.symm hne]
    · refine avoids_step hadm hmove h.live.owns h.cleared ?_
      by_cases hk : w.map.lookup (ofBytes slot.key) = some (encodeSegmentSlot src i)
      · exact Or.inl (if_pos hk)
      · exact Or.inr ⟨if_neg hk, hk⟩

theorem reset_steered (c : ℕ) :
    Triple .ok G T (Moving o H c₀ (fun rest src => E rest src target) src target rest c c)
      (some <$> File.resetSegment o src)
      (Checked (Emptied o H c₀ P src target rest) (Stopped o H c₀ F)) := by
  intro w h
  have hsrc := h.source_lt
  have hcursor : c = (w.segs src).appendCursor := h.cursor.symm
  obtain ⟨htrace, hcarried⟩ := hc.reset (h.contents ▸ h.toPlaced) (hcursor ▸ h.carried)
  obtain ⟨hval, hstate⟩ := run_resetSegment o w src
  have havoid := avoids_segment hadm h.live hsrc h.live.owns (hcursor ▸ h.cleared)
  obtain ⟨hlive, hvalue⟩ := live_reset h.live hsrc havoid
  refine ⟨htrace, fun _ => ?_⟩
  rw [Prog.exec_map_val, Prog.exec_map_state, hval, hstate]
  exact checked_ok
    ⟨⟨hlive, hvalue.trans h.contents, h.source, h.active, h.others, h.nodup⟩, hcarried⟩

theorem compact_steered (src target : ℕ) (rest : List ℕ) :
    Triple .ok G T (fun w => Placed o H c₀ src target rest w ∧ E rest src target 0 w)
      (File.compact o src target (slotMoved o))
      (Checked (Emptied o H c₀ P src target rest) (Stopped o H c₀ F)) := by
  refine compact_triple
    (I := Moving o H c₀ (fun rest src => E rest src target) src target rest)
    (fun w hw => ?_) (fun w hw => ?_) (fun c i w hi h hbit => moving_skip hadm hc hi h hbit)
    (fun c i _ => compactSlot_steered hadm hc c i) (reset_steered hadm hc)
  · exact (hw.1.live.segs src hw.1.source_lt).isOpen
  · refine ⟨hw.1, rfl, ?_, hw.2⟩
    rintro k a - ⟨s, j, ⟨-, hj⟩, -⟩
    exact absurd hj (Nat.not_lt_zero j)

theorem runCompaction_steered (c₀ : K → Option Bytes) :
    Triple .ok G T (fun w => Live o H w ∧ value o w = c₀ ∧ P (candidates o w) w)
      (runAttachedCompaction o) (Checked (Stopped o H c₀ (P [])) (Stopped o H c₀ F)) := by
  unfold runAttachedCompaction runCompaction
  refine Triple.read fun w₀ => ?_
  have hloop := compactCandidates_triple (slotMoved o) (o := o) (G := G) (T := T)
    (F := Stopped o H c₀ F)
    (J := fun rest w => Live o H w ∧ value o w = c₀ ∧ (∀ id ∈ rest, id ∈ w.mgr.fullSet) ∧
      rest.Nodup ∧ P rest w)
    (A := fun src active rest w => Placed o H c₀ src active rest w ∧ E rest src active 0 w)
    (B := Emptied o H c₀ P)
    ?_ ?_ (fun src active rest => compact_steered hadm hc src active rest) ?_ (candidates o w₀)
  · refine hloop.weaken ?_ fun st w hw => ?_
    · rintro w ⟨⟨hlive, hvalue, hP⟩, rfl⟩
      exact ⟨hlive, hvalue, fun id hid => candidates_full hid, candidates_nodup w, hP⟩
    · unfold Checked at hw ⊢
      split_ifs at hw ⊢
      · exact ⟨hw.1, hw.2.1, hw.2.2.2.2⟩
      · exact hw
  · rintro src rest w ⟨hlive, hvalue, hfull, hnodup, hP⟩
    obtain ⟨mgr, hstate, htrace, -, hkept, hactive⟩ := getActiveSegment_spec (o := o) hlive.mgr
    obtain rfl : mgr = (chooseActive o w.segs w.mgr).2 := (congrArg World.mgr hstate).symm
    rw [htrace, hstate]
    refine ⟨trivial, fun _ => ?_⟩
    have hlive' := live_activated hlive
    cases hval : (run (getActiveSegment o) w).val with
    | none => exact ⟨hlive', hvalue, hc.refused hlive hP hval⟩
    | some active =>
      refine ⟨⟨hlive', hvalue, hkept.full src (hfull src (by simp)),
        (hlive'.mgr.segments active).mpr (hactive active hval),
        fun id hid => hkept.full id (hfull id (by simp [hid])), hnodup⟩,
        hc.start hlive hP hnodup hfull hval⟩
  · intro src active rest w hw
    exact hw.1.live.mgr.full src hw.1.source
  · intro src active rest w h
    have hmgr := reclassify_ok h.live.mgr (h.live.mgr.full src h.source) h.active
    refine ⟨h.live.congr hmgr rfl rfl rfl h.live.wal, h.contents, fun id hid => ?_,
      (List.nodup_cons.mp h.nodup).2, h.carried⟩
    refine reclassify_full (h.others id hid) ?_
    rintro rfl
    exact h.source_not_mem hid

end Steered

/-- A property that the manager's changes keep, whatever they are, and that speaks neither of the
target nor of its room. -/
structure Carried (o : Options) (H : K → Bytes → Prop) (G T : Event K → Prop)
    (P : List ℕ → World K → Prop) (E : List ℕ → ℕ → ℕ → World K → Prop)
    (F : World K → Prop) : Prop where
  manager : ∀ {rest w mgr}, P rest w → P rest { w with mgr := mgr }
  start : ∀ {rest src w}, Live o H w → P (src :: rest) w → E rest src 0 w
  skip : ∀ {rest src i w}, Live o H w → src < o.segmentCount → i < o.totalSlots →
    w.disk.slot src i = none → E rest src i w → E rest src (i + 1) w
  move : ∀ {rest src i target slot w}, Live o H w → Move o w src i target slot →
    src ∉ rest → Avoids (entries w.map) (At (Before src i)) →
    E rest src i w →
    Guarded G T (run (File.compactSlot o src target (slotMoved o) i) w).trace ∧
      ((∀ e ∈ (run (File.compactSlot o src target (slotMoved o) i) w).trace, G e) →
        E rest src (i + 1) (movedWorld o w src i target slot))
  reset : ∀ {rest src w}, Live o H w → src < o.segmentCount → src ∉ rest →
    E rest src (w.segs src).appendCursor w →
    Guarded G T (run (File.resetSegment o src) w).trace ∧ P rest (afterReset w src)
  early : ∀ {rest src i w}, E rest src i w → F w
  final : ∀ {rest w}, P rest w → F w

theorem Carried.steered {E : List ℕ → ℕ → ℕ → World K → Prop} (hc : Carried o H G T P E F) :
    Steered o H G T P (fun rest src _ => E rest src) F where
  refused _ hP _ := hc.final (hc.manager hP)
  start hlive hP _ _ _ := hc.start (live_activated hlive) (hc.manager hP)
  skip h hi hvacant hE :=
    hc.skip h.live h.source_lt (lt_of_lt_of_le hi (h.live.segs _ h.source_lt).bound) hvacant hE
  move h hmove havoid hE := hc.move h.live hmove h.source_not_mem havoid hE
  stuck _ _ _ hE := hc.early hE
  reset h hE := by
    obtain ⟨htrace, hP⟩ := hc.reset h.live h.source_lt h.source_not_mem hE
    exact ⟨htrace, hc.manager hP⟩

theorem runCompaction_carried {E : List ℕ → ℕ → ℕ → World K → Prop} (hadm : o.Admissible K)
    (hc : Carried o H G T P E F) (c₀ : K → Option Bytes) :
    Triple .ok G T (fun w => Live o H w ∧ value o w = c₀ ∧ P (candidates o w) w)
      (runAttachedCompaction o) fun _ => Stopped o H c₀ F := by
  refine (runCompaction_steered hadm hc.steered c₀).weaken (fun _ hw => hw) fun st w hw => ?_
  unfold Checked at hw
  split_ifs at hw
  · exact ⟨hw.1, hw.2.1, hc.final hw.2.2⟩
  · exact hw

end Rules

/-- A compaction, however it ends and wherever it waits for ever, changes no content. -/
theorem compaction_spec (hadm : o.Admissible K) (h : Live o H w) :
    Live o H (run (runAttachedCompaction o) w).state ∧
      value o (run (runAttachedCompaction o) w).state = value o w := by
  have hnothing : Carried o H (fun _ => True) (fun _ => True) (fun _ _ => True)
      (fun _ _ _ _ => True) fun _ => True :=
    ⟨fun _ => trivial, fun _ _ => trivial, fun _ _ _ _ _ => trivial,
      fun _ _ _ _ _ => ⟨guarded_of_forall fun _ _ => trivial, fun _ => trivial⟩,
      fun _ _ _ _ => ⟨guarded_of_forall fun _ _ => trivial, trivial⟩, fun _ => trivial,
      fun _ => trivial⟩
  obtain ⟨hlive, hvalue, -⟩ := (runCompaction_carried hadm hnothing (value o w) w
    ⟨h, rfl, trivial⟩).2 fun _ _ => trivial
  exact ⟨hlive, hvalue⟩

end ParaKV.Index.Compaction
