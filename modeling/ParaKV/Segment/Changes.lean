/- GID: ParaKV/Segment/Changes
   source: parakv/core/segment/segment_base.cc, parakv/core/segment/segment_file.cc
   digest: What the operations of a segment do to its members, and when they stay inside its
     bitmap. -/

import ParaKV.Segment.Media

/-!
`SetSlotBit`, `ClearSlotBit` and `IsSlotOccupied` compare a slot with `total_slots_`, and that only
in an assertion; nothing compares its byte with the size of `bitmap_`. The operations are safe when
the layout has a bit for every slot and the cursor has stayed among the slots.
-/

set_option autoImplicit false

namespace ParaKV.Segment.Changes

open Lib.TracedProgram Index.Key Segment.Base Segment.Bytes Segment.BytesSpec Segment.Media

variable {δ τ : Type} {c : SegmentConfig} {io : Medium δ} {m m' : Members} {s t : Object δ}

/-- What holds of the members also while the segment is being opened. -/
def Long (c : SegmentConfig) (s : Object δ) : Prop :=
  s.members.bitmap.length = (calculateLayout c).bitmapSize

structure Fenced (c : SegmentConfig) (s : Object δ) : Prop where
  long : Long c s
  bound : s.opened = true → s.members.appendCursor ≤ (calculateLayout c).totalSlots

/-- The changes that the operations make, those of a failed flush and its rollback included. -/
inductive Change (c : SegmentConfig) (m : Members) : Members → Prop
  | stays : Change c m m
  | appended {n : ℕ} : n ≤ sub32 (calculateLayout c).totalSlots m.appendCursor →
      Change c m ((setSlotBits m (List.range' m.appendCursor n)).appended c n)
  | insertUndone : m.appendCursor < (calculateLayout c).totalSlots →
      Change c m ((m.setSlotBit m.appendCursor).clearSlotBit m.appendCursor)
  | deleted {i : ℕ} : i < (calculateLayout c).totalSlots → m.isSlotOccupied i = true →
      Change c m ((m.clearSlotBit i).deleted c)
  | deleteUndone {i : ℕ} : i < (calculateLayout c).totalSlots → m.isSlotOccupied i = true →
      Change c m ((m.clearSlotBit i).setSlotBit i)
  | reset : Change c m m.resetBitmap

def Changed (c : SegmentConfig) (s t : Object δ) : Prop :=
  t.opened = s.opened ∧ Change c s.members t.members

theorem Changed.refl (c : SegmentConfig) (s : Object δ) : Changed c s s := ⟨rfl, .stays⟩

theorem Change.of_untouched (h : Change c s.members m) (hs : s.opened = true)
    (ht : Untouched true m t) : Changed c s t :=
  ⟨ht.1.trans hs.symm, ht.2 ▸ h⟩

theorem Change.length (h : Change c m m') : m'.bitmap.length = m.bitmap.length := by
  cases h with
  | stays => rfl
  | appended => simp [Members.appended, setSlotBits_length]
  | insertUndone => simp [Members.setSlotBit, Members.clearSlotBit]
  | deleted => simp [Members.clearSlotBit]
  | deleteUndone => simp [Members.setSlotBit, Members.clearSlotBit]
  | reset => simp [Members.resetBitmap]

/-! The operations, whatever the file operations do. -/

theorem opened_safe {A : Prop} {α : Type} {a : α} {f : Object δ → P δ α} {Q : α → Object δ → Prop}
    (ha : Q a s) (hf : s.opened = true → Safe A (Untouched true s.members) (f s) Q) :
    Safe A (fun t => t = s) (get >>= fun s => if !s.opened then pure a else f s) Q := by
  refine .read fun s' hs' => ?_
  subst hs'
  refine .ite (fun _ => .ret fun t ht => ht ▸ ha) fun hopen => ?_
  have hs : s'.opened = true := by simpa using hopen
  exact (hf hs).weaken (fun t ht => by rw [ht]; exact ⟨hs, rfl⟩) fun _ _ h => h

theorem Fenced.byte_lt (hcovers : Covers c) (h : Fenced c s) {i : ℕ}
    (hi : i < (calculateLayout c).totalSlots) : i / 8 < s.members.bitmap.length :=
  h.long ▸ hcovers.byte_lt hi

theorem insert_changes (hio : Quiet io) (key value : Bytes) (s : Object δ) :
    Safe (Covers c ∧ Fenced c s) (fun t => t = s) (insertSlot c io key value) fun _ =>
      Changed c s := by
  refine opened_safe (.refl c s) fun hopen => ?_
  cases hfree : s.members.findFreeSlot c with
  | none => exact .ret fun t ht => Change.stays.of_untouched hopen ht
  | some sid =>
    obtain ⟨rfl, hroom⟩ := findFreeSlot_eq_some hfree
    have hin : Covers c ∧ Fenced c s → s.members.appendCursor / 8 < s.members.bitmap.length :=
      fun ⟨hcovers, hs⟩ => hs.byte_lt hcovers hroom
    have hone : 1 ≤ sub32 (calculateLayout c).totalSlots s.members.appendCursor := by
      rw [sub32_eq hroom.le (total_lt c)]
      omega
    refine (writeSlot_untouched hio _ _ _).bind fun st =>
      .ite (fun _ => .ret fun t ht => Change.stays.of_untouched hopen ht) fun _ => ?_
    refine (touch_one_untouched hin).bind fun _ => (onMembers_untouched _).bind fun _ => ?_
    refine (flushBitmap_untouched hio).bind fun st => .ite (fun _ => ?_) fun _ => ?_
    · refine (touch_one_untouched fun ha => ?_).bind fun _ => (onMembers_untouched _).bind fun _ =>
        .ret fun t ht => (Change.insertUndone hroom).of_untouched hopen ht
      exact lt_of_lt_of_eq (hin ha) (Lib.ByteStore.length_setBit _ _).symm
    · exact (onMembers_untouched _).bind fun _ =>
        .ret fun t ht => (Change.appended hone).of_untouched hopen ht

theorem batchInsert_changes (hio : Quiet io) (keys values : Bytes) (count : ℕ) (s : Object δ) :
    Safe (Covers c ∧ Fenced c s) (fun t => t = s) (batchInsertSlots c io keys values count)
      fun r t => r.1 = .ok → Changed c s t := by
  refine .ite (fun _ => .ret fun t ht _ => ht ▸ .refl c s) fun _ => ?_
  refine opened_safe (fun _ => .refl c s) fun hopen => .ite (fun _ => ?_) fun havailable => ?_
  · exact .ret fun t ht _ => Change.stays.of_untouched hopen ht
  have hcount := Nat.not_lt.mp havailable
  have hin : Covers c ∧ Fenced c s → ∀ i ∈ List.range' s.members.appendCursor count,
      i / 8 < s.members.bitmap.length := by
    rintro ⟨hcovers, hs⟩ i hi
    have hrange := List.mem_range'_1.mp hi
    have hbound := hs.bound hopen
    rw [sub32_eq hbound (total_lt c)] at hcount
    exact hs.byte_lt hcovers (by omega)
  refine (writePayloads_untouched hio _ _ _ _ _).bind fun st =>
    .ite (fun hst => .ret fun t _ hok => absurd hok hst) fun _ => ?_
  refine (touch_untouched hin).bind fun _ => (onMembers_untouched _).bind fun _ => ?_
  refine (flushBitmap_untouched hio).bind fun st =>
    .ite (fun hst => .ret fun t _ hok => absurd hok hst) fun _ => ?_
  exact (onMembers_untouched _).bind fun _ =>
    .ret fun t ht _ => (Change.appended hcount).of_untouched hopen ht

theorem read_changes (hio : Quiet io) (slotId : ℕ) (s : Object δ) :
    Safe (Covers c ∧ Fenced c s) (fun t => t = s) (readOccupied c io slotId) fun _ =>
      Changed c s := by
  refine .ite (fun _ => .ret fun t ht => ht ▸ .refl c s) fun hlt => ?_
  refine opened_safe (.refl c s) fun hopen => ?_
  refine (touch_one_untouched fun ⟨hcovers, hs⟩ => hs.byte_lt hcovers (by omega)).bind fun _ => ?_
  refine .ite (fun _ => .ret fun t ht => Change.stays.of_untouched hopen ht) fun _ => ?_
  exact (readSlot_untouched hio slotId).weaken (fun _ h => h) fun _ t ht =>
    Change.stays.of_untouched hopen ht

theorem delete_changes (hio : Quiet io) (slotId : ℕ) (s : Object δ) :
    Safe (Covers c ∧ Fenced c s) (fun t => t = s) (deleteSlot c io slotId) fun _ =>
      Changed c s := by
  refine .ite (fun _ => .ret fun t ht => ht ▸ .refl c s) fun hlt => ?_
  refine opened_safe (.refl c s) fun hopen => ?_
  have hi : slotId < (calculateLayout c).totalSlots := by omega
  have hin : Covers c ∧ Fenced c s → slotId / 8 < s.members.bitmap.length :=
    fun ⟨hcovers, hs⟩ => hs.byte_lt hcovers hi
  refine (touch_one_untouched hin).bind fun _ =>
    .ite (fun _ => .ret fun t ht => Change.stays.of_untouched hopen ht) fun hbit => ?_
  have hset : s.members.isSlotOccupied slotId = true := by simpa using hbit
  refine (touch_one_untouched hin).bind fun _ => (onMembers_untouched _).bind fun _ => ?_
  refine (flushBitmap_untouched hio).bind fun st => .ite (fun _ => ?_) fun _ => ?_
  · refine (touch_one_untouched fun ha => ?_).bind fun _ => (onMembers_untouched _).bind fun _ =>
      .ret fun t ht => (Change.deleteUndone hi hset).of_untouched hopen ht
    exact lt_of_lt_of_eq (hin ha) (Lib.ByteStore.length_clearBit _ _).symm
  · exact (onMembers_untouched (Members.deleted c)).bind fun _ =>
      .ret fun t ht => (Change.deleted hi hset).of_untouched hopen ht

theorem compact_changes (hio : Quiet io) (segmentId : ℕ) (target : Target τ) (t : τ)
    (s : Object δ) :
    Safe (Covers c ∧ Fenced c s) (fun t => t = s) (compactSlots c io segmentId target t)
      fun _ => Changed c s := by
  refine opened_safe (.refl c s) fun hopen => ?_
  have hin : Covers c ∧ Fenced c s → ∀ j, j < 0 + s.members.appendCursor →
      j / 8 < s.members.bitmap.length := by
    rintro ⟨hcovers, hs⟩ j hj
    have hbound := hs.bound hopen
    exact hs.byte_lt hcovers (by omega)
  refine (moveSlots_untouched hio segmentId target t hin).bind fun r =>
    .ite (fun _ => .ret fun t ht => Change.stays.of_untouched hopen ht) fun _ => ?_
  refine (onMembers_untouched _).bind fun _ => (flushBitmap_untouched hio).bind fun st => ?_
  exact .ret fun t ht => Change.reset.of_untouched hopen ht

theorem syncBitmap_changes {A : Prop} (hio : Quiet io) (s : Object δ) :
    Safe A (fun t => t = s) (syncBitmap io) fun _ => Changed c s :=
  opened_safe (.refl c s) fun hopen =>
    (flushBitmap_untouched hio).weaken (fun _ h => h) fun _ _ ht =>
      Change.stays.of_untouched hopen ht

/-! `Open` and `Close` of a file. -/

section File

open SegmentFile (Disk attempt setOpened onFile medium)

variable {A : Prop} {s t : Object Disk}

theorem attempt_safe {Q Q' : Object Disk → Prop} {effect : Object Disk → Object Disk}
    (h : ∀ s, Q s → Q' (effect s)) :
    Safe A Q (attempt effect) fun ok s => if ok then Q' s else Q s := by
  refine Safe.draw.bind fun outcome => ?_
  cases outcome with
  | ok =>
    have hchange : Safe A Q (modify effect : P Disk PUnit) fun _ => Q' := .change h
    exact hchange.bind fun _ => .ret fun _ h => by simpa using h
  | fail n => exact .ret fun _ h => by simpa using h

theorem attempt_keeps {Q : Object Disk → Prop} {effect : Object Disk → Object Disk}
    (h : ∀ s, Q s → Q (effect s)) : Safe A Q (attempt effect) fun _ => Q :=
  (attempt_safe h).weaken (fun _ h => h) fun ok s h => by cases ok <;> simpa using h

theorem flushBitmap_keeps {Q : Members → Prop} :
    Safe A (fun s => Q s.members) (flushBitmap medium) fun _ s => Q s.members := by
  intro outcomes s hs
  obtain ⟨hmute, -, hmembers⟩ := flushBitmap_untouched file_quiet outcomes s ⟨rfl, rfl⟩
  refine ⟨hmute, ?_⟩
  show Q _
  rw [hmembers]
  exact hs

/-- What `Open` leaves: a segment that is closed, or one that was open already, or one whose
counters have been set to zero or rebuilt. -/
structure Reopened (c : SegmentConfig) (s t : Object Disk) : Prop where
  long : Long c s → Long c t
  members : t.opened = true → t = s ∨ ∃ m : Members, t.members = m.resetBitmap ∨
    t.members = m.rebuild c

theorem loadBitmap_long {B : Prop} :
    Safe A (fun t => B → Long c t) (loadBitmap c medium) fun _ t => B → Long c t := by
  intro outcomes s hs
  have hread := file_quiet.read (A := A) (calculateLayout c).bitmapSize (medium.position 0)
    s.opened s.members
  obtain ⟨hmute, ⟨-, hmembers⟩, hgot⟩ := hread outcomes s ⟨rfl, rfl⟩
  refine ⟨fun ha => ?_, fun hb => ?_⟩
  · show _ ++ [] = []
    rw [List.append_nil]
    exact hmute ha
  · have hlong := hs hb
    simp only [loadBitmap, Prog.bind_state, Prog.modify_state, Prog.pure_state, Long, onMembers,
      hmembers]
    unfold Long at hlong
    rw [List.length_append, List.length_drop]
    omega

theorem rebuildCounters_changes :
    Safe (Covers c ∧ Long c s) (fun t => Long c s → Long c t) (rebuildCounters c : P Disk Unit)
      fun _ => Reopened c s := by
  intro outcomes t ht
  have htouch : Safe (Covers c ∧ Long c s) (Untouched t.opened t.members)
      (touch (List.range (calculateLayout c).totalSlots) : P Disk Unit) fun _ =>
        Untouched t.opened t.members := touch_untouched fun ⟨hcovers, hs⟩ i hi =>
    ht hs ▸ hcovers.byte_lt (List.mem_range.mp hi)
  have hcount : Safe (Covers c ∧ Long c s) (Untouched t.opened t.members)
      (modify (onMembers (·.rebuild c)) : P Disk PUnit) fun _ =>
        Untouched t.opened (t.members.rebuild c) := onMembers_untouched _
  obtain ⟨hmute, hu⟩ := (htouch.bind fun _ => hcount) outcomes t ⟨rfl, rfl⟩
  refine ⟨hmute, fun hs => ?_, fun _ => Or.inr ⟨t.members, Or.inr hu.2⟩⟩
  have hlength : (t.members.rebuild c).bitmap.length = t.members.bitmap.length := by
    simp [Members.rebuild]
  exact (congrArg (·.bitmap.length) hu.2).trans (hlength.trans (ht hs))

theorem open_changes (s : Object Disk) :
    Safe (Covers c ∧ Long c s) (fun t => t = s) (SegmentFile.openSegment c) fun _ =>
      Reopened c s := by
  -- while it is being opened the segment keeps the length of its bitmap
  let Opening : Object Disk → Prop := fun t => Long c s → Long c t
  have hclose : ∀ st : Status, Safe (Covers c ∧ Long c s) Opening
      (do modify (setOpened false); return st : P Disk Status) fun _ => Reopened c s := fun st =>
    Safe.bind (Q := fun _ t => Opening t ∧ t.opened = false) (.change fun _ h => ⟨h, rfl⟩) fun _ =>
      .ret fun t ht => ⟨ht.1, fun h => by rw [ht.2] at h; cases h⟩
  refine .read fun s' hs' => .ite (fun _ => ?_) fun hclosed => .read fun s'' hs'' => ?_
  · exact .ret fun t ht => ht ▸ hs' ▸ ⟨fun h => h, fun _ => Or.inl rfl⟩
  subst hs' hs''
  have hstat : Safe (Covers c ∧ Long c s'') (fun t => t = s'') (attempt id) fun _ t =>
      t = s'' := attempt_keeps fun _ h => h
  refine hstat.bind fun statOk => ?_
  have hopen : Safe (Covers c ∧ Long c s'') (fun t => t = s'')
      (attempt fun s : Object Disk => { s with
        opened := true
        dev := if (s''.dev.isSome && statOk) = true then s.dev else some (s.dev.getD .empty) })
      fun ok t => if ok then Opening t else t = s'' :=
    attempt_safe fun t ht hlong => by rw [ht]; exact hlong
  refine hopen.bind fun openOk => ?_
  cases openOk with
  | false => exact .ret fun t ht => ht ▸ ⟨fun h => h, fun _ => Or.inl rfl⟩
  | true =>
    refine .ite (fun h => absurd h (by decide)) fun _ => .ite (fun _ => ?_) fun _ => ?_
    · -- a new file
      have hsize : Safe (Covers c ∧ Long c s'') Opening
          (attempt (onFile (·.resize c.segmentSize))) fun _ => Opening :=
        attempt_keeps fun _ h => h
      refine hsize.bind fun sized => .ite (fun _ => hclose _) fun _ => ?_
      let Blank : Members → Prop := fun m =>
        (Long c s'' → m.bitmap.length = (calculateLayout c).bitmapSize) ∧
          ∃ m', m = Members.resetBitmap m'
      have hreset : Safe (Covers c ∧ Long c s'') Opening
          (modify (onMembers (·.resetBitmap)) : P Disk PUnit) fun _ t => Blank t.members :=
        .change fun t ht => ⟨fun h => List.length_replicate.trans (ht h), t.members, rfl⟩
      refine hreset.bind fun _ => (flushBitmap_keeps (Q := Blank)).bind fun st =>
        .ite (fun _ => (hclose st).weaken (fun t ht => ht.1) fun _ _ h => h) fun _ => ?_
      exact .ret fun t ⟨hlong, m, hm⟩ => ⟨hlong, fun _ => Or.inr ⟨m, Or.inl hm⟩⟩
    · refine loadBitmap_long.bind fun st => .ite (fun _ => hclose st) fun _ => ?_
      exact rebuildCounters_changes.bind fun _ => .ret fun _ h => h

theorem close_changes (s : Object Disk) :
    Safe A (fun t => t = s) SegmentFile.close fun _ t =>
      t.opened = false ∧ t.members = s.members := by
  refine .read fun s' hs' => .ite (fun hclosed => .ret fun t ht => ?_) fun _ => ?_
  · rw [ht, hs']
    exact ⟨by simpa [hs'] using hclosed, rfl⟩
  have hsync : Safe A (fun t => t.members = s.members) (attempt id) fun _ t =>
      t.members = s.members := attempt_keeps fun _ h => h
  refine ((flushBitmap_keeps (Q := fun m => m = s.members)).weaken (fun t ht => by rw [ht, hs'])
    fun _ _ h => h).bind fun _ => ?_
  refine hsync.bind fun _ => hsync.bind fun _ => ?_
  exact Safe.bind (Q := fun _ t => t.opened = false ∧ t.members = s.members)
    (.change fun _ h => ⟨rfl, h⟩) fun _ => .ret fun _ h => h

end File

end ParaKV.Segment.Changes
