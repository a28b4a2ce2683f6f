/- GID: ParaKV/Segment/Batches
   source: parakv/core/segment/segment_file.cc, parakv/core/segment/segment_block_dev.cc
   digest: Batches of slots are all or nothing, on either medium, as long as the bitmap is
     written. -/

import ParaKV.Segment.ByteCounters

/-!
`BatchInsert` writes the payloads of all its slots, sets their bits, writes the bitmap and only then
counts the slots. When a payload is not written nothing in memory has changed yet. When the bitmap
is not written the bits are already set, and unlike `Insert` and `Delete` it does not take them
back: the slots above the cursor are read as if they were stored, and deleting them counts down.
-/

set_option autoImplicit false

namespace ParaKV.Segment.Batches

open Relation Lib.TracedProgram Lib.ByteStore Index.Key Segment.Base Segment.Bytes Segment.BytesSpec
open Segment.Media Segment.Changes
open Core.State (IoOutcome)

variable {δ τ : Type} {c : SegmentConfig} {m : Members}

/-! Bits above the cursor. -/

theorem bit_setBit_of_ne {bm : Bytes} {i j : ℕ} (h : j ≠ i) : bit (setBit bm i) j = bit bm j := by
  by_cases hi : i / 8 < bm.length
  · rw [bit_setBit hi, decide_eq_false h, Bool.false_or]
  · have hsame : setBit bm i = bm := List.modify_eq_self (by omega)
    rw [hsame]

theorem setSlotBits_of_notMem {ids : List ℕ} {j : ℕ} (h : j ∉ ids) :
    (setSlotBits m ids).isSlotOccupied j = m.isSlotOccupied j := by
  induction ids generalizing m with
  | nil => rfl
  | cons i ids ih =>
    rw [List.mem_cons, not_or] at h
    obtain ⟨hi, hrest⟩ := h
    have hstep : setSlotBits m (i :: ids) = setSlotBits (m.setSlotBit i) ids := rfl
    rw [hstep, ih hrest]
    exact bit_setBit_of_ne hi

def Vacant (c : SegmentConfig) (m : Members) : Prop :=
  m.appendCursor ≤ (calculateLayout c).totalSlots ∧
    ∀ i, m.appendCursor ≤ i → i < (calculateLayout c).totalSlots → m.isSlotOccupied i = false

theorem vacant_of_bits {m' : Members} (h : Vacant c m) (hcursor : m'.appendCursor = m.appendCursor)
    (hbits : ∀ i, m.appendCursor ≤ i → i < (calculateLayout c).totalSlots →
      m.isSlotOccupied i = false → m'.isSlotOccupied i = false) : Vacant c m' := by
  refine ⟨hcursor ▸ h.1, fun i hi hlt => ?_⟩
  rw [hcursor] at hi
  exact hbits i hi hlt (h.2 i hi hlt)

theorem vacant_appended (h : Vacant c m) {n : ℕ}
    (hroom : m.appendCursor + n ≤ (calculateLayout c).totalSlots) :
    Vacant c ((setSlotBits m (List.range' m.appendCursor n)).appended c n) := by
  have hcursor : ((setSlotBits m (List.range' m.appendCursor n)).appended c n).appendCursor =
      m.appendCursor + n := by
    rw [Members.appended, updateState_appendCursor, setSlotBits_appendCursor]
  refine ⟨hcursor ▸ hroom, fun i hi hlt => ?_⟩
  rw [hcursor] at hi
  have hbitmap : ((setSlotBits m (List.range' m.appendCursor n)).appended c n).bitmap =
      (setSlotBits m (List.range' m.appendCursor n)).bitmap := updateState_bitmap
  have hout : i ∉ List.range' m.appendCursor n := by
    rw [List.mem_range'_1]
    omega
  rw [Members.isSlotOccupied, hbitmap, ← Members.isSlotOccupied, setSlotBits_of_notMem hout]
  exact h.2 i (by omega) hlt

theorem vacant_setClear (h : Vacant c m) (i : ℕ) :
    Vacant c ((m.setSlotBit i).clearSlotBit i) := by
  refine vacant_of_bits h rfl fun j _ _ hj => ?_
  by_cases hij : j = i
  · rw [occupied_clearSlotBit, decide_eq_false (not_not.mpr hij), Bool.false_and]
  · rw [occupied_clearSlotBit, decide_eq_true hij, Bool.true_and]
    exact (bit_setBit_of_ne hij).trans hj

theorem vacant_clear (h : Vacant c m) (i : ℕ) : Vacant c (m.clearSlotBit i) := by
  refine vacant_of_bits h rfl fun j _ _ hj => ?_
  rw [occupied_clearSlotBit, hj, Bool.and_false]

theorem vacant_clearSet (h : Vacant c m) {i : ℕ} (hi : i < (calculateLayout c).totalSlots)
    (hbit : m.isSlotOccupied i = true) : Vacant c ((m.clearSlotBit i).setSlotBit i) := by
  refine vacant_of_bits h rfl fun j hcursor hj hfree => ?_
  have hij : j ≠ i := by
    rintro rfl
    rw [hfree] at hbit
    cases hbit
  exact (bit_setBit_of_ne hij).trans ((vacant_clear h i).2 j hcursor hj)

theorem vacant_deleted (h : Vacant c m) (i : ℕ) : Vacant c ((m.clearSlotBit i).deleted c) := by
  refine vacant_of_bits (vacant_clear h i) deleted_appendCursor fun j _ _ hj => ?_
  rw [Members.isSlotOccupied, deleted_bitmap]
  exact hj

theorem vacant_reset (m : Members) : Vacant c m.resetBitmap :=
  ⟨Nat.zero_le _, fun i _ _ => bit_replicate_zero _ i⟩

theorem vacant_rebuild (m : Members) : Vacant c (m.rebuild c) := by
  obtain ⟨hbelow, hbound⟩ := scanBitmap_spec m.bitmap (calculateLayout c).totalSlots
  have hcursor : (m.rebuild c).appendCursor =
      (Members.scanBitmap m.bitmap (calculateLayout c).totalSlots).2 := by
    rw [Members.rebuild, updateState_appendCursor]
  have hbitmap : (m.rebuild c).bitmap = m.bitmap := by
    rw [Members.rebuild, updateState_bitmap]
  refine ⟨hcursor ▸ hbound, fun i hi hlt => ?_⟩
  rw [hcursor] at hi
  rw [Members.isSlotOccupied, hbitmap]
  by_contra hbit
  have := hbelow i hlt (by simpa using hbit)
  omega

/-! The operations that do not insert a batch. -/

section Operations

def Inv (c : SegmentConfig) (s : Object δ) : Prop := s.opened = true → Vacant c s.members

theorem Inv.of_untouched {opened : Bool} {s : Object δ} (h : Untouched opened m s)
    (hm : Vacant c m) : Inv c s := fun _ => h.2 ▸ hm

theorem Change.vacant (hm : Vacant c m) {m' : Members} (h : Change c m m') : Vacant c m' := by
  have hbound := hm.1
  cases h with
  | stays => exact hm
  | appended hn =>
    rw [sub32_eq hbound (total_lt c)] at hn
    exact vacant_appended hm (by omega)
  | insertUndone => exact vacant_setClear hm _
  | deleted => exact vacant_deleted hm _
  | deleteUndone hi hbit => exact vacant_clearSet hm hi hbit
  | reset => exact vacant_reset m

theorem Inv.changed {s t : Object δ} (hs : Inv c s) (h : Changed c s t) : Inv c t :=
  fun hopen => Change.vacant (hs (h.1 ▸ hopen)) h.2

end Operations

/-! A batch. -/

section Batch

variable {io : Medium δ} {keys values : Bytes} {count : ℕ} {outcomes : ℕ → IoOutcome}
  {s : Object δ}

/-- If the payloads are written, so is the bitmap: the call behind them succeeds. -/
def Committed (c : SegmentConfig) (io : Medium δ) (keys values : Bytes) (count : ℕ)
    (outcomes : ℕ → IoOutcome) (s : Object δ) : Prop :=
  let r := writePayloads c io keys values s.members.appendCursor count 0 outcomes s
  r.val = .ok → outcomes r.used = .ok

/-- A batch that is committed either fails without a change of the members, or counts all its
slots. -/
theorem batch_cases (hio : Quiet io) (hcommit : Committed c io keys values count outcomes s) :
    let r := batchInsertSlots c io keys values count outcomes s
    (r.val.1 ≠ .ok ∧ Untouched s.opened s.members r.state) ∨
      (r.val.1 = .ok ∧ s.opened = true ∧
        count ≤ sub32 (calculateLayout c).totalSlots s.members.appendCursor ∧
        Untouched true ((setSlotBits s.members
          (List.range' s.members.appendCursor count)).appended c count) r.state) := by
  intro r
  by_cases hcount : count = 0
  · refine Or.inl ?_
    simp only [r, batchInsertSlots, if_pos hcount]
    exact ⟨by simp, rfl, rfl⟩
  by_cases hopen : s.opened = true
  swap
  · refine Or.inl ?_
    have hclosed : (!s.opened) = true := by simpa using hopen
    simp only [r, batchInsertSlots, if_neg hcount, Prog.bind_val, Prog.bind_state, Prog.get_val,
      Prog.get_state, if_pos hclosed]
    exact ⟨by simp, rfl, rfl⟩
  have hclosed : ¬ (!s.opened) = true := by simp [hopen]
  by_cases hfull : count > sub32 (calculateLayout c).totalSlots s.members.appendCursor
  · refine Or.inl ?_
    simp only [r, batchInsertSlots, if_neg hcount, Prog.bind_val, Prog.bind_state, Prog.get_val,
      Prog.get_state, if_neg hclosed, if_pos hfull]
    exact ⟨by simp, rfl, rfl⟩
  set cursor := s.members.appendCursor with hcursor
  set p := writePayloads c io keys values cursor count 0 outcomes s with hp
  have hpayloads : Untouched true s.members p.state :=
    (writePayloads_untouched hio keys values cursor count 0).ensures outcomes s ⟨hopen, rfl⟩
  by_cases hwritten : p.val = .ok
  swap
  · refine Or.inl ?_
    simp only [r, batchInsertSlots, if_neg hcount, Prog.bind_val, Prog.bind_state, Prog.get_val,
      Prog.get_state, Prog.get_used, Nat.add_zero, if_neg hclosed, ← hcursor, if_neg hfull, ← hp,
      ne_eq, if_pos hwritten]
    exact ⟨hwritten, hopen ▸ hpayloads⟩
  · set ids := List.range' cursor count with hids
    set q := flushBitmap io (fun n => outcomes (n + p.used))
      (onMembers (setSlotBits · ids) p.state) with hq
    have hbits := (onMembers_untouched (setSlotBits · ids)).ensures outcomes p.state hpayloads
    have hflushed : Untouched true (setSlotBits s.members ids) q.state :=
      (flushBitmap_untouched hio).ensures _ _ hbits
    have hflush : q.val = .ok :=
      hio.write_ok _ _ _ _ ((congrArg outcomes (Nat.zero_add _)).trans (hcommit hwritten))
    have hcounted := (onMembers_untouched (·.appended c count)).ensures outcomes q.state hflushed
    have hwritten' : ¬ p.val ≠ .ok := not_not.mpr hwritten
    have hflush' : ¬ q.val ≠ .ok := not_not.mpr hflush
    refine Or.inr ⟨?_, hopen, Nat.not_lt.mp hfull, ?_⟩
    · simp only [r, batchInsertSlots, if_neg hcount, Prog.bind_val, Prog.get_val, Prog.get_state,
        Prog.get_used, Nat.add_zero, if_neg hclosed, ← hcursor, if_neg hfull, ← hp,
        if_neg hwritten', touch_state, touch_used, Prog.modify_state, Prog.modify_used, ← hids,
        ← hq,
        if_neg hflush', Prog.pure_val]
    · simp only [r, batchInsertSlots, if_neg hcount, Prog.bind_state, Prog.get_val, Prog.get_state,
        Prog.get_used, Nat.add_zero, if_neg hclosed, ← hcursor, if_neg hfull, ← hp,
        if_neg hwritten', touch_state, touch_used, Prog.modify_state, Prog.modify_used, ← hids,
        ← hq,
        if_neg hflush', Prog.pure_state]
      exact hcounted

theorem batch_keeps (hio : Quiet io) (hs : Inv c s)
    (hcommit : Committed c io keys values count outcomes s) :
    Inv c (batchInsertSlots c io keys values count outcomes s).state := by
  rcases batch_cases hio hcommit with ⟨-, hsame⟩ | ⟨-, hopen, hroom, hcounted⟩
  · intro hopen
    rw [hsame.1] at hopen
    rw [hsame.2]
    exact hs hopen
  · have hvacant := hs hopen
    rw [sub32_eq hvacant.1 (total_lt c)] at hroom
    have hbound := hvacant.1
    exact .of_untouched hcounted (vacant_appended hvacant (by omega))

/-- What a failed batch leaves: the members as they were, and none of its slots to be read or
deleted. -/
structure AllOrNothing (c : SegmentConfig) (io : Medium δ) (count : ℕ) (s s' : Object δ) :
    Prop where
  members : s'.members = s.members
  unseen : s.opened = true → ∀ slotId, s.members.appendCursor ≤ slotId →
    slotId < s.members.appendCursor + count → slotId < (calculateLayout c).totalSlots →
    ∀ outcomes, (readOccupied c io slotId outcomes s').val.1 = .notFound ∧
      (deleteSlot c io slotId outcomes s').val = .notFound ∧
      (deleteSlot c io slotId outcomes s').state = s'

theorem allOrNothing_of_failed (hio : Quiet io) (hs : Inv c s)
    (hcommit : Committed c io keys values count outcomes s)
    (hfail : (batchInsertSlots c io keys values count outcomes s).val.1 ≠ .ok) :
    AllOrNothing c io count s (batchInsertSlots c io keys values count outcomes s).state := by
  rcases batch_cases hio hcommit with ⟨-, hopened, hmembers⟩ | ⟨hok, -⟩
  · generalize (batchInsertSlots c io keys values count outcomes s).state = s' at *
    refine ⟨hmembers, fun hopen slotId hcursor _ hlt outcomes => ?_⟩
    have hopen' : s'.opened = true := hopened.trans hopen
    have hfree : s'.members.isSlotOccupied slotId = false := by
      rw [hmembers]
      exact (hs hopen).2 slotId hcursor hlt
    have hlt' : ¬ slotId ≥ (calculateLayout c).totalSlots := Nat.not_le.mpr hlt
    refine ⟨?_, ?_, ?_⟩ <;> simp [readOccupied, deleteSlot, hlt', hopen', hfree]
  · exact absurd hok hfail

end Batch

/-! `Open` and `Close` of the two kinds of segments. -/

theorem rebuildCounters_vacant :
    Ensures (fun _ => True) (rebuildCounters c : P δ Unit) fun _ s => Vacant c s.members :=
  (Ensures.emit _).bind fun _ => .change fun s _ => vacant_rebuild s.members

section File

open SegmentFile

theorem file_open_keeps : Ensures (Inv c) (SegmentFile.openSegment c) fun _ => Inv c := by
  intro outcomes s hs hopen
  rcases (open_changes (c := c) s outcomes s rfl).2.members hopen with hsame | ⟨m, hm | hm⟩
  · rw [hsame] at hopen ⊢
    exact hs hopen
  · exact hm ▸ vacant_reset m
  · exact hm ▸ vacant_rebuild m

theorem file_close_keeps : Ensures (Inv c) SegmentFile.close fun _ => Inv c := by
  intro outcomes s _ hopen
  rw [(close_changes (A := True) s outcomes s rfl).2.1] at hopen
  cases hopen

end File

section Device

open SegmentBlockDev

variable (base : ℕ)

theorem device_open_keeps :
    Ensures (Inv c) (SegmentBlockDev.openSegment c base) fun _ => Inv c := by
  refine .read fun s hs => .ite (fun _ => .ret fun t ht => ht ▸ hs) fun hclosed => ?_
  have hload : Ensures (fun t => t = s) (loadBitmap c (medium base)) fun _ t =>
      t.opened = false := by
    intro outcomes t ht
    have hread := (device_quiet base).read (A := True) (calculateLayout c).bitmapSize
      ((medium base).position 0) t.opened t.members
    have hopened : t.opened = false := by
      rw [ht]
      simpa using hclosed
    exact (hread.ensures outcomes t ⟨rfl, rfl⟩).1.1.trans hopened
  refine hload.bind fun st =>
    .ite (fun _ => .ret fun t ht h => by rw [ht] at h; cases h) fun _ => ?_
  have hrebuild : Ensures (fun t : Object Device => t.opened = false) (rebuildCounters c) fun _ s =>
      Vacant c s.members := rebuildCounters_vacant.weaken (fun _ _ => trivial) fun _ _ h => h
  have hopen : Ensures (fun t : Object Device => Vacant c t.members)
      (modify (fun s => { s with opened := true }) : P Device PUnit) fun _ => Inv c :=
    .change fun s hs _ => hs
  exact hrebuild.bind fun _ => hopen.bind fun _ => .ret fun _ h => h

theorem device_close_keeps : Ensures (Inv c) (SegmentBlockDev.close base) fun _ => Inv c := by
  refine .read fun s hs => .ite (fun _ => .ret fun t ht => ht ▸ hs) fun hopen => ?_
  have hs' : s.opened = true := by simpa using hopen
  have hrest : Ensures (fun t => t = s) (flushBitmap (medium base)) fun _ =>
      Untouched true s.members :=
    (flushBitmap_untouched (device_quiet base)).ensures.weaken
      (fun t ht => by rw [ht]; exact ⟨hs', rfl⟩) fun _ _ h => h
  refine hrest.bind fun st => .ite (fun _ => .ret fun t ht => .of_untouched ht (hs hs')) fun _ => ?_
  have hsync : Ensures (Untouched true s.members) SegmentBlockDev.sync fun _ =>
      Untouched true s.members := by
    refine Ensures.draw.bind fun outcome => ?_
    cases outcome with
    | ok => exact .ret fun _ h => h
    | fail n => exact .ret fun _ h => h
  refine hsync.bind fun st => .ite (fun _ => .ret fun t ht => .of_untouched ht (hs hs')) fun _ => ?_
  have hclose : Ensures (Untouched true s.members)
      (modify (fun s => { s with opened := false }) : P Device PUnit) fun _ => Inv c :=
    .change fun s _ h => by cases h
  exact hclose.bind fun _ => .ret fun _ h => h

end Device

/-! Runs. -/

/-- A kind of segments: where its bytes are, and its `Open` and `Close`. -/
structure Kind (δ : Type) where
  medium : Medium δ
  openSegment : P δ Status
  close : P δ Status

def fileKind (c : SegmentConfig) : Kind SegmentFile.Disk :=
  ⟨SegmentFile.medium, SegmentFile.openSegment c, SegmentFile.close⟩

def deviceKind (c : SegmentConfig) (base : ℕ) : Kind SegmentBlockDev.Device :=
  ⟨SegmentBlockDev.medium base, SegmentBlockDev.openSegment c base, SegmentBlockDev.close base⟩

/-- One call over any outcomes of its operations, where batches are committed. While the segment
is closed, also after a crash, its bytes may be replaced by any others. -/
inductive Step (c : SegmentConfig) (k : Kind δ) : Object δ → Object δ → Prop
  | open (outcomes : ℕ → IoOutcome) (s : Object δ) : Step c k s (k.openSegment outcomes s).state
  | insert (outcomes : ℕ → IoOutcome) (key value : Bytes) (s : Object δ) :
      Step c k s (insertSlot c k.medium key value outcomes s).state
  | batchInsert (outcomes : ℕ → IoOutcome) (keys values : Bytes) (count : ℕ) (s : Object δ) :
      Committed c k.medium keys values count outcomes s →
      Step c k s (batchInsertSlots c k.medium keys values count outcomes s).state
  | read (outcomes : ℕ → IoOutcome) (slotId : ℕ) (s : Object δ) :
      Step c k s (readOccupied c k.medium slotId outcomes s).state
  | delete (outcomes : ℕ → IoOutcome) (slotId : ℕ) (s : Object δ) :
      Step c k s (deleteSlot c k.medium slotId outcomes s).state
  | compact {τ : Type} (outcomes : ℕ → IoOutcome) (segmentId : ℕ) (target : Target τ) (t : τ)
      (s : Object δ) : Step c k s (compactSlots c k.medium segmentId target t outcomes s).state
  | syncBitmap (outcomes : ℕ → IoOutcome) (s : Object δ) :
      Step c k s (syncBitmap k.medium outcomes s).state
  | close (outcomes : ℕ → IoOutcome) (s : Object δ) : Step c k s (k.close outcomes s).state
  | replaced (dev : δ) (s : Object δ) : s.opened = false → Step c k s { s with dev := dev }
  | restarted (s : Object δ) : Step c k s ⟨false, .fresh c, s.dev⟩

/-- What every call of a kind keeps. -/
structure Regular (c : SegmentConfig) (k : Kind δ) : Prop where
  quiet : Quiet k.medium
  opens : Ensures (Inv c) k.openSegment fun _ => Inv c
  closes : Ensures (Inv c) k.close fun _ => Inv c

theorem fileKind_regular : Regular c (fileKind c) := ⟨file_quiet, file_open_keeps, file_close_keeps⟩

theorem deviceKind_regular (base : ℕ) : Regular c (deviceKind c base) :=
  ⟨device_quiet base, device_open_keeps base, device_close_keeps base⟩

variable {k : Kind δ}

theorem inv_step (hk : Regular c k) {s s' : Object δ} (hs : Inv c s) (hstep : Step c k s s') :
    Inv c s' := by
  cases hstep with
  | «open» outcomes => exact hk.opens outcomes s hs
  | insert outcomes key value =>
    exact hs.changed (insert_changes hk.quiet key value s outcomes s rfl).2
  | batchInsert outcomes keys values count _ hcommit => exact batch_keeps hk.quiet hs hcommit
  | read outcomes slotId => exact hs.changed (read_changes hk.quiet slotId s outcomes s rfl).2
  | delete outcomes slotId => exact hs.changed (delete_changes hk.quiet slotId s outcomes s rfl).2
  | compact outcomes segmentId target t =>
    exact hs.changed (compact_changes hk.quiet segmentId target t s outcomes s rfl).2
  | syncBitmap outcomes =>
    exact hs.changed (syncBitmap_changes (A := True) hk.quiet s outcomes s rfl).2
  | close outcomes => exact hk.closes outcomes s hs
  | replaced dev _ hclosed => exact hs
  | restarted => exact fun h => by cases h

theorem inv_run (hk : Regular c k) {dev : δ} {s : Object δ}
    (hrun : ReflTransGen (Step c k) ⟨false, .fresh c, dev⟩ s) : Inv c s := by
  induction hrun with
  | refl => exact fun h => by cases h
  | tail _ hstep ih => exact inv_step hk ih hstep

/-- In every state a segment of either kind reaches with committed batches, a committed batch that
fails leaves nothing. -/
theorem batch_all_or_nothing (c : SegmentConfig) :
    (∀ (dev : SegmentFile.Disk) (s : Object SegmentFile.Disk),
      ReflTransGen (Step c (fileKind c)) ⟨false, .fresh c, dev⟩ s →
      ∀ keys values count outcomes,
        Committed c SegmentFile.medium keys values count outcomes s →
        (SegmentFile.batchInsert c keys values count outcomes s).val.1 ≠ .ok →
        AllOrNothing c SegmentFile.medium count s
          (SegmentFile.batchInsert c keys values count outcomes s).state) ∧
    ∀ (base : ℕ) (dev : SegmentBlockDev.Device) (s : Object SegmentBlockDev.Device),
      ReflTransGen (Step c (deviceKind c base)) ⟨false, .fresh c, dev⟩ s →
      ∀ keys values count outcomes,
        Committed c (SegmentBlockDev.medium base) keys values count outcomes s →
        (SegmentBlockDev.batchInsert c base keys values count outcomes s).val.1 ≠ .ok →
        AllOrNothing c (SegmentBlockDev.medium base) count s
          (SegmentBlockDev.batchInsert c base keys values count outcomes s).state := by
  constructor
  · intro dev s hrun keys values count outcomes hcommit hfail
    exact allOrNothing_of_failed file_quiet (inv_run fileKind_regular hrun) hcommit hfail
  · intro base dev s hrun keys values count outcomes hcommit hfail
    exact allOrNothing_of_failed (device_quiet base) (inv_run (deviceKind_regular base) hrun)
      hcommit hfail

/-! A segment of two slots. -/

def failsAt (n : ℕ) : ℕ → IoOutcome := fun i => if i = n then .fail 0 else .ok

def smallFile : Object SegmentFile.Disk :=
  (SegmentFile.openSegment small ByteCounters.allOk ⟨false, .fresh small, none⟩).state

/-- The value of the second of two slots is not written. -/
theorem batch_all_or_nothing_small :
    (SegmentFile.batchInsert small [1, 3] [2, 4] 2 (failsAt 3) smallFile).val.1 = .ioError ∧
      AllOrNothing small SegmentFile.medium 2 smallFile
        (SegmentFile.batchInsert small [1, 3] [2, 4] 2 (failsAt 3) smallFile).state := by
  have hrun : ReflTransGen (Step small (fileKind small)) ⟨false, .fresh small, none⟩ smallFile :=
    .single (.open ByteCounters.allOk ⟨false, .fresh small, none⟩)
  have hfails : (SegmentFile.batchInsert small [1, 3] [2, 4] 2 (failsAt 3) smallFile).val.1 =
      .ioError := by decide
  have hcommit : Committed small SegmentFile.medium [1, 3] [2, 4] 2 (failsAt 3) smallFile := by
    have hunwritten : (writePayloads small SegmentFile.medium [1, 3] [2, 4]
        smallFile.members.appendCursor 2 0 (failsAt 3) smallFile).val ≠ .ok := by decide
    exact fun hwritten => absurd hwritten hunwritten
  exact ⟨hfails, (batch_all_or_nothing small).1 none smallFile hrun [1, 3] [2, 4] 2 (failsAt 3)
    hcommit (by rw [hfails]; decide)⟩

/-- The file after a batch of one slot whose bitmap is not written. -/
def uncommitted : Object SegmentFile.Disk :=
  (SegmentFile.batchInsert small [1] [2] 1 (failsAt 2) smallFile).state

/-- The batch fails, its slot is read as stored, and deleting it takes the number of used slots
below zero. -/
theorem failed_batch_is_read :
    (SegmentFile.batchInsert small [1] [2] 1 (failsAt 2) smallFile).val.1 = .ioError ∧
      uncommitted.members.appendCursor = 0 ∧
      (SegmentFile.read small 0 ByteCounters.allOk uncommitted).val = (.ok, ⟨[1], [2]⟩) ∧
      (SegmentFile.delete small 0 ByteCounters.allOk uncommitted).val = .ok ∧
      (SegmentFile.delete small 0 ByteCounters.allOk uncommitted).state.members.usedSlots =
        2 ^ 32 - 1 := by
  decide

end ParaKV.Segment.Batches
