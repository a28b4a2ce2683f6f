/- GID: ParaKV/Segment/ByteCounters
   source: parakv/core/segment/segment_base.cc, parakv/core/segment/segment_file.cc
   digest: The counters and the state of a segment file describe its bitmap in every run,
     whatever the file operations do. -/

import Mathlib.Logic.Relation
import ParaKV.Segment.Changes
import ParaKV.Segment.Accounting

set_option autoImplicit false

namespace ParaKV.Segment.ByteCounters

open Relation Lib.TracedProgram Lib.ByteStore Index.Key Segment.Base
open Core.State (IoOutcome)
open Segment.Accounting (count_update count_eq_of_below)
open Segment.Bytes Segment.BytesSpec Segment.Media Segment.Changes
open Segment.Bytes.SegmentFile (Disk onFile medium)

def setBits (c : SegmentConfig) (m : Members) : ℕ :=
  Nat.count (fun i => m.isSlotOccupied i = true) (calculateLayout c).totalSlots

structure Accounted (c : SegmentConfig) (m : Members) : Prop where
  used : m.usedSlots = setBits c m
  below : ∀ i < (calculateLayout c).totalSlots, m.isSlotOccupied i = true → i < m.appendCursor
  sum : m.usedSlots + m.deletedSlots = m.appendCursor
  bound : m.appendCursor ≤ (calculateLayout c).totalSlots
  idle : m.state = .idle ↔ m.appendCursor = 0
  full : m.state = .full ↔
    m.appendCursor = (calculateLayout c).totalSlots ∧ 0 < (calculateLayout c).totalSlots
  appending : m.state = .appending ↔
    0 < m.appendCursor ∧ m.appendCursor < (calculateLayout c).totalSlots

variable {c : SegmentConfig} {m : Members}

/-! The members. -/

theorem accounted_updateState (hused : m.usedSlots = setBits c m)
    (hbelow : ∀ i < (calculateLayout c).totalSlots, m.isSlotOccupied i = true →
      i < m.appendCursor)
    (hsum : m.usedSlots + m.deletedSlots = m.appendCursor)
    (hbound : m.appendCursor ≤ (calculateLayout c).totalSlots) :
    Accounted c (m.updateState c) := by
  unfold Members.updateState
  split_ifs with hidle hfull
  · refine ⟨hused, hbelow, hsum, hbound, ?_, ?_, ?_⟩ <;> simp <;> omega
  · refine ⟨hused, hbelow, hsum, hbound, ?_, ?_, ?_⟩ <;> simp <;> omega
  · refine ⟨hused, hbelow, hsum, hbound, ?_, ?_, ?_⟩ <;> simp <;> omega

theorem count_congr {p q : ℕ → Bool} {n : ℕ} (h : ∀ i < n, p i = q i) :
    Nat.count (fun i => p i = true) n = Nat.count (fun i => q i = true) n := by
  apply le_antisymm
  · exact Nat.count_mono_left fun i hi hp => (h i hi).symm.trans hp
  · exact Nat.count_mono_left fun i hi hq => (h i hi).trans hq

theorem Accounted.congr (h : Accounted c m) {bitmap : Bytes}
    (hbits : ∀ i < (calculateLayout c).totalSlots, bit bitmap i = m.isSlotOccupied i) :
    Accounted c { m with bitmap := bitmap } := by
  obtain ⟨hcount, hbelow, hsum, hbound, hidle, hfull, happending⟩ := h
  refine ⟨hcount.trans (count_congr hbits).symm, fun i hi hbit => ?_, hsum, hbound, hidle, hfull,
    happending⟩
  exact hbelow i hi ((hbits i hi).symm.trans hbit)

theorem Accounted.used_below (h : Accounted c m) :
    m.usedSlots = Nat.count (fun i => m.isSlotOccupied i = true) m.appendCursor := by
  rw [h.used, setBits]
  exact count_eq_of_below h.bound h.below

theorem Accounted.vacant (h : Accounted c m) {i : ℕ} (hi : i < (calculateLayout c).totalSlots)
    (hcursor : m.appendCursor ≤ i) : m.isSlotOccupied i = false := by
  by_contra hbit
  have hlt := h.below i hi (by simpa using hbit)
  omega

@[simp] theorem setSlotBits_usedSlots (m : Members) (ids : List ℕ) :
    (setSlotBits m ids).usedSlots = m.usedSlots := by
  induction ids generalizing m with
  | nil => rfl
  | cons i ids ih => exact ih (m.setSlotBit i)

@[simp] theorem setSlotBits_deletedSlots (m : Members) (ids : List ℕ) :
    (setSlotBits m ids).deletedSlots = m.deletedSlots := by
  induction ids generalizing m with
  | nil => rfl
  | cons i ids ih => exact ih (m.setSlotBit i)

theorem accounted_appended (hcovers : Covers c)
    (hlength : m.bitmap.length = (calculateLayout c).bitmapSize) (h : Accounted c m) {n : ℕ}
    (hroom : m.appendCursor + n ≤ (calculateLayout c).totalSlots) :
    Accounted c ((setSlotBits m (List.range' m.appendCursor n)).appended c n) := by
  have hids : ∀ i ∈ List.range' m.appendCursor n, i / 8 < m.bitmap.length := by
    intro i hi
    have hrange := List.mem_range'_1.mp hi
    exact hlength ▸ hcovers.byte_lt (by omega)
  have hbits : ∀ i, (setSlotBits m (List.range' m.appendCursor n)).isSlotOccupied i =
      (decide (m.appendCursor ≤ i ∧ i < m.appendCursor + n) || m.isSlotOccupied i) := by
    intro i
    rw [occupied_setSlotBits hids i]
    simp only [List.mem_range'_1]
  have hbelow : ∀ i < (calculateLayout c).totalSlots,
      (setSlotBits m (List.range' m.appendCursor n)).isSlotOccupied i = true →
        i < m.appendCursor + n := by
    intro i hi hbit
    rw [hbits i, Bool.or_eq_true, decide_eq_true_eq] at hbit
    rcases hbit with hrange | hold
    · exact hrange.2
    · have hlt := h.below i hi hold
      omega
  have hcount : setBits c (setSlotBits m (List.range' m.appendCursor n)) = m.usedSlots + n := by
    rw [setBits, count_eq_of_below hroom hbelow, Nat.count_add, h.used_below]
    congr 1
    · apply count_congr
      intro i hi
      have hout : ¬ (m.appendCursor ≤ i ∧ i < m.appendCursor + n) := by omega
      simp [hbits i, hout]
    · apply Nat.count_of_forall
      intro k hk
      have hin : m.appendCursor ≤ m.appendCursor + k ∧
        m.appendCursor + k < m.appendCursor + n := by omega
      simp [hbits (m.appendCursor + k), hin]
  have hsum := h.sum
  apply accounted_updateState
  · show (setSlotBits m _).usedSlots + n = setBits c (setSlotBits m _)
    rw [hcount, setSlotBits_usedSlots]
  · simpa [setSlotBits_appendCursor, Members.isSlotOccupied] using hbelow
  · simp only [setSlotBits_usedSlots, setSlotBits_deletedSlots, setSlotBits_appendCursor]
    omega
  · simpa [setSlotBits_appendCursor] using hroom

theorem accounted_setClear (hcovers : Covers c)
    (hlength : m.bitmap.length = (calculateLayout c).bitmapSize) (h : Accounted c m)
    (hroom : m.appendCursor < (calculateLayout c).totalSlots) :
    Accounted c ((m.setSlotBit m.appendCursor).clearSlotBit m.appendCursor) := by
  have hin : m.appendCursor / 8 < m.bitmap.length := hlength ▸ hcovers.byte_lt hroom
  refine h.congr fun i _ => ?_
  rw [bit_clearBit, Members.setSlotBit, bit_setBit hin i]
  by_cases hi : i = m.appendCursor
  · have hvacant := h.vacant hroom le_rfl
    simp [hi, hvacant]
  · simp [hi, Members.isSlotOccupied]

theorem accounted_clearSet (hcovers : Covers c)
    (hlength : m.bitmap.length = (calculateLayout c).bitmapSize) (h : Accounted c m) {i : ℕ}
    (hi : i < (calculateLayout c).totalSlots) (hbit : m.isSlotOccupied i = true) :
    Accounted c ((m.clearSlotBit i).setSlotBit i) := by
  have hin : i / 8 < (m.clearSlotBit i).bitmap.length := by
    rw [Members.clearSlotBit, length_clearBit, hlength]
    exact hcovers.byte_lt hi
  refine h.congr fun j _ => ?_
  rw [bit_setBit hin j, Members.clearSlotBit, bit_clearBit]
  by_cases hj : j = i
  · simp [hj, hbit]
  · simp [hj, Members.isSlotOccupied]

theorem Accounted.used_pos (h : Accounted c m) {i : ℕ} (hi : i < (calculateLayout c).totalSlots)
    (hbit : m.isSlotOccupied i = true) : 0 < m.usedSlots := by
  rw [h.used]
  exact lt_of_le_of_lt (Nat.zero_le _)
    (Nat.count_strict_mono (p := fun i => m.isSlotOccupied i = true) hbit hi)

theorem accounted_deleted (h : Accounted c m) {i : ℕ} (hi : i < (calculateLayout c).totalSlots)
    (hbit : m.isSlotOccupied i = true) : Accounted c ((m.clearSlotBit i).deleted c) := by
  have hpos := h.used_pos hi hbit
  have hlt : m.usedSlots < 2 ^ 32 := by
    have hsum := h.sum
    have hbound := h.bound
    have htotal := total_lt c
    omega
  have hused : sub32 (m.clearSlotBit i).usedSlots 1 = m.usedSlots - 1 := sub32_eq hpos hlt
  have hbits : (m.clearSlotBit i).isSlotOccupied = Function.update m.isSlotOccupied i false := by
    funext j
    rw [occupied_clearSlotBit]
    by_cases hj : j = i
    · simp [hj]
    · simp [hj]
  have hcount : setBits c (m.clearSlotBit i) + 1 = m.usedSlots := by
    have hupdate := count_update m.isSlotOccupied i false (calculateLayout c).totalSlots
    simp only [hi, hbit, and_self, if_true, Bool.false_eq_true, and_false, if_false] at hupdate
    rw [h.used, setBits, setBits]
    simp only [hbits]
    exact hupdate
  have hsum := h.sum
  unfold Members.deleted
  rw [hused]
  apply accounted_updateState
  · show m.usedSlots - 1 = setBits c (m.clearSlotBit i)
    omega
  · intro j hj hset
    have hold : m.isSlotOccupied j = true := by
      have hclear : (m.clearSlotBit i).isSlotOccupied j = true := hset
      rw [occupied_clearSlotBit, Bool.and_eq_true] at hclear
      exact hclear.2
    exact h.below j hj hold
  · show m.usedSlots - 1 + (m.deletedSlots + 1) = m.appendCursor
    omega
  · exact h.bound

theorem accounted_reset (m : Members) : Accounted c m.resetBitmap := by
  have hclear : ∀ i, m.resetBitmap.isSlotOccupied i = false := fun i => bit_replicate_zero _ i
  have hcount : setBits c m.resetBitmap = 0 := by
    apply Nat.count_of_forall_not
    intro i _
    simp [hclear i]
  refine ⟨hcount.symm, fun i _ hbit => ?_, rfl, Nat.zero_le _, ?_, ?_, ?_⟩
  · rw [hclear i] at hbit
    cases hbit
  · simp [Members.resetBitmap]
  · simp [Members.resetBitmap]
    omega
  · simp [Members.resetBitmap]

/-- The loop of `Open` counts the bits, and no more than the cursor it finds. -/
theorem scanBitmap_count (bitmap : Bytes) (n : ℕ) :
    (Members.scanBitmap bitmap n).1 = Nat.count (fun i => bit bitmap i = true) n ∧
      (Members.scanBitmap bitmap n).1 ≤ (Members.scanBitmap bitmap n).2 := by
  induction n with
  | zero => simp [Members.scanBitmap]
  | succ n ih =>
    obtain ⟨hcount, hle⟩ := ih
    have hbound := (scanBitmap_spec bitmap n).2
    rw [Nat.count_succ]
    simp only [Members.scanBitmap]
    split_ifs with hbit
    · exact ⟨by rw [hcount], by dsimp only; omega⟩
    · exact ⟨hcount, hle⟩

theorem accounted_rebuild (m : Members) : Accounted c (m.rebuild c) := by
  obtain ⟨hcount, hle⟩ := scanBitmap_count m.bitmap (calculateLayout c).totalSlots
  obtain ⟨hbelow, hbound⟩ := scanBitmap_spec m.bitmap (calculateLayout c).totalSlots
  have htotal := total_lt c
  have hdeleted := sub32_eq hle (by omega)
  simp only [Members.rebuild, hdeleted]
  apply accounted_updateState
  · exact hcount
  · exact hbelow
  · dsimp only
    omega
  · exact hbound

/-! The operations, whatever the file operations do. -/

structure Inv (c : SegmentConfig) (s : Object Disk) : Prop where
  length : s.members.bitmap.length = (calculateLayout c).bitmapSize
  accounted : s.opened = true → Accounted c s.members

theorem Change.accounted (hcovers : Covers c)
    (hlength : m.bitmap.length = (calculateLayout c).bitmapSize) (hm : Accounted c m)
    {m' : Members} (h : Change c m m') : Accounted c m' := by
  have hbound := hm.bound
  cases h with
  | stays => exact hm
  | appended hn =>
    rw [sub32_eq hbound (total_lt c)] at hn
    exact accounted_appended hcovers hlength hm (by omega)
  | insertUndone hroom => exact accounted_setClear hcovers hlength hm hroom
  | deleted hi hbit => exact accounted_deleted hm hi hbit
  | deleteUndone hi hbit => exact accounted_clearSet hcovers hlength hm hi hbit
  | reset => exact accounted_reset m

theorem Inv.fenced {s : Object Disk} (hs : Inv c s) : Fenced c s :=
  ⟨hs.length, fun hopen => (hs.accounted hopen).bound⟩

theorem Inv.changed {s t : Object Disk} (hcovers : Covers c) (hs : Inv c s) (h : Changed c s t) :
    Inv c t :=
  ⟨h.2.length.trans hs.length, fun hopen =>
    Change.accounted hcovers hs.length (hs.accounted (h.1 ▸ hopen)) h.2⟩

theorem Inv.reopened {s t : Object Disk} (hs : Inv c s) (h : Reopened c s t) : Inv c t := by
  refine ⟨h.long hs.length, fun hopen => ?_⟩
  rcases h.members hopen with rfl | ⟨m, hm | hm⟩
  · exact hs.accounted hopen
  · exact hm ▸ accounted_reset m
  · exact hm ▸ accounted_rebuild m

/-! Runs. -/

/-- The calls, with the results after which the segment is used further: a batch counts if it
succeeds. A segment that slots are compacted into sees calls of `Insert`. -/
inductive Call (c : SegmentConfig) : {α : Type} → P Disk α → (α → Prop) → Prop
  | open : Call c (SegmentFile.openSegment c) fun _ => True
  | insert (key value : Bytes) : Call c (SegmentFile.insert c key value) fun _ => True
  | batchInsert (keys values : Bytes) (count : ℕ) :
      Call c (SegmentFile.batchInsert c keys values count) fun r => r.1 = .ok
  | read (slotId : ℕ) : Call c (SegmentFile.read c slotId) fun _ => True
  | delete (slotId : ℕ) : Call c (SegmentFile.delete c slotId) fun _ => True
  | compact {τ : Type} (segmentId : ℕ) (target : Target τ) (t : τ) :
      Call c (SegmentFile.compact c segmentId target t) fun _ => True
  | syncBitmap : Call c SegmentFile.syncBitmap fun _ => True
  | close : Call c SegmentFile.close fun _ => True

/-- One call, over any outcomes of its file operations, that stays inside the bitmap. While the
segment is closed its file may be replaced by any other. -/
inductive Step (c : SegmentConfig) : Object Disk → Object Disk → Prop
  | call {α : Type} {m : P Disk α} {accepted : α → Prop} (hm : Call c m accepted)
      (io : ℕ → IoOutcome) (s : Object Disk) : (m io s).trace = [] → accepted (m io s).val →
      Step c s (m io s).state
  | replaced (dev : Disk) (s : Object Disk) : s.opened = false → Step c s { s with dev := dev }

section Calls

variable {α : Type} {p : P Disk α} {accepted : α → Prop} {s s' : Object Disk}

theorem Call.keeps (hcovers : Covers c) (hp : Call c p accepted) (io : ℕ → IoOutcome)
    (hs : Inv c s) :
    (p io s).trace = [] ∧ (accepted (p io s).val → Inv c (p io s).state) := by
  have hinside : Covers c ∧ Fenced c s := ⟨hcovers, hs.fenced⟩
  have hsound : ∀ {α : Type} {p : P Disk α},
      Safe (Covers c ∧ Fenced c s) (fun t => t = s) p (fun _ => Changed c s) →
      (p io s).trace = [] ∧ (True → Inv c (p io s).state) := fun h =>
    ⟨(h io s rfl).1 hinside, fun _ => hs.changed hcovers (h io s rfl).2⟩
  cases hp with
  | «open» =>
    obtain ⟨hmute, hnext⟩ := open_changes (c := c) s io s rfl
    exact ⟨hmute ⟨hcovers, hs.length⟩, fun _ => hs.reopened hnext⟩
  | insert key value => exact hsound (insert_changes file_quiet key value s)
  | batchInsert keys values count =>
    obtain ⟨hmute, hnext⟩ := batchInsert_changes (c := c) file_quiet keys values count s io s rfl
    exact ⟨hmute hinside, fun hok => hs.changed hcovers (hnext hok)⟩
  | read slotId => exact hsound (read_changes file_quiet slotId s)
  | delete slotId => exact hsound (delete_changes file_quiet slotId s)
  | compact segmentId target t => exact hsound (compact_changes file_quiet segmentId target t s)
  | syncBitmap => exact hsound (syncBitmap_changes file_quiet s)
  | close =>
    obtain ⟨hmute, hclosed, hmembers⟩ := close_changes s io s rfl
    refine ⟨hmute hinside, fun _ => ⟨?_, fun hopen => ?_⟩⟩
    · rw [hmembers]
      exact hs.length
    · rw [hclosed] at hopen
      cases hopen

theorem inv_step (hcovers : Covers c) (hs : Inv c s) (hstep : Step c s s') : Inv c s' := by
  cases hstep with
  | call hm io _ _ hok => exact (hm.keeps hcovers io hs).2 hok
  | replaced dev _ hclosed => exact ⟨hs.length, hs.accounted⟩

end Calls

def created (c : SegmentConfig) (dev : Disk) : Object Disk := ⟨false, .fresh c, dev⟩

theorem inv_run (hcovers : Covers c) {dev : Disk} {s : Object Disk}
    (hrun : ReflTransGen (Step c) (created c dev) s) : Inv c s := by
  induction hrun with
  | refl => exact ⟨List.length_replicate, fun h => by cases h⟩
  | tail _ hstep ih => exact inv_step hcovers ih hstep

/-- In every state that a segment reaches the counters describe the bitmap while it is open: the
assertion of `Delete` holds, and no subtraction of counters wraps. No call from there reaches
outside the bitmap. -/
theorem segment_accounted (hunwrapped : Unwrapped c) {dev : Disk} {s : Object Disk}
    (hrun : ReflTransGen (Step c) (created c dev) s) :
    (s.opened = true → Accounted c s.members ∧
      (∀ i < (calculateLayout c).totalSlots, s.members.isSlotOccupied i = true →
        0 < s.members.usedSlots) ∧
      sub32 (calculateLayout c).totalSlots s.members.appendCursor =
        (calculateLayout c).totalSlots - s.members.appendCursor ∧
      s.members.getFreeSlots c = (calculateLayout c).totalSlots - s.members.appendCursor +
        s.members.deletedSlots) ∧
    (∀ bitmap, (Members.scanBitmap bitmap (calculateLayout c).totalSlots).1 ≤
      (Members.scanBitmap bitmap (calculateLayout c).totalSlots).2) ∧
    ∀ {α : Type} (p : P Disk α) (accepted : α → Prop), Call c p accepted → ∀ io,
      (p io s).trace = [] := by
  have hcovers := covers_of_unwrapped hunwrapped
  have hinv := inv_run hcovers hrun
  refine ⟨fun hopen => ?_, fun bitmap => (scanBitmap_count bitmap _).2, fun p accepted hp io =>
    (hp.keeps hcovers io hinv).1⟩
  have h := hinv.accounted hopen
  have hbound := h.bound
  have hsum := h.sum
  have htotal := total_lt c
  have havailable := sub32_eq hbound htotal
  refine ⟨h, fun i hi hbit => h.used_pos hi hbit, havailable, ?_⟩
  rw [Members.getFreeSlots, havailable]
  exact Nat.mod_eq_of_lt (by omega)

/-! A segment that is created, used with a failing flush, and opened again over another bitmap. -/

def flushFails : ℕ → IoOutcome := fun n => if n = 2 then .fail 0 else .ok

def allOk : ℕ → IoOutcome := fun _ => .ok

/-- A new segment after one insert that succeeded and one whose flush failed. -/
def smallUsed : Object Disk :=
  (SegmentFile.insert small [3] [4] flushFails (SegmentFile.insert small [1] [2] allOk
    (SegmentFile.openSegment small allOk (created small none)).state).state).state

theorem smallUsed_run : ReflTransGen (Step small) (created small none) smallUsed :=
  ((ReflTransGen.single (.call .open _ _ (by decide) trivial)).tail
    (.call (.insert _ _) _ _ (by decide) trivial)).tail
      (.call (.insert _ _) _ _ (by decide) trivial)

/-- The closed segment opened over a file whose bitmap has its second bit set. -/
def smallReopened : Object Disk :=
  (SegmentFile.openSegment small allOk { (SegmentFile.close allOk smallUsed).state with
    dev := some ⟨5, fun _ => 2⟩ }).state

theorem segment_accounted_small :
    smallUsed.opened = true ∧ smallUsed.members = ⟨[1], 1, 0, 1, .appending⟩ ∧
      Accounted small smallUsed.members ∧ smallReopened.opened = true ∧
      smallReopened.members = ⟨[2], 1, 1, 2, .full⟩ ∧ Accounted small smallReopened.members := by
  have hunwrapped : Unwrapped small := ⟨by decide, by decide⟩
  have hrun : ReflTransGen (Step small) (created small none) smallReopened :=
    ((smallUsed_run.tail (.call .close _ _ (by decide) trivial)).tail
      (.replaced _ _ (by decide))).tail (.call .open _ _ (by decide) trivial)
  refine ⟨by decide, by decide, ?_, by decide, by decide, ?_⟩
  · exact ((segment_accounted hunwrapped smallUsed_run).1 (by decide)).1
  · exact ((segment_accounted hunwrapped hrun).1 (by decide)).1

def wrappedOpened : Object Disk :=
  (SegmentFile.openSegment wrapped allOk (created wrapped none)).state

/-- Its first insert sets a bit outside the bitmap. -/
theorem insert_outside_bitmap :
    ReflTransGen (Step wrapped) (created wrapped none) wrappedOpened ∧
      (calculateLayout wrapped).totalSlots < 2 ^ 31 ∧ wrappedOpened.opened = true ∧
      wrappedOpened.members.bitmap = [] ∧
      (SegmentFile.insert wrapped (List.replicate 8 1) (List.replicate 8 2) allOk
        wrappedOpened).trace = [.outside 0] :=
  ⟨.single (.call .open _ _ (by decide +kernel) trivial), by decide +kernel, by decide +kernel,
    by decide +kernel, by decide +kernel⟩

end ParaKV.Segment.ByteCounters
