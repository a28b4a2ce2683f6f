/- GID: ParaKV/Index/Ownership
   source: parakv/core/index/index.cc
   digest: The index as owner of its slots, and what Get, Put and Delete do to the contents. -/

import ParaKV.Lib.OwnedSlots
import ParaKV.Segment.FileSpec
import ParaKV.Segment.ManagerSpec
import ParaKV.Index.Durability

set_option autoImplicit false

namespace ParaKV.Index.Ownership

open Lib.TracedProgram Lib.LogMap Lib.OwnedSlots Index.Key Index.Operations Index.Durability Segment
open Segment.FileSpec Segment.Manager Segment.ManagerSpec Core.State

variable {K : Type} [KeyType K]

/-! The disk as a store of keyed cells, addressed by encoded offsets. -/

def decodeSlot (slot : Slot) : K × Bytes := (ofBytes slot.key, slot.value)

/-- The cell at an encoded offset; other words address nothing. -/
def view (o : Options) (d : Disk K) (a : UInt64) : Option (K × Bytes) :=
  if getSegmentId a < o.segmentCount ∧ getSlotId a < o.totalSlots ∧
      encodeSegmentSlot (getSegmentId a) (getSlotId a) = a then
    (d.slot (getSegmentId a) (getSlotId a)).map decodeSlot
  else none

def IsSlot (o : Options) (a : UInt64) : Prop :=
  ∃ s < o.segmentCount, ∃ i < o.totalSlots, a = encodeSegmentSlot s i

def At (X : ℕ → ℕ → Prop) (a : UInt64) : Prop := ∃ s i, X s i ∧ a = encodeSegmentSlot s i

variable {o : Options} {H : K → Bytes → Prop} {d d' : Disk K} {w : World K} {m : Map K}
variable {X : ℕ → ℕ → Prop} {N : Slot → Prop} {s i : ℕ}

theorem view_encode (hadm : o.Admissible K) (d : Disk K) (hs : s < o.segmentCount)
    (hi : i < o.totalSlots) :
    view o d (encodeSegmentSlot s i) = (d.slot s i).map decodeSlot := by
  have hs' := lt_of_lt_of_le hs hadm.segments
  have hi' := lt_of_lt_of_le hi hadm.slots
  rw [view, getSegmentId_encodeSegmentSlot hs' hi', getSlotId_encodeSegmentSlot hs' hi',
    if_pos ⟨hs, hi, rfl⟩]

theorem view_eq_some {a : UInt64} {p : K × Bytes} (h : view o d a = some p) :
    ∃ s < o.segmentCount, ∃ i < o.totalSlots, a = encodeSegmentSlot s i ∧
      ∃ slot, d.slot s i = some slot ∧ p = decodeSlot slot := by
  unfold view at h
  split_ifs at h with hvalid
  obtain ⟨slot, hslot, rfl⟩ := Option.map_eq_some_iff.mp h
  exact ⟨_, hvalid.1, _, hvalid.2.1, hvalid.2.2.symm, slot, hslot, rfl⟩

theorem view_congr (h : d'.images = d.images) :
    view o d' = view o d := by
  funext a
  simp only [view, Disk.slot, h]

theorem touches_view_eq (h : Touches X N d d') {a : UInt64} (ha : ¬ At X a) :
    view o d' a = view o d a := by
  unfold view
  split_ifs with hvalid
  · rw [h.slot_eq fun hx => ha ⟨_, _, hx, hvalid.2.2.symm⟩]
  · rfl

/-- A slot with the bytes of a key and a value that was put under it. -/
def Good (H : K → Bytes → Prop) (slot : Slot) : Prop :=
  ∃ k, slot.key = toBytes k ∧ H k slot.value

/-- Every occupied slot of the segments holds a key and a value that was put under it. -/
def Stored (o : Options) (H : K → Bytes → Prop) (d : Disk K) : Prop :=
  ∀ s < o.segmentCount, ∀ i slot, d.slot s i = some slot → Good H slot

theorem stored_congr (h : d'.images = d.images) (hd : Stored o H d) : Stored o H d' := by
  intro s hs i slot hslot
  rw [Disk.slot, h] at hslot
  exact hd s hs i slot hslot

theorem touches_stored (h : Touches X N d d') (hold : Stored o H d)
    (hnew : ∀ slot, N slot → Good H slot) :
    Stored o H d' := by
  intro s hs i slot hslot
  rcases h.slot_cases hslot with hbefore | ⟨-, hn⟩
  · exact hold s hs i slot hbefore
  · exact hnew slot hn

theorem Stored.stores (h : Stored o H d) : Stores H (view o d) := by
  intro a k v hv
  obtain ⟨s, hs, i, -, -, slot, hslot, hp⟩ := view_eq_some hv
  obtain ⟨rfl, rfl⟩ := Prod.mk.inj hp
  obtain ⟨k, hk, hH⟩ := h s hs i slot hslot
  rw [hk, ofBytes_toBytes]
  exact hH

variable [DecidableEq K]

/-- The map as an index into the store of `view`. -/
def entries (m : Map K) (k : K) : Option UInt64 := m.lookup k

theorem touches_owns (h : Touches X N d d') (hown : Owns (entries m) (view o d))
    (havoid : Avoids (entries m) (At X)) : Owns (entries m) (view o d') :=
  hown.frame havoid fun _ ha => touches_view_eq h ha

theorem touches_content_eq (h : Touches X N d d') (havoid : Avoids (entries m) (At X)) :
    content (entries m) (view o d') = content (entries m) (view o d) :=
  content_frame havoid fun _ ha => touches_view_eq h ha

theorem entries_insert {K : Type} [DecidableEq K] (m : Map K) (k : K) (a : UInt64) :
    entries (m.insert k a) = Function.update (entries m) k (some a) := by
  funext k'
  rw [entries, lookup_insert_eq, Function.update_apply]
  rfl

theorem entries_erase {K : Type} [DecidableEq K] (m : Map K) (k : K) :
    entries (m.erase k) = Function.update (entries m) k none := by
  funext k'
  rw [entries, lookup_erase_eq, Function.update_apply]
  rfl

theorem owns_mixes {n m' : Map K} (hm : Owns (entries m) (view o d))
    (hn : Owns (entries n) (view o d))
    (h : Mixes m n m') : Owns m'.lookup (view o d) := by
  intro k a hk
  rcases h k with heq | heq
  · exact hm k a (heq.symm.trans hk)
  · exact hn k a (heq.symm.trans hk)

/-- The invariant of a running store: `H` holds the pairs that were put. -/
structure Live (o : Options) (H : K → Bytes → Prop) (w : World K) : Prop where
  mgr : ManagerOk o w.mgr
  segs : SegmentsOk o w
  owns : Owns (entries w.map) (view o w.disk)
  stored : Stored o H w.disk
  wal : WalOpen w

def value (o : Options) (w : World K) : K → Option Bytes :=
  content (entries w.map) (view o w.disk)

theorem Live.congr {w' : World K} (h : Live o H w) (hmgr : ManagerOk o w'.mgr)
    (hsegs : w'.segs = w.segs) (himages : w'.disk.images = w.disk.images)
    (hmap : w'.map = w.map) (hwal : WalOpen w') : Live o H w' where
  mgr := hmgr
  segs id hid := by rw [hsegs, himages]; exact h.segs id hid
  owns := by rw [hmap, view_congr himages]; exact h.owns
  stored := stored_congr himages h.stored
  wal := hwal

theorem Live.logOnly {w' : World K} (h : Live o H w) (hlog : LogOnly w w') (hwal : WalOpen w') :
    Live o H w' :=
  h.congr (hlog.mgr ▸ h.mgr) hlog.segs hlog.images hlog.map hwal

theorem Live.slot_view (h : Live o H w) {k : K} {a : UInt64}
    (ha : w.map.lookup k = some a) :
    ∃ s < o.segmentCount, ∃ i < o.totalSlots, a = encodeSegmentSlot s i ∧
      ∃ slot, w.disk.slot s i = some slot ∧ ofBytes slot.key = k ∧
        value o w k = some slot.value := by
  obtain ⟨v, hv, hc⟩ := h.owns.content_isSome ha
  obtain ⟨s, hs, i, hi, rfl, slot, hslot, hp⟩ := view_eq_some hv
  obtain ⟨rfl, rfl⟩ := Prod.mk.inj hp
  exact ⟨s, hs, i, hi, rfl, slot, hslot, rfl, hc⟩

/-! Get. -/

theorem run_get_quiet {K : Type} [DecidableEq K] {w : World K} (key : K) (size : ℕ) :
    (run (Operations.get o key size) w).state = w ∧
      (run (Operations.get o key size) w).trace = [] := by
  by_cases hsize : size ≠ o.segmentConfig.valueSize
  · simp [Operations.get, hsize]
  · cases hk : w.map.lookup key with
    | none => simp [Operations.get, hsize, lookup, hk]
    | some a =>
      by_cases hflag : getFlag a = .segmentSlot
      · by_cases hseg : getSegmentId a ∈ w.mgr.segments <;>
          simp [Operations.get, hsize, lookup, hk, hflag, hseg, run_read_quiet]
      · simp [Operations.get, hsize, lookup, hk, hflag]

theorem run_get_state {K : Type} [DecidableEq K] {w : World K} (key : K) (size : ℕ) :
    (run (Operations.get o key size) w).state = w :=
  (run_get_quiet key size).1

theorem run_get (hadm : o.Admissible K) (h : Live o H w) (key : K) :
    (run (Operations.get o key o.segmentConfig.valueSize) w).val =
      match value o w key with
      | some v => (.ok, v)
      | none => (.notFound, []) := by
  cases hk : w.map.lookup key with
  | none =>
    have hnone : value o w key = none := content_none hk
    simp [Operations.get, lookup, hk, hnone]
  | some a =>
    obtain ⟨s, hs, i, hi, rfl, slot, hslot, -, hv⟩ := h.slot_view hk
    have hs' := lt_of_lt_of_le hs hadm.segments
    have hi' := lt_of_lt_of_le hi hadm.slots
    have hread := run_read (h.segs s hs) hi
    rw [hslot] at hread
    simp [Operations.get, lookup, hk, hv, getFlag_encodeSegmentSlot hs' hi',
      getSegmentId_encodeSegmentSlot hs' hi', getSlotId_encodeSegmentSlot hs' hi',
      (h.mgr.segments s).mpr hs, hread]

/-! Put. -/

theorem run_freeSlot {K : Type} [KeyType K] {w : World K} (hadm : o.Admissible K)
    (hmgr : ManagerOk o w.mgr) (hs : s < o.segmentCount) (hi : i < o.totalSlots) :
    (run (freeSlot o (encodeSegmentSlot s i)) w).state = (run (File.delete o s i) w).state ∧
      (run (freeSlot o (encodeSegmentSlot s i)) w).trace = (run (File.delete o s i) w).trace := by
  have hs' := lt_of_lt_of_le hs hadm.segments
  have hi' := lt_of_lt_of_le hi hadm.slots
  simp [freeSlot, getFlag_encodeSegmentSlot hs' hi', getSegmentId_encodeSegmentSlot hs' hi',
    getSlotId_encodeSegmentSlot hs' hi', (hmgr.segments s).mpr hs]

/-- The manager after the tries of a `Put`, and the segment the last one has chosen. -/
inductive Tried (o : Options) (w : World K) : SegmentManager → Option ℕ → Prop
  | first : Tried o w (chooseActive o w.segs w.mgr).2 (chooseActive o w.segs w.mgr).1
  | again {mgr : SegmentManager} {seg : ℕ} (h : Tried o w mgr (some seg))
      (hfull : ¬ (w.segs seg).appendCursor < o.totalSlots) :
      Tried o w (chooseActive o w.segs (markSegmentFullInternal o mgr seg)).2
        (chooseActive o w.segs (markSegmentFullInternal o mgr seg)).1

theorem Tried.ok {K : Type} {w : World K} {mgr : SegmentManager} {seg : Option ℕ}
    (h : Tried o w mgr seg) (hmgr : ManagerOk o w.mgr) :
    ManagerOk o mgr ∧ ∀ s, seg = some s → s < o.segmentCount := by
  have hchoose : ∀ m, ManagerOk o m → ManagerOk o (chooseActive o w.segs m).2 ∧
      ∀ s, (chooseActive o w.segs m).1 = some s → s < o.segmentCount := by
    intro m hm
    obtain ⟨hre, hactive⟩ := chooseActive_reassigned (o := o) w.segs hm.toRegistered
    exact ⟨hre.managerOk hm, fun s hs => (hm.segments s).mp (hactive s hs)⟩
  induction h with
  | first => exact hchoose _ hmgr
  | again _ _ ih => exact hchoose _ (markSegmentFull_ok ih.1 _)

theorem writeToSegment_spec (hadm : o.Admissible K) (h : Live o H w) (key : K) (v : Bytes) :
    ∃ mgr seg, Tried o w mgr seg ∧ ManagerOk o mgr ∧
      ((∃ s < o.segmentCount, seg = some s ∧ (w.segs s).appendCursor < o.totalSlots ∧
          (run (writeToSegment o key v) w).val =
            (.ok, encodeSegmentSlot s (w.segs s).appendCursor) ∧
          (run (writeToSegment o key v) w).state =
            afterInsert o { w with mgr := mgr } s (toBytes key) v ∧
          (run (writeToSegment o key v) w).trace =
            (run (File.insert o s (toBytes key) v) { w with mgr := mgr }).trace) ∨
        (((run (writeToSegment o key v) w).val.1 = .full ∨
            (run (writeToSegment o key v) w).val.1 = .noSpace) ∧
          (run (writeToSegment o key v) w).state = { w with mgr := mgr } ∧
          (run (writeToSegment o key v) w).trace = [])) := by
  have hfirst : Tried o w _ _ := .first
  obtain ⟨mgr, hmgr⟩ : ∃ mgr, (chooseActive o w.segs w.mgr).2 = mgr := ⟨_, rfl⟩
  have hstate : (run (getActiveSegment o) w).state = { w with mgr := mgr } := by rw [← hmgr]; rfl
  have htrace : (run (getActiveSegment o) w).trace = [] := rfl
  cases hval : (run (getActiveSegment o) w).val with
  | none =>
    rw [hmgr] at hfirst
    refine ⟨mgr, _, hfirst, (hfirst.ok h.mgr).1, Or.inr ?_⟩
    simp [writeToSegment, hval, hstate, htrace]
  | some seg =>
    rw [hmgr, show (chooseActive o w.segs w.mgr).1 = some seg from hval] at hfirst
    obtain ⟨hok, hlt⟩ := hfirst.ok h.mgr
    have hseg := hlt seg rfl
    by_cases hroom : (w.segs seg).appendCursor < o.totalSlots
    · obtain ⟨hival, histate⟩ := run_insert (w := { w with mgr := mgr }) (toBytes key) v
        hadm.slots (h.segs seg hseg) hroom
      refine ⟨mgr, _, hfirst, hok, Or.inl ⟨seg, hseg, rfl, hroom, ?_⟩⟩
      simp [writeToSegment, hval, hstate, htrace, hival, histate]
    · obtain ⟨hival, histate, hitrace⟩ := run_insert_full (w := { w with mgr := mgr })
        (toBytes key) v hadm.slots (h.segs seg hseg) hroom
      -- the full segment is marked and a second one is tried
      let w₁ : World K := { w with mgr := markSegmentFullInternal o mgr seg }
      have hsecond : Tried o w _ _ := hfirst.again hroom
      obtain ⟨mgr', hmgr'⟩ : ∃ mgr', (chooseActive o w.segs w₁.mgr).2 = mgr' := ⟨_, rfl⟩
      have hstate' : (run (getActiveSegment o) w₁).state = { w with mgr := mgr' } := by
        rw [← hmgr']
        rfl
      have htrace' : (run (getActiveSegment o) w₁).trace = [] := rfl
      rw [show (chooseActive o w.segs (markSegmentFullInternal o mgr seg)).2 = mgr' from hmgr']
        at hsecond
      obtain ⟨hok', hlt'⟩ := hsecond.ok h.mgr
      refine ⟨mgr', _, hsecond, hok', ?_⟩
      cases hval' : (run (getActiveSegment o) w₁).val with
      | none =>
        right
        simp [writeToSegment, hval, hstate, htrace, hival, histate, hitrace, markSegmentFull,
          hval', hstate', htrace', w₁]
      | some seg' =>
        have hseg' : seg' < o.segmentCount := hlt' seg' hval'
        by_cases hroom' : (w.segs seg').appendCursor < o.totalSlots
        · left
          obtain ⟨hival', histate'⟩ := run_insert (w := { w with mgr := mgr' })
            (toBytes key) v hadm.slots (h.segs seg' hseg') hroom'
          refine ⟨seg', hseg', hval', hroom', ?_⟩
          simp [writeToSegment, hval, hstate, htrace, hival, histate, hitrace, markSegmentFull,
            hval', hstate', htrace', hival', histate', w₁]
        · right
          obtain ⟨hival', histate', hitrace'⟩ := run_insert_full (w := { w with mgr := mgr' })
            (toBytes key) v hadm.slots (h.segs seg' hseg') hroom'
          simp [writeToSegment, hval, hstate, htrace, hival, histate, hitrace, markSegmentFull,
            hval', hstate', htrace', hival', histate', hitrace', w₁]

/-! The stages of a `Put` that stores its value at the cursor of segment `s`. -/

def newAddr (w : World K) (s : ℕ) : UInt64 := encodeSegmentSlot s (w.segs s).appendCursor

def installed (o : Options) (w : World K) (mgr : SegmentManager) (s : ℕ) (key : K) (v : Bytes) :
    World K :=
  { afterInsert o { w with mgr := mgr } s (toBytes key) v with
    map := w.map.insert key (newAddr w s) }

def logPut (o : Options) (w : World K) (s : ℕ) (key : K) : M K Status :=
  appendWal o (putRecord key (newAddr w s) (w.map.lookup key))

theorem run_installPut (h : WalOpen w) (key : K) (a : UInt64) :
    (run (installPut o key a) w).val = .ok ∧
      (run (installPut o key a) w).state = (run (releaseOld o (w.map.lookup key))
        (run (appendWal o (putRecord key a (w.map.lookup key)))
          { w with map := w.map.insert key a }).state).state ∧
      (run (installPut o key a) w).trace =
        (run (appendWal o (putRecord key a (w.map.lookup key)))
          { w with map := w.map.insert key a }).trace ++
        (run (releaseOld o (w.map.lookup key))
          (run (appendWal o (putRecord key a (w.map.lookup key)))
            { w with map := w.map.insert key a }).state).trace := by
  have hlog := (run_appendWal_ok (o := o) (w := { w with map := w.map.insert key a }) h
    (putRecord key a (w.map.lookup key))).1
  simp [installPut, emplace, hlog]

/-- A `Put` is refused before it wrote anything, or goes through all its stages. -/
theorem put_cases (hadm : o.Admissible K) (h : Live o H w) (key : K) (v : Bytes) :
    ((run (Operations.put o key v) w).val ≠ .ok ∧
      (∃ mgr, ManagerOk o mgr ∧ (run (Operations.put o key v) w).state = { w with mgr := mgr }) ∧
      (run (Operations.put o key v) w).trace = []) ∨
    ∃ mgr s, ManagerOk o mgr ∧ s < o.segmentCount ∧ (w.segs s).appendCursor < o.totalSlots ∧
      (run (Operations.put o key v) w).val = .ok ∧
      (run (Operations.put o key v) w).state = (run (releaseOld o (w.map.lookup key))
        (run (logPut o w s key) (installed o w mgr s key v)).state).state ∧
      (run (Operations.put o key v) w).trace =
        (run (File.insert o s (toBytes key) v) { w with mgr := mgr }).trace ++
        ((run (logPut o w s key) (installed o w mgr s key v)).trace ++
          (run (releaseOld o (w.map.lookup key))
            (run (logPut o w s key) (installed o w mgr s key v)).state).trace) := by
  by_cases hsize : v.length = o.segmentConfig.valueSize
  · obtain ⟨mgr, -, -, hmgr, ⟨s, hs, -, hroom, hval, hstate, htrace⟩ | ⟨hval, hstate, htrace⟩⟩ :=
      writeToSegment_spec hadm h key v
    · right
      refine ⟨mgr, s, hmgr, hs, hroom, ?_⟩
      let w₁ := afterInsert o { w with mgr := mgr } s (toBytes key) v
      obtain ⟨hpval, hpstate, hptrace⟩ :=
        run_installPut (o := o) (w := w₁) h.wal key (newAddr w s)
      have hput : (run (Operations.put o key v) w).val =
            (run (installPut o key (newAddr w s)) w₁).val ∧
          (run (Operations.put o key v) w).state =
            (run (installPut o key (newAddr w s)) w₁).state ∧
          (run (Operations.put o key v) w).trace = (run (writeToSegment o key v) w).trace ++
            (run (installPut o key (newAddr w s)) w₁).trace := by
        simp [Operations.put, hsize, hval, hstate, newAddr, w₁]
      refine ⟨hput.1.trans hpval, hput.2.1.trans hpstate, ?_⟩
      rw [hput.2.2, hptrace, htrace]
      rfl
    · left
      have hne : (run (writeToSegment o key v) w).val.1 ≠ .ok := by
        rcases hval with hval | hval <;> simp [hval]
      refine ⟨?_, ⟨mgr, hmgr, ?_⟩, ?_⟩ <;>
        simp [Operations.put, hsize, hne, hstate, htrace]
  · left
    refine ⟨?_, ⟨w.mgr, h.mgr, ?_⟩, ?_⟩ <;> simp [Operations.put, hsize]

theorem put_status (hadm : o.Admissible K) (h : Live o H w) (key : K) {v : Bytes}
    (hsize : v.length = o.segmentConfig.valueSize) :
    (run (Operations.put o key v) w).val = .ok ∨ (run (Operations.put o key v) w).val = .full ∨
      (run (Operations.put o key v) w).val = .noSpace := by
  obtain ⟨mgr, -, -, -, ⟨s, -, -, -, hval, hstate, -⟩ | ⟨hval, -, -⟩⟩ :=
    writeToSegment_spec hadm h key v
  · left
    have hput := (run_installPut (o := o)
      (w := afterInsert o { w with mgr := mgr } s (toBytes key) v) h.wal key (newAddr w s)).1
    simpa [Operations.put, hsize, hval, hstate, newAddr] using hput
  · right
    rcases hval with hval | hval
    · left
      simp [Operations.put, hsize, hval]
    · right
      simp [Operations.put, hsize, hval]

section Stages

variable {mgr : SegmentManager} {key : K} {v : Bytes}

theorem Live.new_vacant (hadm : o.Admissible K) (h : Live o H w) (hs : s < o.segmentCount)
    (hroom : (w.segs s).appendCursor < o.totalSlots) : view o w.disk (newAddr w s) = none := by
  rw [newAddr, view_encode hadm _ hs hroom, Disk.slot, SegmentImage.slot,
    (h.segs s hs).cursor_vacant]
  rfl

theorem view_installed (mgr : SegmentManager) (key : K) (v : Bytes) (hadm : o.Admissible K)
    (h : Live o H w) (hs : s < o.segmentCount) (hroom : (w.segs s).appendCursor < o.totalSlots) :
    view o (installed o w mgr s key v).disk (newAddr w s) = some (key, v) := by
  have hslot := afterInsert_slot (w := { w with mgr := mgr }) (toBytes key) v
    (h.segs s hs) s (w.segs s).appendCursor
  rw [if_pos ⟨rfl, rfl⟩] at hslot
  rw [newAddr, view_encode hadm _ hs hroom]
  change Option.map decodeSlot ((afterInsert o { w with mgr := mgr } s (toBytes key) v).disk.slot s
    (w.segs s).appendCursor) = _
  rw [hslot]
  simp [decodeSlot, ofBytes_toBytes]

theorem touches_installed (mgr : SegmentManager) (key : K) (v : Bytes) (h : Live o H w)
    (hs : s < o.segmentCount) :
    Touches (OneSlot s (w.segs s).appendCursor) (· = ⟨toBytes key, v⟩) w.disk
      (installed o w mgr s key v).disk :=
  touches_afterInsert (w := { w with mgr := mgr }) (h.segs s hs)

theorem avoids_new (hadm : o.Admissible K) (h : Live o H w) (hs : s < o.segmentCount)
    (hroom : (w.segs s).appendCursor < o.totalSlots) (hown : Owns (entries m) (view o w.disk)) :
    Avoids (entries m) (At (OneSlot s (w.segs s).appendCursor)) := by
  refine hown.avoids_vacant ?_
  rintro a ⟨s', i', ⟨rfl, rfl⟩, rfl⟩
  exact h.new_vacant hadm hs hroom

theorem live_installed (hadm : o.Admissible K) (h : Live o H w) (hmgr : ManagerOk o mgr)
    (hs : s < o.segmentCount) (hroom : (w.segs s).appendCursor < o.totalSlots)
    (hH : H key v) : Live o H (installed o w mgr s key v) where
  mgr := hmgr
  segs := segmentsOk_afterInsert (w := { w with mgr := mgr }) h.segs hs hroom
  owns := by
    have htouch := touches_installed mgr key v h hs
    have hkept := touches_owns htouch h.owns (avoids_new hadm h hs hroom h.owns)
    have hset := hkept.set (view_installed mgr key v hadm h hs hroom)
    rw [← entries_insert] at hset
    exact hset
  stored := by
    refine touches_stored (touches_installed mgr key v h hs) h.stored ?_
    rintro slot rfl
    exact ⟨key, rfl, hH⟩
  wal := h.wal

theorem value_installed (hadm : o.Admissible K) (h : Live o H w) (hs : s < o.segmentCount)
    (hroom : (w.segs s).appendCursor < o.totalSlots) :
    value o (installed o w mgr s key v) = Function.update (value o w) key (some v) := by
  have hset : content (Function.update (entries w.map) key _) _ = _ :=
    content_set (view_installed mgr key v hadm h hs hroom)
  rw [← entries_insert, touches_content_eq (touches_installed mgr key v h hs)
    (avoids_new hadm h hs hroom h.owns)] at hset
  exact hset

end Stages

/-- What releasing an offset may do: nothing but clear the slot at it. -/
structure Released (o : Options) (old : Option UInt64) (w : World K)
    (r : Outcome (World K) (Event K) Unit) : Prop where
  writes : ∃ X, WritesOnly X Nothing w.disk r.trace ∧ Touches X Nothing w.disk r.state.disk ∧
    ∀ a, At X a → old = some a
  cleared : ∀ a, old = some a → view o r.state.disk a = none
  segs : SegmentsOk o r.state
  mgr : r.state.mgr = w.mgr
  map : r.state.map = w.map
  wal : r.state.wal = w.wal
  others : ∀ id, (∀ a, old = some a → getSegmentId a ≠ id) →
    r.state.segs id = w.segs id ∧ r.state.disk.images id = w.disk.images id

theorem releaseOld_spec {K : Type} [KeyType K] {w : World K} (hadm : o.Admissible K)
    (hmgr : ManagerOk o w.mgr) (hsegs : SegmentsOk o w) {old : Option UInt64}
    (hold : ∀ a, old = some a → IsSlot o a) :
    Released o old w (run (releaseOld o old) w) := by
  cases old with
  | none =>
    refine ⟨⟨NoSlot, writesOnly_nil _, Touches.refl _ _ _, ?_⟩, ?_, hsegs, rfl, rfl, rfl,
      fun _ _ => ⟨rfl, rfl⟩⟩
    · rintro a ⟨s, i, hx, -⟩
      exact hx.elim
    · intro a ha
      cases ha
  | some a =>
    obtain ⟨s, hs, i, hi, rfl⟩ := hold a rfl
    obtain ⟨hstate, htrace⟩ := run_freeSlot (w := w) hadm hmgr hs hi
    have hrstate : (run (releaseOld o (some (encodeSegmentSlot s i))) w).state =
        (run (File.delete o s i) w).state := by
      simp [releaseOld, hstate]
    have hrtrace : (run (releaseOld o (some (encodeSegmentSlot s i))) w).trace =
        (run (File.delete o s i) w).trace := by
      simp [releaseOld, htrace]
    have hat : ∀ a, At (OneSlot s i) a → some (encodeSegmentSlot s i) = some a := by
      rintro a ⟨_, _, ⟨rfl, rfl⟩, rfl⟩
      rfl
    have hwrites := delete_writes (hsegs s hs) i
    cases hbit : (w.segs s).bitmap i with
    | false =>
      obtain ⟨hdstate, -⟩ := run_delete_vacant (hsegs s hs) hbit
      rw [hdstate] at hrstate
      refine ⟨⟨OneSlot s i, ?_, ?_, hat⟩, ?_, ?_, ?_, ?_, ?_, ?_⟩ <;>
        simp only [hrstate, hrtrace]
      · exact hwrites
      · exact Touches.refl _ _ _
      · rintro _ ⟨⟩
        rw [view_encode hadm _ hs hi, Disk.slot, SegmentImage.slot, (hsegs s hs).bitmap, hbit]
        rfl
      · exact hsegs
      · exact fun _ _ => ⟨trivial, trivial⟩
    | true =>
      obtain ⟨-, hdstate⟩ := run_delete (hsegs s hs) hbit
      rw [hdstate] at hrstate
      refine ⟨⟨OneSlot s i, ?_, ?_, hat⟩, ?_, ?_, ?_, ?_, ?_, ?_⟩ <;>
        simp only [hrstate, hrtrace]
      · exact hwrites
      · exact touches_afterDelete (hsegs s hs)
      · rintro _ ⟨⟩
        rw [view_encode hadm _ hs hi, afterDelete_slot (hsegs s hs), if_pos ⟨rfl, rfl⟩]
        rfl
      · exact segmentsOk_afterDelete hsegs hs
      · rfl
      · rfl
      · rfl
      · intro id hid
        have hne : id ≠ s := by
          rintro rfl
          exact hid _ rfl (getSegmentId_encodeSegmentSlot (lt_of_lt_of_le hs hadm.segments)
            (lt_of_lt_of_le hi hadm.slots))
        simp [afterDelete, World.setSegment, World.setImage, hne]

theorem Live.released (h : Live o H w) {old : Option UInt64}
    {r : Outcome (World K) (Event K) Unit} (hr : Released o old w r)
    (havoid : ∀ a, old = some a → Avoids (entries w.map) (· = a)) :
    Live o H r.state ∧ value o r.state = value o w := by
  obtain ⟨X, -, htouch, hat⟩ := hr.writes
  have hX : Avoids (entries w.map) (At X) := fun k a hk ha => havoid a (hat a ha) k a hk rfl
  refine ⟨⟨?_, hr.segs, ?_, ?_, ?_⟩, ?_⟩
  · rw [hr.mgr]
    exact h.mgr
  · rw [hr.map]
    exact touches_owns htouch h.owns hX
  · exact touches_stored htouch h.stored fun _ hn => hn.elim
  · intro writer hwriter
    exact h.wal writer (hr.wal ▸ hwriter)
  · rw [value, hr.map]
    exact touches_content_eq htouch hX

section Put

variable {mgr : SegmentManager} {key : K} {v : Bytes}

theorem old_slot (mgr : SegmentManager) (v : Bytes) (hadm : o.Admissible K) (h : Live o H w)
    (hs : s < o.segmentCount) (hroom : (w.segs s).appendCursor < o.totalSlots) {a : UInt64}
    (ha : w.map.lookup key = some a) :
    a ≠ newAddr w s ∧ ∃ u, view o (installed o w mgr s key v).disk a = some (key, u) := by
  obtain ⟨u, hu⟩ := h.owns key a ha
  have hne : a ≠ newAddr w s := by
    rintro rfl
    rw [h.new_vacant hadm hs hroom] at hu
    cases hu
  refine ⟨hne, u, ?_⟩
  rw [touches_view_eq (touches_installed mgr key v h hs), hu]
  rintro ⟨_, _, ⟨rfl, rfl⟩, rfl⟩
  exact hne rfl

theorem isSlot_of_view {K : Type} [KeyType K] {d : Disk K} {a : UInt64} {p : K × Bytes}
    (h : view o d a = some p) : IsSlot o a := by
  obtain ⟨s, hs, i, hi, ha, -⟩ := view_eq_some h
  exact ⟨s, hs, i, hi, ha⟩

theorem put_released (hadm : o.Admissible K) (h : Live o H w) (hmgr : ManagerOk o mgr)
    (hs : s < o.segmentCount) (hroom : (w.segs s).appendCursor < o.totalSlots) {w' : World K}
    (hlog : LogOnly (installed o w mgr s key v) w') :
    Released o (w.map.lookup key) w' (run (releaseOld o (w.map.lookup key)) w') ∧
      ∀ a, w.map.lookup key = some a → ∃ u, view o w'.disk a = some (key, u) := by
  refine ⟨releaseOld_spec hadm ?_ ?_ fun a ha => ?_, fun a ha => ?_⟩
  · rw [hlog.mgr]
    exact hmgr
  · intro id hid
    rw [hlog.segs, hlog.images]
    exact segmentsOk_afterInsert (w := { w with mgr := mgr }) h.segs hs hroom id hid
  · obtain ⟨v, hv⟩ := h.owns key a ha
    exact isSlot_of_view hv
  · rw [view_congr hlog.images]
    exact (old_slot mgr v hadm h hs hroom ha).2

/-- The end of a `Put` whose record went to the log, whatever became of the log files. -/
theorem put_committed (hadm : o.Admissible K) (h : Live o H w) (hmgr : ManagerOk o mgr)
    (hs : s < o.segmentCount) (hroom : (w.segs s).appendCursor < o.totalSlots) (hH : H key v)
    {w' : World K} (hlog : LogOnly (installed o w mgr s key v) w') (hwal : WalOpen w') :
    Live o H (run (releaseOld o (w.map.lookup key)) w').state ∧
      value o (run (releaseOld o (w.map.lookup key)) w').state =
        Function.update (value o w) key (some v) := by
  have hlogged := (live_installed hadm h hmgr hs hroom hH).logOnly hlog hwal
  obtain ⟨hreleased, hcell⟩ := put_released hadm h hmgr hs hroom hlog
  have hend := hlogged.released hreleased fun a ha => by
    obtain ⟨u, hu⟩ := hcell a ha
    refine hlogged.owns.avoids_cell hu ?_
    rw [hlog.map]
    intro hk
    have hnew : newAddr w s = a := by simpa [entries, installed] using hk
    exact (old_slot mgr v hadm h hs hroom ha).1 hnew.symm
  refine ⟨hend.1, hend.2.trans ?_⟩
  rw [value, hlog.map, view_congr hlog.images]
  exact value_installed hadm h hs hroom

theorem put_spec (hadm : o.Admissible K) (h : Live o H w) (hH : H key v) :
    Live o H (run (Operations.put o key v) w).state ∧
      value o (run (Operations.put o key v) w).state =
        if (run (Operations.put o key v) w).val = .ok
        then Function.update (value o w) key (some v) else value o w := by
  rcases put_cases hadm h key v with
    ⟨hval, ⟨mgr, hmgr, hstate⟩, -⟩ | ⟨mgr, s, hmgr, hs, hroom, hval, hstate, -⟩
  · rw [if_neg hval, hstate]
    exact ⟨h.congr hmgr rfl rfl rfl h.wal, rfl⟩
  · obtain ⟨-, hlog, hwal⟩ := run_appendWal_ok (o := o) (w := installed o w mgr s key v) h.wal
      (putRecord key (newAddr w s) (w.map.lookup key))
    rw [if_pos hval, hstate]
    exact put_committed hadm h hmgr hs hroom hH hlog hwal

end Put

/-! Delete. -/

theorem erase_of_lookup_none {K : Type} [DecidableEq K] {m : Map K} {key : K}
    (h : m.lookup key = none) : m.erase key = m := by
  refine Finmap.ext_lookup fun k => ?_
  rw [lookup_erase_eq]
  split_ifs with hk
  · rw [hk, h]
  · rfl

theorem delete_cases (h : WalOpen w) (key : K) :
    (w.map.lookup key = none ∧ (run (Operations.delete o key) w).val = .notFound ∧
      (run (Operations.delete o key) w).state = w ∧
      (run (Operations.delete o key) w).trace = []) ∨
    ∃ a, w.map.lookup key = some a ∧ (run (Operations.delete o key) w).val = .ok ∧
      (run (Operations.delete o key) w).state = (run (releaseOld o (some a))
        (run (appendWal o (deleteRecord key a)) { w with map := w.map.erase key }).state).state ∧
      (run (Operations.delete o key) w).trace =
        (run (appendWal o (deleteRecord key a)) { w with map := w.map.erase key }).trace ++
        (run (releaseOld o (some a))
          (run (appendWal o (deleteRecord key a))
            { w with map := w.map.erase key }).state).trace := by
  cases hk : w.map.lookup key with
  | none =>
    left
    simp [Operations.delete, eraseKey, hk, erase_of_lookup_none hk]
  | some a =>
    right
    have hlog := (run_appendWal_ok (o := o) (w := { w with map := w.map.erase key }) h
      (deleteRecord key a)).1
    refine ⟨a, rfl, ?_⟩
    simp [Operations.delete, eraseKey, hk, hlog, releaseOld]

theorem live_erased (h : Live o H w) (key : K) :
    Live o H { w with map := w.map.erase key } where
  mgr := h.mgr
  segs := h.segs
  owns := by
    rw [entries_erase]
    exact h.owns.unset key
  stored := h.stored
  wal := h.wal

theorem delete_committed (hadm : o.Admissible K) (h : Live o H w) {key : K} {a : UInt64}
    (hk : w.map.lookup key = some a) {w' : World K}
    (hlog : LogOnly { w with map := w.map.erase key } w') (hwal : WalOpen w') :
    Live o H (run (releaseOld o (some a)) w').state ∧
      value o (run (releaseOld o (some a)) w').state = Function.update (value o w) key none := by
  obtain ⟨u, hu⟩ := h.owns key a hk
  have hlogged := (live_erased h key).logOnly hlog hwal
  have hreleased : Released o (some a) _ _ := releaseOld_spec hadm hlogged.mgr hlogged.segs
    fun b hb => Option.some.inj hb ▸ isSlot_of_view hu
  have hend := hlogged.released hreleased fun b hb => by
    cases hb
    refine hlogged.owns.avoids_cell (v := u) (k := key) ?_ ?_
    · rw [view_congr hlog.images]
      exact hu
    · rw [hlog.map, entries_erase, Function.update_self]
      simp
  refine ⟨hend.1, hend.2.trans ?_⟩
  rw [value, hlog.map, view_congr hlog.images, entries_erase]
  exact content_unset key

theorem delete_spec (hadm : o.Admissible K) (h : Live o H w) (key : K) :
    Live o H (run (Operations.delete o key) w).state ∧
      (run (Operations.delete o key) w).val =
        (if value o w key = none then .notFound else .ok) ∧
      value o (run (Operations.delete o key) w).state = Function.update (value o w) key none := by
  rcases delete_cases (o := o) h.wal key with ⟨hk, hval, hstate, -⟩ | ⟨a, hk, hval, hstate, -⟩
  · have hnone : value o w key = none := content_none hk
    rw [hstate, hval, if_pos hnone]
    exact ⟨h, rfl, (Function.update_eq_self_iff.mpr hnone.symm).symm⟩
  · obtain ⟨u, hu, hvalue⟩ := h.owns.content_isSome hk
    obtain ⟨-, hlog, hwal⟩ := run_appendWal_ok (o := o)
      (w := { w with map := w.map.erase key }) h.wal (deleteRecord key a)
    obtain ⟨hlive, hend⟩ := delete_committed hadm h hk hlog hwal
    rw [hstate, hval, if_neg (by rw [value, hvalue]; simp)]
    exact ⟨hlive, rfl, hend⟩

end ParaKV.Index.Ownership
