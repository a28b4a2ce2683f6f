/- GID: ParaKV/Index/FailedCalls
   source: parakv/core/index/index.cc, parakv/core/segment/segment_file.cc,
     parakv/core/segment/segment_manager.cc
   digest: Puts and deletes that fail leave the answers of a running store as they were. -/

import ParaKV.Index.Faults
import ParaKV.Segment.Faults
import ParaKV.Index.Runs

/-!
Every file operation may fail, in the call at hand and in all calls before it. A failed `Put` can
leave bytes in the slot at the cursor of a segment, and a set bit when its rollback fails as well.
Nobody reads that slot as long as every key of the map refers to an occupied slot that holds it.

A running store keeps this. A start may not find it: a record whose `fsync` failed stays in the log
although its slot was freed, and a later start takes it for a key.
-/

set_option autoImplicit false

namespace ParaKV.Index.FailedCalls

open Lib.TracedProgram Lib.LogMap Index.Key Index.Wal Index.Operations Index.Durability Segment
open Segment.Base Segment.Manager Segment.ManagerSpec Segment.Accounting Segment.Faults Core.State

variable {K : Type} [DecidableEq K] [KeyType K] {o : Options} {x y : Mem K}

/-! What a running store keeps. -/

/-- Every key refers to an occupied slot that holds it. -/
def Anchored (o : Options) (x : Mem K) : Prop :=
  ∀ k a, x.map.lookup k = some a → ∃ s < o.segmentCount, ∃ i < o.totalSlots,
    a = encodeSegmentSlot s i ∧ (x.segs s).bitmap i = true ∧ (x.slots s i).key = toBytes k

structure Sound (o : Options) (x : Mem K) : Prop where
  mgr : ManagerOk o x.mgr
  isOpen : ∀ id < o.segmentCount, (x.segs id).isOpen = true
  below : ∀ id < o.segmentCount, ∀ i < o.totalSlots, (x.segs id).bitmap i = true →
    i < (x.segs id).appendCursor
  bound : ∀ id < o.segmentCount, (x.segs id).appendCursor ≤ o.totalSlots
  anchored : Anchored o x

/-- What `Contains` and `Get` read is the same below the cursors. -/
structure Kept (o : Options) (x y : Mem K) : Prop where
  map : y.map = x.map
  isOpen : ∀ id < o.segmentCount, (y.segs id).isOpen = (x.segs id).isOpen
  bits : ∀ id < o.segmentCount, ∀ i < (x.segs id).appendCursor,
    (y.segs id).bitmap i = (x.segs id).bitmap i
  slots : ∀ id < o.segmentCount, ∀ i < (x.segs id).appendCursor, y.slots id i = x.slots id i

theorem Sound.vacant (h : Sound o x) {id : ℕ} (hid : id < o.segmentCount)
    (hroom : (x.segs id).appendCursor < o.totalSlots) :
    (x.segs id).bitmap (x.segs id).appendCursor = false := by
  by_contra hbit
  have hlt := h.below id hid _ hroom (by simpa using hbit)
  omega

theorem Sound.unique (h : Sound o x) (hadm : o.Admissible K) {k k' : K} {a : UInt64}
    (hk : x.map.lookup k = some a) (hk' : x.map.lookup k' = some a) : k = k' := by
  obtain ⟨s, hs, i, hi, ha, -, hkey⟩ := h.anchored k a hk
  obtain ⟨s', hs', i', hi', ha', -, hkey'⟩ := h.anchored k' a hk'
  obtain ⟨rfl, rfl⟩ := encodeSegmentSlot_inj (lt_of_lt_of_le hs hadm.segments)
    (lt_of_lt_of_le hi hadm.slots) (lt_of_lt_of_le hs' hadm.segments)
    (lt_of_lt_of_le hi' hadm.slots) (ha.symm.trans ha')
  exact toBytes_injective (hkey.symm.trans hkey')

theorem get_val {K : Type} [DecidableEq K] (k : K) (size : ℕ) (w : World K) :
    (run (Operations.get o k size) w).val =
      if size ≠ o.segmentConfig.valueSize then (.invalidArgument, [])
      else match w.map.lookup k with
        | none => (.notFound, [])
        | some a =>
          if getFlag a ≠ .segmentSlot then (.notFound, [])
          else if getSegmentId a ∉ w.mgr.segments then (.notFound, [])
          else ((run (File.read o (getSegmentId a) (getSlotId a)) w).val.1,
            (run (File.read o (getSegmentId a) (getSlotId a)) w).val.2.value) := by
  unfold Operations.get
  split_ifs with hsize
  · rfl
  · cases hk : w.map.lookup k with
    | none => simp [lookup, hk]
    | some a =>
      by_cases hflag : getFlag a = .segmentSlot
      · by_cases hseg : getSegmentId a ∈ w.mgr.segments <;> simp [lookup, hk, hflag, hseg]
      · simp [lookup, hk, hflag]

/-- `Contains` and `Get` answer alike. -/
def Unchanged (o : Options) (w w' : World K) : Prop :=
  ∀ k : K, (run (contains k) w').val = (run (contains k) w).val ∧
    ∀ size, (run (Operations.get o k size) w').val = (run (Operations.get o k size) w).val

theorem unchanged_of_kept (hadm : o.Admissible K) {w w' : World K} (h : Sound o (mem w))
    (hmgr : ManagerOk o w'.mgr) (hkept : Kept o (mem w) (mem w')) : Unchanged o w w' := by
  have hmap : w'.map = w.map := hkept.map
  have hmem : ∀ k : K, k ∈ w'.map ↔ k ∈ w.map := fun k => by rw [hmap]
  refine fun k => ⟨decide_eq_decide.mpr (hmem k), fun size => ?_⟩
  rw [get_val, get_val, hmap]
  cases hk : w.map.lookup k with
  | none => rfl
  | some a =>
    obtain ⟨s, hs, i, hi, rfl, hbit, -⟩ := h.anchored k a hk
    have hs' := lt_of_lt_of_le hs hadm.segments
    have hi' := lt_of_lt_of_le hi hadm.slots
    have hlt := h.below s hs i hi hbit
    have hreg : s ∈ w.mgr.segments := (h.mgr.segments s).mpr hs
    have hreg' : s ∈ w'.mgr.segments := (hmgr.segments s).mpr hs
    have hopen : (w'.segs s).isOpen = (w.segs s).isOpen := hkept.isOpen s hs
    have hbits : (w'.segs s).bitmap i = (w.segs s).bitmap i := hkept.bits s hs i hlt
    have hslots : (w'.disk.images s).slots i = (w.disk.images s).slots i := hkept.slots s hs i hlt
    have hset : (w.segs s).bitmap i = true := hbit
    have hisOpen : (w.segs s).isOpen = true := h.isOpen s hs
    have hrange : ¬ o.totalSlots ≤ i := Nat.not_le.mpr hi
    simp [getFlag_encodeSegmentSlot hs' hi', getSegmentId_encodeSegmentSlot hs' hi',
      getSlotId_encodeSegmentSlot hs' hi', hreg, hreg', File.read, hopen, hbits, hslots, hset,
      hisOpen, hrange]

/-! One slot more, one slot less. -/

structure Beside (o : Options) (x y : Mem K) : Prop where
  mgr : ManagerOk o y.mgr
  segs : y.segs = x.segs
  map : y.map = x.map
  slots : ∀ id i, i ≠ (x.segs id).appendCursor → y.slots id i = x.slots id i

structure Added (o : Options) (x y : Mem K) (id : ℕ) (slot : Slot) : Prop where
  mgr : ManagerOk o y.mgr
  registered : id < o.segmentCount
  room : (x.segs id).appendCursor < o.totalSlots
  segs : y.segs = Function.update x.segs id (insertedSegment o (x.segs id))
  map : y.map = x.map
  new : y.slots id (x.segs id).appendCursor = slot
  slots : ∀ j i, i ≠ (x.segs j).appendCursor → y.slots j i = x.slots j i

theorem Beside.refl (h : Sound o x) : Beside o x x := ⟨h.mgr, rfl, rfl, fun _ _ _ => rfl⟩

theorem Beside.kept {K : Type} {x y : Mem K} (h : Beside o x y) : Kept o x y where
  map := h.map
  isOpen id _ := by rw [h.segs]
  bits id _ i _ := by rw [h.segs]
  slots id _ i hi := h.slots id i (Nat.ne_of_lt hi)

theorem Beside.sound (hx : Sound o x) (h : Beside o x y) : Sound o y where
  mgr := h.mgr
  isOpen := by rw [h.segs]; exact hx.isOpen
  below := by rw [h.segs]; exact hx.below
  bound := by rw [h.segs]; exact hx.bound
  anchored := by
    intro k a hk
    rw [h.map] at hk
    obtain ⟨s, hs, i, hi, ha, hbit, hkey⟩ := hx.anchored k a hk
    have hlt := hx.below s hs i hi hbit
    refine ⟨s, hs, i, hi, ha, ?_, ?_⟩
    · rw [h.segs]
      exact hbit
    · rw [h.slots s i (Nat.ne_of_lt hlt)]
      exact hkey

@[simp] theorem insertedSegment_isOpen (s : SegmentBase) :
    (insertedSegment o s).isOpen = s.isOpen := SegmentBase.updateState_isOpen _ _

@[simp] theorem insertedSegment_bitmap (s : SegmentBase) :
    (insertedSegment o s).bitmap = Function.update s.bitmap s.appendCursor true :=
  SegmentBase.updateState_bitmap _ _

@[simp] theorem insertedSegment_cursor (s : SegmentBase) :
    (insertedSegment o s).appendCursor = s.appendCursor + 1 :=
  SegmentBase.updateState_appendCursor _ _

@[simp] theorem deletedSegment_isOpen (s : SegmentBase) (sid : ℕ) :
    (deletedSegment o s sid).isOpen = s.isOpen := SegmentBase.updateState_isOpen _ _

@[simp] theorem deletedSegment_bitmap (s : SegmentBase) (sid : ℕ) :
    (deletedSegment o s sid).bitmap = Function.update s.bitmap sid false :=
  SegmentBase.updateState_bitmap _ _

@[simp] theorem deletedSegment_cursor (s : SegmentBase) (sid : ℕ) :
    (deletedSegment o s sid).appendCursor = s.appendCursor :=
  SegmentBase.updateState_appendCursor _ _

section Added

variable {id : ℕ} {slot : Slot}

theorem Added.kept {K : Type} {x y : Mem K} (h : Added o x y id slot) : Kept o x y where
  map := h.map
  isOpen j _ := by
    rw [h.segs]
    by_cases hj : j = id
    · subst hj
      simp
    · simp [hj]
  bits j _ i hi := by
    rw [h.segs]
    by_cases hj : j = id
    · subst hj
      simp [Nat.ne_of_lt hi]
    · simp [hj]
  slots j _ i hi := h.slots j i (Nat.ne_of_lt hi)

theorem Added.sound (hx : Sound o x) (h : Added o x y id slot) : Sound o y where
  mgr := h.mgr
  isOpen j hj := by
    rw [h.kept.isOpen j hj]
    exact hx.isOpen j hj
  below j hj i hi hbit := by
    rw [h.segs] at hbit ⊢
    by_cases hji : j = id
    · subst hji
      by_cases hic : i = (x.segs j).appendCursor
      · simp [hic]
      · have hold : (x.segs j).bitmap i = true := by simpa [hic] using hbit
        have hlt := hx.below j hj i hi hold
        simp
        omega
    · simp only [Function.update_of_ne hji] at hbit ⊢
      exact hx.below j hj i hi hbit
  bound j hj := by
    have hbound := hx.bound j hj
    have hroom := h.room
    rw [h.segs]
    by_cases hji : j = id
    · subst hji
      simp
      omega
    · simpa [hji] using hbound
  anchored := by
    intro k a hk
    rw [h.map] at hk
    obtain ⟨s, hs, i, hi, ha, hbit, hkey⟩ := hx.anchored k a hk
    have hlt := hx.below s hs i hi hbit
    refine ⟨s, hs, i, hi, ha, ?_, ?_⟩
    · rw [h.kept.bits s hs i hlt]
      exact hbit
    · rw [h.kept.slots s hs i hlt]
      exact hkey

theorem Added.occupied {K : Type} {x y : Mem K} (h : Added o x y id slot) :
    (y.segs id).bitmap (x.segs id).appendCursor = true := by
  rw [h.segs]
  simp

theorem Added.unused (hx : Sound o x) (hadm : o.Admissible K) (h : Added o x y id slot) (k : K) :
    y.map.lookup k ≠ some (encodeSegmentSlot id (x.segs id).appendCursor) := by
  intro hk
  rw [h.map] at hk
  obtain ⟨s, hs, i, hi, ha, hbit, -⟩ := hx.anchored k _ hk
  obtain ⟨rfl, rfl⟩ := encodeSegmentSlot_inj (lt_of_lt_of_le h.registered hadm.segments)
    (lt_of_lt_of_le h.room hadm.slots) (lt_of_lt_of_le hs hadm.segments)
    (lt_of_lt_of_le hi hadm.slots) ha
  rw [hx.vacant hs h.room] at hbit
  cases hbit

end Added

theorem Sound.deleted (h : Sound o x) {id sid : ℕ}
    (hfree : ∀ k, x.map.lookup k ≠ some (encodeSegmentSlot id sid)) :
    Sound o { x with segs := Function.update x.segs id (deletedSegment o (x.segs id) sid) } where
  mgr := h.mgr
  isOpen j hj := by
    have hopen := h.isOpen j hj
    by_cases hji : j = id
    · subst hji
      simpa using hopen
    · simpa [hji] using hopen
  below j hj i hi hbit := by
    have hold : (x.segs j).bitmap i = true → i < (x.segs j).appendCursor := h.below j hj i hi
    by_cases hji : j = id
    · subst hji
      by_cases his : i = sid
      · simp [his] at hbit
      · simp only [Function.update_self, deletedSegment_bitmap, Function.update_of_ne his,
          deletedSegment_cursor] at hbit ⊢
        exact hold hbit
    · simp only [Function.update_of_ne hji] at hbit ⊢
      exact hold hbit
  bound j hj := by
    have hbound := h.bound j hj
    by_cases hji : j = id
    · subst hji
      simpa using hbound
    · simpa [hji] using hbound
  anchored := by
    intro k a hk
    obtain ⟨s, hs, i, hi, rfl, hbit, hkey⟩ := h.anchored k a hk
    refine ⟨s, hs, i, hi, rfl, ?_, hkey⟩
    by_cases hsi : s = id
    · subst hsi
      have his : i ≠ sid := by
        rintro rfl
        exact hfree k hk
      simpa [his] using hbit
    · simpa [hsi] using hbit

theorem Sound.insert_entry (h : Sound o x) {id sid : ℕ} (hid : id < o.segmentCount)
    (hsid : sid < o.totalSlots) (hbit : (x.segs id).bitmap sid = true) {key : K}
    (hkey : (x.slots id sid).key = toBytes key) :
    Sound o { x with map := x.map.insert key (encodeSegmentSlot id sid) } where
  mgr := h.mgr
  isOpen := h.isOpen
  below := h.below
  bound := h.bound
  anchored := by
    intro k a hk
    rw [lookup_insert_eq] at hk
    split_ifs at hk with hkk
    · cases hk
      subst hkk
      exact ⟨id, hid, sid, hsid, rfl, hbit, hkey⟩
    · exact h.anchored k a hk

theorem Sound.erase_entry (h : Sound o x) (key : K) :
    Sound o { x with map := x.map.erase key } where
  mgr := h.mgr
  isOpen := h.isOpen
  below := h.below
  bound := h.bound
  anchored := by
    intro k a hk
    rw [lookup_erase_eq] at hk
    split_ifs at hk with hkk
    exact h.anchored k a hk

/-! Put. -/

theorem logOnly_any {K : Type} {x : Mem K} {α : Type} {m : M K α} (h : Moves LogOnly m) :
    Ensures (At x) m fun _ => At x := by
  intro io w hw
  have hlog := h io w
  rw [← hw, At, mem, mem, hlog.mgr, hlog.segs, hlog.map, hlog.images]

theorem appendWal_any {K : Type} [KeyType K] {x : Mem K} (rec : WalRecord K) :
    Ensures (At x) (appendWal o rec) fun _ => At x :=
  logOnly_any (Index.Faults.appendWal_logOnly rec)

theorem getActive_beside {K : Type} {x y : Mem K} (h : Beside o x y) :
    Ensures (At y) (getActiveSegment o) fun r w =>
      ∃ z, At z w ∧ Beside o x z ∧ ∀ id, r = some id → id < o.segmentCount := by
  refine getActiveSegment_any.weaken (fun _ h => h) fun r w hr => ?_
  obtain ⟨rfl, hw⟩ := hr
  obtain ⟨hok, -, hid⟩ := chooseActive_ok (o := o) (x := y) h.mgr
  exact ⟨_, hw, ⟨hok, h.segs, h.map, h.slots⟩, hid⟩

theorem insert_beside (hx : Sound o x) (h : Beside o x y) {id : ℕ} (hid : id < o.segmentCount)
    (key value : Bytes) :
    Ensures (At y) (File.insert o id key value) fun r w =>
      ∃ z, At z w ∧ z.mgr = y.mgr ∧ (r.1 ≠ .ok ∧ Beside o x z ∨
        r = (.ok, (x.segs id).appendCursor) ∧ Added o x z id ⟨key, value⟩) := by
  have hcursor : (y.segs id).appendCursor = (x.segs id).appendCursor := by rw [h.segs]
  have hvacant : (y.segs id).appendCursor < o.totalSlots →
      (y.segs id).bitmap (y.segs id).appendCursor = false := by
    rw [h.segs]
    exact hx.vacant hid
  have hslots : ∀ slot j i, i ≠ (x.segs j).appendCursor →
      putSlot y.slots id (x.segs id).appendCursor slot j i = x.slots j i := by
    intro slot j i hi
    rw [putSlot_of_ne, h.slots j i hi]
    rintro ⟨rfl, rfl⟩
    exact hi rfl
  refine (insert_any id key value hvacant).weaken (fun _ h => h) fun r w hr => ?_
  rw [hcursor] at hr
  rcases hr with ⟨hfail, slot, hw⟩ | ⟨hok, hroom, hw⟩
  · exact ⟨_, hw, rfl, Or.inl ⟨hfail, h.mgr, h.segs, h.map, hslots slot⟩⟩
  · refine ⟨_, hw, rfl, Or.inr ⟨hok, h.mgr, hid, hroom, ?_, h.map, putSlot_self .., hslots _⟩⟩
    rw [h.segs]

theorem writeToSegment_any (hx : Sound o x) (key : K) (value : Bytes) :
    Ensures (At x) (writeToSegment o key value) fun r w =>
      ∃ z, At z w ∧ (r.1 ≠ .ok ∧ Beside o x z ∨
        ∃ id, r = (.ok, encodeSegmentSlot id (x.segs id).appendCursor) ∧
          Added o x z id ⟨toBytes key, value⟩) := by
  refine (getActive_beside (.refl hx)).bind fun r => .given fun y => .fact fun hr => ?_
  obtain ⟨hy, hid⟩ := hr
  cases r with
  | none => exact .ret fun t ht => ⟨y, ht, Or.inl ⟨by decide, hy⟩⟩
  | some seg =>
    refine (insert_beside hx hy (hid seg rfl) _ _).bind fun r => .given fun z => .fact fun hr => ?_
    obtain ⟨st, slotId⟩ := r
    rcases hr.2 with ⟨hfail, hz⟩ | ⟨hok, hz⟩
    · refine .ite (fun hfull => ?_) fun hfull => ?_
      · -- the segment is full; another one is tried
        have hmark : Ensures (At z) (markSegmentFull o seg) fun _ => At
            { z with mgr := markSegmentFullInternal o z.mgr seg } := by
          refine .change fun w hw => ?_
          rw [← hw]
          rfl
        have hz' : Beside o x { z with mgr := markSegmentFullInternal o z.mgr seg } :=
          ⟨markSegmentFull_ok hz.mgr seg, hz.segs, hz.map, hz.slots⟩
        refine hmark.bind fun _ => (getActive_beside hz').bind fun r => .given fun y' =>
          .fact fun hr => ?_
        obtain ⟨hy', hid'⟩ := hr
        cases r with
        | none => exact .ret fun t ht => ⟨y', ht, Or.inl ⟨by decide, hy'⟩⟩
        | some seg' =>
          refine (insert_beside hx hy' (hid' seg' rfl) _ _).bind fun r => .given fun z' =>
            .fact fun hr => ?_
          obtain ⟨st', slotId'⟩ := r
          rcases hr.2 with ⟨hfail', hz'⟩ | ⟨hok', hz'⟩
          · refine .ite (fun _ => .ret fun t ht => ⟨z', ht, Or.inl ⟨hfail', hz'⟩⟩) fun hok' => ?_
            exact absurd hok' (not_not.mpr hfail')
          · obtain ⟨rfl, rfl⟩ := Prod.mk.inj hok'
            refine .ite (fun h => absurd rfl h) fun _ => .ret fun t ht => ?_
            exact ⟨z', ht, Or.inr ⟨seg', rfl, hz'⟩⟩
      · refine .ite (fun _ => .ret fun t ht => ⟨z, ht, Or.inl ⟨hfail, hz⟩⟩) fun hok => ?_
        exact absurd hok (not_not.mpr hfail)
    · obtain ⟨rfl, rfl⟩ := Prod.mk.inj hok
      refine .ite (fun h => absurd h (by decide)) fun _ => ?_
      refine .ite (fun h => absurd rfl h) fun _ => .ret fun t ht => ?_
      exact ⟨z, ht, Or.inr ⟨seg, rfl, hz⟩⟩

theorem freeSlot_any {K : Type} [KeyType K] {x : Mem K} (hadm : o.Admissible K) {id sid : ℕ}
    (hid : id < o.segmentCount) (hsid : sid < o.totalSlots) :
    Ensures (At x) (freeSlot o (encodeSegmentSlot id sid)) fun _ w =>
      At x w ∨
        At { x with segs := Function.update x.segs id (deletedSegment o (x.segs id) sid) } w := by
  have hid' := lt_of_lt_of_le hid hadm.segments
  have hsid' := lt_of_lt_of_le hsid hadm.slots
  refine .ite (fun _ => .ret fun _ h => Or.inl h) fun _ => .read fun w hw => ?_
  rw [getSegmentId_encodeSegmentSlot hid' hsid', getSlotId_encodeSegmentSlot hid' hsid']
  refine .ite (fun _ => .ret fun t ht => Or.inl (ht ▸ hw)) fun _ => ?_
  exact (delete_any id sid).weaken (fun t ht => ht ▸ hw) fun _ _ h => h.imp_right And.right

theorem insert_lookup_eq {K : Type} [DecidableEq K] {m : Map K} {key : K} {a b : UInt64}
    (h : m.lookup key = some b) :
    (m.insert key a).insert key b = m := by
  refine Finmap.ext_lookup fun k => ?_
  rw [lookup_insert_eq, lookup_insert_eq]
  split_ifs with hk
  · rw [hk, h]
  · rfl

theorem erase_insert_eq {K : Type} [DecidableEq K] {m : Map K} {key : K} {a : UInt64}
    (h : m.lookup key = none) :
    (m.insert key a).erase key = m := by
  refine Finmap.ext_lookup fun k => ?_
  rw [lookup_erase_eq, lookup_insert_eq]
  split_ifs with hk
  · rw [hk, h]
  · rfl

theorem insert_erase_eq {K : Type} [DecidableEq K] {m : Map K} {key : K} {a : UInt64}
    (h : m.lookup key = some a) :
    (m.erase key).insert key a = m := by
  refine Finmap.ext_lookup fun k => ?_
  rw [lookup_insert_eq, lookup_erase_eq]
  split_ifs with hk
  · rw [hk, h]
  · rfl

theorem setMap_any {K : Type} {x y : Mem K} (f : Map K → Map K)
    (h : y = { x with map := f x.map }) :
    Ensures (At x) (modify (fun w => { w with map := f w.map }) : M K PUnit) fun _ => At y := by
  refine .change fun w hw => ?_
  rw [h, ← hw]
  rfl

theorem revertPut_any {K : Type} [DecidableEq K] {x : Mem K} (key : K) (a : UInt64) :
    Ensures (At { x with map := x.map.insert key a }) (revertPut key (x.map.lookup key))
      fun _ => At x := by
  cases hold : x.map.lookup key with
  | none =>
    refine setMap_any (·.erase key) ?_
    simp only [erase_insert_eq hold]
  | some b =>
    have hmem : key ∈ x.map.insert key a := Finmap.mem_insert.mpr (Or.inl rfl)
    refine setMap_any (fun m => if key ∈ m then m.insert key b else m) ?_
    simp only [if_pos hmem, insert_lookup_eq hold]

theorem Added.kept_deleted {K : Type} {x y : Mem K} {id : ℕ} {slot : Slot}
    (h : Added o x y id slot) :
    Kept o x { y with
      segs := Function.update y.segs id
        (deletedSegment o (y.segs id) (x.segs id).appendCursor) } where
  map := h.map
  isOpen j hj := by
    have hopen := h.kept.isOpen j hj
    by_cases hji : j = id
    · subst hji
      simpa using hopen
    · simpa [hji] using hopen
  bits j hj i hi := by
    have hbits := h.kept.bits j hj i hi
    by_cases hji : j = id
    · subst hji
      simpa [Nat.ne_of_lt hi] using hbits
    · simpa [hji] using hbits
  slots := h.kept.slots

/-- A call ends in order, and as it began when it fails. -/
def Ends (o : Options) (x : Mem K) (st : Status) (w : World K) : Prop :=
  Sound o (mem w) ∧ (st ≠ .ok → Kept o x (mem w))

theorem rollbackPut_any (hadm : o.Admissible K) (hx : Sound o x) {id : ℕ} {slot : Slot}
    (h : Added o x y id slot) (key : K) {st : Status} :
    Ensures (At { y with map := y.map.insert key (encodeSegmentSlot id (x.segs id).appendCursor) })
      (do rollbackPut o key (encodeSegmentSlot id (x.segs id).appendCursor) (y.map.lookup key)
          return st) fun r w => r = st ∧ Ends o x st w := by
  have hfree : ∀ k, y.map.lookup k ≠ some (encodeSegmentSlot id (x.segs id).appendCursor) :=
    h.unused hx hadm
  have hrollback : Ensures
      (At { y with map := y.map.insert key (encodeSegmentSlot id (x.segs id).appendCursor) })
      (rollbackPut o key (encodeSegmentSlot id (x.segs id).appendCursor) (y.map.lookup key))
      fun _ w => Ends o x st w := by
    refine (revertPut_any key _).bind fun _ => ?_
    refine (freeSlot_any hadm h.registered h.room).bind fun _ => .ret fun w hw => ?_
    rcases hw with hw | hw
    · rw [Ends, show mem w = y from hw]
      exact ⟨h.sound hx, fun _ => h.kept⟩
    · rw [Ends, show mem w = _ from hw]
      exact ⟨(h.sound hx).deleted hfree, fun _ => h.kept_deleted⟩
  exact hrollback.bind fun _ => .ret fun _ h => ⟨rfl, h⟩

theorem releaseOld_any (hadm : o.Admissible K) (hx : Sound o x) {old : Option UInt64}
    (hold : ∀ a, old = some a → ∃ s < o.segmentCount, ∃ i < o.totalSlots, a = encodeSegmentSlot s i)
    (hfree : ∀ a, old = some a → ∀ k, x.map.lookup k ≠ some a) :
    Ensures (At x) (releaseOld o old) fun _ w => Sound o (mem w) := by
  cases old with
  | none => exact .ret fun w hw => (show mem w = x from hw) ▸ hx
  | some a =>
    obtain ⟨s, hs, i, hi, rfl⟩ := hold a rfl
    refine (freeSlot_any hadm hs hi).bind fun _ => .ret fun w hw => ?_
    rcases hw with hw | hw
    · exact (show mem w = x from hw) ▸ hx
    · rw [show mem w = _ from hw]
      exact hx.deleted (hfree _ rfl)

theorem installPut_any (hadm : o.Admissible K) (hx : Sound o x) {id : ℕ} {key : K} {value : Bytes}
    (h : Added o x y id ⟨toBytes key, value⟩) :
    Ensures (At y) (installPut o key (encodeSegmentSlot id (x.segs id).appendCursor))
      (Ends o x) := by
  set a := encodeSegmentSlot id (x.segs id).appendCursor with ha
  have hy := h.sound hx
  have hemplace : Ensures (At y) (emplace key a) fun old w =>
      At { y with map := y.map.insert key a } w ∧ old = y.map.lookup key := by
    intro io w hw
    rw [← hw]
    exact ⟨rfl, rfl⟩
  refine hemplace.bind fun old => .fact fun hold => ?_
  subst hold
  refine (appendWal_any _).bind fun st => .ite (fun hst => ?_) fun _ => ?_
  · refine (rollbackPut_any hadm hx h key).weaken (fun _ h => h) fun r w hr => ?_
    obtain ⟨rfl, hends⟩ := hr
    exact hends
  · have hnew : Sound o { y with map := y.map.insert key a } :=
      hy.insert_entry h.registered h.room h.occupied (by rw [h.new])
    have hrelease : Ensures (At { y with map := y.map.insert key a })
        (releaseOld o (y.map.lookup key)) fun _ w => Sound o (mem w) := by
      refine releaseOld_any hadm hnew (fun b hb => ?_) fun b hb k hk => ?_
      · obtain ⟨s, hs, i, hi, hbs, -⟩ := hy.anchored key b hb
        exact ⟨s, hs, i, hi, hbs⟩
      · -- only the key itself referred to its old slot
        have hother : (y.map.insert key a).lookup k = some b := hk
        rw [lookup_insert_eq] at hother
        split_ifs at hother with hkk
        · cases hother
          exact h.unused hx hadm key hb
        · exact hkk (hy.unique hadm hother hb)
    exact hrelease.bind fun _ => .ret fun w hw => ⟨hw, fun h => absurd rfl h⟩

theorem put_any (hadm : o.Admissible K) (hx : Sound o x) (key : K) (value : Bytes) :
    Ensures (At x) (Operations.put o key value) (Ends o x) := by
  have hstay : ∀ {st : Status} {y : Mem K} {w : World K},
      Beside o x y → At y w → Ends o x st w := by
    intro st y w hy hw
    rw [Ends, show mem w = y from hw]
    exact ⟨hy.sound hx, fun _ => hy.kept⟩
  refine .ite (fun _ => .ret fun w hw => hstay (.refl hx) hw) fun _ => ?_
  refine (writeToSegment_any hx key value).bind fun r => .given fun y => .fact fun hr => ?_
  obtain ⟨st, a⟩ := r
  rcases hr with ⟨hfail, hy⟩ | ⟨id, hok, hy⟩
  · refine .ite (fun _ => .ret fun w hw => hstay hy hw) fun h => ?_
    exact absurd h (not_not.mpr hfail)
  · obtain ⟨rfl, rfl⟩ := Prod.mk.inj hok
    refine .ite (fun h => absurd rfl h) fun _ => ?_
    exact installPut_any hadm hx hy

/-! Delete. -/

theorem delete_any (hadm : o.Admissible K) (hx : Sound o x) (key : K) :
    Ensures (At x) (Operations.delete o key) (Ends o x) := by
  have hstay : ∀ {st : Status} {w : World K}, At x w → Ends o x st w := by
    intro st w hw
    rw [Ends, show mem w = x from hw]
    exact ⟨hx, fun _ => (Beside.refl hx).kept⟩
  have herase : Ensures (At x) (eraseKey key) fun old w =>
      At { x with map := x.map.erase key } w ∧ old = x.map.lookup key := by
    intro io w hw
    rw [← hw]
    exact ⟨rfl, rfl⟩
  refine herase.bind fun old => .fact fun hold => ?_
  subst hold
  cases hkey : x.map.lookup key with
  | none =>
    have hsame : x.map.erase key = x.map := by
      refine Finmap.ext_lookup fun k => ?_
      rw [lookup_erase_eq]
      split_ifs with hk
      · rw [hk, hkey]
      · rfl
    rw [hsame]
    exact .ret fun w hw => hstay hw
  | some a =>
    refine (appendWal_any _).bind fun st => .ite (fun _ => ?_) fun _ => ?_
    · refine Ensures.bind (setMap_any (y := x)
        (fun m => if key ∈ m then m else m.insert key a) ?_) fun _ => .ret fun w hw => hstay hw
      have hnot : key ∉ x.map.erase key := by simp
      simp only [if_neg hnot, insert_erase_eq hkey]
    · obtain ⟨s, hs, i, hi, rfl, -⟩ := hx.anchored key a hkey
      refine (freeSlot_any hadm hs hi).bind fun _ => .ret fun w hw => ⟨?_, fun h => absurd rfl h⟩
      rcases hw with hw | hw
      · rw [show mem w = _ from hw]
        exact hx.erase_entry key
      · rw [show mem w = _ from hw]
        refine (hx.erase_entry key).deleted fun k hk => ?_
        have hother : (x.map.erase key).lookup k = some (encodeSegmentSlot s i) := hk
        rw [lookup_erase_eq] at hother
        split_ifs at hother with hkk
        exact hkk (hx.unique hadm hother hkey)

end ParaKV.Index.FailedCalls
