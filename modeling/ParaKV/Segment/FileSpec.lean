/- GID: ParaKV/Segment/FileSpec
   source: parakv/core/segment/segment_file.cc
   digest: What the segment operations leave and what they pass when every call succeeds. -/

import ParaKV.Segment.File

set_option autoImplicit false

namespace ParaKV.Segment.FileSpec

open Lib.TracedProgram Index.Key Segment.Base Core.State

variable {K : Type}

/-- The second disk differs from the first in segment files only: a slot that changed is in
`X` and is vacant or holds one of `N`, and no complete file is lost. -/
structure Touches (X : ℕ → ℕ → Prop) (N : Slot → Prop) (d d' : Disk K) : Prop where
  slot : ∀ s i, d'.slot s i = d.slot s i ∨ X s i ∧ ∀ slot, d'.slot s i = some slot → N slot
  complete : ∀ s, (d.images s).Complete → (d'.images s).Complete
  wal : d'.wal = d.wal
  snapshot : d'.snapshot = d.snapshot
  managerState : d'.managerState = d.managerState

namespace Touches

variable {X : ℕ → ℕ → Prop} {N : Slot → Prop} {d d' d'' : Disk K}

theorem refl (X : ℕ → ℕ → Prop) (N : Slot → Prop) (d : Disk K) : Touches X N d d :=
  ⟨fun _ _ => Or.inl rfl, fun _ h => h, rfl, rfl, rfl⟩

theorem trans (h : Touches X N d d') (h' : Touches X N d' d'') : Touches X N d d'' where
  slot s i := by
    rcases h'.slot s i with heq | hx
    · rw [heq]
      exact h.slot s i
    · exact Or.inr hx
  complete s hs := h'.complete s (h.complete s hs)
  wal := h'.wal.trans h.wal
  snapshot := h'.snapshot.trans h.snapshot
  managerState := h'.managerState.trans h.managerState

theorem slot_eq (h : Touches X N d d') {s i : ℕ} (hx : ¬ X s i) : d'.slot s i = d.slot s i :=
  (h.slot s i).resolve_right fun hxi => hx hxi.1

theorem slot_cases (h : Touches X N d d') {s i : ℕ} {slot : Slot}
    (hslot : d'.slot s i = some slot) : d.slot s i = some slot ∨ X s i ∧ N slot := by
  rcases h.slot s i with heq | ⟨hx, hn⟩
  · exact Or.inl (heq ▸ hslot)
  · exact Or.inr ⟨hx, hn slot hslot⟩

end Touches

theorem touches_setImage {X : ℕ → ℕ → Prop} {N : Slot → Prop} (w : World K) (id : ℕ)
    (f : SegmentImage)
    (hslot : ∀ i, f.slot i = w.disk.slot id i ∨ X id i ∧ ∀ slot, f.slot i = some slot → N slot)
    (hcomplete : (w.disk.images id).Complete → f.Complete) :
    Touches X N w.disk (w.setImage id f).disk := by
  have himage : ∀ s, (w.setImage id f).disk.images s =
      if s = id then f else w.disk.images s := by
    intro s
    by_cases hs : s = id
    · subst hs; simp [World.setImage]
    · simp [World.setImage, hs]
  refine ⟨fun s i => ?_, fun s hs => ?_, rfl, rfl, rfl⟩
  · simp only [Disk.slot, himage]
    split_ifs with h
    · exact h ▸ hslot i
    · exact Or.inl rfl
  · rw [himage]
    split_ifs with h
    · exact hcomplete (h ▸ hs)
    · exact hs

structure SegmentOk (o : Options) (s : SegmentBase) (f : SegmentImage) : Prop where
  isOpen : s.isOpen = true
  bitmap : f.bitmap = s.bitmap
  below : ∀ i, s.bitmap i = true → i < s.appendCursor
  bound : s.appendCursor ≤ o.totalSlots
  complete : f.Complete

def SegmentsOk (o : Options) (w : World K) : Prop :=
  ∀ id < o.segmentCount, SegmentOk o (w.segs id) (w.disk.images id)

def OneSlot (id sid : ℕ) : ℕ → ℕ → Prop := fun s i => s = id ∧ i = sid

def OneSegment (o : Options) (id : ℕ) : ℕ → ℕ → Prop := fun s i => s = id ∧ i < o.totalSlots

def NoSlot : ℕ → ℕ → Prop := fun _ _ => False

/-- Nothing is stored by an operation that only clears bits. -/
def Nothing : Slot → Prop := fun _ => False

/-- Durable writes that touch only `X`, and store only `N` there. -/
def WritesOnly (X : ℕ → ℕ → Prop) (N : Slot → Prop) (d : Disk K) (es : List (Event K)) : Prop :=
  ∀ e ∈ es, e.label = .io ∧ Touches X N d e.world.disk

variable {X : ℕ → ℕ → Prop} {N : Slot → Prop}

theorem writesOnly_nil (d : Disk K) : WritesOnly X N d [] := by
  intro e he
  cases he

theorem WritesOnly.append {d d' : Disk K} {es es' : List (Event K)} (h : WritesOnly X N d es)
    (hd : Touches X N d d') (h' : WritesOnly X N d' es') : WritesOnly X N d (es ++ es') := by
  intro e he
  rcases List.mem_append.mp he with he | he
  · exact h e he
  · exact ⟨(h' e he).1, hd.trans (h' e he).2⟩

theorem SegmentOk.bit_eq {o : Options} {w : World K} {id : ℕ}
    (h : SegmentOk o (w.segs id) (w.disk.images id)) (i : ℕ) :
    (w.disk.images id).bitmap i = (w.segs id).bitmap i :=
  congrFun h.bitmap i

theorem SegmentOk.slot_isSome {o : Options} {w : World K} {id : ℕ}
    (h : SegmentOk o (w.segs id) (w.disk.images id)) (i : ℕ) :
    (w.segs id).bitmap i = true ↔ ∃ slot, w.disk.slot id i = some slot := by
  unfold Disk.slot SegmentImage.slot
  rw [h.bit_eq]
  cases (w.segs id).bitmap i <;> simp

theorem SegmentOk.slot_none {o : Options} {w : World K} {id : ℕ}
    (h : SegmentOk o (w.segs id) (w.disk.images id)) (i : ℕ) :
    (w.segs id).bitmap i = false ↔ w.disk.slot id i = none := by
  unfold Disk.slot SegmentImage.slot
  rw [h.bit_eq]
  cases (w.segs id).bitmap i <;> simp

theorem SegmentOk.cursor_vacant {o : Options} {w : World K} {id : ℕ}
    (h : SegmentOk o (w.segs id) (w.disk.images id)) :
    (w.disk.images id).bitmap (w.segs id).appendCursor = false := by
  rw [h.bit_eq]
  by_contra hbit
  exact absurd (h.below _ (by simpa using hbit)) (lt_irrefl _)

variable (o : Options) (w : World K) (id : ℕ)

@[simp] theorem setImage_segs (f : SegmentImage) : (w.setImage id f).segs = w.segs := rfl
@[simp] theorem setSegment_disk (s : SegmentBase) : (w.setSegment id s).disk = w.disk := rfl
@[simp] theorem setSegment_self (s : SegmentBase) : (w.setSegment id s).segs id = s := by
  simp [World.setSegment]
@[simp] theorem setImage_self (f : SegmentImage) : (w.setImage id f).disk.images id = f := by
  simp [World.setImage]
@[simp] theorem setImage_setImage (f g : SegmentImage) :
    (w.setImage id f).setImage id g = w.setImage id g := by
  simp [World.setImage]
@[simp] theorem setSegment_setSegment (s t : SegmentBase) :
    (w.setSegment id s).setSegment id t = w.setSegment id t := by
  simp [World.setSegment]
theorem setSegment_setImage (s : SegmentBase) (f : SegmentImage) :
    (w.setSegment id s).setImage id f = (w.setImage id f).setSegment id s := rfl

@[simp] theorem overlay_length (new old : Bytes) : overlay new.length new old = new := by
  simp [overlay]
@[simp] theorem overlayBits_size (size : ℕ) (new old : ℕ → Bool) :
    overlayBits size size new old = new := by
  simp [overlayBits]

theorem overlayBits_cases (size n : ℕ) (new old : ℕ → Bool) (i : ℕ) :
    overlayBits size n new old i = new i ∨ overlayBits size n new old i = old i := by
  unfold overlayBits
  split_ifs with hn
  · dsimp only
    split_ifs
    · exact Or.inl rfl
    · exact Or.inr rfl
  · exact Or.inl rfl

/-! The three writes. -/

theorem pwrite_writes (len : ℕ) (upto : ℕ → World K → World K)
    (h : ∀ n, Touches X N w.disk (upto n w).disk) :
    WritesOnly X N w.disk (run (pwrite len upto) w).trace ∧
      Touches X N w.disk (run (pwrite len upto) w).state.disk := by
  refine ⟨fun e he => ?_, h len⟩
  rw [run_pwrite_trace] at he
  obtain ⟨n, -, rfl⟩ := List.mem_map.mp he
  exact ⟨rfl, h n⟩

theorem touches_vacant (sid : ℕ) (hvacant : (w.disk.images id).bitmap sid = false)
    (slot : Slot) : Touches X N w.disk (w.setImage id { w.disk.images id with
      slots := Function.update (w.disk.images id).slots sid slot }).disk := by
  refine touches_setImage _ _ _ (fun i => Or.inl ?_) fun h => h
  unfold Disk.slot SegmentImage.slot
  by_cases hi : i = sid
  · subst hi
    simp [hvacant]
  · simp [hi]

theorem pwriteKey_writes (sid : ℕ) (hvacant : (w.disk.images id).bitmap sid = false)
    (key : Bytes) : WritesOnly X N w.disk (run (File.pwriteKey id sid key) w).trace ∧
      Touches X N w.disk (run (File.pwriteKey id sid key) w).state.disk :=
  pwrite_writes _ _ _ fun _ => touches_vacant _ _ _ hvacant _

theorem pwriteValue_writes (sid : ℕ) (hvacant : (w.disk.images id).bitmap sid = false)
    (value : Bytes) : WritesOnly X N w.disk (run (File.pwriteValue id sid value) w).trace ∧
      Touches X N w.disk (run (File.pwriteValue id sid value) w).state.disk :=
  pwrite_writes _ _ _ fun _ => touches_vacant _ _ _ hvacant _

theorem flushBitmap_writes
    (h : ∀ i, (w.segs id).bitmap i = (w.disk.images id).bitmap i ∨
      X id i ∧ ((w.segs id).bitmap i = true → N ((w.disk.images id).slots i))) :
    WritesOnly X N w.disk (run (File.flushBitmap o id : M K Status) w).trace ∧
      Touches X N w.disk (run (File.flushBitmap o id : M K Status) w).state.disk := by
  refine pwrite_writes w _ _ fun n => touches_setImage _ _ _ (fun i => ?_) fun h => h
  have hkeep : ∀ b : ℕ → Bool, b i = (w.disk.images id).bitmap i →
      SegmentImage.slot { w.disk.images id with bitmap := b } i = w.disk.slot id i := by
    intro b hb
    simp only [Disk.slot, SegmentImage.slot, hb]
  rcases overlayBits_cases (calculateLayout o.segmentConfig).bitmapSize n
    (w.segs id).bitmap (w.disk.images id).bitmap i with hbit | hbit
  · rcases h i with heq | ⟨hx, hnew⟩
    · exact Or.inl (hkeep _ (hbit.trans heq))
    · refine Or.inr ⟨hx, fun slot hslot => ?_⟩
      simp only [SegmentImage.slot] at hslot
      split_ifs at hslot with hset
      obtain rfl := Option.some.inj hslot
      exact hnew (hbit ▸ hset)
  · exact Or.inl (hkeep _ hbit)

/-! Insert. -/

def afterInsert (key value : Bytes) : World K :=
  let s := w.segs id
  let f := w.disk.images id
  let bits := Function.update s.bitmap s.appendCursor true
  (w.setImage id { f with
      bitmap := bits
      slots := Function.update f.slots s.appendCursor ⟨key, value⟩ }).setSegment id
    ({ s with
      bitmap := bits
      usedSlots := s.usedSlots + 1
      appendCursor := s.appendCursor + 1 }.updateState o.segmentConfig)

variable {o w id} {key value : Bytes}

theorem findFreeSlot_eq (hslots : o.totalSlots ≤ 2 ^ 28) (s : SegmentBase) :
    s.findFreeSlot o.segmentConfig =
      if s.appendCursor < o.totalSlots then some s.appendCursor else none := by
  unfold SegmentBase.findFreeSlot Options.totalSlots at *
  split_ifs with h h'
  · rfl
  · omega
  · rfl

theorem findFreeSlot_some {s : SegmentBase} {sid : ℕ}
    (h : s.findFreeSlot o.segmentConfig = some sid) :
    sid = s.appendCursor ∧ s.appendCursor < o.totalSlots := by
  unfold SegmentBase.findFreeSlot at h
  split_ifs at h with hlt hsmall
  cases h
  exact ⟨rfl, hlt⟩

theorem run_insert (key value : Bytes) (hslots : o.totalSlots ≤ 2 ^ 28)
    (hok : SegmentOk o (w.segs id) (w.disk.images id))
    (hroom : (w.segs id).appendCursor < o.totalSlots) :
    (run (File.insert o id key value) w).val = (.ok, (w.segs id).appendCursor) ∧
      (run (File.insert o id key value) w).state = afterInsert o w id key value := by
  simp [File.insert, hok.isOpen, findFreeSlot_eq hslots, hroom, File.pwriteKey,
    File.pwriteValue, File.flushBitmap, afterInsert, SegmentBase.setSlotBit,
    setSegment_setImage]

theorem insert_mgr {o : Options} (w : World K) (id : ℕ) (key value : Bytes) :
    (run (File.insert o id key value) w).state.mgr = w.mgr := by
  cases hopen : (w.segs id).isOpen with
  | false => simp [File.insert, hopen]
  | true =>
    cases hfree : (w.segs id).findFreeSlot o.segmentConfig with
    | none => simp [File.insert, hopen, hfree]
    | some sid =>
      simp [File.insert, hopen, hfree, File.pwriteKey, File.pwriteValue, File.flushBitmap,
        World.setSegment, World.setImage]

theorem run_insert_full (key value : Bytes) (hslots : o.totalSlots ≤ 2 ^ 28)
    (hok : SegmentOk o (w.segs id) (w.disk.images id))
    (hfull : ¬ (w.segs id).appendCursor < o.totalSlots) :
    (run (File.insert o id key value) w).val = (.full, 0) ∧
      (run (File.insert o id key value) w).state = w ∧
      (run (File.insert o id key value) w).trace = [] := by
  simp [File.insert, hok.isOpen, findFreeSlot_eq hslots, hfull]

theorem afterInsert_slot (key value : Bytes)
    (hok : SegmentOk o (w.segs id) (w.disk.images id)) (s i : ℕ) :
    (afterInsert o w id key value).disk.slot s i =
      if s = id ∧ i = (w.segs id).appendCursor then some ⟨key, value⟩
      else w.disk.slot s i := by
  unfold Disk.slot SegmentImage.slot afterInsert
  by_cases hs : s = id
  · subst hs
    by_cases hi : i = (w.segs s).appendCursor
    · simp [hi]
    · simp [hi, hok.bitmap]
  · simp [World.setImage, hs]

theorem touches_afterInsert (hok : SegmentOk o (w.segs id) (w.disk.images id)) :
    Touches (OneSlot id (w.segs id).appendCursor) (· = ⟨key, value⟩) w.disk
      (afterInsert o w id key value).disk := by
  refine touches_setImage _ _ _ (fun i => ?_) fun h => h
  by_cases hi : i = (w.segs id).appendCursor
  · right
    subst hi
    exact ⟨⟨rfl, rfl⟩, by simp [SegmentImage.slot]⟩
  · left
    simp [Disk.slot, SegmentImage.slot, hi, hok.bitmap]

theorem segmentsOk_afterInsert (h : SegmentsOk o w) (hid : id < o.segmentCount)
    (hroom : (w.segs id).appendCursor < o.totalSlots) :
    SegmentsOk o (afterInsert o w id key value) := by
  intro j hj
  have hok := h id hid
  by_cases hji : j = id
  · subst hji
    refine ⟨?_, ?_, ?_, ?_, ?_⟩ <;>
      simp only [afterInsert, setSegment_self, setSegment_disk, setImage_self,
        SegmentBase.updateState_isOpen, SegmentBase.updateState_bitmap,
        SegmentBase.updateState_appendCursor]
    · exact hok.isOpen
    · intro i hi
      by_cases hic : i = (w.segs j).appendCursor
      · omega
      · rw [Function.update_of_ne hic] at hi
        exact Nat.lt_succ_of_lt (hok.below i hi)
    · omega
    · exact hok.complete
  · simpa [afterInsert, World.setSegment, World.setImage, hji] using h j hj

theorem insert_trace (hslots : o.totalSlots ≤ 2 ^ 28)
    (hok : SegmentOk o (w.segs id) (w.disk.images id))
    (hroom : (w.segs id).appendCursor < o.totalSlots) :
    let sid := (w.segs id).appendCursor
    let w₁ := (run (File.pwriteKey id sid key) w).state
    let w₂ := (run (File.pwriteValue id sid value) w₁).state
    let w₃ := w₂.setSegment id ((w₂.segs id).setSlotBit sid)
    (run (File.insert o id key value) w).trace =
      (run (File.pwriteKey id sid key) w).trace ++
        ((run (File.pwriteValue id sid value) w₁).trace ++
          (run (File.flushBitmap o id : M K Status) w₃).trace) := by
  simp [File.insert, hok.isOpen, findFreeSlot_eq hslots, hroom, File.pwriteKey, File.pwriteValue,
    File.flushBitmap]

theorem insert_writes (hslots : o.totalSlots ≤ 2 ^ 28)
    (hok : SegmentOk o (w.segs id) (w.disk.images id))
    (hroom : (w.segs id).appendCursor < o.totalSlots) :
    WritesOnly (OneSlot id (w.segs id).appendCursor) (· = ⟨key, value⟩) w.disk
      (run (File.insert o id key value) w).trace := by
  let sid := (w.segs id).appendCursor
  let w₁ := (run (File.pwriteKey id sid key) w).state
  let w₂ := (run (File.pwriteValue id sid value) w₁).state
  let w₃ := w₂.setSegment id ((w₂.segs id).setSlotBit sid)
  have hkey := pwriteKey_writes (X := OneSlot id sid) (N := (· = ⟨key, value⟩)) w id sid
    hok.cursor_vacant key
  have hvalue := pwriteValue_writes (X := OneSlot id sid) (N := (· = ⟨key, value⟩)) w₁ id sid
    (by simpa [w₁, File.pwriteKey] using hok.cursor_vacant) value
  have hflush : WritesOnly (OneSlot id sid) (· = ⟨key, value⟩) w₂.disk
      (run (File.flushBitmap o id : M K Status) w₃).trace := by
    refine (flushBitmap_writes o w₃ id fun i => ?_).1
    by_cases hi : i = sid
    · right
      subst hi
      exact ⟨⟨rfl, rfl⟩, fun _ => by simp [w₃, w₂, w₁, File.pwriteKey, File.pwriteValue]⟩
    · left
      simp [w₃, w₂, w₁, File.pwriteKey, File.pwriteValue, SegmentBase.setSlotBit, hi, hok.bitmap]
  rw [insert_trace hslots hok hroom]
  exact hkey.1.append hkey.2 (hvalue.1.append hvalue.2 hflush)

theorem flushBitmap_length (w : World K) (id : ℕ) :
    (run (File.flushBitmap o id : M K Status) w).trace.length =
      (calculateLayout o.segmentConfig).bitmapSize + 1 := by
  simp [File.flushBitmap]

theorem insert_length (hslots : o.totalSlots ≤ 2 ^ 28)
    (hok : SegmentOk o (w.segs id) (w.disk.images id))
    (hroom : (w.segs id).appendCursor < o.totalSlots) :
    (run (File.insert o id key value) w).trace.length =
      key.length + 1 + (value.length + 1) + ((calculateLayout o.segmentConfig).bitmapSize + 1) := by
  rw [insert_trace hslots hok hroom, List.length_append, List.length_append, flushBitmap_length]
  simp [File.pwriteKey, File.pwriteValue, Nat.add_assoc]

theorem insert_payload (hslots : o.totalSlots ≤ 2 ^ 28)
    (hok : SegmentOk o (w.segs id) (w.disk.images id))
    (hroom : (w.segs id).appendCursor < o.totalSlots) {n : ℕ} {e : Event K}
    (hn : n < key.length + 1 + (value.length + 1))
    (he : (run (File.insert o id key value) w).trace[n]? = some e) :
    Touches NoSlot Nothing w.disk e.world.disk := by
  let sid := (w.segs id).appendCursor
  let w₁ := (run (File.pwriteKey id sid key) w).state
  have hkey := pwriteKey_writes (X := NoSlot) (N := Nothing) w id sid hok.cursor_vacant key
  have hvalue := pwriteValue_writes (X := NoSlot) (N := Nothing) w₁ id sid
    (by simpa [w₁, File.pwriteKey] using hok.cursor_vacant) value
  have hpayload := hkey.1.append hkey.2 hvalue.1
  refine (hpayload e (List.mem_of_getElem? (i := n) ?_)).2
  rw [insert_trace hslots hok hroom, ← List.append_assoc, List.getElem?_append_left] at he
  · exact he
  · simp only [List.length_append, File.pwriteKey, File.pwriteValue, run_pwrite_trace,
      List.length_map, List.length_range]
    exact hn

/-! Delete. -/

def afterDelete (o : Options) (w : World K) (id sid : ℕ) : World K :=
  let s := w.segs id
  let bits := Function.update s.bitmap sid false
  (w.setImage id { w.disk.images id with bitmap := bits }).setSegment id
    ({ s with
      bitmap := bits
      usedSlots := s.usedSlots - 1
      deletedSlots := s.deletedSlots + 1 }.updateState o.segmentConfig)

variable {sid : ℕ}

theorem run_delete (hok : SegmentOk o (w.segs id) (w.disk.images id))
    (hbit : (w.segs id).bitmap sid = true) :
    (run (File.delete o id sid) w).val = .ok ∧
      (run (File.delete o id sid) w).state = afterDelete o w id sid := by
  have hsid : ¬ sid ≥ o.totalSlots := by
    have := hok.below sid hbit
    have := hok.bound
    omega
  simp [File.delete, hsid, hok.isOpen, hbit, File.flushBitmap, afterDelete,
    SegmentBase.clearSlotBit, setSegment_setImage]

theorem run_delete_vacant (hok : SegmentOk o (w.segs id) (w.disk.images id))
    (hbit : (w.segs id).bitmap sid = false) :
    (run (File.delete o id sid) w).state = w ∧ (run (File.delete o id sid) w).trace = [] := by
  by_cases hsid : sid ≥ o.totalSlots
  · simp [File.delete, hsid]
  · simp [File.delete, hsid, hok.isOpen, hbit]

theorem afterDelete_slot (hok : SegmentOk o (w.segs id) (w.disk.images id)) (s i : ℕ) :
    (afterDelete o w id sid).disk.slot s i =
      if s = id ∧ i = sid then none else w.disk.slot s i := by
  unfold Disk.slot SegmentImage.slot afterDelete
  by_cases hs : s = id
  · subst hs
    by_cases hi : i = sid
    · simp [hi]
    · simp [hi, hok.bitmap]
  · simp [World.setImage, hs]

theorem touches_afterDelete (hok : SegmentOk o (w.segs id) (w.disk.images id)) :
    Touches (OneSlot id sid) Nothing w.disk (afterDelete o w id sid).disk := by
  refine touches_setImage _ _ _ (fun i => ?_) fun h => h
  by_cases hi : i = sid
  · right
    subst hi
    exact ⟨⟨rfl, rfl⟩, by simp [SegmentImage.slot]⟩
  · left
    simp [Disk.slot, SegmentImage.slot, hi, hok.bitmap]

theorem segmentsOk_afterDelete (h : SegmentsOk o w) (hid : id < o.segmentCount) :
    SegmentsOk o (afterDelete o w id sid) := by
  intro j hj
  have hok := h id hid
  by_cases hji : j = id
  · subst hji
    refine ⟨?_, ?_, ?_, ?_, ?_⟩ <;>
      simp only [afterDelete, setSegment_self, setSegment_disk, setImage_self,
        SegmentBase.updateState_isOpen, SegmentBase.updateState_bitmap,
        SegmentBase.updateState_appendCursor]
    · exact hok.isOpen
    · intro i hi
      by_cases hic : i = sid
      · simp [hic] at hi
      · rw [Function.update_of_ne hic] at hi
        exact hok.below i hi
    · exact hok.bound
    · exact hok.complete
  · simpa [afterDelete, World.setSegment, World.setImage, hji] using h j hj

theorem delete_trace (hok : SegmentOk o (w.segs id) (w.disk.images id))
    (hbit : (w.segs id).bitmap sid = true) :
    (run (File.delete o id sid) w).trace = (run (File.flushBitmap o id : M K Status)
      (w.setSegment id ((w.segs id).clearSlotBit sid))).trace := by
  have hsid : ¬ sid ≥ o.totalSlots := by
    have := hok.below sid hbit
    have := hok.bound
    omega
  simp [File.delete, hsid, hok.isOpen, hbit, File.flushBitmap]

theorem delete_last (hok : SegmentOk o (w.segs id) (w.disk.images id))
    (hbit : (w.segs id).bitmap sid = true) {e : Event K}
    (he : (run (File.delete o id sid) w).trace[
      (calculateLayout o.segmentConfig).bitmapSize]? = some e) :
    e.world.disk = (run (File.delete o id sid) w).state.disk := by
  rw [delete_trace hok hbit] at he
  rw [(run_delete hok hbit).2]
  simp only [File.flushBitmap, Prog.exec_bind_trace, Prog.exec_get_trace, Prog.exec_get_val,
    Prog.exec_get_state, List.nil_append, run_pwrite_trace, List.getElem?_map,
    List.getElem?_range (Nat.lt_succ_self _), Option.map_some, Option.some.injEq] at he
  subst he
  simp [afterDelete, SegmentBase.clearSlotBit, World.setImage, World.setSegment]

theorem delete_writes (hok : SegmentOk o (w.segs id) (w.disk.images id)) (sid : ℕ) :
    WritesOnly (OneSlot id sid) Nothing w.disk (run (File.delete o id sid) w).trace := by
  cases hbit : (w.segs id).bitmap sid with
  | false =>
    rw [(run_delete_vacant hok hbit).2]
    exact writesOnly_nil _
  | true =>
    let w₁ := w.setSegment id ((w.segs id).clearSlotBit sid)
    rw [delete_trace hok hbit]
    refine (flushBitmap_writes o w₁ id fun i => ?_).1
    by_cases hi : i = sid
    · right
      subst hi
      exact ⟨⟨rfl, rfl⟩, fun hset => by simp [w₁, SegmentBase.clearSlotBit] at hset⟩
    · left
      simp [w₁, SegmentBase.clearSlotBit, hi, hok.bitmap]

/-! Reset. -/

def afterReset (w : World K) (id : ℕ) : World K :=
  (w.setImage id { w.disk.images id with bitmap := fun _ => false }).setSegment id
    (w.segs id).resetBitmap

theorem run_resetSegment (o : Options) (w : World K) (id : ℕ) :
    (run (File.resetSegment o id : M K Status) w).val = .ok ∧
      (run (File.resetSegment o id : M K Status) w).state = afterReset w id := by
  simp [File.resetSegment, File.flushBitmap, afterReset, SegmentBase.resetBitmap,
    setSegment_setImage]

theorem afterReset_slot (s i : ℕ) :
    (afterReset w id).disk.slot s i = if s = id then none else w.disk.slot s i := by
  unfold Disk.slot SegmentImage.slot afterReset
  by_cases hs : s = id
  · subst hs
    simp
  · simp [World.setImage, hs]

theorem SegmentOk.bit_bound (hok : SegmentOk o (w.segs id) (w.disk.images id)) {i : ℕ}
    (hi : ¬ i < o.totalSlots) : (w.disk.images id).bitmap i = false := by
  rw [hok.bit_eq]
  by_contra hbit
  have := hok.below i (by simpa using hbit)
  have := hok.bound
  omega

theorem touches_afterReset (hok : SegmentOk o (w.segs id) (w.disk.images id)) :
    Touches (OneSegment o id) Nothing w.disk (afterReset w id).disk := by
  refine touches_setImage _ _ _ (fun i => ?_) fun h => h
  by_cases hi : i < o.totalSlots
  · exact Or.inr ⟨⟨rfl, hi⟩, by simp [SegmentImage.slot]⟩
  · exact Or.inl (by simp [Disk.slot, SegmentImage.slot, hok.bit_bound hi])

theorem segmentsOk_afterReset (h : SegmentsOk o w) (hid : id < o.segmentCount) :
    SegmentsOk o (afterReset w id) := by
  intro j hj
  have hok := h id hid
  by_cases hji : j = id
  · subst hji
    refine ⟨?_, ?_, ?_, ?_, ?_⟩ <;>
      simp only [afterReset, setSegment_self, setSegment_disk, setImage_self,
        SegmentBase.resetBitmap]
    · exact hok.isOpen
    · simp
    · exact Nat.zero_le _
    · exact hok.complete
  · simpa [afterReset, World.setSegment, World.setImage, hji] using h j hj

theorem resetSegment_writes (hok : SegmentOk o (w.segs id) (w.disk.images id)) :
    WritesOnly (OneSegment o id) Nothing w.disk
      (run (File.resetSegment o id : M K Status) w).trace := by
  refine (flushBitmap_writes o (w.setSegment id (w.segs id).resetBitmap) id fun i => ?_).1
  by_cases hi : i < o.totalSlots
  · exact Or.inr ⟨⟨rfl, hi⟩, fun hset => by simp [SegmentBase.resetBitmap] at hset⟩
  · exact Or.inl (by simp [SegmentBase.resetBitmap, hok.bit_bound hi])

/-! Read. -/

theorem run_read (hok : SegmentOk o (w.segs id) (w.disk.images id)) (hsid : sid < o.totalSlots) :
    (run (File.read o id sid) w).val =
      match w.disk.slot id sid with
      | some slot => (.ok, slot)
      | none => (.notFound, ⟨[], []⟩) := by
  have hsid' : ¬ sid ≥ o.totalSlots := by omega
  unfold Disk.slot SegmentImage.slot
  rw [hok.bit_eq]
  cases hbit : (w.segs id).bitmap sid <;> simp [File.read, hsid', hok.isOpen, hbit]

theorem run_read_quiet (w : World K) (id sid : ℕ) :
    (run (File.read o id sid) w).state = w ∧ (run (File.read o id sid) w).trace = [] := by
  by_cases hsid : sid ≥ o.totalSlots
  · simp [File.read, hsid]
  · cases hopen : (w.segs id).isOpen <;> cases hbit : (w.segs id).bitmap sid <;>
      simp [File.read, hsid, hopen, hbit]

/-! Open. -/

structure ImageOk (o : Options) (f : SegmentImage) : Prop where
  complete : ∀ i, f.bitmap i = true → f.Complete
  bound : ∀ i, f.bitmap i = true → i < o.totalSlots

theorem SegmentOk.imageOk {s : SegmentBase} {f : SegmentImage} (h : SegmentOk o s f) :
    ImageOk o f where
  complete _ _ := h.complete
  bound i hi := lt_of_lt_of_le (h.below i (h.bitmap ▸ hi)) h.bound

theorem Touches.imageOk {d d' : Disk K} (h : Touches X N d d') (s : ℕ)
    (hX : ∀ i slot, X s i → N slot → (d.images s).Complete ∧ i < o.totalSlots)
    (hd : ImageOk o (d.images s)) : ImageOk o (d'.images s) := by
  have hbit : ∀ i, (d'.images s).bitmap i = true →
      (d.images s).Complete ∧ i < o.totalSlots := by
    intro i hi
    rcases h.slot_cases (s := s) (i := i) (if_pos hi) with hold | ⟨hx, hn⟩
    · have hset : (d.images s).bitmap i = true := by
        by_contra hset
        simp [Disk.slot, SegmentImage.slot, hset] at hold
      exact ⟨hd.complete i hset, hd.bound i hset⟩
    · exact hX i _ hx hn
  exact ⟨fun i hi => h.complete s (hbit i hi).1, fun i hi => (hbit i hi).2⟩

theorem rebuildCounters_succ (n : ℕ) (bitmap : ℕ → Bool) :
    File.rebuildCounters (n + 1) bitmap =
      if bitmap n then ((File.rebuildCounters n bitmap).1 + 1, n + 1)
      else File.rebuildCounters n bitmap := by
  unfold File.rebuildCounters
  rw [List.range_succ, List.foldl_append]
  rfl

theorem rebuildCounters_cursor (total : ℕ) (bitmap : ℕ → Bool) :
    (∀ i < total, bitmap i = true → i < (File.rebuildCounters total bitmap).2) ∧
      (File.rebuildCounters total bitmap).2 ≤ total := by
  induction total with
  | zero => simp [File.rebuildCounters]
  | succ n ih =>
    rw [rebuildCounters_succ]
    split_ifs with hn
    · exact ⟨fun i hi _ => hi, le_refl _⟩
    · refine ⟨fun i hi hbit => ?_, by omega⟩
      rcases Nat.lt_succ_iff_lt_or_eq.mp hi with hlt | rfl
      · exact ih.1 i hlt hbit
      · exact (hn hbit).elim

theorem rebuildCounters_last (total : ℕ) (bitmap : ℕ → Bool)
    (hpos : 0 < (File.rebuildCounters total bitmap).2) :
    bitmap ((File.rebuildCounters total bitmap).2 - 1) = true := by
  induction total with
  | zero => simp [File.rebuildCounters] at hpos
  | succ n ih =>
    rw [rebuildCounters_succ] at hpos ⊢
    split_ifs at hpos ⊢ with hn
    · exact hn
    · exact ih hpos

def openedSegment (o : Options) (s : SegmentBase) (f : SegmentImage) : SegmentBase :=
  let counters := File.rebuildCounters o.totalSlots f.bitmap
  { s with
    isOpen := true
    bitmap := f.bitmap
    usedSlots := counters.1
    appendCursor := counters.2
    deletedSlots := counters.2 - counters.1 }.updateState o.segmentConfig

theorem segmentOk_opened {s : SegmentBase} {f : SegmentImage} (hf : ImageOk o f)
    (hcomplete : f.Complete) : SegmentOk o (openedSegment o s f) f := by
  obtain ⟨hbelow, hbound⟩ := rebuildCounters_cursor o.totalSlots f.bitmap
  refine ⟨?_, ?_, ?_, ?_, hcomplete⟩ <;>
    simp only [openedSegment, SegmentBase.updateState_isOpen, SegmentBase.updateState_bitmap,
      SegmentBase.updateState_appendCursor]
  · exact fun i hi => hbelow i (hf.bound i hi) hi
  · exact hbound

def createdImage (o : Options) (sized : Bool) : SegmentImage :=
  ⟨true, sized, fun _ => false, fun _ =>
    ⟨List.replicate o.segmentConfig.keySize 0, List.replicate o.segmentConfig.valueSize 0⟩⟩

theorem setImage_images : w.setImage id (w.disk.images id) = w := by
  simp [World.setImage]

theorem run_openSegment_existing (hopen : (w.segs id).isOpen = false)
    (hcomplete : (w.disk.images id).Complete) :
    (run (File.openSegment o id) w).val = .ok ∧
      (run (File.openSegment o id) w).state =
        w.setSegment id (openedSegment o (w.segs id) (w.disk.images id)) ∧
      (run (File.openSegment o id) w).trace = [⟨.io, w⟩] := by
  obtain ⟨hpresent, hsized⟩ := hcomplete
  simp [File.openSegment, hopen, hpresent, hsized, openedSegment]

theorem run_openSegment_unsized (hopen : (w.segs id).isOpen = false)
    (hpresent : (w.disk.images id).present = true)
    (hsized : (w.disk.images id).sized = false) :
    (run (File.openSegment o id) w).val = .corruption ∧
      (run (File.openSegment o id) w).state =
        w.setSegment id { w.segs id with isOpen := false } ∧
      (run (File.openSegment o id) w).trace = [⟨.io, w⟩] := by
  simp [File.openSegment, hopen, hpresent, hsized, File.closeDescriptor]

theorem run_openSegment_new (hopen : (w.segs id).isOpen = false)
    (hpresent : (w.disk.images id).present = false) :
    (run (File.openSegment o id) w).val = .ok ∧
      (run (File.openSegment o id) w).state =
        (w.setImage id (createdImage o true)).setSegment id
          { (w.segs id).resetBitmap with isOpen := true } := by
  simp [File.openSegment, hopen, hpresent, createdImage, File.flushBitmap,
    SegmentBase.resetBitmap, setSegment_setImage]

theorem touches_created (hpresent : (w.disk.images id).present = false)
    (hempty : ∀ i, (w.disk.images id).bitmap i = false) (sized : Bool) :
    Touches NoSlot Nothing w.disk (w.setImage id (createdImage o sized)).disk := by
  refine touches_setImage _ _ _ (fun i => Or.inl ?_) fun hc => ?_
  · simp [createdImage, Disk.slot, SegmentImage.slot, hempty i]
  · rw [hc.1] at hpresent
    cases hpresent

theorem openSegment_new_writes (hopen : (w.segs id).isOpen = false)
    (hpresent : (w.disk.images id).present = false)
    (hempty : ∀ i, (w.disk.images id).bitmap i = false) :
    WritesOnly NoSlot Nothing w.disk (run (File.openSegment o id) w).trace := by
  let w₁ := (w.setImage id (createdImage o true)).setSegment id
    { (w.segs id).resetBitmap with isOpen := true }
  let first : List (Event K) := [⟨.io, w.setImage id (createdImage o false)⟩,
    ⟨.io, (w.setImage id (createdImage o true)).setSegment id
      { w.segs id with isOpen := true }⟩]
  have htrace : (run (File.openSegment o id) w).trace =
      first ++ (run (File.flushBitmap o id : M K Status) w₁).trace := by
    simp [File.openSegment, hopen, hpresent, createdImage, File.flushBitmap, w₁, first,
      SegmentBase.resetBitmap, setSegment_setImage]
  have hflush : WritesOnly NoSlot Nothing w₁.disk
      (run (File.flushBitmap o id : M K Status) w₁).trace := by
    refine (flushBitmap_writes o w₁ id fun i => Or.inl ?_).1
    simp [w₁, createdImage, SegmentBase.resetBitmap]
  have hcreated := touches_created (o := o) hpresent hempty
  have hfirst : WritesOnly NoSlot Nothing w.disk first := by
    intro e he
    rcases List.mem_pair.mp he with rfl | rfl
    · exact ⟨rfl, hcreated false⟩
    · exact ⟨rfl, hcreated true⟩
  rw [htrace]
  exact hfirst.append (hcreated true) hflush

theorem openSegment_spec (hopen : (w.segs id).isOpen = false)
    (hf : ImageOk o (w.disk.images id)) :
    WritesOnly NoSlot Nothing w.disk (run (File.openSegment o id) w).trace ∧
      Touches NoSlot Nothing w.disk (run (File.openSegment o id) w).state.disk ∧
      (∃ s f, (run (File.openSegment o id) w).state = (w.setImage id f).setSegment id s ∧
        ((run (File.openSegment o id) w).val = .ok → SegmentOk o s f)) ∧
      ((w.disk.images id).Openable → (run (File.openSegment o id) w).val = .ok) := by
  have hself : WritesOnly NoSlot Nothing w.disk [⟨.io, w⟩] := by
    intro e he
    obtain rfl := List.mem_singleton.mp he
    exact ⟨rfl, Touches.refl _ _ _⟩
  cases hpresent : (w.disk.images id).present with
  | false =>
    have hempty : ∀ i, (w.disk.images id).bitmap i = false := by
      intro i
      by_contra hi
      have := (hf.complete i (by simpa using hi)).1
      rw [hpresent] at this
      cases this
    obtain ⟨hval, hstate⟩ := run_openSegment_new (o := o) hopen hpresent
    refine ⟨openSegment_new_writes hopen hpresent hempty, ?_, ⟨_, _, hstate, fun _ => ?_⟩,
      fun _ => hval⟩
    · rw [hstate]
      exact touches_created hpresent hempty true
    · exact ⟨rfl, rfl, fun i hi => (Bool.false_ne_true hi).elim, Nat.zero_le _, rfl, rfl⟩
  | true =>
    cases hsized : (w.disk.images id).sized with
    | false =>
      obtain ⟨hval, hstate, htrace⟩ := run_openSegment_unsized (o := o) hopen hpresent hsized
      rw [htrace, hstate]
      refine ⟨hself, Touches.refl _ _ _, ⟨{ w.segs id with isOpen := false },
        w.disk.images id, ?_, fun hok => ?_⟩, fun hc => ?_⟩
      · rw [setImage_images]
      · rw [hval] at hok
        cases hok
      · rw [hc hpresent] at hsized
        cases hsized
    | true =>
      have hcomplete : (w.disk.images id).Complete := ⟨hpresent, hsized⟩
      obtain ⟨hval, hstate, htrace⟩ := run_openSegment_existing (o := o) hopen hcomplete
      rw [htrace, hstate]
      refine ⟨hself, Touches.refl _ _ _, ⟨openedSegment o (w.segs id) (w.disk.images id),
        w.disk.images id, ?_, fun _ => segmentOk_opened hf hcomplete⟩, fun _ => hval⟩
      rw [setImage_images]

end ParaKV.Segment.FileSpec
