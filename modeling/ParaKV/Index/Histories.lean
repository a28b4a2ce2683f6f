/- GID: ParaKV/Index/Histories
   source: parakv/core/index/index.cc, parakv/core/segment/segment_manager.cc,
     parakv/core/kvcache_storage/index_kvcache_storage_backend.cc
   digest: What holds of the segments and their classification after any history of closes and
     crashes. -/

import ParaKV.Index.Bookkeeping
import ParaKV.Storage.Backend

set_option autoImplicit false

namespace ParaKV.Index.Histories

open Lib.TracedProgram Lib.HashOrder Lib.StepRun Index.Key Index.Wal Index.Operations
open Index.Durability Index.Ownership Index.Runs Index.Bookkeeping Segment Segment.Base
open Segment.FileSpec Segment.CompactionRules Segment.Manager Segment.ManagerSpec Core.State

variable {K : Type}

/-- The part of the state of a running store that no crash can spoil: nothing is said about the
map, the log or the content of the files. -/
structure Standing (o : Options) (w : World K) : Prop where
  mgr : Sorted o w.mgr
  isOpen : ∀ id < o.segmentCount, (w.segs id).isOpen = true
  wal : WalOpen w

variable {o : Options} {w w' : World K} {id : ℕ}

theorem Standing.congr (h : Standing o w) (hmgr : w'.mgr = w.mgr) (hsegs : w'.segs = w.segs)
    (hwal : WalOpen w') : Standing o w' :=
  ⟨hmgr ▸ h.mgr, hsegs ▸ h.isOpen, hwal⟩

theorem Standing.withManager (h : Standing o w) {m : SegmentManager} (hm : Sorted o m) :
    Standing o { w with mgr := m } :=
  ⟨hm, h.isOpen, h.wal⟩

theorem Standing.withMap (h : Standing o w) (m : Map K) : Standing o { w with map := m } :=
  ⟨h.mgr, h.isOpen, h.wal⟩

theorem Standing.setSegment (h : Standing o w) {s : SegmentBase}
    (hsegs : w'.segs = Function.update w.segs id s) (hmgr : w'.mgr = w.mgr) (hwal : w'.wal = w.wal)
    (hs : s.isOpen = (w.segs id).isOpen) : Standing o w' := by
  have hwal' : WalOpen w' := fun writer hw => h.wal writer (hwal ▸ hw)
  refine ⟨hmgr ▸ h.mgr, fun j hj => ?_, hwal'⟩
  rw [hsegs]
  by_cases hji : j = id
  · subst hji
    rw [Function.update_self, hs]
    exact h.isOpen j hj
  · rw [Function.update_of_ne hji]
    exact h.isOpen j hj

/-! The segment operations. -/

theorem insert_cases (hopen : (w.segs id).isOpen = true) (key value : Bytes) :
    (∃ sid, (w.segs id).findFreeSlot o.segmentConfig = some sid ∧
      (run (File.insert o id key value) w).val = (.ok, sid) ∧
      (run (File.insert o id key value) w).state = afterInsert o w id key value) ∨
    (w.segs id).findFreeSlot o.segmentConfig = none ∧
      (run (File.insert o id key value) w).val = (.full, 0) ∧
      (run (File.insert o id key value) w).state = w := by
  cases hfree : (w.segs id).findFreeSlot o.segmentConfig with
  | none =>
    right
    simp [File.insert, hopen, hfree]
  | some sid =>
    left
    obtain ⟨rfl, -⟩ := findFreeSlot_some hfree
    refine ⟨_, rfl, ?_⟩
    simp [File.insert, hopen, hfree, File.pwriteKey, File.pwriteValue, File.flushBitmap,
      afterInsert, SegmentBase.setSlotBit, setSegment_setImage]

theorem standing_afterInsert (h : Standing o w) (id : ℕ) (key value : Bytes) :
    Standing o (afterInsert o w id key value) :=
  h.setSegment rfl rfl rfl (by simp)

theorem standing_insert (h : Standing o w) (hid : id < o.segmentCount) (key value : Bytes) :
    Standing o (run (File.insert o id key value) w).state ∧
      (run (File.insert o id key value) w).state.mgr = w.mgr := by
  rcases insert_cases (h.isOpen id hid) key value with ⟨sid, -, -, hstate⟩ | ⟨-, -, hstate⟩
  · rw [hstate]
    exact ⟨standing_afterInsert h id key value, rfl⟩
  · rw [hstate]
    exact ⟨h, rfl⟩

theorem standing_fileDelete (h : Standing o w) (id sid : ℕ) :
    Standing o (run (File.delete o id sid) w).state ∧
      (run (File.delete o id sid) w).state.mgr = w.mgr := by
  by_cases hsid : sid ≥ o.totalSlots
  · simp [File.delete, hsid, h]
  by_cases hopen : (w.segs id).isOpen = true
  · by_cases hbit : (w.segs id).bitmap sid = true
    · have hstate : (run (File.delete o id sid) w).state = afterDelete o w id sid := by
        simp [File.delete, hsid, hopen, hbit, File.flushBitmap, afterDelete,
          SegmentBase.clearSlotBit, setSegment_setImage]
      rw [hstate]
      exact ⟨h.setSegment rfl rfl rfl (by simp), rfl⟩
    · simp [File.delete, hsid, hopen, hbit, h]
  · simp [File.delete, hsid, hopen, h]

theorem standing_reset (h : Standing o w) (id : ℕ) :
    Standing o (afterReset w id) :=
  h.setSegment rfl rfl rfl rfl

/-! The index operations. -/

theorem standing_checkpoint (h : Standing o w) :
    Standing o (run (checkpoint o) w).state := by
  by_cases hdir : o.snapshotDir = ""
  · rw [(run_checkpoint_refused hdir).2.1]
    exact h
  · rw [(run_checkpoint hdir).2]
    refine h.congr rfl rfl fun writer hw => ?_
    obtain ⟨-, -, rfl⟩ := Option.map_eq_some_iff.mp hw
    rfl

theorem standing_freeSlot (h : Standing o w) (enc : UInt64) :
    Standing o (run (freeSlot o enc) w).state ∧
      (run (freeSlot o enc) w).state.mgr = w.mgr := by
  by_cases hflag : getFlag enc = .segmentSlot
  · by_cases hreg : getSegmentId enc ∈ w.mgr.segments
    · simpa [freeSlot, hflag, hreg] using standing_fileDelete h (getSegmentId enc) (getSlotId enc)
    · simp [freeSlot, hflag, hreg, h]
  · simp [freeSlot, hflag, h]

theorem standing_releaseOld (h : Standing o w) (old : Option UInt64) :
    Standing o (run (releaseOld o old) w).state := by
  cases old with
  | none => exact h
  | some enc => exact (standing_freeSlot h enc).1

theorem standing_getActiveSegment (h : Standing o w) :
    Standing o (run (getActiveSegment o) w).state ∧
      ∀ id, (run (getActiveSegment o) w).val = some id →
        Started (run (getActiveSegment o) w).state.mgr id ∧ id < o.segmentCount := by
  have hm := sorted_chooseActive w.segs h.mgr
  refine ⟨h.withManager hm, fun id hid => ?_⟩
  have hstarted := (chooseActive_classified w.segs h.mgr.classified).2 id hid
  exact ⟨hstarted, (hm.ok.segments id).mp hstarted.1⟩

variable [KeyType K]

theorem standing_appendWal (h : Standing o w) (rec : WalRecord K) :
    Standing o (run (appendWal o rec) w).state ∧
      (run (appendWal o rec) w).state.mgr = w.mgr := by
  obtain ⟨-, hlog, hwal⟩ := run_appendWal_ok (o := o) h.wal rec
  exact ⟨h.congr hlog.mgr hlog.segs hwal, hlog.mgr⟩

/-- `GetActiveSegment` and an `Insert` into the segment it returned: `WriteToSegment` does this
once and, when the segment turns out to be full, once more. -/
def appendActive (o : Options) (key : K) (value : Bytes) : M K (Status × ℕ) := do
  match ← getActiveSegment o with
  | none => return (.noSpace, 0)
  | some seg =>
    let (st, _) ← File.insert o seg (toBytes key) value
    return (st, seg)

theorem run_writeToSegment_once {key : K} {value : Bytes}
    (h : (run (appendActive o key value) w).val.1 ≠ .full) :
    (run (writeToSegment o key value) w).val.1 = (run (appendActive o key value) w).val.1 ∧
      (run (writeToSegment o key value) w).state = (run (appendActive o key value) w).state := by
  cases hval : (run (getActiveSegment o) w).val with
  | none => simp [writeToSegment, appendActive, hval]
  | some seg =>
    set r := run (File.insert o seg (toBytes key) value) (run (getActiveSegment o) w).state with hr
    have hfull : r.val.1 ≠ .full := by simpa [appendActive, hval] using h
    by_cases hok : r.val.1 = .ok <;>
      simp [writeToSegment, appendActive, hval, ← hr, hfull, hok]

theorem run_writeToSegment_twice {key : K} {value : Bytes} {w₁ : World K}
    (h : (run (appendActive o key value) w).val.1 = .full)
    (hw₁ : (run (markSegmentFull o (run (appendActive o key value) w).val.2)
      (run (appendActive o key value) w).state).state = w₁) :
    (run (writeToSegment o key value) w).val.1 = (run (appendActive o key value) w₁).val.1 ∧
      (run (writeToSegment o key value) w).state = (run (appendActive o key value) w₁).state := by
  cases hval : (run (getActiveSegment o) w).val with
  | none => simp [appendActive, hval] at h
  | some seg =>
    have hfull : (run (File.insert o seg (toBytes key) value)
        (run (getActiveSegment o) w).state).val.1 = .full := by
      simpa [appendActive, hval] using h
    have hmark : (run (markSegmentFull o seg) (run (File.insert o seg (toBytes key) value)
        (run (getActiveSegment o) w).state).state).state = w₁ := by
      simpa [appendActive, hval] using hw₁
    cases hval₁ : (run (getActiveSegment o) w₁).val with
    | none => simp [writeToSegment, appendActive, hval, hfull, hmark, hval₁]
    | some seg₁ =>
      set r₁ := run (File.insert o seg₁ (toBytes key) value) (run (getActiveSegment o) w₁).state
        with hr₁
      by_cases hok : r₁.val.1 = .ok <;>
        simp [writeToSegment, appendActive, hval, hfull, hmark, hval₁, ← hr₁, hok]

theorem standing_appendActive (h : Standing o w) (key : K) (value : Bytes) :
    Standing o (run (appendActive o key value) w).state := by
  obtain ⟨hs, hactive⟩ := standing_getActiveSegment h
  cases hval : (run (getActiveSegment o) w).val with
  | none => simpa [appendActive, hval] using hs
  | some seg =>
    have hins := standing_insert hs (hactive seg hval).2 (toBytes key) value
    simpa [appendActive, hval] using hins.1

theorem standing_writeToSegment (h : Standing o w) (key : K) (value : Bytes) :
    Standing o (run (writeToSegment o key value) w).state := by
  have hfirst := standing_appendActive h key value
  by_cases hfull : (run (appendActive o key value) w).val.1 = .full
  · rw [(run_writeToSegment_twice hfull rfl).2]
    exact standing_appendActive (hfirst.withManager (sorted_mark hfirst.mgr _)) key value
  · rw [(run_writeToSegment_once hfull).2]
    exact hfirst

variable [DecidableEq K]

theorem standing_put (h : Standing o w) (key : K) (value : Bytes) :
    Standing o (run (Operations.put o key value) w).state := by
  by_cases hsize : value.length = o.segmentConfig.valueSize
  · have hwrite := standing_writeToSegment h key value
    by_cases hval : (run (writeToSegment o key value) w).val.1 = .ok
    · have hrun : (run (Operations.put o key value) w).state =
          (run (installPut o key (run (writeToSegment o key value) w).val.2)
            (run (writeToSegment o key value) w).state).state := by
        simp [Operations.put, hsize, hval]
      rw [hrun, (run_installPut hwrite.wal key _).2.1]
      exact standing_releaseOld (standing_appendWal (hwrite.withMap _) _).1 _
    · have hrun : (run (Operations.put o key value) w).state =
          (run (writeToSegment o key value) w).state := by
        simp [Operations.put, hsize, hval]
      rw [hrun]
      exact hwrite
  · simpa [Operations.put, hsize] using h

theorem standing_delete (h : Standing o w) (key : K) :
    Standing o (run (Operations.delete o key) w).state := by
  rcases delete_cases (o := o) h.wal key with ⟨-, -, hstate, -⟩ | ⟨a, -, -, hstate, -⟩
  · rw [hstate]
    exact h
  · rw [hstate]
    exact standing_releaseOld (standing_appendWal (h.withMap _) _).1 _

/-! Compaction. -/

/-- One candidate is being compacted and others wait, all of them classified as full. -/
structure Pending (o : Options) (src active : ℕ) (rest : List ℕ) (w : World K) : Prop where
  standing : Standing o w
  started : Started w.mgr active
  full : ∀ id ∈ src :: rest, id ∈ w.mgr.fullSet
  nodup : (src :: rest).Nodup

structure Drained (o : Options) (src active : ℕ) (rest : List ℕ) (w : World K) : Prop
    extends Pending o src active rest w where
  reset : (w.segs src).state ≠ .full

structure Waiting (o : Options) (rest : List ℕ) (w : World K) : Prop where
  standing : Standing o w
  full : ∀ id ∈ rest, id ∈ w.mgr.fullSet
  nodup : rest.Nodup

variable {src active : ℕ} {rest : List ℕ}

theorem Pending.frame {K : Type} {w w' : World K} (h : Pending o src active rest w)
    (hw' : Standing o w') (hmgr : w'.mgr = w.mgr) : Pending o src active rest w' :=
  ⟨hw', hmgr ▸ h.started, hmgr ▸ h.full, h.nodup⟩

theorem Pending.lt {K : Type} {w : World K} (h : Pending o src active rest w) :
    active < o.segmentCount :=
  (h.standing.mgr.ok.segments active).mp h.started.1

theorem Pending.registered {K : Type} {w : World K} (h : Pending o src active rest w) :
    src ∈ w.mgr.segments :=
  h.standing.mgr.ok.full src (h.full src (by simp))

theorem standing_slotMoved (h : Standing o w) (keyBytes : Bytes) (s i t j : ℕ) :
    Standing o (run (slotMoved o keyBytes s i t j) w).state ∧
      (run (slotMoved o keyBytes s i t j) w).state.mgr = w.mgr := by
  obtain ⟨hlog, hmgr⟩ := standing_appendWal h (moveRecord (ofBytes keyBytes : K)
    (encodeSegmentSlot s i) (encodeSegmentSlot t j))
  exact ⟨hlog.congr rfl rfl hlog.wal, hmgr⟩

theorem pending_compactSlot (h : Pending o src active rest w) (i : ℕ) :
    Pending o src active rest (run (File.compactSlot o src active (slotMoved o) i) w).state := by
  by_cases hself : active = src
  · simpa [File.compactSlot, hself] using h
  · set slot := (w.disk.images src).slots i with hslot
    obtain ⟨hins, hmgr⟩ := standing_insert h.standing h.lt slot.key slot.value
    set r := run (File.insert o active slot.key slot.value) w with hr
    by_cases hok : r.val.1 = .ok
    · obtain ⟨hmoved, hmgr'⟩ := standing_slotMoved hins slot.key src i active r.val.2
      have hend : (run (File.compactSlot o src active (slotMoved o) i) w).state =
          (run (slotMoved o slot.key src i active r.val.2) r.state).state := by
        simp [File.compactSlot, hself, ← hslot, ← hr, hok]
      rw [hend]
      exact h.frame hmoved (hmgr'.trans hmgr)
    · have hend : (run (File.compactSlot o src active (slotMoved o) i) w).state = r.state := by
        simp [File.compactSlot, hself, ← hslot, ← hr, hok]
      rw [hend]
      exact h.frame hins hmgr

theorem waiting_reclassify {K : Type} {w : World K} (h : Drained o src active rest w) :
    Waiting o rest (reclassify o src active w) := by
  have hmgr : Sorted o (reclassify o src active w).mgr :=
    ⟨reclassify_ok h.standing.mgr.ok h.registered h.started.1,
      reclassify_classified h.standing.mgr.classified (h.full src (by simp)) h.started
        fun heq => heq ▸ h.reset⟩
  obtain ⟨hnot, hnodup⟩ := List.nodup_cons.mp h.nodup
  refine ⟨h.standing.withManager hmgr, fun id hid => ?_, hnodup⟩
  exact reclassify_full (h.full id (by simp [hid])) fun heq => hnot (heq ▸ hid)

theorem pending_getActiveSegment {K : Type} {w : World K} (h : Waiting o (src :: rest) w) :
    Standing o (run (getActiveSegment o) w).state ∧
      ∀ id, (run (getActiveSegment o) w).val = some id →
        Pending o src id rest (run (getActiveSegment o) w).state := by
  obtain ⟨hs, hactive⟩ := standing_getActiveSegment h.standing
  have hre := (chooseActive_reassigned (o := o) w.segs h.standing.mgr.ok.toRegistered).1
  exact ⟨hs, fun id hval =>
    ⟨hs, (hactive id hval).1, fun j hj => hre.full j (h.full j hj), h.nodup⟩⟩

/-- Triples that say nothing about the points on the way. -/
abbrev Keeps {α : Type} (P : World K → Prop) (m : M K α) (Q : α → World K → Prop) : Prop :=
  Triple .ok (fun _ : Event K => True) (fun _ => True) P m Q

theorem keeps_of_run {K : Type} {α : Type} {P : World K → Prop} {m : M K α}
    {Q : α → World K → Prop} (h : ∀ w, P w → Q (run m w).val (run m w).state) : Keeps P m Q :=
  fun w hw => ⟨guarded_of_forall fun _ _ => trivial, fun _ => h w hw⟩

theorem Keeps.run {K : Type} {w : World K} {α : Type} {P : World K → Prop} {m : M K α}
    {Q : α → World K → Prop} (h : Keeps P m Q) (hw : P w) : Q (run m w).val (run m w).state :=
  (h w hw).2 fun _ _ => trivial

theorem pending_compact (src active : ℕ) (rest : List ℕ) :
    Keeps (Pending o src active rest) (File.compact o src active (slotMoved o))
      (Checked (K := K) (Drained o src active rest) (Standing o)) := by
  refine compact_triple (I := fun _ _ => Pending o src active rest)
    (fun w h => h.standing.isOpen src ?_) (fun w h => h) (fun _ _ w _ h _ => h)
    (fun c i _ => keeps_of_run fun w h => ?_) (fun c => keeps_of_run fun w h => ?_)
  · exact (h.standing.mgr.ok.segments src).mp h.registered
  · have hend := pending_compactSlot h.1 i
    unfold Checked
    split_ifs
    · exact hend
    · exact hend.standing
  · obtain ⟨hval, hstate⟩ := run_resetSegment (o := o) w src
    have hend : Drained o src active rest (afterReset w src) :=
      ⟨h.frame (standing_reset h.standing src) rfl, by
        simp [afterReset, SegmentBase.resetBitmap]⟩
    simpa [Checked, hval, hstate] using hend

theorem standing_compaction (h : Standing o w) :
    Standing o (run (runAttachedCompaction o) w).state := by
  have hactive : ∀ src rest, Keeps (Waiting (K := K) o (src :: rest)) (getActiveSegment o)
      fun r w => match r with
        | none => Standing o w
        | some active => Pending o src active rest w := by
    refine fun src rest => keeps_of_run fun w h => ?_
    obtain ⟨hs, hpending⟩ := pending_getActiveSegment h
    split
    · exact hs
    · exact hpending _ (by assumption)
  have hloop := compactCandidates_triple (slotMoved (K := K) o) hactive
    (fun src active rest w h => h.registered)
    pending_compact (fun src active rest w => waiting_reclassify) (candidates o w)
  have hend := Keeps.run hloop ⟨h, fun id hid => candidates_full hid, candidates_nodup w⟩
  change Standing o (run (compactCandidates o (slotMoved o) (candidates o w)) w).state
  unfold Checked at hend
  split_ifs at hend
  · exact hend.standing
  · exact hend

theorem standing_op (h : Standing o w) (op : Op K) (hop : op ≠ .start) :
    Standing o (run (op.program o) w).state := by
  cases op with
  | start => exact (hop rfl).elim
  | put k v => exact standing_put h k v
  | delete k => exact standing_delete h k
  | checkpoint => exact standing_checkpoint h
  | compact => exact standing_compaction h

/-! The start. -/

/-- The segments opened so far are the registered ones, each in one class at most. -/
structure Assembled (w : World K) (ids : List ℕ) : Prop where
  classified : Classified w.mgr
  segments : ∀ id, id ∈ w.mgr.segments ↔ id ∈ ids
  isOpen : ∀ id ∈ ids, (w.segs id).isOpen = true

theorem openSegment_ok {K : Type} {w : World K} (h : (run (File.openSegment o id) w).val = .ok) :
    (run (File.openSegment o id) w).state.mgr = w.mgr ∧
      ((run (File.openSegment o id) w).state.segs id).isOpen = true ∧
      ∀ j, j ≠ id → (run (File.openSegment o id) w).state.segs j = w.segs j := by
  cases hopen : (w.segs id).isOpen with
  | true => simp [File.openSegment, hopen]
  | false =>
    cases hpresent : (w.disk.images id).present with
    | false =>
      rw [(run_openSegment_new hopen hpresent).2]
      exact ⟨rfl, by simp [World.setSegment],
        fun j hj => by simp [World.setSegment, World.setImage, hj]⟩
    | true =>
      cases hsized : (w.disk.images id).sized with
      | false =>
        rw [(run_openSegment_unsized hopen hpresent hsized).1] at h
        cases h
      | true =>
        rw [(run_openSegment_existing hopen ⟨hpresent, hsized⟩).2.1]
        exact ⟨rfl, by simp [World.setSegment, openedSegment],
          fun j hj => by simp [World.setSegment, hj]⟩

theorem assembled_openSegments {K : Type} {w : World K} (ids done : List ℕ) (h : Assembled w done)
    (hnodup : (done ++ ids).Nodup) (hval : (run (openSegments o ids) w).val = .ok) :
    Assembled (run (openSegments o ids) w).state (done ++ ids) := by
  induction ids generalizing w done with
  | nil => simpa [openSegments] using h
  | cons id ids ih =>
    have hopened : (run (File.openSegment o id) w).val = .ok := by
      by_contra hne
      simp [openSegments, hne] at hval
    obtain ⟨hmgr, hself, hothers⟩ := openSegment_ok hopened
    set w₁ := (run (File.openSegment o id) w).state with hw₁
    have hnew : id ∉ done := by
      intro hid
      have hdisjoint := List.disjoint_of_nodup_append hnodup
      exact hdisjoint hid (by simp)
    have hreg : id ∉ w₁.mgr.segments := by
      rw [hmgr, h.segments]
      exact hnew
    obtain ⟨haval, -, hastate⟩ := run_addSegment (o := o) hreg
    have hstep : Assembled (run (addSegment o id) w₁).state (done ++ [id]) := by
      rw [hastate]
      have hclass : Classified w₁.mgr := hmgr ▸ h.classified
      refine ⟨classified_addSegment hclass hreg _, fun j => ?_, fun j hj => ?_⟩
      · rw [classify_segments, UnorderedSet.mem_insert, hmgr, h.segments]
        simp [or_comm]
      · by_cases hji : j = id
        · rw [hji]
          exact hself
        · rw [hothers j hji]
          exact h.isOpen j (by simpa [hji] using hj)
    have hrest : (run (openSegments o (id :: ids)) w).val =
          (run (openSegments o ids) (run (addSegment o id) w₁).state).val ∧
        (run (openSegments o (id :: ids)) w).state =
          (run (openSegments o ids) (run (addSegment o id) w₁).state).state := by
      simp [openSegments, hopened, ← hw₁, haval]
    rw [hrest.2]
    have hend := ih (done ++ [id]) hstep (by simpa using hnodup) (hrest.1 ▸ hval)
    simpa using hend

theorem openSnapshot_wal {K : Type} (w : World K) : (run (openSnapshot o) w).state.wal = w.wal := by
  by_cases hdir : o.snapshotDir = ""
  · simp [openSnapshot, hdir]
  · cases hsnap : w.disk.snapshot with
    | none => simp [openSnapshot, hdir, hsnap]
    | some file => cases file <;> simp [openSnapshot, hdir, hsnap, loadSnapshot]

theorem openLog_wal (w : World K) : (run openLog w).state.wal = w.wal := by
  cases hwal : w.disk.wal with
  | none => simp [openLog, hwal]
  | some file => simp [openLog, hwal, replayWal, World.setWalFile]

theorem walOpen_openWriter {K : Type} (w : World K) : WalOpen (run openWriter w).state := by
  intro writer hw
  simp [openWriter, walOpen, World.setWalFile] at hw
  rw [← hw]

theorem walOpen_openIndex (h : WalOpen w) : WalOpen (run (openIndex o) w).state := by
  refine openIndex_invariant (fun _ h => h) (fun w h => ?_) (fun w h => ?_)
    (fun w _ => walOpen_openWriter w) h
  · rwa [WalOpen, openSnapshot_wal]
  · rwa [WalOpen, openLog_wal]

theorem walOpen_openSegments {K : Type} {d : Disk K} :
    WalOpen (run (openSegments o (List.range o.segmentCount)) (World.boot d)).state := by
  refine openSegments_invariant (I := WalOpen) (fun w id _ h => ?_) (fun w id h => ?_) _
    (fun id hid => List.mem_range.mp hid) fun writer hw => by cases hw
  · rcases openSegment_cases (o := o) w id with hstate | hstate | hstate | hstate <;>
      rw [hstate] <;> exact h
  · rcases addSegment_cases (o := o) w id with hstate | ⟨-, hstate⟩ <;> rw [hstate] <;> exact h

theorem standing_openStore {d : Disk K} (hval : (run (openStore o) (World.boot d)).val = .ok) :
    Standing o (run (openStore o) (World.boot d)).state := by
  have hopened : (run (openSegments o (List.range o.segmentCount)) (World.boot d)).val = .ok := by
    by_contra hne
    simp [openStore, hne] at hval
  have hboot : Assembled (World.boot d) [] :=
    ⟨⟨⟨by simp [World.boot, SegmentManager.fresh], by simp [World.boot, SegmentManager.fresh],
      by simp [World.boot, SegmentManager.fresh]⟩, by simp [World.boot, SegmentManager.fresh],
      by simp [World.boot, SegmentManager.fresh], by simp [World.boot, SegmentManager.fresh]⟩,
      by simp [World.boot, SegmentManager.fresh], by simp⟩
  have hseg := assembled_openSegments (List.range o.segmentCount) [] hboot
    (by simpa using List.nodup_range) hopened
  set w₁ := (run (openSegments o (List.range o.segmentCount)) (World.boot d)).state with hw₁
  have hmgr : ManagerOk o w₁.mgr :=
    ⟨hseg.classified.toRegistered, fun id => by simpa using hseg.segments id⟩
  obtain ⟨m, hstate, -, hm, hclass⟩ := loadState_spec hmgr hseg.classified
  have hend : (run (openStore o) (World.boot d)).state =
      (run (openIndex o) { w₁ with mgr := m }).state := by
    simp [openStore, hopened, ← hw₁, hstate]
  have hframed := openIndex_framed (o := o) { w₁ with mgr := m }
  have hwal : WalOpen { w₁ with mgr := m } := walOpen_openSegments
  have hopen : ∀ id < o.segmentCount, (w₁.segs id).isOpen = true :=
    fun id hid => hseg.isOpen id (by simpa using hid)
  rw [hend]
  refine ⟨?_, ?_, walOpen_openIndex hwal⟩
  · rw [hframed.mgr]
    exact ⟨hm, hclass⟩
  · rw [hframed.segs]
    exact hopen

/-! Histories: the operations, the crashes and the clean closes. -/

/-- A clean close, for any key type: checkpoint, saved classification, and the destructors. -/
def closeStore (o : Options) : M K Unit := do
  let _ ← checkpoint o
  let _ ← saveState
  let _ ← closeIndex
  destroyIndex o
  destroySegments o (List.range o.segmentCount)

/-- On the key type of the backend this is what `IndexKVCacheStorageBackend::Close` does. -/
theorem close_eq_closeStore {L : Type} (ctx : ParaKV.Storage.Backend.Indexed.Context L) :
    ParaKV.Storage.Backend.Indexed.close o (some ctx) = closeStore o :=
  rfl

/-- An action of a run, a clean close, or a crash at the `n`-th point of one. -/
inductive Turn (K : Type)
  | act (a : Act K)
  | close
  | crashInClose (n : ℕ)
  deriving DecidableEq

def turnStep (o : Options) (s : Store K) : Turn K → Option (Store K)
  | .act a => Runs.step o s a
  | .close => if s.up then some (.stopped (run (closeStore o) s.world).state.disk) else none
  | .crashInClose n =>
    if s.up then ((run (closeStore o) s.world).trace[n]?).map fun e => .stopped e.world.disk
    else none

theorem standing_turn {s s' : Store K} {t : Turn K}
    (h : Phase (Standing o) (fun _ => True) s) (hstep : turnStep o s t = some s') :
    Phase (Standing o) (fun _ => True) s' := by
  cases t with
  | act a =>
    exact phase_step h hstep (fun d _ => ⟨standing_openStore, trivial⟩) (fun _ _ _ _ _ _ => trivial)
      (fun _ _ _ => trivial) (fun w op _ _ hop hw => standing_op hw op hop)
      fun _ _ _ _ _ _ _ _ _ => trivial
  | close =>
    simp only [turnStep] at hstep
    split_ifs at hstep
    obtain rfl := Option.some.inj hstep
    exact .down trivial
  | crashInClose n =>
    simp only [turnStep] at hstep
    split_ifs at hstep
    obtain ⟨e, -, rfl⟩ := Option.map_eq_some_iff.mp hstep
    exact .down trivial

theorem standing_history {guard : Store K → Turn K → Prop} {stateFile : Option Bytes}
    {turns : List (Turn K)} {s : Store K}
    (hrun : GuardedRun (turnStep o) guard (Store.initial K stateFile) turns s) (hup : s.up = true) :
    Standing o s.world := by
  have hphase : Phase (Standing o) (fun _ => True) s :=
    hrun.invariant (I := fun _ s => Phase (Standing o) (fun _ => True) s) (.down trivial)
      fun _ _ _ _ h _ hstep => standing_turn h hstep
  exact hphase.world hup

end ParaKV.Index.Histories
