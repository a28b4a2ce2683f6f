/- GID: ParaKV/Index/Bookkeeping
   source: parakv/core/index/index.cc, parakv/core/segment/segment_manager.cc
   digest: The operations of a store as steps of its counters and classes, and runs of them. -/

import ParaKV.Segment.Accounting
import ParaKV.Index.CompactionRuns

set_option autoImplicit false

namespace ParaKV.Index.Bookkeeping

open Relation Lib.TracedProgram Lib.StepRun Lib.HashOrder Index.Key Index.Operations
open Index.Durability Index.Ownership Index.Compaction Index.Recovery Index.Runs
open Index.CompactionRuns Segment Segment.Base Segment.FileSpec Segment.Accounting Segment.Manager
open Segment.ManagerSpec Core.State

variable {K : Type} {o : Options} {H : K → Bytes → Prop} {w : World K} {d : Disk K}

/-! The operations of a running store. -/

theorem fileDelete_shifts (w : World K) (id sid : ℕ) :
    ReflTransGen (Shift o) w (run (File.delete o id sid) w).state := by
  by_cases hsid : sid ≥ o.totalSlots
  · simp [File.delete, hsid, ReflTransGen.refl]
  cases hopen : (w.segs id).isOpen with
  | false => simp [File.delete, hsid, hopen, ReflTransGen.refl]
  | true =>
    cases hbit : (w.segs id).bitmap sid with
    | false => simp [File.delete, hsid, hopen, hbit, ReflTransGen.refl]
    | true =>
      have hstate : (run (File.delete o id sid) w).state = afterDelete o w id sid := by
        simp [File.delete, hsid, hopen, hbit, File.flushBitmap, afterDelete,
          SegmentBase.clearSlotBit, setSegment_setImage]
      rw [hstate]
      exact .single (.delete id sid hbit rfl rfl)

theorem freeSlot_shifts (w : World K) (enc : UInt64) :
    ReflTransGen (Shift o) w (run (freeSlot o enc) w).state := by
  by_cases hflag : getFlag enc = .segmentSlot
  · by_cases hseg : getSegmentId enc ∈ w.mgr.segments
    · simpa [freeSlot, hflag, hseg] using fileDelete_shifts w (getSegmentId enc) (getSlotId enc)
    · simp [freeSlot, hflag, hseg, ReflTransGen.refl]
  · simp [freeSlot, hflag, ReflTransGen.refl]

theorem releaseOld_shifts (w : World K) (old : Option UInt64) :
    ReflTransGen (Shift o) w (run (releaseOld o old) w).state := by
  cases old with
  | none => simp [releaseOld, ReflTransGen.refl]
  | some enc => simpa [releaseOld] using freeSlot_shifts w enc

theorem tried_shifts {mgr : SegmentManager} {seg : Option ℕ} (h : Tried o w mgr seg)
    (hclass : Classified w.mgr) :
    Classified mgr ∧ (∀ s, seg = some s → Started mgr s) ∧
      ReflTransGen (Shift o) w { w with mgr := mgr } := by
  induction h with
  | first =>
    obtain ⟨hchosen, hstarted⟩ := chooseActive_classified (o := o) w.segs hclass
    exact ⟨hchosen, hstarted, .single (.activate rfl rfl)⟩
  | @again mgr seg _ hfull ih =>
    obtain ⟨hclass', hstarted', hshifts⟩ := ih
    have hmark : ReflTransGen (Shift o) w { w with mgr := markSegmentFullInternal o mgr seg } :=
      hshifts.tail (.mark seg (hstarted' seg rfl) (Nat.le_of_not_lt hfull) rfl rfl)
    obtain ⟨hchosen, hstarted⟩ := chooseActive_classified (o := o) w.segs
      (markSegmentFullInternal_classified hclass' seg)
    exact ⟨hchosen, hstarted, hmark.tail (.activate rfl rfl)⟩

variable [DecidableEq K] [KeyType K]

theorem writeToSegment_shifts (hadm : o.Admissible K) (h : Live o H w)
    (hclass : Classified w.mgr) (key : K) (v : Bytes) :
    ReflTransGen (Shift o) w (run (writeToSegment o key v) w).state := by
  obtain ⟨mgr, seg, htried, -, hcases⟩ := writeToSegment_spec hadm h key v
  obtain ⟨-, hstarted, hshifts⟩ := tried_shifts htried hclass
  rcases hcases with ⟨s, -, hs, hroom, -, hstate, -⟩ | ⟨-, hstate, -⟩
  · rw [hstate]
    exact hshifts.tail (.insert s (hstarted s hs) hroom rfl rfl)
  · rw [hstate]
    exact hshifts

theorem installPut_shifts (h : WalOpen w) (key : K) (a : UInt64) :
    ReflTransGen (Shift o) w (run (installPut o key a) w).state := by
  rw [(run_installPut h key a).2.1]
  have hlog := (run_appendWal_ok (o := o) (w := { w with map := w.map.insert key a }) h
    (putRecord key a (w.map.lookup key))).2.1
  exact (ReflTransGen.single (.frame hlog.mgr hlog.segs)).trans (releaseOld_shifts _ _)

theorem put_shifts (hadm : o.Admissible K) (h : Live o H w) (hclass : Classified w.mgr) (key : K)
    (v : Bytes) :
    ReflTransGen (Shift o) w (run (Operations.put o key v) w).state := by
  by_cases hsize : v.length = o.segmentConfig.valueSize
  · have hwrite := writeToSegment_shifts hadm h hclass key v
    have hwal : WalOpen (run (writeToSegment o key v) w).state := by
      obtain ⟨mgr, -, -, -, ⟨s, -, -, -, -, hstate, -⟩ | ⟨-, hstate, -⟩⟩ :=
        writeToSegment_spec hadm h key v
      · rw [hstate]
        exact h.wal
      · rw [hstate]
        exact h.wal
    by_cases hval : (run (writeToSegment o key v) w).val.1 = .ok
    · have hrun : (run (Operations.put o key v) w).state =
          (run (installPut o key (run (writeToSegment o key v) w).val.2)
            (run (writeToSegment o key v) w).state).state := by
        simp [Operations.put, hsize, hval]
      rw [hrun]
      exact hwrite.trans (installPut_shifts hwal key _)
    · have hrun : (run (Operations.put o key v) w).state =
          (run (writeToSegment o key v) w).state := by
        simp [Operations.put, hsize, hval]
      rw [hrun]
      exact hwrite
  · simp [Operations.put, hsize, ReflTransGen.refl]

theorem delete_shifts (h : Live o H w) (key : K) :
    ReflTransGen (Shift o) w (run (Operations.delete o key) w).state := by
  rcases delete_cases (o := o) h.wal key with ⟨-, -, hstate, -⟩ | ⟨a, -, -, hstate, -⟩
  · rw [hstate]
  · have hlog := (run_appendWal_ok (o := o) (w := { w with map := w.map.erase key }) h.wal
      (deleteRecord key a)).2.1
    rw [hstate]
    exact (ReflTransGen.single (.frame hlog.mgr hlog.segs)).trans (releaseOld_shifts _ _)

theorem checkpoint_shifts {K : Type} (w : World K) :
    ReflTransGen (Shift o) w (run (checkpoint o) w).state := by
  by_cases hdir : o.snapshotDir = ""
  · rw [(run_checkpoint_refused hdir).2.1]
  · rw [(run_checkpoint hdir).2]
    have hlog := logOnly_afterCheckpoint w
    exact .single (.frame hlog.mgr hlog.segs)

theorem shift_moved (h : Live o H w) {src i target : ℕ} {slot : Slot}
    (hmove : Move o w src i target slot) (hactive : Started w.mgr target) :
    Shift o w (movedWorld o w src i target slot) := by
  obtain ⟨hsegs, hmgr, -, -⟩ := movedWorld_frame h src i target slot
  exact .insert target hactive hmove.room hmgr (hsegs.trans rfl)

theorem shift_reclaimed {c₀ : K → Option Bytes} {src target : ℕ} {rest : List ℕ}
    (h : Placed o H c₀ src target rest w) (hactive : Started w.mgr target) :
    Shift o w (reclassify o src target (afterReset w src)) :=
  .reclaim src target h.source hactive rfl rfl

theorem compaction_shifts (hadm : o.Admissible K) (h : Live o H w) (hclass : Classified w.mgr) :
    ReflTransGen (Shift o) w (run (runAttachedCompaction o) w).state := by
  have hkept : ∀ w', ReflTransGen (Shift o) w w' → Classified w'.mgr := fun w' =>
    shifts_invariant (I := fun w => Classified w.mgr) (fun _ _ => classified_shift) hclass
  have hsteered : Steered o H (fun _ => True) (fun _ => True)
      (fun _ w' => ReflTransGen (Shift o) w w')
      (fun _ _ target _ w' => ReflTransGen (Shift o) w w' ∧ Started w'.mgr target)
      fun w' => ReflTransGen (Shift o) w w' :=
    { refused := fun _ hP _ => hP.tail (.activate rfl rfl)
      start := fun _ hP _ _ htarget => ⟨hP.tail (.activate rfl rfl),
        (chooseActive_classified _ (hkept _ hP)).2 _ htarget⟩
      skip := fun _ _ _ hE => hE
      move := fun hplaced hmove _ hE => ⟨guarded_of_forall fun _ _ => trivial, fun _ =>
        ⟨hE.1.tail (shift_moved hplaced.live hmove hE.2),
          (movedWorld_frame hplaced.live _ _ _ _).2.1 ▸ hE.2⟩⟩
      stuck := fun _ _ _ hE => hE.1
      reset := fun hplaced hE => ⟨guarded_of_forall fun _ _ => trivial,
        hE.1.tail (shift_reclaimed hplaced hE.2)⟩ }
  have hend := (runCompaction_steered hadm hsteered (value o w) w ⟨h, rfl, .refl⟩).2
    fun _ _ => trivial
  unfold ParaKV.Segment.CompactionRules.Checked Stopped at hend
  split_ifs at hend
  · exact hend.2.2
  · exact hend.2.2

theorem op_shifts (hadm : o.Admissible K) (h : Live o H w) (hclass : Classified w.mgr) (op : Op K)
    (hop : op ≠ .start) : ReflTransGen (Shift o) w (run (op.program o) w).state := by
  cases op with
  | start => exact (hop rfl).elim
  | put k v => exact put_shifts hadm h hclass k v
  | delete k => exact delete_shifts h k
  | checkpoint => exact checkpoint_shifts w
  | compact => exact compaction_shifts hadm h hclass

/-! The start. -/

theorem openSegment_cases {K : Type} (w : World K) (id : ℕ) :
    (run (File.openSegment o id) w).state = w ∨
    (run (File.openSegment o id) w).state = w.setSegment id { w.segs id with isOpen := false } ∨
    (run (File.openSegment o id) w).state =
      w.setSegment id (openedSegment o (w.segs id) (w.disk.images id)) ∨
    (run (File.openSegment o id) w).state = (w.setImage id (createdImage o true)).setSegment id
      { (w.segs id).resetBitmap with isOpen := true } := by
  cases hopen : (w.segs id).isOpen with
  | true =>
    left
    simp [File.openSegment, hopen]
  | false =>
    cases hpresent : (w.disk.images id).present with
    | false => exact Or.inr (Or.inr (Or.inr (run_openSegment_new hopen hpresent).2))
    | true =>
      cases hsized : (w.disk.images id).sized with
      | false => exact Or.inr (Or.inl (run_openSegment_unsized hopen hpresent hsized).2.1)
      | true =>
        exact Or.inr (Or.inr (Or.inl (run_openSegment_existing hopen ⟨hpresent, hsized⟩).2.1))

theorem openSegments_invariant {K : Type} {w : World K} {I : World K → Prop}
    (hopen : ∀ w id, id < o.segmentCount → I w → I (run (File.openSegment o id) w).state)
    (hadd : ∀ w id, I w → I (run (addSegment o id) w).state) (ids : List ℕ)
    (hids : ∀ id ∈ ids, id < o.segmentCount) (h : I w) :
    I (run (openSegments o ids) w).state := by
  induction ids generalizing w with
  | nil => exact h
  | cons id ids ih =>
    have hopened := hopen w id (hids id (by simp)) h
    have hadded := hadd _ id hopened
    by_cases hval : (run (File.openSegment o id) w).val = .ok
    · by_cases hval' : (run (addSegment o id) (run (File.openSegment o id) w).state).val = .ok
      · simpa [openSegments, hval, hval'] using ih (fun j hj => hids j (by simp [hj])) hadded
      · simpa [openSegments, hval, hval'] using hadded
    · simpa [openSegments, hval] using hopened

theorem addSegment_cases {K : Type} (w : World K) (id : ℕ) :
    (run (addSegment o id) w).state = w ∨ id ∉ w.mgr.segments ∧
      (run (addSegment o id) w).state = { w with
        mgr := SegmentManager.classify o
          { w.mgr with segments := w.mgr.segments.insert o.hash id } id (w.segs id).state } := by
  by_cases hid : id ∈ w.mgr.segments
  · left
    simp [addSegment, hid]
  · exact Or.inr ⟨hid, (run_addSegment hid).2.2⟩

theorem loadState_segs {K : Type} (w : World K) : (run (loadState o) w).state.segs = w.segs := by
  cases hfile : w.disk.managerState with
  | none => simp [loadState, hfile]
  | some file =>
    by_cases hshort : file.length < 8
    · simp [loadState, hfile, hshort]
    · cases hparse : parseState file <;> simp [loadState, hfile, hshort, hparse]

theorem openSnapshot_framed {K : Type} (w : World K) : Framed w (run (openSnapshot o) w).state := by
  by_cases hdir : o.snapshotDir = ""
  · constructor <;> simp [openSnapshot, hdir]
  · cases hsnap : w.disk.snapshot with
    | none => constructor <;> simp [openSnapshot, hdir, hsnap]
    | some file =>
      cases file <;> constructor <;> simp [openSnapshot, hdir, hsnap, loadSnapshot]

theorem openLog_framed (w : World K) : Framed w (run openLog w).state := by
  cases hwal : w.disk.wal with
  | none => constructor <;> simp [openLog, hwal]
  | some file => constructor <;> simp [openLog, hwal, replayWal, World.setWalFile]

theorem openWriter_framed {K : Type} (w : World K) : Framed w (run openWriter w).state := by
  constructor <;> simp [openWriter, walOpen, World.setWalFile]

theorem openIndex_invariant {I : World K → Prop} (hopened : ∀ w, I w → I { w with opened := true })
    (hsnap : ∀ w, I w → I (run (openSnapshot o) w).state)
    (hlog : ∀ w, I w → I (run openLog w).state)
    (hwriter : ∀ w, I w → I (run openWriter w).state) (h : I w) :
    I (run (openIndex o) w).state := by
  cases hopen : w.opened with
  | true => simpa [openIndex, hopen] using h
  | false =>
    let w₁ : World K := { w with opened := true }
    have h₁ : I w₁ := hopened w h
    by_cases hkey : o.segmentConfig.keySize = KeyType.size K
    · have h₂ := hsnap w₁ h₁
      by_cases hval : (run (openSnapshot o) w₁).val = .ok
      · by_cases hpath : o.walPath = ""
        · simpa [openIndex, hopen, hkey, hval, hpath, w₁] using h₂
        · have h₃ := hlog _ h₂
          by_cases hval' : (run openLog (run (openSnapshot o) w₁).state).val = .ok
          · simpa [openIndex, hopen, hkey, hval, hpath, hval', w₁] using hwriter _ h₃
          · simpa [openIndex, hopen, hkey, hval, hpath, hval', w₁] using h₃
      · simpa [openIndex, hopen, hkey, hval, w₁] using h₂
    · simpa [openIndex, hopen, hkey, w₁] using h₁

theorem openIndex_framed (w : World K) : Framed w (run (openIndex o) w).state :=
  openIndex_invariant (fun _ h => h.trans ⟨rfl, rfl, rfl, rfl⟩)
    (fun _ h => h.trans (openSnapshot_framed _)) (fun _ h => h.trans (openLog_framed _))
    (fun _ h => h.trans (openWriter_framed _)) ⟨rfl, rfl, rfl, rfl⟩

theorem openStore_framed (hval : (run (openStore o) (World.boot d)).val = .ok) :
    Framed (run (loadState o) (run (openSegments o (List.range o.segmentCount))
        (World.boot d)).state).state (run (openStore o) (World.boot d)).state := by
  by_cases hopen : (run (openSegments o (List.range o.segmentCount)) (World.boot d)).val = .ok
  · simpa [openStore, hopen] using openIndex_framed (o := o) _
  · simp [openStore, hopen] at hval

theorem openSegments_rebuilt {K : Type} {w : World K} (ids : List ℕ) (hnodup : ids.Nodup)
    (hclosed : ∀ id ∈ ids, (w.segs id).isOpen = false)
    (hcomplete : ∀ id ∈ ids, (w.disk.images id).Complete) (hnew : ∀ id ∈ ids, id ∉ w.mgr.segments) :
    (run (openSegments o ids) w).val = .ok ∧
      (run (openSegments o ids) w).state.disk = w.disk ∧
      ∀ id, (run (openSegments o ids) w).state.segs id =
        if id ∈ ids then openedSegment o (w.segs id) (w.disk.images id) else w.segs id := by
  induction ids generalizing w with
  | nil => simp [openSegments]
  | cons id ids ih =>
    obtain ⟨hid, hrest⟩ := List.nodup_cons.mp hnodup
    obtain ⟨hval, hstate, -⟩ := run_openSegment_existing (o := o) (hclosed id (by simp))
      (hcomplete id (by simp))
    obtain ⟨haval, -, hastate⟩ := run_addSegment (o := o)
      (w := w.setSegment id (openedSegment o (w.segs id) (w.disk.images id)))
      (hnew id (by simp))
    set w₁ := (run (addSegment o id)
      (w.setSegment id (openedSegment o (w.segs id) (w.disk.images id)))).state with hw₁
    have hsegs : ∀ j, j ≠ id → w₁.segs j = w.segs j := by
      intro j hj
      simp [hastate, World.setSegment, hj]
    have hself : w₁.segs id = openedSegment o (w.segs id) (w.disk.images id) := by
      simp [hastate]
    have hdisk : w₁.disk = w.disk := by rw [hastate]; rfl
    have hne : ∀ j ∈ ids, j ≠ id := fun j hj heq => hid (heq ▸ hj)
    obtain ⟨hok, hfiles, hend⟩ := ih (w := w₁) hrest
      (fun j hj => by rw [hsegs j (hne j hj)]; exact hclosed j (by simp [hj]))
      (fun j hj => by rw [hdisk]; exact hcomplete j (by simp [hj]))
      (fun j hj => by
        rw [hastate, classify_segments, UnorderedSet.mem_insert, not_or]
        exact ⟨hne j hj, hnew j (by simp [hj])⟩)
    have hrun : (run (openSegments o (id :: ids)) w).val = (run (openSegments o ids) w₁).val ∧
        (run (openSegments o (id :: ids)) w).state = (run (openSegments o ids) w₁).state := by
      simp [openSegments, hval, hstate, haval, ← hw₁]
    refine ⟨hrun.1.trans hok, ?_, fun j => ?_⟩
    · rw [hrun.2, hfiles, hdisk]
    · rw [hrun.2, hend j]
      by_cases hj : j = id
      · subst hj
        rw [if_neg hid, if_pos (by simp), hself]
      · simp only [List.mem_cons, hj, false_or]
        rw [hsegs j hj, hdisk]

def Bounded (o : Options) (d : Disk K) : Prop :=
  ∀ id < o.segmentCount, ∀ i, (d.images id).bitmap i = true → i < o.totalSlots

theorem tally_openSegment {K : Type} {w : World K} {id : ℕ} (hid : id < o.segmentCount)
    (h : Tally o w ∧ Bounded o w.disk) :
    Tally o (run (File.openSegment o id) w).state ∧
      Bounded o (run (File.openSegment o id) w).state.disk := by
  obtain ⟨htally, hbits⟩ := h
  rcases openSegment_cases (o := o) w id with hstate | hstate | hstate | hstate <;> rw [hstate]
  · exact ⟨htally, hbits⟩
  · refine ⟨tally_update htally ?_, hbits⟩
    have hold := htally id
    refine ⟨hold.below, hold.bound, hold.used, hold.cursor, ?_⟩
    rw [← hold.state]
    unfold SegmentBase.updateState
    split_ifs <;> rfl
  · exact ⟨tally_update htally (tallied_opened (hbits id hid)), hbits⟩
  · constructor
    · have hreset := tallied_reset o (w.segs id)
      exact tally_update htally
        ⟨hreset.below, hreset.bound, hreset.used, hreset.cursor, hreset.state⟩
    · intro j hj i hi
      by_cases hji : j = id
      · simp [hji, createdImage] at hi
      · exact hbits j hj i (by simpa [World.setImage, hji] using hi)

theorem tally_openStore (hbits : Bounded o d)
    (hval : (run (openStore o) (World.boot d)).val = .ok) :
    Tally o (run (openStore o) (World.boot d)).state := by
  obtain ⟨hopened, -⟩ := openSegments_invariant (o := o)
    (I := fun w => Tally o w ∧ Bounded o w.disk) (w := World.boot d)
    (fun _ _ hid h => tally_openSegment hid h)
    (fun w id h => by
      rcases addSegment_cases (o := o) w id with hstate | ⟨-, hstate⟩ <;> rw [hstate] <;> exact h)
    (List.range o.segmentCount) (fun id hid => List.mem_range.mp hid)
    ⟨fun _ => tallied_fresh o, hbits⟩
  unfold Tally
  rw [(openStore_framed hval).segs, loadState_segs]
  exact hopened

theorem classified_loadState {K : Type} {w : World K} (h : Classified w.mgr) :
    Classified (run (loadState o) w).state.mgr := by
  cases hfile : w.disk.managerState with
  | none => simpa [loadState, hfile] using h
  | some file =>
    by_cases hshort : file.length < 8
    · simpa [loadState, hfile, hshort] using h
    · cases hparse : parseState file with
      | none => simpa [loadState, hfile, hshort, hparse] using h
      | some saved =>
        simpa [loadState, hfile, hshort, hparse] using
          (applyState_classified (o := o) w.segs w.mgr saved).1

theorem classified_openStore (hval : (run (openStore o) (World.boot d)).val = .ok) :
    Classified (run (openStore o) (World.boot d)).state.mgr := by
  have hopened := openSegments_invariant (o := o) (I := fun w => Classified w.mgr)
    (w := World.boot d)
    (fun w id _ h => by
      rcases openSegment_cases (o := o) w id with hstate | hstate | hstate | hstate <;>
        rw [hstate] <;> exact h)
    (fun w id h => by
      rcases addSegment_cases (o := o) w id with hstate | ⟨hid, hstate⟩ <;> rw [hstate]
      · exact h
      · exact classified_addSegment h hid _)
    (List.range o.segmentCount) (fun id hid => List.mem_range.mp hid)
    (opening_boot (o := o) d).classified
  rw [(openStore_framed hval).mgr]
  exact classified_loadState hopened

/-! Runs without crashes. -/

/-- A running store whose segments are in one class each and counted. -/
structure Tended (o : Options) (w : World K) : Prop where
  live : Live o (fun _ _ => True) w
  classified : Classified w.mgr
  tally : Tally o w

theorem tended_op (hadm : o.Admissible K) (h : Tended o w) (op : Op K) (hop : op ≠ .start) :
    Tended o (run (op.program o) w).state := by
  have hshifts := op_shifts hadm h.live h.classified op hop
  exact ⟨live_op hadm h.live op hop fun _ _ _ => trivial,
    shifts_invariant (I := fun w => Classified w.mgr) (fun _ _ => classified_shift) h.classified
      hshifts,
    shifts_invariant (fun _ _ => tally_shift) h.tally hshifts⟩

theorem starts_tended (hadm : o.Admissible K) (h : Fresh o (fun _ _ => True) d) :
    Starts o (Tended o) (Fresh o fun _ _ => True) d := by
  obtain ⟨hlive, hfresh⟩ := starts_fresh hadm h
  exact ⟨fun hval => ⟨hlive hval, classified_openStore hval,
    tally_openStore (fun id hid i hi => (h.safe.images id hid).bound i hi) hval⟩, hfresh⟩

theorem tended_run (hadm : o.Admissible K) {stateFile : Option Bytes} {acts : List (Act K)}
    {s : Store K} (hrun : GuardedRun (step o) Uncrashed (Store.initial K stateFile) acts s) :
    Phase (Tended o) (Fresh o fun _ _ => True) s := by
  refine hrun.invariant (I := fun _ s => Phase (Tended o) (Fresh o fun _ _ => True) s)
    (.down ⟨crashSafe_initial stateFile, fun _ => by simp [snapshotBase, Disk.empty]⟩) ?_
  rintro _ s _ s' h ⟨op, rfl⟩ hstep
  refine phase_step h hstep (fun d => starts_tended hadm) ?_ ?_ ?_ ?_
  · rintro n d e ⟨⟩
  · rintro w ⟨⟩
  · rintro w _ - ⟨⟩ hop hw
    exact tended_op hadm hw op hop
  · rintro w _ n e - ⟨⟩

end ParaKV.Index.Bookkeeping
