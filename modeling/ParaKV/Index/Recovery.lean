/- GID: ParaKV/Index/Recovery
   source: parakv/core/index/index.cc, parakv/core/segment/segment_manager.cc
   digest: A start over crash safe files gives a store with the recovered map. -/

import ParaKV.Index.CrashSafety

set_option autoImplicit false

namespace ParaKV.Index.Recovery

open Lib.TracedProgram Lib.LogMap Lib.OwnedSlots Lib.HashOrder Index.Key Index.Wal Index.Operations
open Index.Durability Index.Ownership Index.CrashSafety Segment Segment.Base Segment.FileSpec
open Segment.Manager Segment.ManagerSpec Core.State

variable {K : Type} {o : Options} {H : K → Bytes → Prop} {d : Disk K} {w : World K} {m : Map K}
variable {n k : ℕ}

/-- A start that has opened and registered the segments below `n`. -/
structure Opening (o : Options) (d : Disk K) (n : ℕ) (w : World K) : Prop where
  touches : Touches NoSlot Nothing d w.disk
  done : ∀ id < n, SegmentOk o (w.segs id) (w.disk.images id)
  ahead : ∀ id, n ≤ id → (w.segs id).isOpen = false ∧ w.disk.images id = d.images id
  classified : Classified w.mgr
  segments : ∀ id, id ∈ w.mgr.segments ↔ id < n
  map : w.map = ∅
  wal : w.wal = none
  opened : w.opened = false

theorem opening_boot (d : Disk K) : Opening o d 0 (World.boot d) := by
  refine ⟨Touches.refl _ _ _, fun id hid => by omega, fun id _ => ⟨rfl, rfl⟩,
    ⟨⟨?_, ?_, ?_⟩, ?_, ?_, ?_⟩, fun id => ?_, rfl, rfl, rfl⟩
  · exact fun id hid => (UnorderedSet.not_mem_empty hid).elim
  · exact fun id hid => (UnorderedSet.not_mem_empty hid).elim
  · exact fun id hid => (UnorderedSet.not_mem_empty hid).elim
  · exact fun id hid => (UnorderedSet.not_mem_empty hid).elim
  · exact fun id hid => (UnorderedSet.not_mem_empty hid).elim
  · exact fun id hid => (UnorderedSet.not_mem_empty hid).elim
  · simp [World.boot, SegmentManager.fresh]

theorem opening_step (h : Opening o d n w) {s : SegmentBase} {f : SegmentImage}
    (hstate : (run (File.openSegment o n) w).state = (w.setImage n f).setSegment n s)
    (htouch : Touches NoSlot Nothing w.disk (run (File.openSegment o n) w).state.disk)
    (hok : SegmentOk o s f) :
    (run (addSegment o n) (run (File.openSegment o n) w).state).val = .ok ∧
      (run (addSegment o n) (run (File.openSegment o n) w).state).trace = [] ∧
      Opening o d (n + 1) (run (addSegment o n) (run (File.openSegment o n) w).state).state := by
  have hnew : n ∉ w.mgr.segments := by
    rw [h.segments]
    omega
  have htouch' := h.touches.trans htouch
  rw [hstate] at htouch' ⊢
  obtain ⟨hval, htrace, hadd⟩ := run_addSegment (o := o) (w := (w.setImage n f).setSegment n s) hnew
  refine ⟨hval, htrace, ?_⟩
  rw [hadd]
  refine ⟨htouch', fun id hid => ?_, fun id hid => ?_, classified_addSegment h.classified hnew _,
    fun id => ?_, h.map, h.wal, h.opened⟩
  · by_cases hn : id = n
    · subst hn
      simpa using hok
    · have := h.done id (by omega)
      simpa [World.setSegment, World.setImage, hn] using this
  · have hn : id ≠ n := by omega
    simpa [World.setSegment, World.setImage, hn] using h.ahead id (by omega)
  · rw [classify_segments]
    change id ∈ w.mgr.segments.insert o.hash n ↔ _
    rw [UnorderedSet.mem_insert, h.segments]
    omega

theorem avoids_noSlot (ix : K → Option UInt64) : Avoids ix (At NoSlot) := by
  rintro k a - ⟨s, i, hx, -⟩
  exact hx

variable [DecidableEq K] [KeyType K]

theorem openSegments_spec {K : Type} {d : Disk K} {w : World K} (k : ℕ)
    (himages : ∀ id < n + k, ImageOk o (d.images id)) (h : Opening o d n w) :
    WritesOnly NoSlot Nothing d (run (openSegments o (List.range' n k)) w).trace ∧
      Touches NoSlot Nothing d (run (openSegments o (List.range' n k)) w).state.disk ∧
      ((run (openSegments o (List.range' n k)) w).val = .ok →
        Opening o d (n + k) (run (openSegments o (List.range' n k)) w).state) ∧
      ((∀ id < n + k, (d.images id).Openable) →
        (run (openSegments o (List.range' n k)) w).val = .ok) := by
  induction k generalizing n w with
  | zero => exact ⟨writesOnly_nil _, h.touches, fun _ => h, fun _ => rfl⟩
  | succ k ih =>
    obtain ⟨hopen, himage⟩ := h.ahead n (le_refl n)
    obtain ⟨hwrites, htouch, ⟨s, f, hstate, hok⟩, hcomplete⟩ := openSegment_spec (o := o) hopen
      (himage ▸ himages n (by omega))
    have hwrites' : WritesOnly NoSlot Nothing d (run (File.openSegment o n) w).trace :=
      (writesOnly_nil d).append h.touches hwrites
    have hcomplete' : (∀ id < n + (k + 1), (d.images id).Openable) →
        (run (File.openSegment o n) w).val = .ok := fun hc =>
      hcomplete (himage ▸ hc n (by omega))
    rw [List.range'_succ]
    by_cases hval : (run (File.openSegment o n) w).val = .ok
    · obtain ⟨haval, hatrace, hnext⟩ := opening_step h hstate htouch (hok hval)
      obtain ⟨ihwrites, ihtouch, ihok, ihcomplete⟩ :=
        ih (n := n + 1) (fun id hid => himages id (by omega)) hnext
      have hsum : n + (k + 1) = n + 1 + k := by omega
      simp only [openSegments, Prog.exec_bind_trace, Prog.exec_bind_val, Prog.exec_bind_state,
        hval, ne_eq, not_true_eq_false, if_false, haval, hatrace, List.nil_append, hsum]
      exact ⟨hwrites'.append (Touches.refl _ _ d) ihwrites, ihtouch, ihok, ihcomplete⟩
    · simp only [openSegments, Prog.exec_bind_trace, Prog.exec_bind_val, Prog.exec_bind_state,
        hval, ne_eq, not_false_eq_true, if_true, Prog.exec_pure_trace, Prog.exec_pure_state,
        Prog.exec_pure_val, List.append_nil]
      exact ⟨hwrites', h.touches.trans htouch, fun hok => hok.elim,
        fun hc => hval (hcomplete' hc)⟩

theorem openStore_stages (hkey : o.segmentConfig.keySize = KeyType.size K)
    (hpath : o.walPath ≠ "") {base : Map K} {recs : List (WalRecord K)} {torn : Bytes}
    (hholds : Holds o d base recs torn) {w₁ : World K}
    (h : Opening o d o.segmentCount w₁) :
    ∃ mgr, ManagerOk o mgr ∧ (run (loadState o) w₁).trace = [] ∧
      (run (loadState o) w₁).state = { w₁ with mgr := mgr } ∧
      (run (openIndex o) { w₁ with mgr := mgr }).val = .ok ∧
      (run (openIndex o) { w₁ with mgr := mgr }).state =
        afterOpen { w₁ with mgr := mgr } base recs ∧
      ∀ e ∈ (run (openIndex o) { w₁ with mgr := mgr }).trace,
        LogEvent o { w₁ with mgr := mgr } (· = replay base (recs.map binding)) e := by
  obtain ⟨mgr, hstate, htrace, hmgr, -⟩ := loadState_spec (o := o) (w := w₁)
    ⟨h.classified.toRegistered, h.segments⟩ h.classified
  have hholds₁ : Holds o w₁.disk base recs torn := hholds.congr h.touches.wal h.touches.snapshot
  exact ⟨mgr, hmgr, htrace, hstate,
    run_openIndex (w := { w₁ with mgr := mgr }) hkey hpath h.opened h.map hholds₁⟩

theorem journaled_afterOpen {mgr : SegmentManager} (hmgr : ManagerOk o mgr)
    {base : Map K} {recs : List (WalRecord K)} {torn : Bytes} (hholds : Holds o d base recs torn)
    {w₁ : World K} (h : Opening o d o.segmentCount w₁)
    (hsafe : CrashSafe o H d (replay base (recs.map binding))) :
    Journaled o H (afterOpen { w₁ with mgr := mgr } base recs)
      (replay base (recs.map binding)) := by
  have hview : view o (afterOpen { w₁ with mgr := mgr } base recs).disk = view o d :=
    funext fun _ => touches_view_eq h.touches fun ⟨_, _, hx, _⟩ => hx
  have hlogged : Logged o (afterOpen { w₁ with mgr := mgr } base recs)
      (replay base (recs.map binding)) := by
    refine ⟨base, recs, ⟨?_, ?_, hholds.known, kEncodedSize_pos⟩, rfl, rfl⟩
    · have hholds₁ : Holds o w₁.disk base recs torn :=
        hholds.congr h.touches.wal h.touches.snapshot
      exact hholds₁.base
    · simp [afterOpen]
  have hstored : Stored o H w₁.disk := touches_stored h.touches hsafe.stored fun _ hn => hn.elim
  refine ⟨⟨hmgr, h.done, ?_, hstored, hlogged.walOpen⟩, hlogged, ?_⟩
  · rw [hview]
    exact hsafe.owns
  · rw [hview]
    exact hsafe.owns

/-- The same slots, and no complete segment file is left half made. -/
structure Reopened (o : Options) (d d' : Disk K) : Prop where
  view : view o d' = view o d
  complete : Complete o d → Complete o d'

theorem reopened_of_touches {K : Type} [KeyType K] {d : Disk K} {d' : Disk K}
    (h : Touches NoSlot Nothing d d') : Reopened o d d' :=
  ⟨funext fun _ => touches_view_eq h fun ⟨_, _, hx, _⟩ => hx, complete_of_touches h⟩

theorem Reopened.congr {K : Type} [KeyType K] {d : Disk K} {d' d'' : Disk K} (h : Reopened o d d')
    (himages : d''.images = d'.images) :
    Reopened o d d'' :=
  ⟨(view_congr himages).trans h.view, fun hd => complete_congr himages (h.complete hd)⟩

/-- A start over crash safe files passes crash safe points only. When it succeeds it has the
recovered map and the same slots, and it succeeds when no segment file was left half made. -/
theorem openStore_spec (hadm : o.Admissible K) (hpath : o.walPath ≠ "")
    (h : CrashSafe o H d m) :
    (∀ e ∈ (run (openStore o) (World.boot d)).trace,
      e.label = .io ∧ CrashSafe o H e.world.disk m ∧ Reopened o d e.world.disk) ∧
    CrashSafe o H (run (openStore o) (World.boot d)).state.disk m ∧
    Reopened o d (run (openStore o) (World.boot d)).state.disk ∧
    ((run (openStore o) (World.boot d)).val = .ok →
      Journaled o H (run (openStore o) (World.boot d)).state m ∧
        (run (openStore o) (World.boot d)).state.map = m) ∧
    ((∀ s < o.segmentCount, (d.images s).Openable) →
      (run (openStore o) (World.boot d)).val = .ok) := by
  obtain ⟨base, recs, torn, hholds, rfl⟩ := h.durable
  obtain ⟨hwrites, htouch, hopening, hcomplete⟩ := openSegments_spec (o := o) (d := d) (n := 0)
    o.segmentCount (fun id hid => h.images id (by omega)) (opening_boot d)
  rw [← List.range_eq_range', Nat.zero_add] at *
  have hsegEvents : ∀ e ∈ (run (openSegments o (List.range o.segmentCount)) (World.boot d)).trace,
      e.label = .io ∧ CrashSafe o H e.world.disk (replay base (recs.map binding)) ∧
        Reopened o d e.world.disk := by
    intro e he
    obtain ⟨hlabel, hev⟩ := hwrites e he
    exact ⟨hlabel, h.clear hev (avoids_noSlot _), reopened_of_touches hev⟩
  have hopened := reopened_of_touches (o := o) htouch
  have hsafe := h.clear htouch (avoids_noSlot _)
  by_cases hval : (run (openSegments o (List.range o.segmentCount)) (World.boot d)).val = .ok
  · obtain ⟨mgr, hmgr, hltrace, hlstate, hoval, hostate, hoevents⟩ :=
      openStore_stages hadm.keySize hpath hholds (hopening hval)
    have hjournal := journaled_afterOpen hmgr hholds (hopening hval) h
    have hrun : (run (openStore o) (World.boot d)).val = .ok ∧
        (run (openStore o) (World.boot d)).state = (run (openIndex o) { (run (openSegments o
          (List.range o.segmentCount)) (World.boot d)).state with mgr := mgr }).state ∧
        (run (openStore o) (World.boot d)).trace =
          (run (openSegments o (List.range o.segmentCount)) (World.boot d)).trace ++
            (run (openIndex o) { (run (openSegments o
              (List.range o.segmentCount)) (World.boot d)).state with mgr := mgr }).trace := by
      simp [openStore, hval, hltrace, hlstate, hoval]
    rw [hrun.1, hrun.2.1, hrun.2.2, hostate]
    refine ⟨fun e he => ?_, hjournal.crashSafe, hopened.congr rfl, fun _ => ⟨hjournal, rfl⟩,
      fun _ => rfl⟩
    rcases List.mem_append.mp he with he | he
    · exact hsegEvents e he
    · obtain ⟨hlabel, himages, -, m', hdurable, rfl⟩ := hoevents e he
      have hsame := hopened.congr himages
      refine ⟨hlabel, ⟨hdurable, hsame.view ▸ h.owns, stored_congr himages hsafe.stored,
        fun s hs => ?_⟩, hsame⟩
      rw [himages]
      exact hsafe.images s hs
  · have hrun : (run (openStore o) (World.boot d)).val =
          (run (openSegments o (List.range o.segmentCount)) (World.boot d)).val ∧
        (run (openStore o) (World.boot d)).state =
          (run (openSegments o (List.range o.segmentCount)) (World.boot d)).state ∧
        (run (openStore o) (World.boot d)).trace =
          (run (openSegments o (List.range o.segmentCount)) (World.boot d)).trace := by
      simp [openStore, hval]
    rw [hrun.1, hrun.2.1, hrun.2.2]
    exact ⟨hsegEvents, hsafe, hopened, fun hok => (hval hok).elim,
      fun hc => (hval (hcomplete hc)).elim⟩

end ParaKV.Index.Recovery
