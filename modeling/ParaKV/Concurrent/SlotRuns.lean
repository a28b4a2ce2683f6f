/- GID: ParaKV/Concurrent/SlotRuns
   source: parakv/core/index/index.cc, parakv/core/segment/segment_manager.cc,
     parakv/core/segment/segment_file.cc
   digest: The compaction thread follows the slot protocol; entries own their slots in timely
     runs. -/

import Mathlib.Data.Fin.VecNotation
import ParaKV.Index.CompactionRuns
import ParaKV.Concurrent.Slots

set_option autoImplicit false

namespace ParaKV.Concurrent.SlotRuns

open Lib.LogMap Lib.SlotProtocol Lib.StepRun Index Index.Key Index.Wal Index.Operations
open Index.Durability Index.Ownership Index.Compaction Segment.FileSpec Segment.Manager
open Segment.ManagerSpec Core.State Index.Runs Index.CompactionRuns Concurrent.Machine
open Concurrent.Slots

variable {K : Type} [DecidableEq K] [KeyType K] {n : ℕ}

section Compactor

variable {sys : System K n} {s : State K n}

theorem shared_compact {o : Options} {pcs : Fin n → Pc} (w : World K) (cp : CompactPc)
    (w' : World K) (cp' : CompactPc) :
    shared o w' pcs cp' =
      { ix := entries w'.map
        st := view o w'.disk
        reserved := Function.update (shared o w pcs cp).reserved none (copyOf cp')
        retired := (shared o w pcs cp).retired } := by
  unfold shared
  congr 1
  funext u
  rcases u with _ | u
  · rfl
  · simp

theorem sane_compact (h : Sane sys s) (w' : World K) (cp' : CompactPc)
    (hmgr : ManagerOk sys.o w'.mgr)
    (hsegs : SegmentsOk sys.o w') (hstored : Stored sys.o (fun _ _ => True) w'.disk)
    (hwal : WalOpen w')
    (hstep : Step none (shared sys.o s.world s.pcs s.compactor) (shared sys.o w' s.pcs cp'))
    (hcp : CompactorOk sys.o w' (shared sys.o w' s.pcs cp') cp')
    (seen : Fin n → List (Option Bytes)) :
    Sane sys { s with world := w', compactor := cp', seen := seen } where
  live := ⟨hmgr, hsegs, (hstep.ok h.ok).owns, hstored, hwal⟩
  ok := hstep.ok h.ok
  value_eq := (hstep.content_eq h.ok).trans h.value_eq
  calls u := by
    have hold := h.calls u
    refine ⟨hold.seg, fun key value a hcall (hpc : s.pcs u = _) => ?_, hold.retired,
      hold.appends⟩
    have hheld : (shared sys.o s.world s.pcs s.compactor).reserved (some u) = some a := by
      simp only [shared, hpc, reservedBy]
    exact (hstep.st_eq h.ok (Or.inr ⟨some u, hheld⟩)).trans (hold.slot key value a hcall hpc)
  compactor := hcp

theorem sane_compact_quiet (h : Sane sys s) (w' : World K) (cp' : CompactPc)
    (hmgr : ManagerOk sys.o w'.mgr)
    (hsegs : w'.segs = s.world.segs) (himages : w'.disk.images = s.world.disk.images)
    (hmap : w'.map = s.world.map) (hwal : WalOpen w') (hcopy : copyOf cp' = copyOf s.compactor)
    (hcp : shared sys.o w' s.pcs cp' = shared sys.o s.world s.pcs s.compactor →
      CompactorOk sys.o w' (shared sys.o w' s.pcs cp') cp')
    (seen : Fin n → List (Option Bytes)) :
    Sane sys { s with world := w', compactor := cp', seen := seen } := by
  have hsame : shared sys.o w' s.pcs cp' = shared sys.o s.world s.pcs s.compactor := by
    rw [shared_compact s.world s.compactor w' cp', hmap, view_congr himages, hcopy]
    show Shared.mk _ _ _ _ = Shared.mk _ _ _ _
    congr 1
    exact Function.update_eq_self_iff.mpr rfl
  have hlive := h.live.congr hmgr hsegs himages hmap hwal
  refine sane_compact h w' cp' hmgr hlive.segs hlive.stored hwal ?_ (hcp hsame) seen
  rw [hsame]
  exact .pass

theorem sane_compact_stay (h : Sane sys s) (cp' : CompactPc)
    (hcopy : copyOf cp' = copyOf s.compactor)
    (hcp : shared sys.o s.world s.pcs cp' = shared sys.o s.world s.pcs s.compactor →
      CompactorOk sys.o s.world (shared sys.o s.world s.pcs cp') cp')
    (seen : Fin n → List (Option Bytes)) :
    Sane sys { s with compactor := cp', seen := seen } :=
  sane_compact_quiet h s.world cp' h.live.mgr rfl rfl rfl h.live.wal hcopy hcp seen

theorem sane_select (h : Sane sys s) {src : ℕ} {rest : List ℕ}
    (hcp : s.compactor = .select (src :: rest)) {mgr : SegmentManager}
    (hmgr : ManagerOk sys.o mgr) (hre : Reassigned s.world.mgr mgr) {target : ℕ}
    (htarget : target < sys.o.segmentCount) (seen : Fin n → List (Option Bytes)) :
    Sane sys { s with
      world := { s.world with mgr := mgr }, compactor := .enter ⟨src, target, rest⟩
      seen := seen } := by
  have hselect := h.compactor
  rw [hcp] at hselect
  obtain ⟨hnodup, hfull⟩ := hselect
  exact sane_compact_quiet h { s.world with mgr := mgr } (.enter ⟨src, target, rest⟩) hmgr rfl rfl
    rfl h.live.wal (by rw [hcp]; rfl)
    (fun _ => ⟨hnodup, fun id hid => hre.full id (hfull id hid), htarget⟩) seen

theorem vacated_succ {K : Type} {sh : Shared K UInt64 Bytes (Option (Fin n))} {src i : ℕ}
    (h : sh.Vacated (At (Before src i))) (hix : ∀ k, sh.ix k ≠ some (encodeSegmentSlot src i))
    (hres : ∀ u, sh.reserved u ≠ some (encodeSegmentSlot src i)) :
    sh.Vacated (At (Before src (i + 1))) := by
  rintro a ⟨s', j, ⟨rfl, hj⟩, rfl⟩
  by_cases hji : j = i
  · subst hji
    exact ⟨hix, hres⟩
  · exact h _ ⟨_, j, ⟨rfl, by omega⟩, rfl⟩

theorem sane_skip (hadm : sys.o.Admissible K) (h : Sane sys s) {job : Job} {c i : ℕ}
    (hcp : s.compactor = .scan job c i) (hi : i < c)
    (hbit : (s.world.segs job.src).bitmap i = false) (seen : Fin n → List (Option Bytes)) :
    Sane sys { s with compactor := .scan job c (i + 1), seen := seen } := by
  have hscan := h.compactor
  rw [hcp] at hscan
  have hsrc := hscan.toJobOk.source_lt h.live.mgr
  have hseg := h.live.segs job.src hsrc
  have hbound : i < sys.o.totalSlots := by
    have := hseg.bound
    have := hscan.cursor
    omega
  have hvacant : view sys.o s.world.disk (encodeSegmentSlot job.src i) = none := by
    rw [view_encode hadm _ hsrc hbound, Disk.slot, SegmentImage.slot, hseg.bit_eq, hbit]
    rfl
  refine sane_compact_stay h (.scan job c (i + 1)) (by rw [hcp]; rfl) (fun hsame => ?_) seen
  refine ⟨hscan.toJobOk, hscan.cursor, hi, ?_⟩
  rw [hsame, hcp]
  refine vacated_succ hscan.vacated (h.live.owns.not_vacant hvacant) fun u hu => ?_
  rw [← hcp] at hu
  exact h.ok.written u _ hu hvacant

theorem sane_copy (hadm : sys.o.Admissible K) (h : Sane sys s) {job : Job} {c i : ℕ}
    (hcp : s.compactor = .scan job c i) (hi : i < c)
    (hbit : (s.world.segs job.src).bitmap i = true) (hdistinct : job.target ≠ job.src)
    (hroom : (s.world.segs job.target).appendCursor < sys.o.totalSlots)
    (hfresh : ∀ u, retiredBy (s.pcs u) ≠ some (newAddr s.world job.target))
    (seen : Fin n → List (Option Bytes)) :
    let slot := (s.world.disk.images job.src).slots i
    Sane sys { s with
      world := afterInsert sys.o s.world job.target slot.key slot.value
      compactor := .log job c i slot.key (s.world.segs job.target).appendCursor
      seen := seen } := by
  intro slot
  have hscan := h.compactor
  rw [hcp] at hscan
  have hsrc := hscan.toJobOk.source_lt h.live.mgr
  have hseg := h.live.segs job.src hsrc
  have hbound : i < sys.o.totalSlots := by
    have := hseg.bound
    have := hscan.cursor
    omega
  have hslot : s.world.disk.slot job.src i = some slot := by
    rw [Disk.slot, SegmentImage.slot, hseg.bit_eq, hbit]
    rfl
  obtain ⟨k, hk, -⟩ := h.live.stored job.src hsrc i slot hslot
  have hview := inserted_view hadm h.live.segs hscan.target_lt hroom slot
  have hne : encodeSegmentSlot job.src i ≠ newAddr s.world job.target := fun heq =>
    hdistinct (encodeSegmentSlot_inj (lt_of_lt_of_le hsrc hadm.segments)
      (lt_of_lt_of_le hbound hadm.slots) (lt_of_lt_of_le hscan.target_lt hadm.segments)
      (lt_of_lt_of_le hroom hadm.slots) heq).1.symm
  have heffect : Effect sys.o (fun _ => false) s.world
      (afterInsert sys.o s.world job.target (toBytes k) slot.value) :=
    effect_insert h.live hscan.target_lt hroom rfl k slot.value
  rw [← hk] at heffect
  have hstep : Step none (shared sys.o s.world s.pcs s.compactor)
      (shared sys.o (afterInsert sys.o s.world job.target slot.key slot.value) s.pcs
        (.log job c i slot.key (s.world.segs job.target).appendCursor)) := by
    rw [shared_compact s.world s.compactor (afterInsert _ _ _ _ _), hview]
    refine .reserve none (newAddr s.world job.target) _ _
      (h.live.new_vacant hadm hscan.target_lt hroom) (fun u => ?_) rfl rfl rfl rfl
    rcases u with _ | u
    · exact (Option.some_ne_none _).symm
    · exact hfresh u
  refine sane_compact h _ _ heffect.mgr heffect.segs heffect.stored heffect.wal hstep ?_ seen
  refine ⟨⟨hscan.toJobOk.mono fun _ hid => hid, ?_, le_of_lt hi, ?_⟩,
    ⟨hdistinct, hi, hroom, slot.value, ?_, ?_⟩⟩
  · rw [← hscan.cursor]
    simp [afterInsert, World.setSegment, World.setImage, hdistinct.symm]
  · refine hstep.vacated h.ok (hcp ▸ hscan.vacated) fun u a hu ha => ?_
    rw [shared_compact s.world s.compactor (afterInsert _ _ _ _ _)] at hu
    rcases u with _ | u
    · simp only [Function.update_self] at hu
      obtain rfl := Option.some.inj hu
      obtain ⟨s', j, ⟨rfl, hj⟩, heq⟩ := ha
      exact (hdistinct (encodeSegmentSlot_inj
        (lt_of_lt_of_le hscan.target_lt hadm.segments) (lt_of_lt_of_le hroom hadm.slots)
        (lt_of_lt_of_le hsrc hadm.segments)
        (lt_of_lt_of_le (lt_trans hj hbound) hadm.slots) heq).1).elim
    · simpa using hu
  · rw [hview, Function.update_of_ne hne, view_encode hadm _ hsrc hbound, hslot]
    rfl
  · show view _ _ (newAddr s.world job.target) = _
    rw [hview, Function.update_self]
    rfl

theorem sane_log_move (h : Sane sys s) {job : Job} {c i newSlot : ℕ} {key : Bytes}
    (hcp : s.compactor = .log job c i key newSlot) (rec : WalRecord K)
    (seen : Fin n → List (Option Bytes)) :
    Sane sys { s with
      world := (run (appendWal sys.o rec) s.world).state
      compactor := .remap job c i key newSlot, seen := seen } := by
  obtain ⟨-, hlog, hwal⟩ := run_appendWal_ok h.live.wal rec
  have hold := h.compactor
  rw [hcp] at hold
  obtain ⟨hscan, hcopied⟩ := hold
  refine sane_compact_quiet h _ (.remap job c i key newSlot) ?_ hlog.segs hlog.images hlog.map hwal
    (by rw [hcp]; rfl) (fun hsame => ?_) seen
  · rw [hlog.mgr]
    exact h.live.mgr
  · refine ⟨⟨?_, ?_, hscan.bound, ?_⟩, ⟨hcopied.distinct, hcopied.below, hcopied.room, ?_⟩⟩
    · refine hscan.toJobOk.mono ?_
      rw [hlog.mgr]
      exact fun _ hid => hid
    · rw [hlog.segs]
      exact hscan.cursor
    · rw [hsame, hcp]
      exact hscan.vacated
    · rw [view_congr hlog.images]
      exact hcopied.same

/-- Either way the map update is a step of the protocol, and nothing refers to the old slot
afterwards. -/
theorem remap_step (h : Sane sys s) {k : K} {v : Bytes} {a b : UInt64} (cp' : CompactPc)
    (hheld : (shared sys.o s.world s.pcs s.compactor).reserved none = some a)
    (hcopy : view sys.o s.world.disk a = some (k, v))
    (hcell : view sys.o s.world.disk b = some (k, v)) (hne : a ≠ b) (hcp' : copyOf cp' = none) :
    Step none (shared sys.o s.world s.pcs s.compactor)
        (shared sys.o (run (remapIfEquals k b a) s.world).state s.pcs cp') ∧
      ∀ k', (run (remapIfEquals k b a) s.world).state.map.lookup k' ≠ some b := by
  by_cases hentry : s.world.map.lookup k = some b
  · have hstate : (run (remapIfEquals k b a) s.world).state =
        { s.world with map := s.world.map.insert k a } := by
      simp [remapIfEquals, run, hentry]
    rw [hstate]
    constructor
    · rw [shared_compact s.world s.compactor { s.world with map := s.world.map.insert k a } cp',
        hcp']
      exact .relocate none _ _ _ v hheld hcopy hentry hcell (entries_insert _ _ _) rfl rfl rfl
    · intro k' hk'
      rw [lookup_insert_eq] at hk'
      split at hk'
      · exact hne (Option.some.inj hk')
      · rename_i hkey
        exact hkey (h.live.owns.key_eq hcell hk')
  · have hstate : (run (remapIfEquals k b a) s.world).state = s.world := by
      simp [remapIfEquals, run, hentry]
    rw [hstate]
    constructor
    · rw [shared_compact s.world s.compactor s.world cp', hcp']
      exact .abandon none rfl rfl rfl rfl
    · intro k' hk'
      refine hentry ?_
      rw [← h.live.owns.key_eq hcell hk']
      exact hk'

theorem sane_remap (hadm : sys.o.Admissible K) (h : Sane sys s) {job : Job} {c i newSlot : ℕ}
    {key : Bytes} (hcp : s.compactor = .remap job c i key newSlot)
    (hmoved : ∀ u, reservedBy (s.pcs u) ≠ some (encodeSegmentSlot job.src i))
    (seen : Fin n → List (Option Bytes)) :
    Sane sys { s with
      world := (run (remapIfEquals (ofBytes key : K) (encodeSegmentSlot job.src i)
        (encodeSegmentSlot job.target newSlot)) s.world).state
      compactor := .scan job c (i + 1), seen := seen } := by
  have hold := h.compactor
  rw [hcp] at hold
  obtain ⟨hscan, hcopied⟩ := hold
  obtain ⟨v, hcell, hcopy⟩ := hcopied.same
  have hsrc := hscan.toJobOk.source_lt h.live.mgr
  have hbound : i < sys.o.totalSlots := by
    have := (h.live.segs job.src hsrc).bound
    have := hscan.cursor
    have := hcopied.below
    omega
  have hne : encodeSegmentSlot job.target newSlot ≠ encodeSegmentSlot job.src i := fun heq =>
    hcopied.distinct (encodeSegmentSlot_inj (lt_of_lt_of_le hscan.target_lt hadm.segments)
      (lt_of_lt_of_le hcopied.room hadm.slots) (lt_of_lt_of_le hsrc hadm.segments)
      (lt_of_lt_of_le hbound hadm.slots) heq).1
  have hheld : (shared sys.o s.world s.pcs s.compactor).reserved none =
      some (encodeSegmentSlot job.target newSlot) := by
    simp only [shared, hcp, copyOf]
  obtain ⟨hstep, hunlinked⟩ := remap_step h (.scan job c (i + 1)) hheld hcopy hcell hne rfl
  refine sane_compact h (run (remapIfEquals _ _ _) s.world).state _ h.live.mgr h.live.segs
    h.live.stored h.live.wal hstep ?_ seen
  refine ⟨hscan.toJobOk.mono fun _ hid => hid, hscan.cursor,
    hcopied.below, ?_⟩
  refine vacated_succ (hstep.vacated h.ok (hcp ▸ hscan.vacated) fun u a hu _ => ?_) hunlinked
    fun u => ?_
  · rcases u with _ | u
    · exact (Option.some_ne_none _ hu.symm).elim
    · exact hu
  · rcases u with _ | u
    · exact (Option.some_ne_none _).symm
    · exact hmoved u

theorem sane_reset (hadm : sys.o.Admissible K) (h : Sane sys s) {job : Job} {c i : ℕ}
    (hcp : s.compactor = .scan job c i) (hi : ¬ i < c) (seen : Fin n → List (Option Bytes)) :
    Sane sys { s with
      world := afterReset s.world job.src, compactor := .reclassify job, seen := seen } := by
  have hscan := h.compactor
  rw [hcp] at hscan
  obtain rfl : i = c := le_antisymm hscan.bound (not_lt.mp hi)
  have hsrc := hscan.toJobOk.source_lt h.live.mgr
  have hseg := h.live.segs job.src hsrc
  have htouch := touches_afterReset hseg
  have hcleared : ∀ j < sys.o.totalSlots,
      view sys.o (afterReset s.world job.src).disk (encodeSegmentSlot job.src j) = none := by
    intro j hj
    rw [view_encode hadm _ hsrc hj, afterReset_slot, if_pos rfl]
    rfl
  have hvacated : (shared sys.o s.world s.pcs s.compactor).Vacated
      (At (OneSegment sys.o job.src)) := by
    rintro a ⟨s', j, ⟨rfl, hj⟩, rfl⟩
    by_cases hjc : j < i
    · rw [hcp]
      exact hscan.vacated _ ⟨_, j, ⟨rfl, hjc⟩, rfl⟩
    · have hbit : (s.world.segs job.src).bitmap j = false := by
        by_contra hbit
        have := hseg.below j (by simpa using hbit)
        have := hscan.cursor
        omega
      have hvacant : view sys.o s.world.disk (encodeSegmentSlot job.src j) = none := by
        rw [view_encode hadm _ hsrc hj, Disk.slot, SegmentImage.slot, hseg.bit_eq, hbit]
        rfl
      exact ⟨h.live.owns.not_vacant hvacant, fun u hu => h.ok.written u _ hu hvacant⟩
  refine sane_compact h (afterReset s.world job.src) (.reclassify job) h.live.mgr
    (segmentsOk_afterReset h.live.segs hsrc)
    (touches_stored htouch h.live.stored fun _ hn => hn.elim) h.live.wal ?_
    (hscan.toJobOk.mono fun _ hid => hid) seen
  rw [shared_compact s.world s.compactor (afterReset s.world job.src)]
  refine .clear (At (OneSegment sys.o job.src)) hvacated rfl ?_ (fun a ha =>
    touches_view_eq htouch ha) ?_ rfl
  · rintro a ⟨s', j, ⟨rfl, hj⟩, rfl⟩
    exact hcleared j hj
  · refine Function.update_eq_self_iff.mpr ?_
    simp only [shared, hcp, copyOf]

theorem sane_reclassify (h : Sane sys s) {job : Job} (hcp : s.compactor = .reclassify job)
    (seen : Fin n → List (Option Bytes)) :
    Sane sys { s with
      world := reclassify sys.o job.src job.target s.world
      compactor := .select job.rest, seen := seen } := by
  have hjob := h.compactor
  rw [hcp] at hjob
  have hmgr : ManagerOk sys.o (reclassify sys.o job.src job.target s.world).mgr :=
    reclassify_ok h.live.mgr (h.live.mgr.full _ (hjob.full _ List.mem_cons_self))
      ((h.live.mgr.segments _).mpr hjob.target_lt)
  refine sane_compact_quiet h _ (.select job.rest) hmgr rfl rfl rfl h.live.wal (by rw [hcp]; rfl)
    (fun _ => ?_) seen
  have hnodup := List.nodup_cons.mp hjob.nodup
  refine ⟨hnodup.2, fun id hid => reclassify_full (hjob.full id (List.mem_cons_of_mem _ hid)) ?_⟩
  rintro rfl
  exact hnodup.1 hid

def compactWrites (o : Options) (w : World K) : CompactPc → Option UInt64
  | .scan job c i =>
    if i < c ∧ (w.segs job.src).bitmap i = true then nextSlot o w job.target else none
  | _ => none

def compactLeaves : CompactPc → Option UInt64
  | .remap job _ i _ _ => some (encodeSegmentSlot job.src i)
  | _ => none

theorem sane_compactStep (hadm : sys.o.Admissible K) (h : Sane sys s)
    (hfresh : ∀ a, compactWrites sys.o s.world s.compactor = some a →
      ∀ u, retiredBy (s.pcs u) ≠ some a)
    (hmoved : ∀ a, compactLeaves s.compactor = some a → ∀ u, reservedBy (s.pcs u) ≠ some a)
    {r : CompactPc × World K} (hr : compactStep sys.o s.world s.compactor = some r)
    (seen : Fin n → List (Option Bytes)) :
    Sane sys { s with world := r.2, compactor := r.1, seen := seen } := by
  have hok := h.compactor
  cases hcp : s.compactor with
  | off =>
    rw [hcp] at hr
    cases hr
    exact sane_compact_stay h (.select _) (by rw [hcp]; rfl)
      (fun _ => ⟨candidates_nodup _, fun _ => candidates_full⟩) seen
  | finished st =>
    rw [hcp] at hr
    cases hr
    exact sane_compact_stay h (.select _) (by rw [hcp]; rfl)
      (fun _ => ⟨candidates_nodup _, fun _ => candidates_full⟩) seen
  | select rest =>
    cases rest with
    | nil =>
      rw [hcp] at hr
      cases hr
      exact sane_compact_stay h (.finished _) (by rw [hcp]; rfl) (fun _ => trivial) seen
    | cons src rest =>
      obtain ⟨m', hstate, -, hmgr, hre, hmem⟩ := getActiveSegment_spec h.live.mgr
      simp only [hcp, compactStep, hstate] at hr
      split at hr <;> cases hr
      · exact sane_compact_quiet h { s.world with mgr := m' } (.finished _) hmgr rfl rfl rfl
          h.live.wal (by rw [hcp]; rfl) (fun _ => trivial) seen
      · rename_i target htarget
        exact sane_select h hcp hmgr hre (hmem _ htarget) seen
  | enter job =>
    rw [hcp] at hok
    have hsrc := hok.source_lt h.live.mgr
    have hregistered := (h.live.mgr.segments job.src).mpr hsrc
    simp only [hcp, compactStep, hregistered, not_true_eq_false, if_false,
      (h.live.segs job.src hsrc).isOpen, Bool.not_true, Bool.false_eq_true] at hr
    cases hr
    refine sane_compact_stay h (.scan job _ 0) (by rw [hcp]; rfl)
      (fun _ => ⟨hok, rfl, Nat.zero_le _, ?_⟩) seen
    rintro a ⟨s', j, ⟨-, hj⟩, -⟩
    exact (Nat.not_lt_zero _ hj).elim
  | scan job c i =>
    rw [hcp] at hok
    simp only [hcp, compactStep] at hr
    by_cases hi : i < c
    · rw [if_pos hi] at hr
      by_cases hbit : (s.world.segs job.src).bitmap i = true
      · have hwrites : compactWrites sys.o s.world s.compactor =
            nextSlot sys.o s.world job.target := by
          simp only [hcp, compactWrites, hi, hbit, and_self, if_true]
        have hdistinct : job.target ≠ job.src := fun heq => by simp [hbit, heq] at hr
        simp only [hbit, Bool.not_true, Bool.false_eq_true, if_false, hdistinct] at hr
        have hseg := h.live.segs job.target hok.target_lt
        by_cases hroom : (s.world.segs job.target).appendCursor < sys.o.totalSlots
        · obtain ⟨hval, hstate⟩ := run_insert ((s.world.disk.images job.src).slots i).key
            ((s.world.disk.images job.src).slots i).value hadm.slots hseg hroom
          simp only [hval, hstate, ne_eq, not_true_eq_false, if_false] at hr
          cases hr
          exact sane_copy hadm h hcp hi hbit hdistinct hroom
            (hfresh _ (hwrites.trans (if_pos hroom))) seen
        · obtain ⟨hval, hstate, -⟩ := run_insert_full
            ((s.world.disk.images job.src).slots i).key
            ((s.world.disk.images job.src).slots i).value hadm.slots hseg hroom
          simp only [hval, hstate, ne_eq, reduceCtorEq, not_false_eq_true, if_true] at hr
          cases hr
          exact sane_compact_stay h (.finished _) (by rw [hcp]; rfl) (fun _ => trivial) seen
      · simp only [hbit, Bool.not_false, if_true] at hr
        cases hr
        exact sane_skip hadm h hcp hi (by simpa using hbit) seen
    · obtain ⟨hval, hstate⟩ := run_resetSegment sys.o s.world job.src
      simp only [hi, if_false, hval, hstate, ne_eq, not_true_eq_false] at hr
      cases hr
      exact sane_reset hadm h hcp hi seen
  | log job c i key newSlot =>
    rw [hcp] at hr
    cases hr
    exact sane_log_move h hcp _ seen
  | remap job c i key newSlot =>
    have hleaves : compactLeaves s.compactor = some (encodeSegmentSlot job.src i) := by
      rw [hcp]
      rfl
    have hmoved := hmoved _ hleaves
    rw [hcp] at hr
    cases hr
    exact sane_remap hadm h hcp hmoved seen
  | reclassify job =>
    rw [hcp] at hr
    cases hr
    exact sane_reclassify h hcp seen

end Compactor

section Checkpoint

variable {sys : System K n} {s : State K n}

theorem compactorOk_congr {K : Type} [KeyType K] {o : Options} {w w' : World K} {cp : CompactPc}
    {sh : Shared K UInt64 Bytes (Option (Fin n))} (hlog : LogOnly w w')
    (h : CompactorOk o w sh cp) : CompactorOk o w' sh cp := by
  have hjob : ∀ {job}, JobOk o w job → JobOk o w' job := by
    intro job hjob
    refine hjob.mono ?_
    rw [hlog.mgr]
    exact fun _ hid => hid
  have hscan : ∀ {job c i}, Scanning o w sh job c i → Scanning o w' sh job c i := by
    intro job c i hscan
    refine ⟨hjob hscan.toJobOk, ?_, hscan.bound, hscan.vacated⟩
    rw [hlog.segs]
    exact hscan.cursor
  have hcopied : ∀ {job c i key newSlot}, Copied o w job c i key newSlot →
      Copied o w' job c i key newSlot := by
    intro job c i key newSlot hcopied
    refine ⟨hcopied.distinct, hcopied.below, hcopied.room, ?_⟩
    rw [view_congr hlog.images]
    exact hcopied.same
  cases cp with
  | off => trivial
  | finished st => trivial
  | select rest =>
    refine ⟨h.1, ?_⟩
    rw [hlog.mgr]
    exact h.2
  | enter job => exact hjob h
  | reclassify job => exact hjob h
  | scan job c i => exact hscan h
  | log job c i key newSlot => exact ⟨hscan h.1, hcopied h.2⟩
  | remap job c i key newSlot => exact ⟨hscan h.1, hcopied h.2⟩

theorem sane_logOnly (h : Sane sys s) {w' : World K} (hlog : LogOnly s.world w')
    (hwal : WalOpen w') (checkpointer : CheckpointPc K) (seen : Fin n → List (Option Bytes)) :
    Sane sys { s with world := w', checkpointer := checkpointer, seen := seen } := by
  have hsane := sane_compact_quiet h w' s.compactor (hlog.mgr ▸ h.live.mgr) hlog.segs hlog.images
    hlog.map hwal rfl (fun hsame => hsame ▸ compactorOk_congr hlog h.compactor) seen
  exact ⟨hsane.live, hsane.ok, hsane.value_eq, hsane.calls, hsane.compactor⟩

theorem run_rotateWal {K : Type} (w : World K) :
    (run rotateWal w).val = .ok ∧ (run rotateWal w).state =
      if w.wal.isNone then w
      else { w with
        disk := { w.disk with wal := some [] }, wal := some ⟨true, 0⟩, walBytes := 0 } := by
  cases hwal : w.wal with
  | none => simp [rotateWal, run, hwal]
  | some writer => simp [rotateWal, walOpen, run, hwal, World.setWalFile]

theorem checkpointStep_logOnly {K : Type} [DecidableEq K] {o : Options} {shards : Shards K}
    {w : World K} {ck : CheckpointPc K} (hwal : WalOpen w) {r : CheckpointPc K × World K}
    (hr : checkpointStep o shards w ck = some r) : LogOnly w r.2 ∧ WalOpen r.2 := by
  cases ck with
  | off =>
    simp only [checkpointStep] at hr
    split at hr <;> cases hr
    · exact ⟨⟨rfl, rfl, rfl, rfl, rfl, rfl⟩, hwal⟩
    · exact ⟨⟨rfl, rfl, rfl, rfl, rfl, rfl⟩, hwal⟩
  | dump j copied =>
    simp only [checkpointStep] at hr
    split at hr <;> cases hr
    · exact ⟨⟨rfl, rfl, rfl, rfl, rfl, rfl⟩, hwal⟩
    · exact ⟨⟨rfl, rfl, rfl, rfl, rfl, rfl⟩, hwal⟩
  | rename =>
    cases hr
    exact ⟨⟨rfl, rfl, rfl, rfl, rfl, rfl⟩, hwal⟩
  | rotate =>
    simp only [checkpointStep, (run_rotateWal w).2] at hr
    cases hr
    split
    · exact ⟨⟨rfl, rfl, rfl, rfl, rfl, rfl⟩, hwal⟩
    · refine ⟨⟨rfl, rfl, rfl, rfl, rfl, rfl⟩, fun writer hwriter => ?_⟩
      obtain rfl := Option.some.inj hwriter
      rfl
  | finished st => cases hr

end Checkpoint

/-! Whole runs. -/

def writes (sys : System K n) (s : State K n) : Action n → Option UInt64
  | .call t => callWrites sys.o s.world (sys.calls t) (s.pcs t)
  | .compact => compactWrites sys.o s.world s.compactor
  | .checkpoint => none

def leaves (s : State K n) : Action n → Option UInt64
  | .compact => compactLeaves s.compactor
  | _ => none

/-- No slot is written again before the call that retired it has freed it, and no entry is moved
away from a slot that a `Put` has yet to install. -/
def Timely (sys : System K n) (s : State K n) (act : Action n) : Prop :=
  (∀ a ∈ writes sys s act, ∀ u, retiredBy (s.pcs u) ≠ some a) ∧
    ∀ a ∈ leaves s act, ∀ u, reservedBy (s.pcs u) ≠ some a

instance (sys : System K n) (s : State K n) (act : Action n) : Decidable (Timely sys s act) :=
  -- an offset is looked for in the option, not among all offsets
  @instDecidableAnd _ _ (Option.decidableForallMem _) (Option.decidableForallMem _)

variable {sys : System K n}

theorem sane_initial {w : World K} (h : Live sys.o (fun _ _ => True) w) :
    Sane sys (State.initial n w (value sys.o w)) where
  live := h
  ok := by
    refine ⟨h.owns, fun u a hu => ?_, fun u a k hu => ?_, fun u u' a hu => ?_, fun u a k hu => ?_,
      fun u u' a hu => ?_⟩
    all_goals rcases u with _ | u <;> cases hu
  value_eq := rfl
  calls _ := callOk_unburdened _ rfl
  compactor := trivial

theorem sane_step (hadm : sys.o.Admissible K) {s s' : State K n} {act : Action n}
    (h : Sane sys s) (htimely : Timely sys s act) (hstep : Machine.step sys s act = some s') :
    Sane sys s' := by
  cases act with
  | call t =>
    obtain ⟨r, hr, rfl⟩ := Option.map_eq_some_iff.mp hstep
    exact sane_callStep hadm h htimely.1 hr
  | compact =>
    obtain ⟨r, hr, rfl⟩ := Option.map_eq_some_iff.mp hstep
    exact sane_compactStep hadm h htimely.1 htimely.2 hr _
  | checkpoint =>
    obtain ⟨r, hr, rfl⟩ := Option.map_eq_some_iff.mp hstep
    obtain ⟨hlog, hwal⟩ := checkpointStep_logOnly h.live.wal hr
    exact sane_logOnly h hlog hwal _ _

theorem sane_run (hadm : sys.o.Admissible K) {w : World K}
    (h : Live sys.o (fun _ _ => True) w) {acts : List (Action n)} {s : State K n}
    (hrun : GuardedRun (Machine.step sys) (Timely sys) (State.initial n w (value sys.o w)) acts
      s) : Sane sys s :=
  hrun.invariant (I := fun _ s => Sane sys s) (sane_initial h)
    fun _ _ _ _ hs htimely hstep => sane_step hadm hs htimely hstep

/-- Calls, compactions and a checkpoint interleave, from any store that a sequential history has
led to. Each entry points at an occupied slot with its key, and no slot that a call is about to
free has an entry. -/
theorem entries_own_slots (hadm : sys.o.Admissible K) {stateFile : Option Bytes}
    {prior : List (Act K)} {st : Store K}
    (hprior : GuardedRun (Runs.step sys.o) Uncrashed (Store.initial K stateFile) prior st)
    (hup : st.up = true) {acts : List (Action n)} {s : State K n}
    (hrun : GuardedRun (Machine.step sys) (Timely sys)
      (State.initial n st.world (value sys.o st.world)) acts s) :
    (∀ k a, s.world.map.lookup k = some a → ∃ seg < sys.o.segmentCount, ∃ i < sys.o.totalSlots,
      a = encodeSegmentSlot seg i ∧ ∃ v, s.world.disk.slot seg i = some ⟨toBytes k, v⟩) ∧
    ∀ t a, retiredBy (s.pcs t) = some a → ∀ k, s.world.map.lookup k ≠ some a := by
  have hsane := sane_run hadm ((live_run hadm hprior).world hup) hrun
  refine ⟨fun k a ha => ?_, fun t a ht k => hsane.ok.unlinked (some t) a k ht⟩
  obtain ⟨seg, hseg, i, hi, rfl, slot, hslot, hkey, -⟩ := hsane.live.slot_view ha
  obtain ⟨k', hk', -⟩ := hsane.live.stored seg hseg i slot hslot
  obtain rfl : k' = k := by rw [← hkey, hk', ofBytes_toBytes]
  exact ⟨seg, hseg, i, hi, rfl, slot.value, by rw [← hk']; exact hslot⟩

def interleave (sys : System K n) (prior : List (Act K)) (acts : List (Action n)) :
    Option (State K n) :=
  (perform (Runs.step sys.o) (Store.initial K none) prior).bind fun st =>
    perform (Machine.step sys) (State.initial n st.world (value sys.o st.world)) acts

def oneShard : Shards Key64 := ⟨1, fun _ => 0, fun _ => Nat.one_pos⟩

/-! The next section of either of two calls. -/

def first : Action 2 := .call 0

def second : Action 2 := .call 1

/-- Segment 2 is full, with one key left in it, the key 0. -/
def sparsePrior : List (Act Key64) :=
  [.complete .start] ++ [0, 1, 2, 3].map putKey ++ [1, 2, 3].map deleteKey ++ [putKey 4]

def clashSystem : System Key64 3 :=
  ⟨smallOptions 4 0, oneShard, ![.put 0 [100], .put 11 [11], .put 12 [12]]⟩

/-- `Put(0)` stops before it frees the old slot of its key. The compaction recycles the segment,
`Put(12)` takes the slot, and then the slot is freed. -/
def clashRun : List (Action 3) :=
  .replicate 5 (.call 0) ++ .replicate 12 .compact ++ .replicate 5 (.call 1) ++
    .replicate 5 (.call 2) ++ [.call 0]

set_option maxRecDepth 100000 in
theorem entry_loses_slot :
    (smallOptions 4 0).Admissible Key64 ∧
    ((interleave clashSystem sparsePrior clashRun).map fun s =>
      (s.pcs 0, s.pcs 2, (s.world.map.lookup 12).map fun a =>
        (getSegmentId a, getSlotId a, (s.world.disk.slot (getSegmentId a) (getSlotId a)).isSome)))
      = some (.done .ok [], .done .ok [], some (2, 0, false)) :=
  ⟨smallOptions_admissible 0 (by decide), by decide +kernel⟩

/-- `Put(0)` frees the old slot before another call takes it. -/
def timelyRun : List (Action 3) :=
  .replicate 5 (.call 0) ++ .replicate 12 .compact ++ [.call 0] ++ .replicate 5 (.call 1) ++
    .replicate 5 (.call 2)

set_option maxRecDepth 100000 in
theorem entries_own_slots_timely :
    ∃ st s, GuardedRun (Runs.step (smallOptions 4 0)) Uncrashed (Store.initial Key64 none)
        sparsePrior st ∧ st.up = true ∧
      GuardedRun (Machine.step clashSystem) (Timely clashSystem)
        (State.initial 3 st.world (value (smallOptions 4 0) st.world)) timelyRun s ∧
      s.compactor = .finished .ok ∧ s.world.map.lookup 12 = some (encodeSegmentSlot 2 0) ∧
      ∃ seg < 3, ∃ i < 4, encodeSegmentSlot 2 0 = encodeSegmentSlot seg i ∧
        ∃ v, s.world.disk.slot seg i = some ⟨toBytes (12 : Key64), v⟩ := by
  obtain ⟨st, hprior, hst⟩ := exists_guardedRun
    (f := fun st : Store Key64 => (st.up, (performGuarded (Machine.step clashSystem)
      (Timely clashSystem) (State.initial 3 st.world (value (smallOptions 4 0) st.world))
      timelyRun).map fun s => (s.compactor, s.world.map.lookup 12)))
    (show (performGuarded (Runs.step (smallOptions 4 0)) Uncrashed (Store.initial Key64 none)
      sparsePrior).map _ = some (true, some (.finished .ok, some (encodeSegmentSlot 2 0))) by
      decide +kernel)
  obtain ⟨hup, hacts⟩ := Prod.mk.inj hst
  obtain ⟨s, hrun, hs⟩ := exists_guardedRun hacts
  obtain ⟨hcp, hlookup⟩ := Prod.mk.inj hs
  have hadm : clashSystem.o.Admissible Key64 := smallOptions_admissible 0 (by decide)
  exact ⟨st, s, hprior, hup, hrun, hcp, hlookup,
    (entries_own_slots hadm hprior hup hrun).1 12 _ hlookup⟩

end ParaKV.Concurrent.SlotRuns
