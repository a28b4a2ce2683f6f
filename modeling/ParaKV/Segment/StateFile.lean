/- GID: ParaKV/Segment/StateFile
   source: parakv/core/segment/segment_manager.cc
   digest: The state files LoadState accepts, what it makes of each, and when it undoes
     SaveState. -/

import Mathlib.Data.Finset.Card
import ParaKV.Segment.Classification
import ParaKV.Segment.SavedState

set_option autoImplicit false

namespace ParaKV.Segment.StateFile

open Lib.TracedProgram Lib.HashOrder Lib.HashOrder.UnorderedSet Lib.LittleEndian Segment.Base
open Segment.Manager Segment.ManagerSpec Segment.SavedState Segment.Classification Index.Key
open Core.State

/-! The files that are accepted. -/

def Counted (ids : List ℕ) : Prop := ids.length < 2 ^ 32 ∧ ∀ id ∈ ids, id < 2 ^ 32

/-- The file holds the three lists behind magic and version; bytes may follow. -/
def Holds (file : Bytes) (full appending idle : List ℕ) : Prop :=
  Counted full ∧ Counted appending ∧ Counted idle ∧ ∃ rest : Bytes,
    file = putU32 kStateMagic ++ (putU32 kStateVersion ++
      (serializeIds full ++ (serializeIds appending ++ (serializeIds idle ++ rest))))

theorem getU32_eq_some {p q : Bytes} {v : ℕ} :
    getU32 p = some (v, q) ↔ v < 2 ^ 32 ∧ p = putU32 v ++ q := by
  constructor
  · intro h
    unfold getU32 at h
    split_ifs at h with hshort
    rw [Option.some.injEq, Prod.mk.injEq] at h
    obtain ⟨rfl, rfl⟩ := h
    have hlength : (p.take 4).length = 4 := by
      rw [List.length_take]
      omega
    have hwrite : putU32 (readLE (p.take 4)) = p.take 4 := by
      have hback := writeLE_readLE (p.take 4)
      rwa [hlength] at hback
    refine ⟨?_, by rw [hwrite, List.take_append_drop]⟩
    have hmod := readLE_writeLE 4 (readLE (p.take 4))
    rw [← putU32, hwrite] at hmod
    rw [hmod]
    exact Nat.mod_lt _ (by norm_num)
  · rintro ⟨hv, rfl⟩
    exact getU32_putU32 hv q

theorem readIdsLoop_eq_some {n : ℕ} {p q : Bytes} {ids : List ℕ} :
    readIdsLoop n p = some (ids, q) ↔
      ids.length = n ∧ (∀ id ∈ ids, id < 2 ^ 32) ∧ p = ids.flatMap putU32 ++ q := by
  constructor
  · intro h
    induction n generalizing p ids with
    | zero =>
      rw [readIdsLoop, Option.some.injEq, Prod.mk.injEq] at h
      obtain ⟨rfl, rfl⟩ := h
      simp
    | succ n ih =>
      simp only [readIdsLoop, Option.bind_eq_bind, Option.bind_eq_some_iff, Prod.exists,
        Option.pure_def, Option.some.injEq, Prod.mk.injEq] at h
      obtain ⟨id, p', hid, rest, q', hrest, rfl, rfl⟩ := h
      obtain ⟨hlt, rfl⟩ := getU32_eq_some.mp hid
      obtain ⟨hlength, hall, rfl⟩ := ih hrest
      refine ⟨by rw [List.length_cons, hlength], ?_, by
        rw [List.flatMap_cons, List.append_assoc]⟩
      intro j hj
      rcases List.mem_cons.mp hj with rfl | hj
      · exact hlt
      · exact hall j hj
  · rintro ⟨rfl, hall, rfl⟩
    exact readIdsLoop_flatMap hall q

theorem readIds_eq_some {p q : Bytes} {ids : List ℕ} :
    readIds p = some (ids, q) ↔ Counted ids ∧ p = serializeIds ids ++ q := by
  constructor
  · intro h
    simp only [readIds, Option.bind_eq_bind, Option.bind_eq_some_iff, Prod.exists] at h
    obtain ⟨count, p', hcount, hloop⟩ := h
    obtain ⟨hlt, rfl⟩ := getU32_eq_some.mp hcount
    obtain ⟨rfl, hall, rfl⟩ := readIdsLoop_eq_some.mp hloop
    exact ⟨⟨hlt, hall⟩, by rw [serializeIds, List.append_assoc]⟩
  · rintro ⟨⟨hlt, hall⟩, rfl⟩
    exact readIds_serializeIds hlt hall q

theorem parseState_eq_some {file : Bytes} {full appending idle : List ℕ} :
    parseState file = some (full, appending, idle) ↔ Holds file full appending idle := by
  constructor
  · intro h
    simp only [parseState, Option.bind_eq_bind, Option.bind_eq_some_iff, Prod.exists,
      Option.pure_def] at h
    obtain ⟨magic, p₁, hmagic, h⟩ := h
    split_ifs at h with hm
    · simp at h
    simp only [Option.bind_eq_some_iff, Prod.exists] at h
    obtain ⟨version, p₂, hversion, h⟩ := h
    split_ifs at h with hv
    · simp at h
    simp only [Option.bind_eq_some_iff, Prod.exists, Option.some.injEq, Prod.mk.injEq] at h
    obtain ⟨full', p₃, hfull, appending', p₄, happending, idle', rest, hidle, rfl, rfl, rfl⟩ := h
    obtain ⟨-, rfl⟩ := getU32_eq_some.mp hmagic
    obtain ⟨-, rfl⟩ := getU32_eq_some.mp hversion
    obtain ⟨hcf, rfl⟩ := readIds_eq_some.mp hfull
    obtain ⟨hca, rfl⟩ := readIds_eq_some.mp happending
    obtain ⟨hci, rfl⟩ := readIds_eq_some.mp hidle
    exact ⟨hcf, hca, hci, rest, by rw [not_not.mp hm, not_not.mp hv]⟩
  · rintro ⟨hcf, hca, hci, rest, rfl⟩
    rw [parseState, getU32_putU32 (by decide)]
    simp only [Option.bind_eq_bind, Option.bind_some, ne_eq, not_true_eq_false, if_false]
    rw [getU32_putU32 (by decide)]
    simp [readIds_eq_some.mpr ⟨hcf, rfl⟩, readIds_eq_some.mpr ⟨hca, rfl⟩,
      readIds_eq_some.mpr ⟨hci, rfl⟩]

/-! The whole of `LoadState`. -/

section Loading

variable {K : Type} {o : Options} (segs : ℕ → SegmentBase) (m : SegmentManager)
  (saved : List ℕ × List ℕ × List ℕ)

def InClass (m : SegmentManager) (id : ℕ) : Prop := ∃ c, id ∈ members m c

/-- After `LoadState` the saved full segments are full again, any other full segment has the state
FULL, and no registered segment is without a class. -/
theorem applyState_spec (id : ℕ) (hid : id ∈ m.segments) :
    (id ∈ saved.1 → id ∈ (applyState o segs m saved).fullSet) ∧
      (id ∈ (applyState o segs m saved).fullSet → id ∈ saved.1 ∨ (segs id).state = .full) ∧
      InClass (applyState o segs m saved) id := by
  have hfull : id ∈ (applyState o segs m saved).fullSet ↔ _ :=
    applyState_members (o := o) segs m saved .full id
  refine ⟨fun h => hfull.mpr ⟨hid, by simp [h]⟩, fun h => ?_, ?_⟩
  · have hclass := (hfull.mp h).2
    split_ifs at hclass with h₁
    · exact Or.inl h₁
    · exact Or.inr hclass
  · simp only [InClass, applyState_members, hid, true_and]
    split_ifs <;> exact ⟨_, rfl⟩

theorem applyState_fullOrder :
    (applyState o segs m saved).fullOrder =
      saved.1.filter (· ∈ m.segments) ++ m.segments.order.filter fun id =>
        (id ∉ saved.1 ∧ id ∉ saved.2.1 ∧ id ∉ saved.2.2) ∧ (segs id).state = .full := by
  simp only [applyState, loadRemaining_loop, loadClass_loop, loadFull_loop, ne_eq, reduceCtorEq,
    not_false_eq_true, List.nil_append]
  congr 1
  refine List.filter_congr fun id hid => ?_
  have hmem : id ∈ m.segments := hid
  simp [hmem, and_assoc]

/-- The order lists the full set, and repeats exactly what the file repeats. -/
theorem listed_applyState_iff :
    Listed (applyState o segs m saved) ↔ (saved.1.filter (· ∈ m.segments)).Nodup := by
  constructor
  · intro h
    have hnodup := h.nodup
    rw [applyState_fullOrder] at hnodup
    exact (List.nodup_append.mp hnodup).1
  · intro hnodup
    refine ⟨fun id => ?_, ?_⟩
    · have hfull := applyState_members (o := o) segs m saved .full id
      rw [members] at hfull
      rw [hfull, applyState_fullOrder]
      simp only [List.mem_append, List.mem_filter, decide_eq_true_eq, ← mem_def]
      split_ifs <;> simp_all
    · rw [applyState_fullOrder]
      refine List.nodup_append.mpr ⟨hnodup, m.segments.nodup.filter _, ?_⟩
      rintro id hid j hj rfl
      simp only [List.mem_filter, decide_eq_true_eq] at hid hj
      exact hj.2.1.1 hid.1

end Loading

/-! Saving and loading. -/

section Codec

variable {K : Type} {o : Options}

structure SameClasses (m m' : SegmentManager) : Prop where
  classes : ∀ c id, id ∈ members m c ↔ id ∈ members m' c
  order : m.fullOrder = m'.fullOrder

/-- `LoadState` fails and leaves the classification alone, or succeeds with an order that lists
the full set. -/
def Settles (m : SegmentManager) (r : Outcome (World K) (Event K) Status) : Prop :=
  r.val ≠ .ok ∧ r.state.mgr = m ∨ r.val = .ok ∧ Listed r.state.mgr

theorem run_saveState (w : World K) :
    (run saveState w).state = { w with disk := { w.disk with
      managerState := some (serializeState w.mgr) } } := by
  simp [saveState]

theorem run_loadState {w : World K} {file : Bytes} {saved : List ℕ × List ℕ × List ℕ}
    (hfile : w.disk.managerState = some file) (hparse : parseState file = some saved)
    (hlength : 8 ≤ file.length) :
    (run (loadState o) w).val = .ok ∧
      (run (loadState o) w).state.mgr = applyState o w.segs w.mgr saved := by
  have hshort : ¬ file.length < 8 := Nat.not_lt.mpr hlength
  constructor <;> simp [loadState, hfile, hshort, hparse]

theorem Holds.length {file : Bytes} {full appending idle : List ℕ}
    (h : Holds file full appending idle) : 8 ≤ file.length := by
  obtain ⟨-, -, -, rest, rfl⟩ := h
  simp only [List.length_append, putU32, length_writeLE]
  omega

theorem counted_of_subset {s : UnorderedSet ℕ} {ids : List ℕ} (hs : s.order.length < 2 ^ 32)
    (h32 : ∀ id ∈ s, id < 2 ^ 32) (hnodup : ids.Nodup) (hsub : ∀ id ∈ ids, id ∈ s) :
    Counted ids :=
  ⟨lt_of_le_of_lt (hnodup.subperm hsub).length_le hs, fun id hid => h32 id (hsub id hid)⟩

/-- Saved over fewer than 2 ^ 32 segments, a classification comes back whatever the sets were
before. -/
theorem restored {w w' : World K} {m : SegmentManager} (h32 : ∀ id ∈ m.segments, id < 2 ^ 32)
    (hsize : m.segments.order.length < 2 ^ 32) (hpart : Partition m) (hlisted : Listed m)
    (hsame : ∀ id, id ∈ w'.mgr.segments ↔ id ∈ m.segments)
    (hfile : w'.disk.managerState =
      (run saveState { w with mgr := m }).state.disk.managerState) :
    (run (loadState o) w').val = .ok ∧ SameClasses (run (loadState o) w').state.mgr m := by
  have hfull : ∀ id ∈ m.fullOrder, id ∈ m.segments := fun id hid =>
    (hpart.union id).mpr (Or.inr (Or.inr ((hlisted.mem id).mp hid)))
  have happending : ∀ id ∈ m.appendingSet.order, id ∈ m.segments := fun id hid =>
    (hpart.union id).mpr (Or.inr (Or.inl hid))
  have hidle : ∀ id ∈ m.idleSet.order, id ∈ m.segments := fun id hid =>
    (hpart.union id).mpr (Or.inl hid)
  have hencodable : Encodable m :=
    ⟨counted_of_subset hsize h32 hlisted.nodup hfull,
      counted_of_subset hsize h32 m.appendingSet.nodup happending,
      counted_of_subset hsize h32 m.idleSet.nodup hidle⟩
  have hparse := parseState_serializeState hencodable
  rw [run_saveState] at hfile
  obtain ⟨hval, hstate⟩ := run_loadState (o := o) hfile hparse (parseState_eq_some.mp hparse).length
  refine ⟨hval, ?_, ?_⟩
  · intro c id
    rw [hstate, applyState_members, hsame, hpart.union]
    simp only [hlisted.mem, ← mem_def]
    have hia := hpart.idle_appending id
    have hif := hpart.idle_full id
    have haf := hpart.appending_full id
    by_cases hf : id ∈ m.fullSet
    · cases c <;> simp_all [members]
    · by_cases ha : id ∈ m.appendingSet
      · cases c <;> simp_all [members]
      · cases c <;> simp_all [members]
  · have hkeep : m.fullOrder.filter (· ∈ w'.mgr.segments) = m.fullOrder :=
      List.filter_eq_self.mpr fun id hid => by simp [hsame, hfull id hid]
    have hnone : (w'.mgr.segments.order.filter fun id => (id ∉ m.fullOrder ∧
        id ∉ m.appendingSet.order ∧ id ∉ m.idleSet.order) ∧ (w'.segs id).state = .full) = [] := by
      refine List.filter_eq_nil_iff.mpr fun id hid => ?_
      have hreg := (hpart.union id).mp ((hsame id).mp hid)
      rw [← hlisted.mem] at hreg
      simp only [decide_eq_true_eq]
      rintro ⟨⟨h₁, h₂, h₃⟩, -⟩
      rcases hreg with h | h | h
      · exact h₃ h
      · exact h₂ h
      · exact h₁ h
    rw [hstate, applyState_fullOrder, hkeep, hnone, List.append_nil]

theorem parseState_all {m : SegmentManager} {rest : List ℕ} (hrest : rest.length = 2 ^ 32 - 1)
    (h32 : ∀ id ∈ rest, id < 2 ^ 32) (horder : m.fullOrder = (2 ^ 32 - 1) :: rest)
    (happending : m.appendingSet.order = []) (hidle : m.idleSet.order = []) :
    parseState (serializeState m) = some ([], rest, []) := by
  have hzero : putU32 m.fullOrder.length = putU32 0 := by
    rw [horder, List.length_cons, hrest]
    decide
  rw [parseState_eq_some]
  refine ⟨⟨by simp, by simp⟩, ⟨by omega, h32⟩, ⟨by simp, by simp⟩, serializeIds [], ?_⟩
  have hfull : serializeIds m.fullOrder = serializeIds [] ++ serializeIds rest := by
    rw [serializeIds, hzero, horder, serializeIds, serializeIds, hrest]
    simp
  simp only [serializeState, hfull, happending, hidle, List.append_assoc]

theorem exists_not_restored (w : World K) (h32 : ∀ id ∈ w.mgr.segments, id < 2 ^ 32)
    (hsize : 2 ^ 32 ≤ w.mgr.segments.order.length) :
    ∃ m : SegmentManager, (∀ id, id ∈ m.segments ↔ id ∈ w.mgr.segments) ∧ Partition m ∧
      Listed m ∧ ∃ w' : World K, (∀ id, id ∈ w'.mgr.segments ↔ id ∈ m.segments) ∧
        w'.disk.managerState = (run saveState { w with mgr := m }).state.disk.managerState ∧
        ¬ SameClasses (run (loadState o) w').state.mgr m := by
  set ids := w.mgr.segments.order with hids
  have hnodup : ids.Nodup := w.mgr.segments.nodup
  have hall : ids.toFinset = Finset.range (2 ^ 32) := by
    refine Finset.eq_of_subset_of_card_le (fun id hid => ?_) ?_
    · exact Finset.mem_range.mpr (h32 id (List.mem_toFinset.mp hid))
    · rw [Finset.card_range, List.toFinset_card_of_nodup hnodup]
      exact hsize
  have hlength : ids.length = 2 ^ 32 := by
    rw [← List.toFinset_card_of_nodup hnodup, hall, Finset.card_range]
  have hlast : 2 ^ 32 - 1 ∈ ids := by
    rw [← List.mem_toFinset, hall, Finset.mem_range]
    decide
  let rest := ids.erase (2 ^ 32 - 1)
  let m : SegmentManager := { w.mgr with
    idleSet := .empty
    appendingSet := .empty
    fullSet := w.mgr.segments
    fullOrder := (2 ^ 32 - 1) :: rest }
  have hrest : rest.length = 2 ^ 32 - 1 := by
    rw [List.length_erase_of_mem hlast, hlength]
  have hsub : ∀ id ∈ rest, id ∈ w.mgr.segments := fun id hid => List.mem_of_mem_erase hid
  have hparse : parseState (serializeState m) = some ([], rest, []) :=
    parseState_all hrest (fun id hid => h32 id (hsub id hid)) rfl rfl rfl
  let w' := (run saveState { w with mgr := m }).state
  have hw' : w'.disk.managerState = some (serializeState m) := by
    simp only [w', run_saveState]
  have hmgr : w'.mgr = m := by
    simp only [w', run_saveState]
  have hperm : ((2 ^ 32 - 1) :: rest).Perm ids := (List.perm_cons_erase hlast).symm
  refine ⟨m, fun id => Iff.rfl, ⟨?_, ?_, ?_, ?_⟩, ⟨fun id => ?_, ?_⟩, w', ?_, rfl, fun hsame => ?_⟩
  · simp [m]
  · simp [m]
  · simp [m]
  · simp [m]
  · exact hperm.mem_iff
  · exact hperm.nodup_iff.mpr hnodup
  · rw [hmgr]
    exact fun id => Iff.rfl
  · -- The first id behind the greatest has become an appending segment.
    obtain ⟨id, hid⟩ := List.exists_mem_of_length_pos (l := rest) (by omega)
    have hstate := (run_loadState (o := o) hw' hparse (parseState_eq_some.mp hparse).length).2
    have hgone := hsame.classes .appending id
    rw [hstate, applyState_members, hmgr] at hgone
    have hreg : id ∈ m.segments := hsub id hid
    simp [members, m, hid, hreg] at hgone

theorem settles_iff {w : World K} {file : Bytes} (hfile : w.disk.managerState = some file) :
    (∀ io, Settles w.mgr (loadState o io w)) ↔ ∀ full appending idle,
      Holds file full appending idle → (full.filter (· ∈ w.mgr.segments)).Nodup := by
  constructor
  · intro h full appending idle hholds
    obtain ⟨hval, hstate⟩ := run_loadState (o := o) hfile (parseState_eq_some.mpr hholds)
      hholds.length
    rcases h fun _ => IoOutcome.ok with ⟨hfail, -⟩ | ⟨-, hlisted⟩
    · exact absurd hval hfail
    · have hmgr : Listed (run (loadState o) w).state.mgr := hlisted
      rwa [hstate, listed_applyState_iff] at hmgr
  · intro h io
    by_cases hshort : file.length < 8
    · refine Or.inl ⟨?_, ?_⟩ <;> simp [loadState, hfile, hshort]
    cases hparse : parseState file with
    | none =>
      refine Or.inl ?_
      cases h₀ : io 0 <;> cases h₁ : io 1 <;>
        simp [loadState, hfile, hshort, hparse, probe, h₀, h₁]
    | some saved =>
      have hholds := parseState_eq_some.mp hparse
      have hlisted := (listed_applyState_iff (o := o) w.segs w.mgr saved).mpr (h _ _ _ hholds)
      cases h₀ : io 0 <;> cases h₁ : io 1 <;>
        simp [Settles, loadState, hfile, hshort, hparse, probe, h₀, h₁, hlisted]

/-- What `SaveState` writes is restored by `LoadState` over any earlier classification exactly when
fewer than 2 ^ 32 segments are registered, and a file of any content leaves an order that lists the
full set exactly when its first list does not repeat a registered id. -/
theorem state_file_codec (o : Options) :
    (∀ w : World K, (∀ id ∈ w.mgr.segments, id < 2 ^ 32) →
      ((∀ m : SegmentManager, (∀ id, id ∈ m.segments ↔ id ∈ w.mgr.segments) →
          Partition m → Listed m →
          ∀ w' : World K, (∀ id, id ∈ w'.mgr.segments ↔ id ∈ m.segments) →
            w'.disk.managerState =
              (run saveState { w with mgr := m }).state.disk.managerState →
            (run (loadState o) w').val = .ok ∧
              SameClasses (run (loadState o) w').state.mgr m) ↔
        w.mgr.segments.order.length < 2 ^ 32)) ∧
    ∀ (w : World K) (file : Bytes), w.disk.managerState = some file →
      ((∀ io, Settles w.mgr (loadState o io w)) ↔ ∀ full appending idle,
        Holds file full appending idle → (full.filter (· ∈ w.mgr.segments)).Nodup) := by
  refine ⟨fun w h32 => ⟨fun hall => ?_, fun hsize m hm hpart hlisted w' hsame hfile => ?_⟩,
    fun w file hfile => settles_iff hfile⟩
  · by_contra hsize
    obtain ⟨m, hm, hpart, hlisted, w', hsame, hfile, hnot⟩ :=
      exists_not_restored (o := o) w h32 (Nat.not_lt.mp hsize)
    exact hnot (hall m hm hpart hlisted w' hsame hfile).2
  · have hlength : m.segments.order.length < 2 ^ 32 :=
      lt_of_le_of_lt (m.segments.nodup.subperm fun id hid => (hm id).mp hid).length_le hsize
    exact restored (fun id hid => h32 id ((hm id).mp hid)) hlength hpart hlisted hsame hfile

end Codec

def sampleOptions : Options where
  segmentConfig := {}
  segmentCount := 2
  walPath := "index.wal"
  snapshotDir := "snapshots"
  walCheckpointBytes := 0
  hash := frontPolicy ℕ

def setOf (ids : List ℕ) : UnorderedSet ℕ :=
  ids.foldr (fun id s => s.insert (frontPolicy ℕ) id) .empty

def idlePair (file : Bytes) : World Key64 :=
  { World.boot { Disk.empty Key64 with managerState := some file } with
    mgr := { SegmentManager.fresh with
      segments := setOf [0, 1]
      idleSet := setOf [0, 1] } }

def pairInUse : SegmentManager := { SegmentManager.fresh with
  segments := setOf [0, 1]
  appendingSet := setOf [0]
  fullSet := setOf [1]
  fullOrder := [1] }

theorem state_file_codec_pair :
    (run (loadState sampleOptions) (idlePair (serializeState pairInUse))).val = .ok ∧
      SameClasses (run (loadState sampleOptions)
        (idlePair (serializeState pairInUse))).state.mgr pairInUse := by
  have hsmall : ∀ id ∈ (idlePair []).mgr.segments, id < 2 ^ 32 := by
    intro id hid
    have hcases : id = 0 ∨ id = 1 := by simpa [idlePair, setOf] using hid
    omega
  have hpart : Partition pairInUse := by
    refine ⟨?_, ?_, ?_, ?_⟩ <;> simp [pairInUse, setOf, SegmentManager.fresh, or_comm]
  have hlisted : Listed pairInUse := ⟨by simp [pairInUse, setOf], by decide⟩
  exact ((state_file_codec sampleOptions).1 (idlePair []) hsmall).mpr (by decide) pairInUse
    (fun _ => Iff.rfl) hpart hlisted (idlePair (serializeState pairInUse)) (fun _ => Iff.rfl) rfl

def repeatedFull : Bytes :=
  putU32 kStateMagic ++ putU32 kStateVersion ++ serializeIds [0, 0] ++ serializeIds [] ++
    serializeIds [1]

theorem full_order_repeats :
    (run (loadState sampleOptions) (idlePair repeatedFull)).val = .ok ∧
      (run (loadState sampleOptions) (idlePair repeatedFull)).state.mgr.fullSet.order = [0] ∧
      (run (loadState sampleOptions) (idlePair repeatedFull)).state.mgr.fullOrder = [0, 0] := by
  decide

end ParaKV.Segment.StateFile
