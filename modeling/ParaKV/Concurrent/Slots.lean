/- GID: ParaKV/Concurrent/Slots
   source: parakv/core/index/index.cc, parakv/core/segment/segment_manager.cc
   digest: The interleaved calls follow the slot protocol, as long as no slot is reused too
     early. -/

import ParaKV.Lib.SlotProtocol
import ParaKV.Index.Compaction
import ParaKV.Concurrent.Machine

set_option autoImplicit false

namespace ParaKV.Concurrent.Slots

open Lib.TracedProgram Lib.LogMap Lib.OwnedSlots Lib.SlotProtocol Index.Key Index.Wal
open Index.Operations Index.Durability Index.Ownership Index.Compaction Segment.FileSpec
open Segment.ManagerSpec Core.State Concurrent.Machine

variable {K : Type} [DecidableEq K] [KeyType K] {n : ℕ}

/-! What a call and the compaction thread hold between two sections. -/

/-- The slot a `Put` has written and not yet installed. -/
def reservedBy : Pc → Option UInt64
  | .install newEnc => some newEnc
  | _ => none

/-- The slot a call has taken out of the map and not yet freed. -/
def retiredBy : Pc → Option UInt64
  | .log _ old => old
  | .release old => some old
  | .logErase old => some old
  | .releaseErased old => some old
  | _ => none

/-- The copy the compaction thread has written and not yet installed. -/
def copyOf : CompactPc → Option UInt64
  | .log job _ _ _ newSlot => some (encodeSegmentSlot job.target newSlot)
  | .remap job _ _ _ newSlot => some (encodeSegmentSlot job.target newSlot)
  | _ => none

/-- The calls and, as `none`, the compaction thread as parties of the slot protocol. -/
def shared (o : Options) (w : World K) (pcs : Fin n → Pc) (cp : CompactPc) :
    Shared K UInt64 Bytes (Option (Fin n)) where
  ix := entries w.map
  st := view o w.disk
  reserved
    | some t => reservedBy (pcs t)
    | none => copyOf cp
  retired
    | some t => retiredBy (pcs t)
    | none => none

structure CallOk (o : Options) (w : World K) (call : Call K) (pc : Pc) : Prop where
  seg : ∀ seg again, pc = .insert seg again → seg < o.segmentCount
  slot : ∀ key value a, call = .put key value → pc = .install a →
    view o w.disk a = some (key, value)
  retired : ∀ a, retiredBy pc = some a → IsSlot o a
  appends : (∀ a old st, pc ≠ .revert a old st) ∧ (∀ a st, pc ≠ .discard a st) ∧
    ∀ a st, pc ≠ .restore a st

structure JobOk (o : Options) (w : World K) (job : Job) : Prop where
  nodup : (job.src :: job.rest).Nodup
  full : ∀ id ∈ job.src :: job.rest, id ∈ w.mgr.fullSet
  target_lt : job.target < o.segmentCount

/-- The slots below `i` of the source are behind the compaction. -/
structure Scanning (o : Options) (w : World K) (sh : Shared K UInt64 Bytes (Option (Fin n)))
    (job : Job) (c i : ℕ) : Prop extends JobOk o w job where
  cursor : (w.segs job.src).appendCursor = c
  bound : i ≤ c
  vacated : sh.Vacated (At (Before job.src i))

/-- The copy has the content of the slot it is of. -/
structure Copied (o : Options) (w : World K) (job : Job) (c i : ℕ) (key : Bytes) (newSlot : ℕ) :
    Prop where
  distinct : job.target ≠ job.src
  below : i < c
  room : newSlot < o.totalSlots
  same : ∃ v, view o w.disk (encodeSegmentSlot job.src i) = some ((ofBytes key : K), v) ∧
    view o w.disk (encodeSegmentSlot job.target newSlot) = some ((ofBytes key : K), v)

def CompactorOk (o : Options) (w : World K) (sh : Shared K UInt64 Bytes (Option (Fin n))) :
    CompactPc → Prop
  | .select rest => rest.Nodup ∧ ∀ id ∈ rest, id ∈ w.mgr.fullSet
  | .enter job => JobOk o w job
  | .scan job c i => Scanning o w sh job c i
  | .log job c i key newSlot => Scanning o w sh job c i ∧ Copied o w job c i key newSlot
  | .remap job c i key newSlot => Scanning o w sh job c i ∧ Copied o w job c i key newSlot
  | .reclassify job => JobOk o w job
  | _ => True

/-- The invariant of the machine. -/
structure Sane (sys : System K n) (s : State K n) : Prop where
  live : Live sys.o (fun _ _ => True) s.world
  ok : (shared sys.o s.world s.pcs s.compactor).Ok
  value_eq : value sys.o s.world = s.content
  calls : ∀ t, CallOk sys.o s.world (sys.calls t) (s.pcs t)
  compactor : CompactorOk sys.o s.world (shared sys.o s.world s.pcs s.compactor) s.compactor

/-! What a section does to the files and objects, next to the slots it writes. -/

structure Effect (o : Options) (locks : ℕ → Bool) (w w' : World K) : Prop where
  mgr : ManagerOk o w'.mgr
  segs : SegmentsOk o w'
  stored : Stored o (fun _ _ => True) w'.disk
  wal : WalOpen w'
  full : ∀ id ∈ w.mgr.fullSet, id ∈ w'.mgr.fullSet
  locked : ∀ id, locks id = true →
    w'.segs id = w.segs id ∧ w'.disk.images id = w.disk.images id

variable {o : Options} {w w' : World K} {locks : ℕ → Bool}

theorem effect_quiet (h : Live o (fun _ _ => True) w) (hmgr : ManagerOk o w'.mgr)
    (hre : Reassigned w.mgr w'.mgr) (hsegs : w'.segs = w.segs)
    (himages : w'.disk.images = w.disk.images) (hwal : WalOpen w') : Effect o locks w w' where
  mgr := hmgr
  segs id hid := by rw [hsegs, himages]; exact h.segs id hid
  stored := stored_congr himages h.stored
  wal := hwal
  full := hre.full
  locked id _ := by rw [hsegs, himages]; exact ⟨rfl, rfl⟩

theorem effect_insert (h : Live o (fun _ _ => True) w) {s : ℕ} (hs : s < o.segmentCount)
    (hroom : (w.segs s).appendCursor < o.totalSlots) (hlock : locks s = false) (key : K)
    (v : Bytes) : Effect o locks w (afterInsert o w s (toBytes key) v) where
  mgr := h.mgr
  segs := segmentsOk_afterInsert h.segs hs hroom
  stored := touches_stored (touches_afterInsert (h.segs s hs)) h.stored <| by
    rintro _ rfl
    exact ⟨key, rfl, trivial⟩
  wal := h.wal
  full _ hid := hid
  locked id hid := by
    have hne : id ≠ s := by
      rintro rfl
      rw [hlock] at hid
      cases hid
    simp [afterInsert, World.setSegment, World.setImage, hne]

theorem effect_release (h : Live o (fun _ _ => True) w) {a : UInt64}
    {r : Outcome (World K) (Event K) Unit} (hr : Released o (some a) w r)
    (hlock : locks (getSegmentId a) = false) : Effect o locks w r.state where
  mgr := hr.mgr ▸ h.mgr
  segs := hr.segs
  stored := by
    obtain ⟨X, -, htouch, -⟩ := hr.writes
    exact touches_stored htouch h.stored fun _ hn => hn.elim
  wal writer hwriter := h.wal writer (hr.wal ▸ hwriter)
  full := by
    rw [hr.mgr]
    exact fun _ hid => hid
  locked id hid := by
    refine hr.others id fun b hb => ?_
    obtain rfl := Option.some.inj hb
    rintro rfl
    rw [hlock] at hid
    cases hid

theorem released_view {K : Type} [KeyType K] {w : World K} {a : UInt64}
    {r : Outcome (World K) (Event K) Unit} (hr : Released o (some a) w r) :
    view o r.state.disk = Function.update (view o w.disk) a none := by
  obtain ⟨X, -, htouch, hat⟩ := hr.writes
  funext b
  by_cases hb : b = a
  · rw [hb, Function.update_self]
    exact hr.cleared a rfl
  · rw [Function.update_of_ne hb]
    exact touches_view_eq htouch fun hx => hb (Option.some.inj (hat b hx)).symm

theorem inserted_view {K : Type} [KeyType K] {w : World K} (hadm : o.Admissible K)
    (h : SegmentsOk o w) {s : ℕ} (hs : s < o.segmentCount)
    (hroom : (w.segs s).appendCursor < o.totalSlots) (slot : Slot) :
    view o (afterInsert o w s slot.key slot.value).disk =
      Function.update (view o w.disk) (newAddr w s) (some (decodeSlot slot)) := by
  funext b
  by_cases hb : b = newAddr w s
  · rw [hb, Function.update_self, newAddr, view_encode hadm _ hs hroom,
      afterInsert_slot slot.key slot.value (h s hs), if_pos ⟨rfl, rfl⟩]
    rfl
  · rw [Function.update_of_ne hb]
    refine touches_view_eq (touches_afterInsert (h s hs)) ?_
    rintro ⟨_, _, ⟨rfl, rfl⟩, rfl⟩
    exact hb rfl

/-! The calls and the compaction thread keep out of each other's way. -/

variable {pcs : Fin n → Pc} {cp : CompactPc} {t : Fin n} {pc' : Pc}

theorem shared_call (w' : World K) (pcs : Fin n → Pc) (cp : CompactPc) (t : Fin n) (pc' : Pc) :
    shared o w' (Function.update pcs t pc') cp =
      { ix := entries w'.map
        st := view o w'.disk
        reserved := Function.update (shared o w pcs cp).reserved (some t) (reservedBy pc')
        retired := Function.update (shared o w pcs cp).retired (some t) (retiredBy pc') } := by
  unfold shared
  congr 1
  · funext u
    rcases u with _ | u
    · rfl
    · by_cases hu : u = t
      · simp [hu]
      · simp [hu]
  · funext u
    rcases u with _ | u
    · rfl
    · by_cases hu : u = t
      · simp [hu]
      · simp [hu]

theorem JobOk.mono {K : Type} {w w' : World K} {job : Job} (h : JobOk o w job)
    (hfull : ∀ id ∈ w.mgr.fullSet, id ∈ w'.mgr.fullSet) : JobOk o w' job :=
  ⟨h.nodup, fun id hid => hfull id (h.full id hid), h.target_lt⟩

theorem JobOk.source_lt {K : Type} {w : World K} {job : Job} (h : JobOk o w job)
    (hmgr : ManagerOk o w.mgr) :
    job.src < o.segmentCount :=
  (hmgr.segments _).mp (hmgr.full _ (h.full _ List.mem_cons_self))

theorem view_image_congr {K : Type} [KeyType K] {d d' : Disk K} {s i : ℕ} (hadm : o.Admissible K)
    (hs : s < o.segmentCount) (hi : i < o.totalSlots) (h : d'.images s = d.images s) :
    view o d' (encodeSegmentSlot s i) = view o d (encodeSegmentSlot s i) := by
  rw [view_encode hadm _ hs hi, view_encode hadm _ hs hi, Disk.slot, Disk.slot, h]

section Calls

variable {sys : System K n} {s : State K n}

/-- A section of a call leaves the compaction where it is: it cannot touch the locked source,
and it reserves no slot there. -/
theorem compactorOk_call (hadm : sys.o.Admissible K) (h : Sane sys s) {w' : World K}
    (heffect : Effect sys.o s.compactor.locks s.world w')
    {c : Option (K × Option Bytes)}
    (hstep : Step c (shared sys.o s.world s.pcs s.compactor)
      (shared sys.o w' (Function.update s.pcs t pc') s.compactor))
    (hnew : ∀ a, reservedBy pc' = some a → reservedBy (s.pcs t) = some a ∨
      ∃ seg i, a = encodeSegmentSlot seg i ∧ seg < sys.o.segmentCount ∧ i < sys.o.totalSlots ∧
        s.compactor.locks seg = false) :
    CompactorOk sys.o w' (shared sys.o w' (Function.update s.pcs t pc') s.compactor)
      s.compactor := by
  have hjob : ∀ {job}, JobOk sys.o s.world job → JobOk sys.o w' job := fun hjob =>
    hjob.mono heffect.full
  have hscan : ∀ {job : Job} {c i : ℕ},
      Scanning sys.o s.world (shared sys.o s.world s.pcs s.compactor) job c i →
      (∀ id, s.compactor.locks id = true ↔ id = job.src) →
      Scanning sys.o w' (shared sys.o w' (Function.update s.pcs t pc') s.compactor) job c i := by
    intro job c i hsc hlocks
    have hsrc := hsc.toJobOk.source_lt h.live.mgr
    have hcursor := (heffect.locked job.src ((hlocks _).mpr rfl)).1
    refine ⟨hjob hsc.toJobOk, by rw [hcursor]; exact hsc.cursor, hsc.bound, ?_⟩
    refine hstep.vacated h.ok hsc.vacated fun u a hu ha => ?_
    rw [shared_call (w := s.world)] at hu
    by_cases hut : u = some t
    · subst hut
      simp only [Function.update_self] at hu
      rcases hnew a hu with hold | ⟨seg, i', rfl, hseg, hi', hfree⟩
      · exact hold
      · exfalso
        obtain ⟨s', j, ⟨rfl, hj⟩, heq⟩ := ha
        have hbound := (h.live.segs job.src hsrc).bound
        rw [hsc.cursor] at hbound
        have hseg' := (encodeSegmentSlot_inj (lt_of_lt_of_le hseg hadm.segments)
          (lt_of_lt_of_le hi' hadm.slots) (lt_of_lt_of_le hsrc hadm.segments)
          (lt_of_lt_of_le (lt_of_lt_of_le hj (le_trans hsc.bound hbound)) hadm.slots) heq).1
        rw [(hlocks seg).mpr hseg'] at hfree
        cases hfree
    · simpa only [Function.update_of_ne hut] using hu
  have hcopied : ∀ {job : Job} {c i : ℕ} {key : Bytes} {newSlot : ℕ},
      Scanning sys.o s.world (shared sys.o s.world s.pcs s.compactor) job c i →
      Copied sys.o s.world job c i key newSlot →
      (∀ id, s.compactor.locks id = true ↔ id = job.src) →
      copyOf s.compactor = some (encodeSegmentSlot job.target newSlot) →
      Copied sys.o w' job c i key newSlot := by
    intro job c i key newSlot hsc hcp hlocks hcopy
    have hsrc := hsc.toJobOk.source_lt h.live.mgr
    have hi : i < sys.o.totalSlots := by
      have := (h.live.segs job.src hsrc).bound
      have := hsc.cursor
      have := hcp.below
      omega
    obtain ⟨v, hold, hnew⟩ := hcp.same
    refine ⟨hcp.distinct, hcp.below, hcp.room, v, ?_, ?_⟩
    · rw [view_image_congr hadm hsrc hi (heffect.locked job.src ((hlocks _).mpr rfl)).2]
      exact hold
    · exact (hstep.st_eq h.ok (Or.inr ⟨none, hcopy⟩)).trans hnew
  have hcompactor := h.compactor
  cases hcp : s.compactor with
  | off => trivial
  | finished st => trivial
  | select rest =>
    rw [hcp] at hcompactor
    exact ⟨hcompactor.1, fun id hid => heffect.full id (hcompactor.2 id hid)⟩
  | enter job =>
    rw [hcp] at hcompactor
    exact hjob hcompactor
  | reclassify job =>
    rw [hcp] at hcompactor
    exact hjob hcompactor
  | scan job c i =>
    have hlocks : ∀ id, s.compactor.locks id = true ↔ id = job.src := by
      simp [hcp, CompactPc.locks]
    simp only [hcp] at hcompactor hscan hlocks
    exact hscan hcompactor hlocks
  | log job c i key newSlot =>
    have hlocks : ∀ id, s.compactor.locks id = true ↔ id = job.src := by
      simp [hcp, CompactPc.locks]
    simp only [hcp] at hcompactor hscan hcopied hlocks
    exact ⟨hscan hcompactor.1 hlocks, hcopied hcompactor.1 hcompactor.2 hlocks rfl⟩
  | remap job c i key newSlot =>
    have hlocks : ∀ id, s.compactor.locks id = true ↔ id = job.src := by
      simp [hcp, CompactPc.locks]
    simp only [hcp] at hcompactor hscan hcopied hlocks
    exact ⟨hscan hcompactor.1 hlocks, hcopied hcompactor.1 hcompactor.2 hlocks rfl⟩

def relabel (content : K → Option Bytes) : Option (K × Option Bytes) → K → Option Bytes
  | none => content
  | some (k, v) => Function.update content k v

theorem sane_call (hadm : sys.o.Admissible K) (h : Sane sys s) {w' : World K}
    (heffect : Effect sys.o s.compactor.locks s.world w')
    {c : Option (K × Option Bytes)}
    (hstep : Step c (shared sys.o s.world s.pcs s.compactor)
      (shared sys.o w' (Function.update s.pcs t pc') s.compactor))
    (hpc : CallOk sys.o w' (sys.calls t) pc')
    (hnew : ∀ a, reservedBy pc' = some a → reservedBy (s.pcs t) = some a ∨
      ∃ seg i, a = encodeSegmentSlot seg i ∧ seg < sys.o.segmentCount ∧ i < sys.o.totalSlots ∧
        s.compactor.locks seg = false) (unlogged : List (Fin n × Binding K UInt64))
    (seen : Fin n → List (Option Bytes)) :
    Sane sys { s with
      world := w', pcs := Function.update s.pcs t pc', content := relabel s.content c
      unlogged := unlogged, seen := seen } where
  live := ⟨heffect.mgr, heffect.segs, (hstep.ok h.ok).owns, heffect.stored, heffect.wal⟩
  ok := hstep.ok h.ok
  value_eq := by
    refine (hstep.content_eq h.ok).trans ?_
    rw [← h.value_eq]
    rcases c with _ | ⟨k, v⟩ <;> rfl
  calls u := by
    by_cases hu : u = t
    · subst hu
      simpa only [Function.update_self] using hpc
    · simp only [Function.update_of_ne hu]
      have hold := h.calls u
      refine ⟨hold.seg, fun key value a hcall hpc => ?_, hold.retired, hold.appends⟩
      have hheld : (shared sys.o s.world s.pcs s.compactor).reserved (some u) = some a := by
        simp only [shared, hpc, reservedBy]
      exact (hstep.st_eq h.ok (Or.inr ⟨some u, hheld⟩)).trans (hold.slot key value a hcall hpc)
  compactor := compactorOk_call hadm h heffect hstep hnew

theorem callOk_of_static {K : Type} [KeyType K] {call : Call K} (w : World K)
    (hseg : ∀ seg again, pc' = .insert seg again → seg < o.segmentCount)
    (hslot : ∀ a, pc' ≠ .install a) (hretired : ∀ a, retiredBy pc' = some a → IsSlot o a)
    (happends : (∀ a old st, pc' ≠ .revert a old st) ∧ (∀ a st, pc' ≠ .discard a st) ∧
      ∀ a st, pc' ≠ .restore a st) :
    CallOk o w call pc' :=
  ⟨hseg, fun _ _ a _ hpc => (hslot a hpc).elim, hretired, happends⟩

def Unburdened : Pc → Bool
  | .insert _ _ => false
  | .install _ => false
  | .log _ _ => false
  | .revert _ _ _ => false
  | .discard _ _ => false
  | .release _ => false
  | .logErase _ => false
  | .restore _ _ => false
  | .releaseErased _ => false
  | _ => true

theorem callOk_unburdened {K : Type} [KeyType K] {call : Call K} (w : World K)
    (h : Unburdened pc' = true) :
    CallOk o w call pc' := by
  cases pc' with
  | insert | install | log | revert | discard | release | logErase | restore | releaseErased =>
    simp [Unburdened] at h
  | _ => exact callOk_of_static _ (by simp) (by simp) (by simp [retiredBy]) (by simp)

theorem sane_quiet (hadm : sys.o.Admissible K) (h : Sane sys s) (w' : World K)
    (hmap : w'.map = s.world.map) (himages : w'.disk.images = s.world.disk.images)
    (hsegs : w'.segs = s.world.segs) (hmgr : ManagerOk sys.o w'.mgr)
    (hre : Reassigned s.world.mgr w'.mgr) (hwal : WalOpen w')
    (hreserved : reservedBy pc' = reservedBy (s.pcs t))
    (hretired : retiredBy pc' = retiredBy (s.pcs t))
    (hpc : CallOk sys.o w' (sys.calls t) pc') (unlogged : List (Fin n × Binding K UInt64))
    (seen : Fin n → List (Option Bytes)) :
    Sane sys { s with
      world := w', pcs := Function.update s.pcs t pc', unlogged := unlogged, seen := seen } := by
  have hsame : shared sys.o w' (Function.update s.pcs t pc') s.compactor =
      shared sys.o s.world s.pcs s.compactor := by
    rw [shared_call (w := s.world), hreserved, hretired, hmap, view_congr himages]
    show Shared.mk _ _ _ _ = Shared.mk _ _ _ _
    congr 1
    · exact Function.update_eq_self_iff.mpr rfl
    · exact Function.update_eq_self_iff.mpr rfl
  have hstep : Step none (shared sys.o s.world s.pcs s.compactor)
      (shared sys.o w' (Function.update s.pcs t pc') s.compactor) := by
    rw [hsame]
    exact .pass
  exact sane_call hadm h (effect_quiet h.live hmgr hre hsegs himages hwal) hstep hpc
    (fun a ha => Or.inl (hreserved ▸ ha)) unlogged seen

theorem sane_manager (hadm : sys.o.Admissible K) (h : Sane sys s) {mgr : SegmentManager}
    (hmgr : ManagerOk sys.o mgr) (hre : Reassigned s.world.mgr mgr)
    (hreserved : reservedBy pc' = reservedBy (s.pcs t))
    (hretired : retiredBy pc' = retiredBy (s.pcs t))
    (hpc : CallOk sys.o { s.world with mgr := mgr } (sys.calls t) pc')
    (unlogged : List (Fin n × Binding K UInt64)) (seen : Fin n → List (Option Bytes)) :
    Sane sys { s with
      world := { s.world with mgr := mgr }
      pcs := Function.update s.pcs t pc', unlogged := unlogged, seen := seen } :=
  sane_quiet hadm h { s.world with mgr := mgr } rfl rfl rfl hmgr hre h.live.wal hreserved
    hretired hpc unlogged seen

theorem sane_stay (hadm : sys.o.Admissible K) (h : Sane sys s)
    (hreserved : reservedBy pc' = reservedBy (s.pcs t))
    (hretired : retiredBy pc' = retiredBy (s.pcs t))
    (hpc : CallOk sys.o s.world (sys.calls t) pc') (unlogged : List (Fin n × Binding K UInt64))
    (seen : Fin n → List (Option Bytes)) :
    Sane sys { s with
      pcs := Function.update s.pcs t pc', unlogged := unlogged, seen := seen } :=
  sane_quiet hadm h s.world rfl rfl rfl h.live.mgr (Reassigned.refl h.live.mgr.toRegistered)
    h.live.wal hreserved hretired hpc unlogged seen

theorem sane_release (hadm : sys.o.Admissible K) (h : Sane sys s) {a : UInt64}
    (hheld : retiredBy (s.pcs t) = some a) (hlock : s.compactor.locks (getSegmentId a) = false)
    (hres : reservedBy (s.pcs t) = none) (st : Status)
    (unlogged : List (Fin n × Binding K UInt64)) (seen : Fin n → List (Option Bytes)) :
    Sane sys { s with
      world := (run (freeSlot sys.o a) s.world).state
      pcs := Function.update s.pcs t (.done st []), unlogged := unlogged, seen := seen } := by
  have hr := releaseOld_spec hadm h.live.mgr h.live.segs
    (show ∀ b, some a = some b → IsSlot sys.o b by
      rintro b hb
      obtain rfl := Option.some.inj hb
      exact (h.calls t).retired a hheld)
  have hstate : (run (freeSlot sys.o a) s.world).state =
      (run (releaseOld sys.o (some a)) s.world).state := rfl
  have hstep : Step none (shared sys.o s.world s.pcs s.compactor)
      (shared sys.o (run (freeSlot sys.o a) s.world).state
        (Function.update s.pcs t (.done st [])) s.compactor) := by
    rw [hstate, shared_call (w := s.world), hr.map, released_view hr]
    refine .release (some t) a hheld rfl rfl ?_ rfl
    exact Function.update_eq_self_iff.mpr hres.symm
  rw [hstate] at hstep ⊢
  refine sane_call hadm h (effect_release h.live hr hlock) hstep ?_ (by simp [reservedBy])
    unlogged seen
  exact callOk_unburdened _ rfl

theorem sane_insert (hadm : sys.o.Admissible K) (h : Sane sys s) {seg : ℕ} {key : K}
    {value : Bytes} (hcall : sys.calls t = .put key value) (hseg : seg < sys.o.segmentCount)
    (hroom : (s.world.segs seg).appendCursor < sys.o.totalSlots)
    (hlock : s.compactor.locks seg = false)
    (hfresh : ∀ u, retiredBy (s.pcs u) ≠ some (newAddr s.world seg))
    (hret : retiredBy (s.pcs t) = none) (unlogged : List (Fin n × Binding K UInt64))
    (seen : Fin n → List (Option Bytes)) :
    Sane sys { s with
      world := afterInsert sys.o s.world seg (toBytes key) value
      pcs := Function.update s.pcs t (.install (newAddr s.world seg))
      unlogged := unlogged, seen := seen } := by
  have hview := inserted_view hadm h.live.segs hseg hroom ⟨toBytes key, value⟩
  have hdecode : decodeSlot ⟨toBytes key, value⟩ = (key, value) := by
    simp [decodeSlot, ofBytes_toBytes]
  rw [hdecode] at hview
  have hstep : Step none (shared sys.o s.world s.pcs s.compactor)
      (shared sys.o (afterInsert sys.o s.world seg (toBytes key) value)
        (Function.update s.pcs t (.install (newAddr s.world seg))) s.compactor) := by
    rw [shared_call (w := s.world), hview]
    refine .reserve (some t) (newAddr s.world seg) key value
      (h.live.new_vacant hadm hseg hroom) (fun u => ?_) rfl rfl rfl ?_
    · rcases u with _ | u
      · exact (Option.some_ne_none _).symm
      · exact hfresh u
    · exact Function.update_eq_self_iff.mpr hret.symm
  refine sane_call hadm h (effect_insert h.live hseg hroom hlock key value) hstep ?_
    (fun a ha => Or.inr ?_) unlogged seen
  · refine ⟨by simp, fun key' value' a hput hpc => ?_, by simp [retiredBy], by simp⟩
    obtain rfl := Pc.install.inj hpc
    obtain ⟨rfl, rfl⟩ := Call.put.inj (hcall.symm.trans hput)
    rw [hview, Function.update_self]
  · obtain rfl := Option.some.inj ha
    exact ⟨seg, _, rfl, hseg, hroom, hlock⟩

theorem isSlot_of_lookup (h : Live o (fun _ _ => True) w) {k : K} {a : UInt64}
    (ha : w.map.lookup k = some a) : IsSlot o a := by
  obtain ⟨v, hv⟩ := h.owns k a ha
  exact isSlot_of_view hv

theorem effect_map (h : Live o (fun _ _ => True) w) (m : Map K) :
    Effect o locks w { w with map := m } :=
  effect_quiet h h.mgr (Reassigned.refl h.mgr.toRegistered) rfl rfl h.wal

theorem sane_install (hadm : sys.o.Admissible K) (h : Sane sys s) {a : UInt64} {key : K}
    {value : Bytes} (hcall : sys.calls t = .put key value) (hpc : s.pcs t = .install a)
    (unlogged : List (Fin n × Binding K UInt64)) (seen : Fin n → List (Option Bytes)) :
    Sane sys { s with
      world := { s.world with map := s.world.map.insert key a }
      pcs := Function.update s.pcs t (.log a (s.world.map.lookup key))
      content := Function.update s.content key (some value)
      unlogged := unlogged, seen := seen } := by
  have hcell := (h.calls t).slot key value a hcall hpc
  have hstep : Step (some (key, some value)) (shared sys.o s.world s.pcs s.compactor)
      (shared sys.o { s.world with map := s.world.map.insert key a }
        (Function.update s.pcs t (.log a (s.world.map.lookup key))) s.compactor) := by
    rw [shared_call (w := s.world)]
    refine .publish (some t) a key value ?_ hcell (entries_insert _ _ _) rfl rfl rfl
    simp only [shared, hpc, reservedBy]
  refine sane_call hadm h (effect_map h.live _) hstep ?_ (by simp [reservedBy]) unlogged seen
  exact callOk_of_static _ (by simp) (by simp) (fun b hb => isSlot_of_lookup h.live hb) (by simp)

theorem sane_erase (hadm : sys.o.Admissible K) (h : Sane sys s) {a : UInt64} {key : K}
    (hpc : s.pcs t = .erase) (ha : s.world.map.lookup key = some a)
    (unlogged : List (Fin n × Binding K UInt64)) (seen : Fin n → List (Option Bytes)) :
    Sane sys { s with
      world := { s.world with map := s.world.map.erase key }
      pcs := Function.update s.pcs t (.logErase a)
      content := Function.update s.content key none
      unlogged := unlogged, seen := seen } := by
  have hstep : Step (some (key, none)) (shared sys.o s.world s.pcs s.compactor)
      (shared sys.o { s.world with map := s.world.map.erase key }
        (Function.update s.pcs t (.logErase a)) s.compactor) := by
    rw [shared_call (w := s.world)]
    refine .withdraw (some t) key (entries_erase _ _) rfl ?_ ?_
    · refine Function.update_eq_self_iff.mpr ?_
      simp only [shared, hpc, reservedBy]
    · rw [show retiredBy (.logErase a) = (shared sys.o s.world s.pcs s.compactor).ix key from
        ha.symm]
  refine sane_call hadm h (effect_map h.live _) hstep ?_ (by simp [reservedBy]) unlogged seen
  refine callOk_of_static _ (by simp) (by simp) (fun b hb => ?_) (by simp)
  obtain rfl := Option.some.inj hb
  exact isSlot_of_lookup h.live ha

theorem sane_logged (hadm : sys.o.Admissible K) (h : Sane sys s) (rec : WalRecord K)
    (hreserved : reservedBy pc' = reservedBy (s.pcs t))
    (hretired : retiredBy pc' = retiredBy (s.pcs t))
    (hpc : ∀ w : World K, CallOk sys.o w (sys.calls t) pc')
    (unlogged : List (Fin n × Binding K UInt64)) (seen : Fin n → List (Option Bytes)) :
    Sane sys { s with
      world := (run (appendWal sys.o rec) s.world).state
      pcs := Function.update s.pcs t pc', unlogged := unlogged, seen := seen } := by
  obtain ⟨-, hlog, hwal⟩ := run_appendWal_ok h.live.wal rec
  refine sane_quiet hadm h _ hlog.map hlog.images hlog.segs ?_ ?_ hwal hreserved hretired (hpc _)
    unlogged seen
  · rw [hlog.mgr]
    exact h.live.mgr
  · rw [hlog.mgr]
    exact Reassigned.refl h.live.mgr.toRegistered

def nextSlot (o : Options) (w : World K) (seg : ℕ) : Option UInt64 :=
  if (w.segs seg).appendCursor < o.totalSlots then some (newAddr w seg) else none

def callWrites (o : Options) (w : World K) : Call K → Pc → Option UInt64
  | .put _ _, .insert seg _ => nextSlot o w seg
  | _, _ => none

def afterCall (sys : System K n) (s : State K n) (t : Fin n) (r : Pc × World K)
    (unlogged : List (Fin n × Binding K UInt64)) (seen : Fin n → List (Option Bytes)) :
    State K n :=
  { s with
    world := r.2
    pcs := Function.update s.pcs t r.1
    content := contentAfter s.content (sys.calls t) (s.pcs t)
    unlogged := unlogged
    seen := seen }

variable {r : Pc × World K} {unlogged : List (Fin n × Binding K UInt64)}
  {seen : Fin n → List (Option Bytes)}

/-! The sections of a call, by what they do. -/

/-- The call holds no slot and is not about to change the map. -/
def Plain : Pc → Bool
  | .begin => true
  | .active _ => true
  | .insert _ _ => true
  | .mark _ => true
  | .lookup => true
  | .locate _ => true
  | .read _ => true
  | _ => false

theorem held_of_plain {pc : Pc} (h : Plain pc = true) :
    reservedBy pc = none ∧ retiredBy pc = none := by
  cases pc <;> first | exact ⟨rfl, rfl⟩ | cases h

theorem held_of_unburdened {pc : Pc} (h : Unburdened pc = true) :
    reservedBy pc = none ∧ retiredBy pc = none := by
  cases pc <;> first | exact ⟨rfl, rfl⟩ | cases h

theorem contentAfter_plain {K : Type} [DecidableEq K] {pc : Pc} (h : Plain pc = true)
    (content : K → Option Bytes) (call : Call K) : contentAfter content call pc = content := by
  cases pc <;> first | (cases call <;> rfl) | cases h

def afterLog : Option UInt64 → Pc
  | some old => .release old
  | none => .done .ok []

/-- What the section at a point does to the world, and the next point. -/
inductive Section (o : Options) (locks : ℕ → Bool) (w : World K) :
    Call K → Pc → Pc → World K → Prop
  | quiet {call : Call K} {pc pc' : Pc} (hpc : Plain pc = true) (hpc' : Unburdened pc' = true) :
      Section o locks w call pc pc' w
  | manage {key : K} {value : Bytes} {pc pc' : Pc} {mgr : SegmentManager}
      (hpc : Plain pc = true)
      (hpc' : Unburdened pc' = true ∨
        ∃ seg again, pc' = .insert seg again ∧ seg < o.segmentCount)
      (hmgr : ManagerOk o mgr) (hre : Reassigned w.mgr mgr) :
      Section o locks w (.put key value) pc pc' { w with mgr := mgr }
  | insert {key : K} {value : Bytes} {seg : ℕ} {again : Bool} (hseg : seg < o.segmentCount)
      (hroom : (w.segs seg).appendCursor < o.totalSlots) (hlock : locks seg = false) :
      Section o locks w (.put key value) (.insert seg again) (.install (newAddr w seg))
        (afterInsert o w seg (toBytes key) value)
  | install {key : K} {value : Bytes} {a : UInt64} :
      Section o locks w (.put key value) (.install a) (.log a (w.map.lookup key))
        { w with map := w.map.insert key a }
  | logPut {key : K} {value : Bytes} {a : UInt64} {old : Option UInt64} :
      Section o locks w (.put key value) (.log a old) (afterLog old)
        (run (appendWal o (putRecord key a old)) w).state
  | release {key : K} {value : Bytes} {old : UInt64} (hlock : locks (getSegmentId old) = false) :
      Section o locks w (.put key value) (.release old) (.done .ok [])
        (run (freeSlot o old) w).state
  | miss {key : K} (hlookup : w.map.lookup key = none) :
      Section o locks w (.delete key) .erase (.done .notFound []) w
  | erase {key : K} {old : UInt64} (hlookup : w.map.lookup key = some old) :
      Section o locks w (.delete key) .erase (.logErase old) { w with map := w.map.erase key }
  | logErase {key : K} {old : UInt64} :
      Section o locks w (.delete key) (.logErase old) (.releaseErased old)
        (run (appendWal o (deleteRecord key old)) w).state
  | releaseErased {key : K} {old : UInt64} (hlock : locks (getSegmentId old) = false) :
      Section o locks w (.delete key) (.releaseErased old) (.done .ok [])
        (run (freeSlot o old) w).state

theorem putStep_section {key : K} {value : Bytes} {pc : Pc} (hadm : o.Admissible K)
    (h : Live o (fun _ _ => True) w) (hok : CallOk o w (.put key value) pc)
    (hr : callStep o locks w (.put key value) pc = some r) :
    Section o locks w (.put key value) pc r.1 r.2 := by
  cases pc with
  | begin =>
    simp only [callStep] at hr
    split at hr <;> cases hr
    · exact .quiet rfl rfl
    · exact .quiet rfl rfl
  | active again =>
    obtain ⟨m', hstate, -, hmgr, hre, hmem⟩ := getActiveSegment_spec h.mgr
    simp only [callStep, hstate] at hr
    split at hr <;> cases hr
    · exact .manage rfl (Or.inl rfl) hmgr hre
    · rename_i seg hseg
      refine .manage rfl (Or.inr ⟨seg, again, rfl, ?_⟩) hmgr hre
      exact hmem _ hseg
  | insert seg again =>
    have hseg := hok.seg seg again rfl
    simp only [callStep] at hr
    split at hr
    · cases hr
    rename_i hlock
    by_cases hroom : (w.segs seg).appendCursor < o.totalSlots
    · obtain ⟨hval, hstate⟩ := run_insert (toBytes key) value hadm.slots (h.segs seg hseg) hroom
      simp only [hval, hstate, reduceCtorEq, false_and, if_false, ne_eq, not_true_eq_false] at hr
      cases hr
      exact .insert hseg hroom (by simpa using hlock)
    · obtain ⟨hval, hstate, -⟩ := run_insert_full (toBytes key) value hadm.slots
        (h.segs seg hseg) hroom
      simp only [hval, hstate, true_and, ne_eq, reduceCtorEq, not_false_eq_true, if_true] at hr
      split at hr <;> cases hr
      · exact .quiet rfl rfl
      · exact .quiet rfl rfl
  | mark seg =>
    cases hr
    exact .manage rfl (Or.inl rfl) (markSegmentFull_ok h.mgr seg)
      (markSegmentFullInternal_reassigned h.mgr.toRegistered seg)
  | install a =>
    cases hr
    exact .install
  | log a old =>
    obtain ⟨hval, -, -⟩ := run_appendWal_ok (o := o) h.wal (putRecord key a old)
    simp only [callStep, hval, ne_eq, not_true_eq_false, if_false] at hr
    split at hr <;> cases hr
    · exact .logPut
    · exact .logPut
  | revert a old st => exact (hok.appends.1 a old st rfl).elim
  | discard a st => exact (hok.appends.2.1 a st rfl).elim
  | release old =>
    simp only [callStep] at hr
    split at hr <;> cases hr
    rename_i hlock
    exact .release (by simpa using hlock)
  | _ => simp [callStep] at hr

theorem deleteStep_section {key : K} {pc : Pc} (h : Live o (fun _ _ => True) w)
    (hok : CallOk o w (.delete key) pc) (hr : callStep o locks w (.delete key) pc = some r) :
    Section o locks w (.delete key) pc r.1 r.2 := by
  cases pc with
  | begin =>
    cases hr
    exact .quiet rfl rfl
  | erase =>
    simp only [callStep] at hr
    cases hlookup : w.map.lookup key with
    | none =>
      have hworld : (run (eraseKey key) w).state = w := by
        show ({ w with map := w.map.erase key } : World K) = w
        rw [erase_of_lookup_none hlookup]
      rw [show (run (eraseKey key) w).val = none from hlookup, hworld] at hr
      cases hr
      exact .miss hlookup
    | some a =>
      rw [show (run (eraseKey key) w).val = some a from hlookup] at hr
      cases hr
      exact .erase hlookup
  | logErase old =>
    obtain ⟨hval, -, -⟩ := run_appendWal_ok (o := o) h.wal (deleteRecord key old)
    simp only [callStep, hval, ne_eq, not_true_eq_false, if_false] at hr
    cases hr
    exact .logErase
  | restore a st => exact (hok.appends.2.2 a st rfl).elim
  | releaseErased old =>
    simp only [callStep] at hr
    split at hr <;> cases hr
    rename_i hlock
    exact .releaseErased (by simpa using hlock)
  | _ => simp [callStep] at hr

theorem getStep_section {key : K} {size : ℕ} {pc : Pc}
    (hr : callStep o locks w (.get key size) pc = some r) :
    Section o locks w (.get key size) pc r.1 r.2 := by
  cases pc with
  | begin =>
    simp only [callStep] at hr
    split at hr <;> cases hr <;> exact .quiet rfl rfl
  | lookup =>
    simp only [callStep] at hr
    split at hr
    · cases hr
      exact .quiet rfl rfl
    · split at hr <;> cases hr <;> exact .quiet rfl rfl
  | locate enc =>
    simp only [callStep] at hr
    split at hr <;> cases hr <;> exact .quiet rfl rfl
  | read enc =>
    simp only [callStep] at hr
    split at hr <;> cases hr
    exact .quiet rfl rfl
  | _ => simp [callStep] at hr

theorem get_stays {key : K} {size : ℕ} {pc : Pc}
    (hr : callStep o locks w (.get key size) pc = some r) :
    r.2 = w ∧ reservedBy pc = none ∧ retiredBy pc = none ∧ reservedBy r.1 = none ∧
      retiredBy r.1 = none ∧ ∀ w' : World K, ∀ call, CallOk o w' call r.1 := by
  have hsection := getStep_section hr
  obtain ⟨pc', w'⟩ := r
  cases hsection with
  | quiet hplain hpc' =>
    obtain ⟨hres, hret⟩ := held_of_plain hplain
    obtain ⟨hres', hret'⟩ := held_of_unburdened hpc'
    exact ⟨rfl, hres, hret, hres', hret', fun _ _ => callOk_unburdened _ hpc'⟩

theorem callStep_section (hadm : sys.o.Admissible K) (h : Sane sys s)
    (hr : callStep sys.o s.compactor.locks s.world (sys.calls t) (s.pcs t) = some r) :
    Section sys.o s.compactor.locks s.world (sys.calls t) (s.pcs t) r.1 r.2 := by
  have hok := h.calls t
  cases hcall : sys.calls t with
  | put key value =>
    rw [hcall] at hr hok
    exact putStep_section hadm h.live hok hr
  | delete key =>
    rw [hcall] at hr hok
    exact deleteStep_section h.live hok hr
  | get key size =>
    rw [hcall] at hr
    exact getStep_section hr

theorem sane_callStep (hadm : sys.o.Admissible K) (h : Sane sys s)
    (hfresh : ∀ a, callWrites sys.o s.world (sys.calls t) (s.pcs t) = some a →
      ∀ u, retiredBy (s.pcs u) ≠ some a)
    (hr : callStep sys.o s.compactor.locks s.world (sys.calls t) (s.pcs t) = some r) :
    Sane sys (afterCall sys s t r unlogged seen) := by
  have hsection := callStep_section hadm h hr
  have hok := h.calls t
  obtain ⟨pc', w'⟩ := r
  unfold afterCall
  generalize hcall : sys.calls t = call at hsection hfresh ⊢
  generalize hpc : s.pcs t = pc at hsection hfresh hok ⊢
  cases hsection with
  | quiet hplain hpc' =>
    obtain ⟨hres, hret⟩ := held_of_plain hplain
    obtain ⟨hres', hret'⟩ := held_of_unburdened hpc'
    rw [contentAfter_plain hplain]
    exact sane_stay hadm h (by rw [hpc, hres, hres']) (by rw [hpc, hret, hret'])
      (callOk_unburdened _ hpc') _ _
  | manage hplain hpc' hmgr hre =>
    obtain ⟨hres, hret⟩ := held_of_plain hplain
    rw [contentAfter_plain hplain]
    rcases hpc' with hpc' | ⟨seg, again, rfl, hseg⟩
    · obtain ⟨hres', hret'⟩ := held_of_unburdened hpc'
      exact sane_manager hadm h hmgr hre (by rw [hpc, hres, hres']) (by rw [hpc, hret, hret'])
        (callOk_unburdened _ hpc') _ _
    · refine sane_manager hadm h hmgr hre (by rw [hpc, hres]; rfl) (by rw [hpc, hret]; rfl)
        (callOk_of_static _ (fun seg' again' hinsert => ?_) (by simp) (by simp [retiredBy])
          (by simp)) _ _
      obtain ⟨rfl, -⟩ := Pc.insert.inj hinsert
      exact hseg
  | insert hseg hroom hlock =>
    exact sane_insert hadm h hcall hseg hroom hlock (hfresh _ (if_pos hroom)) (by rw [hpc]; rfl)
      _ _
  | install => exact sane_install hadm h hcall hpc _ _
  | @logPut _ _ _ old =>
    cases old with
    | some old =>
      refine sane_logged hadm h _ (by rw [hpc]; rfl) (by rw [hpc]; rfl) (fun w =>
        callOk_of_static _ (by simp) (by simp) (fun b hb => ?_) (by simp)) _ _
      exact hok.retired b hb
    | none =>
      exact sane_logged hadm h _ (by rw [hpc]; rfl) (by rw [hpc]; rfl) (fun w =>
        callOk_unburdened _ rfl) _ _
  | release hlock => exact sane_release hadm h (by rw [hpc]; rfl) hlock (by rw [hpc]; rfl) _ _ _
  | @miss key hlookup =>
    have hcontent : Function.update s.content key none = s.content := by
      refine Function.update_eq_self_iff.mpr ?_
      rw [← h.value_eq]
      exact (content_none (show entries s.world.map key = none from hlookup)).symm
    rw [contentAfter, hcontent]
    exact sane_stay hadm h (by rw [hpc]; rfl) (by rw [hpc]; rfl) (callOk_unburdened _ rfl) _ _
  | erase hlookup => exact sane_erase hadm h hpc hlookup _ _
  | logErase =>
    refine sane_logged hadm h _ (by rw [hpc]; rfl) (by rw [hpc]; rfl) (fun w =>
      callOk_of_static _ (by simp) (by simp) (fun b hb => ?_) (by simp)) _ _
    exact hok.retired b hb
  | releaseErased hlock =>
    exact sane_release hadm h (by rw [hpc]; rfl) hlock (by rw [hpc]; rfl) _ _ _

end Calls

end ParaKV.Concurrent.Slots
