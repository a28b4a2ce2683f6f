/- GID: ParaKV/Concurrent/InsertIfAbsent
   source: parakv/core/kvcache_storage/index_kvcache_storage_backend.cc, parakv/core/index/index.cc
   digest: Interleavings of writes that must not overwrite, on one key. -/

import ParaKV.Concurrent.Backend
import ParaKV.Index.OutOfSpace

/-!
A `Put` with `overwrite = false` probes the index and writes to it afterwards. Nothing keeps the
key absent in between.
-/

set_option autoImplicit false

namespace ParaKV.Concurrent.InsertIfAbsent

open Lib.StepRun Lib.Interleaving Index Index.Key Index.Operations Index.Durability Index.Ownership
open Index.Histories Index.OutOfSpace Segment.FileSpec Segment.ManagerSpec Core.State
open Storage.Backend Storage.Backend.Indexed Storage.Simulation Storage.Restart Storage.Tracking
open Concurrent.Backend

/-! The calls: the probe, the map update, the append to the log, the cache. -/

structure Write where
  value : Bytes
  metadata : Bytes
  opts : WriteOptions

inductive Pc
  | begin
  | write (k : Key128)
  | log (k : Key128) (newEnc : UInt64) (old : Option UInt64)
  | track (k : Key128)
  | done (result : WriteResult)
  deriving DecidableEq

/-- One operation of a `Put`. The slot is written in the step that updates the map: before that
nothing refers to it. -/
def callStep (u : Setup) (key : Bytes) (c : Write) (s : Shared) : Pc → Option (Pc × Shared)
  | .begin =>
    match Key128.fromString key with
    | none => some (.done ⟨.invalidArgument, invalidKey⟩, s)
    | some k =>
      let r := run (probeExisting u.backend u.index k c.opts) s.world
      match r.val with
      | some refusal => some (.done refusal, ⟨r.state, s.cache⟩)
      | none => some (.write k, ⟨r.state, s.cache⟩)
  | .write k =>
    match encodePayload u.backend c.value c.metadata with
    | .error (code, err) => some (.done ⟨code, err⟩, s)
    | .ok payload =>
      if payload.length ≠ u.index.segmentConfig.valueSize then
        some (.done ⟨toBackendCode .invalidArgument, "index put failed"⟩, s)
      else
        let r := run (writeToSegment u.index k payload) s.world
        if r.val.1 ≠ .ok then
          some (.done ⟨toBackendCode r.val.1, "index put failed"⟩, ⟨r.state, s.cache⟩)
        else
          let r' := run (emplace k r.val.2) r.state
          some (.log k r.val.2 r'.val, ⟨r'.state, s.cache⟩)
  | .log k newEnc old =>
    let r := run (appendWal u.index (putRecord k newEnc old)) s.world
    if r.val ≠ .ok then
      some (.done ⟨toBackendCode r.val, "index put failed"⟩,
        ⟨(run (rollbackPut u.index k newEnc old) r.state).state, s.cache⟩)
    else some (.track k, ⟨(run (releaseOld u.index old) r.state).state, s.cache⟩)
  | .track k =>
    let inserted := u.lfu.insert k s.cache
    some (.done ⟨.ok, ""⟩, ⟨(run (evict u.index inserted.2) s.world).state, inserted.1⟩)
  | .done _ => none

abbrev State (n : ℕ) : Type := Config (Fin n) Shared Pc

def next {n : ℕ} (u : Setup) (key : Bytes) (calls : Fin n → Write) (t : Fin n) :
    Shared → Pc → Option (Pc × Shared) :=
  callStep u key (calls t)

def step {n : ℕ} (u : Setup) (key : Bytes) (calls : Fin n → Write) :
    State n → Fin n → Option (State n) :=
  turn (next u key calls)

variable {n : ℕ} {u : Setup} {key : Bytes} {k : Key128} {c : Write} {calls : Fin n → Write}
variable {s s' : Shared} {g g' : State n}

/-! A call that runs alone is the call of the sequential backend. -/

/-- Alone, the call has the result and the effect of the sequential `Put`. -/
def Sequential (u : Setup) (key : Bytes) (c : Write) (s : Shared) : Prop :=
  ∃ result s', Alone (callStep u key c) Pc.done s .begin result s' ∧
    s.server.serve u.backend u.hash u.lfu (.put key c.value c.metadata c.opts) =
      (.wrote result, s'.server)

theorem sequential_write {payload : Bytes} (hkey : Key128.fromString key = some k)
    (hprobe : (run (probeExisting u.backend u.index k c.opts) s.world).val = none)
    (hpayload : encodePayload u.backend c.value c.metadata = .ok payload) :
    Sequential u key c s := by
  have hstate := probeExisting_state (b := u.backend) (o := u.index) k c.opts s.world
  have hprobed : callStep u key c s .begin = some (.write k, s) := by
    simp only [callStep, hkey, hprobe, hstate]
  by_cases hlength : payload.length = u.index.segmentConfig.valueSize
  · by_cases hval : (run (writeToSegment u.index k payload) s.world).val.1 = .ok
    · set r := run (writeToSegment u.index k payload) s.world with hr
      set r' := run (emplace k r.val.2) r.state with hr'
      have hwritten : callStep u key c s (.write k) =
          some (.log k r.val.2 r'.val, ⟨r'.state, s.cache⟩) := by
        simp [callStep, hpayload, hlength, ← hr, hval, ← hr']
      by_cases hlogged : (run (appendWal u.index (putRecord k r.val.2 r'.val)) r'.state).val = .ok
      · have hfreed : callStep u key c ⟨r'.state, s.cache⟩ (.log k r.val.2 r'.val) =
            some (.track k, ⟨(run (releaseOld u.index r'.val) (run (appendWal u.index
              (putRecord k r.val.2 r'.val)) r'.state).state).state, s.cache⟩) := by
          simp [callStep, hlogged]
        refine ⟨_, _, .next hprobed (.next hwritten (.next hfreed (.last rfl))), ?_⟩
        simp [Shared.server, Server.serve, u.indexOptions_eq, Indexed.put, hkey, hprobe, hstate,
          hpayload, Operations.put, hlength, ← hr, hval, installPut, ← hr', hlogged, lfuInsert]
      · refine ⟨_, _, .next hprobed (.next hwritten (.last (by
          simp only [callStep, ne_eq, hlogged, not_false_eq_true, if_true]
          rfl))), ?_⟩
        simp [Shared.server, Server.serve, u.indexOptions_eq, Indexed.put, hkey, hprobe, hstate,
          hpayload, Operations.put, hlength, ← hr, hval, installPut, ← hr', hlogged]
    · refine ⟨_, _, .next hprobed (.last (by
        simp only [callStep, hpayload, hlength, ne_eq, not_true_eq_false, if_false, hval,
          not_false_eq_true, if_true]
        rfl)), ?_⟩
      simp [Shared.server, Server.serve, u.indexOptions_eq, Indexed.put, hkey, hprobe, hstate,
        hpayload, Operations.put, hlength, hval]
  · refine ⟨_, s, .next hprobed (.last (by
      simp only [callStep, hpayload, ne_eq, hlength, not_false_eq_true, if_true]
      rfl)), ?_⟩
    simp [Shared.server, Server.serve, u.indexOptions_eq, Indexed.put, hkey, hprobe, hstate,
      hpayload, Operations.put, hlength]

theorem sequential_put (u : Setup) (key : Bytes) (c : Write) (s : Shared) :
    Sequential u key c s := by
  cases hkey : Key128.fromString key with
  | none =>
    refine ⟨_, s, .last (by simp only [callStep, hkey]; rfl), ?_⟩
    simp [Shared.server, Server.serve, Indexed.put, hkey]
  | some k =>
    have hstate := probeExisting_state (b := u.backend) (o := u.index) k c.opts s.world
    cases hprobe : (run (probeExisting u.backend u.index k c.opts) s.world).val with
    | some refusal =>
      refine ⟨_, s, .last (by simp only [callStep, hkey, hprobe, hstate]; rfl), ?_⟩
      simp [Shared.server, Server.serve, u.indexOptions_eq, Indexed.put, hkey, hprobe, hstate]
    | none =>
      cases hpayload : encodePayload u.backend c.value c.metadata with
      | error e =>
        obtain ⟨code, err⟩ := e
        have hprobed : callStep u key c s .begin = some (.write k, s) := by
          simp only [callStep, hkey, hprobe, hstate]
        refine ⟨_, s, .next hprobed (.last (by simp only [callStep, hpayload]; rfl)), ?_⟩
        simp [Shared.server, Server.serve, u.indexOptions_eq, Indexed.put, hkey, hprobe, hstate,
          hpayload]
      | ok payload => exact sequential_write hkey hprobe hpayload

/-- A call that no other call interrupts has the result and the effect of the sequential `Put`. -/
theorem perform_put {t : Fin n} (hbegin : g.pcs t = .begin) :
    ∃ m result s', perform (step u key calls) g (List.replicate m t) =
        some ⟨s', Function.update g.pcs t (.done result)⟩ ∧
      g.shared.server.serve u.backend u.hash u.lfu
        (.put key (calls t).value (calls t).metadata (calls t).opts) =
          (.wrote result, s'.server) := by
  obtain ⟨result, s', halone, hserve⟩ := sequential_put u key (calls t) g.shared
  have hnext : Alone (next u key calls t) Pc.done g.shared .begin result s' := halone
  obtain ⟨m, hm⟩ := hnext.perform rfl hbegin
  exact ⟨m, result, s', hm, hserve⟩

/-! The operations on a sound store. -/

theorem Running.standing {o : ParaKV.Core.State.Options} {w : World Key128} (h : Running o w)
    (hclassified : Classified w.mgr) : Standing o w :=
  ⟨⟨h.live.mgr, hclassified⟩, fun id hid => (h.live.segs id hid).isOpen, h.live.wal⟩

theorem run_probe (hadm : u.index.Admissible Key128) (h : Sound u s) {opts : WriteOptions}
    (hopts : opts.overwrite = false) :
    (run (probeExisting u.backend u.index k opts) s.world).val =
      if value u.index s.world k = none then none
      else some ⟨.alreadyExists, "key already exists"⟩ := by
  have hsize : u.index.segmentConfig.valueSize = u.backend.slotValueSize.toNat := rfl
  have hget := run_get hadm h.running.live k
  rw [hsize] at hget
  cases hvalue : value u.index s.world k with
  | none =>
    rw [hvalue] at hget
    simp [probeExisting, hopts, hget]
  | some v =>
    rw [hvalue] at hget
    simp [probeExisting, hopts, hget]

theorem write_spec (key : Bytes) (hadm : u.index.Admissible Key128)
    (hvalid : ensureValidOptions u.backend = .ok) (h : Sound u s)
    (hclassified : Classified s.world.mgr) (hfits : Fits u.backend c.value c.metadata)
    (hroom : Undisturbed u.index s.world ∧ RoomInFront u.index s.world)
    (habsent : value u.index s.world k = none) :
    ∃ newEnc w', callStep u key c s (.write k) = some (.log k newEnc none, ⟨w', s.cache⟩) ∧
      Running u.index w' ∧
      value u.index w' k = some (payload u.backend c.value c.metadata) := by
  have hencode := encodePayload_eq hvalid hfits
  have hlength : (payload u.backend c.value c.metadata).length =
      u.index.segmentConfig.valueSize := length_payload_eq hvalid hfits
  set bytes := payload u.backend c.value c.metadata
  have hval : (run (writeToSegment u.index k bytes) s.world).val.1 = .ok :=
    (writeToSegment_ok_iff (Running.standing h.running hclassified) hroom.1 k bytes).mpr hroom.2
  have hlookup : s.world.map.lookup k = none := by
    by_contra hsome
    obtain ⟨a, ha⟩ := Option.ne_none_iff_exists'.mp hsome
    obtain ⟨v, -, hv⟩ := h.running.live.owns.content_isSome ha
    exact absurd (habsent.symm.trans hv) (by simp)
  obtain ⟨mgr, -, -, hmgr, ⟨seg, hseg, -, hcursor, hwrote, hstate, -⟩ | ⟨hfull, -⟩⟩ :=
    writeToSegment_spec hadm h.running.live k bytes
  · refine ⟨newAddr s.world seg, installed u.index s.world mgr seg k bytes, ?_, ⟨?_, ?_⟩, ?_⟩
    · have hmap : (afterInsert u.index { s.world with mgr := mgr } seg (toBytes k) bytes).map =
          s.world.map := rfl
      simp [callStep, hencode, hlength, hwrote, hstate, emplace, newAddr, installed, hmap, hlookup]
    · exact live_installed hadm h.running.live hmgr hseg hcursor trivial
    · exact h.running.writer
    · rw [value_installed hadm h.running.live hseg hcursor, Function.update_self]
  · rcases hfull with hfull | hfull <;> rw [hfull] at hval <;> cases hval

theorem log_spec (key : Bytes) (k : Key128) (c : Write) (h : Sound u s) (newEnc : UInt64) :
    ∃ w', callStep u key c s (.log k newEnc none) = some (.track k, ⟨w', s.cache⟩) ∧
      Running u.index w' ∧ value u.index w' = value u.index s.world := by
  obtain ⟨hval, hlog, hwal⟩ := run_appendWal_ok (o := u.index) h.running.live.wal
    (putRecord k newEnc none)
  refine ⟨_, by simp [callStep, hval, releaseOld]; rfl, ⟨?_, ?_⟩, ?_⟩
  · exact h.running.live.logOnly hlog hwal
  · exact (appendWal_writer h.running.live.wal _).trans h.running.writer
  · simp only [value, hlog.map, view_congr hlog.images]

theorem evict_value (hadm : u.index.Admissible Key128) {keys : List Key128} (hk : k ∉ keys) :
    ∀ {w : World Key128}, Running u.index w →
      value u.index (run (evict u.index keys) w).state k = value u.index w k := by
  induction keys with
  | nil =>
    intro w _
    simp [evict]
  | cons j keys ih =>
    intro w h
    rw [List.mem_cons, not_or] at hk
    obtain ⟨hrunning, -⟩ := delete_keys hadm h j
    obtain ⟨-, -, hvalue⟩ := delete_spec hadm h.live j
    rw [run_evict_cons, ih hk.2 hrunning, hvalue, Function.update_of_ne hk.1]

theorem track_spec (key : Bytes) (k : Key128) (c : Write) (hadm : u.index.Admissible Key128)
    (h : Sound u s) :
    ∃ s', callStep u key c s (.track k) = some (.done ⟨.ok, ""⟩, s') ∧ Sound u s' ∧
      value u.index s'.world k = value u.index s.world k := by
  obtain ⟨hrunning, -⟩ := evict_keys hadm (u.lfu.insert k s.cache).2 h.running
  obtain ⟨hbounded, -, hnot, -⟩ := insert_evicts h.bounded k
  exact ⟨_, rfl, ⟨hrunning, hbounded⟩, evict_value hadm hnot h.running⟩

/-! One call writes, the others are refused. -/

def Pc.probed : Pc → Bool
  | .write _ => true
  | _ => false

/-- A call that is about to probe finds no other between its probe and its map update; one that
is about to write finds room, without an erase. -/
def Exclusive (u : Setup) (g : State n) (t : Fin n) : Prop :=
  (g.pcs t = .begin → ∀ t', (g.pcs t').probed = false) ∧
    ((g.pcs t).probed = true →
      Undisturbed u.index g.shared.world ∧ RoomInFront u.index g.shared.world)

instance (u : Setup) (g : State n) (t : Fin n) : Decidable (Exclusive u g t) :=
  inferInstanceAs (Decidable ((_ → _) ∧ (_ → _)))

def refused : WriteResult := ⟨.alreadyExists, "key already exists"⟩

/-- The call that wrote its value is past the map update. -/
inductive Winning (k : Key128) : Pc → Prop
  | log (newEnc : UInt64) : Winning k (.log k newEnc none)
  | track : Winning k (.track k)
  | done : Winning k (.done ⟨.ok, ""⟩)

/-- The key has no value and at most one call has probed, or the key has the value of one call and
every other call has yet to probe or was refused. -/
inductive Phase (u : Setup) (k : Key128) (calls : Fin n → Write) (g : State n) : Prop
  | vacant (hclassified : Classified g.shared.world.mgr)
      (hvalue : value u.index g.shared.world k = none)
      (hpcs : ∀ t, g.pcs t = .begin ∨ g.pcs t = .write k)
      (hone : ∀ t t', (g.pcs t).probed = true → (g.pcs t').probed = true → t = t')
  | taken (t : Fin n) (hvalue : value u.index g.shared.world k =
        some (payload u.backend (calls t).value (calls t).metadata))
      (hpc : Winning k (g.pcs t))
      (hothers : ∀ t', t' ≠ t → g.pcs t' = .begin ∨ g.pcs t' = .done refused)

section Steps

variable (hadm : u.index.Admissible Key128) (hvalid : ensureValidOptions u.backend = .ok)
variable (hkey : Key128.fromString key = some k) (hinsert : ∀ t, (calls t).opts.overwrite = false)
variable (hfits : ∀ t, Fits u.backend (calls t).value (calls t).metadata)

include hadm hkey hinsert in
theorem begin_spec (h : Sound u s) (t : Fin n) :
    next u key calls t s .begin =
      some (if value u.index s.world k = none then .write k else .done refused, s) := by
  have hstate := probeExisting_state (b := u.backend) (o := u.index) k (calls t).opts s.world
  have hprobe := run_probe (k := k) hadm h (hinsert t)
  split_ifs at hprobe ⊢ with hvalue
  · simp only [next, callStep, hkey, hprobe, hstate]
  · simp only [next, callStep, hkey, hprobe, hstate]
    rfl

include hadm hvalid hkey hinsert hfits in
theorem vacant_step {t : Fin n} (h : Sound u g.shared)
    (hclassified : Classified g.shared.world.mgr)
    (hvalue : value u.index g.shared.world k = none)
    (hpcs : ∀ t, g.pcs t = .begin ∨ g.pcs t = .write k)
    (hone : ∀ t t', (g.pcs t).probed = true → (g.pcs t').probed = true → t = t')
    (hguard : Exclusive u g t) (hstep : step u key calls g t = some g') :
    Sound u g'.shared ∧ Phase u k calls g' := by
  obtain ⟨pc, hcall, hpcs'⟩ := turn_eq_some hstep
  rcases hpcs t with hpc | hpc
  · rw [hpc, begin_spec hadm hkey hinsert h t, if_pos hvalue, Option.some.injEq,
      Prod.mk.injEq] at hcall
    obtain ⟨rfl, hshared⟩ := hcall
    rw [← hshared]
    refine ⟨h, .vacant (hshared ▸ hclassified) (hshared ▸ hvalue) (fun t₁ => ?_)
      fun t₁ t₂ h₁ h₂ => ?_⟩
    · by_cases heq : t₁ = t
      · exact Or.inr (by rw [hpcs', heq, Function.update_self])
      · rw [hpcs', Function.update_of_ne heq]
        exact hpcs t₁
    · have honly : ∀ t₁, (g'.pcs t₁).probed = true → t₁ = t := by
        intro t₁ hprobed
        by_contra hne
        rw [hpcs', Function.update_of_ne hne, hguard.1 hpc t₁] at hprobed
        cases hprobed
      rw [honly t₁ h₁, honly t₂ h₂]
  · have hroom := hguard.2 (by rw [hpc]; rfl)
    obtain ⟨newEnc, w', hwrite, hrunning, hwritten⟩ :=
      write_spec key hadm hvalid h hclassified (hfits t) hroom hvalue
    rw [hpc, next, hwrite, Option.some.injEq, Prod.mk.injEq] at hcall
    obtain ⟨rfl, hshared⟩ := hcall
    refine ⟨hshared ▸ ⟨hrunning, h.bounded⟩, .taken t (hshared ▸ hwritten) ?_ fun t₁ hne => ?_⟩
    · rw [hpcs', Function.update_self]
      exact .log newEnc
    · rw [hpcs', Function.update_of_ne hne]
      refine Or.inl ((hpcs t₁).resolve_right fun hprobed => hne ?_)
      exact hone t₁ t (by rw [hprobed]; rfl) (by rw [hpc]; rfl)

include hadm in
theorem winner_step {t : Fin n} (h : Sound u g.shared) (hpc : Winning k (g.pcs t))
    (hstep : step u key calls g t = some g') :
    Sound u g'.shared ∧ Winning k (g'.pcs t) ∧
      value u.index g'.shared.world k = value u.index g.shared.world k := by
  obtain ⟨pc, hcall, hpcs'⟩ := turn_eq_some hstep
  rw [hpcs', Function.update_self]
  rw [next] at hcall
  generalize g.pcs t = old at hpc hcall
  cases hpc with
  | log newEnc =>
    obtain ⟨w', hlog, hrunning, hvalue⟩ := log_spec key k (calls t) h newEnc
    rw [hlog, Option.some.injEq, Prod.mk.injEq] at hcall
    obtain ⟨rfl, hshared⟩ := hcall
    rw [← hshared]
    exact ⟨⟨hrunning, h.bounded⟩, .track, congrFun hvalue k⟩
  | track =>
    obtain ⟨s', htrack, hsound, hvalue⟩ := track_spec key k (calls t) hadm h
    rw [htrack, Option.some.injEq, Prod.mk.injEq] at hcall
    obtain ⟨rfl, hshared⟩ := hcall
    rw [← hshared]
    exact ⟨hsound, .done, hvalue⟩
  | done => cases hcall

include hadm hkey hinsert in
theorem loser_step {t : Fin n} (h : Sound u g.shared)
    (hvalue : value u.index g.shared.world k ≠ none)
    (hpc : g.pcs t = .begin ∨ g.pcs t = .done refused)
    (hstep : step u key calls g t = some g') :
    g'.shared = g.shared ∧ g'.pcs t = .done refused := by
  obtain ⟨pc, hcall, hpcs'⟩ := turn_eq_some hstep
  rw [hpcs', Function.update_self]
  rcases hpc with hpc | hpc
  · rw [hpc, begin_spec hadm hkey hinsert h t, if_neg hvalue, Option.some.injEq,
      Prod.mk.injEq] at hcall
    exact ⟨hcall.2.symm, hcall.1.symm⟩
  · rw [hpc] at hcall
    cases hcall

include hadm hvalid hkey hinsert hfits in
theorem phase_step {t : Fin n} (h : Sound u g.shared) (hphase : Phase u k calls g)
    (hguard : Exclusive u g t) (hstep : step u key calls g t = some g') :
    Sound u g'.shared ∧ Phase u k calls g' := by
  obtain ⟨pc, -, hpcs'⟩ := turn_eq_some hstep
  cases hphase with
  | vacant hclassified hvalue hpcs hone =>
    exact vacant_step hadm hvalid hkey hinsert hfits h hclassified hvalue hpcs hone hguard hstep
  | taken winner hvalue hpc hothers =>
    by_cases heq : t = winner
    · subst heq
      obtain ⟨hsound, hwinning, hkept⟩ := winner_step hadm h hpc hstep
      refine ⟨hsound, .taken t (hkept.trans hvalue) hwinning fun t₁ hne => ?_⟩
      rw [hpcs', Function.update_of_ne hne]
      exact hothers t₁ hne
    · obtain ⟨hshared, hrefused⟩ := loser_step hadm hkey hinsert h (by simp [hvalue])
        (hothers t heq) hstep
      refine ⟨hshared ▸ h, .taken winner (hshared ▸ hvalue) ?_ fun t₁ hne => ?_⟩
      · rw [hpcs', Function.update_of_ne (Ne.symm heq)]
        exact hpc
      · by_cases hat : t₁ = t
        · exact Or.inr (hat ▸ hrefused)
        · rw [hpcs', Function.update_of_ne hat]
          exact hothers t₁ hne

end Steps

theorem Phase.done {t : Fin n} {result : WriteResult} (h : Phase u k calls g)
    (hdone : g.pcs t = .done result) :
    result = refused ∨ result = ⟨.ok, ""⟩ ∧
      value u.index g.shared.world k =
        some (payload u.backend (calls t).value (calls t).metadata) ∧
      ∀ t', t' ≠ t → g.pcs t' = .begin ∨ g.pcs t' = .done refused := by
  cases h with
  | vacant hclassified hvalue hpcs hone =>
    rcases hpcs t with hpc | hpc <;> rw [hpc] at hdone <;> cases hdone
  | taken winner hvalue hpc hothers =>
    by_cases heq : t = winner
    · subst heq
      rw [hdone] at hpc
      cases hpc
      exact Or.inr ⟨rfl, hvalue, hothers⟩
    · rcases hothers t heq with hpc | hpc <;> rw [hpc] at hdone <;> cases hdone
      exact Or.inl rfl

/-- If no call probes while another is between its probe and its map update, and the writing call
finds room without an erase, then at most one call returns `kOk`, the index has the value of that
call, and every other call returns `kAlreadyExists`. -/
theorem insert_exclusive (u : Setup) (hadm : u.index.Admissible Key128)
    (hvalid : ensureValidOptions u.backend = .ok) {key : Bytes} {k : Key128}
    (hkey : Key128.fromString key = some k) (calls : Fin n → Write)
    (hinsert : ∀ t, (calls t).opts.overwrite = false)
    (hfits : ∀ t, Fits u.backend (calls t).value (calls t).metadata)
    {s : Shared} (hsound : Sound u s) (hclassified : Classified s.world.mgr)
    (habsent : k ∉ s.world.map.keys)
    {ts : List (Fin n)}
    (hrun : GuardedRun (step u key calls) (Exclusive u) (.initial s .begin) ts g)
    {t : Fin n} {result : WriteResult} (hdone : g.pcs t = .done result) :
    result.code = .alreadyExists ∨ result.code = .ok ∧
      (∃ bytes, encodePayload u.backend (calls t).value (calls t).metadata = .ok bytes ∧
        (run (Operations.get u.index k u.backend.slotValueSize.toNat) g.shared.world).val =
          (.ok, bytes)) ∧
      ∀ t' result', t' ≠ t → g.pcs t' = .done result' → result'.code = .alreadyExists := by
  have hnone : value u.index s.world k = none := by
    by_contra hsome
    exact habsent (hsound.running.mem_keys_iff.mpr hsome)
  have hphase : Sound u g.shared ∧ Phase u k calls g := by
    refine hrun.invariant (I := fun _ g => Sound u g.shared ∧ Phase u k calls g) ⟨hsound, ?_⟩ ?_
    · exact .vacant hclassified hnone (fun _ => Or.inl rfl) fun _ _ h => by cases h
    · exact fun _ _ _ _ h hguard hstep =>
        phase_step hadm hvalid hkey hinsert hfits h.1 h.2 hguard hstep
  rcases hphase.2.done hdone with rfl | ⟨rfl, hvalue, hothers⟩
  · exact Or.inl rfl
  · refine Or.inr ⟨rfl, ⟨_, encodePayload_eq hvalid (hfits t), ?_⟩, fun t' result' hne h' => ?_⟩
    · have hget := run_get hadm hphase.1.running.live k
      rw [hvalue] at hget
      exact hget
    · rcases hothers t' hne with hpc | hpc <;> rw [hpc] at h' <;> cases h'
      rfl

def twoWrites (t : Fin 2) : Write := ⟨[UInt8.ofNat t], [], {}⟩

def results (g : State n) : List Pc := List.ofFn g.pcs

/-- Both calls probe before one of them writes. -/
theorem both_inserted :
    (started oneKey).bind (fun s =>
      (perform (step oneKey (keyOf 1) twoWrites) (.initial s .begin) [0, 1, 0, 0, 0, 1, 1, 1]).map
        results) = some [.done ⟨.ok, ""⟩, .done ⟨.ok, ""⟩] := by
  decide +kernel

/-- The second call probes between the map update and the append of the first. -/
theorem insert_exclusive_second :
    ∃ s g, started oneKey = some s ∧ GuardedRun (step oneKey (keyOf 1) twoWrites)
        (Exclusive oneKey) (.initial s .begin) [0, 0, 1, 0, 0] g ∧
      g.pcs 0 = .done ⟨.ok, ""⟩ ∧ ∀ result, g.pcs 1 = .done result →
        result.code = .alreadyExists := by
  have hadm : oneKey.index.Admissible Key128 := ⟨rfl, by decide, by decide⟩
  have hperform : (started oneKey).bind (fun s =>
      if s.world.map.keys = ∅ ∧ Classified s.world.mgr then
        (performGuarded (step oneKey (keyOf 1) twoWrites) (Exclusive oneKey) (.initial s .begin)
          [0, 0, 1, 0, 0]).map results
      else none) =
      some [.done ⟨.ok, ""⟩, .done refused] := by
    decide +kernel
  obtain ⟨s, hs, hperform⟩ := Option.bind_eq_some_iff.mp hperform
  split_ifs at hperform with hfresh
  obtain ⟨g, hrun, hresults⟩ := exists_guardedRun hperform
  have hfirst : g.pcs 0 = .done ⟨.ok, ""⟩ := (List.cons.inj hresults).1
  have hkey : Key128.fromString (keyOf 1) = some ⟨0x0101010101010101, 0x0101010101010101⟩ := rfl
  refine ⟨s, g, hs, hrun, hfirst, fun result hdone => ?_⟩
  rcases insert_exclusive oneKey hadm (by decide) hkey twoWrites (fun _ => rfl) (by decide)
    (started_synced hadm hs).1 hfresh.2 (by simp [hfresh.1]) hrun hfirst with
    hrefused | ⟨-, -, hothers⟩
  · cases hrefused
  · exact hothers 1 result (by decide) hdone

end ParaKV.Concurrent.InsertIfAbsent
