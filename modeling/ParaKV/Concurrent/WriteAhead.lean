/- GID: ParaKV/Concurrent/WriteAhead
   source: parakv/core/index/index.cc, parakv/core/index/wal.h
   digest: What a Get has returned, against the contents that a restart after a crash recovers. -/

import ParaKV.Concurrent.Reading
import ParaKV.Concurrent.LogRuns

set_option autoImplicit false
set_option synthInstance.maxSize 512

namespace ParaKV.Concurrent.WriteAhead

open Lib.LogMap Lib.OwnedSlots Index.Key Index.Wal Index.Operations Index.Durability Index.Ownership
open Index.CrashSafety Segment Segment.FileSpec Core.State Concurrent.Machine Concurrent.Slots
open Concurrent.Reading Concurrent.Logging Concurrent.LogRuns

variable {K : Type} [DecidableEq K] [KeyType K] {n : ℕ}

/-- The points of a section at which the process can crash, with the files at each of them. -/
def callTrace (o : Options) (w : World K) : Call K → Pc → List (Event K)
  | .put key value, .insert seg _ => (run (File.insert o seg (toBytes key) value) w).trace
  | .put key _, .log newEnc old => (run (appendWal o (putRecord key newEnc old)) w).trace
  | .put _ _, .discard newEnc _ => (run (freeSlot o newEnc) w).trace
  | .put _ _, .release oldEnc => (run (freeSlot o oldEnc) w).trace
  | .delete key, .logErase oldEnc => (run (appendWal o (deleteRecord key oldEnc)) w).trace
  | .delete _, .releaseErased oldEnc => (run (freeSlot o oldEnc) w).trace
  | _, _ => []

/-- What the map update of a call makes of the contents of its key. -/
def effectOf : Call K → Option Bytes
  | .put _ value => some value
  | _ => none

def frees : Pc → Option UInt64
  | .release old => some old
  | .releaseErased old => some old
  | _ => none

theorem retiredBy_of_frees {pc : Pc} {a : UInt64} (h : frees pc = some a) :
    retiredBy pc = some a := by
  cases pc <;> cases h <;> rfl

theorem logs_of_frees {K : Type} {pc : Pc} {a : UInt64} (h : frees pc = some a) (call : Call K) :
    logs call pc = none := by
  cases pc <;> cases h <;> cases call <;> rfl

/-! What a section of a call does to the slots it holds and to the cells. -/

section Sections

variable {o : Options} {locks : ℕ → Bool} {w : World K} {call : Call K} {pc : Pc}
  {r : Pc × World K}

theorem callStep_unlinks (hr : callStep o locks w call pc = some r) {b : Binding K UInt64}
    (hb : updates w.map call pc = some b) :
    b.1 = call.key ∧ retiredBy r.1 = w.map.lookup call.key := by
  cases call with
  | put key value =>
    cases pc <;> cases hb
    cases hr
    exact ⟨rfl, rfl⟩
  | delete key =>
    cases pc with
    | erase =>
      simp only [updates] at hb
      split at hb
      · rename_i hsome
        cases hb
        simp only [callStep] at hr
        split at hr
        · rename_i hnone
          rw [show w.map.lookup key = none from hnone] at hsome
          cases hsome
        · rename_i a ha
          cases hr
          exact ⟨rfl, (show w.map.lookup key = some a from ha).symm⟩
      · cases hb
    | _ => cases hb
  | get key size => cases pc <;> cases hb

theorem callStep_freed (hr : callStep o locks w call pc = some r) {a : UInt64}
    (ha : frees pc = some a) : retiredBy r.1 = none := by
  cases pc <;> cases ha
  · cases call <;> simp only [callStep, reduceCtorEq] at hr
    split at hr <;> cases hr
    rfl
  · cases call <;> simp only [callStep, reduceCtorEq] at hr
    split at hr <;> cases hr
    rfl

theorem callStep_logs (hr : callStep o locks w call pc = some r) {a : UInt64}
    {old : Option UInt64} (hpc : r.1 = .log a old) : pc = .install a := by
  cases call with
  | put key value =>
    cases pc <;> simp only [callStep, reduceCtorEq] at hr
    all_goals repeat' split at hr
    all_goals cases hr
    all_goals cases hpc
    rfl
  | delete key =>
    cases pc <;> simp only [callStep, reduceCtorEq] at hr
    all_goals repeat' split at hr
    all_goals cases hr
    all_goals cases hpc
  | get key size =>
    cases pc <;> simp only [callStep, reduceCtorEq] at hr
    all_goals repeat' split at hr
    all_goals cases hr
    all_goals cases hpc

end Sections

variable {sys : System K n} {s s' : State K n} {t u : Fin n}

theorem callStep_view (hadm : sys.o.Admissible K) (h : Sane sys s) {r : Pc × World K}
    (hr : callStep sys.o s.compactor.locks s.world (sys.calls t) (s.pcs t) = some r)
    (a : UInt64) :
    view sys.o r.2.disk a = view sys.o s.world.disk a ∨
      callWrites sys.o s.world (sys.calls t) (s.pcs t) = some a ∨
      frees (s.pcs t) = some a ∧ view sys.o r.2.disk a = none := by
  rcases view_call hadm h hr a with hsame | hwrites | ⟨hput | herased, hnone⟩
  · exact Or.inl hsame
  · exact Or.inr (Or.inl hwrites)
  · refine Or.inr (Or.inr ⟨?_, hnone⟩)
    cases hcall : sys.calls t <;> cases hpc : s.pcs t <;> rw [hcall, hpc] at hput <;> cases hput
    rfl
  · exact Or.inr (Or.inr ⟨by rw [herased]; rfl, hnone⟩)

theorem callWrites_vacant (hadm : sys.o.Admissible K) (h : Sane sys s) {a : UInt64}
    (ha : callWrites sys.o s.world (sys.calls t) (s.pcs t) = some a) :
    view sys.o s.world.disk a = none ∧ ¬ Below sys.o s.world a := by
  cases hcall : sys.calls t with
  | put key value =>
    cases hpc : s.pcs t with
    | insert seg again =>
      have hseg := (h.calls t).seg seg again hpc
      simp only [hcall, hpc, callWrites, nextSlot] at ha
      split at ha
      · rename_i hroom
        obtain rfl := Option.some.inj ha
        refine ⟨h.live.new_vacant hadm hseg hroom, ?_⟩
        rintro ⟨seg', hseg', i, hi, heq⟩
        have hbound := (h.live.segs seg' hseg').bound
        obtain ⟨rfl, rfl⟩ := encodeSegmentSlot_inj (lt_of_lt_of_le hseg hadm.segments)
          (lt_of_lt_of_le hroom hadm.slots) (lt_of_lt_of_le hseg' hadm.segments)
          (lt_of_lt_of_le (lt_of_lt_of_le hi hbound) hadm.slots) heq
        exact lt_irrefl _ hi
      · cases ha
    | _ => simp [hcall, hpc, callWrites] at ha
  | delete key => simp [hcall, callWrites] at ha
  | get key size => simp [hcall, callWrites] at ha

/-! The entries a key had since its last record. -/

/-- The updates `us` of a key lead from the entry `x` to the entry `y`, and each call holds the
slot its update took out of the map. -/
def Linked (pcs : Fin n → Pc) (x : Option UInt64) :
    List (Fin n × Binding K UInt64) → Option UInt64 → Prop
  | [], y => x = y
  | p :: us, y => retiredBy (pcs p.1) = x ∧ Linked pcs p.2.2 us y

theorem Linked.congr {K : Type} {pcs pcs' : Fin n → Pc} {us : List (Fin n × Binding K UInt64)}
    (hpcs : ∀ p ∈ us, pcs' p.1 = pcs p.1) {x y : Option UInt64} (h : Linked pcs x us y) :
    Linked pcs' x us y := by
  induction us generalizing x with
  | nil => exact h
  | cons p us ih =>
    refine ⟨?_, ih (fun q hq => hpcs q (List.mem_cons_of_mem p hq)) h.2⟩
    rw [hpcs p List.mem_cons_self]
    exact h.1

theorem Linked.snoc {K : Type} {pcs : Fin n → Pc} {us : List (Fin n × Binding K UInt64)}
    {p : Fin n × Binding K UInt64} {x y : Option UInt64} (h : Linked pcs x us y)
    (hp : retiredBy (pcs p.1) = y) : Linked pcs x (us ++ [p]) p.2.2 := by
  induction us generalizing x with
  | nil =>
    obtain rfl : x = y := h
    exact ⟨hp, rfl⟩
  | cons q us ih => exact ⟨h.1, ih h.2⟩

theorem Linked.held {K : Type} {pcs : Fin n → Pc} {us : List (Fin n × Binding K UInt64)}
    {x y : Option UInt64} (h : Linked pcs x us y) {a : UInt64}
    (ha : x = some a ∨ ∃ p ∈ us, p.2.2 = some a) :
    y = some a ∨ ∃ p ∈ us, retiredBy (pcs p.1) = some a := by
  induction us generalizing x with
  | nil =>
    obtain rfl : x = y := h
    rcases ha with ha | ⟨p, hp, -⟩
    · exact Or.inl ha
    · cases hp
  | cons p us ih =>
    rcases ha with rfl | ⟨q, hq, hqa⟩
    · exact Or.inr ⟨p, List.mem_cons_self, h.1⟩
    · have hrest : p.2.2 = some a ∨ ∃ q ∈ us, q.2.2 = some a := by
        rcases List.mem_cons.mp hq with rfl | hq
        · exact Or.inl hqa
        · exact Or.inr ⟨q, hq, hqa⟩
      rcases ih h.2 hrest with hy | ⟨q, hq, hheld⟩
      · exact Or.inl hy
      · exact Or.inr ⟨q, List.mem_cons_of_mem p hq, hheld⟩

def unloggedOf (s : State K n) (k : K) : List (Fin n × Binding K UInt64) :=
  s.unlogged.filter (·.2.1 = k)

/-- The files hold `m`. From the entry of a key in `m` its unlogged updates lead to the live one,
and no slot on this way has been freed. -/
structure Ahead (sys : System K n) (s : State K n) (m : Map K) : Prop where
  journal : Journal sys s
  off : s.checkpointer = .off
  logged : Logged sys.o s.world m
  linked : ∀ k, Linked s.pcs (m.lookup k) (unloggedOf s k) (s.world.map.lookup k)
  retired : ∀ t a, retiredBy (s.pcs t) = some a →
    ∃ v, view sys.o s.world.disk a = some ((sys.calls t).key, v)
  once : ∀ t t' a, retiredBy (s.pcs t) = some a → retiredBy (s.pcs t') = some a → t = t'
  written : ∀ t key value a old, sys.calls t = .put key value → s.pcs t = .log a old →
    view sys.o s.world.disk a = some (key, value)

theorem pending_mem {K : Type} {sys : System K n} {s : State K n} (h : Pending sys s)
    {p : Fin n × Binding K UInt64} (hp : p ∈ s.unlogged) :
    ∃ rec, logs (sys.calls p.1) (s.pcs p.1) = some rec ∧ p.2 = binding rec := by
  have hmem : p ∈ s.unlogged.filter (·.1 = p.1) := List.mem_filter.mpr ⟨hp, by simp⟩
  rw [h p.1] at hmem
  cases hlogs : logs (sys.calls p.1) (s.pcs p.1) with
  | none =>
    rw [hlogs] at hmem
    cases hmem
  | some rec =>
    rw [hlogs] at hmem
    have heq : p = (p.1, binding rec) := by simpa using hmem
    exact ⟨rec, rfl, by rw [heq]⟩

theorem mem_pending {K : Type} {sys : System K n} {s : State K n} (h : Pending sys s)
    {rec : WalRecord K} (hlogs : logs (sys.calls t) (s.pcs t) = some rec) :
    (t, binding rec) ∈ s.unlogged := by
  have hmem : (t, binding rec) ∈ s.unlogged.filter (·.1 = t) := by
    rw [h t, hlogs]
    exact List.mem_singleton.mpr rfl
  exact (List.mem_filter.mp hmem).1

theorem pending_key {K : Type} {sys : System K n} {s : State K n} (h : Pending sys s)
    {p : Fin n × Binding K UInt64} (hp : p ∈ s.unlogged) :
    p.2.1 = (sys.calls p.1).key := by
  obtain ⟨rec, hlogs, heq⟩ := pending_mem h hp
  rw [heq]
  exact (logs_key hlogs).2

theorem pending_ne {K : Type} {sys : System K n} {s : State K n} (h : Pending sys s)
    (hlogs : logs (sys.calls t) (s.pcs t) = none) {p : Fin n × Binding K UInt64}
    (hp : p ∈ s.unlogged) : p.1 ≠ t := by
  rintro rfl
  obtain ⟨rec, hrec, -⟩ := pending_mem h hp
  rw [hlogs] at hrec
  cases hrec

section Invariant

variable {m : Map K}

theorem Ahead.held (h : Ahead sys s m) {k : K} {a : UInt64}
    (ha : m.lookup k = some a ∨ ∃ p ∈ s.unlogged, p.2 = (k, some a)) :
    s.world.map.lookup k = some a ∨
      ∃ p ∈ s.unlogged, p.2.1 = k ∧ retiredBy (s.pcs p.1) = some a := by
  have hchain : m.lookup k = some a ∨ ∃ p ∈ unloggedOf s k, p.2.2 = some a := by
    rcases ha with ha | ⟨p, hp, heq⟩
    · exact Or.inl ha
    · exact Or.inr ⟨p, List.mem_filter.mpr ⟨hp, by simp [heq]⟩, by rw [heq]⟩
  rcases (h.linked k).held hchain with hlive | ⟨p, hp, hret⟩
  · exact Or.inl hlive
  · obtain ⟨hmem, hkey⟩ := List.mem_filter.mp hp
    exact Or.inr ⟨p, hmem, by simpa using hkey, hret⟩

theorem Ahead.owns (h : Ahead sys s m) : Owns (entries m) (view sys.o s.world.disk) := by
  intro k a ha
  rcases h.held (Or.inl ha) with hlive | ⟨p, hp, hkey, hret⟩
  · exact h.journal.sane.live.owns k a hlive
  · obtain ⟨v, hv⟩ := h.retired p.1 a hret
    rw [← pending_key h.journal.pending hp, hkey] at hv
    exact ⟨v, hv⟩

theorem Ahead.not_freed (h : Ahead sys s m) {k : K} {a : UInt64}
    (ha : m.lookup k = some a ∨ ∃ p ∈ s.unlogged, p.2 = (k, some a)) :
    frees (s.pcs t) ≠ some a := by
  intro hfrees
  have hheld := retiredBy_of_frees hfrees
  rcases h.held ha with hlive | ⟨p, hp, -, hret⟩
  · exact h.journal.sane.ok.unlinked (some t) a k hheld hlive
  · exact pending_ne h.journal.pending (logs_of_frees hfrees _) hp (h.once p.1 t a hret hheld)

theorem Ahead.avoids (hadm : sys.o.Admissible K) (h : Ahead sys s m) :
    Avoids (entries m) fun a => callWrites sys.o s.world (sys.calls t) (s.pcs t) = some a ∨
      frees (s.pcs t) = some a := by
  rintro k a ha (hwrites | hfrees)
  · exact h.owns.not_vacant (callWrites_vacant hadm h.journal.sane hwrites).1 k ha
  · exact h.not_freed (Or.inl ha) hfrees

def loggedAfter (m : Map K) (call : Call K) (pc : Pc) : Map K :=
  match logs call pc with
  | none => m
  | some rec => write m (binding rec)

variable {r : Pc × World K}

theorem Ahead.cell (hadm : sys.o.Admissible K) (h : Ahead sys s m)
    (hr : callStep sys.o s.compactor.locks s.world (sys.calls t) (s.pcs t) = some r)
    {a : UInt64} {p : K × Bytes} (ha : view sys.o s.world.disk a = some p)
    (hfrees : frees (s.pcs t) ≠ some a) : view sys.o r.2.disk a = some p := by
  rcases callStep_view hadm h.journal.sane hr a with hsame | hwrites | ⟨hfree, -⟩
  · rw [hsame, ha]
  · rw [(callWrites_vacant hadm h.journal.sane hwrites).1] at ha
    cases ha
  · exact (hfrees hfree).elim

theorem retired_call (hadm : sys.o.Admissible K) (h : Ahead sys s m)
    (hr : callStep sys.o s.compactor.locks s.world (sys.calls t) (s.pcs t) = some r) (u : Fin n)
    (a : UInt64) (ha : retiredBy (Function.update s.pcs t r.1 u) = some a) :
    ∃ v, view sys.o r.2.disk a = some ((sys.calls u).key, v) := by
  by_cases hu : u = t
  · subst hu
    rw [Function.update_self] at ha
    have hfrees : frees (s.pcs u) ≠ some a := by
      intro hfrees
      rw [callStep_freed hr hfrees] at ha
      cases ha
    have hold : ∃ v, view sys.o s.world.disk a = some ((sys.calls u).key, v) := by
      rcases callStep_retired hr ha with hheld | hlookup
      · exact h.retired u a hheld
      · exact h.journal.sane.live.owns _ a hlookup
    obtain ⟨v, hv⟩ := hold
    exact ⟨v, h.cell hadm hr hv hfrees⟩
  · rw [Function.update_of_ne hu] at ha
    obtain ⟨v, hv⟩ := h.retired u a ha
    refine ⟨v, h.cell hadm hr hv fun hfrees => hu ?_⟩
    exact h.once u t a ha (retiredBy_of_frees hfrees)

theorem once_call (h : Ahead sys s m)
    (hr : callStep sys.o s.compactor.locks s.world (sys.calls t) (s.pcs t) = some r)
    (u u' : Fin n) (a : UInt64) (hu : retiredBy (Function.update s.pcs t r.1 u) = some a)
    (hu' : retiredBy (Function.update s.pcs t r.1 u') = some a) : u = u' := by
  -- another call cannot hold what `t` has just taken out of the map
  have hown : ∀ v, v ≠ t → retiredBy r.1 = some a → retiredBy (s.pcs v) = some a → False := by
    intro v hv hret hheld
    rcases callStep_retired hr hret with hold | hlookup
    · exact hv (h.once v t a hheld hold)
    · exact h.journal.sane.ok.unlinked (some v) a _ hheld hlookup
  by_cases htu : u = t
  · subst htu
    by_cases htu' : u' = u
    · exact htu'.symm
    · rw [Function.update_self] at hu
      rw [Function.update_of_ne htu'] at hu'
      exact (hown u' htu' hu hu').elim
  · rw [Function.update_of_ne htu] at hu
    by_cases htu' : u' = t
    · subst htu'
      rw [Function.update_self] at hu'
      exact (hown u htu hu' hu).elim
    · rw [Function.update_of_ne htu'] at hu'
      exact h.once u u' a hu hu'

theorem written_call (hadm : sys.o.Admissible K) (h : Ahead sys s m)
    (hr : callStep sys.o s.compactor.locks s.world (sys.calls t) (s.pcs t) = some r) (u : Fin n)
    (key : K) (value : Bytes) (a : UInt64) (old : Option UInt64)
    (hcall : sys.calls u = .put key value)
    (hpc : Function.update s.pcs t r.1 u = .log a old) :
    view sys.o r.2.disk a = some (key, value) := by
  by_cases hu : u = t
  · subst hu
    rw [Function.update_self] at hpc
    have hinstall := callStep_logs hr hpc
    refine h.cell hadm hr ((h.journal.sane.calls u).slot key value a hcall hinstall) ?_
    rw [hinstall]
    exact fun hfrees => by cases hfrees
  · rw [Function.update_of_ne hu] at hpc
    have hlogs : logs (sys.calls u) (s.pcs u) = some (putRecord key a old) := by
      rw [hcall, hpc]
      rfl
    refine h.cell hadm hr (h.written u key value a old hcall hpc) ?_
    refine h.not_freed (k := key) (Or.inr ⟨_, mem_pending h.journal.pending hlogs, ?_⟩)
    exact (binding_put key a old).2

theorem linked_call (hadm : sys.o.Admissible K) (h : Ahead sys s m)
    (horder : InOrder sys s (.call t))
    (hr : callStep sys.o s.compactor.locks s.world (sys.calls t) (s.pcs t) = some r) (k : K) :
    Linked (Function.update s.pcs t r.1)
      ((loggedAfter m (sys.calls t) (s.pcs t)).lookup k)
      ((unloggedAfter s.world.map s.unlogged t (sys.calls t) (s.pcs t)).filter (·.2.1 = k))
      (r.2.map.lookup k) := by
  have hlinked := h.linked k
  have hother : ∀ us : List (Fin n × Binding K UInt64), (∀ p ∈ us, p.1 ≠ t) →
      ∀ p ∈ us, Function.update s.pcs t r.1 p.1 = s.pcs p.1 :=
    fun us hne p hp => Function.update_of_ne (hne p hp) _ _
  rw [unloggedAfter_eq]
  cases hlogs : logs (sys.calls t) (s.pcs t) with
  | none =>
    have hmap := (callStep_sameLog hadm h.journal.sane hlogs hr).2
    have hne : ∀ p ∈ unloggedOf s k, p.1 ≠ t := fun p hp =>
      pending_ne h.journal.pending hlogs (List.mem_filter.mp hp).1
    have hsame := hlinked.congr (hother _ hne)
    simp only [loggedAfter, hlogs]
    cases hupdates : updates s.world.map (sys.calls t) (s.pcs t) with
    | none =>
      rw [hmap, hupdates]
      exact hsame
    | some b =>
      obtain ⟨hkey, hret⟩ := callStep_unlinks hr hupdates
      rw [hmap, hupdates]
      show Linked _ _ _ ((write s.world.map b).lookup k)
      simp only [List.filter_append, lookup_write]
      by_cases hk : k = b.1
      · subst hk
        simp only [List.filter_cons, decide_true, if_true, List.filter_nil]
        refine hsame.snoc (p := (t, b)) ?_
        rw [Function.update_self, hret, hkey]
      · rw [if_neg hk]
        simpa [unloggedOf, Ne.symm hk] using hsame
  | some rec =>
    obtain ⟨-, hkey⟩ := logs_key hlogs
    have hpending := h.journal.pending t
    rw [hlogs] at hpending
    obtain ⟨cs, hsplit, hfilter⟩ := split_pending hpending
    have hmap := (run_appendWal_ok (o := sys.o) h.journal.sane.live.wal rec).2.1.map
    rw [callStep_appends hlogs hr, hmap, updates_none hlogs]
    simp only [loggedAfter, hlogs, lookup_write]
    have hne : ∀ p ∈ (s.unlogged.filter (·.1 ≠ t)).filter (·.2.1 = k), p.1 ≠ t := by
      intro p hp
      have hp' := (List.mem_filter.mp (List.mem_filter.mp hp).1).2
      simpa using hp'
    refine Linked.congr (hother _ hne) ?_
    unfold unloggedOf at hlinked
    rw [hsplit] at hlinked
    rw [hfilter]
    by_cases hk : k = (binding rec).1
    · -- the record is the first of its key
      have hnil : (s.unlogged.takeWhile (·.1 ≠ t)).filter (·.2.1 = k) = [] := by
        refine List.filter_eq_nil_iff.mpr fun p hp => ?_
        have := horder rec hlogs p hp
        rw [← hkey, ← hk] at this
        simpa using this
      rw [List.filter_append, hnil, List.nil_append] at hlinked
      rw [List.filter_append, hnil, List.nil_append, if_pos hk]
      rw [List.filter_cons_of_pos (by simp [hk])] at hlinked
      exact hlinked.2
    · rw [if_neg hk, List.filter_append]
      rw [List.filter_append, List.filter_cons_of_neg (by simp [Ne.symm hk])] at hlinked
      exact hlinked

theorem ahead_call (hadm : sys.o.Admissible K) (h : Ahead sys s m)
    (horder : InOrder sys s (.call t))
    (hfires : ∀ rec ∈ logs (sys.calls t) (s.pcs t), fires sys.o s.world = false)
    (hstep : Machine.step sys s (.call t) = some s') :
    Ahead sys s' (loggedAfter m (sys.calls t) (s.pcs t)) := by
  have hcaught : Caught sys s (.call t) := by
    intro rec _ x hx
    rw [h.off] at hx
    cases hx
  have hjournal := journal_call hadm hfires h.journal horder hcaught hstep
  obtain ⟨r, hr, rfl⟩ := Option.map_eq_some_iff.mp hstep
  refine ⟨hjournal, h.off, ?_, linked_call hadm h horder hr, retired_call hadm h hr,
    once_call h hr, written_call hadm h hr⟩
  show Logged sys.o r.2 _
  cases hlogs : logs (sys.calls t) (s.pcs t) with
  | none =>
    simp only [loggedAfter, hlogs]
    exact (callStep_sameLog hadm h.journal.sane hlogs hr).1.logged h.logged
  | some rec =>
    have happended := logged_appendWal h.logged (logs_key hlogs).1
    rw [hfires rec hlogs] at happended
    simp only [loggedAfter, hlogs]
    rw [callStep_appends hlogs hr]
    exact happended

theorem ahead_initial {w : World K} (h : Journaled sys.o (fun _ _ => True) w w.map) :
    Ahead sys (State.initial n w (value sys.o w)) w.map where
  journal := journal_initial h
  off := rfl
  logged := h.logged
  linked _ := rfl
  retired _ _ ha := by cases ha
  once _ _ _ ha := by cases ha
  written _ _ _ _ _ _ ha := by cases ha

/-! The contents a restart would recover. -/

def durable (o : Options) (d : Disk K) (m : Map K) : K → Option Bytes :=
  content (entries m) (view o d)

theorem durable_call (hadm : sys.o.Admissible K) (h : Ahead sys s m)
    (hstep : Machine.step sys s (.call t) = some s') (k : K) :
    durable sys.o s'.world.disk (loggedAfter m (sys.calls t) (s.pcs t)) k =
        durable sys.o s.world.disk m k ∨
      (∃ rec, logs (sys.calls t) (s.pcs t) = some rec) ∧ k = (sys.calls t).key ∧
        durable sys.o s'.world.disk (loggedAfter m (sys.calls t) (s.pcs t)) k =
          effectOf (sys.calls t) := by
  obtain ⟨r, hr, rfl⟩ := Option.map_eq_some_iff.mp hstep
  cases hlogs : logs (sys.calls t) (s.pcs t) with
  | none =>
    simp only [loggedAfter, hlogs]
    refine Or.inl (congrFun (content_frame (h.avoids (t := t) hadm) fun a ha => ?_) k)
    rcases callStep_view hadm h.journal.sane hr a with hsame | hwrites | ⟨hfrees, -⟩
    · exact hsame
    · exact (ha (Or.inl hwrites)).elim
    · exact (ha (Or.inr hfrees)).elim
  | some rec =>
    have himages := (run_appendWal_ok (o := sys.o) h.journal.sane.live.wal rec).2.1.images
    have hview : view sys.o r.2.disk = view sys.o s.world.disk := by
      rw [callStep_appends hlogs hr]
      exact view_congr himages
    simp only [loggedAfter, hlogs, durable, hview]
    by_cases hk : k = (sys.calls t).key
    · refine Or.inr ⟨⟨rec, rfl⟩, hk, ?_⟩
      have hentry : entries (write m (binding rec)) k = (binding rec).2 := by
        rw [entries, lookup_write, if_pos (hk.trans (logs_key hlogs).2.symm)]
      cases hcall : sys.calls t with
      | put key value =>
        cases hpc : s.pcs t <;> rw [hcall, hpc] at hlogs <;> cases hlogs
        rename_i a old
        rw [(binding_put key a old).2] at hentry ⊢
        rw [hcall] at hk
        subst hk
        exact content_of_entry hentry (h.written t _ value a old hcall hpc)
      | delete key =>
        cases hpc : s.pcs t <;> rw [hcall, hpc] at hlogs <;> cases hlogs
        exact content_none hentry
      | get key size => cases hpc : s.pcs t <;> rw [hcall, hpc] at hlogs <;> cases hlogs
    · refine Or.inl ?_
      have hne : k ≠ (binding rec).1 := fun heq => hk (heq.trans (logs_key hlogs).2)
      simp only [content, entries, lookup_write, if_neg hne]

theorem ahead_crashSafe (h : Ahead sys s m) :
    CrashSafe sys.o (fun _ _ => True) s.world.disk m :=
  Journaled.crashSafe ⟨h.journal.sane.live, h.logged, h.owns⟩

/-- What the files hold at a crash inside a section from `s` to `s'`. -/
def CrashPoint (sys : System K n) (s s' : State K n) (m m' : Map K) (d : Disk K) : Prop :=
  Complete sys.o d ∧ ∃ m₁, CrashSafe sys.o (fun _ _ => True) d m₁ ∧
    (durable sys.o d m₁ = durable sys.o s.world.disk m ∨
      durable sys.o d m₁ = durable sys.o s'.world.disk m')

theorem crash_touch {m' : Map K} (h : Ahead sys s m) {X : ℕ → ℕ → Prop} {N : Slot → Prop}
    {d : Disk K} (htouch : Touches X N s.world.disk d) (havoid : Avoids (entries m) (At X))
    (hnew : ∀ slot, N slot → Good (fun (_ : K) _ => True) slot)
    (hX : ∀ seg i slot, X seg i → N slot → seg < sys.o.segmentCount ∧ i < sys.o.totalSlots) :
    CrashPoint sys s s' m m' d := by
  refine ⟨complete_of_touches htouch (live_complete h.journal.sane.live), m, ?_, Or.inl ?_⟩
  · refine (ahead_crashSafe h).touch htouch havoid hnew fun seg i slot hx hslot => ?_
    obtain ⟨hseg, hi⟩ := hX seg i slot hx hslot
    exact ⟨(h.journal.sane.live.segs seg hseg).complete, hi⟩
  · exact touches_content_eq htouch havoid

theorem crash_insert {m' : Map K} (hadm : sys.o.Admissible K) (h : Ahead sys s m) {key : K}
    {value : Bytes} {seg : ℕ} (hseg : seg < sys.o.segmentCount) {e : Event K}
    (he : e ∈ (run (File.insert sys.o seg (toBytes key) value) s.world).trace) :
    CrashPoint sys s s' m m' e.world.disk := by
  have hlive := h.journal.sane.live
  by_cases hroom : (s.world.segs seg).appendCursor < sys.o.totalSlots
  · have hwrites : WritesOnly (OneSlot seg (s.world.segs seg).appendCursor)
        (· = ⟨toBytes key, value⟩) s.world.disk
        (run (File.insert sys.o seg (toBytes key) value) s.world).trace :=
      insert_writes hadm.slots (hlive.segs seg hseg) hroom
    refine crash_touch h (hwrites e he).2 (avoids_new hadm hlive hseg hroom h.owns) ?_ ?_
    · rintro slot rfl
      exact ⟨key, rfl, trivial⟩
    · rintro _ _ slot ⟨rfl, rfl⟩ -
      exact ⟨hseg, hroom⟩
  · rw [(run_insert_full (toBytes key) value hadm.slots (hlive.segs seg hseg) hroom).2.2] at he
    cases he

theorem crash_free {m' : Map K} (hadm : sys.o.Admissible K) (h : Ahead sys s m) {a : UInt64}
    (ha : frees (s.pcs t) = some a) {e : Event K}
    (he : e ∈ (run (freeSlot sys.o a) s.world).trace) :
    CrashPoint sys s s' m m' e.world.disk := by
  have hlive := h.journal.sane.live
  obtain ⟨seg, hseg, i, hi, rfl⟩ := (h.journal.sane.calls t).retired a (retiredBy_of_frees ha)
  rw [(run_freeSlot hadm hlive.mgr hseg hi).2] at he
  refine crash_touch h (delete_writes (hlive.segs seg hseg) i e he).2 ?_
    (fun _ hslot => hslot.elim) (fun _ _ _ _ hslot => hslot.elim)
  rintro k b hb ⟨_, _, ⟨rfl, rfl⟩, rfl⟩
  exact h.not_freed (Or.inl hb) ha

theorem crash_log (hadm : sys.o.Admissible K) (h : Ahead sys s m)
    (horder : InOrder sys s (.call t))
    (hfires : ∀ rec ∈ logs (sys.calls t) (s.pcs t), fires sys.o s.world = false)
    (hstep : Machine.step sys s (.call t) = some s') {rec : WalRecord K}
    (hlogs : logs (sys.calls t) (s.pcs t) = some rec) {e : Event K}
    (he : e ∈ (run (appendWal sys.o rec) s.world).trace) :
    CrashPoint sys s s' m (loggedAfter m (sys.calls t) (s.pcs t)) e.world.disk := by
  have hlive := h.journal.sane.live
  have hevent : LogEvent sys.o s.world (fun m' => m' = m ∨ m' = write m (binding rec)) e := by
    obtain ⟨n, hn⟩ := List.mem_iff_getElem?.mp he
    rcases appendWal_event_cases h.logged (logs_key hlogs).1 hn with hevent | ⟨-, hf, -⟩
    · refine hevent.mono ?_
      rintro m' rfl
      split_ifs
      · exact Or.inl rfl
      · exact Or.inr rfl
    · rw [hfires rec hlogs] at hf
      cases hf
  have himages := hevent.images
  -- the records are appended over the same cells
  have hafter := (ahead_call hadm h horder hfires hstep).owns
  obtain ⟨r, hr, rfl⟩ := Option.map_eq_some_iff.mp hstep
  have hview : view sys.o r.2.disk = view sys.o s.world.disk := by
    rw [callStep_appends hlogs hr]
    exact view_congr (run_appendWal_ok (o := sys.o) hlive.wal rec).2.1.images
  simp only [loggedAfter, hlogs] at hafter ⊢
  obtain ⟨m₁, hm₁, hsafe⟩ := crashSafe_logEvent hevent hlive <| by
    rintro m₁ (rfl | rfl)
    · exact h.owns
    · rw [← hview]
      exact hafter
  refine ⟨complete_congr himages (live_complete hlive), m₁, hsafe, ?_⟩
  rcases hm₁ with rfl | rfl
  · exact Or.inl (by simp only [durable, view_congr himages])
  · exact Or.inr (by simp only [durable, view_congr himages, hview])

/-- At a crash inside a section the files hold the contents from before it or from after it. -/
theorem crash_call (hadm : sys.o.Admissible K) (h : Ahead sys s m)
    (horder : InOrder sys s (.call t))
    (hfires : ∀ rec ∈ logs (sys.calls t) (s.pcs t), fires sys.o s.world = false)
    (hstep : Machine.step sys s (.call t) = some s') {e : Event K}
    (he : e ∈ callTrace sys.o s.world (sys.calls t) (s.pcs t)) :
    CrashPoint sys s s' m (loggedAfter m (sys.calls t) (s.pcs t)) e.world.disk := by
  have hok := h.journal.sane.calls t
  cases hcall : sys.calls t with
  | put key value =>
    cases hpc : s.pcs t with
    | insert seg again =>
      rw [hcall, hpc] at he
      exact crash_insert hadm h (hok.seg seg again hpc) he
    | log a old =>
      have hlogs : logs (sys.calls t) (s.pcs t) = some (putRecord key a old) := by
        rw [hcall, hpc]
        rfl
      rw [← hcall, ← hpc]
      rw [hcall, hpc] at he
      exact crash_log hadm h horder hfires hstep hlogs he
    | discard a st => exact (hok.appends.2.1 a st hpc).elim
    | release old =>
      rw [hcall, hpc] at he
      exact crash_free hadm h (t := t) (by rw [hpc]; rfl) he
    | _ =>
      rw [hcall, hpc] at he
      cases he
  | delete key =>
    cases hpc : s.pcs t with
    | logErase old =>
      have hlogs : logs (sys.calls t) (s.pcs t) = some (deleteRecord key old) := by
        rw [hcall, hpc]
        rfl
      rw [← hcall, ← hpc]
      rw [hcall, hpc] at he
      exact crash_log hadm h horder hfires hstep hlogs he
    | releaseErased old =>
      rw [hcall, hpc] at he
      exact crash_free hadm h (t := t) (by rw [hpc]; rfl) he
    | _ =>
      rw [hcall, hpc] at he
      cases he
  | get key size =>
    rw [hcall] at he
    cases hpc : s.pcs t <;> rw [hpc] at he <;> cases he

end Invariant

end ParaKV.Concurrent.WriteAhead
