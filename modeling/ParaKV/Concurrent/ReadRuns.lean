/- GID: ParaKV/Concurrent/ReadRuns
   source: parakv/core/index/index.cc, parakv/core/index/wal.h
   digest: A value that a Get has returned survives a crash when only logged entries are read. -/

import ParaKV.Concurrent.WriteAhead

set_option autoImplicit false
set_option synthInstance.maxSize 512

namespace ParaKV.Concurrent.ReadRuns

open Lib.LogMap Lib.StepRun Index.Key Index.Durability Index.Ownership Index.CrashSafety Index.Runs
open Index.Sessions Core.State Concurrent.Machine Concurrent.Slots Concurrent.SlotRuns
open Concurrent.Reading Concurrent.Logging Concurrent.LogRuns Concurrent.WriteAhead

variable {K : Type} [DecidableEq K] [KeyType K] {n : ℕ}
variable {sys : System K n} {s₀ s s' : State K n} {t u : Fin n} {acts : List (Action n)}

def LookedUp : Pc → Prop
  | .locate _ => True
  | .read _ => True
  | .done st _ => st = .ok
  | _ => False

/-- A section of a call. The records of a key are appended in the order of its map updates,
without a checkpoint, and a `Get` looks up a key only while all updates of it are logged. -/
def WrittenAhead (sys : System K n) (s : State K n) : Action n → Prop
  | .call t => InOrder sys s (.call t) ∧
      (∀ rec ∈ logs (sys.calls t) (s.pcs t), fires sys.o s.world = false) ∧
      (s.pcs t = .lookup → ∀ p ∈ s.unlogged, p.2.1 ≠ (sys.calls t).key)
  | _ => False

instance (sys : System K n) (s : State K n) (act : Action n) :
    Decidable (WrittenAhead sys s act) :=
  match act with
  | .call _ => @instDecidableAnd _ _ inferInstance (@instDecidableAnd _ _
      (@Option.decidableForallMem _ _ (fun _ => instDecidableEqBool _ _) _)
      (@instDecidableForall _ _ inferInstance (List.decidableBAll _ _)))
  | .compact => isFalse id
  | .checkpoint => isFalse id

/-- Among `acts` is a map update of the key of the `Get` `u`, after its lookup, that leaves `x`
as the contents of the key. -/
def TookEffect (sys : System K n) (s₀ : State K n) (acts : List (Action n)) (u : Fin n)
    (x : Option Bytes) : Prop :=
  ∃ as t bs s, acts = as ++ .call t :: bs ∧
    GuardedRun (Machine.step sys) (WrittenAhead sys) s₀ as s ∧ LookedUp (s.pcs u) ∧
    (∃ b, updates s.world.map (sys.calls t) (s.pcs t) = some b) ∧
    (sys.calls t).key = (sys.calls u).key ∧ effectOf (sys.calls t) = x

theorem TookEffect.later {x : Option Bytes} (h : TookEffect sys s₀ acts u x) (act : Action n) :
    TookEffect sys s₀ (acts ++ [act]) u x := by
  obtain ⟨as, t, bs, s, rfl, hrest⟩ := h
  exact ⟨as, t, bs ++ [act], s, by simp, hrest⟩

/-- The contents `x` of its key go with a `Get` that returned `v`. -/
def Follows (sys : System K n) (s₀ : State K n) (acts : List (Action n)) (u : Fin n) (v : Bytes)
    (x : Option Bytes) : Prop :=
  x = some v ∨ TookEffect sys s₀ acts u x

theorem Follows.later {v : Bytes} {x : Option Bytes} (h : Follows sys s₀ acts u v x)
    (act : Action n) : Follows sys s₀ (acts ++ [act]) u v x :=
  h.imp_right (·.later act)

/-- The invariant of a `Get` of `key`, over files that hold the map `m`. -/
structure ReadOk (sys : System K n) (s₀ : State K n) (acts : List (Action n)) (s : State K n)
    (m : Map K) (u : Fin n) (key : K) : Prop where
  unlogged : LookedUp (s.pcs u) → ∀ p ∈ s.unlogged, p.2.1 = key →
    TookEffect sys s₀ acts u (effectOf (sys.calls p.1))
  held : ∀ a, heldBy (s.pcs u) = some a → Below sys.o s.world a ∧
    ∃ v, (∀ q, view sys.o s.world.disk a = some q → q = (key, v)) ∧
      Follows sys s₀ acts u v (durable sys.o s.world.disk m key)
  done : ∀ v, s.pcs u = .done .ok v →
    Follows sys s₀ acts u v (durable sys.o s.world.disk m key)

section Step

variable {m : Map K} {key : K} {size : ℕ}

theorem lookedUp_of_held {pc : Pc} {a : UInt64} (h : heldBy pc = some a) : LookedUp pc := by
  cases pc <;> cases h
  · trivial
  · trivial

theorem follows_call (hadm : sys.o.Admissible K) (hahead : Ahead sys s m)
    (h : ReadOk sys s₀ acts s m u key) (hpast : LookedUp (s.pcs u))
    (hstep : Machine.step sys s (.call t) = some s') {v : Bytes}
    (hv : Follows sys s₀ acts u v (durable sys.o s.world.disk m key)) :
    Follows sys s₀ (acts ++ [.call t]) u v
      (durable sys.o s'.world.disk (loggedAfter m (sys.calls t) (s.pcs t)) key) := by
  rcases durable_call hadm hahead hstep key with hsame | ⟨⟨rec, hlogs⟩, hkey, heffect⟩
  · rw [hsame]
    exact hv.later _
  · rw [heffect]
    have hmem := mem_pending hahead.journal.pending hlogs
    refine Or.inr ((h.unlogged hpast _ hmem ?_).later _)
    rw [hkey]
    exact (logs_key hlogs).2

theorem unlogged_call (hcall : sys.calls u = .get key size)
    (hrun : GuardedRun (Machine.step sys) (WrittenAhead sys) s₀ acts s)
    (h : ReadOk sys s₀ acts s m u key) (hpast : LookedUp (s.pcs u))
    (hstep : Machine.step sys s (.call t) = some s') (p : Fin n × Binding K UInt64)
    (hp : p ∈ s'.unlogged) (hkey : p.2.1 = key) :
    TookEffect sys s₀ (acts ++ [.call t]) u (effectOf (sys.calls p.1)) := by
  obtain ⟨r, hr, rfl⟩ := Option.map_eq_some_iff.mp hstep
  have hp' : p ∈ unloggedAfter s.world.map s.unlogged t (sys.calls t) (s.pcs t) := hp
  rw [unloggedAfter_eq] at hp'
  cases hupdates : updates s.world.map (sys.calls t) (s.pcs t) with
  | some b =>
    rw [hupdates] at hp'
    rcases List.mem_append.mp hp' with hold | hnew
    · exact (h.unlogged hpast p hold hkey).later _
    · obtain rfl := List.mem_singleton.mp hnew
      refine ⟨acts, t, [], s, rfl, hrun, hpast, ⟨b, hupdates⟩, ?_, rfl⟩
      rw [hcall, ← (callStep_unlinks hr hupdates).1]
      exact hkey
  | none =>
    have hold : p ∈ s.unlogged := by
      rw [hupdates] at hp'
      cases hlogs : logs (sys.calls t) (s.pcs t) with
      | none => rwa [hlogs] at hp'
      | some rec =>
        rw [hlogs] at hp'
        exact (List.mem_filter.mp hp').1
    exact (h.unlogged hpast p hold hkey).later _

theorem readOk_other (hadm : sys.o.Admissible K) (hcall : sys.calls u = .get key size)
    (hrun : GuardedRun (Machine.step sys) (WrittenAhead sys) s₀ acts s)
    (hahead : Ahead sys s m) (h : ReadOk sys s₀ acts s m u key) (hu : u ≠ t)
    (hstep : Machine.step sys s (.call t) = some s') :
    ReadOk sys s₀ (acts ++ [.call t]) s' (loggedAfter m (sys.calls t) (s.pcs t)) u key := by
  have hpc : s'.pcs u = s.pcs u := step_pcs_other hstep (by simpa using Ne.symm hu)
  constructor
  · intro hpast p hp hkey
    rw [hpc] at hpast
    exact unlogged_call hcall hrun h hpast hstep p hp hkey
  · intro a ha
    rw [hpc] at ha
    obtain ⟨hbelow, v, hcell, hv⟩ := h.held a ha
    have hfollows := follows_call hadm hahead h (lookedUp_of_held ha) hstep hv
    obtain ⟨r, hr, rfl⟩ := Option.map_eq_some_iff.mp hstep
    refine ⟨below_mono hbelow ?_, v, ?_, hfollows⟩
    · exact cursors_call hadm hahead.journal hr
    · intro q hq
      rcases callStep_view hadm hahead.journal.sane hr a with hsame | hwrites | ⟨-, hnone⟩
      · rw [hsame] at hq
        exact hcell q hq
      · exact ((callWrites_vacant hadm hahead.journal.sane hwrites).2 hbelow).elim
      · rw [hnone] at hq
        cases hq
  · intro v hdone
    rw [hpc] at hdone
    refine follows_call hadm hahead h ?_ hstep (h.done v hdone)
    rw [hdone]
    trivial

theorem get_reads {o : Options} {locks : ℕ → Bool} {w : World K} {pc : Pc} {r : Pc × World K}
    (hadm : o.Admissible K) (hlive : Live o (fun _ _ => True) w)
    (hslot : ∀ a, heldBy pc = some a → IsSlot o a)
    (hr : callStep o locks w (.get key size) pc = some r) :
    (∀ a, heldBy r.1 = some a → heldBy pc = some a ∨
      pc = .lookup ∧ w.map.lookup key = some a) ∧
    ∀ v, r.1 = .done .ok v → ∃ a k, heldBy pc = some a ∧ view o w.disk a = some (k, v) := by
  by_cases hbegin : pc = .begin
  · subst hbegin
    simp only [callStep] at hr
    constructor
    · intro a ha
      split at hr <;> cases hr <;> cases ha
    · intro v hv
      split at hr <;> cases hr <;> cases hv
  -- the size of the buffer matters at the beginning only
  have hsize : callStep o locks w (.get key o.segmentConfig.valueSize) pc = some r := by
    cases pc with
    | begin => exact (hbegin rfl).elim
    | _ => exact hr
  rcases get_cases hadm hlive hslot hsize with h | ⟨h, -⟩ | ⟨e, h, hlookup⟩ | ⟨e, h, hheld⟩ |
    ⟨e, hheld, ⟨k, v', hview, h⟩ | ⟨-, h⟩⟩
  · rw [h]
    exact ⟨by simp [heldBy], by simp⟩
  · rw [h]
    exact ⟨by simp [heldBy], by simp⟩
  · rw [h]
    refine ⟨fun a ha => Or.inr ?_, by simp⟩
    obtain rfl := Option.some.inj ha
    refine ⟨?_, hlookup⟩
    cases pc <;> simp only [callStep, reduceCtorEq] at hr
    · exact (hbegin rfl).elim
    · rfl
    all_goals split at hr <;> cases hr
    all_goals cases h
  · rw [h]
    refine ⟨fun a ha => Or.inl ?_, by simp⟩
    obtain rfl := Option.some.inj ha
    exact hheld
  · rw [h]
    refine ⟨by simp [heldBy], fun v hv => ?_⟩
    cases hv
    exact ⟨e, k, hheld, hview⟩
  · rw [h]
    exact ⟨by simp [heldBy], by simp⟩

theorem readOk_own (hadm : sys.o.Admissible K) (hcall : sys.calls u = .get key size)
    (hahead : Ahead sys s m) (h : ReadOk sys s₀ acts s m u key)
    (hguard : WrittenAhead sys s (.call u))
    (hstep : Machine.step sys s (.call u) = some s') :
    ReadOk sys s₀ (acts ++ [.call u]) s' m u key := by
  have hlive := hahead.journal.sane.live
  obtain ⟨-, -, hlookup⟩ := hguard
  obtain ⟨r, hr, rfl⟩ := Option.map_eq_some_iff.mp hstep
  rw [hcall] at hr hlookup
  have hworld := (get_stays hr).1
  have hunlogged : unloggedAfter s.world.map s.unlogged u (sys.calls u) (s.pcs u) =
      s.unlogged := by
    rw [hcall]
    cases s.pcs u <;> rfl
  obtain ⟨hheld, hdone⟩ := get_reads hadm hlive
    (fun a ha => isSlot_of_below hlive.segs (h.held a ha).1) hr
  constructor
  · intro hpast p hp hkey
    simp only [Function.update_self] at hpast
    have hp' : p ∈ s.unlogged := hunlogged ▸ hp
    have hbefore : LookedUp (s.pcs u) ∨ s.pcs u = .lookup := by
      cases hpc : r.1 <;> rw [hpc] at hpast
      all_goals first | exact hpast.elim | skip
      · exact (hheld _ (by rw [hpc]; rfl)).imp lookedUp_of_held And.left
      · exact (hheld _ (by rw [hpc]; rfl)).imp lookedUp_of_held And.left
      · obtain rfl := hpast
        obtain ⟨a, k, ha, -⟩ := hdone _ hpc
        exact Or.inl (lookedUp_of_held ha)
    rcases hbefore with hbefore | hpc
    · exact (h.unlogged hbefore p hp' hkey).later _
    · exact (hlookup hpc p hp' hkey).elim
  · intro a ha
    simp only [Function.update_self] at ha
    simp only [hworld]
    rcases hheld a ha with hold | ⟨hpc, hentry⟩
    · obtain ⟨hbelow, v, hcell, hv⟩ := h.held a hold
      exact ⟨hbelow, v, hcell, hv.later _⟩
    · -- all updates of the key are logged, so the entry read is the one in the files
      have hlogged : m.lookup key = some a := by
        have hnil : unloggedOf s key = [] := by
          refine List.filter_eq_nil_iff.mpr fun p hp => ?_
          have hne : p.2.1 ≠ key := hlookup hpc p hp
          simpa using hne
        have hlinked := hahead.linked key
        rw [hnil] at hlinked
        exact Eq.trans hlinked hentry
      obtain ⟨v, hview, hvalue⟩ := hahead.owns.content_isSome hlogged
      refine ⟨below_of_lookup hlive hentry, v, fun q hq => ?_, Or.inl hvalue⟩
      rw [hview] at hq
      exact (Option.some.inj hq).symm
  · intro v hpc
    simp only [Function.update_self] at hpc
    simp only [hworld]
    obtain ⟨a, k, ha, hview⟩ := hdone v hpc
    obtain ⟨-, v', hcell, hv⟩ := h.held a ha
    obtain ⟨rfl, rfl⟩ := Prod.mk.inj (hcell _ hview)
    exact hv.later _

end Step

theorem readOk_run (hadm : sys.o.Admissible K) {w : World K}
    (h : Journaled sys.o (fun _ _ => True) w w.map)
    (hrun : GuardedRun (Machine.step sys) (WrittenAhead sys)
      (State.initial n w (value sys.o w)) acts s) {key : K} {size : ℕ}
    (hcall : sys.calls u = .get key size) :
    ∃ m, Ahead sys s m ∧ ReadOk sys (State.initial n w (value sys.o w)) acts s m u key := by
  have hinv := hrun.invariant (I := fun as s =>
    GuardedRun (Machine.step sys) (WrittenAhead sys) (State.initial n w (value sys.o w)) as s ∧
      ∃ m, Ahead sys s m ∧ ReadOk sys (State.initial n w (value sys.o w)) as s m u key) ?_ ?_
  · exact hinv.2
  · refine ⟨.init, w.map, ahead_initial h, ?_, ?_, ?_⟩
    · intro hpast
      exact hpast.elim
    · intro a ha
      cases ha
    · intro v hv
      cases hv
  · rintro as s act s' ⟨hsofar, m, hahead, hread⟩ hguard hstep
    refine ⟨hsofar.step hguard hstep, ?_⟩
    cases act with
    | call t =>
      refine ⟨_, ahead_call hadm hahead hguard.1 hguard.2.1 hstep, ?_⟩
      by_cases hu : u = t
      · subst hu
        have hlogs : loggedAfter m (sys.calls u) (s.pcs u) = m := by
          rw [hcall]
          cases s.pcs u <;> rfl
        rw [hlogs]
        exact readOk_own hadm hcall hahead hread hguard hstep
      · exact readOk_other hadm hcall hsofar hahead hread hu hstep
    | compact => exact hguard.elim
    | checkpoint => exact hguard.elim

/-- Calls interleave such that the records of each key are appended in the order of its map
updates, without a checkpoint, and only keys whose updates are all logged are looked up. When the
process crashes after a `Get` has returned a value, between two sections or inside one, a restart
recovers that value for the key, or the effect of an update after the lookup. -/
theorem read_survives_crash (hadm : sys.o.Admissible K) (hpath : sys.o.walPath ≠ "")
    {stateFile : Option Bytes} {prior : List (Act K)} {st : Session K}
    (hprior : GuardedRun (Session.step sys.o) Uncompacted (Session.initial K stateFile) prior st)
    (hup : st.store.up = true)
    (hrun : GuardedRun (Machine.step sys) (WrittenAhead sys)
      (State.initial n st.store.world (value sys.o st.store.world)) acts s)
    {key : K} {size : ℕ} (hcall : sys.calls u = .get key size) {v : Bytes}
    (hdone : s.pcs u = .done .ok v) :
    (∃ c, Recovers sys.o s.world.disk c ∧
      Follows sys (State.initial n st.store.world (value sys.o st.store.world)) acts u v
        (c key)) ∧
    ∀ t s', WrittenAhead sys s (.call t) → Machine.step sys s (.call t) = some s' →
      ∀ e ∈ callTrace sys.o s.world (sys.calls t) (s.pcs t), ∃ c, Recovers sys.o e.world.disk c ∧
        Follows sys (State.initial n st.store.world (value sys.o st.store.world))
          (acts ++ [.call t]) u v (c key) := by
  have hjournaled := journaled_of_prior hadm hpath hprior hup
  obtain ⟨m, hahead, hread⟩ := readOk_run hadm hjournaled hrun hcall
  have hlive := hahead.journal.sane.live
  have hbefore := hread.done v hdone
  constructor
  · exact ⟨_, recovers_of_crashSafe hadm hpath (ahead_crashSafe hahead) (live_complete hlive) rfl,
      hbefore⟩
  · intro t s' hguard hstep e he
    have hpast : LookedUp (s.pcs u) := by
      rw [hdone]
      rfl
    have hafter := follows_call hadm hahead hread hpast hstep hbefore
    obtain ⟨hcomplete, m₁, hsafe, hcontent⟩ :=
      crash_call hadm hahead hguard.1 hguard.2.1 hstep he
    refine ⟨_, recovers_of_crashSafe hadm hpath hsafe hcomplete rfl, ?_⟩
    show Follows sys _ _ u v (durable sys.o e.world.disk m₁ key)
    rcases hcontent with heq | heq
    · rw [heq]
      exact hbefore.later _
    · rw [heq]
      exact hafter

def dirtySystem : System Key64 2 := ⟨smallOptions 4 0, oneShard, ![.put 5 [1], .get 5 1]⟩

/-- The `Get` runs after the map update of the `Put` and before its record is appended. -/
def dirtyRun : List (Action 2) := .replicate 4 first ++ .replicate 4 second

set_option maxRecDepth 100000 in
theorem read_value_lost :
    (smallOptions 4 0).Admissible Key64 ∧
    ((interleave dirtySystem [.complete .start] dirtyRun).map fun s =>
      (s.pcs 1, (recover (smallOptions 4 0) s.world.disk).map fun m => m.lookup 5)) =
      some (.done .ok [1], some none) :=
  ⟨smallOptions_admissible 0 (by decide), by decide +kernel⟩

/-- The `Get` finds the entry from before the `Put`, which updates the map before the slot is
read. -/
def cleanRun : List (Action 2) := .replicate 3 second ++ .replicate 4 first ++ [second]

set_option maxRecDepth 100000 in
theorem read_survives_crash_clean :
    ∃ st s, GuardedRun (Session.step dirtySystem.o) Uncompacted (Session.initial Key64 none)
        [.complete .start, putKey 5] st ∧ st.store.up = true ∧
      GuardedRun (Machine.step dirtySystem) (WrittenAhead dirtySystem)
        (State.initial 2 st.store.world (value dirtySystem.o st.store.world)) cleanRun s ∧
      s.pcs 1 = .done .ok [5] ∧ s.content 5 = some [1] ∧
      ∃ c, Recovers dirtySystem.o s.world.disk c ∧
        Follows dirtySystem (State.initial 2 st.store.world (value dirtySystem.o st.store.world))
          cleanRun 1 [5] (c 5) := by
  obtain ⟨st, hprior, hst⟩ := exists_guardedRun
    (f := fun st : Session Key64 => (st.store.up, (performGuarded (Machine.step dirtySystem)
      (WrittenAhead dirtySystem)
      (State.initial 2 st.store.world (value dirtySystem.o st.store.world))
      cleanRun).map fun s => (s.pcs 1, s.content 5)))
    (show (performGuarded (Session.step dirtySystem.o) Uncompacted
      (Session.initial Key64 none) [.complete .start, putKey 5]).map _ =
        some (true, some (.done .ok [5], some ([1] : Bytes))) by decide +kernel)
  obtain ⟨hup, hacts⟩ := Prod.mk.inj hst
  obtain ⟨s, hrun, hs⟩ := exists_guardedRun hacts
  obtain ⟨hdone, hcontent⟩ := Prod.mk.inj hs
  have hadm : dirtySystem.o.Admissible Key64 := smallOptions_admissible 0 (by decide)
  have hcrash := read_survives_crash hadm (by decide) hprior hup hrun
    (show dirtySystem.calls 1 = .get 5 1 from rfl) hdone
  exact ⟨st, s, hprior, hup, hrun, hdone, hcontent, hcrash.1⟩

end ParaKV.Concurrent.ReadRuns
