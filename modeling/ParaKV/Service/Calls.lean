/- GID: ParaKV/Service/Calls
   source: parakv/service/kvcache_storage_service_impl.cc,
     parakv/core/kvcache_storage/backend_namespace_manager.cc
   digest: Batch calls as runs of requests; a call works on the backend of its namespace. -/

import ParaKV.Lib.Transducer
import ParaKV.Storage.Simulation
import ParaKV.Service.Batch

set_option autoImplicit false

namespace ParaKV.Service.Calls

open Lib.Transducer Index.Key Storage Storage.Backend Storage.Namespaces Storage.Simulation
open Service.Batch

/-! A batch as a run over its elements. -/

section Loop

variable {σ ε ρ : Type} (serve : ε → σ → (ρ × Bool) × σ)

def element (s : σ) (x : ε) : (ρ × Bool) × σ := serve x s

/-- The counts of a response come from the flags of its elements. -/
def respond (answers : List (ρ × Bool)) : Response ρ :=
  { results := answers.map Prod.fst
    okCount := answers.countP Prod.snd
    otherCount := answers.countP fun a => !a.2 }

def Sized (options : ServiceOptions) (n : ℕ) : Prop := 0 < n ∧ n ≤ options.maxBatchSize

instance (options : ServiceOptions) (n : ℕ) : Decidable (Sized options n) :=
  inferInstanceAs (Decidable (_ ∧ _))

theorem loop_eq_serveAll (xs : List ε) (s : σ) :
    loop serve xs s = ⟨(serveAll (element serve) s xs).2,
      (respond (serveAll (element serve) s xs).1).results,
      (respond (serveAll (element serve) s xs).1).okCount,
      (respond (serveAll (element serve) s xs).1).otherCount⟩ := by
  induction xs using List.reverseRecOn with
  | nil => rfl
  | append_singleton xs x ih =>
    rw [loop_concat, ih, serveAll_append]
    set t := (serveAll (element serve) s xs).2 with ht
    cases hx : (serve x t).1.2 <;>
      simp [Loop.turn, serveAll, element, respond, hx]

variable {serve}

theorem serveAll_elements {τ : Type} {serve' : ε → τ → (ρ × Bool) × τ} (R : σ → τ → Prop)
    {xs : List ε} (hstep : ∀ s t, ∀ x ∈ xs, R s t →
      (serve x s).1 = (serve' x t).1 ∧ R (serve x s).2 (serve' x t).2)
    {s : σ} {t : τ} (h : R s t) :
    (serveAll (element serve) s xs).1 = (serveAll (element serve') t xs).1 ∧
      R (serveAll (element serve) s xs).2 (serveAll (element serve') t xs).2 := by
  refine serveAll_agree (fun x _ => x ∈ xs) (fun s t x hR hx => hstep s t x hx hR) h xs ?_
  exact fun p hp => (List.of_mem_zip hp).1

theorem batch_sized {options : ServiceOptions} {xs : List ε} (h : Sized options xs.length)
    (s : σ) :
    batch options serve xs s =
      (respond (serveAll (element serve) s xs).1, (serveAll (element serve) s xs).2) := by
  rw [batch_eq_loop s h.1 h.2, loop_eq_serveAll]
  rfl

theorem batch_refused {options : ServiceOptions} {xs : List ε} (h : ¬ Sized options xs.length) :
    ∃ r : Response ρ, ∀ (σ : Type) (serve : ε → σ → (ρ × Bool) × σ) (s : σ),
      batch options serve xs s = (r, s) := by
  by_cases hempty : xs.length = 0
  · exact ⟨_, fun σ serve s => if_pos hempty⟩
  · have hlarge : xs.length > options.maxBatchSize := by
      unfold Sized at h
      omega
    exact ⟨_, fun σ serve s => (if_neg hempty).trans (if_pos hlarge)⟩

theorem batch_agree {τ : Type} {serve' : ε → τ → (ρ × Bool) × τ} (R : σ → τ → Prop) {xs : List ε}
    (hstep : ∀ s t, ∀ x ∈ xs, R s t →
      (serve x s).1 = (serve' x t).1 ∧ R (serve x s).2 (serve' x t).2)
    (options : ServiceOptions) {s : σ} {t : τ} (h : R s t) :
    (batch options serve xs s).1 = (batch options serve' xs t).1 ∧
      R (batch options serve xs s).2 (batch options serve' xs t).2 := by
  by_cases hsized : Sized options xs.length
  · obtain ⟨hanswers, hlast⟩ := serveAll_elements R hstep h
    rw [batch_sized hsized, batch_sized hsized]
    exact ⟨congrArg respond hanswers, hlast⟩
  · obtain ⟨r, hr⟩ := batch_refused (ρ := ρ) hsized
    rw [hr, hr]
    exact ⟨rfl, h⟩

end Loop

/-! The calls of a client. -/

inductive Call
  | write (request : BatchWriteRequest)
  | read (request : BatchReadRequest)
  | delete (request : BatchDeleteRequest)

def Call.ns : Call → String
  | .write request => request.ns
  | .read request => request.ns
  | .delete request => request.ns

inductive Answer
  | wrote (response : Response ItemResult)
  | found (response : Response BatchReadResult)
  | deleted (response : Response ItemResult)

section Serve

variable {β : Type} (B : Interface β) (options : ServiceOptions)

def serve (m : Manager β) : Call → Answer × Manager β
  | .write request =>
    let r := batchWrite B options request m
    (.wrote r.1, r.2)
  | .read request =>
    let r := batchRead B options request m
    (.found r.1, r.2)
  | .delete request =>
    let r := batchDelete B options request m
    (.deleted r.1, r.2)

end Serve

/-! An element is refused by the service, or is one request to a backend. -/

section Asks

variable {β ρ : Type} (options : ServiceOptions) (ns : String)

/-- What the manager does for every operation: find the backend and pass the operation on. -/
def dispatch (refusal : ρ) (operation : β → ρ × β) (ns : String) (m : Manager β) : ρ × Manager β :=
  match m.lookup ns with
  | none => (refusal, m)
  | some b => ((operation b).1, m.insert ns (operation b).2)

/-- A request through the interface, which has no compaction. -/
def answer (B : Interface β) (r : Request) (s : β) : Reply × β :=
  match r with
  | .put key value metadata opts =>
    let r := B.put s key value metadata opts
    (.wrote r.1, r.2)
  | .get key opts =>
    let r := B.get s key opts
    (.found r.1, r.2)
  | .delete key =>
    let r := B.delete s key
    (.wrote r.1, r.2)
  | .compact => (.compacted true, s)

/-- What the backend is asked for an element, if the service does not refuse it. -/
def writeRequest (overwrite : Bool) (item : KVItem) : Option Request :=
  if item.key = [] then none
  else if options.maxValueBytes > 0 ∧ item.value.length > options.maxValueBytes then none
  else some (.put item.key item.value item.metadata
    { overwrite := overwrite, ttlMs := item.ttlMs })

def readRequest (opts : ReadOptions) (key : Bytes) : Option Request :=
  if key = [] then none else some (.get key opts)

def deleteRequest (key : Bytes) : Option Request :=
  if key = [] then none else some (.delete key)

def itemResult (key : Bytes) : Reply → ItemResult × Bool
  | .wrote r => (⟨key, toProtoCode r.code, r.message⟩, r.code = .ok)
  | _ => (⟨key, .ok, ""⟩, true)

def readAnswer (opts : ReadOptions) (key : Bytes) : Reply → BatchReadResult × Bool
  | .found r =>
    ({ key := key
       value := if r.code = .ok ∧ opts.includeValue = true then r.value else []
       metadata := if r.code = .ok then r.metadata else []
       code := toProtoCode r.code
       message := r.message
       expirationMs := r.expirationMs }, r.code = .ok)
  | _ => ({ key := key }, true)

inductive Asks (request : Option Request) (result : Reply → ρ)
    (item : ∀ β : Type, Interface β → Manager β → ρ × Manager β) : Prop
  | refused (r : ρ) : request = none → (∀ β B m, item β B m = (r, m)) → Asks request result item
  | asks {r : Request} (refusal : Reply) : request = some r → r ≠ .compact →
      (∀ β B m, item β B m = (result (dispatch refusal (answer B r) ns m).1,
        (dispatch refusal (answer B r) ns m).2)) → Asks request result item

theorem asks_write (overwrite : Bool) (item : KVItem) :
    Asks ns (writeRequest options overwrite item) (itemResult item.key)
      fun _ B => writeItem B options ns overwrite item := by
  by_cases hkey : item.key = []
  · exact .refused _ (if_pos hkey) fun _ _ _ => if_pos hkey
  by_cases hlarge : options.maxValueBytes > 0 ∧ item.value.length > options.maxValueBytes
  · exact .refused _ ((if_neg hkey).trans (if_pos hlarge))
      fun _ _ _ => (if_neg hkey).trans (if_pos hlarge)
  refine .asks (.wrote ⟨.invalidArgument, notRegistered ns⟩)
    ((if_neg hkey).trans (if_neg hlarge)) (by simp) fun _ B m => ?_
  refine ((if_neg hkey).trans (if_neg hlarge)).trans ?_
  cases h : m.lookup ns <;> simp [Namespaces.put, getBackend, dispatch, answer, itemResult, h]

theorem asks_read (opts : ReadOptions) (key : Bytes) :
    Asks ns (readRequest opts key) (readAnswer opts key) fun _ B => readKey B ns opts key := by
  by_cases hkey : key = []
  · exact .refused _ (if_pos hkey) fun _ _ _ => if_pos hkey
  refine .asks (.found { code := .invalidArgument, message := notRegistered ns }) (if_neg hkey)
    (by simp) fun _ B m => (if_neg hkey).trans ?_
  cases h : m.lookup ns <;> simp [Namespaces.get, getBackend, dispatch, answer, readAnswer, h]

theorem asks_delete (key : Bytes) :
    Asks ns (deleteRequest key) (itemResult key) fun _ B => deleteKey B ns key := by
  by_cases hkey : key = []
  · exact .refused _ (if_pos hkey) fun _ _ _ => if_pos hkey
  refine .asks (.wrote ⟨.invalidArgument, notRegistered ns⟩) (if_neg hkey) (by simp)
    fun _ B m => (if_neg hkey).trans ?_
  cases h : m.lookup ns <;> simp [Namespaces.delete, getBackend, dispatch, answer, itemResult, h]

end Asks

/-! One element depends on its namespace and changes nothing else. -/

section Framed

variable {β ε ρ : Type} {ns : String} {request : Option Request} {result : Reply → ρ}
  {item : ∀ β : Type, Interface β → Manager β → ρ × Manager β}

/-- A function of the backends that works on those of the namespace `ns`. -/
structure Framed (ns : String) (f : Manager β → ρ × Manager β) : Prop where
  other : ∀ m ns', ns' ≠ ns → (f m).2.lookup ns' = m.lookup ns'
  own : ∀ m m', m.lookup ns = m'.lookup ns →
    (f m).1 = (f m').1 ∧ (f m).2.lookup ns = (f m').2.lookup ns

theorem framed_pure (r : ρ) : Framed ns fun m : Manager β => (r, m) :=
  ⟨fun _ _ _ => rfl, fun _ _ h => ⟨rfl, h⟩⟩

theorem framed_dispatch (refusal : ρ) (operation : β → ρ × β) :
    Framed ns (dispatch refusal operation ns) where
  other m ns' hns := by
    cases h : m.lookup ns with
    | none => simp [dispatch, h]
    | some b => simp [dispatch, h, Finmap.lookup_insert_of_ne _ hns]
  own m m' hsame := by
    cases h : m.lookup ns with
    | none => simp [dispatch, h, ← hsame]
    | some b => simp [dispatch, h, ← hsame]

theorem Framed.map {ρ' : Type} {f : Manager β → ρ × Manager β} (h : Framed ns f) (g : ρ → ρ') :
    Framed ns fun m => (g (f m).1, (f m).2) :=
  ⟨h.other, fun m m' hsame => ⟨congrArg g (h.own m m' hsame).1, (h.own m m' hsame).2⟩⟩

theorem Asks.ne_compact (h : Asks ns request result item) {r : Request} (hr : request = some r) :
    r ≠ .compact := by
  cases h with
  | refused _ hnone _ => simp [hnone] at hr
  | asks _ hsome hne _ => exact Option.some.inj (hsome.symm.trans hr) ▸ hne

theorem Asks.framed (h : Asks ns request result item) (B : Interface β) :
    Framed ns (item β B) := by
  cases h with
  | refused r _ hitem =>
    rw [show item β B = fun m => (r, m) from funext (hitem β B)]
    exact framed_pure r
  | asks refusal _ _ hitem =>
    rw [show item β B = _ from funext (hitem β B)]
    exact (framed_dispatch refusal _).map result

theorem serveAll_other {item : ε → Manager β → (ρ × Bool) × Manager β}
    (h : ∀ x, Framed ns (item x)) {ns' : String} (hns : ns' ≠ ns) (xs : List ε) (m : Manager β) :
    (serveAll (element item) m xs).2.lookup ns' = m.lookup ns' := by
  have hproject : _ ∧ (serveAll (element item) m xs).2.lookup ns' =
      (serveAll (element item) m (xs.filter fun _ => false)).2.lookup ns' :=
    serveAll_project (fun m => m.lookup ns') (fun _ => false)
      (fun m x _ _ => (h x).other m ns' hns) (fun _ _ _ hmine => by cases hmine) rfl
  exact hproject.2.trans (by simp [serveAll])

theorem framed_batch (options : ServiceOptions) {item : ε → Manager β → (ρ × Bool) × Manager β}
    (h : ∀ x, Framed ns (item x)) (xs : List ε) : Framed ns (batch options item xs) := by
  refine ⟨fun m ns' hns => ?_, fun m m' hsame => ?_⟩
  · by_cases hsized : Sized options xs.length
    · rw [batch_sized hsized]
      exact serveAll_other h hns xs m
    · obtain ⟨r, hr⟩ := batch_refused (ρ := ρ) hsized
      rw [hr]
  · exact batch_agree (fun m m' : Manager β => m.lookup ns = m'.lookup ns)
      (fun m m' x _ hm => (h x).own m m' hm) options hsame

theorem framed_serve (B : Interface β) (options : ServiceOptions) (c : Call) :
    Framed c.ns fun m => serve B options m c := by
  cases c with
  | write request =>
    exact (framed_batch options (fun item => (asks_write options _ _ item).framed B) _).map
      Answer.wrote
  | read request =>
    exact (framed_batch options (fun key => (asks_read _ _ key).framed B) _).map Answer.found
  | delete request =>
    exact (framed_batch options (fun key => (asks_delete _ key).framed B) _).map Answer.deleted

end Framed

end ParaKV.Service.Calls
