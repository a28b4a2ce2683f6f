/- GID: ParaKV/Service/Machine
   source: parakv/parakv.cc, parakv/service/kvcache_storage_service_impl.cc,
     parakv/core/kvcache_storage/backend_namespace_manager.cc,
     parakv/core/kvcache_storage/index_kvcache_storage_backend.cc
   digest: A server over index backends: calls, compactions, shutdowns, kills and starts. -/

import ParaKV.Service.Hosts
import ParaKV.Storage.Persistence

set_option autoImplicit false

namespace ParaKV.Service.Machine

open Lib.Transducer Index.Key
open Core.State (Disk)
open Storage.Backend.Indexed Storage.Namespaces Storage.Simulation Storage.Persistence
open Storage.Directories (Directory)
open Service.Batch Service.Calls Service.Hosts

/-! The elements of a call. -/

section Elements

variable (options : ServiceOptions)

def requests : Call → List (Option Request)
  | .write request => request.items.map (writeRequest options request.overwrite)
  | .read request => request.keys.map
      (readRequest { includeValue := request.includeValue, touchOnHit := request.touchOnHit })
  | .delete request => request.keys.map deleteRequest

def afterElements {β : Type} (B : Interface β) (n : ℕ) (m : Manager β) : Call → Manager β
  | .write request => (serveAll (element (writeItem B options request.ns request.overwrite)) m
      (request.items.take n)).2
  | .read request => (serveAll (element (readKey B request.ns
      { includeValue := request.includeValue, touchOnHit := request.touchOnHit })) m
      (request.keys.take n)).2
  | .delete request => (serveAll (element (deleteKey B request.ns)) m (request.keys.take n)).2

end Elements

/-! The end of the process. -/

inductive Death
  /-- `Close` of every backend. -/
  | closed
  /-- Killed in `Close`, at a point of each backend or before its turn. -/
  | closing (point : String → Option ℕ)
  /-- Killed at a point of a call's element, when those before it were served. -/
  | serving (call : Call) (done point : ℕ)

section Death

variable {L : Type} (u : Setup) (lfu : Lfu L) (h : Host L)

/-- The files when each namespace in turn does something to those of its directory. -/
def eachDirectory (f : String → Disk Key128 → Disk Key128) (names : List String)
    (files : Directory → Disk Key128) : Directory → Disk Key128 :=
  names.foldl (fun files ns =>
    Function.update files (u.directory ns) (f ns (files (u.directory ns)))) files

/-- The files when each backend in turn does something to those of its directory. -/
def eachBackend (f : String → IndexBackend L → Disk Key128) : Directory → Disk Key128 :=
  eachDirectory u (fun ns d => ((h.backends.lookup ns).map fun s => f ns (s.over d)).getD d)
    u.names h.files

/-- The files after a start that is killed: the point that each namespace has reached, or `none`
before its turn. -/
def attempt (files : Directory → Disk Key128) (point : String → Option ℕ) :
    Directory → Disk Key128 :=
  eachDirectory u (fun ns d =>
    (point ns).elim d fun n => interrupted (u.config ns) u.hash d n) u.names files

/-- The files that the next process finds. -/
def filesAfter : Death → Directory → Disk Key128
  | .closed => eachBackend u h fun _ s => closed s.options u.hash s.server
  | .closing point => eachBackend u h fun ns s =>
    (point ns).elim s.disk fun n => closing s.options u.hash s.server n
  | .serving call done point =>
    if Sized u.service (requests u.service call).length then
      let h := h.leave u call.ns
        (afterElements u.service (indexed u.hash lfu) done (h.mount u call.ns) call)
      match ((requests u.service call)[done]?).join with
      | none => h.files
      | some r => Function.update h.files (u.directory call.ns)
          (((h.backends.lookup call.ns).map fun s =>
            serving s.options u.hash lfu s.server r point).getD (h.files (u.directory call.ns)))
    else h.files

end Death

/-! The machine. -/

inductive Event
  | call (call : Call)
  | compact (ns : String)
  /-- The process ends, some starts are killed, and one is not. -/
  | restart (death : Death) (attempts : List (String → Option ℕ))

section Step

variable {L : Type} (u : Setup) (lfu : Lfu L)

/-- One round of the statistics thread of a backend. It may never return, and then the model ends
here. -/
def compactBackend (h : Host L) (ns : String) : Option (Host L) :=
  match (h.mount u ns).lookup ns with
  | none => some h
  | some s => (s.server.after s.options u.hash lfu .compact).map fun server =>
      h.leave u ns ((h.mount u ns).insert ns { s with server })

def step : Option (Host L) → Event → Option Answer × Option (Host L)
  | none, _ => (none, none)
  | some h, .call call =>
    let r := h.call u lfu call
    (some r.1, some r.2)
  | some h, .compact ns => (none, compactBackend u lfu h ns)
  | some h, .restart death attempts =>
    (none, start u (attempts.foldl (attempt u) (filesAfter u lfu h death)) L)

end Step

/-! The service over in-memory backends, which never stops. -/

section Memory

variable (options : ServiceOptions)

/-- An item of a batch is served, or there is no room for it. -/
inductive Wrote (ns : String) (overwrite : Bool) :
    Manager InMemory → KVItem → ItemResult × Bool → Manager InMemory → Prop
  | served (m : Manager InMemory) (item : KVItem) :
      Wrote ns overwrite m item (writeItem inMemory options ns overwrite item m).1
        (writeItem inMemory options ns overwrite item m).2
  | full {m : Manager InMemory} {item : KVItem} :
      (m.lookup ns).isSome = true → (writeRequest options overwrite item).isSome = true →
      Wrote ns overwrite m item (⟨item.key, .storageFull, "index put failed"⟩, false) m

/-- A call is served, or it is a batch of items for which there may be no room. -/
inductive Explains (m : Manager InMemory) : Call → Answer → Manager InMemory → Prop
  | served (call : Call) : Explains m call (serve inMemory options m call).1
      (serve inMemory options m call).2
  | crowded {request : BatchWriteRequest} {answers : List (ItemResult × Bool)}
      {m' : Manager InMemory} : Sized options request.items.length →
      Behaves (Wrote options request.ns request.overwrite) m request.items answers m' →
      Explains m (.write request) (.wrote (respond answers)) m'

/-- The first `n` elements of a call. -/
inductive Part (m : Manager InMemory) : Call → ℕ → Manager InMemory → Prop
  | served (call : Call) (n : ℕ) : Part m call n (afterElements options inMemory n m call)
  | crowded {request : BatchWriteRequest} {answers : List (ItemResult × Bool)} {n : ℕ}
      {m' : Manager InMemory} :
      Behaves (Wrote options request.ns request.overwrite) m (request.items.take n) answers m' →
      Part m (.write request) n m'

/-- What an event is to the in-memory service: compactions and ends of the process are nothing,
but for the elements of a call that is cut off. -/
inductive Explained (m : Manager InMemory) : Event → Option Answer → Manager InMemory → Prop
  | call {call : Call} {answer : Answer} {m' : Manager InMemory} :
      Explains options m call answer m' → Explained m (.call call) (some answer) m'
  | compact (ns : String) : Explained m (.compact ns) none m
  | closed (attempts : List (String → Option ℕ)) : Explained m (.restart .closed attempts) none m
  | closing (point : String → Option ℕ) (attempts : List (String → Option ℕ)) :
      Explained m (.restart (.closing point) attempts) none m
  | refused {call : Call} (done point : ℕ) (attempts : List (String → Option ℕ)) :
      ¬ Sized options (requests options call).length →
      Explained m (.restart (.serving call done point) attempts) none m
  | cut {call : Call} {done n : ℕ} {m' : Manager InMemory} (point : ℕ)
      (attempts : List (String → Option ℕ)) : Sized options (requests options call).length →
      n = done ∨ n = done + 1 → Part options m call n m' →
      Explained m (.restart (.serving call done point) attempts) none m'

def memory (names : List String) (clock : ℕ → ℕ) : Manager InMemory :=
  names.foldr (fun ns m => m.insert ns ⟨{}, ∅, clock⟩) ∅

end Memory

/-! Which runs are compared. -/

section Kept

variable {L : Type} (u : Setup) (lfu : Lfu L)

/-- Keys of sixteen bytes, payloads that fit into a slot, no time to live and no touch. -/
def CallAdmitted (call : Call) : Prop :=
  ∀ q ∈ requests u.service call, ∀ r ∈ q, r.Admitted (u.config call.ns)

instance (call : Call) : Decidable (CallAdmitted u call) :=
  inferInstanceAs (Decidable (∀ q ∈ requests u.service call, ∀ r ∈ q, _))

def Event.Admitted : Event → Prop
  | .call c => CallAdmitted u c
  | .restart (.serving c _ _) _ => CallAdmitted u c
  | _ => True

instance : (e : Event) → Decidable (e.Admitted u)
  | .call c => inferInstanceAs (Decidable (CallAdmitted u c))
  | .compact _ => isTrue trivial
  | .restart (.serving c _ _) _ => inferInstanceAs (Decidable (CallAdmitted u c))
  | .restart .closed _ => isTrue trivial
  | .restart (.closing _) _ => isTrue trivial

/-- The process does not get to the end of `Close`. -/
def Event.kills : Event → Bool
  | .restart .closed _ => false
  | .restart _ _ => true
  | _ => false

/-- Whether a compaction has run since the last start. -/
def Event.compacted : Event → Bool → Bool
  | .call _, b => b
  | .compact _, _ => true
  | .restart _ _, _ => false

/-- A compaction gets its targets without an erase. -/
def Event.Calm (h : Host L) : Event → Prop
  | .compact ns => ∀ s ∈ (h.mount u ns).lookup ns,
      Request.compact.Calm s.options u.hash s.server.world
  | _ => True

instance (h : Host L) : (e : Event) → Decidable (e.Calm u h)
  | .compact ns => inferInstanceAs (Decidable (∀ s ∈ (h.mount u ns).lookup ns, _))
  | .call _ => isTrue trivial
  | .restart _ _ => isTrue trivial

/-- The calls are admitted, the compactions are calm, and the process is killed only while no
compaction has run since it was started. -/
def Kept : Bool → Option (Host L) → List Event → Prop
  | _, _, [] => True
  | b, h, e :: es => e.Admitted u ∧ (e.kills = true → b = false) ∧ (∀ x ∈ h, e.Calm u x) ∧
      Kept (e.compacted b) (step u lfu h e).2 es

instance instDecidableKept : (b : Bool) → (h : Option (Host L)) → (events : List Event) →
    Decidable (Kept u lfu b h events)
  | _, _, [] => isTrue trivial
  | b, h, e :: es =>
    have := instDecidableKept (e.compacted b) (step u lfu h e).2 es
    inferInstanceAs (Decidable (_ ∧ _ ∧ _ ∧ Kept u lfu (e.compacted b) (step u lfu h e).2 es))

end Kept

end ParaKV.Service.Machine
