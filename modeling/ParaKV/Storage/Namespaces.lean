/- GID: ParaKV/Storage/Namespaces
   source: parakv/core/kvcache_storage/backend_namespace_manager.cc, parakv/parakv.cc
   digest: The backends of a server by namespace. -/

import ParaKV.Storage.Backend

set_option autoImplicit false

namespace ParaKV.Storage.Namespaces

open Lib.LogMap Index.Key Storage.Backend

/-! The backends behind the interface. -/

/-- The virtual functions of a backend with its state. -/
structure Interface (β : Type) where
  put : β → Bytes → Bytes → Bytes → WriteOptions → WriteResult × β
  get : β → Bytes → ReadOptions → ReadResult × β
  delete : β → Bytes → WriteResult × β

/-- An in-memory backend, with the clock readings that are still to come. -/
structure InMemory where
  options : Mocked.Options
  store : Mocked.Store
  clock : ℕ → ℕ

def inMemory : Interface InMemory where
  put b key value metadata opts :=
    let r := Mocked.put b.options (b.clock 0) (b.clock 1) key value metadata opts b.store
    (r.1, { b with store := r.2, clock := fun n => b.clock (n + 2) })
  get b key opts :=
    let r := Mocked.get b.options (b.clock 0) key opts b.store
    (r.1, { b with store := r.2, clock := fun n => b.clock (n + 1) })
  delete b key :=
    let r := Mocked.delete key b.store
    (r.1, { b with store := r.2 })

/-! `BackendNamespaceManager`. -/

abbrev Manager (β : Type) := FMap String β

section Manager

variable {β : Type} (B : Interface β) (m : Manager β)

/-- A null backend is not modelled. -/
def register (ns : String) (backend : β) : Bool × Manager β :=
  if ns = "" then (false, m)
  else match m.lookup ns with
    | some _ => (false, m)
    | none => (true, m.insert ns backend)

def getBackend (ns : String) : Option β := m.lookup ns

def notRegistered (ns : String) : String := "namespace '" ++ ns ++ "' is not registered"

def put (ns : String) (key value metadata : Bytes) (opts : WriteOptions) :
    WriteResult × Manager β :=
  match getBackend m ns with
  | none => (⟨.invalidArgument, notRegistered ns⟩, m)
  | some b =>
    let r := B.put b key value metadata opts
    (r.1, m.insert ns r.2)

def get (ns : String) (key : Bytes) (opts : ReadOptions) : ReadResult × Manager β :=
  match getBackend m ns with
  | none => ({ code := .invalidArgument, message := notRegistered ns }, m)
  | some b =>
    let r := B.get b key opts
    (r.1, m.insert ns r.2)

def delete (ns : String) (key : Bytes) : WriteResult × Manager β :=
  match getBackend m ns with
  | none => (⟨.invalidArgument, notRegistered ns⟩, m)
  | some b =>
    let r := B.delete b key
    (r.1, m.insert ns r.2)

end Manager

end ParaKV.Storage.Namespaces
