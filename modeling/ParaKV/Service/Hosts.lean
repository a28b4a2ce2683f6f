/- GID: ParaKV/Service/Hosts
   source: parakv/parakv.cc, parakv/service/kvcache_storage_service_impl.cc,
     parakv/core/kvcache_storage/backend_registry.cc,
     parakv/core/kvcache_storage/backend_namespace_manager.cc,
     parakv/core/kvcache_storage/index_kvcache_storage_backend.cc
   digest: The index backends of a server over one file system, and when they do not interfere. -/

import ParaKV.Service.Calls
import ParaKV.Storage.Directories

set_option autoImplicit false

namespace ParaKV.Service.Hosts

open Lib.HashOrder Lib.Transducer Index.Key
open Core.State (Disk run)
open Storage.Backend Storage.Backend.Indexed Storage.Namespaces Storage.Simulation
open Storage.Directories (Directory rootPath rootDir)
open Service.Batch Service.Calls

/-! The index backend behind the interface. -/

structure IndexBackend (L : Type) where
  options : Indexed.Options
  server : Server L

section Indexed

variable {L : Type} (hash : HashPolicy ℕ) (lfu : Lfu L)

def indexed : Interface (IndexBackend L) where
  put s key value metadata opts :=
    let r := run (Indexed.put s.options lfu (indexOptions s.options hash) s.server.ctx key value
      metadata opts) s.server.world
    (r.val.1, { s with server := ⟨r.state, r.val.2⟩ })
  get s key opts :=
    let r := run (Indexed.get s.options lfu (indexOptions s.options hash) s.server.ctx key opts)
      s.server.world
    (r.val.1, { s with server := ⟨r.state, r.val.2⟩ })
  delete s key :=
    let r := run (Indexed.delete lfu (indexOptions s.options hash) s.server.ctx key)
      s.server.world
    (r.val.1, { s with server := ⟨r.state, r.val.2⟩ })

def IndexBackend.disk (s : IndexBackend L) : Disk Key128 := s.server.world.disk

/-- The backend as it finds the files of its directory. -/
def IndexBackend.over (s : IndexBackend L) (d : Disk Key128) : IndexBackend L :=
  { s with server := { s.server with world := { s.server.world with disk := d } } }

theorem IndexBackend.over_disk (s : IndexBackend L) : s.over s.disk = s := rfl

end Indexed

/-! The flags of the server. -/

def bytesOf (s : String) : Bytes := s.toUTF8.data.toList

/-- The text of a path, one character for a byte. -/
def textOf (path : Bytes) : String := String.ofList (path.map fun c => Char.ofNat c.toNat)

/-- The flags; `backend` has all options but the root directory. -/
structure Setup where
  names : List String
  cwd : Directory
  workspace : Bytes
  backend : Indexed.Options
  hash : HashPolicy ℕ
  service : ServiceOptions

namespace Setup

variable (u : Setup) (ns : String)

/-- The options as the factory of `kvcache_index128` sets them. -/
def config : Indexed.Options :=
  { u.backend with rootDir := textOf (rootPath u.workspace (bytesOf ns)) }

def directory : Directory := rootDir u.cwd u.workspace (bytesOf ns)

theorem rootDir_ne : (u.config ns).rootDir ≠ "" := by
  intro hempty
  have hlength := congrArg String.length hempty
  simp [config, textOf, rootPath] at hlength

end Setup

/-! The process and the files. -/

/-- The memory of the backends, and the contents of the directories. -/
structure Host (L : Type) where
  backends : Manager (IndexBackend L)
  files : Directory → Disk Key128

section Host

variable {L : Type} (u : Setup) (lfu : Lfu L) (h : Host L) (ns : String)

/-- The backends when the one of the namespace has its files before it. -/
def Host.mount : Manager (IndexBackend L) :=
  match h.backends.lookup ns with
  | none => h.backends
  | some s => h.backends.insert ns (s.over (h.files (u.directory ns)))

/-- The backends are left as `m`, and the files of the namespace's directory as its backend leaves
them. Other namespaces may have the same directory. -/
def Host.leave (m : Manager (IndexBackend L)) : Host L where
  backends := m
  files := Function.update h.files (u.directory ns)
    (((m.lookup ns).map IndexBackend.disk).getD (h.files (u.directory ns)))

def Host.call (c : Call) : Answer × Host L :=
  let r := serve (indexed u.hash lfu) u.service (h.mount u c.ns) c
  (r.1, h.leave u c.ns r.2)

/-- The loop over the namespaces. The factory of the index backend always makes a backend; one
whose context could not be created refuses every call. There is no cache: `lfu_capacity_ratio`
is 0. -/
def registerBackends : List String → Host L → Option (Host L)
  | [], h => some h
  | ns :: names, h =>
    match register h.backends ns
      ⟨u.config ns, boot L (u.config ns) u.hash (h.files (u.directory ns))⟩ with
    | (true, m) => registerBackends names (h.leave u ns m)
    | (false, _) => none

/-- `main` up to the point where the server listens; `none` is its `return -1`. -/
def start (files : Directory → Disk Key128) (L : Type) : Option (Host L) :=
  if u.names = [] then none else registerBackends u u.names ⟨∅, files⟩

variable {u h ns} {ns' : String} {m : Manager (IndexBackend L)}

theorem mount_own :
    (h.mount u ns).lookup ns = (h.backends.lookup ns).map (·.over (h.files (u.directory ns))) := by
  unfold Host.mount
  cases hlookup : h.backends.lookup ns with
  | none => exact hlookup
  | some s => exact Finmap.lookup_insert _

theorem mount_other (hne : ns' ≠ ns) : (h.mount u ns).lookup ns' = h.backends.lookup ns' := by
  unfold Host.mount
  cases h.backends.lookup ns with
  | none => rfl
  | some s => exact Finmap.lookup_insert_of_ne _ hne

theorem leave_own : (h.leave u ns m).files (u.directory ns) =
    ((m.lookup ns).map IndexBackend.disk).getD (h.files (u.directory ns)) :=
  Function.update_self ..

theorem leave_other {dir : Directory} (hne : dir ≠ u.directory ns) :
    (h.leave u ns m).files dir = h.files dir :=
  Function.update_of_ne hne ..

end Host

/-! Namespaces in different directories. -/

section Own

variable {L : Type} {u : Setup} {lfu : Lfu L} {ns : String} {c : Call}

def Host.own (u : Setup) (ns : String) (h : Host L) :
    Option (IndexBackend L) × Disk Key128 :=
  (h.backends.lookup ns, h.files (u.directory ns))

theorem own_call_other (h : Host L) (hns : c.ns ≠ ns)
    (hdirectory : u.directory c.ns ≠ u.directory ns) :
    (h.call u lfu c).2.own u ns = h.own u ns := by
  refine Prod.ext ?_ (leave_other hdirectory.symm)
  have hframed := (framed_serve (indexed u.hash lfu) u.service c).other (h.mount u c.ns) ns hns.symm
  exact hframed.trans (mount_other hns.symm)

theorem own_call_congr {h h' : Host L} (hsame : h.own u c.ns = h'.own u c.ns) :
    (h.call u lfu c).1 = (h'.call u lfu c).1 ∧
      (h.call u lfu c).2.own u c.ns = (h'.call u lfu c).2.own u c.ns := by
  have hbackend : h.backends.lookup c.ns = h'.backends.lookup c.ns := congrArg Prod.fst hsame
  have hfiles : h.files (u.directory c.ns) = h'.files (u.directory c.ns) :=
    congrArg Prod.snd hsame
  have hmount : (h.mount u c.ns).lookup c.ns = (h'.mount u c.ns).lookup c.ns := by
    rw [mount_own, mount_own, hbackend, hfiles]
  obtain ⟨hanswer, hlookup⟩ := (framed_serve (indexed u.hash lfu) u.service c).own _ _ hmount
  refine ⟨hanswer, Prod.ext hlookup ?_⟩
  show (h.leave u c.ns _).files (u.directory c.ns) = (h'.leave u c.ns _).files (u.directory c.ns)
  rw [leave_own, leave_own, hlookup, hfiles]

/-- Over every run of calls, the answers to the calls for a namespace, its backend and its files at
the end are those of the run that has only these calls, if the other namespaces that are called
have other directories. -/
theorem namespaces_do_not_interfere (u : Setup) (lfu : Lfu L) (ns : String) (h : Host L)
    (calls : List Call)
    (hapart : ∀ c ∈ calls, c.ns ≠ ns → u.directory c.ns ≠ u.directory ns) :
    let all := serveAll (fun h c => h.call u lfu c) h calls
    let own := serveAll (fun h c => h.call u lfu c) h (calls.filter fun c => c.ns = ns)
    ((calls.zip all.1).filter fun p => p.1.ns = ns).map Prod.snd = own.1 ∧
      all.2.own u ns = own.2.own u ns := by
  refine serveAll_project (Host.own u ns) (fun c : Call => c.ns = ns) (fun h c hcall hc => ?_)
    (fun h h' c hc hsame => ?_) rfl
  · have hns : c.ns ≠ ns := by simpa using hc
    exact own_call_other h hns (hapart c hcall hns)
  · obtain rfl : c.ns = ns := by simpa using hc
    exact own_call_congr hsame

def twoNamespaces : Setup where
  names := ["left", "right"]
  cwd := []
  workspace := bytesOf "store"
  backend := smallBackend
  hash := frontPolicy ℕ
  service := {}

def mixedCalls : List Call :=
  [.write { ns := "left", items := [⟨keyOf 0, [5], 0, []⟩] },
    .write { ns := "right", items := [⟨keyOf 0, [6], 0, [7]⟩] },
    .delete { ns := "right", keys := [keyOf 0] }, .read { ns := "left", keys := [keyOf 0] }]

set_option maxRecDepth 100000 in
theorem namespaces_do_not_interfere_mixed :
    ∃ h, start twoNamespaces (fun _ => Disk.empty Key128) Unit = some h ∧
      let all := serveAll (fun h c => h.call twoNamespaces noCache c) h mixedCalls
      let own := serveAll (fun h c => h.call twoNamespaces noCache c) h
        (mixedCalls.filter fun c => c.ns = "left")
      ((mixedCalls.zip all.1).filter fun p => p.1.ns = "left").map Prod.snd = own.1 ∧
        all.2.own twoNamespaces "left" = own.2.own twoNamespaces "left" := by
  obtain ⟨h, hstart⟩ := Option.isSome_iff_exists.mp
    (show (start twoNamespaces (fun _ => Disk.empty Key128) Unit).isSome = true by decide +kernel)
  refine ⟨h, hstart, namespaces_do_not_interfere twoNamespaces noCache "left" h mixedCalls ?_⟩
  decide +kernel

end Own

end ParaKV.Service.Hosts
