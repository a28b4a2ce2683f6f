/- GID: ParaKV/Service/Restarts
   source: parakv/parakv.cc, parakv/service/kvcache_storage_service_impl.cc,
     parakv/core/kvcache_storage/backend_namespace_manager.cc,
     parakv/core/kvcache_storage/index_kvcache_storage_backend.cc,
     parakv/core/kvcache_storage/mocked_inmemory_kvcache_storage.cc
   digest: A server that is stopped, killed and started again answers as an in-memory service. -/

import ParaKV.Service.Refinement

set_option autoImplicit false

namespace ParaKV.Service.Restarts

open Lib.Transducer Index.Key
open Core.State (Disk)
open Storage.Backend.Indexed Storage.Namespaces Storage.Simulation Storage.Persistence
open Storage.Directories (Directory)
open Service.Batch Service.Calls Service.Hosts Service.Machine Service.Refinement

variable {L : Type} {u : Setup} {lfu : Lfu L} {compacted : Bool} {ns : String}
  {m : Manager (IndexBackend L)} {h : Host L} {mem : Manager InMemory}

/-! Each backend has its own files. -/

/-- The backends of the two services, where those of the server have their files before them. -/
structure Mirrored (u : Setup) (compacted : Bool) (h : Host L) (mem : Manager InMemory) :
    Prop where
  paired : Paired u compacted h.backends mem
  files : ∀ ns s, h.backends.lookup ns = some s → s.disk = h.files (u.directory ns)

theorem Mirrored.mount_eq (hmirrored : Mirrored u compacted h mem) (ns : String) :
    h.mount u ns = h.backends := by
  unfold Host.mount
  cases hs : h.backends.lookup ns with
  | none => rfl
  | some s =>
    refine Finmap.ext_lookup fun ns' => ?_
    by_cases heq : ns' = ns
    · rw [heq, Finmap.lookup_insert, ← hmirrored.files ns s hs, s.over_disk, hs]
    · exact Finmap.lookup_insert_of_ne _ heq

theorem Mirrored.leave (hready : Ready u) (hmirrored : Mirrored u compacted h mem)
    {compacted' : Bool} {mem' : Manager InMemory} (hpaired : Paired u compacted' m mem')
    (hother : ∀ ns', ns' ≠ ns → m.lookup ns' = h.backends.lookup ns') :
    Mirrored u compacted' (h.leave u ns m) mem' := by
  refine ⟨hpaired, fun ns' s hs => ?_⟩
  by_cases heq : ns' = ns
  · subst heq
    rw [leave_own, show m.lookup ns' = some s from hs]
    rfl
  · have hold : h.backends.lookup ns' = some s := (hother ns' heq).symm.trans hs
    rw [hmirrored.files ns' s hold]
    by_cases hns : ns ∈ u.names
    · have hns' := hpaired.named_of_some hs
      exact (leave_other (hready.directory_ne hns' hns heq)).symm
    · have hnone := (hpaired.unnamed ns hns).1
      by_cases hdirectory : u.directory ns' = u.directory ns
      · rw [hdirectory, leave_own, hnone]
        rfl
      · exact (leave_other hdirectory).symm

/-! The start of a process. -/

theorem register_new {β : Type} {m : Manager β} (hns : ns ≠ "") (h : m.lookup ns = none) (b : β) :
    register m ns b = (true, m.insert ns b) := by
  simp [register, hns, h]

def started (L : Type) (u : Setup) (files : Directory → Disk Key128) (ns : String) :
    IndexBackend L :=
  ⟨u.config ns, boot L (u.config ns) u.hash (files (u.directory ns))⟩

theorem registerBackends_lookup {names : List String} (hapart : (names.map u.directory).Nodup)
    (hnonempty : "" ∉ names) {h : Host L} (hfresh : ∀ ns ∈ names, h.backends.lookup ns = none) :
    ∃ h', registerBackends u names h = some h' ∧
      (∀ ns, h'.backends.lookup ns =
        if ns ∈ names then some (started L u h.files ns) else h.backends.lookup ns) ∧
      (∀ ns ∈ names, h'.files (u.directory ns) = (started L u h.files ns).disk) ∧
      ∀ dir ∉ names.map u.directory, h'.files dir = h.files dir := by
  induction names generalizing h with
  | nil =>
    refine ⟨h, rfl, fun ns => ?_, fun ns hns => ?_, fun _ _ => rfl⟩
    · simp
    · simp at hns
  | cons name names ih =>
    rw [List.map_cons] at hapart
    obtain ⟨hnotin, hapart⟩ := List.nodup_cons.mp hapart
    have hname : name ≠ "" := fun heq => hnonempty (by simp [heq])
    have hdirectory : ∀ ns ∈ names, u.directory ns ≠ u.directory name := fun ns hns heq =>
      hnotin (heq ▸ List.mem_map_of_mem hns)
    have hne : ∀ ns ∈ names, ns ≠ name := fun ns hns heq => hdirectory ns hns (by rw [heq])
    set m := h.backends.insert name (started L u h.files name) with hm
    have hother : ∀ ns, ns ≠ name → m.lookup ns = h.backends.lookup ns := fun ns hns =>
      Finmap.lookup_insert_of_ne _ hns
    obtain ⟨h', hh', hlookup, hfiles, hrest⟩ := ih (h := h.leave u name m) hapart
      (fun hmem => hnonempty (List.mem_cons_of_mem _ hmem)) fun ns hns =>
        (hother ns (hne ns hns)).trans (hfresh ns (List.mem_cons_of_mem _ hns))
    have hsame : ∀ ns ∈ names, started L u (h.leave u name m).files ns = started L u h.files ns :=
      fun ns hns => by rw [started, started, leave_other (hdirectory ns hns)]
    refine ⟨h', ?_, fun ns => ?_, fun ns hns => ?_, fun dir hdir => ?_⟩
    · have hregister := register_new (m := h.backends) hname (hfresh name List.mem_cons_self)
        (started L u h.files name)
      rw [started] at hregister
      simp only [registerBackends, hregister]
      exact hh'
    · rw [hlookup]
      by_cases hns : ns ∈ names
      · rw [if_pos hns, if_pos (List.mem_cons_of_mem _ hns), hsame ns hns]
      · rw [if_neg hns]
        by_cases heq : ns = name
        · rw [heq, if_pos List.mem_cons_self]
          exact Finmap.lookup_insert _
        · rw [if_neg (by simp [heq, hns])]
          exact hother ns heq
    · rcases List.mem_cons.mp hns with rfl | hns
      · rw [hrest _ hnotin, leave_own, hm, Finmap.lookup_insert]
        rfl
      · rw [hfiles ns hns, hsame ns hns]
    · simp only [List.map_cons, List.mem_cons, not_or] at hdir
      rw [hrest dir hdir.2, leave_other hdir.1]

/-- The server starts when each name that it is given can be served from the files. -/
theorem start_mirrored (hready : Ready u) {files : Directory → Disk Key128}
    (hnamed : ∀ ns ∈ u.names, ∃ t, mem.lookup ns = some t ∧
      Twins u false ns (started L u files ns) t)
    (hunnamed : ∀ ns, ns ∉ u.names → mem.lookup ns = none) :
    ∃ h, start u files L = some h ∧ Mirrored u false h mem := by
  obtain ⟨h, hh, hlookup, hfiles, -⟩ := registerBackends_lookup hready.apart hready.nonempty
    (h := (⟨∅, files⟩ : Host L)) fun ns _ => rfl
  have hpaired : Paired u false h.backends mem := by
    refine ⟨fun ns hns => ?_, fun ns hns => ?_⟩
    · obtain ⟨t, ht, htwins⟩ := hnamed ns hns
      exact ⟨_, t, (hlookup ns).trans (if_pos hns), ht, htwins⟩
    · exact ⟨(hlookup ns).trans (if_neg hns), hunnamed ns hns⟩
  refine ⟨h, (if_neg hready.some).trans hh, hpaired, fun ns s hs => ?_⟩
  have hns := hpaired.named_of_some hs
  rw [hlookup, if_pos hns] at hs
  rw [hfiles ns hns, ← Option.some.inj hs]

/-- Files from which every backend of the in-memory service can be recovered. -/
structure Holds (u : Setup) (files : Directory → Disk Key128) (mem : Manager InMemory) : Prop where
  named : ∀ ns ∈ u.names, ∃ t, mem.lookup ns = some t ∧ t.options = {} ∧
    Leaves (u.config ns) u.hash (files (u.directory ns)) t.store
  unnamed : ∀ ns, ns ∉ u.names → mem.lookup ns = none

theorem start_holds (hready : Ready u) {files : Directory → Disk Key128} (h : Holds u files mem) :
    ∃ h, start u files L = some h ∧ Mirrored u false h mem := by
  refine start_mirrored hready (fun ns hns => ?_) h.unnamed
  obtain ⟨t, ht, hplain, hleaves⟩ := h.named ns hns
  obtain ⟨hbacks, hsettled⟩ := boot_backs (L := L) (hready.usable ns) hleaves
  exact ⟨t, ht, rfl, hplain, hbacks, fun _ => hsettled⟩

theorem memory_lookup (names : List String) (clock : ℕ → ℕ) (ns : String) :
    (memory names clock).lookup ns =
      if ns ∈ names then some ⟨{}, ∅, clock⟩ else none := by
  induction names with
  | nil => rfl
  | cons name names ih =>
    by_cases heq : ns = name
    · subst heq
      simp [memory, Finmap.lookup_insert]
    · rw [memory, List.foldr_cons, Finmap.lookup_insert_of_ne _ heq]
      exact ih.trans (by simp [heq])

theorem start_empty (hready : Ready u) (clock : ℕ → ℕ) :
    ∃ h, start u (fun _ => Disk.empty Key128) L = some h ∧
      Mirrored u false h (memory u.names clock) := by
  refine start_mirrored hready (fun ns hns => ?_) fun ns hns =>
    (memory_lookup _ clock ns).trans (if_neg hns)
  obtain ⟨hbacks, hsettled⟩ := boot_empty (L := L) (hready.usable ns)
  exact ⟨_, (memory_lookup _ clock ns).trans (if_pos hns), rfl, rfl, hbacks, fun _ => hsettled⟩

/-! Files that each namespace changes in turn. -/

section Each

variable {f : String → Disk Key128 → Disk Key128}

theorem eachDirectory_other {dir : Directory} (names : List String)
    (files : Directory → Disk Key128)
    (hdir : dir ∉ names.map u.directory) : eachDirectory u f names files dir = files dir := by
  induction names generalizing files with
  | nil => rfl
  | cons name names ih =>
    simp only [List.map_cons, List.mem_cons, not_or] at hdir
    exact (ih _ hdir.2).trans (Function.update_of_ne hdir.1 ..)

theorem eachDirectory_own {names : List String} (hapart : (names.map u.directory).Nodup)
    (files : Directory → Disk Key128) (hns : ns ∈ names) :
    eachDirectory u f names files (u.directory ns) = f ns (files (u.directory ns)) := by
  induction names generalizing files with
  | nil => cases hns
  | cons name names ih =>
    rw [List.map_cons] at hapart
    obtain ⟨hnotin, hapart⟩ := List.nodup_cons.mp hapart
    rcases List.mem_cons.mp hns with rfl | hns
    · exact (eachDirectory_other names _ hnotin).trans (Function.update_self ..)
    · have hne : u.directory ns ≠ u.directory name := fun heq =>
        hnotin (heq ▸ List.mem_map_of_mem hns)
      exact (ih hapart _ hns).trans (congrArg (f ns) (Function.update_of_ne hne ..))

end Each

theorem holds_attempts (hready : Ready u) (attempts : List (String → Option ℕ)) :
    ∀ {files : Directory → Disk Key128}, Holds u files mem →
      Holds u (attempts.foldl (attempt u) files) mem := by
  induction attempts with
  | nil => exact fun h => h
  | cons point attempts ih =>
    intro files h
    refine ih ⟨fun ns hns => ?_, h.unnamed⟩
    obtain ⟨t, ht, hplain, hleaves⟩ := h.named ns hns
    refine ⟨t, ht, hplain, ?_⟩
    rw [attempt, eachDirectory_own hready.apart files hns]
    cases point ns with
    | none => exact hleaves
    | some n => exact leaves_interrupted (hready.usable ns) hleaves n

/-! The end of a process. -/

theorem Paired.holds (hpaired : Paired u compacted m mem) {files : Directory → Disk Key128}
    (hfiles : ∀ ns ∈ u.names, ∀ s t, m.lookup ns = some s → Twins u compacted ns s t →
      Leaves (u.config ns) u.hash (files (u.directory ns)) t.store) : Holds u files mem where
  named ns hns := by
    obtain ⟨s, t, hs, ht, htwins⟩ := hpaired.named ns hns
    exact ⟨t, ht, htwins.plain, hfiles ns hns s t hs htwins⟩
  unnamed ns hns := (hpaired.unnamed ns hns).2

theorem Mirrored.holds (hmirrored : Mirrored u false h mem) : Holds u h.files mem := by
  refine Paired.holds hmirrored.paired fun ns hns s t hs htwins => ?_
  rw [← hmirrored.files ns s hs]
  exact leaves_killed htwins.backs (htwins.settled rfl)

theorem holds_each (hready : Ready u) (hmirrored : Mirrored u compacted h mem)
    {f : String → IndexBackend L → Disk Key128}
    (hleaves : ∀ ns s t, Twins u compacted ns s t →
      Leaves (u.config ns) u.hash (f ns s) t.store) : Holds u (eachBackend u h f) mem := by
  refine Paired.holds hmirrored.paired fun ns hns s t hs htwins => ?_
  rw [eachBackend, eachDirectory_own hready.apart h.files hns, hs, ← hmirrored.files ns s hs]
  exact hleaves ns s t htwins

theorem holds_closed (hready : Ready u) (hmirrored : Mirrored u compacted h mem) :
    Holds u (filesAfter u lfu h .closed) mem := by
  unfold filesAfter
  refine holds_each hready hmirrored fun ns s t htwins => ?_
  rw [htwins.options]
  exact leaves_closed htwins.backs (u.rootDir_ne ns)

theorem holds_closing (hready : Ready u) (hmirrored : Mirrored u false h mem)
    (point : String → Option ℕ) : Holds u (filesAfter u lfu h (.closing point)) mem := by
  unfold filesAfter
  refine holds_each hready hmirrored fun ns s t htwins => ?_
  cases point ns with
  | none => exact leaves_killed htwins.backs (htwins.settled rfl)
  | some n =>
    show Leaves _ _ (closing s.options u.hash s.server n) _
    rw [htwins.options]
    exact leaves_closing (hready.usable ns) htwins.backs (htwins.settled rfl) n

theorem Mirrored.holds_but (hready : Ready u) (hmirrored : Mirrored u false h mem)
    {mem' : Manager InMemory} {d : Disk Key128} (hns : ns ∈ u.names)
    (hown : ∃ t, mem'.lookup ns = some t ∧ t.options = {} ∧ Leaves (u.config ns) u.hash d t.store)
    (hother : ∀ ns', ns' ≠ ns → mem'.lookup ns' = mem.lookup ns') :
    Holds u (Function.update h.files (u.directory ns) d) mem' where
  named ns' hns' := by
    by_cases heq : ns' = ns
    · subst heq
      rw [Function.update_self]
      exact hown
    · rw [hother ns' heq, Function.update_of_ne (hready.directory_ne hns' hns heq)]
      exact hmirrored.holds.named ns' hns'
  unnamed ns' hns' := by
    rw [hother ns' fun heq => hns' (heq ▸ hns)]
    exact (hmirrored.paired.unnamed ns' hns').2

/-- A kill inside a request: the files are those before it or those after it. -/
theorem holds_serving (hready : Ready u) (lfu : Lfu L) (hmirrored : Mirrored u false h mem)
    {r : Request} (hr : r ≠ .compact) (hadmitted : r.Admitted (u.config ns)) (point : ℕ)
    {mem' : Manager InMemory} (hadvances : Advances ns r mem mem') :
    let files := Function.update h.files (u.directory ns) (((h.backends.lookup ns).map fun s =>
      serving s.options u.hash lfu s.server r point).getD (h.files (u.directory ns)))
    Holds u files mem ∨ Holds u files mem' := by
  intro files
  by_cases hns : ns ∈ u.names
  · obtain ⟨s, t, hs, ht, htwins⟩ := hmirrored.paired.named ns hns
    obtain ⟨t', ht', hplain', hstore⟩ := hadvances.own t ht htwins.plain
    have hfiles : files = Function.update h.files (u.directory ns)
        (serving (u.config ns) u.hash lfu s.server r point) := by
      simp only [files, hs, Option.map_some, Option.getD_some, htwins.options]
    rw [hfiles]
    rcases leaves_serving lfu (hready.usable ns) htwins.backs (htwins.settled rfl)
      (timed t r) hr hadmitted point with hleaves | hleaves
    · exact Or.inl (hmirrored.holds_but hready hns ⟨t, ht, htwins.plain, hleaves⟩ fun _ _ => rfl)
    · rw [← hstore] at hleaves
      exact Or.inr (hmirrored.holds_but hready hns ⟨t', ht', hplain', hleaves⟩ hadvances.other)
  · have hfiles : files = h.files := by
      simp only [files, (hmirrored.paired.unnamed ns hns).1, Option.map_none, Option.getD_none,
        Function.update_eq_self]
    rw [hfiles]
    exact Or.inl hmirrored.holds

theorem request_ne_compact {options : ServiceOptions} {call : Call} {n : ℕ} {r : Request}
    (hr : ((requests options call)[n]?).join = some r) : r ≠ .compact := by
  cases call with
  | write request =>
    obtain ⟨item, -, hr⟩ := exists_of_join hr
    exact (asks_write options request.ns _ item).ne_compact hr
  | read request =>
    obtain ⟨key, -, hr⟩ := exists_of_join hr
    exact (asks_read request.ns _ key).ne_compact hr
  | delete request =>
    obtain ⟨key, -, hr⟩ := exists_of_join hr
    exact (asks_delete request.ns key).ne_compact hr

theorem afterElements_other {β : Type} (B : Interface β) (options : ServiceOptions) (n : ℕ)
    (m : Manager β) (call : Call) {ns' : String} (hns : ns' ≠ call.ns) :
    (afterElements options B n m call).lookup ns' = m.lookup ns' := by
  cases call with
  | write request =>
    exact serveAll_other (fun item => (asks_write options _ _ item).framed B) hns _ m
  | read request => exact serveAll_other (fun key => (asks_read _ _ key).framed B) hns _ m
  | delete request => exact serveAll_other (fun key => (asks_delete _ key).framed B) hns _ m

/-- The process ends in one of the ways: what its files hold is a state of the in-memory
service. -/
theorem death_holds (hready : Ready u) (lfu : Lfu L) (hmirrored : Mirrored u compacted h mem)
    {death : Death} {attempts : List (String → Option ℕ)}
    (hadmitted : (Event.restart death attempts).Admitted u)
    (hkills : (Event.restart death attempts).kills = true → compacted = false) :
    ∃ mem', Explained u.service mem (.restart death attempts) none mem' ∧
      Holds u (filesAfter u lfu h death) mem' := by
  cases death with
  | closed => exact ⟨mem, .closed attempts, holds_closed hready hmirrored⟩
  | closing point =>
    obtain rfl := hkills rfl
    exact ⟨mem, .closing point attempts, holds_closing hready hmirrored point⟩
  | serving call done point =>
    obtain rfl := hkills rfl
    by_cases hsized : Sized u.service (requests u.service call).length
    swap
    · refine ⟨mem, .refused done point attempts hsized, ?_⟩
      simp only [filesAfter, if_neg hsized]
      exact hmirrored.holds
    obtain ⟨mem₁, hpart, hpaired⟩ := elements_paired hready lfu hmirrored.paired hadmitted done
    have hnext := Mirrored.leave hready hmirrored hpaired
      fun ns' => afterElements_other (indexed u.hash lfu) u.service done h.backends call
    cases hr : ((requests u.service call)[done]?).join with
    | none =>
      refine ⟨mem₁, .cut point attempts hsized (Or.inl rfl) hpart, ?_⟩
      simp only [filesAfter, if_pos hsized, hr, hmirrored.mount_eq]
      exact hnext.holds
    | some r =>
      have hadmitted' : r.Admitted (u.config call.ns) :=
        hadmitted _ (List.mem_of_getElem? (Option.join_eq_some_iff.mp hr)) r rfl
      obtain ⟨mem₂, hpart₂, hadvances⟩ := part_next hpart hr
      have hfiles := holds_serving hready lfu hnext (request_ne_compact hr) hadmitted' point
        hadvances
      simp only [filesAfter, if_pos hsized, hr, hmirrored.mount_eq]
      rcases hfiles with hfiles | hfiles
      · exact ⟨mem₁, .cut point attempts hsized (Or.inl rfl) hpart, hfiles⟩
      · exact ⟨mem₂, .cut point attempts hsized (Or.inr rfl) hpart₂, hfiles⟩

/-! Runs. -/

theorem compact_mirrored (hready : Ready u) (lfu : Lfu L) (hmirrored : Mirrored u compacted h mem)
    {ns : String} (hcalm : (Event.compact ns).Calm u h) :
    ∃ h', compactBackend u lfu h ns = some h' ∧ Mirrored u true h' mem := by
  have hweaken := hmirrored.paired.weaken
  unfold compactBackend
  rw [Event.Calm, hmirrored.mount_eq] at hcalm
  rw [hmirrored.mount_eq]
  cases hs : h.backends.lookup ns with
  | none => exact ⟨h, rfl, hweaken, hmirrored.files⟩
  | some s =>
    have hns := hmirrored.paired.named_of_some hs
    obtain ⟨s', t, hs', ht, htwins⟩ := hmirrored.paired.named ns hns
    obtain rfl := Option.some.inj (hs'.symm.trans hs)
    obtain ⟨server, hserver, hnext⟩ := twins_compact lfu (hready.usable ns) htwins
      (hcalm _ hs)
    refine ⟨_, congrArg (Option.map _) hserver, Mirrored.leave hready hmirrored
      (hweaken.update hns hnext ht fun _ _ => rfl) fun ns' hne => ?_⟩
    exact Finmap.lookup_insert_of_ne _ hne

/-- One event: the in-memory service explains the answer, and the server is up. -/
theorem step_explained (hready : Ready u) (lfu : Lfu L) (hmirrored : Mirrored u compacted h mem)
    {e : Event} (hadmitted : e.Admitted u) (hkills : e.kills = true → compacted = false)
    (hcalm : e.Calm u h) :
    ∃ h' mem', (step u lfu (some h) e).2 = some h' ∧
      Explained u.service mem e (step u lfu (some h) e).1 mem' ∧
      Mirrored u (e.compacted compacted) h' mem' := by
  cases e with
  | call call =>
    obtain ⟨mem', hexplains, hnext⟩ := call_paired hready lfu hmirrored.paired hadmitted
    rw [← hmirrored.mount_eq call.ns] at hexplains hnext
    refine ⟨_, mem', rfl, .call hexplains, Mirrored.leave hready hmirrored hnext fun ns' hne => ?_⟩
    rw [hmirrored.mount_eq]
    exact (framed_serve (indexed u.hash lfu) u.service call).other h.backends ns' hne
  | compact ns =>
    obtain ⟨h', hh', hnext⟩ := compact_mirrored hready lfu hmirrored hcalm
    exact ⟨h', mem, hh', .compact ns, hnext⟩
  | restart death attempts =>
    obtain ⟨mem', hexplained, hholds⟩ := death_holds hready lfu hmirrored hadmitted hkills
    obtain ⟨h', hh', hnext⟩ := start_holds (L := L) hready (holds_attempts hready attempts hholds)
    exact ⟨h', mem', hh', hexplained, hnext⟩

theorem run_explained (hready : Ready u) (lfu : Lfu L) (events : List Event) :
    ∀ {compacted : Bool} {h : Host L} {mem : Manager InMemory},
      Mirrored u compacted h mem → Kept u lfu compacted (some h) events →
      ∃ mem', Behaves (Explained u.service) mem events
          (serveAll (step u lfu) (some h) events).1 mem' ∧
        (serveAll (step u lfu) (some h) events).2.isSome = true := by
  induction events with
  | nil => exact fun _ _ => ⟨_, .nil _, rfl⟩
  | cons e events ih =>
    intro compacted h mem hmirrored hkept
    obtain ⟨hadmitted, hkills, hcalm, hkept⟩ := hkept
    obtain ⟨h', mem', hh', hexplained, hnext⟩ :=
      step_explained hready lfu hmirrored hadmitted hkills (hcalm h rfl)
    rw [hh'] at hkept
    obtain ⟨mem'', hbehaves, hup⟩ := ih hnext hkept
    simp only [serveAll, hh']
    exact ⟨mem'', .cons hexplained hbehaves, hup⟩

/-- A batch, a kill inside the second item of another and inside the start after it, a compaction,
a shutdown, and a read. -/
def eventfulRun : List Event :=
  [.call (.write { ns := "left", items := [⟨keyOf 0, [5], 0, []⟩, ⟨keyOf 1, [6], 0, [7]⟩] }),
    .restart (.serving (.write { ns := "right", items := [⟨keyOf 2, [8], 0, []⟩,
      ⟨keyOf 3, [9], 0, []⟩] }) 1 9) [fun _ => some 3],
    .compact "left", .restart .closed [],
    .call (.read { ns := "left", keys := [keyOf 1, []] })]

end ParaKV.Service.Restarts
