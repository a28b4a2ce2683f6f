/- GID: ParaKV/Service/Refinement
   source: parakv/parakv.cc, parakv/service/kvcache_storage_service_impl.cc,
     parakv/core/kvcache_storage/backend_namespace_manager.cc,
     parakv/core/kvcache_storage/index_kvcache_storage_backend.cc,
     parakv/core/kvcache_storage/mocked_inmemory_kvcache_storage.cc
   digest: The calls of a server over index backends and of one over in-memory backends. -/

import ParaKV.Service.Machine

set_option autoImplicit false

namespace ParaKV.Service.Refinement

open Lib.HashOrder Lib.Transducer Index.Key Storage.Backend Storage.Backend.Indexed
open Storage.Namespaces Storage.Simulation Storage.Persistence Service.Batch Service.Calls
open Service.Hosts Service.Machine

variable {L : Type} {u : Setup} {lfu : Lfu L} {compacted : Bool} {ns : String}

/-- Flags with which `main` starts a server whose backends can be created, each in a directory of
its own. -/
structure Ready (u : Setup) : Prop where
  some : u.names ≠ []
  nonempty : "" ∉ u.names
  apart : (u.names.map u.directory).Nodup
  valid : ensureValidOptions u.backend = .ok
  admissible : (indexOptions u.backend u.hash).Admissible Key128

theorem Ready.usable (h : Ready u) (ns : String) : Usable (u.config ns) u.hash :=
  ⟨h.valid, u.rootDir_ne ns, h.admissible.1, h.admissible.2, h.admissible.3⟩

theorem Ready.directory_ne (hready : Ready u) {ns ns' : String} (hns : ns ∈ u.names)
    (hns' : ns' ∈ u.names) (hne : ns ≠ ns') : u.directory ns ≠ u.directory ns' :=
  fun heq => hne (List.inj_on_of_nodup_map hready.apart hns hns' heq)

/-! One backend and its in-memory twin. -/

structure Twins (u : Setup) (compacted : Bool) (ns : String) (s : IndexBackend L) (t : InMemory) :
    Prop where
  options : s.options = u.config ns
  plain : t.options = {}
  backs : Backs (u.config ns) u.hash s.server t.store
  settled : compacted = false → Settled (u.config ns) u.hash s.server

section Twins

variable {s : IndexBackend L} {t : InMemory}

def timed (t : InMemory) (r : Request) : Timed := ⟨r, t.clock 0, t.clock 1⟩

theorem indexed_answer {hash : HashPolicy ℕ} {b : Indexed.Options} {server : Server L} {r : Request}
    (hr : r ≠ .compact) : answer (indexed hash lfu) r ⟨b, server⟩ =
      ((server.serve b hash lfu r).1, ⟨b, (server.serve b hash lfu r).2⟩) := by
  cases r with
  | compact => exact (hr rfl).elim
  | put _ _ _ _ => rfl
  | get _ _ => rfl
  | delete _ => rfl

theorem inMemory_answer (hplain : t.options = {}) (r : Request) :
    (answer inMemory r t).1 = (serveMocked (timed t r) t.store).1 ∧
      (answer inMemory r t).2.options = {} ∧
      (answer inMemory r t).2.store = (serveMocked (timed t r) t.store).2 := by
  cases r <;> simp [answer, inMemory, serveMocked, timed, hplain]

theorem twins_answer (lfu : Lfu L) (husable : Usable (u.config ns) u.hash)
    (h : Twins u compacted ns s t) {r : Request} (hr : r ≠ .compact)
    (hadmitted : r.Admitted (u.config ns)) :
    let x := answer (indexed u.hash lfu) r s
    let y := answer inMemory r t
    (x.1 = y.1 ∧ Twins u compacted ns x.2 y.2) ∨
      (puts r = true ∧ x.1 = .wrote ⟨.storageFull, "index put failed"⟩ ∧
        Twins u compacted ns x.2 t) := by
  intro x y
  obtain ⟨hoptions, hplain, hbacks, hsettled⟩ := h
  obtain ⟨options, server⟩ := s
  cases hoptions
  obtain ⟨hreply, hplain', hstore⟩ := inMemory_answer hplain r
  have hnext : ∀ {t' : InMemory}, t'.options = {} → Backs (u.config ns) u.hash
      (server.serve (u.config ns) u.hash lfu r).2 t'.store →
      Twins u compacted ns ⟨u.config ns, (server.serve (u.config ns) u.hash lfu r).2⟩ t' :=
    fun hplain hbacks' => ⟨rfl, hplain, hbacks', fun hc =>
      settled_serve lfu husable hbacks (hsettled hc) hr⟩
  rw [show x = _ from indexed_answer hr]
  rcases backs_request lfu husable hbacks (timed t r) hadmitted (Server.returned_of_ne hr) with
    ⟨hsame, hb⟩ | ⟨hputs, hfull, hb⟩
  · exact Or.inl ⟨hsame.trans hreply.symm, hnext hplain' (hstore ▸ hb)⟩
  · exact Or.inr ⟨hputs, hfull, hnext hplain hb⟩

theorem twins_compact (lfu : Lfu L) (husable : Usable (u.config ns) u.hash)
    (h : Twins u compacted ns s t) (hcalm : Request.compact.Calm s.options u.hash s.server.world) :
    ∃ server, s.server.after s.options u.hash lfu .compact = some server ∧
      Twins u true ns { s with server } t := by
  obtain ⟨hoptions, hplain, hbacks, -⟩ := h
  obtain ⟨options, server⟩ := s
  cases hoptions
  have hreturned := hbacks.simulates.returned lfu hcalm
  exact ⟨_, if_pos hreturned, rfl, hplain,
    backs_other lfu husable hbacks ⟨.compact, 0, 0⟩ rfl trivial hreturned, fun hc => by cases hc⟩

end Twins

/-! The backends of the two services. -/

structure Paired (u : Setup) (compacted : Bool) (m : Manager (IndexBackend L))
    (mem : Manager InMemory) : Prop where
  named : ∀ ns ∈ u.names, ∃ s t, m.lookup ns = some s ∧ mem.lookup ns = some t ∧
    Twins u compacted ns s t
  unnamed : ∀ ns, ns ∉ u.names → m.lookup ns = none ∧ mem.lookup ns = none

section Paired

variable {m : Manager (IndexBackend L)} {mem mem' : Manager InMemory}

theorem Paired.named_of_some (hpaired : Paired u compacted m mem) {s : IndexBackend L}
    (hs : m.lookup ns = some s) : ns ∈ u.names := by
  by_contra hns
  rw [(hpaired.unnamed ns hns).1] at hs
  cases hs

theorem Paired.weaken (hpaired : Paired u compacted m mem) : Paired u true m mem :=
  ⟨fun ns hns => by
    obtain ⟨s, t, hs, ht, htwins⟩ := hpaired.named ns hns
    exact ⟨s, t, hs, ht, htwins.options, htwins.plain, htwins.backs, fun hc => by cases hc⟩,
    hpaired.unnamed⟩

theorem Paired.update (h : Paired u compacted m mem) (hns : ns ∈ u.names) {s : IndexBackend L}
    {t : InMemory} (htwins : Twins u compacted ns s t) (hown : mem'.lookup ns = some t)
    (hother : ∀ ns', ns' ≠ ns → mem'.lookup ns' = mem.lookup ns') :
    Paired u compacted (m.insert ns s) mem' where
  named ns' hns' := by
    by_cases heq : ns' = ns
    · subst heq
      exact ⟨s, t, Finmap.lookup_insert m, hown, htwins⟩
    · obtain ⟨s', t', hs, ht, htwins'⟩ := h.named ns' hns'
      refine ⟨s', t', ?_, (hother ns' heq).trans ht, htwins'⟩
      rw [Finmap.lookup_insert_of_ne m heq, hs]
  unnamed ns' hns' := by
    have heq : ns' ≠ ns := fun heq => hns' (heq ▸ hns)
    rw [Finmap.lookup_insert_of_ne m heq, hother ns' heq]
    exact h.unnamed ns' hns'

/-! The elements of a batch. -/

section Element

variable {ρ : Type} {request : Option Request} {result : Reply → ρ}
  {item : ∀ β : Type, Interface β → Manager β → ρ × Manager β}

theorem element_paired (hready : Ready u) (lfu : Lfu L) (hasks : Asks ns request result item)
    (h : Paired u compacted m mem) (hadmitted : ∀ r ∈ request, r.Admitted (u.config ns)) :
    let x := item _ (indexed u.hash lfu) m
    let y := item _ inMemory mem
    (x.1 = y.1 ∧ Paired u compacted x.2 y.2) ∨
      (request.any puts = true ∧ (mem.lookup ns).isSome = true ∧
        x.1 = result (.wrote ⟨.storageFull, "index put failed"⟩) ∧ Paired u compacted x.2 mem) := by
  intro x y
  cases hasks with
  | refused r _ hitem =>
    rw [show x = _ from hitem _ _ m, show y = _ from hitem _ _ mem]
    exact Or.inl ⟨rfl, h⟩
  | asks refusal hr hcompact hitem =>
    rw [show x = _ from hitem _ _ m, show y = _ from hitem _ _ mem]
    by_cases hns : ns ∈ u.names
    · obtain ⟨s, t, hs, ht, htwins⟩ := h.named ns hns
      simp only [dispatch, hs, ht]
      rcases twins_answer lfu (hready.usable ns) htwins hcompact (hadmitted _ hr) with
        ⟨hreply, hnext⟩ | ⟨hput, hreply, hnext⟩
      · exact Or.inl ⟨congrArg result hreply, h.update hns hnext (Finmap.lookup_insert mem)
          fun ns' hne => Finmap.lookup_insert_of_ne mem hne⟩
      · exact Or.inr ⟨by simp [hr, hput], rfl, congrArg result hreply,
          h.update hns hnext ht fun _ _ => rfl⟩
    · obtain ⟨hs, ht⟩ := h.unnamed ns hns
      simp only [dispatch, hs, ht]
      exact Or.inl ⟨trivial, h⟩

theorem element_agrees (hready : Ready u) (lfu : Lfu L) (hasks : Asks ns request result item)
    (hput : request.any puts = false) (h : Paired u compacted m mem)
    (hadmitted : ∀ r ∈ request, r.Admitted (u.config ns)) :
    (item _ (indexed u.hash lfu) m).1 = (item _ inMemory mem).1 ∧
      Paired u compacted (item _ (indexed u.hash lfu) m).2 (item _ inMemory mem).2 :=
  (element_paired hready lfu hasks h hadmitted).resolve_right fun hfull =>
    absurd hfull.1 (by simp [hput])

/-- The in-memory backend of the namespace takes the request. -/
structure Advances (ns : String) (r : Request) (mem mem' : Manager InMemory) : Prop where
  own : ∀ t, mem.lookup ns = some t → t.options = {} → ∃ t', mem'.lookup ns = some t' ∧
    t'.options = {} ∧ t'.store = (serveMocked (timed t r) t.store).2
  other : ∀ ns', ns' ≠ ns → mem'.lookup ns' = mem.lookup ns'

theorem element_advances (hasks : Asks ns request result item) {r : Request}
    (hr : request = some r) : Advances ns r mem (item _ inMemory mem).2 := by
  refine ⟨fun t ht hplain => ?_, (hasks.framed inMemory).other mem⟩
  cases hasks with
  | refused _ hnone _ => simp [hnone] at hr
  | asks refusal hsome _ hitem =>
    obtain rfl := Option.some.inj (hsome.symm.trans hr)
    simp only [hitem, dispatch, ht]
    exact ⟨_, Finmap.lookup_insert mem, (inMemory_answer hplain _).2⟩

end Element

theorem readRequest_any (opts : ReadOptions) (key : Bytes) :
    (readRequest opts key).any puts = false := by
  unfold readRequest
  split_ifs <;> rfl

theorem deleteRequest_any (key : Bytes) : (deleteRequest key).any puts = false := by
  unfold deleteRequest
  split_ifs <;> rfl

theorem writeItem_paired (hready : Ready u) (lfu : Lfu L) (ns : String) (overwrite : Bool)
    (item : KVItem) (h : Paired u compacted m mem)
    (hadmitted : ∀ r ∈ writeRequest u.service overwrite item, r.Admitted (u.config ns)) :
    let r := writeItem (indexed u.hash lfu) u.service ns overwrite item m
    ∃ mem', Wrote u.service ns overwrite mem item r.1 mem' ∧ Paired u compacted r.2 mem' := by
  rcases element_paired hready lfu (asks_write u.service ns overwrite item) h hadmitted with
    ⟨hreply, hnext⟩ | ⟨hput, hsome, hreply, hnext⟩
  · exact ⟨_, hreply ▸ .served mem item, hnext⟩
  · refine ⟨mem, hreply ▸ .full hsome ?_, hnext⟩
    cases hr : writeRequest u.service overwrite item with
    | none => simp [hr] at hput
    | some r => rfl

/-! Calls, whole and cut off. -/

theorem explains_of_eq {options : ServiceOptions} {call : Call} {answer : Answer}
    (h : serve inMemory options mem call = (answer, mem')) :
    Explains options mem call answer mem' := by
  have hserved : Explains options mem call _ _ := .served call
  rwa [h] at hserved

theorem call_paired (hready : Ready u) (lfu : Lfu L) (h : Paired u compacted m mem) {call : Call}
    (hadmitted : CallAdmitted u call) :
    let r := serve (indexed u.hash lfu) u.service m call
    ∃ mem', Explains u.service mem call r.1 mem' ∧ Paired u compacted r.2 mem' := by
  cases call with
  | write request =>
    by_cases hsized : Sized u.service request.items.length
    · obtain ⟨mem', hbehaves, hnext⟩ := serveAll_behaves (Paired u compacted)
        (fun m mem x hx hm => writeItem_paired hready lfu request.ns request.overwrite x hm
          (hadmitted _ (List.mem_map_of_mem hx))) h
      simp only [serve, batchWrite, batch_sized hsized]
      exact ⟨mem', .crowded hsized hbehaves, hnext⟩
    · obtain ⟨r, hr⟩ := batch_refused (ρ := ItemResult) hsized
      simp only [serve, batchWrite, hr]
      exact ⟨mem, explains_of_eq (by simp only [serve, batchWrite, hr]), h⟩
  | read request =>
    obtain ⟨hanswer, hnext⟩ := batch_agree (Paired u compacted) (fun m mem x hx hm =>
      element_agrees hready lfu (asks_read request.ns _ x) (readRequest_any _ x) hm
        (hadmitted _ (List.mem_map_of_mem hx))) u.service h
    exact ⟨_, explains_of_eq (congrArg (fun r => (Answer.found r, _)) hanswer.symm), hnext⟩
  | delete request =>
    obtain ⟨hanswer, hnext⟩ := batch_agree (Paired u compacted) (fun m mem x hx hm =>
      element_agrees hready lfu (asks_delete request.ns x) (deleteRequest_any x) hm
        (hadmitted _ (List.mem_map_of_mem hx))) u.service h
    exact ⟨_, explains_of_eq (congrArg (fun r => (Answer.deleted r, _)) hanswer.symm), hnext⟩

theorem elements_paired (hready : Ready u) (lfu : Lfu L) (h : Paired u compacted m mem)
    {call : Call} (hadmitted : CallAdmitted u call) (n : ℕ) :
    ∃ mem', Part u.service mem call n mem' ∧
      Paired u compacted (afterElements u.service (indexed u.hash lfu) n m call) mem' := by
  cases call with
  | write request =>
    obtain ⟨mem', hbehaves, hnext⟩ := serveAll_behaves (Paired u compacted)
      (fun m mem x hx hm => writeItem_paired hready lfu request.ns request.overwrite x hm
        (hadmitted _ (List.mem_map_of_mem (List.mem_of_mem_take hx)))) h
    exact ⟨mem', .crowded hbehaves, hnext⟩
  | read request =>
    exact ⟨_, .served _ n, (serveAll_elements (Paired u compacted) (fun m mem x hx hm =>
      element_agrees hready lfu (asks_read request.ns _ x) (readRequest_any _ x) hm
        (hadmitted _ (List.mem_map_of_mem (List.mem_of_mem_take hx)))) h).2⟩
  | delete request =>
    exact ⟨_, .served _ n, (serveAll_elements (Paired u compacted) (fun m mem x hx hm =>
      element_agrees hready lfu (asks_delete request.ns x) (deleteRequest_any x) hm
        (hadmitted _ (List.mem_map_of_mem (List.mem_of_mem_take hx)))) h).2⟩

theorem serveAll_take_succ {β ε ρ : Type} (item : ε → Manager β → (ρ × Bool) × Manager β)
    {xs : List ε} {n : ℕ} {x : ε} (hx : xs[n]? = some x) (m : Manager β) :
    (serveAll (element item) m (xs.take (n + 1))).2 =
      (item x (serveAll (element item) m (xs.take n)).2).2 := by
  rw [List.take_add_one, hx, serveAll_append]
  rfl

theorem exists_of_join {ε ρ : Type} {xs : List ε} {f : ε → Option ρ} {n : ℕ} {r : ρ}
    (h : ((xs.map f)[n]?).join = some r) : ∃ x, xs[n]? = some x ∧ f x = some r := by
  cases hx : xs[n]? with
  | none => simp [hx] at h
  | some x => exact ⟨x, rfl, by simpa [hx] using h⟩

theorem part_next {options : ServiceOptions} {call : Call} {n : ℕ} {r : Request}
    (h : Part options mem call n mem') (hr : ((requests options call)[n]?).join = some r) :
    ∃ mem'', Part options mem call (n + 1) mem'' ∧ Advances call.ns r mem' mem'' := by
  cases h with
  | served _ _ =>
    refine ⟨_, .served call (n + 1), ?_⟩
    cases call with
    | write request =>
      obtain ⟨item, hitem, hr⟩ := exists_of_join hr
      simp only [afterElements, serveAll_take_succ _ hitem]
      exact element_advances (asks_write options _ _ item) hr
    | read request =>
      obtain ⟨key, hkey, hr⟩ := exists_of_join hr
      simp only [afterElements, serveAll_take_succ _ hkey]
      exact element_advances (asks_read _ _ key) hr
    | delete request =>
      obtain ⟨key, hkey, hr⟩ := exists_of_join hr
      simp only [afterElements, serveAll_take_succ _ hkey]
      exact element_advances (asks_delete _ key) hr
  | crowded hbehaves =>
    obtain ⟨item, hitem, hr⟩ := exists_of_join hr
    have hnext := hbehaves.concat (.served _ item)
    rw [← Option.toList_some, ← hitem, ← List.take_add_one] at hnext
    exact ⟨_, .crowded hnext, element_advances (asks_write options _ _ item) hr⟩

end Paired

end ParaKV.Service.Refinement
