/- GID: ParaKV/Storage/Directories
   source: parakv/core/kvcache_storage/backend_namespace_manager.cc,
     parakv/core/kvcache_storage/backend_registry.cc, parakv/parakv.cc
   digest: The directories of the namespaces, and when they are kept apart. -/

import Mathlib.Data.List.DropRight
import Mathlib.Data.List.Forall2
import ParaKV.Storage.Simulation

/-!
Each namespace gets a directory of the workspace whose name is made from its own. The mapping of
characters is not injective, and it keeps the names `.` and `..`, which a path does not take for
entries of the workspace.
-/

set_option autoImplicit false

namespace ParaKV.Storage.Directories

open Lib.HashOrder Index.Key Core.State Storage.Backend Storage.Backend.Indexed Storage.Simulation

/-! The names. A `std::string` is a list of bytes here. -/

def comma : UInt8 := 44
def slash : UInt8 := 47
def dot : UInt8 := 46
def underscore : UInt8 := 95

def Allowed (c : UInt8) : Prop :=
  (97 ≤ c ∧ c ≤ 122) ∨ (65 ≤ c ∧ c ≤ 90) ∨ (48 ≤ c ∧ c ≤ 57) ∨ c = underscore ∨ c = 45 ∨ c = dot

instance (c : UInt8) : Decidable (Allowed c) := inferInstanceAs (Decidable (_ ∨ _))

def sanitizeChar (c : UInt8) : UInt8 := if Allowed c then c else underscore

def defaultName : Bytes := [100, 101, 102, 97, 117, 108, 116]

def sanitizeNs (ns : Bytes) : Bytes :=
  let out := ns.map sanitizeChar
  if out = [] then defaultName else out

def isBlank (c : UInt8) : Bool := c == 32 || c == 9

/-- `substr` from the first to the last character that is not a blank. -/
def trimBlanks (token : Bytes) : Bytes := (token.dropWhile isBlank).rdropWhile isBlank

def parseNamespaces (s : Bytes) : List Bytes :=
  (s.splitOn comma).filterMap fun token =>
    if token.all isBlank then none else some (trimBlanks token)

/-- The loop of `main` with the namespaces registered so far; `Register` refuses an empty name and
one that it knows. -/
def registerAll : List Bytes → List Bytes → Option (List Bytes)
  | registered, [] => some registered
  | registered, ns :: rest =>
    if ns = [] ∨ ns ∈ registered then none else registerAll (registered ++ [ns]) rest

/-- The namespaces `main` starts with, and `none` if it gives up. -/
def acceptedNamespaces (flag : Bytes) : Option (List Bytes) :=
  let names := parseNamespaces flag
  if names = [] then none else registerAll [] names

/-! The directories. -/

/-- A directory by the names on the way to it from the root. -/
abbrev Directory := List Bytes

def enter (dir : Directory) (component : Bytes) : Directory :=
  if component = [] ∨ component = [dot] then dir
  else if component = [dot, dot] then dir.dropLast
  else dir ++ [component]

/-- The directory a path leads to; there are no links. -/
def resolve (cwd : Directory) (path : Bytes) : Directory :=
  (path.splitOn slash).foldl enter (if path.head? = some slash then [] else cwd)

/-- `root_dir` as the factory of `kvcache_index128` computes it. -/
def rootPath (workspace ns : Bytes) : Bytes := workspace ++ slash :: sanitizeNs ns

def rootDir (cwd : Directory) (workspace ns : Bytes) : Directory :=
  resolve cwd (rootPath workspace ns)

/-- The directory whose entries the factory means to name. -/
def workspaceDir (cwd : Directory) (workspace : Bytes) : Directory :=
  resolve cwd (workspace ++ [slash])

def StrictlyInside (dir workspace : Directory) : Prop := workspace <+: dir ∧ workspace ≠ dir

/-! The backends of a process over one file system. -/

variable {L : Type}

/-- The contents of the directories, and the memory of the backend of each namespace. -/
structure Host (L : Type) where
  files : Directory → Disk Key128
  servers : Bytes → Server L

section Calls

variable (cwd : Directory) (workspace : Bytes) (h : Host L) (ns : Bytes)

/-- A call of the backend of a namespace, which works on the files of its directory. -/
def Host.call {α : Type} (prog : Option (Context L) → M Key128 (α × Option (Context L)))
    (io : ℕ → IoOutcome) : α × Host L :=
  let dir := rootDir cwd workspace ns
  let s := h.servers ns
  let r := prog s.ctx io { s.world with disk := h.files dir }
  (r.val.1,
    { files := Function.update h.files dir r.state.disk
      servers := Function.update h.servers ns ⟨r.state, r.val.2⟩ })

variable (b : Indexed.Options) (lfu : Lfu L) (o : ParaKV.Core.State.Options)

def Host.put (key value metadata : Bytes) (opts : WriteOptions) (io : ℕ → IoOutcome) :
    WriteResult × Host L :=
  h.call cwd workspace ns (Indexed.put b lfu o · key value metadata opts) io

def Host.get (key : Bytes) (opts : ReadOptions) (io : ℕ → IoOutcome) : ReadResult × Host L :=
  h.call cwd workspace ns (Indexed.get b lfu o · key opts) io

def Host.delete (key : Bytes) (io : ℕ → IoOutcome) : WriteResult × Host L :=
  h.call cwd workspace ns (Indexed.delete lfu o · key) io

end Calls

/-- The storage of two namespaces is kept apart. -/
structure Isolated (cwd : Directory) (workspace : Bytes) (b : Indexed.Options) (lfu : Lfu L)
    (o : ParaKV.Core.State.Options) (ns ns' : Bytes) : Prop where
  apart : rootDir cwd workspace ns ≠ rootDir cwd workspace ns'
  inside : StrictlyInside (rootDir cwd workspace ns) (workspaceDir cwd workspace)
  inside' : StrictlyInside (rootDir cwd workspace ns') (workspaceDir cwd workspace)
  put : ∀ (h : Host L) key value metadata opts io key' opts' io',
    ((h.put cwd workspace ns b lfu o key value metadata opts io).2.get
      cwd workspace ns' b lfu o key' opts' io').1 =
        (h.get cwd workspace ns' b lfu o key' opts' io').1
  delete : ∀ (h : Host L) key io key' opts' io',
    ((h.delete cwd workspace ns lfu o key io).2.get cwd workspace ns' b lfu o key' opts' io').1 =
      (h.get cwd workspace ns' b lfu o key' opts' io').1

/-! Names that the mapping confuses. -/

/-- Characters with the same image: equal ones, and any two that become an underscore. -/
def Confusable (c d : UInt8) : Prop :=
  c = d ∨ (¬ Allowed c ∨ c = underscore) ∧ (¬ Allowed d ∨ d = underscore)

instance (c d : UInt8) : Decidable (Confusable c d) := inferInstanceAs (Decidable (_ ∨ _))

variable {c d : UInt8} {ns ns' : Bytes}

theorem sanitizeChar_eq_underscore :
    sanitizeChar c = underscore ↔ ¬ Allowed c ∨ c = underscore := by
  unfold sanitizeChar
  split_ifs with hc
  · simp [hc]
  · simp [hc]

theorem sanitizeChar_eq_iff : sanitizeChar c = sanitizeChar d ↔ Confusable c d := by
  constructor
  · intro heq
    by_cases hc : sanitizeChar c = underscore
    · exact Or.inr ⟨sanitizeChar_eq_underscore.mp hc, sanitizeChar_eq_underscore.mp (heq ▸ hc)⟩
    · have hd : ¬ sanitizeChar d = underscore := heq ▸ hc
      rw [sanitizeChar_eq_underscore, not_or, not_not] at hc hd
      rw [sanitizeChar, sanitizeChar, if_pos hc.1, if_pos hd.1] at heq
      exact Or.inl heq
  · rintro (rfl | ⟨hc, hd⟩)
    · rfl
    · rw [sanitizeChar_eq_underscore.mpr hc, sanitizeChar_eq_underscore.mpr hd]

theorem sanitizeNs_eq_map (hns : ns ≠ []) : sanitizeNs ns = ns.map sanitizeChar := by
  simp [sanitizeNs, hns]

theorem sanitizeNs_eq_iff (hns : ns ≠ []) (hns' : ns' ≠ []) :
    sanitizeNs ns = sanitizeNs ns' ↔ List.Forall₂ Confusable ns ns' := by
  rw [sanitizeNs_eq_map hns, sanitizeNs_eq_map hns', ← List.forall₂_eq_eq_eq,
    List.forall₂_map_left_iff, List.forall₂_map_right_iff]
  simp only [sanitizeChar_eq_iff]

theorem sanitizeChar_eq_dot : sanitizeChar c = dot ↔ c = dot := by
  unfold sanitizeChar
  split_ifs with hc
  · rfl
  · constructor
    · intro h
      exact absurd h (by decide)
    · rintro rfl
      exact absurd (by decide) hc

theorem sanitizeNs_eq_dot (hns : ns ≠ []) : sanitizeNs ns = [dot] ↔ ns = [dot] := by
  rw [sanitizeNs_eq_map hns, List.map_eq_singleton_iff]
  simp [sanitizeChar_eq_dot]

theorem sanitizeNs_eq_dots (hns : ns ≠ []) : sanitizeNs ns = [dot, dot] ↔ ns = [dot, dot] := by
  rw [sanitizeNs_eq_map hns, List.map_eq_cons_iff]
  simp [sanitizeChar_eq_dot, List.map_eq_singleton_iff]

theorem sanitizeChar_ne_slash : sanitizeChar c ≠ slash := by
  unfold sanitizeChar
  split_ifs with hallowed
  · rintro rfl
    exact absurd hallowed (by decide)
  · decide

theorem slash_notMem_sanitizeNs (hns : ns ≠ []) : slash ∉ sanitizeNs ns := by
  rw [sanitizeNs_eq_map hns, List.mem_map]
  rintro ⟨c, -, hc⟩
  exact sanitizeChar_ne_slash hc

/-! The paths. -/

variable {cwd : Directory} {workspace : Bytes}

theorem resolve_append {name : Bytes} (hname : slash ∉ name) :
    resolve cwd (workspace ++ slash :: name) = enter (workspaceDir cwd workspace) name := by
  have hhead : (workspace ++ slash :: name).head? = (workspace ++ [slash]).head? := by
    cases workspace <;> rfl
  have hempty : ∀ dir, enter dir [] = dir := fun dir => if_pos (Or.inl rfl)
  simp only [workspaceDir, resolve, List.splitOn_append_cons_self, List.splitOn_eq_singleton hname,
    List.splitOn_nil, hhead, List.foldl_append, List.foldl_cons, List.foldl_nil, hempty]

def Proper (name : Bytes) : Prop := name ≠ [dot] ∧ name ≠ [dot, dot]

instance (name : Bytes) : Decidable (Proper name) := inferInstanceAs (Decidable (_ ∧ _))

theorem enter_of_proper {dir : Directory} {name : Bytes} (hname : name ≠ []) (h : Proper name) :
    enter dir name = dir ++ [name] := by
  rw [enter, if_neg (not_or.mpr ⟨hname, h.1⟩), if_neg h.2]

theorem strictlyInside_enter_iff {dir : Directory} {name : Bytes} (hname : name ≠ []) :
    StrictlyInside (enter dir name) dir ↔ Proper name := by
  constructor
  · rintro ⟨hpre, hne⟩
    unfold enter at hpre hne
    split_ifs at hpre hne with hdot hdots
    · exact absurd rfl hne
    · have hle := hpre.length_le
      rw [List.length_dropLast] at hle
      have hnil : dir = [] := List.length_eq_zero_iff.mp (by omega)
      exact absurd (by rw [hnil, List.dropLast_nil]) hne
    · exact ⟨fun h => hdot (Or.inr h), hdots⟩
  · intro hproper
    rw [enter_of_proper hname hproper]
    refine ⟨List.prefix_append _ _, fun heq => ?_⟩
    simpa using congrArg List.length heq

theorem sanitizeNs_ne_nil (hns : ns ≠ []) : sanitizeNs ns ≠ [] := by
  rw [sanitizeNs_eq_map hns]
  simpa using hns

theorem proper_sanitizeNs_iff (hns : ns ≠ []) : Proper (sanitizeNs ns) ↔ Proper ns := by
  rw [Proper, Proper, ne_eq, ne_eq, sanitizeNs_eq_dot hns, sanitizeNs_eq_dots hns]

theorem rootDir_eq (hns : ns ≠ []) :
    rootDir cwd workspace ns = enter (workspaceDir cwd workspace) (sanitizeNs ns) :=
  resolve_append (slash_notMem_sanitizeNs hns)

theorem strictlyInside_rootDir_iff (hns : ns ≠ []) :
    StrictlyInside (rootDir cwd workspace ns) (workspaceDir cwd workspace) ↔ Proper ns := by
  rw [rootDir_eq hns, strictlyInside_enter_iff (sanitizeNs_ne_nil hns), proper_sanitizeNs_iff hns]

theorem rootDir_eq_iff (hns : ns ≠ []) (hns' : ns' ≠ []) (hproper : Proper ns)
    (hproper' : Proper ns') :
    rootDir cwd workspace ns = rootDir cwd workspace ns' ↔ List.Forall₂ Confusable ns ns' := by
  rw [rootDir_eq hns, rootDir_eq hns',
    enter_of_proper (sanitizeNs_ne_nil hns) ((proper_sanitizeNs_iff hns).mpr hproper),
    enter_of_proper (sanitizeNs_ne_nil hns') ((proper_sanitizeNs_iff hns').mpr hproper'),
    List.append_cancel_left_eq, List.singleton_inj, sanitizeNs_eq_iff hns hns']

/-! The calls. -/

theorem call_unaffected {α β : Type} {h : Host L}
    {prog : Option (Context L) → M Key128 (α × Option (Context L))}
    {prog' : Option (Context L) → M Key128 (β × Option (Context L))} {io io' : ℕ → IoOutcome}
    (hdir : rootDir cwd workspace ns ≠ rootDir cwd workspace ns') :
    ((h.call cwd workspace ns prog io).2.call cwd workspace ns' prog' io').1 =
      (h.call cwd workspace ns' prog' io').1 := by
  have hname : ns' ≠ ns := fun heq => hdir (by rw [heq])
  simp only [Host.call, Function.update_of_ne hdir.symm, Function.update_of_ne hname]

theorem registerAll_ne_nil {names registered all : List Bytes}
    (h : registerAll registered names = some all) (hreg : [] ∉ registered) : [] ∉ all := by
  induction names generalizing registered with
  | nil =>
    obtain rfl : registered = all := Option.some.inj h
    exact hreg
  | cons ns rest ih =>
    rw [registerAll] at h
    split_ifs at h with hns
    refine ih h ?_
    simp only [List.mem_append, List.mem_singleton, not_or]
    exact ⟨hreg, fun heq => hns (Or.inl heq.symm)⟩

theorem accepted_ne_nil {flag : Bytes} {names : List Bytes}
    (h : acceptedNamespaces flag = some names) (hns : ns ∈ names) : ns ≠ [] := by
  rintro rfl
  unfold acceptedNamespaces at h
  simp only at h
  split_ifs at h
  exact registerAll_ne_nil h List.not_mem_nil hns

/-- Two namespaces are kept apart just when their names differ by more than characters that become
underscores and neither name is `.` or `..`. -/
theorem isolated_iff (cwd : Directory) (workspace flag : Bytes) (b : Indexed.Options) (lfu : Lfu L)
    (o : ParaKV.Core.State.Options) {names : List Bytes}
    (hnames : acceptedNamespaces flag = some names) {ns ns' : Bytes} (hns : ns ∈ names)
    (hns' : ns' ∈ names) :
    Isolated cwd workspace b lfu o ns ns' ↔
      ¬ List.Forall₂ Confusable ns ns' ∧ Proper ns ∧ Proper ns' := by
  have hne := accepted_ne_nil hnames hns
  have hne' := accepted_ne_nil hnames hns'
  constructor
  · intro h
    have hproper : Proper ns := (strictlyInside_rootDir_iff hne).mp h.inside
    have hproper' : Proper ns' := (strictlyInside_rootDir_iff hne').mp h.inside'
    exact ⟨(rootDir_eq_iff hne hne' hproper hproper').not.mp h.apart, hproper, hproper'⟩
  · rintro ⟨hconfusable, hproper, hproper'⟩
    have hdir : rootDir cwd workspace ns ≠ rootDir cwd workspace ns' :=
      (rootDir_eq_iff hne hne' hproper hproper').not.mpr hconfusable
    exact
      { apart := hdir
        inside := (strictlyInside_rootDir_iff hne).mpr hproper
        inside' := (strictlyInside_rootDir_iff hne').mpr hproper'
        put := fun _ _ _ _ _ _ _ _ _ => call_unaffected hdir
        delete := fun _ _ _ _ _ _ => call_unaffected hdir }

/-- The names `a/b`, `a_b` and `..` are accepted together. The first two share a directory, and the
third is not inside the workspace. -/
theorem directory_shared :
    acceptedNamespaces [97, 47, 98, 44, 97, 95, 98, 44, 46, 46] =
        some [[97, 47, 98], [97, 95, 98], [46, 46]] ∧
      rootDir [] [119] [97, 47, 98] = rootDir [] [119] [97, 95, 98] ∧
      ¬ StrictlyInside (rootDir [] [119] [46, 46]) (workspaceDir [] [119]) := by
  refine ⟨by decide, by decide, ?_⟩
  rw [strictlyInside_rootDir_iff (by decide)]
  decide

/-- Names with blanks around them and a character that becomes an underscore. -/
theorem isolated_iff_parsed :
    Isolated [] [119] {} ({ insert := fun _ l => (l, []), find := fun _ l => l
                            erase := fun _ l => l } : Lfu Unit)
      (indexOptions {} (frontPolicy ℕ)) [97, 47, 98] [99] := by
  have hnames : acceptedNamespaces [32, 97, 47, 98, 44, 9, 99, 32] = some [[97, 47, 98], [99]] := by
    decide
  exact (isolated_iff [] [119] _ _ _ _ hnames (by decide) (by decide)).mpr
    ⟨by decide, by decide, by decide⟩

end ParaKV.Storage.Directories
