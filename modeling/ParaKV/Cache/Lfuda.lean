/- GID: ParaKV/Cache/Lfuda
   source: parakv/core/cache/lfuda_cache.h, parakv/core/cache/allow.h
   digest: The least frequently used cache with dynamic aging, node by node. -/

import Mathlib.Data.Finmap
import Mathlib.Order.Fin.Basic
import ParaKV.Lib.Containers

/-!
The nodes of `m_dynamic_age_list` are numbered from 0 to the capacity; a number plays the part of an
`age_iterator`, which stays valid while nodes are moved. `m_open_list_end` is a node or the end of
the list. The hash map is a finite map, the tree a list sorted by use count.

Clock readings and the tick are integers, in nanoseconds. A result of `none` stands for a call that
does not return, or that goes through an iterator at the end of a list.
-/

set_option autoImplicit false

namespace ParaKV.Cache.Lfuda

open Lib.Containers

inductive Allow
  | insert
  | update
  | insertOrUpdate
  deriving DecidableEq

def Allow.bits : Allow → ℕ
  | .insert => 0x01
  | .update => 0x02
  | .insertOrUpdate => 0x01 ||| 0x02

def insertAllowed (a : Allow) : Bool := a.bits &&& Allow.insert.bits ≠ 0

def updateAllowed (a : Allow) : Bool := a.bits &&& Allow.update.bits ≠ 0

/-- `size_t` of 64 bits, which wraps around. -/
abbrev SizeT := Fin (2 ^ 64)

def increment (n : SizeT) : SizeT := n + 1

/-- What a ratio of one half makes of a use count that a `float` holds exactly. -/
def halve (n : SizeT) : SizeT := n / 2

/-- `m_dynamic_age_tick`, and what `m_dynamic_age_ratio` makes of a use count. -/
structure Config where
  dynamicAgeTick : ℤ
  dynamicAge : SizeT → SizeT

abbrev Node := ℕ

structure Element (κ ν : Type) where
  key : κ
  useCount : SizeT
  dynamicAge : ℤ
  value : ν

structure LfudaCache (κ ν : Type) where
  usedSize : ℕ
  keyedElements : Finmap fun _ : κ => Node
  lfuList : List (SizeT × Node)
  dynamicAgeList : List Node
  openListEnd : Option Node
  elements : Node → Element κ ν

variable {κ ν : Type}

/-- The constructor: `capacity` default elements, all of them free. -/
def LfudaCache.create [Inhabited κ] [Inhabited ν] (capacity : ℕ) : LfudaCache κ ν where
  usedSize := 0
  keyedElements := ∅
  lfuList := []
  dynamicAgeList := List.range capacity
  openListEnd := (List.range capacity).head?
  elements := fun _ => ⟨default, 0, 0, default⟩

namespace LfudaCache

def size (s : LfudaCache κ ν) : ℕ := s.usedSize

def capacity (s : LfudaCache κ ν) : ℕ := s.dynamicAgeList.length

def eraseLfuEntry (s : LfudaCache κ ν) (useCount : SizeT) (target : Node) : LfudaCache κ ν :=
  { s with lfuList := s.lfuList.erase (useCount, target) }

def recount (s : LfudaCache κ ν) (n : Node) (f : SizeT → SizeT) : LfudaCache κ ν :=
  let e := s.elements n
  let s := s.eraseLfuEntry e.useCount n
  { s with
    lfuList := emplace s.lfuList (f e.useCount) n
    elements := Function.update s.elements n { e with useCount := f e.useCount } }

def setAge (s : LfudaCache κ ν) (n : Node) (now : ℤ) : LfudaCache κ ν :=
  { s with elements := Function.update s.elements n { s.elements n with dynamicAge := now } }

def moveBefore (s : LfudaCache κ ν) (pos : Option Node) (n : Node) : LfudaCache κ ν :=
  { s with
    dynamicAgeList := if some n ≠ pos then splice s.dynamicAgeList pos n else s.dynamicAgeList }

/-- A used element moves before the last used one and takes the time. -/
def doAccess (s : LfudaCache κ ν) (n : Node) (now : ℤ) : LfudaCache κ ν :=
  let s := s.recount n increment
  let lastAgedItem := prev s.dynamicAgeList s.openListEnd
  (s.moveBefore lastAgedItem n).setAge n now

def doUpdate (s : LfudaCache κ ν) (n : Node) (value : ν) (now : ℤ) : LfudaCache κ ν :=
  let s := { s with elements := Function.update s.elements n { s.elements n with value := value } }
  s.doAccess n now

variable [DecidableEq κ]

def doErase (s : LfudaCache κ ν) (n : Node) : LfudaCache κ ν :=
  let e := s.elements n
  let s := { s with
    dynamicAgeList := if some n ≠ prev s.dynamicAgeList s.openListEnd then
        splice s.dynamicAgeList s.openListEnd n
      else s.dynamicAgeList }
  let s := { s with openListEnd := prev s.dynamicAgeList s.openListEnd }
  let s := { s with keyedElements := s.keyedElements.erase e.key }
  let s := s.eraseLfuEntry e.useCount n
  { s with usedSize := s.usedSize - 1 }

variable (c : Config)

/-- One turn of the loop of `do_dynamic_age`. -/
def ageNode (now : ℤ) (s : LfudaCache κ ν) (daStart : Node) (daLast : Option Node) :
    LfudaCache κ ν :=
  ((s.moveBefore daLast daStart).setAge daStart now).recount daStart c.dynamicAge

/-- The loop of `do_dynamic_age`, cut off after `fuel` turns. -/
def ageLoop (now : ℤ) : ℕ → LfudaCache κ ν → Option Node → ℕ → Option (ℕ × LfudaCache κ ν)
  | 0, _, _, _ => none
  | fuel + 1, s, daLast, aged =>
    match s.dynamicAgeList.head? with
    | none => some (aged, s)
    | some daStart =>
      if some daStart ≠ s.openListEnd ∧
          (s.elements daStart).dynamicAge + c.dynamicAgeTick < now then
        ageLoop now fuel (s.ageNode c now daStart daLast) (some daStart) (aged + 1)
      else some (aged, s)

/-- Every used element is aged once at most: another turn means that the loop does not end. -/
def doDynamicAge (s : LfudaCache κ ν) (now : ℤ) : Option (ℕ × LfudaCache κ ν) :=
  ageLoop c now (s.usedSize + 1) s s.openListEnd 0

/-- The key and the value `m_on_evict` is called with come with the cache. -/
def doPrune (s : LfudaCache κ ν) (now : ℤ) : Option (List (κ × ν) × LfudaCache κ ν) :=
  if s.usedSize > 0 then do
    let (_, s) ← s.doDynamicAge c now
    let (_, victim) ← s.lfuList.head?
    let e := s.elements victim
    return ([(e.key, e.value)], s.doErase victim)
  else return ([], s)

def occupy (s : LfudaCache κ ν) (n : Node) (key : κ) (value : ν) (now : ℤ) :
    LfudaCache κ ν :=
  { s with
    keyedElements := s.keyedElements.insert key n
    lfuList := emplace s.lfuList 1 n
    elements := Function.update s.elements n ⟨key, 1, now, value⟩
    openListEnd := next s.dynamicAgeList n
    usedSize := s.usedSize + 1 }

def doInsert (s : LfudaCache κ ν) (key : κ) (value : ν) (now : ℤ) :
    Option (List (κ × ν) × LfudaCache κ ν) := do
  let (evicted, s) ←
    if s.usedSize ≥ s.dynamicAgeList.length then s.doPrune c now else pure ([], s)
  let n ← s.openListEnd
  return (evicted, s.occupy n key value now)

def doInsertUpdate (s : LfudaCache κ ν) (key : κ) (value : ν) (now : ℤ) (a : Allow) :
    Option (Bool × List (κ × ν) × LfudaCache κ ν) :=
  match s.keyedElements.lookup key with
  | some n =>
    if updateAllowed a then some (true, [], s.doUpdate n value now) else some (false, [], s)
  | none =>
    if insertAllowed a then (s.doInsert c key value now).map (true, ·) else some (false, [], s)

def doFind (s : LfudaCache κ ν) (key : κ) (peek : Bool) (now : ℤ) :
    Option ν × LfudaCache κ ν :=
  match s.keyedElements.lookup key with
  | some n =>
    let s := if !peek then s.doAccess n now else s
    (some (s.elements n).value, s)
  | none => (none, s)

def doFindWithUseCount (s : LfudaCache κ ν) (key : κ) (peek : Bool) (now : ℤ) :
    Option (ν × SizeT) × LfudaCache κ ν :=
  match s.keyedElements.lookup key with
  | some n =>
    let s := if !peek then s.doAccess n now else s
    (some ((s.elements n).value, (s.elements n).useCount), s)
  | none => (none, s)

def erase (s : LfudaCache κ ν) (key : κ) : Bool × LfudaCache κ ν :=
  match s.keyedElements.lookup key with
  | some n => (true, s.doErase n)
  | none => (false, s)

end LfudaCache

/-! The public operations on one key, each with its clock reading. -/

inductive Op (κ ν : Type)
  | insert (key : κ) (value : ν) (a : Allow)
  | erase (key : κ)
  | find (key : κ) (peek : Bool)
  | findWithUseCount (key : κ) (peek : Bool)
  | dynamicallyAge

inductive Reply (ν : Type)
  | done (b : Bool)
  | found (v : Option ν)
  | counted (v : Option (ν × SizeT))
  | aged (n : ℕ)

structure Result (κ ν : Type) where
  reply : Reply ν
  evicted : List (κ × ν)
  cache : LfudaCache κ ν

variable [DecidableEq κ] (c : Config)

def exec (s : LfudaCache κ ν) (op : Op κ ν) (now : ℤ) : Option (Result κ ν) :=
  match op with
  | .insert key value a =>
    (s.doInsertUpdate c key value now a).map fun r => ⟨.done r.1, r.2.1, r.2.2⟩
  | .erase key => some ⟨.done (s.erase key).1, [], (s.erase key).2⟩
  | .find key peek => some ⟨.found (s.doFind key peek now).1, [], (s.doFind key peek now).2⟩
  | .findWithUseCount key peek =>
    some ⟨.counted (s.doFindWithUseCount key peek now).1, [],
      (s.doFindWithUseCount key peek now).2⟩
  | .dynamicallyAge => (s.doDynamicAge c now).map fun r => ⟨.aged r.1, [], r.2⟩

/-! The calls, the variants for ranges among them, which go over their elements under one lock and
with one clock reading. -/

inductive Call (κ ν : Type)
  | one (op : Op κ ν)
  | insertRange (items : List (κ × ν)) (a : Allow)
  | eraseRange (keys : List κ)
  | findRange (keys : List κ) (peek : Bool)
  | findRangeFill (items : List (κ × Option ν)) (peek : Bool)

def Call.ops : Call κ ν → List (Op κ ν)
  | .one op => [op]
  | .insertRange items a => items.map fun item => .insert item.1 item.2 a
  | .eraseRange keys => keys.map .erase
  | .findRange keys peek => keys.map (.find · peek)
  | .findRangeFill items peek => items.map fun item => .find item.1 peek

structure Turn (κ ν : Type) where
  before : LfudaCache κ ν
  op : Op κ ν
  now : ℤ
  result : Result κ ν

def execAll : LfudaCache κ ν → List (Op κ ν × ℤ) → Option (List (Turn κ ν))
  | _, [] => some []
  | s, (op, now) :: ops => do
    let r ← exec c s op now
    let turns ← execAll r.cache ops
    return ⟨s, op, now, r⟩ :: turns

def final (s : LfudaCache κ ν) : List (Turn κ ν) → LfudaCache κ ν
  | [] => s
  | t :: turns => final t.result.cache turns

def execCalls (s : LfudaCache κ ν) (calls : List (Call κ ν × ℤ)) : Option (List (Turn κ ν)) :=
  execAll c s (calls.flatMap fun call => call.1.ops.map (·, call.2))

inductive CallReply (κ ν : Type)
  | one (r : Option (Reply ν))
  | count (n : ℕ)
  | pairs (l : List (κ × Option ν))

def Reply.counts : Reply ν → Bool
  | .done b => b
  | _ => false

def Reply.value : Reply ν → Option ν
  | .found v => v
  | _ => none

def Call.reply (call : Call κ ν) (turns : List (Turn κ ν)) : CallReply κ ν :=
  match call with
  | .one _ => .one (turns.head?.map (·.result.reply))
  | .insertRange _ _ => .count (turns.countP (·.result.reply.counts))
  | .eraseRange _ => .count (turns.countP (·.result.reply.counts))
  | .findRange keys _ => .pairs (keys.zip (turns.map (·.result.reply.value)))
  | .findRangeFill items _ => .pairs ((items.map Prod.fst).zip (turns.map (·.result.reply.value)))

end ParaKV.Cache.Lfuda
