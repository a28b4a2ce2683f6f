/- GID: ParaKV/Service/Batch
   source: parakv/service/kvcache_storage_service_impl.cc,
     parakv/proto/kvcache_storage_service.proto
   digest: The batch calls of the storage service, and what a read finds after a write. -/

import ParaKV.Storage.Lifetimes
import ParaKV.Storage.Namespaces

set_option autoImplicit false

namespace ParaKV.Service.Batch

open Lib.LogMap Index.Key Storage Storage.Backend Storage.Namespaces

/-! The messages. The request id and the `durable` flag reach no modelled function. -/

inductive StatusCode
  | ok
  | unknown
  | invalidArgument
  | notFound
  | alreadyExists
  | valueTooLarge
  | storageFull
  | ioError
  | unavailable
  | deadlineExceeded
  | permissionDenied
  | dataCorrupted
  deriving DecidableEq, Repr

def toProtoCode : BackendCode → StatusCode
  | .ok => .ok
  | .notFound => .notFound
  | .alreadyExists => .alreadyExists
  | .valueTooLarge => .valueTooLarge
  | .storageFull => .storageFull
  | .ioError => .ioError
  | .unavailable => .unavailable
  | .corrupted => .dataCorrupted
  | .invalidArgument => .invalidArgument

theorem toProtoCode_eq_ok {c : BackendCode} : toProtoCode c = .ok ↔ c = .ok := by
  cases c <;> simp [toProtoCode]

structure KVItem where
  key : Bytes
  value : Bytes
  ttlMs : ℕ := 0
  metadata : Bytes := []

structure BatchWriteRequest where
  ns : String
  items : List KVItem
  overwrite : Bool := false

structure BatchReadRequest where
  ns : String
  keys : List Bytes
  includeValue : Bool := false
  touchOnHit : Bool := false

structure BatchDeleteRequest where
  ns : String
  keys : List Bytes

/-- `BatchWriteResult` and `BatchDeleteResult`. -/
structure ItemResult where
  key : Bytes
  code : StatusCode := .ok
  message : String := ""
  deriving DecidableEq

structure BatchReadResult where
  key : Bytes
  value : Bytes := []
  metadata : Bytes := []
  code : StatusCode := .ok
  message : String := ""
  expirationMs : ℕ := 0
  deriving DecidableEq

/-- A response with its counts: of successes and failures, or of hits and misses. -/
structure Response (ρ : Type) where
  code : StatusCode := .ok
  message : String := ""
  results : List ρ := []
  okCount : ℕ := 0
  otherCount : ℕ := 0

structure ServiceOptions where
  maxBatchSize : ℕ := 1024
  maxValueBytes : ℕ := 0

/-! The loop of a batch. -/

section Loop

variable {σ ε ρ : Type}

structure Loop (σ ρ : Type) where
  state : σ
  results : List ρ
  okCount : ℕ
  otherCount : ℕ

/-- One element: its result, and whether it counts as a success. -/
def Loop.turn (serve : ε → σ → (ρ × Bool) × σ) (l : Loop σ ρ) (x : ε) : Loop σ ρ :=
  let r := serve x l.state
  { state := r.2
    results := l.results ++ [r.1.1]
    okCount := if r.1.2 then l.okCount + 1 else l.okCount
    otherCount := if r.1.2 then l.otherCount else l.otherCount + 1 }

def loop (serve : ε → σ → (ρ × Bool) × σ) (xs : List ε) (s : σ) : Loop σ ρ :=
  xs.foldl (Loop.turn serve) ⟨s, [], 0, 0⟩

/-- A batch call: the size is checked before anything else. -/
def batch (options : ServiceOptions) (serve : ε → σ → (ρ × Bool) × σ) (xs : List ε) (s : σ) :
    Response ρ × σ :=
  if xs.length = 0 then ({ code := .invalidArgument, message := "empty batch" }, s)
  else if xs.length > options.maxBatchSize then
    ({ code := .invalidArgument, message := "batch too large" }, s)
  else
    let l := loop serve xs s
    ({ results := l.results, okCount := l.okCount, otherCount := l.otherCount }, l.state)

end Loop

/-! The calls. -/

section Calls

variable {β : Type} (B : Interface β) (options : ServiceOptions)

def writeItem (ns : String) (overwrite : Bool) (item : KVItem) (m : Manager β) :
    (ItemResult × Bool) × Manager β :=
  if item.key = [] then ((⟨item.key, .invalidArgument, "empty key"⟩, false), m)
  else if options.maxValueBytes > 0 ∧ item.value.length > options.maxValueBytes then
    ((⟨item.key, .valueTooLarge, "value exceeds service limit"⟩, false), m)
  else
    let r := put B m ns item.key item.value item.metadata
      { overwrite := overwrite, ttlMs := item.ttlMs }
    ((⟨item.key, toProtoCode r.1.code, r.1.message⟩, r.1.code = .ok), r.2)

def batchWrite (request : BatchWriteRequest) (m : Manager β) :
    Response ItemResult × Manager β :=
  batch options (writeItem B options request.ns request.overwrite) request.items m

def readKey (ns : String) (opts : ReadOptions) (key : Bytes) (m : Manager β) :
    (BatchReadResult × Bool) × Manager β :=
  if key = [] then (({ key := key, code := .invalidArgument, message := "empty key" }, false), m)
  else
    let r := get B m ns key opts
    (({ key := key
        value := if r.1.code = .ok ∧ opts.includeValue = true then r.1.value else []
        metadata := if r.1.code = .ok then r.1.metadata else []
        code := toProtoCode r.1.code
        message := r.1.message
        expirationMs := r.1.expirationMs }, r.1.code = .ok), r.2)

def batchRead (request : BatchReadRequest) (m : Manager β) :
    Response BatchReadResult × Manager β :=
  batch options (readKey B request.ns
    { includeValue := request.includeValue, touchOnHit := request.touchOnHit }) request.keys m

def deleteKey (ns : String) (key : Bytes) (m : Manager β) : (ItemResult × Bool) × Manager β :=
  if key = [] then ((⟨key, .invalidArgument, "empty key"⟩, false), m)
  else
    let r := delete B m ns key
    ((⟨key, toProtoCode r.1.code, r.1.message⟩, r.1.code = .ok), r.2)

def batchDelete (request : BatchDeleteRequest) (m : Manager β) :
    Response ItemResult × Manager β :=
  batch options (deleteKey B request.ns) request.keys m

end Calls

/-! Responses are aligned with their requests. -/

section Alignment

variable {σ ε ρ : Type} {serve : ε → σ → (ρ × Bool) × σ}

theorem loop_concat (xs : List ε) (x : ε) (s : σ) :
    loop serve (xs ++ [x]) s = (loop serve xs s).turn serve x := by
  rw [loop, List.foldl_append]
  rfl

/-- One result for each element, in order and with its key, and the counts are those of the
results. -/
structure Aligned (elementKey : ε → Bytes) (key : ρ → Bytes) (code : ρ → StatusCode) (xs : List ε)
    (r : Response ρ) : Prop where
  keys : r.results.map key = xs.map elementKey
  okCount : r.okCount = r.results.countP fun x => decide (code x = .ok)
  total : r.okCount + r.otherCount = xs.length

theorem loop_aligned {elementKey : ε → Bytes} {key : ρ → Bytes} {code : ρ → StatusCode}
    (hkey : ∀ x s, key (serve x s).1.1 = elementKey x)
    (hok : ∀ x s, (serve x s).1.2 = decide (code (serve x s).1.1 = .ok)) (xs : List ε) (s : σ) :
    Aligned elementKey key code xs { results := (loop serve xs s).results
                                     okCount := (loop serve xs s).okCount
                                     otherCount := (loop serve xs s).otherCount } := by
  induction xs using List.reverseRecOn with
  | nil => exact ⟨rfl, rfl, rfl⟩
  | append_singleton xs x ih =>
    rw [loop_concat]
    refine ⟨?_, ?_, ?_⟩
    · simpa [Loop.turn, hkey] using ih.keys
    · have hcount := ih.okCount
      simp only [Loop.turn, hok, List.countP_append, List.countP_singleton] at hcount ⊢
      split_ifs <;> omega
    · have htotal := ih.total
      simp only [Loop.turn, List.length_append, List.length_singleton] at htotal ⊢
      split_ifs <;> omega

theorem batch_eq_loop {options : ServiceOptions} {xs : List ε} (s : σ) (hpos : 0 < xs.length)
    (hmax : xs.length ≤ options.maxBatchSize) :
    batch options serve xs s =
      ({ results := (loop serve xs s).results
         okCount := (loop serve xs s).okCount
         otherCount := (loop serve xs s).otherCount }, (loop serve xs s).state) := by
  rw [batch, if_neg (by omega), if_neg (by omega)]

end Alignment

section Aligned

variable {β : Type} (B : Interface β) (options : ServiceOptions)

theorem batchWrite_aligned (request : BatchWriteRequest) (m : Manager β)
    (hpos : 0 < request.items.length) (hmax : request.items.length ≤ options.maxBatchSize) :
    Aligned KVItem.key ItemResult.key ItemResult.code request.items
      (batchWrite B options request m).1 := by
  rw [batchWrite, batch_eq_loop m hpos hmax]
  refine loop_aligned (fun item m => ?_) (fun item m => ?_) _ _
  all_goals
    unfold writeItem
    split_ifs <;> simp [toProtoCode_eq_ok]

theorem batchRead_aligned (request : BatchReadRequest) (m : Manager β)
    (hpos : 0 < request.keys.length) (hmax : request.keys.length ≤ options.maxBatchSize) :
    Aligned id BatchReadResult.key BatchReadResult.code request.keys
      (batchRead B options request m).1 := by
  rw [batchRead, batch_eq_loop m hpos hmax]
  refine loop_aligned (fun key m => ?_) (fun key m => ?_) _ _
  all_goals
    unfold readKey
    split_ifs <;> simp [toProtoCode_eq_ok]

end Aligned

/-! What a batch leaves in an in-memory backend. -/

structure Untimed (b : InMemory) : Prop where
  default : b.options.defaultTtlMs = 0
  entries : ∀ key e, b.store.lookup key = some e → e.expirationMs = 0

/-- The last item with the key whose own result was OK. -/
def lastWritten (items : List KVItem) (results : List ItemResult) (key : Bytes) : Option KVItem :=
  ((items.zip results).reverse.find? fun p => p.1.key = key ∧ p.2.code = .ok).map Prod.fst

theorem lastWritten_concat {items : List KVItem} {results : List ItemResult}
    (hlength : items.length = results.length) (item : KVItem) (r : ItemResult) (key : Bytes) :
    lastWritten (items ++ [item]) (results ++ [r]) key =
      if item.key = key ∧ r.code = .ok then some item else lastWritten items results key := by
  rw [lastWritten, List.zip_append hlength, List.reverse_append]
  by_cases h : item.key = key ∧ r.code = .ok
  · simp [h]
  · rw [if_neg h, lastWritten]
    simp [h]

/-- The entry of a key after some items over what was there before. -/
def entryAfter (before : Option Mocked.Entry) : Option KVItem → Option Mocked.Entry
  | some item => some ⟨item.value, item.metadata, 0⟩
  | none => before

section Written

variable {ns : String} {m : Manager InMemory} {b : InMemory}

theorem put_untimed (h : Untimed b) (key value metadata : Bytes) :
    let r := inMemory.put b key value metadata { overwrite := true, ttlMs := 0 }
    Untimed r.2 ∧ ∀ k, r.2.store.lookup k =
      if key = k ∧ r.1.code = .ok then some ⟨value, metadata, 0⟩ else b.store.lookup k := by
  intro r
  have hnew : Mocked.newEntry b.options (b.clock 0) value metadata
      { overwrite := true, ttlMs := 0 } = ⟨value, metadata, 0⟩ := by
    simp [Mocked.newEntry, h.default]
  rcases Lifetimes.put_cases b.options b.store (b.clock 0) (b.clock 1) key value metadata
    { overwrite := true, ttlMs := 0 } with ⟨-, hput⟩ | ⟨-, hthere, -⟩ | ⟨-, -, hput⟩
  · have hr : r = (⟨.valueTooLarge, "value exceeds backend limit"⟩,
        { b with clock := fun n => b.clock (n + 2) }) := by
      simp only [r, inMemory, hput]
    rw [hr]
    exact ⟨⟨h.default, h.entries⟩, fun k => by simp⟩
  · exact absurd hthere.1 (by simp)
  · have hr : r = (⟨.ok, ""⟩, { b with
        store := b.store.insert key ⟨value, metadata, 0⟩, clock := fun n => b.clock (n + 2) }) := by
      simp only [r, inMemory, hput, hnew]
    have hlookup : ∀ k, (b.store.insert key ⟨value, metadata, 0⟩).lookup k =
        if key = k then some ⟨value, metadata, 0⟩ else b.store.lookup k := by
      intro k
      rw [lookup_insert_eq]
      simp only [eq_comm]
    rw [hr]
    refine ⟨⟨h.default, fun k e he => ?_⟩, fun k => by simp [hlookup]⟩
    rw [hlookup] at he
    split_ifs at he
    · rw [← Option.some.inj he]
    · exact h.entries k e he

theorem writeItem_untimed (options : ServiceOptions) (h : Untimed b) (hns : m.lookup ns = some b)
    {item : KVItem} (httl : item.ttlMs = 0) :
    ∃ b', (writeItem inMemory options ns true item m).2.lookup ns = some b' ∧ Untimed b' ∧
      ∀ k, b'.store.lookup k =
        if item.key = k ∧ (writeItem inMemory options ns true item m).1.1.code = .ok
        then some ⟨item.value, item.metadata, 0⟩ else b.store.lookup k := by
  unfold writeItem
  split_ifs with hempty hlarge
  · exact ⟨b, hns, h, fun k => by simp⟩
  · exact ⟨b, hns, h, fun k => by simp⟩
  · obtain ⟨huntimed, hlookup⟩ := put_untimed h item.key item.value item.metadata
    refine ⟨_, ?_, huntimed, fun k => ?_⟩
    · simp [Namespaces.put, getBackend, hns, httl]
    · rw [hlookup]
      simp [Namespaces.put, getBackend, hns, httl, toProtoCode_eq_ok]

theorem writeLoop_untimed (options : ServiceOptions) (h : Untimed b)
    (hns : m.lookup ns = some b) (items : List KVItem) (httl : ∀ item ∈ items, item.ttlMs = 0) :
    let l := loop (writeItem inMemory options ns true) items m
    l.results.length = items.length ∧ ∃ b', l.state.lookup ns = some b' ∧ Untimed b' ∧
      ∀ k, b'.store.lookup k = entryAfter (b.store.lookup k) (lastWritten items l.results k) := by
  intro l
  induction items using List.reverseRecOn with
  | nil => exact ⟨rfl, b, hns, h, fun k => rfl⟩
  | append_singleton items item ih =>
    obtain ⟨hlength, b₁, hns₁, h₁, hlookup₁⟩ := ih fun x hx => httl x (by simp [hx])
    obtain ⟨b', hns', h', hlookup⟩ := writeItem_untimed options h₁ hns₁
      (httl item (by simp))
    have hl : l = (loop (writeItem inMemory options ns true) items m).turn
        (writeItem inMemory options ns true) item := loop_concat items item m
    rw [hl]
    refine ⟨by simp [Loop.turn, hlength], b', hns', h', fun k => ?_⟩
    rw [hlookup, hlookup₁]
    simp only [Loop.turn]
    rw [lastWritten_concat hlength.symm]
    split_ifs <;> rfl

theorem batchWrite_untimed (options : ServiceOptions) {request : BatchWriteRequest}
    (h : Untimed b) (hns : m.lookup request.ns = some b)
    (httl : ∀ item ∈ request.items, item.ttlMs = 0) (hoverwrite : request.overwrite = true)
    (hpos : 0 < request.items.length) (hmax : request.items.length ≤ options.maxBatchSize) :
    let w := batchWrite inMemory options request m
    ∃ b', w.2.lookup request.ns = some b' ∧ Untimed b' ∧ ∀ k, b'.store.lookup k =
      entryAfter (b.store.lookup k) (lastWritten request.items w.1.results k) := by
  intro w
  obtain ⟨-, hloop⟩ := writeLoop_untimed options h hns request.items httl
  simp only [w, batchWrite, hoverwrite, batch_eq_loop m hpos hmax]
  exact hloop

end Written

/-! What a read finds. -/

section Read

variable {ns : String} {m : Manager InMemory} {b : InMemory}

def readResult (opts : ReadOptions) (key : Bytes) : Option Mocked.Entry → BatchReadResult
  | some x =>
    { key := key
      value := if opts.includeValue then x.value else []
      metadata := x.metadata }
  | none => { key := key, code := .notFound, message := "miss" }

def hit (opts : ReadOptions) (x : Mocked.Entry) : ReadResult :=
  { code := .ok
    value := if opts.includeValue then x.value else []
    metadata := x.metadata }

theorem get_untimed (h : Untimed b) (key : Bytes) (opts : ReadOptions) :
    let r := inMemory.get b key opts
    Untimed r.2 ∧ (∀ k, r.2.store.lookup k = b.store.lookup k) ∧
      r.1 = match b.store.lookup key with
        | some x => hit opts x
        | none => { code := .notFound, message := "miss" } := by
  intro r
  cases hkey : b.store.lookup key with
  | none =>
    have hr : r = ({ code := .notFound, message := "miss" },
        { b with clock := fun n => b.clock (n + 1) }) := by
      simp only [r, inMemory, Mocked.get, hkey]
    rw [hr]
    exact ⟨⟨h.default, h.entries⟩, fun _ => rfl, rfl⟩
  | some x =>
    have hzero := h.entries key x hkey
    have hlive : x.expired (b.clock 0) = false := by simp [Mocked.Entry.expired, hzero]
    have hsame : Lifetimes.afterHit b.options (b.clock 0) opts x = x := by
      simp [Lifetimes.afterHit, hzero]
    have hlookup : ∀ k, (b.store.insert key x).lookup k = b.store.lookup k := by
      intro k
      rw [lookup_insert_eq]
      split_ifs with hk
      · rw [hk, hkey]
      · rfl
    have hget : Mocked.get b.options (b.clock 0) key opts b.store =
        (hit opts x, b.store.insert key x) := by
      rw [Lifetimes.get_hit hkey hlive, hsame, hzero, hit]
    have hr : r = (hit opts x, { b with
        store := b.store.insert key x, clock := fun n => b.clock (n + 1) }) := by
      simp only [r, inMemory, hget]
    rw [hr]
    refine ⟨⟨h.default, fun k e he => ?_⟩, hlookup, rfl⟩
    exact h.entries k e ((hlookup k).symm.trans he)

theorem readKey_untimed (opts : ReadOptions) (h : Untimed b) (hns : m.lookup ns = some b)
    (key : Bytes) :
    (key ≠ [] → (readKey inMemory ns opts key m).1.1 = readResult opts key (b.store.lookup key)) ∧
      ∃ b', (readKey inMemory ns opts key m).2.lookup ns = some b' ∧ Untimed b' ∧
        ∀ k, b'.store.lookup k = b.store.lookup k := by
  by_cases hempty : key = []
  · rw [readKey, if_pos hempty]
    exact ⟨fun hne => absurd hempty hne, b, hns, h, fun _ => rfl⟩
  · obtain ⟨huntimed, hlookup, hresult⟩ := get_untimed h key opts
    have hget : Namespaces.get inMemory m ns key opts =
        ((inMemory.get b key opts).1, m.insert ns (inMemory.get b key opts).2) := by
      simp [Namespaces.get, getBackend, hns]
    rw [readKey, if_neg hempty, hget]
    refine ⟨fun _ => ?_, _, by simp, huntimed, hlookup⟩
    simp only [hresult]
    cases b.store.lookup key with
    | none => simp [readResult, toProtoCode]
    | some x => cases hvalue : opts.includeValue <;> simp [readResult, hit, toProtoCode, hvalue]

theorem readLoop_untimed (opts : ReadOptions) (h : Untimed b) (hns : m.lookup ns = some b)
    (keys : List Bytes) :
    let l := loop (readKey inMemory ns opts) keys m
    (∀ (i : ℕ) key, keys[i]? = some key → key ≠ [] →
        l.results[i]? = some (readResult opts key (b.store.lookup key))) ∧
      l.results.length = keys.length ∧ ∃ b', l.state.lookup ns = some b' ∧ Untimed b' ∧
        ∀ k, b'.store.lookup k = b.store.lookup k := by
  intro l
  induction keys using List.reverseRecOn with
  | nil => exact ⟨by simp, rfl, b, hns, h, fun _ => rfl⟩
  | append_singleton keys key ih =>
    obtain ⟨hresults, hlength, b₁, hns₁, h₁, hlookup₁⟩ := ih
    obtain ⟨hresult, b', hns', h', hlookup⟩ := readKey_untimed opts h₁ hns₁ key
    have hl : l = (loop (readKey inMemory ns opts) keys m).turn (readKey inMemory ns opts) key :=
      loop_concat keys key m
    rw [hl]
    refine ⟨fun i k hi hne => ?_, by simp [Loop.turn, hlength], b', hns', h',
      fun k => (hlookup k).trans (hlookup₁ k)⟩
    simp only [Loop.turn]
    by_cases hlast : i < keys.length
    · rw [List.getElem?_append_left hlast] at hi
      rw [List.getElem?_append_left (hlength ▸ hlast)]
      exact hresults i k hi hne
    · have hi' : i = keys.length := by
        have := (List.getElem?_eq_some_iff.mp hi).1
        simp at this
        omega
      subst hi'
      obtain rfl : key = k := by simpa using hi
      rw [← hlength, List.getElem?_concat_length, hresult hne, hlookup₁]

theorem batchRead_untimed (options : ServiceOptions) (request : BatchReadRequest) (h : Untimed b)
    (hns : m.lookup request.ns = some b) (hpos : 0 < request.keys.length)
    (hmax : request.keys.length ≤ options.maxBatchSize) {i : ℕ} {key : Bytes}
    (hi : request.keys[i]? = some key) (hne : key ≠ []) :
    (batchRead inMemory options request m).1.results[i]? = some (readResult
      { includeValue := request.includeValue, touchOnHit := request.touchOnHit } key
      (b.store.lookup key)) := by
  rw [batchRead, batch_eq_loop m hpos hmax]
  exact (readLoop_untimed _ h hns request.keys).1 i key hi hne

end Read

/-! A write, then a read. -/

/-- The value and the metadata that a key has after the batch. -/
def contentAfter (b : InMemory) (items : List KVItem) (results : List ItemResult) (key : Bytes) :
    Option (Bytes × Bytes) :=
  match lastWritten items results key with
  | some item => some (item.value, item.metadata)
  | none => (b.store.lookup key).map fun x => (x.value, x.metadata)

def Returns (content : Option (Bytes × Bytes)) (r : BatchReadResult) : Prop :=
  match content with
  | some (value, metadata) => r.code = .ok ∧ r.value = value ∧ r.metadata = metadata
  | none => r.code = .notFound ∧ r.value = [] ∧ r.metadata = []

/-- Both responses are aligned with their requests, and the read returns what the batch wrote over
what was there. -/
theorem batch_write_then_read (options : ServiceOptions) {m : Manager InMemory} {b : InMemory}
    (write : BatchWriteRequest) (read : BatchReadRequest) (hns : m.lookup write.ns = some b)
    (hsame : read.ns = write.ns) (huntimed : Untimed b)
    (httl : ∀ item ∈ write.items, item.ttlMs = 0) (hoverwrite : write.overwrite = true)
    (hwrite : 0 < write.items.length ∧ write.items.length ≤ options.maxBatchSize)
    (hread : 0 < read.keys.length ∧ read.keys.length ≤ options.maxBatchSize)
    (hvalue : read.includeValue = true) :
    let w := batchWrite inMemory options write m
    let r := batchRead inMemory options read w.2
    Aligned KVItem.key ItemResult.key ItemResult.code write.items w.1 ∧
      Aligned id BatchReadResult.key BatchReadResult.code read.keys r.1 ∧
      ∀ (i : ℕ) key, read.keys[i]? = some key → key ≠ [] →
        ∃ result, r.1.results[i]? = some result ∧
          Returns (contentAfter b write.items w.1.results key) result := by
  intro w r
  refine ⟨batchWrite_aligned inMemory options write m hwrite.1 hwrite.2,
    batchRead_aligned inMemory options read w.2 hread.1 hread.2, fun i key hi hne => ?_⟩
  obtain ⟨b', hns', huntimed', hlookup⟩ :=
    batchWrite_untimed options huntimed hns httl hoverwrite hwrite.1 hwrite.2
  rw [← hsame] at hns'
  refine ⟨_, batchRead_untimed options read huntimed' hns' hread.1 hread.2 hi hne, ?_⟩
  rw [hlookup key, contentAfter]
  cases lastWritten write.items w.1.results key with
  | some item => simp [entryAfter, readResult, Returns, hvalue]
  | none => cases b.store.lookup key <;> simp [entryAfter, readResult, Returns, hvalue]

/-- A batch with a repeated key, an empty key and a value over the limit. -/
def mixedWrite : BatchWriteRequest :=
  { ns := "n"
    items := [⟨[1], [7], 0, []⟩, ⟨[], [7], 0, []⟩, ⟨[1], [8], 0, [5]⟩, ⟨[2], [7, 7], 0, []⟩]
    overwrite := true }

def mixedRead : BatchReadRequest := { ns := "n", keys := [[1], [2], [1]], includeValue := true }

def freshBackend : InMemory := ⟨{ maxValueBytes := 1 }, ∅, fun n => n⟩

theorem batch_write_then_read_mixed :
    let m : Manager InMemory := Finmap.singleton "n" freshBackend
    let w := batchWrite inMemory {} mixedWrite m
    let r := batchRead inMemory {} mixedRead w.2
    r.1.results.map (fun x => (x.code, x.value, x.metadata)) =
        [(.ok, [8], [5]), (.notFound, [], []), (.ok, [8], [5])] ∧
      Aligned KVItem.key ItemResult.key ItemResult.code mixedWrite.items w.1 ∧
      Aligned id BatchReadResult.key BatchReadResult.code mixedRead.keys r.1 ∧
      ∀ (i : ℕ) key, mixedRead.keys[i]? = some key → key ≠ [] →
        ∃ result, r.1.results[i]? = some result ∧
          Returns (contentAfter freshBackend mixedWrite.items w.1.results key) result :=
  ⟨by decide +kernel, batch_write_then_read {} mixedWrite mixedRead (Finmap.lookup_singleton_eq)
    rfl ⟨rfl, fun key e he => by simp [freshBackend] at he⟩ (by decide) rfl (by decide) (by decide)
    rfl⟩

end ParaKV.Service.Batch
