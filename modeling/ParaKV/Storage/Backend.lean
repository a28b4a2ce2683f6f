/- GID: ParaKV/Storage/Backend
   source: parakv/core/kvcache_storage/kvcache_storage_backend.h,
     parakv/core/kvcache_storage/index_kvcache_storage_backend.cc,
     parakv/core/kvcache_storage/mocked_inmemory_kvcache_storage.cc
   digest: The storage backend interface, the in-memory reference backend and the index backend. -/

import ParaKV.Index.Operations

set_option autoImplicit false

namespace ParaKV.Storage.Backend

open Index.Key

/-! The interface. -/

inductive BackendCode
  | ok
  | notFound
  | alreadyExists
  | valueTooLarge
  | storageFull
  | ioError
  | unavailable
  | corrupted
  | invalidArgument
  deriving DecidableEq, Repr

/-- No backend reads the `durable` flag. -/
structure WriteOptions where
  overwrite : Bool := false
  ttlMs : ℕ := 0
  deriving DecidableEq

structure ReadOptions where
  includeValue : Bool := true
  touchOnHit : Bool := false
  deriving DecidableEq

structure WriteResult where
  code : BackendCode := .ok
  message : String := ""
  deriving DecidableEq, Repr

structure ReadResult where
  code : BackendCode := .notFound
  message : String := ""
  value : Bytes := []
  metadata : Bytes := []
  expirationMs : ℕ := 0
  deriving DecidableEq, Repr

end ParaKV.Storage.Backend

/-! `MockedInMemoryKVCacheStorage`. The readings of the clock are arguments, in the order in
which a call takes them. -/

namespace ParaKV.Storage.Backend.Mocked

open Lib.LogMap Index.Key

structure Options where
  maxValueBytes : ℕ := 0
  defaultTtlMs : ℕ := 0

structure Entry where
  value : Bytes
  metadata : Bytes
  expirationMs : ℕ
  deriving DecidableEq

abbrev Store := FMap Bytes Entry

def Entry.expired (e : Entry) (now : ℕ) : Bool := decide (e.expirationMs > 0 ∧ e.expirationMs ≤ now)

variable (options : Options)

def newEntry (now : ℕ) (value metadata : Bytes) (opts : WriteOptions) : Entry :=
  let ttlMs := if opts.ttlMs > 0 then opts.ttlMs else options.defaultTtlMs
  ⟨value, metadata, if ttlMs > 0 then (now + ttlMs) % 2 ^ 64 else 0⟩

def put (now now' : ℕ) (key value metadata : Bytes) (opts : WriteOptions) (store : Store) :
    WriteResult × Store :=
  if options.maxValueBytes > 0 ∧ value.length > options.maxValueBytes then
    (⟨.valueTooLarge, "value exceeds backend limit"⟩, store)
  else
    let entry := newEntry options now value metadata opts
    match store.lookup key with
    | some old =>
      if !opts.overwrite && !old.expired now' then
        (⟨.alreadyExists, "key already exists"⟩, store)
      else (⟨.ok, ""⟩, store.insert key entry)
    | none => (⟨.ok, ""⟩, store.insert key entry)

def get (now : ℕ) (key : Bytes) (opts : ReadOptions) (store : Store) : ReadResult × Store :=
  match store.lookup key with
  | none => ({ code := .notFound, message := "miss" }, store)
  | some entry =>
    if entry.expired now then ({ code := .notFound, message := "expired" }, store.erase key)
    else
      let touched : Entry :=
        if opts.touchOnHit = true ∧ entry.expirationMs > 0 ∧ options.defaultTtlMs > 0 then
          { entry with expirationMs := (now + options.defaultTtlMs) % 2 ^ 64 }
        else entry
      ({ code := .ok
         value := if opts.includeValue then touched.value else []
         metadata := touched.metadata
         expirationMs := touched.expirationMs }, store.insert key touched)

def delete (key : Bytes) (store : Store) : WriteResult × Store :=
  match store.lookup key with
  | none => (⟨.notFound, "key not found"⟩, store)
  | some _ => (⟨.ok, ""⟩, store.erase key)

end ParaKV.Storage.Backend.Mocked

/-! `IndexKVCacheStorageBackend`. -/

namespace ParaKV.Storage.Backend.Indexed

open Segment Lib.TracedProgram Lib.LittleEndian Lib.HashOrder Index Index.Key Index.Operations
open Segment.Base Segment.Manager Core.State

/-- The options that reach the store. The namespace name is only logged, and the eviction cache
of a context is a value of its own. -/
structure Options where
  rootDir : String := "/tmp/parakv-index128-backend"
  segmentSize : UInt64 := 64 * 1024 * 1024
  slotValueSize : UInt32 := 4096
  segmentCount : UInt32 := 1
  walCheckpointBytes : UInt64 := (1 : UInt64) <<< 30

/-- value_len (4) and metadata_len (4) -/
def kHeaderBytes : UInt32 := 8

variable (b : Options)

def ensureValidOptions : BackendCode :=
  if b.slotValueSize ≤ kHeaderBytes then .invalidArgument
  else if b.segmentCount = 0 then .invalidArgument
  else .ok

/-- The buffer is zeroed and then overwritten piece by piece. -/
def encodePayload (value metadata : Bytes) : Except (BackendCode × String) Bytes :=
  let maxPayload := b.slotValueSize - kHeaderBytes
  let total := value.length + metadata.length
  if total > maxPayload.toNat then
    .error (.valueTooLarge, "value+metadata exceeds slot_value_size")
  else
    let payload := List.replicate b.slotValueSize.toNat 0
    let payload := writeAt payload 0 (writeLE 4 value.length)
    let payload := writeAt payload 4 (writeLE 4 metadata.length)
    let payload := writeAt payload kHeaderBytes.toNat value
    .ok (writeAt payload (kHeaderBytes.toNat + value.length) metadata)

def decodePayload (payload : Bytes) : Except (BackendCode × String) (Bytes × Bytes) :=
  if payload.length < kHeaderBytes.toNat then .error (.corrupted, "")
  else
    let valueLen := readLE (payload.take 4)
    let metadataLen := readLE ((payload.drop 4).take 4)
    let total := valueLen + metadataLen
    if kHeaderBytes.toNat + total > payload.length then
      .error (.corrupted, "corrupted payload header")
    else
      .ok ((payload.drop kHeaderBytes.toNat).take valueLen,
        (payload.drop (kHeaderBytes.toNat + valueLen)).take metadataLen)

def toBackendCode : Status → BackendCode
  | .ok => .ok
  | .notFound => .notFound
  | .full => .storageFull
  | .noSpace => .storageFull
  | .ioError => .ioError
  | .invalidArgument => .invalidArgument
  | .corruption => .corrupted

/-- The options `CreateContext` builds the index with. -/
def indexOptions (hash : HashPolicy ℕ) : ParaKV.Core.State.Options where
  segmentConfig :=
    { keySize := 16
      valueSize := b.slotValueSize.toNat
      segmentSize := b.segmentSize.toNat }
  segmentCount := b.segmentCount.toNat
  walPath := b.rootDir ++ "/index.wal"
  snapshotDir := b.rootDir
  walCheckpointBytes := b.walCheckpointBytes.toNat
  hash := hash

/-- `CreateContext` up to the eviction cache; `EnsureDir` fails on an empty path. -/
def createContext (hash : HashPolicy ℕ) : M Key128 BackendCode := do
  let valid := ensureValidOptions b
  if valid ≠ .ok then return valid
  if b.rootDir = "" then return .ioError
  let st ← openStore (indexOptions b hash)
  return toBackendCode st

/-- The eviction cache as the backend uses it; `insert` returns the keys it evicts. -/
structure Lfu (L : Type) where
  insert : Key128 → L → L × List Key128
  find : Key128 → L → L
  erase : Key128 → L → L

/-- An initialized backend. The index lives in the world; there is no cache when
`lfu_capacity_ratio` is 0. -/
structure Context (L : Type) where
  lfu : Option L

variable {L : Type} (lfu : Lfu L) (o : ParaKV.Core.State.Options)

/-- The eviction callback deletes the key from the index and only logs a failure. -/
def evict : List Key128 → M Key128 Unit
  | [] => return ()
  | key :: keys => do
    let _ ← Operations.delete o key
    evict keys

def lfuInsert (key : Key128) (ctx : Context L) : M Key128 (Context L) := do
  match ctx.lfu with
  | none => return ctx
  | some cache =>
    let (cache, evicted) := lfu.insert key cache
    evict o evicted
    return { lfu := some cache }

def lfuFind (key : Key128) (ctx : Context L) : Context L := { lfu := ctx.lfu.map (lfu.find key) }

def lfuErase (key : Key128) (ctx : Context L) : Context L :=
  { lfu := ctx.lfu.map (lfu.erase key) }

def invalidKey : String := "key must be exactly 16 bytes (Key128)"

def noContext : String := "context not initialized"

/-- The probe of a `Put` that must not overwrite. -/
def probeExisting (key : Key128) (opts : WriteOptions) : M Key128 (Option WriteResult) := do
  if opts.overwrite then return none
  let (s, _) ← Operations.get o key b.slotValueSize.toNat
  if s = .ok then return some ⟨.alreadyExists, "key already exists"⟩
  if s ≠ .notFound then return some ⟨toBackendCode s, "failed to probe existing key"⟩
  return none

def put (ctx : Option (Context L)) (key value metadata : Bytes) (opts : WriteOptions) :
    M Key128 (WriteResult × Option (Context L)) := do
  match Key128.fromString key, ctx with
  | none, _ => return (⟨.invalidArgument, invalidKey⟩, ctx)
  | some _, none => return (⟨.unavailable, noContext⟩, ctx)
  | some k, some c =>
    match ← probeExisting b o k opts with
    | some refusal => return (refusal, ctx)
    | none =>
      match encodePayload b value metadata with
      | .error (code, err) => return (⟨code, err⟩, ctx)
      | .ok payload =>
        let s ← Operations.put o k payload
        if s ≠ .ok then return (⟨toBackendCode s, "index put failed"⟩, ctx)
        let c ← lfuInsert lfu o k c
        return (⟨.ok, ""⟩, some c)

def get (ctx : Option (Context L)) (key : Bytes) (opts : ReadOptions) :
    M Key128 (ReadResult × Option (Context L)) := do
  match Key128.fromString key, ctx with
  | none, _ => return ({ code := .invalidArgument, message := invalidKey }, ctx)
  | some _, none => return ({ code := .unavailable, message := noContext }, ctx)
  | some k, some c =>
    let (s, payload) ← Operations.get o k b.slotValueSize.toNat
    if s ≠ .ok then
      return ({ code := toBackendCode s
                message := if s = .notFound then "miss" else "index get failed" }, ctx)
    match decodePayload payload with
    | .error (code, err) => return ({ code := code, message := err }, ctx)
    | .ok (value, metadata) =>
      return ({ code := .ok
                value := if opts.includeValue then value else []
                metadata := metadata }, some (lfuFind lfu k c))

def delete (ctx : Option (Context L)) (key : Bytes) :
    M Key128 (WriteResult × Option (Context L)) := do
  match Key128.fromString key, ctx with
  | none, _ => return (⟨.invalidArgument, invalidKey⟩, ctx)
  | some _, none => return (⟨.unavailable, noContext⟩, ctx)
  | some k, some c =>
    let s ← Operations.delete o k
    if s ≠ .ok then
      return (⟨toBackendCode s, if s = .notFound then "key not found" else "index delete failed"⟩,
        ctx)
    return (⟨.ok, ""⟩, some (lfuErase lfu k c))

/-- `IndexKVCacheStorageBackend::Close`. The last reference to the context goes with it: first the
index is destroyed, then the manager with the segments. -/
def close (ctx : Option (Context L)) : M Key128 Unit := do
  match ctx with
  | none => return ()
  | some _ =>
    -- failures of the three calls are only logged
    let _ ← checkpoint o
    let _ ← saveState
    let _ ← closeIndex
    destroyIndex o
    destroySegments o (List.range o.segmentCount)

end ParaKV.Storage.Backend.Indexed
