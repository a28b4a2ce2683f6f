/- GID: ParaKV/Storage/Simulation
   source: parakv/core/kvcache_storage/index_kvcache_storage_backend.cc,
     parakv/core/kvcache_storage/mocked_inmemory_kvcache_storage.cc
   digest: The index backend answers every request as the in-memory backend does. -/

import ParaKV.Storage.Backend
import ParaKV.Index.CompactionReturns

set_option autoImplicit false

namespace ParaKV.Storage.Simulation

open Lib.LogMap Lib.OwnedSlots Lib.StepRun Lib.LittleEndian Lib.HashOrder Index Index.Key
open Index.Operations Index.Ownership Index.CrashSafety Index.Compaction Index.Recovery Index.Runs
open Index.Bookkeeping Index.CompactionReturns Segment.Manager Storage.Backend
open Storage.Backend.Indexed Core.State

variable (b : Indexed.Options) (hash : HashPolicy ℕ)

/-! The payload of a slot. -/

theorem writeAt_zeros (pre bs : Bytes) (k : ℕ) :
    writeAt (pre ++ List.replicate k 0) pre.length bs =
      (pre ++ bs) ++ List.replicate (k - bs.length) 0 := by
  have htake : (pre ++ List.replicate k (0 : UInt8)).take pre.length = pre := List.take_left' rfl
  have hgap : pre.length - (pre ++ List.replicate k (0 : UInt8)).length = 0 := by
    simp
  have hdrop : (pre ++ List.replicate k (0 : UInt8)).drop (pre.length + bs.length) =
      List.replicate (k - bs.length) 0 := by
    rw [List.drop_append, List.drop_of_length_le (Nat.le_add_right _ _), List.nil_append,
      List.drop_replicate]
    congr 1
    omega
  rw [writeAt, htake, hgap, hdrop, List.replicate_zero, List.append_nil]

/-- The value and the metadata fit into a slot behind the header. -/
def Fits (value metadata : Bytes) : Prop :=
  value.length + metadata.length ≤ b.slotValueSize.toNat - 8

instance (value metadata : Bytes) : Decidable (Fits b value metadata) :=
  inferInstanceAs (Decidable (_ ≤ _))

def payload (value metadata : Bytes) : Bytes :=
  writeLE 4 value.length ++ writeLE 4 metadata.length ++ value ++ metadata ++
    List.replicate (b.slotValueSize.toNat - 8 - value.length - metadata.length) 0

variable {b hash}

theorem header_lt (hvalid : ensureValidOptions b = .ok) : 8 < b.slotValueSize.toNat := by
  by_contra hle
  have hsmall : b.slotValueSize ≤ kHeaderBytes := UInt32.le_iff_toNat_le.mpr (by
    have hheader : kHeaderBytes.toNat = 8 := rfl
    omega)
  simp [ensureValidOptions, hsmall] at hvalid

theorem toNat_maxPayload (hvalid : ensureValidOptions b = .ok) :
    (b.slotValueSize - kHeaderBytes).toNat = b.slotValueSize.toNat - 8 := by
  have hlt := header_lt hvalid
  have hheader : kHeaderBytes.toNat = 8 := rfl
  have hle : kHeaderBytes ≤ b.slotValueSize := UInt32.le_iff_toNat_le.mpr (by omega)
  rw [UInt32.toNat_sub_of_le _ _ hle, hheader]

/-- The buffer is overwritten front to back, so every write goes into zeros. -/
theorem encodePayload_eq (hvalid : ensureValidOptions b = .ok) {value metadata : Bytes}
    (hfits : Fits b value metadata) :
    encodePayload b value metadata = .ok (payload b value metadata) := by
  have hmax := toNat_maxPayload hvalid
  have hle : ¬ value.length + metadata.length > (b.slotValueSize - kHeaderBytes).toNat := by
    rw [hmax]
    exact Nat.not_lt.mpr hfits
  have hheader : kHeaderBytes.toNat = 8 := rfl
  set n := b.slotValueSize.toNat with hn
  have h₀ := writeAt_zeros [] (writeLE 4 value.length) n
  have h₁ := writeAt_zeros (writeLE 4 value.length) (writeLE 4 metadata.length) (n - 4)
  have h₂ := writeAt_zeros (writeLE 4 value.length ++ writeLE 4 metadata.length) value (n - 4 - 4)
  have h₃ := writeAt_zeros (writeLE 4 value.length ++ writeLE 4 metadata.length ++ value) metadata
    (n - 4 - 4 - value.length)
  have h8 : n - 4 - 4 = n - 8 := by omega
  simp only [List.nil_append, List.length_nil, length_writeLE, List.length_append, h8,
    Nat.reduceAdd] at h₀ h₁ h₂ h₃
  simp only [encodePayload, if_neg hle, ← hn, hheader, h₀, h₁, h₂, h₃, payload]

theorem length_payload_eq (hvalid : ensureValidOptions b = .ok) {value metadata : Bytes}
    (hfits : Fits b value metadata) :
    (payload b value metadata).length = b.slotValueSize.toNat := by
  have hlt := header_lt hvalid
  unfold Fits at hfits
  simp only [payload, List.length_append, length_writeLE, List.length_replicate]
  omega

theorem readLE_length {l n : ℕ} (hl : l ≤ n) (hn : n < 2 ^ 32) : readLE (writeLE 4 l) = l := by
  have h256 : (256 : ℕ) ^ 4 = 2 ^ 32 := by norm_num
  rw [readLE_writeLE, h256, Nat.mod_eq_of_lt (lt_of_le_of_lt hl hn)]

theorem decodePayload_payload (hvalid : ensureValidOptions b = .ok) {value metadata : Bytes}
    (hfits : Fits b value metadata) :
    decodePayload (payload b value metadata) = .ok (value, metadata) := by
  have hlength := length_payload_eq hvalid hfits
  have hlt := header_lt hvalid
  have hsize : b.slotValueSize.toNat < 2 ^ 32 := b.slotValueSize.toNat_lt
  have hheader : kHeaderBytes.toNat = 8 := rfl
  unfold Fits at hfits
  have hvalue : readLE (writeLE 4 value.length) = value.length :=
    readLE_length (n := b.slotValueSize.toNat) (by omega) hsize
  have hmetadata : readLE (writeLE 4 metadata.length) = metadata.length :=
    readLE_length (n := b.slotValueSize.toNat) (by omega) hsize
  obtain ⟨rest, hrest⟩ : ∃ rest, payload b value metadata =
      writeLE 4 value.length ++ (writeLE 4 metadata.length ++ (value ++ (metadata ++ rest))) :=
    ⟨_, by simp only [payload, List.append_assoc]; rfl⟩
  have h4 : (payload b value metadata).take 4 = writeLE 4 value.length := by
    rw [hrest, List.take_left' (length_writeLE 4 _)]
  have hd4 : (payload b value metadata).drop 4 =
      writeLE 4 metadata.length ++ (value ++ (metadata ++ rest)) := by
    rw [hrest, List.drop_left' (length_writeLE 4 _)]
  have hd8 : (payload b value metadata).drop 8 = value ++ (metadata ++ rest) := by
    have hsplit : (8 : ℕ) = 4 + 4 := rfl
    rw [hsplit, ← List.drop_drop, hd4, List.drop_left' (length_writeLE 4 _)]
  have hdv : (payload b value metadata).drop (8 + value.length) = metadata ++ rest := by
    rw [← List.drop_drop, hd8, List.drop_left' rfl]
  have hshort : ¬ (payload b value metadata).length < 8 := by omega
  have hlong : ¬ 8 + (value.length + metadata.length) > (payload b value metadata).length := by
    omega
  simp only [decodePayload, hheader, if_neg hshort, h4, hd4, List.take_left' (length_writeLE 4 _),
    hvalue, hmetadata, if_neg hlong, hd8, hdv, List.take_left' rfl]

theorem decodePayload_ok {bytes value metadata : Bytes}
    (hok : decodePayload bytes = .ok (value, metadata)) :
    ∃ header rest : Bytes, bytes = header ++ (value ++ (metadata ++ rest)) ∧ header.length = 8 ∧
      value.length = readLE (header.take 4) ∧ metadata.length = readLE (header.drop 4) := by
  have hheader : kHeaderBytes.toNat = 8 := rfl
  rw [decodePayload, hheader] at hok
  by_cases hshort : bytes.length < 8
  · rw [if_pos hshort] at hok
    cases hok
  rw [if_neg hshort] at hok
  by_cases hlong : 8 + (readLE (bytes.take 4) + readLE ((bytes.drop 4).take 4)) > bytes.length
  · rw [if_pos hlong] at hok
    cases hok
  rw [if_neg hlong, Except.ok.injEq, Prod.mk.injEq] at hok
  obtain ⟨rfl, rfl⟩ := hok
  refine ⟨bytes.take 8, (bytes.drop 8).drop (readLE (bytes.take 4) +
    readLE ((bytes.drop 4).take 4)), ?_, ?_, ?_, ?_⟩
  · rw [← List.drop_drop, ← List.drop_drop, List.take_append_drop, List.take_append_drop,
      List.take_append_drop]
  · rw [List.length_take]
    omega
  · rw [List.length_take, List.length_drop, List.take_take]
    exact Nat.min_eq_left (by omega)
  · rw [List.length_take, List.length_drop, List.drop_take]
    exact Nat.min_eq_left (by omega)

theorem decodePayload_error {bytes : Bytes} {code : BackendCode} {err : String}
    (herror : decodePayload bytes = .error (code, err)) : code = .corrupted := by
  simp only [decodePayload] at herror
  split_ifs at herror <;> simp_all

/-- The payload codec at every slot size that leaves room behind the header. -/
theorem payload_codec (b : Indexed.Options) (hsize : kHeaderBytes < b.slotValueSize) :
    (∀ value metadata : Bytes,
      ((∃ bytes, encodePayload b value metadata = .ok bytes) ↔
        value.length + metadata.length ≤ b.slotValueSize.toNat - 8) ∧
      ∀ bytes, encodePayload b value metadata = .ok bytes →
        bytes.length = b.slotValueSize.toNat ∧ decodePayload bytes = .ok (value, metadata)) ∧
    ∀ bytes : Bytes, (∃ err, decodePayload bytes = .error (.corrupted, err)) ∨
      ∃ header value metadata rest : Bytes, decodePayload bytes = .ok (value, metadata) ∧
        bytes = header ++ (value ++ (metadata ++ rest)) ∧ header.length = 8 ∧
        value.length = readLE (header.take 4) ∧ metadata.length = readLE (header.drop 4) := by
  -- The codec reads no option but the slot size, so one segment will do.
  have hvalid : ensureValidOptions { b with segmentCount := 1 } = .ok := by
    have hle : ¬ b.slotValueSize ≤ kHeaderBytes := UInt32.not_le.mpr hsize
    simp [ensureValidOptions, hle]
  refine ⟨fun value metadata => ?_, fun bytes => ?_⟩
  · by_cases hfits : Fits { b with segmentCount := 1 } value metadata
    · have hencode := encodePayload_eq hvalid hfits
      refine ⟨⟨fun _ => hfits, fun _ => ⟨_, hencode⟩⟩, fun bytes hbytes => ?_⟩
      obtain rfl := Except.ok.inj (hencode.symm.trans hbytes)
      exact ⟨length_payload_eq hvalid hfits, decodePayload_payload hvalid hfits⟩
    · have hlarge : value.length + metadata.length > (b.slotValueSize - kHeaderBytes).toNat := by
        rw [toNat_maxPayload hvalid]
        exact Nat.not_le.mp hfits
      have hrefused : encodePayload b value metadata =
          .error (.valueTooLarge, "value+metadata exceeds slot_value_size") := by
        rw [encodePayload, if_pos hlarge]
      refine ⟨⟨fun ⟨bytes, hbytes⟩ => ?_, fun h => absurd h hfits⟩, fun bytes hbytes => ?_⟩
      · rw [hrefused] at hbytes
        cases hbytes
      · rw [hrefused] at hbytes
        cases hbytes
  · cases hdecode : decodePayload bytes with
    | error e =>
      obtain ⟨code, err⟩ := e
      obtain rfl := decodePayload_error hdecode
      exact Or.inl ⟨err, rfl⟩
    | ok pair =>
      obtain ⟨value, metadata⟩ := pair
      obtain ⟨header, rest, hbytes, hlengths⟩ := decodePayload_ok hdecode
      exact Or.inr ⟨header, value, metadata, rest, rfl, hbytes, hlengths⟩

theorem payload_codec_default :
    ∃ bytes, encodePayload {} [1, 2, 3] [4] = .ok bytes ∧ bytes.length = 4096 ∧
      decodePayload bytes = .ok ([1, 2, 3], [4]) := by
  have hcodec := (payload_codec {} (by decide)).1 [1, 2, 3] [4]
  obtain ⟨bytes, hbytes⟩ := hcodec.1.mpr (by decide)
  exact ⟨bytes, hbytes, hcodec.2 bytes hbytes⟩

/-! Requests, served by both backends side by side. -/

inductive Request
  | put (key value metadata : Bytes) (opts : WriteOptions)
  | get (key : Bytes) (opts : ReadOptions)
  | delete (key : Bytes)
  | compact

/-- Nothing is asked of a compaction but that it returns. -/
inductive Reply
  | wrote (result : WriteResult)
  | found (result : ReadResult)
  | compacted (returned : Bool)
  deriving DecidableEq

def Reply.code : Reply → BackendCode
  | .wrote result => result.code
  | .found result => result.code
  | .compacted _ => .ok

def Reply.returned : Reply → Bool
  | .compacted returned => returned
  | _ => true

structure Timed where
  request : Request
  now : ℕ
  later : ℕ

/-- Sixteen-byte keys, payloads that fit, no time to live, no touch. -/
def Request.Admitted (b : Indexed.Options) : Request → Prop
  | .put key value metadata opts => key.length = 16 ∧ Fits b value metadata ∧ opts.ttlMs = 0
  | .get key opts => key.length = 16 ∧ opts.touchOnHit = false
  | .delete key => key.length = 16
  | .compact => True

instance (b : Indexed.Options) (r : Request) : Decidable (r.Admitted b) :=
  match r with
  | .put _ _ _ _ => inferInstanceAs (Decidable (_ ∧ _ ∧ _))
  | .get _ _ => inferInstanceAs (Decidable (_ ∧ _))
  | .delete _ => inferInstanceAs (Decidable (_ = _))
  | .compact => isTrue trivial

variable {L : Type}

structure Server (L : Type) where
  world : World Key128
  ctx : Option (Context L)

def Server.serve (b : Indexed.Options) (hash : HashPolicy ℕ) (lfu : Lfu L) (s : Server L) :
    Request → Reply × Server L
  | .put key value metadata opts =>
    let r := run (Indexed.put b lfu (indexOptions b hash) s.ctx key value metadata opts) s.world
    (.wrote r.val.1, ⟨r.state, r.val.2⟩)
  | .get key opts =>
    let r := run (Indexed.get b lfu (indexOptions b hash) s.ctx key opts) s.world
    (.found r.val.1, ⟨r.state, r.val.2⟩)
  | .delete key =>
    let r := run (Indexed.delete lfu (indexOptions b hash) s.ctx key) s.world
    (.wrote r.val.1, ⟨r.state, r.val.2⟩)
  | .compact =>
    let r := run (runAttachedCompaction (indexOptions b hash)) s.world
    (.compacted r.val.isSome, ⟨r.state, s.ctx⟩)

/-- The points of a request at which a kill leaves other files. -/
def Server.trace (b : Indexed.Options) (hash : HashPolicy ℕ) (lfu : Lfu L) (s : Server L) :
    Request → List (Event Key128)
  | .put key value metadata opts =>
    (run (Indexed.put b lfu (indexOptions b hash) s.ctx key value metadata opts) s.world).trace
  | .get key opts => (run (Indexed.get b lfu (indexOptions b hash) s.ctx key opts) s.world).trace
  | .delete key => (run (Indexed.delete lfu (indexOptions b hash) s.ctx key) s.world).trace
  | .compact => (run (runAttachedCompaction (indexOptions b hash)) s.world).trace

def Server.after (b : Indexed.Options) (hash : HashPolicy ℕ) (lfu : Lfu L) (s : Server L)
    (r : Request) : Option (Server L) :=
  if (s.serve b hash lfu r).1.returned then some (s.serve b hash lfu r).2 else none

variable {lfu : Lfu L}

theorem Server.after_eq_some {s s' : Server L} {r : Request} (h : s.after b hash lfu r = some s') :
    s' = (s.serve b hash lfu r).2 ∧ (s.serve b hash lfu r).1.returned = true := by
  unfold Server.after at h
  split_ifs at h with hreturned
  exact ⟨(Option.some.inj h).symm, hreturned⟩

theorem Server.returned_of_ne {s : Server L} {r : Request} (hr : r ≠ .compact) :
    (s.serve b hash lfu r).1.returned = true := by
  cases r with
  | compact => exact (hr rfl).elim
  | put _ _ _ _ => rfl
  | get _ _ => rfl
  | delete _ => rfl

/-- The in-memory backend with its default options; it has nothing to compact. -/
def serveMocked (t : Timed) (store : Mocked.Store) : Reply × Mocked.Store :=
  match t.request with
  | .put key value metadata opts =>
    let r := Mocked.put {} t.now t.later key value metadata opts store
    (.wrote r.1, r.2)
  | .get key opts =>
    let r := Mocked.get {} t.now key opts store
    (.found r.1, r.2)
  | .delete key =>
    let r := Mocked.delete key store
    (.wrote r.1, r.2)
  | .compact => (.compacted true, store)

/-- The constructor over the files of the root directory; there is no context when
`CreateContext` fails. -/
def boot (L : Type) (b : Indexed.Options) (hash : HashPolicy ℕ) (d : Disk Key128) : Server L :=
  let r := run (createContext b hash) (World.boot d)
  ⟨r.state, if r.val = .ok then some ⟨none⟩ else none⟩

structure Pair (L : Type) where
  server : Server L
  store : Mocked.Store

/-- Both backends as they are constructed, over an empty directory but for a state file. -/
def Pair.initial (L : Type) (b : Indexed.Options) (hash : HashPolicy ℕ)
    (stateFile : Option Bytes) : Pair L :=
  ⟨boot L b hash { Disk.empty Key128 with managerState := stateFile }, ∅⟩

def Pair.step (b : Indexed.Options) (hash : HashPolicy ℕ) (lfu : Lfu L) (p : Pair L) (t : Timed) :
    Option (Pair L) :=
  (p.server.after b hash lfu t.request).map fun server => ⟨server, (serveMocked t p.store).2⟩

/-- No `GetActiveSegment` of a compaction erases the element its iterator stands on. -/
def Request.Calm (b : Indexed.Options) (hash : HashPolicy ℕ) (w : World Key128) : Request → Prop
  | .compact => CompactionReturns.Calm (indexOptions b hash) (candidates (indexOptions b hash) w) w
  | _ => True

instance (b : Indexed.Options) (hash : HashPolicy ℕ) (w : World Key128) (r : Request) :
    Decidable (r.Calm b hash w) :=
  match r with
  | .put _ _ _ _ => isTrue trivial
  | .get _ _ => isTrue trivial
  | .delete _ => isTrue trivial
  | .compact => inferInstanceAs (Decidable (CompactionReturns.Calm _ _ _))

/-- An admitted request that is not answered with `kStorageFull`, where a compaction chooses its
targets without an erase. -/
def Served (b : Indexed.Options) (hash : HashPolicy ℕ) (lfu : Lfu L) (p : Pair L) (t : Timed) :
    Prop :=
  t.request.Admitted b ∧ (p.server.serve b hash lfu t.request).1.code ≠ .storageFull ∧
    t.request.Calm b hash p.server.world

instance (b : Indexed.Options) (hash : HashPolicy ℕ) (lfu : Lfu L) (p : Pair L) (t : Timed) :
    Decidable (Served b hash lfu p t) :=
  inferInstanceAs (Decidable (_ ∧ _ ∧ _))

/-! The simulation. -/

def stored (b : Indexed.Options) (e : Mocked.Entry) : Bytes := payload b e.value e.metadata

/-- The live contents of the index are the payloads of the entries of the store. -/
structure Simulates (b : Indexed.Options) (hash : HashPolicy ℕ) (p : Pair L) : Prop where
  ctx : p.server.ctx = some ⟨none⟩
  tended : Tended (indexOptions b hash) p.server.world
  contents : ∀ key : Bytes, key.length = 16 →
    value (indexOptions b hash) p.server.world (ofBytes key) = (p.store.lookup key).map (stored b)
  entries : ∀ key e, p.store.lookup key = some e →
    e.expirationMs = 0 ∧ Fits b e.value e.metadata

theorem ofBytes_inj {key key' : Bytes} (h : key.length = 16) (h' : key'.length = 16)
    (heq : (ofBytes key : Key128) = ofBytes key') : key = key' := by
  have hbytes := congrArg toBytes heq
  rwa [toBytes_ofBytes key h, toBytes_ofBytes key' h'] at hbytes

theorem fromString_eq {key : Bytes} (h : key.length = 16) :
    Key128.fromString key = some (ofBytes key) := by
  simp [Key128.fromString, h]

variable {p : Pair L}

theorem Simulates.run_get (h : Simulates b hash p)
    (hadm : (indexOptions b hash).Admissible Key128) {key : Bytes} (hkey : key.length = 16) :
    (run (Operations.get (indexOptions b hash) (ofBytes key) b.slotValueSize.toNat)
      p.server.world).val =
      match p.store.lookup key with
      | some e => (.ok, stored b e)
      | none => (.notFound, []) := by
  have hget := Ownership.run_get hadm h.tended.live (ofBytes key)
  rw [h.contents key hkey] at hget
  have hsize : (indexOptions b hash).segmentConfig.valueSize = b.slotValueSize.toNat := rfl
  rw [hsize] at hget
  rw [hget]
  cases p.store.lookup key <;> rfl

theorem Simulates.run_probe (h : Simulates b hash p)
    (hadm : (indexOptions b hash).Admissible Key128) {key : Bytes} (hkey : key.length = 16)
    (opts : WriteOptions) :
    (run (probeExisting b (indexOptions b hash) (ofBytes key) opts) p.server.world).val =
        (if opts.overwrite = false ∧ (p.store.lookup key).isSome
          then some ⟨.alreadyExists, "key already exists"⟩ else none) ∧
      (run (probeExisting b (indexOptions b hash) (ofBytes key) opts) p.server.world).state =
        p.server.world := by
  have hget := h.run_get hadm hkey
  have hstate := run_get_state (o := indexOptions b hash) (w := p.server.world)
    (ofBytes key : Key128) b.slotValueSize.toNat
  cases hopt : opts.overwrite with
  | true => simp [probeExisting, hopt]
  | false =>
    cases hlookup : p.store.lookup key with
    | none =>
      rw [hlookup] at hget
      simp [probeExisting, hopt, hget, hstate]
    | some e =>
      rw [hlookup] at hget
      simp [probeExisting, hopt, hget, hstate]

theorem Simulates.mocked_put (h : Simulates b hash p) (t : Timed) {key value metadata : Bytes}
    {opts : WriteOptions} (hrequest : t.request = .put key value metadata opts)
    (httl : opts.ttlMs = 0) :
    serveMocked t p.store =
      if opts.overwrite = false ∧ (p.store.lookup key).isSome then
        (.wrote ⟨.alreadyExists, "key already exists"⟩, p.store)
      else (.wrote ⟨.ok, ""⟩, p.store.insert key ⟨value, metadata, 0⟩) := by
  cases hlookup : p.store.lookup key with
  | none => simp [serveMocked, hrequest, Mocked.put, hlookup, Mocked.newEntry, httl]
  | some e =>
    have hexpired : e.expired t.later = false := by
      simp [Mocked.Entry.expired, (h.entries key e hlookup).1]
    cases hopt : opts.overwrite <;>
      simp [serveMocked, hrequest, Mocked.put, hlookup, Mocked.newEntry, httl, hopt, hexpired]

theorem Simulates.update (h : Simulates b hash p) {key : Bytes} (hkey : key.length = 16)
    {server : Server L} {store : Mocked.Store} (hctx : server.ctx = some ⟨none⟩)
    (htended : Tended (indexOptions b hash) server.world) {e : Option Mocked.Entry}
    (he : ∀ e' ∈ e, e'.expirationMs = 0 ∧ Fits b e'.value e'.metadata)
    (hvalue : value (indexOptions b hash) server.world = Function.update
      (value (indexOptions b hash) p.server.world) (ofBytes key) (e.map (stored b)))
    (hstore : ∀ key', store.lookup key' = if key' = key then e else p.store.lookup key') :
    Simulates b hash (⟨server, store⟩ : Pair L) where
  ctx := hctx
  tended := htended
  contents key' hkey' := by
    change value (indexOptions b hash) server.world (ofBytes key') =
      (store.lookup key').map (stored b)
    rw [hvalue, hstore key']
    by_cases heq : key' = key
    · rw [heq, if_pos rfl, Function.update_self]
    · have hne : (ofBytes key' : Key128) ≠ ofBytes key := fun hof =>
        heq (ofBytes_inj hkey' hkey hof)
      rw [if_neg heq, Function.update_of_ne hne]
      exact h.contents key' hkey'
  entries key' e' he' := by
    have hcases : (if key' = key then e else p.store.lookup key') = some e' :=
      (hstore key').symm.trans he'
    by_cases heq : key' = key
    · rw [if_pos heq] at hcases
      exact he e' hcases
    · rw [if_neg heq] at hcases
      exact h.entries key' e' hcases

theorem simulates_put (h : Simulates b hash p) (hvalid : ensureValidOptions b = .ok)
    (hadm : (indexOptions b hash).Admissible Key128) (t : Timed) {key value metadata : Bytes}
    {opts : WriteOptions} (hrequest : t.request = .put key value metadata opts)
    (hadmitted : t.request.Admitted b)
    (hspace : (p.server.serve b hash lfu t.request).1.code ≠ .storageFull) :
    (p.server.serve b hash lfu t.request).1 = (serveMocked t p.store).1 ∧
      Simulates b hash
        (⟨(p.server.serve b hash lfu t.request).2, (serveMocked t p.store).2⟩ : Pair L) := by
  rw [hrequest] at hadmitted hspace ⊢
  obtain ⟨hkey, hfits, httl⟩ := hadmitted
  obtain ⟨hprobe, hprobed⟩ := h.run_probe hadm hkey opts
  have hmocked := h.mocked_put t hrequest httl
  have hctx := h.ctx
  by_cases hrefused : opts.overwrite = false ∧ (p.store.lookup key).isSome
  · rw [if_pos hrefused] at hprobe hmocked
    have hserve : p.server.serve b hash lfu (.put key value metadata opts) =
        (.wrote ⟨.alreadyExists, "key already exists"⟩, ⟨p.server.world, p.server.ctx⟩) := by
      simp [Server.serve, Indexed.put, fromString_eq hkey, hctx, hprobe, hprobed]
    rw [hserve, hmocked]
    exact ⟨rfl, h⟩
  · rw [if_neg hrefused] at hprobe hmocked
    have hencode := encodePayload_eq hvalid hfits
    have hlength := length_payload_eq hvalid hfits
    set o := indexOptions b hash with ho
    set r := run (Operations.put o (ofBytes key) (payload b value metadata)) p.server.world with hr
    have htended : Tended o r.state :=
      tended_op hadm h.tended (.put (ofBytes key) (payload b value metadata)) (by simp)
    have hvalue : Ownership.value o r.state = if r.val = .ok
        then Function.update (Ownership.value o p.server.world) (ofBytes key)
          (some (payload b value metadata))
        else Ownership.value o p.server.world := (put_spec hadm h.tended.live trivial).2
    -- the index takes the payload, or has no space for it
    have hok : r.val = .ok := by
      rcases put_status (o := o) hadm h.tended.live (ofBytes key) hlength with hok | hfull | hfull
      · exact hok
      all_goals
        refine (hspace ?_).elim
        simp [Server.serve, Indexed.put, fromString_eq hkey, hctx, hprobe, hprobed, hencode, ← ho,
          hfull, Reply.code, toBackendCode]
    have hserve : p.server.serve b hash lfu (.put key value metadata opts) =
        (.wrote ⟨.ok, ""⟩, ⟨r.state, some ⟨none⟩⟩) := by
      simp [Server.serve, Indexed.put, fromString_eq hkey, hctx, hprobe, hprobed, hencode, ← ho,
        ← hr, hok, lfuInsert]
    rw [hserve, hmocked]
    refine ⟨rfl, h.update hkey rfl htended (e := some ⟨value, metadata, 0⟩) ?_ ?_ ?_⟩
    · intro e' he'
      obtain rfl := Option.some.inj he'
      exact ⟨rfl, hfits⟩
    · rw [if_pos hok] at hvalue
      exact hvalue
    · intro key'
      exact lookup_insert_eq p.store key key' _

theorem simulates_get (h : Simulates b hash p) (hvalid : ensureValidOptions b = .ok)
    (hadm : (indexOptions b hash).Admissible Key128) (t : Timed) {key : Bytes}
    {opts : ReadOptions} (hrequest : t.request = .get key opts)
    (hadmitted : t.request.Admitted b) :
    (p.server.serve b hash lfu t.request).1 = (serveMocked t p.store).1 ∧
      Simulates b hash
        (⟨(p.server.serve b hash lfu t.request).2, (serveMocked t p.store).2⟩ : Pair L) := by
  rw [hrequest] at hadmitted ⊢
  obtain ⟨hkey, htouch⟩ := hadmitted
  have hget := h.run_get hadm hkey
  have hstate := run_get_state (o := indexOptions b hash) (w := p.server.world)
    (ofBytes key : Key128) b.slotValueSize.toNat
  have hctx := h.ctx
  cases hlookup : p.store.lookup key with
  | none =>
    rw [hlookup] at hget
    have hserve : p.server.serve b hash lfu (.get key opts) =
        (.found { code := .notFound, message := "miss" }, ⟨p.server.world, p.server.ctx⟩) := by
      simp [Server.serve, Indexed.get, fromString_eq hkey, hctx, hget, hstate, toBackendCode]
    have hmocked : serveMocked t p.store =
        (.found { code := .notFound, message := "miss" }, p.store) := by
      simp [serveMocked, hrequest, Mocked.get, hlookup]
    rw [hserve, hmocked]
    exact ⟨rfl, h⟩
  | some e =>
    rw [hlookup] at hget
    obtain ⟨hexpiration, hfits⟩ := h.entries key e hlookup
    have hdecode := decodePayload_payload hvalid hfits
    have hserve : p.server.serve b hash lfu (.get key opts) =
        (.found { code := .ok, value := if opts.includeValue then e.value else [],
                  metadata := e.metadata }, ⟨p.server.world, p.server.ctx⟩) := by
      simp [Server.serve, Indexed.get, fromString_eq hkey, hctx, hget, hstate, stored, hdecode,
        lfuFind]
    have hmocked : serveMocked t p.store =
        (.found { code := .ok, value := if opts.includeValue then e.value else [],
                  metadata := e.metadata }, p.store.insert key e) := by
      simp [serveMocked, hrequest, Mocked.get, hlookup, Mocked.Entry.expired, hexpiration]
    rw [hserve, hmocked]
    refine ⟨rfl, h.update hkey hctx h.tended (e := some e) ?_ ?_ ?_⟩
    · intro e' he'
      obtain rfl := Option.some.inj he'
      exact ⟨hexpiration, hfits⟩
    · have hcontent := h.contents key hkey
      rw [hlookup] at hcontent
      rw [← hcontent]
      exact (Function.update_eq_self _ _).symm
    · intro key'
      exact lookup_insert_eq p.store key key' e

theorem simulates_delete (h : Simulates b hash p) (hadm : (indexOptions b hash).Admissible Key128)
    (t : Timed) {key : Bytes} (hrequest : t.request = .delete key)
    (hadmitted : t.request.Admitted b) :
    (p.server.serve b hash lfu t.request).1 = (serveMocked t p.store).1 ∧
      Simulates b hash
        (⟨(p.server.serve b hash lfu t.request).2, (serveMocked t p.store).2⟩ : Pair L) := by
  rw [hrequest] at hadmitted ⊢
  have hkey : key.length = 16 := hadmitted
  have htended : Tended (indexOptions b hash)
      (run (Operations.delete (indexOptions b hash) (ofBytes key : Key128)) p.server.world).state :=
    tended_op hadm h.tended (.delete (ofBytes key)) (by simp)
  obtain ⟨-, hval, hvalue⟩ := delete_spec hadm h.tended.live (ofBytes key)
  have hcontent := h.contents key hkey
  have hctx := h.ctx
  cases hlookup : p.store.lookup key with
  | none =>
    rw [hlookup, Option.map_none] at hcontent
    rw [hcontent, if_pos rfl] at hval
    have hserve : p.server.serve b hash lfu (.delete key) = (.wrote ⟨.notFound, "key not found"⟩,
        ⟨(run (Operations.delete (indexOptions b hash) (ofBytes key : Key128))
          p.server.world).state, p.server.ctx⟩) := by
      simp [Server.serve, Indexed.delete, fromString_eq hkey, hctx, hval, toBackendCode]
    have hmocked : serveMocked t p.store = (.wrote ⟨.notFound, "key not found"⟩, p.store) := by
      simp [serveMocked, hrequest, Mocked.delete, hlookup]
    rw [hserve, hmocked]
    refine ⟨rfl, h.update hkey hctx htended (e := none) (fun _ he => by cases he) hvalue ?_⟩
    intro key'
    split_ifs with heq
    · rw [heq, hlookup]
    · rfl
  | some e =>
    rw [hlookup, Option.map_some] at hcontent
    rw [hcontent, if_neg (Option.some_ne_none _)] at hval
    have hserve : p.server.serve b hash lfu (.delete key) = (.wrote ⟨.ok, ""⟩,
        ⟨(run (Operations.delete (indexOptions b hash) (ofBytes key : Key128))
          p.server.world).state, some ⟨none⟩⟩) := by
      simp [Server.serve, Indexed.delete, fromString_eq hkey, hctx, hval, lfuErase]
    have hmocked : serveMocked t p.store = (.wrote ⟨.ok, ""⟩, p.store.erase key) := by
      simp [serveMocked, hrequest, Mocked.delete, hlookup]
    rw [hserve, hmocked]
    refine ⟨rfl, h.update hkey rfl htended (e := none) (fun _ he => by cases he) hvalue ?_⟩
    intro key'
    exact lookup_erase_eq p.store key key'

theorem Simulates.returned (h : Simulates b hash p) (lfu : Lfu L) {r : Request}
    (hcalm : r.Calm b hash p.server.world) : (p.server.serve b hash lfu r).1.returned = true := by
  cases r with
  | compact =>
    obtain ⟨st, hst⟩ := runCompaction_returns h.tended.classified hcalm
    simp [Server.serve, Reply.returned, hst]
  | put _ _ _ _ => rfl
  | get _ _ => rfl
  | delete _ => rfl

theorem simulates_step (h : Simulates b hash p) (hvalid : ensureValidOptions b = .ok)
    (hadm : (indexOptions b hash).Admissible Key128) (t : Timed) (hadmitted : t.request.Admitted b)
    (hspace : (p.server.serve b hash lfu t.request).1.code ≠ .storageFull)
    (hreturned : (p.server.serve b hash lfu t.request).1.returned = true) :
    (p.server.serve b hash lfu t.request).1 = (serveMocked t p.store).1 ∧
      Simulates b hash
        (⟨(p.server.serve b hash lfu t.request).2, (serveMocked t p.store).2⟩ : Pair L) := by
  cases hrequest : t.request with
  | put key value metadata opts =>
    rw [← hrequest]
    exact simulates_put h hvalid hadm t hrequest hadmitted hspace
  | get key opts =>
    rw [← hrequest]
    exact simulates_get h hvalid hadm t hrequest hadmitted
  | delete key =>
    rw [← hrequest]
    exact simulates_delete h hadm t hrequest hadmitted
  | compact =>
    rw [hrequest] at hreturned
    obtain ⟨-, hvalue⟩ := compaction_spec hadm h.tended.live
    have hmocked : serveMocked t p.store = (.compacted true, p.store) := by
      simp [serveMocked, hrequest]
    rw [hmocked]
    refine ⟨congrArg Reply.compacted hreturned, h.ctx, tended_op hadm h.tended .compact (by simp),
      fun key hkey => ?_, h.entries⟩
    rw [← h.contents key hkey]
    exact congrFun hvalue _

theorem walPath_ne : (indexOptions b hash).walPath ≠ "" := by
  intro hempty
  have hlength := congrArg String.length hempty
  simp [indexOptions] at hlength

theorem run_createContext (hvalid : ensureValidOptions b = .ok) (hroot : b.rootDir ≠ "")
    {w : World Key128} (hval : (run (openStore (indexOptions b hash)) w).val = .ok) :
    (run (createContext b hash) w).val = .ok ∧
      (run (createContext b hash) w).state =
        (run (openStore (indexOptions b hash)) w).state := by
  simp [createContext, hvalid, hroot, hval, toBackendCode]

theorem simulates_initial (hvalid : ensureValidOptions b = .ok) (hroot : b.rootDir ≠ "")
    (hadm : (indexOptions b hash).Admissible Key128) (stateFile : Option Bytes) :
    (run (createContext b hash)
        (World.boot { Disk.empty Key128 with managerState := stateFile })).val = .ok ∧
      Simulates b hash (Pair.initial L b hash stateFile) := by
  set d : Disk Key128 := { Disk.empty Key128 with managerState := stateFile } with hd
  have hpath : (indexOptions b hash).walPath ≠ "" := walPath_ne
  have hsafe : CrashSafe (indexOptions b hash) (fun _ _ => True) d ∅ := crashSafe_initial stateFile
  obtain ⟨-, -, ⟨hview, -⟩, hok, hstarted⟩ := openStore_spec hadm hpath hsafe
  have hval := hstarted fun s _ hpresent => by simp [hd, Disk.empty] at hpresent
  obtain ⟨-, hmap⟩ := hok hval
  have hcreate := run_createContext hvalid hroot hval
  refine ⟨hcreate.1, ?_, ?_, ?_, ?_⟩
  · simp [Pair.initial, boot, ← hd, hcreate.1]
  · simp only [Pair.initial, boot, ← hd, hcreate.2]
    exact (starts_tended hadm ⟨hsafe, fun hempty => (hpath hempty).elim⟩).1 hval
  · intro key hkey
    have hempty : value (indexOptions b hash) (run (openStore (indexOptions b hash))
        (World.boot d)).state (ofBytes key) = none := by
      refine content_none ?_
      rw [hmap]
      rfl
    simp only [Pair.initial, boot, ← hd, hcreate.2, hempty]
    rfl
  · intro key e he
    cases he

/-- From an empty directory, as long as no request runs out of space and no compaction chooses a
target through an erased element, every request returns with the reply of the in-memory backend:
code, message, value, metadata and expiration. -/
theorem replies_agree (lfu : Lfu L) (hvalid : ensureValidOptions b = .ok) (hroot : b.rootDir ≠ "")
    (hadm : (indexOptions b hash).Admissible Key128) {stateFile : Option Bytes}
    {ts : List Timed}
    (hrun : GuardedRun (Pair.step b hash lfu) (Served b hash lfu)
      (Pair.initial L b hash stateFile) ts p) (t : Timed) (hserved : Served b hash lfu p t) :
    (run (createContext b hash)
        (World.boot { Disk.empty Key128 with managerState := stateFile })).val = .ok ∧
      (p.server.serve b hash lfu t.request).1 = (serveMocked t p.store).1 := by
  obtain ⟨hcreated, hinitial⟩ := simulates_initial (L := L) hvalid hroot hadm stateFile
  have hsim := hrun.invariant (I := fun _ p => Simulates b hash p) hinitial ?_
  · obtain ⟨hadmitted, hspace, hcalm⟩ := hserved
    have hreturned := hsim.returned lfu hcalm
    exact ⟨hcreated, (simulates_step hsim hvalid hadm t hadmitted hspace hreturned).1⟩
  · intro ts p t p' hsim hserved hstep
    obtain ⟨server, hafter, rfl⟩ := Option.map_eq_some_iff.mp hstep
    obtain ⟨rfl, hreturned⟩ := Server.after_eq_some hafter
    exact (simulates_step hsim hvalid hadm t hserved.1 hserved.2.1 hreturned).2

/-- Two segments of four slots, with eight bytes for a value and its metadata. -/
def smallBackend : Indexed.Options :=
  { rootDir := "store", segmentSize := 4224, slotValueSize := 16, segmentCount := 2,
    walCheckpointBytes := 0 }

def noCache : Lfu Unit := ⟨fun _ c => (c, []), fun _ c => c, fun _ c => c⟩

def keyOf (n : ℕ) : Bytes := List.replicate 16 (UInt8.ofNat n)

/-- Four keys fill a segment, a refused and a fresh `Put` follow, three of the keys go, and the
compaction moves the one that is left. -/
def movingRequests : List Timed :=
  ([0, 1, 2, 3].map fun n => ⟨.put (keyOf n) [UInt8.ofNat n] [7] {}, n, n⟩) ++
    [⟨.put (keyOf 3) [9] [] {}, 4, 4⟩, ⟨.put (keyOf 4) [9] [] { overwrite := true }, 5, 5⟩] ++
    ([0, 1, 2].map fun n => ⟨.delete (keyOf n), n, n⟩) ++ [⟨.compact, 9, 9⟩]

set_option maxRecDepth 100000 in
theorem replies_agree_moving :
    ∃ p : Pair Unit, GuardedRun (Pair.step smallBackend (frontPolicy ℕ) noCache)
        (Served smallBackend (frontPolicy ℕ) noCache)
        (Pair.initial Unit smallBackend (frontPolicy ℕ) none) movingRequests p ∧
      (p.server.serve smallBackend (frontPolicy ℕ) noCache (.get (keyOf 3) {})).1 =
        .found { code := .ok, value := [3], metadata := [7] } ∧
      (p.server.serve smallBackend (frontPolicy ℕ) noCache (.get (keyOf 3) {})).1 =
        (serveMocked ⟨.get (keyOf 3) {}, 10, 10⟩ p.store).1 := by
  obtain ⟨p, hrun, hp⟩ := exists_guardedRun
    (f := fun p : Pair Unit =>
      (p.server.serve smallBackend (frontPolicy ℕ) noCache (.get (keyOf 3) {})).1)
    (show (performGuarded (Pair.step smallBackend (frontPolicy ℕ) noCache)
      (Served smallBackend (frontPolicy ℕ) noCache)
      (Pair.initial Unit smallBackend (frontPolicy ℕ) none) movingRequests).map _ =
        some (.found { code := .ok, value := [3], metadata := [7] }) by decide +kernel)
  have hadm : (indexOptions smallBackend (frontPolicy ℕ)).Admissible Key128 :=
    ⟨rfl, by decide, by decide⟩
  have hserved : Served smallBackend (frontPolicy ℕ) noCache p ⟨.get (keyOf 3) {}, 10, 10⟩ :=
    ⟨by decide, by rw [hp]; decide, trivial⟩
  exact ⟨p, hrun, hp, (replies_agree noCache (by decide) (by decide) hadm hrun _ hserved).2⟩

/-- One key is left of four, and four others fill the second segment. -/
def sparseRequests : List Timed :=
  ([0, 1, 2, 3].map fun n => ⟨.put (keyOf n) [UInt8.ofNat n] [7] {}, n, n⟩) ++
    ([0, 1, 2].map fun n => ⟨.delete (keyOf n), n, n⟩) ++
    ([4, 5, 6, 7].map fun n => ⟨.put (keyOf n) [UInt8.ofNat n] [7] {}, n, n⟩)

set_option maxRecDepth 100000 in
/-- Every request so far was served. The compaction gets its own source as the target and never
returns, while the in-memory backend has nothing to do. -/
theorem compaction_never_returns :
    ((performGuarded (Pair.step smallBackend (frontPolicy ℕ) noCache)
      (Served smallBackend (frontPolicy ℕ) noCache)
      (Pair.initial Unit smallBackend (frontPolicy ℕ) none) sparseRequests).map fun p =>
        ((p.server.serve smallBackend (frontPolicy ℕ) noCache (.get (keyOf 3) {})).1,
          (p.server.serve smallBackend (frontPolicy ℕ) noCache .compact).1,
          (serveMocked ⟨.compact, 8, 8⟩ p.store).1)) =
      some (.found { code := .ok, value := [3], metadata := [7] }, .compacted false,
        .compacted true) := by
  decide +kernel

end ParaKV.Storage.Simulation
