/- GID: ParaKV/Index/Wal
   source: parakv/core/index/wal.h, parakv/core/index/wal.cc
   digest: Log records with their checksum, and the scan that stops at a torn tail. -/

import ParaKV.Index.Key

set_option autoImplicit false

namespace ParaKV.Index.Wal

open Lib.LittleEndian Index.Key

/-- One entry of `Crc32Table`: eight reflected polynomial steps from the index. -/
def crc32TableEntry (i : UInt32) : UInt32 :=
  (List.range 8).foldl
    (fun c _ => if c &&& 1 ≠ 0 then (0xEDB88320 : UInt32) ^^^ (c >>> 1) else c >>> 1) i

def crc32Table : List UInt32 := (List.range 256).map fun i => crc32TableEntry (UInt32.ofNat i)

def crc32Step (crc : UInt32) (b : UInt8) : UInt32 :=
  crc32Table.getD ((crc ^^^ b.toUInt32) &&& 0xFF).toNat 0 ^^^ (crc >>> 8)

def crc32 (data : Bytes) : UInt32 := data.foldl crc32Step 0xFFFFFFFF ^^^ 0xFFFFFFFF

/-- The enum has an underlying byte, and `Decode` casts whatever byte it reads. -/
inductive WalRecordType
  | insert
  | update
  | delete
  | unknown (byte : UInt8)
  deriving DecidableEq, Repr

def WalRecordType.toByte : WalRecordType → UInt8
  | .insert => 0x01
  | .update => 0x02
  | .delete => 0x03
  | .unknown b => b

def WalRecordType.ofByte (b : UInt8) : WalRecordType :=
  if b = 0x01 then .insert
  else if b = 0x02 then .update
  else if b = 0x03 then .delete
  else .unknown b

/-- The types the writer produces. -/
def WalRecordType.Known (t : WalRecordType) : Prop := ∀ b, t ≠ .unknown b

theorem WalRecordType.ofByte_toByte {t : WalRecordType} (h : t.Known) : ofByte t.toByte = t := by
  cases t with
  | insert => rfl
  | update => rfl
  | delete => rfl
  | unknown b => exact absurd rfl (h b)

/-- The form that stands for the byte: `unknown` is only used for bytes without a name. Every value
of the enum has one. -/
def WalRecordType.Canonical (t : WalRecordType) : Prop := ofByte t.toByte = t

instance (t : WalRecordType) : Decidable t.Canonical :=
  inferInstanceAs (Decidable (WalRecordType.ofByte t.toByte = t))

structure WalRecord (K : Type) where
  type : WalRecordType
  key : K
  diskAddr : UInt64
  oldDiskAddr : UInt64
  deriving DecidableEq, Repr

variable {K : Type} [KeyType K]

def kMagic : UInt8 := 0xA5

variable (K) in
def kCrcOffset : ℕ := 2 + KeyType.size K + 16

variable (K) in
def kRawSize : ℕ := kCrcOffset K + 4

variable (K) in
/-- The raw size rounded up to a multiple of eight. -/
def kEncodedSize : ℕ := (kRawSize K + 7) / 8 * 8

theorem kRawSize_le_kEncodedSize : kRawSize K ≤ kEncodedSize K := by
  unfold kEncodedSize
  omega

theorem kEncodedSize_pos : 0 < kEncodedSize K := by
  have h := kRawSize_le_kEncodedSize (K := K)
  unfold kRawSize at h
  omega

namespace WalRecord

/-- The bytes the checksum covers. -/
def payload (r : WalRecord K) : Bytes :=
  kMagic :: r.type.toByte ::
    (toBytes r.key ++ (writeLE 8 r.diskAddr.toNat ++ writeLE 8 r.oldDiskAddr.toNat))

def encode (r : WalRecord K) : Bytes :=
  r.payload ++ (writeLE 4 (crc32 r.payload).toNat ++
    List.replicate (kEncodedSize K - kRawSize K) 0)

def decode (b : Bytes) : Option (WalRecord K) :=
  if b.head? ≠ some kMagic then none
  else
    let crcExpected := UInt32.ofNat (readLE ((b.drop (kCrcOffset K)).take 4))
    let crcActual := crc32 (b.take (kCrcOffset K))
    if crcExpected ≠ crcActual then none
    else some
      { type := WalRecordType.ofByte (b.getD 1 0)
        key := ofBytes ((b.drop 2).take (KeyType.size K))
        diskAddr := UInt64.ofNat (readLE ((b.drop (2 + KeyType.size K)).take 8))
        oldDiskAddr := UInt64.ofNat (readLE ((b.drop (10 + KeyType.size K)).take 8)) }

theorem length_payload (r : WalRecord K) : r.payload.length = kCrcOffset K := by
  simp only [payload, List.length_cons, List.length_append, length_toBytes, length_writeLE,
    kCrcOffset]
  omega

@[simp] theorem length_encode (r : WalRecord K) : r.encode.length = kEncodedSize K := by
  have h := kRawSize_le_kEncodedSize (K := K)
  simp only [encode, List.length_append, length_payload, length_writeLE, List.length_replicate,
    kRawSize] at h ⊢
  omega

theorem decode_encode_canonical (r : WalRecord K) (h : r.type.Canonical) :
    decode r.encode = some r := by
  have hcrc : UInt32.ofNat (readLE (writeLE 4 (crc32 r.payload).toNat)) = crc32 r.payload := by
    have hlt : (crc32 r.payload).toNat < 256 ^ 4 := (crc32 r.payload).toNat_lt
    rw [readLE_writeLE, Nat.mod_eq_of_lt hlt, UInt32.ofNat_toNat]
  have htake : r.encode.take (kCrcOffset K) = r.payload :=
    List.take_left' r.length_payload
  have hstored : (r.encode.drop (kCrcOffset K)).take 4 = writeLE 4 (crc32 r.payload).toNat := by
    rw [encode, List.drop_left' r.length_payload, List.take_left' (length_writeLE 4 _)]
  -- the fields behind the two header bytes, in the order they were written
  obtain ⟨tail, htail⟩ : ∃ tail, r.encode = kMagic :: r.type.toByte ::
      (toBytes r.key ++ (writeLE 8 r.diskAddr.toNat ++
        (writeLE 8 r.oldDiskAddr.toNat ++ tail))) :=
    ⟨_, by simp only [encode, payload, List.cons_append, List.append_assoc]; rfl⟩
  have hkey : (r.encode.drop 2).take (KeyType.size K) = toBytes r.key := by
    rw [htail, List.drop_succ_cons, List.drop_succ_cons, List.drop_zero,
      List.take_left' (length_toBytes _)]
  have hdisk : (r.encode.drop (2 + KeyType.size K)).take 8 = writeLE 8 r.diskAddr.toNat := by
    rw [htail, ← List.drop_drop, List.drop_succ_cons, List.drop_succ_cons, List.drop_zero,
      List.drop_left' (length_toBytes _), List.take_left' (length_writeLE 8 _)]
  have hold : (r.encode.drop (10 + KeyType.size K)).take 8 = writeLE 8 r.oldDiskAddr.toNat := by
    have hsplit : 10 + KeyType.size K = 2 + (KeyType.size K + 8) := by omega
    rw [htail, hsplit, ← List.drop_drop, List.drop_succ_cons, List.drop_succ_cons,
      List.drop_zero, ← List.drop_drop, List.drop_left' (length_toBytes _),
      List.drop_left' (length_writeLE 8 _), List.take_left' (length_writeLE 8 _)]
  have hhead : r.encode.head? = some kMagic := by rw [htail]; rfl
  have htype : r.encode.getD 1 0 = r.type.toByte := by rw [htail]; rfl
  have hbyte : WalRecordType.ofByte r.type.toByte = r.type := h
  simp only [decode, hhead, htake, hstored, hcrc, hkey, hdisk, hold, htype, hbyte,
    ofBytes_toBytes, readLE_uint64, ne_eq, not_true_eq_false, if_false]

theorem decode_encode (r : WalRecord K) (h : r.type.Known) : decode r.encode = some r :=
  r.decode_encode_canonical (WalRecordType.ofByte_toByte h)

end WalRecord

/-- `ReadAll` on the bytes from the file cursor on: nothing left, a torn record, or a
whole buffer with what follows it. -/
inductive ReadAll
  | eof
  | torn
  | data (buf rest : Bytes)

def readAll (count : ℕ) (file : Bytes) : ReadAll :=
  if file.length = 0 then .eof
  else if file.length < count then .torn
  else .data (file.take count) (file.drop count)

/-- `WalReader::Replay`: the records before the first torn or rejected one, and the offset
just past them. -/
def replayLoop : ℕ → Bytes → List (WalRecord K) × ℕ
  | 0, _ => ([], 0)
  | fuel + 1, file =>
    match readAll (kEncodedSize K) file with
    | .eof => ([], 0)
    | .torn => ([], 0)
    | .data buf rest =>
      match WalRecord.decode buf with
      | none => ([], 0)
      | some r => (r :: (replayLoop fuel rest).1, (replayLoop fuel rest).2 + kEncodedSize K)

/-- Each pass consumes a record, so the file length bounds the number of passes. -/
def walReplay (file : Bytes) : List (WalRecord K) × ℕ := replayLoop (file.length + 1) file

def encodeAll (rs : List (WalRecord K)) : Bytes := rs.flatMap WalRecord.encode

@[simp] theorem encodeAll_nil : encodeAll ([] : List (WalRecord K)) = [] := rfl

theorem encodeAll_append (rs rs' : List (WalRecord K)) :
    encodeAll (rs ++ rs') = encodeAll rs ++ encodeAll rs' := List.flatMap_append

@[simp] theorem encodeAll_singleton (r : WalRecord K) : encodeAll [r] = r.encode := by
  simp [encodeAll]

theorem length_encodeAll (rs : List (WalRecord K)) :
    (encodeAll rs).length = rs.length * kEncodedSize K := by
  induction rs with
  | nil => simp
  | cons r rs ih =>
    rw [← List.singleton_append, encodeAll_append, List.length_append, ih, encodeAll_singleton,
      WalRecord.length_encode, List.singleton_append, List.length_cons]
    ring

theorem replayLoop_encodeAll (rs : List (WalRecord K)) (torn : Bytes) (fuel : ℕ)
    (hknown : ∀ r ∈ rs, r.type.Known) (htorn : torn.length < kEncodedSize K)
    (hfuel : rs.length < fuel) :
    replayLoop fuel (encodeAll rs ++ torn) = (rs, rs.length * kEncodedSize K) := by
  induction rs generalizing fuel with
  | nil =>
    obtain ⟨fuel, rfl⟩ := Nat.exists_eq_succ_of_ne_zero (Nat.ne_zero_of_lt hfuel)
    by_cases h0 : torn.length = 0 <;>
      simp [replayLoop, readAll, h0, htorn]
  | cons r rs ih =>
    obtain ⟨fuel, rfl⟩ := Nat.exists_eq_succ_of_ne_zero (Nat.ne_zero_of_lt hfuel)
    have hpos := kEncodedSize_pos (K := K)
    have hlen := r.length_encode
    have hfile : encodeAll (r :: rs) ++ torn = r.encode ++ (encodeAll rs ++ torn) := by
      simp [encodeAll]
    have hread : readAll (kEncodedSize K) (r.encode ++ (encodeAll rs ++ torn)) =
        .data r.encode (encodeAll rs ++ torn) := by
      unfold readAll
      rw [List.take_left' hlen, List.drop_left' hlen, if_neg, if_neg] <;>
        simp only [List.length_append] <;> omega
    have htail := ih fuel (fun r' hr' => hknown r' (by simp [hr'])) (by simpa using hfuel)
    simp only [hfile, replayLoop, hread, r.decode_encode (hknown r (by simp)), htail,
      List.length_cons]
    congr 1
    ring

theorem walReplay_encodeAll (rs : List (WalRecord K)) (torn : Bytes)
    (hknown : ∀ r ∈ rs, r.type.Known) (htorn : torn.length < kEncodedSize K) :
    walReplay (encodeAll rs ++ torn) = (rs, rs.length * kEncodedSize K) := by
  apply replayLoop_encodeAll rs torn _ hknown htorn
  have hpos := kEncodedSize_pos (K := K)
  rw [List.length_append, length_encodeAll]
  have := Nat.le_mul_of_pos_right rs.length hpos
  omega

/-! Replay of any file, record by record. -/

theorem replayLoop_fuel (fuel fuel' : ℕ) (file : Bytes) (h : file.length < fuel)
    (h' : file.length < fuel') :
    (replayLoop fuel file : List (WalRecord K) × ℕ) = replayLoop fuel' file := by
  induction fuel generalizing fuel' file with
  | zero => omega
  | succ fuel ih =>
    cases fuel' with
    | zero => omega
    | succ fuel' =>
      have hpos := kEncodedSize_pos (K := K)
      simp only [replayLoop, readAll]
      split_ifs with hempty htorn
      · rfl
      · rfl
      · simp only [ih fuel' (file.drop (kEncodedSize K)) (by rw [List.length_drop]; omega)
          (by rw [List.length_drop]; omega)]

theorem walReplay_eq (file : Bytes) :
    (walReplay file : List (WalRecord K) × ℕ) =
      if file.length < kEncodedSize K then ([], 0)
      else match WalRecord.decode (file.take (kEncodedSize K)) with
        | none => ([], 0)
        | some r =>
          (r :: (walReplay (file.drop (kEncodedSize K))).1,
            (walReplay (K := K) (file.drop (kEncodedSize K))).2 + kEncodedSize K) := by
  have hpos := kEncodedSize_pos (K := K)
  rw [walReplay, replayLoop, readAll]
  by_cases hempty : file.length = 0
  · rw [if_pos hempty, if_pos (by omega)]
  · rw [if_neg hempty]
    by_cases htorn : file.length < kEncodedSize K
    · rw [if_pos htorn, if_pos htorn]
    · rw [if_neg htorn, if_neg htorn]
      simp only [walReplay, replayLoop_fuel file.length
        ((file.drop (kEncodedSize K)).length + 1) (file.drop (kEncodedSize K))
        (by rw [List.length_drop]; omega) (by omega)]

/-- A file cut off anywhere replays a part of its records from the front. -/
theorem walReplay_cut (file : Bytes) (n : ℕ) :
    (walReplay (K := K) (file.take n)).1 <+: (walReplay file).1 := by
  have hpos := kEncodedSize_pos (K := K)
  induction hlen : file.length using Nat.strong_induction_on generalizing file n with
  | _ len ih =>
    rw [walReplay_eq (file.take n), walReplay_eq file]
    by_cases hshort : (file.take n).length < kEncodedSize K
    · rw [if_pos hshort]
      exact List.nil_prefix
    · rw [List.length_take] at hshort
      rw [if_neg (by rw [List.length_take]; exact hshort), if_neg (by omega), List.take_take,
        min_eq_left (by omega), List.drop_take]
      cases WalRecord.decode (K := K) (file.take (kEncodedSize K)) with
      | none => exact List.nil_prefix
      | some r =>
        refine List.cons_prefix_cons.mpr ⟨rfl, ?_⟩
        exact ih _ (by rw [List.length_drop]; omega) (file.drop (kEncodedSize K)) _ rfl

theorem walReplay_take_good (file : Bytes) :
    (walReplay (K := K) (file.take (walReplay (K := K) file).2)).1 = (walReplay file).1 := by
  have hpos := kEncodedSize_pos (K := K)
  induction hlen : file.length using Nat.strong_induction_on generalizing file with
  | _ len ih =>
    rw [walReplay_eq file]
    by_cases hshort : file.length < kEncodedSize K
    · rw [if_pos hshort]
      simp [walReplay_eq, hpos]
    · rw [if_neg hshort]
      cases hdecode : WalRecord.decode (K := K) (file.take (kEncodedSize K)) with
      | none => simp [walReplay_eq, hpos]
      | some r =>
        have hrest := ih _ (by rw [List.length_drop]; omega) (file.drop (kEncodedSize K)) rfl
        simp only
        rw [walReplay_eq, if_neg (by rw [List.length_take]; omega), List.take_take,
          min_eq_left (by omega), List.drop_take, Nat.add_sub_cancel, hdecode]
        simp only [hrest]

end ParaKV.Index.Wal
