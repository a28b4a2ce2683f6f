/- GID: ParaKV/Index/WalCodec
   source: parakv/core/index/wal.cc, parakv/core/index/wal.h
   digest: The record codec is a round trip, and its checksum rejects every burst of four bytes. -/

import ParaKV.Lib.ReflectedCrc
import ParaKV.Index.Wal

set_option autoImplicit false

namespace ParaKV.Index.WalCodec

open Lib.LittleEndian Lib.ReflectedCrc Index.Key Index.Wal

variable {K : Type} [KeyType K]

/-! The checksum as a remainder. -/

def polynomial : BitVec 32 := 0xEDB88320#32

theorem and_one_ne_zero_iff (c : UInt32) : c &&& 1 ≠ 0 ↔ c.toBitVec.getLsbD 0 = true := by
  have hbits : (c &&& 1).toBitVec =
      BitVec.setWidth 32 (BitVec.ofBool (c.toBitVec.getLsbD 0)) := by
    rw [UInt32.toBitVec_and]
    exact BitVec.and_one_eq_setWidth_ofBool_getLsbD
  have hzero : c &&& 1 = 0 ↔ (c &&& 1).toBitVec = 0#32 := UInt32.toBitVec_inj.symm
  rw [ne_eq, hzero, hbits]
  cases c.toBitVec.getLsbD 0 <;> decide

theorem tableBit_toBitVec (c : UInt32) :
    (if c &&& 1 ≠ 0 then (0xEDB88320 : UInt32) ^^^ (c >>> 1) else c >>> 1).toBitVec =
      bitStep polynomial c.toBitVec := by
  have hlow := and_one_ne_zero_iff c
  unfold bitStep
  by_cases hbit : c.toBitVec.getLsbD 0 = true
  · rw [if_pos (hlow.mpr hbit), if_pos hbit]
    rfl
  · rw [if_neg (mt hlow.mp hbit), if_neg hbit]
    rfl

theorem crc32TableEntry_toBitVec (i : UInt32) :
    (crc32TableEntry i).toBitVec = bitSteps polynomial 8 i.toBitVec := by
  have hsemiconj : Function.Semiconj UInt32.toBitVec
      (fun c : UInt32 => if c &&& 1 ≠ 0 then (0xEDB88320 : UInt32) ^^^ (c >>> 1) else c >>> 1)
      (bitStep polynomial) := tableBit_toBitVec
  rw [crc32TableEntry, List.foldl_const, List.length_range]
  exact hsemiconj.iterate_right 8 i

theorem crc32Table_getD {n : ℕ} (hn : n < 256) :
    crc32Table.getD n 0 = crc32TableEntry (UInt32.ofNat n) := by
  rw [crc32Table, List.getD_eq_getElem _ _ (by simpa using hn), List.getElem_map,
    List.getElem_range]

theorem crc32Step_toBitVec (c : UInt32) (b : UInt8) :
    (crc32Step c b).toBitVec = byteStep polynomial c.toBitVec b := by
  have hbyte : b.toUInt32.toBitVec = ofByte 32 b := rfl
  have hmask : ((c ^^^ b.toUInt32) &&& 0xFF).toNat < 256 := by
    rw [UInt32.toNat_and]
    exact Nat.lt_of_le_of_lt Nat.and_le_right (by decide)
  rw [crc32Step, crc32Table_getD hmask, UInt32.ofNat_toNat, UInt32.toBitVec_xor,
    crc32TableEntry_toBitVec, UInt32.toBitVec_and, UInt32.toBitVec_xor, hbyte,
    byteStep_eq polynomial (by decide)]
  rfl

theorem foldl_crc32Step_toBitVec (data : Bytes) (c : UInt32) :
    (data.foldl crc32Step c).toBitVec = remainder polynomial data c.toBitVec := by
  induction data generalizing c with
  | nil => rfl
  | cons b data ih => rw [List.foldl_cons, ih, crc32Step_toBitVec, remainder_cons]

theorem crc32_toBitVec (data : Bytes) :
    (crc32 data).toBitVec = remainder polynomial data 0xFFFFFFFF#32 ^^^ 0xFFFFFFFF#32 := by
  rw [crc32, UInt32.toBitVec_xor, foldl_crc32Step_toBitVec]
  rfl

/-- The checksum one message bit at a time. -/
def crc32Bitwise (data : Bytes) : BitVec 32 :=
  ~~~((messageBits data).foldl (feedBit polynomial) 0xFFFFFFFF#32)

theorem crc32_eq_bitwise (data : Bytes) : (crc32 data).toBitVec = crc32Bitwise data := by
  rw [crc32_toBitVec, remainder_eq_feedBits polynomial (by decide), crc32Bitwise]
  exact BitVec.xor_allOnes

example : crc32Bitwise [0x31, 0x32, 0x33, 0x34, 0x35, 0x36, 0x37, 0x38, 0x39] = 0xCBF43926#32 := by
  decide +kernel

/-! Accepted buffers. -/

theorem decode_eq_some {b : Bytes} {r : WalRecord K} (h : WalRecord.decode b = some r) :
    b.head? = some kMagic ∧
      UInt32.ofNat (readLE ((b.drop (kCrcOffset K)).take 4)) = crc32 (b.take (kCrcOffset K)) ∧
      r = ⟨WalRecordType.ofByte (b.getD 1 0), ofBytes ((b.drop 2).take (KeyType.size K)),
        UInt64.ofNat (readLE ((b.drop (2 + KeyType.size K)).take 8)),
        UInt64.ofNat (readLE ((b.drop (10 + KeyType.size K)).take 8))⟩ := by
  by_cases hhead : b.head? = some kMagic
  · by_cases hcrc : UInt32.ofNat (readLE ((b.drop (kCrcOffset K)).take 4)) =
        crc32 (b.take (kCrcOffset K))
    · simp only [WalRecord.decode, hhead, hcrc, ne_eq, not_true_eq_false, if_false] at h
      exact ⟨hhead, hcrc, (Option.some.inj h).symm⟩
    · simp [WalRecord.decode, hhead, hcrc] at h
  · simp [WalRecord.decode, hhead] at h

/-- With its checksum behind it, every accepted string leaves the same remainder. -/
theorem remainder_accepted {b : Bytes} {r : WalRecord K} (hlength : kRawSize K ≤ b.length)
    (h : WalRecord.decode b = some r) :
    remainder polynomial (b.take (kRawSize K)) 0xFFFFFFFF#32 =
      bitSteps polynomial 32 0xFFFFFFFF#32 := by
  obtain ⟨-, hcrc, -⟩ := decode_eq_some h
  have hraw : kRawSize K = kCrcOffset K + 4 := rfl
  have hstored : ((b.drop (kCrcOffset K)).take 4).length = 4 := by
    rw [List.length_take, List.length_drop]
    omega
  have hword : word 32 ((b.drop (kCrcOffset K)).take 4) =
      remainder polynomial (b.take (kCrcOffset K)) 0xFFFFFFFF#32 ^^^ 0xFFFFFFFF#32 := by
    rw [← crc32_toBitVec, ← hcrc]
    rfl
  rw [hraw, List.take_add, remainder_append, remainder_word polynomial (by rw [hstored]), hword,
    hstored, ← BitVec.xor_assoc, BitVec.xor_self, BitVec.zero_xor]

theorem toByte_ofByte (b : UInt8) : (WalRecordType.ofByte b).toByte = b := by
  unfold WalRecordType.ofByte
  split_ifs with h1 h2 h3
  · exact h1.symm
  · exact h2.symm
  · exact h3.symm
  · rfl

theorem decode_encode_isSome (r : WalRecord K) :
    ∃ r' : WalRecord K, WalRecord.decode r.encode = some r' := by
  -- the same record with its type in the form the decoder gives
  let r' : WalRecord K := { r with type := WalRecordType.ofByte r.type.toByte }
  have hpayload : r'.payload = r.payload := by simp [WalRecord.payload, r', toByte_ofByte]
  have hencode : r'.encode = r.encode := by rw [WalRecord.encode, WalRecord.encode, hpayload]
  have hcanonical : r'.type.Canonical := congrArg WalRecordType.ofByte (toByte_ofByte _)
  exact ⟨r', hencode ▸ r'.decode_encode_canonical hcanonical⟩

/-! The round trip. -/

def KnownByte (b : UInt8) : Prop := b = 0x01 ∨ b = 0x02 ∨ b = 0x03

theorem take_kCrcOffset {b : Bytes} (hlength : kRawSize K ≤ b.length)
    (hhead : b.head? = some kMagic) :
    b.take (kCrcOffset K) = kMagic :: b.getD 1 0 :: ((b.drop 2).take (KeyType.size K) ++
      ((b.drop (2 + KeyType.size K)).take 8 ++ (b.drop (10 + KeyType.size K)).take 8)) := by
  have hraw : kRawSize K = 2 + KeyType.size K + 16 + 4 := rfl
  match b with
  | [] => simp at hhead
  | [_] =>
    rw [hraw, List.length_singleton] at hlength
    omega
  | x :: y :: rest =>
    obtain rfl : x = kMagic := by simpa using hhead
    have hoffset : kCrcOffset K = KeyType.size K + 16 + 1 + 1 := by
      unfold kCrcOffset
      omega
    have hwords : ∀ l : Bytes, l.take 16 = l.take 8 ++ (l.drop 8).take 8 := fun l =>
      List.take_add (i := 8) (j := 8)
    have hdisk : 2 + KeyType.size K = KeyType.size K + 1 + 1 := by omega
    have hold : 10 + KeyType.size K = KeyType.size K + 8 + 1 + 1 := by omega
    rw [hoffset, hdisk, hold]
    simp only [List.take_succ_cons, List.drop_succ_cons, List.drop_zero, List.getD_cons_succ,
      List.getD_cons_zero]
    rw [List.take_add, hwords, List.drop_drop]

theorem payload_decode {b : Bytes} {r : WalRecord K} (hlength : kRawSize K ≤ b.length)
    (h : WalRecord.decode b = some r) : r.payload = b.take (kCrcOffset K) := by
  obtain ⟨hhead, -, rfl⟩ := decode_eq_some h
  have hraw : kRawSize K = 2 + KeyType.size K + 16 + 4 := rfl
  have hkey : ((b.drop 2).take (KeyType.size K)).length = KeyType.size K := by
    rw [List.length_take, List.length_drop]
    omega
  have hdisk : ((b.drop (2 + KeyType.size K)).take 8).length = 8 := by
    rw [List.length_take, List.length_drop]
    omega
  have hold : ((b.drop (10 + KeyType.size K)).take 8).length = 8 := by
    rw [List.length_take, List.length_drop]
    omega
  rw [take_kCrcOffset hlength hhead, WalRecord.payload, toByte_ofByte, toBytes_ofBytes _ hkey,
    writeLE_uint64 _ hdisk, writeLE_uint64 _ hold]

theorem encode_decode {b : Bytes} {r : WalRecord K} (hlength : kRawSize K ≤ b.length)
    (h : WalRecord.decode b = some r) : r.encode.take (kRawSize K) = b.take (kRawSize K) := by
  obtain ⟨-, hcrc, -⟩ := decode_eq_some h
  have hpayload := payload_decode hlength h
  have hraw : kRawSize K = kCrcOffset K + 4 := rfl
  have hstored : ((b.drop (kCrcOffset K)).take 4).length = 4 := by
    rw [List.length_take, List.length_drop]
    omega
  have hchecksum : writeLE 4 (crc32 r.payload).toNat = (b.drop (kCrcOffset K)).take 4 := by
    have hlt := readLE_lt ((b.drop (kCrcOffset K)).take 4)
    rw [hstored] at hlt
    have hback := writeLE_readLE ((b.drop (kCrcOffset K)).take 4)
    rw [hstored] at hback
    rw [hpayload, ← hcrc, UInt32.toNat_ofNat_of_lt' hlt, hback]
  rw [hraw, List.take_add, WalRecord.encode, List.take_left' r.length_payload,
    List.drop_left' r.length_payload, List.take_left' (length_writeLE 4 _), hchecksum, hpayload,
    ← List.take_add]

/-- Decoding what was encoded gives the record back, and encoding what was decoded gives the bytes
back up to the padding. -/
theorem record_round_trip :
    (∀ r : WalRecord K, r.type.Known → WalRecord.decode r.encode = some r) ∧
      ∀ (b : Bytes) (r : WalRecord K), b.length = kEncodedSize K → KnownByte (b.getD 1 0) →
        WalRecord.decode b = some r → r.encode.take (kRawSize K) = b.take (kRawSize K) := by
  refine ⟨fun r hr => r.decode_encode hr, fun b r hlength _ h => encode_decode ?_ h⟩
  rw [hlength]
  exact kRawSize_le_kEncodedSize

def sampleUpdate : WalRecord Key128 := ⟨.update, ⟨1, 2⟩, 3, 4⟩

def paddedUpdate : Bytes := sampleUpdate.encode.take 38 ++ [7, 7]

set_option maxRecDepth 100000 in
theorem record_round_trip_padded :
    WalRecord.decode sampleUpdate.encode = some sampleUpdate ∧
      WalRecord.decode paddedUpdate = some sampleUpdate ∧
      sampleUpdate.encode.take 38 = paddedUpdate.take 38 := by
  have hknown : sampleUpdate.type.Known := fun b hb => by cases hb
  have hdecode : WalRecord.decode paddedUpdate = some sampleUpdate := by decide +kernel
  exact ⟨record_round_trip.1 sampleUpdate hknown, hdecode,
    record_round_trip.2 paddedUpdate sampleUpdate (by decide +kernel)
      (Or.inr (Or.inl (by decide +kernel))) hdecode⟩

/-! Bursts. -/

theorem getElem?_diff {as bs : Bytes} {j : ℕ} {e : UInt8} (h : (diff as bs)[j]? = some e) :
    ∃ a b, as[j]? = some a ∧ bs[j]? = some b ∧ e = a ^^^ b := by
  rw [diff, List.getElem?_zipWith] at h
  cases ha : as[j]? with
  | none => simp [ha] at h
  | some a =>
    cases hb : bs[j]? with
    | none => simp [ha, hb] at h
    | some b =>
      simp only [ha, hb, Option.some.injEq] at h
      exact ⟨a, b, rfl, rfl, h.symm⟩

/-- Two strings of one length that differ somewhere, and only within four consecutive bytes, leave
different remainders. -/
theorem remainder_ne_of_burst {as bs : Bytes} {i : ℕ} (hlength : as.length = bs.length)
    (hdiffers : ∃ j < as.length, as[j]? ≠ bs[j]?)
    (hwindow : ∀ j < as.length, as[j]? ≠ bs[j]? → i ≤ j ∧ j < i + 4) (c : BitVec 32) :
    remainder polynomial as c ≠ remainder polynomial bs c := by
  intro heq
  have hzero : remainder polynomial (diff as bs) 0#32 = 0#32 := by
    rw [← BitVec.xor_self (x := c), remainder_diff polynomial hlength, heq, BitVec.xor_self]
    exact BitVec.xor_self.symm
  refine remainder_burst_ne_zero (i := i) (n := 4) rfl (by decide) ?_ ?_ hzero
  · obtain ⟨j, hj, hne⟩ := hdiffers
    have hj' : j < bs.length := hlength ▸ hj
    have hbyte : (diff as bs)[j]? = some (as[j] ^^^ bs[j]) := by
      simp [diff, hj, hj']
    refine ⟨as[j] ^^^ bs[j], List.mem_of_getElem? hbyte, fun hsame => hne ?_⟩
    rw [List.getElem?_eq_getElem hj, List.getElem?_eq_getElem hj', UInt8.xor_eq_zero_iff.mp hsame]
  · intro j e he hne
    obtain ⟨a, b, ha, hb, rfl⟩ := getElem?_diff he
    refine hwindow j (List.getElem?_eq_some_iff.mp ha).1 fun hsame => hne ?_
    rw [ha, hb] at hsame
    exact UInt8.xor_eq_zero_iff.mpr (Option.some.inj hsame)

/-- A buffer that differs from an encoded record within four consecutive bytes, in the record or
in its checksum, is rejected. -/
theorem burst_rejected (r : WalRecord K) (b : Bytes) (hlength : b.length = kEncodedSize K)
    (hdiffers : ∃ j < kRawSize K, b[j]? ≠ r.encode[j]?)
    (hwindow : ∃ i, ∀ j < kRawSize K, b[j]? ≠ r.encode[j]? → i ≤ j ∧ j < i + 4) :
    WalRecord.decode (K := K) b = none := by
  obtain ⟨i, hwindow⟩ := hwindow
  cases hdecode : WalRecord.decode (K := K) b with
  | none => rfl
  | some r₁ =>
    obtain ⟨r₀, hr₀⟩ := decode_encode_isSome r
    have hraw := kRawSize_le_kEncodedSize (K := K)
    have hleft := remainder_accepted (by omega) hdecode
    have hright := remainder_accepted (by rw [r.length_encode]; exact hraw) hr₀
    have hsize : (b.take (kRawSize K)).length = kRawSize K := by
      rw [List.length_take]
      omega
    have hsize' : (r.encode.take (kRawSize K)).length = kRawSize K := by
      rw [List.length_take, r.length_encode]
      omega
    -- a position below the padding is the same in the strings and in what is taken of them
    have htake : ∀ (l : Bytes) (j : ℕ), j < kRawSize K → (l.take (kRawSize K))[j]? = l[j]? :=
      fun l j hj => List.getElem?_take_of_lt hj
    refine absurd (hleft.trans hright.symm) (remainder_ne_of_burst (i := i) ?_ ?_ ?_ _)
    · rw [hsize, hsize']
    · obtain ⟨j, hj, hne⟩ := hdiffers
      exact ⟨j, by omega, by rw [htake b j hj, htake r.encode j hj]; exact hne⟩
    · intro j hj hne
      rw [hsize] at hj
      rw [htake b j hj, htake r.encode j hj] at hne
      exact hwindow j hj hne

/-- Four bytes around the border between the addresses and the checksum are inverted. -/
def invertedUpdate : Bytes :=
  sampleUpdate.encode.take 32 ++ ((sampleUpdate.encode.drop 32).take 4).map (· ^^^ 0xFF) ++
    sampleUpdate.encode.drop 36

set_option maxRecDepth 100000 in
theorem burst_rejected_inverted :
    (∃ j < 38, invertedUpdate[j]? ≠ sampleUpdate.encode[j]?) ∧
      WalRecord.decode (K := Key128) invertedUpdate = none := by
  have hdiffers : ∃ j < 38, invertedUpdate[j]? ≠ sampleUpdate.encode[j]? :=
    ⟨32, by decide, by decide +kernel⟩
  exact ⟨hdiffers, burst_rejected sampleUpdate invertedUpdate (by decide +kernel) hdiffers
    ⟨32, by decide +kernel⟩⟩

end ParaKV.Index.WalCodec
