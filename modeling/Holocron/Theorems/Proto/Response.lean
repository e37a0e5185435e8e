import Holocron.Proto.Response
import Holocron.Theorems.Proto.Wire

/-! A fetch answer is readable exactly if it fits a frame, and its uncompressed length a 32-bit field. -/

namespace Holocron.Wire
open Lib List

variable {b t c rest body x : Bytes} {rs : List Record} {lz : Lz4} {op : OpCode} {r : Record} {resp : FetchResponse}
  {req : ProduceRequest} {codec : Codec} {out : Bytes} {count : Nat}

theorem length_encodeFramedRecord (r : Record) : (encodeFramedRecord r).length = 4 + (encodeRecord r).length + 4 := by
  simp only [encodeFramedRecord, length_append, length_bigEndian]

theorem decodeFramedRecord_length (h : decodeFramedRecord b = .ok (r, t)) :
    (encodeFramedRecord r).length + t.length ≤ b.length := by
  unfold decodeFramedRecord at h
  split at h
  · cases h
  simp only at h
  split at h
  · cases h
  split at h
  · cases h
  · cases hrec : decodeRecord ((b.drop 4).take (ofBigEndian (b.take 4))) with
    | error e =>
      rw [hrec] at h
      cases h
    | ok p =>
      rw [hrec] at h
      cases h
      have htaken := congrArg length (decodeRecord_splits (r := p.1) (t := p.2) hrec).2
      rw [length_append, length_take] at htaken
      rw [length_encodeFramedRecord, length_drop]
      omega

theorem decodeFramedRecords_length (h : decodeFramedRecords count b = .ok (rs, t)) :
    (rs.flatMap encodeFramedRecord).length + t.length ≤ b.length := by
  induction count generalizing b rs with
  | zero =>
    cases h
    exact Nat.le_of_eq (Nat.zero_add _)
  | succ count ih =>
    obtain ⟨r, b₁, hr, h⟩ := Decoder.of_bind h
    obtain ⟨rest, b₂, hrest, h⟩ := Decoder.of_bind h
    cases h
    have := decodeFramedRecord_length hr
    have := ih hrest
    rw [flatMap_cons, length_append]
    omega

theorem length_fetchPayload (rs : List Record) : (fetchPayload rs).length = 4 + (rs.flatMap encodeFramedRecord).length := by
  rw [fetchPayload, length_append, length_bigEndian]

theorem decodeRecords_norm (h : decodeRecords count b = .ok (rs, t)) : ∀ r ∈ rs, r.norm = r := by
  induction count generalizing b rs with
  | zero =>
    cases h
    exact fun r hr => by cases hr
  | succ count ih =>
    obtain ⟨r, b₁, hr, h⟩ := Decoder.of_bind h
    obtain ⟨rest, b₂, hrest, h⟩ := Decoder.of_bind h
    cases h
    exact forall_mem_cons.mpr ⟨(decodeRecord_splits hr).1, ih hrest⟩

theorem decodeProduceRequest_norm (h : decodeProduceRequest b = .ok (req, t)) : req.record.norm = req.record := by
  obtain ⟨_, _, -, h⟩ := Decoder.of_bind h
  obtain ⟨_, _, -, h⟩ := Decoder.of_bind h
  obtain ⟨r, _, hr, h⟩ := Decoder.of_bind h
  cases h
  exact (decodeRecord_splits hr).1

theorem decodeProduceBatchRequest_norm {req : ProduceBatchRequest} (h : decodeProduceBatchRequest lz b = .ok (req, t)) :
    ∀ r ∈ req.records, r.norm = r := by
  obtain ⟨_, _, -, h⟩ := Decoder.of_bind h
  obtain ⟨_, _, -, h⟩ := Decoder.of_bind h
  obtain ⟨_, _, -, h⟩ := Decoder.of_bind h
  obtain ⟨_, _, -, h⟩ := Decoder.of_bind h
  obtain ⟨rs, _, hrs, h⟩ := Decoder.of_bind h
  cases h
  exact decodeRecords_norm hrs

/-- A record as the codec gives it back: no empty slices, an `int64` offset. -/
structure Plain (r : Record) : Prop where
  norm : r.norm = r
  offset : Signed 8 r.offset

theorem Plain.takes (h : Plain r) : Takes decodeRecord (encodeRecord r) r := by
  have htakes := decodeRecord_takes r
  rw [h.norm, offset_encode h.offset] at htakes
  exact htakes

theorem Plain.decodeFramedRecord (h : Plain r) (hlen : (encodeRecord r).length < 2 ^ 32) (t : Bytes) :
    decodeFramedRecord (encodeFramedRecord r ++ t) = .ok (r, t) := by
  have hframe : encodeFramedRecord r ++ t = bigEndian 4 (encodeRecord r).length ++ (encodeRecord r ++
      (bigEndian 4 (Log.checksum (encodeRecord r)).toNat ++ t)) := by simp only [encodeFramedRecord, append_assoc]
  have hn : ofBigEndian ((encodeFramedRecord r ++ t).take 4) = (encodeRecord r).length := by
    rw [hframe, take_left' (length_bigEndian 4 _), ofBigEndian_bigEndian_of_lt hlen]
  have hbody : ((encodeFramedRecord r ++ t).drop 4).take (encodeRecord r).length = encodeRecord r := by
    rw [hframe, drop_left' (length_bigEndian 4 _), take_left' rfl]
  have hcrc : ofBigEndian (((encodeFramedRecord r ++ t).drop (4 + (encodeRecord r).length)).take 4) =
      (Log.checksum (encodeRecord r)).toNat := by
    rw [hframe, ← drop_drop, drop_left' (length_bigEndian 4 _), drop_left' rfl,
      take_left' (length_bigEndian 4 _), ofBigEndian_bigEndian_of_lt (Log.checksum (encodeRecord r)).toNat_lt]
  have htail : (encodeFramedRecord r ++ t).drop (4 + (encodeRecord r).length + 4) = t :=
    drop_left' (length_encodeFramedRecord r)
  have htotal : ¬ (encodeFramedRecord r ++ t).length < 4 + (encodeRecord r).length + 4 := by
    rw [length_append, length_encodeFramedRecord]
    omega
  unfold Wire.decodeFramedRecord
  rw [if_neg (by omega)]
  simp only [hn, hbody, hcrc, htail, if_neg htotal, ne_eq, not_true_eq_false, ↓reduceIte, h.takes.whole hlen]

theorem decodeFramedRecords_append (h : ∀ r ∈ rs, Plain r) (hlen : (rs.flatMap encodeFramedRecord).length < 2 ^ 32)
    (t : Bytes) : decodeFramedRecords rs.length (rs.flatMap encodeFramedRecord ++ t) = .ok (rs, t) := by
  induction rs with
  | nil => rfl
  | cons r rs ih =>
    rw [flatMap_cons, length_append, length_encodeFramedRecord] at hlen
    have h₁ := (h r mem_cons_self).decodeFramedRecord (by omega) (rs.flatMap encodeFramedRecord ++ t)
    have h₂ := ih (fun r' hr' => h r' (mem_cons_of_mem r hr')) (by omega)
    simp only [flatMap_cons, append_assoc, length_cons, decodeFramedRecords, bind, StateT.bind, h₁, h₂,
      Except.bind]
    rfl

theorem length_le_payload (rs : List Record) : rs.length ≤ (rs.flatMap encodeFramedRecord).length := by
  induction rs with
  | nil => exact Nat.le_refl 0
  | cons r rs ih =>
    rw [flatMap_cons, length_append, length_encodeFramedRecord, length_cons]
    omega

theorem decodeProduceRequest_encode (h : Plain req.record) (hlen : req.encode.length < 2 ^ 32) :
    decodeProduceRequest req.encode = .ok (req, []) := by
  refine Takes.whole ?_ hlen
  rw [ProduceRequest.encode, append_assoc]
  refine .bind (.string req.topic) (.bind (.block _ (length_encodeInt32 _)) ?_)
  rw [int32_encode]
  exact h.takes.map

theorem length_writeFrame (op : OpCode) (payload : Bytes) : (writeFrame op payload).length = 4 + (1 + payload.length) := by
  simp only [writeFrame, length_append, length_bigEndian, length_cons]
  omega

theorem writeFrame_length_field (op : OpCode) (payload rest : Bytes) :
    ofBigEndian ((writeFrame op payload ++ rest).take 4) = (1 + payload.length) % 2 ^ 32 := by
  have hpow : 256 ^ 4 = 2 ^ 32 := by decide
  rw [writeFrame, append_assoc, take_left' (length_bigEndian 4 _), ofBigEndian_bigEndian, hpow]

theorem writeFrame_drop (op : OpCode) (payload rest : Bytes) :
    (writeFrame op payload ++ rest).drop 4 = op :: (payload ++ rest) := by
  rw [writeFrame, append_assoc, drop_left' (length_bigEndian 4 _), cons_append]

theorem readFrame_write {payload : Bytes} (h : 1 + payload.length ≤ maxFrameBytes) (rest : Bytes) :
    readFrame (writeFrame op payload ++ rest) = .ok ((op, payload), rest) := by
  have hn := writeFrame_length_field op payload rest
  rw [Nat.mod_eq_of_lt (Nat.lt_of_le_of_lt h (by decide))] at hn
  have hlen := length_writeFrame op payload
  have htail : (writeFrame op payload ++ rest).drop (4 + (1 + payload.length)) = rest := drop_left' hlen
  have hbody : ((writeFrame op payload ++ rest).drop 4).take (1 + payload.length) = op :: payload := by
    rw [writeFrame_drop, Nat.add_comm, take_succ_cons, take_left' rfl]
  unfold readFrame
  rw [if_neg (by rw [length_append]; omega), if_neg (by rw [length_append]; omega)]
  simp only [hn, hbody, htail]
  rw [if_neg (by omega), if_neg (by omega), if_neg (by omega)]

/-- Frames that follow one another are read back in order, to the end of the stream. -/
theorem readFrames_write (frames : List {f : OpCode × Bytes // 1 + f.2.length ≤ maxFrameBytes}) :
    readFrames (frames.length + 1) (frames.flatMap fun f => writeFrame f.1.1 f.1.2) = (frames.map Subtype.val, some .eof) := by
  induction frames with
  | nil => rfl
  | cons f frames ih =>
    rw [length_cons, readFrames, flatMap_cons, readFrame_write f.2]
    simp only [ih]
    rfl

theorem readFrames_write_two : readFrames 3 (writeFrame opProduce [1, 2] ++ (writeFrame opFetch [] ++ [])) =
    ([(opProduce, [1, 2]), (opFetch, [])], some .eof) :=
  readFrames_write [⟨(opProduce, [1, 2]), by decide⟩, ⟨(opFetch, []), by decide⟩]

theorem readFrame_tooLarge {payload : Bytes} (h : maxFrameBytes < 1 + payload.length)
    (h' : 1 + payload.length < 2 ^ 32) (rest : Bytes) :
    readFrame (writeFrame op payload ++ rest) = .error (.tooLarge (1 + payload.length)) := by
  have hn := writeFrame_length_field op payload rest
  rw [Nat.mod_eq_of_lt h'] at hn
  have hlen := length_writeFrame op payload
  unfold readFrame
  rw [if_neg (by rw [length_append]; omega), if_neg (by rw [length_append]; omega)]
  simp only [hn]
  rw [if_neg (by omega), if_pos h]

/-- Whatever the length field says, what is read is a beginning of what was written, within the limit. -/
theorem readFrame_prefix {got : OpCode} {payload : Bytes}
    (h : readFrame (writeFrame op payload ++ rest) = .ok ((got, body), t)) :
    body.length + 1 ≤ maxFrameBytes ∧ body.length ≤ payload.length ∧ body = payload.take body.length := by
  have hmod := Nat.mod_le (1 + payload.length) (2 ^ 32)
  unfold readFrame at h
  split at h
  · cases h
  split at h
  · cases h
  simp only [writeFrame_length_field, writeFrame_drop] at h
  generalize (1 + payload.length) % 2 ^ 32 = n at h hmod
  split at h
  · cases h
  split at h
  · cases h
  cases n with
  | zero => contradiction
  | succ n =>
    have htake : (payload ++ rest).take n = payload.take n := by
      rw [take_append_of_le_length (by omega)]
    simp only [take_succ_cons, htake] at h
    split at h
    · cases h
    · cases h
      have hlen : (payload.take n).length = n := by
        rw [length_take]
        omega
      exact ⟨by omega, by omega, by rw [hlen]⟩

theorem readResponse_write (h : 2 + body.length ≤ maxFrameBytes) (rest : Bytes) :
    readResponse op (writeResponse op statusOK body ++ rest) = .ok (body, rest) := by
  have hframe := @readFrame_write op (statusOK :: body) (by rw [length_cons]; omega) rest
  simp [readResponse, writeResponse, hframe, ↓reduceIte]

/-- An error reaches the client with its status and message. -/
theorem readResponse_writeError (status : {s : Status // s ≠ statusOK})
    (msg : {m : Bytes // 2 + (encodeString m).length ≤ maxFrameBytes}) :
    readResponse op (writeErrorResponse op status msg ++ rest) = .error (.protocol status msg) := by
  have hframe := @readFrame_write op (status.1 :: encodeString msg) (by rw [length_cons]; have := msg.2; omega) rest
  have hmsg := @decodeString_append [] msg
    (by rw [append_nil]; exact Nat.lt_of_le_of_lt (Nat.le_of_add_left_le msg.2) (by decide))
  rw [append_nil] at hmsg
  simp [readResponse, writeErrorResponse, writeResponse, hframe, ↓reduceIte, status.2, hmsg]

/-- The next response already follows on the connection. -/
theorem readResponse_writeError_next :
    readResponse opFetch (writeErrorResponse opFetch 0x10 [110, 111] ++ writeResponse opFetch statusOK [7]) =
      .error (.protocol 0x10 [110, 111]) :=
  readResponse_writeError ⟨0x10, by decide⟩ ⟨[110, 111], by decide⟩

theorem readResponse_prefix {got : Bytes}
    (h : readResponse op (writeResponse op statusOK body ++ rest) = .ok (got, t)) :
    2 + got.length ≤ maxFrameBytes ∧ got.length ≤ body.length ∧ got = body.take got.length := by
  unfold readResponse writeResponse at h
  cases hframe : readFrame (writeFrame op (statusOK :: body) ++ rest) with
  | error e =>
    rw [hframe] at h
    cases h
  | ok x =>
    obtain ⟨⟨op', frame⟩, t'⟩ := x
    rw [hframe] at h
    simp only at h
    split at h
    · cases h
    cases frame with
    | nil => cases h
    | cons status frame =>
      obtain ⟨hmax, hle, htake⟩ := readFrame_prefix hframe
      simp only [length_cons, take_succ_cons, cons.injEq] at hmax hle htake
      simp only [htake.1] at h
      cases h
      exact ⟨by omega, by omega, htake.2⟩

/-- LZ4 gives back what it compressed, and never as much from a block cut short. -/
structure Lz4.Faithful (lz : Lz4) : Prop where
  round {x c : Bytes} : lz.compressBlock x = some c → lz.uncompressBlock c x.length = some x
  cut {x c : Bytes} : lz.compressBlock x = some c → ∀ k < c.length, ∀ out,
    lz.uncompressBlock (c.take k) x.length = some out → out.length ≠ x.length

theorem Lz4.lz4Compress_block (h : lz.lz4Compress x = some c) (hx : x.length ≠ 0) : lz.compressBlock x = some c := by
  unfold lz4Compress at h
  rw [if_neg hx] at h
  cases hc : lz.compressBlock x with
  | none =>
    rw [hc] at h
    cases h
  | some dst =>
    simp only [hc] at h
    split at h
    · cases h
    · exact h

theorem Lz4.Faithful.lz4Decompress (faithful : lz.Faithful) (h : lz.lz4Compress x = some c) (hx : x.length ≠ 0) :
    lz.lz4Decompress c x.length = some x := by
  unfold Lz4.lz4Decompress
  simp [faithful.round (Lz4.lz4Compress_block h hx), ↓reduceIte]

theorem Lz4.lz4Decompress_length {n : Nat} (h : lz.lz4Decompress c n = some out) : out.length = n := by
  unfold lz4Decompress at h
  split at h
  · next hzero =>
    cases h
    exact hzero.symm
  · split at h
    · cases h
    · split at h
      · cases h
      · next hlen =>
        cases h
        exact not_not.mp hlen

theorem Lz4.Faithful.whole (faithful : lz.Faithful) (h : lz.lz4Compress x = some c) (hx : x.length ≠ 0) {k : Nat}
    (hout : lz.lz4Decompress (c.take k) x.length = some out) : c.length ≤ k := by
  have hlen := lz4Decompress_length hout
  unfold Lz4.lz4Decompress at hout
  rw [if_neg hx] at hout
  by_contra hk
  cases hu : lz.uncompressBlock (c.take k) x.length with
  | none =>
    rw [hu] at hout
    cases hout
  | some out' =>
    simp only [hu] at hout
    split at hout
    · cases hout
    · cases hout
      exact faithful.cut (lz4Compress_block h hx) k (Nat.lt_of_not_le hk) out hu hlen

def wireSize (r : Record) : Nat :=
  36 + (Slice.bytes r.key).length + (Slice.bytes r.value).length +
    (r.headers.map fun h => 8 + h.key.length + (Slice.bytes h.value).length).sum

theorem length_headers (hs : List Header) :
    (hs.flatMap encodeHeader).length = (hs.map fun h => 8 + h.key.length + h.value.bytes.length).sum := by
  induction hs with
  | nil => rfl
  | cons h hs ih =>
    rw [flatMap_cons, length_append, encodeHeader, length_append, map_cons, sum_cons, encodeBytes,
      length_encodeString, length_encodeString]
    omega

theorem length_framed (r : Record) : (encodeFramedRecord r).length = wireSize r := by
  rw [length_encodeFramedRecord]
  simp only [encodeRecord, encodeBytes, length_append, length_encodeOffset, length_encodeInt64, length_encodeString,
    length_bigEndian, length_headers, wireSize]
  omega

def payloadSize (rs : List Record) : Nat := 4 + (rs.map wireSize).sum

theorem length_payload (rs : List Record) : (fetchPayload rs).length = payloadSize rs := by
  rw [length_fetchPayload, payloadSize, length_flatMap]
  simp only [length_framed]

/-- The response fits a frame; what it inflates to fits 32 bits. -/
def FetchResponse.InFrame (lz : Lz4) (resp : FetchResponse) : Prop :=
  match if resp.codec = codecLZ4 then lz.lz4Compress (fetchPayload resp.records) else none with
  | some compressed => 7 + compressed.length ≤ maxFrameBytes ∧ payloadSize resp.records < 2 ^ 32
  | none => 3 + payloadSize resp.records ≤ maxFrameBytes

/-- The client takes the response, and decodes the records it was made of. -/
def FetchResponse.Readable (lz : Lz4) (resp : FetchResponse) (rest : Bytes) : Prop :=
  ∃ body left got t, readResponse opFetch (writeResponse opFetch statusOK (resp.encode lz) ++ rest) = .ok (body, left) ∧
    decodeFetchResponse lz body = .ok (got, t) ∧ got.records = resp.records

theorem FetchResponse.encode_cases (lz : Lz4) (resp : FetchResponse) :
    (∃ c, lz.lz4Compress (fetchPayload resp.records) = some c ∧
      resp.encode lz = codecLZ4 :: (bigEndian 4 (fetchPayload resp.records).length ++ c) ∧
      (resp.InFrame lz ↔ 7 + c.length ≤ maxFrameBytes ∧ payloadSize resp.records < 2 ^ 32)) ∨
    (resp.encode lz = codecNone :: fetchPayload resp.records ∧
      (resp.InFrame lz ↔ 3 + payloadSize resp.records ≤ maxFrameBytes)) := by
  unfold encode InFrame
  by_cases hcodec : resp.codec = codecLZ4
  · cases hc : lz.lz4Compress (fetchPayload resp.records) with
    | none => exact .inr (by simp [hc])
    | some c => exact .inl ⟨c, rfl, by simp [hcodec, hc]⟩
  · exact .inr (by simp [hcodec])

theorem payload_ne_zero (rs : List Record) : (fetchPayload rs).length ≠ 0 := by
  rw [length_fetchPayload]
  omega

theorem decode_framed (h : ∀ r ∈ rs, Plain r) (hlen : payloadSize rs < 2 ^ 32)
    (hbuf : payloadBuf lz codec b = .ok ((), fetchPayload rs)) :
      decodeFetchResponse lz (codec :: b) = .ok (⟨rs, codec⟩, []) := by
  rw [← length_payload, length_fetchPayload] at hlen
  have h₀ := block_append (.short "FetchResponse") (b := [codec]) (n := 1) rfl b
  have h₁ := block_append (.short "FetchResponse count") (length_bigEndian 4 rs.length) (rs.flatMap encodeFramedRecord)
  have hcount : ofBigEndian (bigEndian 4 rs.length) = rs.length := by
    refine ofBigEndian_bigEndian_of_lt ?_
    have := length_le_payload rs
    omega
  have h₂ := decodeFramedRecords_append h (by omega) []
  rw [append_nil] at h₂
  rw [singleton_append] at h₀
  simp only [decodeFetchResponse, bind, StateT.bind, h₀, Except.bind, getD_cons_zero, hbuf]
  simp only [fetchPayload, h₁, hcount, h₂]
  rfl

theorem payloadBuf_compressed (faithful : lz.Faithful) (hlen : payloadSize rs < 2 ^ 32)
    (hc : lz.lz4Compress (fetchPayload rs) = some c) :
    payloadBuf lz codecLZ4 (bigEndian 4 (fetchPayload rs).length ++ c) = .ok ((), fetchPayload rs) := by
  rw [← length_payload] at hlen
  unfold payloadBuf inflate
  rw [if_pos rfl, if_neg (by rw [length_append, length_bigEndian]; omega), drop_left' (length_bigEndian 4 _),
    take_left' (length_bigEndian 4 _), ofBigEndian_bigEndian_of_lt hlen, faithful.lz4Decompress hc (payload_ne_zero rs)]

/-- What is decoded from an answer is in its bytes, or in what they inflate to. -/
theorem decodeFetchResponse_length {got : FetchResponse} (h : decodeFetchResponse lz (codec :: b) = .ok (got, t)) :
    (codec ≠ codecLZ4 → payloadSize got.records ≤ b.length) ∧
    (codec = codecLZ4 → 4 ≤ b.length ∧ ∃ out, lz.lz4Decompress (b.drop 4) (ofBigEndian (b.take 4)) = some out ∧
      payloadSize got.records ≤ out.length) := by
  obtain ⟨x, b₁, hx, h⟩ := Decoder.of_bind h
  have h₀ := block_append (.short "FetchResponse") (b := [codec]) (n := 1) rfl b
  rw [singleton_append, hx] at h₀
  cases h₀
  obtain ⟨_, b₂, hinflate, h⟩ := Decoder.of_bind h
  obtain ⟨c, b₃, hcount, h⟩ := Decoder.of_bind h
  obtain ⟨rs, b₄, hrs, h⟩ := Decoder.of_bind h
  cases h
  have htaken := decodeFramedRecords_length hrs
  obtain ⟨rfl, hc⟩ := block_splits hcount
  have hsize : payloadSize rs ≤ (c ++ b₃).length := by
    rw [← length_payload, length_fetchPayload, length_append]
    omega
  unfold payloadBuf at hinflate
  rw [getD_cons_zero] at hinflate
  refine ⟨fun hcodec => ?_, fun hcodec => ?_⟩
  · rw [if_neg hcodec] at hinflate
    cases hinflate
    exact hsize
  · rw [if_pos hcodec] at hinflate
    unfold inflate at hinflate
    split at hinflate
    · cases hinflate
    · cases hd : lz.lz4Decompress (b.drop 4) (ofBigEndian (b.take 4)) with
      | none =>
        rw [hd] at hinflate
        cases hinflate
      | some out =>
        rw [hd] at hinflate
        cases hinflate
        exact ⟨by omega, _, rfl, hsize⟩

theorem FetchResponse.InFrame.readable (faithful : lz.Faithful) (plain : ∀ r ∈ resp.records, Plain r)
    (h : resp.InFrame lz) (rest : Bytes) : resp.Readable lz rest := by
  have hmax : maxFrameBytes < 2 ^ 32 := by decide
  rcases resp.encode_cases lz with ⟨c, hc, henc, hiff⟩ | ⟨henc, hiff⟩
  · obtain ⟨hframe, hsize⟩ := hiff.mp h
    have hdec := decode_framed plain hsize (payloadBuf_compressed faithful hsize hc)
    refine ⟨resp.encode lz, rest, _, [], readResponse_write ?_ rest, (congrArg _ henc).trans hdec, rfl⟩
    rw [henc, length_cons, length_append, length_bigEndian]
    omega
  · have hframe := hiff.mp h
    have hdec : decodeFetchResponse lz (codecNone :: fetchPayload resp.records) = _ := decode_framed plain (by omega) rfl
    refine ⟨resp.encode lz, rest, _, [], readResponse_write ?_ rest, (congrArg _ henc).trans hdec, rfl⟩
    rw [henc, length_cons, length_payload]
    omega

theorem FetchResponse.Readable.inFrame (faithful : lz.Faithful) (h : resp.Readable lz rest) :
    resp.InFrame lz := by
  obtain ⟨body, left, got, t, hread, hdec, hrecords⟩ := h
  obtain ⟨hmax, hle, hbody⟩ := readResponse_prefix hread
  generalize body.length = k at hmax hle hbody
  cases k with
  | zero =>
    rw [hbody] at hdec
    cases hdec
  | succ k =>
    rcases resp.encode_cases lz with ⟨c, hc, henc, hiff⟩ | ⟨henc, hiff⟩
    · rw [henc] at hbody
      rw [hbody] at hdec
      obtain ⟨hfour, out, hout, hsize⟩ := (decodeFetchResponse_length hdec).2 rfl
      have hk : 4 ≤ k := by
        rw [length_take] at hfour
        omega
      obtain ⟨k, rfl⟩ := Nat.exists_eq_add_of_le hk
      have htake : (bigEndian 4 (fetchPayload resp.records).length ++ c).take (4 + k) =
          bigEndian 4 (fetchPayload resp.records).length ++ c.take k := by
        rw [take_append, length_bigEndian, take_of_length_le (by rw [length_bigEndian]; omega), Nat.add_sub_cancel_left]
      rw [htake, take_left' (length_bigEndian 4 _), ofBigEndian_bigEndian] at hout
      have hlen := Lz4.lz4Decompress_length hout
      have hmod := Nat.mod_lt (fetchPayload resp.records).length (show 0 < 256 ^ 4 by decide)
      rw [hrecords, hlen, ← length_payload] at hsize
      have hlt : (fetchPayload resp.records).length < 256 ^ 4 := Nat.lt_of_le_of_lt hsize hmod
      rw [Nat.mod_eq_of_lt hlt] at hout
      have := faithful.whole hc (payload_ne_zero _) hout
      exact hiff.mpr ⟨by omega, by rw [← length_payload]; omega⟩
    · rw [henc] at hbody
      rw [hbody] at hdec
      have hsize := (decodeFetchResponse_length hdec).1 (by decide)
      rw [hrecords, length_take] at hsize
      exact hiff.mpr (by omega)

end Holocron.Wire
