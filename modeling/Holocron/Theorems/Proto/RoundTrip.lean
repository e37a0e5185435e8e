import Holocron.Proto.Encode
import Holocron.Theorems.Cluster.Command
import Holocron.Theorems.Proto.Stored

/-! Round trips of every message of less than 2^32 bytes, but for empty slices, the compressor's level and codec. -/

namespace Holocron.Wire
open Lib List

/-! ### Rules -/

/-- The decoder takes the encoding off the front of a message of less than 2^32 bytes and gives the value. -/
def Inverts {α : Type} (m : Decoder α) (e : Bytes) (v : α) : Prop := ∀ t, (e ++ t).length < 2 ^ 32 → m (e ++ t) = .ok (v, t)

variable {x c : Bytes} {lz : Lz4HC} {r : FetchResponse} {codec : Codec} {level : Nat}

section Rules

variable {α β : Type}

theorem Inverts.pure (v : α) : Inverts (pure v) [] v := fun _ _ => rfl

variable {m : Decoder α} {encode : α → Bytes} {v : α} {e : Bytes} {xs : List α} {n : Nat}

theorem Inverts.bind {g : α → Decoder β} {e' : Bytes} {w : β} (hm : Inverts m e v) (hg : Inverts (g v) e' w) :
    Inverts (m >>= g) (e ++ e') w := Takes.bind hm hg

theorem Inverts.map {f : α → β} (hm : Inverts m e v) : Inverts (m >>= fun x => Pure.pure (f x)) e (f v) := Takes.map hm

theorem Inverts.whole (h : Inverts m e v) (hlen : e.length < 2 ^ 32) : m e = .ok (v, []) := Takes.whole h hlen

theorem Inverts.string (s : Bytes) : Inverts decodeString (encodeString s) s := fun _ ht => decodeString_append ht

theorem Inverts.bytes (s : Slice) : Inverts decodeBytes (encodeBytes s) (Slice.norm s) := fun _ ht => decodeBytes_append ht

theorem Inverts.record {r : Record} (hr : Signed 8 r.offset) : Inverts decodeRecord (encodeRecord r) r.norm := by
  intro t ht
  rw [decodeRecord_append ht, offset_encode hr]
  rfl

theorem Inverts.take (e : WireError) (hx : x.length = n) : Inverts (block n e) x x := fun t _ => block_append e hx t

theorem Inverts.count (e : WireError) (n : Nat) : Inverts (decodeCount e) (bigEndian 4 n) (UInt32.ofNat n) := by
  have hcount : uint32 (bigEndian 4 n) = UInt32.ofNat n := by
    rw [uint32, ofBigEndian_bigEndian]
    refine UInt32.toNat_inj.mp ?_
    rw [UInt32.toNat_ofNat', UInt32.toNat_ofNat']
    omega
  exact hcount ▸ (Inverts.take e (length_bigEndian 4 n)).map

theorem Inverts.times (norm : α → α) (h : ∀ x ∈ xs, Inverts m (encode x) (norm x)) :
    Inverts (decodeList m xs.length) (xs.flatMap encode) (xs.map norm) := by
  induction xs with
  | nil => exact .pure []
  | cons x xs ih =>
    exact (h x mem_cons_self).bind (ih fun y hy => h y (mem_cons_of_mem x hy)).map

theorem Inverts.elements (hn : n = xs.length) (h : ∀ x ∈ xs, Inverts m (encode x) x) :
    Inverts (decodeList m n) (xs.flatMap encode) xs := by
  have htimes := Inverts.times id h
  rw [map_id] at htimes
  rw [hn]
  exact htimes

theorem Inverts.of_length (h : e.length < 2 ^ 32 → Inverts m e v) : Inverts m e v := Takes.of_length h

theorem length_le_flatMap (pos : ∀ x, 0 < (encode x).length) (xs : List α) : xs.length ≤ (xs.flatMap encode).length := by
  induction xs with
  | nil => exact Nat.le_refl 0
  | cons x xs ih =>
    have hx := pos x
    rw [flatMap_cons, length_append, length_cons]
    omega

theorem uint32_bigEndian (hn : n < 2 ^ 32) : (uint32 (bigEndian 4 n)).toNat = n := by
  rw [uint32, ofBigEndian_bigEndian_of_lt hn, UInt32.toNat_ofNat', Nat.mod_eq_of_lt hn]

theorem toNat_count (pos : ∀ x, 0 < (encode x).length) (hlen : (encodeList encode xs).length < 2 ^ 32) :
    (UInt32.ofNat xs.length).toNat = xs.length := by
  have hle := length_le_flatMap pos xs
  rw [encodeList, length_append] at hlen
  rw [UInt32.toNat_ofNat', Nat.mod_eq_of_lt (by omega)]

theorem Inverts.list (e : WireError) (pos : ∀ x, 0 < (encode x).length) (h : ∀ x, Inverts m (encode x) x) (xs : List α) :
    Inverts (decodeCount e >>= fun n => decodeList m n.toNat) (encodeList encode xs) xs :=
  .of_length fun hlen => (Inverts.count e xs.length).bind (.elements (toNat_count pos hlen) fun x _ => h x)

theorem Inverts.lastList {f : List α → β} (e : WireError) (pos : ∀ x, 0 < (encode x).length)
    (h : ∀ x, Inverts m (encode x) x) (xs : List α) :
    Inverts (decodeCount e >>= fun n => decodeList m n.toNat >>= fun xs => Pure.pure (f xs)) (encodeList encode xs) (f xs) :=
  .of_length fun hlen => (Inverts.count e xs.length).bind (.map (.elements (toNat_count pos hlen) fun x _ => h x))

theorem Inverts.fields {e : WireError} {f : Bytes → α} (hx : x.length = n) (hv : f x = v) :
    Inverts (block n e >>= fun b => Pure.pure (f b)) x v := hv ▸ (Inverts.take e hx).map

end Rules

/-! ### Messages -/

theorem HandshakeRequest.inverts (h : HandshakeRequest) :
    Inverts decodeHandshakeRequest h.encode { h with credential := Slice.norm h.credential } := by
  have hkind : Inverts (block 1 .badHandshake >>= fun kind => decodeBytes >>= fun cred =>
      pure (HandshakeRequest.mk h.version (kind.getD 0 0) cred)) ([h.credentialKind] ++ encodeBytes h.credential)
      ⟨h.version, h.credentialKind, Slice.norm h.credential⟩ := .bind (.take _ rfl) (.map (.bytes h.credential))
  refine .bind (e := [h.version]) (.take _ rfl) fun t ht => ?_
  -- the kind is there
  exact hkind t ht

theorem ProduceRequest.inverts {r : ProduceRequest} (hr : Signed 8 r.record.offset) :
    Inverts decodeProduceRequest r.encode { r with record := r.record.norm } := by
  rw [ProduceRequest.encode, append_assoc]
  refine .bind (.string r.topic) (.bind (.take _ (length_encodeInt32 _)) ?_)
  rw [int32_encode]
  exact .map (.record hr)

theorem ProduceBatchResponse.inverts (r : ProduceBatchResponse) : Inverts decodeProduceBatchResponse r.encode r :=
  .fields (by simp [ProduceBatchResponse.encode]) (by simp [ProduceBatchResponse.encode])

theorem inverts_int64 (e : WireError) (x : Int64) : Inverts (block 8 e >>= fun b => pure (int64 b)) (encodeInt64 x) x :=
  .fields (length_encodeInt64 x) (int64_encode x)

theorem inverts_int32 (e : WireError) (x : Int32) : Inverts (block 4 e >>= fun b => pure (int32 b)) (encodeInt32 x) x :=
  .fields (length_encodeInt32 x) (int32_encode x)

theorem FetchRequest.inverts (r : FetchRequest) : Inverts decodeFetchRequest r.encode r := by
  refine .bind (.string r.topic) (.fields (by simp) ?_)
  simp

theorem PartitionRequest.inverts (what : String) (r : PartitionRequest) : Inverts (decodePartition what) r.encode r :=
  .bind (.string r.topic) (.fields (length_encodeInt32 _) (by rw [int32_encode]))

theorem length_encodeSegmentInfo (s : SegmentInfo) : s.encode.length = 24 := by
  simp [SegmentInfo.encode]

theorem SegmentInfo.inverts (s : SegmentInfo) : Inverts decodeSegmentInfo s.encode s :=
  .fields (length_encodeSegmentInfo s) (by simp [SegmentInfo.encode])

theorem inverts_listSegmentsResponse (xs : List SegmentInfo) :
    Inverts decodeListSegmentsResponse (encodeList SegmentInfo.encode xs) xs := by
  refine .of_length fun hlen => (Inverts.count _ xs.length).bind fun t ht => ?_
  have hbytes : (xs.flatMap SegmentInfo.encode).length = xs.length * 24 := by
    simp [length_encodeSegmentInfo]
  rw [encodeList, length_append] at hlen
  have hn : (UInt32.ofNat xs.length).toNat = xs.length := by
    rw [UInt32.toNat_ofNat', Nat.mod_eq_of_lt (by omega)]
  -- the bytes for all entries are there
  have hge : ¬ (xs.flatMap SegmentInfo.encode ++ t).length < (UInt32.ofNat xs.length).toNat * 24 := by
    rw [length_append, hn]
    omega
  have hentries : Inverts (decodeList decodeSegmentInfo (UInt32.ofNat xs.length).toNat) (xs.flatMap SegmentInfo.encode) xs :=
    .elements hn fun x _ => x.inverts
  change (if (xs.flatMap SegmentInfo.encode ++ t).length < (UInt32.ofNat xs.length).toNat * 24 then throw _
    else decodeList _ _ : Decoder _) _ = _
  rw [if_neg hge]
  exact hentries t ht

theorem FetchSegmentChunkRequest.inverts (r : FetchSegmentChunkRequest) :
    Inverts decodeFetchSegmentChunkRequest r.encode r := by
  refine .bind (.string r.topic) (.fields (by simp) ?_)
  simp [slice_cons]

theorem inverts_topicConfig (what : String) (t : TopicConfig) : Inverts (decodeTopicConfig what) (encodeTopicConfig t) t := by
  refine .bind (.string t.name) (.fields (by simp) ?_)
  simp

theorem UpdateTopicConfigRequest.inverts (r : UpdateTopicConfigRequest) :
    Inverts decodeUpdateTopicConfigRequest r.encode r := by
  refine .bind (.string r.name) (.fields (by simp) ?_)
  simp

theorem ClusterMember.inverts (m : ClusterMember) : Inverts decodeClusterMember m.encode m :=
  .bind (.string m.id) (.map (.string m.addr))

theorem inverts_bool (x : Bool) (e : WireError) : Inverts (block 1 e) (encodeBool x) (encodeBool x) := by
  refine .take e ?_
  cases x <;> rfl

theorem decide_encodeBool (x : Bool) : decide ((encodeBool x).getD 0 0 ≠ 0) = x := by
  cases x <;> rfl

theorem ClusterStatusResponse.inverts (r : ClusterStatusResponse) : Inverts decodeClusterStatusResponse r.encode r := by
  refine .bind (.string r.nodeID) (.bind (inverts_bool r.isLeader _) (.bind (.string r.leaderID) ?_))
  rw [decide_encodeBool]
  exact .map (.string r.leaderAddr)

theorem inverts_heartbeatResponse (x : Bool) : Inverts decodeHeartbeatResponse (encodeBool x) x := by
  have h := Inverts.map (f := fun b => decide (b.getD 0 0 ≠ 0)) (inverts_bool x (.short "HeartbeatResponse"))
  rwa [decide_encodeBool] at h

theorem string_pos (s : Bytes) : 0 < (encodeString s).length := by
  rw [length_encodeString]
  omega

theorem string_append_pos (s t : Bytes) : 0 < (encodeString s ++ t).length := by
  rw [length_append, length_encodeString]
  omega

theorem GroupSummary.inverts (g : GroupSummary) : Inverts decodeGroupSummary g.encode g := by
  refine .of_length fun hlen => .bind (.string g.name) (.bind (.take _ (by simp)) ?_)
  have hle := length_le_flatMap string_pos g.topics
  have hcount : g.topics.length < 2 ^ 32 := by
    simp only [GroupSummary.encode, length_append] at hlen
    omega
  simp only [slice_left, slice_right, length_encodeInt32, int32_encode, Nat.le_refl, Nat.reduceSub]
  exact .map (.elements (uint32_bigEndian hcount) fun t _ => .string t)

theorem inverts_partitionRef (p : PartitionRef) : Inverts decodePartitionRef (encodePartitionRef p) p :=
  .bind (.string p.topic) (.fields (length_encodeInt32 _) (by rw [int32_encode]))

theorem MemberAssignment.inverts (m : MemberAssignment) : Inverts decodeMemberAssignment m.encode m := by
  have hpos (p : PartitionRef) : 0 < (encodePartitionRef p).length := string_append_pos p.topic _
  have hparts := Inverts.lastList (f := MemberAssignment.mk m.memberID)
    (.short "DescribeGroupResponse partition count") hpos inverts_partitionRef m.partitions
  exact (Inverts.string m.memberID).bind hparts

theorem DescribeGroupResponse.inverts (r : DescribeGroupResponse) : Inverts decodeDescribeGroupResponse r.encode r := by
  refine .of_length fun hlen => .bind (.string r.name) (.bind (.take _ (by simp)) ?_)
  have hle := length_le_flatMap string_pos r.topics
  have hcount : r.topics.length < 2 ^ 32 := by
    simp only [DescribeGroupResponse.encode, length_append] at hlen
    omega
  simp only [slice_left, slice_right, slice_all, length_encodeInt32, length_bigEndian, int32_encode, Nat.le_refl, Nat.reduceSub]
  refine .bind (.elements (uint32_bigEndian hcount) fun t _ => .string t) ?_
  have hpos (m : MemberAssignment) : 0 < m.encode.length := string_append_pos m.memberID _
  exact .lastList _ hpos MemberAssignment.inverts r.members

theorem CommitRequest.inverts (r : CommitRequest) : Inverts decodeCommitRequest r.encode r := by
  refine .bind (.string r.group) (.bind (.string r.topic) (.fields (by simp) ?_))
  simp

theorem JoinGroupRequest.inverts (r : JoinGroupRequest) : Inverts decodeJoinGroupRequest r.encode r :=
  .bind (.string r.group) (.bind (.string r.memberID) (.lastList _ string_pos Inverts.string r.topics))

theorem AssignmentEntry.inverts (a : AssignmentEntry) : Inverts decodeAssignmentEntry a.encode a := by
  refine .bind (.string a.topic) (.fields (by simp) ?_)
  simp

theorem JoinGroupResponse.inverts (r : JoinGroupResponse) : Inverts decodeJoinGroupResponse r.encode r := by
  refine .of_length fun hlen => .bind (.string r.memberID) (.bind (.take _ (by simp)) ?_)
  have hpos (a : AssignmentEntry) : 0 < a.encode.length := string_append_pos a.topic _
  have hle := length_le_flatMap hpos r.assignments
  have hcount : r.assignments.length < 2 ^ 32 := by
    simp only [JoinGroupResponse.encode, length_append] at hlen
    omega
  simp only [slice_left, length_encodeInt32, int32_encode]
  exact .map (.elements (uint32_bigEndian hcount) fun a _ => a.inverts)

theorem HeartbeatRequest.inverts (r : HeartbeatRequest) : Inverts decodeHeartbeatRequest r.encode r := by
  refine .bind (.string r.group) (.bind (.string r.memberID) (.fields (by simp) ?_))
  simp

theorem GroupOffsetEntry.inverts (e : GroupOffsetEntry) : Inverts decodeGroupOffsetEntry e.encode e := by
  refine .bind (.string e.topic) (.fields (by simp) ?_)
  simp

theorem LeaveGroupRequest.inverts (r : LeaveGroupRequest) : Inverts decodeLeaveGroupRequest r.encode r :=
  .bind (.string r.group) (.map (.string r.memberID))

/-! ### Compressed records -/

/-- Both compressors report blocks that inflate to what they got. -/
structure Lz4HC.RoundTrips (lz : Lz4HC) : Prop where
  fast {x c : Bytes} : lz.compressBlock x = some c → c ≠ [] → lz.uncompressBlock c x.length = some x
  high {level : Nat} {x c : Bytes} : lz.compressBlockHC level x = some c → c ≠ [] → lz.uncompressBlock c x.length = some x

theorem Lz4HC.RoundTrips.lz4Decompress (h : lz.RoundTrips) (hc : lz.lz4CompressLevel x level = some c) :
    lz.lz4Decompress c x.length = some x := by
  unfold Lz4.lz4Decompress
  split
  · rename_i hzero
    rw [eq_nil_of_length_eq_zero hzero]
  · rename_i hne
    have hblock : lz.uncompressBlock c x.length = some x := by
      unfold Lz4HC.lz4CompressLevel at hc
      rw [if_neg hne] at hc
      split at hc
      · cases hc
      rename_i dst hdst
      split at hc
      · cases hc
      rename_i hlen
      cases hc
      have hnil : c ≠ [] := fun hc => hlen (by rw [hc]; rfl)
      split at hdst
      · exact h.fast hdst hnil
      · exact h.high hdst hnil
    rw [hblock]
    exact if_neg (not_not.mpr rfl)

theorem Inverts.framedRecord {r : Record} (hr : Signed 8 r.offset) :
    Inverts decodeFramedRecord (encodeFramedRecord r) r.norm := by
  intro t ht
  have hnorm : encodeFramedRecord r.norm = encodeFramedRecord r := Log.encodeRecord_norm r
  have hplain : Plain r.norm := ⟨r.norm_norm, hr⟩
  have hlen : (encodeRecord r.norm).length < 2 ^ 32 := by
    have hframe := length_encodeFramedRecord r.norm
    rw [length_append, ← hnorm] at ht
    omega
  rw [← hnorm]
  exact hplain.decodeFramedRecord hlen t

theorem Inverts.records {m : Decoder Record} {encode : Record → Bytes} {rs : List Record} {n : Nat} (hn : n = rs.length)
    (h : ∀ r ∈ rs, Inverts m (encode r) r.norm) : Inverts (decodeList m n) (rs.flatMap encode) (rs.map Record.norm) := by
  rw [hn]
  exact Inverts.times Record.norm h

/-- The decoder goes on in what the block inflates to. -/
theorem run_inflate_of_compressed (h : lz.RoundTrips) (hc : lz.lz4CompressLevel x level = some c)
    (hx : x.length < 2 ^ 32) (short : WireError) : inflate lz.toLz4 short (bigEndian 4 x.length ++ c) = .ok ((), x) := by
  unfold inflate
  rw [if_neg (by rw [length_append, length_bigEndian]; omega), drop_left' (length_bigEndian 4 _),
    take_left' (length_bigEndian 4 _), ofBigEndian_bigEndian_of_lt hx, h.lz4Decompress hc]

section
variable {α β : Type} {m : Decoder α} {g : α → Decoder β} {e e' : Bytes} {v : α}

theorem Inverts.rest {w : β} (hm : Inverts m e v) (hlen : (e ++ e').length < 2 ^ 32)
    (hg : g v e' = .ok (w, [])) : (m >>= g) (e ++ e') = .ok (w, []) := by
  simp only [Bind.bind, StateT.bind, hm _ hlen]
  exact hg

theorem run_bind_of_eq {r : Except WireError (β × Bytes)} (hm : m e = .ok (v, e'))
    (hg : g v e' = r) : (m >>= g) e = r := by
  simp only [Bind.bind, StateT.bind, hm]
  exact hg

end

theorem encodeRecord_pos (r : Record) : 0 < (encodeRecord r).length := by
  simp only [encodeRecord, length_append, length_bigEndian]
  omega

/-! ### Batches -/

def ProduceBatchRequest.sentCodec (lz : Lz4HC) (r : ProduceBatchRequest) : Codec :=
  if r.codec = codecLZ4 ∧ lz.lz4CompressLevel r.recordsBuf r.level.toNat = none then codecNone else r.codec

def ProduceBatchRequest.received (lz : Lz4HC) (r : ProduceBatchRequest) : ProduceBatchRequest :=
  { r with codec := r.sentCodec lz, records := r.records.map Record.norm, level := 0 }

structure ProduceBatchRequest.Sendable (r : ProduceBatchRequest) : Prop where
  codec : r.codec = codecNone ∨ r.codec = codecLZ4
  offsets : ∀ x ∈ r.records, Signed 8 x.offset
  payload : r.recordsBuf.length < 2 ^ 32

def ProduceBatchRequest.framed (r : ProduceBatchRequest) (codec : Codec) (rest : Bytes) : Bytes :=
  encodeString r.topic ++ ((encodeInt32 r.partition ++ [codec]) ++ (bigEndian 4 r.records.length ++ rest))

theorem ProduceBatchRequest.run_framed {lz : Lz4} {r : ProduceBatchRequest} (hr : r.Sendable) {rest : Bytes}
    (hrest : Wire.recordsBuf lz codec rest = .ok ((), r.recordsBuf)) (hlen : (r.framed codec rest).length < 2 ^ 32) :
    decodeProduceBatchRequest lz (r.framed codec rest) =
      .ok ({ r with codec := codec, records := r.records.map Record.norm, level := 0 }, []) := by
  have hcount : ofBigEndian (bigEndian 4 r.records.length) = r.records.length := by
    have hle := length_le_flatMap encodeRecord_pos r.records
    have hpayload := hr.payload
    rw [ProduceBatchRequest.recordsBuf] at hpayload
    exact ofBigEndian_bigEndian_of_lt (by omega)
  have hrecords := (Inverts.records hcount fun x hx => .record (hr.offsets x hx)).whole hr.payload
  rw [← Checked.decodeRecords_eq] at hrecords
  simp only [ProduceBatchRequest.framed, length_append] at hlen
  refine (Inverts.string r.topic).rest (by simp only [length_append]; omega) ?_
  refine (Inverts.take _ (by simp)).rest (by simp only [length_append]; omega) ?_
  refine (Inverts.take _ (length_bigEndian 4 _)).rest (by simp only [length_append]; omega) ?_
  have hcodec : (encodeInt32 r.partition ++ [codec]).getD 4 0 = codec := by
    simp
  rw [slice_left (length_encodeInt32 _), int32_encode]
  exact run_bind_of_eq hrest (run_bind_of_eq hrecords rfl)

section Framed

variable {lz : Lz4HC} {r : ProduceBatchRequest}

theorem ProduceBatchRequest.encode_of_ne (hcodec : r.codec ≠ codecLZ4) : r.encode lz = r.framed r.codec r.recordsBuf := by
  unfold ProduceBatchRequest.encode ProduceBatchRequest.framed
  rw [if_neg hcodec]
  simp

theorem ProduceBatchRequest.encode_of_some (hcodec : r.codec = codecLZ4)
    (hc : lz.lz4CompressLevel r.recordsBuf r.level.toNat = some c) :
    r.encode lz = r.framed codecLZ4 (bigEndian 4 r.recordsBuf.length ++ c) := by
  unfold ProduceBatchRequest.encode ProduceBatchRequest.framed
  rw [if_pos hcodec, hc, hcodec]
  simp

theorem ProduceBatchRequest.encode_of_none (hcodec : r.codec = codecLZ4)
    (hc : lz.lz4CompressLevel r.recordsBuf r.level.toNat = none) : r.encode lz = r.framed codecNone r.recordsBuf := by
  have hset (h t : Bytes) (x : Codec) (ht : t.length = 4) :
      (h ++ [x] ++ t).set ((h ++ [x] ++ t).length - 5) codecNone = h ++ [codecNone] ++ t := by
    simp [ht]
  unfold ProduceBatchRequest.encode ProduceBatchRequest.framed
  rw [if_pos hcodec, hc]
  rw [hset _ _ _ (length_bigEndian 4 _)]
  simp

theorem ProduceBatchRequest.run_encode (h : lz.RoundTrips) (hr : r.Sendable) (hlen : (r.encode lz).length < 2 ^ 32) :
    decodeProduceBatchRequest lz.toLz4 (r.encode lz) = .ok (r.received lz, []) := by
  have hnone (x : Bytes) : Wire.recordsBuf lz.toLz4 codecNone x = .ok ((), x) := rfl
  unfold ProduceBatchRequest.received ProduceBatchRequest.sentCodec
  rcases hr.codec with hcodec | hcodec
  · have hne : r.codec ≠ codecLZ4 := by
      rw [hcodec]
      exact nofun
    rw [encode_of_ne hne, hcodec] at hlen ⊢
    exact run_framed hr (hnone _) hlen
  · cases hc : lz.lz4CompressLevel r.recordsBuf r.level.toNat with
    | none =>
      rw [encode_of_none hcodec hc] at hlen ⊢
      rw [if_pos ⟨hcodec, rfl⟩]
      exact run_framed hr (hnone _) hlen
    | some c =>
      rw [encode_of_some hcodec hc] at hlen ⊢
      rw [if_neg fun hc => nomatch hc.2]
      have hinflate : Wire.recordsBuf lz.toLz4 codecLZ4 (bigEndian 4 r.recordsBuf.length ++ c) = .ok ((), r.recordsBuf) :=
        run_inflate_of_compressed h hc hr.payload (.short "LZ4 length")
      rw [run_framed hr hinflate hlen, hcodec]

end Framed

/-! ### Answers to fetch -/

def FetchResponse.sentCodec (lz : Lz4) (r : FetchResponse) : Codec :=
  if r.codec = codecLZ4 ∧ lz.lz4Compress (fetchPayload r.records) ≠ none then codecLZ4 else codecNone

def FetchResponse.received (lz : Lz4) (r : FetchResponse) : FetchResponse := ⟨r.records.map Record.norm, r.sentCodec lz⟩

structure FetchResponse.Sendable (r : FetchResponse) : Prop where
  offsets : ∀ x ∈ r.records, Signed 8 x.offset
  payload : (fetchPayload r.records).length < 2 ^ 32

theorem FetchResponse.run_framed {lz : Lz4} (hr : r.Sendable) {rest : Bytes}
    (hrest : payloadBuf lz codec rest = .ok ((), fetchPayload r.records)) (hlen : (codec :: rest).length < 2 ^ 32) :
    decodeFetchResponse lz (codec :: rest) = .ok (⟨r.records.map Record.norm, codec⟩, []) := by
  have hpos (x : Record) : 0 < (encodeFramedRecord x).length := by
    rw [length_encodeFramedRecord]
    omega
  have hcount : ofBigEndian (bigEndian 4 r.records.length) = r.records.length := by
    have hle := length_le_flatMap hpos r.records
    have hpayload := hr.payload
    rw [length_fetchPayload] at hpayload
    exact ofBigEndian_bigEndian_of_lt (by omega)
  have hrecords := Inverts.records hcount fun x hx => .framedRecord (hr.offsets x hx)
  rw [← Checked.decodeFramedRecords_eq] at hrecords
  refine (Inverts.take (x := [codec]) _ rfl).rest hlen (run_bind_of_eq hrest ?_)
  exact ((Inverts.take _ (length_bigEndian 4 _)).bind hrecords.map).whole hr.payload

theorem FetchResponse.run_encode (h : lz.RoundTrips) (hr : r.Sendable) (hlen : (r.encode lz.toLz4).length < 2 ^ 32) :
    decodeFetchResponse lz.toLz4 (r.encode lz.toLz4) = .ok (r.received lz.toLz4, []) := by
  have hnone (x : Bytes) : payloadBuf lz.toLz4 codecNone x = .ok ((), x) := rfl
  unfold FetchResponse.encode at hlen ⊢
  unfold FetchResponse.received FetchResponse.sentCodec
  dsimp only at hlen ⊢
  split at hlen
  · rename_i hcodec
    rw [if_pos hcodec, if_neg fun hc => hcodec hc.1]
    exact run_framed hr (hnone _) hlen
  · rename_i hcodec
    rw [if_neg hcodec]
    split at hlen
    · rename_i hc
      rw [hc, if_neg fun hc => hc.2 rfl]
      exact run_framed hr (hnone _) hlen
    · rename_i compressed hc
      rw [hc, if_pos ⟨not_not.mp hcodec, nofun⟩]
      exact run_framed hr (run_inflate_of_compressed h (show lz.lz4CompressLevel _ 0 = _ from hc) hr.payload
        (.short "FetchResponse lz4 header")) hlen

/-! ### Every message -/

def Message.received (lz : Lz4HC) : (m : Message) → m.Value → m.Value
  | .handshakeRequest, (h : HandshakeRequest) => { h with credential := Slice.norm h.credential }
  | .produceRequest, (r : ProduceRequest) => { r with record := r.record.norm }
  | .produceBatchRequest, (r : ProduceBatchRequest) => r.received lz
  | .fetchResponse, (r : FetchResponse) => r.received lz.toLz4
  | .fetchSegmentChunkResponse, s => Slice.norm s
  | _, v => v

/-- Offsets of 64 bits, codecs that are defined, and records of less than 2^32 bytes before they are compressed. -/
def Message.Sendable : (m : Message) → m.Value → Prop
  | .produceRequest, (r : ProduceRequest) => Signed 8 r.record.offset
  | .produceBatchRequest, (r : ProduceBatchRequest) => r.Sendable
  | .fetchResponse, (r : FetchResponse) => r.Sendable
  | _, _ => True

section
variable {lz : Lz4HC} (h : lz.RoundTrips) (m : Message) (v : m.Value) (hv : m.Sendable v)
    (hlen : (m.encode lz v).length < 2 ^ 32)
include h hv hlen

theorem Message.run_encode :
    ∃ rest, m.decoder lz.toLz4 (m.encode lz v) = .ok (m.received lz v, rest) := by
  cases m with
  | handshakeRequest => exact ⟨_, (HandshakeRequest.inverts v).whole hlen⟩
  | produceRequest => exact ⟨_, (ProduceRequest.inverts hv).whole hlen⟩
  | produceResponse | highWaterResponse => exact ⟨_, (inverts_int64 _ v).whole hlen⟩
  | produceBatchRequest => exact ⟨_, ProduceBatchRequest.run_encode h hv hlen⟩
  | produceBatchResponse => exact ⟨_, (ProduceBatchResponse.inverts v).whole hlen⟩
  | fetchRequest => exact ⟨_, (FetchRequest.inverts v).whole hlen⟩
  | fetchResponse => exact ⟨_, FetchResponse.run_encode h hv hlen⟩
  | metadataRequest | removeVoterRequest | describeGroupRequest | deleteTopicRequest | deleteGroupRequest | listGroupOffsetsRequest =>
    exact ⟨_, (Inverts.string v).whole hlen⟩
  | metadataResponse => exact ⟨_, (inverts_int32 _ v).whole hlen⟩
  | highWaterRequest | listSegmentsRequest | syncRequest => exact ⟨_, (PartitionRequest.inverts _ v).whole hlen⟩
  | listSegmentsResponse => exact ⟨_, (inverts_listSegmentsResponse v).whole hlen⟩
  | fetchSegmentChunkRequest => exact ⟨_, (FetchSegmentChunkRequest.inverts v).whole hlen⟩
  | fetchSegmentChunkResponse => exact ⟨_, (Inverts.bytes v).whole hlen⟩
  | clusterMembersRequest | clusterStatusRequest | listGroupsRequest | listTopicsRequest => exact ⟨_, rfl⟩
  | clusterMembersResponse =>
    exact ⟨_, (Inverts.list _ (fun m : ClusterMember => string_append_pos m.id _) ClusterMember.inverts v).whole hlen⟩
  | addVoterRequest => exact ⟨_, (ClusterMember.inverts v).whole hlen⟩
  | createTopicRequest => exact ⟨_, (inverts_topicConfig _ v).whole hlen⟩
  | clusterStatusResponse => exact ⟨_, (ClusterStatusResponse.inverts v).whole hlen⟩
  | listGroupsResponse => exact ⟨_,
      (Inverts.list _ (fun g : GroupSummary => string_append_pos g.name _) GroupSummary.inverts v).whole hlen⟩
  | describeGroupResponse => exact ⟨_, (DescribeGroupResponse.inverts v).whole hlen⟩
  | listTopicsResponse => exact ⟨_,
      (Inverts.list _ (fun t : TopicConfig => string_append_pos t.name _) (inverts_topicConfig _) v).whole hlen⟩
  | updateTopicConfigRequest => exact ⟨_, (UpdateTopicConfigRequest.inverts v).whole hlen⟩
  | commitRequest => exact ⟨_, (CommitRequest.inverts v).whole hlen⟩
  | joinGroupRequest => exact ⟨_, (JoinGroupRequest.inverts v).whole hlen⟩
  | joinGroupResponse => exact ⟨_, (JoinGroupResponse.inverts v).whole hlen⟩
  | heartbeatRequest => exact ⟨_, (HeartbeatRequest.inverts v).whole hlen⟩
  | heartbeatResponse => exact ⟨_, (inverts_heartbeatResponse v).whole hlen⟩
  | listGroupOffsetsResponse =>
    exact ⟨_, (Inverts.list _ (fun e : GroupOffsetEntry => string_append_pos e.topic _) GroupOffsetEntry.inverts v).whole hlen⟩
  | leaveGroupRequest => exact ⟨_, (LeaveGroupRequest.inverts v).whole hlen⟩

theorem Message.decode_encode :
    m.decode lz.toLz4 (m.encode lz v) = .ok (m.received lz v) := by
  obtain ⟨rest, hrun⟩ := m.run_encode h v hv hlen
  rw [m.decode_eq lz.toLz4 hlen, hrun]
  rfl

end

/-- A string to whose length four cannot be added in 32 bits. -/
theorem decodeString_encode_fault {s : Bytes} (hlow : 2 ^ 32 ≤ 4 + s.length) (hhigh : s.length < 2 ^ 32) :
    Checked.decodeString (encodeString s) = .error .fault := by
  have hlen : (encodeString s).length = 4 + s.length := length_encodeString s
  have hn : Checked.part (encodeString s) 0 4 = bigEndian 4 s.length := by
    exact take_left' (length_bigEndian 4 _)
  unfold Checked.decodeString
  rw [if_neg (by omega), Checked.sliceBetween_of_le (by omega) (by omega)]
  dsimp only [bind, Except.bind]
  rw [hn, ofBigEndian_bigEndian_of_lt hhigh, hlen, Nat.add_sub_cancel_left, Nat.mod_eq_of_lt hhigh, if_neg (Nat.lt_irrefl _)]
  unfold Checked.sliceBetween
  rw [if_neg (by omega)]

end Holocron.Wire

namespace Holocron
open Lib Wire Cluster List

def Cluster.Command.received : Command → Command
  | .append c => .append { c with record := c.record.norm }
  | c => c

/-- Offsets are of 64 bits. -/
def Cluster.Command.Sendable : Command → Prop
  | .append c => Signed 8 c.offset ∧ Signed 8 c.record.offset
  | _ => True

theorem Cluster.Command.norm_eq {c : Command} (h : c.Sendable) : c.norm = c.received := by
  cases c with
  | append a =>
    rw [Command.norm, offset_encode h.2]
    rfl
  | createTopic a => rfl
  | deleteTopic a => rfl
  | updateTopicConfig a => rfl

/-- Where the block compressor is right about what it reports, a message or a command of less than 2^32 bytes comes back
    as it was sent: empty slices as nil, a batch without its level and with the codec that was used. -/
theorem codecs_round_trip {lz : Lz4HC} (h : lz.RoundTrips) :
    (∀ (m : Message) (v : m.Value), m.Sendable v → (m.encode lz v).length < 2 ^ 32 → m.decode lz.toLz4 (m.encode lz v) =
      .ok (m.received lz v)) ∧
      ∀ c : Command, c.Sendable → c.encode.length < 2 ^ 32 → Cluster.Checked.decode c.encode = .ok c.received := by
  refine ⟨Message.decode_encode h, fun c hc hlen => ?_⟩
  have hoff : ∀ a, c = .append a → Signed 8 a.offset := by
    rintro a rfl
    exact hc.1
  rw [Cluster.Checked.decode_eq hlen, Cluster.decode_encode hlen hoff, Command.norm_eq hc]
  rfl

/-- 15 to 269 bytes as the literals of one LZ4 sequence: a token without a match, one length byte, the bytes. -/
def Wire.literals (x : Bytes) : Option Bytes :=
  if 15 ≤ x.length ∧ x.length < 270 then some (0xF0 :: UInt8.ofNat (x.length - 15) :: x) else none

def Wire.Lz4HC.storing : Lz4HC :=
  ⟨⟨literals, fun c n => if (literals (c.drop 2) = some c) ∧ c.length ≤ n + 2 then some (c.drop 2) else none⟩,
    fun _ => literals⟩

theorem Wire.Lz4HC.storing_roundTrips : Lz4HC.storing.RoundTrips := by
  have hround {x c : Bytes} (h : literals x = some c) : Lz4HC.storing.uncompressBlock c x.length = some x := by
    have hx := h
    unfold literals at h
    split at h
    · cases h
      exact if_pos ⟨hx, Nat.le_refl _⟩
    · cases h
  exact ⟨fun h _ => hround h, fun h _ => hround h⟩

theorem codecs_round_trip_storing : Lz4HC.storing.RoundTrips ∧
    Message.produceBatchRequest.decode Lz4HC.storing.toLz4
        (Message.produceBatchRequest.encode Lz4HC.storing ⟨utf8 "t", 1, codecLZ4, [⟨3, 0, some [], some [7], []⟩], 9⟩) =
      .ok ⟨utf8 "t", 1, codecLZ4, [⟨3, 0, none, some [7], []⟩], 0⟩ :=
  ⟨Lz4HC.storing_roundTrips,
    (codecs_round_trip Lz4HC.storing_roundTrips).1 .produceBatchRequest ⟨utf8 "t", 1, codecLZ4,
      [⟨3, 0, some [], some [7], []⟩], 9⟩ ⟨.inr rfl, by decide, by decide⟩ (by decide)⟩

/-- The name of a topic of 2^32 - 4 bytes has no decoding, and a batch loses its level. -/
theorem long_name_faults_and_level_lost :
    (List.replicate (2 ^ 32 - 4) (0 : UInt8)).length < 2 ^ 32 ∧
      Message.metadataRequest.decode Lz4HC.storing.toLz4
        (Message.metadataRequest.encode Lz4HC.storing (List.replicate (2 ^ 32 - 4) (0 : UInt8))) = .error .fault ∧
      Message.produceBatchRequest.decode Lz4HC.storing.toLz4
          (Message.produceBatchRequest.encode Lz4HC.storing ⟨utf8 "t", 1, codecNone, [], 9⟩) =
        .ok ⟨utf8 "t", 1, codecNone, [], 0⟩ := by
  have hfault {s : Bytes} (hs : s.length = 2 ^ 32 - 4) :
      Message.metadataRequest.decode Lz4HC.storing.toLz4 (encodeString s) = .error .fault := by
    change (Lib.Checked.Cursor.peek Wire.Checked.decodeString (encodeString s)).map Prod.fst = .error .fault
    rw [Lib.Checked.Cursor.peek, decodeString_encode_fault (by omega) (by omega)]
    rfl
  refine ⟨?_, hfault length_replicate, ?_⟩
  · rw [length_replicate]
    decide
  · exact Message.decode_encode Lz4HC.storing_roundTrips .produceBatchRequest ⟨utf8 "t", 1, codecNone, [], 9⟩ ⟨.inl rfl,
      (fun _ h => by cases h), by decide⟩ (by decide)

end Holocron
