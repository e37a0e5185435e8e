import Holocron.Proto.Checked
import Holocron.Theorems.Proto.Response

/-! No decoder of the wire protocol indexes or slices out of range on less than 2^32 bytes. -/

namespace Holocron.Wire
open Lib

variable {b : Bytes}

namespace Checked
open Lib.Checked Lib.Checked.Cursor

variable {n : Nat} {e : WireError}

section
variable (hb : b.length < 2 ^ 32)
include hb

theorem sliceBetween_length (hn : n ≤ b.length - 4) (h4 : 4 ≤ b.length) :
    (sliceBetween b 4 ((4 + n) % 2 ^ 32) : Go Bytes) = .ok ((b.drop 4).take n) := by
  rw [Nat.mod_eq_of_lt (by omega), sliceBetween_of_le (by omega) (by omega), part, Nat.add_sub_cancel_left]

theorem decodeString_eq (h4 : 4 ≤ b.length) : decodeString b =
    if b.length - 4 < ofBigEndian (b.take 4) then fail .unexpectedEOF
    else .ok ((b.drop 4).take (ofBigEndian (b.take 4)), 4 + ofBigEndian (b.take 4)) := by
  unfold decodeString
  rw [if_neg (by omega), sliceBetween_of_le (Nat.zero_le 4) h4, part_zero]
  simp only [bind, Except.bind, Nat.mod_eq_of_lt (show b.length - 4 < 2 ^ 32 by omega)]
  split
  · rfl
  · rw [sliceBetween_length hb (by omega) h4]
    rfl

theorem decodeBytes_eq : decodeBytes b = (decodeString b).map fun r => (Slice.norm (some r.1), r.2) := by
  by_cases h4 : 4 ≤ b.length
  · rw [decodeString_eq hb h4]
    unfold decodeBytes
    rw [if_neg (by omega), sliceBetween_of_le (Nat.zero_le 4) h4, part_zero]
    simp only [bind, Except.bind, Nat.mod_eq_of_lt (show b.length - 4 < 2 ^ 32 by omega)]
    split
    · rfl
    · split
      · rename_i hzero
        rw [hzero]
        rfl
      · rename_i hle hne
        rw [sliceBetween_length hb (by omega) h4]
        have hlen : ((b.drop 4).take (ofBigEndian (b.take 4))).length = ofBigEndian (b.take 4) := by
          rw [List.length_take, List.length_drop]
          omega
        generalize (b.drop 4).take (ofBigEndian (b.take 4)) = s at hlen ⊢
        cases s with
        | nil => exact absurd hlen.symm hne
        | cons x s => rfl
  · have hlt : b.length < 4 := by omega
    unfold decodeBytes decodeString
    rw [if_pos hlt, if_pos hlt]
    rfl

end

theorem decodeString_reads : Reads (2 ^ 32) decodeString Wire.decodeString := by
  intro b hb
  unfold Wire.decodeString
  by_cases h4 : 4 ≤ b.length
  · rw [decodeString_eq hb h4, if_neg (show ¬ b.length < 4 by omega), Nat.mod_eq_of_lt (show b.length - 4 < 2 ^ 32 by omega)]
    dsimp only
    split
    · exact .inr ⟨_, rfl, rfl⟩
    · exact .inl ⟨_, _, by omega, rfl, rfl⟩
  · have hlt : b.length < 4 := by omega
    unfold decodeString
    rw [if_pos hlt, if_pos hlt]
    exact .inr ⟨_, rfl, rfl⟩

theorem decodeBytes_reads : Reads (2 ^ 32) decodeBytes Wire.decodeBytes := by
  intro b hb
  rw [decodeBytes_eq hb]
  unfold Wire.decodeBytes
  simp only [bind, StateT.bind]
  rcases decodeString_reads b hb with ⟨s, n, hn, hf, hp⟩ | ⟨e, hf, hp⟩
  · rw [hf, hp]
    exact .inl ⟨_, n, hn, rfl, rfl⟩
  · rw [hf, hp]
    exact .inr ⟨e, rfl, rfl⟩

theorem decodeHeaders_reads (hb : b.length < 2 ^ 32) (count : Nat) {p : Nat} (hp : p ≤ b.length) :
    Lib.Checked.Follows b id (decodeHeaders b count p) (Wire.decodeHeaders count (b.drop p)) := by
  induction count generalizing p with
  | zero => exact .inl ⟨[], p, hp, rfl, rfl⟩
  | succ count ih =>
    unfold decodeHeaders
    refine (decodeString_reads.onRest hb hp).bind fun hk n hn => (decodeBytes_reads.onRest hb hn).bind fun hv m hm => ?_
    exact (ih hm).bind fun hs p' hp' => .inl ⟨_, p', hp', rfl, rfl⟩

theorem decodeRecord_reads : Reads (2 ^ 32) decodeRecord Wire.decodeRecord := by
  intro b hb
  unfold decodeRecord Wire.decodeRecord
  simp only [bind, StateT.bind]
  by_cases h16 : b.length < 16
  · have hblock : block 16 .unexpectedEOF b = .error .unexpectedEOF := if_pos h16
    rw [if_pos h16, hblock]
    exact .inr ⟨_, rfl, rfl⟩
  have hblock : block 16 .unexpectedEOF b = .ok (b.take 16, b.drop 16) := if_neg h16
  rw [if_neg h16, hblock, sliceBetween_of_le (by omega) (by omega), sliceBetween_of_le (by omega) (by omega)]
  refine (decodeBytes_reads.onRest hb (Nat.not_lt.mp h16)).bind fun key n hn =>
    (decodeBytes_reads.onRest hb hn).bind fun value m hm => ?_
  rw [sliceFrom_of_le hm]
  dsimp only [Except.bind]
  have hlen : (b.drop (16 + n + m)).length = b.length - (16 + n + m) := List.length_drop
  by_cases h4 : (b.drop (16 + n + m)).length < 4
  · have hblock : block 4 .unexpectedEOF (b.drop (16 + n + m)) = .error .unexpectedEOF := if_pos h4
    rw [if_pos h4, hblock]
    exact .inr ⟨_, rfl, rfl⟩
  have hblock : block 4 .unexpectedEOF (b.drop (16 + n + m)) = .ok ((b.drop (16 + n + m)).take 4, b.drop (16 + n + m + 4)) := by
    unfold block
    rw [if_neg h4, List.drop_drop]
  have hcount : part b (16 + n + m) (16 + n + m + 4) = (b.drop (16 + n + m)).take 4 := by
    rw [part, Nat.add_sub_cancel_left]
  rw [if_neg h4, hblock, sliceBetween_of_le (by omega) (by omega), hcount]
  refine (decodeHeaders_reads hb (ofBigEndian ((b.drop (16 + n + m)).take 4)) (by omega)).bind fun hs p hp =>
    .inl ⟨_, p, hp, rfl, ?_⟩
  have hfirst : slice (b.take 16) 0 8 = part b 0 8 := by
    rw [slice, part, List.drop_zero, List.take_take]
    rfl
  have hsecond : slice (b.take 16) 8 16 = part b 8 16 := by
    rw [slice, List.drop_take, List.take_take]
    rfl
  rw [← hfirst, ← hsecond]
  rfl

theorem decodeFramedRecord_eq (hb : b.length < 2 ^ 32) {bodyLen : Nat} (hlen : ofBigEndian (b.take 4) = bodyLen)
    (htotal : 4 + bodyLen + 4 ≤ b.length) : decodeFramedRecord b =
      if (Log.checksum ((b.drop 4).take bodyLen)).toNat ≠ ofBigEndian ((b.drop (4 + bodyLen)).take 4) then fail .crc
      else (decodeRecord ((b.drop 4).take bodyLen)).map fun r => (r.1, 4 + bodyLen + 4) := by
  unfold decodeFramedRecord
  rw [if_neg (by omega), sliceBetween_of_le (Nat.zero_le 4) (by omega), part_zero]
  simp only [bind, Except.bind, hlen]
  have hwrap : (4 + bodyLen) % 2 ^ 32 = 4 + bodyLen := Nat.mod_eq_of_lt (by omega)
  rw [if_neg (by omega), hwrap, sliceBetween_of_le (by omega) (by omega), sliceBetween_of_le (by omega) htotal, part, part,
    Nat.add_sub_cancel_left, Nat.add_sub_cancel_left]
  dsimp only
  split
  · rfl
  · cases decodeRecord ((b.drop 4).take bodyLen) <;> rfl

theorem decodeFramedRecord_of_lt (h : b.length < 4 ∨ b.length < 4 + ofBigEndian (b.take 4) + 4) :
    decodeFramedRecord b = fail .unexpectedEOF := by
  unfold decodeFramedRecord
  by_cases h4 : b.length < 4
  · rw [if_pos h4]
  · rw [if_neg h4, sliceBetween_of_le (Nat.zero_le 4) (by omega)]
    exact if_pos (h.resolve_left h4)

theorem decodeFramedRecord_reads : Reads (2 ^ 32) decodeFramedRecord Wire.decodeFramedRecord := by
  intro b hb
  unfold Wire.decodeFramedRecord
  by_cases h4 : b.length < 4
  · rw [decodeFramedRecord_of_lt (.inl h4), if_pos h4]
    exact .inr ⟨_, rfl, rfl⟩
  by_cases htotal : b.length < 4 + ofBigEndian (b.take 4) + 4
  · rw [decodeFramedRecord_of_lt (.inr htotal), if_neg h4, if_pos htotal]
    exact .inr ⟨_, rfl, rfl⟩
  rw [decodeFramedRecord_eq hb rfl (Nat.not_lt.mp htotal), if_neg h4]
  dsimp only
  split
  · exact .inr ⟨_, rfl, rfl⟩
  · have hbody : ((b.drop 4).take (ofBigEndian (b.take 4))).length < 2 ^ 32 := by
      rw [List.length_take]
      omega
    rcases decodeRecord_reads _ hbody with ⟨r, n, -, hf, hplain⟩ | ⟨e, hf, hplain⟩
    · rw [hf, hplain]
      exact .inl ⟨r, _, Nat.not_lt.mp htotal, rfl, rfl⟩
    · rw [hf, hplain]
      exact .inr ⟨e, rfl, rfl⟩

/-- A check of the length for a block, and then its fields. -/
theorem agrees_block {α : Type} {keep : Bool} {d : Reading α} {g : Bytes → Decoder α}
    (h : ∀ x, x.length = n → AgreesIn (2 ^ 32) keep x d (g x)) : Agrees (2 ^ 32) keep (need n e >>= fun _ => d)
      (block n e >>= g) := by
  refine Agrees.need (fun b hb => ?_) (fun x b hx => ?_) h
  · have hblock : block n e b = .error e := if_pos hb
    simp only [bind, StateT.bind, hblock]
    rfl
  · simp only [bind, StateT.bind, block_append e hx]
    rfl

/-- The checked decoder does on less than 2^32 bytes what the plain one does; `keep` is whether it also leaves the same
    bytes. -/
def Follows {α : Type} (keep : Bool) (d : Reading α) (m : Decoder α) : Prop := Agrees (2 ^ 32) keep d m

/-- `Follows` once a block `x` has been taken off, which the checked decoder still has before it. -/
def FollowsIn {α : Type} (keep : Bool) (x : Bytes) (d : Reading α) (m : Decoder α) : Prop := AgreesIn (2 ^ 32) keep x d m

section Rules

variable {α β : Type} {keep : Bool} {x : Bytes}

theorem Follows.pure (y : α) : Follows keep (pure y) (pure y) := Agrees.pure y

variable {m : Decoder α} {f : Bytes → Reading α}

theorem Follows.bind {d : Reading α} {f : α → Reading β} {g : α → Decoder β} (hd : Follows true d m)
    (hf : ∀ y, Follows keep (f y) (g y)) : Follows keep (d >>= f) (m >>= g) := Agrees.bind hd hf

theorem Follows.last {d : Reading α} {f : α → β} (h : Follows false d m) :
    Follows false (d >>= fun y => Pure.pure (f y)) (m >>= fun y => Pure.pure (f y)) := Agrees.last h

theorem Follows.string : Follows true (next decodeString) Wire.decodeString := decodeString_reads.next

theorem Follows.lastString : Follows false (peek decodeString) Wire.decodeString := decodeString_reads.peek

theorem Follows.lastBytes : Follows false (peek decodeBytes) Wire.decodeBytes := decodeBytes_reads.peek

theorem Follows.record : Follows true (next decodeRecord) Wire.decodeRecord := decodeRecord_reads.next

theorem Follows.lastRecord : Follows false (peek decodeRecord) Wire.decodeRecord := decodeRecord_reads.peek

theorem Follows.framedRecord : Follows true (next decodeFramedRecord) Wire.decodeFramedRecord := decodeFramedRecord_reads.next

theorem Follows.need {d : Reading α} {g : Bytes → Decoder α} (h : ∀ x, x.length = n → FollowsIn keep x d (g x)) :
    Follows keep (need n e >>= fun _ => d) (block n e >>= g) := agrees_block h

theorem FollowsIn.pure (y : α) : FollowsIn false x (pure y) (pure y) := AgreesIn.pure y

theorem FollowsIn.field {i j : Nat} (hij : i ≤ j ∧ j ≤ x.length) (h : FollowsIn keep x (f (slice x i j)) m) :
    FollowsIn keep x (field i j >>= f) m := AgreesIn.field hij h

theorem FollowsIn.byte {i : Nat} {f : UInt8 → Reading α} (hi : i < x.length) (h : FollowsIn keep x (f (x.getD i 0)) m) :
    FollowsIn keep x (byte i >>= f) m := AgreesIn.byte hi h

theorem FollowsIn.skip {d : Reading α} (hn : x.length = n) (h : Follows keep d m) :
    FollowsIn keep x (skip n >>= fun _ => d) m := AgreesIn.skip hn h

theorem FollowsIn.whole (hn : x.length = n) (h : FollowsIn keep x (f x) m) :
    FollowsIn keep x (Cursor.field 0 n >>= f) m := by
  have hpart : part x 0 n = x := by rw [part_zero, ← hn, List.take_length]
  exact AgreesIn.field ⟨Nat.zero_le n, Nat.le_of_eq hn.symm⟩ (hpart.symm ▸ h)

theorem Follows.count (e : WireError) : Follows true (count e) (decodeCount e) := by
  refine .need fun x hx => ?_
  exact .whole hx (.skip hx (.pure _))

theorem Follows.times {n : Nat} {d : Reading α} (h : Follows true d m) : Follows true (times d n) (decodeList m n) :=
  Agrees.times (decodeList m) h rfl (fun _ => rfl) n

end Rules

theorem decodeHandshakeRequest_follows : Follows false decodeHandshakeRequest Wire.decodeHandshakeRequest := by
  refine .need fun x hx => .byte (by omega) (.skip hx ?_)
  intro b hb
  cases b with
  | nil => exact .ok _ nofun hb
  | cons kind rest =>
    -- the kind is there, so that it needs no check
    have h : FollowsIn false [kind]
        (byte 0 >>= fun kind => skip 1 >>= fun _ => peek decodeBytes >>= fun cred =>
          pure (HandshakeRequest.mk (x.getD 0 0) kind cred))
        (Wire.decodeBytes >>= fun cred => pure ⟨x.getD 0 0, kind, cred⟩) := .byte Nat.one_pos (.skip rfl (.last .lastBytes))
    exact h rest hb

theorem decodeProduceRequest_follows : Follows false decodeProduceRequest Wire.decodeProduceRequest := by
  refine .bind .string fun _ => .need fun x hx => .whole hx (.skip hx ?_)
  exact .last .lastRecord

theorem inflate_follows (lz : Lz4) (short : WireError) : Follows true (inflate lz short) (Wire.inflate lz short) := by
  refine Agrees.need (g := fun x b => (lz.lz4Decompress b (ofBigEndian x)).elim (.error .lz4) fun decoded =>
    .ok ((), decoded)) (fun b hb => if_pos hb) (fun x b hx => ?_) fun x hx => ?_
  · unfold Wire.inflate
    rw [if_neg (by rw [List.length_append]; omega), List.take_left' hx, List.drop_left' hx]
    cases lz.lz4Decompress b (ofBigEndian x) <;> rfl
  · have hlt := ofBigEndian_lt x
    rw [hx] at hlt
    have hpart : part x 0 4 = x := by rw [part_zero, ← hx, List.take_length]
    refine AgreesIn.field (by omega) (AgreesIn.skip hx fun b hb => ?_)
    rw [hpart]
    simp only [bind, StateT.bind, get, getThe, MonadStateOf.get, StateT.get]
    cases hlz : lz.lz4Decompress b (ofBigEndian x) with
    | none =>
      simp only [pure, Except.pure, Except.bind, hlz, Option.elim]
      exact .err _
    | some decoded =>
      simp only [pure, Except.pure, Except.bind, hlz, Option.elim]
      refine .ok () (fun _ => rfl) ?_
      rw [Lz4.lz4Decompress_length hlz]
      omega

/-- The plain decoders of records read the count as a number. -/
theorem count_bind {α : Type} (e : WireError) (f : Nat → Decoder α) :
    (decodeCount e >>= fun n => f n.toNat) = block 4 e >>= fun b => f (ofBigEndian b) := by
  funext b
  simp only [decodeCount, bind, StateT.bind]
  cases hb : block 4 e b with
  | error e => rfl
  | ok r =>
    have hlt := ofBigEndian_lt r.1
    rw [(block_splits hb).2] at hlt
    have hcount : (uint32 r.1).toNat = ofBigEndian r.1 := by
      rw [uint32, UInt32.toNat_ofNat', Nat.mod_eq_of_lt (by omega)]
    exact congrArg (f · r.2) hcount

theorem Follows.number {α : Type} {keep : Bool} {f : UInt32 → Reading α} {g : Nat → Decoder α} (e : WireError)
    (h : ∀ n, Follows keep (f n) (g n.toNat)) :
      Follows keep (Checked.count e >>= f) (block 4 e >>= fun c => g (ofBigEndian c)) := by
  rw [← count_bind]
  exact .bind (.count e) h

theorem decodeRecords_eq (n : Nat) : decodeRecords n = decodeList Wire.decodeRecord n := by
  induction n with
  | zero => rfl
  | succ n ih => rw [decodeRecords, decodeList, ih]

theorem decodeFramedRecords_eq (n : Nat) : decodeFramedRecords n = decodeList Wire.decodeFramedRecord n := by
  induction n with
  | zero => rfl
  | succ n ih => rw [decodeFramedRecords, decodeList, ih]

theorem decodeProduceBatchRequest_follows (lz : Lz4) : Follows false (decodeProduceBatchRequest lz)
    (Wire.decodeProduceBatchRequest lz) := by
  have hbuf : ∀ codec, Follows true (recordsBuf lz codec) (Wire.recordsBuf lz codec) := by
    intro codec
    unfold recordsBuf Wire.recordsBuf
    split
    · exact inflate_follows lz _
    split
    · exact .pure ()
    · exact fun _ _ => .err _
  refine .bind .string fun topic => .need fun x hx => .field (by omega) (.byte (by omega) (.skip hx ?_))
  refine .number (g := fun n => Wire.recordsBuf lz (x.getD 4 0) >>= fun _ => decodeRecords n >>= fun records =>
    pure (ProduceBatchRequest.mk topic (int32 (slice x 0 4)) (x.getD 4 0) records 0)) _ fun n => ?_
  rw [decodeRecords_eq]
  exact .bind (hbuf _) fun _ => .bind (.times .record) fun _ => .pure _

theorem decodeFetchResponse_follows (lz : Lz4) : Follows false (decodeFetchResponse lz) (Wire.decodeFetchResponse lz) := by
  have hbuf : ∀ codec, Follows true (payloadBuf lz codec) (Wire.payloadBuf lz codec) := by
    intro codec
    unfold payloadBuf Wire.payloadBuf
    split
    · exact inflate_follows lz _
    · exact .pure ()
  refine .need fun x hx => .byte (by omega) (.skip hx ?_)
  refine .bind (hbuf _) fun _ => .number (g := fun n => decodeFramedRecords n >>= fun records =>
    pure (FetchResponse.mk records (x.getD 0 0))) _ fun n => ?_
  rw [decodeFramedRecords_eq]
  exact .bind (.times .framedRecord) fun _ => .pure _

/-- The topic is not taken off, but the partition is where it would be then. -/
theorem decodePartitionAt_follows (what : String) : Follows false (decodePartitionAt what) (Wire.decodePartition what) := by
  intro b hb
  unfold decodePartitionAt Wire.decodePartition
  simp only [bind, StateT.bind]
  rcases decodeString_reads b hb with ⟨topic, off, hoff, hf, hp⟩ | ⟨e, hf, hp⟩
  · rw [hf, hp]
    dsimp only [Except.bind]
    have hlen : (b.drop off).length = b.length - off := List.length_drop
    unfold block
    rw [hlen]
    split
    · exact .err _
    · rw [sliceBetween_of_le (by omega) (by omega), part, Nat.add_sub_cancel_left]
      refine .ok _ (fun h => by cases h) ?_
      rw [List.length_drop]
      omega
  · rw [hf, hp]
    exact .err e

theorem decodeSegmentInfo_of_le (hb : b.length < 2 ^ 32) (h : 24 ≤ b.length) :
    ∃ x, decodeSegmentInfo b = .ok (x, b.drop 24) ∧ Wire.decodeSegmentInfo b = .ok (x, b.drop 24) := by
  have hx : (b.take 24).length = 24 := List.length_take_of_le h
  have hsplit := List.take_append_drop 24 b
  have hentry : FollowsIn true (b.take 24) decodeSegmentInfo
      (pure ⟨int64 (slice (b.take 24) 0 8), int64 (slice (b.take 24) 8 16), int64 (slice (b.take 24) 16 24)⟩) :=
    .field (by omega) (.field (by omega) (.field (by omega) (.skip hx (.pure _))))
  have hmatch := hentry (b.drop 24) (hsplit.symm ▸ hb)
  have hplain : Wire.decodeSegmentInfo b =
      .ok (⟨int64 (slice (b.take 24) 0 8), int64 (slice (b.take 24) 8 16), int64 (slice (b.take 24) 16 24)⟩, b.drop 24) := by
    have hblock : block 24 (.short "ListSegmentsResponse entries") b = .ok (b.take 24, b.drop 24) := if_neg (by omega)
    simp only [Wire.decodeSegmentInfo, bind, StateT.bind, hblock]
    rfl
  rw [hsplit] at hmatch
  generalize hr : decodeSegmentInfo b = r at hmatch
  cases hmatch with
  | ok x same below =>
    obtain rfl := same rfl
    exact ⟨_, rfl, hplain⟩

/-- As many entries as there are bytes for. -/
theorem times_decodeSegmentInfo (n : Nat) (hb : b.length < 2 ^ 32) (hn : n * 24 ≤ b.length) :
    Matches (2 ^ 32) true (times decodeSegmentInfo n b) (decodeList Wire.decodeSegmentInfo n b) := by
  induction n generalizing b with
  | zero => exact .ok [] (fun _ => rfl) hb
  | succ n ih =>
    obtain ⟨x, hx, hplain⟩ := decodeSegmentInfo_of_le hb (by omega)
    have hlen : (b.drop 24).length = b.length - 24 := List.length_drop
    have hrest := ih (b := b.drop 24) (by omega) (by omega)
    simp only [Cursor.times, decodeList, bind, StateT.bind, hx, hplain, Except.bind]
    generalize times decodeSegmentInfo n (b.drop 24) = r, decodeList Wire.decodeSegmentInfo n (b.drop 24) = r' at hrest
    cases hrest with
    | ok xs same below => exact .ok (x :: xs) same below
    | err e => exact .err e

theorem decodeListSegmentsResponse_follows : Follows true decodeListSegmentsResponse Wire.decodeListSegmentsResponse := by
  refine .bind (.count _) fun n b hb => ?_
  have hget : ∀ (f : Bytes → Reading (List SegmentInfo)), (get >>= f) b = f b b := fun _ => rfl
  have hplain : ∀ (f : Bytes → Decoder (List SegmentInfo)), (get >>= f) b = f b b := fun _ => rfl
  rw [hget, hplain]
  split
  · exact .err _
  · exact times_decodeSegmentInfo n.toNat hb (by omega)

theorem decodeListTopicsResponse_follows : Follows true decodeListTopicsResponse Wire.decodeListTopicsResponse := by
  have hentry : Follows true decodeTopicConfig (Wire.decodeTopicConfig "ListTopicsResponse entry") := by
    refine .bind .string fun _ => .need fun x hx => ?_
    exact .field (by omega) (.field (by omega) (.field (by omega) (.skip hx (.pure _))))
  exact .bind (.count _) fun _ => .times hentry

theorem decodeClusterMembersResponse_follows : Follows true decodeClusterMembersResponse Wire.decodeClusterMembersResponse := by
  have hentry : Follows true decodeClusterMember Wire.decodeClusterMember :=
    .bind .string fun _ => .bind .string fun _ => .pure _
  exact .bind (.count _) fun _ => .times hentry

theorem decodeListGroupsResponse_follows : Follows true decodeListGroupsResponse Wire.decodeListGroupsResponse := by
  have hentry : Follows true decodeGroupSummary Wire.decodeGroupSummary := by
    refine .bind .string fun _ => .need fun x hx => ?_
    refine .field (by omega) (.field (by omega) (.field (by omega) (.skip hx ?_)))
    exact .bind (.times .string) fun _ => .pure _
  exact .bind (.count _) fun _ => .times hentry

theorem decodeDescribeGroupResponse_follows : Follows true decodeDescribeGroupResponse Wire.decodeDescribeGroupResponse := by
  have hpartition : Follows true decodePartitionRef Wire.decodePartitionRef :=
    .bind .string fun _ => .need fun x hx => .whole hx (.skip hx (.pure _))
  have hmember : Follows true decodeMemberAssignment Wire.decodeMemberAssignment :=
    .bind .string fun _ => .bind (.count _) fun _ => .bind (.times hpartition) fun _ => .pure _
  refine .bind .string fun _ => .need fun x hx => .field (by omega) (.field (by omega) (.skip hx ?_))
  exact .bind (.times .string) fun _ => .bind (.count _) fun _ => .bind (.times hmember) fun _ => .pure _

theorem decodeJoinGroupResponse_follows : Follows true decodeJoinGroupResponse Wire.decodeJoinGroupResponse := by
  have hentry : Follows true decodeAssignmentEntry Wire.decodeAssignmentEntry := by
    refine .bind .string fun _ => .need fun x hx => ?_
    exact .field (by omega) (.field (by omega) (.skip hx (.pure _)))
  refine .bind .string fun _ => .need fun x hx => .field (by omega) (.field (by omega) (.skip hx ?_))
  exact .bind (.times hentry) fun _ => .pure _

theorem decodeListGroupOffsetsResponse_follows :
    Follows true decodeListGroupOffsetsResponse Wire.decodeListGroupOffsetsResponse := by
  have hentry : Follows true decodeGroupOffsetEntry Wire.decodeGroupOffsetEntry := by
    refine .bind .string fun _ => .need fun x hx => ?_
    exact .field (by omega) (.field (by omega) (.field (by omega) (.skip hx (.pure _))))
  exact .bind (.count _) fun _ => .times hentry

end Checked

def Message.decoder (lz : Lz4) : (m : Message) → Decoder m.Value
  | handshakeRequest => decodeHandshakeRequest
  | produceRequest => decodeProduceRequest
  | produceResponse => decodeProduceResponse
  | produceBatchRequest => decodeProduceBatchRequest lz
  | produceBatchResponse => decodeProduceBatchResponse
  | fetchRequest => decodeFetchRequest
  | fetchResponse => decodeFetchResponse lz
  | metadataRequest | removeVoterRequest | describeGroupRequest | deleteTopicRequest | deleteGroupRequest | listGroupOffsetsRequest =>
    decodeName
  | metadataResponse => decodeMetadataResponse
  | highWaterRequest => decodeHighWaterRequest
  | highWaterResponse => decodeHighWaterResponse
  | listSegmentsRequest => decodeListSegmentsRequest
  | listSegmentsResponse => decodeListSegmentsResponse
  | fetchSegmentChunkRequest => decodeFetchSegmentChunkRequest
  | fetchSegmentChunkResponse => decodeFetchSegmentChunkResponse
  | clusterMembersRequest | clusterStatusRequest | listGroupsRequest | listTopicsRequest => decodeEmpty
  | clusterMembersResponse => decodeClusterMembersResponse
  | addVoterRequest => decodeAddVoterRequest
  | createTopicRequest => decodeCreateTopicRequest
  | clusterStatusResponse => decodeClusterStatusResponse
  | listGroupsResponse => decodeListGroupsResponse
  | describeGroupResponse => decodeDescribeGroupResponse
  | listTopicsResponse => decodeListTopicsResponse
  | updateTopicConfigRequest => decodeUpdateTopicConfigRequest
  | commitRequest => decodeCommitRequest
  | joinGroupRequest => decodeJoinGroupRequest
  | joinGroupResponse => decodeJoinGroupResponse
  | heartbeatRequest => decodeHeartbeatRequest
  | heartbeatResponse => decodeHeartbeatResponse
  | syncRequest => decodeSyncRequest
  | listGroupOffsetsResponse => decodeListGroupOffsetsResponse
  | leaveGroupRequest => decodeLeaveGroupRequest

theorem Message.follows (lz : Lz4) (m : Message) : ∃ keep, Checked.Follows keep (m.reading lz) (m.decoder lz) := by
  cases m with
  | handshakeRequest => exact ⟨_, Checked.decodeHandshakeRequest_follows⟩
  | produceRequest => exact ⟨_, Checked.decodeProduceRequest_follows⟩
  | produceResponse | metadataResponse | highWaterResponse => exact ⟨false, .need fun _ hx => .whole hx (.pure _)⟩
  | produceBatchRequest => exact ⟨_, Checked.decodeProduceBatchRequest_follows lz⟩
  | produceBatchResponse => exact ⟨false, .need fun _ hx => .field (by omega) (.field (by omega) (.pure _))⟩
  | fetchRequest =>
    refine ⟨false, .bind .string fun _ => .need fun _ hx => ?_⟩
    exact .field (by omega) (.field (by omega) (.field (by omega) (.field (by omega) (.byte (by omega) (.pure _)))))
  | fetchResponse => exact ⟨_, Checked.decodeFetchResponse_follows lz⟩
  | metadataRequest | removeVoterRequest | describeGroupRequest | deleteTopicRequest | deleteGroupRequest | listGroupOffsetsRequest =>
    exact ⟨_, .lastString⟩
  | highWaterRequest | listSegmentsRequest => exact ⟨_, Checked.decodePartitionAt_follows _⟩
  | listSegmentsResponse => exact ⟨_, Checked.decodeListSegmentsResponse_follows⟩
  | fetchSegmentChunkRequest =>
    refine ⟨false, .bind .string fun _ => .need fun _ hx => ?_⟩
    exact .field (by omega) (.field (by omega) (.byte (by omega) (.field (by omega) (.field (by omega) (.pure _)))))
  | fetchSegmentChunkResponse => exact ⟨_, .lastBytes⟩
  | clusterMembersRequest | clusterStatusRequest | listGroupsRequest | listTopicsRequest => exact ⟨true, .pure ()⟩
  | clusterMembersResponse => exact ⟨_, Checked.decodeClusterMembersResponse_follows⟩
  | addVoterRequest | leaveGroupRequest => exact ⟨false, .bind .string fun _ => .last .lastString⟩
  | createTopicRequest =>
    refine ⟨false, .bind .string fun _ => .need fun _ hx => ?_⟩
    exact .field (by omega) (.field (by omega) (.field (by omega) (.pure _)))
  | clusterStatusResponse =>
    refine ⟨false, .bind .string fun _ => .need fun _ hx => .byte (by omega) (.skip hx ?_)⟩
    exact .bind .string fun _ => .last .lastString
  | listGroupsResponse => exact ⟨_, Checked.decodeListGroupsResponse_follows⟩
  | describeGroupResponse => exact ⟨_, Checked.decodeDescribeGroupResponse_follows⟩
  | listTopicsResponse => exact ⟨_, Checked.decodeListTopicsResponse_follows⟩
  | updateTopicConfigRequest =>
    refine ⟨false, .bind .string fun _ => .need fun _ hx => ?_⟩
    exact .field (by omega) (.field (by omega) (.pure _))
  | commitRequest | heartbeatRequest =>
    refine ⟨false, .bind .string fun _ => .bind .string fun _ => .need fun _ hx => ?_⟩
    exact .field (by omega) (.field (by omega) (.pure _))
  | joinGroupRequest =>
    exact ⟨true, .bind .string fun _ => .bind .string fun _ => .bind (.count _) fun _ =>
      .bind (.times .string) fun _ => .pure _⟩
  | joinGroupResponse => exact ⟨_, Checked.decodeJoinGroupResponse_follows⟩
  | heartbeatResponse => exact ⟨false, .need fun _ hx => .byte (by omega) (.pure _)⟩
  | syncRequest => exact ⟨false, .bind .string fun _ => .need fun _ hx => .whole hx (.pure _)⟩
  | listGroupOffsetsResponse => exact ⟨_, Checked.decodeListGroupOffsetsResponse_follows⟩

/-- A Decode function returns what the plain decoder of the kind returns. -/
theorem Message.decode_eq (lz : Lz4) (m : Message) (hb : b.length < 2 ^ 32) :
    m.decode lz b = ((m.decoder lz b).map Prod.fst).mapError .err := by
  obtain ⟨keep, h⟩ := m.follows lz
  exact (h b hb).value

theorem Message.decode_ne_fault (lz : Lz4) (m : Message) (hb : b.length < 2 ^ 32) : m.decode lz b ≠ .error .fault := by
  rw [m.decode_eq lz hb]
  cases m.decoder lz b <;> exact nofun

end Holocron.Wire
