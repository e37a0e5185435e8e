import Holocron.Proto.Stored
import Holocron.Theorems.Log.Frame
import Holocron.Theorems.Proto.Checked

/-! Decoders of stored bytes are as safe as those of the wire protocol, and frames on disk are frames of a fetch answer. -/

namespace Holocron
open Lib Lib.Checked List

namespace Log.Checked
open Wire.Checked (decodeString_reads decodeBytes_reads decodeBytes_eq)

/-- The two readers of bytes differ in their errors only. -/
theorem readBytes_eq (b : Bytes) : readBytes b = relabel (fun _ => .unexpectedEOF) (Wire.Checked.decodeBytes b) := by
  simp only [Wire.Checked.decodeBytes, relabel_ite, relabel_bind, relabel_sliceBetween]
  rfl

/-- Both fail, or both succeed with related results. -/
def Alike {ε δ α β : Type} (R : α → β → Prop) (r : Checked ε α) (r' : Checked δ β) : Prop :=
  (∃ x y, r = .ok x ∧ r' = .ok y ∧ R x y) ∨ ∃ e e', r = .error (.err e) ∧ r' = .error (.err e')

theorem Alike.bind {ε δ α β α' β' : Type} {R : α → β → Prop} {S : α' → β' → Prop} {r : Checked ε α} {r' : Checked δ β}
    {f : α → Checked ε α'} {g : β → Checked δ β'} (h : Alike R r r') (hf : ∀ x y, R x y → Alike S (f x) (g y)) :
    Alike S (r.bind f) (r'.bind g) := by
  rcases h with ⟨x, y, rfl, rfl, hxy⟩ | ⟨e, e', rfl, rfl⟩
  · exact hf x y hxy
  · exact .inr ⟨e, e', rfl, rfl⟩

section
variable {b : Bytes} (hb : b.length < 2 ^ 32)
include hb

theorem onRest_readBytes {i : Nat} (hi : i ≤ b.length) :
    Alike (fun x y => x = y ∧ i + x.2 ≤ b.length) (onRest Wire.Checked.decodeBytes b i) (onRest readBytes b i) := by
  have hread : onRest readBytes b i = relabel (fun _ => .unexpectedEOF) (onRest Wire.Checked.decodeBytes b i) := by
    rw [onRest, onRest, sliceFrom_of_le hi, sliceFrom_of_le hi]
    exact readBytes_eq _
  rw [hread]
  rcases decodeBytes_reads.onRest hb hi with ⟨s, n, hn, hf, -⟩ | ⟨e, hf, -⟩
  · rw [hf]
    exact .inl ⟨_, _, rfl, rfl, rfl, hn⟩
  · rw [hf]
    exact .inr ⟨e, _, rfl, rfl⟩

/-- A key: a string on the wire, bytes that become a string on disk. -/
theorem onRest_readKey {i : Nat} (hi : i ≤ b.length) :
    Alike (fun x y => x = (Slice.bytes y.1, y.2) ∧ i + y.2 ≤ b.length) (onRest Wire.Checked.decodeString b i)
      (onRest readBytes b i) := by
  have hlen : (b.drop i).length < 2 ^ 32 := by
    rw [length_drop]
    omega
  have hkey : onRest Wire.Checked.decodeBytes b i = (onRest Wire.Checked.decodeString b i).map fun r =>
      (Slice.norm (some r.1), r.2) := by
    rw [onRest, onRest, sliceFrom_of_le hi]
    exact decodeBytes_eq hlen
  have hread := onRest_readBytes hb hi
  rw [hkey] at hread
  rcases decodeString_reads.onRest hb hi with ⟨k, n, hn, hf, -⟩ | ⟨e, hf, -⟩
  · rw [hf] at hread ⊢
    obtain ⟨_, _, heq, hs, rfl, -⟩ | ⟨e, e', heq, -⟩ := hread
    · cases heq
      exact .inl ⟨_, _, rfl, hs, by rw [bytes_norm_some], hn⟩
    · cases heq
  · rw [hf] at hread ⊢
    obtain ⟨_, _, heq, -⟩ | ⟨e₁, e', -, hs⟩ := hread
    · cases heq
    · exact .inr ⟨e, e', rfl, hs⟩

theorem readHeaders_wire (count : Nat) {p : Nat} (hp : p ≤ b.length) :
    Alike (fun x hs => x.1 = hs) (Wire.Checked.decodeHeaders b count p) (readHeaders b count p) := by
  induction count generalizing p with
  | zero => exact .inl ⟨_, _, rfl, rfl, rfl⟩
  | succ count ih =>
    refine (onRest_readKey hb hp).bind ?_
    rintro _ ⟨hk, n⟩ ⟨rfl, hn⟩
    refine (onRest_readBytes hb hn).bind ?_
    rintro ⟨hv, m⟩ _ ⟨rfl, hm⟩
    refine (ih hm).bind ?_
    rintro ⟨hs, p'⟩ _ rfl
    exact .inl ⟨_, _, rfl, rfl, rfl⟩

theorem decodeBody_wire : Alike (fun x r => x.1 = r) (Wire.Checked.decodeRecord b) (decodeBody b) := by
  unfold decodeBody Wire.Checked.decodeRecord
  by_cases h16 : b.length < 16
  · rw [if_pos h16, if_pos h16]
    exact .inr ⟨_, _, rfl, rfl⟩
  rw [if_neg h16, if_neg h16]
  simp only [bind, sliceBetween_of_le (Nat.zero_le 8) (show 8 ≤ b.length by omega),
    sliceBetween_of_le (show 8 ≤ 16 by omega) (show 16 ≤ b.length by omega)]
  refine (onRest_readBytes hb (Nat.not_lt.mp h16)).bind ?_
  rintro ⟨key, n⟩ _ ⟨rfl, hn⟩
  refine (onRest_readBytes hb hn).bind ?_
  rintro ⟨value, m⟩ _ ⟨rfl, hm⟩
  simp only [sliceFrom_of_le hm, Except.bind]
  have hlen : (b.drop (16 + n + m)).length = b.length - (16 + n + m) := length_drop
  by_cases h4 : (b.drop (16 + n + m)).length < 4
  · rw [if_pos h4, if_pos h4]
    exact .inr ⟨_, _, rfl, rfl⟩
  simp only [if_neg h4, sliceBetween_of_le (Nat.le_add_right (16 + n + m) 4) (show 16 + n + m + 4 ≤ b.length by omega)]
  refine (readHeaders_wire hb _ (show 16 + n + m + 4 ≤ b.length by omega)).bind ?_
  rintro ⟨hs, p⟩ _ rfl
  exact .inl ⟨_, _, rfl, rfl, rfl⟩

end

/-- What is read from a reader depends on the bytes that are left in it. -/
theorem readRecordFrom_fst (r : Reader) : (readRecordFrom r).1 =
    let b := r.rest
    let bodyLen := ofBigEndian (b.take 4)
    let body := (b.drop 4).take bodyLen
    let crc := ((b.drop 4).drop bodyLen).take 4
    if (b.take 4).length = 0 then fail .eof
    else if (b.take 4).length < 4 then fail .unexpectedEOF
    else if body.length < bodyLen then fail .unexpectedEOF
    else if crc.length < 4 then fail .unexpectedEOF
    else if (checksum body).toNat ≠ ofBigEndian crc then fail .tornFrame
    else (decodeBody body).map fun rec => (rec, 4 + bodyLen + 4) := by
  unfold readRecordFrom
  simp only [Reader.readFull_bytes, Reader.readFull_rest]
  repeat' split
  all_goals rfl

variable {r : Reader}

theorem readRecordFrom_of_lt (h : r.rest.length < 4 ∨ r.rest.length < 4 + ofBigEndian (r.rest.take 4) + 4) :
    ∃ e, (readRecordFrom r).1 = fail e := by
  rw [readRecordFrom_fst]
  dsimp only
  generalize r.rest = b at h ⊢
  split
  · exact ⟨_, rfl⟩
  split
  · exact ⟨_, rfl⟩
  split
  · exact ⟨_, rfl⟩
  · rename_i hbody
    rw [if_pos]
    · exact ⟨_, rfl⟩
    · rw [length_take, length_drop, length_drop]
      omega

theorem readRecordFrom_eq {bodyLen : Nat} (hlen : ofBigEndian (r.rest.take 4) = bodyLen)
    (htotal : 4 + bodyLen + 4 ≤ r.rest.length) : (readRecordFrom r).1 =
      if (checksum ((r.rest.drop 4).take bodyLen)).toNat ≠ ofBigEndian ((r.rest.drop (4 + bodyLen)).take 4) then fail .tornFrame
      else (decodeBody ((r.rest.drop 4).take bodyLen)).map fun rec => (rec, 4 + bodyLen + 4) := by
  rw [readRecordFrom_fst]
  dsimp only
  rw [hlen, drop_drop, if_neg, if_neg, if_neg, if_neg]
  all_goals
    simp only [length_take, length_drop]
    omega

theorem readRecordFrom_rest {rec : Record} {n : Nat} (h : (readRecordFrom r).1 = .ok (rec, n)) :
    (readRecordFrom r).2.rest = r.rest.drop n := by
  -- the three reads of a frame that is accepted
  have hrest : (((r.readFull 4).2.readFull (ofBigEndian (r.readFull 4).1)).2.readFull 4).2.rest =
      r.rest.drop (4 + ofBigEndian (r.readFull 4).1 + 4) := by
    rw [Reader.readFull_rest, Reader.readFull_rest, Reader.readFull_rest, drop_drop, drop_drop, Nat.add_assoc]
  unfold readRecordFrom at h ⊢
  dsimp only at h ⊢
  split at h
  · cases h
  split at h
  · cases h
  split at h
  · cases h
  split at h
  · cases h
  split at h
  · cases h
  rename_i h₁ h₂ h₃ h₄ h₅
  rw [if_neg h₁, if_neg h₂, if_neg h₃, if_neg h₄, if_neg h₅]
  cases hbody : decodeBody ((r.readFull 4).2.readFull (ofBigEndian (r.readFull 4).1)).1 with
  | error s =>
    rw [hbody] at h
    cases h
  | ok rec' =>
    rw [hbody] at h
    cases h
    exact hrest

/-- A frame from disk and a frame of a fetch answer are accepted in the same cases. -/
theorem readRecordFrom_wire (hb : r.rest.length < 2 ^ 32) :
    (∃ x, (readRecordFrom r).1 = .ok x ∧ Wire.Checked.decodeFramedRecord r.rest = .ok x) ∨
      ∃ e e', (readRecordFrom r).1 = .error (.err e) ∧ Wire.Checked.decodeFramedRecord r.rest = .error (.err e') := by
  by_cases hlt : r.rest.length < 4 ∨ r.rest.length < 4 + ofBigEndian (r.rest.take 4) + 4
  · obtain ⟨e, he⟩ := readRecordFrom_of_lt hlt
    rw [he, Wire.Checked.decodeFramedRecord_of_lt hlt]
    exact .inr ⟨e, _, rfl, rfl⟩
  · have htotal := Nat.not_lt.mp (not_or.mp hlt).2
    rw [readRecordFrom_eq rfl htotal, Wire.Checked.decodeFramedRecord_eq hb rfl htotal]
    split
    · exact .inr ⟨_, _, rfl, rfl⟩
    · have hbody : ((r.rest.drop 4).take (ofBigEndian (r.rest.take 4))).length < 2 ^ 32 := by
        rw [length_take]
        omega
      rcases decodeBody_wire hbody with ⟨_, _, hw, hl, rfl⟩ | ⟨e, e', hw, hl⟩
      · rw [hw, hl]
        exact .inl ⟨_, rfl, rfl⟩
      · rw [hw, hl]
        exact .inr ⟨e', e, rfl, rfl⟩

end Log.Checked

/-- Frames on disk are frames of a fetch answer: the encoders write the same bytes, and a reader over less than 2^31
    bytes accepts a frame exactly if the decoder of the wire protocol does, with the same record and the same number of
    bytes. -/
theorem frames_same : (∀ r, Log.encodeRecord r = Wire.encodeFramedRecord r) ∧
    ∀ r : Reader, r.rest.length < 2 ^ 31 →
      (∀ rec n, (Log.Checked.readRecordFrom r).1 = .ok (rec, n) ↔ Wire.Checked.decodeFramedRecord r.rest = .ok (rec, n)) ∧
        ∀ rec n, (Log.Checked.readRecordFrom r).1 = .ok (rec, n) → (Log.Checked.readRecordFrom r).2.rest = r.rest.drop n := by
  refine ⟨fun _ => rfl, fun r hb => ⟨fun rec n => ?_, fun rec n => Log.Checked.readRecordFrom_rest⟩⟩
  rcases Log.Checked.readRecordFrom_wire (r := r) (by omega) with ⟨x, hl, hw⟩ | ⟨e, e', hl, hw⟩
  · rw [hl, hw]
    exact ⟨congrArg _ ∘ Except.ok.inj, congrArg _ ∘ Except.ok.inj⟩
  · rw [hl, hw]
    exact ⟨nofun, nofun⟩

def oneFrame : Reader := .new ⟨Log.encodeRecord ⟨7, 5, some [107], some [118], []⟩ ++ [0], 0, false, false⟩

theorem frames_same_one : (Log.Checked.readRecordFrom oneFrame).1 = .ok (⟨7, 5, some [107], some [118], []⟩, 38) ∧
    (Log.Checked.readRecordFrom oneFrame).2.rest = [0] := by
  have hlen : oneFrame.rest.length < 2 ^ 31 := by decide +kernel
  have hframe : Wire.Checked.decodeFramedRecord oneFrame.rest = .ok (⟨7, 5, some [107], some [118], []⟩, 38) :=
    by decide +kernel
  obtain ⟨haccepts, hrest⟩ := frames_same.2 oneFrame hlen
  have hread := (haccepts _ _).mpr hframe
  exact ⟨hread, (hrest _ _ hread).trans (by decide +kernel)⟩

namespace Cluster.Checked
open Wire Wire.Checked Cursor

theorem decodeAppend_agrees : Agrees (2 ^ 32) false decodeAppend Cluster.decodeAppend := by
  have hrequest : Agrees (2 ^ 32) false Checked.decodeProduceRequest decodeProduceRequest := decodeProduceRequest_follows
  refine Agrees.bind decodeString_reads.next fun topic => agrees_block fun x hx => ?_
  exact .field (by omega) (.field (by omega) (.skip hx hrequest.last))

theorem decodeCreateTopic_agrees : Agrees (2 ^ 32) false decodeCreateTopic Cluster.decodeCreateTopic := by
  refine Agrees.bind decodeString_reads.next fun name => agrees_block fun x hx => ?_
  exact .field (by omega) (.field (by omega) (.field (by omega) (.pure _)))

theorem decodeUpdateTopicConfig_agrees : Agrees (2 ^ 32) false decodeUpdateTopicConfig Cluster.decodeUpdateTopicConfig := by
  refine Agrees.bind decodeString_reads.next fun name => agrees_block fun x hx => ?_
  exact .field (by omega) (.field (by omega) (.pure _))

theorem decodeDeleteTopic_agrees : Agrees (2 ^ 32) false decodeDeleteTopic Cluster.decodeDeleteTopic :=
  decodeString_reads.peek.last

theorem decoded_eq {α : Type} {d : Reading α} {p : Decoder α} (h : Agrees (2 ^ 32) false d p) (wrap : α → Command)
    {body : Bytes} (hb : body.length < 2 ^ 32) : decoded d wrap body = (Cluster.decoded p wrap body).mapError .err := by
  have hmatch := h body hb
  unfold decoded Cluster.decoded
  generalize d body = r, p body = r' at hmatch
  cases hmatch <;> rfl

theorem decodeKind_eq (kind : UInt8) {body : Bytes} (hb : body.length < 2 ^ 32) :
    decodeKind kind body = (Cluster.decode (kind :: body)).mapError .err := by
  unfold decodeKind Cluster.decode
  dsimp only
  rw [decoded_eq decodeAppend_agrees _ hb, decoded_eq decodeCreateTopic_agrees _ hb,
    decoded_eq decodeDeleteTopic_agrees _ hb, decoded_eq decodeUpdateTopicConfig_agrees _ hb]
  repeat' split
  all_goals rfl

theorem decode_eq {b : Bytes} (hb : b.length < 2 ^ 32) : decode b = (Cluster.decode b).mapError .err := by
  cases b with
  | nil => rfl
  | cons kind body => exact decodeKind_eq kind (Nat.lt_of_succ_lt hb)

end Cluster.Checked

namespace Broker.Checked
open Cursor

theorem decodeDedupKey_eq (b : Bytes) :
    (decodeDedupKey b).map Prod.fst = match Holocron.decodeDedupKey b with | none => .error (.err ()) | some x => .ok x := by
  unfold decodeDedupKey Holocron.decodeDedupKey
  simp only [bind, StateT.bind]
  by_cases h4 : b.length < 4
  · rw [need_of_lt h4, if_pos h4]
    rfl
  rw [need_of_le (Nat.not_lt.mp h4), if_neg h4]
  dsimp only [Except.bind]
  rw [field_of_le (Nat.zero_le 4) (Nat.not_lt.mp h4)]
  dsimp only [Except.bind]
  rw [skip_of_le (Nat.not_lt.mp h4), part_zero]
  dsimp only [Except.bind]
  generalize ofBigEndian (b.take 4) = pidLen
  generalize b.drop 4 = b
  by_cases hpid : b.length < pidLen + 4
  · rw [need_of_lt hpid, if_pos hpid]
    rfl
  have hpid' := Nat.not_lt.mp hpid
  have hlen : (b.drop pidLen).length = b.length - pidLen := length_drop
  rw [need_of_le hpid', if_neg hpid]
  dsimp only [Except.bind]
  rw [field_of_le (Nat.zero_le pidLen) (by omega)]
  dsimp only [Except.bind]
  rw [skip_of_le (by omega), part_zero]
  dsimp only [Except.bind]
  rw [field_of_le (Nat.zero_le 4) (by omega)]
  dsimp only [Except.bind]
  rw [skip_of_le (by omega), part_zero]
  dsimp only [Except.bind]
  generalize ofBigEndian ((b.drop pidLen).take 4) = topicLen
  generalize (b.drop pidLen).drop 4 = b
  by_cases htopic : b.length < topicLen + 4
  · rw [need_of_lt htopic, if_pos htopic]
    rfl
  have htopic' := Nat.not_lt.mp htopic
  have hlen : (b.drop topicLen).length = b.length - topicLen := length_drop
  rw [need_of_le htopic', if_neg htopic]
  dsimp only [Except.bind]
  rw [field_of_le (Nat.zero_le topicLen) (by omega)]
  dsimp only [Except.bind]
  rw [skip_of_le (by omega)]
  dsimp only [Except.bind]
  rw [field_of_le (Nat.zero_le 4) (by omega)]
  rfl

theorem decodeDedupValue_eq (b : Bytes) :
    (decodeDedupValue b).map Prod.fst =
      match Holocron.decodeDedupValue b with | none => .error (.err ()) | some x => .ok x := by
  unfold decodeDedupValue Holocron.decodeDedupValue
  by_cases h24 : b.length ≠ 24
  · rw [if_pos h24, if_pos h24]
    rfl
  · rw [if_neg h24, if_neg h24, sliceBetween_of_le (by omega) (by omega), sliceBetween_of_le (by omega) (by omega),
      sliceBetween_of_le (by omega) (by omega)]
    rfl

end Broker.Checked

/-- No decoder indexes or slices out of range on less than 2^31 bytes: those of the wire protocol, of the Raft commands,
    of the dedup checkpoints and of the frames on disk. -/
theorem decoders_never_fault (lz : Wire.Lz4) {b : Bytes} (hb : b.length < 2 ^ 31) :
    (∀ m : Wire.Message, m.decode lz b ≠ .error .fault) ∧
      Cluster.Checked.decode b ≠ .error .fault ∧ (∀ kind, Cluster.Checked.decodeKind kind b ≠ .error .fault) ∧
      (Broker.Checked.decodeDedupKey b).map Prod.fst ≠ .error .fault ∧
        (Broker.Checked.decodeDedupValue b).map Prod.fst ≠ .error .fault ∧
      ∀ r : Reader, r.rest = b → (Log.Checked.readRecordFrom r).1 ≠ .error .fault := by
  have hlt : b.length < 2 ^ 32 := by omega
  refine ⟨fun m => m.decode_ne_fault lz hlt, ?_, fun kind => ?_, ?_, ?_, ?_⟩
  · rw [Cluster.Checked.decode_eq hlt]
    cases Cluster.decode b <;> exact nofun
  · rw [Cluster.Checked.decodeKind_eq kind hlt]
    cases Cluster.decode (kind :: b) <;> exact nofun
  · rw [Broker.Checked.decodeDedupKey_eq]
    cases decodeDedupKey b <;> exact nofun
  · rw [Broker.Checked.decodeDedupValue_eq]
    cases decodeDedupValue b <;> exact nofun
  · rintro r rfl
    rcases Log.Checked.readRecordFrom_wire hlt with ⟨x, hl, -⟩ | ⟨e, e', hl, -⟩
    · rw [hl]
      exact nofun
    · rw [hl]
      exact nofun

theorem decoders_never_fault_huge_length :
    ([255, 255, 255, 255] : Bytes).length < 2 ^ 31 ∧ ∀ m :
      Wire.Message, m.decode ⟨fun _ => none, fun _ _ => none⟩ [255, 255, 255, 255] ≠ .error .fault :=
  ⟨by decide, (decoders_never_fault ⟨fun _ => none, fun _ _ => none⟩ (by decide)).1⟩

end Holocron
