import Holocron.Cluster.Command
import Holocron.Theorems.Proto.Wire

/-! A command shorter than 32 bits of length comes back, a longer one may be refused, but never with another timestamp. -/

namespace Holocron.Cluster
open Lib Wire List

variable {d : AppendCommand}

theorem decodeAppend_timestamp {c : AppendCommand} (h : c.topic.length < 2 ^ 32) {t : Bytes}
    (hd : decodeAppend (encodeString c.topic ++ encodeInt32 c.partition ++ encodeOffset c.offset ++
      (ProduceRequest.mk c.topic c.partition c.record).encode) = .ok (d, t)) :
    d.record.timestamp = c.record.timestamp := by
  simp only [ProduceRequest.encode, append_assoc] at hd
  have hstring : ∀ rest x b, decodeString (encodeString c.topic ++ rest) = .ok (x, b) → b = rest := by
    intro rest x b hb
    rcases decodeString_encode h rest with hok | herr
    · exact (Prod.mk.inj (Except.ok.inj (hb.symm.trans hok))).2
    · cases hb.symm.trans herr
  obtain ⟨_, b₁, h₁, hd⟩ := Decoder.of_bind hd
  obtain rfl := hstring _ _ _ h₁
  obtain ⟨_, b₂, h₂, hd⟩ := Decoder.of_bind hd
  rw [← append_assoc, block_append _ (by simp)] at h₂
  obtain ⟨-, rfl⟩ := Prod.mk.inj (Except.ok.inj h₂)
  obtain ⟨req, b₃, hreq, hd⟩ := Decoder.of_bind hd
  obtain ⟨_, b₄, h₄, hreq⟩ := Decoder.of_bind hreq
  obtain rfl := hstring _ _ _ h₄
  obtain ⟨_, b₅, h₅, hreq⟩ := Decoder.of_bind hreq
  rw [block_append _ (length_encodeInt32 c.partition)] at h₅
  obtain ⟨-, rfl⟩ := Prod.mk.inj (Except.ok.inj h₅)
  obtain ⟨r, b₆, hr, hreq⟩ := Decoder.of_bind hreq
  rw [← append_nil (encodeRecord c.record)] at hr
  rw [Decoder.of_pure hd, Decoder.of_pure hreq]
  exact decodeRecord_timestamp hr

variable {c : Command} {α : Type}

theorem decoded_ok {d : Decoder α} {wrap : α → Command} {body : Bytes}
    (h : decoded d wrap body = .ok c) : ∃ x t, d body = .ok (x, t) ∧ c = wrap x := by
  cases hd : d body with
  | error e => simp [decoded, hd] at h
  | ok p =>
    simp only [decoded, hd, Except.ok.injEq] at h
    exact ⟨p.1, p.2, rfl, h.symm⟩

/-- Only an append decodes to one, and a submitted append keeps its timestamp. -/
theorem timestamp_of_decode (h : decode c.encode = .ok (.append d)) :
    ∃ a, c = .append a ∧ (a.topic.length < 2 ^ 32 → d.record.timestamp = a.record.timestamp) := by
  cases c with
  | append a =>
    obtain ⟨x, t, hx, heq⟩ := decoded_ok (h : decoded decodeAppend .append _ = _)
    cases heq
    exact ⟨a, rfl, fun hlen => decodeAppend_timestamp hlen hx⟩
  | createTopic a =>
    obtain ⟨x, t, -, heq⟩ := decoded_ok (h : decoded decodeCreateTopic .createTopic _ = _)
    cases heq
  | deleteTopic a =>
    obtain ⟨x, t, -, heq⟩ := decoded_ok (h : decoded decodeDeleteTopic .deleteTopic _ = _)
    cases heq
  | updateTopicConfig a =>
    obtain ⟨x, t, -, heq⟩ := decoded_ok (h : decoded decodeUpdateTopicConfig .updateTopicConfig _ = _)
    cases heq

def Command.norm : Command → Command
  | .append c => .append { c with record := { c.record.norm with offset := offsetOf (encodeOffset c.record.offset) } }
  | c => c

theorem decodeAppend_takes {c : AppendCommand} (hoff : Signed 8 c.offset) :
    Takes decodeAppend (encodeString c.topic ++ ((encodeInt32 c.partition ++ encodeOffset c.offset) ++
        (encodeString c.topic ++ (encodeInt32 c.partition ++ encodeRecord c.record))))
      { c with record := { c.record.norm with offset := offsetOf (encodeOffset c.record.offset) } } := by
  have hreq : Takes decodeProduceRequest (encodeString c.topic ++ (encodeInt32 c.partition ++ encodeRecord c.record))
      ⟨c.topic, c.partition, { c.record.norm with offset := offsetOf (encodeOffset c.record.offset) }⟩ := by
    refine .bind (.string c.topic) (.bind (.block _ (length_encodeInt32 _)) ?_)
    rw [int32_encode]
    exact (decodeRecord_takes c.record).map
  refine .bind (.string c.topic) (.bind (.block _ (by simp)) ?_)
  rw [slice_left (length_encodeInt32 _), slice_right (by simp), length_encodeInt32, slice_all (length_encodeOffset _),
    int32_encode, offset_encode hoff]
  exact hreq.map

theorem decodeCreateTopic_takes (c : CreateTopicCommand) :
    Takes decodeCreateTopic (encodeString c.name ++
      (encodeInt32 c.partitionCount ++ (encodeInt64 c.retentionMs ++ encodeInt64 c.segmentBytes))) c := by
  refine .bind (.string c.name) (.fields (by simp) ?_)
  simp

theorem decodeUpdateTopicConfig_takes (c : UpdateTopicConfigCommand) :
    Takes decodeUpdateTopicConfig (encodeString c.name ++ (encodeInt64 c.retentionMs ++ encodeInt64 c.segmentBytes)) c := by
  refine .bind (.string c.name) (.fields (by simp) ?_)
  simp

theorem decoded_takes {d : Decoder α} {e : Bytes} {v : α} (h : Takes d e v) (hlen : e.length < 2 ^ 32) (wrap : α → Command) :
    decoded d wrap e = .ok (wrap v) := by
  rw [decoded, h.whole hlen]

theorem decode_encode (h : c.encode.length < 2 ^ 32) (hoff : ∀ a, c = .append a → Signed 8 a.offset) :
    decode c.encode = .ok c.norm := by
  cases c with
  | append a =>
    simp only [Command.encode, encodeAppend, ProduceRequest.encode, append_assoc] at h ⊢
    rw [← append_assoc (encodeInt32 a.partition)] at h ⊢
    exact decoded_takes (decodeAppend_takes (hoff a rfl)) (Nat.lt_of_succ_lt h) .append
  | createTopic a =>
    simp only [Command.encode, encodeCreateTopic, append_assoc] at h ⊢
    exact decoded_takes (decodeCreateTopic_takes a) (Nat.lt_of_succ_lt h) .createTopic
  | deleteTopic a => exact decoded_takes (d := decodeDeleteTopic) (Takes.string a.name).map (Nat.lt_of_succ_lt h) .deleteTopic
  | updateTopicConfig a =>
    simp only [Command.encode, encodeUpdateTopicConfig, append_assoc] at h ⊢
    exact decoded_takes (decodeUpdateTopicConfig_takes a) (Nat.lt_of_succ_lt h) .updateTopicConfig

end Holocron.Cluster
