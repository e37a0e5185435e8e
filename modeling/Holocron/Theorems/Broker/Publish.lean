import Holocron.Broker.Broker
import Holocron.Theorems.Storage.Contract

/-! What one call of `Publish` does to records and checkpoints, over any store that keeps the contract: nothing, or it
    adds one record. -/

namespace Holocron
open Lib Storage List Function

theorem lastHeader_norm (key : Bytes) (headers : List Header) :
    lastHeader key (headers.map Header.norm) = (lastHeader key headers).map Slice.norm := by
  have hfold : ∀ found,
      (headers.map Header.norm).foldl (fun found h => if h.key = key then some h.value else found) (found.map Slice.norm) =
        (headers.foldl (fun found h => if h.key = key then some h.value else found) found).map Slice.norm := by
    induction headers with
    | nil => exact fun _ => rfl
    | cons h headers ih =>
      intro found
      by_cases hkey : h.key = key
      · simpa [hkey, Header.norm] using ih (some h.value)
      · simpa [hkey, Header.norm] using ih found
  exact hfold none

/-- The log's normalisation of empty byte strings is no matter to deduplication. -/
theorem producerIdempKey_norm (r : Record) : producerIdempKey r.norm = producerIdempKey r := by
  simp only [producerIdempKey, Record.norm, lastHeader_norm]
  cases lastHeader headerProducerID r.headers with
  | none => rfl
  | some id =>
    cases lastHeader headerProducerSeq r.headers with
    | none => rfl
    | some seq => simp [Slice.bytes_norm]

theorem producerIdempKey_of_norm {r s : Record} (h : r.norm = s.norm) : producerIdempKey r = producerIdempKey s := by
  rw [← producerIdempKey_norm r, h, producerIdempKey_norm]

@[simp] theorem producerIdempKey_stamp (now : Int64) (offset : Int) (r : Record) :
    producerIdempKey (stamp now offset r) = producerIdempKey r := rfl

@[simp] theorem producerIdempKey_dedupRecord (id : Bytes) (p : PartitionRef) (cp : ProducerCheckpoint) :
    producerIdempKey (dedupRecord id p cp) = none := rfl

namespace Broker

variable {σ : Type}

@[simp] theorem stamp_withTimestamp (now : Int64) (offset : Int) (r : Record) :
    stamp now offset (withTimestamp now r) = stamp now offset r := by
  by_cases h : r.timestamp = 0
  · simp [stamp, withTimestamp, h, ↓reduceIte]
  · simp only [withTimestamp, h, ↓reduceIte]

def dedup (b : Broker σ) (p : PartitionRef) : Bytes → Option ProducerCheckpoint := (b.partitions p).dedup

def noted (dedup : Bytes → Option ProducerCheckpoint) (now : Int64) (offset : Int) :
    Option (Bytes × UInt64) → Bytes → Option ProducerCheckpoint
  | none => dedup
  | some (id, seq) => Function.update dedup id (some ⟨seq, offset, now⟩)

/-- The store has room for the record, and after it for its checkpoint. -/
def HasRoom [Store σ] [Contract σ] (b : Broker σ) (c : Call) : Prop :=
  Fits b.store c.now c.p c.record ∧
    ∀ s' n, Store.append b.store c.ctx c.now c.p (withTimestamp c.now c.record) = (.ok n, s') → ∀ id seq,
      producerIdempKey c.record = some (id, seq) → Fits s' c.now ⟨b.dedupTopic, 0⟩ (dedupRecord id c.p ⟨seq, n, c.now⟩)

theorem hasRoom_memory (b : Broker MemoryStore) (c : Call) : b.HasRoom c :=
  ⟨fun _ _ _ => trivial, fun _ _ _ _ _ _ _ _ _ => trivial⟩

/-- What a call may do: nothing, where it fails or the partition has a record of the producer that is not
    older, or else store the record. Other partitions may only get a checkpoint's record. -/
inductive Outcome (b : Broker σ) (m : Contents) (c : Call) : Except BrokerError Int → Broker σ → Contents → Prop where
  | refused (e : BrokerError) : Outcome b m c (.error e) b m
  | duplicate {id : Bytes} {seq : UInt64} {cp : ProducerCheckpoint} (key : producerIdempKey c.record = some (id, seq))
      (last : b.dedup c.p id = some cp) (le : seq ≤ cp.lastSeq) : Outcome b m c (.ok cp.lastOffset) b m
  | appended {res : Except BrokerError Int} {b' : Broker σ} {m' : Contents} {r : Record}
      (valid : b.validate c.p = .ok ()) (same : r.norm = (stamp c.now (m c.p).length c.record).norm)
      (fresh : (b.partitions c.p).duplicate (producerIdempKey c.record) = none)
      (stored : m' c.p = m c.p ++ [r])
      (others : ∀ q ≠ c.p, ∃ extra, m' q = m q ++ extra ∧ ∀ x ∈ extra, producerIdempKey x = none)
      (checkpoint : b'.dedup c.p = noted (b.dedup c.p) c.now (m c.p).length (producerIdempKey c.record))
      (kept : ∀ q ≠ c.p, b'.dedup q = b.dedup q)
      (offset : ∀ n, res = .ok n → n = (m c.p).length) : Outcome b m c res b' m'

variable [Store σ]

theorem persistDedupCheckpoint_partitions (b : Broker σ) (now : Int64) (id : Bytes) (p : PartitionRef)
    (cp : ProducerCheckpoint) : (b.persistDedupCheckpoint now id p cp).partitions = b.partitions := by
  unfold persistDedupCheckpoint
  split <;> rfl

theorem remember_dedup (b : Broker σ) (now : Int64) (p : PartitionRef) (offset : Int) (key : Option (Bytes × UInt64)) :
    (b.remember now p offset key).dedup p = noted (b.dedup p) now offset key ∧
      ∀ q ≠ p, (b.remember now p offset key).dedup q = b.dedup q := by
  cases key with
  | none => exact ⟨rfl, fun _ _ => rfl⟩
  | some key =>
    obtain ⟨id, seq⟩ := key
    have hparts : (b.remember now p offset (some (id, seq))).partitions =
        (b.setPartition p ⟨(b.partitions p).subscribers,
          update (b.partitions p).dedup id (some ⟨seq, offset, now⟩)⟩).partitions := by
      simp only [remember]
      split
      · exact persistDedupCheckpoint_partitions _ _ _ _ _
      · rfl
    unfold dedup
    rw [hparts]
    refine ⟨?_, fun q hq => ?_⟩
    · simp [setPartition, noted]
    · simp [setPartition, update_of_ne hq]

variable {b : Broker σ} {key : Option (Bytes × UInt64)} {m : Contents} {cp : ProducerCheckpoint} {ps : PartitionState}
    {offset : Int} {id : Bytes}

theorem remember_rep [Contract σ] (rep : Contract.Rep b.store m) (now : Int64) (p : PartitionRef) (offset : Int)
    (key : Option (Bytes × UInt64))
    (room : ∀ id seq, key = some (id, seq) → Fits b.store now ⟨b.dedupTopic, 0⟩ (dedupRecord id p ⟨seq, offset, now⟩)) :
    ∃ m', Contract.Rep (b.remember now p offset key).store m' ∧ m' p = m p ∧
      ∀ q ≠ p, ∃ extra, m' q = m q ++ extra ∧ ∀ x ∈ extra, producerIdempKey x = none := by
  have hsame : ∀ q ≠ p, ∃ extra, m q = m q ++ extra ∧ ∀ x ∈ extra, producerIdempKey x = none :=
    fun q _ => ⟨[], (append_nil _).symm, by simp⟩
  cases key with
  | none => exact ⟨m, rep, rfl, hsame⟩
  | some key =>
    obtain ⟨id, seq⟩ := key
    by_cases hskip : p.topic = b.dedupTopic
    · exact ⟨m, by simpa [remember, setPartition, hskip] using rep, rfl, hsame⟩
    by_cases hnone : b.dedupTopic = []
    · refine ⟨m, ?_, rfl, hsame⟩
      simpa [remember, setPartition, persistDedupCheckpoint, hnone] using rep
    let d : PartitionRef := ⟨b.dedupTopic, 0⟩
    obtain ⟨s', happ, rep'⟩ := Contract.append rep (p := d) now ((room id seq rfl).room rep)
    have hp : p ≠ d := fun h => hskip (by rw [h])
    have hstore : (b.remember now p offset (some (id, seq))).store = s' := by
      simp [remember, setPartition, hskip, persistDedupCheckpoint, hnone, d, happ]
    refine ⟨_, by rw [hstore]; exact rep', m.append_of_ne hp _, fun q _ => ?_⟩
    by_cases hq : q = d
    · subst hq
      refine ⟨_, m.append_self _ _, fun x hx => ?_⟩
      obtain rfl := mem_singleton.mp hx
      rw [producerIdempKey_of_norm (Contract.norm_view (σ := σ) _), producerIdempKey_stamp, producerIdempKey_dedupRecord]
    · exact ⟨[], by rw [m.append_of_ne hq, append_nil], by simp⟩

theorem duplicate_eq_some (h : ps.duplicate key = some offset) :
    ∃ id seq cp, key = some (id, seq) ∧ ps.dedup id = some cp ∧ seq ≤ cp.lastSeq ∧ cp.lastOffset = offset := by
  rcases key with _ | ⟨id, seq⟩
  · cases h
  cases hcp : ps.dedup id with
  | none => simp [PartitionState.duplicate, hcp] at h
  | some cp =>
    by_cases hle : seq ≤ cp.lastSeq
    · simp only [PartitionState.duplicate, hcp, hle, ↓reduceIte, Option.some.injEq] at h
      exact ⟨id, seq, cp, rfl, hcp, hle, h⟩
    · simp [PartitionState.duplicate, hcp, hle] at h

theorem fanOut_offset {n : Int} {interrupted : Option CtxError}
    (h : ps.fanOut offset interrupted = .ok n) : n = offset := by
  unfold PartitionState.fanOut at h
  split at h
  · cases h
  · exact (Except.ok.inj h).symm

theorem append_remember [Contract σ] {c : Call} (rep : Contract.Rep b.store m) (room : b.HasRoom c)
    (hvalid : b.validate c.p = .ok ()) (hctx : c.ctx = .background)
    (fresh : (b.partitions c.p).duplicate (producerIdempKey c.record) = none) :
    ∃ s' m', Store.append b.store c.ctx c.now c.p (withTimestamp c.now c.record) = (.ok (m c.p).length, s') ∧
      Contract.Rep (remember { b with store := s' } c.now c.p (m c.p).length (producerIdempKey c.record)).store m' ∧
      ∀ res : Except BrokerError Int, (∀ n, res = .ok n → n = (m c.p).length) →
        Outcome b m c res (remember { b with store := s' } c.now c.p (m c.p).length (producerIdempKey c.record)) m' := by
  obtain ⟨s', happ, rep'⟩ := Contract.append rep (p := c.p) (r := withTimestamp c.now c.record) c.now
    (by rw [stamp_withTimestamp]; exact room.1.room rep)
  rw [← hctx] at happ
  rw [stamp_withTimestamp] at rep'
  let b₁ : Broker σ := { b with store := s' }
  obtain ⟨m', rep'', hself, hothers⟩ := remember_rep (b := b₁) rep' c.now c.p (m c.p).length (producerIdempKey c.record)
    fun id seq hkey => room.2 s' _ happ id seq hkey
  obtain ⟨hnoted, hkept⟩ := remember_dedup b₁ c.now c.p (m c.p).length (producerIdempKey c.record)
  refine ⟨s', m', happ, rep'', fun res hres => ?_⟩
  refine .appended hvalid (Contract.norm_view (σ := σ) _) fresh (by rw [hself, m.append_self])
    (fun q hq => ?_) hnoted hkept hres
  obtain ⟨extra, hextra, hnone⟩ := hothers q hq
  exact ⟨extra, by rw [hextra, m.append_of_ne hq], hnone⟩

theorem remember_config (b : Broker σ) (now : Int64) (p : PartitionRef) (offset : Int) (key : Option (Bytes × UInt64)) :
    (b.remember now p offset key).registry = b.registry ∧ (b.remember now p offset key).dedupTTL = b.dedupTTL := by
  rcases key with _ | ⟨id, seq⟩
  · exact ⟨rfl, rfl⟩
  · simp only [remember, persistDedupCheckpoint]
    split
    · split <;> exact ⟨rfl, rfl⟩
    · exact ⟨rfl, rfl⟩

omit [Store σ] in
theorem evictFor_same (b : Broker σ) (key : Option (Bytes × UInt64)) (now : Int64) (p : PartitionRef) :
    (b.evictFor key now p).store = b.store ∧ (b.evictFor key now p).dedupTopic = b.dedupTopic ∧
      (b.evictFor key now p).registry = b.registry ∧ (b.evictFor key now p).dedupTTL = b.dedupTTL := by
  unfold evictFor
  split <;> exact ⟨rfl, rfl, rfl, rfl⟩

omit [Store σ] in
theorem evictFor_dedup {now : Int64} {p q : PartitionRef}
    (h : (b.evictFor key now p).dedup q id = some cp) : b.dedup q id = some cp := by
  unfold evictFor at h
  split at h
  · by_cases hq : q = p
    · subst hq
      simp only [dedup, setPartition, update_self] at h
      exact (Option.filter_eq_some_iff.mp h).1
    · simpa only [dedup, setPartition, update_of_ne hq] using h
  · exact h

omit [Store σ] in
theorem evictFor_of_ttl (ttl : b.dedupTTL = 0) (key : Option (Bytes × UInt64)) (now : Int64) (p : PartitionRef) :
    b.evictFor key now p = b := by
  have httl : ¬ 0 < b.dedupTTL := by rw [ttl]; decide
  rw [evictFor, if_neg fun h => httl h.2]

theorem call_config (b : Broker σ) (c : Call) :
    (b.call c).2.registry = b.registry ∧ (b.call c).2.dedupTTL = b.dedupTTL := by
  have hevict := (evictFor_same b (producerIdempKey c.record) c.now c.p).2.2
  simp only [call, publish]
  split
  · exact ⟨rfl, rfl⟩
  · split
    · exact hevict
    · split
      · exact hevict
      · rw [(remember_config _ _ _ _ _).1, (remember_config _ _ _ _ _).2]
        exact hevict

omit [Store σ] in
theorem validate_congr {b' : Broker σ} (h : b'.registry = b.registry) (p : PartitionRef) : b'.validate p = b.validate p := by
  rw [validate, h, validate]

theorem call_duplicate {c : Call} (ttl : b.dedupTTL = 0) (hvalid : b.validate c.p = .ok ()) {seq : UInt64}
    (hkey : producerIdempKey c.record = some (id, seq)) (hlast : b.dedup c.p id = some cp)
    (hle : seq ≤ cp.lastSeq) : (b.call c).1 = .ok cp.lastOffset := by
  simp only [dedup] at hlast
  simp only [call, publish, hvalid, evictFor_of_ttl ttl, ↓reduceIte, hkey, PartitionState.duplicate, hlast, hle]

/-- A call has one of the outcomes, from the checkpoints as they are or with the stale ones gone. -/
theorem publish_outcome [Contract σ] (c : Call) (rep : Contract.Rep b.store m) (room : b.HasRoom c) :
    ∃ b₀ m', (b₀ = b ∨ b₀ = b.evictFor (producerIdempKey c.record) c.now c.p) ∧ Outcome b₀ m c (b.call c).1 (b.call c).2 m' ∧
      Contract.Rep (b.call c).2.store m' := by
  cases hvalid : b.validate c.p with
  | error e =>
    simp only [call, publish, hvalid]
    exact ⟨b, m, .inl rfl, .refused e, rep⟩
  | ok _ =>
    simp only [call, publish, hvalid]
    obtain ⟨hstore, htopic, -⟩ := evictFor_same b (producerIdempKey c.record) c.now c.p
    refine ⟨b.evictFor (producerIdempKey c.record) c.now c.p, ?_⟩
    generalize hb₀ : b.evictFor (producerIdempKey c.record) c.now c.p = b₀ at hstore htopic ⊢
    have hvalid₀ : b₀.validate c.p = .ok () := by
      rw [validate_congr (hb₀ ▸ (evictFor_same b _ _ _).2.2.1), hvalid]
    have room₀ : b₀.HasRoom c := by
      unfold HasRoom
      rw [hstore, htopic]
      exact room
    rw [← hstore] at rep
    cases hdup : (b₀.partitions c.p).duplicate (producerIdempKey c.record) with
    | some offset =>
      obtain ⟨id, seq, cp, hkey, hlast, hle, rfl⟩ := duplicate_eq_some hdup
      exact ⟨m, .inr rfl, .duplicate hkey hlast hle, rep⟩
    | none =>
      cases hctx : c.ctx.err with
      | some e =>
        have hdone : c.ctx = ⟨some e⟩ := by rw [← hctx]
        rw [hdone, Contract.append_done]
        exact ⟨m, .inr rfl, .refused _, rep⟩
      | none =>
        have hback : c.ctx = .background := by rw [Ctx.background, ← hctx]
        obtain ⟨s', m', happ, rep', houtcome⟩ := append_remember rep room₀ hvalid₀ hback hdup
        refine ⟨m', .inr rfl, ?_⟩
        simp only [happ]
        exact ⟨houtcome _ fun n hn => fanOut_offset hn, rep'⟩

end Broker
end Holocron
