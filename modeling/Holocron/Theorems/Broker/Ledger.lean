import Holocron.Theorems.Broker.Idempotence

/-! What Publish decides: the ledger is the abstract state, records and checkpoints. -/

namespace Holocron
open Lib Storage Broker Function

inductive Decision where
  | refused
  | duplicate (offset : Int)
  | appended (offset : Int)
  deriving DecidableEq, Repr

def Decision.offset : Decision → Option Int
  | .refused => none
  | .duplicate n | .appended n => some n

def returned : Except BrokerError Int → Option Int
  | .ok n => some n
  | .error (.fanOut n _) => some n
  | .error _ => none

namespace Broker

variable {σ : Type} [Store σ]

def decision (b : Broker σ) (c : Call) : Decision :=
  match b.validate c.p with
  | .error _ => .refused
  | .ok () =>
    match ((b.evictFor (producerIdempKey c.record) c.now c.p).partitions c.p).duplicate (producerIdempKey c.record) with
    | some n => .duplicate n
    | none =>
      match (Store.append b.store c.ctx c.now c.p (withTimestamp c.now c.record)).1 with
      | .error _ => .refused
      | .ok n => .appended n

omit [Store σ] in
theorem validate_error {b : Broker σ} {p : PartitionRef} {e : BrokerError} (h : b.validate p = .error e) :
    returned (.error e) = none := by
  unfold validate at h
  split at h
  · cases h
    rfl
  · split at h
    · cases h
      rfl
    · cases h

theorem returned_fanOut (ps : PartitionState) (n : Int) (interrupted : Option CtxError) :
    returned (ps.fanOut n interrupted) = some n := by
  unfold PartitionState.fanOut
  split <;> rfl

theorem returned_call (b : Broker σ) (c : Call) : returned (b.call c).1 = (b.decision c).offset := by
  obtain ⟨hstore, -⟩ := evictFor_same b (producerIdempKey c.record) c.now c.p
  unfold decision call publish
  cases hvalid : b.validate c.p with
  | error e => exact validate_error hvalid
  | ok _ =>
    dsimp only
    cases ((b.evictFor (producerIdempKey c.record) c.now c.p).partitions c.p).duplicate (producerIdempKey c.record) with
    | some n => rfl
    | none =>
      rw [hstore]
      cases Store.append b.store c.ctx c.now c.p (withTimestamp c.now c.record) with
      | mk res s =>
        cases res with
        | error e => rfl
        | ok n => exact returned_fanOut _ n c.interrupted

end Broker

structure Settings where
  valid : PartitionRef → Bool
  ttl : Int64
  topic : Bytes

structure Ledger where
  records : Contents
  dedup : PartitionRef → Bytes → Option ProducerCheckpoint

def Stale (ttl : Int64) (t : Int) (cp : ProducerCheckpoint) : Prop := 0 < ttl ∧ cp.lastSeen.toInt < t - ttl.toInt

instance (ttl : Int64) (t : Int) (cp : ProducerCheckpoint) : Decidable (Stale ttl t cp) := inferInstanceAs (Decidable (_ ∧ _))

theorem Stale.mono {ttl : Int64} {t t' : Int} {cp : ProducerCheckpoint} (h : Stale ttl t cp) (ht : t ≤ t') : Stale ttl t' cp :=
  ⟨h.1, Int.lt_of_lt_of_le h.2 (Int.sub_le_sub_right ht _)⟩

namespace Ledger

def age (S : Settings) (l : Ledger) (c : Call) : Ledger :=
  if (producerIdempKey c.record).isSome then
    { l with dedup := Function.update l.dedup c.p fun id =>
      (l.dedup c.p id).filter fun cp => decide (¬ Stale S.ttl c.now.toInt cp) }
  else l

def answer (l : Ledger) (p : PartitionRef) (key : Option (Bytes × UInt64)) : Option Int :=
  (PartitionState.mk 0 (l.dedup p)).duplicate key

def note (S : Settings) (l : Ledger) (c : Call) (offset : Int) : Ledger :=
  match producerIdempKey c.record with
  | none => l
  | some (id, seq) =>
    let cp : ProducerCheckpoint := ⟨seq, offset, c.now⟩
    { records :=
        if c.p.topic ≠ S.topic ∧ S.topic ≠ [] then
          l.records.append ⟨S.topic, 0⟩ (stamp c.now (l.records ⟨S.topic, 0⟩).length (dedupRecord id c.p cp)).norm
        else l.records
      dedup := Function.update l.dedup c.p (Function.update (l.dedup c.p) id (some cp)) }

def store (l : Ledger) (c : Call) : Ledger :=
  { l with records := l.records.append c.p (stamp c.now (l.records c.p).length c.record).norm }

def publish (S : Settings) (l : Ledger) (c : Call) : Decision × Ledger :=
  if S.valid c.p = false then (.refused, l)
  else
    match (l.age S c).answer c.p (producerIdempKey c.record) with
    | some n => (.duplicate n, l.age S c)
    | none =>
      if c.ctx.err.isSome then (.refused, l.age S c)
      else (.appended (l.records c.p).length, ((l.age S c).store c).note S c (l.records c.p).length)

@[simp] theorem age_records (S : Settings) (l : Ledger) (c : Call) : (l.age S c).records = l.records := by
  unfold age
  split <;> rfl

end Ledger

namespace Broker

def settings {σ : Type} (b : Broker σ) : Settings where
  valid p := match b.validate p with
    | .ok () => true
    | .error _ => false
  ttl := b.dedupTTL
  topic := b.dedupTopic

section
variable {σ : Type} [Store σ] (b : Broker σ)

theorem remember_topic (now : Int64) (p : PartitionRef) (offset : Int) (key : Option (Bytes × UInt64)) :
    (b.remember now p offset key).dedupTopic = b.dedupTopic := by
  rcases key with _ | ⟨id, seq⟩
  · rfl
  · simp only [remember, persistDedupCheckpoint]
    split
    · split <;> rfl
    · rfl

theorem call_topic (c : Call) : (b.call c).2.dedupTopic = b.dedupTopic := by
  have hevict := (evictFor_same b (producerIdempKey c.record) c.now c.p).2.1
  simp only [call, publish]
  split
  · rfl
  · split
    · exact hevict
    · split
      · exact hevict
      · rw [remember_topic]
        exact hevict

theorem settings_call (c : Call) : (b.call c).2.settings = b.settings := by
  obtain ⟨hregistry, httl⟩ := call_config b c
  simp only [settings, httl, call_topic, validate_congr hregistry]

end

structure Refines (b : Broker FileStore) (l : Ledger) : Prop where
  rep : Contract.Rep b.store l.records
  dedup : b.dedup = l.dedup

variable {b : Broker FileStore}

section
variable {l : Ledger} (h : b.Refines l)
include h

theorem Refines.evictFor (c : Call) :
    (b.evictFor (producerIdempKey c.record) c.now c.p).Refines (l.age b.settings c) := by
  refine ⟨?_, ?_⟩
  · rw [(evictFor_same ..).1, Ledger.age_records]
    exact h.rep
  · unfold Broker.evictFor Ledger.age
    by_cases hkey : (producerIdempKey c.record).isSome
    · by_cases httl : 0 < b.dedupTTL
      · rw [if_pos ⟨hkey, httl⟩, if_pos hkey]
        funext p
        by_cases hp : p = c.p
        · subst hp
          simp only [Broker.dedup, setPartition, update_self, PartitionState.evictStaleDedupLocked, ← h.dedup,
            Stale, settings, httl, true_and]
        · simp only [Broker.dedup, setPartition, update_of_ne hp, ← h.dedup]
      · rw [if_neg fun hboth => httl hboth.2, if_pos hkey]
        have hall : ∀ x : Option ProducerCheckpoint,
            (x.filter fun cp => decide (¬ Stale b.settings.ttl c.now.toInt cp)) = x := by
          intro x
          cases x with
          | none => rfl
          | some cp => simp [Stale, settings, httl]
        simp only [hall, update_eq_self]
        exact h.dedup
    · rw [if_neg fun hboth => hkey hboth.1, if_neg hkey]
      exact h.dedup

theorem Refines.answer (p : PartitionRef) (key : Option (Bytes × UInt64)) :
    (b.partitions p).duplicate key = l.answer p key := by
  have hdedup : (b.partitions p).dedup = l.dedup p := congrFun h.dedup p
  rcases key with _ | ⟨id, seq⟩
  · rfl
  · simp only [Ledger.answer, PartitionState.duplicate, hdedup]

theorem Refines.remember (c : Call) (offset : Int)
    (room : ∀ id seq, producerIdempKey c.record = some (id, seq) →
      Fits b.store c.now ⟨b.dedupTopic, 0⟩ (dedupRecord id c.p ⟨seq, offset, c.now⟩)) :
    (b.remember c.now c.p offset (producerIdempKey c.record)).Refines (l.note b.settings c offset) := by
  obtain ⟨hself, hothers⟩ := remember_dedup b c.now c.p offset (producerIdempKey c.record)
  unfold Ledger.note
  cases hkey : producerIdempKey c.record with
  | none => exact h
  | some key =>
    obtain ⟨id, seq⟩ := key
    rw [hkey] at hself hothers
    dsimp only
    refine ⟨?_, ?_⟩
    · by_cases hskip : c.p.topic ≠ b.settings.topic ∧ b.settings.topic ≠ []
      · rw [if_pos hskip]
        obtain ⟨s', happend, rep'⟩ := Contract.append h.rep (p := ⟨b.dedupTopic, 0⟩) c.now ((room id seq hkey).room h.rep)
        have hstore : (b.remember c.now c.p offset (some (id, seq))).store = s' := by
          have htopic : c.p.topic ≠ b.dedupTopic := hskip.1
          have hne : b.dedupTopic ≠ [] := hskip.2
          simp only [Broker.remember, setPartition, if_pos htopic, persistDedupCheckpoint, if_neg hne, happend]
        rw [hstore]
        exact rep'
      · have hstore : (b.remember c.now c.p offset (some (id, seq))).store = b.store := by
          by_cases htopic : c.p.topic = b.dedupTopic
          · simp [Broker.remember, setPartition, htopic, ↓reduceIte]
          · have hnone : b.dedupTopic = [] := by
              by_contra hne
              exact hskip ⟨htopic, hne⟩
            simp [Broker.remember, setPartition, persistDedupCheckpoint, hnone, ↓reduceIte]
        rw [hstore, if_neg hskip]
        exact h.rep
    · funext p
      dsimp only
      by_cases hp : p = c.p
      · subst hp
        rw [hself, update_self, ← h.dedup]
        rfl
      · rw [hothers p hp, update_of_ne hp, ← h.dedup]

theorem Refines.call {c : Call} (room : b.HasRoom c) :
    b.decision c = (l.publish b.settings c).1 ∧ (b.call c).2.Refines (l.publish b.settings c).2 := by
  have hevict := h.evictFor c
  obtain ⟨hstore, htopic, -⟩ := evictFor_same b (producerIdempKey c.record) c.now c.p
  have hsettings : (b.evictFor (producerIdempKey c.record) c.now c.p).settings = b.settings := by
    obtain ⟨-, -, hregistry, httl⟩ := evictFor_same b (producerIdempKey c.record) c.now c.p
    simp only [settings, httl, htopic, validate_congr hregistry]
  unfold decision Broker.call Broker.publish Ledger.publish
  cases hvalid : b.validate c.p with
  | error e =>
    have hinvalid : b.settings.valid c.p = false := by simp only [settings, hvalid]
    rw [if_pos hinvalid]
    exact ⟨rfl, h⟩
  | ok _ =>
    have hvalid' : b.settings.valid c.p = true := by simp only [settings, hvalid]
    rw [if_neg (by rw [hvalid']; exact Bool.noConfusion)]
    dsimp only
    rw [hevict.answer]
    cases (l.age b.settings c).answer c.p (producerIdempKey c.record) with
    | some n => exact ⟨rfl, hevict⟩
    | none =>
      cases hctx : c.ctx.err with
      | some e =>
        have hdone : c.ctx = ⟨some e⟩ := by rw [← hctx]
        rw [hdone]
        exact ⟨rfl, hevict⟩
      | none =>
        have hback : c.ctx = .background := by rw [Ctx.background, ← hctx]
        obtain ⟨s', happend, rep'⟩ := Contract.append h.rep (p := c.p) (r := withTimestamp c.now c.record) c.now
          (by rw [stamp_withTimestamp]; exact room.1.room h.rep)
        rw [stamp_withTimestamp] at rep'
        rw [hstore, hback, happend]
        refine ⟨rfl, ?_⟩
        have hkept : { b.evictFor (producerIdempKey c.record) c.now c.p with store := s' }.Refines
            ((l.age b.settings c).store c) := by
          refine ⟨?_, hevict.dedup⟩
          simp only [Ledger.store, Ledger.age_records]
          exact rep'
        have := hkept.remember c (l.records c.p).length fun id seq hkey => by
          simp only [htopic]
          exact room.2 s' _ (by rw [hback, happend]) id seq hkey
        rwa [show ({ b.evictFor (producerIdempKey c.record) c.now c.p with store := s' } : Broker FileStore).settings =
          b.settings from hsettings] at this

end

end Broker
end Holocron
