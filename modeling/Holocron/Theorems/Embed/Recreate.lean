import Holocron.Embed.Node
import Holocron.Theorems.Broker.TopicChanges
import Holocron.Theorems.Storage.Slot
import Holocron.Theorems.Broker.Subscribe

/-! A topic that is deleted and created again. Two nodes that agree on what is kept for a topic cannot be told apart by
    calls on it. -/

namespace Holocron
open Lib Storage Topic Subscribe Groups List Function

variable {σ : Type}

/-! ### Topics -/

namespace Topic.Registry

theorem find_delete {r : Registry} {name : Bytes} (ok : (r.delete name).1 = .ok ()) (other : Bytes) :
    (r.delete name).2.find other = if other = name then none else r.find other := by
  unfold delete at ok ⊢
  split at ok
  · cases ok
  · exact find_filter r.topics r.persist name other

theorem find_create {r : Registry} {spec : Spec} (ok : (r.create spec).1 = .ok ()) (other : Bytes) :
    (r.create spec).2.find other =
      if other = spec.name then some ⟨spec.name, spec.partitionCount, spec.retentionMs, spec.segmentBytes⟩
        else r.find other := by
  unfold create at ok ⊢
  by_cases hname : nameRe spec.name = false
  · rw [if_pos hname] at ok
    cases ok
  by_cases hcount : spec.partitionCount ≤ 0
  · rw [if_neg hname, if_pos hcount] at ok
    cases ok
  cases hfind : r.find spec.name with
  | some cfg =>
    rw [if_neg hname, if_neg hcount, hfind] at ok
    cases ok
  | none =>
    rw [if_neg hname, if_neg hcount]
    exact find_put r.topics r.persist _ other

end Topic.Registry

/-! ### Brokers -/

variable [Store σ] [Slotted σ] {t : Bytes} {i : Int32}

structure Broker.AlikeOn (t : Bytes) (b b' : Broker σ) : Prop where
  find (name : Bytes) : b.registry.find name = b'.registry.find name
  dedupTTL : b.dedupTTL = b'.dedupTTL
  partition (i : Int32) : b.partitions ⟨t, i⟩ = b'.partitions ⟨t, i⟩
  slot (i : Int32) : Slotted.slot b.store ⟨t, i⟩ = Slotted.slot b'.store ⟨t, i⟩

namespace Broker.AlikeOn

variable {b b' : Broker σ} (h : b.AlikeOn t b')
include h

theorem symm : b'.AlikeOn t b :=
  ⟨fun name => (h.find name).symm, h.dedupTTL.symm, fun i => (h.partition i).symm, fun i => (h.slot i).symm⟩

theorem partitionsFor (name : Bytes) : b.registry.partitionsFor name = b'.registry.partitionsFor name := by
  unfold Registry.partitionsFor Registry.get
  rw [h.find]

theorem validate (p : PartitionRef) : b.validate p = b'.validate p := by
  unfold Broker.validate
  rw [h.partitionsFor]

theorem withStore {s s' : σ} (hs : ∀ i, Slotted.slot s ⟨t, i⟩ = Slotted.slot s' ⟨t, i⟩) :
    AlikeOn t { b with store := s } { b' with store := s' } := ⟨h.find, h.dedupTTL, h.partition, hs⟩

theorem acted {α : Type} {op : σ → Except StoreError α × σ} (acts : ActsOn Slotted.slot ⟨t, i⟩ op) :
    ∃ res s s', op b.store = (res, s) ∧ op b'.store = (res, s') ∧ AlikeOn t { b with store := s } { b' with store := s' } := by
  refine ⟨(op b.store).1, (op b.store).2, (op b'.store).2, rfl, ?_, h.withStore (acts.agree h.slot)⟩
  rw [acts.answer (h.slot i)]

theorem setPartition (i : Int32) (ps : PartitionState) : (b.setPartition ⟨t, i⟩ ps).AlikeOn t (b'.setPartition ⟨t, i⟩ ps) := by
  refine ⟨h.find, h.dedupTTL, fun k => ?_, h.slot⟩
  by_cases hk : (⟨t, k⟩ : PartitionRef) = ⟨t, i⟩
  · rw [hk]
    simp only [Broker.setPartition, update_self]
  · simp only [Broker.setPartition, update_of_ne hk, h.partition k]

theorem evictFor (key : Option (Bytes × UInt64)) (now : Int64) (i : Int32) :
    (b.evictFor key now ⟨t, i⟩).AlikeOn t (b'.evictFor key now ⟨t, i⟩) := by
  unfold Broker.evictFor
  rw [h.dedupTTL, h.partition]
  split
  · exact h.setPartition i _
  · exact h

theorem persisted (now : Int64) (id : Bytes) (p : PartitionRef) (cp : ProducerCheckpoint) :
    AlikeOn t (if t ≠ b.dedupTopic then b.persistDedupCheckpoint now id p cp else b) b' := by
  by_cases ht : t = b.dedupTopic
  · rwa [if_neg (not_not_intro ht)]
  rw [if_pos ht]
  unfold persistDedupCheckpoint
  split
  · exact h
  · refine ⟨h.find, h.dedupTTL, h.partition, fun i => ?_⟩
    have hne : (⟨t, i⟩ : PartitionRef) ≠ ⟨b.dedupTopic, 0⟩ := fun heq => ht (PartitionRef.mk.inj heq).1
    exact ((Slotted.append _ _ _ _).frame b.store hne).trans (h.slot i)

theorem remember (now : Int64) (i : Int32) (offset : Int) (key : Option (Bytes × UInt64)) :
    (b.remember now ⟨t, i⟩ offset key).AlikeOn t (b'.remember now ⟨t, i⟩ offset key) := by
  cases key with
  | none => exact h
  | some key =>
    have hset := h.setPartition i { b.partitions ⟨t,
      i⟩ with dedup := Function.update (b.partitions ⟨t, i⟩).dedup key.1 (some ⟨key.2, offset, now⟩) }
    have hleft := hset.persisted now key.1 ⟨t, i⟩ ⟨key.2, offset, now⟩
    have hboth := (hleft.symm.persisted now key.1 ⟨t, i⟩ ⟨key.2, offset, now⟩).symm
    unfold Broker.remember
    rw [← h.partition i]
    exact hboth

variable {i : Int32}

theorem appendLocked (env : Env) (r : Record) : (appendLocked b ⟨env, ⟨t, i⟩, r⟩).1 = (appendLocked b' ⟨env, ⟨t, i⟩, r⟩).1 ∧
      (appendLocked b ⟨env, ⟨t, i⟩, r⟩).2.AlikeOn t (Subscribe.appendLocked b' ⟨env, ⟨t, i⟩, r⟩).2 := by
  have hevict := h.evictFor (producerIdempKey r) env.now i
  obtain ⟨res, s, s', hop, hop', hstore⟩ := hevict.acted (Slotted.append env.ctx env.now ⟨t, i⟩ (withTimestamp env.now r))
  unfold Subscribe.appendLocked
  dsimp only
  rw [hevict.partition i, hop, hop']
  split
  · exact ⟨rfl, hevict⟩
  · cases res with
    | error e => exact ⟨rfl, hstore⟩
    | ok offset => exact ⟨rfl, hstore.remember env.now i offset _⟩

theorem call (env : Env) (r : Record) : (b.call ⟨env, ⟨t, i⟩, r⟩).1 = (b'.call ⟨env, ⟨t, i⟩, r⟩).1 := by
  have hevict := h.evictFor (producerIdempKey r) env.now i
  obtain ⟨res, s, s', hop, hop', hstore⟩ := hevict.acted (Slotted.append env.ctx env.now ⟨t, i⟩ (withTimestamp env.now r))
  unfold Broker.call Broker.publish
  dsimp only
  rw [h.validate, hevict.partition i, hop, hop']
  split
  · rfl
  split
  · rfl
  · cases res with
    | error e => rfl
    | ok offset =>
      dsimp only
      rw [(hstore.remember env.now i offset (producerIdempKey r)).partition i]

theorem read (ctx : Ctx) (fromOffset maxRecords : Int) :
    (b.read ctx ⟨t, i⟩ fromOffset maxRecords).1 = (b'.read ctx ⟨t, i⟩ fromOffset maxRecords).1 ∧
      (b.read ctx ⟨t, i⟩ fromOffset maxRecords).2.AlikeOn t (b'.read ctx ⟨t, i⟩ fromOffset maxRecords).2 := by
  obtain ⟨res, s, s', hop, hop', hstore⟩ := h.acted (Slotted.read ctx ⟨t, i⟩ fromOffset maxRecords)
  unfold Broker.read
  rw [h.validate, hop, hop']
  split
  · exact ⟨rfl, h⟩
  · cases res with
    | error e | ok records => exact ⟨rfl, hstore⟩

theorem highWater (ctx : Ctx) :
    (b.highWater ctx ⟨t, i⟩).1 = (b'.highWater ctx ⟨t, i⟩).1 ∧
      (b.highWater ctx ⟨t, i⟩).2.AlikeOn t (b'.highWater ctx ⟨t, i⟩).2 := by
  obtain ⟨res, s, s', hop, hop', hstore⟩ := h.acted (Slotted.highWater ctx ⟨t, i⟩)
  unfold Broker.highWater
  rw [h.validate, hop, hop']
  split
  · exact ⟨rfl, h⟩
  · cases res with
    | error e | ok n => exact ⟨rfl, hstore⟩

end Broker.AlikeOn

/-! ### Subscriptions -/

namespace Subscribe

def FanOut.shift (base : Nat) (f : FanOut) : FanOut := ⟨f.record, f.todo.map (base + ·)⟩

namespace Subscription

section
variable (x : Subscription)
include x

theorem emit_p (r : Record) (pump : Pump) : (x.emit r pump).p = x.p := by
  unfold emit
  split <;> rfl

theorem take_p (cursor : Int) : (x.take cursor).p = x.p := by
  unfold take
  split <;> rfl

theorem receive_p : x.receive.p = x.p := by
  unfold receive
  split <;> rfl

theorem stop_p : x.stop.p = x.p := by
  unfold stop
  split <;> rfl

end

end Subscription

namespace State

omit [Store σ] [Slotted σ] in
theorem subscribers_append {s : State σ} {p : PartitionRef} {old new : List Subscription} (hsubs : s.subs = old ++ new)
    (gone : ∀ x ∈ old, ¬ x.Registered p) :
    s.subscribers p = ((range new.length).filter fun j => (new[j]?).any fun x => decide (x.Registered p)).map
      (old.length + ·) := by
  unfold subscribers
  rw [hsubs, length_append, range_add, filter_append, filter_map]
  have hold : (range old.length).filter (fun j => ((old ++ new)[j]?).any fun x => decide (x.Registered p)) = [] := by
    refine filter_eq_nil_iff.mpr fun j hj hany => ?_
    rw [getElem?_append_left (mem_range.mp hj)] at hany
    obtain ⟨x, hx, hreg⟩ := (Option.any_eq_true _ _).mp hany
    exact gone x (mem_of_getElem? hx) (of_decide_eq_true hreg)
  rw [hold, nil_append]
  congr 2
  funext j
  simp only [comp_apply, getElem?_append_right (Nat.le_add_right _ _), Nat.add_sub_cancel_left]

structure AlikeOn (t : Bytes) (old old' : List Subscription) (s s' : State σ) : Prop where
  broker : s.broker.AlikeOn t s'.broker
  subs : ∃ new, s.subs = old ++ new ∧ s'.subs = old' ++ new ∧ ∀ x ∈ new, x.p.topic = t
  lock (i : Int32) : ∃ f : Option FanOut, s.lock ⟨t, i⟩ = f.map (.shift old.length) ∧
    s'.lock ⟨t, i⟩ = f.map (.shift old'.length)

namespace AlikeOn

variable {old old' : List Subscription} {s s' : State σ} (h : AlikeOn t old old' s s') {x : Subscription}
include h

theorem drop : s.subs.drop old.length = s'.subs.drop old'.length := by
  obtain ⟨new, hs, hs', -⟩ := h.subs
  rw [hs, hs', drop_left, drop_left]

theorem getElem? (j : Nat) : s.subs[old.length + j]? = s'.subs[old'.length + j]? := by
  rw [← List.getElem?_drop, ← List.getElem?_drop, h.drop]

theorem topic {j : Nat} (hx : s'.subs[old'.length + j]? = some x) : x.p.topic = t := by
  obtain ⟨new, -, hs', hnew⟩ := h.subs
  rw [hs', getElem?_append_right (Nat.le_add_right _ _)] at hx
  exact hnew x (mem_of_getElem? hx)

theorem withBroker {b b' : Broker σ} (hb : b.AlikeOn t b') :
    AlikeOn t old old' { s with broker := b } { s' with broker := b' } := ⟨hb, h.subs, h.lock⟩

theorem setSub (j : Nat) (hx : x.p.topic = t) :
    AlikeOn t old old' (s.setSub (old.length + j) x) (s'.setSub (old'.length + j) x) := by
  obtain ⟨new, hs, hs', hnew⟩ := h.subs
  refine ⟨h.broker, ⟨new.set j x, ?_, ?_, fun y hy => ?_⟩, h.lock⟩
  · rw [setSub_subs, hs, set_append_right _ _ (Nat.le_add_right _ _), Nat.add_sub_cancel_left]
  · rw [setSub_subs, hs', set_append_right _ _ (Nat.le_add_right _ _), Nat.add_sub_cancel_left]
  · rcases mem_or_eq_of_mem_set hy with hmem | rfl
    · exact hnew y hmem
    · exact hx

theorem setLock (i : Int32) (f : Option FanOut) :
    AlikeOn t old old' (s.setLock ⟨t, i⟩ (f.map (.shift old.length))) (s'.setLock ⟨t, i⟩ (f.map (.shift old'.length))) := by
  refine ⟨h.broker, h.subs, fun k => ?_⟩
  by_cases hk : (⟨t, k⟩ : PartitionRef) = ⟨t, i⟩
  · rw [hk]
    exact ⟨f, setLock_self .., setLock_self ..⟩
  · rw [setLock_of_ne _ hk, setLock_of_ne _ hk]
    exact h.lock k

theorem modify (j : Nat) {f : Subscription → Subscription} (hf : ∀ x, (f x).p = x.p) :
    AlikeOn t old old' (s.modify (old.length + j) f) (s'.modify (old'.length + j) f) := by
  unfold State.modify
  rw [h.getElem? j]
  split
  · exact h
  · rename_i x hx
    exact h.setSub j ((congrArg PartitionRef.topic (hf x)).trans (h.topic hx))

theorem send (i : Int32) : AlikeOn t old old' (s.send ⟨t, i⟩) (s'.send ⟨t, i⟩) := by
  obtain ⟨f, hf, hf'⟩ := h.lock i
  unfold State.send
  rw [hf, hf']
  match f with
  | none => exact h
  | some ⟨r, []⟩ => exact h.setLock i none
  | some ⟨r, j :: todo⟩ =>
    simp only [Option.map_some, FanOut.shift, map_cons]
    rw [h.getElem? j]
    split
    · exact h
    · rename_i x hx
      have htopic := h.topic hx
      split
      · exact (h.setSub j (x := { x with sub := x.sub ++ [r] }) htopic).setLock i (some ⟨r, todo⟩)
      · exact h

theorem cut (i : Int32) : AlikeOn t old old' (s.cut ⟨t, i⟩) (s'.cut ⟨t, i⟩) := by
  obtain ⟨f, hf, hf'⟩ := h.lock i
  unfold State.cut
  rw [hf, hf']
  match f with
  | none => exact h
  | some ⟨r, []⟩ => exact h
  | some ⟨r, j :: todo⟩ => exact h.setLock i none

theorem removeSubscriber (j : Nat) (hx : x.p.topic = t) :
    AlikeOn t old old' (s.removeSubscriber (old.length + j) x) (s'.removeSubscriber (old'.length + j) x) := by
  obtain ⟨p, fromOffset, hw, ctx, sub, out, received, pump⟩ := x
  obtain ⟨topic, i⟩ := p
  obtain rfl : topic = t := hx
  obtain ⟨f, hf, hf'⟩ := h.lock i
  unfold removeSubscriber
  rw [hf, hf']
  cases f with
  | some f => exact h
  | none =>
    rw [h.broker.partition i]
    exact (h.setSub j rfl).withBroker (h.broker.setPartition i _)

theorem catchUp (j : Nat) (hx : x.p.topic = t) (cursor : Int) :
    AlikeOn t old old' (s.catchUp (old.length + j) x cursor) (s'.catchUp (old'.length + j) x cursor) := by
  obtain ⟨p, fromOffset, hw, ctx, sub, out, received, pump⟩ := x
  obtain ⟨topic, i⟩ := p
  obtain rfl : topic = t := hx
  obtain ⟨res, st, st', hop, hop', hstore⟩ := h.broker.acted (Slotted.read ctx ⟨topic, i⟩ cursor catchUpBatchSize)
  unfold catchUp
  rw [hop, hop']
  match res with
  | .ok (r :: rs) => exact (h.withBroker hstore).setSub j rfl
  | .ok [] => exact (h.withBroker hstore).setSub j rfl
  | .error e => exact (h.withBroker hstore).setSub j rfl

theorem pump (j : Nat) : AlikeOn t old old' (s.pump (old.length + j)) (s'.pump (old'.length + j)) := by
  unfold State.pump
  rw [h.getElem? j]
  cases hx : s'.subs[old'.length + j]? with
  | none => exact h
  | some x =>
    have htopic := h.topic hx
    dsimp only
    cases x.pump with
    | catchUp cursor =>
      dsimp only
      split
      · exact h.catchUp j htopic cursor
      · exact h.setSub j htopic
    | send cursor todo n =>
      cases todo with
      | nil => exact h.setSub j htopic
      | cons r todo => exact h.setSub j ((congrArg PartitionRef.topic (Subscription.emit_p ..)).trans htopic)
    | live cursor => exact h.setSub j ((congrArg PartitionRef.topic (Subscription.take_p ..)).trans htopic)
    | forward cursor r => exact h.setSub j ((congrArg PartitionRef.topic (Subscription.emit_p ..)).trans htopic)
    | stopped => exact h.removeSubscriber j htopic
    | closed => exact h

theorem subscribe (ctx : Ctx) (i : Int32) (fromOffset : Int) :
    AlikeOn t old old' (s.subscribe ctx ⟨t, i⟩ fromOffset) (s'.subscribe ctx ⟨t, i⟩ fromOffset) := by
  obtain ⟨f, hf, hf'⟩ := h.lock i
  obtain ⟨res, st, st', hop, hop', hstore⟩ := h.broker.acted (Slotted.highWater ctx ⟨t, i⟩)
  unfold State.subscribe
  rw [h.broker.validate, hf, hf', hop, hop']
  cases s'.broker.validate ⟨t, i⟩ with
  | error e => exact h
  | ok u =>
    cases f with
    | some f => exact h
    | none =>
      cases res with
      | error e => exact h.withBroker hstore
      | ok hw =>
        obtain ⟨new, hs, hs', hnew⟩ := h.subs
        dsimp only [Option.map_none]
        rw [h.broker.partition i, hs, hs', append_assoc, append_assoc]
        refine ⟨hstore.setPartition i _, ⟨_, rfl, rfl, fun x hx => ?_⟩, h.lock⟩
        rcases mem_append.mp hx with hmem | hmem
        · exact hnew x hmem
        · rw [mem_singleton.mp hmem]

theorem publish (gone : ∀ x ∈ old, ∀ i, ¬ x.Registered ⟨t, i⟩) (gone' : ∀ x ∈ old', ∀ i, ¬ x.Registered ⟨t, i⟩)
    (env : Broker.Env) (i : Int32) (r : Record) : AlikeOn t old old' (s.publish ⟨env, ⟨t, i⟩, r⟩)
      (s'.publish ⟨env, ⟨t, i⟩, r⟩) := by
  obtain ⟨f, hf, hf'⟩ := h.lock i
  obtain ⟨hanswer, hbroker⟩ := h.broker.appendLocked env r (i := i)
  obtain ⟨res, b, happend⟩ : ∃ res b, appendLocked s.broker ⟨env, ⟨t, i⟩, r⟩ = (res, b) := ⟨_, _, rfl⟩
  obtain ⟨res', b', happend'⟩ : ∃ res b, appendLocked s'.broker ⟨env, ⟨t, i⟩, r⟩ = (res, b) := ⟨_, _, rfl⟩
  rw [happend, happend'] at hanswer hbroker
  obtain rfl : res = res' := hanswer
  obtain ⟨new, hs, hs', hnew⟩ := h.subs
  unfold State.publish
  rw [h.broker.validate, hf, hf', happend, happend']
  cases s'.broker.validate ⟨t, i⟩ with
  | error e => exact h
  | ok u =>
    cases f with
    | some f => exact h
    | none =>
      cases res with
      | none => exact h.withBroker hbroker
      | some r =>
        rw [subscribers_append hs fun x hx => gone x hx i, subscribers_append hs' fun x hx => gone' x hx i]
        exact (h.withBroker hbroker).setLock i (some ⟨r, _⟩)

end AlikeOn
end State
end Subscribe

/-! ### Groups -/

namespace Groups.Manager

structure Alike (m m' : Manager) : Prop where
  sessionTimeout : m.sessionTimeout = m'.sessionTimeout
  strategy : m.strategy = m'.strategy
  groups : m.groups = m'.groups
  lookup (group : Bytes) (p : PartitionRef) : m.lookup group p = m'.lookup group p

namespace Alike

variable {m m' : Manager} (h : m.Alike m')
include h

theorem setGroup (name : Bytes) (g : Group) : (m.setGroup name g).Alike (m'.setGroup name g) := by
  refine ⟨h.sessionTimeout, h.strategy, ?_, h.lookup⟩
  unfold Manager.setGroup
  rw [h.groups]

theorem notifyWatchersLocked (g : Group) :
    (m.notifyWatchersLocked g).1.Alike (m'.notifyWatchersLocked g).1 ∧
      (m.notifyWatchersLocked g).2 = (m'.notifyWatchersLocked g).2 :=
  ⟨⟨h.sessionTimeout, h.strategy, h.groups, h.lookup⟩, rfl⟩

theorem evictStaleLocked (g : Group) (now : Int) :
    ∃ evicted m₁ m₁' g₁, m.evictStaleLocked g now = (evicted, m₁, g₁) ∧ m'.evictStaleLocked g now = (evicted, m₁', g₁) ∧
      m₁.Alike m₁' := by
  unfold Manager.evictStaleLocked
  rw [h.sessionTimeout]
  dsimp only
  split
  · exact ⟨_, _, _, _, rfl, rfl, h⟩
  · exact ⟨_, _, _, _, rfl, rfl, (h.notifyWatchersLocked _).1⟩

theorem joinResult (groupName memberID : Bytes) (g : Group) :
    m.joinResult groupName memberID g = m'.joinResult groupName memberID g := by
  unfold Manager.joinResult
  simp only [h.lookup]

theorem rebalanceLocked (g : Group) (partitionsFor : PartitionsFor) :
    (∃ e, m.rebalanceLocked g partitionsFor = .error e ∧ m'.rebalanceLocked g partitionsFor = .error e) ∨
      ∃ m₁ m₁' g₁, m.rebalanceLocked g partitionsFor = .ok (m₁, g₁) ∧ m'.rebalanceLocked g partitionsFor =
        .ok (m₁', g₁) ∧ m₁.Alike m₁' := by
  unfold Manager.rebalanceLocked
  have hassign : m.assignments g partitionsFor = m'.assignments g partitionsFor := by
    unfold Manager.assignments
    rw [h.strategy]
  rw [hassign]
  split
  · exact .inl ⟨_, rfl, rfl⟩
  · exact .inr ⟨_, _, _, rfl, rfl, (h.notifyWatchersLocked _).1⟩

theorem join (partitionsFor : PartitionsFor) (groupName memberID fresh : Bytes) (topics : List Bytes) (now now' : Int) :
    (m.join partitionsFor groupName memberID fresh topics now now').1 =
      (m'.join partitionsFor groupName memberID fresh topics now now').1 ∧
      (m.join partitionsFor groupName memberID fresh topics now now').2.Alike
        (m'.join partitionsFor groupName memberID fresh topics now now').2 := by
  unfold Manager.join
  by_cases htopics : topics = []
  · rw [if_pos htopics, if_pos htopics]
    exact ⟨rfl, h⟩
  rw [if_neg htopics, h.groups]
  dsimp only
  generalize (if memberID = [] then fresh else memberID) = id
  obtain ⟨evicted, m₁, m₁', g₁, hevict, hevict', h₁⟩ := h.evictStaleLocked
    { ((m'.groups groupName).getD .new).touch id
      now with topics := mergeTopics (((m'.groups groupName).getD .new).touch id now).topics topics } now'
  rw [hevict, hevict']
  split
  · exact ⟨congrArg Except.ok ((h₁.setGroup groupName g₁).joinResult ..), h₁.setGroup groupName g₁⟩
  · rcases h₁.rebalanceLocked g₁ partitionsFor with ⟨e, hr, hr'⟩ | ⟨m₂, m₂', g₂, hr, hr', h₂⟩
    · rw [hr, hr']
      exact ⟨rfl, h₁.setGroup groupName g₁⟩
    · rw [hr, hr']
      exact ⟨congrArg Except.ok ((h₂.setGroup groupName g₂).joinResult ..), h₂.setGroup groupName g₂⟩

end Alike
end Groups.Manager

/-! ### Nodes -/

namespace Embed.Node

structure AlikeOn (t : Bytes) (old old' : List Subscription) (n n' : Node σ) : Prop where
  state : State.AlikeOn t old old' n.state n'.state
  groups : n.groups.Alike n'.groups

namespace AlikeOn

variable {old old' : List Subscription} {n n' : Node σ}

theorem withBroker (h : AlikeOn t old old' n n') {b b' : Broker σ} (hb : b.AlikeOn t b') :
    AlikeOn t old old' (n.setBroker b) (n'.setBroker b') :=
  ⟨h.state.withBroker hb, h.groups⟩

def Kept (t : Bytes) (old old' : List Subscription) (x x' : TopicAnswer × Node σ) : Prop :=
  x.1 = x'.1 ∧ AlikeOn t old old' x.2 x'.2

section
variable (h : AlikeOn t old old' n n')
include h

theorem subscriptionStep {a a' : Subscribe.Action}
    (hstate : State.AlikeOn t old old' (n.state.step a) (n'.state.step a')) :
    Kept t old old' (n.subscriptionStep old.length a) (n'.subscriptionStep old'.length a') :=
  ⟨congrArg TopicAnswer.subscriptions hstate.drop, hstate, h.groups⟩

theorem publish (gone : ∀ x ∈ old, ∀ i, ¬ x.Registered ⟨t, i⟩) (gone' : ∀ x ∈ old', ∀ i, ¬ x.Registered ⟨t, i⟩)
    (env : Broker.Env) (i : Int32) (r : Record) : Kept t old old' (n.publish ⟨env, ⟨t, i⟩, r⟩)
      (n'.publish ⟨env, ⟨t, i⟩, r⟩) := by
  refine ⟨congrArg TopicAnswer.published ?_, h.state.publish gone gone' env i r, h.groups⟩
  obtain ⟨f, hf, hf'⟩ := h.state.lock i
  rw [hf, hf', h.state.broker.call, (h.state.broker.appendLocked env r).1]
  cases f <;> rfl

theorem read (ctx : Ctx) (i : Int32) (fromOffset maxRecords : Int) :
    Kept t old old' (n.read ctx ⟨t, i⟩ fromOffset maxRecords) (n'.read ctx ⟨t, i⟩ fromOffset maxRecords) := by
  unfold Node.read
  rw [h.state.broker.validate, Slotted.panics ctx fromOffset maxRecords (h.state.broker.slot i)]
  split
  · exact ⟨rfl, h⟩
  · obtain ⟨hanswer, hbroker⟩ := h.state.broker.read ctx fromOffset maxRecords (i := i)
    exact ⟨congrArg TopicAnswer.records hanswer, h.withBroker hbroker⟩

theorem join (groupName memberID fresh : Bytes) (topics : List Bytes) (now now' : Int) :
    Kept t old old' (n.join groupName memberID fresh topics now now') (n'.join groupName memberID fresh topics now now') := by
  unfold Node.join
  rw [funext h.state.broker.partitionsFor]
  obtain ⟨hanswer, hgroups⟩ := h.groups.join n'.state.broker.registry.partitionsFor groupName memberID fresh topics now now'
  exact ⟨congrArg TopicAnswer.joined hanswer, h.state, hgroups⟩

end

section
variable (h : AlikeOn t old old' n n') (gone : ∀ x ∈ old, ∀ i, ¬ x.Registered ⟨t, i⟩)
    (gone' : ∀ x ∈ old', ∀ i, ¬ x.Registered ⟨t, i⟩)
include h gone gone'

theorem op
    (o : TopicOp) : Kept t old old' (n.op t old.length o) (n'.op t old'.length o) := by
  cases o with
  | publish env i r => exact h.publish gone gone' env i r
  | send i => exact h.subscriptionStep (h.state.send i)
  | cut i => exact h.subscriptionStep (h.state.cut i)
  | read ctx i fromOffset maxRecords => exact h.read ctx i fromOffset maxRecords
  | highWater ctx i =>
    obtain ⟨hanswer, hbroker⟩ := h.state.broker.highWater ctx (i := i)
    exact ⟨congrArg TopicAnswer.offset hanswer, h.withBroker hbroker⟩
  | subscribe ctx i fromOffset => exact h.subscriptionStep (h.state.subscribe ctx i fromOffset)
  | pump j => exact h.subscriptionStep (h.state.pump j)
  | stop j => exact h.subscriptionStep (h.state.modify j Subscription.stop_p)
  | cancel j e => exact h.subscriptionStep (h.state.modify j fun _ => rfl)
  | receive j => exact h.subscriptionStep (h.state.modify j Subscription.receive_p)
  | join groupName memberID fresh topics now now' => exact h.join groupName memberID fresh topics now now'

theorem answers
    (ops : List TopicOp) : n.answers t old.length ops = n'.answers t old'.length ops := by
  induction ops generalizing n n' with
  | nil => rfl
  | cons o rest ih =>
    obtain ⟨hanswer, hnext⟩ := h.op gone gone' o
    simp only [answers, hanswer, ih hnext]

end

end AlikeOn

/-! ### Deleting and creating -/

/-- No publish, subscription, group or offset concerns the topic. -/
structure Idle (t : Bytes) (n : Node σ) : Prop where
  partition (i : Int32) : n.state.broker.partitions ⟨t, i⟩ = .empty
  subs : ∀ x ∈ n.state.subs, ∀ i, ¬ x.Registered ⟨t, i⟩
  lock (i : Int32) : n.state.lock ⟨t, i⟩ = none
  groups {name : Bytes} {g : Group} : n.groups.groups name = some g → t ∉ g.topics
  offsets (group : Bytes) (i : Int32) : n.groups.lookup group ⟨t, i⟩ = noOffset

/-- The node is as if the topic had never been. -/
structure Never (t : Bytes) (n : Node σ) : Prop extends Idle t n where
  unknown : n.state.broker.registry.find t = none
  blank (i : Int32) : Slotted.slot n.state.broker.store ⟨t, i⟩ = Slotted.blank n.state.broker.store

/-- The same settings, the same groups, and the same other topics and offsets on them. -/
structure AlikeBut (t : Bytes) (n n' : Node σ) : Prop where
  find {name : Bytes} : name ≠ t → n.state.broker.registry.find name = n'.state.broker.registry.find name
  dedupTTL : n.state.broker.dedupTTL = n'.state.broker.dedupTTL
  blank : Slotted.blank n.state.broker.store = Slotted.blank n'.state.broker.store
  sessionTimeout : n.groups.sessionTimeout = n'.groups.sessionTimeout
  strategy : n.groups.strategy = n'.groups.strategy
  groups : n.groups.groups = n'.groups.groups
  lookup (group : Bytes) {p : PartitionRef} : p.topic ≠ t → n.groups.lookup group p = n'.groups.lookup group p

variable {spec : Spec} {n n' n₁ n₂ : Node σ}

omit [Slotted σ] in
theorem Idle.deleteTopic (idle : n.Idle t) (deleted : n.deleteTopic t = (.ok (), n₁)) :
    n₁.Idle t ∧ n₁.groups = n.groups ∧ n₁.state.broker.dedupTTL = n.state.broker.dedupTTL ∧
      n₁.state.broker.store = (Store.deleteTopic n.state.broker.store .background t).2 ∧
      ∀ {other}, other ≠ t → n₁.state.broker.registry.find other = n.state.broker.registry.find other := by
  unfold Node.deleteTopic Broker.deleteTopic at deleted
  split at deleted
  · cases deleted
  rename_i registry hdelete
  split at deleted
  · cases deleted
  rename_i s hstore
  cases deleted
  refine ⟨⟨idle.partition, idle.subs, idle.lock, idle.groups, idle.offsets⟩, rfl, rfl, ?_, fun {other} hother => ?_⟩
  · rw [hstore]
    rfl
  · have hfind := Registry.find_delete (congrArg Prod.fst hdelete) other
    rw [hdelete, if_neg hother] at hfind
    exact hfind

omit [Store σ] [Slotted σ] in
theorem Idle.createTopic (idle : n.Idle t) (created : n.createTopic spec = (.ok (), n₁)) :
    n₁.Idle t ∧ n₁.groups = n.groups ∧ n₁.state.broker.dedupTTL = n.state.broker.dedupTTL ∧
      n₁.state.broker.store = n.state.broker.store ∧ ∀ other, n₁.state.broker.registry.find other =
        if other = spec.name then some ⟨spec.name, spec.partitionCount, spec.retentionMs, spec.segmentBytes⟩
        else n.state.broker.registry.find other := by
  unfold Node.createTopic Broker.createTopic at created
  split at created
  · cases created
  rename_i registry hcreate
  cases created
  refine ⟨⟨idle.partition, idle.subs, idle.lock, idle.groups, idle.offsets⟩, rfl, rfl, rfl, fun other => ?_⟩
  have hfind := Registry.find_create (congrArg Prod.fst hcreate) other
  rw [hcreate] at hfind
  exact hfind

/-- Two idle nodes with the same topics, the same slots for this one, and the same groups. -/
theorem Idle.alikeOn (h : n.Idle t) (h' : n'.Idle t)
    (find : ∀ name, n.state.broker.registry.find name = n'.state.broker.registry.find name)
    (dedupTTL : n.state.broker.dedupTTL = n'.state.broker.dedupTTL)
    (slot : ∀ i, Slotted.slot n.state.broker.store ⟨t, i⟩ = Slotted.slot n'.state.broker.store ⟨t, i⟩)
      (groups : n.groups.Alike n'.groups) :
    AlikeOn t n.state.subs n'.state.subs n n' := by
  refine ⟨⟨⟨find, dedupTTL, fun i => ?_, slot⟩, ⟨[], ?_, ?_, forall_mem_nil _⟩, fun i => ⟨none, h.lock i, h'.lock i⟩⟩, groups⟩
  · rw [h.partition, h'.partition]
  · rw [append_nil]
  · rw [append_nil]

omit [Store σ] [Slotted σ] in
theorem validate_created {cfg : TopicConfig} (hfind : n.state.broker.registry.find t = some cfg) (hi : 0 ≤ i)
    (hcount : i < cfg.partitionCount) : n.state.broker.validate ⟨t, i⟩ = .ok () := by
  have hcfg : n.state.broker.registry.partitionsFor t = .ok cfg.partitionCount := by
    unfold Registry.partitionsFor Registry.get
    rw [hfind]
    rfl
  unfold Broker.validate
  rw [hcfg]
  refine if_neg ?_
  rintro (h | h)
  · exact absurd hi (Int32.not_le.mpr h)
  · exact absurd hcount (Int32.not_lt.mpr h)

/-- A topic of which only records are left, deleted and created again: every call on it is answered as on a node where
    it never was, from offset 0 on. -/
theorem recreated_topic_fresh (name : spec.name = t) (idle : n.Idle t) (deleted : n.deleteTopic t = (.ok (), n₁))
    (created : n₁.createTopic spec = (.ok (), n₂)) {n₁' : Node σ} (never : n'.Never t) (others : n.AlikeBut t n')
    (created' : n'.createTopic spec = (.ok (), n₁')) :
    (∀ ops, n₂.answers t n₂.state.subs.length ops = n₁'.answers t n₁'.state.subs.length ops) ∧
      ∀ i, 0 ≤ i → i < spec.partitionCount →
        (n₂.state.broker.highWater .background ⟨t, i⟩).1 = .ok 0 ∧ ∀ group, n₂.groups.lookup group ⟨t, i⟩ = noOffset := by
  obtain ⟨idle₁, hgroups₁, hTTL₁, hstore₁, hfind₁⟩ := idle.deleteTopic deleted
  obtain ⟨idle₂, hgroups₂, hTTL₂, hstore₂, hfind₂⟩ := idle₁.createTopic created
  obtain ⟨idle', hgroups', hTTL', hstore', hfind'⟩ := never.toIdle.createTopic created'
  have hslot : ∀ i, Slotted.slot n₂.state.broker.store ⟨t, i⟩ = Slotted.blank n.state.broker.store := by
    intro i
    rw [hstore₂, hstore₁]
    exact Slotted.deleted _ rfl
  refine ⟨fun ops => ?_, fun i hi hcount => ⟨?_, fun group => idle₂.offsets group i⟩⟩
  · have hfind : ∀ other, n₂.state.broker.registry.find other = n₁'.state.broker.registry.find other := by
      intro other
      rw [hfind₂, hfind']
      split
      · rfl
      · rename_i hother
        have hne : other ≠ t := fun h => hother (h.trans name.symm)
        exact (hfind₁ hne).trans (others.find hne)
    have hslots : ∀ i, Slotted.slot n₂.state.broker.store ⟨t, i⟩ = Slotted.slot n₁'.state.broker.store ⟨t, i⟩ := by
      intro i
      rw [hslot, others.blank, hstore', never.blank]
    have hgroups : n₂.groups.Alike n₁'.groups := by
      rw [hgroups₂, hgroups₁, hgroups']
      refine ⟨others.sessionTimeout, others.strategy, others.groups, fun group p => ?_⟩
      by_cases hp : p.topic = t
      · obtain ⟨topic, i⟩ := p
        obtain rfl : topic = t := hp
        rw [idle.offsets, never.offsets]
      · exact others.lookup group hp
    have hTTL : n₂.state.broker.dedupTTL = n₁'.state.broker.dedupTTL := by rw [hTTL₂, hTTL₁, hTTL', others.dedupTTL]
    exact (idle₂.alikeOn idle' hfind hTTL hslots hgroups).answers idle₂.subs idle'.subs ops
  · have hfound := hfind₂ t
    rw [if_pos name.symm] at hfound
    obtain ⟨hw, s, hop⟩ : ∃ hw s, Store.highWater n₂.state.broker.store .background ⟨t, i⟩ = (hw, s) := ⟨_, _, rfl⟩
    have hzero := Slotted.unused (hslot i)
    rw [hop] at hzero
    obtain rfl : hw = .ok 0 := hzero
    unfold Broker.highWater
    rw [validate_created hfound hi hcount, hop]

def emptyNode : Node MemoryStore := ⟨.start ⟨.new, .new, 0, [], fun _ => .empty⟩, .new .range 0⟩

def ordersSpec : Spec := ⟨utf8 "orders", 1, 0, 0⟩

def used (r : Record) : Node MemoryStore :=
  let n := (emptyNode.createTopic ordersSpec).2
  let n := (n.op (utf8 "orders") 0 (.publish ⟨.background, 1, none⟩ 0 r)).2
  (n.op (utf8 "orders") 0 (.send 0)).2

def recreated (r : Record) : Node MemoryStore := (((used r).deleteTopic (utf8 "orders")).2.createTopic ordersSpec).2

def plainOrder : Record := ⟨0, 5, none, none, []⟩

def keyedOrder : Record :=
  { plainOrder with headers := [⟨headerProducerID, some (utf8 "p")⟩, ⟨headerProducerSeq, some (bigEndian 8 1)⟩] }

def publishAndMeasure (r : Record) : List TopicOp := [.publish ⟨.background, 2, none⟩ 0 r, .highWater .background 0]

theorem recreated_topic_fresh_plain : (recreated plainOrder).answers (utf8 "orders") 0 (publishAndMeasure plainOrder) =
    (emptyNode.createTopic ordersSpec).2.answers (utf8 "orders") 0 (publishAndMeasure plainOrder) := by
  have free : ∀ i, (used plainOrder).state.lock ⟨utf8 "orders", i⟩ = none := by
    intro i
    by_cases hi : (⟨utf8 "orders", i⟩ : PartitionRef) = ⟨utf8 "orders", 0⟩
    · rw [hi]
      decide +kernel
    · exact (update_of_ne hi ..).trans (update_of_ne hi ..)
  have idle : (used plainOrder).Idle (utf8 "orders") := ⟨fun _ => rfl, nofun, free, nofun, fun _ _ => rfl⟩
  have never : emptyNode.Never (utf8 "orders") :=
    ⟨⟨fun _ => rfl, nofun, fun _ => rfl, nofun, fun _ _ => rfl⟩, rfl, fun _ => rfl⟩
  have find : ∀ {name}, name ≠ utf8 "orders" → (used plainOrder).state.broker.registry.find name =
      emptyNode.state.broker.registry.find name := by
    intro name hname
    have hfind : ((Registry.create .new ordersSpec).2).find name = _ := Registry.find_create rfl name
    exact hfind.trans (if_neg hname)
  have deleted : (used plainOrder).deleteTopic (utf8 "orders") =
    (.ok (), ((used plainOrder).deleteTopic (utf8 "orders")).2) := rfl
  have others : (used plainOrder).AlikeBut (utf8 "orders") emptyNode := ⟨find, rfl, rfl, rfl, rfl, rfl, fun _ _ _ => rfl⟩
  have created : ((used plainOrder).deleteTopic (utf8 "orders")).2.createTopic ordersSpec =
    (.ok (), recreated plainOrder) := rfl
  have created' : emptyNode.createTopic ordersSpec = (.ok (), (emptyNode.createTopic ordersSpec).2) := rfl
  exact (recreated_topic_fresh rfl idle deleted created never others created').1 (publishAndMeasure plainOrder)

/-- A producer that the deleted topic remembers: its first record on the new one counts as a duplicate. -/
theorem recreated_topic_drops_keyed :
    (recreated keyedOrder).answers (utf8 "orders") 0 (publishAndMeasure keyedOrder) =
      [.published (some (.ok 0, none)), .offset (.ok 0)] ∧
      (emptyNode.createTopic ordersSpec).2.answers (utf8 "orders") 0 (publishAndMeasure keyedOrder) =
        [.published (some (.ok 0, some keyedOrder)), .offset (.ok 1)] := by
  decide +kernel

end Embed.Node
end Holocron
