import Holocron.Broker.Clustered
import Holocron.Theorems.Broker.Publish
import Holocron.Theorems.Broker.Subscribe
import Holocron.Theorems.Cluster.Command

/-! Publish on the leader keeps no checkpoints and sends to no subscriber; otherwise both modes answer and store the same. -/

namespace Holocron.Clustered
open Lib Storage Broker Cluster Subscribe List

/-- Records that come back alike are appended alike. -/
class Views (σ : Type) [Store σ] [Contract σ] : Prop where
  append_congr (s : σ) (ctx : Ctx) (now : Int64) (p : PartitionRef) {r r' : Record}
    (h : ∀ offset, Contract.view σ (stamp now offset r) = Contract.view σ (stamp now offset r')) :
    Store.append s ctx now p r = Store.append s ctx now p r'

instance : Views MemoryStore where
  append_congr s ctx now p r r' h := by
    have hstamp : stamp now (s.get p).length r = stamp now (s.get p).length r' := h _
    simp only [Store.append, MemoryStore.append, hstamp]

theorem append_of_norm {r r' : Record} (h : r.norm = r'.norm) (l : Log.PartitionLog) : l.append r = l.append r' := by
  have hoff : r.norm.offset = r'.norm.offset := congrArg Record.offset h
  simp only [Record.norm_offset] at hoff
  have henc : Log.encodeRecord r = Log.encodeRecord r' := by rw [← Log.encodeRecord_norm r, h, Log.encodeRecord_norm]
  simp only [Log.PartitionLog.append, Log.Segment.append, hoff, henc]

instance : Views FileStore where
  append_congr s ctx now p r r' h := by
    have hnorm : ∀ offset, (stamp now offset r).norm = (stamp now offset r').norm := h
    simp only [Store.append, FileStore.append, append_of_norm (hnorm _)]

section
variable {σ : Type} [Store σ]

structure Twin (s s' : State σ) : Prop where
  store : s.broker.store = s'.broker.store
  registry : s.broker.registry = s'.broker.registry
  subs : s.subs = s'.subs
  free : ∀ p, s.lock p = none
  free' : ∀ p, s'.lock p = none

namespace Twin

variable {s s' : State σ}

section
variable (h : Twin s s')
include h

omit [Store σ] in
theorem validate (p : PartitionRef) : s.broker.validate p = s'.broker.validate p := by
  rw [Broker.validate, Broker.validate, h.registry]

omit [Store σ] in
theorem setSub (j : Nat) (x : Subscription) : Twin (s.setSub j x) (s'.setSub j x) :=
  ⟨h.store, h.registry, congrArg (set · j x) h.subs, h.free, h.free'⟩

omit [Store σ] in
theorem setStore (st : σ) : Twin (s.setStore st) (s'.setStore st) := ⟨rfl, h.registry, h.subs, h.free, h.free'⟩

omit [Store σ] in
theorem modify (j : Nat) (f : Subscription → Subscription) : Twin (s.modify j f) (s'.modify j f) := by
  simp only [State.modify, h.subs]
  cases s'.subs[j]? with
  | none => exact h
  | some x => exact h.setSub j (f x)

theorem subscribe (ctx : Ctx) (p : PartitionRef) (fromOffset : Int) :
    Twin (s.subscribe ctx p fromOffset) (s'.subscribe ctx p fromOffset) := by
  simp only [State.subscribe, h.validate, h.free, h.free', h.store]
  cases s'.broker.validate p with
  | error e => exact h
  | ok u =>
    cases Store.highWater s'.broker.store ctx p with
    | mk res st =>
      cases res with
      | error e => exact h.setStore st
      | ok hw => exact ⟨rfl, h.registry, congrArg (· ++ _) h.subs, h.free, h.free'⟩

theorem catchUp (j : Nat) (x : Subscription) (cursor : Int) : Twin (s.catchUp j x cursor) (s'.catchUp j x cursor) := by
  simp only [State.catchUp, h.store]
  split <;> exact (h.setStore _).setSub j _

theorem pump (j : Nat) : Twin (s.pump j) (s'.pump j) := by
  simp only [State.pump, h.subs]
  cases s'.subs[j]? with
  | none => exact h
  | some x =>
    dsimp only
    split
    · split
      · exact h.catchUp j x _
      · exact h.setSub j _
    · exact h.setSub j _
    · exact h.setSub j _
    · exact h.setSub j _
    · exact h.setSub j _
    · simp only [State.removeSubscriber, h.free, h.free']
      exact ⟨h.store, h.registry, congrArg (set · j _) h.subs, h.free, h.free'⟩
    · exact h

end

end Twin

def received (r : Record) : Record := { r.norm with offset := Wire.offsetOf (Wire.encodeOffset r.offset) }

theorem publishClustered_eq (b : Broker σ) (now : Int64) (p : PartitionRef) {r : Record}
    (short : (publishCommand p r).encode.length < 2 ^ 32) :
    publishClustered b now p r =
      match Store.append b.store .background now p (received r) with
      | (.error e, st) => (.error (.apply (.storeError e)), { b with store := st })
      | (.ok off, st) => (.ok off, { b with store := st }) := by
  have hdecode : decode (publishCommand p r).encode = .ok (.append ⟨p.topic, p.index, offsetUnstamped, received r⟩) :=
    decode_encode short fun a ha => by
      cases ha
      exact (by decide : Signed 8 offsetUnstamped)
  have happly : (Fsm.mk b.store b.registry).apply now (publishCommand p r).encode =
      (Fsm.mk b.store b.registry).applyAppend now ⟨p.topic, p.index, offsetUnstamped, received r⟩ := by
    simp only [Fsm.apply, hdecode]
  unfold publishClustered clusterApply
  rw [happly]
  simp only [Fsm.applyAppend, Fsm.alreadyHeld, if_true]
  cases Store.append b.store .background now p (received r) with
  | mk res st => cases res <;> rfl

variable [Contract σ] {s : State σ} {c : Call} {b : Broker σ}

/-- A call that both modes treat alike: nobody is subscribed to its partition, it is no retry, it writes no
    checkpoint, its context is not done, and it fits into a Raft entry as it is. -/
structure Plain (s : State σ) (c : Call) : Prop where
  alone : s.subscribers c.p = []
  fresh : ((s.broker.evictFor (producerIdempKey c.record) c.now c.p).partitions c.p).duplicate
    (producerIdempKey c.record) = none
  silent : producerIdempKey c.record = none ∨ c.p.topic = s.broker.dedupTopic ∨ s.broker.dedupTopic = []
  live : c.ctx = .background
  short : (publishCommand c.p c.record).encode.length < 2 ^ 32
  intact : ∀ offset, Contract.view σ (stamp c.now offset c.record.norm) = Contract.view σ (stamp c.now offset c.record)

/-- A publish to an existing partition is plain. -/
def Shared (s : State σ) : Action → Prop
  | .publish c => s.broker.validate c.p = .ok () → Plain s c
  | _ => True

omit [Contract σ] in
/-- Without a dedup topic, remembering a record changes the checkpoints only. -/
theorem remember_silent {now : Int64} {p : PartitionRef} {offset : Int} {key : Option (Bytes × UInt64)}
    (silent : key = none ∨ p.topic = b.dedupTopic ∨ b.dedupTopic = []) :
    (b.remember now p offset key).store = b.store ∧ (b.remember now p offset key).registry = b.registry := by
  cases key with
  | none => exact ⟨rfl, rfl⟩
  | some key =>
    unfold remember
    dsimp only
    split
    · rename_i hp
      have hnone : b.dedupTopic = [] := by
        rcases silent with h | h | h
        · cases h
        · exact absurd h hp
        · exact h
      unfold persistDedupCheckpoint
      split
      · exact ⟨rfl, rfl⟩
      · exact absurd hnone ‹_›
    · exact ⟨rfl, rfl⟩

omit [Contract σ] in
theorem standalone_publish (free : ∀ p, s.lock p = none)
    (alone : s.broker.validate c.p = .ok () → s.subscribers c.p = []) :
    (standalone s (.publish c)).broker = (s.broker.call c).2 ∧ (standalone s (.publish c)).subs = s.subs ∧
      ∀ p, (standalone s (.publish c)).lock p = none := by
  have hstay : ∀ n, fanOut s c.p n = s := by
    intro n
    induction n with
    | zero => rfl
    | succ n ih => rw [fanOut, State.send, free c.p, ih]
  rw [← publish_broker (free c.p)]
  cases hvalid : s.broker.validate c.p with
  | error e =>
    have hpublish : s.publish c = s := by simp only [State.publish, hvalid]
    rw [standalone, hpublish, hstay]
    exact ⟨rfl, rfl, free⟩
  | ok u =>
    rw [standalone, alone hvalid]
    cases happend : appendLocked s.broker c with
    | mk stored b =>
      cases stored with
      | none =>
        have hpublish : s.publish c = { s with broker := b } := by simp only [State.publish, hvalid, free, happend]
        rw [hpublish, length_nil, fanOut, State.send, free]
        exact ⟨rfl, rfl, free⟩
      | some r =>
        have hpublish : s.publish c = { s with broker := b, lock := Function.update s.lock c.p (some ⟨r, []⟩) } := by
          simp only [State.publish, hvalid, free, happend, alone hvalid]
        simp only [hpublish, length_nil, fanOut, State.send, Function.update_self]
        refine ⟨rfl, rfl, fun p => ?_⟩
        by_cases hp : p = c.p
        · rw [hp, State.setLock_self]
        · rw [State.setLock_of_ne _ hp]
          exact (Function.update_of_ne hp ..).trans (free p)

theorem fanOut_nobody {ps : PartitionState} (h : ps.subscribers = 0) (offset : Int) (interrupted : Option CtxError) :
    ps.fanOut offset interrupted = .ok offset := by
  simp only [PartitionState.fanOut, h]

variable [Views σ] {s' : State σ}

theorem call_plain (counted : Counted s) (plain : Plain s c) (valid : s.broker.validate c.p = .ok ())
    {res : Except StoreError Int} {st : σ} (append : Store.append s.broker.store .background c.now c.p c.record = (res, st)) :
    standaloneOffset s c = res.toOption ∧ (s.broker.call c).2.store = st ∧
      (s.broker.call c).2.registry = s.broker.registry := by
  obtain ⟨hstore, htopic, -⟩ := evictFor_same s.broker (producerIdempKey c.record) c.now c.p
  have hstamped : Store.append (s.broker.evictFor (producerIdempKey c.record) c.now c.p).store c.ctx c.now c.p
      (withTimestamp c.now c.record) = (res, st) := by
    rw [hstore, plain.live, ← append]
    exact Views.append_congr _ _ _ _ fun offset => by rw [stamp_withTimestamp]
  have hnobody : (s.broker.partitions c.p).subscribers = 0 := by
    rw [counted c.p, countP_eq_zero]
    intro x hx hreg
    obtain ⟨j, hj⟩ := mem_iff_getElem?.mp hx
    have hmem := State.mem_subscribers.mpr ⟨x, hj, of_decide_eq_true hreg⟩
    rw [plain.alone] at hmem
    cases hmem
  unfold standaloneOffset call Broker.publish
  simp only [valid, plain.fresh, hstamped]
  cases res with
  | error e => exact ⟨rfl, rfl, (evictFor_same ..).2.2.1⟩
  | ok offset =>
    -- The broker after the append, before the checkpoint.
    let b : Broker σ := { s.broker.evictFor (producerIdempKey c.record) c.now c.p with store := st }
    have hsilent : (b.remember c.now c.p offset (producerIdempKey c.record)).store = st ∧
        (b.remember c.now c.p offset (producerIdempKey c.record)).registry = b.registry := by
      apply remember_silent
      rw [show b.dedupTopic = s.broker.dedupTopic from htopic]
      exact plain.silent
    have hcount : ((b.remember c.now c.p offset (producerIdempKey c.record)).partitions c.p).subscribers = 0 := by
      rw [subscribers_remember, ← hnobody]
      exact subscribers_evictFor ..
    refine ⟨?_, hsilent.1, hsilent.2.trans (evictFor_same ..).2.2.1⟩
    exact congrArg Except.toOption (fanOut_nobody hcount offset c.interrupted)

/-- A call that both modes treat alike is answered alike, and leaves states that differ in the checkpoints only. -/
theorem Twin.published (h : Twin s s') (counted : Counted s) (shared : Shared s (.publish c)) :
    clusteredOffset s' c = standaloneOffset s c ∧ Twin (standalone s (.publish c)) (clustered s' (.publish c)) := by
  obtain ⟨hbroker, hsubs, hfree⟩ := standalone_publish h.free fun valid => (shared valid).alone
  cases hvalid : s.broker.validate c.p with
  | error e =>
    have hcall : s.broker.call c = (.error e, s.broker) := by simp only [call, Broker.publish, hvalid]
    have hleader : publish s'.broker c = (.error (.broker e), s'.broker) := by simp only [publish, ← h.validate, hvalid]
    simp only [clusteredOffset, standaloneOffset, hleader, hcall]
    refine ⟨rfl, ?_, ?_, hsubs.trans h.subs, hfree, h.free'⟩
    · rw [hbroker, hcall]
      simpa only [clustered, hleader] using h.store
    · rw [hbroker, hcall]
      simpa only [clustered, hleader] using h.registry
  | ok u =>
    have plain := shared hvalid
    cases happend : Store.append s.broker.store .background c.now c.p c.record with
    | mk res st =>
      obtain ⟨hanswer, hstore, hregistry⟩ := call_plain counted plain hvalid happend
      have hthrough : Store.append s'.broker.store .background c.now c.p (received c.record) = (res, st) := by
        rw [← happend, h.store]
        exact Views.append_congr _ _ _ _ plain.intact
      have hleader : (publish s'.broker c).1.toOption = res.toOption ∧ (publish s'.broker c).2.store = st ∧
          (publish s'.broker c).2.registry = s'.broker.registry := by
        simp only [publish, ← h.validate, hvalid, publishClustered_eq _ _ _ plain.short, hthrough]
        cases res <;> exact ⟨rfl, rfl, rfl⟩
      refine ⟨hleader.1.trans hanswer.symm, ?_, ?_, hsubs.trans h.subs, hfree, h.free'⟩
      · rw [hbroker, hstore]
        exact hleader.2.1.symm
      · rw [hbroker, hregistry, h.registry]
        exact hleader.2.2.symm

omit [Contract σ] [Views σ] in
theorem counted_standalone (h : Counted s) (a : Action) : Counted (standalone s a) := by
  have hsends : ∀ n p {s : State σ}, Counted s → Counted (fanOut s p n) := by
    intro n p
    induction n with
    | zero => exact id
    | succ n ih => exact fun h => ih (h.step (.send p))
  cases a with
  | publish c => exact hsends _ _ (h.step (.publish c))
  | _ => exact h.step _

theorem Twin.both (h : Twin s s') (counted : Counted s) {a : Action} (shared : Shared s a) :
    Twin (standalone s a) (clustered s' a) := by
  cases a with
  | subscribe ctx p fromOffset => exact h.subscribe ctx p fromOffset
  | publish c => exact (h.published counted shared).2
  | send p =>
    simp only [standalone, clustered, State.step, State.send, h.free, h.free']
    exact h
  | cut p =>
    simp only [standalone, clustered, State.step, State.cut, h.free, h.free']
    exact h
  | pump j => exact h.pump j
  | stop j | cancel j e | receive j => exact h.modify j _

theorem twin (none : ∀ p, (b.partitions p).subscribers = 0) {run : List Action}
    (shared : Along standalone (.start b) run Shared) :
    Counted (run.foldl standalone (.start b)) ∧ Twin (run.foldl standalone (.start b)) (run.foldl clustered (.start b)) := by
  refine shared.invariant (fun done s => Counted s ∧ Twin s (done.foldl clustered (.start b))) ?_ ⟨fun p => none p, rfl,
    rfl, rfl, fun _ => rfl, fun _ => rfl⟩
  intro done s a ⟨hcounted, htwin⟩ hshared
  rw [foldl_append]
  exact ⟨counted_standalone hcounted a, htwin.both hcounted hshared⟩

/-- In a run whose calls are all plain, the leader answers every Publish with the offset the standalone broker
    answers, and ends with the same store and the same subscriptions. -/
theorem clustered_refines {b : Broker σ} (none : ∀ p, (b.partitions p).subscribers = 0) {run : List Action}
    (shared : Along standalone (.start b) run Shared) :
    (∀ done c rest, run = done ++ .publish c :: rest →
      clusteredOffset (done.foldl clustered (.start b)) c = standaloneOffset (done.foldl standalone (.start b)) c) ∧
    (run.foldl clustered (.start b)).broker.store = (run.foldl standalone (.start b)).broker.store ∧
    (run.foldl clustered (.start b)).subs.map Subscription.delivered =
      (run.foldl standalone (.start b)).subs.map Subscription.delivered := by
  refine ⟨fun done c rest hrun => ?_, (twin none shared).2.store.symm, by rw [(twin none shared).2.subs]⟩
  have hnow := shared done (.publish c) rest hrun
  rw [hrun] at shared
  obtain ⟨hcounted, htwin⟩ := twin none shared.of_append
  exact (htwin.published hcounted hnow).1

end

def listen : Action := .subscribe .background part 0

theorem clustered_refines_hello :
    (([.publish hello, listen, .pump 0, .pump 0].foldl clustered (.start memory)).subs.map Subscription.delivered) =
      [[⟨0, 1, none, some [7], []⟩]] ∧
    clusteredOffset (.start memory) hello = standaloneOffset (.start memory) hello ∧
    ([.publish hello, listen, .pump 0, .pump 0].foldl clustered (.start memory)).subs.map Subscription.delivered =
      ([.publish hello, listen, .pump 0, .pump 0].foldl standalone (.start memory)).subs.map Subscription.delivered := by
  have hplain : Plain (.start memory) hello :=
    ⟨rfl, rfl, .inl rfl, rfl, by decide, fun _ => rfl⟩
  have hshared : Along standalone (.start memory) [.publish hello, listen, .pump 0, .pump 0] Shared :=
    .cons (fun _ => hplain) (.cons trivial (.cons trivial (.cons trivial .nil)))
  have hrun := clustered_refines (fun _ => rfl) hshared
  exact ⟨by decide +kernel, hrun.1 [] hello _ rfl, hrun.2.2⟩

def first : Call := ⟨⟨.background, 1, none⟩, part,
    ⟨0, 1, none, some [7], [⟨headerProducerID, some [65]⟩, ⟨headerProducerSeq, some [0, 0, 0, 0, 0, 0, 0, 1]⟩]⟩⟩

/-- A live subscriber gets the record from the standalone broker and nothing from the leader; and a retry that the
    standalone broker answers with the old offset is stored again by the leader. -/
theorem leader_differs :
    ([listen, .pump 0, .publish hello, .pump 0, .pump 0].foldl standalone (.start memory)).subs.map Subscription.delivered =
      [[⟨0, 1, none, some [7], []⟩]] ∧
    ([listen, .pump 0, .publish hello, .pump 0, .pump 0].foldl clustered (.start memory)).subs.map
      Subscription.delivered = [[]] ∧
    standaloneOffset (standalone (.start memory) (.publish first)) first = some 0 ∧
    clusteredOffset (clustered (.start memory) (.publish first)) first = some 1 := by
  decide +kernel

end Holocron.Clustered
