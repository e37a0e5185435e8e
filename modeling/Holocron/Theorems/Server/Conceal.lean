import Holocron.Theorems.Server.Deny
import Holocron.Theorems.Storage.Conceal

/-! Servers that differ only in the records of one topic, and a principal that may not consume it: only chunks of log
    files tell them apart. -/

namespace Holocron.Server
open Lib Storage Wire Topic Groups List

section

variable {σ : Type} [Store σ] [Snapshots σ] [Concealing σ] {T : Bytes}

structure BrokerTwin (T : Bytes) (b b' : Broker σ) : Prop where
  registry : b'.registry = b.registry
  dedupTTL : b'.dedupTTL = b.dedupTTL
  dedupTopic : b'.dedupTopic = b.dedupTopic
  partitions : b'.partitions = b.partitions
  store : Concealing.Twin T b.store b'.store

namespace BrokerTwin

variable {b b' : Broker σ} (h : BrokerTwin T b b') {p : PartitionRef}
include h

theorem validate (p : PartitionRef) : b'.validate p = b.validate p := by rw [Broker.validate, Broker.validate, h.registry]

theorem withStore {s s' : σ} (hs : Concealing.Twin T s s') : BrokerTwin T { b with store := s } { b' with store := s' } :=
  ⟨h.registry, h.dedupTTL, h.dedupTopic, h.partitions, hs⟩

theorem withRegistry (registry : Registry) : BrokerTwin T { b with registry := registry } { b' with registry := registry } :=
  ⟨rfl, h.dedupTTL, h.dedupTopic, h.partitions, h.store⟩

theorem setPartition (p : PartitionRef) (ps : PartitionState) : BrokerTwin T (b.setPartition p ps) (b'.setPartition p ps) :=
  ⟨h.registry, h.dedupTTL, h.dedupTopic, by rw [Broker.setPartition, Broker.setPartition, h.partitions], h.store⟩

theorem evictFor (key : Option (Bytes × UInt64)) (now : Int64) (p : PartitionRef) :
    BrokerTwin T (b.evictFor key now p) (b'.evictFor key now p) := by
  simp only [Broker.evictFor, h.dedupTTL, h.partitions]
  split
  · exact h.setPartition p _
  · exact h

theorem persistDedupCheckpoint (now : Int64) (id : Bytes) (p : PartitionRef) (cp : ProducerCheckpoint) :
    BrokerTwin T (b.persistDedupCheckpoint now id p cp) (b'.persistDedupCheckpoint now id p cp) := by
  simp only [Broker.persistDedupCheckpoint, h.dedupTopic]
  split
  · exact h
  · exact ⟨h.registry, h.dedupTTL, rfl, h.partitions,
      (Concealing.append h.store .background now ⟨b.dedupTopic, 0⟩ (dedupRecord id p cp)).next⟩

theorem remember (now : Int64) (p : PartitionRef) (offset : Int) (key : Option (Bytes × UInt64)) :
    BrokerTwin T (b.remember now p offset key) (b'.remember now p offset key) := by
  cases key with
  | none => exact h
  | some key =>
    obtain ⟨id, seq⟩ := key
    have hset :=
      h.setPartition p { b.partitions p with dedup := Function.update (b.partitions p).dedup id (some ⟨seq, offset, now⟩) }
    simp only [Broker.remember, h.partitions, hset.dedupTopic]
    split
    · exact hset.persistDedupCheckpoint now id p _
    · exact hset

theorem publish (ctx : Ctx) (now : Int64) (interrupted : Option CtxError) (p : PartitionRef) (r : Record) :
    InStep (BrokerTwin T) (b.publish ctx now interrupted p r) (b'.publish ctx now interrupted p r) := by
  unfold Broker.publish
  rw [h.validate]
  cases b.validate p with
  | error e => exact ⟨rfl, h⟩
  | ok _ =>
    have hevicted := h.evictFor (producerIdempKey r) now p
    dsimp only
    generalize b.evictFor (producerIdempKey r) now p = c at hevicted ⊢
    generalize b'.evictFor (producerIdempKey r) now p = c' at hevicted ⊢
    rw [show c'.partitions p = c.partitions p from congrFun hevicted.partitions p]
    split
    · exact ⟨rfl, hevicted⟩
    · obtain ⟨res, s, s', hx, hx', hnext⟩ := (Concealing.append hevicted.store ctx now p (Broker.withTimestamp now r)).split
      rw [hx, hx']
      cases res with
      | error e => exact ⟨rfl, hevicted.withStore hnext⟩
      | ok offset =>
        have hremembered := (hevicted.withStore hnext).remember now p offset (producerIdempKey r)
        refine ⟨?_, hremembered⟩
        dsimp only
        rw [hremembered.partitions]

theorem publishAll (calls : List Broker.Call) : InStep (BrokerTwin T) (b.publishAll calls) (b'.publishAll calls) := by
  induction calls generalizing b b' with
  | nil => exact ⟨rfl, h⟩
  | cons c rest ih =>
    obtain ⟨res, b₁, b₁', hx, hx', hnext⟩ := (h.publish c.ctx c.now c.interrupted c.p c.record).split
    simp only [Broker.publishAll, Broker.call, hx, hx']
    cases res with
    | error e => exact ⟨rfl, hnext⟩
    | ok _ => exact ih hnext

theorem publishBatch (calls : List Broker.Call) : InStep (BrokerTwin T) (b.publishBatch calls) (b'.publishBatch calls) := by
  cases calls with
  | nil => exact ⟨rfl, h⟩
  | cons c rest =>
    obtain ⟨res, b₁, b₁', hx, hx', hnext⟩ := (h.publish c.ctx c.now c.interrupted c.p c.record).split
    simp only [Broker.publishBatch, Broker.call, hx, hx']
    cases res with
    | error e => exact ⟨rfl, hnext⟩
    | ok offset =>
      obtain ⟨res, b₂, b₂', hy, hy', hlast⟩ := (hnext.publishAll rest).split
      simp only [hy, hy']
      cases res <;> exact ⟨rfl, hlast⟩

theorem read (ctx : Ctx) (hp : p.topic ≠ T) (n m : Int) :
    InStep (BrokerTwin T) (b.read ctx p n m) (b'.read ctx p n m) := by
  unfold Broker.read
  rw [h.validate]
  cases b.validate p with
  | error e => exact ⟨rfl, h⟩
  | ok _ =>
    obtain ⟨res, s, s', hx, hx', hnext⟩ := (Concealing.read h.store ctx hp n m).split
    simp only [hx, hx']
    cases res <;> exact ⟨rfl, h.withStore hnext⟩

theorem highWater (ctx : Ctx) (p : PartitionRef) : InStep (BrokerTwin T) (b.highWater ctx p) (b'.highWater ctx p) := by
  unfold Broker.highWater
  rw [h.validate]
  cases b.validate p with
  | error e => exact ⟨rfl, h⟩
  | ok _ =>
    obtain ⟨res, s, s', hx, hx', hnext⟩ := (Concealing.highWater h.store ctx p).split
    simp only [hx, hx']
    cases res <;> exact ⟨rfl, h.withStore hnext⟩

theorem sync (ctx : Ctx) (p : PartitionRef) : InStep (BrokerTwin T) (b.sync ctx p) (b'.sync ctx p) := by
  unfold Broker.sync
  rw [h.validate]
  cases b.validate p with
  | error e => exact ⟨rfl, h⟩
  | ok _ =>
    obtain ⟨res, s, s', hx, hx', hnext⟩ := (Concealing.sync h.store ctx p).split
    simp only [hx, hx']
    cases res <;> exact ⟨rfl, h.withStore hnext⟩

theorem createTopic (spec : Spec) : InStep (BrokerTwin T) (b.createTopic spec) (b'.createTopic spec) := by
  unfold Broker.createTopic
  rw [h.registry]
  rcases b.registry.create spec with ⟨e | _, registry⟩ <;> exact ⟨rfl, h.withRegistry registry⟩

theorem updateTopicConfig (name : Bytes) (retentionMs segmentBytes : Int64) :
    InStep (BrokerTwin T) (b.updateTopicConfig name retentionMs segmentBytes)
      (b'.updateTopicConfig name retentionMs segmentBytes) := by
  unfold Broker.updateTopicConfig
  rw [h.registry]
  rcases b.registry.updateConfig name retentionMs segmentBytes with ⟨e | _, registry⟩ <;> exact ⟨rfl, h.withRegistry registry⟩

theorem deleteTopic (name : Bytes) : InStep (BrokerTwin T) (b.deleteTopic name) (b'.deleteTopic name) := by
  unfold Broker.deleteTopic
  rw [h.registry]
  rcases b.registry.delete name with ⟨e | _, registry⟩
  · exact ⟨rfl, h.withRegistry registry⟩
  · obtain ⟨res, s, s', hx, hx', hnext⟩ := (Concealing.deleteTopic h.store .background name).split
    simp only [hx, hx']
    cases res <;> exact ⟨rfl, (h.withRegistry registry).withStore hnext⟩

theorem listSegments (ctx : Ctx) (p : PartitionRef) : InStep (BrokerTwin T) (b.listSegments ctx p) (b'.listSegments ctx p) := by
  unfold Broker.listSegments
  rw [h.validate]
  cases b.validate p with
  | error e => exact ⟨rfl, h⟩
  | ok _ =>
    dsimp only
    split
    · exact ⟨rfl, h⟩
    · rename_i snapper hsnapper
      have hlist := Concealing.listSegments snapper hsnapper h.store ctx p
      exact ⟨hlist.answer, h.withStore hlist.next⟩

theorem fetchSegmentChunk (ctx : Ctx) {kind : Log.SegmentKind} (hp : p.topic = T → kind = .idx)
    (base offset maxBytes : Int) :
    InStep (BrokerTwin T) (b.fetchSegmentChunk ctx p base kind offset maxBytes)
      (b'.fetchSegmentChunk ctx p base kind offset maxBytes) := by
  unfold Broker.fetchSegmentChunk
  rw [h.validate]
  cases b.validate p with
  | error e => exact ⟨rfl, h⟩
  | ok _ =>
    dsimp only
    split
    · exact ⟨rfl, h⟩
    · rename_i snapper hsnapper
      have hfetch := Concealing.fetchSegmentChunk snapper hsnapper h.store ctx hp base offset maxBytes
      exact ⟨hfetch.answer, h.withStore hfetch.next⟩

theorem offsetEntries (entries : List OffsetEntry) :
    InStep (BrokerTwin T) (State.offsetEntries entries b) (State.offsetEntries entries b') := by
  induction entries generalizing b b' with
  | nil => exact ⟨rfl, h⟩
  | cons e rest ih =>
    obtain ⟨res, b₁, b₁', hx, hx', hnext⟩ := (h.highWater .background ⟨e.topic, e.partition⟩).split
    obtain ⟨hanswer, hlast⟩ := ih hnext
    simp only [State.offsetEntries, hx, hx', hanswer]
    exact ⟨rfl, hlast⟩

end BrokerTwin

section
variable {b b' : Broker σ} (h : BrokerTwin T b b')
include h

theorem handleProduce_inStep (c : Conn) (now : Int64) (body : Bytes) :
    InStep (BrokerTwin T) (handleProduce c now b body) (handleProduce c now b' body) := by
  unfold handleProduce
  split
  · exact ⟨rfl, h⟩
  · rename_i req _ _
    split
    · exact ⟨rfl, h⟩
    · split
      · exact ⟨rfl, h⟩
      · obtain ⟨res, b₁, b₁', hx, hx', hnext⟩ := (h.publish .background now none ⟨req.topic, req.partition⟩ req.record).split
        simp only [hx, hx']
        cases res <;> exact ⟨rfl, hnext⟩

theorem handleProduceBatch_inStep (lz : Lz4) (c : Conn) (clock : Nat → Int64) (body : Bytes) :
    InStep (BrokerTwin T) (handleProduceBatch lz c clock b body) (handleProduceBatch lz c clock b' body) := by
  unfold handleProduceBatch
  split
  · exact ⟨rfl, h⟩
  · rename_i req _ _
    split
    · exact ⟨rfl, h⟩
    · split
      · exact ⟨rfl, h⟩
      · split
        · exact ⟨rfl, h⟩
        · obtain ⟨res, b₁, b₁', hx, hx', hnext⟩ := (h.publishBatch (batchCalls clock req)).split
          simp only [hx, hx']
          cases res <;> exact ⟨rfl, hnext⟩

/-- A fetch by somebody who may not consume the topic. -/
theorem fetch_inStep {c : Conn} (blind : c.allows .consume T = false) (body : Bytes) :
    InStep (BrokerTwin T) (handleFetch c body [⟨b, true⟩], State.fetched c b body)
      (handleFetch c body [⟨b', true⟩], State.fetched c b' body) := by
  unfold handleFetch State.fetched
  rcases decodeFetchRequest body with e | ⟨req, rest⟩
  · exact ⟨rfl, h⟩
  · dsimp only
    cases hallowed : c.allows .consume req.topic with
    | false => exact ⟨rfl, h⟩
    | true =>
      have hp : req.topic ≠ T := fun heq => by
        rw [heq, blind] at hallowed
        cases hallowed
      obtain ⟨hanswer, hnext⟩ := h.read .background (p := ⟨req.topic, req.partition⟩) hp req.fromOffset.toInt (maxRecs req)
      simp only [pollLoop, hanswer]
      exact ⟨rfl, hnext⟩

end

/-- The states differ at most in what the topic's records hold. -/
structure ServerTwin (T : Bytes) (s s' : State σ) : Prop where
  core : BrokerTwin T s.core s'.core
  groups : s'.groups = s.groups
  offsetsTopic : s'.offsetsTopic = s.offsetsTopic

namespace ServerTwin

variable {s s' : State σ} (h : ServerTwin T s s')
include h

theorem withCore {b b' : Broker σ} (hb : BrokerTwin T b b') : ServerTwin T { s with core := b } { s' with core := b' } :=
  ⟨hb, h.groups, h.offsetsTopic⟩

theorem setGroups (m : Manager) : ServerTwin T (s.setGroups m) (s'.setGroups m) := ⟨h.core, rfl, h.offsetsTopic⟩

theorem setStore {store store' : σ} (hstore : Concealing.Twin T store store') :
    ServerTwin T (s.setStore store) (s'.setStore store') :=
  h.withCore ⟨h.core.registry, h.core.dedupTTL, h.core.dedupTopic, h.core.partitions, hstore⟩

omit h in
theorem appendTombstones {store store' : σ} (hstore : Concealing.Twin T store store') (p : PartitionRef) (now : Int64)
    (keys : List Bytes) : InStep (Concealing.Twin T) (TopicOffsetStore.appendTombstones p now store keys)
      (TopicOffsetStore.appendTombstones p now store' keys) := by
  induction keys generalizing store store' with
  | nil => exact ⟨rfl, hstore⟩
  | cons k rest ih =>
    obtain ⟨res, x, x', hx, hx', hnext⟩ := (Concealing.append hstore .background now p (Concurrent.tombstone k)).split
    simp only [TopicOffsetStore.appendTombstones, hx, hx']
    cases res with
    | error e => exact ⟨rfl, hnext⟩
    | ok n => exact ih hnext

theorem commit (now : Int64) (m : Manager) (topic : Bytes) (req : CommitRequest) :
    InStep (ServerTwin T) (s.commit now m topic req) (s'.commit now m topic req) := by
  obtain ⟨res, x, x', hx, hx', hnext⟩ := (Concealing.append h.core.store .background now ⟨topic, 0⟩
    (Concurrent.commitRecord (joinKey req.group req.topic req.partition) req.offset.toInt)).split
  simp only [State.commit, TopicOffsetStore.commit, TopicOffsetStore.pref, hx, hx']
  cases res with
  | error e => exact ⟨rfl, h.setStore hnext⟩
  | ok n => exact ⟨rfl, (h.setStore hnext).setGroups _⟩

theorem deleteGroup (scan : Scan) (a : Arrival) (m : Manager) (topic name : Bytes) :
    InStep (ServerTwin T) (s.deleteGroup scan a m topic name) (s'.deleteGroup scan a m topic name) := by
  unfold State.deleteGroup
  split
  · exact ⟨rfl, h⟩
  · obtain ⟨res, x, x', hx, hx', hnext⟩ := (appendTombstones h.core.store ⟨topic, 0⟩ (a.clock 0)
      (TopicOffsetStore.walkedKeys ⟨topic, m.offsets⟩ scan a.walk name)).split
    simp only [TopicOffsetStore.deleteGroup, TopicOffsetStore.pref, hx, hx']
    cases res with
    | error e | ok u => exact ⟨rfl, (h.setStore hnext).setGroups _⟩

theorem decoded {α : Type} (decoder : Decoder α) (body : Bytes) {handle handle' : α → Response × State σ}
    (handled : ∀ req rest, decoder body = .ok (req, rest) → InStep (ServerTwin T) (handle req) (handle' req)) :
    InStep (ServerTwin T) (s.decoded decoder body handle) (s'.decoded decoder body handle') := by
  unfold State.decoded
  split
  · exact ⟨rfl, h⟩
  · rename_i req rest hres
    exact handled req rest hres

theorem authorized (p : Principal) (action : Action) (resource : Bytes) {x x' : Response × State σ}
    (handled : InStep (ServerTwin T) x x') : InStep (ServerTwin T) (s.authorized p action resource x)
      (s'.authorized p action resource x') := by
  unfold State.authorized
  split
  · exact ⟨rfl, h⟩
  · exact handled

section
variable {α : Type} (reply : α → Reply)

theorem answered {x x' : Except BrokerError α × Broker σ} (hx : InStep (BrokerTwin T) x x') :
    InStep (ServerTwin T) (s.answered reply x) (s'.answered reply x') := by
  obtain ⟨res, b, b', rfl, rfl, hnext⟩ := hx.split
  cases res <;> exact ⟨rfl, h.withCore hnext⟩

theorem answeredSegments {x x' : Except SegmentsError α × Broker σ}
    (hx : InStep (BrokerTwin T) x x') : InStep (ServerTwin T) (s.answeredSegments reply x) (s'.answeredSegments reply x') := by
  obtain ⟨res, b, b', rfl, rfl, hnext⟩ := hx.split
  cases res <;> exact ⟨rfl, h.withCore hnext⟩

theorem moved {x x' : Except RequestError α × Broker σ} (hx : InStep (BrokerTwin T) x x') :
    InStep (ServerTwin T) (s.moved reply x) (s'.moved reply x') := by
  obtain ⟨res, b, b', rfl, rfl, hnext⟩ := hx.split
  exact ⟨rfl, h.withCore hnext⟩

end

theorem withGroups (otherwise : Response) {handle handle' : Manager → Response × State σ}
    (handled : ∀ m, InStep (ServerTwin T) (handle m) (handle' m)) :
    InStep (ServerTwin T) (s.withGroups otherwise handle) (s'.withGroups otherwise handle') := by
  unfold State.withGroups
  rw [h.groups]
  split
  · exact ⟨rfl, h⟩
  · exact handled _

theorem serveFetch {c : Conn} (blind : c.allows .consume T = false) (body : Bytes) :
    InStep (ServerTwin T) (s.serveFetch c body) (s'.serveFetch c body) := by
  obtain ⟨hanswer, hnext⟩ := fetch_inStep h.core blind body
  dsimp only at hanswer hnext
  unfold State.serveFetch
  rw [hanswer]
  split
  · exact ⟨rfl, h⟩
  · exact h.moved _ ⟨rfl, hnext⟩

end ServerTwin

/-- The request reads a chunk of the topic's log file. -/
def ReadsLog (T : Bytes) (a : Arrival) : Prop :=
  OpCode.ofByte a.op = some .fetchSegmentChunk ∧
    ∃ req rest, decodeFetchSegmentChunkRequest a.body = .ok (req, rest) ∧ req.topic = T ∧ State.segmentKind req.kind = .log

section
variable {p : Principal} (blind : authorize p .consume T = false) {s s' : State σ} (h : ServerTwin T s s') (lz : Lz4)
    (scan : Scan)
include blind h

theorem ServerTwin.dispatch
    {a : Arrival} (away : ¬ ReadsLog T a) : InStep (ServerTwin T) (s.dispatch lz scan p a) (s'.dispatch lz scan p a) := by
  unfold State.dispatch
  split <;> rename_i hop
  · exact h.moved _ (handleProduce_inStep h.core _ _ _)
  · exact h.serveFetch blind a.body
  · refine h.decoded _ _ fun topic _ _ => ?_
    rw [h.core.registry]
    split <;> exact ⟨rfl, h⟩
  · exact h.decoded _ _ fun req _ _ => h.authorized p _ _ (h.answered _ (h.core.createTopic _))
  · exact h.decoded _ _ fun req _ _ => h.answered _ (h.core.highWater _ _)
  · exact h.decoded _ _ fun _ _ _ => ⟨rfl, h⟩
  · exact h.authorized p _ _ (h.decoded _ _ fun _ _ _ => ⟨rfl, h⟩)
  · exact h.authorized p _ _ (h.decoded _ _ fun _ _ _ => ⟨rfl, h⟩)
  · exact h.decoded _ _ fun req _ _ => h.answeredSegments _ (h.core.listSegments _ _)
  · refine h.decoded _ _ fun req rest hreq => h.answeredSegments _ (h.core.fetchSegmentChunk _ (fun htopic => ?_) _ _ _)
    cases hkind : State.segmentKind req.kind with
    | idx => rfl
    | log => exact absurd ⟨hop, req, rest, hreq, htopic, hkind⟩ away
  · exact h.decoded _ _ fun name _ _ => h.authorized p _ _ (h.answered _ (h.core.deleteTopic _))
  · refine ⟨?_, h⟩
    simp only [State.handleListTopics, h.core.registry]
  · exact h.withGroups _ fun m => ⟨rfl, h⟩
  · exact h.decoded _ _ fun name _ _ => h.withGroups _ fun m => ⟨rfl, h⟩
  · refine h.decoded _ _ fun name _ _ => h.withGroups _ fun m => ?_
    obtain ⟨hanswer, hnext⟩ := h.core.offsetEntries (m.listOffsets scan name)
    exact ⟨congrArg (fun l => Except.ok (Reply.offsets l)) hanswer, h.withCore hnext⟩
  · refine h.decoded _ _ fun name _ _ => h.withGroups _ fun m => ?_
    rw [h.offsetsTopic]
    split
    · exact h.deleteGroup scan a m _ name
    · split <;> exact ⟨rfl, h.setGroups _⟩
  · exact ⟨rfl, h⟩
  · exact h.decoded _ _ fun req _ _ => h.authorized p _ _ (h.answered _ (h.core.updateTopicConfig _ _ _))
  · refine h.decoded _ _ fun req _ _ => h.withGroups _ fun m => ?_
    rw [h.offsetsTopic]
    split
    · exact h.commit _ m _ req
    · exact ⟨rfl, h.setGroups _⟩
  · refine h.decoded _ _ fun req _ _ => h.withGroups _ fun m => ?_
    rw [h.core.registry]
    split <;> exact ⟨rfl, h.setGroups _⟩
  · refine h.decoded _ _ fun req _ _ => h.withGroups _ fun m => ?_
    dsimp only
    split <;> split <;> exact ⟨rfl, h.setGroups _⟩
  · exact h.decoded _ _ fun req _ _ => h.withGroups _ fun m => ⟨rfl, h.setGroups _⟩
  · exact h.decoded _ _ fun req _ _ => h.answered _ (h.core.sync _ _)
  · exact h.moved _ (handleProduceBatch_inStep h.core _ _ _ _)
  · exact ⟨rfl, h⟩
  · exact ⟨rfl, h⟩

theorem ServerTwin.serve
    {arrivals : List Arrival} (away : ∀ a ∈ arrivals, ¬ ReadsLog T a) :
    InStep (ServerTwin T) (s.serve lz scan p arrivals) (s'.serve lz scan p arrivals) := by
  induction arrivals generalizing s s' with
  | nil => exact ⟨rfl, h⟩
  | cons a rest ih =>
    obtain ⟨hanswer, hnext⟩ := h.dispatch blind lz scan (away a mem_cons_self)
    obtain ⟨hanswers, hlast⟩ := ih hnext fun b hb => away b (mem_cons_of_mem a hb)
    simp only [State.serve, hanswer, hanswers]
    exact ⟨rfl, hlast⟩

end

/-- Without a scope to consume the topic, and without reading its log files, nothing tells what its records say. -/
theorem blind_to_contents {p : Principal} (blind : ∀ raw ∈ p.scopes, grants raw .consume T = false) {s s' : State σ}
    (twin : ServerTwin T s s')
    (lz : Lz4) (scan : Scan) {arrivals : List Arrival} (away : ∀ a ∈ arrivals, ¬ ReadsLog T a) :
    (s'.serve lz scan p arrivals).1 = (s.serve lz scan p arrivals).1 :=
  (twin.serve (authorize_eq_false blind) lz scan away).answer

end

def oneByte (v : UInt8) : Record := ⟨0, 5, none, some [v], []⟩

def oneRecord (v : UInt8) : FileStore :=
  .new 1000 (Function.update (fun _ => []) ⟨utf8 "t", 0⟩ [(Log.segmentLogName 0 false, Log.encodeRecord (oneByte v))])

def holding (v : UInt8) : State FileStore :=
  ⟨⟨oneRecord v, ⟨[⟨utf8 "t", 1, 0, 0⟩, ⟨defaultOffsetsTopic, 1, 0, 0⟩], none⟩, 0, [], fun _ => .empty⟩, some oneMember,
    some defaultOffsetsTopic⟩

theorem oneByte_body (v : UInt8) : (Log.encodeBody (oneByte v)).length = 29 := by
  simp [Log.encodeBody, oneByte, Slice.bytes]

theorem oneByte_fits (v : UInt8) : Log.Fits (oneByte v) := ⟨show Signed 8 0 by decide, by rw [oneByte_body]; decide⟩

theorem oneByte_twin (v w : UInt8) : Log.Twin (oneByte v) (oneByte w) :=
  ⟨rfl, rfl, by rw [Log.length_encodeRecord, Log.length_encodeRecord, oneByte_body, oneByte_body]⟩

theorem oneRecord_twin (v w : UInt8) : FileStore.Twin (utf8 "t") (oneRecord v) (oneRecord w) := by
  unfold oneRecord FileStore.new
  refine ⟨rfl, fun p => ?_⟩
  by_cases hp : p = ⟨utf8 "t", 0⟩
  · rw [hp]
    refine .closed (.cons ⟨rfl, ?_⟩ .nil) fun hne => absurd rfl hne
    have hframes := Log.logTwin_frames (.cons ⟨oneByte_twin v w, oneByte_fits v, oneByte_fits w⟩ .nil)
    rwa [Log.frames_cons, Log.frames_cons, Log.frames_nil, append_nil, append_nil] at hframes
  · simp only [Function.update_of_ne hp]
    exact .closed .nil fun _ => rfl

theorem holding_twin (v w : UInt8) : ServerTwin (utf8 "t") (holding v) (holding w) := by
  unfold holding
  exact ⟨⟨rfl, rfl, rfl, rfl, oneRecord_twin v w⟩, rfl, rfl⟩

def producer : Principal := ⟨utf8 "producer", [utf8 "produce:t", utf8 "consume:u"]⟩

def askHighWater (topic : Bytes) : Arrival := request 0x0C (encodeString topic ++ encodeInt32 0)

def produceAndCommit : List Arrival := [produceOne, askHighWater (utf8 "t"), commitSeven, askHighWater defaultOffsetsTopic]

/-- A producer of the topic that also commits an offset, which adds a record to another topic. -/
theorem blind_to_contents_produced : ((holding 105).serve incompressible noScan producer produceAndCommit).1 =
    ((holding 104).serve incompressible noScan producer produceAndCommit).1 := by
  refine blind_to_contents (T := utf8 "t") ?_ (holding_twin 104 105) incompressible noScan ?_
  · decide +kernel
  · intro a ha hreads
    have hop : ∀ a ∈ produceAndCommit, OpCode.ofByte a.op ≠ some .fetchSegmentChunk := by decide
    exact hop a ha hreads.1

def Response.mark : Response → Option Int
  | .ok (.highWater n) => some n
  | _ => none

example : ((holding 104).serve incompressible noScan producer produceAndCommit).1.map Response.mark =
    [none, some 2, none, some 1] := by decide +kernel

def fetchByte : Arrival :=
  request 0x11 (encodeString (utf8 "t") ++ encodeInt32 0 ++ encodeInt64 0 ++ [0] ++ encodeInt64 28 ++ encodeInt32 1)

def Response.chunk : Response → Option Bytes
  | .ok (.chunk b) => some b
  | _ => none

/-- Somebody whom no scope grants anything reads the value. -/
theorem powerless_reads_log : ServerTwin (utf8 "t") (holding 104) (holding 105) ∧ nobody.Powerless ∧
    ((holding 104).serve incompressible noScan nobody [fetchByte]).1.map Response.chunk = [some [104]] ∧
    ((holding 105).serve incompressible noScan nobody [fetchByte]).1.map Response.chunk = [some [105]] := by
  refine ⟨holding_twin 104 105, nobody_powerless, ?_, ?_⟩ <;> decide +kernel

end Holocron.Server
