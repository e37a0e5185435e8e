import Holocron.Broker.Segments
import Holocron.Groups.OffsetStores
import Holocron.Proto.Messages
import Holocron.Server.Authorize

/-! The requests of one connection of a standalone server (broker/internal/server/server.go). Responses are known by
    what they encode; clock readings, new ids and limiter answers come with the request; nothing else happens while one
    waits. -/

namespace Holocron.Server
open Lib Storage Wire Topic Groups

inductive OpCode where
  | produce
  | fetch
  | metadata
  | createTopic
  | commit
  | handshake
  | joinGroup
  | heartbeat
  | leaveGroup
  | sync
  | produceBatch
  | highWater
  | clusterMembers
  | addVoter
  | removeVoter
  | listSegments
  | fetchSegmentChunk
  | deleteTopic
  | listTopics
  | listGroups
  | describeGroup
  | clusterStatus
  | updateTopicConfig
  | listGroupOffsets
  | deleteGroup
  deriving DecidableEq, Repr

def OpCode.all : List OpCode :=
  [.produce, .fetch, .metadata, .createTopic, .commit, .handshake, .joinGroup, .heartbeat, .leaveGroup, .sync, .produceBatch,
    .highWater, .clusterMembers, .addVoter, .removeVoter, .listSegments, .fetchSegmentChunk, .deleteTopic, .listTopics,
    .listGroups, .describeGroup, .clusterStatus, .updateTopicConfig, .listGroupOffsets, .deleteGroup]

def OpCode.ofByte (b : UInt8) : Option OpCode := if b = 0 then none else OpCode.all[b.toNat - 1]?

structure Arrival where
  op : UInt8
  body : Bytes
  clock : Nat → Int64
  now : Int
  now' : Int
  fresh : Bytes
  call : Nat
  walk : Walk
  produceLimiter : Option (Nat → Bool)
  fetchLimiter : Option (Nat → Bool)

def Arrival.conn (a : Arrival) (p : Principal) : Conn := ⟨authorize p, a.produceLimiter, a.fetchLimiter⟩

inductive ServeError where
  | request (e : RequestError)
  | segments (e : SegmentsError)
  | noGroupManager
  | group (e : GroupError)
  | internal (e : StoreError)
  | notClustered
  | unknownOpcode (op : UInt8)
  deriving DecidableEq, Repr

inductive Reply where
  | done
  | body (b : Bytes)
  | records (r : FetchResponse)
  | partitionCount (n : Int32)
  | highWater (n : Int)
  | segments (l : List Log.PartitionLog.SegmentSnapshot)
  | chunk (b : Bytes)
  | topics (l : List TopicConfig)
  | clusterMembers (l : List ClusterMember)
  | clusterStatus (nodeID : Bytes) (isLeader : Bool) (leaderID leaderAddr : Bytes)
  | groups (summaries : Bytes → Option Groups.GroupSummary)
  | group (d : GroupDetails)
  | offsets (l : List (OffsetEntry × Int))
  | joined (r : JoinResult)
  | heartbeat (rebalanceNeeded : Bool)

/-- The broker with its group manager. On disk the manager's offset store is a `TopicOffsetStore` on the broker's own
    store, with this topic (embed.go); in memory it is a map and has none. -/
structure State (σ : Type) where
  core : Broker σ
  groups : Option Manager
  offsetsTopic : Option Bytes

abbrev Response := Except ServeError Reply

namespace State

variable {σ : Type}

def setGroups (s : State σ) (m : Manager) : State σ := { s with groups := some m }

def setStore (s : State σ) (store : σ) : State σ := { s with core := { s.core with store } }

def decoded {α : Type} (s : State σ) (decoder : Decoder α) (body : Bytes) (handle : α → Response × State σ) :
    Response × State σ :=
  match decoder body with
  | .error e => (.error (.request (.invalid e)), s)
  | .ok (req, _) => handle req

def authorized (s : State σ) (p : Principal) (action : Action) (resource : Bytes) (handle : Response × State σ) :
    Response × State σ :=
  if !authorize p action resource then (.error (.request .forbidden), s) else handle

def answered {α : Type} (s : State σ) (reply : α → Reply) (res : Except BrokerError α × Broker σ) : Response × State σ :=
  match res with
  | (.error e, b) => (.error (.request (.failed e)), { s with core := b })
  | (.ok x, b) => (.ok (reply x), { s with core := b })

def answeredSegments {α : Type} (s : State σ) (reply : α → Reply) (res : Except SegmentsError α × Broker σ) :
    Response × State σ :=
  match res with
  | (.error e, b) => (.error (.segments e), { s with core := b })
  | (.ok x, b) => (.ok (reply x), { s with core := b })

def handleMetadata (s : State σ) (body : Bytes) : Response × State σ :=
  s.decoded decodeMetadataRequest body fun topic =>
    match s.core.registry.partitionsFor topic with
    | .error e => (.error (.request (.failed (.topic e))), s)
    | .ok n => (.ok (.partitionCount n), s)

def handleCreateTopic (p : Principal) (s : State σ) (body : Bytes) : Response × State σ :=
  s.decoded decodeCreateTopicRequest body fun req =>
    s.authorized p .admin req.name
      (s.answered (fun _ => .done) (s.core.createTopic ⟨req.name, req.partitionCount, req.retentionMs, req.segmentBytes⟩))

def handleUpdateTopicConfig (p : Principal) (s : State σ) (body : Bytes) : Response × State σ :=
  s.decoded decodeUpdateTopicConfigRequest body fun req =>
    s.authorized p .admin req.name (s.answered (fun _ => .done)
      (s.core.updateTopicConfig req.name req.retentionMs req.segmentBytes))

def handleListTopics (s : State σ) : Response × State σ := (.ok (.topics s.core.registry.topics), s)

def handleClusterMembers (s : State σ) (body : Bytes) : Response × State σ :=
  s.decoded decodeClusterMembersRequest body fun _ => (.ok (.clusterMembers []), s)

def handleAddVoter (p : Principal) (s : State σ) (body : Bytes) : Response × State σ :=
  s.authorized p .admin [] (s.decoded decodeAddVoterRequest body fun _ => (.error .notClustered, s))

def handleRemoveVoter (p : Principal) (s : State σ) (body : Bytes) : Response × State σ :=
  s.authorized p .admin [] (s.decoded decodeRemoveVoterRequest body fun _ => (.error .notClustered, s))

def handleClusterStatus (s : State σ) : Response × State σ := (.ok (.clusterStatus [] false [] []), s)

def withGroups (s : State σ) (otherwise : Response) (handle : Manager → Response × State σ) : Response × State σ :=
  match s.groups with
  | none => (otherwise, s)
  | some m => handle m

def handleListGroups (s : State σ) : Response × State σ :=
  s.withGroups (.ok (.groups fun _ => none)) fun m => (.ok (.groups m.list), s)

def handleDescribeGroup (s : State σ) (body : Bytes) : Response × State σ :=
  s.decoded decodeDescribeGroupRequest body fun name =>
    s.withGroups (.error .noGroupManager) fun m => (((m.describe name).map .group).mapError .group, s)

def handleJoinGroup (a : Arrival) (s : State σ) : Response × State σ :=
  s.decoded decodeJoinGroupRequest a.body fun req =>
    s.withGroups (.error .noGroupManager) fun m =>
      match m.join s.core.registry.partitionsFor req.group req.memberID a.fresh req.topics a.now a.now' with
      | (.error e, m') => (.error (.group e), s.setGroups m')
      | (.ok res, m') => (.ok (.joined res), s.setGroups m')

def serverHeartbeatWaitCap : Int := 30 * 10 ^ 9

/-- A heartbeat that waits is not woken: the deadline passes and its watcher goes. -/
def handleHeartbeat (a : Arrival) (s : State σ) : Response × State σ :=
  s.decoded decodeHeartbeatRequest a.body fun req =>
    s.withGroups (.error .noGroupManager) fun m =>
      let wait := min (req.maxWaitMs.toInt * 10 ^ 6) serverHeartbeatWaitCap
      if 0 < wait then
        match m.heartbeatWait req.group req.memberID req.generation a.now a.now' wait a.call with
        | (.error e, m') => (.error (.group e), s.setGroups m')
        | (.ok true, m') => (.ok (.heartbeat true), s.setGroups m')
        | (.ok false, m') => (.ok (.heartbeat false), s.setGroups (m'.removeWatcher req.group a.call))
      else
        match m.heartbeatLocked req.group req.memberID req.generation a.now a.now' with
        | (.error e, m') => (.error (.group e), s.setGroups m')
        | (.ok needed, m') => (.ok (.heartbeat needed), s.setGroups m')

def handleLeaveGroup (s : State σ) (body : Bytes) : Response × State σ :=
  s.decoded decodeLeaveGroupRequest body fun req =>
    s.withGroups (.ok .done) fun m => (.ok .done, s.setGroups (m.leave req.group req.memberID))

section

variable [Store σ]

/-- `Manager.Delete` with a `TopicOffsetStore`: the group goes first, then a tombstone is appended for each of its keys. -/
def deleteGroup (scan : Scan) (a : Arrival) (s : State σ) (m : Manager) (topic name : Bytes) : Response × State σ :=
  if (m.groups name).isNone ∧ m.offsetKeys (fun k => (scan.key k).1) name = [] then (.error (.group .unknownGroup), s)
  else
    let o : TopicOffsetStore := ⟨topic, m.offsets⟩
    let m := { m with groups := Function.update m.groups name none }
    match o.deleteGroup s.core.store (a.clock 0) (o.walkedKeys scan a.walk name) with
    | (.error e, _, store) => (.error (.internal e), (s.setStore store).setGroups m)
    | (.ok (), o, store) => (.ok .done, (s.setStore store).setGroups { m with offsets := o.entries })

def handleDeleteGroup (scan : Scan) (a : Arrival) (s : State σ) : Response × State σ :=
  s.decoded decodeDeleteGroupRequest a.body fun name =>
    s.withGroups (.error .noGroupManager) fun m =>
      match s.offsetsTopic with
      | some topic => deleteGroup scan a s m topic name
      | none =>
        match m.delete (fun k => (scan.key k).1) name with
        | (.error e, m') => (.error (.group e), s.setGroups m')
        | (.ok (), m') => (.ok .done, s.setGroups m')

/-- `Manager.Commit` with a `TopicOffsetStore`: the offset is noted once its record is stored. -/
def commit (now : Int64) (s : State σ) (m : Manager) (topic : Bytes) (req : CommitRequest) : Response × State σ :=
  match TopicOffsetStore.commit ⟨topic, m.offsets⟩ s.core.store now req.group req.topic req.partition req.offset.toInt with
  | (.error e, _, store) => (.error (.internal e), s.setStore store)
  | (.ok (), o, store) => (.ok .done, (s.setStore store).setGroups { m with offsets := o.entries })

def handleCommit (now : Int64) (s : State σ) (body : Bytes) : Response × State σ :=
  s.decoded decodeCommitRequest body fun req =>
    s.withGroups (.ok .done) fun m =>
      match s.offsetsTopic with
      | some topic => commit now s m topic req
      | none => (.ok .done, s.setGroups (m.commit req.group req.topic req.partition req.offset.toInt))

def handleDeleteTopic (p : Principal) (s : State σ) (body : Bytes) : Response × State σ :=
  s.decoded decodeDeleteTopicRequest body fun name =>
    s.authorized p .admin name (s.answered (fun _ => .done) (s.core.deleteTopic name))

def handleHighWater (s : State σ) (body : Bytes) : Response × State σ :=
  s.decoded decodeHighWaterRequest body fun req =>
    s.answered .highWater (s.core.highWater .background ⟨req.topic, req.partition⟩)

def handleSync (s : State σ) (body : Bytes) : Response × State σ :=
  s.decoded decodeSyncRequest body fun req => s.answered (fun _ => .done) (s.core.sync .background ⟨req.topic, req.partition⟩)

def offsetEntries : List OffsetEntry → Broker σ → List (OffsetEntry × Int) × Broker σ
  | [], b => ([], b)
  | e :: rest, b =>
    let (res, b) := b.highWater .background ⟨e.topic, e.partition⟩
    let hw := match res with
      | .error _ => -1
      | .ok n => n
    let (entries, b) := offsetEntries rest b
    ((e, hw) :: entries, b)

def handleListGroupOffsets (scan : Scan) (s : State σ) (body : Bytes) : Response × State σ :=
  s.decoded decodeListGroupOffsetsRequest body fun name =>
    s.withGroups (.ok (.offsets [])) fun m =>
      let (entries, b) := offsetEntries (m.listOffsets scan name) s.core
      (.ok (.offsets entries), { s with core := b })

def moved {α : Type} (s : State σ) (reply : α → Reply) (res : Except RequestError α × Broker σ) : Response × State σ :=
  ((res.1.map reply).mapError .request, { s with core := res.2 })

def fetched (c : Conn) (b : Broker σ) (body : Bytes) : Broker σ :=
  match decodeFetchRequest body with
  | .error _ => b
  | .ok (req, _) =>
    if !c.allows .consume req.topic then b
    else (b.read .background ⟨req.topic, req.partition⟩ req.fromOffset.toInt (maxRecs req)).2

def serveFetch (c : Conn) (s : State σ) (body : Bytes) : Response × State σ :=
  match handleFetch c body [(⟨s.core, true⟩ : Poll σ)] with
  | none => (.ok .done, s)
  | some res => s.moved .records (res, fetched c s.core body)

end

section

variable [Snapshots σ]

def handleListSegments (s : State σ) (body : Bytes) : Response × State σ :=
  s.decoded decodeListSegmentsRequest body fun req =>
    s.answeredSegments .segments (s.core.listSegments .background ⟨req.topic, req.partition⟩)

def segmentChunkServerCap : Int := 4 * 2 ^ 20

def segmentKind (kind : UInt8) : Log.SegmentKind := if kind = 1 then .idx else .log

def handleFetchSegmentChunk (s : State σ) (body : Bytes) : Response × State σ :=
  s.decoded decodeFetchSegmentChunkRequest body fun req =>
    let max := req.maxBytes.toInt
    let max := if max ≤ 0 ∨ segmentChunkServerCap < max then segmentChunkServerCap else max
    s.answeredSegments .chunk
      (s.core.fetchSegmentChunk .background ⟨req.topic, req.partition⟩ req.base.toInt (segmentKind req.kind)
        req.offset.toInt max)

end

variable [Store σ] [Snapshots σ]

def dispatch (lz : Lz4) (scan : Scan) (p : Principal) (s : State σ) (a : Arrival) : Response × State σ :=
  match OpCode.ofByte a.op with
  | some .produce => s.moved .body (handleProduce (a.conn p) (a.clock 0) s.core a.body)
  | some .fetch => serveFetch (a.conn p) s a.body
  | some .metadata => s.handleMetadata a.body
  | some .createTopic => handleCreateTopic p s a.body
  | some .highWater => s.handleHighWater a.body
  | some .clusterMembers => s.handleClusterMembers a.body
  | some .addVoter => handleAddVoter p s a.body
  | some .removeVoter => handleRemoveVoter p s a.body
  | some .listSegments => s.handleListSegments a.body
  | some .fetchSegmentChunk => s.handleFetchSegmentChunk a.body
  | some .deleteTopic => handleDeleteTopic p s a.body
  | some .listTopics => s.handleListTopics
  | some .listGroups => s.handleListGroups
  | some .describeGroup => s.handleDescribeGroup a.body
  | some .listGroupOffsets => handleListGroupOffsets scan s a.body
  | some .deleteGroup => handleDeleteGroup scan a s
  | some .clusterStatus => s.handleClusterStatus
  | some .updateTopicConfig => handleUpdateTopicConfig p s a.body
  | some .commit => handleCommit (a.clock 0) s a.body
  | some .joinGroup => handleJoinGroup a s
  | some .heartbeat => handleHeartbeat a s
  | some .leaveGroup => s.handleLeaveGroup a.body
  | some .sync => s.handleSync a.body
  | some .produceBatch => s.moved .body (handleProduceBatch lz (a.conn p) a.clock s.core a.body)
  | some .handshake => (.error (.unknownOpcode a.op), s)
  | none => (.error (.unknownOpcode a.op), s)

def serve (lz : Lz4) (scan : Scan) (p : Principal) (s : State σ) : List Arrival → List Response × State σ
  | [] => ([], s)
  | a :: rest =>
    let (res, s) := dispatch lz scan p s a
    let (responses, s) := serve lz scan p s rest
    (res :: responses, s)

end State
end Holocron.Server
