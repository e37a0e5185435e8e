import Holocron.Proto.Response

/-! The messages of the wire protocol and their decoders (proto/wire.go); requests and answers that carry records are in
    `Proto.Response`. -/

namespace Holocron.Wire
open Lib

structure HandshakeRequest where
  version : UInt8
  credentialKind : UInt8
  credential : Slice

structure ProduceBatchResponse where
  baseOffset : Int64
  count : Int32

structure PartitionRequest where
  topic : Bytes
  partition : Int32

structure SegmentInfo where
  base : Int64
  logSize : Int64
  idxSize : Int64

structure FetchSegmentChunkRequest where
  topic : Bytes
  partition : Int32
  base : Int64
  kind : UInt8
  offset : Int64
  maxBytes : Int32

structure ClusterMember where
  id : Bytes
  addr : Bytes

structure ClusterStatusResponse where
  nodeID : Bytes
  isLeader : Bool
  leaderID : Bytes
  leaderAddr : Bytes

structure GroupSummary where
  name : Bytes
  generation : Int32
  memberCount : Int32
  topics : List Bytes

structure MemberAssignment where
  memberID : Bytes
  partitions : List PartitionRef

structure DescribeGroupResponse where
  name : Bytes
  generation : Int32
  topics : List Bytes
  members : List MemberAssignment

structure UpdateTopicConfigRequest where
  name : Bytes
  retentionMs : Int64
  segmentBytes : Int64

structure CommitRequest where
  group : Bytes
  topic : Bytes
  partition : Int32
  offset : Int64

structure JoinGroupRequest where
  group : Bytes
  memberID : Bytes
  topics : List Bytes

structure AssignmentEntry where
  topic : Bytes
  partition : Int32
  committedOffset : Int64

structure JoinGroupResponse where
  memberID : Bytes
  generation : Int32
  assignments : List AssignmentEntry

structure HeartbeatRequest where
  group : Bytes
  memberID : Bytes
  generation : Int32
  maxWaitMs : Int32

structure GroupOffsetEntry where
  topic : Bytes
  partition : Int32
  committed : Int64
  highWater : Int64

structure LeaveGroupRequest where
  group : Bytes
  memberID : Bytes

def uint32 (b : Bytes) : UInt32 := UInt32.ofNat (ofBigEndian b)

def decodeCount (e : WireError) : Decoder UInt32 := do
  let b ← block 4 e
  return uint32 b

def decodeList {α : Type} (d : Decoder α) : Nat → Decoder (List α)
  | 0 => return []
  | count + 1 => do
    let x ← d
    let rest ← decodeList d count
    return x :: rest

def decodeHandshakeRequest : Decoder HandshakeRequest := do
  let v ← block 1 .badHandshake
  let rest ← get
  if rest.length = 0 then return ⟨v.getD 0 0, 0, none⟩
  else do
    let kind ← block 1 .badHandshake
    let cred ← decodeBytes
    return ⟨v.getD 0 0, kind.getD 0 0, cred⟩

def decodeProduceResponse : Decoder Int64 := do
  let b ← block 8 (.short "ProduceResponse")
  return int64 b

def decodeProduceBatchResponse : Decoder ProduceBatchResponse := do
  let b ← block 12 (.short "ProduceBatchResponse")
  return ⟨int64 (slice b 0 8), int32 (slice b 8 12)⟩

def decodeName : Decoder Bytes := decodeString

def decodeMetadataRequest : Decoder Bytes := decodeName
def decodeRemoveVoterRequest : Decoder Bytes := decodeName
def decodeDescribeGroupRequest : Decoder Bytes := decodeName
def decodeDeleteTopicRequest : Decoder Bytes := decodeName
def decodeDeleteGroupRequest : Decoder Bytes := decodeName
def decodeListGroupOffsetsRequest : Decoder Bytes := decodeName

def decodeEmpty : Decoder Unit := return ()

def decodeClusterMembersRequest : Decoder Unit := decodeEmpty

def decodeMetadataResponse : Decoder Int32 := do
  let b ← block 4 (.short "MetadataResponse")
  return int32 b

def decodePartition (what : String) : Decoder PartitionRequest := do
  let topic ← decodeString
  let b ← block 4 (.short what)
  return ⟨topic, int32 b⟩

def decodeHighWaterRequest : Decoder PartitionRequest := decodePartition "HighWaterRequest"
def decodeListSegmentsRequest : Decoder PartitionRequest := decodePartition "ListSegmentsRequest"
def decodeSyncRequest : Decoder PartitionRequest := decodePartition "SyncRequest"

def decodeHighWaterResponse : Decoder Int64 := do
  let b ← block 8 (.short "HighWaterResponse")
  return int64 b

def decodeSegmentInfo : Decoder SegmentInfo := do
  let b ← block 24 (.short "ListSegmentsResponse entries")
  return ⟨int64 (slice b 0 8), int64 (slice b 8 16), int64 (slice b 16 24)⟩

/-- The one count that is checked against what follows. -/
def decodeListSegmentsResponse : Decoder (List SegmentInfo) := do
  let n ← decodeCount (.short "ListSegmentsResponse")
  let rest ← get
  if rest.length < n.toNat * 24 then throw (.short "ListSegmentsResponse entries")
  else decodeList decodeSegmentInfo n.toNat

def decodeFetchSegmentChunkRequest : Decoder FetchSegmentChunkRequest := do
  let topic ← decodeString
  let b ← block 25 (.short "FetchSegmentChunkRequest")
  return ⟨topic, int32 (slice b 0 4), int64 (slice b 4 12), b.getD 12 0, int64 (slice b 13 21), int32 (slice b 21 25)⟩

def decodeFetchSegmentChunkResponse : Decoder Slice := decodeBytes

def decodeClusterMember : Decoder ClusterMember := do
  let id ← decodeString
  let addr ← decodeString
  return ⟨id, addr⟩

def decodeClusterMembersResponse : Decoder (List ClusterMember) := do
  let n ← decodeCount (.short "ClusterMembersResponse")
  decodeList decodeClusterMember n.toNat

def decodeAddVoterRequest : Decoder ClusterMember := decodeClusterMember

def decodeTopicConfig (what : String) : Decoder TopicConfig := do
  let name ← decodeString
  let b ← block 20 (.short what)
  return ⟨name, int32 (slice b 0 4), int64 (slice b 4 12), int64 (slice b 12 20)⟩

def decodeCreateTopicRequest : Decoder TopicConfig := decodeTopicConfig "CreateTopicRequest"

def decodeListTopicsResponse : Decoder (List TopicConfig) := do
  let n ← decodeCount (.short "ListTopicsResponse")
  decodeList (decodeTopicConfig "ListTopicsResponse entry") n.toNat

def decodeUpdateTopicConfigRequest : Decoder UpdateTopicConfigRequest := do
  let name ← decodeString
  let b ← block 16 (.short "UpdateTopicConfigRequest")
  return ⟨name, int64 (slice b 0 8), int64 (slice b 8 16)⟩

def decodeClusterStatusResponse : Decoder ClusterStatusResponse := do
  let nodeID ← decodeString
  let b ← block 1 (.short "ClusterStatusResponse")
  let leaderID ← decodeString
  let leaderAddr ← decodeString
  return ⟨nodeID, decide (b.getD 0 0 ≠ 0), leaderID, leaderAddr⟩

def decodeGroupSummary : Decoder GroupSummary := do
  let name ← decodeString
  let b ← block 12 (.short "ListGroupsResponse entry")
  let topics ← decodeList decodeString (uint32 (slice b 8 12)).toNat
  return ⟨name, int32 (slice b 0 4), int32 (slice b 4 8), topics⟩

def decodeListGroupsResponse : Decoder (List GroupSummary) := do
  let n ← decodeCount (.short "ListGroupsResponse")
  decodeList decodeGroupSummary n.toNat

def decodePartitionRef : Decoder PartitionRef := do
  let topic ← decodeString
  let b ← block 4 (.short "DescribeGroupResponse partition")
  return ⟨topic, int32 b⟩

def decodeMemberAssignment : Decoder MemberAssignment := do
  let id ← decodeString
  let n ← decodeCount (.short "DescribeGroupResponse partition count")
  let partitions ← decodeList decodePartitionRef n.toNat
  return ⟨id, partitions⟩

def decodeDescribeGroupResponse : Decoder DescribeGroupResponse := do
  let name ← decodeString
  let b ← block 8 (.short "DescribeGroupResponse")
  let topics ← decodeList decodeString (uint32 (slice b 4 8)).toNat
  let n ← decodeCount (.short "DescribeGroupResponse members")
  let members ← decodeList decodeMemberAssignment n.toNat
  return ⟨name, int32 (slice b 0 4), topics, members⟩

def decodeCommitRequest : Decoder CommitRequest := do
  let group ← decodeString
  let topic ← decodeString
  let b ← block 12 (.short "CommitRequest")
  return ⟨group, topic, int32 (slice b 0 4), int64 (slice b 4 12)⟩

def decodeJoinGroupRequest : Decoder JoinGroupRequest := do
  let group ← decodeString
  let memberID ← decodeString
  let n ← decodeCount (.short "JoinGroupRequest")
  let topics ← decodeList decodeString n.toNat
  return ⟨group, memberID, topics⟩

def decodeAssignmentEntry : Decoder AssignmentEntry := do
  let topic ← decodeString
  let b ← block 12 .shortAssignment
  return ⟨topic, int32 (slice b 0 4), int64 (slice b 4 12)⟩

def decodeJoinGroupResponse : Decoder JoinGroupResponse := do
  let memberID ← decodeString
  let b ← block 8 (.short "JoinGroupResponse")
  let assignments ← decodeList decodeAssignmentEntry (uint32 (slice b 4 8)).toNat
  return ⟨memberID, int32 (slice b 0 4), assignments⟩

def decodeHeartbeatRequest : Decoder HeartbeatRequest := do
  let group ← decodeString
  let memberID ← decodeString
  let b ← block 8 (.short "HeartbeatRequest")
  return ⟨group, memberID, int32 (slice b 0 4), int32 (slice b 4 8)⟩

def decodeHeartbeatResponse : Decoder Bool := do
  let b ← block 1 (.short "HeartbeatResponse")
  return decide (b.getD 0 0 ≠ 0)

def decodeGroupOffsetEntry : Decoder GroupOffsetEntry := do
  let topic ← decodeString
  let b ← block 20 (.short "ListGroupOffsetsResponse entry")
  return ⟨topic, int32 (slice b 0 4), int64 (slice b 4 12), int64 (slice b 12 20)⟩

def decodeListGroupOffsetsResponse : Decoder (List GroupOffsetEntry) := do
  let n ← decodeCount (.short "ListGroupOffsetsResponse")
  decodeList decodeGroupOffsetEntry n.toNat

def decodeLeaveGroupRequest : Decoder LeaveGroupRequest := do
  let group ← decodeString
  let memberID ← decodeString
  return ⟨group, memberID⟩


inductive Message where
  | handshakeRequest | produceRequest | produceResponse | produceBatchRequest | produceBatchResponse
  | fetchRequest | fetchResponse | metadataRequest | metadataResponse | highWaterRequest | highWaterResponse
  | listSegmentsRequest | listSegmentsResponse | fetchSegmentChunkRequest | fetchSegmentChunkResponse
  | clusterMembersRequest | clusterMembersResponse | addVoterRequest | removeVoterRequest | createTopicRequest
  | clusterStatusRequest | clusterStatusResponse | listGroupsRequest | listGroupsResponse | describeGroupRequest
  | describeGroupResponse | listTopicsRequest | listTopicsResponse | updateTopicConfigRequest | deleteTopicRequest
  | commitRequest | joinGroupRequest | joinGroupResponse | heartbeatRequest | heartbeatResponse | syncRequest
  | deleteGroupRequest | listGroupOffsetsRequest | listGroupOffsetsResponse | leaveGroupRequest
  deriving DecidableEq, Repr

end Holocron.Wire
