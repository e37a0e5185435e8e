import Holocron.Lib.Checked
import Holocron.Proto.Messages

/-! The decoders of every message (proto/wire.go), with each index and slice expression in the source's own integers. -/

namespace Holocron.Wire
open Lib

namespace Checked
open Lib.Checked Lib.Checked.Cursor

abbrev Go := Lib.Checked WireError

abbrev Reading := Cursor WireError

def decodeString (b : Bytes) : Go (Bytes × Nat) :=
  if b.length < 4 then fail .unexpectedEOF
  else do
    let n := ofBigEndian (← sliceBetween b 0 4)
    if (b.length - 4) % 2 ^ 32 < n then fail .unexpectedEOF
    else
      let s ← sliceBetween b 4 ((4 + n) % 2 ^ 32)
      return (s, 4 + n)

def decodeBytes (b : Bytes) : Go (Slice × Nat) :=
  if b.length < 4 then fail .unexpectedEOF
  else do
    let n := ofBigEndian (← sliceBetween b 0 4)
    if (b.length - 4) % 2 ^ 32 < n then fail .unexpectedEOF
    else if n = 0 then return (none, 4)
    else
      let out ← sliceBetween b 4 ((4 + n) % 2 ^ 32)
      return (some out, 4 + n)

def count (e : WireError) : Reading UInt32 := do
  need 4 e
  let c ← field 0 4
  skip 4
  return uint32 c

def decodeHeaders (b : Bytes) : Nat → Nat → Go (List Header × Nat)
  | 0, p => return ([], p)
  | hdrCount + 1, p => do
    let (hk, n) ← onRest decodeString b p
    let (hv, m) ← onRest decodeBytes b (p + n)
    let (rest, p') ← decodeHeaders b hdrCount (p + n + m)
    return (⟨hk, hv⟩ :: rest, p')

def decodeRecord (b : Bytes) : Go (Record × Nat) :=
  if b.length < 16 then fail .unexpectedEOF
  else do
    let offset ← sliceBetween b 0 8
    let ts ← sliceBetween b 8 16
    let (key, n) ← onRest decodeBytes b 16
    let (value, m) ← onRest decodeBytes b (16 + n)
    let p := 16 + n + m
    let rest ← sliceFrom b p
    if rest.length < 4 then fail .unexpectedEOF
    else
      let hdrCount ← sliceBetween b p (p + 4)
      let (headers, p) ← decodeHeaders b (ofBigEndian hdrCount) (p + 4)
      return (⟨offsetOf offset, int64 ts, key, value, headers⟩, p)

/-- `4+bodyLen` is a `uint32`, `total` an `int`. -/
def decodeFramedRecord (b : Bytes) : Go (Record × Nat) :=
  if b.length < 4 then fail .unexpectedEOF
  else do
    let bodyLen := ofBigEndian (← sliceBetween b 0 4)
    let total := 4 + bodyLen + 4
    if b.length < total then fail .unexpectedEOF
    else
      let body ← sliceBetween b 4 ((4 + bodyLen) % 2 ^ 32)
      let gotCRC ← sliceBetween b ((4 + bodyLen) % 2 ^ 32) total
      if (Log.checksum body).toNat ≠ ofBigEndian gotCRC then fail .crc
      else
        let (rec_, _) ← decodeRecord body
        return (rec_, total)

def decodeHandshakeRequest : Reading HandshakeRequest := do
  need 1 .badHandshake
  let version ← byte 0
  skip 1
  let rest ← get
  if rest.length = 0 then return ⟨version, 0, none⟩
  else do
    let kind ← byte 0
    skip 1
    let cred ← peek decodeBytes
    return ⟨version, kind, cred⟩

def decodeProduceRequest : Reading ProduceRequest := do
  let topic ← next decodeString
  need 4 (.short "ProduceRequest")
  let part ← field 0 4
  skip 4
  let rec_ ← peek decodeRecord
  return ⟨topic, int32 part, rec_⟩

def decodeProduceResponse : Reading Int64 := do
  need 8 (.short "ProduceResponse")
  let offset ← field 0 8
  return int64 offset

def inflate (lz : Lz4) (short : WireError) : Reading Unit := do
  need 4 short
  let uncompressedLen ← field 0 4
  skip 4
  let b ← get
  match lz.lz4Decompress b (ofBigEndian uncompressedLen) with
  | none => fun _ => fail .lz4
  | some decoded => set decoded

def recordsBuf (lz : Lz4) (codec : Codec) : Reading Unit :=
  if codec = codecLZ4 then inflate lz (.short "LZ4 length")
  else if codec = codecNone then return ()
  else fun _ => fail (.unknownCodec codec)

def decodeProduceBatchRequest (lz : Lz4) : Reading ProduceBatchRequest := do
  let topic ← next decodeString
  need 5 (.short "ProduceBatchRequest")
  let partition ← field 0 4
  let codec ← byte 4
  skip 5
  let n ← count (.short "ProduceBatchRequest count")
  recordsBuf lz codec
  let records ← times (next decodeRecord) n.toNat
  return ⟨topic, int32 partition, codec, records, 0⟩

def decodeProduceBatchResponse : Reading ProduceBatchResponse := do
  need 12 (.short "ProduceBatchResponse")
  let baseOffset ← field 0 8
  let n ← field 8 12
  return ⟨int64 baseOffset, int32 n⟩

def decodeFetchRequest : Reading FetchRequest := do
  let topic ← next decodeString
  need 21 (.short "FetchRequest")
  let partition ← field 0 4
  let fromOffset ← field 4 12
  let maxRecords ← field 12 16
  let maxWaitMs ← field 16 20
  let acceptCodec ← byte 20
  return ⟨topic, int32 partition, int64 fromOffset, int32 maxRecords, int32 maxWaitMs, acceptCodec⟩

def payloadBuf (lz : Lz4) (codec : Codec) : Reading Unit :=
  if codec = codecLZ4 then inflate lz (.short "FetchResponse lz4 header") else return ()

def decodeFetchResponse (lz : Lz4) : Reading FetchResponse := do
  need 1 (.short "FetchResponse")
  let codec ← byte 0
  skip 1
  payloadBuf lz codec
  let n ← count (.short "FetchResponse count")
  let out ← times (next decodeFramedRecord) n.toNat
  return ⟨out, codec⟩

def decodeName : Reading Bytes := peek decodeString

def decodeEmpty : Reading Unit := return ()

def decodeMetadataResponse : Reading Int32 := do
  need 4 (.short "MetadataResponse")
  let partitionCount ← field 0 4
  return int32 partitionCount

/-- HighWaterRequest and ListSegmentsRequest read the partition at its place, without taking the topic off first. -/
def decodePartitionAt (what : String) : Reading PartitionRequest := fun b => do
  let (topic, off) ← decodeString b
  if b.length - off < 4 then fail (.short what)
  else
    let partition ← sliceBetween b off (off + 4)
    return (⟨topic, int32 partition⟩, b)

def decodeHighWaterRequest : Reading PartitionRequest := decodePartitionAt "HighWaterRequest"
def decodeListSegmentsRequest : Reading PartitionRequest := decodePartitionAt "ListSegmentsRequest"

def decodeSyncRequest : Reading PartitionRequest := do
  let topic ← next decodeString
  need 4 (.short "SyncRequest")
  let partition ← field 0 4
  return ⟨topic, int32 partition⟩

def decodeHighWaterResponse : Reading Int64 := do
  need 8 (.short "HighWaterResponse")
  let highWater ← field 0 8
  return int64 highWater

def decodeSegmentInfo : Reading SegmentInfo := do
  let base ← field 0 8
  let logSize ← field 8 16
  let idxSize ← field 16 24
  skip 24
  return ⟨int64 base, int64 logSize, int64 idxSize⟩

def decodeListSegmentsResponse : Reading (List SegmentInfo) := do
  let n ← count (.short "ListSegmentsResponse")
  let b ← get
  if b.length < n.toNat * 24 then fun _ => fail (.short "ListSegmentsResponse entries")
  else times decodeSegmentInfo n.toNat

def decodeFetchSegmentChunkRequest : Reading FetchSegmentChunkRequest := do
  let topic ← next decodeString
  need 25 (.short "FetchSegmentChunkRequest")
  let partition ← field 0 4
  let base ← field 4 12
  let kind ← byte 12
  let offset ← field 13 21
  let maxBytes ← field 21 25
  return ⟨topic, int32 partition, int64 base, kind, int64 offset, int32 maxBytes⟩

def decodeFetchSegmentChunkResponse : Reading Slice := peek decodeBytes

def decodeCreateTopicRequest : Reading TopicConfig := do
  let name ← next decodeString
  need 20 (.short "CreateTopicRequest")
  let partitionCount ← field 0 4
  let retentionMs ← field 4 12
  let segmentBytes ← field 12 20
  return ⟨name, int32 partitionCount, int64 retentionMs, int64 segmentBytes⟩

def decodeTopicConfig : Reading TopicConfig := do
  let name ← next decodeString
  need 20 (.short "ListTopicsResponse entry")
  let partitionCount ← field 0 4
  let retentionMs ← field 4 12
  let segmentBytes ← field 12 20
  skip 20
  return ⟨name, int32 partitionCount, int64 retentionMs, int64 segmentBytes⟩

def decodeListTopicsResponse : Reading (List TopicConfig) := do
  let n ← count (.short "ListTopicsResponse")
  times decodeTopicConfig n.toNat

def decodeUpdateTopicConfigRequest : Reading UpdateTopicConfigRequest := do
  let name ← next decodeString
  need 16 (.short "UpdateTopicConfigRequest")
  let retentionMs ← field 0 8
  let segmentBytes ← field 8 16
  return ⟨name, int64 retentionMs, int64 segmentBytes⟩

def decodeClusterMember : Reading ClusterMember := do
  let id ← next decodeString
  let addr ← next decodeString
  return ⟨id, addr⟩

def decodeClusterMembersResponse : Reading (List ClusterMember) := do
  let n ← count (.short "ClusterMembersResponse")
  times decodeClusterMember n.toNat

def decodeAddVoterRequest : Reading ClusterMember := do
  let id ← next decodeString
  let addr ← peek decodeString
  return ⟨id, addr⟩

def decodeClusterStatusResponse : Reading ClusterStatusResponse := do
  let nodeID ← next decodeString
  need 1 (.short "ClusterStatusResponse")
  let isLeader ← byte 0
  skip 1
  let leaderID ← next decodeString
  let leaderAddr ← peek decodeString
  return ⟨nodeID, decide (isLeader ≠ 0), leaderID, leaderAddr⟩

def decodeGroupSummary : Reading GroupSummary := do
  let name ← next decodeString
  need 12 (.short "ListGroupsResponse entry")
  let gen ← field 0 4
  let members ← field 4 8
  let topicCount ← field 8 12
  skip 12
  let topics ← times (next decodeString) (uint32 topicCount).toNat
  return ⟨name, int32 gen, int32 members, topics⟩

def decodeListGroupsResponse : Reading (List GroupSummary) := do
  let n ← count (.short "ListGroupsResponse")
  times decodeGroupSummary n.toNat

def decodePartitionRef : Reading PartitionRef := do
  let topic ← next decodeString
  need 4 (.short "DescribeGroupResponse partition")
  let index ← field 0 4
  skip 4
  return ⟨topic, int32 index⟩

def decodeMemberAssignment : Reading MemberAssignment := do
  let id ← next decodeString
  let pcount ← count (.short "DescribeGroupResponse partition count")
  let parts ← times decodePartitionRef pcount.toNat
  return ⟨id, parts⟩

def decodeDescribeGroupResponse : Reading DescribeGroupResponse := do
  let name ← next decodeString
  need 8 (.short "DescribeGroupResponse")
  let gen ← field 0 4
  let topicCount ← field 4 8
  skip 8
  let topics ← times (next decodeString) (uint32 topicCount).toNat
  let memberCount ← count (.short "DescribeGroupResponse members")
  let members ← times decodeMemberAssignment memberCount.toNat
  return ⟨name, int32 gen, topics, members⟩

def decodeCommitRequest : Reading CommitRequest := do
  let group ← next decodeString
  let topic ← next decodeString
  need 12 (.short "CommitRequest")
  let partition ← field 0 4
  let offset ← field 4 12
  return ⟨group, topic, int32 partition, int64 offset⟩

def decodeJoinGroupRequest : Reading JoinGroupRequest := do
  let group ← next decodeString
  let member ← next decodeString
  let n ← count (.short "JoinGroupRequest")
  let topics ← times (next decodeString) n.toNat
  return ⟨group, member, topics⟩

def decodeAssignmentEntry : Reading AssignmentEntry := do
  let topic ← next decodeString
  need 12 .shortAssignment
  let partition ← field 0 4
  let committedOffset ← field 4 12
  skip 12
  return ⟨topic, int32 partition, int64 committedOffset⟩

def decodeJoinGroupResponse : Reading JoinGroupResponse := do
  let member ← next decodeString
  need 8 (.short "JoinGroupResponse")
  let generation ← field 0 4
  let n ← field 4 8
  skip 8
  let assignments ← times decodeAssignmentEntry (uint32 n).toNat
  return ⟨member, int32 generation, assignments⟩

def decodeHeartbeatRequest : Reading HeartbeatRequest := do
  let group ← next decodeString
  let member ← next decodeString
  need 8 (.short "HeartbeatRequest")
  let generation ← field 0 4
  let maxWaitMs ← field 4 8
  return ⟨group, member, int32 generation, int32 maxWaitMs⟩

def decodeHeartbeatResponse : Reading Bool := do
  need 1 (.short "HeartbeatResponse")
  let b ← byte 0
  return decide (b ≠ 0)

def decodeGroupOffsetEntry : Reading GroupOffsetEntry := do
  let topic ← next decodeString
  need 20 (.short "ListGroupOffsetsResponse entry")
  let partition ← field 0 4
  let committed ← field 4 12
  let highWater ← field 12 20
  skip 20
  return ⟨topic, int32 partition, int64 committed, int64 highWater⟩

def decodeListGroupOffsetsResponse : Reading (List GroupOffsetEntry) := do
  let n ← count (.short "ListGroupOffsetsResponse")
  times decodeGroupOffsetEntry n.toNat

def decodeLeaveGroupRequest : Reading LeaveGroupRequest := do
  let group ← next decodeString
  let member ← peek decodeString
  return ⟨group, member⟩

end Checked

namespace Message

def Value : Message → Type
  | handshakeRequest => HandshakeRequest
  | produceRequest => ProduceRequest
  | produceResponse | highWaterResponse => Int64
  | produceBatchRequest => ProduceBatchRequest
  | produceBatchResponse => ProduceBatchResponse
  | fetchRequest => FetchRequest
  | fetchResponse => FetchResponse
  | metadataRequest | removeVoterRequest | describeGroupRequest | deleteTopicRequest | deleteGroupRequest | listGroupOffsetsRequest => Bytes
  | metadataResponse => Int32
  | highWaterRequest | listSegmentsRequest | syncRequest => PartitionRequest
  | listSegmentsResponse => List SegmentInfo
  | fetchSegmentChunkRequest => FetchSegmentChunkRequest
  | fetchSegmentChunkResponse => Slice
  | clusterMembersRequest | clusterStatusRequest | listGroupsRequest | listTopicsRequest => Unit
  | clusterMembersResponse => List ClusterMember
  | addVoterRequest => ClusterMember
  | createTopicRequest => TopicConfig
  | clusterStatusResponse => ClusterStatusResponse
  | listGroupsResponse => List GroupSummary
  | describeGroupResponse => DescribeGroupResponse
  | listTopicsResponse => List TopicConfig
  | updateTopicConfigRequest => UpdateTopicConfigRequest
  | commitRequest => CommitRequest
  | joinGroupRequest => JoinGroupRequest
  | joinGroupResponse => JoinGroupResponse
  | heartbeatRequest => HeartbeatRequest
  | heartbeatResponse => Bool
  | listGroupOffsetsResponse => List GroupOffsetEntry
  | leaveGroupRequest => LeaveGroupRequest

def reading (lz : Lz4) : (m : Message) → Checked.Reading m.Value
  | handshakeRequest => Checked.decodeHandshakeRequest
  | produceRequest => Checked.decodeProduceRequest
  | produceResponse => Checked.decodeProduceResponse
  | produceBatchRequest => Checked.decodeProduceBatchRequest lz
  | produceBatchResponse => Checked.decodeProduceBatchResponse
  | fetchRequest => Checked.decodeFetchRequest
  | fetchResponse => Checked.decodeFetchResponse lz
  | metadataRequest | removeVoterRequest | describeGroupRequest | deleteTopicRequest | deleteGroupRequest | listGroupOffsetsRequest =>
    Checked.decodeName
  | metadataResponse => Checked.decodeMetadataResponse
  | highWaterRequest => Checked.decodeHighWaterRequest
  | highWaterResponse => Checked.decodeHighWaterResponse
  | listSegmentsRequest => Checked.decodeListSegmentsRequest
  | listSegmentsResponse => Checked.decodeListSegmentsResponse
  | fetchSegmentChunkRequest => Checked.decodeFetchSegmentChunkRequest
  | fetchSegmentChunkResponse => Checked.decodeFetchSegmentChunkResponse
  | clusterMembersRequest | clusterStatusRequest | listGroupsRequest | listTopicsRequest => Checked.decodeEmpty
  | clusterMembersResponse => Checked.decodeClusterMembersResponse
  | addVoterRequest => Checked.decodeAddVoterRequest
  | createTopicRequest => Checked.decodeCreateTopicRequest
  | clusterStatusResponse => Checked.decodeClusterStatusResponse
  | listGroupsResponse => Checked.decodeListGroupsResponse
  | describeGroupResponse => Checked.decodeDescribeGroupResponse
  | listTopicsResponse => Checked.decodeListTopicsResponse
  | updateTopicConfigRequest => Checked.decodeUpdateTopicConfigRequest
  | commitRequest => Checked.decodeCommitRequest
  | joinGroupRequest => Checked.decodeJoinGroupRequest
  | joinGroupResponse => Checked.decodeJoinGroupResponse
  | heartbeatRequest => Checked.decodeHeartbeatRequest
  | heartbeatResponse => Checked.decodeHeartbeatResponse
  | syncRequest => Checked.decodeSyncRequest
  | listGroupOffsetsResponse => Checked.decodeListGroupOffsetsResponse
  | leaveGroupRequest => Checked.decodeLeaveGroupRequest

def decode (lz : Lz4) (m : Message) (b : Bytes) : Checked.Go m.Value := (m.reading lz b).map Prod.fst

end Message
end Holocron.Wire
