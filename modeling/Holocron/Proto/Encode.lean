import Holocron.Proto.Checked

/-! The encoders of every message (proto/wire.go) and the compressors of a batch (proto/lz4.go). -/

namespace Holocron.Wire
open Lib

structure Lz4HC extends Lz4 where
  compressBlockHC : Nat → Bytes → Option Bytes

def hcLevel (n : Nat) : Nat := if n ≤ 1 then 1 else if n ≤ 8 then n else 9

def Lz4HC.lz4CompressLevel (lz : Lz4HC) (src : Bytes) (level : Nat) : Option Bytes :=
  if src.length = 0 then some []
  else
    match if level = 0 then lz.compressBlock src else lz.compressBlockHC (hcLevel level) src with
    | none => none
    | some dst => if dst.length = 0 then none else some dst

def encodeList {α : Type} (encode : α → Bytes) (xs : List α) : Bytes := bigEndian 4 xs.length ++ xs.flatMap encode

def encodeBool (x : Bool) : Bytes := if x then [1] else [0]

def HandshakeRequest.encode (h : HandshakeRequest) : Bytes := [h.version, h.credentialKind] ++ encodeBytes h.credential

def ProduceBatchRequest.recordsBuf (r : ProduceBatchRequest) : Bytes := r.records.flatMap encodeRecord

def ProduceBatchRequest.encode (lz : Lz4HC) (r : ProduceBatchRequest) : Bytes :=
  let b := encodeString r.topic ++ encodeInt32 r.partition ++ [r.codec] ++ bigEndian 4 r.records.length
  if r.codec = codecLZ4 then
    match lz.lz4CompressLevel r.recordsBuf r.level.toNat with
    | none => b.set (b.length - 5) codecNone ++ r.recordsBuf
    | some compressed => b ++ bigEndian 4 r.recordsBuf.length ++ compressed
  else b ++ r.recordsBuf

def ProduceBatchResponse.encode (r : ProduceBatchResponse) : Bytes := encodeInt64 r.baseOffset ++ encodeInt32 r.count

def FetchRequest.encode (r : FetchRequest) : Bytes :=
  encodeString r.topic ++
    (encodeInt32 r.partition ++ (encodeInt64 r.fromOffset ++
      (encodeInt32 r.maxRecords ++ (encodeInt32 r.maxWaitMs ++ [r.acceptCodec]))))

def PartitionRequest.encode (r : PartitionRequest) : Bytes := encodeString r.topic ++ encodeInt32 r.partition

def SegmentInfo.encode (s : SegmentInfo) : Bytes := encodeInt64 s.base ++ (encodeInt64 s.logSize ++ encodeInt64 s.idxSize)

def FetchSegmentChunkRequest.encode (r : FetchSegmentChunkRequest) : Bytes :=
  encodeString r.topic ++
    (encodeInt32 r.partition ++ (encodeInt64 r.base ++ ([r.kind] ++ (encodeInt64 r.offset ++ encodeInt32 r.maxBytes))))

def encodeTopicConfig (t : TopicConfig) : Bytes :=
  encodeString t.name ++ (encodeInt32 t.partitionCount ++ (encodeInt64 t.retentionMs ++ encodeInt64 t.segmentBytes))

def UpdateTopicConfigRequest.encode (r : UpdateTopicConfigRequest) : Bytes :=
  encodeString r.name ++ (encodeInt64 r.retentionMs ++ encodeInt64 r.segmentBytes)

def ClusterMember.encode (m : ClusterMember) : Bytes := encodeString m.id ++ encodeString m.addr

def ClusterStatusResponse.encode (r : ClusterStatusResponse) : Bytes :=
  encodeString r.nodeID ++ (encodeBool r.isLeader ++ (encodeString r.leaderID ++ encodeString r.leaderAddr))

def GroupSummary.encode (g : GroupSummary) : Bytes :=
  encodeString g.name ++
    ((encodeInt32 g.generation ++ (encodeInt32 g.memberCount ++ bigEndian 4 g.topics.length)) ++ g.topics.flatMap encodeString)

def encodePartitionRef (p : PartitionRef) : Bytes := encodeString p.topic ++ encodeInt32 p.index

def MemberAssignment.encode (m : MemberAssignment) : Bytes :=
  encodeString m.memberID ++ encodeList encodePartitionRef m.partitions

def DescribeGroupResponse.encode (r : DescribeGroupResponse) : Bytes :=
  encodeString r.name ++
    ((encodeInt32 r.generation ++ bigEndian 4 r.topics.length) ++
      (r.topics.flatMap encodeString ++ encodeList MemberAssignment.encode r.members))

def CommitRequest.encode (r : CommitRequest) : Bytes :=
  encodeString r.group ++ (encodeString r.topic ++ (encodeInt32 r.partition ++ encodeInt64 r.offset))

def JoinGroupRequest.encode (r : JoinGroupRequest) : Bytes :=
  encodeString r.group ++ (encodeString r.memberID ++ encodeList encodeString r.topics)

def AssignmentEntry.encode (a : AssignmentEntry) : Bytes :=
  encodeString a.topic ++ (encodeInt32 a.partition ++ encodeInt64 a.committedOffset)

def JoinGroupResponse.encode (r : JoinGroupResponse) : Bytes :=
  encodeString r.memberID ++ ((encodeInt32 r.generation ++ bigEndian 4 r.assignments.length) ++
    r.assignments.flatMap AssignmentEntry.encode)

def HeartbeatRequest.encode (r : HeartbeatRequest) : Bytes :=
  encodeString r.group ++ (encodeString r.memberID ++ (encodeInt32 r.generation ++ encodeInt32 r.maxWaitMs))

def GroupOffsetEntry.encode (e : GroupOffsetEntry) : Bytes :=
  encodeString e.topic ++ (encodeInt32 e.partition ++ (encodeInt64 e.committed ++ encodeInt64 e.highWater))

def LeaveGroupRequest.encode (r : LeaveGroupRequest) : Bytes := encodeString r.group ++ encodeString r.memberID

def Message.encode (lz : Lz4HC) : (m : Message) → m.Value → Bytes
  | handshakeRequest => HandshakeRequest.encode
  | produceRequest => ProduceRequest.encode
  | produceResponse | highWaterResponse => encodeInt64
  | produceBatchRequest => ProduceBatchRequest.encode lz
  | produceBatchResponse => ProduceBatchResponse.encode
  | fetchRequest => FetchRequest.encode
  | fetchResponse => FetchResponse.encode lz.toLz4
  | metadataRequest | removeVoterRequest | describeGroupRequest | deleteTopicRequest | deleteGroupRequest | listGroupOffsetsRequest => encodeString
  | metadataResponse => encodeInt32
  | highWaterRequest | listSegmentsRequest | syncRequest => PartitionRequest.encode
  | listSegmentsResponse => encodeList SegmentInfo.encode
  | fetchSegmentChunkRequest => FetchSegmentChunkRequest.encode
  | fetchSegmentChunkResponse => encodeBytes
  | clusterMembersRequest | clusterStatusRequest | listGroupsRequest | listTopicsRequest => fun _ => []
  | clusterMembersResponse => encodeList ClusterMember.encode
  | addVoterRequest => ClusterMember.encode
  | createTopicRequest => encodeTopicConfig
  | clusterStatusResponse => ClusterStatusResponse.encode
  | listGroupsResponse => encodeList GroupSummary.encode
  | describeGroupResponse => DescribeGroupResponse.encode
  | listTopicsResponse => encodeList encodeTopicConfig
  | updateTopicConfigRequest => UpdateTopicConfigRequest.encode
  | commitRequest => CommitRequest.encode
  | joinGroupRequest => JoinGroupRequest.encode
  | joinGroupResponse => JoinGroupResponse.encode
  | heartbeatRequest => HeartbeatRequest.encode
  | heartbeatResponse => encodeBool
  | listGroupOffsetsResponse => encodeList GroupOffsetEntry.encode
  | leaveGroupRequest => LeaveGroupRequest.encode

end Holocron.Wire
