import Holocron.Proto.Wire
import Holocron.Topic.Registry

/-! Raft log entries (broker/internal/cluster/command.go): the commands and their encoding. -/

namespace Holocron.Cluster
open Lib Wire

def offsetUnstamped : Int := -1

structure AppendCommand where
  topic : Bytes
  partition : Int32
  offset : Int
  record : Record
  deriving DecidableEq, Repr

structure CreateTopicCommand where
  name : Bytes
  partitionCount : Int32
  retentionMs : Int64
  segmentBytes : Int64
  deriving DecidableEq, Repr

structure UpdateTopicConfigCommand where
  name : Bytes
  retentionMs : Int64
  segmentBytes : Int64
  deriving DecidableEq, Repr

structure DeleteTopicCommand where
  name : Bytes
  deriving DecidableEq, Repr

inductive Command where
  | append (c : AppendCommand)
  | createTopic (c : CreateTopicCommand)
  | deleteTopic (c : DeleteTopicCommand)
  | updateTopicConfig (c : UpdateTopicConfigCommand)
  deriving DecidableEq, Repr

def encodeAppend (c : AppendCommand) : Bytes :=
  1 :: (encodeString c.topic ++ encodeInt32 c.partition ++ encodeOffset c.offset ++
    (ProduceRequest.mk c.topic c.partition c.record).encode)

def encodeCreateTopic (c : CreateTopicCommand) : Bytes :=
  2 :: (encodeString c.name ++ encodeInt32 c.partitionCount ++ encodeInt64 c.retentionMs ++ encodeInt64 c.segmentBytes)

def encodeDeleteTopic (c : DeleteTopicCommand) : Bytes := 3 :: encodeString c.name

def encodeUpdateTopicConfig (c : UpdateTopicConfigCommand) : Bytes :=
  4 :: (encodeString c.name ++ encodeInt64 c.retentionMs ++ encodeInt64 c.segmentBytes)

def Command.encode : Command → Bytes
  | .append c => encodeAppend c
  | .createTopic c => encodeCreateTopic c
  | .deleteTopic c => encodeDeleteTopic c
  | .updateTopicConfig c => encodeUpdateTopicConfig c

inductive CommandError where
  | empty
  | unknownKind (kind : UInt8)
  | wire (e : WireError)
  deriving DecidableEq, Repr

def decodeAppend : Decoder AppendCommand := do
  let topic ← decodeString
  let b ← block 12 (.short "append command")
  let req ← decodeProduceRequest
  return ⟨topic, int32 (slice b 0 4), offsetOf (slice b 4 12), req.record⟩

def decodeCreateTopic : Decoder CreateTopicCommand := do
  let name ← decodeString
  let b ← block 20 (.short "create-topic command")
  return ⟨name, int32 (slice b 0 4), int64 (slice b 4 12), int64 (slice b 12 20)⟩

def decodeUpdateTopicConfig : Decoder UpdateTopicConfigCommand := do
  let name ← decodeString
  let b ← block 16 (.short "update-topic command")
  return ⟨name, int64 (slice b 0 8), int64 (slice b 8 16)⟩

def decodeDeleteTopic : Decoder DeleteTopicCommand := do
  let name ← decodeString
  return ⟨name⟩

def decoded {α : Type} (d : Decoder α) (wrap : α → Command) (body : Bytes) : Except CommandError Command :=
  match d body with
  | .error e => .error (.wire e)
  | .ok (c, _) => .ok (wrap c)

def decode : Bytes → Except CommandError Command
  | [] => .error .empty
  | kind :: body =>
    if kind = 1 then decoded decodeAppend .append body
    else if kind = 2 then decoded decodeCreateTopic .createTopic body
    else if kind = 3 then decoded decodeDeleteTopic .deleteTopic body
    else if kind = 4 then decoded decodeUpdateTopicConfig .updateTopicConfig body
    else .error (.unknownKind kind)

/-- `publishClustered`: the offset is left for the nodes to assign. -/
def publishCommand (p : PartitionRef) (r : Record) : Command := .append ⟨p.topic, p.index, offsetUnstamped, r⟩

def createTopicCommand (spec : Topic.Spec) : Command :=
  .createTopic ⟨spec.name, spec.partitionCount, spec.retentionMs, spec.segmentBytes⟩

def deleteTopicCommand (name : Bytes) : Command := .deleteTopic ⟨name⟩

def updateTopicConfigCommand (name : Bytes) (retentionMs segmentBytes : Int64) : Command :=
  .updateTopicConfig ⟨name, retentionMs, segmentBytes⟩

end Holocron.Cluster
