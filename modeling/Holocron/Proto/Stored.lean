import Holocron.Broker.Hydrate
import Holocron.Cluster.Command
import Holocron.Proto.Checked

/-! The decoders of stored bytes with each index and slice expression as the source has it
    (broker/internal/log/frame.go, cluster/command.go, broker/broker.go). -/

namespace Holocron
open Lib Lib.Checked

namespace Log.Checked

abbrev Go := Lib.Checked FrameError

def readBytes (b : Bytes) : Go (Slice × Nat) :=
  if b.length < 4 then fail .unexpectedEOF
  else do
    let n := ofBigEndian (← sliceBetween b 0 4)
    if (b.length - 4) % 2 ^ 32 < n then fail .unexpectedEOF
    else if n = 0 then return (none, 4)
    else
      let out ← sliceBetween b 4 ((4 + n) % 2 ^ 32)
      return (some out, 4 + n)

def readHeaders (body : Bytes) : Nat → Nat → Go (List Header)
  | 0, _ => return []
  | hdrCount + 1, p => do
    let (hk, n) ← onRest readBytes body p
    let (hv, m) ← onRest readBytes body (p + n)
    let rest ← readHeaders body hdrCount (p + n + m)
    return ⟨Slice.bytes hk, hv⟩ :: rest

def decodeBody (body : Bytes) : Go Record :=
  if body.length < 16 then fail .malformed
  else do
    let offset ← sliceBetween body 0 8
    let ts ← sliceBetween body 8 16
    let (key, n) ← onRest readBytes body 16
    let (value, m) ← onRest readBytes body (16 + n)
    let p := 16 + n + m
    let rest ← sliceFrom body p
    if rest.length < 4 then fail .malformed
    else
      let hdrCount ← sliceBetween body p (p + 4)
      let headers ← readHeaders body (ofBigEndian hdrCount) (p + 4)
      return ⟨Wire.offsetOf offset, Wire.int64 ts, key, value, headers⟩

def readRecordFrom (r : Reader) : Go (Record × Nat) × Reader :=
  let (lenBuf, r) := r.readFull 4
  if lenBuf.length = 0 then (fail .eof, r)
  else if lenBuf.length < 4 then (fail .unexpectedEOF, r)
  else
    let bodyLen := ofBigEndian lenBuf
    let (body, r) := r.readFull bodyLen
    if body.length < bodyLen then (fail .unexpectedEOF, r)
    else
      let (crcBuf, r) := r.readFull 4
      if crcBuf.length < 4 then (fail .unexpectedEOF, r)
      else if (checksum body).toNat ≠ ofBigEndian crcBuf then (fail .tornFrame, r)
      else ((decodeBody body).map fun rec => (rec, 4 + bodyLen + 4), r)

end Log.Checked

namespace Cluster.Checked
open Wire Wire.Checked Cursor

def readString (b : Bytes) : Wire.Checked.Go (Bytes × Nat) := Wire.Checked.decodeString b

def decodeAppend : Reading AppendCommand := do
  let topic ← next readString
  need 12 (.short "append command")
  let partition ← field 0 4
  let offset ← field 4 12
  skip 12
  let req ← Wire.Checked.decodeProduceRequest
  return ⟨topic, int32 partition, offsetOf offset, req.record⟩

def decodeCreateTopic : Reading CreateTopicCommand := do
  let name ← next readString
  need 20 (.short "create-topic command")
  let partitionCount ← field 0 4
  let retentionMs ← field 4 12
  let segmentBytes ← field 12 20
  return ⟨name, int32 partitionCount, int64 retentionMs, int64 segmentBytes⟩

def decodeUpdateTopicConfig : Reading UpdateTopicConfigCommand := do
  let name ← next readString
  need 16 (.short "update-topic command")
  let retentionMs ← field 0 8
  let segmentBytes ← field 8 16
  return ⟨name, int64 retentionMs, int64 segmentBytes⟩

def decodeDeleteTopic : Reading DeleteTopicCommand := do
  let name ← peek readString
  return ⟨name⟩

def decoded {α : Type} (d : Reading α) (wrap : α → Command) (body : Bytes) : Lib.Checked CommandError Command :=
  match d body with
  | .error (.err e) => fail (.wire e)
  | .error .fault => .error .fault
  | .ok (c, _) => .ok (wrap c)

def decodeKind (kind : UInt8) (body : Bytes) : Lib.Checked CommandError Command :=
  if kind = 1 then decoded decodeAppend .append body
  else if kind = 2 then decoded decodeCreateTopic .createTopic body
  else if kind = 3 then decoded decodeDeleteTopic .deleteTopic body
  else if kind = 4 then decoded decodeUpdateTopicConfig .updateTopicConfig body
  else fail (.unknownKind kind)

def decode (b : Bytes) : Lib.Checked CommandError Command :=
  if b.length = 0 then fail .empty
  else do
    let kind ← index b 0
    let body ← sliceFrom b 1
    decodeKind kind body

end Cluster.Checked

namespace Broker.Checked
open Cursor

abbrev Reading := Cursor Unit

def decodeDedupKey : Reading (Bytes × PartitionRef) := do
  need 4 ()
  let pidLen := ofBigEndian (← field 0 4)
  skip 4
  need (pidLen + 4) ()
  let producerID ← field 0 pidLen
  skip pidLen
  let topicLen := ofBigEndian (← field 0 4)
  skip 4
  need (topicLen + 4) ()
  let topic ← field 0 topicLen
  skip topicLen
  let index ← field 0 4
  return (producerID, ⟨topic, Int32.ofInt (toSigned 4 (ofBigEndian index))⟩)

def decodeDedupValue : Reading ProducerCheckpoint := fun b =>
  if b.length ≠ 24 then fail ()
  else do
    let lastSeq ← sliceBetween b 0 8
    let lastOffset ← sliceBetween b 8 16
    let lastSeen ← sliceBetween b 16 24
    return (⟨UInt64.ofNat (ofBigEndian lastSeq), toSigned 8 (ofBigEndian lastOffset),
      Int64.ofInt (toSigned 8 (ofBigEndian lastSeen))⟩, b)

end Broker.Checked
end Holocron
