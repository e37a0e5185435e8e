import Holocron.Topic.Registry
import Holocron.Storage.Store

/-! The standalone broker (broker/internal/broker/broker.go). A subscription is known by the number of channels a record
    is sent to; one clock reading serves a call. -/

namespace Holocron
open Lib Storage

def headerProducerID : Bytes := utf8 "holocron.producer.id"

def headerProducerSeq : Bytes := utf8 "holocron.producer.seq"

structure ProducerCheckpoint where
  lastSeq : UInt64
  lastOffset : Int
  lastSeen : Int64
  deriving DecidableEq, Repr

structure PartitionState where
  subscribers : Nat
  dedup : Bytes → Option ProducerCheckpoint

inductive BrokerError where
  | topic (e : Topic.TopicError)
  | outOfRange (p : PartitionRef) (have_ : Int32)
  | append (p : PartitionRef) (e : StoreError)
  /-- The context ended while a subscriber's channel was full; the record is stored at the offset. -/
  | fanOut (offset : Int) (e : CtxError)
  | store (e : StoreError)
  deriving DecidableEq, Repr

structure Broker (σ : Type) where
  store : σ
  registry : Topic.Registry
  dedupTTL : Int64
  dedupTopic : Bytes
  partitions : PartitionRef → PartitionState

def lastHeader (key : Bytes) (headers : List Header) : Option Slice :=
  headers.foldl (fun found h => if h.key = key then some h.value else found) none

def producerIdempKey (r : Record) : Option (Bytes × UInt64) :=
  match lastHeader headerProducerID r.headers, lastHeader headerProducerSeq r.headers with
  | some id, some seq =>
    if (Slice.bytes seq).length ≠ 8 ∨ Slice.bytes id = [] then none
    else some (Slice.bytes id, (Slice.bytes seq).foldl (fun acc x => (acc <<< 8) ||| x.toUInt64) 0)
  | _, _ => none

def encodeDedupKey (producerID : Bytes) (p : PartitionRef) : Bytes :=
  bigEndian 4 producerID.length ++ producerID ++ bigEndian 4 p.topic.length ++ p.topic ++
    bigEndian 4 (toUnsigned 4 p.index.toInt)

def encodeDedupValue (cp : ProducerCheckpoint) : Bytes :=
  bigEndian 8 cp.lastSeq.toNat ++ bigEndian 8 (toUnsigned 8 cp.lastOffset) ++ bigEndian 8 (toUnsigned 8 cp.lastSeen.toInt)

def dedupRecord (producerID : Bytes) (p : PartitionRef) (cp : ProducerCheckpoint) : Record :=
  ⟨0, 0, some (encodeDedupKey producerID p), some (encodeDedupValue cp), []⟩

namespace PartitionState

def empty : PartitionState := ⟨0, fun _ => none⟩

def evictStaleDedupLocked (ps : PartitionState) (dedupTTL now : Int64) : PartitionState :=
  { ps with dedup := fun id => (ps.dedup id).filter fun cp => decide (¬ cp.lastSeen.toInt < now.toInt - dedupTTL.toInt) }

def duplicate (ps : PartitionState) : Option (Bytes × UInt64) → Option Int
  | none => none
  | some (id, seq) =>
    match ps.dedup id with
    | none => none
    | some cp => if seq ≤ cp.lastSeq then some cp.lastOffset else none

def fanOut (ps : PartitionState) (offset : Int) (interrupted : Option CtxError) : Except BrokerError Int :=
  match ps.subscribers, interrupted with
  | _ + 1, some e => .error (.fanOut offset e)
  | _, _ => .ok offset

end PartitionState

namespace Broker

variable {σ : Type} [Store σ]

omit [Store σ] in
def validate (b : Broker σ) (p : PartitionRef) : Except BrokerError Unit :=
  match b.registry.partitionsFor p.topic with
  | .error e => .error (.topic e)
  | .ok n => if p.index < 0 ∨ p.index ≥ n then .error (.outOfRange p n) else .ok ()

omit [Store σ] in
def setPartition (b : Broker σ) (p : PartitionRef) (ps : PartitionState) : Broker σ :=
  { b with partitions := Function.update b.partitions p ps }

omit [Store σ] in
def evictFor (b : Broker σ) (key : Option (Bytes × UInt64)) (now : Int64) (p : PartitionRef) : Broker σ :=
  if key.isSome ∧ 0 < b.dedupTTL then b.setPartition p ((b.partitions p).evictStaleDedupLocked b.dedupTTL now) else b

def persistDedupCheckpoint (b : Broker σ) (now : Int64) (producerID : Bytes) (p : PartitionRef) (cp : ProducerCheckpoint) :
    Broker σ :=
  if b.dedupTopic = [] then b
  else { b with store := (Store.append b.store .background now ⟨b.dedupTopic, 0⟩ (dedupRecord producerID p cp)).2 }

def remember (b : Broker σ) (now : Int64) (p : PartitionRef) (offset : Int) : Option (Bytes × UInt64) → Broker σ
  | none => b
  | some (id, seq) =>
    let ps := b.partitions p
    let cp : ProducerCheckpoint := ⟨seq, offset, now⟩
    let b := b.setPartition p { ps with dedup := Function.update ps.dedup id (some cp) }
    if p.topic ≠ b.dedupTopic then b.persistDedupCheckpoint now id p cp else b

omit [Store σ] in
def withTimestamp (now : Int64) (r : Record) : Record := if r.timestamp = 0 then { r with timestamp := now } else r

/-- Append a record and fan it out. `interrupted` is how the context ends while a subscriber's channel is
    full, if that happens. -/
def publish (b : Broker σ) (ctx : Ctx) (now : Int64) (interrupted : Option CtxError) (p : PartitionRef) (r : Record) :
    Except BrokerError Int × Broker σ :=
  match b.validate p with
  | .error e => (.error e, b)
  | .ok () =>
    let key := producerIdempKey r
    let b := b.evictFor key now p
    match (b.partitions p).duplicate key with
    | some offset => (.ok offset, b)
    | none =>
      let r := withTimestamp now r
      match Store.append b.store ctx now p r with
      | (.error e, s) => (.error (.append p e), { b with store := s })
      | (.ok offset, s) =>
        let b := remember { b with store := s } now p offset key
        ((b.partitions p).fanOut offset interrupted, b)

def sync (b : Broker σ) (ctx : Ctx) (p : PartitionRef) : Except BrokerError Unit × Broker σ :=
  match b.validate p with
  | .error e => (.error e, b)
  | .ok () =>
    match Store.sync b.store ctx p with
    | (.error e, s) => (.error (.store e), { b with store := s })
    | (.ok (), s) => (.ok (), { b with store := s })

def read (b : Broker σ) (ctx : Ctx) (p : PartitionRef) (fromOffset maxRecords : Int) :
    Except BrokerError (List Record) × Broker σ :=
  match b.validate p with
  | .error e => (.error e, b)
  | .ok () =>
    match Store.read b.store ctx p fromOffset maxRecords with
    | (.error e, s) => (.error (.store e), { b with store := s })
    | (.ok records, s) => (.ok records, { b with store := s })

structure Env where
  ctx : Ctx
  now : Int64
  interrupted : Option CtxError
  deriving DecidableEq, Repr

structure Call extends Env where
  p : PartitionRef
  record : Record
  deriving DecidableEq, Repr

def call (b : Broker σ) (c : Call) : Except BrokerError Int × Broker σ := b.publish c.ctx c.now c.interrupted c.p c.record

def publishAll (b : Broker σ) : List Call → Except BrokerError Unit × Broker σ
  | [] => (.ok (), b)
  | c :: rest =>
    match b.call c with
    | (.error e, b') => (.error e, b')
    | (.ok _, b') => b'.publishAll rest

def publishBatch (b : Broker σ) : List Call → Except BrokerError Int × Broker σ
  | [] => (.ok 0, b)
  | c :: rest =>
    match b.call c with
    | (.error e, b') => (.error e, b')
    | (.ok baseOffset, b') =>
      match b'.publishAll rest with
      | (.error e, b'') => (.error e, b'')
      | (.ok (), b'') => (.ok baseOffset, b'')

end Broker
end Holocron
