import Holocron.Broker.Broker
import Holocron.Proto.Response

/-! The handlers that move records (broker/internal/server/server.go). A fetch that is still polling has no answer yet. -/

namespace Holocron.Server
open Lib Storage Wire

inductive Action where
  | produce
  | consume
  | admin
  deriving DecidableEq, Repr

structure Conn where
  allows : Action → Bytes → Bool
  produceLimiter : Option (Nat → Bool)
  fetchLimiter : Option (Nat → Bool)

inductive RequestError where
  | invalid (e : WireError)
  | forbidden
  | rateLimited
  | failed (e : BrokerError)
  deriving DecidableEq, Repr

def valueBytes (records : List Record) : Nat := (records.map fun r => (Slice.bytes r.value).length).sum

def refuses (limiter : Option (Nat → Bool)) (n : Nat) : Bool := limiter.any fun take => !take n

variable {σ : Type} [Store σ]

def handleProduce (c : Conn) (now : Int64) (b : Broker σ) (body : Bytes) : Except RequestError Bytes × Broker σ :=
  match decodeProduceRequest body with
  | .error e => (.error (.invalid e), b)
  | .ok (req, _) =>
    if !c.allows .produce req.topic then (.error .forbidden, b)
    else if refuses c.produceLimiter (valueBytes [req.record]) then (.error .rateLimited, b)
    else
      match b.publish .background now none ⟨req.topic, req.partition⟩ req.record with
      | (.error e, b') => (.error (.failed e), b')
      | (.ok offset, b') => (.ok (encodeOffset offset), b')

def batchCalls (clock : Nat → Int64) (req : ProduceBatchRequest) : List Broker.Call :=
  req.records.mapIdx fun i r => ⟨⟨.background, clock i, none⟩, ⟨req.topic, req.partition⟩, r⟩

def handleProduceBatch (lz : Lz4) (c : Conn) (clock : Nat → Int64) (b : Broker σ) (body : Bytes) :
    Except RequestError Bytes × Broker σ :=
  match decodeProduceBatchRequest lz body with
  | .error e => (.error (.invalid e), b)
  | .ok (req, _) =>
    if !c.allows .produce req.topic then (.error .forbidden, b)
    else if req.records.length = 0 then (.ok (encodeOffset 0 ++ encodeInt32 0), b)
    else if refuses c.produceLimiter (valueBytes req.records) then (.error .rateLimited, b)
    else
      match b.publishBatch (batchCalls clock req) with
      | (.error e, b') => (.error (.failed e), b')
      | (.ok baseOffset, b') => (.ok (encodeOffset baseOffset ++ encodeInt32 (Int32.ofNat req.records.length)), b')

def fetchCompressionThreshold : Nat := 256

def fetchCompressionWorthIt (records : List Record) : Bool := decide (fetchCompressionThreshold ≤ valueBytes records)

structure Poll (σ : Type) where
  broker : Broker σ
  late : Bool

def maxRecs (req : FetchRequest) : Int := if req.maxRecords.toInt ≤ 0 then 1 else req.maxRecords.toInt

def fetchCodec (req : FetchRequest) (records : List Record) : Codec :=
  if req.acceptCodec = codecLZ4 ∧ fetchCompressionWorthIt records then codecLZ4 else codecNone

def pollLoop (c : Conn) (req : FetchRequest) : List (Poll σ) → Option (Except RequestError FetchResponse)
  | [] => none
  | poll :: polls =>
    match (poll.broker.read .background ⟨req.topic, req.partition⟩ req.fromOffset.toInt (maxRecs req)).1 with
    | .error e => some (.error (.failed e))
    | .ok records =>
      if records.length > 0 ∨ poll.late then
        if records.length > 0 ∧ refuses c.fetchLimiter (valueBytes records) then some (.error .rateLimited)
        else some (.ok ⟨records, fetchCodec req records⟩)
      else pollLoop c req polls

def handleFetch (c : Conn) (body : Bytes) (polls : List (Poll σ)) : Option (Except RequestError FetchResponse) :=
  match decodeFetchRequest body with
  | .error e => some (.error (.invalid e))
  | .ok (req, _) => if !c.allows .consume req.topic then some (.error .forbidden) else pollLoop c req polls

end Holocron.Server
