import Holocron.Proto.Record

/-! The topic registry (broker/internal/topic/topic.go): at most one configuration of each name; the persist hook is
    known by the error it returns. -/

namespace Holocron.Topic
open Lib

structure Spec where
  name : Bytes
  partitionCount : Int32
  retentionMs : Int64
  segmentBytes : Int64
  deriving DecidableEq, Repr

inductive TopicError where
  | topicExists (name : Bytes)
  | topicNotFound (name : Bytes)
  | invalidName (name : Bytes)
  | invalidSpec
  | persist
  deriving DecidableEq, Repr

def nameChar (c : UInt8) : Bool :=
  (97 ≤ c && c ≤ 122) || (65 ≤ c && c ≤ 90) || (48 ≤ c && c ≤ 57) || c == 46 || c == 95 || c == 45

def nameRe (name : Bytes) : Bool := decide (1 ≤ name.length) && decide (name.length ≤ 249) && name.all nameChar

structure Registry where
  topics : List TopicConfig
  persist : Option (List TopicConfig → Option TopicError)

namespace Registry

def new : Registry := ⟨[], none⟩

def find (r : Registry) (name : Bytes) : Option TopicConfig := r.topics.find? fun cfg => decide (cfg.name = name)

def persisted (r : Registry) : Except TopicError Unit :=
  match r.persist with
  | none => .ok ()
  | some hook =>
    match hook r.topics with
    | none => .ok ()
    | some e => .error e

def put (topics : List TopicConfig) (cfg : TopicConfig) : List TopicConfig :=
  topics.filter (fun c => decide (c.name ≠ cfg.name)) ++ [cfg]

def hydrate (r : Registry) (configs : List TopicConfig) : Registry := { r with topics := configs.foldl put [] }

/-- The topic stays registered even if the hook then fails. -/
def create (r : Registry) (spec : Spec) : Except TopicError Unit × Registry :=
  if nameRe spec.name = false then (.error (.invalidName spec.name), r)
  else if spec.partitionCount ≤ 0 then (.error .invalidSpec, r)
  else
    match r.find spec.name with
    | some _ => (.error (.topicExists spec.name), r)
    | none =>
      let r' := { r with topics := put r.topics ⟨spec.name, spec.partitionCount, spec.retentionMs, spec.segmentBytes⟩ }
      (r'.persisted, r')

def updateConfig (r : Registry) (name : Bytes) (retentionMs segmentBytes : Int64) : Except TopicError Unit × Registry :=
  match r.find name with
  | none => (.error (.topicNotFound name), r)
  | some cfg =>
    let cfg := if 0 < retentionMs then { cfg with retentionMs := retentionMs } else cfg
    let cfg := if 0 < segmentBytes then { cfg with segmentBytes := segmentBytes } else cfg
    let r' := { r with topics := put r.topics cfg }
    (r'.persisted, r')

def delete (r : Registry) (name : Bytes) : Except TopicError Unit × Registry :=
  match r.find name with
  | none => (.error (.topicNotFound name), r)
  | some _ =>
    let r' := { r with topics := r.topics.filter fun cfg => decide (cfg.name ≠ name) }
    (r'.persisted, r')

def get (r : Registry) (name : Bytes) : Except TopicError TopicConfig :=
  match r.find name with
  | none => .error (.topicNotFound name)
  | some cfg => .ok cfg

def partitionsFor (r : Registry) (name : Bytes) : Except TopicError Int32 := (r.get name).map TopicConfig.partitionCount

end Registry
end Holocron.Topic
