import Holocron.Groups.OffsetStore
import Holocron.Sdk.Drain

/-! The offset stores of source connectors (connect/offsets.go). `ω` stands for the JSON offsets of a task. -/

namespace Holocron.Connect
open Lib Sdk Groups

structure Codec (ω : Type) where
  marshal : ω → Option Bytes
  unmarshal : Bytes → Option ω

def defaultConnectOffsetsTopic : Bytes := utf8 "__connect_offsets"

def memoryKey (connector : Bytes) (taskIndex : Int) : Bytes := connector ++ utf8 "/" ++ decimal taskIndex

inductive OffsetsError where
  | noTransport
  | replay (topic : Bytes) (e : ReplayError)
  | producer
  | encode
  | send
  deriving DecidableEq, Repr

structure TopicOffsetStore (ω : Type) where
  topic : Bytes
  entries : Bytes → Option ω

variable {ω : Type}

/-- `producer` is whether a producer can be made. -/
def openTopicOffsetStore (codec : Codec ω) (transport : Option Feed) (topic : Bytes) (producer : Bool) :
    Option (Except OffsetsError (TopicOffsetStore ω)) :=
  match transport with
  | none => some (.error .noTransport)
  | some feed =>
    let topic := if topic = [] then defaultConnectOffsetsTopic else topic
    match replay codec.unmarshal feed with
    | none => none
    | some (.error e) => some (.error (.replay topic e))
    | some (.ok entries) => some (if producer then .ok ⟨topic, entries⟩ else .error .producer)

namespace TopicOffsetStore

def save (codec : Codec ω) (s : TopicOffsetStore ω) (connector : Bytes) (taskIndex : Int) (offsets : ω) (sent : Bool) :
    Except OffsetsError Record × TopicOffsetStore ω :=
  let key := memoryKey connector taskIndex
  match codec.marshal offsets with
  | none => (.error .encode, s)
  | some value =>
    if sent then (.ok ⟨0, 0, some key, some value, []⟩, { s with entries := Function.update s.entries key (some offsets) })
    else (.error .send, s)

def load (s : TopicOffsetStore ω) (connector : Bytes) (taskIndex : Int) : Option ω := s.entries (memoryKey connector taskIndex)

end TopicOffsetStore
end Holocron.Connect
