import Holocron.Broker.Broker

/-! The topics of a standalone broker: CreateTopic, UpdateTopicConfig, DeleteTopic and HighWater
    (broker/internal/broker/broker.go). -/

namespace Holocron.Broker
open Lib Storage Topic

variable {σ : Type}

def createTopic (b : Broker σ) (spec : Spec) : Except BrokerError Unit × Broker σ :=
  match b.registry.create spec with
  | (.error e, registry) => (.error (.topic e), { b with registry := registry })
  | (.ok (), registry) => (.ok (), { b with registry := registry })

def updateTopicConfig (b : Broker σ) (name : Bytes) (retentionMs segmentBytes : Int64) : Except BrokerError Unit × Broker σ :=
  match b.registry.updateConfig name retentionMs segmentBytes with
  | (.error e, registry) => (.error (.topic e), { b with registry := registry })
  | (.ok (), registry) => (.ok (), { b with registry := registry })

variable [Store σ]

/-- The registry forgets the topic and the store its records. What else is kept for its partitions stays. -/
def deleteTopic (b : Broker σ) (name : Bytes) : Except BrokerError Unit × Broker σ :=
  match b.registry.delete name with
  | (.error e, registry) => (.error (.topic e), { b with registry := registry })
  | (.ok (), registry) =>
    match Store.deleteTopic b.store .background name with
    | (.error e, s) => (.error (.store e), { b with registry := registry, store := s })
    | (.ok (), s) => (.ok (), { b with registry := registry, store := s })

def highWater (b : Broker σ) (ctx : Ctx) (p : PartitionRef) : Except BrokerError Int × Broker σ :=
  match b.validate p with
  | .error e => (.error e, b)
  | .ok () =>
    match Store.highWater b.store ctx p with
    | (.error e, s) => (.error (.store e), { b with store := s })
    | (.ok n, s) => (.ok n, { b with store := s })

end Holocron.Broker
