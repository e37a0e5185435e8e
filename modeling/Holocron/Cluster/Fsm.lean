import Holocron.Cluster.Command
import Holocron.Storage.Store

/-! The Raft state machine of a broker (broker/internal/cluster/fsm.go). Committed entries are bytes, each with the
    node's clock. -/

namespace Holocron.Cluster
open Lib Storage Topic

inductive Response where
  | done
  | offset (n : Int)
  | commandError (e : CommandError)
  | storeError (e : StoreError)
  | topicError (e : TopicError)
  deriving DecidableEq, Repr

structure Fsm (σ : Type) where
  store : σ
  registry : Registry

namespace Fsm

variable {σ : Type} [Store σ]

def applyUpdateTopicConfig (f : Fsm σ) (cmd : UpdateTopicConfigCommand) : Response × Fsm σ :=
  match f.registry.updateConfig cmd.name cmd.retentionMs cmd.segmentBytes with
  | (.error e, registry) => (.topicError e, { f with registry := registry })
  | (.ok (), registry) => (.done, { f with registry := registry })

/-- The registry's answer is ignored: a topic that is gone already is a success. -/
def applyDeleteTopic (f : Fsm σ) (cmd : DeleteTopicCommand) : Response × Fsm σ :=
  let f := { f with registry := (f.registry.delete cmd.name).2 }
  match Store.deleteTopic f.store .background cmd.name with
  | (.error e, store) => (.storeError e, { f with store := store })
  | (.ok (), store) => (.done, { f with store := store })

/-- A stamped offset below the local high water is on disk already. -/
def alreadyHeld (f : Fsm σ) (cmd : AppendCommand) : Bool × Fsm σ :=
  if cmd.offset = offsetUnstamped then (false, f)
  else
    match Store.highWater f.store .background ⟨cmd.topic, cmd.partition⟩ with
    | (.ok hw, store) => (decide (cmd.offset < hw), { f with store := store })
    | (.error _, store) => (false, { f with store := store })

def applyAppend (now : Int64) (f : Fsm σ) (cmd : AppendCommand) : Response × Fsm σ :=
  match f.alreadyHeld cmd with
  | (true, f) => (.offset cmd.offset, f)
  | (false, f) =>
    match Store.append f.store .background now ⟨cmd.topic, cmd.partition⟩ cmd.record with
    | (.error e, store) => (.storeError e, { f with store := store })
    | (.ok off, store) => (.offset off, { f with store := store })

/-- Any failure counts as success if the topic is there afterwards. -/
def applyCreateTopic (f : Fsm σ) (cmd : CreateTopicCommand) : Response × Fsm σ :=
  match f.registry.create ⟨cmd.name, cmd.partitionCount, cmd.retentionMs, cmd.segmentBytes⟩ with
  | (.ok (), registry) => (.done, { f with registry := registry })
  | (.error e, registry) =>
    match registry.get cmd.name with
    | .ok _ => (.done, { f with registry := registry })
    | .error _ => (.topicError e, { f with registry := registry })

def apply (now : Int64) (f : Fsm σ) (entry : Bytes) : Response × Fsm σ :=
  match decode entry with
  | .error e => (.commandError e, f)
  | .ok (.append cmd) => f.applyAppend now cmd
  | .ok (.createTopic cmd) => f.applyCreateTopic cmd
  | .ok (.deleteTopic cmd) => f.applyDeleteTopic cmd
  | .ok (.updateTopicConfig cmd) => f.applyUpdateTopicConfig cmd

def applyAll (f : Fsm σ) : List (Int64 × Bytes) → List Response × Fsm σ
  | [] => ([], f)
  | (now, entry) :: rest =>
    let (resp, f) := f.apply now entry
    let (resps, f) := f.applyAll rest
    (resp :: resps, f)

def snapshot (f : Fsm σ) : List TopicConfig := f.registry.topics

/-- Restoring a snapshot leaves the store as it is; one without a payload changes nothing. -/
def restore (f : Fsm σ) : Option (List TopicConfig) → Fsm σ
  | none => f
  | some topics => { f with registry := f.registry.hydrate topics }

end Fsm
end Holocron.Cluster
