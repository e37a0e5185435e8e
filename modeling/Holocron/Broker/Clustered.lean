import Holocron.Broker.Subscribe
import Holocron.Cluster.Fsm

/-! Publish on the leader of a cluster (`publishClustered` in broker/internal/broker/broker.go). The leader is stable
    and applies a command once; calls follow each other. -/

namespace Holocron.Clustered
open Lib Storage Broker Cluster Subscribe

inductive ClusterError where
  | broker (e : BrokerError)
  /-- The response was an error: "broker: cluster apply". -/
  | apply (resp : Response)
  | unexpectedType
  deriving DecidableEq, Repr

section
variable {σ : Type} [Store σ]

/-- `Cluster.Apply` on the leader. It asks the context for the principal only. -/
def clusterApply (b : Broker σ) (now : Int64) (cmd : Bytes) : Response × Broker σ :=
  let (resp, f) := (Fsm.mk b.store b.registry).apply now cmd
  (resp, { b with store := f.store, registry := f.registry })

def publishClustered (b : Broker σ) (now : Int64) (p : PartitionRef) (r : Record) : Except ClusterError Int × Broker σ :=
  match clusterApply b now (publishCommand p r).encode with
  | (.offset off, b) => (.ok off, b)
  | (.done, b) => (.error .unexpectedType, b)
  | (resp, b) => (.error (.apply resp), b)

def publish (b : Broker σ) (c : Call) : Except ClusterError Int × Broker σ :=
  match b.validate c.p with
  | .error e => (.error (.broker e), b)
  | .ok () => publishClustered b c.now c.p c.record

def fanOut (s : State σ) (p : PartitionRef) : Nat → State σ
  | 0 => s
  | n + 1 => fanOut (s.send p) p n

def standalone (s : State σ) : Action → State σ
  | .publish c => fanOut (s.publish c) c.p ((s.subscribers c.p).length + 1)
  | a => s.step a

def clustered (s : State σ) : Action → State σ
  | .publish c => { s with broker := (publish s.broker c).2 }
  | a => s.step a

def standaloneOffset (s : State σ) (c : Call) : Option Int := (s.broker.call c).1.toOption

def clusteredOffset (s : State σ) (c : Call) : Option Int := (publish s.broker c).1.toOption

end
end Holocron.Clustered
