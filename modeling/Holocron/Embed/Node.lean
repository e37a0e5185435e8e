import Holocron.Broker.Subscribe
import Holocron.Broker.Topics
import Holocron.Groups.Manager

/-! A standalone node: the broker with its subscriptions, and the coordinator of consumer groups (broker/embed/embed.go). -/

namespace Holocron.Embed
open Lib Storage Topic Groups Subscribe

structure Node (σ : Type) where
  state : Subscribe.State σ
  groups : Manager

/-- What is called on one topic, and what its Publish calls and its subscriptions do in between. Subscriptions are numbered
    from the first one that is new. -/
inductive TopicOp where
  | publish (env : Broker.Env) (i : Int32) (r : Record)
  | send (i : Int32)
  | cut (i : Int32)
  | read (ctx : Ctx) (i : Int32) (fromOffset maxRecords : Int)
  | highWater (ctx : Ctx) (i : Int32)
  | subscribe (ctx : Ctx) (i : Int32) (fromOffset : Int)
  | pump (j : Nat)
  | stop (j : Nat)
  | cancel (j : Nat) (e : CtxError)
  | receive (j : Nat)
  | join (groupName memberID fresh : Bytes) (topics : List Bytes) (now now' : Int)

/-- What is seen of an operation. A Publish answers once it gets the lock, and shows the record that it stores. -/
inductive TopicAnswer where
  | published (res : Option (Except BrokerError Int × Option Record))
  | records (res : Except BrokerError (List Record))
  | panicked
  | offset (res : Except BrokerError Int)
  | subscriptions (subs : List Subscription)
  | joined (res : Except GroupError JoinResult)
  deriving DecidableEq

namespace Node

variable {σ : Type}

def setBroker (n : Node σ) (b : Broker σ) : Node σ := { n with state := { n.state with broker := b } }

def createTopic (n : Node σ) (spec : Spec) : Except BrokerError Unit × Node σ :=
  (n.state.broker.createTopic spec).map id n.setBroker

variable [Store σ]

def deleteTopic (n : Node σ) (name : Bytes) : Except BrokerError Unit × Node σ :=
  (n.state.broker.deleteTopic name).map id n.setBroker

def subscriptionStep (n : Node σ) (base : Nat) (a : Subscribe.Action) : TopicAnswer × Node σ :=
  let state := n.state.step a
  (.subscriptions (state.subs.drop base), { n with state := state })

def publish (n : Node σ) (c : Broker.Call) : TopicAnswer × Node σ :=
  let answer := match n.state.lock c.p with
    | some _ => none
    | none => some ((n.state.broker.call c).1, (appendLocked n.state.broker c).1)
  (.published answer, { n with state := n.state.publish c })

def read (n : Node σ) (ctx : Ctx) (p : PartitionRef) (fromOffset maxRecords : Int) : TopicAnswer × Node σ :=
  if (n.state.broker.validate p).toBool && Store.readPanics n.state.broker.store ctx p fromOffset maxRecords then (.panicked, n)
  else (n.state.broker.read ctx p fromOffset maxRecords).map .records n.setBroker

def join (n : Node σ) (groupName memberID fresh : Bytes) (topics : List Bytes) (now now' : Int) : TopicAnswer × Node σ :=
  (n.groups.join n.state.broker.registry.partitionsFor groupName memberID fresh topics now now').map .joined
    fun groups => { n with groups := groups }

def op (topic : Bytes) (base : Nat) (n : Node σ) : TopicOp → TopicAnswer × Node σ
  | .publish env i r => n.publish ⟨env, ⟨topic, i⟩, r⟩
  | .send i => n.subscriptionStep base (.send ⟨topic, i⟩)
  | .cut i => n.subscriptionStep base (.cut ⟨topic, i⟩)
  | .read ctx i fromOffset maxRecords => n.read ctx ⟨topic, i⟩ fromOffset maxRecords
  | .highWater ctx i => (n.state.broker.highWater ctx ⟨topic, i⟩).map .offset n.setBroker
  | .subscribe ctx i fromOffset => n.subscriptionStep base (.subscribe ctx ⟨topic, i⟩ fromOffset)
  | .pump j => n.subscriptionStep base (.pump (base + j))
  | .stop j => n.subscriptionStep base (.stop (base + j))
  | .cancel j e => n.subscriptionStep base (.cancel (base + j) e)
  | .receive j => n.subscriptionStep base (.receive (base + j))
  | .join groupName memberID fresh topics now now' => n.join groupName memberID fresh topics now now'

def answers (topic : Bytes) (base : Nat) (n : Node σ) : List TopicOp → List TopicAnswer
  | [] => []
  | o :: rest => (n.op topic base o).1 :: answers topic base (n.op topic base o).2 rest

end Node
end Holocron.Embed
