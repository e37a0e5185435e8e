import Holocron.Broker.Broker

/-! Subscriptions (broker/internal/broker/broker.go): a pump between two bounded channels. The append of Publish with
    its checkpoint is one step, every send is one. -/

namespace Holocron.Subscribe
open Lib Storage Broker

def defaultSubscriberBuffer : Nat := 256

def catchUpBatchSize : Nat := 256

/-- What the catch-up of `pump` sends of a log that nobody else uses: the cursor moves on by the number of records read, and
    a read that fails or is empty ends it. `n` bounds the reads. -/
def catchUpSends (hw : Int) : Nat → Log.PartitionLog → Int → List Record
  | 0, _, _ => []
  | n + 1, l, cursor =>
    if cursor < hw then
      match l.read cursor catchUpBatchSize with
      | (.ok (r :: rs), l') => r :: rs ++ catchUpSends hw n l' (cursor + (rs.length + 1))
      | _ => []
    else []

inductive Pump where
  | catchUp (cursor : Int)
  | send (cursor : Int) (todo : List Record) (n : Nat)
  | live (cursor : Int)
  | forward (cursor : Int) (r : Record)
  | stopped
  | closed
  deriving DecidableEq, Repr

/-- A subscription; `received` is what its subscriber has read from the channel `out`. -/
structure Subscription where
  p : PartitionRef
  fromOffset : Int
  hwAtRegister : Int
  ctx : Ctx
  sub : List Record
  out : List Record
  received : List Record
  pump : Pump
  deriving DecidableEq, Repr

namespace Subscription

def delivered (x : Subscription) : List Record := x.received ++ x.out

def Registered (x : Subscription) (p : PartitionRef) : Prop := x.p = p ∧ x.pump ≠ .closed

instance (x : Subscription) (p : PartitionRef) : Decidable (x.Registered p) := inferInstanceAs (Decidable (_ ∧ _))

def receive (x : Subscription) : Subscription :=
  match x.out with
  | [] => x
  | r :: out => { x with out := out, received := x.received ++ [r] }

def cancel (x : Subscription) (e : CtxError) : Subscription := { x with ctx := ⟨x.ctx.err.or (some e)⟩ }

def stop (x : Subscription) : Subscription :=
  match x.ctx.err, x.pump with
  | some _, .send _ (_ :: _) _ | some _, .live _ | some _, .forward _ _ => { x with pump := .stopped }
  | _, _ => x

def emit (x : Subscription) (r : Record) (pump : Pump) : Subscription :=
  if x.out.length < defaultSubscriberBuffer then { x with out := x.out ++ [r], pump := pump } else x

/-- A receive from the channel `sub`, which nobody closes. Records that catch-up has sent already are dropped. -/
def take (x : Subscription) (cursor : Int) : Subscription :=
  match x.sub with
  | [] => x
  | r :: rest => { x with sub := rest, pump := if r.offset < cursor then .live cursor else .forward cursor r }

end Subscription

structure FanOut where
  record : Record
  todo : List Nat
  deriving DecidableEq, Repr

/-- The subscriptions in the order of their registration, and who holds the lock of a partition. -/
structure State (σ : Type) where
  broker : Broker σ
  subs : List Subscription
  lock : PartitionRef → Option FanOut

inductive Action where
  | subscribe (ctx : Ctx) (p : PartitionRef) (fromOffset : Int)
  | publish (c : Call)
  | send (p : PartitionRef)
  | cut (p : PartitionRef)
  | pump (j : Nat)
  | stop (j : Nat)
  | cancel (j : Nat) (e : CtxError)
  | receive (j : Nat)
  deriving DecidableEq, Repr

section
variable {σ : Type} [Store σ]

def appendLocked (b : Broker σ) (c : Call) : Option Record × Broker σ :=
  let key := producerIdempKey c.record
  let b := b.evictFor key c.now c.p
  match (b.partitions c.p).duplicate key with
  | some _ => (none, b)
  | none =>
    let r := withTimestamp c.now c.record
    match Store.append b.store c.ctx c.now c.p r with
    | (.error _, s) => (none, { b with store := s })
    | (.ok offset, s) => (some { r with offset := offset }, remember { b with store := s } c.now c.p offset key)

end

namespace State

variable {σ : Type}

def start (b : Broker σ) : State σ := ⟨b, [], fun _ => none⟩

def setSub (s : State σ) (j : Nat) (x : Subscription) : State σ := { s with subs := s.subs.set j x }

def setStore (s : State σ) (st : σ) : State σ := { s with broker := { s.broker with store := st } }

def setLock (s : State σ) (p : PartitionRef) (f : Option FanOut) : State σ := { s with lock := Function.update s.lock p f }

def subscribers (s : State σ) (p : PartitionRef) : List Nat :=
  (List.range s.subs.length).filter fun j => (s.subs[j]?).any fun x => decide (x.Registered p)

def modify (s : State σ) (j : Nat) (f : Subscription → Subscription) : State σ :=
  match s.subs[j]? with
  | none => s
  | some x => s.setSub j (f x)

def send (s : State σ) (p : PartitionRef) : State σ :=
  match s.lock p with
  | none => s
  | some ⟨_, []⟩ => s.setLock p none
  | some ⟨r, j :: todo⟩ =>
    match s.subs[j]? with
    | none => s
    | some x =>
      if x.sub.length < defaultSubscriberBuffer then (s.setSub j { x with sub := x.sub ++ [r] }).setLock p (some ⟨r, todo⟩)
      else s

def cut (s : State σ) (p : PartitionRef) : State σ :=
  match s.lock p with
  | some ⟨_, _ :: _⟩ => s.setLock p none
  | _ => s

def removeSubscriber (s : State σ) (j : Nat) (x : Subscription) : State σ :=
  match s.lock x.p with
  | some _ => s
  | none =>
    let ps := s.broker.partitions x.p
    { s.setSub j { x with pump := .closed } with
      broker := s.broker.setPartition x.p { ps with subscribers := ps.subscribers - 1 } }

variable [Store σ]

def subscribe (s : State σ) (ctx : Ctx) (p : PartitionRef) (fromOffset : Int) : State σ :=
  match s.broker.validate p, s.lock p with
  | .ok (), none =>
    match Store.highWater s.broker.store ctx p with
    | (.error _, st) => s.setStore st
    | (.ok hw, st) =>
      let b := { s.broker with store := st }
      let ps := b.partitions p
      { s with
        broker := b.setPartition p { ps with subscribers := ps.subscribers + 1 }
        subs := s.subs ++ [⟨p, fromOffset, hw, ctx, [], [], [], .catchUp fromOffset⟩] }
  | _, _ => s

def publish (s : State σ) (c : Call) : State σ :=
  match s.broker.validate c.p, s.lock c.p with
  | .ok (), none =>
    match appendLocked s.broker c with
    | (none, b) => { s with broker := b }
    | (some r, b) => { s with broker := b, lock := Function.update s.lock c.p (some ⟨r, s.subscribers c.p⟩) }
  | _, _ => s

def catchUp (s : State σ) (j : Nat) (x : Subscription) (cursor : Int) : State σ :=
  match Store.read s.broker.store x.ctx x.p cursor catchUpBatchSize with
  | (.ok (r :: rs), st) => (s.setStore st).setSub j { x with pump := .send cursor (r :: rs) (rs.length + 1) }
  | (_, st) => (s.setStore st).setSub j { x with pump := .stopped }

def pump (s : State σ) (j : Nat) : State σ :=
  match s.subs[j]? with
  | none => s
  | some x =>
    match x.pump with
    | .catchUp cursor => if cursor < x.hwAtRegister then s.catchUp j x cursor else s.setSub j { x with pump := .live cursor }
    | .send cursor [] n => s.setSub j { x with pump := .catchUp (cursor + n) }
    | .send cursor (r :: todo) n => s.setSub j (x.emit r (.send cursor todo n))
    | .live cursor => s.setSub j (x.take cursor)
    | .forward _ r => s.setSub j (x.emit r (.live (r.offset + 1)))
    | .stopped => s.removeSubscriber j x
    | .closed => s

def step (s : State σ) : Action → State σ
  | .subscribe ctx p fromOffset => s.subscribe ctx p fromOffset
  | .publish c => s.publish c
  | .send p => s.send p
  | .cut p => s.cut p
  | .pump j => s.pump j
  | .stop j => s.modify j Subscription.stop
  | .cancel j e => s.modify j (·.cancel e)
  | .receive j => s.modify j Subscription.receive

end State
end Holocron.Subscribe
