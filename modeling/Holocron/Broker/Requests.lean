import Holocron.Broker.Broker

/-! Produce requests side by side (`handleProduceBatch` in server.go, `PublishBatch` in inproc.go): a loop of Publish
    calls, each under the lock by itself. -/

namespace Holocron.Requests
open Lib Storage Broker

structure Batch where
  p : PartitionRef
  records : List Record
  published : Nat
  baseOffset : Int
  failed : Option BrokerError
  deriving DecidableEq, Repr

namespace Batch

def answer (x : Batch) : Option (Except BrokerError Int) :=
  match x.failed with
  | some e => some (.error e)
  | none => if x.records.length ≤ x.published then some (.ok x.baseOffset) else none

def advance (x : Batch) : Except BrokerError Int → Batch
  | .error e => { x with failed := some e }
  | .ok offset => { x with published := x.published + 1, baseOffset := if x.published = 0 then offset else x.baseOffset }

end Batch

structure State (σ : Type) where
  broker : Broker σ
  batches : List Batch

inductive Action where
  /-- A Publish by itself; a Send of a producer that does not linger is one. -/
  | publish (c : Call)
  | request (p : PartitionRef) (records : List Record)
  | next (k : Nat) (env : Env)
  deriving DecidableEq, Repr

namespace State

variable {σ : Type}

def start (b : Broker σ) : State σ := ⟨b, []⟩

def callOf (s : State σ) : Action → Option Call
  | .publish c => some c
  | .request _ _ => none
  | .next k env =>
    match s.batches[k]? with
    | none => none
    | some x => if x.failed.isSome then none else x.records[x.published]?.map fun r => ⟨env, x.p, r⟩

def record (s : State σ) (res : Except BrokerError Int) : Action → List Batch
  | .next k _ => s.batches.modify k (·.advance res)
  | _ => s.batches

variable [Store σ]

def step (s : State σ) (a : Action) : State σ :=
  match a with
  | .request p records => { s with batches := s.batches ++ [⟨p, records, 0, 0, none⟩] }
  | a =>
    match s.callOf a with
    | none => s
    | some c => ⟨(s.broker.call c).2, s.record (s.broker.call c).1 a⟩

end State
end Holocron.Requests
