import Holocron.Broker.Broker

/-! The idempotent producer over the in-process transport (sdk/producer.go, sdk/batcher.go), as the atomic steps of its
    goroutines. A Send is known by its ticket; a batcher may be flushed at any time. -/

namespace Holocron.Sdk
open Lib Storage

inductive Acks where
  | acksLocal
  | acksDurable
  | acksNone
  deriving DecidableEq, Repr

inductive SendError where
  | broker (e : BrokerError)
  | ctx (e : CtxError)
  | closed
  deriving DecidableEq, Repr

structure Options where
  producerID : Bytes
  named : producerID ≠ []
  linger : Bool
  acks : Acks

def stampIdempotencyHeaders (producerID : Bytes) (seq : UInt64) (r : Record) : Record :=
  { r with headers := r.headers ++ [⟨headerProducerID, some producerID⟩, ⟨headerProducerSeq, some (bigEndian 8 seq.toNat)⟩] }

structure Sent where
  pref : PartitionRef
  seq : UInt64
  record : Record
  deriving DecidableEq, Repr

structure Entry where
  ticket : Nat
  pref : PartitionRef
  record : Record
  deriving DecidableEq, Repr

abbrev Results := Nat → Option (Except SendError Int)

structure State (σ : Type) where
  broker : Broker σ
  idempSeqs : PartitionRef → UInt64
  sends : List Sent
  results : Results
  ready : List Entry
  pending : List Entry
  closed : PartitionRef → Bool
  flights : List (PartitionRef × List Entry)

def Results.resolve (results : Results) (ticket : Nat) (res : Except SendError Int) : Results :=
  if results ticket = none then Function.update results ticket (some res) else results

def Results.fail (results : Results) (e : SendError) (entries : List Entry) : Results :=
  entries.foldl (fun results entry => results.resolve entry.ticket (.error e)) results

def Results.assign (results : Results) : Int → List Entry → Results
  | _, [] => results
  | offset, entry :: rest => (results.resolve entry.ticket (.ok offset)).assign (offset + 1) rest

def calls (pref : PartitionRef) : (Nat → Broker.Env) → List Entry → List Broker.Call
  | _, [] => []
  | env, entry :: rest => ⟨env 0, pref, entry.record⟩ :: calls pref (fun i => env (i + 1)) rest

inductive Action where
  | stamp (pref : PartitionRef) (r : Record)
  | refuse (i : Nat)
  | proceed (i : Nat) (env : Broker.Env) (syncCtx : Ctx)
  | abandon (ticket : Nat) (e : CtxError)
  | take (pref : PartitionRef)
  | deliver (i : Nat) (env : Nat → Broker.Env) (syncCtx : Ctx)
  | shutdown (pref : PartitionRef)

namespace State

variable {σ : Type} [Store σ]

omit [Store σ] in
def stamp (o : Options) (s : State σ) (pref : PartitionRef) (r : Record) : State σ :=
  let seq := s.idempSeqs pref
  { s with
    idempSeqs := Function.update s.idempSeqs pref (seq + 1)
    sends := s.sends ++ [⟨pref, seq, r⟩]
    ready := s.ready ++ [⟨s.sends.length, pref, stampIdempotencyHeaders o.producerID seq r⟩] }

def synced (o : Options) (b : Broker σ) (syncCtx : Ctx) (pref : PartitionRef) : Except BrokerError Unit × Broker σ :=
  if o.acks = .acksDurable then b.sync syncCtx pref else (.ok (), b)

def finish (o : Options) (s : State σ) (pref : PartitionRef) (entries : List Entry) (syncCtx : Ctx) :
    Except BrokerError Int × Broker σ → State σ
  | (.error e, b) => { s with broker := b, results := s.results.fail (.broker e) entries }
  | (.ok baseOffset, b) =>
    match synced o b syncCtx pref with
    | (.error e, b') => { s with broker := b', results := s.results.fail (.broker e) entries }
    | (.ok (), b') => { s with broker := b', results := s.results.assign baseOffset entries }

def proceed (o : Options) (s : State σ) (entry : Entry) (env : Broker.Env) (syncCtx : Ctx) : State σ :=
  if o.linger then
    if s.closed entry.pref then { s with results := s.results.resolve entry.ticket (.error .closed) }
    else { s with pending := s.pending ++ [entry] }
  else s.finish o entry.pref [entry] syncCtx (s.broker.call ⟨env, entry.pref, entry.record⟩)

omit [Store σ] in
def take (s : State σ) (pref : PartitionRef) : State σ :=
  let entries := s.pending.filter fun e => decide (e.pref = pref)
  if entries = [] then s
  else { s with pending := s.pending.filter fun e => decide (e.pref ≠ pref), flights := s.flights ++ [(pref, entries)] }

omit [Store σ] in
def shutdown (s : State σ) (pref : PartitionRef) : State σ :=
  { s with
    closed := Function.update s.closed pref true
    pending := s.pending.filter fun e => decide (e.pref ≠ pref)
    results := s.results.fail .closed (s.pending.filter fun e => decide (e.pref = pref)) }

def step (o : Options) (s : State σ) : Action → State σ
  | .stamp pref r => s.stamp o pref r
  | .refuse i =>
    match s.ready[i]? with
    | none => s
    | some entry => { s with ready := s.ready.eraseIdx i, results := s.results.resolve entry.ticket (.error .closed) }
  | .proceed i env syncCtx =>
    match s.ready[i]? with
    | none => s
    | some entry => proceed o { s with ready := s.ready.eraseIdx i } entry env syncCtx
  | .abandon ticket e =>
    if ticket < s.sends.length then { s with results := s.results.resolve ticket (.error (.ctx e)) } else s
  | .take pref => s.take pref
  | .deliver i env syncCtx =>
    match s.flights[i]? with
    | none => s
    | some (pref, entries) =>
      finish o { s with flights := s.flights.eraseIdx i } pref entries syncCtx (s.broker.publishBatch (calls pref env entries))
  | .shutdown pref => s.shutdown pref

def start (b : Broker σ) : State σ := ⟨b, fun _ => 0, [], fun _ => none, [], [], fun _ => false, []⟩

end State
end Holocron.Sdk
