import Holocron.Proto.Record

/-! The batcher of one partition (sdk/batcher.go), as the steps of its goroutines: each locked section is one, and so is
    each result sent. -/

namespace Holocron.Sdk

/-- A record that waits for a flush, numbered in the order of the calls; addNoWait registers no result channel. -/
structure Queued where
  ticket : Nat
  record : Record
  waits : Bool
  deriving DecidableEq

inductive Timer where
  | stopped
  | armed
  /-- Its callback has started, and the batcher still refers to it. -/
  | fired
  deriving DecidableEq

inductive BatchError (ε : Type) where
  | flush (e : ε)
  | closed
  deriving DecidableEq

structure Batcher (ε : Type) where
  pending : List Queued
  timer : Timer
  closed : Bool
  /-- Calls of flushNow, by a caller, a helper goroutine or the timer, that have not got the lock yet. -/
  started : Nat
  calling : List (List Queued)
  sending : List (List (Queued × Except (BatchError ε) Int))
  -- kept for the specification only
  accepted : List Queued
  published : List (List Queued)
  discarded : List Queued
  resolved : List (Queued × Except (BatchError ε) Int)

namespace Batcher

/-- The outcome of a call is that of PublishBatch and, for AcksDurable, of Sync. -/
inductive Action (ε : Type) where
  | add (r : Record) (waits : Bool)
  | fire
  | flush
  | flushNow
  | publish (i : Nat) (outcome : Except ε Int)
  | send (i : Nat)
  | shutdown

variable {ε : Type}

def new : Batcher ε := ⟨[], .stopped, false, 0, [], [], [], [], [], []⟩

def add (batchSize : Int) (b : Batcher ε) (r : Record) (waits : Bool) : Batcher ε :=
  if b.closed then b
  else
    let q : Queued := ⟨b.accepted.length, r, waits⟩
    let b := { b with pending := b.pending ++ [q], accepted := b.accepted ++ [q] }
    if batchSize ≤ b.pending.length then { b with started := b.started + 1 }
    else { b with timer := if b.timer = .stopped then .armed else b.timer }

def flushNow (b : Batcher ε) : Batcher ε :=
  if b.started = 0 then b
  else
    let b := { b with started := b.started - 1 }
    if b.pending = [] then b else { b with pending := [], timer := .stopped, calling := b.calling ++ [b.pending] }

def results (outcome : Except ε Int) (batch : List Queued) : List (Queued × Except (BatchError ε) Int) :=
  batch.mapIdx fun i q => (q, (outcome.mapError .flush).map (· + i))

def shutdown (b : Batcher ε) : Batcher ε :=
  if b.closed then b
  else
    { b with
      closed := true
      timer := .stopped
      pending := []
      discarded := b.discarded ++ b.pending
      resolved := b.resolved ++ b.pending.map fun q => (q, .error .closed) }

def step (batchSize : Int) (b : Batcher ε) : Action ε → Batcher ε
  | .add r waits => b.add batchSize r waits
  | .fire => if b.timer = .armed then { b with timer := .fired, started := b.started + 1 } else b
  | .flush => { b with started := b.started + 1 }
  | .flushNow => b.flushNow
  | .publish i outcome =>
    match b.calling[i]? with
    | none => b
    | some batch =>
      { b with
        calling := b.calling.eraseIdx i
        published := b.published ++ [batch]
        sending := b.sending ++ [results outcome batch] }
  | .send i =>
    match b.sending[i]? with
    | some (x :: rest) => { b with sending := rest :: b.sending.eraseIdx i, resolved := b.resolved ++ [x] }
    | _ => b
  | .shutdown => b.shutdown

def run (batchSize : Int) (actions : List (Action ε)) : Batcher ε := actions.foldl (step batchSize) new

end Batcher
end Holocron.Sdk
