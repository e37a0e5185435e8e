import Holocron.Sdk.Consumer

/-! A sink task (connect/worker.go): the loop of `runSinkTask` and its revoke listener. Both flush the task and commit what the pumps have received.
    -/

namespace Holocron.Connect
open Lib Sdk

structure SinkMount where
  maxAttempts : Int
  dlq : Bool
  deriving DecidableEq, Repr

def SinkMount.attempts (mount : SinkMount) : Nat := (max mount.maxAttempts 1).toNat

/-- The delays between attempts. -/
structure RetryPolicy where
  baseDelay : Int64
  maxDelay : Int64
  deriving DecidableEq, Repr

namespace RetryPolicy

def delayLoop (p : RetryPolicy) : Nat → Int64 → Int64
  | 0, d => d
  | n + 1, d => if 0 < p.maxDelay ∧ p.maxDelay < d * 2 then p.maxDelay else p.delayLoop n (d * 2)

def nextDelay (p : RetryPolicy) (attempt : Int) : Int64 :=
  if attempt ≤ 0 ∨ p.baseDelay ≤ 0 then 0 else p.delayLoop (attempt - 1).toNat p.baseDelay

end RetryPolicy

def defaultBatchSize : Nat := 256

namespace Sink

inductive Stage where
  | subscribing
  | polling (out : List PolledRecord)
  | putting (batch : List PolledRecord) (left : Nat)
  | deadLetter (todo : List PolledRecord)
  | ticking
  | flushed
  | committing (todo : List (PartitionRef × Int))
  | ended (batch : List PolledRecord)
  deriving DecidableEq, Repr

inductive Listener where
  | idle
  | called (parts : List PartitionRef)
  /-- In Flush; what Put had accepted when it was called is kept for the specification only. -/
  | flushing (parts : List PartitionRef) (covers : List PolledRecord)
  | flushed (parts : List PartitionRef)
  | committing (todo : List (PartitionRef × Int))
  | joining
  deriving DecidableEq, Repr

structure State where
  consumer : Consumer
  stage : Stage
  listener : Listener
  /-- In batches that Put accepted; this and what follows is kept for the specification only. -/
  accepted : List PolledRecord
  durable : List PolledRecord
  dead : List PolledRecord

inductive Action where
  | pump (k : Nat) (step : Consumer.PumpStep)
  | subscribe (assignments : List Consumer.Assigned)
  | subscribed
  | take
  | polled
  | pollTimeout
  | put (ok : Bool)
  | putCancelled
  | sendDLQ (ok : Bool)
  | tick (ok : Bool)
  | noTick
  | latestOffsets
  | commit (k : Nat) (ok : Bool)
  | stop
  | revoke
  | callFlush
  | revokeFlushed (ok : Bool)
  | revokeLatest
  | revokeCommit (ok : Bool)
  | join (fromOffset : Int) (assignments : List Consumer.Assigned)
  | joinFails
  deriving DecidableEq, Repr

def gaveUp (mount : SinkMount) (batch : List PolledRecord) : Stage := if mount.dlq then .deadLetter batch else .ended batch

def start : State := ⟨.new, .subscribing, .idle, [], [], []⟩

def step (mount : SinkMount) (s : State) : Action → State
  | .pump k step => { s with consumer := s.consumer.pumpStep k step }
  | .subscribe assignments =>
    match s.stage with
    | .subscribing => { s with consumer := s.consumer.join 0 assignments }
    | _ => s
  | .subscribed =>
    match s.stage with
    | .subscribing => { s with stage := .polling [] }
    | _ => s
  | .take =>
    match s.stage with
    | .polling out =>
      if defaultBatchSize ≤ out.length then s
      else
        match s.consumer.takeOne with
        | none => s
        | some (.error _, c) => { s with consumer := c.recordPolled out, stage := .ended out }
        | some (.ok none, c) => { s with consumer := c }
        | some (.ok (some x), c) => { s with consumer := c, stage := .polling (out ++ [x]) }
    | _ => s
  | .polled =>
    match s.stage with
    | .polling out =>
      if out ≠ [] ∧ (defaultBatchSize ≤ out.length ∨ s.consumer.fanIn = []) then
        { s with consumer := s.consumer.recordPolled out, stage := .putting out mount.attempts }
      else s
    | _ => s
  | .pollTimeout =>
    match s.stage with
    | .polling [] => { s with stage := .ticking }
    | _ => s
  | .put ok =>
    match s.stage with
    | .putting batch left =>
      if ok then { s with stage := .ticking, accepted := s.accepted ++ batch }
      else { s with stage := if left ≤ 1 then gaveUp mount batch else .putting batch (left - 1) }
    | _ => s
  | .putCancelled =>
    match s.stage with
    | .putting batch left => if left < mount.attempts then { s with stage := gaveUp mount batch } else s
    | _ => s
  | .sendDLQ ok =>
    match s.stage with
    | .deadLetter [] => { s with stage := .ticking }
    | .deadLetter (x :: todo) =>
      if ok then { s with stage := .deadLetter todo, dead := s.dead ++ [x] } else { s with stage := .ended (x :: todo) }
    | _ => s
  | .tick ok =>
    match s.stage with
    | .ticking => if ok then { s with stage := .flushed, durable := s.durable ++ s.accepted } else { s with stage := .ended [] }
    | _ => s
  | .noTick =>
    match s.stage with
    | .ticking => { s with stage := .polling [] }
    | _ => s
  | .latestOffsets =>
    match s.stage with
    | .flushed => { s with stage := .committing s.consumer.runCommits }
    | _ => s
  | .commit k ok =>
    match s.stage with
    | .committing [] => { s with stage := .polling [] }
    | .committing todo =>
      if k < todo.length then { s with stage := if ok then .committing (todo.eraseIdx k) else .ended [] } else s
    | _ => s
  | .stop =>
    match s.stage with
    | .polling [] => { s with stage := .ended [] }
    | _ => s
  | .revoke =>
    match s.listener with
    | .idle => { s with listener := if s.consumer.assignment = [] then .joining else .called s.consumer.assignment }
    | _ => s
  | .callFlush =>
    match s.listener with
    | .called parts => { s with listener := .flushing parts s.accepted }
    | _ => s
  | .revokeFlushed ok =>
    match s.listener with
    | .flushing parts covers => if ok then { s with listener := .flushed parts, durable := s.durable ++ covers }
        else { s with listener := .idle }
    | _ => s
  | .revokeLatest =>
    match s.listener with
    | .flushed parts =>
      { s with listener := .committing (parts.filterMap fun p => (s.consumer.latest.lookup p).map fun offset =>
        (p, offset + 1)) }
    | _ => s
  | .revokeCommit ok =>
    match s.listener with
    | .committing [] => { s with listener := .joining }
    | .committing (_ :: todo) => { s with listener := if ok then .committing todo else .idle }
    | _ => s
  | .join fromOffset assignments =>
    match s.listener with
    | .joining => { s with consumer := s.consumer.join fromOffset assignments, listener := .idle }
    | _ => s
  | .joinFails =>
    match s.listener with
    | .joining => { s with listener := .idle }
    | _ => s

end Sink

end Holocron.Connect
