import Holocron.Lib.Slice
import Holocron.Sdk.Consumer
import Holocron.Streams.Join

/-! The loops of a topology (streams/topology.go, ktable.go, join.go): poll a batch, process its records, send the
    results, commit one past what was received. -/

namespace Holocron.Streams
open Lib Sdk

structure Shared (σ : Type) where
  watermark : Int64
  stores : σ
  table : Int32 → Bytes → Option Bytes
  join : JoinState

/-- An operator takes a record and its partition; no result is a panic. -/
abbrev Operator (σ : Type) := σ → Record → Int32 → Option (List Record) × σ

inductive Task (σ : Type) where
  | pipeline (ops : List (Operator σ)) (sink : Bytes)
  | table
  | joinSide (j : JoinPipeline) (isLeft : Bool)

structure Config where
  extract : Record → Int64
  spare : Spare Record

section
variable {σ : Type}

def advanceWatermark (s : Shared σ) (ts : Int64) : Int64 × Shared σ := if ts ≤ s.watermark then (s.watermark, s)
    else (ts, { s with watermark := ts })

def runOp (o : Operator σ) (partition : Int32) (s : Shared σ) (r : Record) : List Record × Shared σ :=
  let (out, stores) := o s.stores r partition
  (out.getD [], { s with stores := stores })

def runOps (cfg : Config) (partition : Int32) : List (Operator σ) → Backed Record → Shared σ → Backed Record × Shared σ
  | [], out, s => (out, s)
  | o :: ops, out, s =>
    let (out, s) := rewrite cfg.spare (runOp o partition) out s
    if out.len = 0 then (out, s) else runOps cfg partition ops out s

def applyTable (s : Shared σ) (x : PolledRecord) : Shared σ :=
  let key := Slice.bytes x.record.key
  if key = [] then s
  else { s with table := Function.update s.table x.partition.index (Function.update (s.table x.partition.index) key
    x.record.value) }

def Task.process (cfg : Config) (task : Task σ) (s : Shared σ) (x : PolledRecord) : List Record × Shared σ :=
  match task with
  | .pipeline ops sink =>
    let (_, s) := advanceWatermark s (cfg.extract x.record)
    let (out, s) := runOps cfg x.partition.index ops (.ofOne x.record) s
    (if sink = [] then [] else out.toList, s)
  | .table => ([], applyTable s x)
  | .joinSide j isLeft =>
    let eventTime := cfg.extract x.record
    let (watermark, s) := advanceWatermark s eventTime
    let (emitted, join) := j.onRecord s.join isLeft x.record eventTime watermark
    (emitted, { s with join := join })

end

inductive Work (σ : Type) where
  | idle
  | records (todo : List PolledRecord)
  /-- Sending the outputs of a record, which was taken in with the shared state `before`. -/
  | sending (x : PolledRecord) (before : Shared σ) (sent outs : List Record) (todo : List PolledRecord)

/-- A record that was taken in and whose outputs were sent, kept for the specification only. -/
structure Finished (σ : Type) where
  polled : PolledRecord
  before : Shared σ
  sent : List Record

structure Loop (σ : Type) where
  runner : Runner
  shared : Shared σ
  work : Work σ
  finished : List (Finished σ)

inductive Action (σ : Type) where
  | consumer (a : RunAction)
  | other (s : Shared σ)
  | process
  | send (ok : Bool)

def batchSize : Nat := 256

namespace Loop

variable {σ : Type}

def start (shared : Shared σ) : Loop σ := ⟨.start .new, shared, .idle, []⟩

def workOf (r r' : Runner) (work : Work σ) : Work σ :=
  match r.phase, r'.phase with
  | .polling _, .handling batch => .records batch
  | _, _ => work

def step (cfg : Config) (task : Task σ) (l : Loop σ) : Action σ → Loop σ
  -- the handler of the consumer's run is the work below
  | .consumer (.handle _) => l
  | .consumer a =>
    let runner := l.runner.step batchSize a
    { l with runner := runner, work := workOf l.runner runner l.work }
  | .other s => { l with shared := s }
  | .process =>
    match l.work with
    | .records (x :: todo) =>
      let (outs, s) := task.process cfg l.shared x
      { l with shared := s, work := .sending x l.shared [] outs todo }
    | .records [] => { l with runner := l.runner.step batchSize (.handle true), work := .idle }
    | _ => l
  | .send ok =>
    match l.work with
    | .sending x before sent (o :: outs) todo =>
      if ok then { l with work := .sending x before (sent ++ [o]) outs todo }
      else { l with runner := l.runner.step batchSize (.handle false), work := .idle }
    | .sending x before sent [] todo => { l with work := .records todo, finished := l.finished ++ [⟨x, before, sent⟩] }
    | _ => l

end Loop
end Holocron.Streams
