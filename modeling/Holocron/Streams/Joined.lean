import Holocron.Streams.Topology

/-! Building a join of two streams, and the run of its two sides and its punctuator (streams/topology.go, join.go). -/

namespace Holocron.Streams
open Lib Sdk

structure Stream (σ : Type) where
  source : Bytes
  ops : List (Operator σ)

namespace Stream

variable {σ : Type}

def appendOp (s : Stream σ) (o : Operator σ) : Stream σ := { s with ops := s.ops ++ [o] }

def filter (s : Stream σ) (pred : Record → Bool) : Stream σ :=
  s.appendOp fun stores r _ => (some (if pred r then [r] else []), stores)

end Stream

/-- The builder of a join, with its kind in the function: the one of an inner join, and under other names the others. -/
structure JoinedStream (σ : Type) where
  left : Stream σ
  right : Stream σ
  window : Int64
  allowedLateness : Int64
  joinFn : JoinFn

abbrev LeftJoinedStream := JoinedStream

abbrev OuterJoinedStream := JoinedStream

structure JoinTask where
  leftSource : Bytes
  rightSource : Bytes
  sink : Bytes
  pipeline : JoinPipeline

variable {σ : Type}

namespace Stream

def join (s other : Stream σ) (window : Int64) (joinFn : Record → Record → Record) : JoinedStream σ :=
  ⟨s, other, window, 0, .inner joinFn⟩

def leftJoin (s other : Stream σ) (window : Int64) (joinFn : Record → Option Record → Record) : LeftJoinedStream σ :=
  ⟨s, other, window, 0, .left joinFn⟩

def outerJoin (s other : Stream σ) (window : Int64) (joinFn : Option Record → Option Record → Record) : OuterJoinedStream σ :=
  ⟨s, other, window, 0, .outer joinFn⟩

end Stream

namespace JoinedStream

def withAllowedLateness (j : JoinedStream σ) (d : Int64) : JoinedStream σ := { j with allowedLateness := d }

def register (j : JoinedStream σ) (topic : Bytes) : JoinTask :=
  ⟨j.left.source, j.right.source, topic, ⟨j.window, j.allowedLateness, j.joinFn⟩⟩

end JoinedStream

inductive JoinEvent where
  | record (isLeft : Bool) (x : PolledRecord)
  | punctuate

namespace JoinTask

def source (t : JoinTask) (isLeft : Bool) : Bytes := if isLeft then t.leftSource else t.rightSource

def step (cfg : Config) (t : JoinTask) (s : Shared σ) : JoinEvent → List Record × Shared σ
  | .record isLeft x => (Task.joinSide t.pipeline isLeft).process cfg s x
  | .punctuate =>
    let (out, join) := t.pipeline.flushPendingLocked s.join s.watermark
    (out, { s with join := join })

def run (cfg : Config) (t : JoinTask) : Shared σ → List JoinEvent → List Record × Shared σ
  | s, [] => ([], s)
  | s, e :: es =>
    let (out, s) := t.step cfg s e
    let (outs, s) := t.run cfg s es
    (out ++ outs, s)

end JoinTask

def Shared.start (stores : σ) : Shared σ := ⟨0, stores, fun _ _ => none, .empty⟩

end Holocron.Streams
