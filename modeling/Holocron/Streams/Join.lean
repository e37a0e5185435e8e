import Holocron.Proto.Record

/-! Windowed joins of two streams (streams/join.go). Outer and left joins hold a record without a counterpart until the watermark closes its window.
    -/

namespace Holocron.Streams
open Lib

structure BufferedRec where
  eventTime : Int64
  record : Record
  deriving DecidableEq, Repr

inductive JoinFn where
  | inner (f : Record → Record → Record)
  | outer (f : Option Record → Option Record → Record)
  | left (f : Record → Option Record → Record)

structure JoinState where
  leftBuf : Bytes → List BufferedRec
  rightBuf : Bytes → List BufferedRec
  pendingLeft : List BufferedRec
  pendingRight : List BufferedRec

structure JoinPipeline where
  window : Int64
  allowedLateness : Int64
  joinFn : JoinFn

namespace JoinState

def empty : JoinState := ⟨fun _ => [], fun _ => [], [], []⟩

end JoinState

def abs (x : Int64) : Int64 := if x < 0 then -x else x

def removePending (pending : List BufferedRec) (eventTime : Int64) (offset : Int) : List BufferedRec :=
  pending.eraseP fun p => decide (p.eventTime = eventTime ∧ p.record.offset = offset)

namespace JoinPipeline

variable (j : JoinPipeline)

def pair (left right : Record) : Record :=
  match j.joinFn with
  | .inner f => f left right
  | .outer f => f (some left) (some right)
  | .left f => f left (some right)

def noMatch (isLeft : Bool) (r : Record) : Option Record :=
  match j.joinFn with
  | .inner _ => none
  | .outer f => some (if isLeft then f (some r) none else f none (some r))
  | .left f => if isLeft then some (f r none) else none

def flushPendingLocked (s : JoinState) (watermark : Int64) : List Record × JoinState :=
  match j.joinFn with
  | .inner _ => ([], s)
  | _ =>
    let waits (p : BufferedRec) : Bool := decide (watermark - j.window < p.eventTime)
    let closed (isLeft : Bool) (pending : List BufferedRec) : List Record :=
      (pending.filter fun p => !waits p).filterMap fun p => j.noMatch isLeft p.record
    (closed true s.pendingLeft ++ closed false s.pendingRight,
      { s with pendingLeft := s.pendingLeft.filter waits, pendingRight := s.pendingRight.filter waits })

def buffer (side : Bool) (b : BufferedRec) (s : JoinState) : JoinState :=
  let key := Slice.bytes b.record.key
  if side then { s with leftBuf := Function.update s.leftBuf key (s.leftBuf key ++ [b]) }
  else { s with rightBuf := Function.update s.rightBuf key (s.rightBuf key ++ [b]) }

def unpend (side : Bool) (m : BufferedRec) (s : JoinState) : JoinState :=
  match j.joinFn with
  | .inner _ => s
  | _ =>
    if side then { s with pendingRight := removePending s.pendingRight m.eventTime m.record.offset }
    else { s with pendingLeft := removePending s.pendingLeft m.eventTime m.record.offset }

def pend (side : Bool) (b : BufferedRec) (s : JoinState) : JoinState :=
  match j.joinFn with
  | .inner _ => s
  | .outer _ => if side then { s with pendingLeft := s.pendingLeft ++ [b] }
      else { s with pendingRight := s.pendingRight ++ [b] }
  | .left _ => if side then { s with pendingLeft := s.pendingLeft ++ [b] } else s

def prune (watermark : Int64) (s : JoinState) : JoinState :=
  let keep (e : BufferedRec) : Bool := decide (watermark - j.window - j.allowedLateness ≤ e.eventTime)
  { s with leftBuf := fun k => (s.leftBuf k).filter keep, rightBuf := fun k => (s.rightBuf k).filter keep }

def onRecord (s : JoinState) (side : Bool) (r : Record) (eventTime watermark : Int64) : List Record × JoinState :=
  let b : BufferedRec := ⟨eventTime, r⟩
  let s := buffer side b s
  let candidates := if side then s.rightBuf (Slice.bytes r.key) else s.leftBuf (Slice.bytes r.key)
  let matched := candidates.filter fun m => decide (abs (eventTime - m.eventTime) ≤ j.window)
  let out := matched.map fun m => if side then j.pair r m.record else j.pair m.record r
  let s := matched.foldl (fun s m => j.unpend side m s) s
  let s := if matched = [] then j.pend side b s else s
  let (flushed, s) := j.flushPendingLocked s watermark
  (out ++ flushed, j.prune watermark s)

end JoinPipeline

inductive JoinCall where
  | record (side : Bool) (b : BufferedRec) (watermark : Int64)
  | flush (watermark : Int64)
  deriving DecidableEq, Repr

def JoinCall.watermark : JoinCall → Int64
  | .record _ _ w | .flush w => w

namespace JoinPipeline

def call (j : JoinPipeline) (s : JoinState) : JoinCall → List Record × JoinState
  | .record side b watermark => j.onRecord s side b.record b.eventTime watermark
  | .flush watermark => j.flushPendingLocked s watermark

def outputs (j : JoinPipeline) : JoinState → List JoinCall → List Record
  | _, [] => []
  | s, c :: calls => (j.call s c).1 ++ j.outputs (j.call s c).2 calls

end JoinPipeline
end Holocron.Streams
