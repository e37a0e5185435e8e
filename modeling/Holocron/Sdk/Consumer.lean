import Mathlib.Data.List.AList
import Holocron.Proto.Record

/-! The group consumer (sdk/consumer.go). A pump takes a record from the transport, notes it in `latest` and sends it to
    the fan-in channel, each a step of its own. -/

namespace Holocron.Sdk
open Lib

structure ProtocolError where
  status : UInt8
  message : Bytes
  deriving DecidableEq, Repr

structure Inflight where
  partition : PartitionRef
  payload : Except ProtocolError Record
  deriving DecidableEq

structure PolledRecord where
  record : Record
  partition : PartitionRef
  deriving DecidableEq, Repr

inductive Hand where
  | empty
  | received (r : Record)
  | recorded (r : Record)
  deriving DecidableEq, Repr

structure Pump where
  partition : PartitionRef
  next : Int
  cancelled : Bool
  ended : Bool
  hand : Hand
  history : List Record
  deriving DecidableEq, Repr

abbrev OffsetMap := AList fun _ : PartitionRef => Int

structure Consumer where
  closed : Bool
  fanIn : List Inflight
  pumps : List Pump
  pumpCancel : AList fun _ : PartitionRef => Nat
  latest : OffsetMap
  polledMax : OffsetMap
  seekFloor : OffsetMap
  assignment : List PartitionRef

namespace Consumer

def fanInSize : Nat := 256

def new : Consumer := ⟨false, [], [], ∅, ∅, ∅, ∅, []⟩

def cancel (c : Consumer) (k : Nat) : Consumer :=
  { c with pumps := c.pumps.modify k fun pump => { pump with cancelled := true } }

def displace (c : Consumer) (p : PartitionRef) : Consumer :=
  match c.pumpCancel.lookup p with
  | some k => c.cancel k
  | none => c

def startPump (c : Consumer) (p : PartitionRef) (fromOffset : Int) (ok : Bool) : Bool × Consumer :=
  if c.closed then (false, c)
  else
    let c := c.displace p
    if ok then
      (true, { c with
        pumps := c.pumps ++ [⟨p, fromOffset, false, false, .empty, []⟩]
        pumpCancel := c.pumpCancel.insert p c.pumps.length })
    else (false, { c with pumpCancel := c.pumpCancel.erase p })

def recordLatest (c : Consumer) (p : PartitionRef) (offset : Int) : Consumer :=
  match c.latest.lookup p with
  | some cur => if offset > cur then { c with latest := c.latest.insert p offset } else c
  | none => { c with latest := c.latest.insert p offset }

def setPump (c : Consumer) (k : Nat) (pump : Pump) : Consumer := { c with pumps := c.pumps.set k pump }

inductive PumpStep where
  | receive (r : Record)
  | note
  | send
  | forward (e : ProtocolError)
  | exit
  deriving DecidableEq, Repr

/-- A cancelled pump may take further records before it finds its context done; it looks only when its hand
    is empty or it waits to send. A step that is not possible does nothing. Records are received once and ascending, as
    over the network; in process `Subscribe` sends those behind a gap again (`Subscribe.catchUpSends`), which is left out. -/
def pumpStep (c : Consumer) (k : Nat) (step : PumpStep) : Consumer :=
  match c.pumps[k]? with
  | none => c
  | some pump =>
    if pump.ended then c
    else
      match step, pump.hand with
      | .receive r, .empty =>
        if pump.next ≤ r.offset then
          c.setPump k { pump with next := r.offset + 1, hand := .received r, history := pump.history ++ [r] }
        else c
      | .note, .received r => (c.setPump k { pump with hand := .recorded r }).recordLatest pump.partition r.offset
      | .send, .recorded r =>
        if c.fanIn.length < fanInSize then
          { c.setPump k { pump with hand := .empty } with fanIn := c.fanIn ++ [⟨pump.partition, .ok r⟩] }
        else c
      | .forward e, .empty =>
        if c.fanIn.length < fanInSize then { c with fanIn := c.fanIn ++ [⟨pump.partition, .error e⟩] } else c
      | .exit, .empty => c.setPump k { pump with ended := true }
      | .exit, .recorded _ => if pump.cancelled then c.setPump k { pump with ended := true, hand := .empty } else c
      | _, _ => c

/-- "Committed is the next to read"; without a commit the fallback counts. -/
def startOffset (committed : Option Int) (fallback : Int) : Int := committed.getD fallback

def cancelPumpsLocked (c : Consumer) : Consumer :=
  { c.pumpCancel.entries.foldl (fun c e => c.cancel e.2) c with pumpCancel := ∅ }

/-- A partition of a join result, with its committed offset (none for `NoOffset`) and whether its
    subscription succeeds. -/
structure Assigned where
  partition : PartitionRef
  committed : Option Int
  ok : Bool
  deriving DecidableEq, Repr

def startAll (c : Consumer) (fromOffset : Int) : List Assigned → Consumer
  | [] => c
  | a :: rest =>
    match c.startPump a.partition (startOffset a.committed fromOffset) a.ok with
    | (true, c') => c'.startAll fromOffset rest
    | (false, c') => c'

def join (c : Consumer) (fromOffset : Int) (assignments : List Assigned) : Consumer :=
  if c.closed then c
  else startAll { c.cancelPumpsLocked with assignment := assignments.map Assigned.partition } fromOffset assignments

def belowSeekFloor (c : Consumer) (p : PartitionRef) (offset : Int) : Bool × Consumer :=
  match c.seekFloor.lookup p with
  | none => (false, c)
  | some floor => if offset < floor then (true, c) else (false, { c with seekFloor := c.seekFloor.erase p })

/-- Take what is first in the fan-in channel; a record of a revoked partition, or one from before a seek, is
    dropped. -/
def takeOne (c : Consumer) : Option (Except ProtocolError (Option PolledRecord) × Consumer) :=
  match c.fanIn with
  | [] => none
  | x :: rest =>
    let c := { c with fanIn := rest }
    match x.payload with
    | .error e => some (.error e, c)
    | .ok r =>
      if x.partition ∉ c.assignment then some (.ok none, c)
      else
        match c.belowSeekFloor x.partition r.offset with
        | (true, c) => some (.ok none, c)
        | (false, c) => some (.ok (some ⟨r, x.partition⟩), c)

def recordPolled (c : Consumer) (out : List PolledRecord) : Consumer :=
  { c with
    polledMax := out.foldl (fun m x =>
      match m.lookup x.partition with
      | some cur => if x.record.offset > cur then m.insert x.partition x.record.offset else m
      | none => m.insert x.partition x.record.offset) c.polledMax }

def runCommits (c : Consumer) : List (PartitionRef × Int) := c.latest.entries.map fun e => (e.1, e.2 + 1)

end Consumer

inductive Phase where
  | polling (out : List PolledRecord)
  | handling (batch : List PolledRecord)
  | committing (todo : List (PartitionRef × Int))
  | stopped
  deriving DecidableEq, Repr

structure Runner where
  consumer : Consumer
  phase : Phase
  handled : List PolledRecord

inductive RunAction where
  | join (fromOffset : Int) (assignments : List Consumer.Assigned)
  | pump (k : Nat) (step : Consumer.PumpStep)
  | take
  | polled
  | handle (ok : Bool)
  | commit (k : Nat) (ok : Bool)
  | stop

namespace Runner

def start (c : Consumer) : Runner := ⟨c, .polling [], []⟩

def step (maxBatch : Nat) (s : Runner) : RunAction → Runner
  | .join fromOffset assignments => { s with consumer := s.consumer.join fromOffset assignments }
  | .pump k step => { s with consumer := s.consumer.pumpStep k step }
  | .take =>
    match s.phase with
    | .polling out =>
      if maxBatch ≤ out.length then s
      else
        match s.consumer.takeOne with
        | none => s
        | some (.error _, c) => { s with consumer := c.recordPolled out, phase := .stopped }
        | some (.ok none, c) => { s with consumer := c }
        | some (.ok (some x), c) => { s with consumer := c, phase := .polling (out ++ [x]) }
    | _ => s
  | .polled =>
    match s.phase with
    | .polling out =>
      if out ≠ [] ∧ (maxBatch ≤ out.length ∨ s.consumer.fanIn = []) then
        { s with consumer := s.consumer.recordPolled out, phase := .handling out }
      else s
    | _ => s
  | .handle ok =>
    match s.phase with
    | .handling batch =>
      if ok then { s with phase := .committing s.consumer.runCommits, handled := s.handled ++ batch }
      else { s with phase := .stopped }
    | _ => s
  | .commit k ok =>
    match s.phase with
    | .committing [] => { s with phase := .polling [] }
    | .committing todo =>
      if k < todo.length then { s with phase := if ok then .committing (todo.eraseIdx k) else .stopped } else s
    | _ => s
  | .stop =>
    match s.phase with
    | .polling [] => { s with phase := .stopped }
    | _ => s

end Runner
end Holocron.Sdk
