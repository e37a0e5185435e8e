import Mathlib.Logic.Function.Basic
import Holocron.Lib.Run
import Holocron.Proto.Record

/-! Rebuilding a map from a topic within one deadline: `replay` in streams/changelog.go and connect/offsets.go. -/

namespace Holocron.Sdk
open Lib

inductive PollError where
  | deadlineExceeded
  | other
  deriving DecidableEq, Repr

abbrev Polled := Except PollError (List Record)

structure Feed where
  attached : Bool
  polls : List Polled

inductive ReplayError where
  | attach
  | poll
  | decode (key : Bytes)
  deriving DecidableEq, Repr

variable {ω : Type}

def replayRecord (decode : Bytes → Option ω) (entries : Bytes → Option ω) (r : Record) :
    Except ReplayError (Bytes → Option ω) :=
  match r.value with
  | none => .ok (Function.update entries (Slice.bytes r.key) none)
  | some v =>
    match decode v with
    | none => .error (.decode (Slice.bytes r.key))
    | some x => .ok (Function.update entries (Slice.bytes r.key) (some x))

def drain (decode : Bytes → Option ω) : List Polled → (Bytes → Option ω) → Option (Except ReplayError (Bytes → Option ω))
  | [], _ => none
  | .error .deadlineExceeded :: _, entries => some (.ok entries)
  | .error .other :: _, _ => some (.error .poll)
  | .ok records :: rest, entries =>
    if records = [] then some (.ok entries)
    else
      match runAll (replayRecord decode) entries records with
      | .error e => some (.error e)
      | .ok entries => drain decode rest entries

def replay (decode : Bytes → Option ω) (feed : Feed) : Option (Except ReplayError (Bytes → Option ω)) :=
  if feed.attached then drain decode feed.polls fun _ => none else some (.error .attach)

end Holocron.Sdk
