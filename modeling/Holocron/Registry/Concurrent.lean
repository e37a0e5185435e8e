import Holocron.Registry.Service

/-! Concurrent calls of Register on one Service: read the latest version, check the mode, write, apply, without a lock
    in between. -/

namespace Holocron.Schemas.Concurrent
open Lib

inductive Stage where
  | start
  | numbered (nextVersion : Int)
  | checked (nextVersion : Int)
  | produced (nextVersion id : Int)
  | done
  deriving DecidableEq, Repr

structure Call where
  subject : Bytes
  text : Bytes
  stage : Stage
  deriving DecidableEq, Repr

structure State where
  service : Service
  topic : List Record
  calls : List Call

inductive Action where
  | register (subject text : Bytes)
  | run (i : Nat) (sent : Sent)
  deriving DecidableEq, Repr

namespace State

def setStage (s : State) (i : Nat) (c : Call) (stage : Stage) : State :=
  { s with calls := s.calls.set i { c with stage := stage } }

def read (s : State) (i : Nat) (c : Call) : State :=
  let versions := s.service.versions c.subject
  match versions.getLast? with
  | some latest => if latest.schema = c.text then s.setStage i c .done else s.setStage i c (.numbered (versions.length + 1))
  | none => s.setStage i c (.numbered (versions.length + 1))

def produce (J : Json) (s : State) (i : Nat) (c : Call) (nextVersion : Int) (sent : Sent) : State :=
  let written := { s with topic := append s.topic (registration J c.subject c.text nextVersion) }
  match sent with
  | .ok => written.setStage i c (.produced nextVersion s.topic.length)
  | .failed true => written.setStage i c .done
  | .failed false => s.setStage i c .done

def run (J : Json) (s : State) (i : Nat) (sent : Sent) : State :=
  match s.calls[i]? with
  | none => s
  | some c =>
    match c.stage with
    | .start => s.read i c
    | .numbered nextVersion =>
      match s.service.enforce J c.subject c.text with
      | .error _ => s.setStage i c .done
      | .ok () => s.setStage i c (.checked nextVersion)
    | .checked nextVersion => s.produce J i c nextVersion sent
    | .produced nextVersion id =>
      State.setStage { s with service := s.service.applyLocked ⟨id, c.subject, nextVersion, c.text⟩ } i c .done
    | .done => s

def step (J : Json) (s : State) : Action → State
  | .register subject text => { s with calls := s.calls ++ [⟨subject, text, .start⟩] }
  | .run i sent => s.run J i sent

end State
end Holocron.Schemas.Concurrent
