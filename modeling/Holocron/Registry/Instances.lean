import Holocron.Registry.Service

/-! Several Services on one topic. Each fills its tables when it starts and from its own calls afterwards. -/

namespace Holocron.Schemas.Instances
open Lib

inductive Stage where
  | start
  | numbered (nextVersion : Int)
  | checked (nextVersion : Int)
  | produced (nextVersion id : Int)
  | done (answer : Option Int)
  deriving DecidableEq, Repr

structure Call where
  service : Nat
  subject : Bytes
  text : Bytes
  stage : Stage
  deriving DecidableEq, Repr

structure State where
  services : List Service
  topic : List Record
  calls : List Call

inductive Action where
  | start (n : Nat)
  | register (service : Nat) (subject text : Bytes)
  | setCompatibility (service : Nat) (subject : Bytes) (mode : Compatibility) (sent : Sent)
  | run (i : Nat) (sent : Sent)
  deriving DecidableEq, Repr

namespace State

def new : State := ⟨[], [], []⟩

def setStage (s : State) (i : Nat) (c : Call) (stage : Stage) : State :=
  { s with calls := s.calls.set i { c with stage := stage } }

def start (J : Json) (s : State) (n : Nat) : State :=
  match Service.new.replay J (s.topic.take n) with
  | .error _ => s
  | .ok service => { s with services := s.services ++ [service] }

def setCompatibility (J : Json) (s : State) (i : Nat) (subject : Bytes) (mode : Compatibility) (sent : Sent) : State :=
  match s.services[i]? with
  | none => s
  | some service =>
    let w := (World.setCompatibility J ⟨service, s.topic⟩ subject mode sent).2
    { s with services := s.services.set i w.service, topic := w.topic }

def read (s : State) (i : Nat) (c : Call) (service : Service) : State :=
  let versions := service.versions c.subject
  match versions.getLast? with
  | some latest =>
    if latest.schema = c.text then s.setStage i c (.done (some latest.id)) else s.setStage i c (.numbered (versions.length + 1))
  | none => s.setStage i c (.numbered (versions.length + 1))

def produce (J : Json) (s : State) (i : Nat) (c : Call) (nextVersion : Int) (sent : Sent) : State :=
  let written := { s with topic := append s.topic (registration J c.subject c.text nextVersion) }
  match sent with
  | .ok => written.setStage i c (.produced nextVersion s.topic.length)
  | .failed true => written.setStage i c (.done none)
  | .failed false => s.setStage i c (.done none)

def advance (J : Json) (s : State) (i : Nat) (c : Call) (service : Service) (sent : Sent) : State :=
  match c.stage with
  | .start => s.read i c service
  | .numbered nextVersion =>
    match service.enforce J c.subject c.text with
    | .error _ => s.setStage i c (.done none)
    | .ok () => s.setStage i c (.checked nextVersion)
  | .checked nextVersion => s.produce J i c nextVersion sent
  | .produced nextVersion id =>
    State.setStage { s with services := s.services.set c.service (service.applyLocked ⟨id, c.subject, nextVersion,
      c.text⟩) } i c (.done (some id))
  | .done _ => s

def run (J : Json) (s : State) (i : Nat) (sent : Sent) : State :=
  match s.calls[i]? with
  | none => s
  | some c =>
    match s.services[c.service]? with
    | none => s
    | some service => s.advance J i c service sent

def step (J : Json) (s : State) : Action → State
  | .start n => s.start J n
  | .register service subject text => { s with calls := s.calls ++ [⟨service, subject, text, .start⟩] }
  | .setCompatibility i subject mode sent => s.setCompatibility J i subject mode sent
  | .run i sent => s.run J i sent

end State
end Holocron.Schemas.Instances
