import Mathlib.Data.List.Dedup
import Holocron.Groups.Assign
import Holocron.Groups.OffsetStore

/-! The coordinator of consumer groups (broker/internal/groups/manager.go). Clock readings and new member ids come with
    the call. -/

namespace Holocron.Groups
open Lib Topic

inductive Strategy where
  | range
  | roundRobin
  | sticky
  deriving DecidableEq, Repr

structure Member where
  id : Bytes
  lastHeartbeat : Int
  deriving DecidableEq, Repr

structure Group where
  topics : List Bytes
  members : List Member
  assignments : Assignments
  generation : Int32
  dirty : Bool
  watchers : List Nat

structure Manager where
  sessionTimeout : Int
  strategy : Strategy
  offsets : Entries
  groups : Bytes → Option Group
  woken : List Nat

structure Assignment where
  partition : PartitionRef
  committedOffset : Int
  deriving DecidableEq, Repr

structure JoinResult where
  memberID : Bytes
  generation : Int32
  assignments : List Assignment
  deriving DecidableEq, Repr

inductive GroupError where
  | noTopicsRequested
  | unknownMember
  | unknownGroup
  | topic (e : TopicError)
  deriving DecidableEq, Repr

def mergeTopics (a b : List Bytes) : List Bytes := sortStrings (a ++ b).dedup

namespace Group

def new : Group := ⟨[], [], .none, 0, false, []⟩

def memberIDs (g : Group) : List Bytes := g.members.map Member.id

def touch (g : Group) (memberID : Bytes) (now : Int) : Group :=
  { g with members := g.members.filter (fun m => decide (m.id ≠ memberID)) ++ [⟨memberID, now⟩] }

def remove (g : Group) (memberID : Bytes) : Group :=
  { g with
    members := g.members.filter fun m => decide (m.id ≠ memberID)
    assignments := Function.update g.assignments memberID [] }

end Group

namespace Manager

def new (strategy : Strategy) (sessionTimeout : Int) : Manager := ⟨sessionTimeout, strategy, [], fun _ => none, []⟩

def setGroup (m : Manager) (name : Bytes) (g : Group) : Manager := { m with groups := Function.update m.groups name (some g) }

def notifyWatchersLocked (m : Manager) (g : Group) : Manager × Group :=
  ({ m with woken := m.woken ++ g.watchers }, { g with watchers := [] })

def evictStaleLocked (m : Manager) (g : Group) (now : Int) : Nat × Manager × Group :=
  let stale (x : Member) : Bool := decide (x.lastHeartbeat < now - m.sessionTimeout)
  let evicted := (g.members.filter stale).map Member.id
  if evicted = [] then (0, m, g)
  else
    let g := { evicted.foldl Group.remove g with dirty := true }
    let (m, g) := m.notifyWatchersLocked g
    (evicted.length, m, g)

def assignments (m : Manager) (g : Group) (partitionsFor : PartitionsFor) : Except TopicError Assignments :=
  let memberIDs := sortStrings g.memberIDs
  match m.strategy with
  | .roundRobin => assignRoundRobin memberIDs g.topics partitionsFor
  | .sticky => assignSticky memberIDs g.topics partitionsFor g.assignments
  | .range => assign memberIDs g.topics partitionsFor

def rebalanceLocked (m : Manager) (g : Group) (partitionsFor : PartitionsFor) : Except TopicError (Manager × Group) :=
  match m.assignments g partitionsFor with
  | .error e => .error e
  | .ok assignments => .ok (m.notifyWatchersLocked
      { g with assignments := assignments, generation := g.generation + 1, dirty := false })

def lookup (m : Manager) (group : Bytes) (p : PartitionRef) : Int :=
  (List.lookup (joinKey group p.topic p.index) m.offsets).getD noOffset

def joinResult (m : Manager) (groupName memberID : Bytes) (g : Group) : JoinResult :=
  ⟨memberID, g.generation, (g.assignments memberID).map fun p => ⟨p, m.lookup groupName p⟩⟩

/-- Join reads the clock twice, for the member and for the evictions; `fresh` is the id made for a member without one. -/
def join (m : Manager) (partitionsFor : PartitionsFor) (groupName memberID fresh : Bytes) (topics : List Bytes)
    (now now' : Int) : Except GroupError JoinResult × Manager :=
  if topics = [] then (.error .noTopicsRequested, m)
  else
    let g := (m.groups groupName).getD .new
    let memberID := if memberID = [] then fresh else memberID
    let returning := decide (memberID ∈ g.memberIDs)
    let g := g.touch memberID now
    let merged := mergeTopics g.topics topics
    let topicsExpanded := decide (merged.length ≠ g.topics.length)
    let g := { g with topics := merged }
    let (evicted, m, g) := m.evictStaleLocked g now'
    if returning ∧ topicsExpanded = false ∧ evicted = 0 ∧ g.dirty = false then
      let m := m.setGroup groupName g
      (.ok (m.joinResult groupName memberID g), m)
    else
      match m.rebalanceLocked g partitionsFor with
      | .error e => (.error (.topic e), m.setGroup groupName g)
      | .ok (m, g) =>
        let m := m.setGroup groupName g
        (.ok (m.joinResult groupName memberID g), m)

def heartbeatLocked (m : Manager) (groupName memberID : Bytes) (generation : Int32) (now now' : Int) :
    Except GroupError Bool × Manager :=
  match m.groups groupName with
  | none => (.error .unknownMember, m)
  | some g =>
    if memberID ∉ g.memberIDs then (.error .unknownMember, m)
    else
      let (evicted, m, g) := m.evictStaleLocked (g.touch memberID now) now'
      let g := if 0 < evicted then { g with dirty := true } else g
      (.ok (decide (generation ≠ g.generation) || g.dirty), m.setGroup groupName g)

def heartbeatWait (m : Manager) (groupName memberID : Bytes) (generation : Int32) (now now' : Int) (maxWait : Int)
    (call : Nat) : Except GroupError Bool × Manager :=
  match m.heartbeatLocked groupName memberID generation now now' with
  | (.error e, m) => (.error e, m)
  | (.ok needed, m) =>
    if needed ∨ maxWait ≤ 0 then (.ok needed, m)
    else
      match m.groups groupName with
      | none => (.ok needed, m)
      | some g => (.ok needed, m.setGroup groupName { g with watchers := g.watchers ++ [call] })

def removeWatcher (m : Manager) (groupName : Bytes) (call : Nat) : Manager :=
  match m.groups groupName with
  | none => m
  | some g => m.setGroup groupName { g with watchers := g.watchers.erase call }

def leave (m : Manager) (groupName memberID : Bytes) : Manager :=
  match m.groups groupName with
  | none => m
  | some g =>
    if memberID ∉ g.memberIDs then m
    else
      let (m, g) := m.notifyWatchersLocked { g.remove memberID with dirty := true }
      if g.members = [] then { m with groups := Function.update m.groups groupName none } else m.setGroup groupName g

def offsetKeys (m : Manager) (scanned : Bytes → Bytes) (groupName : Bytes) : List Bytes :=
  (m.offsets.map Prod.fst).filter fun k => decide (groupOf scanned k = groupName)

def delete (m : Manager) (scanned : Bytes → Bytes) (groupName : Bytes) : Except GroupError Unit × Manager :=
  let keys := m.offsetKeys scanned groupName
  if (m.groups groupName).isNone ∧ keys = [] then (.error .unknownGroup, m)
  else (.ok (), { m with groups := Function.update m.groups groupName none, offsets := keys.foldl Entries.delete m.offsets })

def commit (m : Manager) (groupName topic : Bytes) (partition : Int32) (offset : Int) : Manager :=
  { m with offsets := m.offsets.set (joinKey groupName topic partition) offset }

end Manager
end Holocron.Groups
