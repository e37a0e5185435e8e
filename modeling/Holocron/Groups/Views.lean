import Holocron.Groups.Manager

/-! What operators see of the groups: List, Describe and ListOffsets (broker/internal/groups/manager.go, offsets.go). -/

namespace Holocron.Groups
open Lib

structure GroupSummary where
  generation : Int32
  memberCount : Int32
  topics : List Bytes
  deriving DecidableEq, Repr

structure MemberAssignment where
  memberID : Bytes
  partitions : List PartitionRef
  deriving DecidableEq, Repr

structure GroupDetails where
  generation : Int32
  topics : List Bytes
  members : List MemberAssignment
  deriving DecidableEq, Repr

structure OffsetEntry where
  topic : Bytes
  partition : Int32
  offset : Int
  deriving DecidableEq, Repr

/-- What `Sscanf` makes of a key that has not three parts, and of the third part of one that has. -/
structure Scan where
  key : Bytes → Bytes × Bytes × Int32
  number : Bytes → Int32

def splitKey (scan : Scan) (k : Bytes) : Bytes × Bytes × Int32 :=
  match splitNUL k with
  | [group, topic, partition] => (group, topic, scan.number partition)
  | _ => scan.key k

def listEntries (scan : Scan) (entries : Entries) (group : Bytes) : List OffsetEntry :=
  entries.filterMap fun e =>
    let (g, topic, partition) := splitKey scan e.1
    if g ≠ group then none else some ⟨topic, partition, e.2⟩

def OffsetEntry.before (a b : OffsetEntry) : Prop := if a.topic ≠ b.topic then a.topic < b.topic else a.partition ≤ b.partition

instance : DecidableRel OffsetEntry.before := fun _ _ => inferInstanceAs (Decidable (ite _ _ _))

namespace Manager

def list (m : Manager) (name : Bytes) : Option GroupSummary :=
  (m.groups name).map fun g => ⟨g.generation, len32 g.members, g.topics⟩

def describe (m : Manager) (name : Bytes) : Except GroupError GroupDetails :=
  match m.groups name with
  | none => .error .unknownGroup
  | some g => .ok ⟨g.generation, g.topics, (sortStrings g.memberIDs).map fun id => ⟨id, g.assignments id⟩⟩

def listOffsets (m : Manager) (scan : Scan) (name : Bytes) : List OffsetEntry :=
  (listEntries scan m.offsets name).insertionSort OffsetEntry.before

end Manager
end Holocron.Groups
