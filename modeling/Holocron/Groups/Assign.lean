import Mathlib.Data.List.Sort
import Holocron.Topic.Registry

/-! Assigning partitions to the members of a group (broker/internal/groups/assign.go). A member that is not in the map
    has none. -/

namespace Holocron.Groups
open Lib Topic

def sortStrings (l : List Bytes) : List Bytes := l.insertionSort (· ≤ ·)

def len32 {α : Type} (l : List α) : Int32 := Int32.ofNat l.length

abbrev Assignments := Bytes → List PartitionRef

def Assignments.none : Assignments := fun _ => []

abbrev PartitionsFor := Bytes → Except TopicError Int32

def rangeLoop (topic : Bytes) (base extra : Int32) : List Bytes → Int32 → Int32 → Assignments → Assignments
  | [], _, _, out => out
  | id :: rest, i, cursor, out =>
    let count := if i < extra then base + 1 else base
    let parts := (List.range count.toInt.toNat).map fun j => (⟨topic, cursor + Int32.ofNat j⟩ : PartitionRef)
    rangeLoop topic base extra rest (i + 1) (cursor + count) (Function.update out id parts)

def rangeAssign (memberIDs : List Bytes) (topic : Bytes) (partitionCount : Int32) : Assignments :=
  if partitionCount ≤ 0 ∨ memberIDs = [] then .none
  else
    let sorted := sortStrings memberIDs
    let n := len32 sorted
    rangeLoop topic (partitionCount / n) (partitionCount % n) sorted 0 0 .none

def assignEach (perTopic : Bytes → Int32 → Assignments) (partitionsFor : PartitionsFor) :
    List Bytes → Assignments → Except TopicError Assignments
  | [], out => .ok out
  | topic :: rest, out =>
    match partitionsFor topic with
    | .error e => .error e
    | .ok n => assignEach perTopic partitionsFor rest fun id => out id ++ perTopic topic n id

def assign (memberIDs topics : List Bytes) (partitionsFor : PartitionsFor) : Except TopicError Assignments :=
  assignEach (rangeAssign memberIDs) partitionsFor topics .none

def roundRobinLoop (topic : Bytes) (sorted : List Bytes) (n : Int32) : List Nat → Assignments → Assignments
  | [], out => out
  | j :: rest, out =>
    let owner := sorted.getD (Int32.ofNat j % n).toInt.toNat []
    roundRobinLoop topic sorted n rest (Function.update out owner (out owner ++ [⟨topic, Int32.ofNat j⟩]))

def roundRobinAssign (memberIDs : List Bytes) (topic : Bytes) (partitionCount : Int32) : Assignments :=
  if partitionCount ≤ 0 ∨ memberIDs = [] then .none
  else
    let sorted := sortStrings memberIDs
    roundRobinLoop topic sorted (len32 sorted) (List.range partitionCount.toInt.toNat) .none

def assignRoundRobin (memberIDs topics : List Bytes) (partitionsFor : PartitionsFor) : Except TopicError Assignments :=
  assignEach (roundRobinAssign memberIDs) partitionsFor topics .none

def allPartitions (partitionsFor : PartitionsFor) : List Bytes → Except TopicError (List PartitionRef)
  | [] => .ok []
  | topic :: rest =>
    match partitionsFor topic with
    | .error e => .error e
    | .ok n =>
      match allPartitions partitionsFor rest with
      | .error e => .error e
      | .ok ps => .ok ((List.range n.toInt.toNat).map (fun i => (⟨topic, Int32.ofNat i⟩ : PartitionRef)) ++ ps)

def targetLoop (base extras : Int32) : List Bytes → Int32 → (Bytes → Int32) → Bytes → Int32
  | [], _, target => target
  | id :: rest, i, target => targetLoop base extras rest (i + 1)
      (Function.update target id (if i < extras then base + 1 else base))

def retain (valid : List PartitionRef) (target : Int32) : List PartitionRef → List PartitionRef → List PartitionRef →
    List PartitionRef × List PartitionRef
  | [], own, taken => (own, taken)
  | p :: prior, own, taken =>
    if target ≤ len32 own then (own, taken)
    else if p ∉ valid ∨ p ∈ taken then retain valid target prior own taken
    else retain valid target prior (own ++ [p]) (taken ++ [p])

def retainAll (valid : List PartitionRef) (target : Bytes → Int32) (prior : Assignments) :
    List Bytes → Assignments → List PartitionRef → Assignments × List PartitionRef
  | [], out, taken => (out, taken)
  | id :: rest, out, taken =>
    let (own, taken) := retain valid (target id) (prior id) (out id) taken
    retainAll valid target prior rest (Function.update out id own) taken

def place (target : Bytes → Int32) (sorted : List Bytes) (out : Assignments) (p : PartitionRef) : Assignments :=
  match sorted.find? fun id => decide (len32 (out id) < target id) with
  | some id => Function.update out id (out id ++ [p])
  | none => out

def assignSticky (memberIDs topics : List Bytes) (partitionsFor : PartitionsFor) (prior : Assignments) :
    Except TopicError Assignments :=
  match allPartitions partitionsFor topics with
  | .error e => .error e
  | .ok all =>
    if memberIDs = [] ∨ all = [] then .ok .none
    else
      let sorted := sortStrings memberIDs
      let total := len32 all
      let n := len32 sorted
      let target := targetLoop (total / n) (total % n) sorted 0 fun _ => 0
      let (out, taken) := retainAll all target prior sorted .none []
      .ok ((all.filter fun p => decide (p ∉ taken)).foldl (place target sorted) out)

end Holocron.Groups
