import Holocron.Sdk.Partitioner

/-! holocronctl topic copy (topic_copy.go): the loop of copyPartition, and runTopicCopy over all partitions. What Poll
    and SendBatch answer is given; an error ends the copy. -/

namespace Holocron.Cli
open Lib Sdk

structure Round where
  polled : Option (List Record)
  sent : Bool

/-- What was read so far, in the order Poll returned it, and what that appended to each partition of the destination. -/
structure Copied where
  read : List Record
  dest : Int32 → List Record

def toSend (r : Record) : Record := ⟨0, 0, r.key, r.value, r.headers⟩

/-- SendBatch: the whole batch goes where its first record is routed. -/
def sendBatch (n : Int32) (prod : DefaultPartitioner) (r : Record) (rs : List Record) (c : Copied) :
    DefaultPartitioner × Copied :=
  let (idx, prod) := prod.partition (toSend r) n
  (prod, ⟨c.read ++ r :: rs, Function.update c.dest idx (c.dest idx ++ (r :: rs).map toSend)⟩)

def copyLoop (n : Int32) (hw : Nat) : List Round → Nat → DefaultPartitioner → Copied → Option Copied
  | [], copied, _, c => if hw ≤ copied then some c else none
  | round :: rounds, copied, prod, c =>
    if hw ≤ copied then some c
    else
      match round.polled with
      | none => none
      | some [] => some c
      | some (r :: rs) =>
        if round.sent then
          let (prod, c) := sendBatch n prod r rs c
          copyLoop n hw rounds (copied + (rs.length + 1)) prod c
        else none

def copyPartition (n : Int32) (c : Copied) (source : Nat × List Round) : Option Copied :=
  if source.1 = 0 then some c else copyLoop n source.1 source.2 0 ⟨0⟩ c

/-- The partitions of the source in turn, each with its high water and its rounds. -/
def runTopicCopy (n : Int32) (sources : List (Nat × List Round)) : Option Copied :=
  sources.foldlM (copyPartition n) ⟨[], fun _ => []⟩

end Holocron.Cli
