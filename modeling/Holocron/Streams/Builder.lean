import Holocron.Groups.OffsetStore

/-! How a topology is put together (streams/topology.go, join.go, ktable.go), with the consumer group of each loop. -/

namespace Holocron.Streams.Builder
open Lib Groups

structure Pipeline where
  source : Bytes
  sink : Bytes
  group : Bytes
  deriving DecidableEq, Repr

structure JoinPipeline where
  leftSource : Bytes
  rightSource : Bytes
  sink : Bytes
  group : Bytes
  deriving DecidableEq, Repr

structure KTable where
  source : Bytes
  store : Bytes
  group : Bytes
  deriving DecidableEq, Repr

structure Topology where
  maxTasks : Int
  pipes : List Pipeline
  joins : List JoinPipeline
  tables : List KTable
  foreachSeq : Nat
  deriving DecidableEq, Repr

inductive JoinKind where
  | inner
  | outer
  | left
  deriving DecidableEq, Repr

def JoinKind.word : JoinKind → Bytes
  | .inner => utf8 "join"
  | .outer => utf8 "outerjoin"
  | .left => utf8 "leftjoin"

namespace Topology

def new (maxTasks : Int) : Topology := ⟨maxTasks, [], [], [], 0⟩

def streamTo (t : Topology) (source topic : Bytes) : Topology :=
  { t with pipes := t.pipes ++ [⟨source, topic, utf8 "holocron-streams-" ++ source ++ utf8 "-" ++ topic⟩] }

def forEach (t : Topology) (source : Bytes) : Topology :=
  let seq := t.foreachSeq + 1
  { t with
    foreachSeq := seq
    pipes := t.pipes ++ [⟨source, [], utf8 "holocron-streams-" ++ source ++ utf8 "-foreach-" ++ decimal seq⟩] }

def joinTo (t : Topology) (kind : JoinKind) (left right topic : Bytes) : Topology :=
  { t with
    joins := t.joins ++
      [⟨left, right, topic, utf8 "holocron-streams-" ++ kind.word ++ utf8 "-" ++ left ++ utf8 "-" ++ right ++
        utf8 "-" ++ topic⟩] }

/-- `Topology.Table`: the source and the store that a table has already are not registered again. -/
def table (t : Topology) (source storeName : Bytes) : Topology :=
  if ∃ kt ∈ t.tables, kt.source = source ∧ kt.store = storeName then t
  else { t with tables := t.tables ++
    [⟨source, storeName, utf8 "holocron-streams-ktable-" ++ source ++ utf8 "-" ++ storeName⟩] }

end Topology

inductive Registration where
  | streamTo (source topic : Bytes)
  | forEach (source : Bytes)
  | join (kind : JoinKind) (left right topic : Bytes)
  | table (source storeName : Bytes)
  deriving DecidableEq, Repr

def Topology.register (t : Topology) : Registration → Topology
  | .streamTo source topic => t.streamTo source topic
  | .forEach source => t.forEach source
  | .join kind left right topic => t.joinTo kind left right topic
  | .table source storeName => t.table source storeName

def build (maxTasks : Int) (rs : List Registration) : Topology := rs.foldl Topology.register (.new maxTasks)

structure ConsumerLoop where
  source : Bytes
  group : Bytes
  deriving DecidableEq, Repr

def JoinPipeline.sides (jp : JoinPipeline) : List ConsumerLoop :=
  [⟨jp.leftSource, jp.group ++ utf8 "-" ++ jp.leftSource⟩, ⟨jp.rightSource, jp.group ++ utf8 "-" ++ jp.rightSource⟩]

/-- The loops that `Start` starts. The tasks of one pipeline share its group and its partitions and are one entry. -/
def Topology.loops (t : Topology) : List ConsumerLoop :=
  (if 0 < t.maxTasks then t.pipes.map fun p => ⟨p.source, p.group⟩ else []) ++ t.joins.flatMap JoinPipeline.sides ++
    t.tables.map fun kt => ⟨kt.source, kt.group⟩

end Holocron.Streams.Builder
