import Holocron.Proto.Record

/-! The producer's choice of a partition (sdk/partitioner.go). -/

namespace Holocron.Sdk
open Lib

def sum32a (b : Bytes) : UInt32 := b.foldl (fun h x => (h ^^^ x.toUInt32) * 16777619) 2166136261

structure DefaultPartitioner where
  counter : UInt32

def DefaultPartitioner.partition (p : DefaultPartitioner) (r : Record) (numPartitions : Int32) : Int32 × DefaultPartitioner :=
  if numPartitions ≤ 0 then (0, p)
  else if 0 < r.key.bytes.length then ((sum32a r.key.bytes % numPartitions.toUInt32).toInt32, p)
  else ((p.counter % numPartitions.toUInt32).toInt32, ⟨p.counter + 1⟩)

end Holocron.Sdk
