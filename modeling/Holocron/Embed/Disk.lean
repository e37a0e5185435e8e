import Holocron.Broker.Hydrate
import Holocron.Storage.Sweep

/-! The disk broker as its process runs it (broker/embed/embed.go): broker, offset store and sweeper. -/

namespace Holocron.Embed
open Lib Storage Groups Broker

structure Disk where
  core : Broker FileStore
  offsets : TopicOffsetStore
  sweeper : Sweeper

inductive Op where
  | commit (now : Int64) (group topic : Bytes) (partition : Int32) (offset : Int)
  /-- `keys` are the keys of the group in the order the Go map gives them. -/
  | deleteGroup (now : Int64) (group : Bytes) (keys : List Bytes)
  | publish (c : Call)
  | tick (now : Int64) (orders : Orders)

namespace Disk

def start (segmentSize : Int) (registry : Topic.Registry) (dedupTTL : Int64) (dedupTopic offsetsTopic : Bytes)
    (sweeper : Sweeper) : Disk :=
  ⟨newDisk segmentSize registry dedupTTL dedupTopic, ⟨offsetsTopic, []⟩, sweeper⟩

def setStore (d : Disk) (s : FileStore) : Disk := { d with core := { d.core with store := s } }

def step (d : Disk) : Op → Disk
  | .commit now group topic partition offset =>
    let (_, offsets, s) := d.offsets.commit d.core.store now group topic partition offset
    { d.setStore s with offsets := offsets }
  | .deleteGroup now _ keys =>
    let (_, offsets, s) := d.offsets.deleteGroup d.core.store now keys
    { d.setStore s with offsets := offsets }
  | .publish c => { d with core := (d.core.call c).2 }
  | .tick now orders => d.setStore (d.sweeper.tick now orders d.core.store)

def restart (d : Disk) (fuel : Nat) : Option (Except StoreError Disk) :=
  (d.core.restart d.offsets.topic fuel).map fun res => res.map fun (offsets, core) =>
    { d with core := core, offsets := offsets }

end Disk
end Holocron.Embed
