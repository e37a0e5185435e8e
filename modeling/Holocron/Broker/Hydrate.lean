import Holocron.Groups.OffsetStore

/-! Restarting a disk broker (broker/embed/embed.go, embed/bootstrap.go): offsets and dedup table are rebuilt from
    internal topics; the registry is the same. -/

namespace Holocron
open Lib Storage Groups

def decodeDedupKey (b : Bytes) : Option (Bytes × PartitionRef) :=
  if b.length < 4 then none
  else
    let pidLen := ofBigEndian (b.take 4)
    let b := b.drop 4
    if b.length < pidLen + 4 then none
    else
      let producerID := b.take pidLen
      let b := b.drop pidLen
      let topicLen := ofBigEndian (b.take 4)
      let b := b.drop 4
      if b.length < topicLen + 4 then none
      else some (producerID, ⟨b.take topicLen, Int32.ofInt (toSigned 4 (ofBigEndian ((b.drop topicLen).take 4)))⟩)

def decodeDedupValue (b : Bytes) : Option ProducerCheckpoint :=
  if b.length ≠ 24 then none
  else some
    { lastSeq := UInt64.ofNat (ofBigEndian (b.take 8))
      lastOffset := toSigned 8 (ofBigEndian ((b.drop 8).take 8))
      lastSeen := Int64.ofInt (toSigned 8 (ofBigEndian ((b.drop 16).take 8))) }

abbrev Partitions := PartitionRef → PartitionState

def hydrateDedup (parts : Partitions) (producerID : Bytes) (p : PartitionRef) (cp : ProducerCheckpoint) : Partitions :=
  Function.update parts p { parts p with dedup := Function.update (parts p).dedup producerID (some cp) }

def hydrateRecord (parts : Partitions) (r : Record) : Partitions :=
  match decodeDedupKey (Slice.bytes r.key), decodeDedupValue (Slice.bytes r.value) with
  | some (producerID, p), some cp => hydrateDedup parts producerID p cp
  | _, _ => parts

namespace Broker

def hydrateDedupFromTopic {σ : Type} [Store σ] (fuel : Nat) (b : Broker σ) : Option (Except StoreError (Broker σ)) :=
  (replay hydrateRecord ⟨b.dedupTopic, 0⟩ fuel 0 b.store b.partitions).map fun (res, s) =>
    res.map fun parts => { b with store := s, partitions := parts }

def newDisk (segmentSize : Int) (registry : Topic.Registry) (dedupTTL : Int64) (dedupTopic : Bytes) : Broker FileStore :=
  ⟨FileStore.new segmentSize fun _ => [], registry, dedupTTL, dedupTopic, fun _ => .empty⟩

def reopened (b : Broker FileStore) : Broker FileStore :=
  { b with store := FileStore.new b.store.segmentSize b.store.close, partitions := fun _ => .empty }

def restart (offsetsTopic : Bytes) (fuel : Nat) (b : Broker FileStore) :
    Option (Except StoreError (TopicOffsetStore × Broker FileStore)) :=
  match TopicOffsetStore.openStore offsetsTopic fuel b.reopened.store with
  | none => none
  | some (.error e, _) => some (.error e)
  | some (.ok offsets, s) =>
    (hydrateDedupFromTopic fuel { b.reopened with store := s }).map fun res => res.map fun core => (offsets, core)

end Broker
end Holocron
