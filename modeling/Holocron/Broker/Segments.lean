import Holocron.Broker.Topics

/-! The files of a partition's segments, listed and read in chunks (broker/internal/log/partition.go, storage/file.go,
    broker/broker.go). -/

namespace Holocron
open Lib Storage Log

inductive ChunkError where
  | unknownBase (base : Int)
  | notExist
  | invalidSeek
  deriving DecidableEq, Repr

inductive SegmentsError where
  | broker (e : BrokerError)
  | snapshotsUnsupported
  | chunk (e : ChunkError)
  deriving DecidableEq, Repr

def Log.Segment.fileOf (s : Segment) : SegmentKind → Option Bytes
  | .log => some s.logFile.data
  | .idx => s.idxFile

def Log.PartitionLog.readSegmentBytes (p : PartitionLog) (base : Int) (kind : SegmentKind) (offset maxBytes : Int) :
    Except ChunkError Bytes :=
  if maxBytes ≤ 0 then .ok []
  else
    match p.segments.find? fun s => decide (s.baseOffset = base) with
    | none => .error (.unknownBase base)
    | some s =>
      match s.fileOf kind with
      | none => .error .notExist
      | some data => if offset < 0 then .error .invalidSeek else .ok ((data.drop offset.toNat).take maxBytes.toNat)

namespace Storage

/-- What a store with files can do besides (`segmentSnapshotter`). -/
structure SegmentSnapshotter (σ : Type) where
  listSegments : σ → Ctx → PartitionRef → Except SegmentsError (List PartitionLog.SegmentSnapshot) × σ
  fetchSegmentChunk : σ → Ctx → PartitionRef → Int → SegmentKind → Int → Int → Except SegmentsError Bytes × σ

class Snapshots (σ : Type) where
  snapper : Option (SegmentSnapshotter σ)

instance : Snapshots MemoryStore := ⟨none⟩

namespace FileStore

def listSegments (s : FileStore) (ctx : Ctx) (p : PartitionRef) :
    Except SegmentsError (List PartitionLog.SegmentSnapshot) × FileStore :=
  match ctx.err with
  | some e => (.error (.broker (.store (.ctx e))), s)
  | none =>
    match s.openLog p with
    | (.error e, s') => (.error (.broker (.store e)), s')
    | (.ok l, s') => (.ok l.snapshot.1, s'.setLog p l.snapshot.2)

def fetchSegmentChunk (s : FileStore) (ctx : Ctx) (p : PartitionRef) (base : Int) (kind : SegmentKind)
    (offset maxBytes : Int) : Except SegmentsError Bytes × FileStore :=
  match ctx.err with
  | some e => (.error (.broker (.store (.ctx e))), s)
  | none =>
    match s.openLog p with
    | (.error e, s') => (.error (.broker (.store e)), s')
    | (.ok l, s') => ((l.readSegmentBytes base kind offset maxBytes).mapError .chunk, s')

instance : Snapshots FileStore := ⟨some ⟨listSegments, fetchSegmentChunk⟩⟩

end FileStore
end Storage

namespace Broker

variable {σ : Type} [Snapshots σ]

def listSegments (b : Broker σ) (ctx : Ctx) (p : PartitionRef) :
    Except SegmentsError (List PartitionLog.SegmentSnapshot) × Broker σ :=
  match b.validate p with
  | .error e => (.error (.broker e), b)
  | .ok () =>
    match (Snapshots.snapper : Option (SegmentSnapshotter σ)) with
    | none => (.error .snapshotsUnsupported, b)
    | some snapper => ((snapper.listSegments b.store ctx p).1, { b with store := (snapper.listSegments b.store ctx p).2 })

def fetchSegmentChunk (b : Broker σ) (ctx : Ctx) (p : PartitionRef) (base : Int) (kind : SegmentKind)
    (offset maxBytes : Int) : Except SegmentsError Bytes × Broker σ :=
  match b.validate p with
  | .error e => (.error (.broker e), b)
  | .ok () =>
    match (Snapshots.snapper : Option (SegmentSnapshotter σ)) with
    | none => (.error .snapshotsUnsupported, b)
    | some snapper =>
      ((snapper.fetchSegmentChunk b.store ctx p base kind offset maxBytes).1,
        { b with store := (snapper.fetchSegmentChunk b.store ctx p base kind offset maxBytes).2 })

end Broker
end Holocron
