import Mathlib.Data.List.Sort
import Holocron.Log.Segment

/-! The log of one partition (broker/internal/log/partition.go): sealed segments in offset order and the active one. A
    directory is a list of named files. -/

namespace Holocron.Log
open Lib

inductive SegmentKind where
  | log
  | idx
  deriving DecidableEq, Repr

/-- A segment file's name: the zero-padded base offset, `.log` or `.idx`, and perhaps `.compacting`. -/
structure FileName where
  base : Int
  kind : SegmentKind
  compacting : Bool
  deriving DecidableEq, Repr

abbrev Dir := List (FileName × Bytes)

namespace Dir

def get? (d : Dir) (n : FileName) : Option Bytes := List.lookup n d

def remove (d : Dir) (n : FileName) : Dir := d.filter fun e => e.1 ≠ n

def write (d : Dir) (n : FileName) (b : Bytes) : Dir := d.remove n ++ [(n, b)]

def rename (d : Dir) (a b : FileName) : Option Dir :=
  (d.get? a).map fun data => (d.remove a).write b data

end Dir

def segmentLogName (base : Int) (compacting : Bool) : FileName := ⟨base, .log, compacting⟩
def segmentIndexName (base : Int) (compacting : Bool) : FileName := ⟨base, .idx, compacting⟩

def Segment.logPath (s : Segment) : FileName := segmentLogName s.baseOffset s.compacting
def Segment.idxPath (s : Segment) : FileName := segmentIndexName s.baseOffset s.compacting

def Segment.files (s : Segment) : Dir :=
  (s.logPath, s.logFile.data) :: (s.idxFile.map fun b => (s.idxPath, b)).toList

def discoverSegments (d : Dir) : List Int :=
  (d.filterMap fun e => if e.1.kind = .log ∧ e.1.compacting = false then some e.1.base else none).insertionSort (· ≤ ·)

def recoverFile (d : Dir) (n : FileName) : Dir :=
  if n.compacting then
    let final := { n with compacting := false }
    match d.get? final with
    | some _ => d.remove n
    | none => (d.rename n final).getD d
  else d

def recoverCompactingSegments (d : Dir) : Dir := (d.map (·.1)).foldl recoverFile d

def defaultSegmentBytes : Int := 2 ^ 30

def segmentBytes (maxBytes : Int) : Int := if maxBytes ≤ 0 then defaultSegmentBytes else maxBytes

structure PartitionLog where
  maxBytes : Int
  sealed : List Segment
  active : Segment
  deriving DecidableEq, Repr

namespace PartitionLog

def segments (p : PartitionLog) : List Segment := p.sealed ++ [p.active]

def highWater (p : PartitionLog) : Int := p.active.highWater

def dir (p : PartitionLog) : Dir := p.segments.flatMap Segment.files

def openSegments (d : Dir) (maxBytes : Int) : List Int → Except LogError (List Segment)
  | [] => .ok []
  | base :: bases => do
    let data := (d.get? (segmentLogName base false)).getD []
    let s ← Segment.openSegment base maxBytes data (d.get? (segmentIndexName base false)) bases.isEmpty
    let rest ← openSegments d maxBytes bases
    .ok (s :: rest)

def openPartition (d : Dir) (maxBytes : Int) : Except LogError PartitionLog := do
  let maxBytes := segmentBytes maxBytes
  let d := recoverCompactingSegments d
  let segments ← openSegments d maxBytes (discoverSegments d)
  match segments.getLast? with
  | none => .ok ⟨maxBytes, [], createSegment 0 maxBytes⟩
  | some active => .ok ⟨maxBytes, segments.dropLast, active⟩

def rollLocked (p : PartitionLog) : PartitionLog :=
  { p with
    sealed := p.sealed ++ [p.active.sealSegment]
    active := createSegment p.active.highWater p.maxBytes }

def append (p : PartitionLog) (r : Record) : Except LogError (Int × PartitionLog) := do
  let (off, active) ← p.active.append r
  let p := { p with active := active }
  .ok (off, if active.shouldRoll then p.rollLocked else p)

def readLoop : List Segment → Int → Nat → Except LogError (List Record) × List Segment
  | [], _, _ => (.ok [], [])
  | s :: rest, fromOffset, max =>
    if max = 0 then (.ok [], s :: rest)
    else
      match s.readFrom fromOffset max with
      | (.error e, s') => (.error e, s' :: rest)
      | (.ok records, s') =>
        let next := (records.getLast?.map fun r => r.offset + 1).getD fromOffset
        let (res, rest') := readLoop rest next (max - records.length)
        (res.map (records ++ ·), s' :: rest')

def setSegments (p : PartitionLog) (segments : List Segment) : PartitionLog :=
  { p with sealed := segments.dropLast, active := segments.getLast?.getD p.active }

def firstSegment (p : PartitionLog) (fromOffset : Int) : Nat :=
  search p.segments.length (fun i => (p.segments[i]?).any fun s => decide (fromOffset < s.baseOffset)) - 1

/-- What a read returns where it does not panic; `readPanics` says where it does. -/
def read (p : PartitionLog) (fromOffset maxRecords : Int) : Except LogError (List Record) × PartitionLog :=
  if maxRecords ≤ 0 then (.ok [], p)
  else
    let idx := p.firstSegment fromOffset
    let (res, segments) := readLoop (p.segments.drop idx) fromOffset maxRecords.toNat
    (res, p.setSegments (p.segments.take idx ++ segments))

/-- Whether a read gets to a `make` that panics: each segment with something to read makes a slice for all
    that is still wanted. -/
def readLoopPanics : List Segment → Int → Nat → Bool
  | [], _, _ => false
  | s :: rest, fromOffset, max =>
    if max = 0 then false
    else if fromOffset < s.highWater ∧ maxSlice < max then true
    else
      match s.readFrom fromOffset max with
      | (.error _, _) => false
      | (.ok records, _) =>
        readLoopPanics rest ((records.getLast?.map fun r => r.offset + 1).getD fromOffset) (max - records.length)

def readPanics (p : PartitionLog) (fromOffset maxRecords : Int) : Bool :=
  if maxRecords ≤ 0 then false
  else readLoopPanics (p.segments.drop (p.firstSegment fromOffset)) fromOffset maxRecords.toNat

def sync (p : PartitionLog) : PartitionLog := { p with active := p.active.flushIfActive }

structure SegmentSnapshot where
  base : Int
  logSize : Nat
  idxSize : Nat
  deriving DecidableEq, Repr

def snapshot (p : PartitionLog) : List SegmentSnapshot × PartitionLog :=
  let p := { p with sealed := p.sealed.map Segment.snapshotSync, active := p.active.snapshotSync }
  (p.segments.map fun s => ⟨s.baseOffset, s.size, s.idx.sizeBytes⟩, p)

/-- The loop of `EnforceTimeRetention` over the sealed segments: how many are removed, the error it stops with, and
    the segments left. The newest record of a segment is the one below its high water. -/
def timeLoop (cutoffNanos : Int64) : List Segment → Nat × Option LogError × List Segment
  | [] => (0, none, [])
  | oldest :: rest =>
    match oldest.readFrom (oldest.highWater - 1) 1 with
    | (.error e, oldest') => (0, some e, oldest' :: rest)
    | (.ok recs, oldest') =>
      match recs.head? with
      | none => (0, none, oldest' :: rest)
      | some r =>
        if cutoffNanos ≤ r.timestamp then (0, none, oldest' :: rest)
        else
          let (deleted, err, kept) := timeLoop cutoffNanos rest
          (deleted + 1, err, kept)

def enforceTimeRetention (p : PartitionLog) (cutoffNanos : Int64) : (Nat × Option LogError) × PartitionLog :=
  let (deleted, err, sealed) := timeLoop cutoffNanos p.sealed
  ((deleted, err), { p with sealed := sealed })

def sizeLoop (maxBytes total : Int) : List Segment → Nat × List Segment
  | [] => (0, [])
  | oldest :: rest =>
    if maxBytes < total then
      let (deleted, kept) := sizeLoop maxBytes (total - oldest.size) rest
      (deleted + 1, kept)
    else (0, oldest :: rest)

def enforceSizeRetention (p : PartitionLog) (maxBytes : Int) : Nat × PartitionLog :=
  if maxBytes ≤ 0 then (0, p)
  else
    let total : Int := (p.segments.map Segment.size).sum
    let (deleted, sealed) := sizeLoop maxBytes total p.sealed
    (deleted, { p with sealed := sealed })

def close (p : PartitionLog) : Dir := PartitionLog.dir { p with active := p.active.sealSegment }

end PartitionLog
end Holocron.Log
