import Holocron.Log.Partition

/-! Compaction (broker/internal/log/compact.go): two passes over the sealed segments, a placeholder with the latest
    record of every key, and file-system steps. -/

namespace Holocron.Log
open Lib

inductive FsStep where
  | write (n : FileName) (b : Bytes)
  | remove (n : FileName)
  | rename (a b : FileName)
  deriving DecidableEq, Repr

def FsStep.apply (d : Dir) : FsStep → Dir
  | .write n b => d.write n b
  | .remove n => d.remove n
  | .rename a b => (d.rename a b).getD d

def compactBatchSize : Nat := 256

def drain {σ : Type} (read : σ → Int → Except LogError (List Record) × σ) :
    Nat → σ → Int → Except LogError (List Record) × σ
  | 0, s, _ => (.ok [], s)
  | fuel + 1, s, cursor =>
    match read s cursor with
    | (.error e, s') => (.error e, s')
    | (.ok batch, s') =>
      match batch.getLast? with
      | none => (.ok [], s')
      | some r =>
        let (res, s'') := drain read fuel s' (r.offset + 1)
        (res.map (batch ++ ·), s'')

def Segment.stream (s : Segment) : Except LogError (List Record) × Segment :=
  drain (fun s cursor => s.readFrom cursor compactBatchSize) (s.size + 1) s s.baseOffset

def streamSealedRecords : List Segment → Except LogError (List Record × List Segment)
  | [] => .ok ([], [])
  | s :: rest =>
    match s.stream with
    | (.error e, _) => .error e
    | (.ok records, s') => do
      let (more, rest') ← streamSealedRecords rest
      .ok (records ++ more, s' :: rest')

abbrev Latest := List (Bytes × Int)

def Latest.delete (m : Latest) (k : Bytes) : Latest := m.filter fun e => decide (e.1 ≠ k)

def Latest.note (m : Latest) (r : Record) : Latest :=
  let k := Slice.bytes r.key
  if k = [] then m
  else if r.value = none then m.delete k
  else (k, r.offset) :: m.delete k

def Latest.newBase (m : Latest) : Int :=
  m.foldl (fun newBase e => if newBase < 0 ∨ e.2 < newBase then e.2 else newBase) (-1)

def Latest.keeps (m : Latest) (r : Record) : Bool :=
  let k := Slice.bytes r.key
  decide (k ≠ []) && decide (m.lookup k = some r.offset)

/-- The placeholder grows byte by byte, then its index appears (written aside and renamed). -/
def Segment.placeholderSteps (s : Segment) : List FsStep :=
  (List.range (s.logFile.data.length + 1)).map (fun i => .write s.logPath (s.logFile.data.take i)) ++
    (s.idxFile.map fun b => .write s.idxPath b).toList

def Segment.removeSteps (s : Segment) : List FsStep := [.remove s.logPath, .remove s.idxPath]

def Segment.finalizeSteps (s : Segment) : List FsStep :=
  [.rename s.logPath (segmentLogName s.baseOffset false), .rename s.idxPath (segmentIndexName s.baseOffset false)]

def PartitionLog.compact (p : PartitionLog) : Except LogError (List FsStep × PartitionLog) :=
  if p.sealed = [] then .ok ([], p)
  else do
    let (all, sealed) ← streamSealedRecords p.sealed
    let latest := all.foldl Latest.note []
    if latest = [] then .ok (sealed.flatMap Segment.removeSteps, { p with sealed := [] })
    else
      let (all, sealed) ← streamSealedRecords sealed
      let placeholder := createSegmentWithSuffix latest.newBase p.maxBytes true
      let newSeg ← (all.filter latest.keeps).foldlM (fun s r => (Segment.append s r).map Prod.snd) placeholder
      let newSeg := newSeg.sealSegment
      .ok (newSeg.placeholderSteps ++ sealed.flatMap Segment.removeSteps ++ newSeg.finalizeSteps,
        { p with sealed := [{ newSeg with compacting := false }] })

def PartitionLog.readToEnd (p : PartitionLog) (batch n : Int) : Except LogError (List Record) :=
  (drain (fun p cursor => p.read cursor batch) ((p.segments.map Segment.size).sum + 1) p n).1

def PartitionLog.crashed (p : PartitionLog) (steps : List FsStep) (k : Nat) : Dir :=
  (steps.take k).foldl FsStep.apply p.dir

end Holocron.Log
