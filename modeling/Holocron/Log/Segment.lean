import Holocron.Lib.Search
import Holocron.Log.Frame

/-! One segment of a partition (broker/internal/log/segment.go, index.go): a buffered log file, a sparse index, and
    counters. Reads and writes share the seek position. -/

namespace Holocron.Log
open Lib

inductive LogError where
  | frame (e : FrameError)
  /-- the torn tail of a file opened read-only cannot be cut off -/
  | truncate
  | readOnly
  | unknownSegment
  deriving DecidableEq, Repr

def uint32 (x : Int) : Nat := toUnsigned 4 x

structure IndexEntry where
  relativeOffset : Nat
  position : Nat
  deriving DecidableEq, Repr, Inhabited

abbrev Index := List IndexEntry

def Index.add (i : Index) (relOffset pos : Nat) : Index := i ++ [⟨relOffset, pos⟩]

def Index.lookup (i : Index) (relOffset : Nat) : Nat :=
  let n := search i.length fun j => decide (relOffset < (i.getD j default).relativeOffset)
  if n = 0 then 0 else (i.getD (n - 1) default).position

def Index.writeTo (i : Index) : Bytes := i.flatMap fun e => bigEndian 4 e.relativeOffset ++ bigEndian 4 e.position

def Index.sizeBytes (i : Index) : Nat := i.length * 8

def indexIntervalBytes : Nat := 4096

structure Segment where
  baseOffset : Int
  maxBytes : Int
  compacting : Bool
  logFile : File
  logBuf : Option Bytes
  idx : Index
  idxFile : Option Bytes
  size : Nat
  bytesSinceIndex : Nat
  highWater : Int
  deriving DecidableEq, Repr

def createSegmentWithSuffix (baseOffset maxBytes : Int) (compacting : Bool) : Segment where
  baseOffset := baseOffset
  maxBytes := maxBytes
  compacting := compacting
  logFile := ⟨[], 0, true, true⟩
  logBuf := some []
  idx := []
  idxFile := none
  size := 0
  bytesSinceIndex := 0
  highWater := baseOffset

def createSegment (baseOffset maxBytes : Int) : Segment := createSegmentWithSuffix baseOffset maxBytes false

namespace Segment

/-- Replay the frames of the log. A torn tail is cut off at the last good frame, which a read-only
    handle cannot do; a frame takes at least one byte, so the fuel outlasts the file. -/
def recoverLoop : Nat → Reader → Nat → Segment → Except LogError Segment
  | 0, r, pos, s => .ok { s with logFile := r.file, size := pos }
  | fuel + 1, r, pos, s =>
    match readRecordFrom r with
    | (.ok (rec, n), r') =>
      let s := if pos = 0 ∨ indexIntervalBytes ≤ s.bytesSinceIndex then
          { s with idx := s.idx.add (uint32 (rec.offset - s.baseOffset)) (uint32 pos), bytesSinceIndex := 0 }
        else s
      recoverLoop fuel r' (pos + n)
        { s with bytesSinceIndex := s.bytesSinceIndex + n, highWater := rec.offset + 1 }
    | (.error .eof, r') => .ok { s with logFile := r'.file, size := pos }
    | (.error .malformed, _) => .error (.frame .malformed)
    | (.error _, r') =>
      match r'.file.truncate pos with
      | none => .error .truncate
      | some f => .ok { s with logFile := f.seek pos, size := pos }

def recover (s : Segment) : Except LogError Segment :=
  recoverLoop (s.logFile.data.length + 1) (Reader.new (s.logFile.seek 0)) 0 s

/-- Reopen a segment file. The handle is not in append mode; its position is left where the replay
    stopped reading. -/
def openSegment (baseOffset maxBytes : Int) (data : Bytes) (idxFile : Option Bytes) (forAppend : Bool) :
    Except LogError Segment :=
  recover
    { baseOffset := baseOffset
      maxBytes := maxBytes
      compacting := false
      logFile := ⟨data, 0, false, forAppend⟩
      logBuf := if forAppend then some [] else none
      idx := []
      idxFile := idxFile
      size := 0
      bytesSinceIndex := 0
      highWater := baseOffset }

def append (s : Segment) (r : Record) : Except LogError (Int × Segment) :=
  match s.logBuf with
  | none => .error .readOnly
  | some buf =>
    let frame := encodeRecord r
    let s := if s.bytesSinceIndex = 0 ∨ indexIntervalBytes ≤ s.bytesSinceIndex then
        { s with idx := s.idx.add (uint32 (r.offset - s.baseOffset)) (uint32 s.size), bytesSinceIndex := 0 }
      else s
    let (f, buf) := bufWrite s.logFile buf frame
    .ok (r.offset,
      { s with
        logFile := f
        logBuf := some buf
        size := s.size + frame.length
        bytesSinceIndex := s.bytesSinceIndex + frame.length
        highWater := r.offset + 1 })

def flushIfActive (s : Segment) : Segment :=
  match s.logBuf with
  | none => s
  | some buf => { s with logFile := bufFlush s.logFile buf, logBuf := some [] }

def readLoop : Nat → Reader → Int → Nat → List Record → Except LogError (List Record) × Reader
  | 0, r, _, _, out => (.ok out, r)
  | fuel + 1, r, fromOffset, max, out =>
    if max ≤ out.length then (.ok out, r)
    else
      match readRecordFrom r with
      | (.ok (rec, _), r') =>
        if rec.offset < fromOffset then readLoop fuel r' fromOffset max out
        else readLoop fuel r' fromOffset max (out ++ [rec])
      | (.error .eof, r') => (.ok out, r')
      | (.error .unexpectedEOF, r') => (.ok out, r')
      | (.error e, r') => (.error (.frame e), r')

/-- Up to `maxRecords` records from `fromOffset` on. It flushes the write buffer and then moves the
    file's position to where the index points. -/
def readFrom (s : Segment) (fromOffset maxRecords : Int) : Except LogError (List Record) × Segment :=
  if maxRecords ≤ 0 then (.ok [], s)
  else if s.highWater ≤ fromOffset then (.ok [], s)
  else
    let fromOffset := max fromOffset s.baseOffset
    let s := s.flushIfActive
    let startPos := s.idx.lookup (uint32 (fromOffset - s.baseOffset))
    let (res, r) := readLoop (s.logFile.data.length + 1) (Reader.new (s.logFile.seek startPos)) fromOffset
      maxRecords.toNat []
    (res, { s with logFile := r.file })

def persistIndex (s : Segment) : Segment := { s with idxFile := some s.idx.writeTo }

def snapshotSync (s : Segment) : Segment := s.flushIfActive.persistIndex

def shouldRoll (s : Segment) : Bool := decide (s.maxBytes ≤ s.size)

def sealSegment (s : Segment) : Segment := { s.flushIfActive.persistIndex with logBuf := none }

end Segment
end Holocron.Log
