import Holocron.Lib.Assoc
import Holocron.Streams.Topology

/-! Windowed counts (streams/window.go): tumbling and hopping windows and sessions, over a map in memory
    (streams/store.go) whose `Range` lists the entries in some order. -/

namespace Holocron.Streams
open Lib

abbrev Entry := Bytes × Bytes

abbrev SubStore := Assoc Bytes Bytes

def encodeInt64 (v : Int64) : Bytes := bigEndian 8 v.toUInt64.toNat

def decodeInt64 (b : Bytes) : Int64 := (UInt64.ofNat (ofBigEndian b)).toInt64

def encodeCount (n : UInt64) : Bytes := bigEndian 8 n.toNat

def decodeCount (b : Bytes) : UInt64 := if b.length ≠ 8 then 0 else UInt64.ofNat (ofBigEndian b)

def makeWindowKey (origKey : Bytes) (windowStart : Int64) : Bytes := encodeInt64 windowStart ++ origKey

def parseWindowKey (b : Bytes) : Option (Bytes × Int64) :=
  if b.length < 8 then none else some (b.drop 8, decodeInt64 (b.take 8))

structure Session where
  start : Int64
  last : Int64
  count : UInt64
  deriving DecidableEq, Repr

def encodeSessionState (s : Session) : Bytes := encodeInt64 s.start ++ encodeInt64 s.last ++ encodeCount s.count

def decodeSessionState (b : Bytes) : Option Session :=
  if b.length ≠ 24 then none else some ⟨decodeInt64 (b.take 8), decodeInt64 ((b.drop 8).take 8),
    UInt64.ofNat (ofBigEndian (b.drop 16))⟩

def closedRecord (key value : Bytes) (start last : Int64) : Record :=
  ⟨0, 0, if key = [] then none else some key, some value,
    [⟨utf8 "holocron.window.start.ns", some (encodeInt64 start)⟩, ⟨utf8 "holocron.window.end.ns", some (encodeInt64 last)⟩]⟩

structure WindowOp where
  stateKeys : Bytes → Int64 → List Bytes
  update : Option Bytes → Int64 → Option Bytes × Bytes
  sweeps : Int64 → Int64 → Entry → Bool
  closes : Int64 → Entry → Bool
  emit : Entry → Option Record

def closedWindow (size currentStart watermark : Int64) (e : Entry) : Bool :=
  match parseWindowKey e.1 with
  | none => false
  | some (_, windowStart) => decide (windowStart + size ≤ watermark ∧ windowStart ≠ currentStart)

/-- The windows of a record start at multiples of `advance`. -/
def windowed (size advance : Int64) (starts : Int64 → List Int64) : WindowOp where
  stateKeys key eventTime := (starts eventTime).map (makeWindowKey key)
  update cur _ := (none, encodeCount (decodeCount (cur.getD []) + 1))
  sweeps eventTime := closedWindow size (eventTime / advance * advance)
  closes := closedWindow size (-1)
  emit e := (parseWindowKey e.1).map fun (origKey, windowStart) => closedRecord origKey e.2 windowStart (windowStart + size)

def tumblingCount (windowSize : Int64) : WindowOp :=
  windowed windowSize windowSize fun eventTime => [eventTime / windowSize * windowSize]

def hoppingLoop (size advance eventTime : Int64) : Nat → Int64 → List Int64
  | 0, _ => []
  | fuel + 1, ws => if eventTime - size < ws ∧ 0 ≤ ws then ws :: hoppingLoop size advance eventTime fuel (ws - advance) else []

/-- From the last window down to the first; below zero there is none, so the fuel outlasts the loop. -/
def hoppingStarts (size advance eventTime : Int64) : List Int64 :=
  hoppingLoop size advance eventTime ((eventTime / advance).toInt.toNat + 1) (eventTime / advance * advance)

def hoppingCount (size advance : Int64) : WindowOp := windowed size advance (hoppingStarts size advance)

def sessionCount (gap : Int64) : WindowOp where
  stateKeys key _ := [key]
  update cur eventTime :=
    match cur.bind decodeSessionState with
    | none => (none, encodeSessionState ⟨eventTime, eventTime, 1⟩)
    | some s =>
      if s.last + gap < eventTime then (cur, encodeSessionState ⟨eventTime, eventTime, 1⟩)
      else (none, encodeSessionState ⟨s.start, max s.last eventTime, s.count + 1⟩)
  sweeps _ _ _ := false
  closes watermark e := (decodeSessionState e.2).any fun s => decide (s.last + gap ≤ watermark)
  emit e := (decodeSessionState e.2).map fun s => closedRecord e.1 (encodeCount s.count) s.start s.last

namespace SubStore

def close (closed : Entry → Bool) (sub : SubStore) : List Entry × SubStore :=
  (sub.filter closed, (sub.filter closed).foldl (fun sub e => sub.delete e.1) sub)

end SubStore

namespace WindowOp

variable (op : WindowOp)

def bump (eventTime : Int64) (x : List Entry × SubStore) (k : Bytes) : List Entry × SubStore :=
  let (closed, v) := op.update (x.2.get k) eventTime
  (x.1 ++ closed.toList.map (Prod.mk k), x.2.set k v)

def onRecord (sub : SubStore) (key : Bytes) (eventTime watermark : Int64) : List Entry × SubStore :=
  let (out, sub) := (op.stateKeys key eventTime).foldl (op.bump eventTime) ([], sub)
  let (closed, sub) := SubStore.close (op.sweeps eventTime watermark) sub
  (out ++ closed, sub)

def operator (extract : Record → Int64) (watermark : Int64) : Operator (Int32 → SubStore) := fun stores r partition =>
  let (closed, sub) := op.onRecord (stores partition) (Slice.bytes r.key) (extract r) watermark
  (some (closed.filterMap op.emit), Function.update stores partition sub)

def punctuator (watermark : Int64) : List Int32 → (Int32 → SubStore) → List Record × (Int32 → SubStore)
  | [], stores => ([], stores)
  | p :: parts, stores =>
    let (closed, sub) := SubStore.close (op.closes watermark) (stores p)
    let (out, stores) := punctuator watermark parts (Function.update stores p sub)
    (closed.filterMap op.emit ++ out, stores)

end WindowOp

/-- The pipeline and the punctuator over one partition of the store. `got` is what the pipeline's Get has read,
    `sweeping` and `closing` are the entries that the Range of the one and of the other has found and that are still to
    be deleted. -/
structure Racing where
  sub : SubStore
  got : Option (Bytes × Option Bytes × Int64)
  sweeping : List Entry
  closing : List Entry
  emitted : List Entry
  counted : List Bytes
  deriving DecidableEq, Repr

inductive RaceStep where
  | get (k : Bytes) (eventTime : Int64)
  | put
  | scan (eventTime watermark : Int64)
  | sweep
  | range (watermark : Int64)
  | delete
  deriving DecidableEq, Repr

namespace Racing

def start : Racing := ⟨[], none, [], [], [], []⟩

def remove (s : Racing) (e : Entry) : Racing := { s with sub := s.sub.delete e.1, emitted := s.emitted ++ [e] }

def step (op : WindowOp) (s : Racing) : RaceStep → Racing
  | .get k eventTime =>
    if s.got = none ∧ s.sweeping = [] then { s with got := some (k, s.sub.get k, eventTime) } else s
  | .put =>
    match s.got with
    | none => s
    | some (k, cur, eventTime) =>
      let (closed, v) := op.update cur eventTime
      { s with
        sub := s.sub.set k v, got := none
        emitted := s.emitted ++ closed.toList.map (Prod.mk k), counted := s.counted ++ [k] }
  | .scan eventTime watermark =>
    if s.got = none ∧ s.sweeping = [] then { s with sweeping := s.sub.filter (op.sweeps eventTime watermark) } else s
  | .sweep =>
    match s.sweeping with
    | [] => s
    | e :: sweeping => { s.remove e with sweeping := sweeping }
  | .range watermark => if s.closing = [] then { s with closing := s.sub.filter (op.closes watermark) } else s
  | .delete =>
    match s.closing with
    | [] => s
    | e :: closing => { s.remove e with closing := closing }

end Racing
end Holocron.Streams
