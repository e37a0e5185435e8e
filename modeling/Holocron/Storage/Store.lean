import Mathlib.Logic.Function.Basic
import Holocron.Log.Partition

/-! The persistence boundary (broker/internal/storage): the `Store` interface and its two implementations. `readPanics`
    says which reads panic. -/

namespace Holocron.Storage
open Lib Log

inductive CtxError where
  | canceled
  | deadlineExceeded
  deriving DecidableEq, Repr

structure Ctx where
  err : Option CtxError
  deriving DecidableEq, Repr

def Ctx.background : Ctx := ⟨none⟩

inductive StoreError where
  | ctx (e : CtxError)
  | negativeOffset (n : Int)
  | openPartition (p : PartitionRef) (e : LogError)
  | log (e : LogError)
  deriving DecidableEq, Repr

class Store (σ : Type) where
  append : σ → Ctx → Int64 → PartitionRef → Record → Except StoreError Int × σ
  read : σ → Ctx → PartitionRef → Int → Int → Except StoreError (List Record) × σ
  readPanics : σ → Ctx → PartitionRef → Int → Int → Bool
  highWater : σ → Ctx → PartitionRef → Except StoreError Int × σ
  sync : σ → Ctx → PartitionRef → Except StoreError Unit × σ
  deleteTopic : σ → Ctx → Bytes → Except StoreError Unit × σ

def stamp (now : Int64) (offset : Int) (r : Record) : Record :=
  { r with offset := offset, timestamp := if r.timestamp = 0 then now else r.timestamp }

def guarded {σ α : Type} (s : σ) (ctx : Ctx) (op : Except StoreError α × σ) : Except StoreError α × σ :=
  match ctx.err with
  | some e => (.error (.ctx e), s)
  | none => op

def int64 (n : Int) : Int := n.bmod (2 ^ 64)

structure MemoryStore where
  partitions : PartitionRef → Option (List Record)

namespace MemoryStore

def new : MemoryStore := ⟨fun _ => none⟩

def get (s : MemoryStore) (p : PartitionRef) : List Record := (s.partitions p).getD []

def append (s : MemoryStore) (ctx : Ctx) (now : Int64) (p : PartitionRef) (r : Record) :
    Except StoreError Int × MemoryStore :=
  guarded s ctx
    (let records := s.get p
     (.ok records.length, ⟨Function.update s.partitions p (some (records ++ [stamp now records.length r]))⟩))

def read (s : MemoryStore) (ctx : Ctx) (p : PartitionRef) (fromOffset maxRecords : Int) :
    Except StoreError (List Record) × MemoryStore :=
  guarded s ctx
    (if fromOffset < 0 then (.error (.negativeOffset fromOffset), s)
     else if maxRecords ≤ 0 then (.ok [], s)
     else (.ok (((s.get p).drop fromOffset.toNat).take maxRecords.toNat), s))

/-- The end of a read is computed in `int64`; the slice made for it has length `n`. -/
def readPanics (s : MemoryStore) (ctx : Ctx) (p : PartitionRef) (fromOffset maxRecords : Int) : Bool :=
  if ctx.err.isSome ∨ fromOffset < 0 ∨ maxRecords ≤ 0 ∨ ((s.get p).length : Int) ≤ fromOffset then false
  else
    let stop := min (int64 (fromOffset + maxRecords)) (s.get p).length
    let n := int64 (stop - fromOffset)
    decide (n < 0 ∨ maxSlice < n ∨ stop < fromOffset)

def highWater (s : MemoryStore) (ctx : Ctx) (p : PartitionRef) : Except StoreError Int × MemoryStore :=
  guarded s ctx (.ok (s.get p).length, s)

def sync (s : MemoryStore) (ctx : Ctx) (_ : PartitionRef) : Except StoreError Unit × MemoryStore :=
  guarded s ctx (.ok (), s)

def deleteTopic (s : MemoryStore) (ctx : Ctx) (topic : Bytes) : Except StoreError Unit × MemoryStore :=
  guarded s ctx (.ok (), ⟨fun p => if p.topic = topic then none else s.partitions p⟩)

instance : Store MemoryStore := ⟨append, read, readPanics, highWater, sync, deleteTopic⟩

end MemoryStore

structure FileStore where
  segmentSize : Int
  logs : PartitionRef → Option PartitionLog
  disk : PartitionRef → Dir

namespace FileStore

def new (segmentSize : Int) (disk : PartitionRef → Dir) : FileStore := ⟨segmentSize, fun _ => none, disk⟩

def setLog (s : FileStore) (p : PartitionRef) (l : PartitionLog) : FileStore :=
  { s with logs := Function.update s.logs p (some l) }

def openLog (s : FileStore) (p : PartitionRef) : Except StoreError PartitionLog × FileStore :=
  match s.logs p with
  | some l => (.ok l, s)
  | none =>
    match PartitionLog.openPartition (s.disk p) s.segmentSize with
    | .error e => (.error (.openPartition p e), s)
    | .ok l => (.ok l, s.setLog p l)

def append (s : FileStore) (ctx : Ctx) (now : Int64) (p : PartitionRef) (r : Record) : Except StoreError Int × FileStore :=
  guarded s ctx
    (match s.openLog p with
     | (.error e, s') => (.error e, s')
     | (.ok l, s') =>
       match l.append (stamp now l.highWater r) with
       | .error e => (.error (.log e), s')
       | .ok (offset, l') => (.ok offset, s'.setLog p l'))

def read (s : FileStore) (ctx : Ctx) (p : PartitionRef) (fromOffset maxRecords : Int) :
    Except StoreError (List Record) × FileStore :=
  guarded s ctx
    (if fromOffset < 0 then (.error (.negativeOffset fromOffset), s)
     else
       match s.openLog p with
       | (.error e, s') => (.error e, s')
       | (.ok l, s') =>
         match l.read fromOffset maxRecords with
         | (.error e, l') => (.error (.log e), s'.setLog p l')
         | (.ok records, l') => (.ok records, s'.setLog p l'))

def readPanics (s : FileStore) (ctx : Ctx) (p : PartitionRef) (fromOffset maxRecords : Int) : Bool :=
  if ctx.err.isSome ∨ fromOffset < 0 then false
  else
    match (s.openLog p).1 with
    | .error _ => false
    | .ok l => l.readPanics fromOffset maxRecords

def highWater (s : FileStore) (ctx : Ctx) (p : PartitionRef) : Except StoreError Int × FileStore :=
  guarded s ctx
    (match s.openLog p with
     | (.error e, s') => (.error e, s')
     | (.ok l, s') => (.ok l.highWater, s'))

def sync (s : FileStore) (ctx : Ctx) (p : PartitionRef) : Except StoreError Unit × FileStore :=
  guarded s ctx
    (match s.logs p with
     | none => (.ok (), s)
     | some l => (.ok (), s.setLog p l.sync))

/-- A topic name that is one component of a path: neither empty nor `.` nor `..`, and without a `/`. -/
def Plain (topic : Bytes) : Prop := topic ≠ [] ∧ topic ≠ [46] ∧ topic ≠ [46, 46] ∧ 47 ∉ topic

instance (topic : Bytes) : Decidable (Plain topic) := inferInstanceAs (Decidable (_ ∧ _))

/-- `os.RemoveAll(filepath.Join(root, topic))` for a plain name: the directories of this topic. The join with any
    other name is a directory that holds more than one topic or lies inside one, and what `RemoveAll` takes of other
    topics then is not modelled. -/
def deleteTopic (s : FileStore) (ctx : Ctx) (topic : Bytes) : Except StoreError Unit × FileStore :=
  guarded s ctx
    (.ok (), { s with
      logs := fun p => if p.topic = topic then none else s.logs p
      disk := fun p => if p.topic = topic then [] else s.disk p })

def close (s : FileStore) : PartitionRef → Dir := fun p =>
  match s.logs p with
  | some l => l.close
  | none => s.disk p

instance : Store FileStore := ⟨append, read, readPanics, highWater, sync, deleteTopic⟩

end FileStore

inductive StoreCall where
  | append (ctx : Ctx) (p : PartitionRef) (r : Record)
  | read (ctx : Ctx) (p : PartitionRef) (fromOffset maxRecords : Int64)
  | highWater (ctx : Ctx) (p : PartitionRef)
  | sync (ctx : Ctx) (p : PartitionRef)
  | deleteTopic (ctx : Ctx) (topic : Bytes)
  deriving DecidableEq, Repr

inductive Answer where
  | offset (res : Except StoreError Int)
  | records (res : Except StoreError (List Record))
  | done (res : Except StoreError Unit)
  | panicked
  deriving DecidableEq

def Store.call {σ : Type} [Store σ] (s : σ) (now : Int64) : StoreCall → Answer × σ
  | .append ctx p r => (Store.append s ctx now p r).map .offset id
  | .read ctx p fromOffset maxRecords =>
    if Store.readPanics s ctx p fromOffset.toInt maxRecords.toInt then (.panicked, s)
    else (Store.read s ctx p fromOffset.toInt maxRecords.toInt).map .records id
  | .highWater ctx p => (Store.highWater s ctx p).map .offset id
  | .sync ctx p => (Store.sync s ctx p).map .done id
  | .deleteTopic ctx topic => (Store.deleteTopic s ctx topic).map .done id

def Store.next {σ : Type} [Store σ] (s : Option σ) (c : Int64 × StoreCall) : Option σ :=
  s.bind fun s =>
    match Store.call s c.1 c.2 with
    | (.panicked, _) => none
    | (_, s') => some s'

def Store.answers {σ : Type} [Store σ] (s : Option σ) : List (Int64 × StoreCall) → List Answer
  | [] => []
  | c :: cs =>
    match s with
    | none => []
    | some s' => (Store.call s' c.1 c.2).1 :: Store.answers (Store.next s c) cs

end Holocron.Storage
