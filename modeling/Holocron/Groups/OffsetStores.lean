import Holocron.Lib.Utf8
import Holocron.Groups.Views

/-! The stores of committed offsets as callers see them (broker/internal/groups/offsets.go, topic_offsets.go). The order
    in which a Go map is walked comes with the call. -/

namespace Holocron.Groups
open Lib Storage

structure Walk where
  order : Entries → Entries
  perm : ∀ es, (order es).Perm es

def Walk.listed : Walk := ⟨id, fun _ => .refl _⟩

def deleteGroupEntries (scan : Scan) (entries : Entries) (group : Bytes) : Entries :=
  entries.filter fun e => decide ((splitKey scan e.1).1 ≠ group)

inductive OffsetCall where
  | commit (group topic : Bytes) (partition : Int32) (offset : Int64)
  | lookup (group topic : Bytes) (partition : Int32)
  | list (group : Bytes)
  | deleteGroup (group : Bytes)
  deriving DecidableEq, Repr

inductive OffsetError where
  | store (e : StoreError)
  | rename
  | parse
  | unfinished
  deriving DecidableEq, Repr

inductive OffsetAnswer where
  | done
  | offset (o : Int)
  | entries (es : List OffsetEntry)
  | failed (e : OffsetError)
  deriving DecidableEq, Repr

/-- What happens to a store that can be opened again: a call with the order it walks the map in and its clock, or a
    reopening. -/
inductive OffsetEvent where
  | call (walk : Walk) (now : Int64) (c : OffsetCall)
  | reopen (fuel : Nat)

structure MemoryOffsetStore where
  entries : Entries

namespace MemoryOffsetStore

def commit (m : MemoryOffsetStore) (group topic : Bytes) (partition : Int32) (offset : Int) : MemoryOffsetStore :=
  ⟨m.entries.set (joinKey group topic partition) offset⟩

def lookup (m : MemoryOffsetStore) (group topic : Bytes) (partition : Int32) : Int :=
  (List.lookup (joinKey group topic partition) m.entries).getD noOffset

def list (m : MemoryOffsetStore) (scan : Scan) (walk : Walk) (group : Bytes) : List OffsetEntry :=
  listEntries scan (walk.order m.entries) group

def deleteGroup (m : MemoryOffsetStore) (scan : Scan) (group : Bytes) : MemoryOffsetStore :=
  ⟨deleteGroupEntries scan m.entries group⟩

def step (scan : Scan) (m : MemoryOffsetStore) : Walk × OffsetCall → OffsetAnswer × MemoryOffsetStore
  | (_, .commit group topic partition offset) => (.done, m.commit group topic partition offset.toInt)
  | (_, .lookup group topic partition) => (.offset (m.lookup group topic partition), m)
  | (walk, .list group) => (.entries (m.list scan walk group), m)
  | (_, .deleteGroup group) => (.done, m.deleteGroup scan group)

end MemoryOffsetStore

structure OffsetKey where
  group : Bytes
  topic : Bytes
  partition : Int32
  offset : Int
  deriving DecidableEq, Repr

def OffsetKey.valid (k : OffsetKey) : OffsetKey := { k with group := toValidUTF8 k.group, topic := toValidUTF8 k.topic }

/-- `encoding/json` on documents of a type that is left open. -/
structure OffsetJson (δ : Type) where
  marshalIndent : List OffsetKey → δ
  unmarshal : δ → Option (List OffsetKey)
  unmarshal_marshal (ks : List OffsetKey) : unmarshal (marshalIndent ks) = some (ks.map OffsetKey.valid)

structure OffsetFile (δ : Type) where
  tmp : Option δ
  file : Option δ

namespace OffsetFile

variable {δ : Type}

def write (f : OffsetFile δ) (d : δ) : OffsetFile δ := { f with tmp := some d }

def rename (f : OffsetFile δ) : Option (OffsetFile δ) := f.tmp.map fun d => ⟨none, some d⟩

end OffsetFile

structure JSONOffsetStore (δ : Type) where
  entries : Entries
  disk : OffsetFile δ

namespace JSONOffsetStore

variable {δ : Type}

def load (J : OffsetJson δ) (f : OffsetFile δ) : Option Entries :=
  match f.file with
  | none => some []
  | some d => (J.unmarshal d).map fun ks => ks.foldl (fun m k => m.set (joinKey k.group k.topic k.partition) k.offset) []

def snapshotLocked (scan : Scan) (walk : Walk) (entries : Entries) : List OffsetKey :=
  (walk.order entries).map fun e =>
    let (group, topic, partition) := splitKey scan e.1
    ⟨group, topic, partition, e.2⟩

def persist (J : OffsetJson δ) (f : OffsetFile δ) (snapshot : List OffsetKey) : Option (OffsetFile δ) :=
  (f.write (J.marshalIndent snapshot)).rename

def update (J : OffsetJson δ) (scan : Scan) (walk : Walk) (s : JSONOffsetStore δ) (entries : Entries) :
    OffsetAnswer × JSONOffsetStore δ :=
  match persist J s.disk (snapshotLocked scan walk entries) with
  | none => (.failed .rename, ⟨entries, s.disk⟩)
  | some disk => (.done, ⟨entries, disk⟩)

def commit (J : OffsetJson δ) (scan : Scan) (walk : Walk) (s : JSONOffsetStore δ) (group topic : Bytes)
    (partition : Int32) (offset : Int) :
    OffsetAnswer × JSONOffsetStore δ := s.update J scan walk (s.entries.set (joinKey group topic partition) offset)

def lookup (s : JSONOffsetStore δ) (group topic : Bytes) (partition : Int32) : Int :=
  (List.lookup (joinKey group topic partition) s.entries).getD noOffset

def list (s : JSONOffsetStore δ) (scan : Scan) (walk : Walk) (group : Bytes) : List OffsetEntry :=
  listEntries scan (walk.order s.entries) group

def deleteGroup (J : OffsetJson δ) (scan : Scan) (walk : Walk) (s : JSONOffsetStore δ) (group : Bytes) :
    OffsetAnswer × JSONOffsetStore δ :=
  s.update J scan walk (deleteGroupEntries scan s.entries group)

def step (J : OffsetJson δ) (scan : Scan) (s : JSONOffsetStore δ) : OffsetEvent → OffsetAnswer × JSONOffsetStore δ
  | .call walk _ (.commit group topic partition offset) => s.commit J scan walk group topic partition offset.toInt
  | .call _ _ (.lookup group topic partition) => (.offset (s.lookup group topic partition), s)
  | .call walk _ (.list group) => (.entries (s.list scan walk group), s)
  | .call walk _ (.deleteGroup group) => s.deleteGroup J scan walk group
  | .reopen _ =>
    match load J s.disk with
    | none => (.failed .parse, s)
    | some entries => (.done, ⟨entries, s.disk⟩)

end JSONOffsetStore

namespace TopicOffsetStore

variable {σ : Type} [Store σ]

def list (o : TopicOffsetStore) (scan : Scan) (walk : Walk) (group : Bytes) : List OffsetEntry :=
  listEntries scan (walk.order o.entries) group

def walkedKeys (o : TopicOffsetStore) (scan : Scan) (walk : Walk) (group : Bytes) : List Bytes :=
  TopicOffsetStore.keysOf ⟨o.topic, walk.order o.entries⟩ (fun k => (scan.key k).1) group

def answer : Except StoreError Unit → OffsetAnswer
  | .ok () => .done
  | .error e => .failed (.store e)

def step (scan : Scan) (restart : σ → σ) (s : TopicOffsetStore × σ) : OffsetEvent → OffsetAnswer × (TopicOffsetStore × σ)
  | .call _ now (.commit group topic partition offset) =>
    let (res, s') := s.1.commit s.2 now group topic partition offset.toInt
    (answer res, s')
  | .call _ _ (.lookup group topic partition) => (.offset (s.1.lookup group topic partition), s)
  | .call walk _ (.list group) => (.entries (s.1.list scan walk group), s)
  | .call walk now (.deleteGroup group) =>
    let (res, s') := s.1.deleteGroup s.2 now (s.1.walkedKeys scan walk group)
    (answer res, s')
  | .reopen fuel =>
    match openStore s.1.topic fuel (restart s.2) with
    | none => (.failed .unfinished, s)
    | some (.error e, store) => (.failed (.store e), (s.1, store))
    | some (.ok o, store) => (.done, (o, store))

end TopicOffsetStore
end Holocron.Groups
