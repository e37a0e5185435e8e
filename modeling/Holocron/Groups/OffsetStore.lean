import Mathlib.Data.Nat.Digits.Defs
import Holocron.Broker.Concurrent
import Holocron.Storage.Replay

/-! Committed offsets on an internal topic (broker/internal/groups/topic_offsets.go, offsets.go). -/

namespace Holocron.Groups
open Lib Storage Concurrent

def noOffset : Int := -1

def defaultOffsetsTopic : Bytes := utf8 "__holocron_offsets"

def decimal (x : Int) : Bytes :=
  (if x < 0 then [45] else []) ++ if x = 0 then [48] else (Nat.digits 10 x.natAbs).reverse.map fun d => UInt8.ofNat (48 + d)

def joinKey (group topic : Bytes) (partition : Int32) : Bytes := group ++ 0 :: (topic ++ 0 :: decimal partition.toInt)

def splitNUL (s : Bytes) : List Bytes := s.splitOn 0

/-- The group of a key, the first result of `splitKey`. `scanned` is what `Sscanf` makes of a key that has not three
    parts. -/
def groupOf (scanned : Bytes → Bytes) (k : Bytes) : Bytes :=
  match splitNUL k with
  | [group, _, _] => group
  | _ => scanned k

def decodeOffsetValue (b : Bytes) : Int := if b.length ≠ 8 then noOffset else toSigned 8 (ofBigEndian b)

abbrev Entries := List (Bytes × Int)

namespace Entries

def delete (m : Entries) (k : Bytes) : Entries := m.filter fun e => decide (e.1 ≠ k)

def set (m : Entries) (k : Bytes) (offset : Int) : Entries := (k, offset) :: m.delete k

def replayRecord (m : Entries) (r : Record) : Entries :=
  match r.value with
  | none => m.delete (Slice.bytes r.key)
  | some v => m.set (Slice.bytes r.key) (decodeOffsetValue v)

end Entries

structure TopicOffsetStore where
  topic : Bytes
  entries : Entries

namespace TopicOffsetStore

def pref (o : TopicOffsetStore) : PartitionRef := ⟨o.topic, 0⟩

variable {σ : Type} [Store σ]

def openStore (topic : Bytes) (fuel : Nat) (s : σ) : Option (Except StoreError TopicOffsetStore × σ) :=
  (replay Entries.replayRecord ⟨topic, 0⟩ fuel 0 s []).map fun (res, s') => (res.map fun entries => ⟨topic, entries⟩, s')

def commit (o : TopicOffsetStore) (s : σ) (now : Int64) (group topic : Bytes) (partition : Int32) (offset : Int) :
    Except StoreError Unit × TopicOffsetStore × σ :=
  let key := joinKey group topic partition
  match Store.append s .background now o.pref (commitRecord key offset) with
  | (.error e, s') => (.error e, o, s')
  | (.ok _, s') => (.ok (), { o with entries := o.entries.set key offset }, s')

def lookup (o : TopicOffsetStore) (group topic : Bytes) (partition : Int32) : Int :=
  (List.lookup (joinKey group topic partition) o.entries).getD noOffset

def keysOf (o : TopicOffsetStore) (scanned : Bytes → Bytes) (group : Bytes) : List Bytes :=
  (o.entries.map Prod.fst).filter fun k => decide (groupOf scanned k = group)

def appendTombstones (pref : PartitionRef) (now : Int64) (s : σ) : List Bytes → Except StoreError Unit × σ
  | [] => (.ok (), s)
  | k :: rest =>
    match Store.append s .background now pref (tombstone k) with
    | (.error e, s') => (.error e, s')
    | (.ok _, s') => appendTombstones pref now s' rest

/-- `DeleteGroup`. A Go map is walked in any order: `keys` are those of `keysOf` as they come. -/
def deleteGroup (o : TopicOffsetStore) (s : σ) (now : Int64) (keys : List Bytes) :
    Except StoreError Unit × TopicOffsetStore × σ :=
  match appendTombstones o.pref now s keys with
  | (.error e, s') => (.error e, o, s')
  | (.ok (), s') => (.ok (), { o with entries := keys.foldl Entries.delete o.entries }, s')

end TopicOffsetStore
end Holocron.Groups
