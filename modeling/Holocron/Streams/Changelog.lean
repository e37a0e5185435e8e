import Holocron.Proto.Wire
import Holocron.Sdk.Drain
import Holocron.Storage.Sweep

/-! The changelog store (streams/changelog.go): a map in memory whose changes are written to a partition of a topic. -/

namespace Holocron.Streams
open Lib Sdk Storage

/-- How a client reaches a broker: in its own process or over the network. -/
inductive Link where
  | embedded
  | network
  deriving DecidableEq, Repr

def Link.carry : Link → Record → Option Record
  | .embedded, r => some r
  | .network, r =>
    match Wire.decodeRecord (Wire.encodeRecord r) with
    | .error _ => none
    | .ok (r', _) => some r'

inductive PublishError where
  | wire
  | store (e : StoreError)
  deriving DecidableEq, Repr

def Link.publish {σ : Type} [Store σ] (link : Link) (s : σ) (now : Int64) (p : PartitionRef) (r : Record) :
    Except PublishError Int × σ :=
  match link.carry r with
  | none => (.error .wire, s)
  | some r =>
    match Store.append s .background now p r with
    | (.error e, s') => (.error (.store e), s')
    | (.ok offset, s') => (.ok offset, s')

/-- A store whose partitions are compacted one by one. -/
class Compactable (σ : Type) where
  compact : σ → PartitionRef → σ

instance : Compactable FileStore := ⟨fun s p => s.compact [p]⟩

instance : Compactable MemoryStore := ⟨fun s _ => s⟩

structure ChangelogStore where
  topic : Bytes
  partition : Int32
  entries : Bytes → Option Bytes

inductive OpenError where
  | noTransport
  | noName
  | negativePartition
  | replay (topic : Bytes) (partition : Int) (e : ReplayError)
  deriving DecidableEq, Repr

/-- No transport is the nil interface. -/
def openChangelogStorePartition (transport : Option Feed) (name : Bytes) (partition : Int) :
    Option (Except OpenError ChangelogStore) :=
  match transport with
  | none => some (.error .noTransport)
  | some feed =>
    if name = [] then some (.error .noName)
    else if partition < 0 then some (.error .negativePartition)
    else
      let topic := name ++ utf8 "-changelog"
      match replay some feed with
      | none => none
      | some (.error e) => some (.error (.replay topic partition e))
      | some (.ok entries) => some (.ok ⟨topic, Int32.ofInt partition, entries⟩)

def putRecord (key value : Slice) : Record := ⟨0, 0, some (Slice.bytes key), some (Slice.bytes value), []⟩

def deleteRecord (key : Slice) : Record := ⟨0, 0, some (Slice.bytes key), none, []⟩

namespace ChangelogStore

variable {σ : Type} [Store σ]

def pref (c : ChangelogStore) : PartitionRef := ⟨c.topic, c.partition⟩

def get (c : ChangelogStore) (key : Slice) : Option Bytes := c.entries (Slice.bytes key)

/-- Set the entry, then publish; nobody hears of an error. -/
def put (c : ChangelogStore) (link : Link) (s : σ) (now : Int64) (key value : Slice) : ChangelogStore × σ :=
  ({ c with entries := Function.update c.entries (Slice.bytes key) (some (Slice.bytes value)) },
    (link.publish s now c.pref (putRecord key value)).2)

def delete (c : ChangelogStore) (link : Link) (s : σ) (now : Int64) (key : Slice) : ChangelogStore × σ :=
  ({ c with entries := Function.update c.entries (Slice.bytes key) none }, (link.publish s now c.pref (deleteRecord key)).2)

end ChangelogStore

structure Live (σ : Type) where
  changelog : ChangelogStore
  store : σ

inductive ChangelogOp where
  | put (now : Int64) (key value : Slice)
  | delete (now : Int64) (key : Slice)
  | compact
  deriving DecidableEq, Repr

def Live.step {σ : Type} [Store σ] [Compactable σ] (link : Link) (l : Live σ) : ChangelogOp → Live σ
  | .put now key value =>
    let (changelog, store) := l.changelog.put link l.store now key value
    ⟨changelog, store⟩
  | .delete now key =>
    let (changelog, store) := l.changelog.delete link l.store now key
    ⟨changelog, store⟩
  | .compact => { l with store := Compactable.compact l.store l.changelog.pref }

end Holocron.Streams
