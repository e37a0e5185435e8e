import Holocron.Groups.OffsetStores

/-! Concurrent Commit and DeleteGroup calls on one store of committed offsets (broker/internal/groups/offsets.go, topic_offsets.go), by their stages.
    -/

namespace Holocron.Groups
open Lib Storage Concurrent

inductive OffsetUpdate where
  | commit (group topic : Bytes) (partition : Int32) (offset : Int64)
  | deleteGroup (group : Bytes)
  deriving DecidableEq, Repr

namespace JSONOffsetStore

/-- `n` is the number of the call's update among all that were made under the lock, kept for the specification. -/
inductive Stage where
  | called (u : OffsetUpdate)
  | snapped (n : Nat) (snapshot : List OffsetKey)
  | written (n : Nat)
  | returned (n : Nat)
  | failed (n : Nat)
  deriving DecidableEq, Repr

structure State (δ : Type) where
  entries : Entries
  disk : OffsetFile δ
  updates : Nat
  calls : List Stage

inductive Action where
  | call (u : OffsetUpdate)
  | run (walk : Walk) (i : Nat)

variable {δ : Type}

def apply (scan : Scan) (entries : Entries) : OffsetUpdate → Entries
  | .commit group topic partition offset => entries.set (joinKey group topic partition) offset.toInt
  | .deleteGroup group => deleteGroupEntries scan entries group

namespace State

def advance (J : OffsetJson δ) (scan : Scan) (walk : Walk) (s : State δ) (i : Nat) : Stage → State δ
  | .called u =>
    let entries := apply scan s.entries u
    ⟨entries, s.disk, s.updates + 1, s.calls.set i (.snapped s.updates (snapshotLocked scan walk entries))⟩
  | .snapped n snapshot => { s with disk := s.disk.write (J.marshalIndent snapshot), calls := s.calls.set i (.written n) }
  | .written n =>
    match s.disk.rename with
    | none => { s with calls := s.calls.set i (.failed n) }
    | some disk => { s with disk := disk, calls := s.calls.set i (.returned n) }
  | .returned _ | .failed _ => s

def step (J : OffsetJson δ) (scan : Scan) (s : State δ) : Action → State δ
  | .call u => { s with calls := s.calls ++ [.called u] }
  | .run walk i =>
    match s.calls[i]? with
    | none => s
    | some c => s.advance J scan walk i c

end State
end JSONOffsetStore

namespace TopicOffsetStore

/-- A row of the topic: a key and the offset that is committed for it, or none for a tombstone. -/
abbrev Row := Bytes × Option Int

def rowRecord (r : Row) : Record :=
  match r.2 with
  | none => tombstone r.1
  | some offset => commitRecord r.1 offset

def applyRow (entries : Entries) (r : Row) : Entries :=
  match r.2 with
  | none => entries.delete r.1
  | some offset => entries.set r.1 offset

/-- `done` are the rows that the call has appended, with the offsets they got. -/
inductive Stage where
  | deleting (group : Bytes)
  | appending (done : List (Row × Int)) (todo : List Row)
  | returned (done : List (Row × Int))
  | failed (done : List (Row × Int))
  deriving DecidableEq, Repr

structure State (σ : Type) where
  topic : Bytes
  entries : Entries
  store : σ
  calls : List Stage

inductive Action where
  | call (u : OffsetUpdate)
  | run (walk : Walk) (now : Int64) (i : Nat)

namespace State

variable {σ : Type} [Store σ]

def pref (s : State σ) : PartitionRef := ⟨s.topic, 0⟩

def advance (scan : Scan) (walk : Walk) (now : Int64) (s : State σ) (i : Nat) : Stage → State σ
  | .deleting group =>
    let keys := walkedKeys ⟨s.topic, s.entries⟩ scan walk group
    { s with calls := s.calls.set i (.appending [] (keys.map fun k => (k, none))) }
  | .appending done (r :: todo) =>
    match Store.append s.store .background now s.pref (rowRecord r) with
    | (.error _, store) => { s with store := store, calls := s.calls.set i (.failed done) }
    | (.ok n, store) => { s with store := store, calls := s.calls.set i (.appending (done ++ [(r, n)]) todo) }
  | .appending done [] =>
    { s with entries := (done.map Prod.fst).foldl applyRow s.entries, calls := s.calls.set i (.returned done) }
  | .returned _ | .failed _ => s

def step (scan : Scan) (s : State σ) : Action → State σ
  | .call (.commit group topic partition offset) =>
    { s with calls := s.calls ++ [.appending [] [(joinKey group topic partition, some offset.toInt)]] }
  | .call (.deleteGroup group) => { s with calls := s.calls ++ [.deleting group] }
  | .run walk now i =>
    match s.calls[i]? with
    | none => s
    | some c => s.advance scan walk now i c

end State
end TopicOffsetStore
end Holocron.Groups
