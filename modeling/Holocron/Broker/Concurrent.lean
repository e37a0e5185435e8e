import Holocron.Broker.Broker

/-! Concurrent calls on a disk broker (broker/internal/broker/broker.go, groups/topic_offsets.go). `FileStore.Append` is
    two steps; Publish holds the lock of its partition over both, writers of internal topics hold none. -/

namespace Holocron.Concurrent
open Lib Storage Broker

def encodeOffsetValue (offset : Int) : Bytes := bigEndian 8 (toUnsigned 8 offset)

def commitRecord (key : Bytes) (offset : Int) : Record := ⟨0, 0, some key, some (encodeOffsetValue offset), []⟩

def tombstone (key : Bytes) : Record := ⟨0, 0, some key, none, []⟩

/-- Where a goroutine is; `q` is the internal partition it writes, and a record to append has the offset that was
    read for it. -/
inductive Thread where
  | publish (c : Call)
  | locked (c : Call)
  | append (c : Call) (r : Record)
  | checkpoint (p q : PartitionRef) (now : Int64) (r : Record)
  | persist (p q : PartitionRef) (r : Record)
  | fanOut (p : PartitionRef)
  | offsets (q : PartitionRef) (now : Int64) (todo : List Record)
  | commit (q : PartitionRef) (now : Int64) (r : Record) (todo : List Record)
  | done
  deriving DecidableEq, Repr

namespace Thread

def lock : Thread → Option PartitionRef
  | .locked c | .append c _ => some c.p
  | .checkpoint p _ _ _ | .persist p _ _ | .fanOut p => some p
  | _ => none

def pending : Thread → Option (PartitionRef × Record)
  | .append c r => some (c.p, r)
  | .persist _ q r | .commit q _ r _ => some (q, r)
  | _ => none

def reads : Thread → Option PartitionRef
  | .locked c => some c.p
  | .checkpoint _ q _ _ | .offsets q _ (_ :: _) => some q
  | _ => none

end Thread

structure State where
  broker : Broker FileStore
  offsetsTopic : Bytes
  threads : List Thread

namespace State

def start (b : Broker FileStore) (offsetsTopic : Bytes) : State := ⟨b, offsetsTopic, []⟩

def setThread (s : State) (i : Nat) (t : Thread) : State := { s with threads := s.threads.set i t }

def setStore (s : State) (f : FileStore) : State := { s with broker := { s.broker with store := f } }

def beginAppend (s : State) (i : Nat) (now : Int64) (p : PartitionRef) (r : Record) (next : Record → Thread)
    (failed : Thread) : State :=
  match s.broker.store.openLog p with
  | (.error _, f) => (s.setStore f).setThread i failed
  | (.ok l, f) => (s.setStore f).setThread i (next (stamp now l.highWater r))

def finishAppend (s : State) (p : PartitionRef) (r : Record) : Option State :=
  match s.broker.store.logs p with
  | none => none
  | some l =>
    match l.append r with
    | .error _ => none
    | .ok (_, l') => some (s.setStore (s.broker.store.setLog p l'))

def afterAppend (s : State) (i : Nat) (c : Call) (offset : Int) : State :=
  match producerIdempKey c.record with
  | none => s.setThread i (.fanOut c.p)
  | some (id, seq) =>
    let cp : ProducerCheckpoint := ⟨seq, offset, c.now⟩
    let ps := s.broker.partitions c.p
    let b := s.broker.setPartition c.p { ps with dedup := Function.update ps.dedup id (some cp) }
    let s := { s with broker := b }
    if c.p.topic ≠ b.dedupTopic ∧ b.dedupTopic ≠ [] then
      s.setThread i (.checkpoint c.p ⟨b.dedupTopic, 0⟩ c.now (dedupRecord id c.p cp))
    else s.setThread i (.fanOut c.p)

def run (s : State) (i : Nat) : State :=
  match s.threads[i]? with
  | none => s
  | some t =>
    match t with
    | .publish c =>
      match s.broker.validate c.p with
      | .error _ => s.setThread i .done
      | .ok () => if s.threads.any fun u => decide (u.lock = some c.p) then s else s.setThread i (.locked c)
    | .locked c =>
      let key := producerIdempKey c.record
      let b := s.broker.evictFor key c.now c.p
      let s := { s with broker := b }
      if ((b.partitions c.p).duplicate key).isSome ∨ c.ctx.err.isSome then s.setThread i .done
      else s.beginAppend i c.now c.p (withTimestamp c.now c.record) (.append c) .done
    | .append c r =>
      match s.finishAppend c.p r with
      | none => s.setThread i .done
      | some s => s.afterAppend i c r.offset
    | .checkpoint p q now r => s.beginAppend i now q r (.persist p q) (.fanOut p)
    | .persist p q r => ((s.finishAppend q r).getD s).setThread i (.fanOut p)
    | .fanOut _ => s.setThread i .done
    | .offsets _ _ [] => s.setThread i .done
    | .offsets q now (r :: todo) => s.beginAppend i now q r (fun r => .commit q now r todo) .done
    | .commit q now r todo =>
      match s.finishAppend q r with
      | none => s.setThread i .done
      | some s => s.setThread i (.offsets q now todo)
    | .done => s

end State

inductive Action where
  | publish (c : Call)
  | commit (now : Int64) (key : Bytes) (offset : Int)
  | deleteGroup (now : Int64) (keys : List Bytes)
  | run (i : Nat)

namespace State

def step (s : State) : Action → State
  | .publish c => { s with threads := s.threads ++ [.publish c] }
  | .commit now key offset => { s with threads := s.threads ++ [.offsets ⟨s.offsetsTopic, 0⟩ now [commitRecord key offset]] }
  | .deleteGroup now keys => { s with threads := s.threads ++ [.offsets ⟨s.offsetsTopic, 0⟩ now (keys.map tombstone)] }
  | .run i => s.run i

end State
end Holocron.Concurrent
