import Holocron.Streams.Changelog

/-! A table over the lives of its topology (streams/ktable.go, streams/store.go). The consumer is alone in its group. -/

namespace Holocron.Streams
open Lib Sdk Storage

inductive Substore where
  | memory (entries : Bytes → Option Bytes)
  | changelog (c : ChangelogStore)

namespace Substore

variable {σ : Type} [Store σ]

def entries : Substore → Bytes → Option Bytes
  | .memory entries => entries
  | .changelog c => c.entries

def get (sub : Substore) (key : Slice) : Option Bytes := sub.entries (Slice.bytes key)

def put (link : Link) (s : σ) (now : Int64) (key value : Slice) : Substore → Substore × σ
  | .memory entries => (.memory (Function.update entries (Slice.bytes key) (some (Slice.bytes value))), s)
  | .changelog c =>
    let (c, s) := c.put link s now key value
    (.changelog c, s)

def delete (link : Link) (s : σ) (now : Int64) (key : Slice) : Substore → Substore × σ
  | .memory entries => (.memory (Function.update entries (Slice.bytes key) none), s)
  | .changelog c =>
    let (c, s) := c.delete link s now key
    (.changelog c, s)

end Substore

structure KTable where
  source : Bytes
  storeName : Bytes
  partitions : Int
  useChangelog : Bool
  link : Link

namespace KTable

/-- The partition is one of the source. -/
def Has (t : KTable) (p : Int32) : Prop := 0 ≤ p.toInt ∧ p.toInt < t.partitions

instance (t : KTable) (p : Int32) : Decidable (t.Has p) := inferInstanceAs (Decidable (_ ∧ _))

def sourceRef (t : KTable) (p : Int32) : PartitionRef := ⟨t.source, p⟩

def changelogRef (t : KTable) (p : Int32) : PartitionRef := ⟨t.storeName ++ utf8 "-changelog", p⟩

inductive Stage where
  | polling
  | applying (todo : List (Int32 × Record))
  | committing (todo : List (Int32 × Int))
  | ended

structure Run where
  next : Int32 → Int
  latest : Int32 → Option Int
  queue : List (Int32 × Record)
  /-- The offset after the last record that the loop has applied; kept for the specification only. -/
  position : Int32 → Int
  parts : Int32 → Option Substore
  stage : Stage

def Run.get (run : Run) (order : List Int32) (key : Slice) : Option Bytes :=
  order.findSome? fun p => (run.parts p).bind fun sub => sub.get key

structure State (σ : Type) where
  store : σ
  committed : Int32 → Option Int
  run : Option Run

inductive Committed where
  | done
  /-- The offset is stored, but the call returns an error. -/
  | lost
  | failed
  deriving DecidableEq, Repr

inductive Action where
  | produce (now : Int64) (p : Int32) (r : Record)
  | start (feeds : Int32 → Feed)
  | receive (p : Int32)
  | poll (n : Nat)
  | pollFails
  | apply (now : Int64) (reached : Bool)
  | latestOffsets (order : List Int32)
  | commit (result : Committed)
  | stop

variable {σ : Type} [Store σ]

/-- `factory` in changelog mode. A replay always returns: one deadline holds for all of it. -/
def openSubstore (t : KTable) (feed : Feed) (p : Int32) : Substore :=
  match openChangelogStorePartition (some feed) t.storeName p.toInt with
  | some (.ok c) => .changelog c
  | _ => .memory fun _ => none

/-- `openStoreLocked`: in changelog mode every partition is opened at once. -/
def openStore (t : KTable) (feeds : Int32 → Feed) (p : Int32) : Option Substore :=
  if t.useChangelog = true ∧ t.Has p then some (t.openSubstore (feeds p) p) else none

/-- A record as a pump receives it. The wire keeps its offset, which is an `int64`. -/
def deliver (t : KTable) (r : Record) : Option Record := (t.link.carry r).map fun r' => { r' with offset := r.offset }

/-- `For` and what the loop does with a record: a record without a key is skipped, one without a value deletes. -/
def applyRecord (t : KTable) (parts : Int32 → Option Substore) (s : σ) (now : Int64) (reached : Bool) (p : Int32)
    (r : Record) : (Int32 → Option Substore) × σ :=
  if Slice.bytes r.key = [] then (parts, s)
  else
    let sub := (parts p).getD (.memory fun _ => none)
    let (sub', s') :=
      match r.value with
      | none => sub.delete t.link s now r.key
      | some v => sub.put t.link s now r.key (some v)
    (Function.update parts p (some sub'), if reached then s' else s)

def commits : List (Int32 × Int) → Stage
  | [] => .polling
  | todo => .committing todo

def batchLimit : Nat := 256

namespace Run

/-- The pump gets the first record after those it has, as over the network. In process `Subscribe` sends records behind a
    gap again, which is left out. -/
def receive (t : KTable) (run : Run) (s : σ) (p : Int32) : Run × σ :=
  match Store.read s .background (t.sourceRef p) (run.next p) 1 with
  | (.ok (r :: _), s') =>
    match t.deliver r with
    | none => (run, s')
    | some r' =>
      ({ run with
          next := Function.update run.next p (r.offset + 1)
          latest := Function.update run.latest p (some r.offset)
          queue := run.queue ++ [(p, r')] }, s')
  | (_, s') => (run, s')

def poll (run : Run) (n : Nat) : Run :=
  match run.stage, run.queue.take (min n batchLimit) with
  | .polling, x :: rest => { run with queue := run.queue.drop (min n batchLimit), stage := .applying (x :: rest) }
  | _, _ => run

def pollFails (run : Run) : Run :=
  match run.stage with
  | .polling => { run with stage := .ended }
  | _ => run

def apply (t : KTable) (run : Run) (s : σ) (now : Int64) (reached : Bool) : Run × σ :=
  match run.stage with
  | .applying ((p, r) :: todo) =>
    let (parts, s) := t.applyRecord run.parts s now reached p r
    ({ run with position := Function.update run.position p (r.offset + 1), parts := parts, stage := .applying todo }, s)
  | _ => (run, s)

def latestOffsets (run : Run) (order : List Int32) : Run :=
  match run.stage with
  | .applying [] => { run with stage := commits (order.filterMap fun p => (run.latest p).map fun offset => (p, offset + 1)) }
  | _ => run

def commit (run : Run) (committed : Int32 → Option Int) (result : Committed) : Run × (Int32 → Option Int) :=
  match run.stage with
  | .committing ((p, offset) :: todo) =>
    match result with
    | .done => ({ run with stage := commits todo }, Function.update committed p (some offset))
    | .lost => ({ run with stage := .ended }, Function.update committed p (some offset))
    | .failed => ({ run with stage := .ended }, committed)
  | _ => (run, committed)

/-- Stop waits for the loop, which sees the cancelled context in Poll or in Commit. -/
def stop (run : Run) : Option Run :=
  match run.stage with
  | .polling | .ended => none
  | _ => some run

end Run

namespace State

def offset (s : State σ) (p : Int32) : Int := (s.committed p).getD 0

def start (t : KTable) (s : State σ) (feeds : Int32 → Feed) : Run :=
  ⟨s.offset, fun _ => none, [], s.offset, t.openStore feeds, .polling⟩

end State

def step (t : KTable) (s : State σ) : Action → State σ
  | .produce now p r => if t.Has p then { s with store := (t.link.publish s.store now (t.sourceRef p) r).2 } else s
  | .start feeds =>
    match s.run with
    | none => { s with run := some (s.start t feeds) }
    | some _ => s
  | .receive p =>
    match s.run with
    | none => s
    | some run =>
      if t.Has p then
        let (run, store) := run.receive t s.store p
        { s with store := store, run := some run }
      else s
  | .poll n => { s with run := s.run.map fun run => run.poll n }
  | .pollFails => { s with run := s.run.map Run.pollFails }
  | .apply now reached =>
    match s.run with
    | none => s
    | some run =>
      let (run, store) := run.apply t s.store now reached
      { s with store := store, run := some run }
  | .latestOffsets order => { s with run := s.run.map fun run => run.latestOffsets order }
  | .commit result =>
    match s.run with
    | none => s
    | some run =>
      let (run, committed) := run.commit s.committed result
      { s with committed := committed, run := some run }
  | .stop => { s with run := s.run.bind Run.stop }

end KTable

end Holocron.Streams
