import Holocron.Log.Compact
import Holocron.Storage.Store

/-! The sweeper of a disk broker (broker/internal/storage/file.go, runRetention in broker/embed/embed.go). -/

namespace Holocron.Storage
open Lib Log

namespace FileStore

def forEach (f : PartitionLog → Option LogError × PartitionLog) : List PartitionRef → FileStore → FileStore
  | [], s => s
  | p :: rest, s =>
    match s.logs p with
    | none => forEach f rest s
    | some l =>
      match f l with
      | (some _, l') => s.setLog p l'
      | (none, l') => forEach f rest (s.setLog p l')

def enforceRetention (s : FileStore) (now retention : Int64) (order : List PartitionRef) : FileStore :=
  if retention ≤ 0 then s
  else forEach (fun l => let (res, l') := l.enforceTimeRetention (now - retention); (res.2, l')) order s

def enforceSizeRetention (s : FileStore) (maxBytes : Int64) (order : List PartitionRef) : FileStore :=
  if maxBytes ≤ 0 then s
  else forEach (fun l => (none, (l.enforceSizeRetention maxBytes.toInt).2)) order s

def compact (s : FileStore) (order : List PartitionRef) : FileStore :=
  forEach (fun l =>
    match l.compact with
    | .error e => (some e, l)
    | .ok (_, l') => (none, l')) order s

end FileStore

structure Sweeper where
  retention : Int64
  retentionBytes : Int64
  compactionEnabled : Bool
  deriving DecidableEq, Repr

structure Orders where
  time : List PartitionRef
  size : List PartitionRef
  compaction : List PartitionRef
  deriving DecidableEq, Repr

def Sweeper.tick (w : Sweeper) (now : Int64) (orders : Orders) (s : FileStore) : FileStore :=
  let s := if 0 < w.retention then s.enforceRetention now w.retention orders.time else s
  let s := if 0 < w.retentionBytes then s.enforceSizeRetention w.retentionBytes orders.size else s
  if w.compactionEnabled then s.compact orders.compaction else s

end Holocron.Storage
