import Holocron.Storage.Store

/-! Copying a partition from a peer (broker/internal/cluster/sync.go). What the peer's Subscribe brings is a list of the
    choices of the `select`. -/

namespace Holocron.Cluster
open Lib Storage

variable {ε : Type}

inductive SyncEvent (ε : Type) where
  /-- A record; `ctx` is what the append of it finds and `ctx'` what the high-water query after it finds. -/
  | record (r : Record) (now : Int64) (ctx ctx' : Ctx)
  | closed
  | error (e : ε)
  | noError
  | done (e : CtxError)
  deriving DecidableEq, Repr

structure SyncPeer (ε : Type) where
  subscribe : Int → Except ε (List (SyncEvent ε))
  highWater : Except ε Int

inductive SyncError (ε : Type) where
  | peerHighWater (p : PartitionRef) (e : ε)
  | localHighWater (p : PartitionRef) (e : StoreError)
  | subscribePeer (p : PartitionRef) (e : ε)
  | localAppend (p : PartitionRef) (e : StoreError)
  | peerSubscribe (p : PartitionRef) (e : ε)
  | ctx (e : CtxError)
  deriving DecidableEq, Repr

variable {σ : Type} [Store σ]

def syncLoop (s : σ) (p : PartitionRef) (target : Int) (appended : Nat) :
    List (SyncEvent ε) → Option (Nat × Option (SyncError ε)) × σ
  | [] => (none, s)
  | .closed :: _ => (some (appended, none), s)
  | .error e :: _ => (some (appended, some (.peerSubscribe p e)), s)
  | .noError :: rest => syncLoop s p target appended rest
  | .done e :: _ => (some (appended, some (.ctx e)), s)
  | .record r now ctx ctx' :: rest =>
    match Store.append s ctx now p r with
    | (.error e, s) => (some (appended, some (.localAppend p e)), s)
    | (.ok _, s) =>
      match Store.highWater s ctx' p with
      | (.error e, s) => (some (appended + 1, some (.localHighWater p e)), s)
      | (.ok hw, s) => if hw ≥ target then (some (appended + 1, none), s) else syncLoop s p target (appended + 1) rest

def syncPartitionFromPeer (ctx : Ctx) (peer : SyncPeer ε) (s : σ) (p : PartitionRef) :
    Option (Nat × Option (SyncError ε)) × σ :=
  match peer.highWater with
  | .error e => (some (0, some (.peerHighWater p e)), s)
  | .ok target =>
    match Store.highWater s ctx p with
    | (.error e, s) => (some (0, some (.localHighWater p e)), s)
    | (.ok localHW, s) =>
      if localHW ≥ target then (some (0, none), s)
      else
        match peer.subscribe localHW with
        | .error e => (some (0, some (.subscribePeer p e)), s)
        | .ok events => syncLoop s p target 0 events

end Holocron.Cluster
