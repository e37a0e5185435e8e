import Holocron.Storage.Store

/-! The replay loop of `hydrateDedupFromTopic` (broker/embed/bootstrap.go) and `TopicOffsetStore.replay`
    (broker/internal/groups/topic_offsets.go). -/

namespace Holocron.Storage

def replayBatch : Int := 256

/-- Read on from `cursor` in batches and take in record after record, until a batch is empty. The fuel counts the
    reads; without it there is no result. -/
def replay {σ α : Type} [Store σ] (take : α → Record → α) (p : PartitionRef) :
    Nat → Int → σ → α → Option (Except StoreError α × σ)
  | 0, _, _, _ => none
  | fuel + 1, cursor, s, a =>
    match Store.read s .background p cursor replayBatch with
    | (.error e, s') => some (.error e, s')
    | (.ok records, s') =>
      match records.getLast? with
      | none => some (.ok a, s')
      | some last => replay take p fuel (last.offset + 1) s' (records.foldl take a)

end Holocron.Storage
