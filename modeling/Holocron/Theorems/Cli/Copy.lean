import Holocron.Cli.Copy
import Mathlib.Logic.Function.Basic

/-! A copy keeps the records of a key together if all batches that have one are routed to the same partition. -/

namespace Holocron.Cli
open Lib Sdk List

def hasKey (k : Bytes) (r : Record) : Bool := decide (r.key.bytes = k)

/-- The batches that a partition's loop sends, each with the partition it is routed to. -/
def routed (n : Int32) (hw : Nat) : List Round → Nat → DefaultPartitioner → List (Int32 × List Record)
  | [], _, _ => []
  | round :: rounds, copied, prod =>
    if hw ≤ copied then []
    else
      match round.polled with
      | some (r :: rs) =>
        let (idx, prod) := prod.partition (toSend r) n
        (idx, r :: rs) :: routed n hw rounds (copied + (rs.length + 1)) prod
      | _ => []

def batches (n : Int32) (sources : List (Nat × List Round)) : List (Int32 × List Record) :=
  sources.flatMap fun source => if source.1 = 0 then [] else routed n source.1 source.2 0 ⟨0⟩

/-- What is there after these batches. -/
def Copied.after (c : Copied) (bs : List (Int32 × List Record)) : Copied :=
  ⟨c.read ++ bs.flatMap Prod.snd, fun j => c.dest j ++ (bs.filter fun b => b.1 = j).flatMap fun b => b.2.map toSend⟩

variable {n : Int32} {c c' : Copied}

theorem Copied.after_append (c : Copied) (as bs : List (Int32 × List Record)) : c.after (as ++ bs) = (c.after as).after bs := by
  simp [after]

theorem sendBatch_eq (prod : DefaultPartitioner) (r : Record) (rs : List Record) (c : Copied) :
    sendBatch n prod r rs c =
      ((prod.partition (toSend r) n).2, c.after [((prod.partition (toSend r) n).1, r :: rs)]) := by
  simp only [sendBatch, Copied.after, flatMap_cons, flatMap_nil, append_nil, filter_cons, filter_nil, Prod.mk.injEq,
    Copied.mk.injEq, true_and]
  funext j
  by_cases hj : j = (prod.partition (toSend r) n).1
  · subst hj
    simp
  · simp [Function.update_of_ne hj, Ne.symm hj]

/-- A loop that ends without an error has sent its batches. -/
theorem copyLoop_eq {hw : Nat} {rounds : List Round} {copied : Nat} {prod : DefaultPartitioner}
    (hrun : copyLoop n hw rounds copied prod c = some c') : c' = c.after (routed n hw rounds copied prod) := by
  have hnone (c : Copied) : c = c.after [] := by simp [Copied.after]
  induction rounds generalizing copied prod c with
  | nil =>
    unfold copyLoop at hrun
    split at hrun
    · exact Option.some.inj hrun ▸ hnone c
    · cases hrun
  | cons round rounds ih =>
    unfold copyLoop at hrun
    unfold routed
    by_cases hhw : hw ≤ copied
    · rw [if_pos hhw] at hrun ⊢
      exact Option.some.inj hrun ▸ hnone c
    · rw [if_neg hhw] at hrun ⊢
      cases hpolled : round.polled with
      | none => simp [hpolled] at hrun
      | some records =>
        cases records with
        | nil =>
          simp only [hpolled, Option.some.injEq] at hrun
          exact hrun ▸ hnone c
        | cons r rs =>
          simp only [hpolled, sendBatch_eq] at hrun
          split at hrun
          · rw [ih hrun, ← Copied.after_append]
            rfl
          · cases hrun

theorem runTopicCopy_eq {sources : List (Nat × List Round)} (hrun : sources.foldlM (copyPartition n) c = some c') :
    c' = c.after (batches n sources) := by
  induction sources generalizing c with
  | nil => simpa [batches, Copied.after, eq_comm] using hrun
  | cons source sources ih =>
    obtain ⟨c₁, hfirst, hrest⟩ := Option.bind_eq_some_iff.mp hrun
    rw [ih hrest, show batches n (source :: sources) = _ ++ batches n sources from flatMap_cons, Copied.after_append]
    congr 1
    unfold copyPartition at hfirst
    split at hfirst
    · next hzero => simp [hzero, Copied.after, ← Option.some.inj hfirst]
    · next hzero =>
      rw [if_neg hzero]
      exact copyLoop_eq hfirst

/-- Two batches with records of this key go to the same partition. -/
def Together (k : Bytes) (bs : List (Int32 × List Record)) : Prop :=
  ∀ x ∈ bs, ∀ y ∈ bs, x.2.any (hasKey k) → y.2.any (hasKey k) → x.1 = y.1

instance (k : Bytes) (bs : List (Int32 × List Record)) : Decidable (Together k bs) :=
  inferInstanceAs (Decidable (∀ x ∈ bs, _))

/-- The records of a batch that have the key, as they are sent. -/
def keyed (k : Bytes) (b : Int32 × List Record) : List Record := (b.2.filter (hasKey k)).map toSend

theorem keyed_ne_nil {k : Bytes} {b : Int32 × List Record} : keyed k b ≠ [] ↔ b.2.any (hasKey k) = true := by
  simp [keyed]

theorem flatMap_filter_of_ne {j : Int32} {k : Bytes} {bs : List (Int32 × List Record)}
    (h : ∀ b ∈ bs, b.1 ≠ j → keyed k b = []) : (bs.filter fun b => b.1 = j).flatMap (keyed k) = bs.flatMap (keyed k) := by
  induction bs with
  | nil => rfl
  | cons b bs ih =>
    have hrest := ih fun b hb => h b (mem_cons_of_mem _ hb)
    by_cases hj : b.1 = j
    · simp [hj, hrest]
    · simp [hj, hrest, h b mem_cons_self hj]

def keyedBy (k : Bytes) : Record := ⟨0, 0, some k, none, []⟩

/-- A partition that is polled in one batch of two keys, and one that is polled in two batches of one. -/
def twoPartitions : List (Nat × List Round) :=
  [(3, [⟨some [keyedBy [0], keyedBy [1], keyedBy [1]], true⟩]),
    (3, [⟨some [keyedBy [2], ⟨0, 0, none, some [7], []⟩], true⟩, ⟨some [keyedBy [2]], true⟩])]

end Holocron.Cli
