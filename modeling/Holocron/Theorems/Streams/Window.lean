import Holocron.Lib.Run
import Holocron.Streams.Window

/-! Windowed counts are conserved: what was emitted and what is stored add up to what was counted, if pipeline and
    punctuator do not meet on an entry. -/

namespace Holocron.Streams
open Lib List

@[simp] theorem decodeInt64_encodeInt64 (v : Int64) : decodeInt64 (encodeInt64 v) = v := by
  rw [decodeInt64, encodeInt64, ofBigEndian_bigEndian_of_lt v.toUInt64.toNat_lt]
  simp

@[simp] theorem length_encodeInt64 (v : Int64) : (encodeInt64 v).length = 8 := length_bigEndian 8 _

@[simp] theorem decodeCount_encodeCount (n : UInt64) : decodeCount (encodeCount n) = n := by
  rw [decodeCount, if_neg (by simp [encodeCount]), encodeCount, ofBigEndian_bigEndian_of_lt n.toNat_lt, UInt64.ofNat_toNat]

@[simp] theorem decodeSessionState_encode (s : Session) : decodeSessionState (encodeSessionState s) = some s := by
  have hcount : UInt64.ofNat (ofBigEndian (encodeCount s.count)) = s.count := by
    rw [encodeCount, ofBigEndian_bigEndian_of_lt s.count.toNat_lt, UInt64.ofNat_toNat]
  have hlen : (encodeSessionState s).length = 24 := by simp [encodeSessionState, encodeCount]
  rw [decodeSessionState, if_neg (by simp [hlen]), encodeSessionState, append_assoc, take_left' (length_encodeInt64 _),
    drop_left' (length_encodeInt64 _), take_left' (length_encodeInt64 _), ← append_assoc,
    drop_left' (by simp), hcount, decodeInt64_encodeInt64, decodeInt64_encodeInt64]

@[simp] theorem parseWindowKey_make (k : Bytes) (w : Int64) : parseWindowKey (makeWindowKey k w) = some (k, w) := by
  rw [parseWindowKey, makeWindowKey, if_neg (by simp), take_left' (length_encodeInt64 w), drop_left' (length_encodeInt64 w),
    decodeInt64_encodeInt64]

/-- A counting operator with the count that a stored value stands for. -/
structure Counter extends WindowOp where
  weight : Bytes → Nat
  counts : ∀ cur t, (cur.map weight).getD 0 + 1 < 2 ^ 64 →
    ((update cur t).1.map weight).getD 0 + weight (update cur t).2 = (cur.map weight).getD 0 + 1

namespace Counter

def windowed (size advance : Int64) (starts : Int64 → List Int64) : Counter where
  toWindowOp := Streams.windowed size advance starts
  weight v := (decodeCount v).toNat
  counts cur t h := by
    have hzero : decodeCount [] = 0 := rfl
    cases cur <;> simp_all [Streams.windowed, UInt64.toNat_add]

def tumbling (size : Int64) : Counter := { windowed size size fun t => [t / size * size] with toWindowOp := tumblingCount size }

def hopping (size advance : Int64) : Counter :=
  { windowed size advance (hoppingStarts size advance) with toWindowOp := hoppingCount size advance }

def session (gap : Int64) : Counter where
  toWindowOp := sessionCount gap
  weight v := ((decodeSessionState v).map fun s => s.count.toNat).getD 0
  counts cur t h := by
    cases hcur : cur.bind decodeSessionState with
    | none =>
      obtain rfl | ⟨v, rfl⟩ : cur = none ∨ ∃ v, cur = some v := by cases cur <;> simp
      · simp [sessionCount]
      · simp only [Option.bind_some] at hcur
        simp [sessionCount, hcur]
    | some s =>
      obtain ⟨v, rfl, hv⟩ := Option.bind_eq_some_iff.mp hcur
      simp only [sessionCount, hcur, Option.map_some, Option.getD_some, hv] at h ⊢
      split <;> simp_all [UInt64.toNat_add]

variable {c : Counter} {sub : SubStore} (keep : Bytes → Bool)

def stored (c : Counter) (sub : SubStore) (k : Bytes) : Nat := ((sub.get k).map c.weight).getD 0

theorem total_put (hsub : sub.keys.Nodup) {k : Bytes} (small : c.stored sub k + 1 < 2 ^ 64) (t : Int64) :
    Assoc.total keep c.weight ((c.update (sub.get k) t).1.toList.map (Prod.mk k)) + Assoc.total keep c.weight
      (sub.set k (c.update (sub.get k) t).2) = Assoc.total keep c.weight sub + if keep k then 1 else 0 := by
  have hcounts := c.counts (sub.get k) t small
  have hemits : Assoc.total keep c.weight ((c.update (sub.get k) t).1.toList.map (Prod.mk k)) =
      if keep k then ((c.update (sub.get k) t).1.map c.weight).getD 0 else 0 := by
    cases (c.update (sub.get k) t).1 <;> by_cases hk : keep k <;> simp [Assoc.total, hk]
  rw [hemits, Assoc.total_set, Assoc.total_delete hsub k]
  by_cases hk : keep k
  · simp only [hk, if_true]
    omega
  · simp [hk]

end Counter

namespace Racing

variable {c : Counter} {s : Racing}

/-- What is put or deleted is what Get or Range found (and counts stay within 64 bits). -/
def Undisturbed (s : Racing) : RaceStep → Prop
  | .put => ∀ x ∈ s.got, s.sub.get x.1 = x.2.1 ∧ s.counted.length + 1 < 2 ^ 64
  | .sweep => ∀ e ∈ s.sweeping.head?, s.sub.get e.1 = some e.2
  | .delete => ∀ e ∈ s.closing.head?, s.sub.get e.1 = some e.2
  | _ => True

instance (s : Racing) : (a : RaceStep) → Decidable (s.Undisturbed a)
  | .put => inferInstanceAs (Decidable (∀ x ∈ s.got, _))
  | .sweep => inferInstanceAs (Decidable (∀ e ∈ s.sweeping.head?, _))
  | .delete => inferInstanceAs (Decidable (∀ e ∈ s.closing.head?, _))
  | .get _ _ | .scan _ _ | .range _ => .isTrue trivial

structure Conserved (c : Counter) (s : Racing) : Prop where
  nodup : s.sub.keys.Nodup
  sum : ∀ keep, Assoc.total keep c.weight s.emitted + Assoc.total keep c.weight s.sub = s.counted.countP keep

theorem Conserved.start : Conserved c start := ⟨nodup_nil, fun _ => rfl⟩

theorem Conserved.stored_le (h : Conserved c s) (k : Bytes) : c.stored s.sub k ≤ s.counted.length := by
  have hsum := h.sum fun x => decide (x = k)
  rw [Assoc.total_delete h.nodup k, if_pos (decide_eq_true rfl)] at hsum
  have hle := countP_le_length (p := fun x => decide (x = k)) (l := s.counted)
  unfold Counter.stored
  omega

theorem Conserved.remove (h : Conserved c s) {e : Entry} (found : s.sub.get e.1 = some e.2) : Conserved c (s.remove e) := by
  refine ⟨Assoc.nodup_delete h.nodup e.1, fun keep => ?_⟩
  have hsum := h.sum keep
  have hone : Assoc.total keep c.weight [e] = if keep e.1 then c.weight e.2 else 0 := by
    by_cases hk : keep e.1 <;> simp [Assoc.total, hk]
  rw [Assoc.total_delete h.nodup e.1, found] at hsum
  rw [Racing.remove, Assoc.total_append, hone]
  simpa [Nat.add_assoc] using hsum

theorem Conserved.step (h : Conserved c s) {a : RaceStep} (undisturbed : s.Undisturbed a) :
    Conserved c (s.step c.toWindowOp a) := by
  cases a with
  | get k t =>
    rw [Racing.step]
    split
    · exact ⟨h.nodup, h.sum⟩
    · exact h
  | put =>
    rw [Racing.step]
    cases hgot : s.got with
    | none => exact h
    | some x =>
      obtain ⟨k, cur, t⟩ := x
      obtain ⟨hcur, hsmall⟩ : s.sub.get k = cur ∧ _ := undisturbed _ hgot
      subst hcur
      refine ⟨Assoc.nodup_set h.nodup k _, fun keep => ?_⟩
      have hput := Counter.total_put keep h.nodup (Nat.lt_of_le_of_lt (Nat.succ_le_succ (h.stored_le k)) hsmall) t
      have hsum := h.sum keep
      rw [Assoc.total_append, countP_append, countP_singleton, Nat.add_assoc, hput]
      omega
  | scan t w =>
    rw [Racing.step]
    split
    · exact ⟨h.nodup, h.sum⟩
    · exact h
  | sweep =>
    rw [Racing.step]
    cases hsweeping : s.sweeping with
    | nil => exact h
    | cons e sweeping =>
      have hremove := h.remove (undisturbed e (by rw [hsweeping]; rfl))
      exact ⟨hremove.nodup, hremove.sum⟩
  | range w =>
    rw [Racing.step]
    split
    · exact ⟨h.nodup, h.sum⟩
    · exact h
  | delete =>
    rw [Racing.step]
    cases hclosing : s.closing with
    | nil => exact h
    | cons e closing =>
      have hremove := h.remove (undisturbed e (by rw [hclosing]; rfl))
      exact ⟨hremove.nodup, hremove.sum⟩

/-- Where the pipeline and the punctuator find what they have read, the counts emitted and stored for any choice of
    entries are those counted. -/
theorem race_conserves (c : Counter) {steps : List RaceStep}
    (undisturbed : Along (step c.toWindowOp) start steps Undisturbed) (keep : Bytes → Bool) :
    Assoc.total keep c.weight (steps.foldl (step c.toWindowOp) start).emitted +
      Assoc.total keep c.weight (steps.foldl (step c.toWindowOp) start).sub =
        (steps.foldl (step c.toWindowOp) start).counted.countP keep :=
  (undisturbed.invariant (fun _ s => Conserved c s) (fun _ _ _ h cond => h.step cond) .start).sum keep

/-- The second record closes the first one's window, and a tick closes its own. -/
def sweptAndTicked : List RaceStep :=
  [.get (makeWindowKey [1] 0) 5, .put, .scan 5 5, .get (makeWindowKey [1] 10) 15, .put, .scan 15 15, .sweep,
    .range 100, .delete]

theorem race_conserves_tick :
    let s := sweptAndTicked.foldl (step (tumblingCount 10)) start
    Assoc.total (fun _ => true) (Counter.tumbling 10).weight s.emitted +
      Assoc.total (fun _ => true) (Counter.tumbling 10).weight s.sub = s.counted.countP fun _ => true :=
  race_conserves (Counter.tumbling 10)
    (show Along (step (tumblingCount 10)) start sweptAndTicked Undisturbed by decide +kernel) _

/-- Between Get and Put of the second record a tick emits the count 1; the Put then stores 2. -/
theorem race_doubles :
    let s := [.get (makeWindowKey [1] 0) 5, .put, .scan 5 6, .get (makeWindowKey [1] 0) 6, .range 100, .delete,
      .put].foldl (step (tumblingCount 10)) start
    Assoc.total (fun _ => true) (Counter.tumbling 10).weight s.emitted = 1 ∧
      Assoc.total (fun _ => true) (Counter.tumbling 10).weight s.sub = 2 ∧ s.counted.length = 2 := by
  decide +kernel

end Racing
end Holocron.Streams
