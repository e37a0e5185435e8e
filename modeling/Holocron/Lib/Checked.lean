import Holocron.Lib.Bytes

/-! Computations on byte strings whose index and slice expressions are checked as Go checks them. -/

namespace Lib
open List

/-- How a computation ends early: with an error, or at an expression out of range. -/
inductive Stop (ε : Type) where
  | err (e : ε)
  | fault
  deriving DecidableEq, Repr

abbrev Checked (ε : Type) := Except (Stop ε)

namespace Checked

variable {ε α β : Type}

def fail (e : ε) : Checked ε α := .error (.err e)

def part (b : Bytes) (i j : Nat) : Bytes := (b.drop i).take (j - i)

def sliceBetween (b : Bytes) (i j : Nat) : Checked ε Bytes := if i ≤ j ∧ j ≤ b.length then .ok (part b i j) else .error .fault

def sliceFrom (b : Bytes) (i : Nat) : Checked ε Bytes := if i ≤ b.length then .ok (b.drop i) else .error .fault

def onRest (f : Bytes → Checked ε α) (b : Bytes) (i : Nat) : Checked ε α := sliceFrom b i >>= f

def index (b : Bytes) (i : Nat) : Checked ε UInt8 := if i < b.length then .ok (b.getD i 0) else .error .fault

abbrev Cursor (ε : Type) := StateT Bytes (Checked ε)

namespace Cursor

def need (n : Nat) (e : ε) : Cursor ε Unit := fun b => if b.length < n then fail e else .ok ((), b)

def field (i j : Nat) : Cursor ε Bytes := fun b => (sliceBetween b i j).map fun x => (x, b)

def byte (i : Nat) : Cursor ε UInt8 := fun b => (index b i).map fun x => (x, b)

def skip (n : Nat) : Cursor ε Unit := fun b => (sliceFrom b n).map fun b => ((), b)

def next (f : Bytes → Checked ε (α × Nat)) : Cursor ε α := fun b =>
  match f b with
  | .error s => .error s
  | .ok (x, n) => (sliceFrom b n).map fun b => (x, b)

def peek (f : Bytes → Checked ε (α × Nat)) : Cursor ε α := fun b => (f b).map fun r => (r.1, b)

def times (d : Cursor ε α) : Nat → Cursor ε (List α)
  | 0 => return []
  | count + 1 => do
    let x ← d
    let rest ← times d count
    return x :: rest

end Cursor

def relabel {δ : Type} (f : ε → δ) : Checked ε α → Checked δ α
  | .ok x => .ok x
  | .error (.err e) => .error (.err (f e))
  | .error .fault => .error .fault

section Relabel

variable {δ : Type} (f : ε → δ)

@[simp] theorem relabel_bind (x : Checked ε α) (k : α → Checked ε β) :
    relabel f (x >>= k) = relabel f x >>= fun a => relabel f (k a) := by
  rcases x with (e | _) | a <;> rfl

@[simp] theorem relabel_sliceBetween (b : Bytes) (i j : Nat) : relabel f (sliceBetween b i j) = sliceBetween b i j := by
  unfold sliceBetween
  split <;> rfl

@[simp] theorem relabel_ite (c : Prop) [Decidable c] (x y : Checked ε α) :
    relabel f (if c then x else y) = if c then relabel f x else relabel f y := by
  split <;> rfl

end Relabel

variable {b : Bytes} {d : Cursor ε α} {p : StateT Bytes (Except ε) α} {i n j : Nat} {r' : Except ε (α × Bytes)} {e : ε}

theorem sliceBetween_of_le (hij : i ≤ j) (hj : j ≤ b.length) : (sliceBetween b i j : Checked ε Bytes) = .ok (part b i j) :=
  if_pos ⟨hij, hj⟩

theorem sliceFrom_of_le (h : i ≤ b.length) : (sliceFrom b i : Checked ε Bytes) = .ok (b.drop i) := if_pos h

theorem Cursor.need_of_le (h : n ≤ b.length) : Cursor.need n e b = .ok ((), b) := if_neg (Nat.not_lt.mpr h)

theorem Cursor.need_of_lt (h : b.length < n) : Cursor.need n e b = .error (.err e) := if_pos h

theorem Cursor.field_of_le (hij : i ≤ j) (hj : j ≤ b.length) : (Cursor.field i j : Cursor ε Bytes) b = .ok (part b i j, b) := by
  rw [field, sliceBetween_of_le hij hj]
  rfl

theorem Cursor.skip_of_le (h : n ≤ b.length) : (Cursor.skip n : Cursor ε Unit) b = .ok ((), b.drop n) := by
  rw [skip, sliceFrom_of_le h]
  rfl

@[simp] theorem part_zero (b : Bytes) (j : Nat) : part b 0 j = b.take j := rfl

theorem part_append {x : Bytes} (hij : i ≤ j) (hj : j ≤ x.length) : part (x ++ b) i j = part x i j := by
  rw [part, part, drop_append_of_le_length (by omega), take_append_of_le_length (by rw [length_drop]; omega)]

/-- The two end in the same way, and what is left to read is below the limit; `keep` is whether it has to be the same. -/
inductive Matches (lim : Nat) (keep : Bool) : Checked ε (α × Bytes) → Except ε (α × Bytes) → Prop where
  | ok (x : α) {b t : Bytes} (same : keep = true → b = t) (below : t.length < lim) : Matches lim keep (.ok (x, b)) (.ok (x, t))
  | err (e : ε) : Matches lim keep (.error (.err e)) (.error e)

theorem Matches.value {lim : Nat} {keep : Bool} {r : Checked ε (α × Bytes)} (h : Matches lim keep r r') :
    r.map Prod.fst = (r'.map Prod.fst).mapError .err := by
  cases h <;> rfl

def Agrees (lim : Nat) (keep : Bool) (d : Cursor ε α) (p : StateT Bytes (Except ε) α) : Prop :=
  ∀ b, b.length < lim → Matches lim keep (d b) (p b)

/-- The two end in the same way, the one at a position of the buffer, the other with what is left from there. -/
def Follows (b : Bytes) (pos : Nat → Nat) (r : Checked ε (α × Nat)) (r' : Except ε (α × Bytes)) : Prop :=
  (∃ x n, pos n ≤ b.length ∧ r = .ok (x, n) ∧ r' = .ok (x, b.drop (pos n))) ∨ ∃ e, r = .error (.err e) ∧ r' = .error e

/-- The function returns the value that the reader takes off the front, and the number of bytes that takes. -/
def Reads (lim : Nat) (f : Bytes → Checked ε (α × Nat)) (p : StateT Bytes (Except ε) α) : Prop :=
  ∀ b, b.length < lim → (∃ x n, n ≤ b.length ∧ f b = .ok (x, n) ∧ p b = .ok (x, b.drop n)) ∨ ∃ e,
    f b = .error (.err e) ∧ p b = .error e

theorem Follows.bind {pos pos' : Nat → Nat} {r : Checked ε (α × Nat)} {f : α × Nat → Checked ε (β × Nat)}
    {g : α × Bytes → Except ε (β × Bytes)} (h : Follows b pos r r')
    (hf : ∀ x n, pos n ≤ b.length → Follows b pos' (f (x, n)) (g (x, b.drop (pos n)))) :
      Follows b pos' (r.bind f) (r'.bind g) := by
  rcases h with ⟨x, n, hn, rfl, rfl⟩ | ⟨e, rfl, rfl⟩
  · exact hf x n hn
  · exact .inr ⟨e, rfl, rfl⟩

variable {lim : Nat} {keep : Bool}

theorem Agrees.pure (x : α) : Agrees (ε := ε) lim keep (pure x) (pure x) := fun _ hb => .ok x (fun _ => rfl) hb

theorem Agrees.bind {f : α → Cursor ε β} {g : α → StateT Bytes (Except ε) β} (hd : Agrees lim true d p)
    (hf : ∀ x, Agrees lim keep (f x) (g x)) : Agrees lim keep (d >>= f) (p >>= g) := by
  intro b hb
  have h := hd b hb
  simp only [Bind.bind, StateT.bind]
  generalize d b = r, p b = r' at h
  cases h with
  | ok x same below =>
    obtain rfl := same rfl
    exact hf x _ below
  | err e => exact .err e

/-- The last part may leave other bytes. -/
theorem Agrees.last {f : α → β} (h : Agrees lim false d p) :
    Agrees lim false (d >>= fun y => Pure.pure (f y)) (p >>= fun y => Pure.pure (f y)) := by
  intro b hb
  have hmatch := h b hb
  simp only [Bind.bind, StateT.bind]
  generalize d b = r, p b = r' at hmatch
  cases hmatch with
  | ok y same below => exact .ok (f y) nofun below
  | err e => exact .err e

theorem Agrees.times (ps : Nat → StateT Bytes (Except ε) (List α)) (h : Agrees lim true d p) (zero : ps 0 = Pure.pure [])
    (succ : ∀ n, ps (n + 1) = p >>= fun x => ps n >>= fun rest => Pure.pure (x :: rest)) (count : Nat) :
    Agrees lim true (d.times count) (ps count) := by
  induction count with
  | zero =>
    rw [zero]
    exact .pure []
  | succ count ih =>
    rw [succ]
    exact h.bind fun _ => ih.bind fun _ => .pure _

section
variable {f : Bytes → Checked ε (α × Nat)} (h : Reads lim f p)
include h

/-- At a position of a buffer, what a function reads of the rest from there. -/
theorem Reads.onRest (hb : b.length < lim) (hi : i ≤ b.length) : Follows b (i + ·) (Checked.onRest f b i) (p (b.drop i)) := by
  have hlen : (b.drop i).length = b.length - i := length_drop
  rw [Checked.onRest, sliceFrom_of_le hi]
  rcases h (b.drop i) (by omega) with ⟨x, n, hn, hf, hp⟩ | ⟨e, hf, hp⟩
  · rw [drop_drop] at hp
    exact .inl ⟨x, n, by dsimp only; omega, hf, hp⟩
  · exact .inr ⟨e, hf, hp⟩

theorem Reads.next : Agrees lim true (Cursor.next f) p := by
  intro b hb
  rcases h b hb with ⟨x, n, hn, hf, hp⟩ | ⟨e, hf, hp⟩
  · simp only [Cursor.next, hf, hp, sliceFrom_of_le hn]
    refine .ok x (fun _ => rfl) ?_
    rw [length_drop]
    omega
  · simp only [Cursor.next, hf, hp]
    exact .err e

theorem Reads.peek : Agrees lim false (Cursor.peek f) p := by
  intro b hb
  rcases h b hb with ⟨x, n, hn, hf, hp⟩ | ⟨e, hf, hp⟩
  · simp only [Cursor.peek, hf, hp]
    refine .ok x nofun ?_
    rw [length_drop]
    omega
  · simp only [Cursor.peek, hf, hp]
    exact .err e

end

/-- The checked reader still has the block before it that the plain one has taken. -/
def AgreesIn (lim : Nat) (keep : Bool) (x : Bytes) (d : Cursor ε α) (p : StateT Bytes (Except ε) α) : Prop :=
  ∀ b, (x ++ b).length < lim → Matches lim keep (d (x ++ b)) (p b)

variable {x : Bytes}

theorem AgreesIn.pure (y : α) : AgreesIn (ε := ε) lim false x (pure y) (pure y) := by
  intro b hb
  rw [length_append] at hb
  exact .ok y nofun (by omega)

theorem AgreesIn.field {f : Bytes → Cursor ε α} (hij : i ≤ j ∧ j ≤ x.length) (h : AgreesIn lim keep x (f (part x i j)) p) :
    AgreesIn lim keep x (Cursor.field i j >>= f) p := by
  obtain ⟨hij, hj⟩ := hij
  intro b hb
  have hle : j ≤ (x ++ b).length := by
    rw [length_append]
    omega
  simp only [bind, StateT.bind, Cursor.field_of_le hij hle, part_append hij hj]
  exact h b hb

theorem AgreesIn.byte {f : UInt8 → Cursor ε α} (hi : i < x.length) (h : AgreesIn lim keep x (f (x.getD i 0)) p) :
    AgreesIn lim keep x (Cursor.byte i >>= f) p := by
  intro b hb
  have hlt : i < (x ++ b).length := by
    rw [length_append]
    omega
  have hget : (x ++ b).getD i 0 = x.getD i 0 := by
    rw [getD_eq_getElem?_getD, getD_eq_getElem?_getD, List.getElem?_append_left hi]
  simp only [bind, StateT.bind, Cursor.byte, index, if_pos hlt, hget]
  exact h b hb

theorem AgreesIn.skip (hn : x.length = n) (h : Agrees lim keep d p) : AgreesIn lim keep x (Cursor.skip n >>= fun _ => d) p := by
  intro b hb
  rw [length_append] at hb
  have hle : n ≤ (x ++ b).length := by
    rw [length_append]
    omega
  simp only [bind, StateT.bind, Cursor.skip_of_le hle, drop_left' hn]
  exact h b (by omega)

/-- A check of the length, and then the fields of the block. -/
theorem Agrees.need {g : Bytes → StateT Bytes (Except ε) α} (short : ∀ b, b.length < n → p b = .error e)
    (enough : ∀ x b, x.length = n → p (x ++ b) = g x b) (h : ∀ x, x.length = n → AgreesIn lim keep x d (g x)) :
    Agrees lim keep (Cursor.need n e >>= fun _ => d) p := by
  intro b hb
  by_cases hn : b.length < n
  · simp only [Bind.bind, StateT.bind, Cursor.need_of_lt hn, short b hn]
    exact .err e
  · have htake : (b.take n).length = n := length_take_of_le (by omega)
    have hsplit := take_append_drop n b
    simp only [Bind.bind, StateT.bind, Cursor.need_of_le (Nat.not_lt.mp hn)]
    rw [← hsplit, enough _ _ htake]
    exact h _ htake _ (hsplit.symm ▸ hb)

end Checked
end Lib
