import Mathlib.Data.List.Basic

/-! Slices that share their backing array: `next := out[:0]`, and then `next = append(next, f(x)...)` for every `x` of
    `out`. -/

namespace Lib
open List

variable {α σ : Type} {array xs : List α} {k : Nat}

/-- A slice with its backing array: the first `len` entries are its own, the rest is spare capacity. -/
structure Backed (α : Type) where
  array : List α
  len : Nat
  deriving DecidableEq, Repr

namespace Backed

def toList (b : Backed α) : List α := b.array.take b.len

def ofOne (x : α) : Backed α := ⟨[x], 1⟩

@[simp] theorem toList_ofOne (x : α) : (ofOne x).toList = [x] := rfl

end Backed

def overwrite (array : List α) (k : Nat) (xs : List α) : List α := array.take k ++ xs ++ array.drop (k + xs.length)

theorem overwrite_take (h : k ≤ array.length) :
    (overwrite array k xs).take (k + xs.length) = array.take k ++ xs := by
  have hlen : (array.take k ++ xs).length = k + xs.length := by rw [length_append, length_take_of_le h]
  rw [overwrite, take_left' hlen]

theorem overwrite_drop {i : Nat} (h : k + xs.length ≤ array.length) (hi : k + xs.length ≤ i) :
    (overwrite array k xs).drop i = array.drop i := by
  have hlen : (array.take k ++ xs).length = k + xs.length := by
    rw [length_append, length_take_of_le (Nat.le_trans (Nat.le_add_right k _) h)]
  rw [overwrite, drop_append, drop_eq_nil_of_le (hlen ▸ hi), nil_append, drop_drop, hlen, Nat.add_sub_of_le hi]

inductive Dest (α : Type) where
  | shared (len : Nat)
  | own (b : Backed α)

/-- The entries a grown array has beyond those needed, by its old and its new size. -/
abbrev Spare (α : Type) := Nat → Nat → List α

/-- `append(next, xs...)`, where `array` is that of the slice the loop walks. -/
def Dest.append (spare : Spare α) (array : List α) : Dest α → List α → List α × Dest α
  | .shared k, xs =>
    if k + xs.length ≤ array.length then (overwrite array k xs, .shared (k + xs.length))
    else (array, .own ⟨array.take k ++ xs ++ spare array.length (k + xs.length), k + xs.length⟩)
  | .own b, xs =>
    if b.len + xs.length ≤ b.array.length then (array, .own ⟨overwrite b.array b.len xs, b.len + xs.length⟩)
    else (array, .own ⟨b.toList ++ xs ++ spare b.array.length (b.len + xs.length), b.len + xs.length⟩)

def rewriteLoop (spare : Spare α) (f : σ → α → List α × σ) : Nat → Nat → List α → Dest α → σ → List α × Dest α × σ
  | 0, _, array, d, s => (array, d, s)
  | n + 1, i, array, d, s =>
    match array[i]? with
    | none => (array, d, s)
    | some x =>
      let (xs, s) := f s x
      let (array, d) := d.append spare array xs
      rewriteLoop spare f n (i + 1) array d s

def rewrite (spare : Spare α) (f : σ → α → List α × σ) (out : Backed α) (s : σ) : Backed α × σ :=
  match rewriteLoop spare f out.len 0 out.array (.shared 0) s with
  | (array, .shared k, s) => (⟨array, k⟩, s)
  | (_, .own b, s) => (b, s)

def flatMapState (f : σ → α → List α × σ) : List α → σ → List α × σ
  | [], s => ([], s)
  | x :: rest, s =>
    let (xs, s) := f s x
    let (ys, s) := flatMapState f rest s
    (xs ++ ys, s)

/-- The results trail the reads: before the first entry `ahead` more were read than written, and before every later one
    the loop has not written more than it has read. -/
def Trails (f : σ → α → List α × σ) : Nat → List α → σ → Prop
  | _, [], _ => True
  | _, [_], _ => True
  | ahead, x :: y :: rest, s => (f s x).1.length ≤ ahead + 1 ∧ Trails f (ahead + 1 - (f s x).1.length) (y :: rest) (f s x).2

def Dest.backed (array : List α) : Dest α → Backed α
  | .shared k => ⟨array, k⟩
  | .own b => b

theorem Dest.append_shared (spare : Spare α) (hk : k ≤ array.length) (xs : List α) :
    (((Dest.shared k).append spare array xs).2.backed ((Dest.shared k).append spare array xs).1).toList = array.take k ++ xs ∧
      (((Dest.shared k).append spare array xs).2.backed ((Dest.shared k).append spare array xs).1).len ≤
        (((Dest.shared k).append spare array xs).2.backed ((Dest.shared k).append spare array xs).1).array.length := by
  have htake : (array.take k).length = k := length_take_of_le hk
  by_cases hfits : k + xs.length ≤ array.length
  · simp only [append, if_pos hfits, backed]
    refine ⟨overwrite_take hk, ?_⟩
    simp only [overwrite, length_append, length_drop]
    omega
  · simp only [append, if_neg hfits, backed]
    refine ⟨take_left' (by rw [length_append, htake]), ?_⟩
    simp only [length_append]
    omega

variable {f : σ → α → List α × σ} {out : Backed α} {spare : Spare α} {s : σ}

/-- Results that trail the reads are never read. -/
theorem rewriteLoop_trails (spare : Spare α) (i k : Nat) (array : List α) (h : Trails f (i - k) xs s) (hk : k ≤ i)
    (hxs : (array.drop i).take xs.length = xs) (hn : i + xs.length ≤ array.length) :
    ∃ array' d, rewriteLoop spare f xs.length i array (.shared k) s = (array', d, (flatMapState f xs s).2) ∧
      (d.backed array').toList = array.take k ++ (flatMapState f xs s).1 ∧
        (d.backed array').len ≤ (d.backed array').array.length := by
  induction xs generalizing i k array s with
  | nil => exact ⟨array, .shared k, rfl, (append_nil _).symm, Nat.le_trans hk hn⟩
  | cons x rest ih =>
    rw [length_cons] at hn hxs
    have hi : i < array.length := by omega
    rw [drop_eq_getElem_cons hi] at hxs
    obtain ⟨hx, hrest⟩ := cons.inj hxs
    have hget : array[i]? = some x := by rw [getElem?_eq_getElem hi, hx]
    obtain ⟨ys, s₁, hf⟩ : ∃ ys s₁, f s x = (ys, s₁) := ⟨_, _, rfl⟩
    cases rest with
    | nil =>
      obtain ⟨hlist, hcap⟩ := Dest.append_shared spare (Nat.le_trans hk (Nat.le_of_lt hi)) ys
      refine ⟨_, _, by simp [rewriteLoop, hget, hf, flatMapState], ?_, hcap⟩
      rw [hlist]
      simp only [flatMapState, hf, append_nil]
    | cons y rest =>
      obtain ⟨hle, htail⟩ := h
      rw [hf] at hle htail
      dsimp only at hle htail
      have hfits : k + ys.length ≤ array.length := by omega
      have hahead : i - k + 1 - ys.length = i + 1 - (k + ys.length) := by omega
      have hdrop : (overwrite array k ys).drop (i + 1) = array.drop (i + 1) := overwrite_drop hfits (by omega)
      have hlen : (overwrite array k ys).length = array.length := by
        simp only [overwrite, length_append, length_take, length_drop]
        omega
      rw [hahead] at htail
      obtain ⟨array', d, hloop, hlist, hcap⟩ := ih (i + 1) (k + ys.length) (overwrite array k ys) htail (by omega)
        (by rw [hdrop]; exact hrest) (by rw [hlen]; omega)
      refine ⟨array', d, ?_, ?_, hcap⟩
      · rw [length_cons, rewriteLoop, hget]
        simp only [hf, Dest.append, if_pos hfits, hloop, flatMapState]
      · rw [hlist, overwrite_take (Nat.le_trans (Nat.le_add_right k _) hfits)]
        simp [flatMapState, hf]

theorem Backed.length_toList (hcap : out.len ≤ out.array.length) : out.toList.length = out.len := length_take_of_le hcap

theorem rewrite_of_loop {s' : σ} {d : Dest α}
    (h : rewriteLoop spare f out.len 0 out.array (.shared 0) s = (array, d, s')) :
      rewrite spare f out s = (d.backed array, s') := by
  rw [rewrite, h]
  cases d <;> rfl

theorem rewrite_trails (spare : Spare α) (h : Trails f 0 out.toList s) (hcap : out.len ≤ out.array.length) :
    ((rewrite spare f out s).1.toList, (rewrite spare f out s).2) = flatMapState f out.toList s ∧
      (rewrite spare f out s).1.len ≤ (rewrite spare f out s).1.array.length := by
  have hlen := Backed.length_toList hcap
  obtain ⟨array', d, hloop, hlist, hcap'⟩ := rewriteLoop_trails spare 0 0 out.array h (Nat.le_refl 0)
    (by rw [hlen]; rfl) (by omega)
  rw [hlen] at hloop
  rw [rewrite_of_loop hloop]
  refine ⟨?_, hcap'⟩
  rw [hlist, take_zero, nil_append]

/-- A slice of at most one entry has nothing to write over. -/
theorem rewrite_one (s : σ) (hlen : out.len ≤ 1) (hcap : out.len ≤ out.array.length) :
    ((rewrite spare f out s).1.toList, (rewrite spare f out s).2) = flatMapState f out.toList s ∧
      (rewrite spare f out s).1.len ≤ (rewrite spare f out s).1.array.length := by
  refine rewrite_trails spare ?_ hcap
  have hlist := Backed.length_toList hcap
  match out.toList, hlist with
  | [], _ => trivial
  | [_], _ => trivial
  | _ :: _ :: _, h =>
    simp only [length_cons] at h
    omega

section
variable (single : ∀ s x, (f s x).1.length ≤ 1)
include single

theorem trails_of_single (ahead : Nat) (xs : List α) (s : σ) : Trails f ahead xs s := by
  induction xs generalizing ahead s with
  | nil => trivial
  | cons x rest ih =>
    cases rest with
    | nil => trivial
    | cons y rest => exact ⟨Nat.le_trans (single s x) (Nat.le_add_left 1 ahead), ih _ _⟩

theorem length_flatMapState_le (xs : List α) (s : σ) :
    (flatMapState f xs s).1.length ≤ xs.length := by
  induction xs generalizing s with
  | nil => exact Nat.le_refl 0
  | cons x rest ih =>
    have hx := single s x
    have hrest := ih (f s x).2
    simp only [flatMapState, length_append, length_cons]
    omega

/-- Neither has a loop with at most one result for an entry. -/
theorem rewrite_single (s : σ) (hcap : out.len ≤ out.array.length) :
    ((rewrite spare f out s).1.toList, (rewrite spare f out s).2) = flatMapState f out.toList s ∧
      (rewrite spare f out s).1.len ≤ (rewrite spare f out s).1.array.length ∧ (rewrite spare f out s).1.len ≤ out.len := by
  obtain ⟨hlist, hcap'⟩ := rewrite_trails spare (trails_of_single single 0 out.toList s) hcap
  refine ⟨hlist, hcap', ?_⟩
  have hle := length_flatMapState_le single out.toList s
  rw [← hlist, Backed.length_toList hcap', Backed.length_toList hcap] at hle
  exact hle

end

end Lib
