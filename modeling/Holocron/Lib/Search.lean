import Mathlib.Data.List.Basic

/-! Binary search for the first index at which a monotone test succeeds, as `sort.Search` does it. -/

namespace Lib

def searchLoop (f : Nat → Bool) : Nat → Nat → Nat → Nat
  | 0, i, _ => i
  | fuel + 1, i, j =>
    if i < j then
      let h := (i + j) / 2
      if f h then searchLoop f fuel i h else searchLoop f fuel (h + 1) j
    else i

def search (n : Nat) (f : Nat → Bool) : Nat := searchLoop f n 0 n

theorem searchLoop_le (f : Nat → Bool) (fuel : Nat) {i j : Nat} (hij : i ≤ j) : searchLoop f fuel i j ≤ j := by
  induction fuel generalizing i j with
  | zero => exact hij
  | succ fuel ih =>
    simp only [searchLoop]
    split
    · split
      · exact Nat.le_trans (ih (by omega)) (by omega)
      · exact ih (by omega)
    · exact hij

theorem search_le (n : Nat) (f : Nat → Bool) : search n f ≤ n := searchLoop_le f n (Nat.zero_le n)

def Threshold (n : Nat) (f : Nat → Bool) : Prop := ∀ i j, i ≤ j → j < n → f i = true → f j = true

variable {f : Nat → Bool}

theorem searchLoop_spec {n : Nat} (mono : Threshold n f) (fuel i j : Nat) (hij : i ≤ j) (hjn : j ≤ n)
    (hfuel : j - i ≤ fuel) (below : ∀ k, k < i → f k = false) (above : ∀ k, j ≤ k → k < n → f k = true) :
    searchLoop f fuel i j ≤ n ∧ (∀ k, k < searchLoop f fuel i j → f k = false) ∧
      ∀ k, searchLoop f fuel i j ≤ k → k < n → f k = true := by
  induction fuel generalizing i j with
  | zero =>
    obtain rfl : i = j := by omega
    exact ⟨hjn, below, above⟩
  | succ fuel ih =>
    simp only [searchLoop]
    split
    · split
      · rename_i hpass
        refine ih i ((i + j) / 2) (by omega) (by omega) (by omega) below ?_
        intro k hk hkn
        exact mono _ k hk hkn hpass
      · rename_i hfail
        refine ih ((i + j) / 2 + 1) j (by omega) hjn (by omega) ?_ above
        intro k hk
        cases hfk : f k with
        | false => rfl
        | true => exact absurd (mono k _ (by omega) (by omega) hfk) hfail
    · obtain rfl : i = j := by omega
      exact ⟨hjn, below, above⟩

theorem search_spec {n : Nat} (mono : Threshold n f) :
    search n f ≤ n ∧ (∀ k, k < search n f → f k = false) ∧ ∀ k, search n f ≤ k → k < n → f k = true :=
  searchLoop_spec mono n 0 n (Nat.zero_le n) (Nat.le_refl n) (by omega) (fun _ hk => absurd hk (Nat.not_lt_zero _))
    (fun _ hk hkn => absurd hkn (by omega))

end Lib
