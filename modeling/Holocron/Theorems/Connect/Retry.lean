import Holocron.Connect.Sink

/-! The delay before an attempt against the capped power of two: which attempts get it, and which policies give it to all. -/

namespace Holocron.Connect.RetryPolicy

variable {p : RetryPolicy} {m : Nat}

/-- The base doubled so often, in exact integers. -/
def power (p : RetryPolicy) (m : Nat) : Int := p.baseDelay.toInt * 2 ^ m

/-- The same in `int64`. -/
def wrapped (p : RetryPolicy) (m : Nat) : Int := (p.power m).bmod (2 ^ 64)

theorem power_succ (p : RetryPolicy) (m : Nat) : p.power (m + 1) = 2 * p.power m := by
  rw [power, power, Int.pow_succ, ← Int.mul_assoc, Int.mul_comm]

theorem power_mono (hbase : 0 < p.baseDelay.toInt) {j : Nat} (h : j ≤ m) : p.power j ≤ p.power m := by
  induction h with
  | refl => exact Int.le_refl _
  | @step m _ ih =>
    have hpos : 0 < p.power m := Int.mul_pos hbase (Int.pow_pos (by decide))
    rw [power_succ]
    omega

theorem wrapped_le (hbase : 0 < p.baseDelay.toInt) (m : Nat) : p.wrapped m ≤ p.power m := by
  have hpos : 0 < p.power m := Int.mul_pos hbase (Int.pow_pos (by decide))
  rw [wrapped, Int.bmod_def]
  omega

theorem wrapped_of_lt (hbase : 0 < p.baseDelay.toInt) (h : p.power m < 2 ^ 63) : p.wrapped m = p.power m := by
  have hpos : 0 < p.power m := Int.mul_pos hbase (Int.pow_pos (by decide))
  rw [wrapped, Int.bmod_eq_of_le] <;> omega

/-- The first power that does not fit is negative. -/
theorem wrapped_neg (h : 2 ^ 63 ≤ p.power m) (h' : p.power m < 2 ^ 64) : p.wrapped m < 0 := by
  rw [wrapped, Int.bmod_def]
  omega

theorem toInt_double (d : Int64) (m : Nat) :
    ((d * 2).toInt * 2 ^ m).bmod (2 ^ 64) = (d.toInt * 2 ^ (m + 1)).bmod (2 ^ 64) := by
  rw [Int64.toInt_mul, show (2 : Int64).toInt = 2 from rfl, Int.bmod_mul_bmod, Int.mul_assoc, Int.pow_succ']

/-- The loop stops at the first doubling above the cap. -/
theorem delayLoop_cases (hmax : 0 < p.maxDelay) (m : Nat) (d : Int64) :
    (∃ j, 1 ≤ j ∧ j ≤ m ∧ p.maxDelay.toInt < (d.toInt * 2 ^ j).bmod (2 ^ 64)) ∧ p.delayLoop m d = p.maxDelay ∨
      (∀ j, 1 ≤ j → j ≤ m → (d.toInt * 2 ^ j).bmod (2 ^ 64) ≤ p.maxDelay.toInt) ∧
        (p.delayLoop m d).toInt = (d.toInt * 2 ^ m).bmod (2 ^ 64) := by
  induction m generalizing d with
  | zero =>
    refine .inr ⟨fun j hj hj' => by omega, ?_⟩
    have hlow := d.le_toInt
    have hhigh := d.toInt_lt
    rw [delayLoop, Int.pow_zero, Int.mul_one, Int.bmod_eq_of_le] <;> omega
  | succ m ih =>
    have hone : (d * 2).toInt = (d.toInt * 2 ^ 1).bmod (2 ^ 64) := by
      rw [Int64.toInt_mul]
      rfl
    unfold delayLoop
    by_cases hover : p.maxDelay < d * 2
    · rw [if_pos ⟨hmax, hover⟩]
      exact .inl ⟨⟨1, Nat.le_refl 1, by omega, hone ▸ Int64.lt_iff_toInt_lt.mp hover⟩, rfl⟩
    · rw [if_neg fun hboth => hover hboth.2]
      refine (ih (d * 2)).imp (fun ⟨⟨j, hj, hjm, hcap⟩, hres⟩ => ⟨⟨j + 1, by omega, by omega, ?_⟩, hres⟩)
        fun ⟨hall, hres⟩ => ⟨fun j hj hjm => ?_, by rw [hres, toInt_double]⟩
      · rwa [← toInt_double]
      · obtain ⟨j, rfl⟩ : ∃ i, j = i + 1 := ⟨j - 1, by omega⟩
        cases j with
        | zero => exact hone ▸ Int64.le_iff_toInt_le.mp (Int64.not_lt.mp hover)
        | succ j =>
          rw [← toInt_double]
          exact hall (j + 1) (by omega) (by omega)

/-- The delay before the attempt is the capped power. -/
def Capped (p : RetryPolicy) (n : Int) : Prop := (p.nextDelay n).toInt = min (p.power (n - 1).toNat) p.maxDelay.toInt

/-- The power is within the cap, or a doubling on the way shows above it, or the wrapped power happens to be the cap. -/
def Reaches (p : RetryPolicy) (m : Nat) : Prop :=
  p.power m ≤ p.maxDelay.toInt ∨ (∃ j, 1 ≤ j ∧ j ≤ m ∧ p.maxDelay.toInt < p.wrapped j) ∨ p.wrapped m = p.maxDelay.toInt

/-- A power within the cap can be doubled. -/
def Doubles (p : RetryPolicy) : Prop := ∀ k, p.power k ≤ p.maxDelay.toInt → p.power (k + 1) < 2 ^ 63

theorem capped_iff (hbase : 0 < p.baseDelay) (hmax : 0 < p.maxDelay) {n : Int} (hn : 1 ≤ n) :
    p.Capped n ↔ p.Reaches (n - 1).toNat := by
  have hpos : 0 < p.baseDelay.toInt := Int64.lt_iff_toInt_lt.mp hbase
  unfold Capped
  rw [nextDelay, if_neg (not_or.mpr ⟨by omega, Int64.not_le.mpr hbase⟩)]
  generalize (n - 1).toNat = m
  have hle := wrapped_le hpos m
  have htop := p.maxDelay.toInt_lt
  rcases delayLoop_cases hmax m p.baseDelay with ⟨⟨j, hj, hjm, hcap⟩, hres⟩ | ⟨hall, hres⟩
  · have hover : p.maxDelay.toInt < p.wrapped j := hcap
    have hbelow := Int.le_trans (wrapped_le hpos j) (power_mono hpos hjm)
    rw [hres]
    exact iff_of_true (by omega) (.inr (.inl ⟨j, hj, hjm, hover⟩))
  · have hnone : ¬ ∃ j, 1 ≤ j ∧ j ≤ m ∧ p.maxDelay.toInt < p.wrapped j := fun ⟨j, hj, hjm, hover⟩ =>
      absurd (hall j hj hjm) (Int.not_le.mpr hover)
    rw [hres, Reaches, or_iff_right_of_imp (a := ∃ j, _) (absurd · hnone)]
    have hexact : p.power m ≤ p.maxDelay.toInt → p.wrapped m = p.power m := fun h => wrapped_of_lt hpos (by omega)
    change p.wrapped m = _ ↔ _
    omega

/-- While the base is within the cap and powers within it can be doubled, the doubling that passes the cap is seen. -/
theorem seen_of_doubles (hbase : 0 < p.baseDelay.toInt) (hle : p.baseDelay ≤ p.maxDelay) (doubles : p.Doubles) (m : Nat) :
    p.power m ≤ p.maxDelay.toInt ∨ ∃ j, 1 ≤ j ∧ j ≤ m ∧ p.maxDelay.toInt < p.wrapped j := by
  induction m with
  | zero => exact .inl (by simpa [power] using Int64.le_iff_toInt_le.mp hle)
  | succ m ih =>
    rcases ih with hm | ⟨j, hj, hjm, hover⟩
    · by_cases hm' : p.power (m + 1) ≤ p.maxDelay.toInt
      · exact .inl hm'
      · exact .inr ⟨m + 1, by omega, Nat.le_refl _, by rw [wrapped_of_lt hbase (doubles m hm)]; omega⟩
    · exact .inr ⟨j, hj, by omega, hover⟩

/-- A power within the cap whose double does not fit is followed by a negative delay. -/
theorem doubles_of_reaches (hbase : 0 < p.baseDelay.toInt) (hmax : 0 < p.maxDelay.toInt) (h : ∀ m, p.Reaches m) :
    p.Doubles := by
  intro k hk
  by_contra hover
  have htop := p.maxDelay.toInt_lt
  have hdouble := p.power_succ k
  have hneg := wrapped_neg (p := p) (m := k + 1) (by omega) (by omega)
  rcases h (k + 1) with hle | ⟨j, hj, hjk, hseen⟩ | hcap
  · omega
  · by_cases hlast : j = k + 1
    · subst hlast
      omega
    · have hbelow := Int.le_trans (wrapped_le hbase j) (power_mono hbase (show j ≤ k by omega))
      omega
  · omega

/-- An attempt gets the capped power just when its doublings reach it. All do, with delays that are positive, within the
    cap and grow, just when the base is within the cap and every power within it can be doubled. -/
theorem nextDelay_capped (hbase : 0 < p.baseDelay) (hmax : 0 < p.maxDelay) :
    (∀ n, 1 ≤ n → (p.Capped n ↔ p.Reaches (n - 1).toNat)) ∧
      ((∀ n, 1 ≤ n → p.Capped n ∧ 0 < p.nextDelay n ∧ p.nextDelay n ≤ p.maxDelay ∧ p.nextDelay n ≤ p.nextDelay (n + 1)) ↔
        p.baseDelay ≤ p.maxDelay ∧ p.Doubles) := by
  have hbase' : 0 < p.baseDelay.toInt := Int64.lt_iff_toInt_lt.mp hbase
  have hmax' : 0 < p.maxDelay.toInt := Int64.lt_iff_toInt_lt.mp hmax
  refine ⟨fun n hn => capped_iff hbase hmax hn, fun h => ⟨?_, ?_⟩, fun ⟨hle, doubles⟩ n hn => ?_⟩
  · have hfirst := (h 1 (by decide)).2.2.1
    rwa [nextDelay, if_neg (not_or.mpr ⟨by decide, Int64.not_le.mpr hbase⟩)] at hfirst
  · refine doubles_of_reaches hbase' hmax' fun m => ?_
    have hm := (capped_iff hbase hmax (show 1 ≤ (m : Int) + 1 by omega)).mp (h (m + 1) (by omega)).1
    rwa [show ((m : Int) + 1 - 1).toNat = m by omega] at hm
  · have hall (n : Int) (hn : 1 ≤ n) : p.Capped n :=
      (capped_iff hbase hmax hn).mpr ((seen_of_doubles hbase' hle doubles _).imp_right .inl)
    have hn' := hall n hn
    have hsucc := hall (n + 1) (by omega)
    have hpos : 0 < p.power (n - 1).toNat := Int.mul_pos hbase' (Int.pow_pos (by decide))
    have hgrow := power_mono hbase' (show (n - 1).toNat ≤ (n + 1 - 1).toNat by omega)
    unfold Capped at hn' hsucc
    refine ⟨hn', ?_, ?_, ?_⟩
    · rw [Int64.lt_iff_toInt_lt, Int64.toInt_zero]
      omega
    · rw [Int64.le_iff_toInt_le]
      omega
    · rw [Int64.le_iff_toInt_le]
      omega

/-- The third attempt is capped. So is the second one above the cap, and the first near the top of the range. -/
theorem nextDelay_capped_third : Capped ⟨2, 5⟩ 3 ∧ Capped ⟨2, 1⟩ 2 ∧ Capped ⟨2 ^ 62, Int64.maxValue⟩ 1 := by
  refine ⟨?_, ?_, ?_⟩
  · have doubles : Doubles ⟨2, 5⟩ := fun k hk => by
      rw [power_succ]
      have : (5 : Int64).toInt = 5 := rfl
      simp only [this] at hk
      omega
    exact (((nextDelay_capped (p := ⟨2, 5⟩) (by decide) (by decide)).2.mpr ⟨by decide, doubles⟩) 3 (by decide)).1
  · exact ((nextDelay_capped (p := ⟨2, 1⟩) (by decide) (by decide)).1 2 (by decide)).mpr
      (.inr (.inl ⟨1, by decide, by decide, by decide +kernel⟩))
  · exact ((nextDelay_capped (p := ⟨2 ^ 62, Int64.maxValue⟩) (by decide +kernel) (by decide +kernel)).1 1 (by decide)).mpr
      (.inl (by decide +kernel))

/-- A base above the cap is returned as it is, and near the top of the range the delay becomes negative. -/
theorem nextDelay_uncapped : nextDelay ⟨2, 1⟩ 1 = 2 ∧ nextDelay ⟨2 ^ 62, Int64.maxValue⟩ 2 < 0 := by decide +kernel

end Holocron.Connect.RetryPolicy
