import Holocron.Server.Quota

/-! What the limiter grants in any window, and that a refusal is free where its refill is whole. -/

namespace Holocron.Server.TokenBucket
open Lib List

/-- Calls are made at non-decreasing times, none before the bucket was refilled last. -/
def Timely (b : TokenBucket) (calls : List Call) : Prop := (b.last :: calls.map Call.now).Pairwise (· ≤ ·)

instance (b : TokenBucket) (calls : List Call) : Decidable (b.Timely calls) := inferInstanceAs (Decidable (List.Pairwise ..))

variable {b b' : TokenBucket} {c : Call} {calls : List Call}

@[simp] theorem refill_rate (b : TokenBucket) (t : Int) : (b.refill t).rate = b.rate := rfl
@[simp] theorem refill_last (b : TokenBucket) (t : Int) : (b.refill t).last = t := rfl
@[simp] theorem refill_capacity (b : TokenBucket) (t : Int) : (b.refill t).capacity = b.capacity := rfl

theorem step_frame (b : TokenBucket) (c : Call) :
    (b.step c).rate = b.rate ∧ ((b.step c).last = b.last ∨ (b.step c).last = c.now) := by
  unfold step take
  split_ifs <;> simp

theorem Timely.tail (h : b.Timely (c :: calls)) : b.last ≤ c.now ∧ (b.step c).Timely calls := by
  obtain ⟨hlast, hrest⟩ := pairwise_cons.mp h
  refine ⟨hlast c.now mem_cons_self, ?_⟩
  rcases (b.step_frame c).2 with heq | heq
  · exact pairwise_cons.mpr ⟨fun t ht => heq ▸ hlast t (mem_cons_of_mem _ ht), (pairwise_cons.mp hrest).2⟩
  · rw [Timely, heq]
    exact hrest

/-! ### Refusals -/

theorem refill_refill (hrate : 0 ≤ b.rate) {t t' : Int} (hlast : b.last ≤ t) (ht : t ≤ t')
    (whole : 10 ^ 9 ∣ (t - b.last) * b.rate) : (b.refill t).refill t' = b.refill t' := by
  have h₁ := Int.mul_nonneg (Int.sub_nonneg.mpr hlast) hrate
  have h₂ := Int.mul_nonneg (Int.sub_nonneg.mpr ht) hrate
  have hsum : (t' - b.last) * b.rate = (t - b.last) * b.rate + (t' - t) * b.rate := by
    rw [← Int.add_mul]
    congr 1
    omega
  simp only [refill, hsum, mk.injEq, true_and, and_true]
  rw [Int.tdiv_eq_ediv_of_nonneg h₁, Int.tdiv_eq_ediv_of_nonneg h₂, Int.tdiv_eq_ediv_of_nonneg (Int.add_nonneg h₁ h₂)]
  omega

/-- A bucket that saw more refusals refills to the same. -/
def Agrees (b b' : TokenBucket) : Prop := ∀ t, b.last ≤ t → b.refill t = b'.refill t

theorem Agrees.take (h : b.Agrees b') (hnow : b.last ≤ c.now) :
    (b.take c.now c.n).1 = (b'.take c.now c.n).1 ∧ (b.step c).Agrees (b'.step c) := by
  unfold step TokenBucket.take
  rw [h c.now hnow]
  split_ifs
  · exact ⟨rfl, h⟩
  · exact ⟨rfl, fun _ _ => rfl⟩
  · exact ⟨rfl, fun _ _ => rfl⟩

/-- Inserted calls are refused, when the time since the last refill is worth whole tokens. -/
def FreeRefusal (b : TokenBucket) (c : Call) : Prop :=
  c.extra = true → (b.take c.now c.n).1 = false ∧ 10 ^ 9 ∣ (c.now - b.last) * b.rate

instance (b : TokenBucket) (c : Call) : Decidable (b.FreeRefusal c) := inferInstanceAs (Decidable (_ → _))

theorem Agrees.refused (h : b.Agrees b') (hrate : 0 ≤ b.rate) (hnow : b.last ≤ c.now) (free : b.FreeRefusal c)
    (extra : c.extra = true) : (b.step c).Agrees b' := by
  obtain ⟨hrefused, whole⟩ := free extra
  have hstep : b.step c = b.refill c.now := by
    unfold TokenBucket.take at hrefused
    unfold step TokenBucket.take
    split_ifs at hrefused ⊢
    rfl
  rw [hstep]
  exact fun t ht => (refill_refill hrate hnow ht whole).trans (h t (Int.le_trans hnow ht))

theorem Agrees.answers (h : b.Agrees b') (hrate : 0 ≤ b.rate) (timely : b.Timely calls)
    (free : Along step b calls FreeRefusal) :
    (b.answers calls).filter (fun x => !x.1.extra) = b'.answers (calls.filter fun c => !c.extra) := by
  induction calls generalizing b b' with
  | nil => rfl
  | cons c calls ih =>
    obtain ⟨hfree, hrest⟩ := Along.cons_iff.mp free
    obtain ⟨hnow, htimely⟩ := timely.tail
    have hrate' : 0 ≤ (b.step c).rate := (b.step_frame c).1 ▸ hrate
    cases hextra : c.extra with
    | true => simpa [answers, hextra] using ih (h.refused hrate hnow hfree hextra) hrate' htimely hrest
    | false =>
      obtain ⟨hsame, hagrees⟩ := h.take hnow
      simpa [answers, hextra, hsame] using ih hagrees hrate' htimely hrest

theorem refusals_free (b : TokenBucket) (hrate : 0 ≤ b.rate) (timely : b.Timely calls) (free : Along step b calls FreeRefusal) :
    (b.answers calls).filter (fun x => !x.1.extra) = b.answers (calls.filter fun c => !c.extra) :=
  Agrees.answers (fun _ _ => rfl) hrate timely free

def polled (t : Int) : List Call := [⟨0, 1, false⟩, ⟨t, 1, true⟩, ⟨10 ^ 9, 1, false⟩]

theorem refusals_free_zero : (answers (newTokenBucket 1 1 0) (polled 0)).filter (fun x => !x.1.extra) =
    answers (newTokenBucket 1 1 0) ((polled 0).filter fun c => !c.extra) :=
  refusals_free _ (by decide) (by decide) (.cons (by decide) (.cons (by decide) (.cons (by decide) .nil)))

/-- A refusal half a second after the last refill loses that half. -/
theorem refusal_costs : (newTokenBucket 1 1 0).Timely (polled (5 * 10 ^ 8)) ∧
    (answers (newTokenBucket 1 1 0) (polled (5 * 10 ^ 8))).map Prod.snd = [true, false, false] ∧
    (answers (newTokenBucket 1 1 0) ((polled (5 * 10 ^ 8)).filter fun c => !c.extra)).map Prod.snd = [true, true] := by decide

/-! ### Windows -/

def granted (s t : Int) (answers : List (Call × Bool)) : Int :=
  ((answers.filter fun x => decide (x.2 = true ∧ s ≤ x.1.now ∧ x.1.now ≤ t)).map fun x => max 0 x.1.n).sum

theorem granted_cons (s t : Int) (c : Call) (ok : Bool) (rest : List (Call × Bool)) :
    granted s t ((c, ok) :: rest) = (if ok = true ∧ s ≤ c.now ∧ c.now ≤ t then max 0 c.n else 0) + granted s t rest := by
  by_cases h : ok = true ∧ s ≤ c.now ∧ c.now ≤ t
  · simp [granted, h]
  · simp [granted, h]

structure Sound (b : TokenBucket) : Prop where
  rate : 0 ≤ b.rate
  nonneg : 0 ≤ b.tokens
  full : b.tokens ≤ b.capacity

/-- What the bucket can still grant in a window, in billionths of a token. -/
def worth (b : TokenBucket) (s t : Int) : Int :=
  if b.last < s then 10 ^ 9 * b.capacity + b.rate * (t - s) else if b.last ≤ t
    then 10 ^ 9 * b.tokens + b.rate * (t - b.last) else 0

section
variable (h : b.Sound) (hnow : b.last ≤ c.now)
include h hnow

theorem Sound.refill : 0 ≤ (b.refill c.now).tokens ∧ (b.refill c.now).tokens ≤ b.capacity ∧
    10 ^ 9 * (b.refill c.now).tokens ≤ 10 ^ 9 * b.tokens + (b.rate * c.now - b.rate * b.last) := by
  obtain ⟨hrate, hnonneg, hfull⟩ := h
  have helapsed := Int.mul_nonneg hrate (Int.sub_nonneg.mpr hnow)
  simp only [TokenBucket.refill, Int.mul_comm _ b.rate, Int.tdiv_eq_ediv_of_nonneg helapsed]
  rw [Int.mul_sub] at helapsed ⊢
  omega

theorem Sound.step : (b.step c).Sound := by
  obtain ⟨hnonneg, hfull, -⟩ := h.refill hnow
  unfold TokenBucket.step take
  split_ifs with hn hshort
  · exact h
  · exact ⟨h.rate, hnonneg, hfull⟩
  · exact ⟨h.rate, Int.sub_nonneg.mpr (Int.not_lt.mp hshort), Int.le_trans (Int.sub_le_self _ (by omega)) hfull⟩

/-- What a call is granted, the bucket is worth less. -/
theorem Sound.worth_step {s t : Int} (hst : s ≤ t) :
    10 ^ 9 * (if (b.take c.now c.n).1 = true ∧ s ≤ c.now ∧ c.now ≤ t then max 0 c.n else 0) + (b.step c).worth s t ≤
      b.worth s t := by
  have hmono : ∀ {x y}, x ≤ y → b.rate * x ≤ b.rate * y := fun hxy => Int.mul_le_mul_of_nonneg_left hxy h.rate
  have h₁ := hmono hst
  have h₂ : s ≤ c.now → b.rate * s ≤ b.rate * c.now := hmono
  have h₄ : b.last ≤ t → b.rate * b.last ≤ b.rate * t := hmono
  obtain ⟨hnonneg, hfull, hrefill⟩ := h.refill hnow
  obtain ⟨-, hnonneg', hfull'⟩ := h
  unfold worth TokenBucket.step take
  by_cases hn : c.n ≤ 0
  · simp only [hn, ↓reduceIte]
    split_ifs <;> omega
  · by_cases hshort : (b.refill c.now).tokens < c.n
    · simp only [hn, hshort, ↓reduceIte, Bool.false_eq_true, false_and, refill_rate, refill_last, refill_capacity, Int.mul_sub]
      split_ifs <;> omega
    · simp only [hn, hshort, ↓reduceIte, refill_rate, refill_last, refill_capacity, Int.mul_sub]
      split_ifs <;> omega

end

theorem Sound.worth_le (h : b.Sound) {s t : Int} (hst : s ≤ t) : b.worth s t ≤ 10 ^ 9 * b.capacity + b.rate * (t - s) := by
  have hwindow := Int.mul_nonneg h.rate (Int.sub_nonneg.mpr hst)
  obtain ⟨hrate, hnonneg, hfull⟩ := h
  unfold worth
  split_ifs with hlast hwithin
  · omega
  · have hle := Int.mul_le_mul_of_nonneg_left (show t - b.last ≤ t - s by omega) hrate
    omega
  · omega

theorem Sound.run (h : b.Sound) (timely : b.Timely calls) {s t : Int} (hst : s ≤ t) :
    10 ^ 9 * granted s t (b.answers calls) ≤ b.worth s t ∧ (calls.foldl TokenBucket.step b).Sound := by
  induction calls generalizing b with
  | nil =>
    refine ⟨?_, h⟩
    have := h.nonneg
    have := Int.le_trans h.nonneg h.full
    have := Int.mul_nonneg h.rate (Int.sub_nonneg.mpr hst)
    have : b.last ≤ t → 0 ≤ b.rate * (t - b.last) := fun hle => Int.mul_nonneg h.rate (Int.sub_nonneg.mpr hle)
    simp only [granted, answers, filter_nil, map_nil, sum_nil, worth]
    split_ifs <;> omega
  | cons c calls ih =>
    obtain ⟨hnow, htimely⟩ := timely.tail
    have hfirst := h.worth_step hnow hst
    obtain ⟨hrest, hsound⟩ := ih (h.step hnow) htimely
    refine ⟨?_, hsound⟩
    rw [answers, granted_cons]
    omega

theorem quota_bound {rate : Int} (hrate : 0 ≤ rate) (capacity start : Int)
    (timely : (newTokenBucket rate capacity start).Timely calls) {s t : Int} (hst : s ≤ t) :
    10 ^ 9 * granted s t ((newTokenBucket rate capacity start).answers calls) ≤
      10 ^ 9 * (newTokenBucket rate capacity start).capacity + rate * (t - s) ∧
    0 ≤ (calls.foldl step (newTokenBucket rate capacity start)).tokens ∧
      (calls.foldl step (newTokenBucket rate capacity start)).tokens ≤
        (calls.foldl step (newTokenBucket rate capacity start)).capacity := by
  have hcapacity : rate ≤ (newTokenBucket rate capacity start).capacity := by
    unfold newTokenBucket
    dsimp only
    split <;> omega
  have hsound : (newTokenBucket rate capacity start).Sound := ⟨hrate, Int.le_trans hrate hcapacity, Int.le_refl _⟩
  obtain ⟨hgranted, hend⟩ := hsound.run timely hst
  exact ⟨Int.le_trans hgranted (hsound.worth_le hst), hend.nonneg, hend.full⟩

theorem quota_bound_second : granted 0 (10 ^ 9) ((newTokenBucket 1 1 0).answers (polled 0)) = 2 ∧
    10 ^ 9 * granted 0 (10 ^ 9) ((newTokenBucket 1 1 0).answers (polled 0)) ≤ 10 ^ 9 * 1 + 1 * (10 ^ 9 - 0) :=
  ⟨by decide, (quota_bound (by decide) 1 0 (by decide) (by decide)).1⟩

end Holocron.Server.TokenBucket
