import Mathlib.Data.List.Basic
import Mathlib.Data.List.Pairwise

/-! Lists of ranked events, some of which carry a key or delete it. Replacing part of a list by its live events changes
    nothing live. -/

namespace Lib
open List

/-- How to read an event: its place in the order, its key if it has one, and whether it is a deletion. -/
structure Keying (α κ : Type) where
  rank : α → Int
  key : α → Option κ
  alive : α → Bool

namespace Keying

variable {α κ : Type} [DecidableEq κ] (K : Keying α κ)

def last (k : κ) (l : List α) : Option α := (l.filter fun a => decide (K.key a = some k)).getLast?

def live (k : κ) (l : List α) : Option α := (K.last k l).filter K.alive

def Retained (l : List α) (a : α) : Prop := ∃ k, K.live k l = some a

def Ascending (l : List α) : Prop := l.Pairwise fun a b => K.rank a < K.rank b

variable {K} {k : κ} {l : List α} {a b : α}

theorem last_concat (l : List α) (a : α) : K.last k (l ++ [a]) = if K.key a = some k then some a else K.last k l := by
  by_cases h : K.key a = some k <;> simp [last, h]

theorem live_eq_some_iff : K.live k l = some a ↔ K.last k l = some a ∧ K.alive a = true :=
  Option.filter_eq_some_iff

omit [DecidableEq κ] in
theorem Ascending.eq_of_rank (h : K.Ascending l) (ha : a ∈ l) (hb : b ∈ l) (hr : K.rank a = K.rank b) : a = b := by
  obtain ⟨i, hi, rfl⟩ := mem_iff_getElem.mp ha
  obtain ⟨j, hj, rfl⟩ := mem_iff_getElem.mp hb
  rcases Nat.lt_trichotomy i j with hij | rfl | hij
  · exact absurd hr (Int.ne_of_lt (pairwise_iff_getElem.mp h i j hi hj hij))
  · rfl
  · exact absurd hr.symm (Int.ne_of_lt (pairwise_iff_getElem.mp h j i hj hi hij))

/-- In an ascending list the last event of a key is the highest one. -/
theorem last_eq_some_iff (h : K.Ascending l) :
    K.last k l = some a ↔ a ∈ l ∧ K.key a = some k ∧ ∀ b ∈ l, K.key b = some k → K.rank b ≤ K.rank a := by
  have hfilter : K.Ascending (l.filter fun a => decide (K.key a = some k)) := h.filter _
  have hmem : ∀ b, b ∈ l.filter (fun a => decide (K.key a = some k)) ↔ b ∈ l ∧ K.key b = some k := by simp
  constructor
  · intro hlast
    have hla : a ∈ l.filter fun a => decide (K.key a = some k) := mem_of_getLast? hlast
    obtain ⟨hin, hkey⟩ := (hmem a).mp hla
    refine ⟨hin, hkey, fun b hb hbk => ?_⟩
    obtain ⟨init, hsplit⟩ := getLast?_eq_some_iff.mp hlast
    have hbf := (hmem b).mpr ⟨hb, hbk⟩
    rw [hsplit] at hfilter
    rw [hsplit] at hbf
    rcases mem_append.mp hbf with hbi | hba
    · exact Int.le_of_lt ((pairwise_append.mp hfilter).2.2 b hbi a (mem_singleton_self a))
    · exact Int.le_of_eq (congrArg K.rank (mem_singleton.mp hba))
  · rintro ⟨hin, hkey, hmax⟩
    have hne : l.filter (fun a => decide (K.key a = some k)) ≠ [] := ne_nil_of_mem ((hmem a).mpr ⟨hin, hkey⟩)
    obtain ⟨b, hb⟩ := Option.isSome_iff_exists.mp (getLast?_isSome.mpr hne)
    obtain ⟨init, hsplit⟩ := getLast?_eq_some_iff.mp hb
    have hbl := (hmem b).mp (mem_of_getLast? hb)
    have hle := hmax b hbl.1 hbl.2
    have haf := (hmem a).mpr ⟨hin, hkey⟩
    rw [last, hb]
    rw [hsplit] at hfilter
    rw [hsplit] at haf
    rcases mem_append.mp haf with hai | hab
    · have := (pairwise_append.mp hfilter).2.2 a hai b (mem_singleton_self b)
      omega
    · rw [mem_singleton.mp hab]

theorem last_isSome (ha : a ∈ l) (hk : K.key a = some k) : ∃ w, K.last k l = some w := by
  refine Option.isSome_iff_exists.mp (getLast?_isSome.mpr ?_)
  exact ne_nil_of_mem (mem_filter.mpr ⟨ha, decide_eq_true hk⟩)

theorem retained_iff (h : K.Ascending l) : K.Retained l a ↔
    a ∈ l ∧ K.alive a = true ∧ ∃ k, K.key a = some k ∧ ∀ b ∈ l, K.key b = some k → K.rank b ≤ K.rank a := by
  simp only [Retained, live_eq_some_iff, last_eq_some_iff h]
  constructor
  · rintro ⟨k, ⟨hin, hkey, hmax⟩, halive⟩
    exact ⟨hin, halive, k, hkey, hmax⟩
  · rintro ⟨hin, halive, k, hkey, hmax⟩
    exact ⟨k, ⟨hin, hkey, hmax⟩, halive⟩

omit [DecidableEq κ] in
theorem Ascending.rank_lt {l l' : List α} (h : K.Ascending (l ++ l')) (ha : a ∈ l) (hb : b ∈ l') : K.rank a < K.rank b :=
  (pairwise_append.mp h).2.2 a ha b hb

/-- An event with only older ones put before it stays retained, and becomes so by nothing else. -/
theorem retained_suffix {gone kept : List α} (h : K.Ascending (gone ++ kept)) (ha : a ∈ kept) :
    K.Retained (gone ++ kept) a ↔ K.Retained kept a := by
  rw [retained_iff h, retained_iff (pairwise_append.mp h).2.1]
  constructor
  · rintro ⟨-, halive, k, hkey, hmax⟩
    exact ⟨ha, halive, k, hkey, fun b hb => hmax b (mem_append_right _ hb)⟩
  · rintro ⟨-, halive, k, hkey, hmax⟩
    refine ⟨mem_append_right _ ha, halive, k, hkey, fun b hb hbk => ?_⟩
    rcases mem_append.mp hb with hb | hb
    · exact Int.le_of_lt (h.rank_lt hb ha)
    · exact hmax b hb hbk

/-- From `n` on a key has the live event it has in the whole list, or none if that one lies before. -/
theorem live_from (h : K.Ascending l) (n : Int) (k : κ) :
    K.live k (l.filter fun a => decide (n ≤ K.rank a)) = (K.live k l).filter fun a => decide (n ≤ K.rank a) := by
  have hfrom : K.Ascending (l.filter fun a => decide (n ≤ K.rank a)) := h.filter _
  refine Option.ext fun a => ?_
  simp only [Option.filter_eq_some_iff, live_eq_some_iff, last_eq_some_iff h, last_eq_some_iff hfrom, mem_filter,
    decide_eq_true_eq]
  constructor
  · rintro ⟨⟨⟨hin, hn⟩, hkey, hmax⟩, halive⟩
    refine ⟨⟨⟨hin, hkey, fun b hb hbk => ?_⟩, halive⟩, hn⟩
    by_cases hbn : n ≤ K.rank b
    · exact hmax b ⟨hb, hbn⟩ hbk
    · exact Int.le_trans (Int.le_of_lt (Int.not_le.mp hbn)) hn
  · rintro ⟨⟨⟨hin, hkey, hmax⟩, halive⟩, hn⟩
    exact ⟨⟨⟨hin, hn⟩, hkey, fun b hb hbk => hmax b hb.1 hbk⟩, halive⟩

theorem last_append (l l' : List α) : K.last k (l ++ l') = (K.last k l').or (K.last k l) := by
  rw [last, filter_append, getLast?_append]
  rfl

/-- A prefix without a live event is of no account. -/
theorem live_of_suffix {gone kept : List α} (h : ∀ a ∈ gone, ¬ K.Retained (gone ++ kept) a) (k : κ) :
    K.live k (gone ++ kept) = K.live k kept := by
  cases hkept : K.last k kept with
  | some w => rw [live, live, last_append, hkept, Option.some_or]
  | none =>
    have hnone : K.live k kept = none := by rw [live, hkept, Option.filter_none]
    rw [hnone]
    by_contra hne
    obtain ⟨a, ha⟩ := Option.ne_none_iff_exists'.mp hne
    have hlast := (live_eq_some_iff.mp ha).1
    rw [last_append, hkept] at hlast
    exact h a (mem_of_mem_filter (mem_of_getLast? hlast)) ⟨k, ha⟩

section
variable (h : K.Ascending l) {kept : List α} (hkept : K.Ascending kept) (mem : ∀ a, a ∈ kept ↔ K.Retained l a)
include h hkept mem

/-- The retained events have the same live events as the list they are retained of, -/
theorem live_of_retained :
    K.live k kept = K.live k l := by
  refine Option.ext fun a => ?_
  constructor
  · intro hlive
    obtain ⟨hin, hkey, -⟩ := (last_eq_some_iff hkept).mp (live_eq_some_iff.mp hlive).1
    obtain ⟨k', hk'⟩ := (mem a).mp hin
    obtain ⟨-, hkey', -⟩ := (last_eq_some_iff h).mp (live_eq_some_iff.mp hk').1
    cases hkey.symm.trans hkey'
    exact hk'
  · intro hlive
    obtain ⟨hlast, halive⟩ := live_eq_some_iff.mp hlive
    obtain ⟨-, hkey, hmax⟩ := (last_eq_some_iff h).mp hlast
    refine live_eq_some_iff.mpr ⟨(last_eq_some_iff hkept).mpr ⟨(mem a).mpr ⟨k, hlive⟩, hkey, fun b hb => hmax b ?_⟩, halive⟩
    exact ((retained_iff h).mp ((mem b).mp hb)).1

/-- also with the same events after them. -/
theorem live_append_of_retained
    (tail : List α) : K.live k (kept ++ tail) = K.live k (l ++ tail) := by
  rw [live, live, last_append, last_append]
  cases K.last k tail with
  | some a => rfl
  | none => exact live_of_retained h hkept mem

end

section Splice

variable {dropped kept tail view : List α} {n x : Int}

/-- A retained event is the highest of its key. -/
theorem Retained.rank_le (h : K.Ascending l) (ha : K.Retained l a) (hk : K.key a = some k) (hb : b ∈ l)
    (hbk : K.key b = some k) : K.rank b ≤ K.rank a := by
  obtain ⟨-, -, k', hkey, hmax⟩ := (retained_iff h).mp ha
  obtain rfl : k' = k := Option.some.inj (hkey.symm.trans hk)
  exact hmax b hb hbk

/-- A view that takes retained events below `x` and every event of a suffix above it shows the same live
    events as the list from `n` on, if the retained events above `x` are in the suffix. -/
theorem live_splice (asc : K.Ascending (dropped ++ kept ++ tail)) (ascView : K.Ascending view) (hnx : n ≤ x)
    (mem : ∀ a, a ∈ view ↔ (K.Retained (dropped ++ kept) a ∧ n ≤ K.rank a ∧ K.rank a < x) ∨
      (a ∈ kept ++ tail ∧ x ≤ K.rank a))
    (hretained : ∀ a, K.Retained (dropped ++ kept) a → x ≤ K.rank a → a ∈ kept)
    (htail : ∀ a ∈ tail, n ≤ K.rank a → x ≤ K.rank a) (k : κ) :
    K.live k view = K.live k ((dropped ++ kept ++ tail).filter fun a => decide (n ≤ K.rank a)) := by
  have ascFrom : K.Ascending ((dropped ++ kept ++ tail).filter fun a => decide (n ≤ K.rank a)) := asc.filter _
  have ascSealed : K.Ascending (dropped ++ kept) := (pairwise_append.mp asc).1
  have hfrom : ∀ a, a ∈ (dropped ++ kept ++ tail).filter (fun a => decide (n ≤ K.rank a)) ↔
      a ∈ dropped ++ kept ++ tail ∧ n ≤ K.rank a := fun a => by rw [mem_filter, decide_eq_true_eq]
  -- The view is part of the list, and it has the retained events from `n` on.
  have hsub : ∀ a ∈ view, a ∈ dropped ++ kept ++ tail ∧ n ≤ K.rank a := by
    intro a ha
    rcases (mem a).mp ha with ⟨hr, hn, -⟩ | ⟨hin, hx⟩
    · exact ⟨mem_append_left _ ((retained_iff ascSealed).mp hr).1, hn⟩
    · refine ⟨?_, Int.le_trans hnx hx⟩
      rw [append_assoc]
      exact mem_append_right _ hin
  have hkeeps : ∀ a, K.Retained (dropped ++ kept) a → n ≤ K.rank a → a ∈ view := by
    intro a hr hn
    refine (mem a).mpr ?_
    by_cases hx : K.rank a < x
    · exact Or.inl ⟨hr, hn, hx⟩
    · exact Or.inr ⟨mem_append_left _ (hretained a hr (Int.not_lt.mp hx)), Int.not_lt.mp hx⟩
  have htailView : ∀ a ∈ tail, n ≤ K.rank a → a ∈ view := fun a ha hn =>
    (mem a).mpr (Or.inr ⟨mem_append_right _ ha, htail a ha hn⟩)
  refine Option.ext fun a => ?_
  simp only [live_eq_some_iff, last_eq_some_iff ascView, last_eq_some_iff ascFrom]
  constructor
  · rintro ⟨⟨hin, hkey, hmax⟩, halive⟩
    refine ⟨⟨(hfrom a).mpr (hsub a hin), hkey, fun b hb hbk => ?_⟩, halive⟩
    obtain ⟨hbin, hbn⟩ := (hfrom b).mp hb
    rcases mem_append.mp hbin with hbs | hbt
    · -- `b` is at or below the last sealed event of the key, which the view has or `a` is above.
      obtain ⟨w, hw⟩ := last_isSome hbs hbk
      obtain ⟨hwin, hwk, hwmax⟩ := (last_eq_some_iff ascSealed).mp hw
      have hbw := hwmax b hbs hbk
      by_cases hwa : K.alive w = true
      · exact Int.le_trans hbw (hmax w (hkeeps w ⟨k, live_eq_some_iff.mpr ⟨hw, hwa⟩⟩ (Int.le_trans hbn hbw)) hwk)
      · rcases (mem a).mp hin with ⟨hr, -, -⟩ | ⟨hain, hax⟩
        · exact hr.rank_le ascSealed hkey hbs hbk
        · rcases mem_append.mp hain with hak | hat
          · have haw := hwmax a (mem_append_right _ hak) hkey
            have hwkept : w ∈ kept := by
              rcases mem_append.mp hwin with hwd | hwk
              · exact absurd (ascSealed.rank_lt hwd hak) (Int.not_lt.mpr haw)
              · exact hwk
            have hwview : w ∈ view := (mem w).mpr (Or.inr ⟨mem_append_left _ hwkept, Int.le_trans hax haw⟩)
            exact Int.le_trans hbw (hmax w hwview hwk)
          · exact Int.le_of_lt (asc.rank_lt hbs hat)
    · exact hmax b (htailView b hbt hbn) hbk
  · rintro ⟨⟨hin, hkey, hmax⟩, halive⟩
    obtain ⟨hain, han⟩ := (hfrom a).mp hin
    refine ⟨⟨?_, hkey, fun b hb hbk => hmax b ((hfrom b).mpr (hsub b hb)) hbk⟩, halive⟩
    rcases mem_append.mp hain with has | hat
    · refine hkeeps a ((retained_iff ascSealed).mpr ⟨has, halive, k, hkey, fun b hb hbk => ?_⟩) han
      by_cases hbn : n ≤ K.rank b
      · exact hmax b ((hfrom b).mpr ⟨mem_append_left _ hb, hbn⟩) hbk
      · exact Int.le_trans (Int.le_of_lt (Int.not_le.mp hbn)) han
    · exact htailView a hat han

end Splice
end Keying
end Lib
