import Mathlib.Data.List.Basic

/-! Names joined by a separator that they may contain themselves. -/

namespace Lib
open List

variable {α : Type} [DecidableEq α] {x : α}

def words (x : α) (names : List (List α)) : List (List α) := names.flatMap (List.splitOn x)

/-- A joined list of names has the words of the names. -/
theorem splitOn_intercalate_names {names : List (List α)} (h : names ≠ []) :
    ([x].intercalate names).splitOn x = words x names := by
  induction names with
  | nil => exact absurd rfl h
  | cons a names ih =>
    cases names with
    | nil => simp [words]
    | cons b names =>
      rw [intercalate_cons_cons, append_assoc, singleton_append, splitOn_append_cons_self, ih (cons_ne_nil _ _)]
      rfl

theorem intercalate_eq_iff {a b : List (List α)} (ha : a ≠ []) (hb : b ≠ []) :
    [x].intercalate a = [x].intercalate b ↔ words x a = words x b := by
  constructor
  · intro h
    rw [← splitOn_intercalate_names ha, ← splitOn_intercalate_names hb, h]
  · intro h
    calc [x].intercalate a = [x].intercalate (words x a) := by rw [← splitOn_intercalate_names ha, intercalate_splitOn]
      _ = [x].intercalate (words x b) := by rw [h]
      _ = [x].intercalate b := by rw [← splitOn_intercalate_names hb, intercalate_splitOn]

end Lib
