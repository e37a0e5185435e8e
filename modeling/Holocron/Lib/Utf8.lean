import Holocron.Lib.Bytes

/-! Byte strings as UTF-8 text, as Go's `encoding/json` writes and reads them. -/

namespace Lib
open List

def continuation (b : UInt8) : Bool := 0x80 ≤ b && b ≤ 0xBF

def second (first b : UInt8) : Bool :=
  if first = 0xE0 then 0xA0 ≤ b && b ≤ 0xBF
  else if first = 0xED then 0x80 ≤ b && b ≤ 0x9F
  else if first = 0xF0 then 0x90 ≤ b && b ≤ 0xBF
  else if first = 0xF4 then 0x80 ≤ b && b ≤ 0x8F
  else continuation b

def runeLength (first : UInt8) : Nat :=
  if first < 0x80 then 1
  else if first < 0xC2 then 0
  else if first < 0xE0 then 2
  else if first < 0xF0 then 3
  else if first < 0xF5 then 4
  else 0

def takeRune : Bytes → Option (Bytes × Bytes)
  | [] => none
  | b :: rest =>
    match runeLength b, rest with
    | 1, rest => some ([b], rest)
    | 2, c :: rest => if second b c then some ([b, c], rest) else none
    | 3, c :: d :: rest => if second b c && continuation d then some ([b, c, d], rest) else none
    | 4, c :: d :: e :: rest => if second b c && continuation d && continuation e then some ([b, c, d, e], rest) else none
    | _, _ => none

def replacementChar : Bytes := [0xEF, 0xBF, 0xBD]

/-- Every byte that starts no rune gives way to the replacement character; `n` bounds the runes. -/
def toValidLoop : Nat → Bytes → Bytes
  | 0, _ => []
  | n + 1, b =>
    match takeRune b, b with
    | some (rune, rest), _ => rune ++ toValidLoop n rest
    | none, [] => []
    | none, _ :: rest => replacementChar ++ toValidLoop n rest

def toValidUTF8 (b : Bytes) : Bytes := toValidLoop b.length b

variable {b : Bytes}

/-- A rune is found again before any other bytes. -/
theorem takeRune_append {rune rest : Bytes} (h : takeRune b = some (rune, rest)) (tail : Bytes) :
    takeRune (rune ++ tail) = some (rune, tail) := by
  unfold takeRune at h
  split at h
  · cases h
  split at h
  · rename_i hlen
    cases h
    simp [takeRune, hlen]
  · rename_i hlen
    split at h
    · cases h
      rename_i hsecond
      simp [takeRune, hlen, hsecond]
    · cases h
  iterate 2
    · rename_i hlen
      split at h
      · cases h
        rename_i hok
        simp [takeRune, hlen, hok]
      · cases h
  · cases h

theorem takeRune_split {rune rest : Bytes} (h : takeRune b = some (rune, rest)) : b = rune ++ rest ∧ rune ≠ [] := by
  unfold takeRune at h
  split at h
  · cases h
  split at h
  · cases h
    exact ⟨rfl, cons_ne_nil _ _⟩
  iterate 3
    · split at h
      · cases h
        exact ⟨rfl, cons_ne_nil _ _⟩
      · cases h
  · cases h

theorem takeRune_replacementChar (tail : Bytes) : takeRune (replacementChar ++ tail) = some (replacementChar, tail) :=
  @takeRune_append replacementChar replacementChar [] (by decide) tail

/-- The bytes are whole runes. -/
inductive ValidUTF8 : Bytes → Prop where
  | nil : ValidUTF8 []
  | rune {b rune rest : Bytes} (take : takeRune b = some (rune, rest)) (valid : ValidUTF8 rest) : ValidUTF8 b

theorem valid_toValidLoop (n : Nat) (b : Bytes) : ValidUTF8 (toValidLoop n b) := by
  induction n generalizing b with
  | zero => exact .nil
  | succ n ih =>
    unfold toValidLoop
    split
    · rename_i take
      exact .rune (takeRune_append take _) (ih _)
    · exact .nil
    · exact .rune (takeRune_replacementChar _) (ih _)

theorem ValidUTF8.toValidLoop (h : ValidUTF8 b) {n : Nat} (hn : b.length ≤ n) : toValidLoop n b = b := by
  induction h generalizing n with
  | nil => cases n <;> rfl
  | @rune b rune rest take valid ih =>
    obtain ⟨rfl, hne⟩ := takeRune_split take
    have hpos := length_pos_iff.mpr hne
    rw [length_append] at hn
    cases n with
    | zero => omega
    | succ n =>
      unfold Lib.toValidLoop
      simp only [take]
      rw [ih (by omega)]

theorem toValidUTF8_eq_self_iff : toValidUTF8 b = b ↔ ValidUTF8 b := by
  refine ⟨fun h => ?_, fun h => h.toValidLoop (Nat.le_refl _)⟩
  rw [← h]
  exact valid_toValidLoop _ _

@[simp] theorem toValidUTF8_idem (b : Bytes) : toValidUTF8 (toValidUTF8 b) = toValidUTF8 b :=
  toValidUTF8_eq_self_iff.mpr (valid_toValidLoop _ _)

instance (b : Bytes) : Decidable (ValidUTF8 b) := decidable_of_iff _ toValidUTF8_eq_self_iff

end Lib
