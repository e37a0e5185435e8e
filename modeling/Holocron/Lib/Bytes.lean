import Mathlib.Algebra.GroupWithZero.Nat
import Mathlib.Algebra.Ring.Int.Defs
import Mathlib.Data.List.Induction

/-! Byte strings and fixed-width big-endian integers, as `encoding/binary` reads and writes them: writing wraps modulo
    `256 ^ width`. -/

namespace Lib

abbrev Bytes := List UInt8

def utf8 (s : String) : Bytes := s.toUTF8.data.toList

def bigEndian : Nat → Nat → Bytes
  | 0, _ => []
  | w + 1, n => bigEndian w (n / 256) ++ [UInt8.ofNat n]

def ofBigEndian (b : Bytes) : Nat :=
  b.foldl (fun acc x => acc * 256 + x.toNat) 0

@[simp] theorem length_bigEndian (w n : Nat) : (bigEndian w n).length = w := by
  induction w generalizing n with
  | zero => rfl
  | succ w ih => simp [bigEndian, ih]

theorem ofBigEndian_append (b : Bytes) (x : UInt8) : ofBigEndian (b ++ [x]) = ofBigEndian b * 256 + x.toNat := by
  simp [ofBigEndian]

theorem ofBigEndian_bigEndian (w n : Nat) : ofBigEndian (bigEndian w n) = n % 256 ^ w := by
  induction w generalizing n with
  | zero => simp [bigEndian, ofBigEndian, Nat.mod_one]
  | succ w ih =>
    rw [bigEndian, ofBigEndian_append, ih, Nat.pow_succ', Nat.mod_mul, UInt8.toNat_ofNat']
    omega

variable {w : Nat} {x : Int}

theorem ofBigEndian_bigEndian_of_lt {n : Nat} (h : n < 256 ^ w) : ofBigEndian (bigEndian w n) = n := by
  rw [ofBigEndian_bigEndian, Nat.mod_eq_of_lt h]

theorem ofBigEndian_lt (b : Bytes) : ofBigEndian b < 256 ^ b.length := by
  induction b using List.reverseRecOn with
  | nil => simp [ofBigEndian]
  | append_singleton b x ih =>
    have hx : x.toNat < 256 := x.toNat_lt
    rw [ofBigEndian_append, List.length_append, List.length_singleton]
    omega

theorem bigEndian_ofBigEndian (b : Bytes) : bigEndian b.length (ofBigEndian b) = b := by
  induction b using List.reverseRecOn with
  | nil => rfl
  | append_singleton b x ih =>
    have hx : x.toNat < 256 := x.toNat_lt
    have hdiv : (ofBigEndian b * 256 + x.toNat) / 256 = ofBigEndian b := by omega
    have hlast : UInt8.ofNat (ofBigEndian b * 256 + x.toNat) = x := by
      rw [← UInt8.toNat_inj, UInt8.toNat_ofNat']
      omega
    rw [ofBigEndian_append, List.length_append, List.length_singleton, bigEndian, hdiv, ih, hlast]

/-- Go's conversion of an `int64` to `uint64`, and its truncation to narrower widths. -/
def toUnsigned (w : Nat) (x : Int) : Nat := (x % (256 ^ w : Nat)).toNat

/-- Go's conversion of an unsigned value of `w` bytes to the signed type of that width. -/
def toSigned (w : Nat) (n : Nat) : Int := if 2 * n < 256 ^ w then n else (n : Int) - (256 ^ w : Nat)

/-- In two's complement the number fits `w` bytes. -/
def Signed (w : Nat) (x : Int) : Prop := -(256 ^ w : Nat) ≤ 2 * x ∧ 2 * x < (256 ^ w : Nat)

instance (w : Nat) (x : Int) : Decidable (Signed w x) := by unfold Signed; infer_instance

theorem toUnsigned_lt (w : Nat) (x : Int) : toUnsigned w x < 256 ^ w := by
  unfold toUnsigned
  omega

theorem toUnsigned_of_lt (h0 : 0 ≤ x) (h : x < (256 ^ w : Nat)) : toUnsigned w x = x.toNat := by
  rw [toUnsigned, Int.emod_eq_of_lt h0 h]

theorem toSigned_toUnsigned (h : Signed w x) : toSigned w (toUnsigned w x) = x := by
  obtain ⟨hl, hu⟩ := h
  unfold toSigned toUnsigned
  by_cases hx : 0 ≤ x
  · rw [Int.emod_eq_of_lt hx (by omega)]
    omega
  · have hmod : x % (256 ^ w : Nat) = x + (256 ^ w : Nat) := by
      rw [← Int.add_emod_right, Int.emod_eq_of_lt (by omega) (by omega)]
    omega

theorem toUnsigned_toSigned {n : Nat} (h : n < 256 ^ w) : toUnsigned w (toSigned w n) = n := by
  unfold toSigned
  split
  · rw [toUnsigned_of_lt (Int.natCast_nonneg n) (by exact_mod_cast h), Int.toNat_natCast]
  · rw [toUnsigned, Int.sub_emod_right, Int.emod_eq_of_lt (Int.natCast_nonneg n) (by exact_mod_cast h), Int.toNat_natCast]

/-- A signed integer survives being written and read back at its own width. -/
theorem toSigned_ofBigEndian (h : Signed w x) :
    toSigned w (ofBigEndian (bigEndian w (toUnsigned w x))) = x := by
  rw [ofBigEndian_bigEndian_of_lt (toUnsigned_lt w x), toSigned_toUnsigned h]

end Lib
