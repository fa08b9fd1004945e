import Mathlib.Tactic

/-!
# Integers of C

Conversions to the signed types that the source keeps sizes and characters in.
-/

namespace Idb

/-! ## Characters -/

/-- The value of a byte as a signed `char`. -/
def charOf (b : UInt8) : ℤ :=
  b.toInt8.toInt

theorem charOf_eq (b : UInt8) :
    charOf b = if b.toNat < 128 then (b.toNat : ℤ) else b.toNat - 256 := by
  rw [charOf, ← Int8.toInt_toBitVec, UInt8.toBitVec_toInt8, BitVec.toInt_eq_toNat_cond,
    UInt8.toNat_toBitVec]
  split_ifs <;> first | rfl | omega

/-- Bytes are told apart as `char`. -/
theorem charOf_injective : Function.Injective charOf := by
  intro a b h
  have ha := a.toNat_lt
  have hb := b.toNat_lt
  rw [charOf_eq, charOf_eq] at h
  rw [← UInt8.toNat_inj]
  split_ifs at h <;> omega

/-! ## Sizes -/

/-- Conversion to `int`. -/
def intOf (x : ℤ) : ℤ :=
  x.bmod (2 ^ 32)

theorem intOf_bounds (x : ℤ) : -2 ^ 31 ≤ intOf x ∧ intOf x < 2 ^ 31 := by
  unfold intOf Int.bmod
  dsimp only
  split_ifs <;> omega

theorem intOf_eq {x : ℤ} (h : -2 ^ 31 ≤ x) (h' : x < 2 ^ 31) : intOf x = x := by
  unfold intOf Int.bmod
  dsimp only
  split_ifs <;> omega

/-- A count that is cut to `int` is right if it is right and small. -/
theorem intOf_eq_length {k : ℤ} {m : ℕ} (h : -2 ^ 31 ≤ k) (hk : k ≤ m) :
    intOf k = m ↔ k = m ∧ m < 2 ^ 31 := by
  have := intOf_bounds k
  by_cases hlt : k < 2 ^ 31
  · rw [intOf_eq h hlt]
    omega
  · omega

theorem intOf_le {k : ℤ} {m : ℕ} (h : -2 ^ 31 ≤ k) (hk : k ≤ m) : intOf k ≤ m := by
  have := intOf_bounds k
  by_cases hlt : k < 2 ^ 31
  · rwa [intOf_eq h hlt]
  · omega

theorem intOf_natCast {n : ℕ} (h : n < 2 ^ 31) : intOf n = n :=
  intOf_eq (by omega) (by omega)

theorem intOf_add (x y : ℤ) : intOf (intOf x + y) = intOf (x + y) :=
  Int.bmod_add_bmod

/-- A size that is positive as an `int` is the size, or has lost a multiple of `2^32`. -/
theorem intOf_of_pos {n : ℕ} (h : 0 < intOf n) : intOf n = n ∨ intOf n + 2 ^ 32 ≤ n := by
  revert h
  unfold intOf Int.bmod
  dsimp only
  split_ifs <;> omega

end Idb
