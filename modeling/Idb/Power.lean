import Mathlib.Data.UInt
import Mathlib.Tactic

/-!
# Powers of integers

`ipow` squares the base and halves the exponent, in 32 bits. What it returns is the power modulo
`2^32` (`ipow_spec`), and the loop ends exactly for the exponents that are not negative. The size
of an index block is a power of two or four, for which the source has a shift instead ; the
preprocessor chooses between them.
-/

namespace Idb

/-! ## Squaring in a monoid -/

section

variable {α : Type*} [Monoid α]

/-- The result times the power that is left stays the same in a turn. -/
theorem mul_pow_half (result base : α) (n : ℕ) :
    (if n % 2 = 1 then result * base else result) * (base * base) ^ (n / 2) =
      result * base ^ n := by
  have hn := Nat.div_add_mod n 2
  rw [← pow_two, ← pow_mul]
  split_ifs with h
  · rw [mul_assoc, ← pow_succ', ← h, hn]
  · rw [show n % 2 = 0 by omega, add_zero] at hn
    rw [hn]

end

/-! ## The source -/

/-- A power of two is one shift. -/
def ipow2 (n : Int32) : UInt32 :=
  ((1 : Int32) <<< n).toUInt32

/-- The loop of `ipow`, which may not end. -/
def ipowLoop : ℕ → UInt32 → Int32 → Int32 → Option UInt32
  | 0, result, _, n => if n = 0 then some result else none
  | fuel + 1, result, base, n =>
    if n = 0 then some result
    else
      let result := if n &&& 1 ≠ 0 then result * base.toUInt32 else result
      ipowLoop fuel result (base * base) (n >>> 1)

/-- The result, if the loop ends within 32 turns. -/
def ipow (base n : Int32) : Option UInt32 :=
  ipowLoop 32 1 base n

/-- The block size that belongs to a power : `IINDEX_BLOCK_SIZE` is `4*256` without brackets. -/
def blockSize (power : UInt32) : Int32 :=
  (power * 4 * 256).toInt32

/-- `iIndexBlockSize`, for a value of `IINDEX_BLOCK_BASE`. -/
def iIndexBlockSize (iIndexBlockBase n : Int32) : Option Int32 :=
  if iIndexBlockBase = 2 then some (blockSize (ipow2 n))
  else if iIndexBlockBase = 4 then some (blockSize (ipow2 (2 * n)))
  else (ipow iIndexBlockBase n).map blockSize

/-! ## One turn -/

section

variable {result : UInt32} {base n : Int32} {fuel : ℕ}

theorem toInt_shiftRight_one (n : Int32) : (n >>> 1).toInt = n.toInt / 2 := by
  have hamount : (Int32.toBitVec 1).smod 32 = 1 := by decide
  rw [← Int32.toInt_toBitVec, Int32.toBitVec_shiftRight, hamount, BitVec.sshiftRight_eq',
    BitVec.toInt_sshiftRight, Int.shiftRight_eq_div_pow, Int32.toInt_toBitVec]
  rfl

/-- The lowest bit of a number that is not negative is its parity. -/
theorem and_one_ne_zero_iff (h : 0 ≤ n) : n &&& 1 ≠ 0 ↔ n.toInt.toNat % 2 = 1 := by
  have hand : (n &&& 1).toUInt32.toNat = n.toInt.toNat % 2 := by
    rw [Int32.toUInt32_and, UInt32.toNat_and, Int32.toNat_toUInt32_of_le h]
    exact Nat.and_one_is_mod _
  have hzero : n &&& 1 = 0 ↔ (n &&& 1).toUInt32.toNat = 0 := by
    refine ⟨fun he => by rw [he]; rfl, fun he => ?_⟩
    rw [← Int32.toInt32_toUInt32 (n &&& 1), (UInt32.toNat_inj (b := 0)).1 he]
    rfl
  rw [ne_eq, hzero, hand]
  omega

/-- The loop ends, when the exponent has no more bits than there are turns. -/
theorem ipowLoop_eq (h : 0 ≤ n) (hn : n.toInt < 2 ^ fuel) :
    ipowLoop fuel result base n = some (result * base.toUInt32 ^ n.toInt.toNat) := by
  induction fuel generalizing result base n with
  | zero =>
    have hz : n = 0 := by
      rw [Int32.le_iff_toInt_le, Int32.toInt_zero] at h
      rw [← Int32.toInt_inj, Int32.toInt_zero]
      omega
    simp [ipowLoop, hz]
  | succ fuel ih =>
    by_cases hz : n = 0
    · simp [ipowLoop, hz]
    · have hhalf := toInt_shiftRight_one n
      rw [Int32.le_iff_toInt_le, Int32.toInt_zero] at h
      have hnat : (n >>> 1).toInt.toNat = n.toInt.toNat / 2 := by omega
      rw [ipowLoop, if_neg hz]
      dsimp only
      rw [ih (by rw [Int32.le_iff_toInt_le, hhalf, Int32.toInt_zero]; omega)
        (by rw [hhalf]; omega), hnat, Int32.toUInt32_mul]
      simp only [and_one_ne_zero_iff (Int32.le_iff_toInt_le.2 h)]
      rw [mul_pow_half]

/-- The power on words is the power modulo `2 ^ 32`. -/
theorem toNat_toUInt32_pow (base : Int32) (k : ℕ) :
    ((base.toUInt32 ^ k).toNat : ℤ) = base.toInt ^ k % 2 ^ 32 := by
  have hbase : base.toInt ≡ base.toUInt32.toNat [ZMOD 2 ^ 32] := by
    rw [← Int32.toInt_toBitVec, BitVec.toInt_eq_toNat_bmod]
    exact Int.bmod_emod
  induction k with
  | zero =>
    rw [pow_zero, pow_zero]
    rfl
  | succ k ih =>
    have hmul : ((base.toUInt32 ^ k * base.toUInt32).toNat : ℤ) =
        (base.toUInt32 ^ k).toNat * base.toUInt32.toNat % 2 ^ 32 := by
      rw [UInt32.toNat_mul]
      push_cast
      rfl
    rw [pow_succ, hmul, ih, pow_succ base.toInt]
    exact (Int.mod_modEq _ _).mul hbase.symm

end

/-- The power modulo `2^32`. -/
def IsPower (base n : Int32) (power : UInt32) : Prop :=
  (power.toNat : ℤ) = base.toInt ^ n.toInt.toNat % 2 ^ 32

theorem ipow_eq {base n : Int32} (h : 0 ≤ n) : ∃ power, ipow base n = some power ∧
    IsPower base n power := by
  have hlt := Int32.toInt_lt n
  refine ⟨_, ipowLoop_eq h (by omega), ?_⟩
  rw [IsPower, one_mul, toNat_toUInt32_pow]

/-- `ipow2` agrees with `ipow` to the bases `2` and `4`. -/
theorem ipow2_eq_ipow {n : Int32} (h : 0 ≤ n) (hn : 2 * n.toInt < 32) :
    ipow 4 n = some (ipow2 (2 * n)) ∧ ipow 2 n = some (ipow2 n) := by
  have hall : ∀ i : Fin 16, ipow 4 (Int32.ofNat i) = some (ipow2 (2 * Int32.ofNat i)) ∧
      ipow 2 (Int32.ofNat i) = some (ipow2 (Int32.ofNat i)) := by
    decide +kernel
  rw [Int32.le_iff_toInt_le, Int32.toInt_zero] at h
  have heq : n = Int32.ofNat n.toInt.toNat := by
    rw [← Int32.toInt_inj, Int32.toInt_ofNat_of_lt (by omega)]
    omega
  rw [heq]
  exact hall ⟨n.toInt.toNat, by omega⟩

/-- The block size by the branch for a base is the one by `ipow`. -/
def SameBlockSize (iIndexBlockBase n : Int32) : Prop :=
  iIndexBlockSize iIndexBlockBase n = (ipow iIndexBlockBase n).map blockSize

/-- `ipow` ends with the power modulo `2^32` ; where the shifts are defined, they are powers of
two and four, and the block sizes by them are those by `ipow`. -/
theorem ipow_spec (base n : Int32) (h : 0 ≤ n) :
    (∃ power, ipow base n = some power ∧ IsPower base n power) ∧
      (2 * n.toInt < 32 → ipow 4 n = some (ipow2 (2 * n)) ∧ ipow 2 n = some (ipow2 n) ∧
        SameBlockSize 4 n ∧ SameBlockSize 2 n) := by
  refine ⟨ipow_eq h, fun hn => ?_⟩
  obtain ⟨hfour, htwo⟩ := ipow2_eq_ipow h hn
  refine ⟨hfour, htwo, ?_, ?_⟩
  · rw [SameBlockSize, iIndexBlockSize, if_neg (by decide), if_pos rfl, hfour, Option.map_some]
  · rw [SameBlockSize, iIndexBlockSize, if_pos rfl, htwo, Option.map_some]

theorem ipow_spec_seven : (∃ power, ipow (-3) 7 = some power ∧ IsPower (-3) 7 power) ∧
    (2 * (7 : Int32).toInt < 32 → ipow 4 7 = some (ipow2 (2 * 7)) ∧ ipow 2 7 = some (ipow2 7) ∧
      SameBlockSize 4 7 ∧ SameBlockSize 2 7) :=
  ipow_spec (-3) 7 (by decide)

end Idb
