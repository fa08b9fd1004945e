import Mathlib.Data.List.TakeWhile
import Mathlib.Data.Nat.Digits.Lemmas
import Mathlib.Tactic

/-!
# Numbers as text

`printf` writes a number in base 10 (`decimalText`). `strtoll` with the base 0 reads the base off
the text, and reports a number that is out of range. What was printed is read back
(`strtoll_decimalText`).
-/

namespace Numerals

/-! ## Printing -/

/-- The characters of a number in base 10. -/
def digitsText (n : ℕ) : List UInt8 :=
  if n = 0 then [48] else (Nat.digits 10 n).reverse.map fun d => UInt8.ofNat (48 + d)

/-- `%lld`. -/
def decimalText (n : ℤ) : List UInt8 :=
  if n < 0 then 45 :: digitsText n.natAbs else digitsText n.natAbs

/-! ## Reading -/

/-- The characters that `isspace` knows. -/
def isSpace (b : UInt8) : Bool :=
  b = 32 || (9 ≤ b && b ≤ 13)

/-- The value of a digit in any base. -/
def digitValue (b : UInt8) : Option ℕ :=
  if 48 ≤ b ∧ b ≤ 57 then some (b.toNat - 48)
  else if 97 ≤ b ∧ b ≤ 122 then some (b.toNat - 87)
  else if 65 ≤ b ∧ b ≤ 90 then some (b.toNat - 55)
  else none

/-- The number that the digits at the front of a text spell, when `n` has been read. -/
def readDigits (base : ℕ) : ℕ → List UInt8 → ℕ
  | n, [] => n
  | n, b :: text =>
    match digitValue b with
    | some d => if d < base then readDigits base (n * base + d) text else n
    | none => n

/-- A number with the prefix of its base. -/
def readMagnitude : List UInt8 → ℕ
  | 48 :: 120 :: text => readDigits 16 0 text
  | 48 :: 88 :: text => readDigits 16 0 text
  | 48 :: text => readDigits 8 0 text
  | text => readDigits 10 0 text

/-- A number with its sign. -/
def readSigned : List UInt8 → ℤ
  | 45 :: text => -(readMagnitude text : ℤ)
  | 43 :: text => readMagnitude text
  | text => readMagnitude text

/-- A number kept inside 64 bits, and whether it was outside. -/
def clamp (n : ℤ) : ℤ × Bool :=
  if n < -2 ^ 63 then (-2 ^ 63, true)
  else if 2 ^ 63 ≤ n then (2 ^ 63 - 1, true)
  else (n, false)

/-- `strtoll(text, &end, 0)`, and whether the number was out of range. -/
def strtoll (text : List UInt8) : ℤ × Bool :=
  clamp (readSigned ((text.takeWhile (· ≠ 0)).dropWhile isSpace))

/-! ## Reading what was printed -/

theorem digitValue_digit {d : ℕ} (h : d < 10) : digitValue (UInt8.ofNat (48 + d)) = some d := by
  interval_cases d <;> decide

/-- The digits read are the digits written. -/
theorem readDigits_digits {base : ℕ} (hb : 10 ≤ base) {ds : List ℕ} (hd : ∀ d ∈ ds, d < 10)
    (n : ℕ) : readDigits base n (ds.map fun d => UInt8.ofNat (48 + d)) =
      ds.foldl (fun n d => n * base + d) n := by
  induction ds generalizing n with
  | nil => rfl
  | cons d ds ih =>
    have hlt := hd d List.mem_cons_self
    rw [List.map_cons, readDigits, digitValue_digit hlt, List.foldl_cons]
    dsimp only
    rw [if_pos (by omega), ih fun x hx => hd x (List.mem_cons_of_mem d hx)]

/-- The decimal digits of a number give it back. -/
theorem foldl_digits (n : ℕ) :
    (Nat.digits 10 n).reverse.foldl (fun n d => n * 10 + d) 0 = n := by
  rw [List.foldl_reverse]
  conv_rhs => rw [← Nat.ofDigits_digits 10 n, Nat.ofDigits_eq_foldr]
  congr 1
  funext d m
  simp
  ring

theorem ofNat_digit {d : ℕ} (h : d < 10) :
    48 ≤ UInt8.ofNat (48 + d) ∧ UInt8.ofNat (48 + d) ≤ 57 := by
  interval_cases d <;> decide

/-- The bytes of a number are digits. -/
theorem digitsText_byte {n : ℕ} {b : UInt8} (h : b ∈ digitsText n) : 48 ≤ b ∧ b ≤ 57 := by
  unfold digitsText at h
  split_ifs at h
  · rw [List.mem_singleton.1 h]
    decide
  · obtain ⟨d, hd, rfl⟩ := List.mem_map.1 h
    exact ofNat_digit (Nat.digits_lt_base (by decide) (List.mem_reverse.1 hd))

/-- The first digit of a positive number is not 0. -/
theorem digitsText_head {n : ℕ} (h : n ≠ 0) :
    ∃ b text, digitsText n = b :: text ∧ b ≠ 48 := by
  have hne : Nat.digits 10 n ≠ [] := Nat.digits_ne_nil_iff_ne_zero.2 h
  have hlast := Nat.getLast_digit_ne_zero 10 h
  have hlt := Nat.digits_lt_base (by decide) (List.getLast_mem hne)
  have hsplit := List.dropLast_append_getLast hne
  generalize (Nat.digits 10 n).getLast hne = d at hlast hlt hsplit
  refine ⟨UInt8.ofNat (48 + d),
    (Nat.digits 10 n).dropLast.reverse.map fun d => UInt8.ofNat (48 + d), ?_, ?_⟩
  · rw [digitsText, if_neg h]
    conv_lhs => rw [← hsplit, List.reverse_append, List.reverse_singleton,
      List.singleton_append, List.map_cons]
  · interval_cases d
    · exact absurd rfl hlast
    all_goals decide

/-- Reading a number's decimal text. -/
theorem readMagnitude_digitsText (n : ℕ) : readMagnitude (digitsText n) = n := by
  by_cases h : n = 0
  · subst h
    decide
  · obtain ⟨b, text, he, hb⟩ := digitsText_head h
    have hread : readMagnitude (b :: text) = readDigits 10 0 (b :: text) := by
      unfold readMagnitude
      split
      · next heq => exact absurd (List.cons.inj heq).1 hb
      · next heq => exact absurd (List.cons.inj heq).1 hb
      · next heq => exact absurd (List.cons.inj heq).1 hb
      · rfl
    rw [he, hread, ← he, digitsText, if_neg h, readDigits_digits le_rfl, foldl_digits]
    exact fun d hd => Nat.digits_lt_base (by decide) (List.mem_reverse.1 hd)

theorem digitsText_ne_nil (n : ℕ) : digitsText n ≠ [] := by
  unfold digitsText
  split_ifs with h
  · simp
  · simp [Nat.digits_ne_nil_iff_ne_zero.2 h]

theorem decimalText_ne_nil (n : ℤ) : decimalText n ≠ [] := by
  unfold decimalText
  split_ifs
  · simp
  · exact digitsText_ne_nil _

/-- The text of a number holds no zero byte. -/
theorem takeWhile_digitsText (n : ℕ) : (digitsText n).takeWhile (· ≠ 0) = digitsText n := by
  rw [List.takeWhile_eq_self_iff]
  intro b hb
  obtain ⟨h, -⟩ := digitsText_byte hb
  rw [decide_eq_true_iff]
  rintro rfl
  exact absurd h (by decide)

/-- A digit is neither a space nor a sign. -/
theorem digit_plain {b : UInt8} (hlo : 48 ≤ b) (hhi : b ≤ 57) :
    isSpace b = false ∧ b ≠ 45 ∧ b ≠ 43 := by
  rw [UInt8.le_iff_toNat_le] at hlo hhi
  refine ⟨?_, ?_, ?_⟩
  · simp only [isSpace, Bool.or_eq_false_iff, decide_eq_false_iff_not, Bool.and_eq_false_iff,
      UInt8.le_iff_toNat_le, ← UInt8.toNat_inj]
    exact ⟨fun h => by simp_all, .inr fun h => by simp at *; omega⟩
  · rintro rfl
    exact absurd hlo (by decide)
  · rintro rfl
    exact absurd hlo (by decide)

/-- Reading the decimal text of a number with its sign. -/
theorem readSigned_decimalText (n : ℤ) : readSigned (decimalText n) = n := by
  unfold decimalText
  split_ifs with hneg
  · rw [readSigned, readMagnitude_digitsText]
    omega
  · obtain ⟨b, text, hd⟩ := List.exists_cons_of_ne_nil (digitsText_ne_nil n.natAbs)
    obtain ⟨hlo, hhi⟩ := digitsText_byte (hd ▸ List.mem_cons_self : b ∈ digitsText n.natAbs)
    obtain ⟨-, hminus, hplus⟩ := digit_plain hlo hhi
    have hread : readSigned (b :: text) = readMagnitude (b :: text) := by
      unfold readSigned
      split
      · next heq => exact absurd (List.cons.inj heq).1 hminus
      · next heq => exact absurd (List.cons.inj heq).1 hplus
      · rfl
    rw [hd, hread, ← hd, readMagnitude_digitsText]
    omega

/-- The text of a number has no end of its own, and no space in front. -/
theorem trim_decimalText (n : ℤ) :
    ((decimalText n).takeWhile (· ≠ 0)).dropWhile isSpace = decimalText n := by
  unfold decimalText
  split_ifs with hneg
  · rw [List.takeWhile_cons_of_pos (by decide), takeWhile_digitsText,
      List.dropWhile_cons_of_neg (by decide)]
  · obtain ⟨b, text, hd⟩ := List.exists_cons_of_ne_nil (digitsText_ne_nil n.natAbs)
    obtain ⟨hlo, hhi⟩ := digitsText_byte (hd ▸ List.mem_cons_self : b ∈ digitsText n.natAbs)
    obtain ⟨hspace, -, -⟩ := digit_plain hlo hhi
    rw [takeWhile_digitsText, hd, List.dropWhile_cons_of_neg (by simp [hspace])]

theorem clamp_of_mem {n : ℤ} (hlo : -2 ^ 63 ≤ n) (hhi : n < 2 ^ 63) : clamp n = (n, false) := by
  rw [clamp, if_neg (by omega), if_neg (by omega)]

/-- What was printed is read back. -/
theorem strtoll_decimalText {n : ℤ} (hlo : -2 ^ 63 ≤ n) (hhi : n < 2 ^ 63) :
    strtoll (decimalText n) = (n, false) := by
  rw [strtoll, trim_decimalText, readSigned_decimalText, clamp_of_mem hlo hhi]

end Numerals
