import Idb.UrlCodec

/-!
# Numbers read from text

`strToInt64` adds the code of a digit before it takes `'0'` off. The sum leaves the 64 bits for
the numbers within 48 of the largest one, so that the largest numbers of either sign are read by an
operation that overflows (`readsExactly_iff`).
-/

namespace Idb

open Posix

/-! ## The source -/

/-- The result of a signed operation, if it is an `int64_t`. -/
def int64 (n : ℤ) : Option ℤ :=
  if -2 ^ 63 ≤ n ∧ n < 2 ^ 63 then some n else none

/-- The loop skips the characters from 1 to 32. -/
def isBlank (c : UInt8) : Bool :=
  0 < charOf c && charOf c ≤ 32

/-- The last loop. Nothing is returned when an operation overflows. -/
def accumulate : ℤ → Bytes → Option ℤ
  | num, [] => some num
  | num, c :: str =>
    if charOf c < 48 ∨ 57 < charOf c then some num
    else do
      let num ← int64 (num * 10)
      let num ← int64 (num + charOf c)
      let num ← int64 (num - 48)
      accumulate num str

/-- The sign at the front of a text, and what is behind it. -/
def readSign : Bytes → ℤ × Bytes
  | 45 :: str => (-1, str)
  | 43 :: str => (1, str)
  | str => (1, str)

/-- A signed number behind blanks. Nothing is returned where the `int64_t` overflows. -/
def strToInt64 (str : Bytes) : Option ℤ := do
  let (sign, str) := readSign (str.dropWhile isBlank)
  let num ← accumulate 0 str
  int64 (num * sign)

/-! ## Texts of numbers -/

/-- The sign before a number. -/
inductive Sign
  | none
  | plus
  | minus
  deriving DecidableEq

/-- How the sign is written. -/
def Sign.text : Sign → Bytes
  | none => []
  | plus => [43]
  | minus => [45]

/-- What the sign stands for. -/
def Sign.unit : Sign → ℤ
  | none => 1
  | plus => 1
  | minus => -1

/-- A decimal digit. -/
def IsDigit (c : UInt8) : Prop :=
  48 ≤ c ∧ c ≤ 57

instance : DecidablePred IsDigit :=
  fun c => inferInstanceAs (Decidable (48 ≤ c ∧ c ≤ 57))

/-- Blanks, a sign and digits, followed by what does not begin with a digit. -/
structure NumberText where
  blanks : Bytes
  sign : Sign
  digits : Bytes
  rest : Bytes
  blank : ∀ c ∈ blanks, 1 ≤ c ∧ c ≤ 32
  nonempty : digits ≠ []
  decimal : ∀ c ∈ digits, IsDigit c
  ends : ∀ c ∈ rest.head?, ¬IsDigit c

/-- The number that is written with the digits of `n` followed by `digits`. -/
def decimalFrom (n : ℕ) (digits : Bytes) : ℕ :=
  digits.foldl (fun n c => n * 10 + (c.toNat - 48)) n

namespace NumberText

variable (t : NumberText)

/-- The text of a number. -/
def text : Bytes :=
  t.blanks ++ t.sign.text ++ t.digits ++ t.rest

/-- The number that the text stands for. -/
def value : ℤ :=
  t.sign.unit * decimalFrom 0 t.digits

/-- The number is returned, and no operation overflows. -/
def ReadsExactly : Prop :=
  strToInt64 t.text = some t.value

end NumberText

/-! ## The loop -/

section

variable {c : UInt8} {n : ℕ} {digits rest : Bytes}

theorem isDigit_iff : IsDigit c ↔ 48 ≤ c.toNat ∧ c.toNat ≤ 57 := by
  rw [IsDigit, UInt8.le_iff_toNat_le, UInt8.le_iff_toNat_le]
  rfl

theorem isDigit_iff_charOf : IsDigit c ↔ ¬(charOf c < 48 ∨ 57 < charOf c) := by
  have hlt := c.toNat_lt
  rw [isDigit_iff, charOf_eq]
  split_ifs <;> omega

theorem int64_eq_some {m k : ℤ} : int64 m = some k ↔ (-2 ^ 63 ≤ m ∧ m < 2 ^ 63) ∧ m = k := by
  unfold int64
  split_ifs with h
  · rw [Option.some.injEq, and_iff_right h]
  · exact iff_of_false (by simp) fun hm => h hm.1

theorem int64_of_mem {m : ℤ} (hlo : 0 ≤ m) (hhi : m < 2 ^ 63) : int64 m = some m :=
  int64_eq_some.2 ⟨⟨by omega, hhi⟩, rfl⟩

theorem int64_of_le {m : ℤ} (h : 2 ^ 63 ≤ m) : int64 m = none :=
  if_neg fun hm => absurd hm.2 (by omega)

/-- The loop ends at the first byte that is no digit. -/
theorem accumulate_of_not_isDigit (h : ∀ c ∈ rest.head?, ¬IsDigit c) (num : ℤ) :
    accumulate num rest = some num := by
  cases rest with
  | nil => rfl
  | cons c rest =>
    have hc := h c rfl
    rw [isDigit_iff_charOf, not_not] at hc
    rw [accumulate, if_pos hc]

/-- A turn overflows exactly if 48 cannot be added to the number that it makes. -/
theorem accumulate_digit (h : IsDigit c) : accumulate n (c :: rest) =
    if n * 10 + (c.toNat - 48) + 48 < 2 ^ 63 then
      accumulate ((n * 10 + (c.toNat - 48) : ℕ) : ℤ) rest
    else none := by
  have hc := isDigit_iff.1 h
  have hchar : charOf c = c.toNat := by rw [charOf_eq, if_pos (by omega)]
  rw [accumulate, if_neg (isDigit_iff_charOf.1 h), hchar]
  split_ifs with hlt
  · rw [int64_of_mem (by omega) (by omega), Option.bind_eq_bind, Option.bind_some,
      int64_of_mem (by omega) (by omega), Option.bind_some,
      int64_of_mem (by omega) (by omega), Option.bind_some]
    congr 1
    omega
  · by_cases hten : (n * 10 : ℤ) < 2 ^ 63
    · rw [int64_of_mem (by omega) hten, Option.bind_eq_bind, Option.bind_some,
        int64_of_le (by omega), Option.bind_none]
    · rw [int64_of_le (by omega), Option.bind_eq_bind, Option.bind_none]

theorem le_decimalFrom (n : ℕ) (digits : Bytes) : n ≤ decimalFrom n digits := by
  induction digits generalizing n with
  | nil => exact le_rfl
  | cons c digits ih =>
    refine le_trans ?_ (ih (n * 10 + (c.toNat - 48)))
    omega

/-- The loop reads the digits while the sum before the subtraction is an `int64_t`. -/
theorem accumulate_digits (hd : ∀ c ∈ digits, IsDigit c) (hr : ∀ c ∈ rest.head?, ¬IsDigit c)
    (hn : n + 48 < 2 ^ 63) : accumulate n (digits ++ rest) =
      if decimalFrom n digits + 48 < 2 ^ 63 then some (decimalFrom n digits : ℤ) else none := by
  induction digits generalizing n with
  | nil =>
    rw [List.nil_append, accumulate_of_not_isDigit hr, decimalFrom, List.foldl_nil, if_pos hn]
  | cons c digits ih =>
    rw [List.cons_append, accumulate_digit (hd c List.mem_cons_self)]
    split_ifs with hlt hall hall
    · rw [ih (fun x hx => hd x (List.mem_cons_of_mem c hx)) hlt]
      exact if_pos hall
    · rw [ih (fun x hx => hd x (List.mem_cons_of_mem c hx)) hlt]
      exact if_neg hall
    · have := le_decimalFrom (n * 10 + (c.toNat - 48)) digits
      exact absurd (lt_of_le_of_lt (Nat.add_le_add_right this 48) hall) hlt
    · rfl

end

/-! ## Reading a text -/

theorem isBlank_iff {c : UInt8} : isBlank c ↔ 1 ≤ c.toNat ∧ c.toNat ≤ 32 := by
  have hlt := c.toNat_lt
  rw [isBlank, Bool.and_eq_true, decide_eq_true_iff, decide_eq_true_iff, charOf_eq]
  split_ifs <;> omega

/-- The sign is cut off in front of a digit. -/
theorem readSign_text (sign : Sign) {c : UInt8} (h : IsDigit c) (str : Bytes) :
    readSign (sign.text ++ c :: str) = (sign.unit, c :: str) := by
  have hc := isDigit_iff.1 h
  cases sign with
  | plus => rfl
  | minus => rfl
  | none =>
    change readSign (c :: str) = (1, c :: str)
    unfold readSign
    split
    · next heq =>
      rw [(List.cons.inj heq).1] at hc
      exact absurd hc (by decide)
    · next heq =>
      rw [(List.cons.inj heq).1] at hc
      exact absurd hc (by decide)
    · rfl

/-- The blanks before the number are passed over. -/
theorem dropWhile_isBlank (sign : Sign) {c : UInt8} (h : IsDigit c) {blanks : Bytes}
    (hb : ∀ b ∈ blanks, 1 ≤ b ∧ b ≤ 32) (str : Bytes) :
    (blanks ++ (sign.text ++ c :: str)).dropWhile isBlank = sign.text ++ c :: str := by
  have hc : ¬isBlank c = true := by
    rw [isDigit_iff] at h
    rw [isBlank_iff]
    omega
  rw [List.dropWhile_append_of_pos fun b hm => isBlank_iff.2 ?_]
  · cases sign with
    | plus => exact List.dropWhile_cons_of_neg (by decide)
    | minus => exact List.dropWhile_cons_of_neg (by decide)
    | none => exact List.dropWhile_cons_of_neg hc
  · have := hb b hm
    rwa [UInt8.le_iff_toNat_le, UInt8.le_iff_toNat_le] at this

namespace NumberText

variable (t : NumberText)

/-- A number's text is read as its value when it does not overflow on the way. -/
theorem strToInt64_text : strToInt64 t.text =
    if decimalFrom 0 t.digits + 48 < 2 ^ 63 then some t.value else none := by
  obtain ⟨c, digits, hd⟩ := List.exists_cons_of_ne_nil t.nonempty
  have hc : IsDigit c := t.decimal c (hd ▸ List.mem_cons_self)
  have htext : t.text = t.blanks ++ (t.sign.text ++ c :: (digits ++ t.rest)) := by
    rw [text, hd, List.append_assoc, List.append_assoc]
    rfl
  have hread := @accumulate_digits 0 t.digits t.rest t.decimal t.ends (by norm_num)
  rw [hd] at hread
  rw [htext, strToInt64, dropWhile_isBlank t.sign hc t.blank, readSign_text t.sign hc]
  change (accumulate 0 (c :: digits ++ t.rest) >>= fun num => int64 (num * t.sign.unit)) = _
  rw [← Nat.cast_zero, hread, ← hd]
  split_ifs with hlt
  · rw [Option.bind_eq_bind, Option.bind_some, value, mul_comm]
    exact int64_eq_some.2 ⟨by cases t.sign <;> simp only [Sign.unit] <;> omega, rfl⟩
  · rfl

theorem natAbs_value : t.value.natAbs = decimalFrom 0 t.digits := by
  rw [value, Int.natAbs_mul, Int.natAbs_natCast]
  cases t.sign <;> simp [Sign.unit]

end NumberText

/-- A number is read without an overflow exactly if 48 can still be added to its magnitude. -/
theorem readsExactly_iff (t : NumberText) : t.ReadsExactly ↔ t.value.natAbs + 48 < 2 ^ 63 := by
  rw [NumberText.ReadsExactly, t.strToInt64_text, t.natAbs_value]
  split_ifs with h
  · exact iff_of_true rfl h
  · exact iff_of_false (by simp) h

/-- The text of the largest number. -/
def int64MaxText : NumberText where
  blanks := []
  sign := .none
  digits := [57, 50, 50, 51, 51, 55, 50, 48, 51, 54, 56, 53, 52, 55, 55, 53, 56, 48, 55]
  rest := []
  blank := by simp
  nonempty := by simp
  decimal := by decide +kernel
  ends := by simp

theorem not_readsExactly_max : int64MaxText.value = 2 ^ 63 - 1 ∧ ¬int64MaxText.ReadsExactly := by
  refine ⟨rfl, ?_⟩
  unfold NumberText.ReadsExactly
  decide +kernel

end Idb
