import Idb.FileTree
import Mathlib.Tactic

/-!
# UTF-8 characters

The decoder and encoder of the vendored `utf8proc`, and `IterateUtf8Char`, which the
key walks use to cut off one character at a time. What the walks rely on : the
character returned is a nonempty prefix of the text, and whether a prefix is returned
depends on that prefix alone.
-/

namespace Idb

open Posix

/-- `UTF8PROC_ERROR_INVALIDUTF8`. -/
def utf8procErrorInvalidutf8 : ℤ :=
  -3

/-- The table `utf8proc_utf8class` : the length of a sequence by its first byte. -/
def utf8procUtf8class (b : UInt8) : ℕ :=
  if b < 0x80 then 1
  else if b < 0xC0 then 0
  else if b < 0xE0 then 2
  else if b < 0xF0 then 3
  else if b < 0xF8 then 4
  else 0

/-- The code point a sequence of `length` bytes encodes, unless it is overlong, a
surrogate or not a character. -/
def utf8procCodepoint (length : ℕ) (str : ℕ → ℕ) : Option ℕ :=
  match length with
  | 1 => some (str 0)
  | 2 =>
    let uc := ((str 0 &&& 0x1F) <<< 6) + (str 1 &&& 0x3F)
    if uc < 0x80 then none else some uc
  | 3 =>
    let uc := ((str 0 &&& 0x0F) <<< 12) + ((str 1 &&& 0x3F) <<< 6) + (str 2 &&& 0x3F)
    if uc < 0x800 ∨ (uc ≥ 0xD800 ∧ uc < 0xE000) ∨ (uc ≥ 0xFDD0 ∧ uc < 0xFDF0) then none
    else some uc
  | 4 =>
    let uc := ((str 0 &&& 0x07) <<< 18) + ((str 1 &&& 0x3F) <<< 12) +
      ((str 2 &&& 0x3F) <<< 6) + (str 3 &&& 0x3F)
    if uc < 0x10000 ∨ uc ≥ 0x110000 then none else some uc
  | _ => none

/-- The length of the first sequence of `str` and the code point it encodes, or the
error code. The text ends with a NUL, `strlen < 0` means that its length is not known. -/
def utf8procIterate (str : Bytes) (strlen : ℤ) : Except ℤ (ℕ × ℕ) :=
  if strlen = 0 then .error 0
  else
    let length := utf8procUtf8class (str.getD 0 0)
    if length = 0 then .error utf8procErrorInvalidutf8
    else if 0 ≤ strlen ∧ strlen < length then .error utf8procErrorInvalidutf8
    else if (List.range length).any fun i => i ≠ 0 ∧ str.getD i 0 &&& 0xC0 ≠ 0x80 then
      .error utf8procErrorInvalidutf8
    else
      match utf8procCodepoint length fun i => (str.getD i 0).toNat with
      | none => .error utf8procErrorInvalidutf8
      | some uc =>
        if uc &&& 0xFFFF ≥ 0xFFFE then .error utf8procErrorInvalidutf8 else .ok (length, uc)

/-- The bytes written for a code point. -/
def utf8procEncodeChar (uc : ℕ) : Bytes :=
  if uc < 0x80 then [.ofNat uc]
  else if uc < 0x800 then [.ofNat (0xC0 + (uc >>> 6)), .ofNat (0x80 + (uc &&& 0x3F))]
  else if uc = 0xFFFF then [0xFF]
  else if uc = 0xFFFE then [0xFE]
  else if uc < 0x10000 then
    [.ofNat (0xE0 + (uc >>> 12)), .ofNat (0x80 + ((uc >>> 6) &&& 0x3F)),
      .ofNat (0x80 + (uc &&& 0x3F))]
  else if uc < 0x110000 then
    [.ofNat (0xF0 + (uc >>> 18)), .ofNat (0x80 + ((uc >>> 12) &&& 0x3F)),
      .ofNat (0x80 + ((uc >>> 6) &&& 0x3F)), .ofNat (0x80 + (uc &&& 0x3F))]
  else []

/-- The first character of a text, or the code `≤ 0` returned without one. -/
def iterateUtf8Char (aUtf8Str : Bytes) (aStrLen : ℤ) : Except ℤ Bytes :=
  match utf8procIterate aUtf8Str aStrLen with
  | .error e => .error e
  | .ok (_, vInt32Char) =>
    match utf8procEncodeChar vInt32Char with
    | [] => .error 0
    | b :: bs => .ok (b :: bs)

/-- The first character of a key of known length. -/
def firstChar (s : Bytes) : Except ℤ Bytes :=
  iterateUtf8Char s s.length

/-! ## The character returned is a prefix -/

theorem isContinuation_iff (b : UInt8) :
    b &&& 0xC0 = 0x80 ↔ 0x80 ≤ b.toNat ∧ b.toNat < 0xC0 := by
  have h : ∀ n < 256, UInt8.ofNat n &&& 0xC0 = 0x80 ↔ 0x80 ≤ n ∧ n < 0xC0 := by
    decide +kernel
  simpa using h b.toNat b.toNat_lt

/-- The class of a leading byte and the range it comes from. -/
theorem utf8procUtf8class_cases (b : UInt8) :
    utf8procUtf8class b = 0 ∨ (utf8procUtf8class b = 1 ∧ b.toNat < 0x80) ∨
      (utf8procUtf8class b = 2 ∧ 0xC0 ≤ b.toNat ∧ b.toNat < 0xE0) ∨
      (utf8procUtf8class b = 3 ∧ 0xE0 ≤ b.toNat ∧ b.toNat < 0xF0) ∨
      (utf8procUtf8class b = 4 ∧ 0xF0 ≤ b.toNat ∧ b.toNat < 0xF8) := by
  unfold utf8procUtf8class
  simp only [UInt8.lt_iff_toNat_lt]
  split_ifs <;> simp_all

/-- Low bits and shifts in arithmetic form. -/
theorem lowBits (x : ℕ) : x &&& 0x07 = x % 8 ∧ x &&& 0x0F = x % 16 ∧ x &&& 0x1F = x % 32 ∧
    x &&& 0x3F = x % 64 :=
  ⟨Nat.and_two_pow_sub_one_eq_mod x 3, Nat.and_two_pow_sub_one_eq_mod x 4,
    Nat.and_two_pow_sub_one_eq_mod x 5, Nat.and_two_pow_sub_one_eq_mod x 6⟩

theorem ofNat_eq {n : ℕ} {b : UInt8} (h : n = b.toNat) : UInt8.ofNat n = b := by
  rw [h, UInt8.ofNat_toNat]

/-- A sequence is encoded by the bytes it was decoded from. -/
theorem utf8procEncodeChar_codepoint {bs : Bytes} {uc : ℕ}
    (hclass : utf8procUtf8class (bs.getD 0 0) = bs.length)
    (hcont : ∀ b ∈ bs.tail, b &&& 0xC0 = 0x80)
    (hcode : utf8procCodepoint bs.length (fun i => (bs.getD i 0).toNat) = some uc)
    (hchar : ¬uc &&& 0xFFFF ≥ 0xFFFE) : utf8procEncodeChar uc = bs := by
  have h16 : uc &&& 0xFFFF = uc % 65536 := Nat.and_two_pow_sub_one_eq_mod uc 16
  have hfirst := utf8procUtf8class_cases (bs.getD 0 0)
  rw [hclass] at hfirst
  match bs, hcode with
  | [a], hcode =>
    have ha : a.toNat < 0x80 := by simpa using hfirst
    simp only [List.length_singleton, utf8procCodepoint, List.getD_cons_zero,
      Option.some.injEq] at hcode
    subst hcode
    rw [utf8procEncodeChar, if_pos ha, UInt8.ofNat_toNat]
  | [a, b], hcode =>
    have ha : 0xC0 ≤ a.toNat ∧ a.toNat < 0xE0 := by simpa using hfirst
    have hb := (isContinuation_iff b).1 (hcont b (by simp))
    simp [utf8procCodepoint, lowBits, Nat.shiftLeft_eq] at hcode
    simp only [utf8procEncodeChar, lowBits, Nat.shiftRight_eq_div_pow]
    rw [if_neg (by omega), if_pos (by omega), ofNat_eq (b := a) (by omega),
      ofNat_eq (b := b) (by omega)]
  | [a, b, c], hcode =>
    have ha : 0xE0 ≤ a.toNat ∧ a.toNat < 0xF0 := by simpa using hfirst
    have hb := (isContinuation_iff b).1 (hcont b (by simp))
    have hc := (isContinuation_iff c).1 (hcont c (by simp))
    simp [utf8procCodepoint, lowBits, Nat.shiftLeft_eq] at hcode
    simp only [utf8procEncodeChar, lowBits, Nat.shiftRight_eq_div_pow]
    rw [if_neg (by omega), if_neg (by omega), if_neg (by omega), if_neg (by omega),
      if_pos (by omega), ofNat_eq (b := a) (by omega), ofNat_eq (b := b) (by omega),
      ofNat_eq (b := c) (by omega)]
  | [a, b, c, d], hcode =>
    have ha : 0xF0 ≤ a.toNat ∧ a.toNat < 0xF8 := by simpa using hfirst
    have hb := (isContinuation_iff b).1 (hcont b (by simp))
    have hc := (isContinuation_iff c).1 (hcont c (by simp))
    have hd := (isContinuation_iff d).1 (hcont d (by simp))
    simp [utf8procCodepoint, lowBits, Nat.shiftLeft_eq] at hcode
    simp only [utf8procEncodeChar, lowBits, Nat.shiftRight_eq_div_pow]
    rw [if_neg (by omega), if_neg (by omega), if_neg (by omega), if_neg (by omega),
      if_neg (by omega), if_pos (by omega), ofNat_eq (b := a) (by omega),
      ofNat_eq (b := b) (by omega), ofNat_eq (b := c) (by omega), ofNat_eq (b := d) (by omega)]

/-- The code point depends on the bytes of its character alone. -/
theorem utf8procCodepoint_congr {n : ℕ} {f g : ℕ → ℕ} (h : ∀ i < n, f i = g i) :
    utf8procCodepoint n f = utf8procCodepoint n g := by
  unfold utf8procCodepoint
  split
  · rw [h 0 (by omega)]
  · rw [h 0 (by omega), h 1 (by omega)]
  · rw [h 0 (by omega), h 1 (by omega), h 2 (by omega)]
  · rw [h 0 (by omega), h 1 (by omega), h 2 (by omega), h 3 (by omega)]
  · rfl

/-- What is known of a sequence that was decoded. -/
structure Decodes (str : Bytes) (n uc : ℕ) : Prop where
  class_eq : utf8procUtf8class (str.getD 0 0) = n
  pos : 0 < n
  cont : ∀ i < n, i ≠ 0 → str.getD i 0 &&& 0xC0 = 0x80
  code : utf8procCodepoint n (fun i => (str.getD i 0).toNat) = some uc
  char : ¬uc &&& 0xFFFF ≥ 0xFFFE

/-- `utf8proc_iterate` returns a character that the bytes decode to and that fits. -/
theorem utf8procIterate_eq_ok {str : Bytes} {n uc len : ℕ} (h : 0 < len) :
    utf8procIterate str len = .ok (n, uc) ↔ Decodes str n uc ∧ n ≤ len := by
  have hlen : (len : ℤ) ≠ 0 := by omega
  constructor
  · intro hi
    simp only [utf8procIterate, if_neg hlen] at hi
    split_ifs at hi with h0 hl hc
    split at hi
    · simp at hi
    · next uc' hcode =>
      split_ifs at hi with hch
      rw [Except.ok.injEq, Prod.mk.injEq] at hi
      obtain ⟨rfl, rfl⟩ := hi
      refine ⟨⟨rfl, by omega, fun i hi h0 => ?_, hcode, hch⟩, by omega⟩
      by_contra hne
      exact hc (List.any_eq_true.2 ⟨i, List.mem_range.2 hi, by simpa using ⟨h0, hne⟩⟩)
  · rintro ⟨⟨rfl, hpos, hcont, hcode, hch⟩, hn⟩
    have hc : ¬((List.range (utf8procUtf8class (str.getD 0 0))).any
        fun i => i ≠ 0 ∧ str.getD i 0 &&& 0xC0 ≠ 0x80) = true := by
      rw [List.any_eq_true]
      rintro ⟨i, hi, hx⟩
      obtain ⟨h0, hne⟩ : i ≠ 0 ∧ str.getD i 0 &&& 0xC0 ≠ 0x80 := by simpa using hx
      exact hne (hcont i (List.mem_range.1 hi) h0)
    simp only [utf8procIterate, if_neg hlen]
    rw [if_neg (by omega), if_neg (by omega), if_neg hc]
    simp only [hcode, if_neg hch]

/-- Decoding depends on the bytes of the character alone. -/
theorem Decodes.congr {s s' : Bytes} {n uc : ℕ} (hs : ∀ i < n, s.getD i 0 = s'.getD i 0)
    (h : Decodes s n uc) : Decodes s' n uc where
  class_eq := by rw [← hs 0 h.pos]; exact h.class_eq
  pos := h.pos
  cont i hi h0 := by rw [← hs i hi]; exact h.cont i hi h0
  code := by
    rw [← h.code]
    exact utf8procCodepoint_congr fun i hi => by rw [hs i hi]
  char := h.char

/-- Encoding the code point gives the bytes back. -/
theorem Decodes.encode {s : Bytes} {n uc : ℕ} (h : Decodes s n uc) (hn : n ≤ s.length) :
    utf8procEncodeChar uc = s.take n := by
  have hl : (s.take n).length = n := List.length_take_of_le hn
  have h' : Decodes (s.take n) n uc := h.congr fun i hi => (getD_take hi).symm
  refine utf8procEncodeChar_codepoint ?_ ?_ ?_ h'.char
  · rw [hl, h'.class_eq]
  · intro b hb
    obtain ⟨i, hi, rfl⟩ := List.mem_iff_getElem.1 hb
    rw [List.length_tail, hl] at hi
    rw [List.getElem_tail]
    have := h'.cont (i + 1) (by omega) (by omega)
    rwa [List.getD_eq_getElem?_getD, List.getElem?_eq_getElem (by omega), Option.getD_some] at this
  · rw [hl]
    exact h'.code

/-- What is written for a sequence that lies in the text, and is not longer than allowed. -/
theorem iterateUtf8Char_eq_ok {s c : Bytes} {len : ℕ} (h : 0 < len)
    (hin : ∀ n uc, Decodes s n uc → n ≤ len → n ≤ s.length) :
    iterateUtf8Char s len = .ok c ↔ ∃ n uc, Decodes s n uc ∧ n ≤ len ∧ c = s.take n := by
  constructor
  · intro hc
    unfold iterateUtf8Char at hc
    split at hc
    · simp at hc
    · next n uc hi =>
      obtain ⟨hd, hn⟩ := (utf8procIterate_eq_ok h).1 hi
      refine ⟨n, uc, hd, hn, ?_⟩
      rw [hd.encode (hin n uc hd hn)] at hc
      split at hc
      · simp at hc
      · next b bs hb =>
        rw [Except.ok.injEq] at hc
        rw [hb, hc]
  · rintro ⟨n, uc, hd, hn, rfl⟩
    have hle := hin n uc hd hn
    have hi := (utf8procIterate_eq_ok h).2 ⟨hd, hn⟩
    unfold iterateUtf8Char
    simp only [hi, hd.encode hle]
    split
    · next he =>
      have hlen := congrArg List.length he
      rw [List.length_take_of_le hle] at hlen
      exact absurd hlen hd.pos.ne'
    · next b bs hb => rw [hb]

/-- The first character is what the bytes decode to. -/
theorem firstChar_eq_ok_iff_decodes {s c : Bytes} :
    firstChar s = .ok c ↔ ∃ n uc, Decodes s n uc ∧ n ≤ s.length ∧ c = s.take n := by
  rcases Nat.eq_zero_or_pos s.length with hs | hs
  · refine iff_of_false (fun h => ?_) ?_
    · simp [firstChar, iterateUtf8Char, utf8procIterate, List.length_eq_zero_iff.1 hs] at h
    · rintro ⟨n, uc, hd, hn, -⟩
      have := hd.pos
      omega
  · exact iterateUtf8Char_eq_ok hs fun n uc _ hn => hn

/-- A character is decoded from as many bytes as it has. -/
theorem firstChar_decodes {s c : Bytes} (h : firstChar s = .ok c) :
    ∃ uc, Decodes s c.length uc ∧ c.length ≤ s.length := by
  obtain ⟨n, uc, hd, hn, rfl⟩ := firstChar_eq_ok_iff_decodes.1 h
  rw [List.length_take_of_le hn]
  exact ⟨uc, hd, hn⟩

/-- A first character is not empty. -/
theorem firstChar_ne_nil {s c : Bytes} (h : firstChar s = .ok c) : c ≠ [] := by
  obtain ⟨n, uc, hd, hn, rfl⟩ := firstChar_eq_ok_iff_decodes.1 h
  have := hd.pos
  have := List.length_take_of_le hn
  intro he
  simp [he] at this
  omega

/-- Whether a text begins with the character `c` is a matter of `c` alone. -/
theorem firstChar_eq_ok {s c : Bytes} :
    firstChar s = .ok c ↔ c <+: s ∧ firstChar c = .ok c := by
  constructor
  · intro h
    obtain ⟨n, uc, hd, hn, rfl⟩ := firstChar_eq_ok_iff_decodes.1 h
    refine ⟨⟨s.drop n, List.take_append_drop n s⟩,
      firstChar_eq_ok_iff_decodes.2 ⟨n, uc, ?_, ?_, ?_⟩⟩
    · exact hd.congr fun i hi => (getD_take hi).symm
    · rw [List.length_take_of_le hn]
    · rw [List.take_take, min_self]
  · rintro ⟨⟨r, rfl⟩, h⟩
    obtain ⟨uc, hd, hn⟩ := firstChar_decodes h
    refine firstChar_eq_ok_iff_decodes.2 ⟨c.length, uc, hd.congr fun i hi => ?_, ?_, ?_⟩
    · rw [List.getD_eq_getElem?_getD, List.getD_eq_getElem?_getD,
        List.getElem?_append_left (by omega)]
    · rw [List.length_append]
      omega
    · rw [List.take_left']
      rfl

/-- The text after its first character, as the walks go on with it. -/
theorem firstChar_split {s c : Bytes} (h : firstChar s = .ok c) : s = c ++ s.drop c.length := by
  obtain ⟨⟨r, rfl⟩, _⟩ := firstChar_eq_ok.1 h
  simp

/-- A text after whose first character nothing is left is that character. -/
theorem firstChar_last {s c : Bytes} (h : firstChar s = .ok c) (hs : s.drop c.length = []) :
    s = c := by
  have := firstChar_split h
  rwa [hs, List.append_nil] at this

theorem firstChar_append {c : Bytes} (h : firstChar c = .ok c) (r : Bytes) :
    firstChar (c ++ r) = .ok c :=
  firstChar_eq_ok.2 ⟨List.prefix_append c r, h⟩

theorem firstChar_dot (r : Bytes) : firstChar (dot :: r) = .ok [dot] :=
  firstChar_append (c := [dot]) (by decide) r

theorem firstChar_nil : firstChar [] = .error 0 :=
  rfl

/-- What has no first character, but is not empty, is not UTF-8. -/
theorem firstChar_error {s : Bytes} {e : ℤ} (hs : s ≠ []) (h : firstChar s = .error e) :
    e = utf8procErrorInvalidutf8 := by
  have hlen : 0 < s.length := List.length_pos_iff.2 hs
  unfold firstChar iterateUtf8Char at h
  split at h
  · next e' hi =>
    rw [Except.error.injEq] at h
    rw [utf8procIterate, if_neg (by omega)] at hi
    subst h
    dsimp only at hi
    split_ifs at hi
    · exact (Except.error.inj hi).symm
    · exact (Except.error.inj hi).symm
    · exact (Except.error.inj hi).symm
    · split at hi
      · exact (Except.error.inj hi).symm
      · split_ifs at hi
        exact (Except.error.inj hi).symm
  · next n uc hi =>
    obtain ⟨hd, hn⟩ := (utf8procIterate_eq_ok hlen).1 hi
    have := hd.pos
    rw [hd.encode hn] at h
    split at h
    · next he => simp [List.take_eq_nil_iff, hs, hd.pos.ne'] at he
    · simp at h

end Idb
