import Idb.FileTree
import Idb.Integers

/-!
# Encoding text for a URL

`UrlEncode` writes three characters for a byte that is not safe, `UrlDecode` reads them back in
place. The byte is formatted as a signed `char` that was promoted, and the format is cut off
after three characters, so that from 128 on every byte gives `%FF` ; such bytes alone do not come
back (`roundTrips_iff`).

The decoder also knows `%uXXXX`. It moves on before it reads the second pair of digits, and so
reads the two bytes behind the escape (`decodesInside_iff`).
-/

namespace Idb

open Posix

/-! ## Characters -/

/-- The character `%`. -/
def percent : UInt8 :=
  37

/-- A string without its terminating zero. -/
abbrev CString :=
  { s : Bytes // (0 : UInt8) ∉ s }

/-- The string of `n` letters `a`. -/
def letters (n : ℕ) : CString :=
  ⟨List.replicate n 97, fun h => absurd (List.eq_of_mem_replicate h) (by decide)⟩

/-- The test of a signed character. -/
def isPrintable (c : UInt8) : Bool :=
  32 ≤ charOf c && charOf c ≤ 126 && c ≠ percent

/-- The set takes characters away. -/
def isSafeChar (c : UInt8) (aUnSafeChars : Option CString) : Bool :=
  if aUnSafeChars.any (c ∈ ·.1) then false else isPrintable c

/-- The test of the C library. -/
def isxdigit (b : UInt8) : Bool :=
  (48 ≤ b && b ≤ 57) || (65 ≤ b && b ≤ 70) || (97 ≤ b && b ≤ 102)

/-- The value of a digit in either case, of which one byte is kept. -/
def hexValue (b : UInt8) : UInt8 :=
  let c := if 65 ≤ b && b ≤ 90 then b + 32 else b
  if 48 ≤ c && c ≤ 57 then c - 48 else c - 97 + 10

/-! ## Encoding -/

/-- The digits of an `unsigned int` as `%X` writes them. -/
def hexChar (n : ℕ) : UInt8 :=
  UInt8.ofNat (if n < 10 then 48 + n else 55 + n)

/-- `snprintf(ct, 4, "%%%02X", c)`, which leaves room for three characters. -/
def percentFormat (c : UInt8) : Bytes :=
  let value := (charOf c % 2 ^ 32).toNat
  let digits := ((List.range 8).reverse.map fun i => value / 16 ^ i % 16).dropWhile (· = 0)
  (percent :: (digits.leftpad 2 0).map hexChar).take 3

/-- NULL if the size of the result is no `int`. -/
def urlEncode (s : CString) (aUnSafeChars : Option CString) : Option Bytes :=
  let len := (s.1.map fun c => if isSafeChar c aUnSafeChars then 1 else 3).sum + 1
  if len < 2 ^ 31 then
    some (s.1.flatMap fun c => if isSafeChar c aUnSafeChars then [c] else percentFormat c)
  else none

/-! ## Decoding -/

/-- The bytes from a pointer on. -/
abbrev Memory :=
  ℕ → UInt8

/-- The variables of the loop, with the places read so far. -/
structure Decoder where
  mem : Memory
  dest : ℕ
  data : ℕ
  len : ℤ
  reads : List ℕ

/-- Test the digits at these places, up to the first that is none. -/
def xdigits (m : Memory) : List ℕ → Bool × List ℕ
  | [] => (true, [])
  | p :: ps => if isxdigit (m p) then ((xdigits m ps).1, p :: (xdigits m ps).2) else (false, [p])

/-- Two digits behind a `%`. -/
def testEscape (m : Memory) (p : ℕ) (len : ℤ) : Bool × List ℕ :=
  if len ≥ 2 then xdigits m [p + 1, p + 2] else (false, [])

/-- A `u` and four digits behind a `%`. -/
def testUEscape (m : Memory) (p : ℕ) (len : ℤ) : Bool × List ℕ :=
  if len ≥ 5 then
    if m (p + 1) = 117 ∨ m (p + 1) = 85 then
      ((xdigits m [p + 2, p + 3, p + 4, p + 5]).1,
        (p + 1) :: (xdigits m [p + 2, p + 3, p + 4, p + 5]).2)
    else (false, [p + 1])
  else (false, [])

/-- The byte that the two digits at `p` spell. -/
def hexByte (m : Memory) (p : ℕ) : UInt8 :=
  hexValue (m p) * 16 + hexValue (m (p + 1))

/-- The body of the loop, when the condition has taken one off the counter. -/
def decodeItem (s : Decoder) : Decoder :=
  let s := { s with reads := s.reads ++ [s.data] }
  if s.mem s.data = percent then
    let (found, reads) := testEscape s.mem s.data s.len
    if found then
      { s with
        mem := Function.update s.mem s.dest (hexByte s.mem (s.data + 1))
        data := s.data + 2
        len := s.len - 2
        reads := s.reads ++ reads ++ [s.data + 1, s.data + 2] }
    else
      let s := { s with reads := s.reads ++ reads }
      let (found, reads) := testUEscape s.mem s.data s.len
      if found then
        let s := { s with
          mem := Function.update s.mem s.dest (hexByte s.mem (s.data + 2))
          data := s.data + 2
          len := s.len - 2
          reads := s.reads ++ reads ++ [s.data + 2, s.data + 3] }
        { s with
          mem := Function.update s.mem s.dest (hexByte s.mem (s.data + 4))
          data := s.data + 2
          len := s.len - 2
          reads := s.reads ++ [s.data + 4, s.data + 5] }
      else { s with reads := s.reads ++ reads }
  else { s with mem := Function.update s.mem s.dest (s.mem s.data) }

/-- One turn of the loop. -/
def decodePass (s : Decoder) : Decoder :=
  let s := decodeItem { s with len := s.len - 1 }
  { s with data := s.data + 1, dest := s.dest + 1 }

/-- Passes until no bytes are left. The fuel is their number. -/
def urlDecodeLoop : ℕ → Decoder → Option Decoder
  | 0, s => if s.len = 0 then some s else none
  | fuel + 1, s => if s.len = 0 then some s else urlDecodeLoop fuel (decodePass s)

/-- The new length and what is in memory then, if the loop ends within `len` turns. -/
def urlDecode (vStr : Memory) (len : ℕ) : Option (ℕ × Memory) :=
  (urlDecodeLoop len ⟨vStr, 0, 0, len, []⟩).map fun s =>
    (s.dest, Function.update s.mem s.dest 0)

/-! ## One turn -/

/-- A `%` with two digits behind it. -/
def EscapeAt (m : Memory) (p : ℕ) : Prop :=
  m p = percent ∧ isxdigit (m (p + 1)) ∧ isxdigit (m (p + 2))

/-- `%u` or `%U` with four digits behind it. -/
def UEscapeAt (m : Memory) (p : ℕ) : Prop :=
  m p = percent ∧ (m (p + 1) = 117 ∨ m (p + 1) = 85) ∧
    ∀ i ∈ [2, 3, 4, 5], isxdigit (m (p + i))

/-- A turn takes `k` bytes and reads the places `r`. -/
structure Takes (s s' : Decoder) (k : ℕ) (r : List ℕ) : Prop where
  dest : s'.dest = s.dest + 1
  data : s'.data = s.data + k
  len : s'.len = s.len - k
  reads : s'.reads = s.reads ++ r
  frame : ∀ p, p ≠ s.dest → s'.mem p = s.mem p

section

variable {m : Memory} {p : ℕ} {len : ℤ} {s : Decoder}

/-- The test succeeds when every place holds a hexadecimal digit. -/
theorem xdigits_fst (ps : List ℕ) :
    (xdigits m ps).1 = true ↔ ∀ p ∈ ps, isxdigit (m p) := by
  induction ps with
  | nil => simp [xdigits]
  | cons p ps ih =>
    rw [xdigits, List.forall_mem_cons]
    split_ifs with h
    · simp only [ih, h, true_and]
    · simp [h]

/-- Only the places asked for are read. -/
theorem mem_xdigits {q : ℕ} {ps : List ℕ} (h : q ∈ (xdigits m ps).2) : q ∈ ps := by
  induction ps with
  | nil => exact h
  | cons p ps ih =>
    rw [xdigits] at h
    split_ifs at h
    · exact List.mem_cons.2 ((List.mem_cons.1 h).imp_right ih)
    · exact List.mem_cons.2 (Or.inl (List.mem_singleton.1 h))

theorem testEscape_fst (hp : m p = percent) :
    (testEscape m p len).1 = true ↔ 2 ≤ len ∧ EscapeAt m p := by
  unfold testEscape EscapeAt
  split_ifs with h
  · simp [xdigits_fst, hp, h]
  · simp [h]

/-- The test succeeds on a long escape that is whole. -/
theorem testUEscape_fst (hp : m p = percent) :
    (testUEscape m p len).1 = true ↔ 5 ≤ len ∧ UEscapeAt m p := by
  unfold testUEscape UEscapeAt
  split_ifs with h hu
  · simp [xdigits_fst, hp, h, hu]
  · simp [hu]
  · simp [h]

/-- The test for an escape reads no further than `len` behind its start. -/
theorem mem_testEscape {q : ℕ} (h : q ∈ (testEscape m p len).2) :
    (q : ℤ) ≤ p + len := by
  unfold testEscape at h
  split_ifs at h with hl
  · have := mem_xdigits h
    simp only [List.mem_cons, List.not_mem_nil, or_false] at this
    omega
  · simp at h

/-- The test for a long escape reads no further than `len` behind its start. -/
theorem mem_testUEscape {q : ℕ} (h : q ∈ (testUEscape m p len).2) :
    (q : ℤ) ≤ p + len := by
  unfold testUEscape at h
  split_ifs at h with hl hu
  · rcases List.mem_cons.1 h with rfl | h
    · omega
    · have := mem_xdigits h
      simp only [List.mem_cons, List.not_mem_nil, or_false] at this
      omega
  · rw [List.mem_singleton.1 h]
    omega
  · simp at h

theorem EscapeAt.not_uEscapeAt (h : EscapeAt m p) : ¬UEscapeAt m p := by
  rintro ⟨-, hu, -⟩
  have hx := h.2.1
  rcases hu with hu | hu <;> rw [hu] at hx <;> exact absurd hx (by decide)

/-- A long escape stays where the memory behind it does not change. -/
theorem UEscapeAt.congr {m' : Memory} (hu : UEscapeAt m p) (h : ∀ q, p ≤ q → m' q = m q) :
    UEscapeAt m' p := by
  refine ⟨(h p le_rfl).trans hu.1, ?_, fun i hi => ?_⟩
  · rw [h _ (Nat.le_add_right p 1)]
    exact hu.2.1
  · rw [h _ (Nat.le_add_right p i)]
    exact hu.2.2 i hi

/-- A byte that is no `%`. -/
theorem decodePass_plain (h : s.mem s.data ≠ percent) :
    Takes s (decodePass s) 1 [s.data] ∧
      (decodePass s).mem = Function.update s.mem s.dest (s.mem s.data) := by
  have he : decodePass s = ⟨Function.update s.mem s.dest (s.mem s.data), s.dest + 1, s.data + 1,
      s.len - 1, s.reads ++ [s.data]⟩ := by
    simp [decodePass, decodeItem, h]
  rw [he]
  exact ⟨⟨rfl, rfl, rfl, rfl, fun p hp => Function.update_of_ne hp _ _⟩, rfl⟩

/-- A turn on an escape takes three bytes and writes the byte they spell. -/
theorem decodePass_escape (h : EscapeAt s.mem s.data) (hl : 3 ≤ s.len) :
    (∃ r, Takes s (decodePass s) 3 r ∧ ∀ q ∈ r, (q : ℤ) < s.data + s.len) ∧
      (decodePass s).mem = Function.update s.mem s.dest (hexByte s.mem (s.data + 1)) := by
  have htest := (@testEscape_fst _ _ (s.len - 1) h.1).2 ⟨by omega, h⟩
  have hreads := fun q => @mem_testEscape s.mem s.data (s.len - 1) q
  have he : decodePass s = ⟨Function.update s.mem s.dest (hexByte s.mem (s.data + 1)), s.dest + 1,
      s.data + 3, s.len - 3, s.reads ++ (s.data :: (testEscape s.mem s.data (s.len - 1)).2 ++
        [s.data + 1, s.data + 2])⟩ := by
    simp [decodePass, decodeItem, h.1, htest]
    omega
  rw [he]
  refine ⟨⟨_, ⟨rfl, rfl, rfl, rfl, fun p hp => Function.update_of_ne hp _ _⟩, fun q hq => ?_⟩, rfl⟩
  simp only [List.cons_append, List.mem_cons, List.mem_append, List.not_mem_nil, or_false] at hq
  rcases hq with rfl | hq | rfl | rfl
  · omega
  · have := hreads q hq
    omega
  · omega
  · omega

/-- The second pair of digits is looked for two places too far. -/
theorem decodePass_uEscape (h : UEscapeAt s.mem s.data) (hl : 6 ≤ s.len) :
    ∃ r, Takes s (decodePass s) 5 r ∧ s.data + 7 ∈ r ∧
      ∀ q ∈ r, (q : ℤ) < s.data + s.len ∨ q = s.data + 6 ∨ q = s.data + 7 := by
  have htest : (testEscape s.mem s.data (s.len - 1)).1 = false := by
    rw [← Bool.not_eq_true, testEscape_fst h.1]
    exact fun ht => ht.2.not_uEscapeAt h
  have hutest := (@testUEscape_fst _ _ (s.len - 1) h.1).2 ⟨by omega, h⟩
  have hreads := fun q => @mem_testEscape s.mem s.data (s.len - 1) q
  have hureads := fun q => @mem_testUEscape s.mem s.data (s.len - 1) q
  have he : ∃ mem, decodePass s = ⟨mem, s.dest + 1, s.data + 5, s.len - 5,
      s.reads ++ (s.data :: (testEscape s.mem s.data (s.len - 1)).2 ++
        (testUEscape s.mem s.data (s.len - 1)).2 ++
          [s.data + 2, s.data + 3, s.data + 6, s.data + 7])⟩ ∧
      ∀ p, p ≠ s.dest → mem p = s.mem p := by
    simp [decodePass, decodeItem, h.1, htest, hutest]
    refine ⟨?_, ?_⟩
    · omega
    · intro p hp
      rw [Function.update_of_ne hp]
  obtain ⟨mem, he, hmem⟩ := he
  rw [he]
  refine ⟨_, ⟨rfl, rfl, rfl, rfl, hmem⟩, by simp, fun q hq => ?_⟩
  simp only [List.cons_append, List.mem_cons, List.mem_append, List.not_mem_nil, or_false] at hq
  rcases hq with rfl | (hq | hq) | rfl | rfl | rfl | rfl
  · omega
  · have := hreads q hq
    omega
  · have := hureads q hq
    omega
  · omega
  · omega
  · exact Or.inr (Or.inl rfl)
  · exact Or.inr (Or.inr rfl)

/-- A `%` that starts no escape : nothing is written. -/
theorem decodePass_other (h : s.mem s.data = percent) (hl : 0 < s.len)
    (he : ¬(3 ≤ s.len ∧ EscapeAt s.mem s.data)) (hu : ¬(6 ≤ s.len ∧ UEscapeAt s.mem s.data)) :
    (∃ r, Takes s (decodePass s) 1 r ∧ ∀ q ∈ r, (q : ℤ) < s.data + s.len) ∧
      (decodePass s).mem = s.mem := by
  have htest : (testEscape s.mem s.data (s.len - 1)).1 = false := by
    rw [← Bool.not_eq_true, testEscape_fst h]
    exact fun ht => he ⟨by omega, ht.2⟩
  have hutest : (testUEscape s.mem s.data (s.len - 1)).1 = false := by
    rw [← Bool.not_eq_true, testUEscape_fst h]
    exact fun ht => hu ⟨by omega, ht.2⟩
  have heq : decodePass s = ⟨s.mem, s.dest + 1, s.data + 1, s.len - 1,
      s.reads ++ (s.data :: (testEscape s.mem s.data (s.len - 1)).2 ++
        (testUEscape s.mem s.data (s.len - 1)).2)⟩ := by
    simp [decodePass, decodeItem, h, htest, hutest]
  rw [heq]
  refine ⟨⟨_, ⟨rfl, rfl, rfl, rfl, fun _ _ => rfl⟩, fun q hq => ?_⟩, rfl⟩
  simp only [List.cons_append, List.mem_cons, List.mem_append] at hq
  rcases hq with rfl | hq | hq
  · omega
  · have := mem_testEscape hq
    omega
  · have := mem_testUEscape hq
    omega

end

/-! ## Staying inside the buffer -/

/-- The states the loop comes to. -/
inductive Reached (m : Memory) (len : ℕ) : Decoder → Prop
  | start : Reached m len ⟨m, 0, 0, len, []⟩
  | pass {s} : Reached m len s → s.len ≠ 0 → Reached m len (decodePass s)

/-- The loop ends, with at most `len` bytes written. Until then the counter is not negative,
nothing is written behind the place read, and nothing is read outside of the `len` bytes. -/
structure DecodesInside (m : Memory) (len : ℕ) : Prop where
  result : ∃ n m', urlDecode m len = some (n, m') ∧ n ≤ len
  counter : ∀ s, Reached m len s → 0 ≤ s.len
  behind : ∀ s, Reached m len s → s.dest ≤ s.data
  inside : ∀ s, Reached m len s → ∀ p ∈ s.reads, p < len

/-- What is so in every state, escapes or not. -/
structure Decoding (m : Memory) (len : ℕ) (s : Decoder) : Prop where
  counter : 0 ≤ s.len
  data : s.data + s.len = len
  behind : s.dest ≤ s.data
  ahead : ∀ p, s.data ≤ p → s.mem p = m p

section

variable {m : Memory} {len : ℕ} {s : Decoder}

/-- A turn that takes bytes keeps the loop's invariant. -/
theorem Takes.decoding {k : ℕ} {r : List ℕ} {s' : Decoder} (ht : Takes s s' k r) (hk : 0 < k)
    (hl : k ≤ s.len) (h : Decoding m len s) : Decoding m len s' where
  counter := by
    rw [ht.len]
    omega
  data := by
    have := h.data
    rw [ht.data, ht.len]
    push_cast
    omega
  behind := by
    have := h.behind
    rw [ht.dest, ht.data]
    omega
  ahead p hp := by
    have hb := h.behind
    rw [ht.data] at hp
    rw [ht.frame p (by omega)]
    exact h.ahead p (by omega)

/-- A turn takes one byte, an escape, or an escape with `u`. -/
theorem decodePass_takes (hl : 0 < s.len) :
    ∃ k r, Takes s (decodePass s) k r ∧ 0 < k ∧ k ≤ s.len ∧
      (k = 1 ∨ k = 3 ∧ EscapeAt s.mem s.data ∨ k = 5 ∧ UEscapeAt s.mem s.data) ∧
      (UEscapeAt s.mem s.data → 6 ≤ s.len → s.data + 7 ∈ r) ∧
      ∀ q ∈ r, (q : ℤ) < s.data + s.len ∨
        (UEscapeAt s.mem s.data ∧ 6 ≤ s.len) ∧ (q = s.data + 6 ∨ q = s.data + 7) := by
  by_cases hp : s.mem s.data = percent
  · by_cases he : 3 ≤ s.len ∧ EscapeAt s.mem s.data
    · obtain ⟨⟨r, ht, hr⟩, -⟩ := decodePass_escape he.2 he.1
      exact ⟨3, r, ht, by omega, by omega, Or.inr (Or.inl ⟨rfl, he.2⟩),
        fun hu => absurd hu he.2.not_uEscapeAt, fun q hq => Or.inl (hr q hq)⟩
    by_cases hu : 6 ≤ s.len ∧ UEscapeAt s.mem s.data
    · obtain ⟨r, ht, hmem, hr⟩ := decodePass_uEscape hu.2 hu.1
      exact ⟨5, r, ht, by omega, by omega, Or.inr (Or.inr ⟨rfl, hu.2⟩), fun _ _ => hmem,
        fun q hq => (hr q hq).imp_right fun h => ⟨hu.symm, h⟩⟩
    · obtain ⟨⟨r, ht, hr⟩, -⟩ := decodePass_other hp hl he hu
      exact ⟨1, r, ht, by omega, by omega, Or.inl rfl, fun h h6 => absurd ⟨h6, h⟩ hu,
        fun q hq => Or.inl (hr q hq)⟩
  · obtain ⟨ht, -⟩ := decodePass_plain hp
    refine ⟨1, _, ht, by omega, by omega, Or.inl rfl, fun h => absurd h.1 hp, fun q hq => ?_⟩
    rw [List.mem_singleton.1 hq]
    left
    omega

theorem Reached.decoding (h : Reached m len s) : Decoding m len s := by
  induction h with
  | start => exact ⟨Int.natCast_nonneg len, by simp, le_rfl, fun _ _ => rfl⟩
  | pass _ hne ih =>
    obtain ⟨k, r, ht, hk, hl, -⟩ := decodePass_takes (lt_of_le_of_ne ih.counter (Ne.symm hne))
    exact ht.decoding hk hl ih

/-- Enough turns end the loop. -/
theorem urlDecodeLoop_reached (h : Reached m len s) {fuel : ℕ} (hf : s.len ≤ fuel) :
    ∃ s', urlDecodeLoop fuel s = some s' ∧ Reached m len s' ∧ s'.len = 0 := by
  induction fuel generalizing s with
  | zero =>
    have hz : s.len = 0 := le_antisymm (by simpa using hf) h.decoding.counter
    exact ⟨s, by rw [urlDecodeLoop, if_pos hz], h, hz⟩
  | succ fuel ih =>
    by_cases hz : s.len = 0
    · exact ⟨s, by rw [urlDecodeLoop, if_pos hz], h, hz⟩
    · obtain ⟨k, r, ht, hk, -⟩ := decodePass_takes (lt_of_le_of_ne h.decoding.counter (Ne.symm hz))
      rw [urlDecodeLoop, if_neg hz]
      refine ih (.pass h hz) ?_
      rw [ht.len]
      push_cast at hf
      omega

/-- No turn jumps over a `%`. -/
theorem reached_percent {i : ℕ} (hi : i < len) (hp : m i = percent) (h : Reached m len s)
    (hle : s.data ≤ i) : ∃ s', Reached m len s' ∧ s'.data = i := by
  obtain ⟨n, hn⟩ : ∃ n, n = i - s.data := ⟨_, rfl⟩
  induction n using Nat.strong_induction_on generalizing s with
  | _ n ih =>
    have hd := h.decoding
    rcases hle.eq_or_lt with heq | hlt
    · exact ⟨s, h, heq⟩
    have hdata := hd.data
    obtain ⟨k, r, ht, hk, -, hcase, -⟩ := @decodePass_takes s (by omega)
    have hs' := h.pass (by omega)
    have hstep : (decodePass s).data ≤ i := by
      rw [ht.data]
      by_contra hgt
      have hdigit : isxdigit percent = false := by decide
      have hahead := hd.ahead i (by omega)
      rcases hcase with rfl | ⟨rfl, -, h₁, h₂⟩ | ⟨rfl, -, hu, hx⟩
      · omega
      · obtain rfl | rfl : i = s.data + 1 ∨ i = s.data + 2 := by omega
        · rw [hahead, hp, hdigit] at h₁
          simp at h₁
        · rw [hahead, hp, hdigit] at h₂
          simp at h₂
      · obtain ⟨j, hj, rfl⟩ : ∃ j, j ∈ [1, 2, 3, 4] ∧ i = s.data + j :=
          ⟨i - s.data, by simp; omega, by omega⟩
        rcases List.mem_cons.1 hj with rfl | hj
        · rw [hahead, hp] at hu
          exact absurd hu (by decide)
        · have hxj := hx j (by fin_cases hj <;> simp)
          rw [hahead, hp, hdigit] at hxj
          simp at hxj
    exact ih _ (by rw [ht.data]; omega) hs' hstep rfl

end

/-- The decoder stays inside exactly if two bytes follow every escape with `u`. -/
theorem decodesInside_iff (m : Memory) (len : ℕ) :
    DecodesInside m len ↔ ∀ i, i + 6 ≤ len → UEscapeAt m i → i + 8 ≤ len := by
  constructor
  · intro h i hi hu
    obtain ⟨s, hs, rfl⟩ :=
      reached_percent (by omega) hu.1 (.start : Reached m len _) (Nat.zero_le i)
    have hd := hs.decoding
    have hdata := hd.data
    obtain ⟨k, r, ht, -, -, -, hread, -⟩ := @decodePass_takes s (by omega)
    have hmem : s.data + 7 ∈ (decodePass s).reads := by
      rw [ht.reads]
      exact List.mem_append_right _ (hread (hu.congr hd.ahead) (by omega))
    have := h.inside _ (hs.pass (by omega)) _ hmem
    omega
  · intro h
    refine ⟨?_, fun s hs => hs.decoding.counter, fun s hs => hs.decoding.behind, fun s hs => ?_⟩
    · obtain ⟨s, he, hs, hz⟩ := urlDecodeLoop_reached (.start : Reached m len _) le_rfl
      have hd := hs.decoding
      have := hd.data
      have := hd.behind
      exact ⟨s.dest, _, by rw [urlDecode, he]; rfl, by omega⟩
    · induction hs with
      | start => simp
      | @pass s hs hne ih =>
        have hd := hs.decoding
        have hdata := hd.data
        obtain ⟨k, r, ht, -, -, -, -, hr⟩ :=
          @decodePass_takes s (lt_of_le_of_ne hd.counter (Ne.symm hne))
        intro p hp
        rw [ht.reads] at hp
        rcases List.mem_append.1 hp with hp | hp
        · exact ih p hp
        · rcases hr p hp with hp | ⟨⟨hu, h6⟩, hp⟩
          · omega
          · have := h s.data (by omega) (hu.congr fun q hq => (hd.ahead q hq).symm)
            omega

/-- A text in memory. -/
def textMemory (text : Bytes) : Memory :=
  fun i => text.getD i 0

/-- The text `%u0041`. -/
def shortEscape : Bytes :=
  [percent, 117, 48, 48, 52, 49]

theorem not_decodesInside_shortEscape :
    (∀ i < 6, textMemory shortEscape i ≠ 0) ∧ ¬DecodesInside (textMemory shortEscape) 6 := by
  refine ⟨by decide, fun h => ?_⟩
  have hread := h.inside _ (Reached.start.pass (by decide)) 7 (by decide)
  omega

/-! ## Round trips -/

/-- The bytes at `p` and after it. -/
def HoldsAt (m : Memory) : ℕ → Bytes → Prop
  | _, [] => True
  | p, b :: t => m p = b ∧ HoldsAt m (p + 1) t

/-- Decoding what was encoded, wherever it is put with its terminator, gives the string
back. -/
def RoundTrips (s : CString) (u : Option CString) : Prop :=
  ∃ text, urlEncode s u = some text ∧ ∀ m, HoldsAt m 0 (text ++ [0]) →
    ∃ m', urlDecode m text.length = some (s.1.length, m') ∧ HoldsAt m' 0 (s.1 ++ [0])

/-- What becomes of a byte. -/
def kept (b : UInt8) : UInt8 :=
  if b < 128 then b else 255

/-- The format prints a percent sign and two digits that spell the byte. -/
theorem percentFormat_eq (b : UInt8) : ∃ x y, percentFormat b = [percent, x, y] ∧
    isxdigit x ∧ isxdigit y ∧ hexValue x * 16 + hexValue y = kept b := by
  have hall : ∀ n : Fin 256, ∃ x y, percentFormat (UInt8.ofNat n) = [percent, x, y] ∧
      isxdigit x ∧ isxdigit y ∧ hexValue x * 16 + hexValue y = kept (UInt8.ofNat n) := by
    intro n
    refine ⟨(percentFormat (UInt8.ofNat n)).getD 1 0, (percentFormat (UInt8.ofNat n)).getD 2 0, ?_⟩
    revert n
    decide +kernel
  have hb := hall ⟨b.toNat, b.toNat_lt⟩
  rwa [UInt8.ofNat_toNat] at hb

/-- A printable character is no percent sign, and is kept. -/
theorem isPrintable_kept (c : UInt8) (h : isPrintable c) : c ≠ percent ∧ kept c = c := by
  have hall : ∀ n : Fin 256, isPrintable (UInt8.ofNat n) →
      UInt8.ofNat n ≠ percent ∧ kept (UInt8.ofNat n) = UInt8.ofNat n := by
    decide +kernel
  have hc := hall ⟨c.toNat, c.toNat_lt⟩
  rw [UInt8.ofNat_toNat] at hc
  exact hc h

theorem isSafeChar_kept {c : UInt8} {u : Option CString} (h : isSafeChar c u) :
    c ≠ percent ∧ kept c = c := by
  unfold isSafeChar at h
  split_ifs at h
  exact isPrintable_kept c h

section

variable {m m' : Memory} {p : ℕ} {t t' : Bytes}

/-- A text is held in two parts. -/
theorem holdsAt_append :
    HoldsAt m p (t ++ t') ↔ HoldsAt m p t ∧ HoldsAt m (p + t.length) t' := by
  induction t generalizing p with
  | nil => simp [HoldsAt]
  | cons b t ih =>
    rw [List.cons_append, HoldsAt, HoldsAt, ih, and_assoc, List.length_cons, Nat.add_right_comm,
      Nat.add_assoc]

/-- A text is held while its places do not change. -/
theorem HoldsAt.congr (h : HoldsAt m p t) (hm : ∀ q, p ≤ q → q < p + t.length → m' q = m q) :
    HoldsAt m' p t := by
  induction t generalizing p with
  | nil => trivial
  | cons b t ih =>
    rw [List.length_cons] at hm
    exact ⟨(hm p le_rfl (by omega)).trans h.1,
      ih h.2 fun q hq hlt => hm q (by omega) (by omega)⟩

/-- The text of a given length at a place is one. -/
theorem HoldsAt.unique (h : HoldsAt m p t) (h' : HoldsAt m p t') (hl : t.length = t'.length) :
    t = t' := by
  induction t generalizing p t' with
  | nil => exact (List.length_eq_zero_iff.1 hl.symm).symm
  | cons b t ih =>
    cases t' with
    | nil => simp at hl
    | cons b' t' => rw [← h.1, ← h'.1, ih h.2 h'.2 (by simpa using hl)]

/-- A text is held when each of its bytes is at its place. -/
theorem holdsAt_iff : HoldsAt m p t ↔ ∀ j b, t[j]? = some b → m (p + j) = b := by
  induction t generalizing p with
  | nil => simp [HoldsAt]
  | cons b t ih =>
    rw [HoldsAt, ih]
    constructor
    · rintro ⟨hb, ht⟩ j b' hj
      cases j with
      | zero => exact hb.trans (Option.some.inj hj)
      | succ j =>
        rw [← Nat.add_assoc, Nat.add_right_comm]
        exact ht j b' hj
    · intro h
      refine ⟨h 0 b rfl, fun j b' hj => ?_⟩
      rw [Nat.add_right_comm, Nat.add_assoc]
      exact h (j + 1) b' hj

theorem HoldsAt.eq_iff (h : HoldsAt m 0 t) {j : ℕ} (hj : j < t.length) {b : UInt8} :
    m j = b ↔ t[j]? = some b := by
  have hj' := List.getElem?_eq_getElem hj
  have hmj := holdsAt_iff.1 h j _ hj'
  rw [Nat.zero_add] at hmj
  rw [hmj, hj', Option.some.injEq]

theorem HoldsAt.mem (h : HoldsAt m 0 t) {j : ℕ} (hj : j < t.length) : m j ∈ t :=
  List.mem_of_getElem? ((h.eq_iff hj).1 rfl)

/-- A memory with a text in it holds the text. -/
theorem holdsAt_textMemory (pre t : Bytes) : HoldsAt (textMemory (pre ++ t)) pre.length t := by
  induction t generalizing pre with
  | nil => trivial
  | cons b t ih =>
    refine ⟨by simp [textMemory], ?_⟩
    have := ih (pre ++ [b])
    rwa [List.append_assoc, List.singleton_append, List.length_append] at this

end

/-- What is written for a byte. -/
def piece (u : Option CString) (c : UInt8) : Bytes :=
  if isSafeChar c u then [c] else percentFormat c

section

variable {u : Option CString} {b : UInt8} {s : Decoder}

/-- No piece is empty. -/
theorem piece_length_pos : 0 < (piece u b).length := by
  unfold piece
  split_ifs
  · exact Nat.one_pos
  · obtain ⟨x, y, he, -⟩ := percentFormat_eq b
    rw [he]
    simp

/-- One turn reads one piece. -/
theorem decodePass_piece (hs : HoldsAt s.mem s.data (piece u b))
    (hl : ((piece u b).length : ℤ) ≤ s.len) :
    (∃ r, Takes s (decodePass s) (piece u b).length r) ∧
      (decodePass s).mem = Function.update s.mem s.dest (kept b) := by
  unfold piece at hs hl ⊢
  split_ifs at hs hl ⊢ with hsafe
  · obtain ⟨hne, hkept⟩ := isSafeChar_kept hsafe
    have hb : s.mem s.data = b := hs.1
    obtain ⟨ht, hmem⟩ := decodePass_plain (hb ▸ hne)
    rw [hb] at hmem
    exact ⟨⟨_, ht⟩, hkept.symm ▸ hmem⟩
  · obtain ⟨x, y, he, hx, hy, hval⟩ := percentFormat_eq b
    rw [he] at hs hl ⊢
    obtain ⟨h₀, h₁, h₂, -⟩ := hs
    obtain ⟨⟨r, ht, -⟩, hmem⟩ := @decodePass_escape s ⟨h₀, h₁ ▸ hx, h₂ ▸ hy⟩ hl
    have hbyte : hexByte s.mem (s.data + 1) = kept b := by
      rw [hexByte, h₁, h₂, hval]
    exact ⟨⟨r, ht⟩, hbyte ▸ hmem⟩

/-- The loop decodes the pieces of an encoded text one after the other. -/
theorem urlDecodeLoop_pieces (text : Bytes) (hs : HoldsAt s.mem s.data (text.flatMap (piece u)))
    (hl : s.len = ((text.flatMap (piece u)).length : ℤ)) (hb : s.dest ≤ s.data) {fuel : ℕ}
    (hf : text.length ≤ fuel) :
    ∃ s', urlDecodeLoop fuel s = some s' ∧ s'.dest = s.dest + text.length ∧
      (∀ p < s.dest, s'.mem p = s.mem p) ∧ HoldsAt s'.mem s.dest (text.map kept) := by
  induction text generalizing s fuel with
  | nil =>
    refine ⟨s, ?_, rfl, fun _ _ => rfl, trivial⟩
    cases fuel <;> rw [urlDecodeLoop, if_pos (by simpa using hl)]
  | cons b text ih =>
    rw [List.flatMap_cons] at hs hl
    rw [List.length_append, Nat.cast_add] at hl
    obtain ⟨hpiece, hrest⟩ := holdsAt_append.1 hs
    have hpos := @piece_length_pos u b
    obtain ⟨⟨r, ht⟩, hmem⟩ := decodePass_piece hpiece (by omega)
    obtain ⟨fuel, rfl⟩ : ∃ f, fuel = f + 1 := ⟨fuel - 1, by simp at hf; omega⟩
    rw [← ht.data] at hrest
    have hrest' : HoldsAt (decodePass s).mem (decodePass s).data (text.flatMap (piece u)) :=
      hrest.congr fun q hq _ => ht.frame q (by rw [ht.data] at hq; omega)
    obtain ⟨s', he, hdest, hkeep, hout⟩ := ih hrest' (by rw [ht.len, hl]; omega)
      (by rw [ht.dest, ht.data]; omega) (by simpa using hf)
    rw [ht.dest] at hdest hkeep hout
    refine ⟨s', ?_, by rw [hdest, List.length_cons]; omega, fun p hp => ?_, ?_, hout⟩
    · rw [urlDecodeLoop, if_neg (by omega), he]
    · rw [hkeep p (by omega), ht.frame p (by omega)]
    · rw [hkeep s.dest (by omega), hmem, Function.update_self]

end

/-- Every byte is decoded to what is kept of it. -/
theorem urlDecode_pieces (u : Option CString) (s : Bytes) {m : Memory}
    (hm : HoldsAt m 0 (s.flatMap (piece u) ++ [0])) :
    ∃ m', urlDecode m (s.flatMap (piece u)).length = some (s.length, m') ∧
      HoldsAt m' 0 (s.map kept ++ [0]) := by
  have hlen : s.length ≤ (s.flatMap (piece u)).length := by
    rw [List.length_flatMap]
    refine le_of_eq_of_le ?_ (List.sum_le_sum (f := fun _ => 1) fun b _ => piece_length_pos)
    simp
  obtain ⟨s', he, hdest, -, hout⟩ := @urlDecodeLoop_pieces u ⟨m, 0, 0, _, []⟩ s
    (holdsAt_append.1 hm).1 rfl le_rfl _ hlen
  rw [Nat.zero_add] at hdest
  refine ⟨_, by rw [urlDecode, he, Option.map_some, hdest], holdsAt_append.2 ⟨?_, ?_, trivial⟩⟩
  · refine hout.congr fun q _ hq => Function.update_of_ne ?_ _ _
    rw [List.length_map] at hq
    dsimp only at hq
    omega
  · rw [List.length_map, Nat.zero_add, Function.update_self]

/-- A piece has one byte or three. -/
theorem length_piece (u : Option CString) (c : UInt8) :
    (piece u c).length = if isSafeChar c u then 1 else 3 := by
  unfold piece
  split_ifs
  · rfl
  · obtain ⟨x, y, he, -⟩ := percentFormat_eq c
    rw [he]
    rfl

/-- The length of an encoded text. -/
theorem length_pieces (s : Bytes) (u : Option CString) :
    (s.flatMap (piece u)).length = s.length + 2 * s.countP fun c => !isSafeChar c u := by
  induction s with
  | nil => rfl
  | cons c s ih =>
    rw [List.flatMap_cons, List.length_append, ih, length_piece, List.countP_cons, List.length_cons]
    by_cases h : isSafeChar c u
    · rw [if_pos h, if_neg (by simp [h])]
      omega
    · rw [if_neg h, if_pos (by simp [h])]
      omega

theorem urlEncode_eq (s : CString) (u : Option CString) :
    urlEncode s u = if s.1.length + 2 * s.1.countP (fun c => !isSafeChar c u) + 1 < 2 ^ 31
      then some (s.1.flatMap (piece u)) else none := by
  rw [← length_pieces, List.length_flatMap]
  simp only [length_piece]
  rfl

/-- The text comes back exactly if no byte lies between 127 and 255, and the size of what is
encoded is an `int`. -/
theorem roundTrips_iff (s : CString) (u : Option CString) :
    RoundTrips s u ↔ (∀ b ∈ s.1, b < 128 ∨ b = 255) ∧
      s.1.length + 2 * s.1.countP (fun c => !isSafeChar c u) + 1 < 2 ^ 31 := by
  have hkept : ∀ b : UInt8, kept b = b ↔ b < 128 ∨ b = 255 := by
    intro b
    unfold kept
    split_ifs with h
    · simp [h]
    · simp [h, eq_comm]
  rw [RoundTrips, urlEncode_eq]
  constructor
  · rintro ⟨text, he, hall⟩
    split_ifs at he with hsize
    rw [Option.some.injEq] at he
    subst he
    refine ⟨fun b hb => ?_, hsize⟩
    have hm := holdsAt_textMemory [] (s.1.flatMap (piece u) ++ [0])
    obtain ⟨m₁, he₁, hm₁⟩ := hall _ hm
    obtain ⟨m₂, he₂, hm₂⟩ := urlDecode_pieces u s.1 hm
    rw [he₁, Option.some.injEq, Prod.mk.injEq] at he₂
    rw [← he₂.2] at hm₂
    have hsame := (holdsAt_append.1 hm₂).1.unique (holdsAt_append.1 hm₁).1 (List.length_map _)
    rw [← List.map_id s.1, List.map_map] at hsame
    exact (hkept b).1 (List.map_inj_left.1 hsame b hb)
  · rintro ⟨hbytes, hsize⟩
    refine ⟨s.1.flatMap (piece u), if_pos hsize, fun m hm => ?_⟩
    obtain ⟨m', he, hm'⟩ := urlDecode_pieces u s.1 hm
    rw [List.map_congr_left fun b hb => (hkept b).2 (hbytes b hb), List.map_id'] at hm'
    exact ⟨m', he, hm'⟩

/-- The byte 195 comes back as 255. -/
theorem not_roundTrips_byte : ¬RoundTrips ⟨[195], by decide⟩ none := by
  rintro ⟨text, he, hall⟩
  rw [show urlEncode ⟨[195], by decide⟩ none = some [percent, 70, 70] by decide +kernel,
    Option.some.injEq] at he
  subst he
  obtain ⟨m', hm', hout, -⟩ := hall _ (holdsAt_textMemory [] _)
  have hbyte := congrArg (Option.map fun r => r.2 0) hm'
  rw [show (urlDecode _ _).map (fun r => r.2 0) = some 255 by decide +kernel, Option.map_some,
    Option.some.injEq] at hbyte
  exact absurd (hbyte.trans hout) (by decide)

end Idb
