import Idb.Utf8
import Idb.UrlCodec
import Mathlib.Data.List.GetD

/-!
# Walking over characters

`IterateUtf8Char` decodes a character and encodes it again, and the callers go on by the length of
what was encoded. What is written is always the front of the text, and not longer than the text
with its terminator. A walk over a text comes to its end after as many steps as `utf8StrLen` says,
unless its `int` counter overflows (`losslessChars_iff`).
-/

namespace Idb

open Posix

/-! ## The source -/

/-- The bytes that `utf8StrLen` counts. -/
def startsChar (b : UInt8) : Bool :=
  b &&& 0x80 = 0x00 || b &&& 0xe0 = 0xc0 || b &&& 0xf0 = 0xe0 || b &&& 0xf8 = 0xf0

/-- The loop of `utf8StrLen`. Nothing is returned when the counter overflows. -/
def strLenLoop : ℤ → Bytes → Option ℤ
  | cnt, [] => some cnt
  | cnt, b :: rp =>
    if startsChar b then if cnt + 1 < 2 ^ 31 then strLenLoop (cnt + 1) rp else none
    else strLenLoop cnt rp

/-- The number of characters, counted in an `int`. -/
def utf8StrLen (str : Bytes) : Option ℤ :=
  strLenLoop 0 str

/-- Go on by what was written, until nothing is left of a text with its terminator and other
bytes behind it. -/
def charWalk (behind : Bytes) (aStrLen : Bytes → ℕ) :
    ℕ → Bytes → Option (Except ℤ (List Bytes))
  | _, [] => some (.ok [])
  | 0, _ :: _ => none
  | fuel + 1, b :: s =>
    match iterateUtf8Char (b :: s ++ 0 :: behind) (aStrLen (b :: s)) with
    | .error e => some (.error e)
    | .ok c => (charWalk behind aStrLen fuel ((b :: s).drop c.length)).map (·.map (c :: ·))

/-! ## One character -/

section

variable {s c behind : Bytes} {n uc len : ℕ}

theorem Decodes.le_four (h : Decodes s n uc) : n ≤ 4 := by
  have := utf8procUtf8class_cases (s.getD 0 0)
  rw [h.class_eq] at this
  omega

/-- No sequence goes on behind the terminator, and only the empty text is one with it. -/
theorem Decodes.le_of_terminated (h : Decodes (s ++ 0 :: behind) n uc) :
    n ≤ s.length ∨ s = [] ∧ n = 1 := by
  have hzero : (s ++ 0 :: behind).getD s.length 0 = 0 := by simp
  by_cases hn : n ≤ s.length
  · exact Or.inl hn
  right
  by_cases hs : s = []
  · refine ⟨hs, ?_⟩
    rw [← h.class_eq, hs]
    rfl
  · have hcont := h.cont s.length (by omega) (mt List.length_eq_zero_iff.1 hs)
    rw [hzero] at hcont
    exact absurd hcont (by decide)

theorem length_take_le {c : Bytes} (h : Decodes s n uc) (hc : c = s.take n) : c.length ≤ 4 := by
  rw [hc]
  exact (List.length_take_le n s).trans h.le_four

/-- With an exact length nothing behind the text is looked at. -/
theorem iterateUtf8Char_exact (h : iterateUtf8Char (s ++ behind) s.length = .ok c) :
    c <+: s ∧ c.length ≤ 4 := by
  rcases Nat.eq_zero_or_pos s.length with hs | hs
  · simp [iterateUtf8Char, utf8procIterate, hs] at h
  have hle : ∀ n uc, Decodes (s ++ behind) n uc → n ≤ s.length → n ≤ (s ++ behind).length := by
    intro n uc _ hn
    rw [List.length_append]
    omega
  obtain ⟨n, uc, hd, hn, hc⟩ := (iterateUtf8Char_eq_ok hs hle).1 h
  refine ⟨?_, length_take_le hd hc⟩
  rw [hc, List.take_append_of_le_length hn]
  exact List.take_prefix n s

/-- With a larger length the terminator is the last that is looked at. -/
theorem iterateUtf8Char_terminated (hlen : s.length < len)
    (h : iterateUtf8Char (s ++ 0 :: behind) len = .ok c) : c <+: s ++ [0] ∧ c.length ≤ 4 := by
  have hle : ∀ n uc, Decodes (s ++ 0 :: behind) n uc → n ≤ (s ++ [0]).length := by
    intro n uc hd
    rw [List.length_append, List.length_singleton]
    rcases hd.le_of_terminated with hn | ⟨-, hn⟩ <;> omega
  have hsplit : s ++ 0 :: behind = s ++ [0] ++ behind := by simp
  obtain ⟨n, uc, hd, hn, hc⟩ := (iterateUtf8Char_eq_ok (by omega) fun n uc hd _ => by
    rw [hsplit, List.length_append]
    exact (hle n uc hd).trans (Nat.le_add_right _ _)).1 h
  refine ⟨?_, length_take_le hd hc⟩
  rw [hc, hsplit, List.take_append_of_le_length (hle n uc hd)]
  exact List.take_prefix n _

/-- A step of the walk is the first character of what is left. -/
theorem iterateUtf8Char_eq_firstChar (hs : s ≠ []) (hlen : s.length ≤ len) :
    iterateUtf8Char (s ++ 0 :: behind) len = .ok c ↔ firstChar s = .ok c := by
  have hle : ∀ n uc, Decodes (s ++ 0 :: behind) n uc → n ≤ s.length := fun n uc hd =>
    hd.le_of_terminated.resolve_right fun hn => hs hn.1
  have hsame : ∀ n, n ≤ s.length → ∀ i < n, (s ++ 0 :: behind).getD i 0 = s.getD i 0 := by
    intro n hn i hi
    rw [List.getD_append _ _ _ _ (by omega)]
  rw [iterateUtf8Char_eq_ok ((List.length_pos_iff.2 hs).trans_le hlen) fun n uc hd _ => by
    rw [List.length_append]
    exact (hle n uc hd).trans (Nat.le_add_right _ _), firstChar_eq_ok_iff_decodes]
  constructor
  · rintro ⟨n, uc, hd, -, hc⟩
    have hn := hle n uc hd
    exact ⟨n, uc, hd.congr (hsame n hn), hn, by rw [hc, List.take_append_of_le_length hn]⟩
  · rintro ⟨n, uc, hd, hn, hc⟩
    exact ⟨n, uc, hd.congr fun i hi => (hsame n hn i hi).symm, hn.trans hlen,
      by rw [hc, List.take_append_of_le_length hn]⟩

end

/-! ## Counting characters -/

theorem startsChar_iff (b : UInt8) : startsChar b ↔ utf8procUtf8class b ≠ 0 := by
  have h : ∀ n < 256, startsChar (UInt8.ofNat n) ↔ utf8procUtf8class (UInt8.ofNat n) ≠ 0 := by
    decide +kernel
  simpa using h b.toNat b.toNat_lt

theorem startsChar_of_cont {b : UInt8} (h : b &&& 0xC0 = 0x80) : startsChar b = false := by
  have hall : ∀ n < 256, UInt8.ofNat n &&& 0xC0 = 0x80 → startsChar (UInt8.ofNat n) = false := by
    decide +kernel
  have hb := hall b.toNat b.toNat_lt
  rw [UInt8.ofNat_toNat] at hb
  exact hb h

/-- A character has one byte that starts it. -/
theorem countP_startsChar {c : Bytes} (h : firstChar c = .ok c) : c.countP startsChar = 1 := by
  obtain ⟨uc, hd, hn⟩ := firstChar_decodes h
  obtain ⟨b, s, rfl⟩ := List.exists_cons_of_ne_nil (firstChar_ne_nil h)
  have hb : startsChar b := (startsChar_iff b).2 (by
    have := hd.pos
    rw [← hd.class_eq] at this
    exact this.ne')
  have hs : s.countP startsChar = 0 := by
    rw [List.countP_eq_zero]
    intro x hx
    obtain ⟨i, hi, rfl⟩ := List.mem_iff_getElem.1 hx
    have hcont := hd.cont (i + 1) (by rw [List.length_cons]; omega) (by omega)
    rw [List.getD_cons_succ, List.getD_eq_getElem _ _ hi] at hcont
    rw [startsChar_of_cont hcont]
    simp
  rw [List.countP_cons_of_pos hb, hs]

/-- The loop adds the bytes that start a character, while the count is an `int`. -/
theorem strLenLoop_eq {cnt : ℕ} (s : Bytes) (h : cnt < 2 ^ 31) :
    strLenLoop cnt s = if cnt + s.countP startsChar < 2 ^ 31 then
      some ((cnt + s.countP startsChar : ℕ) : ℤ) else none := by
  induction s generalizing cnt with
  | nil => rw [strLenLoop, List.countP_nil, Nat.add_zero, if_pos h]
  | cons b s ih =>
    rw [strLenLoop]
    by_cases hb : startsChar b
    · rw [if_pos hb, List.countP_cons_of_pos hb, Nat.add_comm _ 1, ← Nat.add_assoc]
      by_cases hlt : cnt + 1 < 2 ^ 31
      · rw [if_pos (by exact_mod_cast hlt), ← Nat.cast_succ, ih hlt]
      · rw [if_neg (by exact_mod_cast hlt), if_neg (by omega)]
    · rw [if_neg hb, List.countP_cons_of_neg hb, ih h]

theorem utf8StrLen_eq (s : Bytes) : utf8StrLen s =
    if s.countP startsChar < 2 ^ 31 then some (s.countP startsChar : ℤ) else none := by
  have hloop := @strLenLoop_eq 0 s (by norm_num)
  rwa [Nat.zero_add] at hloop

/-! ## The walk -/

/-- The characters of a text. -/
structure Chars (cs : List Bytes) (s : Bytes) : Prop where
  char : ∀ c ∈ cs, firstChar c = .ok c
  flatten : cs.flatten = s

section

variable {s c : Bytes} {cs : List Bytes}

/-- The first character and the characters of the rest. -/
theorem Chars.cons_iff : Chars (c :: cs) s ↔ firstChar s = .ok c ∧ Chars cs (s.drop c.length) := by
  constructor
  · rintro ⟨hc, rfl⟩
    have hfirst := hc c List.mem_cons_self
    refine ⟨firstChar_append hfirst _, fun c' h => hc c' (List.mem_cons_of_mem c h), ?_⟩
    rw [List.flatten_cons, List.drop_left' rfl]
  · rintro ⟨hc, hcs, hflat⟩
    refine ⟨List.forall_mem_cons.2 ⟨(firstChar_eq_ok.1 hc).2, hcs⟩, ?_⟩
    rw [List.flatten_cons, hflat]
    exact (firstChar_split hc).symm

theorem Chars.nil_iff : Chars cs [] ↔ cs = [] := by
  refine ⟨fun h => ?_, fun h => h ▸ ⟨by simp, rfl⟩⟩
  cases cs with
  | nil => rfl
  | cons c cs => exact absurd (Chars.cons_iff.1 h).1 (by simp [firstChar_nil])

theorem Chars.length_eq (h : Chars cs s) : cs.length = s.countP startsChar := by
  obtain ⟨hchar, rfl⟩ := h
  rw [List.countP_flatten, List.map_congr_left fun c hc => countP_startsChar (hchar c hc)]
  simp

theorem Chars.exists_cons (h : Chars cs s) (hs : s ≠ []) :
    ∃ c cs', cs = c :: cs' ∧ firstChar s = .ok c ∧ Chars cs' (s.drop c.length) := by
  cases cs with
  | nil => exact absurd h.flatten.symm hs
  | cons c cs => exact ⟨c, cs, rfl, Chars.cons_iff.1 h⟩

/-- The walk ends, and what it returns without an error are the characters of the text. -/
theorem charWalk_spec (behind : Bytes) {aStrLen : Bytes → ℕ} (hlen : ∀ s, s.length ≤ aStrLen s)
    {fuel : ℕ} (hf : s.length ≤ fuel) :
    ∃ r, charWalk behind aStrLen fuel s = some r ∧ ∀ cs, r = .ok cs ↔ Chars cs s := by
  induction fuel generalizing s with
  | zero =>
    rw [Nat.le_zero, List.length_eq_zero_iff] at hf
    subst hf
    exact ⟨.ok [], rfl, fun cs => by rw [Except.ok.injEq, Chars.nil_iff, eq_comm]⟩
  | succ fuel ih =>
    cases s with
    | nil => exact ⟨.ok [], rfl, fun cs => by rw [Except.ok.injEq, Chars.nil_iff, eq_comm]⟩
    | cons b s =>
      have hstep := fun c => @iterateUtf8Char_eq_firstChar (b :: s) c behind _
        (List.cons_ne_nil b s) (hlen (b :: s))
      rw [charWalk]
      cases hi : iterateUtf8Char (b :: s ++ 0 :: behind) (aStrLen (b :: s)) with
      | error e =>
        refine ⟨.error e, rfl, fun cs => iff_of_false (by simp) fun h => ?_⟩
        obtain ⟨c, -, -, hc, -⟩ := h.exists_cons (List.cons_ne_nil b s)
        rw [(hstep c).2 hc] at hi
        simp at hi
      | ok c =>
        have hc := (hstep c).1 hi
        have hpos := List.length_pos_iff.2 (firstChar_ne_nil hc)
        obtain ⟨r, hr, hiff⟩ := @ih ((b :: s).drop c.length) (by
          rw [List.length_drop]
          omega)
        refine ⟨r.map (c :: ·), by dsimp only; rw [hr]; rfl, fun cs => ?_⟩
        constructor
        · intro he
          cases r with
          | error e => simp [Except.map] at he
          | ok cs' =>
            rw [← Except.ok.inj he, Chars.cons_iff]
            exact ⟨hc, (hiff cs').1 rfl⟩
        · intro h
          obtain ⟨c', cs', rfl, hc', hcs'⟩ := h.exists_cons (List.cons_ne_nil b s)
          rw [hc, Except.ok.injEq] at hc'
          subst hc'
          rw [(hiff cs').2 hcs']
          rfl

end

/-- What is written is the front of the text, up to its terminator, and a walk that comes to the
end counts the characters as `utf8StrLen` does. -/
structure LosslessChars (b : Bytes) : Prop where
  exact : ∀ behind c, iterateUtf8Char (b ++ behind) b.length = .ok c → c <+: b ∧ c.length ≤ 4
  terminated : 0 ∉ b → ∀ behind len c, b.length < len →
    iterateUtf8Char (b ++ 0 :: behind) (len : ℕ) = .ok c → c <+: b ++ [0] ∧ c.length ≤ 4
  walk : 0 ∉ b → ∀ behind aStrLen, (∀ s, s.length ≤ aStrLen s) →
    ∃ r, charWalk behind aStrLen b.length b = some r ∧
      ∀ cs, r = .ok cs → cs.flatten = b ∧ utf8StrLen b = some (cs.length : ℤ)

/-- A string whose characters are walked without loss has fewer than `2 ^ 31` of them. -/
theorem LosslessChars.countP_lt {b : Bytes} {cs : List Bytes} (h : LosslessChars b) (h0 : 0 ∉ b)
    (hcs : Chars cs b) : b.countP startsChar < 2 ^ 31 := by
  obtain ⟨r, hr, hok⟩ := h.walk h0 [] List.length fun _ => le_rfl
  obtain ⟨r', hr', hiff⟩ := @charWalk_spec b [] List.length (fun _ => le_rfl) _ le_rfl
  obtain rfl : r = r' := Option.some.inj (hr.symm.trans hr')
  have hcount := (hok cs ((hiff cs).2 hcs)).2
  rw [utf8StrLen_eq] at hcount
  split_ifs at hcount with hlt
  exact hlt

/-- All of it holds exactly if a text that comes to its end has less than `2^31` characters. -/
theorem losslessChars_iff (b : Bytes) :
    LosslessChars b ↔ (0 ∉ b → (∃ cs, Chars cs b) → b.countP startsChar < 2 ^ 31) := by
  constructor
  · rintro h h0 ⟨cs, hcs⟩
    exact h.countP_lt h0 hcs
  · intro h
    refine ⟨fun behind c => iterateUtf8Char_exact, fun _ behind len c => iterateUtf8Char_terminated,
      fun h0 behind aStrLen hlen => ?_⟩
    obtain ⟨r, hr, hiff⟩ := charWalk_spec behind hlen (le_refl b.length)
    refine ⟨r, hr, fun cs he => ?_⟩
    have hcs := (hiff cs).1 he
    refine ⟨hcs.flatten, ?_⟩
    rw [utf8StrLen_eq, if_pos (h h0 ⟨cs, hcs⟩), hcs.length_eq]

/-- The walk over `2^31` letters comes to its end, but they are not counted. -/
theorem not_losslessChars_letters : ¬LosslessChars (letters (2 ^ 31)).1 := by
  intro h
  have hchars : Chars (List.replicate (2 ^ 31) [97]) (letters (2 ^ 31)).1 :=
    ⟨fun c hc => List.eq_of_mem_replicate hc ▸ by decide, List.flatten_replicate_singleton⟩
  have hlt := h.countP_lt (letters (2 ^ 31)).2 hchars
  rw [letters, List.countP_replicate, if_pos (by decide)] at hlt
  exact absurd hlt (lt_irrefl _)

end Idb
