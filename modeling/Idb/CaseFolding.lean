import Idb.UrlCodec
import Mathlib.Data.List.GetD

/-!
# Upper and lower case

`stricmp`, `striBeginWith` and `striEndWith` fold the case of either string while they walk over
it, some of them on signed and some on unsigned characters. What they say is what the
case-sensitive functions say about strings in lower case.

The two functions for the end of a string keep lengths in an `int`. For strings of less than `2^31`
characters they are right unless the key is an end of `2^31 - 1` characters, where the counter
overflows (`endFits_of_lengths`). Which longer strings they judge right depends on what the `int`
lengths keep of them (`foldsCase_iff`).
-/

namespace Idb

open Posix

/-! ## The source -/

/-- The case is folded if the signed character is a capital letter. -/
def toLower (c : UInt8) : UInt8 :=
  if 65 ≤ charOf c ∧ charOf c ≤ 90 then c + 32 else c

/-- The text in lower case. -/
def strToLowerCase (str : Bytes) : Bytes :=
  str.map toLower

/-- The value that `stricmp` compares. -/
def unsignedFold (c : UInt8) : ℤ :=
  if 65 ≤ charOf c ∧ charOf c ≤ 90 then charOf c + 32 else c.toNat

/-- The value that `striBeginWith` and `striEndWith` compare. -/
def signedFold (c : UInt8) : ℤ :=
  if 65 ≤ charOf c ∧ charOf c ≤ 90 then charOf c + 32 else charOf c

/-- The difference of the first two characters that differ in lower case. -/
def stricmp : Bytes → Bytes → ℤ
  | [], [] => 0
  | [], _ :: _ => -1
  | _ :: _, [] => 1
  | a :: astr, b :: bstr =>
    if unsignedFold a ≠ unsignedFold b then unsignedFold a - unsignedFold b
    else stricmp astr bstr

/-- The loop over the key, for characters compared by a value. -/
def beginLoop (value : UInt8 → ℤ) : Bytes → Bytes → Bool
  | _, [] => true
  | [], _ :: _ => false
  | s :: str, k :: key => if value s ≠ value k then false else beginLoop value str key

/-- The text begins with the key. -/
def strBeginWith (str key : Bytes) : Bool :=
  beginLoop charOf str key

/-- The text begins with the key, whatever the case. -/
def striBeginWith (str key : Bytes) : Bool :=
  beginLoop signedFold str key

/-- The loop from the end. Nothing is returned when the counter overflows. -/
def endLoop (value : UInt8 → ℤ) (str key : Bytes) (slen klen : ℤ) : ℕ → ℤ → Option Bool
  | 0, _ => none
  | fuel + 1, i =>
    if i ≤ klen then
      if i > slen then some false
      else if value (str.getD (slen - i).toNat 0) ≠ value (key.getD (klen - i).toNat 0) then
        some false
      else if i + 1 < 2 ^ 31 then endLoop value str key slen klen fuel (i + 1)
      else none
    else some true

/-- The test of the end, with the `int` lengths of both strings. -/
def endWith (value : UInt8 → ℤ) (str key : Bytes) : Option Bool :=
  let slen := intOf str.length
  let klen := intOf key.length
  endLoop value str key slen klen (klen.toNat + 1) 1

/-- The text ends with the key. -/
def strEndWith (str key : Bytes) : Option Bool :=
  endWith charOf str key

/-- The text ends with the key, whatever the case. -/
def striEndWith (str key : Bytes) : Option Bool :=
  endWith signedFold str key

/-! ## Folding one character -/

/-- A folded byte read as `char`. -/
theorem charOf_toLower (c : UInt8) : charOf (toLower c) = signedFold c := by
  have hlt := c.toNat_lt
  unfold toLower signedFold
  split_ifs with h
  · rw [charOf_eq] at h ⊢
    rw [charOf_eq c, UInt8.toNat_add]
    split_ifs at h ⊢ <;> simp at * <;> omega
  · rfl

/-- A folded byte read as `unsigned char`. -/
theorem toNat_toLower (c : UInt8) : ((toLower c).toNat : ℤ) = unsignedFold c := by
  have hlt := c.toNat_lt
  unfold toLower unsignedFold
  split_ifs with h
  · rw [charOf_eq] at h ⊢
    rw [UInt8.toNat_add]
    split_ifs at h ⊢ <;> simp at * <;> omega
  · rfl

theorem unsignedFold_inj {a b : UInt8} :
    unsignedFold a = unsignedFold b ↔ toLower a = toLower b := by
  rw [← toNat_toLower, ← toNat_toLower, Nat.cast_inj, UInt8.toNat_inj]

theorem unsignedFold_lt {a b : UInt8} :
    unsignedFold a < unsignedFold b ↔ toLower a < toLower b := by
  rw [← toNat_toLower, ← toNat_toLower, Nat.cast_lt, UInt8.lt_iff_toNat_lt]

/-! ## Comparing -/

/-- `stricmp` orders strings as their lower-case forms are ordered. -/
theorem stricmp_neg_iff (s t : Bytes) :
    stricmp s t < 0 ↔ strToLowerCase s < strToLowerCase t := by
  induction s generalizing t with
  | nil => cases t <;> simp [stricmp, strToLowerCase]
  | cons a s ih =>
    cases t with
    | nil => simp [stricmp, strToLowerCase]
    | cons b t =>
      rw [stricmp, strToLowerCase, strToLowerCase, List.map_cons, List.map_cons,
        List.cons_lt_cons_iff, ← unsignedFold_lt, ← unsignedFold_inj]
      split_ifs with h
      · simp [h]
      · rw [not_not] at h
        rw [ih t]
        simp [h, strToLowerCase]

/-- Swapping the arguments swaps the sign. -/
theorem stricmp_comm (s t : Bytes) : (stricmp t s).sign = -(stricmp s t).sign := by
  induction s generalizing t with
  | nil => cases t <;> simp [stricmp]
  | cons a s ih =>
    cases t with
    | nil => simp [stricmp]
    | cons b t =>
      rw [stricmp, stricmp]
      by_cases h : unsignedFold a = unsignedFold b
      · rw [if_neg (not_not.2 h), if_neg (not_not.2 h.symm), ih t]
      · rw [if_pos h, if_pos (Ne.symm h), ← Int.sign_neg, neg_sub]

theorem stricmp_pos_iff (s t : Bytes) :
    0 < stricmp s t ↔ strToLowerCase t < strToLowerCase s := by
  rw [← stricmp_neg_iff, ← Int.sign_eq_one_iff_pos, ← Int.sign_eq_neg_one_iff_neg,
    stricmp_comm s t, neg_inj]

/-- `stricmp` is zero on strings with the same lower-case form. -/
theorem stricmp_eq_zero_iff (s t : Bytes) :
    stricmp s t = 0 ↔ strToLowerCase s = strToLowerCase t := by
  constructor
  · intro h
    refine List.le_antisymm (List.not_lt.1 ?_) (List.not_lt.1 ?_)
    · rw [← stricmp_pos_iff, h]
      exact lt_irrefl 0
    · rw [← stricmp_neg_iff, h]
      exact lt_irrefl 0
  · intro h
    refine le_antisymm (not_lt.1 ?_) (not_lt.1 ?_)
    · rw [stricmp_pos_iff, h]
      exact List.lt_irrefl _
    · rw [stricmp_neg_iff, h]
      exact List.lt_irrefl _

theorem stricmp_trans {s t u : Bytes} (hst : stricmp s t ≤ 0) (htu : stricmp t u ≤ 0) :
    stricmp s u ≤ 0 := by
  rw [← not_lt, stricmp_pos_iff, List.not_lt] at hst htu ⊢
  exact List.le_trans hst htu

/-! ## The front of a string -/

/-- The folding prefix loop is the plain one on the lower-case forms. -/
theorem beginLoop_lower (s k : Bytes) :
    beginLoop signedFold s k = beginLoop charOf (strToLowerCase s) (strToLowerCase k) := by
  induction k generalizing s with
  | nil => cases s <;> rfl
  | cons b k ih =>
    cases s with
    | nil => rfl
    | cons a s =>
      rw [strToLowerCase, strToLowerCase, List.map_cons, List.map_cons, beginLoop, beginLoop,
        charOf_toLower, charOf_toLower, ih]
      rfl

/-- `strBeginWith` decides whether `k` is a prefix of `s`. -/
theorem strBeginWith_iff (s k : Bytes) : strBeginWith s k ↔ k <+: s := by
  unfold strBeginWith
  induction k generalizing s with
  | nil => simp [beginLoop]
  | cons b k ih =>
    cases s with
    | nil => simp [beginLoop]
    | cons a s =>
      rw [beginLoop, List.cons_prefix_cons, ← ih, ← charOf_injective.eq_iff]
      split_ifs with h
      · simp [Ne.symm h]
      · rw [not_not] at h
        simp [h]

/-! ## The end of a string -/

theorem getD_strToLowerCase (s : Bytes) (i : ℕ) :
    (strToLowerCase s).getD i 0 = toLower (s.getD i 0) := by
  exact List.getD_map s 0 toLower

/-- The folding suffix loop is the plain one on the lower-case forms. -/
theorem endLoop_lower (s k : Bytes) (slen klen : ℤ) (fuel : ℕ) (i : ℤ) :
    endLoop signedFold s k slen klen fuel i =
      endLoop charOf (strToLowerCase s) (strToLowerCase k) slen klen fuel i := by
  induction fuel generalizing i with
  | zero => rfl
  | succ fuel ih =>
    rw [endLoop, endLoop, ih, getD_strToLowerCase, getD_strToLowerCase, charOf_toLower,
      charOf_toLower]

theorem endWith_lower (s k : Bytes) :
    striEndWith s k = strEndWith (strToLowerCase s) (strToLowerCase k) := by
  rw [striEndWith, strEndWith, endWith, endWith, endLoop_lower, strToLowerCase, strToLowerCase,
    List.length_map, List.length_map]

section

variable {s k : Bytes} {slen klen i : ℤ} {fuel : ℕ}

/-- The turn with the counter `j` finds nothing that differs. -/
def SameAt (s k : Bytes) (slen klen j : ℤ) : Prop :=
  j ≤ slen ∧ s.getD (slen - j).toNat 0 = k.getD (klen - j).toNat 0

/-- One turn of the suffix loop : it ends past the last byte, ends on a difference, or counts on
within the range of `int`. -/
theorem endLoop_succ : endLoop charOf s k slen klen (fuel + 1) i = some true ∧ klen < i ∨
    i ≤ klen ∧ (¬SameAt s k slen klen i ∧
        endLoop charOf s k slen klen (fuel + 1) i = some false ∨
      SameAt s k slen klen i ∧ endLoop charOf s k slen klen (fuel + 1) i =
        if i + 1 < 2 ^ 31 then endLoop charOf s k slen klen fuel (i + 1) else none) := by
  rw [endLoop, SameAt, ← charOf_injective.eq_iff]
  by_cases hi : i ≤ klen
  · refine Or.inr ⟨hi, ?_⟩
    rw [if_pos hi]
    by_cases hs : i > slen
    · exact Or.inl ⟨fun h => absurd h.1 (not_le.2 hs), if_pos hs⟩
    · rw [if_neg hs]
      by_cases hc : charOf (s.getD (slen - i).toNat 0) = charOf (k.getD (klen - i).toNat 0)
      · exact Or.inr ⟨⟨not_lt.1 hs, hc⟩, if_neg (not_not.2 hc)⟩
      · exact Or.inl ⟨fun h => hc h.2, if_pos hc⟩
  · exact Or.inl ⟨if_neg hi, not_le.1 hi⟩

/-- The loop succeeds where all the bytes left agree. -/
theorem endLoop_of_same (hi : i ≤ klen + 1) (hf : klen + 1 - i < fuel) (hk : klen + 1 < 2 ^ 31)
    (h : ∀ j, i ≤ j → j ≤ klen → SameAt s k slen klen j) :
    endLoop charOf s k slen klen fuel i = some true := by
  induction fuel generalizing i with
  | zero => omega
  | succ fuel ih =>
    rcases @endLoop_succ s k slen klen i fuel with ⟨he, -⟩ | ⟨hle, ⟨hne, -⟩ | ⟨-, he⟩⟩
    · exact he
    · exact absurd (h i le_rfl hle) hne
    · rw [he, if_pos (by omega)]
      exact ih (by omega) (by push_cast at hf; omega) fun j hj => h j (by omega)

/-- The counter overflows if the key is as long as an `int` can say. -/
theorem endLoop_of_same_max (hi : i ≤ klen) (hk : klen + 1 = 2 ^ 31)
    (h : ∀ j, i ≤ j → j ≤ klen → SameAt s k slen klen j) :
    endLoop charOf s k slen klen fuel i = none := by
  induction fuel generalizing i with
  | zero => rfl
  | succ fuel ih =>
    rcases @endLoop_succ s k slen klen i fuel with ⟨-, hlt⟩ | ⟨hle, ⟨hne, -⟩ | ⟨-, he⟩⟩
    · omega
    · exact absurd (h i le_rfl hle) hne
    · rw [he]
      split_ifs with hlt
      · exact ih (by omega) fun j hj => h j (by omega)
      · rfl

/-- The loop fails where one of the bytes left differs. -/
theorem endLoop_of_not_same {j : ℤ} (hi : i ≤ j) (hj : j ≤ klen) (hf : klen + 1 - i < fuel)
    (hk : klen < 2 ^ 31) (h : ¬SameAt s k slen klen j) :
    endLoop charOf s k slen klen fuel i = some false := by
  induction fuel generalizing i with
  | zero => omega
  | succ fuel ih =>
    rcases @endLoop_succ s k slen klen i fuel with ⟨-, hlt⟩ | ⟨hle, ⟨-, he⟩ | ⟨hs, he⟩⟩
    · omega
    · exact he
    · have hne : i ≠ j := by
        rintro rfl
        exact h hs
      rw [he, if_pos (by omega)]
      exact ih (by omega) (by push_cast at hf; omega)

end

/-- A suffix, byte by byte from the end. -/
theorem suffix_iff_same (s k : Bytes) :
    k <:+ s ↔ ∀ j : ℤ, 1 ≤ j → j ≤ k.length → SameAt s k s.length k.length j := by
  constructor
  · rintro ⟨r, rfl⟩ j h1 hj
    rw [List.length_append]
    have hindex : (((r.length + k.length : ℕ) : ℤ) - j).toNat =
        r.length + ((k.length : ℤ) - j).toNat := by
      omega
    refine ⟨by omega, ?_⟩
    rw [hindex, List.getD_append_right _ _ _ _ (Nat.le_add_right _ _), Nat.add_sub_cancel_left]
  · intro h
    by_cases hk : k = []
    · rw [hk]
      exact List.nil_suffix
    · have hpos := List.length_pos_iff.2 hk
      have hlen := (h k.length (by omega) le_rfl).1
      rw [List.suffix_iff_eq_drop]
      refine List.ext_getElem (by rw [List.length_drop]; omega) fun i hi hi' => ?_
      have hsame := (h (k.length - i) (by omega) (by omega)).2
      rw [show ((s.length : ℤ) - (k.length - i)).toNat = s.length - k.length + i by omega,
        show ((k.length : ℤ) - (k.length - i)).toNat = i by omega,
        List.getD_eq_getElem _ _ (by omega), List.getD_eq_getElem _ _ hi] at hsame
      rw [List.getElem_drop, hsame]

/-! ## Lengths that fit -/

/-- The test of the end is right. A key whose length is no positive `int` is always taken for an
end, one whose length is a greater `int` than that of the string never. Otherwise what the `int`
lengths keep of both is compared, and the counter must not overflow. -/
def EndFits (s k : Bytes) : Prop :=
  (intOf k.length ≤ 0 ∧ k <:+ s) ∨
  (0 < intOf k.length ∧ intOf s.length < intOf k.length ∧ ¬k <:+ s) ∨
  (0 < intOf k.length ∧ intOf k.length ≤ intOf s.length ∧
    (k <:+ s ↔ k.take (intOf k.length).toNat <:+ s.take (intOf s.length).toNat) ∧
    ¬(intOf k.length = 2 ^ 31 - 1 ∧ k <:+ s))

section

variable {s k : Bytes}

theorem strEndWith_of_le (h : intOf k.length ≤ 0) : strEndWith s k = some true := by
  rw [strEndWith, endWith, endLoop]
  exact if_neg (by omega)

theorem strEndWith_of_lt (h : intOf s.length < intOf k.length) (hpos : 0 < intOf k.length) :
    strEndWith s k = some false := by
  rw [strEndWith, endWith]
  exact endLoop_of_not_same (by omega) le_rfl (by push_cast; omega) (intOf_bounds _).2 fun hs => by
    have := hs.1
    omega

/-- The turns see what the lengths keep of both strings. -/
theorem suffix_take_iff_same (hpos : 0 < intOf k.length) (hle : intOf k.length ≤ intOf s.length) :
    k.take (intOf k.length).toNat <:+ s.take (intOf s.length).toNat ↔
      ∀ j, 1 ≤ j → j ≤ intOf k.length → SameAt s k (intOf s.length) (intOf k.length) j := by
  have hs : ((s.take (intOf s.length).toNat).length : ℤ) = intOf s.length := by
    have := intOf_of_pos (hpos.trans_le hle)
    rw [List.length_take]
    omega
  have hk : ((k.take (intOf k.length).toNat).length : ℤ) = intOf k.length := by
    have := intOf_of_pos hpos
    rw [List.length_take]
    omega
  rw [suffix_iff_same, hs, hk]
  refine forall_congr' fun j => forall_congr' fun h1 => forall_congr' fun hj => ?_
  rw [SameAt, SameAt, getD_take (by omega), getD_take (by omega)]

/-- The comparison of what the lengths keep. -/
theorem strEndWith_of_take (hpos : 0 < intOf k.length) (hle : intOf k.length ≤ intOf s.length) :
    strEndWith s k =
      if k.take (intOf k.length).toNat <:+ s.take (intOf s.length).toNat then
        if intOf k.length = 2 ^ 31 - 1 then none else some true
      else some false := by
  have hlt := (intOf_bounds k.length).2
  rw [strEndWith, endWith]
  split_ifs with hsame hmax
  · rw [suffix_take_iff_same hpos hle] at hsame
    exact endLoop_of_same_max hpos (by omega) hsame
  · rw [suffix_take_iff_same hpos hle] at hsame
    exact endLoop_of_same (by omega) (by push_cast; omega) (by omega) hsame
  · rw [suffix_take_iff_same hpos hle] at hsame
    push Not at hsame
    obtain ⟨j, h1, hj, hne⟩ := hsame
    exact endLoop_of_not_same h1 hj (by push_cast; omega) hlt hne

/-- `strEndWith` decides the suffix exactly when its counter fits the strings. -/
theorem strEndWith_iff : strEndWith s k = some (decide (k <:+ s)) ↔ EndFits s k := by
  rw [EndFits]
  rcases le_or_gt (intOf k.length) 0 with hneg | hpos
  · rw [strEndWith_of_le hneg, Option.some.injEq, eq_comm, decide_eq_true_iff]
    simp [hneg, hneg.not_gt]
  · rcases lt_or_ge (intOf s.length) (intOf k.length) with hlt | hle
    · rw [strEndWith_of_lt hlt hpos, Option.some.injEq, eq_comm, decide_eq_false_iff_not]
      simp [hpos, hpos.not_ge, hlt, hlt.not_ge]
    · rw [strEndWith_of_take hpos hle]
      simp only [hpos, hpos.not_ge, hle, hle.not_gt, false_and, true_and, false_or]
      split_ifs with hsame hmax
      · exact ⟨fun h => by simp at h, fun h => absurd ⟨hmax, h.1.2 hsame⟩ h.2⟩
      · rw [Option.some.injEq, eq_comm, decide_eq_true_iff]
        exact ⟨fun h => ⟨iff_of_true h hsame, fun hc => hmax hc.1⟩, fun h => h.1.2 hsame⟩
      · rw [Option.some.injEq, eq_comm, decide_eq_false_iff_not]
        exact ⟨fun h => ⟨iff_of_false h hsame, fun hc => h hc.2⟩, fun h hk => hsame (h.1.1 hk)⟩

end

/-- Lengths that are kept. -/
theorem endFits_of_lengths {s k : Bytes} (hs : s.length < 2 ^ 31) (hk : k.length < 2 ^ 31) :
    EndFits s k ↔ ¬(k.length = 2 ^ 31 - 1 ∧ k <:+ s) := by
  rw [EndFits, intOf_natCast hs, intOf_natCast hk, Int.toNat_natCast, Int.toNat_natCast,
    List.take_length, List.take_length]
  rcases Nat.eq_zero_or_pos k.length with hz | hpos
  · rw [List.length_eq_zero_iff] at hz
    simp [hz]
  · rcases lt_or_ge s.length k.length with hlt | hle
    · have hno : ¬k <:+ s := fun h => absurd h.length_le hlt.not_ge
      simp [hno, hlt, hpos]
    · have hmax : ((k.length : ℤ) = 2 ^ 31 - 1) ↔ k.length = 2 ^ 31 - 1 := by omega
      rw [hmax]
      simp [hle, hle.not_gt, hpos, hpos.ne']

/-- What is said of the functions that fold the case, for three strings. -/
structure FoldsCase (s t k : CString) : Prop where
  neg : stricmp s.1 t.1 < 0 ↔ strToLowerCase s.1 < strToLowerCase t.1
  pos : 0 < stricmp s.1 t.1 ↔ strToLowerCase t.1 < strToLowerCase s.1
  zero : stricmp s.1 t.1 = 0 ↔ strToLowerCase s.1 = strToLowerCase t.1
  comm : (stricmp t.1 s.1).sign = -(stricmp s.1 t.1).sign
  trans : stricmp s.1 t.1 ≤ 0 → stricmp t.1 k.1 ≤ 0 → stricmp s.1 k.1 ≤ 0
  beginFolds : striBeginWith s.1 k.1 = strBeginWith (strToLowerCase s.1) (strToLowerCase k.1)
  endFolds : striEndWith s.1 k.1 = strEndWith (strToLowerCase s.1) (strToLowerCase k.1)
  begins : strBeginWith s.1 k.1 ↔ k.1 <+: s.1
  ends : strEndWith s.1 k.1 = some (decide (k.1 <:+ s.1))

/-- Only the end of a string may be judged wrong. -/
theorem foldsCase_of_ends {s t k : CString}
    (h : strEndWith s.1 k.1 = some (decide (k.1 <:+ s.1))) : FoldsCase s t k where
  neg := stricmp_neg_iff _ _
  pos := stricmp_pos_iff _ _
  zero := stricmp_eq_zero_iff _ _
  comm := stricmp_comm _ _
  trans := stricmp_trans
  beginFolds := beginLoop_lower _ _
  endFolds := endWith_lower _ _
  begins := strBeginWith_iff _ _
  ends := h

/-- For two strings, and any third one, all of it holds exactly if the test of the end is right. -/
theorem foldsCase_iff (s k : CString) : (∀ t, FoldsCase s t k) ↔ EndFits s.1 k.1 :=
  ⟨fun h => strEndWith_iff.1 (h s).ends, fun h _ => foldsCase_of_ends (strEndWith_iff.2 h)⟩

/-- A `b` seems to end with `2^31` letters `a`. -/
theorem not_foldsCase_letters :
    ¬FoldsCase ⟨[98], by decide⟩ ⟨[98], by decide⟩ (letters (2 ^ 31)) := by
  intro h
  have hlen : (letters (2 ^ 31)).1.length = 2 ^ 31 := List.length_replicate
  have he := h.ends
  rw [strEndWith_of_le (by rw [hlen]; decide), eq_comm, Option.some.injEq,
    decide_eq_true_iff] at he
  have hle := he.length_le
  rw [hlen] at hle
  simp at hle

end Idb
