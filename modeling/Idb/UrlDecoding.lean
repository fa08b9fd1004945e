import Idb.UrlCodec
import Mathlib.Data.List.GetD

/-!
# What the decoder leaves

Without escapes with `u`, `UrlDecode` reads a text item by item : an escape, a `%` that starts
none, or another byte. For a `%` that starts no escape it stores nothing, so that the byte which
was there before stays in the result. The text is decoded exactly if this byte is always a `%`
itself (`decodesExactly_iff`), which it is when no escape comes before.
-/

namespace Idb

open Posix

/-! ## Items -/

/-- What the decoder takes at a time. -/
inductive Item
  | plain (b : UInt8)
  | escape (x y : UInt8)
  | stray
  deriving DecidableEq

namespace Item

/-- How a piece of text is written. -/
def text : Item → Bytes
  | plain b => [b]
  | escape x y => [percent, x, y]
  | stray => [percent]

/-- The byte that an item stands for. -/
def value : Item → UInt8
  | plain b => b
  | escape x y => hexValue x * 16 + hexValue y
  | stray => percent

/-- The byte that is left where the byte `b` was. -/
def left : Item → UInt8 → UInt8
  | stray, b => b
  | item, _ => item.value

/-- What makes an item the one that a text begins with, `rest` being behind it. -/
def Starts (rest : Bytes) : Item → Prop
  | plain b => b ≠ percent
  | escape x y => isxdigit x ∧ isxdigit y
  | stray => ∀ x y t, rest = x :: y :: t → ¬(isxdigit x ∧ isxdigit y)

end Item

/-- The items of a text, from left to right. -/
def scan : Bytes → List Item
  | b :: x :: y :: rest =>
    if b ≠ percent then .plain b :: scan (x :: y :: rest)
    else if isxdigit x ∧ isxdigit y then .escape x y :: scan rest
    else .stray :: scan (x :: y :: rest)
  | b :: rest => (if b ≠ percent then .plain b else .stray) :: scan rest
  | [] => []

/-- Every escape is replaced by the byte it denotes, and all other bytes are kept. -/
def decoded (text : Bytes) : Bytes :=
  (scan text).map Item.value

/-- `%u` or `%U` with four digits. -/
def IsUEscape (e : Bytes) : Prop :=
  ∃ u a b c d, e = [percent, u, a, b, c, d] ∧ (u = 117 ∨ u = 85) ∧ ∀ x ∈ [a, b, c, d], isxdigit x

/-- There is no `%u` with four digits. -/
def NoUEscape (text : Bytes) : Prop :=
  ∀ e, e <:+: text → ¬IsUEscape e

/-- The first item of a text and the items of the rest. -/
theorem scan_cons {text : Bytes} (h : text ≠ []) : ∃ item rest, scan text = item :: scan rest ∧
    text = item.text ++ rest ∧ item.Starts rest := by
  match text, h with
  | [b], _ =>
    rw [scan.eq_2 b [] (by simp)]
    split_ifs with hb
    · exact ⟨.plain b, [], rfl, rfl, hb⟩
    · exact ⟨.stray, [], rfl, by rw [not_not.1 hb]; rfl, by simp [Item.Starts]⟩
  | [b, x], _ =>
    rw [scan.eq_2 b [x] (by simp)]
    split_ifs with hb
    · exact ⟨.plain b, [x], rfl, rfl, hb⟩
    · exact ⟨.stray, [x], rfl, by rw [not_not.1 hb]; rfl, by simp [Item.Starts]⟩
  | b :: x :: y :: rest, _ =>
    rw [scan]
    split_ifs with hb hxy
    · exact ⟨.plain b, _, rfl, rfl, hb⟩
    · exact ⟨.escape x y, rest, rfl, by rw [not_not.1 hb]; rfl, hxy⟩
    · refine ⟨.stray, x :: y :: rest, rfl, by rw [not_not.1 hb]; rfl, fun x' y' t ht => ?_⟩
      simp only [List.cons.injEq] at ht
      rwa [← ht.1, ← ht.2.1]

/-- A text has no more items than bytes. -/
theorem length_scan_le (text : Bytes) : (scan text).length ≤ text.length := by
  induction text using scan.induct with
  | case1 b x y rest hb ih => simpa [scan, hb] using ih
  | case2 b x y rest hb hxy ih =>
    simp only [scan, if_neg hb, if_pos hxy, List.length_cons]
    omega
  | case3 b x y rest hb hxy ih => simpa [scan, hb, hxy] using ih
  | case4 b rest hne ih => simpa [scan.eq_2 b rest hne] using ih
  | case5 => exact le_rfl

theorem Item.text_length_pos (item : Item) : 0 < item.text.length := by
  cases item <;> exact Nat.succ_pos _

theorem NoUEscape.of_suffix {text rest : Bytes} (h : NoUEscape text) (hs : rest <:+ text) :
    NoUEscape rest :=
  fun e he => h e (he.trans hs.isInfix)

/-! ## The loop -/

section

variable {m : Memory} {p : ℕ} {text rest : Bytes} {s : Decoder} {item : Item}

/-- No escape with `u` lies in memory where the text is. -/
theorem NoUEscape.not_uEscapeAt (h : NoUEscape text) (hm : HoldsAt m p text)
    (hl : 6 ≤ text.length) : ¬UEscapeAt m p := by
  match text, hl with
  | b₀ :: b₁ :: b₂ :: b₃ :: b₄ :: b₅ :: t, _ =>
    rintro ⟨h₀, h₁, hx⟩
    obtain ⟨e₀, e₁, e₂, e₃, e₄, e₅, -⟩ := hm
    refine h [b₀, b₁, b₂, b₃, b₄, b₅] (List.prefix_append _ t).isInfix ?_
    refine ⟨b₁, b₂, b₃, b₄, b₅, by rw [← e₀, h₀], e₁ ▸ h₁, ?_⟩
    simp only [List.mem_cons, List.not_mem_nil, or_false, forall_eq_or_imp, forall_eq] at hx ⊢
    exact ⟨e₂ ▸ hx.1, e₃ ▸ hx.2.1, e₄ ▸ hx.2.2.1, e₅ ▸ hx.2.2.2⟩

/-- The digits behind a `%` are no digits of an escape, if the item is a stray one. -/
theorem not_escapeAt_of_stray (hi : Item.stray.Starts rest) (hm : HoldsAt m (p + 1) rest)
    (hl : 2 ≤ rest.length) : ¬EscapeAt m p := by
  match rest, hl with
  | x :: y :: t, _ =>
    rintro ⟨-, h₁, h₂⟩
    obtain ⟨e₁, e₂, -⟩ := hm
    exact hi x y t rfl ⟨e₁ ▸ h₁, e₂ ▸ h₂⟩

/-- One turn takes one item, and changes one byte at most. -/
theorem decodePass_item (hs : HoldsAt s.mem s.data (item.text ++ rest))
    (hl : s.len = (item.text ++ rest).length) (hi : item.Starts rest)
    (hu : NoUEscape (item.text ++ rest)) :
    (∃ r, Takes s (decodePass s) item.text.length r) ∧
      (decodePass s).mem s.dest = item.left (s.mem s.dest) := by
  obtain ⟨htext, hrest⟩ := holdsAt_append.1 hs
  rw [List.length_append] at hl
  cases item with
  | plain b =>
    have hb : s.mem s.data = b := htext.1
    have hne : s.mem s.data ≠ percent := by rw [hb]; exact hi
    obtain ⟨ht, hmem⟩ := decodePass_plain hne
    exact ⟨⟨_, ht⟩, by rw [hmem, Function.update_self, hb]; rfl⟩
  | escape x y =>
    obtain ⟨h0, h1, h2, -⟩ := htext
    obtain ⟨⟨r, ht, -⟩, hmem⟩ := @decodePass_escape s ⟨h0, h1 ▸ hi.1, h2 ▸ hi.2⟩ (by
      rw [hl]
      simp [Item.text])
    exact ⟨⟨r, ht⟩, by rw [hmem, Function.update_self, hexByte, h1, h2]; rfl⟩
  | stray =>
    have hlen : s.len = rest.length + 1 := by
      rw [hl]
      simp [Item.text, add_comm]
    obtain ⟨⟨r, ht, -⟩, hmem⟩ := @decodePass_other s htext.1 (by omega)
      (fun he => not_escapeAt_of_stray hi hrest (by omega) he.2)
      (fun he => hu.not_uEscapeAt hs (by
        have := he.1
        rw [hlen] at this
        simp [Item.text]
        omega) he.2)
    exact ⟨⟨r, ht⟩, by rw [hmem]; rfl⟩

/-- The loop leaves one byte for each item. -/
theorem urlDecodeLoop_items (hs : HoldsAt s.mem s.data text) (hl : s.len = text.length)
    (hb : s.dest ≤ s.data) (hu : NoUEscape text) {fuel : ℕ} (hf : text.length ≤ fuel) :
    ∃ s', urlDecodeLoop fuel s = some s' ∧ s'.dest = s.dest + (scan text).length ∧
      (∀ p < s.dest, s'.mem p = s.mem p) ∧
      ∀ j item, (scan text)[j]? = some item →
        s'.mem (s.dest + j) = item.left (s.mem (s.dest + j)) := by
  induction fuel generalizing s text with
  | zero =>
    rw [Nat.le_zero, List.length_eq_zero_iff] at hf
    subst hf
    refine ⟨s, ?_, rfl, fun _ _ => rfl, by simp [scan]⟩
    rw [urlDecodeLoop, if_pos (by simpa using hl)]
  | succ fuel ih =>
    by_cases htext : text = []
    · subst htext
      exact ⟨s, by rw [urlDecodeLoop, if_pos (by simpa using hl)], rfl, fun _ _ => rfl,
        by simp [scan]⟩
    obtain ⟨item, rest, hscan, rfl, hi⟩ := scan_cons htext
    have hpos := item.text_length_pos
    obtain ⟨⟨r, ht⟩, hleft⟩ := decodePass_item hs hl hi hu
    rw [List.length_append] at hl hf
    have hrest : HoldsAt (decodePass s).mem (decodePass s).data rest := by
      rw [ht.data]
      refine (holdsAt_append.1 hs).2.congr fun q hq _ => ht.frame q ?_
      omega
    obtain ⟨s', he, hdest, hkeep, hout⟩ := ih hrest (by rw [ht.len, hl]; push_cast; omega)
      (by rw [ht.dest, ht.data]; omega) (hu.of_suffix (List.suffix_append _ _)) (by omega)
    rw [ht.dest] at hdest hkeep hout
    refine ⟨s', ?_, by rw [hdest, hscan, List.length_cons]; omega, fun p hp => ?_,
      fun j i hj => ?_⟩
    · rw [urlDecodeLoop, if_neg (by omega), he]
    · rw [hkeep p (by omega), ht.frame p (by omega)]
    · rw [hscan] at hj
      cases j with
      | zero =>
        rw [Nat.add_zero, hkeep s.dest (by omega), hleft, ← Option.some.inj hj]
      | succ j =>
        rw [← Nat.add_assoc, Nat.add_right_comm, hout j i hj, ht.frame _ (by omega)]

end

/-! ## The result -/

/-- The decoder leaves the decoded text, and returns its length. -/
def DecodesExactly (text : Bytes) : Prop :=
  ∀ m, HoldsAt m 0 text → ∃ m', urlDecode m text.length = some ((decoded text).length, m') ∧
    HoldsAt m' 0 (decoded text ++ [0])

/-- One byte for each item, and the terminator. -/
theorem urlDecode_items {m : Memory} {text : Bytes} (hm : HoldsAt m 0 text) (hu : NoUEscape text) :
    ∃ m', urlDecode m text.length = some ((decoded text).length, m') ∧
      (HoldsAt m' 0 (decoded text ++ [0]) ↔
        ∀ (j : ℕ) (item : Item), (scan text)[j]? = some item → item.left (m j) = item.value) := by
  obtain ⟨s', he, hdest, -, hout⟩ := @urlDecodeLoop_items text ⟨m, 0, 0, text.length, []⟩ hm rfl
    le_rfl hu _ le_rfl
  simp only [Nat.zero_add] at hdest hout
  have hlen : (decoded text).length = s'.dest := by rw [decoded, List.length_map, hdest]
  have hleft : ∀ (j : ℕ) (item : Item), (scan text)[j]? = some item →
      Function.update s'.mem s'.dest 0 j = item.left (m j) := by
    intro j item hj
    obtain ⟨hlt, -⟩ := List.getElem?_eq_some_iff.1 hj
    rw [Function.update_of_ne (by omega), hout j item hj]
  refine ⟨Function.update s'.mem s'.dest 0, by rw [urlDecode, he, hlen]; rfl, ?_⟩
  rw [holdsAt_append, Nat.zero_add, hlen]
  have hend : HoldsAt (Function.update s'.mem s'.dest 0) s'.dest [0] :=
    ⟨Function.update_self _ _ _, trivial⟩
  rw [and_iff_left hend, holdsAt_iff]
  constructor
  · intro h j item hj
    rw [← hleft j item hj, ← Nat.zero_add j]
    refine h j item.value ?_
    rw [decoded, List.getElem?_map, hj, Option.map_some]
  · intro h j b hj
    rw [decoded, List.getElem?_map, Option.map_eq_some_iff] at hj
    obtain ⟨item, hj, rfl⟩ := hj
    rw [Nat.zero_add, hleft j item hj, h j item hj]

theorem Item.left_eq_value {item : Item} {b : UInt8} :
    item.left b = item.value ↔ (item = .stray → b = percent) := by
  cases item <;> simp [Item.left, Item.value]

/-- The decoder is right about a text in memory if the byte that a `%` without an escape leaves is
a `%`. -/
theorem decodes_iff {m : Memory} {text : Bytes} (hm : HoldsAt m 0 text) (hu : NoUEscape text) :
    (∃ m', urlDecode m text.length = some ((decoded text).length, m') ∧
      HoldsAt m' 0 (decoded text ++ [0])) ↔
    ∀ j : ℕ, (scan text)[j]? = some Item.stray → text[j]? = some percent := by
  obtain ⟨m', he, hiff⟩ := urlDecode_items hm hu
  have hright : (∃ m'', urlDecode m text.length = some ((decoded text).length, m'') ∧
      HoldsAt m'' 0 (decoded text ++ [0])) ↔ HoldsAt m' 0 (decoded text ++ [0]) := by
    constructor
    · rintro ⟨m'', he', h⟩
      rw [he, Option.some.injEq, Prod.mk.injEq] at he'
      rw [he'.2]
      exact h
    · exact fun h => ⟨m', he, h⟩
  have hlt : ∀ {j : ℕ} {item : Item}, (scan text)[j]? = some item → j < text.length := by
    intro j item hj
    obtain ⟨hlt, -⟩ := List.getElem?_eq_some_iff.1 hj
    exact hlt.trans_le (length_scan_le text)
  rw [hright, hiff]
  simp only [Item.left_eq_value]
  constructor
  · intro h j hj
    exact (hm.eq_iff (hlt hj)).1 (h j _ hj rfl)
  · rintro h j item hj rfl
    exact (hm.eq_iff (hlt hj)).2 (h j hj)

/-- Without escapes with `u`, a text is decoded exactly if there is a `%` in it wherever the result
of a `%` that starts no escape goes. -/
theorem decodesExactly_iff (text : Bytes) (hu : NoUEscape text) : DecodesExactly text ↔
    ∀ j : ℕ, (scan text)[j]? = some Item.stray → text[j]? = some percent := by
  constructor
  · intro h
    exact (decodes_iff (holdsAt_textMemory [] text) hu).1 (h _ (holdsAt_textMemory [] text))
  · intro h m hm
    exact (decodes_iff hm hu).2 h

/-- The text `%41%z`. -/
def strayBehindEscape : Bytes :=
  [percent, 52, 49, percent, 122]

theorem noUEscape_strayBehindEscape : NoUEscape strayBehindEscape := by
  rintro e he ⟨u, a, b, c, d, rfl, -⟩
  exact absurd he.length_le (by simp [strayBehindEscape])

theorem decodesExactly_strayBehindEscape : DecodesExactly strayBehindEscape ↔
    ∀ j : ℕ, (scan strayBehindEscape)[j]? = some Item.stray →
      strayBehindEscape[j]? = some percent :=
  decodesExactly_iff strayBehindEscape noUEscape_strayBehindEscape

/-- The result is `A4z`. -/
theorem not_decodesExactly_strayBehindEscape :
    NoUEscape strayBehindEscape ∧ ¬DecodesExactly strayBehindEscape := by
  refine ⟨noUEscape_strayBehindEscape, fun h => ?_⟩
  have hstray := (decodes_iff (holdsAt_textMemory [] strayBehindEscape)
    noUEscape_strayBehindEscape).1 (h _ (holdsAt_textMemory [] strayBehindEscape)) 1 (by decide)
  exact absurd hstray (by decide)

end Idb
