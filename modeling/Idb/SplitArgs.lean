import Idb.FileTree
import Idb.Numerals

/-!
# Quoted strings

`sdscatrepr` writes any bytes as a quoted string in printable characters, and `sdssplitargs` reads
a line of arguments, quoted or not. What the one writes the other reads back : a line that spells
arguments as quoted strings with blanks between them is split into these arguments
(`sdssplitargs_of_spells`).
-/

namespace Idb

open Posix

/-- The character `\`. -/
def backslash : UInt8 :=
  92

/-- The character `"`. -/
def quote : UInt8 :=
  34

/-- The character `'`. -/
def apostrophe : UInt8 :=
  39

/-- The letter `x`. -/
def letterX : UInt8 :=
  120

/-! ## Writing -/

/-- Bytes outside ASCII are printable too. -/
def cisprint (c : UInt8) : Bool :=
  32 ≤ c

/-- A digit as `%x` writes it. -/
def hexLower (n : ℕ) : UInt8 :=
  UInt8.ofNat (if n < 10 then 48 + n else 87 + n)

/-- What `sdscatrepr` writes for a byte. -/
def reprByte (b : UInt8) : Bytes :=
  if b = backslash ∨ b = quote then [backslash, b]
  else if b = 10 then [backslash, 110]
  else if b = 13 then [backslash, 114]
  else if b = 9 then [backslash, 116]
  else if b = 7 then [backslash, 97]
  else if b = 8 then [backslash, 98]
  else if cisprint b then [b]
  else [backslash, letterX, hexLower (b.toNat / 16), hexLower (b.toNat % 16)]

/-- Each byte is written in a form that is read back, between quotes. -/
def sdscatrepr (s p : Bytes) : Bytes :=
  p.foldl (fun s b => s ++ reprByte b) (s ++ [quote]) ++ [quote]

/-- `sdscatrepr` appends the escaped bytes in quotes. -/
theorem sdscatrepr_eq (s p : Bytes) :
    sdscatrepr s p = s ++ quote :: (p.flatMap reprByte ++ [quote]) := by
  have hfold : ∀ s, p.foldl (fun s b => s ++ reprByte b) s = s ++ p.flatMap reprByte := by
    induction p with
    | nil => simp
    | cons b p ih =>
      intro s
      rw [List.foldl_cons, ih, List.flatMap_cons, List.append_assoc]
  simp [sdscatrepr, hfold]

/-! ## Reading -/

/-- A digit of a hexadecimal number. -/
def isHexDigit (c : UInt8) : Bool :=
  (48 ≤ c && c ≤ 57) || (97 ≤ c && c ≤ 102) || (65 ≤ c && c ≤ 70)

/-- The value of a hexadecimal digit. -/
def hexDigitToInt (c : UInt8) : ℕ :=
  if 48 ≤ c ∧ c ≤ 57 then c.toNat - 48
  else if 97 ≤ c ∧ c ≤ 102 then c.toNat - 87
  else if 65 ≤ c ∧ c ≤ 70 then c.toNat - 55
  else 0

/-- What stands behind a backslash. -/
def unescape (c : UInt8) : UInt8 :=
  if c = 110 then 10
  else if c = 114 then 13
  else if c = 116 then 9
  else if c = 98 then 8
  else if c = 97 then 7
  else c

/-- Whether an argument goes on in quotes, and in which. -/
inductive Quoting
  | bare
  | double
  | single

/-- A closing quote must be followed by a space or nothing at all. -/
def closed (current p : Bytes) : Option (Bytes × Bytes) :=
  if p.head?.any fun c => !Numerals.isSpace c then none else some (current, p)

/-- The byte of an escape with two digits, if `c` and `p` behind a backslash are one. -/
def hexEscape (c : UInt8) : Bytes → Option UInt8
  | x :: y :: _ =>
    if c = letterX ∧ isHexDigit x ∧ isHexDigit y then
      some (UInt8.ofNat (hexDigitToInt x * 16 + hexDigitToInt y))
    else none
  | _ => none

/-- Get a token : what is read of it, and what is left of the line. -/
def getToken : Quoting → Bytes → Bytes → Option (Bytes × Bytes)
  | .bare, current, [] => some (current, [])
  | .bare, current, b :: p =>
    if b = 32 ∨ b = 10 ∨ b = 13 ∨ b = 9 then some (current, p)
    else if b = quote then getToken .double current p
    else if b = apostrophe then getToken .single current p
    else getToken .bare (current ++ [b]) p
  | .double, _, [] => none
  | .double, current, [b] =>
    if b = quote then closed current [] else getToken .double (current ++ [b]) []
  | .double, current, b :: c :: p =>
    if b = backslash then
      match hexEscape c p with
      | some byte => getToken .double (current ++ [byte]) (p.drop 2)
      | none => getToken .double (current ++ [unescape c]) p
    else if b = quote then closed current (c :: p)
    else getToken .double (current ++ [b]) (c :: p)
  | .single, _, [] => none
  | .single, current, [b] =>
    if b = apostrophe then closed current [] else getToken .single (current ++ [b]) []
  | .single, current, b :: c :: p =>
    if b = backslash ∧ c = apostrophe then getToken .single (current ++ [apostrophe]) p
    else if b = apostrophe then closed current (c :: p)
    else getToken .single (current ++ [b]) (c :: p)
termination_by _ _ p => p.length

theorem closed_length {current p : Bytes} {r : Bytes × Bytes} (h : closed current p = some r) :
    r.2 = p := by
  rw [closed] at h
  split_ifs at h
  rw [Option.some.injEq] at h
  rw [← h]

/-- A token takes something of what is there. -/
theorem getToken_length {quoting : Quoting} {current p : Bytes} {r : Bytes × Bytes}
    (h : getToken quoting current p = some r) : r.2.length ≤ p.length - 1 := by
  fun_induction getToken quoting current p <;> grind [closed_length]

/-- The arguments of a line that has no terminator in it. -/
def splitLine (line : Bytes) : Option (List Bytes) :=
  match _h : line.dropWhile Numerals.isSpace with
  | [] => some []
  | b :: p =>
    match _ht : getToken .bare [] (b :: p) with
    | none => none
    | some (current, rest) => (splitLine rest).map fun vector => current :: vector
termination_by line.length
decreasing_by
  have hlen := getToken_length _ht
  have hdrop := (List.dropWhile_sublist Numerals.isSpace (l := line)).length_le
  rw [_h] at hdrop
  simp only [List.length_cons] at hlen hdrop
  omega

theorem splitLine_nil {line : Bytes} (h : line.dropWhile Numerals.isSpace = []) :
    splitLine line = some [] := by
  rw [splitLine]
  split
  · rfl
  · next b p hp => simp [h] at hp

/-- The first token and the tokens of the rest. -/
theorem splitLine_cons {line p current rest : Bytes} {b : UInt8}
    (h : line.dropWhile Numerals.isSpace = b :: p)
    (ht : getToken .bare [] (b :: p) = some (current, rest)) :
    splitLine line = (splitLine rest).map fun vector => current :: vector := by
  rw [splitLine]
  split
  · next hp => simp [h] at hp
  · next b' p' hp =>
    rw [h, List.cons.injEq] at hp
    obtain ⟨rfl, rfl⟩ := hp
    split
    · next hn => simp [ht] at hn
    · next current' rest' hs =>
      rw [ht, Option.some.injEq, Prod.mk.injEq] at hs
      rw [hs.1, hs.2]

/-- The line is read up to its first zero. -/
def sdssplitargs (line : Bytes) : Option (List Bytes) :=
  splitLine (line.takeWhile (· ≠ 0))

/-! ## Reading what was written -/

theorem isHexDigit_lower {n : ℕ} (h : n < 16) : isHexDigit (hexLower n) := by
  interval_cases n <;> decide

theorem hexDigitToInt_lower {n : ℕ} (h : n < 16) : hexDigitToInt (hexLower n) = n := by
  interval_cases n <;> decide

/-- The hexadecimal escape written is read back. -/
theorem hexEscape_lower (b : UInt8) (p : Bytes) :
    hexEscape letterX (hexLower (b.toNat / 16) :: hexLower (b.toNat % 16) :: p) = some b := by
  have hb := b.toNat_lt
  have hlo : b.toNat % 16 < 16 := Nat.mod_lt _ (by decide)
  have hhi : b.toNat / 16 < 16 := by omega
  rw [hexEscape, if_pos ⟨rfl, isHexDigit_lower hhi, isHexDigit_lower hlo⟩,
    hexDigitToInt_lower hhi, hexDigitToInt_lower hlo, Nat.div_add_mod']
  simp

theorem hexEscape_of_ne {c : UInt8} (h : c ≠ letterX) (p : Bytes) : hexEscape c p = none := by
  unfold hexEscape
  split
  · exact if_neg fun hc => h hc.1
  · rfl

/-- A backslash with a letter is read as the byte it stands for. -/
theorem getToken_escape {c : UInt8} (h : c ≠ letterX) (current p : Bytes) :
    getToken .double current (backslash :: c :: p) =
      getToken .double (current ++ [unescape c]) p := by
  rw [getToken, if_pos rfl, hexEscape_of_ne h]

theorem getToken_plain {b : UInt8} (hb : b ≠ backslash) (hq : b ≠ quote) (current p : Bytes) :
    getToken .double current (b :: p) = getToken .double (current ++ [b]) p := by
  cases p with
  | nil => simp only [getToken, if_neg hq]
  | cons c p => rw [getToken, if_neg hb, if_neg hq]

/-- Every byte is read as it was written. -/
theorem getToken_reprByte (b : UInt8) (current p : Bytes) :
    getToken .double current (reprByte b ++ p) = getToken .double (current ++ [b]) p := by
  rw [reprByte]
  split_ifs with hself h10 h13 h9 h7 h8 hprint
  · have hx : b ≠ letterX := by rcases hself with rfl | rfl <;> decide
    have hu : unescape b = b := by rcases hself with rfl | rfl <;> decide
    rw [List.cons_append, List.singleton_append, getToken_escape hx, hu]
  · rw [h10]
    exact getToken_escape (by decide) current p
  · rw [h13]
    exact getToken_escape (by decide) current p
  · rw [h9]
    exact getToken_escape (by decide) current p
  · rw [h7]
    exact getToken_escape (by decide) current p
  · rw [h8]
    exact getToken_escape (by decide) current p
  · rw [not_or] at hself
    exact getToken_plain hself.1 hself.2 current p
  · rw [List.cons_append, List.cons_append, List.cons_append, List.cons_append, List.nil_append,
      getToken, if_pos rfl, hexEscape_lower]
    rfl

/-- A space follows, or nothing at all. -/
def Ends (rest : Bytes) : Prop :=
  ∀ c ∈ rest.head?, Numerals.isSpace c

/-- A token in double quotes is read back byte by byte. -/
theorem getToken_repr {rest : Bytes} (h : Ends rest) (current w : Bytes) :
    getToken .double current (w.flatMap reprByte ++ quote :: rest) = some (current ++ w, rest) := by
  induction w generalizing current with
  | nil =>
    have hclosed : closed current rest = some (current, rest) := by
      refine if_neg ?_
      cases rest with
      | nil => simp
      | cons c rest => simpa using h c rfl
    rw [List.flatMap_nil, List.nil_append, List.append_nil, ← hclosed]
    cases rest with
    | nil => rw [getToken, if_pos rfl]
    | cons c rest => rw [getToken, if_neg (by decide), if_pos rfl]
  | cons b w ih =>
    rw [List.flatMap_cons, List.append_assoc, getToken_reprByte, ih, List.append_assoc]
    rfl

/-- A line of quoted strings with blanks before, between and behind them. -/
inductive SpellsArgs : List Bytes → Bytes → Prop
  | nil {blanks : Bytes} (hb : ∀ c ∈ blanks, Numerals.isSpace c) : SpellsArgs [] blanks
  | cons {blanks w rest : Bytes} {ws : List Bytes} (hb : ∀ c ∈ blanks, Numerals.isSpace c)
      (he : Ends rest) (hr : SpellsArgs ws rest) :
      SpellsArgs (w :: ws) (sdscatrepr blanks w ++ rest)

theorem dropWhile_blanks {blanks p : Bytes} (hb : ∀ c ∈ blanks, Numerals.isSpace c) :
    (blanks ++ p).dropWhile Numerals.isSpace = p.dropWhile Numerals.isSpace :=
  List.dropWhile_append_of_pos hb

/-- A line that spells arguments is split into them. -/
theorem splitLine_spells {ws : List Bytes} {line : Bytes} (h : SpellsArgs ws line) :
    splitLine line = some ws := by
  induction h with
  | nil hb =>
    have hdrop := dropWhile_blanks (p := []) hb
    rw [List.append_nil] at hdrop
    exact splitLine_nil hdrop
  | @cons blanks w rest ws hb he hr ih =>
    have hdrop : (sdscatrepr blanks w ++ rest).dropWhile Numerals.isSpace =
        quote :: (w.flatMap reprByte ++ quote :: rest) := by
      rw [sdscatrepr_eq, List.append_assoc, dropWhile_blanks hb, List.cons_append,
        List.dropWhile_cons_of_neg (by decide)]
      simp
    have htoken : getToken .bare [] (quote :: (w.flatMap reprByte ++ quote :: rest)) =
        some (w, rest) := by
      rw [getToken, if_neg (by decide), if_pos rfl]
      exact getToken_repr he [] w
    rw [splitLine_cons hdrop htoken, ih]
    rfl

/-- What is written is printable. -/
theorem reprByte_printable {b c : UInt8} (hc : c ∈ reprByte b) : cisprint c := by
  have hdigit : ∀ n < 16, cisprint (hexLower n) := by
    intro n hn
    interval_cases n <;> decide
  have hpair : ∀ x, cisprint x → c ∈ [backslash, x] → cisprint c := by
    intro x hx hm
    simp only [List.mem_cons, List.not_mem_nil, or_false] at hm
    rcases hm with rfl | rfl
    · decide
    · exact hx
  rw [reprByte] at hc
  split_ifs at hc with hself h10 h13 h9 h7 h8 hprint
  · exact hpair b (by rcases hself with rfl | rfl <;> decide) hc
  · exact hpair _ (by decide) hc
  · exact hpair _ (by decide) hc
  · exact hpair _ (by decide) hc
  · exact hpair _ (by decide) hc
  · exact hpair _ (by decide) hc
  · rwa [List.mem_singleton.1 hc]
  · have hb := b.toNat_lt
    simp only [List.mem_cons, List.not_mem_nil, or_false] at hc
    rcases hc with rfl | rfl | rfl | rfl
    · decide
    · decide
    · exact hdigit _ (by omega)
    · exact hdigit _ (Nat.mod_lt _ (by decide))

/-- A line that spells arguments holds no zero. -/
theorem spells_ne_zero {ws : List Bytes} {line : Bytes} (h : SpellsArgs ws line) :
    ∀ c ∈ line, c ≠ 0 := by
  have hspace : ∀ c, Numerals.isSpace c → c ≠ 0 := by
    rintro c hc rfl
    exact absurd hc (by decide)
  induction h with
  | nil hb => exact fun c hc => hspace c (hb c hc)
  | @cons blanks w rest ws hb he hr ih =>
    intro c hc
    simp only [sdscatrepr_eq, List.mem_append, List.mem_cons, List.mem_flatMap, List.not_mem_nil,
      or_false] at hc
    rcases hc with (hc | rfl | ⟨b, -, hc⟩ | rfl) | hc
    · exact hspace c (hb c hc)
    · decide
    · rintro rfl
      exact absurd (reprByte_printable hc) (by decide)
    · decide
    · exact ih c hc

/-- What `sdscatrepr` writes, `sdssplitargs` reads : a line that spells some arguments is split
into them. -/
theorem sdssplitargs_of_spells {ws : List Bytes} {line : Bytes} (h : SpellsArgs ws line) :
    sdssplitargs line = some ws := by
  have hline : line.takeWhile (· ≠ 0) = line :=
    List.takeWhile_eq_self_iff.2 fun c hc => decide_eq_true (spells_ne_zero h c hc)
  rw [sdssplitargs, hline, splitLine_spells h]

theorem sdssplitargs_of_spells_two :
    sdssplitargs (sdscatrepr [32] [97, 10] ++ (sdscatrepr [32] [0, 255] ++ [])) =
      some [[97, 10], [0, 255]] :=
  sdssplitargs_of_spells (.cons (by decide +kernel) (by rw [Ends]; decide +kernel)
    (.cons (by decide +kernel) (by rw [Ends]; decide +kernel)
      (.nil (by decide +kernel))))

end Idb
