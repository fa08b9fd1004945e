import Idb.UrlCodec

/-!
# The two passes of the encoder

`UrlEncode` counts the characters it is going to write in an `int`, and then writes them into a
block of that size, if it gets one. The second pass writes as many bytes as were counted, and the
zero that `snprintf` puts behind an escape is still inside the block, exactly if the count does not
overflow (`encodesSafely_iff`). What is written is printable, and none of the unsafe characters.
-/

namespace Idb

open Posix

/-! ## The source -/

/-- The first pass, with an `int` that wraps around. -/
def encodedLength (s : Bytes) (aUnSafeChars : Option CString) : ℤ :=
  let len := s.foldl (fun len c => intOf (len + if isSafeChar c aUnSafeChars then 1 else 3)) 0
  intOf (len + 1)

/-- The variables of the second pass, with the places written so far. -/
structure Encoder where
  mem : Memory
  ct : ℕ
  writes : List ℕ

/-- Bytes stored one after the other. -/
def store (m : Memory) : ℕ → Bytes → Memory
  | _, [] => m
  | p, b :: t => store (Function.update m p b) (p + 1) t

/-- The body of the second loop. `snprintf` writes three characters and a zero. -/
def encodeChar (aUnSafeChars : Option CString) (e : Encoder) (c : UInt8) : Encoder :=
  if isSafeChar c aUnSafeChars then
    ⟨Function.update e.mem e.ct c, e.ct + 1, e.writes ++ [e.ct]⟩
  else
    ⟨store e.mem e.ct (percentFormat c ++ [0]), e.ct + 3,
      e.writes ++ [e.ct, e.ct + 1, e.ct + 2, e.ct + 3]⟩

/-- The block that `malloc` returns, when memory does not run out. A negative number is taken for a
`size_t` that no block has, and gives NULL. For 0 there is a block too, where nothing may be
written. -/
def mallocBlock (len : ℤ) (block : Memory) : Option Memory :=
  if len < 0 then none else some block

/-- The second pass over a block of memory. Without one nothing is written. -/
def secondPass (s : Bytes) (aUnSafeChars : Option CString) (ct : Option Memory) : Option Encoder :=
  ct.map fun block =>
    let e := s.foldl (encodeChar aUnSafeChars) ⟨block, 0, []⟩
    ⟨Function.update e.mem e.ct 0, e.ct, e.writes ++ [e.ct]⟩

/-- Both passes, into a block with any content. -/
def encodePasses (s : Bytes) (aUnSafeChars : Option CString) (block : Memory) : Option Encoder :=
  secondPass s aUnSafeChars (mallocBlock (encodedLength s aUnSafeChars) block)

/-! ## The first pass -/

/-- The bytes that are needed, with the terminator. -/
def neededSize (s : Bytes) (u : Option CString) : ℕ :=
  s.length + 2 * s.countP (fun c => !isSafeChar c u) + 1

theorem length_pieces_succ (s : Bytes) (u : Option CString) :
    (s.flatMap (piece u)).length + 1 = neededSize s u := by
  rw [length_pieces, neededSize]

/-- The first pass counts the size of the result, as an `int`. -/
theorem encodedLength_eq (s : Bytes) (u : Option CString) :
    encodedLength s u = intOf (neededSize s u) := by
  have hloop : ∀ n : ℤ, s.foldl (fun len c => intOf (len + if isSafeChar c u then 1 else 3))
      (intOf n) = intOf (n + (s.flatMap (piece u)).length) := by
    induction s with
    | nil =>
      intro n
      rw [List.foldl_nil, List.flatMap_nil, List.length_nil, Nat.cast_zero, add_zero]
    | cons c s ih =>
      intro n
      rw [List.foldl_cons, intOf_add, ih, List.flatMap_cons, List.length_append, length_piece,
        add_assoc]
      push_cast
      rfl
  have hzero := hloop 0
  rw [intOf_eq (by norm_num) (by norm_num), zero_add] at hzero
  unfold encodedLength
  dsimp only
  rw [hzero, intOf_add, ← length_pieces_succ]
  push_cast
  rfl

/-! ## The second pass -/

section

variable {m : Memory} {p : ℕ} {t t' : Bytes} {u : Option CString} {e : Encoder}

theorem store_of_lt {q : ℕ} (h : q < p) : store m p t q = m q := by
  induction t generalizing m p with
  | nil => rfl
  | cons b t ih => rw [store, ih (by omega), Function.update_of_ne (by omega)]

theorem holdsAt_store : HoldsAt (store m p t) p t := by
  induction t generalizing m p with
  | nil => trivial
  | cons b t ih => exact ⟨by rw [store, store_of_lt (Nat.lt_succ_self p), Function.update_self], ih⟩

/-- A turn writes one piece, and a zero behind it at most. -/
theorem encodeChar_spec (u : Option CString) (e : Encoder) (c : UInt8) :
    (encodeChar u e c).ct = e.ct + (piece u c).length ∧
      HoldsAt (encodeChar u e c).mem e.ct (piece u c) ∧
      (∀ q < e.ct, (encodeChar u e c).mem q = e.mem q) ∧
      ∀ w ∈ (encodeChar u e c).writes, w ∈ e.writes ∨ w ≤ (encodeChar u e c).ct := by
  unfold encodeChar piece
  split_ifs with h
  · refine ⟨rfl, ⟨Function.update_self _ _ _, trivial⟩,
      fun q hq => Function.update_of_ne (by omega) _ _, fun w hw => ?_⟩
    rcases List.mem_append.1 hw with hw | hw
    · exact Or.inl hw
    · exact Or.inr (by rw [List.mem_singleton.1 hw]; exact Nat.le_succ _)
  · obtain ⟨x, y, he, -⟩ := percentFormat_eq c
    refine ⟨by rw [he]; rfl, (holdsAt_append.1 holdsAt_store).1, fun q hq => store_of_lt hq,
      fun w hw => ?_⟩
    rcases List.mem_append.1 hw with hw | hw
    · exact Or.inl hw
    · simp only [List.mem_cons, List.not_mem_nil, or_false] at hw
      dsimp only
      omega

/-- The second loop writes the pieces one after the other. -/
theorem foldl_encodeChar (s : Bytes) (u : Option CString) (e : Encoder) :
    (s.foldl (encodeChar u) e).ct = e.ct + (s.flatMap (piece u)).length ∧
      HoldsAt (s.foldl (encodeChar u) e).mem e.ct (s.flatMap (piece u)) ∧
      (∀ q < e.ct, (s.foldl (encodeChar u) e).mem q = e.mem q) ∧
      ∀ w ∈ (s.foldl (encodeChar u) e).writes, w ∈ e.writes ∨
        w ≤ (s.foldl (encodeChar u) e).ct := by
  induction s generalizing e with
  | nil => exact ⟨rfl, trivial, fun _ _ => rfl, fun w hw => Or.inl hw⟩
  | cons c s ih =>
    obtain ⟨hct, hpiece, hkeep, hwrites⟩ := encodeChar_spec u e c
    obtain ⟨hct', hpieces, hkeep', hwrites'⟩ := ih (e := encodeChar u e c)
    rw [List.foldl_cons, List.flatMap_cons, List.length_append]
    refine ⟨by omega, holdsAt_append.2 ⟨?_, ?_⟩, fun q hq => ?_, fun w hw => ?_⟩
    · exact hpiece.congr fun q _ hq => hkeep' q (by omega)
    · rwa [← hct]
    · rw [hkeep' q (by omega), hkeep q hq]
    · rcases hwrites' w hw with hw | hw
      · exact (hwrites w hw).imp_right fun h => by omega
      · exact Or.inr hw

end

/-- The second pass writes the encoded text with its terminator, and nothing behind it. -/
theorem secondPass_spec (s : Bytes) (u : Option CString) (block : Memory) :
    ∃ e, secondPass s u (some block) = some e ∧ e.ct = (s.flatMap (piece u)).length ∧
      HoldsAt e.mem 0 (s.flatMap (piece u) ++ [0]) ∧ ∀ w ∈ e.writes, w ≤ e.ct := by
  obtain ⟨hct, htext, -, hwrites⟩ := foldl_encodeChar s u ⟨block, 0, []⟩
  dsimp only at hct htext hwrites
  rw [Nat.zero_add] at hct
  refine ⟨_, rfl, hct, holdsAt_append.2 ⟨?_, ?_, trivial⟩, fun w hw => ?_⟩
  · exact htext.congr fun q _ hq => Function.update_of_ne (by omega) _ _
  · rw [Nat.zero_add, ← hct]
    exact Function.update_self _ _ _
  · rcases List.mem_append.1 hw with hw | hw
    · exact (hwrites w hw).resolve_left List.not_mem_nil
    · exact (List.mem_singleton.1 hw).le

/-! ## The characters -/

/-- The characters of an escape. -/
def IsEscapeChar (b : UInt8) : Prop :=
  b = percent ∨ (48 ≤ b ∧ b ≤ 57) ∨ (65 ≤ b ∧ b ≤ 70)

instance : DecidablePred IsEscapeChar :=
  fun b => inferInstanceAs (Decidable (b = percent ∨ (48 ≤ b ∧ b ≤ 57) ∨ (65 ≤ b ∧ b ≤ 70)))

/-- The format prints characters of escapes only. -/
theorem isEscapeChar_percentFormat {b c : UInt8} (h : b ∈ percentFormat c) : IsEscapeChar b := by
  have hchar : ∀ d < 16, IsEscapeChar (hexChar d) := by decide
  unfold percentFormat at h
  rcases List.mem_cons.1 (List.mem_of_mem_take h) with rfl | hmap
  · exact Or.inl rfl
  obtain ⟨d, hd, rfl⟩ := List.mem_map.1 hmap
  refine hchar d ?_
  rw [List.leftpad, List.mem_append] at hd
  rcases hd with hd | hd
  · rw [List.eq_of_mem_replicate hd]
    decide
  · obtain ⟨i, -, rfl⟩ := List.mem_map.1 ((List.dropWhile_sublist _).subset hd)
    exact Nat.mod_lt _ (by decide)

/-- A character of a piece is one of an escape, or safe. -/
theorem mem_piece {b c : UInt8} {u : Option CString} (h : b ∈ piece u c) :
    IsEscapeChar b ∨ isSafeChar b u := by
  unfold piece at h
  split_ifs at h with hsafe
  · rw [List.mem_singleton.1 h]
    exact Or.inr hsafe
  · exact Or.inl (isEscapeChar_percentFormat h)

theorem IsEscapeChar.printable {b : UInt8} (h : IsEscapeChar b) : 32 ≤ b ∧ b ≤ 126 := by
  rcases h with rfl | ⟨hge, hle⟩ | ⟨hge, hle⟩
  · decide
  · exact ⟨UInt8.le_trans (by decide) hge, UInt8.le_trans hle (by decide)⟩
  · exact ⟨UInt8.le_trans (by decide) hge, UInt8.le_trans hle (by decide)⟩

/-- A safe character is printable. -/
theorem printable_of_isSafeChar {b : UInt8} {u : Option CString} (h : isSafeChar b u) :
    32 ≤ b ∧ b ≤ 126 := by
  have hlt := b.toNat_lt
  unfold isSafeChar at h
  split_ifs at h
  rw [isPrintable, Bool.and_eq_true, Bool.and_eq_true, decide_eq_true_iff, decide_eq_true_iff,
    charOf_eq] at h
  rw [UInt8.le_iff_toNat_le, UInt8.le_iff_toNat_le]
  obtain ⟨⟨hlo, hhi⟩, -⟩ := h
  split_ifs at hlo hhi
  · exact ⟨by exact_mod_cast hlo, by exact_mod_cast hhi⟩
  · omega

theorem not_mem_of_isSafeChar {b : UInt8} {u : CString} (h : isSafeChar b (some u)) : b ∉ u.1 := by
  unfold isSafeChar at h
  split_ifs at h with hu
  simpa using hu

/-! ## Both passes -/

/-- How many characters are written, with the terminator. -/
def writtenCount : Option Encoder → ℕ
  | none => 0
  | some e => e.ct + 1

/-- What is said of both passes. -/
structure EncodesSafely (s : CString) (u : Option CString) (r : Option Encoder) : Prop where
  counted : (writtenCount r : ℤ) = encodedLength s.1 u
  inside : ∀ e ∈ r, ∀ w ∈ e.writes, (w : ℤ) < encodedLength s.1 u
  printable : ∀ e ∈ r, ∀ p < e.ct, 32 ≤ e.mem p ∧ e.mem p ≤ 126
  safe : ∀ chars ∈ u, (∀ b ∈ chars.1, ¬IsEscapeChar b) → ∀ e ∈ r, ∀ p < e.ct, e.mem p ∉ chars.1
  ends : ∀ e ∈ r, e.mem e.ct = 0

/-- What is written, if there is a block, is as long as is needed. -/
theorem writtenCount_encodePasses {s : Bytes} {u : Option CString} {block : Memory}
    (h : 0 ≤ encodedLength s u) : writtenCount (encodePasses s u block) = neededSize s u := by
  obtain ⟨e, he, hct, -⟩ := secondPass_spec s u block
  rw [encodePasses, mallocBlock, if_neg h.not_gt, he, ← length_pieces_succ, ← hct]
  rfl

theorem EncodesSafely.neededSize_lt {s : CString} {u : Option CString} {block : Memory}
    (h : EncodesSafely s u (encodePasses s.1 u block)) : neededSize s.1 u < 2 ^ 31 := by
  have hcount := h.counted
  have hbound := (intOf_bounds (neededSize s.1 u)).2
  rw [writtenCount_encodePasses (hcount ▸ Int.natCast_nonneg _), encodedLength_eq] at hcount
  omega

/-- The passes agree exactly if the size of the result is an `int`. -/
theorem encodesSafely_iff (s : CString) (u : Option CString) :
    (∀ block, EncodesSafely s u (encodePasses s.1 u block)) ↔ neededSize s.1 u < 2 ^ 31 := by
  constructor
  · exact fun h => (h fun _ => 0).neededSize_lt
  · intro hsize block
    obtain ⟨e, he, hct, htext, hwrites⟩ := secondPass_spec s.1 u block
    have hlen : encodedLength s.1 u = neededSize s.1 u := by
      rw [encodedLength_eq, intOf_natCast hsize]
    have hrun : encodePasses s.1 u block = some e := by
      rw [encodePasses, mallocBlock, if_neg (by omega), he]
    have hneeded := length_pieces_succ s.1 u
    obtain ⟨hpieces, hend⟩ := holdsAt_append.1 htext
    have hchar : ∀ p < e.ct, IsEscapeChar (e.mem p) ∨ isSafeChar (e.mem p) u := by
      intro p hp
      obtain ⟨c, -, hc⟩ := List.mem_flatMap.1 (hpieces.mem (hct ▸ hp))
      exact mem_piece hc
    rw [hrun]
    refine ⟨?_, fun _ h w hw => ?_, fun _ h p hp => ?_, fun chars hu hnone _ h p hp hmem => ?_,
      fun _ h => ?_⟩
    · rw [writtenCount]
      omega
    all_goals obtain rfl := Option.some.inj h
    · have := hwrites w hw
      omega
    · exact (hchar p hp).elim IsEscapeChar.printable printable_of_isSafeChar
    · rw [Option.mem_def] at hu
      subst hu
      rcases hchar p hp with he | hs
      · exact hnone _ hmem he
      · exact not_mem_of_isSafeChar hs hmem
    · rw [hct, ← Nat.zero_add (List.length _)]
      exact hend.1

/-- The string of `n` characters 1. -/
def controls (n : ℕ) : CString :=
  ⟨List.replicate n 1, fun h => absurd (List.eq_of_mem_replicate h) (by decide)⟩

theorem neededSize_controls (n : ℕ) : neededSize (controls n).1 none = 3 * n + 1 := by
  have hunsafe : (!isSafeChar 1 none) = true := by decide
  rw [neededSize, controls, List.length_replicate, List.countP_replicate, if_pos hunsafe]
  omega

/-- For 1431655765 characters that need an escape the count is 0 in an `int`. The second pass writes
`2^32` characters into the empty block. -/
theorem not_encodesSafely_controls :
    encodedLength (controls 1431655765).1 none = 0 ∧
      (∀ block, writtenCount (encodePasses (controls 1431655765).1 none block) = 2 ^ 32) ∧
      ¬∀ block, EncodesSafely (controls 1431655765) none
        (encodePasses (controls 1431655765).1 none block) := by
  have hneeded : neededSize (controls 1431655765).1 none = 2 ^ 32 := neededSize_controls _
  have hlen : encodedLength (controls 1431655765).1 none = 0 := by
    rw [encodedLength_eq, hneeded]
    decide
  refine ⟨hlen, fun block => ?_, fun h => ?_⟩
  · rw [writtenCount_encodePasses hlen.ge, hneeded]
  · have := (h fun _ => 0).neededSize_lt
    rw [hneeded] at this
    exact absurd this (by decide)

end Idb
