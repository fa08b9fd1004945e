import Idb.CaseFolding
import Idb.Integers
import Idb.Memory
import Idb.Refinement
import Mathlib.Data.List.DropRight

/-!
# Dynamic strings

An `sds` is a pointer behind a header, which keeps the length of the string and how many bytes are
free behind it. The functions of `sds.c` work on the header and the bytes. They may write outside
the block or fail an assertion, and then have no result.

While the lengths fit in an `int` they do not : whatever sequence of calls is made on a string, the
header describes the block, the string is terminated, and its bytes are those that the calls are to
give (`Sdshdr.run_text`).
-/

namespace Idb

open Posix Memory

/-! ## The header -/

/-- The header, and the block behind it. -/
structure Sdshdr where
  len : ℤ
  free : ℤ
  buf : Bytes

/-- The size of the header. -/
def sdshdrSize : ℕ :=
  8

/-- `SDS_MAX_PREALLOC`, 1 MiB. -/
def sdsMaxPrealloc : ℕ :=
  1024 * 1024

namespace Sdshdr

/-- The stored length, as a `size_t`. -/
def sdslen (s : Sdshdr) : ℕ :=
  toSizeT s.len

/-- The free bytes, as a `size_t`. -/
def sdsavail (s : Sdshdr) : ℕ :=
  toSizeT s.free

/-- The bytes behind a header in a block of this size, which may have wrapped. -/
def behind (n : ℕ) : ℕ :=
  toSizeT (sdshdrSize + n) - sdshdrSize

/-! ## The functions -/

/-- A new string without free bytes. -/
def sdsnewlen (init : Bytes) : Sdshdr :=
  ⟨intOf init.length, 0, init ++ [0]⟩

/-- The block grows to twice the new length, or to 1 MiB more. The numbers are stored as `int`. -/
def sdsMakeRoomFor (junk : ℕ → UInt8) (s : Sdshdr) (addlen : ℕ) : Sdshdr :=
  if s.sdsavail ≥ addlen then s
  else
    let newlen := toSizeT (s.sdslen + addlen)
    let newlen := toSizeT (if newlen < sdsMaxPrealloc then newlen * 2 else newlen + sdsMaxPrealloc)
    ⟨s.len, intOf (newlen - s.sdslen), realloc junk s.buf (behind (newlen + 1))⟩

/-- The block shrinks to the string. -/
def sdsRemoveFreeSpace (junk : ℕ → UInt8) (s : Sdshdr) : Sdshdr :=
  ⟨s.len, 0, realloc junk s.buf (behind (toSizeT s.len + 1))⟩

/-- The string is empty, and its block free. -/
def sdsclear (s : Sdshdr) : Option Sdshdr := do
  let buf ← poke s.buf 0 [0]
  some ⟨0, intOf (s.free + s.len), buf⟩

/-- `strlen` looks for the terminator. -/
def sdsupdatelen (s : Sdshdr) : Option Sdshdr :=
  let reallen := (s.buf.takeWhile (· ≠ 0)).length
  if reallen < s.buf.length then
    some ⟨intOf reallen, intOf (s.free + intOf (s.len - intOf reallen)), s.buf⟩
  else none

/-- The bytes that were written behind the string belong to it now, or its end is taken off. Nothing
is returned if an assertion fails. -/
def sdsIncrLen (s : Sdshdr) (incr : ℤ) : Option Sdshdr :=
  if s.free ≥ incr then do
    let len := intOf (s.len + incr)
    let free := intOf (s.free - incr)
    if free ≥ 0 then do
      let buf ← poke s.buf len [0]
      some ⟨len, free, buf⟩
    else none
  else none

/-- The string is filled up with zeros. -/
def sdsgrowzero (junk : ℕ → UInt8) (s : Sdshdr) (len : ℕ) : Option Sdshdr := do
  let curlen := s.sdslen
  if len ≤ curlen then some s
  else do
    let s := sdsMakeRoomFor junk s (len - curlen)
    let buf ← poke s.buf curlen (List.replicate (len - curlen + 1) 0)
    let totlen := toSizeT (intOf (s.len + s.free))
    some ⟨intOf len, intOf (totlen - len), buf⟩

/-- Bytes are written behind the string. -/
def sdscatlen (junk : ℕ → UInt8) (s : Sdshdr) (t : Bytes) : Option Sdshdr := do
  let curlen := s.sdslen
  let s := sdsMakeRoomFor junk s t.length
  let buf ← poke s.buf curlen t
  let buf ← poke buf (curlen + t.length) [0]
  some ⟨intOf (curlen + t.length), intOf (s.free - t.length), buf⟩

/-- A C string ends before its terminator. -/
def sdscat (junk : ℕ → UInt8) (s : Sdshdr) (t : Bytes) : Option Sdshdr :=
  sdscatlen junk s (t.takeWhile (· ≠ 0))

/-- The string is overwritten. -/
def sdscpylen (junk : ℕ → UInt8) (s : Sdshdr) (t : Bytes) : Option Sdshdr := do
  let s := if toSizeT (intOf (s.free + s.len)) < t.length then
    sdsMakeRoomFor junk s (toSizeT (t.length - s.len)) else s
  let totlen := toSizeT (intOf (s.free + s.len))
  let buf ← poke s.buf 0 t
  let buf ← poke buf t.length [0]
  some ⟨intOf t.length, intOf (totlen - t.length), buf⟩

/-- The text is formatted into a buffer of `n + 2` bytes, which is doubled until the one before its
last is not used. -/
def vsnprintf (text : Bytes) (n : ℕ) : Bytes :=
  if text.getD n 0 ≠ 0 then vsnprintf text (2 * n + 2) else text.take (n + 1)
termination_by text.length - n
decreasing_by
  have hn : n < text.length := by
    by_contra hn
    simp_all
  omega

/-- The formatted text is written behind the string. -/
def sdscatvprintf (junk : ℕ → UInt8) (s : Sdshdr) (text : Bytes) : Option Sdshdr :=
  sdscat junk s (vsnprintf text 14)

/-- The text is formatted behind an empty string, over what was there. -/
def sdsprintf (junk : ℕ → UInt8) (s : Sdshdr) (text : Bytes) : Option Sdshdr :=
  sdscatvprintf junk ⟨0, intOf (s.free + s.len), s.buf⟩ text

/-- Change the first bytes one by one. -/
def mapBytes (f : UInt8 → UInt8) (s : Sdshdr) (count : ℕ) : Option Sdshdr := do
  let text ← peek s.buf 0 count
  let buf ← poke s.buf 0 (text.map f)
  some ⟨s.len, s.free, buf⟩

/-- The string in lower case, in place. -/
def sdstolower (s : Sdshdr) : Option Sdshdr :=
  mapBytes toLower s (intOf s.sdslen).toNat

/-- A small letter becomes a capital one. -/
def toUpper (c : UInt8) : UInt8 :=
  if 97 ≤ c ∧ c ≤ 122 then c - 32 else c

/-- The string in upper case, in place. -/
def sdstoupper (s : Sdshdr) : Option Sdshdr :=
  mapBytes toUpper s (intOf s.sdslen).toNat

/-- The first character of `from` that fits is the one that counts. -/
def mapChar (table : List (UInt8 × UInt8)) (c : UInt8) : UInt8 :=
  (table.lookup c).getD c

/-- `from` and `to`, side by side. -/
def sdsmapchars (s : Sdshdr) (table : List (UInt8 × UInt8)) : Option Sdshdr :=
  mapBytes (mapChar table) s s.sdslen

/-- `strchr` finds the terminator too. -/
def inCset (cset : Bytes) (c : UInt8) : Bool :=
  c ∈ cset ∨ c = 0

/-- The loop from the end, which does not look at the first character. -/
def trimEnd (cset text : Bytes) : ℕ → ℕ
  | 0 => 0
  | ep + 1 => if inCset cset (text.getD (ep + 1) 0) then trimEnd cset text ep else ep + 1

/-- Cut the string down to the `len` bytes from `sp` on. -/
def keep (s : Sdshdr) (sp : ℤ) (len : ℕ) : Option Sdshdr := do
  let kept ← peek s.buf sp len
  let buf ← poke s.buf 0 kept
  let buf ← poke buf len [0]
  some ⟨intOf len, intOf (s.free + (s.len - len)), buf⟩

/-- Characters of a set are taken off both ends. -/
def sdstrim (s : Sdshdr) (cset : Bytes) : Option Sdshdr := do
  let text ← peek s.buf 0 s.sdslen
  let sp : ℤ := (text.takeWhile (inCset cset)).length
  let ep : ℤ := if text = [] then -1 else trimEnd cset text (text.length - 1)
  keep s sp (if sp > ep then 0 else (ep - sp + 1).toNat)

/-- A place that is counted from the end if it is negative. -/
def fromEnd (len : ℕ) (i : ℤ) : ℤ :=
  if i < 0 then
    let i := intOf (len + i)
    if i < 0 then 0 else i
  else i

/-- The part from `first` to `last` is kept. Negative numbers count from the end. -/
def sdsrange (s : Sdshdr) (first last : ℤ) : Option Sdshdr :=
  let len := s.sdslen
  if len = 0 then some s
  else
    let first := fromEnd len first
    let last := fromEnd len last
    let newlen := if first > last then 0 else toSizeT (intOf (last - first + 1))
    if newlen = 0 then keep s 0 newlen
    else if first ≥ intOf len then keep s 0 0
    else if last ≥ intOf len then
      let last := intOf (len - 1)
      keep s first (if first > last then 0 else toSizeT (intOf (last - first + 1)))
    else keep s first newlen

/-- The bytes of the string and what ends it. -/
def read (s : Sdshdr) : Option Bytes :=
  peek s.buf 0 (s.sdslen + 1)

/-- The size of the block with the header. -/
def sdsAllocSize (s : Sdshdr) : ℕ :=
  toSizeT (sdshdrSize + s.len + s.free + 1)

/-! ## What a string holds -/

/-- The block of a string, what ends it, and the space behind it. -/
def block (t : Bytes) (e : UInt8) (spare : Bytes) : Sdshdr :=
  ⟨t.length, spare.length, t ++ e :: spare⟩

/-- A string with these bytes. -/
def Has (s : Sdshdr) (t : Bytes) : Prop :=
  ∃ spare, s = block t 0 spare ∧ t.length + spare.length < 2 ^ 31

/-- Lengths below this one and the space that is made for them fit in an `int`. -/
def sdsLimit : ℕ :=
  2 ^ 31 - sdsMaxPrealloc

section

variable {a b c t u spare : Bytes} {e : UInt8} {junk : ℕ → UInt8} {s : Sdshdr} {n : ℕ}

@[simp] theorem block_len : (block t e spare).len = t.length := rfl

@[simp] theorem block_free : (block t e spare).free = spare.length := rfl

@[simp] theorem block_buf : (block t e spare).buf = t ++ e :: spare := rfl

theorem sdslen_block (h : t.length < 2 ^ 31) : (block t e spare).sdslen = t.length :=
  toSizeT_natCast (by omega)

theorem sdsavail_block (h : spare.length < 2 ^ 31) : (block t e spare).sdsavail = spare.length :=
  toSizeT_natCast (by omega)

/-- `realloc` keeps the text and its terminator. -/
theorem realloc_block (junk : ℕ → UInt8) (t spare : Bytes) (e : UInt8)
    (h : t.length + spare.length ≤ n) :
    ∃ spare', realloc junk (t ++ e :: spare) (n + 1) = t ++ e :: spare' ∧
      t.length + spare'.length = n := by
  obtain ⟨new, hbuf, hlen⟩ := realloc_eq junk (t := t ++ e :: spare) (n := n + 1)
    (by simp; omega)
  refine ⟨spare ++ new, by rw [hbuf, List.append_assoc, List.cons_append], ?_⟩
  simp at hlen ⊢
  omega

theorem behind_eq (h : n < 2 ^ 32) : behind n = n := by
  rw [behind, ← Nat.cast_add, toSizeT_natCast (by rw [sdshdrSize]; omega), Nat.add_sub_cancel_left]

/-! ## Making room -/

/-- Making room leaves the text, and the room asked for is there. -/
theorem sdsMakeRoomFor_block (junk : ℕ → UInt8) (hs : t.length + spare.length < 2 ^ 31)
    (h : t.length + n < sdsLimit) :
    ∃ spare', sdsMakeRoomFor junk (block t e spare) n = block t e spare' ∧ n ≤ spare'.length ∧
      t.length + spare'.length < 2 ^ 31 := by
  rw [sdsLimit, sdsMaxPrealloc] at h
  rw [sdsMakeRoomFor, sdsavail_block (by omega), sdslen_block (by omega)]
  split_ifs with hfree
  · exact ⟨spare, rfl, hfree, hs⟩
  · have hadd : toSizeT (t.length + n) = t.length + n := by
      exact_mod_cast toSizeT_natCast (n := t.length + n) (by omega)
    obtain ⟨newlen, hnew, hle, hlt⟩ : ∃ newlen : ℕ,
        (if t.length + n < sdsMaxPrealloc then ((t.length + n : ℕ) : ℤ) * 2
          else (t.length + n : ℕ) + sdsMaxPrealloc) = newlen ∧
        t.length + n ≤ newlen ∧ newlen < 2 ^ 31 := by
      split_ifs with hsmall <;> rw [sdsMaxPrealloc] at *
      · exact ⟨(t.length + n) * 2, by push_cast; ring, by omega, by omega⟩
      · exact ⟨t.length + n + 1024 * 1024, by push_cast; ring, by omega, by omega⟩
    dsimp only
    rw [hadd, hnew, toSizeT_natCast (by omega), behind_eq (by omega)]
    obtain ⟨spare', hbuf, hlen⟩ :=
      realloc_block junk t spare e (n := newlen) (by omega)
    refine ⟨spare', ?_, by omega, by omega⟩
    rw [block, block, hbuf, intOf_eq (by omega) (by omega)]
    congr 1
    omega

theorem sdsRemoveFreeSpace_block (ht : t.length < 2 ^ 31) :
    sdsRemoveFreeSpace junk (block t e spare) = block t e [] := by
  rw [sdsRemoveFreeSpace, block]
  dsimp only
  rw [toSizeT_natCast (by omega), behind_eq (by omega), realloc, block]
  simp [List.take_append]

/-! ## Appending -/

/-- `sdscatlen` appends. -/
theorem sdscatlen_block (hs : t.length + spare.length < 2 ^ 31)
    (h : t.length + u.length < sdsLimit) :
    ∃ s', sdscatlen junk (block t e spare) u = some s' ∧ Has s' (t ++ u) := by
  obtain ⟨spare', hroom, hn, hlt⟩ := sdsMakeRoomFor_block junk (e := e) hs h
  obtain ⟨buf, hu, hend⟩ := poke_text (t := t) (u := u) (r := e :: spare') (by simp; omega)
  rw [sdsLimit, sdsMaxPrealloc] at h
  refine ⟨block (t ++ u) 0 (spare'.drop u.length), ?_, _, rfl, by simp; omega⟩
  rw [sdscatlen, sdslen_block (by omega), hroom, block_buf, block_free, hu, Option.bind_eq_bind,
    Option.bind_some, hend, Option.bind_some, intOf_eq (by omega) (by omega),
    intOf_eq (by omega) (by omega), block]
  simp
  omega

/-- The C string printed is the text up to its first zero. -/
theorem vsnprintf_text (text : Bytes) (n : ℕ) :
    (vsnprintf text n).takeWhile (· ≠ 0) = text.takeWhile (· ≠ 0) := by
  fun_induction vsnprintf text n with
  | case1 n h ih => exact ih
  | case2 n h =>
    rw [not_not] at h
    rcases Nat.lt_or_ge n text.length with hn | hn
    · have hstop : (0 : UInt8) ∈ text.take (n + 1) := by
        rw [List.getD_eq_getElem _ _ hn] at h
        rw [← h]
        exact List.mem_take_iff_getElem.2 ⟨n, by omega, rfl⟩
      conv_rhs => rw [← List.take_append_drop (n + 1) text]
      rw [List.takeWhile_append, if_neg]
      intro hall
      rw [← (List.takeWhile_prefix _).eq_of_length hall] at hstop
      simpa using List.mem_takeWhile_imp hstop
    · rw [List.take_of_length_le (by omega)]

theorem sdscatvprintf_block {text : Bytes} (hs : t.length + spare.length < 2 ^ 31)
    (h : t.length + (text.takeWhile (· ≠ 0)).length < sdsLimit) :
    ∃ s', sdscatvprintf junk (block t e spare) text = some s' ∧
      Has s' (t ++ text.takeWhile (· ≠ 0)) := by
  rw [sdscatvprintf, sdscat, vsnprintf_text]
  exact sdscatlen_block hs h

/-! ## Writing over it -/

/-- `sdscpylen` replaces the text. -/
theorem sdscpylen_block (hs : t.length + spare.length < 2 ^ 31) (h : u.length < sdsLimit) :
    ∃ s', sdscpylen junk (block t e spare) u = some s' ∧ Has s' u := by
  have htot : ∀ x : Bytes, t.length + x.length < 2 ^ 31 →
      toSizeT (intOf (x.length + t.length)) = t.length + x.length := by
    intro x hx
    rw [intOf_eq (by omega) (by omega), ← Nat.cast_add, toSizeT_natCast (by omega), Nat.add_comm]
  obtain ⟨spare', hroom, hn, hlt⟩ : ∃ spare' : Bytes,
      (if t.length + spare.length < u.length then
        sdsMakeRoomFor junk (block t e spare) (toSizeT (u.length - t.length))
        else block t e spare) = block t e spare' ∧ u.length ≤ t.length + spare'.length ∧
      t.length + spare'.length < 2 ^ 31 := by
    split_ifs with hlong
    · rw [← Nat.cast_sub (by omega), toSizeT_natCast (by rw [sdsLimit, sdsMaxPrealloc] at h; omega)]
      obtain ⟨spare', hroom, hn, hlt⟩ := sdsMakeRoomFor_block junk (e := e)
        (n := u.length - t.length) hs (by omega)
      exact ⟨spare', hroom, by omega, hlt⟩
    · exact ⟨spare, rfl, by omega, hs⟩
  obtain ⟨buf, spare'', hu, hend, hlen⟩ := poke_over (e := e) hn
  refine ⟨block u 0 spare'', ?_, spare'', rfl, by omega⟩
  rw [sdscpylen, block_free, block_len, htot spare hs, hroom, block_free, block_len,
    htot spare' hlt, block_buf, hu, Option.bind_eq_bind, Option.bind_some, hend, Option.bind_some,
    intOf_eq (by omega) (by omega), intOf_eq (by omega) (by omega), block]
  simp
  omega

/-- `sdsprintf` replaces the text by what is printed. -/
theorem sdsprintf_block {text : Bytes} (hs : t.length + spare.length < 2 ^ 31)
    (h : (text.takeWhile (· ≠ 0)).length < sdsLimit) :
    ∃ s', sdsprintf junk (block t e spare) text = some s' ∧
      Has s' (text.takeWhile (· ≠ 0)) := by
  obtain ⟨e', rest, hrest⟩ := List.exists_cons_of_ne_nil
    (List.append_ne_nil_of_right_ne_nil t (List.cons_ne_nil e spare))
  have hlen := congrArg List.length hrest
  simp at hlen
  have hempty : (⟨0, intOf (spare.length + t.length), t ++ e :: spare⟩ : Sdshdr) =
      block [] e' rest := by
    rw [intOf_eq (by omega) (by omega), hrest, block]
    simp
    omega
  rw [sdsprintf, block_free, block_len, block_buf, hempty]
  exact sdscatvprintf_block (by simp; omega) (by simpa using h)

/-- `sdsclear` leaves the empty text. -/
theorem sdsclear_block (hs : t.length + spare.length < 2 ^ 31) :
    ∃ s', sdsclear (block t e spare) = some s' ∧ Has s' [] := by
  have hpoke := poke_split (t := []) (u := [0]) (r := t ++ e :: spare) (by simp; omega)
  rw [List.nil_append, List.length_nil, Nat.cast_zero] at hpoke
  refine ⟨block [] 0 ((t ++ e :: spare).drop 1), ?_, _, rfl, by simp; omega⟩
  rw [sdsclear, block_buf, hpoke, Option.bind_eq_bind, Option.bind_some, block_free, block_len,
    intOf_eq (by omega) (by omega), block]
  simp
  omega

/-- `sdsgrowzero` fills up with zeros. -/
theorem sdsgrowzero_block (hs : t.length + spare.length < 2 ^ 31) (h : n < sdsLimit) :
    ∃ s', sdsgrowzero junk (block t 0 spare) n = some s' ∧
      Has s' (t ++ List.replicate (n - t.length) 0) := by
  rw [sdsgrowzero, sdslen_block (by omega)]
  split_ifs with hn
  · rw [Nat.sub_eq_zero_of_le hn, List.replicate_zero, List.append_nil]
    exact ⟨_, rfl, spare, rfl, hs⟩
  · obtain ⟨spare', hroom, hk, hlt⟩ := sdsMakeRoomFor_block junk (e := 0)
      (n := n - t.length) hs (by omega)
    rw [sdsLimit, sdsMaxPrealloc] at h
    have htot : toSizeT (intOf (t.length + spare'.length)) = t.length + spare'.length := by
      rw [intOf_eq (by omega) (by omega), ← Nat.cast_add, toSizeT_natCast (by omega)]
    refine ⟨block (t ++ List.replicate (n - t.length) 0) 0 (spare'.drop (n - t.length)), ?_, _, rfl,
      by simp; omega⟩
    rw [hroom]
    dsimp only
    rw [block_buf, poke_split (by simp; omega), Option.bind_eq_bind, Option.bind_some, block_len,
      block_free, htot, intOf_eq (by omega) (by omega), intOf_eq (by omega) (by omega),
      List.replicate_succ', block]
    simp
    omega

/-! ## Cutting it down -/

/-- Keeping `n` bytes from `i` on. -/
theorem keep_block {i : ℕ} (hs : t.length + spare.length < 2 ^ 31) (h : i + n ≤ t.length) :
    ∃ s', keep (block t 0 spare) i n = some s' ∧ Has s' ((t.drop i).take n) := by
  have hkept : ((t.drop i).take n).length = n := by
    rw [List.length_take, List.length_drop]
    omega
  have hpeek : peek (t ++ 0 :: spare) i n = some ((t.drop i).take n) := by
    rw [peek, if_pos ⟨by omega, by simp; omega⟩, Int.toNat_natCast,
      List.drop_append_of_le_length (by omega),
      List.take_append_of_le_length (by rw [List.length_drop]; omega)]
  obtain ⟨buf, spare', hu, hend, hlen⟩ := poke_over (t := t) (e := 0) (s := spare)
    (u := (t.drop i).take n) (by omega)
  rw [hkept] at hend hlen
  refine ⟨block ((t.drop i).take n) 0 spare', ?_, spare', rfl, by omega⟩
  rw [keep, block_buf, hpeek, Option.bind_eq_bind, Option.bind_some, hu, Option.bind_some, hend,
    Option.bind_some, block_free, block_len, intOf_eq (by omega) (by omega),
    intOf_eq (by omega) (by omega), block, hkept]
  simp
  omega

/-- The text up to its first zero, and what follows in the block. -/
theorem takeWhile_text (t spare : Bytes) :
    (t ++ 0 :: spare).takeWhile (· ≠ 0) = t.takeWhile (· ≠ 0) ∧
      ∃ rest, t ++ 0 :: spare = t.takeWhile (· ≠ 0) ++ 0 :: rest := by
  induction t with
  | nil => exact ⟨by simp, spare, rfl⟩
  | cons c t ih =>
    obtain ⟨hsame, rest, h⟩ := ih
    by_cases hc : c = 0
    · exact ⟨by simp [hc], t ++ 0 :: spare, by simp [hc]⟩
    · exact ⟨by simpa [hc] using hsame, rest, by simpa [hc] using h⟩

/-- `sdsupdatelen` cuts the text at its first zero. -/
theorem sdsupdatelen_block (hs : t.length + spare.length < 2 ^ 31) :
    ∃ s', sdsupdatelen (block t 0 spare) = some s' ∧ Has s' (t.takeWhile (· ≠ 0)) := by
  obtain ⟨hsame, rest, hrest⟩ := takeWhile_text t spare
  rw [sdsupdatelen, block_buf, hsame, hrest]
  have hlen := congrArg List.length hrest
  generalize t.takeWhile (· ≠ 0) = r at hlen
  simp only [List.length_append, List.length_cons] at hlen
  refine ⟨block r 0 rest, ?_, rest, rfl, by omega⟩
  rw [if_pos (by simp), block_free, block_len, intOf_eq (by omega) (by omega),
    intOf_eq (x := t.length - r.length) (by omega) (by omega), intOf_eq (by omega) (by omega),
    block]
  congr 2
  omega

/-- `sdsIncrLen` sets the length to what the block already holds. -/
theorem sdsIncrLen_block {len free incr : ℤ} (ht : t.length = len + incr)
    (hfree : spare.length = free - incr) (hs : t.length + spare.length < 2 ^ 31) :
    sdsIncrLen ⟨len, free, t ++ e :: spare⟩ incr = some (block t 0 spare) := by
  rw [sdsIncrLen, if_pos (by dsimp only; omega)]
  dsimp only
  rw [← ht, ← hfree, intOf_eq (by omega) (by omega), intOf_eq (by omega) (by omega),
    if_pos (by omega), poke_one]
  rfl

/-- A string is cut off by a negative increment. -/
theorem sdsIncrLen_cut (hs : t.length + spare.length < 2 ^ 31) (hn : n ≤ t.length) :
    ∃ s', sdsIncrLen (block t 0 spare) (n - t.length) = some s' ∧ Has s' (t.take n) := by
  rcases hn.lt_or_eq with hlt | rfl
  · have hsplit : t ++ 0 :: spare = t.take n ++ t[n] :: (t.drop (n + 1) ++ 0 :: spare) := by
      rw [← List.cons_append, ← List.drop_eq_getElem_cons hlt, ← List.append_assoc,
        List.take_append_drop]
    have htake : (t.take n).length = n := List.length_take_of_le hn
    refine ⟨_, ?_, t.drop (n + 1) ++ 0 :: spare, rfl, by simp; omega⟩
    rw [block, hsplit]
    exact sdsIncrLen_block (by rw [htake]; omega) (by simp; omega) (by simp; omega)
  · rw [sub_self, List.take_length]
    exact ⟨_, sdsIncrLen_block (by omega) (by omega) hs, spare, rfl, hs⟩

/-- Room is made, some of it is filled, and the length is adjusted. -/
theorem fill_block (hs : t.length + spare.length < 2 ^ 31) (h : t.length + n < sdsLimit)
    (hu : u.length ≤ n) :
    ∃ s', (do
      let s := sdsMakeRoomFor junk (block t 0 spare) n
      let buf ← poke s.buf s.sdslen u
      sdsIncrLen ⟨s.len, s.free, buf⟩ u.length) = some s' ∧ Has s' (t ++ u) := by
  obtain ⟨spare', hroom, hn, hlt⟩ := sdsMakeRoomFor_block junk (e := 0) hs h
  obtain ⟨e, rest, hrest⟩ := List.exists_cons_of_ne_nil (List.ne_nil_of_length_pos
    (l := (0 :: spare').drop u.length) (by simp; omega))
  have hlen := congrArg List.length hrest
  simp only [List.length_drop, List.length_cons] at hlen
  refine ⟨_, ?_, rest, rfl, by simp; omega⟩
  rw [hroom]
  dsimp only
  rw [sdslen_block (by omega), block_buf, poke_split (by simp; omega), Option.bind_eq_bind,
    Option.bind_some, hrest]
  exact sdsIncrLen_block (by simp) (by simp; omega) (by simp; omega)

/-! ## Its characters -/

/-- Every byte of the text is mapped. -/
theorem mapBytes_block (f : UInt8 → UInt8) :
    mapBytes f (block t e spare) t.length = some (block (t.map f) e spare) := by
  have hpoke := poke_split (t := []) (u := t.map f) (r := t ++ e :: spare) (by simp)
  rw [List.nil_append, List.length_nil, Nat.cast_zero] at hpoke
  rw [mapBytes, block_buf, peek_text, Option.bind_eq_bind, Option.bind_some, hpoke,
    Option.bind_some, block_len, block_free, block]
  simp

theorem sdstolower_block (hs : t.length < 2 ^ 31) :
    sdstolower (block t e spare) = some (block (t.map toLower) e spare) := by
  rw [sdstolower, sdslen_block hs, intOf_natCast hs, Int.toNat_natCast, mapBytes_block]

theorem sdstoupper_block (hs : t.length < 2 ^ 31) :
    sdstoupper (block t e spare) = some (block (t.map toUpper) e spare) := by
  rw [sdstoupper, sdslen_block hs, intOf_natCast hs, Int.toNat_natCast, mapBytes_block]

/-! ## Trimming -/

theorem trimEnd_append {cset : Bytes} {i : ℕ} (h : i < t.length) :
    trimEnd cset (t ++ u) i = trimEnd cset t i := by
  induction i with
  | zero => rfl
  | succ i ih => rw [trimEnd, trimEnd, ih (by omega), List.getD_append _ _ _ _ h]

/-- The loop ends on the last character that stays, or on the first of all. -/
theorem trimEnd_eq (cset : Bytes) (ht : t ≠ []) :
    trimEnd cset t (t.length - 1) + 1 = max 1 (t.rdropWhile (inCset cset)).length := by
  induction t using List.reverseRecOn with
  | nil => exact absurd rfl ht
  | append_singleton t c ih =>
    rcases eq_or_ne t [] with rfl | hne
    · rw [List.nil_append, List.rdropWhile_singleton]
      split_ifs <;> rfl
    · obtain ⟨m, hm⟩ : ∃ m, t.length = m + 1 :=
        Nat.exists_eq_succ_of_ne_zero (List.length_pos_of_ne_nil hne).ne'
      have hlast : (t ++ [c]).getD (m + 1) 0 = c := by
        rw [← hm, List.getD_append_right _ _ _ _ le_rfl, Nat.sub_self]
        rfl
      rw [List.length_append, List.length_singleton, Nat.add_sub_cancel, hm, trimEnd, hlast,
        List.rdropWhile_concat]
      split_ifs with hc
      · rw [trimEnd_append (by omega), ← ih hne, hm, Nat.add_sub_cancel]
      · simp [hm]

/-- Trimming the right end of a text that is not trimmed away keeps its left margin. -/
theorem rdropWhile_eq (p : UInt8 → Bool) (t : Bytes) :
    t.dropWhile p = [] ∧ t.rdropWhile p = [] ∨
      t.rdropWhile p = t.takeWhile p ++ (t.dropWhile p).rdropWhile p ∧
      (t.dropWhile p).rdropWhile p ≠ [] := by
  rcases eq_or_ne (t.dropWhile p) [] with hd | hd
  · refine .inl ⟨hd, ?_⟩
    rw [List.rdropWhile_eq_nil_iff]
    exact List.dropWhile_eq_nil_iff.1 hd
  · have hne : (t.dropWhile p).rdropWhile p ≠ [] := by
      intro hnil
      have hin := List.rdropWhile_eq_nil_iff.1 hnil _ (List.head_mem hd)
      rw [List.head_dropWhile_not p hd] at hin
      exact Bool.false_ne_true hin
    refine .inr ⟨?_, hne⟩
    conv_lhs => rw [← List.takeWhile_append_dropWhile (p := p) (l := t)]
    rw [List.rdropWhile, List.reverse_append, List.dropWhile_append, if_neg]
    · simp [List.rdropWhile]
    · simpa [List.rdropWhile] using hne

/-- What lies between the two loops. -/
theorem trim_window (cset t : Bytes) :
    let sp := (t.takeWhile (inCset cset)).length
    let ep : ℤ := if t = [] then -1 else trimEnd cset t (t.length - 1)
    (if sp > ep then 0 else (ep - sp + 1).toNat) =
      ((t.dropWhile (inCset cset)).rdropWhile (inCset cset)).length := by
  intro sp ep
  rcases eq_or_ne t [] with rfl | ht
  · rfl
  · have hep : ep + 1 = max 1 (t.rdropWhile (inCset cset)).length := by
      have := trimEnd_eq cset ht
      simp only [ep, if_neg ht]
      omega
    have hsp : sp + (t.dropWhile (inCset cset)).length = t.length := by
      rw [← List.length_append, List.takeWhile_append_dropWhile]
    have hpos := List.length_pos_of_ne_nil ht
    rcases rdropWhile_eq (inCset cset) t with ⟨hd, hr⟩ | ⟨hr, hne⟩
    · rw [hd] at hsp ⊢
      rw [hr] at hep
      simp at hsp hep
      rw [if_pos (by omega)]
      rfl
    · have := List.length_pos_of_ne_nil hne
      rw [hr, List.length_append] at hep
      rw [if_neg (by omega)]
      omega

theorem keep_middle (ht : t = a ++ (b ++ c)) (hs : t.length + spare.length < 2 ^ 31) :
    ∃ s', keep (block t 0 spare) a.length b.length = some s' ∧ Has s' b := by
  subst ht
  simpa using keep_block (i := a.length) (n := b.length) hs (by simp)

/-- `sdstrim` trims both ends. -/
theorem sdstrim_block (cset : Bytes) (hs : t.length + spare.length < 2 ^ 31) :
    ∃ s', sdstrim (block t 0 spare) cset = some s' ∧
      Has s' ((t.dropWhile (inCset cset)).rdropWhile (inCset cset)) := by
  obtain ⟨rest, hrest⟩ := List.rdropWhile_prefix (inCset cset) (t.dropWhile (inCset cset))
  rw [sdstrim, sdslen_block (by omega), block_buf, peek_text, Option.bind_eq_bind, Option.bind_some]
  dsimp only
  rw [trim_window cset t]
  exact keep_middle (c := rest) (by rw [hrest, List.takeWhile_append_dropWhile]) hs

/-! ## Ranges -/

/-- The place that an index means. -/
def place (len : ℕ) (i : ℤ) : ℕ :=
  if i < 0 then (len + i).toNat else i.toNat

/-- A negative index counts from the end. -/
theorem fromEnd_eq {i : ℤ} (hn : n < 2 ^ 31) (h : -2 ^ 31 ≤ i) : fromEnd n i = place n i := by
  rw [fromEnd, place]
  by_cases hi : i < 0
  · rw [if_pos hi, if_pos hi, intOf_eq (by omega) (by omega)]
    dsimp only
    split_ifs <;> omega
  · rw [if_neg hi, if_neg hi]
    omega

/-- `sdsrange` keeps the bytes between the two places. -/
theorem sdsrange_block {first last : ℤ} (hs : t.length + spare.length < 2 ^ 31)
    (hf : -2 ^ 31 ≤ first ∧ first < 2 ^ 31) (hl : -2 ^ 31 ≤ last ∧ last < 2 ^ 31 - 1) :
    ∃ s', sdsrange (block t 0 spare) first last = some s' ∧
      Has s' ((t.drop (place t.length first)).take
        (place t.length last + 1 - place t.length first)) := by
  have hlast : place t.length last < 2 ^ 31 - 1 := by
    rw [place]
    split_ifs <;> omega
  rw [sdsrange, sdslen_block (by omega)]
  dsimp only
  rw [fromEnd_eq (by omega) hf.1, fromEnd_eq (by omega) hl.1]
  generalize place t.length first = f
  generalize place t.length last = l at hlast
  have hnew : (if (f : ℤ) > l then 0 else toSizeT (intOf (l - f + 1))) = l + 1 - f := by
    split_ifs with h
    · omega
    · rw [intOf_eq (by omega) (by omega), toSizeT]
      omega
  rw [hnew]
  have hlen : intOf t.length = t.length := intOf_natCast (by omega)
  split_ifs with h0 hn hge hle hcut
  · rw [List.length_eq_zero_iff.1 h0, List.drop_nil, List.take_nil]
    exact ⟨_, rfl, spare, rfl, by simp; omega⟩
  · rw [hn]
    exact keep_block (i := 0) hs (Nat.zero_le _)
  · rw [List.drop_of_length_le (by omega), List.take_nil]
    exact keep_block (i := 0) (n := 0) hs (Nat.zero_le _)
  · rw [intOf_eq (by omega) (by omega)] at hcut
    omega
  · have hrest : toSizeT (intOf (intOf (t.length - 1) - f + 1)) = t.length - f := by
      rw [intOf_eq (x := t.length - 1) (by omega) (by omega), intOf_eq (by omega) (by omega),
        toSizeT]
      omega
    have hkeep := keep_block (i := f) (n := t.length - f) hs (by omega)
    rw [List.take_of_length_le (by simp)] at hkeep
    rwa [hrest, List.take_of_length_le (by simp; omega)]
  · exact keep_block hs (by omega)

end

/-! ## Runs -/

/-- What can be done with a string. `fill` makes room, writes into it, and adjusts the length. -/
inductive Call
  | catlen (u : Bytes)
  | catprintf (text : Bytes)
  | cpylen (u : Bytes)
  | printf (text : Bytes)
  | clear
  | updatelen
  | makeRoomFor (n : ℕ)
  | removeFreeSpace
  | growzero (n : ℕ)
  | fill (n : ℕ) (u : Bytes)
  | cut (n : ℕ)
  | trim (cset : Bytes)
  | range (first last : ℤ)
  | lower
  | upper
  | mapchars (table : List (UInt8 × UInt8))

/-- The block after a call. -/
def Call.exec (junk : ℕ → UInt8) (s : Sdshdr) : Call → Option Sdshdr
  | .catlen u => sdscatlen junk s u
  | .catprintf text => sdscatvprintf junk s text
  | .cpylen u => sdscpylen junk s u
  | .printf text => sdsprintf junk s text
  | .clear => sdsclear s
  | .updatelen => sdsupdatelen s
  | .makeRoomFor n => some (sdsMakeRoomFor junk s n)
  | .removeFreeSpace => some (sdsRemoveFreeSpace junk s)
  | .growzero n => sdsgrowzero junk s n
  | .fill n u => do
    let s := sdsMakeRoomFor junk s n
    let buf ← poke s.buf s.sdslen u
    sdsIncrLen ⟨s.len, s.free, buf⟩ u.length
  | .cut n => sdsIncrLen s (-n)
  | .trim cset => sdstrim s cset
  | .range first last => sdsrange s first last
  | .lower => sdstolower s
  | .upper => sdstoupper s
  | .mapchars table => sdsmapchars s table

/-- What the call makes of the bytes. -/
def Call.text (t : Bytes) : Call → Bytes
  | .catlen u => t ++ u
  | .catprintf text => t ++ text.takeWhile (· ≠ 0)
  | .cpylen u => u
  | .printf text => text.takeWhile (· ≠ 0)
  | .clear => []
  | .updatelen => t.takeWhile (· ≠ 0)
  | .makeRoomFor _ => t
  | .removeFreeSpace => t
  | .growzero n => t ++ List.replicate (n - t.length) 0
  | .fill _ u => t ++ u
  | .cut n => t.take (t.length - n)
  | .trim cset => (t.dropWhile (inCset cset)).rdropWhile (inCset cset)
  | .range first last =>
    (t.drop (place t.length first)).take (place t.length last + 1 - place t.length first)
  | .lower => t.map toLower
  | .upper => t.map toUpper
  | .mapchars table => t.map (mapChar table)

/-- The lengths fit in an `int`, and no more is filled or cut than there is. -/
def Call.Fits (t : Bytes) : Call → Prop
  | .catlen u => t.length + u.length < sdsLimit
  | .catprintf text => t.length + (text.takeWhile (· ≠ 0)).length < sdsLimit
  | .cpylen u => u.length < sdsLimit
  | .printf text => (text.takeWhile (· ≠ 0)).length < sdsLimit
  | .makeRoomFor n => t.length + n < sdsLimit
  | .growzero n => n < sdsLimit
  | .fill n u => t.length + n < sdsLimit ∧ u.length ≤ n
  | .cut n => n ≤ t.length
  | .range first last =>
    (-2 ^ 31 ≤ first ∧ first < 2 ^ 31) ∧ -2 ^ 31 ≤ last ∧ last < 2 ^ 31 - 1
  | _ => True

/-- A call, with what memory holds when it is allocated. The string is read after it. -/
def conc (s : Sdshdr) (c : Call × (ℕ → UInt8)) : Option (Sdshdr × Option Bytes) := do
  let s ← c.1.exec c.2 s
  some (s, s.read)

/-- The bytes are read with their terminator. -/
def abs (t : Bytes) (c : Call × (ℕ → UInt8)) : Bytes × Option Bytes :=
  (c.1.text t, some (c.1.text t ++ [0]))

theorem Has.read {s : Sdshdr} {t : Bytes} (h : Has s t) : s.read = some (t ++ [0]) := by
  obtain ⟨spare, rfl, hlt⟩ := h
  have hpeek := peek_text (t ++ [0]) spare
  rw [List.length_append, List.length_singleton] at hpeek
  rw [Sdshdr.read, sdslen_block (by omega), block_buf, List.append_cons, hpeek]

/-- One call that fits does to the block what it does to the text. -/
theorem Call.exec_block {t spare : Bytes} (junk : ℕ → UInt8) (c : Call)
    (hs : t.length + spare.length < 2 ^ 31) (hc : c.Fits t) :
    ∃ s', c.exec junk (block t 0 spare) = some s' ∧ Has s' (c.text t) := by
  have hmap : ∀ f : UInt8 → UInt8, Has (block (t.map f) 0 spare) (t.map f) := fun f =>
    ⟨spare, rfl, by rwa [List.length_map]⟩
  cases c with
  | catlen u => exact sdscatlen_block hs hc
  | catprintf text => exact sdscatvprintf_block hs hc
  | cpylen u => exact sdscpylen_block hs hc
  | printf text => exact sdsprintf_block hs hc
  | clear => exact sdsclear_block hs
  | updatelen => exact sdsupdatelen_block hs
  | makeRoomFor n =>
    obtain ⟨spare', hroom, -, hlt⟩ := sdsMakeRoomFor_block junk (e := 0) hs hc
    exact ⟨_, rfl, spare', hroom, hlt⟩
  | removeFreeSpace =>
    exact ⟨_, rfl, [], sdsRemoveFreeSpace_block (by omega), Nat.lt_of_le_of_lt (by simp [text]) hs⟩
  | growzero n => exact sdsgrowzero_block hs hc
  | fill n u => exact fill_block hs hc.1 hc.2
  | cut n =>
    have hcut := sdsIncrLen_cut (n := t.length - n) hs (Nat.sub_le _ _)
    rwa [Nat.cast_sub hc, sub_sub_cancel_left] at hcut
  | trim cset => exact sdstrim_block cset hs
  | range first last => exact sdsrange_block hs hc.1 hc.2
  | lower => exact ⟨_, sdstolower_block (by omega), hmap _⟩
  | upper => exact ⟨_, sdstoupper_block (by omega), hmap _⟩
  | mapchars table =>
    refine ⟨_, ?_, hmap _⟩
    rw [Call.exec, sdsmapchars, sdslen_block (by omega), mapBytes_block]

theorem conc_refines : Refinement.Refines Has conc abs fun t c => c.1.Fits t := by
  rintro s t ⟨c, junk⟩ ⟨spare, rfl, hs⟩ hc
  obtain ⟨s', he, hhas⟩ := c.exec_block junk hs hc
  refine ⟨s', ?_, hhas⟩
  rw [conc, he, Option.bind_eq_bind, Option.bind_some, hhas.read]
  rfl

theorem sdsnewlen_has {init : Bytes} (h : init.length < 2 ^ 31) : Has (sdsnewlen init) init :=
  ⟨[], by rw [sdsnewlen, intOf_natCast h]; rfl, by simpa using h⟩

theorem Has.sdsAllocSize {s : Sdshdr} {t : Bytes} (h : Has s t) :
    s.sdsAllocSize = sdshdrSize + s.buf.length := by
  obtain ⟨spare, rfl, hlt⟩ := h
  rw [Sdshdr.sdsAllocSize, block_len, block_free, block_buf, sdshdrSize, toSizeT]
  simp
  omega

/-- No call of a run writes outside the block or fails an assertion, and the string is what the
calls are to make of the first one. -/
theorem run_text {init : Bytes} (h : init.length < 2 ^ 31) {cs : List (Call × (ℕ → UInt8))}
    (hc : Refinement.Allowed abs (fun t c => c.1.Fits t) init cs) :
    ∃ s, Refinement.runPartial conc (sdsnewlen init) cs =
        some (s, (Refinement.run abs init cs).2) ∧
      s.read = some ((Refinement.run abs init cs).1 ++ [0]) ∧
      s.sdslen = (Refinement.run abs init cs).1.length ∧
      s.sdsAllocSize = sdshdrSize + s.buf.length := by
  obtain ⟨s, hrun, hhas⟩ := conc_refines.run (sdsnewlen_has h) hc
  refine ⟨s, hrun, hhas.read, ?_, hhas.sdsAllocSize⟩
  obtain ⟨spare, rfl, hlt⟩ := hhas
  exact sdslen_block (by omega)

/-- A run that grows a text and trims it. -/
theorem run_text_trim :
    let cs : List (Call × (ℕ → UInt8)) :=
      [(.catlen [105, 32], fun _ => 7), (.trim [32], fun _ => 7), (.upper, fun _ => 7)]
    ∃ s, Refinement.runPartial conc (sdsnewlen [32, 104]) cs =
        some (s, (Refinement.run abs [32, 104] cs).2) ∧
      s.read = some [72, 73, 0] ∧ s.sdslen = 2 ∧ s.sdsAllocSize = sdshdrSize + s.buf.length :=
  run_text (by decide : [32, 104].length < 2 ^ 31)
    ⟨by show 2 + 2 < 2 ^ 31 - 1024 * 1024; decide, trivial, trivial, trivial⟩

end Sdshdr

end Idb
