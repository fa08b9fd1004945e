import Idb.Attributes
import Idb.SdsBuffer

/-!
# Values that are read

`GetDirValue` reads a file into the string that has held its name. For a file of `sdsLimit` bytes
or more the `int` that counts the free bytes of the string wraps, and an assertion of `sdsIncrLen`
aborts (`readInto_eq`). So of the values that `iGet` finds only the shorter ones are returned
(`returned`).
-/

namespace Idb

open Posix Memory Sdshdr

/-- What one call of `read` or `write` transfers at most. -/
def ioMax : ℕ :=
  0x7ffff000

/-- `GetDirValue` behind its `open` : `result` is the name of the file, which holds `content`. -/
def readInto (junk : ℕ → UInt8) (result content : Bytes) : Option Bytes := do
  let s ← sdsclear (sdsnewlen result)
  let s := sdsMakeRoomFor junk s content.length
  let chunk := content.take ioMax
  let buf ← poke s.buf 0 chunk
  let s ← sdsIncrLen ⟨s.len, s.free, buf⟩ (intOf chunk.length)
  peek s.buf 0 s.sdslen

section

variable {junk : ℕ → UInt8} {t e : Bytes} {name content spare : Bytes} {b : UInt8}

/-- An empty string with room takes the content of a file. -/
theorem sdsIncrLen_block (h : content.length ≤ spare.length) (hs : spare.length < 2 ^ 31) :
    ∃ buf, poke (block [] b spare).buf 0 content = some buf ∧ ∃ s,
      sdsIncrLen ⟨(block [] b spare).len, (block [] b spare).free, buf⟩ content.length = some s ∧
        Has s content := by
  obtain ⟨buf, spare', hu, hend, hlen⟩ := poke_over (t := []) (e := b) (z := (0 : UInt8))
    (s := spare) (u := content) (by simpa using h)
  rw [List.length_nil, Nat.zero_add] at hlen
  refine ⟨buf, hu, block content 0 spare', ?_, spare', rfl, by omega⟩
  rw [sdsIncrLen, block_len, block_free]
  dsimp only
  rw [if_pos (by omega), List.length_nil, Nat.cast_zero, zero_add, intOf_eq (by omega) (by omega),
    intOf_eq (by omega) (by omega), if_pos (by omega), hend, Option.bind_eq_bind, Option.bind_some,
    block]
  simp
  omega

/-- The name of a file fits in its string. -/
theorem sdsclear_name (h : name.length < 2 ^ 31) :
    ∃ spare, sdsclear (sdsnewlen name) = some (block [] 0 spare) ∧ spare.length = name.length := by
  have hnew : sdsnewlen name = block name 0 [] := by
    rw [sdsnewlen, intOf_eq (by omega) (by omega), block]
    rfl
  have hpoke := poke_split (t := []) (u := [(0 : UInt8)]) (r := name ++ [0]) (by simp)
  rw [List.nil_append, List.length_nil, Nat.cast_zero] at hpoke
  refine ⟨(name ++ [0]).drop 1, ?_, by simp⟩
  rw [hnew, sdsclear, block_buf, hpoke, Option.bind_eq_bind, Option.bind_some, block_free,
    block_len, intOf_eq (by simp) (by simp; omega), block]
  simp

/-- The content is read if it is shorter than the limit. Else the call aborts. -/
theorem readInto_eq (junk : ℕ → UInt8) (hname : name.length < sdsMaxPrealloc)
    (h : content.length ≤ ioMax) :
    readInto junk name content = if content.length < sdsLimit then some content else none := by
  rw [ioMax] at h
  have hmax : sdsMaxPrealloc = 2 ^ 20 := rfl
  have hlimit : sdsLimit = 2 ^ 31 - 2 ^ 20 := rfl
  obtain ⟨spare, hclear, hspare⟩ := @sdsclear_name name (by omega)
  have htake : content.take ioMax = content := List.take_of_length_le h
  simp only [readInto, hclear, Option.bind_eq_bind, Option.bind_some]
  rw [htake, intOf_eq (by omega) (by omega)]
  split_ifs with hlt
  · obtain ⟨spare', hroom, hle, hs⟩ := sdsMakeRoomFor_block junk (e := 0)
      (show ([] : Bytes).length + spare.length < 2 ^ 31 by simp; omega)
      (n := content.length) (by simpa using hlt)
    rw [List.length_nil, Nat.zero_add] at hs
    obtain ⟨buf, hbuf, s, hs', spare'', rfl, hlen⟩ := sdsIncrLen_block (b := 0) hle hs
    rw [hroom, hbuf, Option.bind_some, hs', Option.bind_some, sdslen_block (by omega), block_buf]
    exact peek_text content _
  · -- The new length is an `int` no more, and the count of the free bytes is negative.
    have hsize : toSizeT ((0 : ℕ) + content.length : ℤ) = content.length := by
      rw [Nat.cast_zero, zero_add, toSizeT_natCast (by omega)]
    have hfree : (sdsMakeRoomFor junk (block [] 0 spare) content.length).free =
        (content.length : ℤ) + 2 ^ 20 - 2 ^ 32 := by
      rw [sdsMakeRoomFor, sdsavail_block (by omega), sdslen_block (by simp),
        if_neg (by omega), List.length_nil, hsize]
      dsimp only
      rw [if_neg (by omega), ← Nat.cast_add, toSizeT_natCast (by omega), Nat.cast_zero, sub_zero,
        intOf, Int.bmod]
      split_ifs <;> omega
    cases hpoke : poke (sdsMakeRoomFor junk (block [] 0 spare) content.length).buf 0 content with
    | none => rfl
    | some buf =>
      rw [Option.bind_some, sdsIncrLen]
      dsimp only
      rw [hfree, if_neg (by omega)]
      rfl

end

/-- What a call that has found `v` returns, if it returns (`readInto_eq`). -/
def returned : Option Bytes → Option (Option Bytes)
  | none => some none
  | some v => if v.length < sdsLimit then some (some v) else none

/-- A call returns what was found, if that is short. -/
theorem returned_eq_some {v w : Option Bytes} :
    returned v = some w ↔ w = v ∧ ∀ c, v = some c → c.length < sdsLimit := by
  cases v with
  | none => simp [returned, eq_comm]
  | some c =>
    rw [returned]
    split_ifs with h <;> simp [h, eq_comm]

theorem returned_eq_some_none {v : Option Bytes} : returned v = some none ↔ v = none := by
  rw [returned_eq_some, eq_comm]
  exact and_iff_left_of_imp fun h => by simp [h]

/-- What is said of the value that is returned is said of the value found, which is short. -/
theorem returned_iff {v : Option Bytes} {P : Option Bytes → Prop} :
    (∃ w, returned v = some w ∧ P w) ↔ (∀ c, v = some c → c.length < sdsLimit) ∧ P v := by
  simp only [returned_eq_some, and_assoc, exists_eq_left]

end Idb
