import Idb.UrlCodec

/-!
# Lists of extended attributes on FreeBSD

`extattr_list_file` returns each name behind a byte with its length. `convert_bsd_list` moves every
name over its length byte and ends it with a zero, in place. The length is read as a signed
`char`, so that the list is converted exactly if no name is longer than 127 bytes
(`convertsList_iff`).
-/

namespace Idb

open Posix

/-! ## The source -/

/-- `memmove(namebuf+offset, namebuf+offset+1, length)`. -/
def moveDown (namebuf : Bytes) (offset length : ℕ) : Bytes :=
  namebuf.take offset ++ (namebuf.drop (offset + 1)).take length ++ namebuf.drop (offset + length)

/-- The body of the loop : the bytes and the next offset, if only bytes of the buffer are touched.
A negative length is moved as a size from `2^64 - 128` on, which no buffer has. -/
def convertName (namebuf : Bytes) (offset : ℕ) : Option (Bytes × ℕ) :=
  let length := charOf (namebuf.getD offset 0)
  if 0 ≤ length ∧ offset + 1 + length ≤ namebuf.length then
    let length := length.toNat
    some ((moveDown namebuf offset length).set (offset + length) 0, offset + length + 1)
  else none

/-- Name after name, until the offset is at the end of the list. -/
def convertLoop (size : ℕ) : ℕ → Bytes → ℕ → Option Bytes
  | 0, namebuf, offset => if offset < size then none else some namebuf
  | fuel + 1, namebuf, offset =>
    if offset < size then
      match convertName namebuf offset with
      | some (namebuf, offset) => convertLoop size fuel namebuf offset
      | none => none
    else some namebuf

/-- Each turn takes a byte at least, so that the size is fuel enough. -/
def convertBsdList (namebuf : Bytes) (size : ℕ) : Option Bytes :=
  convertLoop size size namebuf 0

/-! ## Lists of names -/

/-- A name of an extended attribute, within the limit of the system. -/
structure BsdName where
  bytes : Bytes
  pos : 1 ≤ bytes.length
  le : bytes.length ≤ 255
  noZero : 0 ∉ bytes

/-- The list with length bytes. -/
def bsdList (names : List BsdName) : Bytes :=
  names.flatMap fun name => UInt8.ofNat name.bytes.length :: name.bytes

/-- The list with zeros. -/
def zeroList (names : List BsdName) : Bytes :=
  names.flatMap fun name => name.bytes ++ [0]

/-- The loop ends, touches only bytes of the buffer, and leaves the names with zeros. -/
def ConvertsList (names : List BsdName) : Prop :=
  convertBsdList (bsdList names) (bsdList names).length = some (zeroList names)

section

variable {names : List BsdName} {done rest : Bytes} {fuel : ℕ}

theorem charOf_length (name : BsdName) : charOf (UInt8.ofNat name.bytes.length) =
    if name.bytes.length ≤ 127 then (name.bytes.length : ℤ) else name.bytes.length - 256 := by
  have hle := name.le
  rw [charOf_eq, UInt8.toNat_ofNat_of_lt' (by simp only [UInt8.size]; omega)]
  split_ifs <;> omega

/-- The name is moved down by one byte, and the byte behind it becomes the zero. -/
theorem moveDown_append (b : UInt8) (name : Bytes) :
    (moveDown (done ++ b :: (name ++ rest)) done.length name.length).set
      (done.length + name.length) 0 = done ++ name ++ [0] ++ rest := by
  obtain ⟨init, x, hx⟩ :=
    (List.eq_nil_or_concat' (b :: name)).resolve_left (List.cons_ne_nil b name)
  have hlen : init.length = name.length := by
    have := congrArg List.length hx
    simpa using this.symm
  have hdrop : (b :: (name ++ rest)).drop name.length = x :: rest := by
    rw [← List.cons_append, hx, List.append_assoc, ← hlen, List.drop_left']
    · rfl
    · rfl
  have hmoved : moveDown (done ++ b :: (name ++ rest)) done.length name.length =
      (done ++ name) ++ x :: rest := by
    rw [moveDown, List.take_left' rfl, ← List.drop_drop, ← List.drop_drop, List.drop_left' rfl,
      hdrop, List.drop_succ_cons, List.drop_zero, List.take_left' rfl]
  rw [hmoved, ← List.length_append, List.set_append_right _ _ le_rfl, Nat.sub_self]
  simp

/-- One turn moves one name, if its length is no negative `char`. -/
theorem convertName_append (name : BsdName) :
    convertName (done ++ UInt8.ofNat name.bytes.length :: (name.bytes ++ rest)) done.length =
      if name.bytes.length ≤ 127 then
        some (done ++ name.bytes ++ [0] ++ rest, done.length + name.bytes.length + 1)
      else none := by
  have hle := name.le
  have hlength : charOf ((done ++ UInt8.ofNat name.bytes.length :: (name.bytes ++ rest)).getD
      done.length 0) = charOf (UInt8.ofNat name.bytes.length) := by
    simp
  unfold convertName
  rw [hlength, charOf_length]
  dsimp only
  split_ifs with h127 hin hin
  · rw [Int.toNat_natCast, moveDown_append]
  · simp at hin
    omega
  · omega
  · rfl

theorem bsdList_cons (name : BsdName) : bsdList (name :: names) =
    UInt8.ofNat name.bytes.length :: (name.bytes ++ bsdList names) := by
  rw [bsdList, List.flatMap_cons, List.cons_append, ← bsdList]

/-- The names before the offset are converted, those behind it are not. -/
theorem convertLoop_append (size : ℕ) (hsize : size = done.length + (bsdList names).length)
    (hf : names.length ≤ fuel) : convertLoop size fuel (done ++ bsdList names) done.length =
      if ∀ name ∈ names, name.bytes.length ≤ 127 then some (done ++ zeroList names) else none := by
  induction names generalizing done fuel with
  | nil =>
    have hend : ¬done.length < size := by
      rw [hsize]
      simp [bsdList]
    cases fuel <;> simp [convertLoop, hend, bsdList, zeroList]
  | cons name names ih =>
    obtain ⟨fuel, rfl⟩ : ∃ f, fuel = f + 1 := ⟨fuel - 1, by simp at hf; omega⟩
    rw [bsdList_cons] at hsize ⊢
    have hmore : done.length < size := by
      rw [hsize, List.length_cons]
      omega
    rw [convertLoop, if_pos hmore, convertName_append]
    by_cases h : name.bytes.length ≤ 127
    · have hnext : done.length + name.bytes.length + 1 = (done ++ name.bytes ++ [0]).length := by
        simp only [List.length_append, List.length_singleton]
      rw [if_pos h]
      dsimp only
      rw [hnext, ih (by rw [hsize, ← hnext]; simp; omega) (by simpa using hf)]
      simp [h, zeroList]
    · rw [if_neg h, if_neg fun hall => h (hall name List.mem_cons_self)]

end

theorem length_le_bsdList (names : List BsdName) : names.length ≤ (bsdList names).length := by
  induction names with
  | nil => exact le_rfl
  | cons name names ih =>
    rw [bsdList_cons, List.length_cons, List.length_cons, List.length_append]
    omega

/-- The list is converted exactly if no name is longer than 127 bytes. -/
theorem convertsList_iff (names : List BsdName) :
    ConvertsList names ↔ ∀ name ∈ names, name.bytes.length ≤ 127 := by
  have hloop := @convertLoop_append names [] (bsdList names).length (bsdList names).length
    (Nat.zero_add _).symm (length_le_bsdList names)
  rw [List.nil_append, List.length_nil, List.nil_append] at hloop
  rw [ConvertsList, convertBsdList, hloop]
  split_ifs with h
  · exact iff_of_true rfl h
  · exact iff_of_false (by simp) h

/-- A name of 128 letters. -/
def longName : BsdName :=
  ⟨List.replicate 128 97, by simp, by simp, by simp⟩

theorem not_convertsList_longName : ¬ConvertsList [longName] := by
  unfold ConvertsList
  decide +kernel

end Idb
