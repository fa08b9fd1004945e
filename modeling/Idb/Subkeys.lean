import Idb.DeleteDir
import Idb.Integers
import Idb.Partition

/-!
# Listing subkeys

`iSubkeyWalk` hands the normal keys of a directory to a processor, then those in its
partition directories. `iSubkeys` collects them in a list, `iSubkeyTotal` counts them.

The record of the walk is passed by reference in the source : a partition gets a copy of
it, so that only the count of keys found comes back. The list of `iSubkeys` is shared.

The key part of the record begins in a block of eight bytes. The walk appends the literal
characters at the start of a pattern to it, and the block that is freed in the end is the first
one. If the key part has moved to a larger block by then, that is freed twice, and the program
aborts.
-/

namespace Idb

open Posix FileSystem

/-- The state of a walk over subkeys : the file system and the list of keys so far. -/
abbrev KeyState := FileSystem × List Bytes

/-- A processor of keys is given the number of keys before this one in the walk, the
directory walked, the key and the part of it that partitions spell. -/
abbrev WalkKeyHandler :=
  ℕ → Bytes → Bytes → Bytes → TIDBProcesses → KeyState → ℤ × KeyState

/-- What the walkers of `_iSubkeyWalk` hand from call to call. -/
structure TSubkeyWalkerRec where
  pattern : Option Bytes
  subkeyPart : Bytes
  /-- The current level count. -/
  count : ℕ
  leftCount : ℕ
  skipCount : ℕ
  processor : Option WalkKeyHandler
  duplicationKeyProcess : TIDBProcesses

/-- Subtraction of `size_t`. -/
def sizeSub (a b : ℕ) : ℕ :=
  (a + (2 ^ 64 - b % 2 ^ 64)) % 2 ^ 64

/-- Handle a normal key. -/
def subkeyWalker (host : Host) : WalkDirHandler (TSubkeyWalkerRec × List Bytes) :=
  fun aCount aDir aItem (fs, aRec, keys) =>
    if aRec.subkeyPart ≠ [] ∧ ¬fnmMatched host aRec.pattern aItem.dName then
      (walkItemSkip, fs, aRec, keys)
    else if aRec.skipCount > 0 then
      (walkItemSkip, fs, { aRec with skipCount := aRec.skipCount - 1 }, keys)
    else
      match aRec.processor with
      | none => (walkItemOk, fs, aRec, keys)
      | some processor =>
        let (result, fs, keys) := processor (aRec.count + aCount) aDir
          (aRec.subkeyPart ++ aItem.dName) aRec.subkeyPart aRec.duplicationKeyProcess (fs, keys)
        (result, fs, aRec, keys)

/-- The state of a walk with its record. -/
abbrev RecState := FileSystem × (TSubkeyWalkerRec × List Bytes)

/-- Handle a partition directory, by a walk with a copy of the record. -/
def subkeyPartitionWalker (walk : Bytes → Bytes → RecState → ℤ × RecState) :
    WalkDirHandler (TSubkeyWalkerRec × List Bytes) :=
  fun _ aDir aItem (fs, aRec, keys) =>
    let vRec := { aRec with subkeyPart := aRec.subkeyPart ++ aItem.dName.tail }
    let (vCount, fs, _, keys) := walk aDir aItem.dName (fs, vRec, keys)
    if vCount > 0 then
      let aRec := { aRec with count := aRec.count + vCount.toNat }
      (if aRec.leftCount > 0 ∧ vCount ≥ aRec.leftCount then walkItemStop else walkItemOk,
        fs, aRec, keys)
    else (if vCount < 0 then walkItemError else walkItemOk, fs, aRec, keys)

/-- A pattern whose first character is a literal one. -/
def literalPattern : Option Bytes → Option Bytes
  | some (b :: bs) => if b ≠ 42 ∧ b ≠ 63 then some (b :: bs) else none
  | _ => none

/-- Walk through the normal keys of a directory, then through its partitions : all of
them, or the one of the pattern's first character. The walk goes at most `fuel` levels
deep. -/
def _iSubkeyWalk (host : Host) : ℕ → Bytes → Bytes → RecState → ℤ × RecState
  | 0, _, _, st => (-1, st)
  | fuel + 1, aDir, aKey, (fs, aRec, keys) =>
    let vDir := sdsJoinPathLen aDir aKey
    let (result, fs, aRec, keys) := walkDir vDir aRec.leftCount (some (subkeyWalker host)) host
      aRec.pattern listNormalDirs 0 (fs, aRec, keys)
    if result ≥ 0 ∧ (aRec.leftCount = 0 ∨ result < aRec.leftCount) then
      let aRec := { aRec with leftCount := sizeSub aRec.leftCount result.toNat }
      match literalPattern aRec.pattern with
      | some pattern =>
        match iterateUtf8Char pattern 6 with
        | .error _ => (-1, fs, aRec, keys)
        | .ok vIndexChar =>
          let vLen := vIndexChar.length
          let aRec := { aRec with
            subkeyPart := aRec.subkeyPart ++ pattern.take vLen
            pattern := some (pattern.drop vLen) }
          let (vCount, st) :=
            _iSubkeyWalk host fuel vDir (dot :: pattern.take vLen) (fs, aRec, keys)
          (result + intOf vCount, st)
      | none =>
        let vRec := { aRec with count := result.toNat }
        let (walked, fs, vRec, keys) := walkDir vDir aRec.leftCount
          (some (subkeyPartitionWalker (_iSubkeyWalk host fuel))) host none listHiddenDirs 0
          (fs, vRec, keys)
        (if walked ≥ 0 then vRec.count else walked, fs, aRec, keys)
    else (result, fs, aRec, keys)

/-- The levels that a walk has at most. A path follows `symloopMax` links, and each character of
the pattern may go up instead of down. -/
def walkFuel (t : FileTree Xattrs) (aPattern : Option Bytes) : ℕ :=
  (symloopMax + 1 + (aPattern.getD []).length) * (t.nodes.keys.length + 2)

/-- The walk of `iSubkeyWalk`, with its record as it is left. -/
def keyWalk (host : Host) (fs : FileSystem) (aDir aKey : Bytes) (aPattern : Option Bytes)
    (aSkipCount aCount : ℕ) (aProcessor : Option WalkKeyHandler)
    (aDuplicationKeyProcess : TIDBProcesses) : ℤ × RecState :=
  let vRec : TSubkeyWalkerRec := {
    pattern := aPattern
    subkeyPart := []
    count := 0
    leftCount := aCount
    skipCount := aSkipCount
    processor := aProcessor
    duplicationKeyProcess := aDuplicationKeyProcess }
  _iSubkeyWalk host (walkFuel fs.tree aPattern) aDir aKey (fs, vRec, [])

/-- The bytes of the block that `iSubkeyWalk` allocates for the key part. -/
def subkeyRoom : ℕ :=
  8

/-- Walk through the subkeys of a key. There is no result if the key part has left its block :
`sdsfree(vSubkeyPart)` then frees what `realloc` has freed. -/
def iSubkeyWalk (host : Host) (fs : FileSystem) (aDir aKey : Bytes) (aPattern : Option Bytes)
    (aSkipCount aCount : ℕ) (aProcessor : Option WalkKeyHandler)
    (aDuplicationKeyProcess : TIDBProcesses) : Option (ℤ × KeyState) :=
  let (result, fs, vRec, keys) :=
    keyWalk host fs aDir aKey aPattern aSkipCount aCount aProcessor aDuplicationKeyProcess
  if vRec.subkeyPart.length ≤ subkeyRoom then some (result, fs, keys) else none

/-- The number of all keys, in partitions or not, if the walk returns. -/
def iSubkeyTotal (host : Host) (fs : FileSystem) (aDir aKey : Bytes) (aPattern : Option Bytes)
    (aDuplicationKeyProcess : TIDBProcesses) : Option ℤ :=
  (iSubkeyWalk host fs aDir aKey aPattern 0 0 none aDuplicationKeyProcess).map (·.1)

/-- Collect a key, unless the policy takes it for a duplicate of one in the list. -/
def iSubkeysWalker (host : Host) (iDBDuplicationKeyProcess : TIDBProcesses) : WalkKeyHandler :=
  fun _ aDir aKey _ aDuplicationKeyProcess (fs, keys) =>
    if aDuplicationKeyProcess = .dkReserved then (walkItemOk, fs, keys ++ [aKey])
    else if aKey ∉ keys then (walkItemOk, fs, keys ++ [aKey])
    else
      match iDBDuplicationKeyProcess with
      | .dkFixed => (walkItemSkip, (deleteDir host fs aDir).1, keys)
      | .dkStopped => (walkItemError, fs, keys)
      | _ => (walkItemOk, fs, keys)

/-- The list of subkeys, or NULL, and the file system after it, if the walk returns. -/
def iSubkeys (host : Host) (iDBDuplicationKeyProcess : TIDBProcesses) (fs : FileSystem)
    (aDir aKey : Bytes) (aPattern : Option Bytes) (aSkipCount aCount : ℕ)
    (aDuplicationKeyProcess : TIDBProcesses) : Option (Option (List Bytes) × FileSystem) :=
  (iSubkeyWalk host fs aDir aKey aPattern aSkipCount aCount
    (some (iSubkeysWalker host iDBDuplicationKeyProcess)) aDuplicationKeyProcess).map
      fun (vCount, fs, keys) => (if vCount < 0 then none else some keys, fs)

end Idb
