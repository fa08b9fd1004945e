import Idb.Levels
import Idb.SystemCalls

/-!
# The partition walk, one system call at a time

With a page limit a put looks for a directory that is not full, and counts what is in the ones on
the way. Here this is a program of system calls too. A put that nothing comes between does what
`iPut` does (`Calls.iPut_alone`).

A directory is read when it is opened. What others make in it afterwards is not counted.
-/

namespace Idb

open Posix FileSystem FileTree Interleaving

namespace Calls

/-! ## Programs -/

/-- The type of an entry, from `readdir` or from `lstat`. -/
def itemType (aDir : Bytes) (item : Dirent) : Program (Option FileType) :=
  match item.dType with
  | some type => pure (some type)
  | none => do
    match ← lstat (itemPath aDir item.dName) with
    | .error _ => pure none
    | .ok n => pure (some n.fileType)

/-- The options select an entry of this type. A link is followed. -/
def typeSelected (aDir : Bytes) (aOptions : ℕ) (item : Dirent) : FileType → Program Bool
  | .dir => pure (aOptions.testBit listDir)
  | .reg => pure (aOptions.testBit listFile)
  | .lnk =>
    if aOptions.testBit listSymbolic || aOptions.testBit listSymbolicNone then do
      match ← stat (itemPath aDir item.dName) with
      | .ok n =>
        pure (aOptions.testBit listSymbolic &&
          if n.isDir then aOptions.testBit listDir else aOptions.testBit listFile)
      | .error e => pure (e = .enoent && aOptions.testBit listSymbolicNone)
    else pure false

section

variable (host : Host)

/-- The loop of `WalkDir` without a processor, from `vTotal` on. -/
def countLoop (aDir : Bytes) (aPattern : Option Bytes) (aOptions : ℕ) :
    List Dirent → ℕ → Program (Option ℕ)
  | [], vTotal => pure (some vTotal)
  | item :: items, vTotal =>
    if ¬shown aOptions item.dName then countLoop aDir aPattern aOptions items vTotal
    else do
      match ← itemType aDir item with
      | none => pure none
      | some type =>
        let selected ← typeSelected aDir aOptions item type
        countLoop aDir aPattern aOptions items
          (if selected && fnmMatched host aPattern item.dName then vTotal + 1 else vTotal)

/-- The number of selected entries, -1 if the walk fails. -/
def countDir (aDir : Bytes) (aPattern : Option Bytes) (aOptions : ℕ) : Program ℤ := do
  match ← openDir aDir with
  | .error _ => pure (-1)
  | .ok items =>
    match ← countLoop host aDir aPattern aOptions items 0 with
    | none => pure (-1)
    | some vTotal => pure vTotal

/-- The number as a `size_t`. -/
def iSubkeyCount (aKeyPath : Bytes) (aPattern : Option Bytes) : Program ℕ := do
  let vCount ← countDir host aKeyPath aPattern listNormalDirs
  pure (sizeT vCount)

/-- The loop goes on to the next partition while the one it is in is full and the key is not there.
-/
def findLoop (aMaxItemCount : ℤ) : ℕ → Bytes → Bytes → Program FindEnd
  | 0, vDir, s => pure (.stop vDir s)
  | fuel + 1, vDir, s =>
    match firstChar s with
    | .error vLen => pure (.error vLen)
    | .ok vUtf8Char =>
      let rest := s.drop vUtf8Char.length
      if rest = [] then pure (.last vDir vUtf8Char)
      else do
        let vDir := joinPart vDir vUtf8Char
        let vDirExists ← directoryExists vDir
        if vDirExists = pathIsDir then do
          let vTempDirExists ← directoryExists (sdsJoinPathLen vDir rest)
          if vTempDirExists = pathIsDir then pure (.stop vDir rest)
          else do
            let vCount ← iSubkeyCount host vDir none
            if vCount < sizeT aMaxItemCount then pure (.stop vDir rest)
            else findLoop aMaxItemCount fuel vDir rest
        else pure (.stop vDir rest)

/-- The search for a place, with a call for each look. -/
def iFindKeyDirToPut (aDir : Bytes) (aMaxItemCount : ℤ) (aPartitionFullProcess : TIDBProcesses) :
    Program (Except ℤ Bytes) := do
  let vDirExists ← directoryExists aDir
  if vDirExists = pathIsDir then pure (.ok aDir)
  else
    match extractLastPathName aDir with
    | (vDir, none) => do
      -- What is left of the path is empty, and names no directory.
      let _ ← directoryExists vDir
      pure (.ok vDir)
    | (vDir, some vKey) => do
      let vDirExists ← directoryExists vDir
      if vDirExists = pathIsDir then do
        let vCount ← iSubkeyCount host vDir none
        if vCount ≥ sizeT aMaxItemCount then do
          let found ← findLoop host aMaxItemCount vKey.length vDir vKey
          pure (placeFound aPartitionFullProcess found)
        else pure (.ok (sdsJoinPathLen vDir vKey))
      else pure (.ok (sdsJoinPathLen vDir vKey))

/-- A put to a file. From the directory on that is found it goes on like `iPutInFile`. -/
def iPut (iDBMaxPageCount : ℤ) (aDir : Bytes) (iDBPartitionFullProcess : TIDBProcesses)
    (aKey aValue : Bytes) (aAttribute : Option Bytes) : Program ℤ := do
  let vDir := sdsJoinPathLen aDir aKey
  let found ←
    if iDBMaxPageCount > 0 then
      iFindKeyDirToPut host vDir iDBMaxPageCount iDBPartitionFullProcess
    else pure (.ok vDir)
  match found with
  | .error errno => pure errno
  | .ok vDir => iPutInFile vDir aValue aAttribute

end

/-! ## Nothing in between -/

section

variable (host : Host) (fs : FileSystem)

/-- Alone, the item's type is that of the sequential code. -/
theorem itemType_alone (aDir : Bytes) (item : Dirent) :
    (itemType aDir item).alone (sysCall host) fs = (fs, Idb.itemType fs aDir item) := by
  rw [itemType, Idb.itemType]
  cases item.dType with
  | some type => rfl
  | none =>
    simp only [Prog.bind_eq, lstat, Prog.bind, Prog.alone, sysCall]
    cases fs.lstat (itemPath aDir item.dName) <;> rfl

/-- Alone, the type test is that of the sequential code. -/
theorem typeSelected_alone (aDir : Bytes) (aOptions : ℕ) (item : Dirent) (type : FileType) :
    (typeSelected aDir aOptions item type).alone (sysCall host) fs =
      (fs, Idb.typeSelected fs aDir aOptions item type) := by
  cases type with
  | dir => rfl
  | reg => rfl
  | lnk =>
    rw [typeSelected, Idb.typeSelected]
    split_ifs with hlinks
    · simp only [Prog.bind_eq, stat, Prog.bind, Prog.alone, sysCall]
      cases fs.stat (itemPath aDir item.dName) <;> rfl
    · rw [Bool.or_eq_true, not_or, Bool.not_eq_true, Bool.not_eq_true] at hlinks
      rw [hlinks.1, hlinks.2]
      cases fs.stat (itemPath aDir item.dName) <;> simp [Prog.pure_eq, Prog.alone]

/-- What a walk that counts has counted, if it did not fail. -/
def counted (w : Walk Unit) : Option ℕ :=
  if w.vStopped ≤ walkItemError then none else some w.vTotal

/-- Alone, the counting loop is `WalkDir`'s loop without a processor. -/
theorem countLoop_alone (aDir : Bytes) (aPattern : Option Bytes) (aOptions : ℕ)
    (items : List Dirent) (vTotal : ℕ) :
    (countLoop host aDir aPattern aOptions items vTotal).alone (sysCall host) fs =
      (fs, counted (walkLoop aDir 0 none host aPattern aOptions items ⟨vTotal, 0, 0, fs, ()⟩)) := by
  induction items generalizing vTotal with
  | nil => rfl
  | cons item items ih =>
    have hgo : ¬(0 : ℤ) ≤ walkItemStop := by decide
    rw [countLoop, walkLoop, if_neg hgo]
    by_cases hshown : shown aOptions item.dName
    · rw [if_neg (by simp [hshown]), if_neg (by simp [hshown]), Prog.bind_eq, Prog.alone_bind,
        itemType_alone]
      dsimp only
      cases Idb.itemType fs aDir item with
      | none => rfl
      | some type =>
        simp only [Prog.bind_eq, Prog.alone_bind, typeSelected_alone, ih]
        cases Idb.typeSelected fs aDir aOptions item type && fnmMatched host aPattern item.dName <;>
          rfl
    · rw [if_pos (by simp [hshown]), if_pos (by simp [hshown])]
      exact ih vTotal

/-- Alone, `iSubkeyCount` is the sequential one. -/
theorem iSubkeyCount_alone (aKeyPath : Bytes) (aPattern : Option Bytes) :
    (iSubkeyCount host aKeyPath aPattern).alone (sysCall host) fs =
      (fs, Idb.iSubkeyCount host fs aKeyPath aPattern) := by
  rw [iSubkeyCount, countDir, Idb.iSubkeyCount, Idb.countDir, walkDir]
  simp only [Prog.bind_eq, Prog.alone_bind, openDir, Prog.alone, sysCall]
  cases host.entries fs aKeyPath with
  | error e => rfl
  | ok items =>
    simp only [Prog.alone_bind, countLoop_alone]
    rw [counted]
    split_ifs <;> rfl

/-- Alone, the page loop is the sequential one. -/
theorem findLoop_alone (M : ℤ) (fuel : ℕ) (vDir s : Bytes) :
    (findLoop host M fuel vDir s).alone (sysCall host) fs =
      (fs, Idb.findLoop host fs M fuel vDir s) := by
  induction fuel generalizing vDir s with
  | zero => rfl
  | succ fuel ih =>
    rw [findLoop, Idb.findLoop]
    cases firstChar s with
    | error e => rfl
    | ok c =>
      dsimp only
      split_ifs with hrest hdir hkey hcount
      · rfl
      all_goals
        simp only [Prog.bind_eq, Prog.alone_bind, directoryExists_alone, hdir, if_true, if_false]
      · simp only [hkey, if_true]
        rfl
      · simp only [hkey, if_false, Prog.alone_bind, iSubkeyCount_alone, hcount, if_true]
        rfl
      · simp only [hkey, if_false, Prog.alone_bind, iSubkeyCount_alone, hcount, ih]
      · rfl

/-- Alone, `iFindKeyDirToPut` is the sequential one. -/
theorem iFindKeyDirToPut_alone (aDir : Bytes) (M : ℤ) (policy : TIDBProcesses) :
    (iFindKeyDirToPut host aDir M policy).alone (sysCall host) fs =
      (fs, Idb.iFindKeyDirToPut host fs aDir M policy) := by
  rw [iFindKeyDirToPut, Idb.iFindKeyDirToPut, Prog.bind_eq, Prog.alone_bind, directoryExists_alone]
  dsimp only
  split_ifs with hdir
  · rfl
  · rcases extractLastPathName aDir with ⟨vDir, vKey | vKey⟩
    · dsimp only
      rw [Prog.bind_eq, Prog.alone_bind, directoryExists_alone]
      rfl
    · dsimp only
      rw [Prog.bind_eq, Prog.alone_bind, directoryExists_alone]
      dsimp only
      by_cases hparent : Idb.directoryExists fs vDir = pathIsDir
      · rw [if_pos hparent, Prog.bind_eq, Prog.alone_bind, iSubkeyCount_alone]
        dsimp only
        split_ifs with hfull hboth
        · rw [Prog.bind_eq, Prog.alone_bind, findLoop_alone]
          cases Idb.findLoop host fs M vKey.length vDir vKey <;> rfl
        · exact absurd ⟨hparent, hfull⟩ hboth
        · next hboth => exact absurd hboth.2 hfull
        · rfl
      · rw [if_neg hparent, if_neg fun h => hparent h.1]
        rfl

/-- A put that nothing comes between does what `iPut` does. -/
theorem iPut_alone (M : ℤ) (aDir : Bytes) (policy : TIDBProcesses) (aKey v : Bytes)
    (a : Option Bytes) : (iPut host M aDir policy aKey v a).alone (sysCall host) fs =
      Idb.iPut host M fs aDir policy (some aKey) v a storeInFile := by
  rw [iPut, Idb.iPut]
  by_cases hM : M > 0
  · simp only [hM, if_true, Option.isSome_some, and_self, Option.getD_some, Prog.bind_eq,
      Prog.alone_bind, iFindKeyDirToPut_alone]
    cases Idb.iFindKeyDirToPut host fs (sdsJoinPathLen aDir aKey) M policy with
    | error e => rfl
    | ok path => exact iPutInFile_alone_storeInFile host fs path v a
  · simp only [hM, if_false, and_false, Option.getD_some]
    exact iPutInFile_alone_storeInFile host fs _ v a

end

end Calls

end Idb
