import Idb.Sessions
import Idb.WorkingDir

/-!
# Operations of one backend

`iGet`, `iIsExists`, `iPut` and `iDelete` take a base directory, a key and a store type. For each
of them there is an operation on the path of the key that knows files only, and one that knows
extended attributes only, with its own copy of the search in the partitions. The copies do the
same (`splits`).
-/

namespace Idb

open Posix FileSystem FileTree

/-! ## The source -/

/-- `STORE_IN_XATTR`, with the bit 1 set. -/
def storeInXattr : ℤ :=
  2

section

variable (iDBMaxPageCount : ℤ) (host : Host) (fs : FileSystem) (aKeyPath : Bytes)

/-- The file is looked for at the path of the key, and then in the partitions. -/
def iIsExistsInFile (aAttribute : Option Bytes) : Bool :=
  if isDirValueExists fs aKeyPath aAttribute then true
  else if iDBMaxPageCount > 0 then
    match iIsKeyDirExists fs aKeyPath with
    | some vKeyPath => isDirValueExists fs vKeyPath aAttribute
    | none => false
  else false

/-- The same for an extended attribute. -/
def iIsExistsInXattr (aAttribute : Option Bytes) : Bool :=
  let s := generateXattrName aAttribute
  if isXattrExists fs aKeyPath s then true
  else if iDBMaxPageCount > 0 then
    match iIsKeyDirExists fs aKeyPath with
    | some vKeyPath => isXattrExists fs vKeyPath s
    | none => false
  else false

/-- The extended attribute at the path of the key, else the one in the partitions. -/
def iGetInXattr (aAttribute : Option Bytes) : Option Bytes :=
  let s := generateXattrName aAttribute
  match getXattr fs aKeyPath s with
  | some result => some result
  | none =>
    if iDBMaxPageCount > 0 then
      match iIsKeyDirExists fs aKeyPath with
      | some vDir => getXattr fs vDir s
      | none => none
    else none

/-- The directory of the key is made, and given the attribute. -/
def iPutInXattr (aValue : Bytes) (aAttribute : Option Bytes)
    (aPartitionFullProcess : TIDBProcesses) : FileSystem × ℤ :=
  let found :=
    if iDBMaxPageCount > 0 then
      iFindKeyDirToPut host fs aKeyPath iDBMaxPageCount aPartitionFullProcess
    else .ok aKeyPath
  match found with
  | .error errno => (fs, errno)
  | .ok vDir =>
    let result := directoryExists fs vDir
    let s := generateXattrName aAttribute
    if result = pathIsNotExists then setXattr (forceDirectories fs vDir).1 vDir s aValue
    else if result = pathIsDir then setXattr fs vDir s aValue
    else (fs, result)

/-- The file is deleted in the directory of the key, if there is one. -/
def iDeleteInFile (aAttribute : Option Bytes) : FileSystem × Bool :=
  let vDir :=
    if directoryExists fs aKeyPath ≠ pathIsDir ∧ iDBMaxPageCount > 0 then
      iIsKeyDirExists fs aKeyPath
    else some aKeyPath
  match vDir with
  | some vDir => delDirValue fs vDir aAttribute
  | none => (fs, false)

/-- The code of `DelXattr` is put into a `bool` before it is tested. -/
def iDeleteInXattr (aAttribute : Option Bytes) : FileSystem × Bool :=
  let vDir :=
    if directoryExists fs aKeyPath ≠ pathIsDir ∧ iDBMaxPageCount > 0 then
      iIsKeyDirExists fs aKeyPath
    else some aKeyPath
  match vDir with
  | some vDir =>
    let result := delXattr fs vDir (generateXattrName aAttribute)
    let failed : Bool := result.2 ≠ 0
    (result.1, if failed then false else true)
  | none => (fs, false)

end

/-! ## One backend -/

/-- The operations on the path of a key. -/
structure PathOperations where
  get : FileSystem → Bytes → Option Bytes → Option Bytes
  isExists : FileSystem → Bytes → Option Bytes → Bool
  put : FileSystem → Bytes → Bytes → Option Bytes → FileSystem × ℤ
  delete : FileSystem → Bytes → Option Bytes → FileSystem × Bool

section

variable (host : Host) (iDBMaxPageCount : ℤ) (iDBPartitionFullProcess : TIDBProcesses)

/-- The operations with `InFile` in their names. -/
def inFile : PathOperations where
  get := iGetInFile iDBMaxPageCount host
  isExists := iIsExistsInFile iDBMaxPageCount
  put fs path v a := iPutInFile host iDBMaxPageCount fs path v a iDBPartitionFullProcess
  delete := iDeleteInFile iDBMaxPageCount

/-- The operations with `InXattr` in their names. -/
def inXattr : PathOperations where
  get := iGetInXattr iDBMaxPageCount
  isExists := iIsExistsInXattr iDBMaxPageCount
  put fs path v a := iPutInXattr iDBMaxPageCount host fs path v a iDBPartitionFullProcess
  delete := iDeleteInXattr iDBMaxPageCount

/-- The operations with the store type `t` are those on the joined path : the results and the
files they leave. -/
structure SplitsInto (ops : PathOperations) (t : ℤ) : Prop where
  get : ∀ fs D k a, iGet host iDBMaxPageCount fs D k a t = ops.get fs (sdsJoinPathLen D k) a
  isExists : ∀ fs D k a,
    iIsExists iDBMaxPageCount fs D k a t = ops.isExists fs (sdsJoinPathLen D k) a
  put : ∀ fs D k v a, iPut host iDBMaxPageCount fs D iDBPartitionFullProcess (some k) v a t =
    ops.put fs (sdsJoinPathLen D k) v a
  delete : ∀ fs D k a, iDelete iDBMaxPageCount fs D k a t = ops.delete fs (sdsJoinPathLen D k) a

end

section

variable (host : Host) (fs : FileSystem) (path v : Bytes) (a : Option Bytes)

theorem _iGet_storeInXattr : _iGet host fs path a storeInXattr =
    getXattr fs path (generateXattrName a) := by
  simp [_iGet, storeInXattr, storeInXattrBit, storeInFileBit, Int.testBit, Nat.testBit]

theorem _iPut_storeInXattr : _iPut fs path v a storeInXattr =
    setXattr fs path (generateXattrName a) v := by
  simp [_iPut, storeInXattr, storeInXattrBit, storeInFileBit, Int.testBit, Nat.testBit]

theorem _deleleAttr_storeInXattr : _deleleAttr fs path a storeInXattr =
    ((delXattr fs path (generateXattrName a)).1,
      decide ((delXattr fs path (generateXattrName a)).2 = 0)) := by
  simp [_deleleAttr, storeInXattr, storeInXattrBit, Int.testBit, Nat.testBit]

theorem _attrIsExists_storeInXattr : _attrIsExists fs path a storeInXattr =
    isXattrExists fs path (generateXattrName a) := by
  simp [_attrIsExists, storeInXattr, storeInXattrBit, Int.testBit, Nat.testBit]

end

section

variable {host : Host} {M : ℤ} {policy : TIDBProcesses}

/-- With the type for files the operations are those on files. -/
theorem splitsInto_inFile : SplitsInto host M policy (inFile host M policy) storeInFile where
  get fs D k a := by
    simp only [iGet, _iGet_storeInFile]
    rfl
  isExists fs D k a := by
    simp only [iIsExists, _attrIsExists_storeInFile]
    rfl
  put fs D k v a := by
    simp only [iPut, _iPut_storeInFile, Option.getD_some, Option.isSome_some, true_and]
    rfl
  delete fs D k a := by
    simp only [iDelete, keyDirToDelete, _deleleAttr_storeInFile]
    rfl

/-- With the type for extended attributes the operations are those on extended attributes. -/
theorem splitsInto_inXattr : SplitsInto host M policy (inXattr host M policy) storeInXattr where
  get fs D k a := by
    simp only [iGet, _iGet_storeInXattr]
    rfl
  isExists fs D k a := by
    simp only [iIsExists, _attrIsExists_storeInXattr]
    rfl
  put fs D k v a := by
    simp only [iPut, _iPut_storeInXattr, Option.getD_some, Option.isSome_some, true_and]
    rfl
  delete fs D k a := by
    simp only [iDelete, keyDirToDelete, _deleleAttr_storeInXattr, inXattr, iDeleteInXattr]
    split <;> simp [*]

end

/-- Either backend has the operations of its store type, for every tree, with files in the way
or duplicates. -/
theorem splits (host : Host) (M : ℤ) (policy : TIDBProcesses) :
    SplitsInto host M policy (inFile host M policy) storeInFile ∧
      SplitsInto host M policy (inXattr host M policy) storeInXattr :=
  ⟨splitsInto_inFile, splitsInto_inXattr⟩

end Idb
