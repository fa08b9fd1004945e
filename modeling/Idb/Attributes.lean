import Idb.ForceDirectories
import Idb.DeleteDir
import Idb.Levels
import Mathlib.Data.Int.Bitwise

/-!
# Keys and attributes

The operations on a key : put, get, test and delete an attribute, test and delete the
key. An attribute is stored as a file in the key's directory, as an extended attribute
of it, or both. With a page limit a key is looked for at its plain path first, then in
the partitions.
-/

namespace Idb

open Posix FileSystem FileTree

/-! ## Attribute files -/

/-- `IDB_VALUE_NAME`, the default attribute. -/
def idbValueName : Bytes :=
  [46, 118, 97, 108, 117, 101]

/-- The path of the file of an attribute. NULL and the empty string stand for `.value`. -/
def makeAttrFileName (aDir : Bytes) (aAttribute : Option Bytes) : Bytes :=
  match aAttribute with
  | some (b :: bs) => sdsJoinPathLen aDir (b :: bs)
  | _ => sdsJoinPathLen aDir idbValueName

/-- The file of an attribute is removed. -/
def delDirValue (fs : FileSystem) (aDir : Bytes) (aAttribute : Option Bytes) :
    FileSystem × Bool :=
  ofResult fs (fs.unlink (makeAttrFileName aDir aAttribute))

/-- An attribute exists if its path names a file. Other than a directory is a file here. -/
def isDirValueExists (fs : FileSystem) (aDir : Bytes) (aAttribute : Option Bytes) : Bool :=
  directoryExists fs (makeAttrFileName aDir aAttribute) = pathIsFile

/-- The whole file, if the call returns : it aborts if the file is too long for a string. A
directory can be opened for reading too. -/
def getDirValue (host : Host) (fs : FileSystem) (aDir : Bytes) (aAttribute : Option Bytes) :
    Option Bytes :=
  match fs.stat (makeAttrFileName aDir aAttribute) with
  | .ok (.file content _) => some content
  | .ok (.dir _) => host.dirBytes
  | _ => none

/-- Replace the file, or create it. The value is not longer than what one `write` transfers. -/
def setDirValue (fs : FileSystem) (aDir aValue : Bytes) (aAttribute : Option Bytes) :
    FileSystem × Bool :=
  ofResult fs (fs.write (makeAttrFileName aDir aAttribute) aValue)

/-! ## Extended attributes -/

/-- `XATTR_PREFIX`. -/
def xattrPrefix : Bytes :=
  [117, 115, 101, 114, 46]

/-- The name of an extended attribute. A dot at the start is left out. -/
def generateXattrName (aAttribute : Option Bytes) : Bytes :=
  match aAttribute with
  | none => xattrPrefix ++ idbValueName.tail
  | some a => xattrPrefix ++ if a.head? = some dot then a.tail else a

/-- The number of an error code. -/
def errnoCode : Errno → ℤ
  | .enoent => 2
  | .ebusy => 16
  | .eexist => 17
  | .enotdir => 20
  | .eisdir => 21
  | .einval => 22
  | .enotempty => 39
  | .eloop => 40
  | .enodata => 61
  | .erange => 34
  | .e2big => 7

theorem errnoCode_ne_zero (e : Errno) : errnoCode e ≠ 0 := by
  cases e <;> decide

/-- `getxattr` finds the attribute. -/
def isXattrExists (fs : FileSystem) (aFile aKey : Bytes) : Bool :=
  (fs.getxattr aFile aKey).toOption.isSome

/-- The value of an extended attribute, NULL if `getxattr` fails. -/
def getXattr (fs : FileSystem) (aFile aKey : Bytes) : Option Bytes :=
  (fs.getxattr aFile aKey).toOption

/-- The state after a call, and 0 or the error code. -/
def codeResult (fs : FileSystem) (r : Except Errno FileSystem) : FileSystem × ℤ :=
  match r with
  | .ok fs' => (fs', 0)
  | .error e => (fs, errnoCode e)

/-- The result is 0 or the error of `setxattr`. -/
def setXattr (fs : FileSystem) (aFile aKey aValue : Bytes) : FileSystem × ℤ :=
  codeResult fs (fs.setxattr aFile aKey aValue)

/-- The result is 0 or the error of `removexattr`. -/
def delXattr (fs : FileSystem) (aFile aKey : Bytes) : FileSystem × ℤ :=
  codeResult fs (fs.removexattr aFile aKey)

/-! ## The store types -/

/-- `ENOEXEC`, which means that the store type selects no operation. -/
def enoexec : ℤ :=
  8

/-- `STORE_IN_FILE`, with the bit 0 set. -/
def storeInFile : ℤ :=
  1

/-- The bit of a store type for attributes in files. -/
def storeInFileBit : ℕ :=
  0

/-- The bit of a store type for extended attributes. -/
def storeInXattrBit : ℕ :=
  1

/-- The extended attribute is asked for first, and the file if it is missing. -/
def _iGet (host : Host) (fs : FileSystem) (aDir : Bytes) (aAttribute : Option Bytes)
    (aStoreType : ℤ) : Option Bytes :=
  let result :=
    if aStoreType.testBit storeInXattrBit then getXattr fs aDir (generateXattrName aAttribute)
    else none
  if result.isNone ∧ aStoreType.testBit storeInFileBit then getDirValue host fs aDir aAttribute
  else result

/-- A value is written to both stores. The result of the file replaces that of the extended
attribute, and with neither it is `ENOEXEC`. -/
def _iPut (fs : FileSystem) (aDir aValue : Bytes) (aAttribute : Option Bytes)
    (aStoreType : ℤ) : FileSystem × ℤ :=
  let result :=
    if aStoreType.testBit storeInXattrBit then
      setXattr fs aDir (generateXattrName aAttribute) aValue
    else (fs, enoexec)
  if aStoreType.testBit storeInFileBit then
    let written := setDirValue result.1 aDir aValue aAttribute
    (written.1, if written.2 then 0 else 1)
  else result

/-- Both stores are tried. The file decides on the result if it is asked for. -/
def _deleleAttr (fs : FileSystem) (aDir : Bytes) (aAttribute : Option Bytes)
    (aStoreType : ℤ) : FileSystem × Bool :=
  if aStoreType.testBit storeInXattrBit then
    let result := delXattr fs aDir (generateXattrName aAttribute)
    (result.1, result.2 = 0)
  else if aStoreType.testBit storeInFileBit then delDirValue fs aDir aAttribute
  else (fs, false)

/-- Only one store is asked, the extended attributes first. -/
def _attrIsExists (fs : FileSystem) (aDir : Bytes) (aAttribute : Option Bytes)
    (aStoreType : ℤ) : Bool :=
  if aStoreType.testBit storeInXattrBit then
    isXattrExists fs aDir (generateXattrName aAttribute)
  else if aStoreType.testBit storeInFileBit then isDirValueExists fs aDir aAttribute
  else false

/-! ## The operations on a key -/

section

variable (host : Host) (iDBMaxPageCount : ℤ) (fs : FileSystem) (aDir : Bytes)

/-- The attribute is looked for at the plain path of the key, and then in the partitions. -/
def iIsExists (aKey : Bytes) (aAttribute : Option Bytes) (aStoreType : ℤ) : Bool :=
  let vDir := sdsJoinPathLen aDir aKey
  if _attrIsExists fs vDir aAttribute aStoreType then true
  else if iDBMaxPageCount > 0 then
    match iIsKeyDirExists fs vDir with
    | some vDir => _attrIsExists fs vDir aAttribute aStoreType
    | none => false
  else false

/-- The value at the plain path of the key, else the one in the partitions. -/
def iGet (aKey : Bytes) (aAttribute : Option Bytes) (aStoreType : ℤ) : Option Bytes :=
  let vDir := sdsJoinPathLen aDir aKey
  match _iGet host fs vDir aAttribute aStoreType with
  | some result => some result
  | none =>
    if iDBMaxPageCount > 0 then
      match iIsKeyDirExists fs vDir with
      | some vDir => _iGet host fs vDir aAttribute aStoreType
      | none => none
    else none

/-- Put an attribute of a key, which is created when it is new. A NULL key means `aDir`
itself. -/
def iPut (iDBPartitionFullProcess : TIDBProcesses) (aKey : Option Bytes) (aValue : Bytes)
    (aAttribute : Option Bytes) (aStoreType : ℤ) : FileSystem × ℤ :=
  let vDir := sdsJoinPathLen aDir (aKey.getD [])
  let found :=
    if aKey.isSome ∧ iDBMaxPageCount > 0 then
      iFindKeyDirToPut host fs vDir iDBMaxPageCount iDBPartitionFullProcess
    else .ok vDir
  match found with
  | .error errno => (fs, errno)
  | .ok vDir =>
    let result := directoryExists fs vDir
    if result = pathIsNotExists then
      _iPut (forceDirectories fs vDir).1 vDir aValue aAttribute aStoreType
    else if result = pathIsDir then _iPut fs vDir aValue aAttribute aStoreType
    else (fs, result)

/-- Where a key that may be deleted lies : its plain path, or its place in the
partitions. -/
def keyDirToDelete (aKey : Bytes) : Option Bytes :=
  let vDir := sdsJoinPathLen aDir aKey
  if directoryExists fs vDir ≠ pathIsDir ∧ iDBMaxPageCount > 0 then iIsKeyDirExists fs vDir
  else some vDir

/-- An attribute is deleted in the directory of its key, if there is one. -/
def iDelete (aKey : Bytes) (aAttribute : Option Bytes) (aStoreType : ℤ) : FileSystem × Bool :=
  match keyDirToDelete iDBMaxPageCount fs aDir aKey with
  | some vDir => _deleleAttr fs vDir aAttribute aStoreType
  | none => (fs, false)

/-- Delete the key, including its subkeys. -/
def iKeyDelete (aKey : Bytes) : FileSystem × Bool :=
  match keyDirToDelete iDBMaxPageCount fs aDir aKey with
  | some vDir => deleteDir host fs vDir
  | none => (fs, false)

/-- What is at the plain path of the key, or in the partitions. -/
def iKeyIsExists (aKey : Bytes) : ℤ :=
  let vDir := sdsJoinPathLen aDir aKey
  let result := directoryExists fs vDir
  if result ≠ pathIsDir ∧ iDBMaxPageCount > 0 then
    match iIsKeyDirExists fs vDir with
    | some vDir => directoryExists fs vDir
    | none => result
  else result

end

end Idb
