import Idb.Shape

/-!
# Puts whose writes fail

`iPut` when one of the two writes of the attribute fails, or both. What was made before a write
fails stays, and a file that was opened has been emptied.
-/

namespace Idb

open Posix FileSystem FileTree

/-! ## The source -/

/-- How the system fails to write a file. -/
inductive FileFault where
  /-- `open` is refused. -/
  | opening
  /-- `open` has truncated or created the file, and `write` fails or is short, after so many
  bytes. -/
  | writing (written : ℕ)
  deriving DecidableEq

/-- The writes of an attribute that fail. -/
structure Faults where
  /-- The error code with which the extended attribute is refused. -/
  xattr : Option {errno : ℤ // errno ≠ 0}
  file : Option FileFault

/-- Nothing fails. -/
def Faults.none : Faults :=
  ⟨.none, .none⟩

/-- What a failed write leaves of the value : not all of it. -/
def leftOf (v : Bytes) (written : ℕ) : Bytes :=
  v.dropLast.take written

section

variable (faults : Faults) (fs : FileSystem)

/-- `setxattr` may fail. -/
def setXattrWith (aFile aKey aValue : Bytes) : FileSystem × ℤ :=
  match faults.xattr with
  | some errno => (fs, errno)
  | none => setXattr fs aFile aKey aValue

/-- `open` may fail, and `write` may fail or be cut short. By then the file is empty. -/
def setDirValueWith (aDir aValue : Bytes) (aAttribute : Option Bytes) : FileSystem × Bool :=
  match faults.file with
  | none => setDirValue fs aDir aValue aAttribute
  | some .opening => (fs, false)
  | some (.writing written) => ((setDirValue fs aDir (leftOf aValue written) aAttribute).1, false)

/-- `_iPut` with these faults. -/
def _iPutWith (aDir aValue : Bytes) (aAttribute : Option Bytes) (aStoreType : ℤ) :
    FileSystem × ℤ :=
  let result :=
    if aStoreType.testBit storeInXattrBit then
      setXattrWith faults fs aDir (generateXattrName aAttribute) aValue
    else (fs, enoexec)
  if aStoreType.testBit storeInFileBit then
    let written := setDirValueWith faults result.1 aDir aValue aAttribute
    (written.1, if written.2 then 0 else 1)
  else result

end

section

variable (host : Host) (iDBMaxPageCount : ℤ) (faults : Faults) (fs : FileSystem) (aDir : Bytes)
  (iDBPartitionFullProcess : TIDBProcesses) (aKey : Option Bytes)

/-- The directory that a put writes to, or the error code. -/
def putDir : Except ℤ Bytes :=
  let vDir := sdsJoinPathLen aDir (aKey.getD [])
  if aKey.isSome ∧ iDBMaxPageCount > 0 then
    iFindKeyDirToPut host fs vDir iDBMaxPageCount iDBPartitionFullProcess
  else .ok vDir

/-- `iPut` with these faults. -/
def iPutWith (aValue : Bytes) (aAttribute : Option Bytes) (aStoreType : ℤ) : FileSystem × ℤ :=
  match putDir host iDBMaxPageCount fs aDir iDBPartitionFullProcess aKey with
  | .error errno => (fs, errno)
  | .ok vDir =>
    let result := directoryExists fs vDir
    if result = pathIsNotExists then
      _iPutWith faults (forceDirectories fs vDir).1 vDir aValue aAttribute aStoreType
    else if result = pathIsDir then _iPutWith faults fs vDir aValue aAttribute aStoreType
    else (fs, result)

variable {host iDBMaxPageCount fs aDir iDBPartitionFullProcess aKey}

/-- If nothing is refused, this is `iPut`. -/
theorem iPutWith_none (aValue : Bytes) (aAttribute : Option Bytes) (aStoreType : ℤ) :
    iPutWith host iDBMaxPageCount Faults.none fs aDir iDBPartitionFullProcess aKey aValue
        aAttribute aStoreType =
      iPut host iDBMaxPageCount fs aDir iDBPartitionFullProcess aKey aValue aAttribute
        aStoreType :=
  rfl

/-- The state in which a put writes to the directory `vDir`. -/
def withDir (fs : FileSystem) (vDir : Bytes) : FileSystem :=
  if directoryExists fs vDir = pathIsNotExists then (forceDirectories fs vDir).1 else fs

/-- A put writes to the directory it chose, or returns `PATH_IS_FILE`. -/
theorem iPutWith_ok {faults : Faults} {vDir : Bytes}
    (h : putDir host iDBMaxPageCount fs aDir iDBPartitionFullProcess aKey = .ok vDir)
    (aValue : Bytes) (aAttribute : Option Bytes) (aStoreType : ℤ) :
    (directoryExists fs vDir = pathIsFile ∧
      iPutWith host iDBMaxPageCount faults fs aDir iDBPartitionFullProcess aKey aValue aAttribute
        aStoreType = (fs, pathIsFile)) ∨
    (directoryExists fs vDir ≠ pathIsFile ∧
      iPutWith host iDBMaxPageCount faults fs aDir iDBPartitionFullProcess aKey aValue aAttribute
        aStoreType = _iPutWith faults (withDir fs vDir) vDir aValue aAttribute aStoreType) := by
  rw [iPutWith, h, withDir]
  dsimp only
  split_ifs with hmissing hdir
  · exact Or.inr ⟨by rw [hmissing]; decide, rfl⟩
  · exact Or.inr ⟨by rw [hdir]; decide, rfl⟩
  · have hfile := (directoryExists_cases fs vDir).resolve_left hmissing |>.resolve_left hdir
    exact Or.inl ⟨hfile, by rw [hfile]⟩

end

/-! ## What the writes do -/

section

variable {faults : Faults} {fs : FileSystem} {path v : Bytes} {a : Option Bytes} {t : ℤ}

/-- The extended attributes at a place. -/
def xattrsAt (fs : FileSystem) (l : Loc) : Xattrs :=
  match fs.tree.get l with
  | some n => nodeXattrs n
  | none => fun _ => none

/-- `fs'` is `fs` with the extended attribute `name` of the node at `l`. -/
structure XattrSet (fs fs' : FileSystem) (l : Loc) (name v : Bytes) : Prop where
  cwd_eq : fs'.cwd = fs.cwd
  noLink : fs.tree.NoLink l
  updated : ∃ n, fs.tree.get l = some n ∧ fs.tree.Updated fs'.tree l
    (some (n.mapMeta fun x m => if m = name then some v else x m))

/-- `fs'` is `fs` with the file of content `v` at `l`, which keeps its extended attributes. -/
structure FileSet (fs fs' : FileSystem) (l : Loc) (v : Bytes) : Prop where
  cwd_eq : fs'.cwd = fs.cwd
  noLink : fs.tree.NoLink l
  isFile : fs.tree.isDir l = false
  updated : fs.tree.Updated fs'.tree l (some (.file v (xattrsAt fs l)))

/-- The extended attribute is written if a node takes it : no fault refuses it, nor do its name or
its value. -/
def TakesXattr (faults : Faults) (name v : Bytes) : Prop :=
  faults.xattr = none ∧ xattrRefused name v = none

theorem setxattr_eq {name : Bytes} (h : xattrRefused name v = none) : fs.setxattr path name v =
    fs.modify true path (fs.tree.setMeta fun x m => if m = name then some v else x m) := by
  rw [setxattr, h]

/-- A write of an extended attribute is refused, or done. -/
theorem setXattrWith_cases (faults : Faults) (fs : FileSystem) (path name v : Bytes) :
    ((setXattrWith faults fs path name v).1 = fs ∧ (setXattrWith faults fs path name v).2 ≠ 0) ∨
    (TakesXattr faults name v ∧ (setXattrWith faults fs path name v).2 = 0 ∧
      ∃ l, fs.resolve true path = .ok l ∧
        XattrSet fs (setXattrWith faults fs path name v).1 l name v) := by
  unfold setXattrWith TakesXattr
  cases faults.xattr with
  | some errno => exact Or.inl ⟨rfl, errno.2⟩
  | none =>
    simp only [setXattr]
    cases hs : fs.setxattr path name v with
    | error e => exact Or.inl ⟨rfl, errnoCode_ne_zero e⟩
    | ok fs' =>
      cases hr : xattrRefused name v with
      | some e => simp [setxattr, hr] at hs
      | none =>
        rw [setxattr_eq hr] at hs
        obtain ⟨l, hl, ho, hc⟩ := modify_ok hs
        obtain ⟨n, hg, hnl, hu⟩ := setMeta_ok ho
        exact Or.inr ⟨⟨trivial, rfl⟩, rfl, l, hl, hc, hnl, n, hg, hu⟩

/-- A file that could be written. -/
theorem write_ok {fs' : FileSystem} (h : fs.write path v = .ok fs') :
    ∃ l, fs.resolve true path = .ok l ∧ FileSet fs fs' l v := by
  obtain ⟨l, hl, ho, hc⟩ := modify_ok h
  obtain ⟨x, hd, hnl, hu⟩ := writeFile_ok ho
  have hx : x = xattrsAt fs l := by
    have hnew := hu l
    rw [if_pos rfl] at hnew
    rcases writeFile_meta ho with ⟨hg, hg'⟩ | ⟨old, y, hg, hg'⟩ <;>
      rw [hnew, Option.some.injEq, Node.file.injEq] at hg' <;>
      rw [hg'.2, xattrsAt, hg]
    rfl
  exact ⟨l, hl, hc, hnl, hd, hx ▸ hu⟩

/-- What a write leaves in a file that was opened. -/
def Faults.content (faults : Faults) (v : Bytes) : Bytes :=
  match faults.file with
  | some (.writing written) => leftOf v written
  | _ => v

/-- A write of a file fails and does nothing, or it leaves a content in the file. -/
theorem setDirValueWith_cases (faults : Faults) (fs : FileSystem) (path v : Bytes)
    (a : Option Bytes) :
    (setDirValueWith faults fs path v a = (fs, false) ∧ (faults.file = some .opening ∨
      ∀ fs', fs.write (makeAttrFileName path a) (faults.content v) ≠ .ok fs')) ∨
    (faults.file ≠ some .opening ∧
      ((setDirValueWith faults fs path v a).2 = true ↔ faults.file = none) ∧
      fs.write (makeAttrFileName path a) (faults.content v) =
        .ok (setDirValueWith faults fs path v a).1) := by
  unfold setDirValueWith Faults.content
  rcases faults.file with - | - | written
  · rw [setDirValue]
    cases hs : fs.write (makeAttrFileName path a) v with
    | error e => exact Or.inl ⟨rfl, Or.inr (by simp)⟩
    | ok fs' => exact Or.inr ⟨by simp, by simp [ofResult], rfl⟩
  · exact Or.inl ⟨rfl, Or.inl rfl⟩
  · dsimp only
    rw [setDirValue]
    cases hs : fs.write (makeAttrFileName path a) (leftOf v written) with
    | error e => exact Or.inl ⟨rfl, Or.inr (by simp)⟩
    | ok fs' => exact Or.inr ⟨by simp, by simp, rfl⟩

theorem Faults.content_of_none (h : faults.file = .none) : faults.content v = v := by
  rw [content, h]

theorem XattrSet.shape {fs' : FileSystem} {l : Loc} {name : Bytes}
    (h : XattrSet fs fs' l name v) : SameShape fs fs' := by
  obtain ⟨n, hg, hu⟩ := h.updated
  exact sameShape_mapMeta h.cwd_eq hg h.noLink hu

theorem FileSet.shape {fs' : FileSystem} {l : Loc} (h : FileSet fs fs' l v) : SameShape fs fs' := by
  refine SameShape.of_updated h.cwd_eq h.updated ?_ fun target => ?_
  · simp [h.isFile, Node.isDir]
  · simp [h.noLink target]

/-- What resolves to a node with metadata takes an extended attribute. -/
theorem setXattrWith_at {name : Bytes} {l : Loc} (hx : TakesXattr faults name v)
    (hr : fs.resolve true path = .ok l) (hn : fs.tree.get l ≠ none) (hl : fs.tree.NoLink l) :
    (setXattrWith faults fs path name v).2 = 0 := by
  obtain ⟨t', ht'⟩ := setMeta_eq (fun (x : Xattrs) m => if m = name then some v else x m) hn hl
  simp only [setXattrWith, hx.1, setXattr, setxattr_eq hx.2, modify_eq hr ht']
  rfl

theorem setXattrWith_dir {name : Bytes} {p : Loc} (hx : TakesXattr faults name v)
    (h : fs.At path p) : (setXattrWith faults fs path name v).2 = 0 :=
  setXattrWith_at hx h.resolve (get_ne_none_of_isDir h.isDir) (noLink_of_isDir h.isDir)

/-- The part of a write that concerns the extended attribute. -/
def xattrPart (faults : Faults) (fs : FileSystem) (path v : Bytes) (a : Option Bytes) (t : ℤ) :
    FileSystem × ℤ :=
  if t.testBit storeInXattrBit then setXattrWith faults fs path (generateXattrName a) v
  else (fs, enoexec)

/-- The extended attribute's part of a put changes nothing and fails, or sets the attribute. -/
theorem xattrPart_cases (faults : Faults) (fs : FileSystem) (path v : Bytes) (a : Option Bytes)
    (t : ℤ) :
    ((xattrPart faults fs path v a t).1 = fs ∧ (xattrPart faults fs path v a t).2 ≠ 0) ∨
    (t.testBit storeInXattrBit ∧ TakesXattr faults (generateXattrName a) v ∧
      (xattrPart faults fs path v a t).2 = 0 ∧
      ∃ l, fs.resolve true path = .ok l ∧
        XattrSet fs (xattrPart faults fs path v a t).1 l (generateXattrName a) v) := by
  unfold xattrPart
  split_ifs with hx
  · exact (setXattrWith_cases faults fs path _ v).imp_right fun h => ⟨hx, h⟩
  · refine Or.inl ⟨rfl, ?_⟩
    change enoexec ≠ 0
    decide

theorem _iPutWith_file (hf : t.testBit storeInFileBit) : _iPutWith faults fs path v a t =
    ((setDirValueWith faults (xattrPart faults fs path v a t).1 path v a).1,
      if (setDirValueWith faults (xattrPart faults fs path v a t).1 path v a).2 then 0 else 1) :=
  if_pos hf

theorem _iPutWith_xattr (hf : ¬t.testBit storeInFileBit) :
    _iPutWith faults fs path v a t = xattrPart faults fs path v a t :=
  if_neg hf

/-- After the extended attribute a put writes the file, or nothing more. -/
theorem _iPutWith_cases (faults : Faults) (fs : FileSystem) (path v : Bytes) (a : Option Bytes)
    (t : ℤ) :
    (_iPutWith faults fs path v a t).1 = (xattrPart faults fs path v a t).1 ∨
    ∃ l, FileSet (xattrPart faults fs path v a t).1 (_iPutWith faults fs path v a t).1 l
      (faults.content v) := by
  by_cases hf : t.testBit storeInFileBit = true
  · rw [_iPutWith_file hf]
    rcases setDirValueWith_cases faults (xattrPart faults fs path v a t).1 path v a with
      ⟨he, -⟩ | ⟨-, -, hw⟩
    · exact Or.inl (by rw [he])
    · obtain ⟨l, -, hset⟩ := write_ok hw
      exact Or.inr ⟨l, hset⟩
  · exact Or.inl (by rw [_iPutWith_xattr hf])

end

end Idb
