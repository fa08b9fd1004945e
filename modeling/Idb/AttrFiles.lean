import Idb.Attributes
import Idb.KeyPlaces

/-!
# Attribute files

Attributes that are files are hidden entries of a key's directory, with names that no
partition directory has. The operations on the file of an attribute are described by
the file at its place, for any path that continues the base directory by valid names :
nothing is found behind what is not a directory, so a missing key has no attributes.
-/

namespace Idb

open Posix FileSystem FileTree

/-- The name of an attribute file : a dot followed by more than one character. -/
def AttrName (a : Name) : Prop :=
  a.head? = some dot ∧ a.tail ≠ [] ∧ firstChar a.tail ≠ .ok a.tail ∧ slash ∉ a ∧ 0 ∉ a

/-- An attribute : NULL, which means the default attribute, or a name. -/
structure Attr where
  val : Option Bytes
  named : ∀ a ∈ val, AttrName a

namespace Attr

/-- The default attribute. -/
def default : Attr :=
  ⟨none, by simp⟩

/-- The name of the attribute's file. -/
def name (a : Attr) : Name :=
  a.val.getD idbValueName

theorem attrName (a : Attr) : AttrName a.name := by
  have hdefault : AttrName idbValueName := ⟨rfl, by decide, by decide, by decide, by decide⟩
  obtain ⟨val, h⟩ := a
  cases val with
  | none => exact hdefault
  | some n => exact h n rfl

theorem head?_name (a : Attr) : a.name.head? = some dot :=
  a.attrName.1

/-- An attribute's file name names a directory entry. -/
theorem validName (a : Attr) : ValidName a.name := by
  obtain ⟨-, ht, hc, hs, h0⟩ := a.attrName
  refine ⟨⟨?_, ?_, ?_⟩, hs, h0⟩
  · intro he
    simp [he] at ht
  · intro he
    simp [he] at ht
  · intro he
    rw [he] at hc
    exact hc (by decide)

/-- An attribute's file is not taken for a partition directory. -/
theorem name_ne_partName (a : Attr) {c : Bytes} (hc : firstChar c = .ok c) :
    a.name ≠ partName c := by
  intro he
  have := a.attrName.2.2.1
  rw [he] at this
  exact this hc

/-- The attribute's file lies in the key's directory. -/
theorem makeAttrFileName_eq (a : Attr) {path : Bytes} (h : path ≠ []) :
    makeAttrFileName path a.val = joinName path a.name := by
  obtain ⟨val, hv⟩ := a
  cases val with
  | none => exact sdsJoinPathLen_eq h _
  | some n =>
    cases n with
    | nil => exact absurd rfl (hv [] rfl).2.1.symm
    | cons b bs => exact sdsJoinPathLen_eq h _

end Attr

/-! ## Operations with file storage -/

section

variable (host : Host) (fs : FileSystem) (aDir aValue : Bytes) (aAttribute : Option Bytes)

theorem _iGet_storeInFile : _iGet host fs aDir aAttribute storeInFile =
    getDirValue host fs aDir aAttribute := by
  simp [_iGet, storeInFile, storeInXattrBit, storeInFileBit, Int.testBit, Nat.testBit]

theorem _iPut_storeInFile : _iPut fs aDir aValue aAttribute storeInFile =
    ((setDirValue fs aDir aValue aAttribute).1,
      if (setDirValue fs aDir aValue aAttribute).2 then 0 else 1) := by
  simp [_iPut, storeInFile, storeInXattrBit, storeInFileBit, Int.testBit, Nat.testBit]

theorem setDirValue_done : (setDirValue fs aDir aValue aAttribute).2 = true ↔
    ∃ l, fs.resolve true (makeAttrFileName aDir aAttribute) = .ok l ∧ fs.tree.Writable l := by
  rw [← @write_iff _ _ aValue, setDirValue]
  cases fs.write (makeAttrFileName aDir aAttribute) aValue <;> simp [ofResult]

/-- Whether a put succeeds does not depend on the value. -/
theorem iPut_code (M : ℤ) (policy : TIDBProcesses) (aKey : Option Bytes) (v w : Bytes) :
    (iPut host M fs aDir policy aKey v aAttribute storeInFile).2 =
      (iPut host M fs aDir policy aKey w aAttribute storeInFile).2 := by
  have hcode : ∀ fs path, (_iPut fs path v aAttribute storeInFile).2 =
      (_iPut fs path w aAttribute storeInFile).2 := by
    intro fs path
    have hdone : (setDirValue fs path v aAttribute).2 = (setDirValue fs path w aAttribute).2 := by
      rw [Bool.eq_iff_iff, setDirValue_done, setDirValue_done]
    rw [_iPut_storeInFile, _iPut_storeInFile, hdone]
  simp only [iPut]
  split
  · rfl
  · split_ifs
    · exact hcode _ _
    · exact hcode _ _
    · rfl

theorem _deleleAttr_storeInFile : _deleleAttr fs aDir aAttribute storeInFile =
    delDirValue fs aDir aAttribute := by
  simp [_deleleAttr, storeInFile, storeInXattrBit, storeInFileBit, Int.testBit, Nat.testBit]

theorem _attrIsExists_storeInFile : _attrIsExists fs aDir aAttribute storeInFile =
    isDirValueExists fs aDir aAttribute := by
  simp [_attrIsExists, storeInFile, storeInXattrBit, storeInFileBit, Int.testBit, Nat.testBit]

end

/-! ## Paths below the base directory -/

/-- `path` continues the path `D` of the directory `d` by valid names that lead to `l`.
A slash may follow. -/
def Leads (D : Bytes) (d : Loc) (path : Bytes) (l : Loc) : Prop :=
  ∃ names : List Name, (∀ n ∈ names, ValidName n) ∧ l = names.reverse ++ d ∧
    (path = names.foldl joinName D ∨ path = withSlash (names.foldl joinName D))

section

variable {fs : FileSystem} {D path : Bytes} {d l : Loc} {names : List Name} {a : Attr}

theorem leads_names (hn : ∀ n ∈ names, ValidName n) :
    Leads D d (names.foldl joinName D) (names.reverse ++ d) :=
  ⟨names, hn, rfl, Or.inl rfl⟩

theorem Leads.ne_nil (h : Leads D d path l) (hD : D ≠ []) : path ≠ [] := by
  obtain ⟨names, -, -, rfl | rfl⟩ := h
  · exact foldl_joinName_ne_nil hD
  · exact joinName_ne_nil (foldl_joinName_ne_nil hD)

theorem Leads.suffix (h : Leads D d path l) : d <:+ l := by
  obtain ⟨names, -, rfl, -⟩ := h
  exact List.suffix_append _ _

theorem Leads.isAt (h : Leads D d path l) (hD : fs.At D d) (hd : fs.tree.isDir l) :
    fs.At path l := by
  obtain ⟨names, hn, rfl, rfl | rfl⟩ := h
  · exact hD.names hn hd
  · exact at_withSlash (hD.names hn hd)

/-- Whether a path names a directory if no links are on the way. -/
theorem Leads.directoryExists_way (h : Leads D d path l) (hD : fs.At D d)
    (hl : ∀ m, Below d m → m <:+ l → fs.tree.NoLink m) :
    directoryExists fs path = pathIsDir ↔ fs.tree.isDir l := by
  refine ⟨fun he => ?_, fun hd => directoryExists_at (h.isAt hD hd)⟩
  obtain ⟨names, hn, rfl, hp⟩ := h
  obtain ⟨q, hq⟩ := directoryExists_eq_dir_iff_at.1 he
  obtain ⟨q', hq'⟩ : ∃ q, fs.At (names.foldl joinName D) q := by
    rcases hp with rfl | rfl
    · exact ⟨q, hq⟩
    · by_cases hs : (names.foldl joinName D).getLast? = some slash
      · rw [withSlash, joinName, if_pos hs, List.append_nil] at hq
        exact ⟨q, hq⟩
      · rw [withSlash, joinName_of_no_slash hs] at hq
        exact hq.of_append_slash (foldl_joinName_ne_nil hD.ne_nil)
  obtain ⟨x, hx⟩ := hq'.stat_dir
  exact isDir_of_get ((hD.stat_way hn hl _).1 hx)

variable (hl : ∀ l, Below d l → fs.tree.NoLink l)

include hl

theorem Leads.directoryExists_iff (h : Leads D d path l) (hD : fs.At D d) :
    directoryExists fs path = pathIsDir ↔ fs.tree.isDir l :=
  h.directoryExists_way hD fun m hb _ => hl m hb

/-- Names that lead to nothing name no directory. -/
theorem directoryExists_missing (hD : fs.At D d) (hn : ∀ n ∈ names, ValidName n)
    (hg : fs.tree.get (names.reverse ++ d) = none) :
    directoryExists fs (names.foldl joinName D) = pathIsNotExists := by
  rw [directoryExists]
  cases hs : fs.stat (names.foldl joinName D) with
  | error e => rfl
  | ok n => simp [(hD.stat_names hn hl n).1 hs] at hg

end

/-! ## The file at its place -/

section

variable {fs : FileSystem} {D path : Bytes} {d l : Loc} {a : Attr}
  (h : Leads D d path l) (hD : fs.At D d) (hl : ∀ l, Below d l → fs.tree.NoLink l)
  (hd : fs.tree.isDir (a.name :: l) = false)

include h hD

/-- The path of the attribute's file, name by name from the base directory. -/
theorem attr_path : ∃ names : List Name, (∀ n ∈ names, ValidName n) ∧ l = names.reverse ++ d ∧
    makeAttrFileName path a.val = (names ++ [a.name]).foldl joinName D := by
  have hne := h.ne_nil hD.ne_nil
  obtain ⟨names, hn, rfl, hp⟩ := h
  refine ⟨names, hn, rfl, ?_⟩
  rw [a.makeAttrFileName_eq hne, List.foldl_append]
  rcases hp with rfl | rfl
  · rfl
  · exact joinName_withSlash _ _

include hl

/-- `stat` of the attribute's path sees the entry of the key's directory. -/
theorem stat_attr (n : Node Xattrs) : fs.stat (makeAttrFileName path a.val) = .ok n ↔
    fs.tree.get (a.name :: l) = some n := by
  obtain ⟨names, hn, rfl, hp⟩ := attr_path (a := a) h hD
  rw [hp, hD.stat_names _ hl, List.reverse_append]
  · rfl
  · intro m hm
    rcases List.mem_append.1 hm with hm | hm
    · exact hn m hm
    · rw [List.mem_singleton.1 hm]
      exact a.validName

/-- The call finds what is at the place of the file, or nothing is there. -/
theorem stat_attr_cases :
    (∃ n, fs.stat (makeAttrFileName path a.val) = .ok n ∧ fs.tree.get (a.name :: l) = some n) ∨
    ∃ e, fs.stat (makeAttrFileName path a.val) = .error e ∧ fs.tree.get (a.name :: l) = none := by
  have hs := stat_attr (a := a) h hD hl
  cases hst : fs.stat (makeAttrFileName path a.val) with
  | ok n => exact Or.inl ⟨n, rfl, (hs n).1 hst⟩
  | error e =>
    refine Or.inr ⟨e, rfl, Option.eq_none_iff_forall_ne_some.2 fun n hn => ?_⟩
    rw [(hs n).2 hn] at hst
    simp at hst

include hd

/-- `GetDirValue` reads the entry of the key's directory. -/
theorem getDirValue_attr (host : Host) :
    getDirValue host fs path a.val = fs.tree.fileAt (a.name :: l) := by
  rw [getDirValue, fileAt]
  rcases stat_attr_cases (a := a) h hD hl with ⟨n, hs, hg⟩ | ⟨e, hs, hg⟩
  · rw [hs, hg]
    cases n with
    | dir x => simp [isDir_of_get hg] at hd
    | file v x => rfl
    | link target => rfl
  · rw [hs, hg]

/-- `IsDirValueExists` asks whether the entry is a file. -/
theorem isDirValueExists_attr :
    isDirValueExists fs path a.val = (fs.tree.fileAt (a.name :: l)).isSome := by
  rw [isDirValueExists, directoryExists, fileAt]
  rcases stat_attr_cases (a := a) h hD hl with ⟨n, hs, hg⟩ | ⟨e, hs, hg⟩
  · rw [hs, hg]
    cases n with
    | dir x => simp [isDir_of_get hg] at hd
    | file v x => rfl
    | link target => exact absurd hg (hl _ (below_cons h.suffix _) target)
  · rw [hs, hg]
    rfl

/-- Deleting the file of an attribute. -/
theorem delDirValue_attr :
    (fs.tree.fileAt (a.name :: l) = none ∧ delDirValue fs path a.val = (fs, false)) ∨
    ∃ fs', delDirValue fs path a.val = (fs', true) ∧ fs'.cwd = fs.cwd ∧
      fs.tree.Updated fs'.tree (a.name :: l) none ∧ fs.tree.fileAt (a.name :: l) ≠ none := by
  have hlink := hl _ (below_cons h.suffix a.name)
  obtain ⟨names, hn, rfl, hp⟩ := attr_path (a := a) h hD
  obtain ⟨hdir, hno⟩ := hD.resolve_names hn a.validName hl false
  rw [delDirValue, hp, unlink, FileSystem.modify]
  cases hg : fs.tree.get (a.name :: (names.reverse ++ d)) with
  | none =>
    refine Or.inl ⟨by simp [fileAt, hg], ?_⟩
    by_cases hp : fs.tree.isDir (names.reverse ++ d)
    · rw [hdir hp]
      simp [unlinkAt, hd, hg, Except.map, ofResult]
    · obtain ⟨err, he⟩ := hno (by simpa using hp)
      rw [he]
      rfl
  | some n =>
    obtain ⟨t', ht'⟩ := unlinkAt_eq hd hg
    rw [hdir (isDir_of_get_cons hg)]
    refine Or.inr ⟨{ fs with tree := t' }, ?_, rfl, (unlinkAt_ok ht').2.2, ?_⟩
    · simp only [ht']
      rfl
    · cases n with
      | dir x => simp [isDir_of_get hg] at hd
      | file v x => simp [fileAt, hg]
      | link target => exact absurd hg (hlink target)

/-- Writing the file of an attribute into an existing directory. -/
theorem setDirValue_attr (hp : fs.tree.isDir l) (v : Bytes) :
    ∃ fs' x, setDirValue fs path v a.val = (fs', true) ∧ fs'.cwd = fs.cwd ∧
      fs.tree.Updated fs'.tree (a.name :: l) (some (.file v x)) := by
  have hlink := hl _ (below_cons h.suffix a.name)
  obtain ⟨names, hn, rfl, hpath⟩ := attr_path (a := a) h hD
  obtain ⟨t', ht'⟩ := writeFile_eq (fun _ => none) v a.validName hp hd hlink
  obtain ⟨x, -, -, hu⟩ := writeFile_ok ht'
  refine ⟨{ fs with tree := t' }, x, ?_, rfl, hu⟩
  rw [setDirValue, hpath, write, FileSystem.modify,
    (hD.resolve_names hn a.validName hl true).1 hp]
  simp only [ht']
  rfl

end

end Idb
