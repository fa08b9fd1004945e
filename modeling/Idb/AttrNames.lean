import Idb.PutAgain
import Idb.SplitOperations

/-!
# The names of attributes

In a file an attribute has the name that was given, or `.value` for none. The name of an extended
attribute leaves out one dot at the front, and an empty name stays empty. So the two backends take
the same names for one attribute except that the empty name is the default one for files only, and
that a name with a dot at the front and the name without it are one for extended attributes only
(`namedAlike_iff`). Where no two names are such a pair, a run of puts and gets on a key gives the
same results with both, if files can have the names and extended attributes can have the names and
the values (`alike_iff`).
-/

namespace Idb

open Posix FileSystem FileTree

/-! ## Names -/

/-- The name of an extended attribute, without the prefix. -/
def dotless (s : Bytes) : Bytes :=
  if s.head? = some dot then s.tail else s

/-- An attribute argument : NULL, or a string. -/
structure AttrArg where
  val : Option Bytes
  clean : ∀ s ∈ val, slash ∉ s ∧ 0 ∉ s

namespace AttrArg

/-- NULL means the default attribute. -/
def text (a : AttrArg) : Bytes :=
  a.val.getD idbValueName

/-- The name of the file. -/
def fileName (a : AttrArg) : Name :=
  if a.text = [] then idbValueName else a.text

theorem makeAttrFileName_eq (a : AttrArg) (aDir : Bytes) :
    makeAttrFileName aDir a.val = sdsJoinPathLen aDir a.fileName := by
  obtain ⟨val, -⟩ := a
  rcases val with - | - | ⟨b, bs⟩ <;> rfl

/-- A file name can be a component of a path. -/
theorem clean_fileName (a : AttrArg) : slash ∉ a.fileName ∧ 0 ∉ a.fileName := by
  have hdefault : slash ∉ idbValueName ∧ 0 ∉ idbValueName := by decide
  obtain ⟨val, h⟩ := a
  rcases val with - | - | ⟨b, bs⟩
  · exact hdefault
  · exact hdefault
  · exact h _ rfl

theorem generateXattrName_eq (a : AttrArg) :
    generateXattrName a.val = xattrPrefix ++ dotless a.text := by
  obtain ⟨val, -⟩ := a
  cases val <;> rfl

end AttrArg

/-- Both functions give the same name to `a` and `b`, or neither does. -/
def NamedAlike (a b : AttrArg) : Prop :=
  ∀ aDir, makeAttrFileName aDir a.val = makeAttrFileName aDir b.val ↔
    generateXattrName a.val = generateXattrName b.val

/-- One function takes `s` and `t` for one name : `s` is empty and `t` is the default name, or `s`
is `t` behind a dot. -/
def Clash (s t : Bytes) : Prop :=
  (s = [] ∧ t = idbValueName) ∨ (t.head? ≠ some dot ∧ s = dot :: t)

section

variable {s t : Bytes}

/-- What is joined to a path can be read off the result. -/
theorem sdsJoinPathLen_injective (aDir : Bytes) : Function.Injective (sdsJoinPathLen aDir) := by
  intro s t h
  unfold sdsJoinPathLen at h
  split_ifs at h
  · exact h
  · exact List.append_cancel_left h
  · exact List.append_cancel_left h

/-- Two names agree without their leading dot exactly when one is the other with a dot put in front.
-/
theorem dotless_eq_iff : dotless s = dotless t ↔
    s = t ∨ (t.head? ≠ some dot ∧ s = dot :: t) ∨ (s.head? ≠ some dot ∧ t = dot :: s) := by
  unfold dotless
  split_ifs with hs ht ht
  · obtain ⟨s, rfl⟩ := List.head?_eq_some_iff.1 hs
    obtain ⟨t, rfl⟩ := List.head?_eq_some_iff.1 ht
    simp
  · obtain ⟨s, rfl⟩ := List.head?_eq_some_iff.1 hs
    simp only [List.tail_cons, List.cons.injEq, true_and]
    constructor
    · rintro rfl
      exact Or.inr (Or.inl ⟨ht, rfl⟩)
    · rintro (rfl | ⟨-, rfl⟩ | ⟨hs', -⟩)
      · exact absurd rfl ht
      · rfl
      · exact absurd rfl hs'
  · obtain ⟨t, rfl⟩ := List.head?_eq_some_iff.1 ht
    simp only [List.tail_cons, List.cons.injEq, true_and]
    constructor
    · rintro rfl
      exact Or.inr (Or.inr ⟨hs, rfl⟩)
    · rintro (rfl | ⟨ht', -⟩ | ⟨-, rfl⟩)
      · exact absurd rfl hs
      · exact absurd rfl ht'
      · rfl
  · refine ⟨Or.inl, ?_⟩
    rintro (rfl | ⟨-, rfl⟩ | ⟨-, rfl⟩)
    · rfl
    · exact absurd rfl hs
    · exact absurd rfl ht

end

section

variable {a b : AttrArg}

/-- Two attributes share a file when their texts agree, or one is empty and the other is the default
name. -/
theorem fileName_eq_iff : a.fileName = b.fileName ↔ a.text = b.text ∨
    (a.text = [] ∧ b.text = idbValueName) ∨ (b.text = [] ∧ a.text = idbValueName) := by
  unfold AttrArg.fileName
  split_ifs with ha hb hb
  · simp [ha, hb]
  · rw [eq_comm]
    simp [ha, hb, Ne.symm hb]
  · simp [ha, hb]
  · simp [ha, hb]

theorem namedAlike_iff_names :
    NamedAlike a b ↔ (a.fileName = b.fileName ↔
      dotless a.text = dotless b.text) := by
  simp only [NamedAlike, a.makeAttrFileName_eq, b.makeAttrFileName_eq, a.generateXattrName_eq,
    b.generateXattrName_eq, (sdsJoinPathLen_injective _).eq_iff, List.append_cancel_left_eq,
    forall_const]

theorem NamedAlike.symm (h : NamedAlike a b) : NamedAlike b a :=
  fun aDir => eq_comm.trans ((h aDir).trans eq_comm)

/-- Attributes that are named alike in both stores do not clash. -/
theorem NamedAlike.not_clash (h : NamedAlike a b) : ¬Clash a.text b.text := by
  rw [namedAlike_iff_names] at h
  rintro (⟨ha, hb⟩ | ⟨hb, ha⟩)
  · have hdotless := h.1 (fileName_eq_iff.2 (Or.inr (Or.inl ⟨ha, hb⟩)))
    rw [ha, hb] at hdotless
    exact absurd hdotless (by decide)
  · rcases fileName_eq_iff.1 (h.2 (dotless_eq_iff.2 (Or.inr (Or.inl ⟨hb, ha⟩)))) with
      he | ⟨he, -⟩ | ⟨he, hd⟩
    · exact absurd (ha.symm.trans he) (List.cons_ne_self _ _)
    · rw [he] at ha
      simp at ha
    · rw [hd, he] at ha
      exact absurd ha (by decide)

/-- The names are taken alike exactly if they do not clash. -/
theorem namedAlike_iff (a b : AttrArg) :
    NamedAlike a b ↔ ¬Clash a.text b.text ∧ ¬Clash b.text a.text := by
  refine ⟨fun h => ⟨h.not_clash, h.symm.not_clash⟩, ?_⟩
  rintro ⟨hab, hba⟩
  obtain ⟨hdefault, hdot⟩ := not_or.1 hab
  obtain ⟨hdefault', hdot'⟩ := not_or.1 hba
  rw [namedAlike_iff_names, fileName_eq_iff, dotless_eq_iff,
    or_iff_left (not_or.2 ⟨hdefault, hdefault'⟩), or_iff_left (not_or.2 ⟨hdot, hdot'⟩)]

end

/-! ## Runs on one key -/

/-- What the operations on a key are given besides the attribute. -/
structure KeyAccess where
  host : Host
  iDBMaxPageCount : ℤ
  iDBPartitionFullProcess : TIDBProcesses
  aDir : Bytes
  aKey : Bytes

/-- A call on an attribute of one key. -/
inductive AttrCall where
  | put (a : AttrArg) (aValue : Bytes)
  | get (a : AttrArg)

/-- The call is on an attribute of `S`, and what it puts is in `V`. -/
def AttrCall.Uses (S : Set AttrArg) (V : Set Bytes) : AttrCall → Prop
  | put a v => a ∈ S ∧ v ∈ V
  | get a => a ∈ S

/-- What a call returns. -/
inductive AttrResult where
  | code (errno : ℤ)
  | value (aValue : Option Bytes)
  deriving DecidableEq

namespace KeyAccess

variable (K : KeyAccess)

/-- The plain path of the key. -/
def path : Bytes :=
  sdsJoinPathLen K.aDir K.aKey

/-- `iPut` on the key. -/
def put (fs : FileSystem) (a : AttrArg) (aValue : Bytes) (aStoreType : ℤ) : FileSystem × ℤ :=
  iPut K.host K.iDBMaxPageCount fs K.aDir K.iDBPartitionFullProcess (some K.aKey) aValue a.val
    aStoreType

/-- `iGet` on the key. -/
def get (fs : FileSystem) (a : AttrArg) (aStoreType : ℤ) : Option Bytes :=
  iGet K.host K.iDBMaxPageCount fs K.aDir K.aKey a.val aStoreType

/-- The file system after a call, and what it returns. -/
def call (aStoreType : ℤ) (fs : FileSystem) : AttrCall → FileSystem × AttrResult
  | .put a aValue => ((K.put fs a aValue aStoreType).1, .code (K.put fs a aValue aStoreType).2)
  | .get a => (fs, .value (K.get fs a aStoreType))

/-- The results of the calls. -/
def results (aStoreType : ℤ) : FileSystem → List AttrCall → List AttrResult
  | _, [] => []
  | fs, c :: calls =>
    (K.call aStoreType fs c).2 :: results aStoreType (K.call aStoreType fs c).1 calls

/-- The directory that a put goes to. -/
def placeToPut (fs : FileSystem) : Except ℤ Bytes :=
  putDir K.host K.iDBMaxPageCount fs K.aDir K.iDBPartitionFullProcess (some K.aKey)

/-- The paths at which a get looks. -/
def Reads (fs : FileSystem) (path : Bytes) : Prop :=
  path = K.path ∨ (K.iDBMaxPageCount > 0 ∧ iIsKeyDirExists fs K.path = some path)

/-- Where a get looks, the files of `fs` and the extended attributes of `fs'` have the same
values. -/
def SameValues (S : Set AttrArg) (fs fs' : FileSystem) : Prop :=
  ∀ path, K.Reads fs path → ∀ a ∈ S,
    getDirValue K.host fs path a.val = getXattr fs' path (generateXattrName a.val)

end KeyAccess

/-- Nothing but files of the directory `l` has the names of the attributes. -/
def FilesOf (S : Set AttrArg) (fs : FileSystem) (l : Loc) : Prop :=
  ∀ a ∈ S, fs.tree.NoLink (a.fileName :: l) ∧ fs.tree.isDir (a.fileName :: l) = false

/-- Both backends take the attribute with the value : a file can have its name, and a node its name
and the value. -/
def Storable (a : AttrArg) (v : Bytes) : Prop :=
  Plain a.fileName ∧ xattrRefused (generateXattrName a.val) v = none

namespace KeyAccess

/-- A state from which a run with one backend can be compared to one with the other : both have
the same values, the directory of the key is there or can be made, and nothing but files of it has
the names of the attributes. -/
structure Comparable (K : KeyAccess) (S : Set AttrArg) (fs : FileSystem) : Prop where
  policy : K.iDBPartitionFullProcess = .dkIgnored ∨ K.iDBPartitionFullProcess = .dkStopped
  noZero : 0 ∉ K.path
  unslashed : K.iDBMaxPageCount > 0 → K.path.getLast? = some slash →
    directoryExists fs K.path = pathIsDir
  links : K.iDBMaxPageCount > 0 → ∀ path, KeyPath K.path path → ¬Dangling fs path
  same : K.SameValues S fs fs
  made : ∀ vDir, K.placeToPut fs = .ok vDir → directoryExists fs vDir ≠ pathIsFile →
    directoryExists (withDir fs vDir) vDir = pathIsDir ∧
      K.SameValues S (withDir fs vDir) (withDir fs vDir) ∧
      ∀ path l, K.Reads (withDir fs vDir) path → (withDir fs vDir).At path l →
        FilesOf S (withDir fs vDir) l

/-- The states of the two runs once the directory of the key is there. -/
structure Settled (K : KeyAccess) (S : Set AttrArg) (fs fs' : FileSystem) : Prop where
  shape : SameShape fs fs'
  place : ∃ vDir, K.placeToPut fs = .ok vDir ∧ directoryExists fs vDir = pathIsDir ∧
    (vDir = K.path ∨ FoundBehind K.iDBMaxPageCount fs K.path vDir)
  same : K.SameValues S fs fs'
  files : ∀ path l, K.Reads fs path → fs.At path l → FilesOf S fs l

end KeyAccess

/-! ## What a write changes -/

section

variable {S : Set AttrArg} {fs fs' : FileSystem} {path v : Bytes} {l m : Loc} {a b : AttrArg}

theorem joinName_fileName (h : fs.At path l) (a : AttrArg) :
    makeAttrFileName path a.val = joinName path a.fileName := by
  rw [a.makeAttrFileName_eq, sdsJoinPathLen_eq h.ne_nil]

/-- A read in the directory at `l` reads the entry with the attribute's file name. -/
theorem getDirValue_at (host : Host) (h : fs.At path l) (hf : FilesOf S fs l) (ha : a ∈ S)
    (hp : Plain a.fileName) :
    getDirValue host fs path a.val = fs.tree.fileAt (a.fileName :: l) := by
  obtain ⟨hlink, hdir⟩ := hf a ha
  rw [getDirValue, joinName_fileName h, h.stat_entry a.clean_fileName.1
    (by rwa [enter_plain hp]), enter_plain hp, nodeAt, fileAt]
  cases hg : fs.tree.get (a.fileName :: l) with
  | none => rfl
  | some n =>
    cases n with
    | dir x => simp [isDir_of_get hg] at hdir
    | file content x => rfl
    | link target => rfl

/-- A write in the directory at `l` sets the entry with the attribute's file name, and nothing else.
-/
theorem setDirValue_at (h : fs.At path l) (hf : FilesOf S fs l) (ha : a ∈ S)
    (hp : Plain a.fileName) (v : Bytes) :
    ∃ fs', setDirValue fs path v a.val = (fs', true) ∧ FileSet fs fs' (a.fileName :: l) v := by
  obtain ⟨hlink, hdir⟩ := hf a ha
  have hresolve : fs.resolve true (joinName path a.fileName) = .ok (a.fileName :: l) := by
    rw [h.resolve_entry a.clean_fileName.1 (by rwa [enter_plain hp]), enter_plain hp]
  obtain ⟨t, ht⟩ := writeFile_eq (fun _ => none) v ⟨hp, a.clean_fileName⟩ h.isDir hdir hlink
  have hwrite : fs.write (joinName path a.fileName) v = .ok { fs with tree := t } :=
    modify_eq hresolve ht
  obtain ⟨q, hq, hset⟩ := write_ok hwrite
  rw [hresolve, Except.ok.injEq] at hq
  exact ⟨_, by rw [setDirValue, joinName_fileName h, hwrite]; rfl, hq ▸ hset⟩

/-- An extended attribute that the kernel takes is set on the directory at `l`. -/
theorem setXattr_at {name : Bytes} (h : fs.At path l) (hn : xattrRefused name v = none) :
    ∃ fs', setXattr fs path name v = (fs', 0) ∧ XattrSet fs fs' l name v := by
  have hok := @setXattrWith_dir Faults.none fs path v name l ⟨rfl, hn⟩ h
  rcases setXattrWith_cases Faults.none fs path name v with ⟨-, hne⟩ | ⟨-, -, q, hq, hset⟩
  · exact absurd hok hne
  · rw [h.resolve, Except.ok.injEq] at hq
    exact ⟨_, Prod.ext rfl hok, hq ▸ hset⟩

theorem FileSet.fileAt_eq (h : FileSet fs fs' l v) (m : Loc) :
    fs'.tree.fileAt m = if m = l then some v else fs.tree.fileAt m := by
  rw [fileAt, h.updated m]
  split_ifs <;> rfl

/-- The attributes stay files where the shape is kept. -/
theorem FilesOf.shape (h : FilesOf S fs l) (hs : SameShape fs fs') : FilesOf S fs' l := by
  intro a ha
  obtain ⟨hlink, hdir⟩ := h a ha
  refine ⟨hs.noLink hlink, ?_⟩
  by_contra hd
  rw [hs.keepsBack.dir _ (by simpa using hd)] at hdir
  simp at hdir

end

/-! ## Both runs step by step -/

namespace KeyAccess

variable {K : KeyAccess} {S : Set AttrArg} {fs fs' : FileSystem} {path vDir : Bytes} {a b : AttrArg}

theorem reads_shape (h : SameShape fs fs') : K.Reads fs' path ↔ K.Reads fs path := by
  rw [Reads, Reads, h.iIsKeyDirExists_eq]

/-- With the same values at every path, a get has the same result. -/
theorem SameValues.get_eq (h : K.SameValues S fs fs') (hs : SameShape fs fs') (ha : a ∈ S) :
    K.get fs a storeInFile = K.get fs' a storeInXattr := by
  have hplain : getDirValue K.host fs (sdsJoinPathLen K.aDir K.aKey) a.val =
      getXattr fs' (sdsJoinPathLen K.aDir K.aKey) (generateXattrName a.val) :=
    h K.path (Or.inl rfl) a ha
  simp only [KeyAccess.get, iGet, _iGet_storeInFile, _iGet_storeInXattr, hs.iIsKeyDirExists_eq,
    hplain]
  cases getXattr fs' (sdsJoinPathLen K.aDir K.aKey) (generateXattrName a.val) with
  | some v => rfl
  | none =>
    dsimp only
    split_ifs with hM
    · cases hfound : iIsKeyDirExists fs (sdsJoinPathLen K.aDir K.aKey) with
      | none => rfl
      | some vDir => exact h vDir (Or.inr ⟨hM, hfound⟩) a ha
    · rfl

/-- When the directory of a put is there, it is written to. -/
theorem put_eq (hput : K.placeToPut fs = .ok vDir) (hdir : directoryExists fs vDir = pathIsDir)
    (a : AttrArg) (v : Bytes) (t : ℤ) : K.put fs a v t = _iPut fs vDir v a.val t := by
  rw [KeyAccess.put, ← iPutWith_none]
  rcases iPutWith_ok hput v a.val t with ⟨hfile, -⟩ | ⟨-, he⟩
  · rw [hdir] at hfile
    exact absurd hfile (by decide)
  · rw [he, withDir, if_neg (by rw [hdir]; decide)]
    rfl

namespace Settled

variable (h : K.Settled S fs fs')

include h

/-- What is no directory is the plain path of a key in the partitions. -/
theorem unslashed (hr : K.Reads fs path) (hd : directoryExists fs path ≠ pathIsDir) :
    path ≠ [] ∧ path.getLast? ≠ some slash := by
  rcases hr with rfl | ⟨-, hfound⟩
  · obtain ⟨vDir, -, hdir, rfl | hbehind⟩ := h.place
    · exact absurd hdir hd
    · exact ⟨hbehind.ne_nil, hbehind.unslashed⟩
  · exact absurd (iIsKeyDirExists_isDir hfound) hd

/-- The same write with both backends keeps the values the same, if the names are taken alike. -/
theorem sameValues {fs₁ fs₁' : FileSystem} {l : Loc} {v : Bytes}
    (hS : ∀ a ∈ S, ∀ b ∈ S, NamedAlike a b) (hplain : ∀ a ∈ S, Plain a.fileName) (hb : b ∈ S)
    (hl : fs.tree.isDir l)
    (hfile : FileSet fs fs₁ (b.fileName :: l) v)
    (hxattr : XattrSet fs' fs₁' l (generateXattrName b.val) v) : K.SameValues S fs₁ fs₁' := by
  intro path hr a ha
  rw [reads_shape hfile.shape] at hr
  have hsame := h.same path hr a ha
  rw [hxattr.getXattr_eq]
  by_cases hd : directoryExists fs path = pathIsDir
  · obtain ⟨q, hq⟩ := directoryExists_eq_dir_iff_at.1 hd
    have hfiles := h.files path q hr hq
    have hat := hq.keeps hfile.shape.keeps hfile.shape.cwd_eq
    have hat' := hq.keeps h.shape.keeps h.shape.cwd_eq
    have hname : a.fileName = b.fileName ↔ generateXattrName a.val = generateXattrName b.val := by
      rw [a.generateXattrName_eq, b.generateXattrName_eq, List.append_cancel_left_eq]
      exact namedAlike_iff_names.1 (hS a ha b hb)
    rw [getDirValue_at _ hq hfiles ha (hplain a ha)] at hsame
    rw [getDirValue_at _ hat (hfiles.shape hfile.shape) ha (hplain a ha), hfile.fileAt_eq, hsame,
      hat'.resolve]
    refine if_congr ?_ rfl rfl
    rw [List.cons.injEq, hname, Except.ok.injEq, and_comm]
  · obtain ⟨hne, hlast⟩ := h.unslashed hr hd
    have hbehind : getDirValue K.host fs₁ path a.val = none :=
      getDirValue_behind K.host hne hlast (mt hfile.shape.directoryExists_iff.1 hd)
    rw [if_neg, ← hsame, hbehind, getDirValue_behind K.host hne hlast hd]
    rintro ⟨hres, -⟩
    exact hd (directoryExists_at ⟨hne, h.shape.resolve_iff.1 hres, hl⟩)

/-- A put succeeds with both backends. -/
theorem put {v : Bytes} (hS : ∀ a ∈ S, ∀ b ∈ S, NamedAlike a b)
    (hplain : ∀ a ∈ S, Plain a.fileName) (hb : b ∈ S)
    (hv : xattrRefused (generateXattrName b.val) v = none) :
    (K.put fs b v storeInFile).2 = 0 ∧ (K.put fs' b v storeInXattr).2 = 0 ∧
      K.Settled S (K.put fs b v storeInFile).1 (K.put fs' b v storeInXattr).1 := by
  obtain ⟨vDir, hput, hdir, hplace⟩ := h.place
  obtain ⟨l, hl⟩ := directoryExists_eq_dir_iff_at.1 hdir
  have hreads : K.Reads fs vDir := hplace.imp_right fun hf => ⟨hf.limited, hf.found⟩
  have hl' := hl.keeps h.shape.keeps h.shape.cwd_eq
  have hput' : K.placeToPut fs' = .ok vDir := (h.shape.putDir_eq _ _).trans hput
  obtain ⟨fs₁, he, hfile⟩ := setDirValue_at hl (h.files vDir l hreads hl) hb (hplain b hb) v
  obtain ⟨fs₁', he', hxattr⟩ := setXattr_at hl' hv
  rw [put_eq hput hdir, put_eq hput' (directoryExists_at hl'), _iPut_storeInFile,
    _iPut_storeInXattr, he, he']
  have hs := hfile.shape
  refine ⟨rfl, rfl, ?_⟩
  exact {
    shape := (hs.symm.trans h.shape).trans hxattr.shape
    place := ⟨vDir, (hs.putDir_eq _ _).trans hput, hs.directoryExists_iff.2 hdir,
      hplace.imp_right fun hf => ⟨hf.limited, hf.ne_nil, hf.unslashed,
        mt hs.directoryExists_iff.1 hf.missing, (hs.iIsKeyDirExists_eq _).trans hf.found⟩⟩
    same := h.sameValues hS hplain hb hl.isDir hfile hxattr
    files := fun path m hr hm => (h.files path m ((reads_shape hs).1 hr)
      (hm.keeps hs.keepsBack hs.cwd_eq.symm)).shape hs }

end Settled

/-- The first put : it fails in the same way with both backends and does nothing, or it does what
it does when the directory of the key is there. -/
theorem Comparable.put (h : K.Comparable S fs) :
    (∃ errno, ∀ a v t, K.put fs a v t = (fs, errno)) ∨
      ∃ fs₁, K.Settled S fs₁ fs₁ ∧ ∀ a v t, K.put fs a v t = K.put fs₁ a v t := by
  cases hput : K.placeToPut fs with
  | error errno =>
    refine Or.inl ⟨errno, fun a v t => ?_⟩
    rw [KeyAccess.put, ← iPutWith_none, iPutWith, show putDir _ _ _ _ _ _ = _ from hput]
  | ok vDir =>
    by_cases hfile : directoryExists fs vDir = pathIsFile
    · refine Or.inl ⟨pathIsFile, fun a v t => ?_⟩
      rw [KeyAccess.put, ← iPutWith_none]
      exact ((iPutWith_ok hput v a.val t).resolve_right fun hw => hw.1 hfile).2
    · obtain ⟨hdir, hsame, hfiles⟩ := h.made vDir hput hfile
      obtain ⟨hagain, hplace⟩ := putDir_again h.policy h.noZero h.unslashed h.links hput hdir
      refine Or.inr ⟨withDir fs vDir, ⟨SameShape.refl _, ⟨vDir, hagain, hdir, hplace⟩, hsame,
        hfiles⟩, fun a v t => ?_⟩
      rw [put_eq hagain hdir, KeyAccess.put, ← iPutWith_none]
      exact ((iPutWith_ok hput v a.val t).resolve_left fun hw => hfile hw.1).2

/-- Runs with the two backends : the directory of the key is not there yet, or both have it. -/
theorem results_eq {V : Set Bytes} (hS : ∀ a ∈ S, ∀ b ∈ S, NamedAlike a b)
    (hV : ∀ a ∈ S, ∀ v ∈ V, Storable a v) (calls : List AttrCall)
    (hcalls : ∀ c ∈ calls, c.Uses S V)
    (h : K.Settled S fs fs' ∨ (fs' = fs ∧ K.Comparable S fs)) :
    K.results storeInFile fs calls = K.results storeInXattr fs' calls := by
  induction calls generalizing fs fs' with
  | nil => rfl
  | cons c calls ih =>
    obtain ⟨hc, hrest⟩ := List.forall_mem_cons.1 hcalls
    rw [results, results]
    cases c with
    | get a =>
      have hget : K.get fs a storeInFile = K.get fs' a storeInXattr := by
        rcases h with h | ⟨rfl, h⟩
        · exact h.same.get_eq h.shape hc
        · exact h.same.get_eq (SameShape.refl _) hc
      simp only [call, hget, ih hrest h]
    | put a v =>
      obtain ⟨ha, hv⟩ := hc
      have hplain : ∀ b ∈ S, Plain b.fileName := fun b hb => (hV b hb v hv).1
      have hsettled : ∀ {fs fs'}, K.Settled S fs fs' →
          AttrResult.code (K.put fs a v storeInFile).2 = .code (K.put fs' a v storeInXattr).2 ∧
          K.results storeInFile (K.put fs a v storeInFile).1 calls =
            K.results storeInXattr (K.put fs' a v storeInXattr).1 calls := by
        intro fs fs' h
        obtain ⟨hok, hok', hnext⟩ := h.put hS hplain ha (hV a ha v hv).2
        exact ⟨by rw [hok, hok'], ih hrest (Or.inl hnext)⟩
      simp only [call, List.cons.injEq]
      rcases h with h | ⟨rfl, h⟩
      · exact hsettled h
      · rcases h.put with ⟨errno, he⟩ | ⟨fs₁, h₁, he⟩
        · simp only [he, true_and]
          exact ih hrest (Or.inr ⟨rfl, h⟩)
        · simp only [he]
          exact hsettled h₁

end KeyAccess

/-! ## New keys -/

section

variable {fs : FileSystem} {D k : Bytes} {d : Loc} (h : fs.At D d) (hk : ValidName k)
  (hnew : fs.tree.get (k :: d) = none)

include h hk hnew

theorem directoryExists_newEntry : directoryExists fs (joinName D k) = pathIsNotExists := by
  by_contra hne
  obtain ⟨n, hn⟩ := directoryExists_ne_missing.1 hne
  rw [h.stat_entry hk.2.1 (by rw [enter_plain hk.1]; simp [NoLink, hnew]), enter_plain hk.1,
    nodeAt, hnew] at hn
  simp at hn

/-- The directory made for a new name is empty. -/
theorem withDir_newEntry : (withDir fs (joinName D k)).At (joinName D k) (k :: d) ∧
    (∀ c, (withDir fs (joinName D k)).tree.get (c :: k :: d) = none) ∧
    ∀ name, xattrsAt (withDir fs (joinName D k)) (k :: d) name = none := by
  have hway : ∀ q, Below d q → q <:+ [k].reverse ++ d → fs.tree.get q = none ∨ fs.tree.isDir q := by
    intro q hb hs
    rcases List.suffix_cons_iff.1 hs with rfl | hs
    · exact Or.inl hnew
    · exact absurd (hs.eq_of_length_le hb.1.length_le) hb.2
  obtain ⟨hmade, hat⟩ := @forceDirectories_names fs D d [k] h (List.forall_mem_singleton.2 hk) hway
  rw [withDir, if_pos (directoryExists_newEntry h hk hnew)]
  refine ⟨hat, fun c => ?_, fun name => ?_⟩
  · rcases hmade.get_cases (c :: k :: d) with he | ⟨⟨-, hs⟩, -⟩
    · exact he.trans (get_cons_eq_none (by simp [FileTree.isDir, hnew]))
    · simpa using hs.length_le
  · rcases hmade.get_cases (k :: d) with he | ⟨-, -, he⟩
    · exact absurd (he.trans hnew) (get_ne_none_of_isDir hat.isDir)
    · rw [List.foldl_cons, List.foldl_nil] at he
      rw [xattrsAt, he]
      rfl

end

namespace KeyAccess

variable {K : KeyAccess} {S : Set AttrArg} {fs : FileSystem} {d : Loc}

/-- A new key without a page limit is comparable, if no directory can be read as a file. -/
theorem comparable_newKey
    (hpol : K.iDBPartitionFullProcess = .dkIgnored ∨ K.iDBPartitionFullProcess = .dkStopped)
    (hM : ¬K.iDBMaxPageCount > 0) (h0 : 0 ∉ K.aDir) (h : fs.At K.aDir d) (hk : ValidName K.aKey)
    (hnew : fs.tree.get (K.aKey :: d) = none) (hbytes : K.host.dirBytes = none) :
    K.Comparable S fs := by
  have hpath : K.path = joinName K.aDir K.aKey := sdsJoinPathLen_eq h.ne_nil _
  have hreads : ∀ {fs path}, K.Reads fs path → path = K.path := fun hr =>
    hr.resolve_right fun hf => hM hf.1
  have hplace : K.placeToPut fs = .ok K.path := by
    simp only [placeToPut, putDir, hM, and_false, if_false, Option.getD_some]
    rfl
  have hmissing : directoryExists fs K.path = pathIsNotExists :=
    hpath ▸ directoryExists_newEntry h hk hnew
  obtain ⟨hat, hempty, hxattr⟩ := withDir_newEntry h hk hnew
  rw [← hpath] at hat hempty hxattr
  have hfiles : FilesOf S (withDir fs K.path) (K.aKey :: d) := fun a _ =>
    ⟨by simp [NoLink, hempty], by simp [FileTree.isDir, hempty]⟩
  refine ⟨hpol, ?_, fun hM' => absurd hM' hM, fun hM' => absurd hM' hM, ?_, ?_⟩
  · rw [hpath, joinName]
    split_ifs <;> simp [h0, hk.2.2, show (0 : UInt8) ≠ slash by decide]
  · intro path hr a ha
    rw [hreads hr, getDirValue_behind K.host (hpath ▸ joinName_ne_nil h.ne_nil)
      (hpath ▸ getLast?_joinName hk.component) (by rw [hmissing]; decide), eq_comm,
      Option.eq_none_iff_forall_ne_some]
    intro v hv
    obtain ⟨l, n, hl, hg, -⟩ := getXattr_eq_some.1 hv
    exact directoryExists_ne_missing.2 ⟨n, stat_eq_ok.2 ⟨l, hl, hg⟩⟩ hmissing
  · intro vDir hput _
    rw [hplace, Except.ok.injEq] at hput
    subst hput
    refine ⟨directoryExists_at hat, fun path hr a ha => ?_, fun path l hr hl => ?_⟩
    · have hfile : getDirValue K.host (withDir fs K.path) K.path a.val = none := by
        by_cases hp : Plain a.fileName
        · rw [getDirValue_at K.host hat hfiles ha hp, fileAt, hempty]
        · obtain ⟨x, hx⟩ := (hat.entry a.clean_fileName.1 (isDir_enter hat.isDir hp)).stat_dir
          rw [getDirValue, joinName_fileName hat, hx, hbytes]
      rw [hreads hr, hfile, eq_comm, Option.eq_none_iff_forall_ne_some]
      intro v hv
      obtain ⟨l, hl, hv⟩ := getXattr_eq_some_iff.1 hv
      rw [hat.resolve, Except.ok.injEq] at hl
      simp [← hl, hxattr] at hv
    · rw [hreads hr] at hl
      have hsame := hat.resolve.symm.trans hl.resolve
      rw [Except.ok.injEq] at hsame
      exact hsame ▸ hfiles

end KeyAccess

/-! ## Both backends -/

/-- Both backends identify the same attributes of `S` : they take the names alike, and a run of
puts of values of `V` and gets on a key gives the same results. -/
structure Alike (S : Set AttrArg) (V : Set Bytes) : Prop where
  named : ∀ a ∈ S, ∀ b ∈ S, NamedAlike a b
  runs : ∀ (K : KeyAccess) fs, K.Comparable S fs → ∀ calls : List AttrCall,
    (∀ c ∈ calls, c.Uses S V) → K.results storeInFile fs calls = K.results storeInXattr fs calls

/-- Names that do not clash and can be stored are answered alike. -/
theorem alike_of_not_clash {S : Set AttrArg} {V : Set Bytes}
    (h : ∀ a ∈ S, ∀ b ∈ S, ¬Clash a.text b.text) (hV : ∀ a ∈ S, ∀ v ∈ V, Storable a v) :
    Alike S V := by
  have hnamed : ∀ a ∈ S, ∀ b ∈ S, NamedAlike a b := fun a ha b hb =>
    (namedAlike_iff a b).2 ⟨h a ha b hb, h b hb a ha⟩
  exact ⟨hnamed, fun K fs hK calls hcalls =>
    KeyAccess.results_eq hnamed hV calls hcalls (Or.inr ⟨rfl, hK⟩)⟩

/-- The key `a` of the root. -/
def rootKey : KeyAccess :=
  ⟨plainHost, -1, .dkIgnored, [slash], [97]⟩

/-- A put of the new key `a` writes to the directory that it makes. -/
theorem rootKey_put (a : AttrArg) (v : Bytes) (t : ℤ) : rootKey.put rootBase.fs a v t =
    _iPut (withDir rootBase.fs rootKey.path) rootKey.path v a.val t := by
  have hmissing : directoryExists rootBase.fs rootKey.path = pathIsNotExists := by decide +kernel
  rw [KeyAccess.put, ← iPutWith_none]
  rcases @iPutWith_ok _ _ _ _ _ _ Faults.none rootKey.path (show putDir rootKey.host
    rootKey.iDBMaxPageCount rootBase.fs rootKey.aDir rootKey.iDBPartitionFullProcess
    (some rootKey.aKey) = .ok rootKey.path from rfl) v a.val t with ⟨hfile, -⟩ | ⟨-, he⟩
  · rw [hmissing] at hfile
    exact absurd hfile (by decide)
  · exact he

theorem rootKey_made :
    (withDir rootBase.fs rootKey.path).At rootKey.path [[97]] ∧
      ∀ c, (withDir rootBase.fs rootKey.path).tree.get [c, [97]] = none := by
  obtain ⟨hat, hempty, -⟩ := withDir_newEntry rootBase.isAt (show ValidName [97] by decide)
    (rootBase.empty _ (below_cons (List.suffix_refl _) _))
  exact ⟨hat, hempty⟩

theorem comparable_rootKey (S : Set AttrArg) : rootKey.Comparable S rootBase.fs :=
  KeyAccess.comparable_newKey (Or.inl rfl) (by decide) (by decide) rootBase.isAt (by decide)
    (rootBase.empty _ (below_cons (List.suffix_refl _) _)) rfl

theorem setXattr_ne_one (fs : FileSystem) (path name v : Bytes) :
    (setXattr fs path name v).2 ≠ 1 := by
  rw [setXattr]
  cases fs.setxattr path name v with
  | ok fs' => exact zero_ne_one
  | error e => exact (show ∀ e, errnoCode e ≠ 1 by rintro ⟨⟩ <;> decide) e

/-- The first put of a new key gives the same result only if both backends take it. -/
theorem Alike.storable {S : Set AttrArg} {V : Set Bytes} (h : Alike S V) {a : AttrArg} (ha : a ∈ S)
    {v : Bytes} (hv : v ∈ V) : Storable a v := by
  have hrun := h.runs rootKey rootBase.fs (comparable_rootKey S) [.put a v]
    (List.forall_mem_singleton.2 ⟨ha, hv⟩)
  obtain ⟨hat, hempty⟩ := rootKey_made
  simp only [KeyAccess.results, KeyAccess.call, List.cons.injEq, AttrResult.code.injEq,
    and_true, rootKey_put, _iPut_storeInFile, _iPut_storeInXattr] at hrun
  change (if (setDirValue _ _ v a.val).2 then (0 : ℤ) else 1) = (setXattr _ _ _ v).2 at hrun
  have hfiles : FilesOf {a} (withDir rootBase.fs rootKey.path) [[97]] := fun _ _ =>
    ⟨by simp [NoLink, hempty], by simp [FileTree.isDir, hempty]⟩
  by_cases hp : Plain a.fileName
  · refine ⟨hp, ?_⟩
    obtain ⟨fs', he, -⟩ := setDirValue_at hat hfiles rfl hp v
    rw [he, if_pos rfl] at hrun
    by_contra hne
    obtain ⟨e, he⟩ := Option.ne_none_iff_exists'.1 hne
    rw [setXattr, setxattr, he] at hrun
    exact errnoCode_ne_zero e hrun.symm
  · -- The file cannot be opened, and no extended attribute is refused with the code 1.
    have hdir := hat.entry a.clean_fileName.1 (isDir_enter hat.isDir hp)
    rcases setDirValueWith_cases Faults.none (withDir rootBase.fs rootKey.path) rootKey.path v a.val
      with ⟨he, -⟩ | ⟨-, -, hw⟩
    · rw [show setDirValue _ _ v a.val = _ from he] at hrun
      exact absurd hrun.symm (setXattr_ne_one _ _ _ v)
    · obtain ⟨l, hr, hset⟩ := write_ok hw
      rw [joinName_fileName hat, hdir.resolve, Except.ok.injEq] at hr
      exact absurd (hr ▸ hset.isFile) (by simp [hdir.isDir])

/-- The backends identify the same attributes exactly if no two names clash and both take all of
them with all of the values. -/
theorem alike_iff (S : Set AttrArg) (V : Set Bytes) : Alike S V ↔
    (∀ a ∈ S, ∀ b ∈ S, ¬Clash a.text b.text) ∧ ∀ a ∈ S, ∀ v ∈ V, Storable a v :=
  ⟨fun h => ⟨fun a ha b hb => (h.named a ha b hb).not_clash, fun _ ha _ hv => h.storable ha hv⟩,
    fun h => alike_of_not_clash h.1 h.2⟩

/-- NULL. -/
def nullArg : AttrArg :=
  ⟨none, by simp⟩

/-- The empty name. -/
def emptyArg : AttrArg :=
  ⟨some [], by simp⟩

/-- What is put without a name is read with the empty name, but only from a file. -/
theorem not_alike_empty : rootKey.Comparable {nullArg, emptyArg} rootBase.fs ∧
    rootKey.results storeInFile rootBase.fs [.put nullArg [1], .get emptyArg] =
      [.code 0, .value (some [1])] ∧
    rootKey.results storeInXattr rootBase.fs [.put nullArg [1], .get emptyArg] =
      [.code 0, .value none] ∧
    ¬Alike Set.univ Set.univ :=
  ⟨comparable_rootKey _, by decide +kernel, by decide +kernel, fun h =>
    (h.named emptyArg trivial nullArg trivial).not_clash (Or.inl ⟨rfl, rfl⟩)⟩

/-- A put of `x` overwrites `.x`, but not in files. -/
example :
    let calls : List AttrCall := [.put ⟨some [dot, 120], by decide⟩ [1],
      .put ⟨some [120], by decide⟩ [2], .get ⟨some [dot, 120], by decide⟩]
    rootKey.results storeInFile rootBase.fs calls = [.code 0, .code 0, .value (some [1])] ∧
      rootKey.results storeInXattr rootBase.fs calls = [.code 0, .code 0, .value (some [2])] := by
  decide +kernel

end Idb
