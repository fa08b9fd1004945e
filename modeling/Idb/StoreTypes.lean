import Idb.Shape
import Idb.KeyMap
import Idb.ValueReads

/-!
# Store types

A store type selects files, extended attributes or both. A get looks in all that are selected,
at the plain path of the key and at its place in the partitions ; the existence test looks in
one of them, and a delete removes from one of them at one of the paths. `storesAgree_iff` says
in which states the three agree nevertheless.
-/

namespace Idb

open Posix FileSystem FileTree

/-! ## Where an attribute is -/

/-- Where attributes are kept. -/
inductive Backend where
  | file
  | xattr
  deriving DecidableEq, Repr

/-- The store type selects the backend. -/
def Selects (aStoreType : ℤ) : Backend → Prop
  | .file => aStoreType.testBit storeInFileBit
  | .xattr => aStoreType.testBit storeInXattrBit

instance (aStoreType : ℤ) (b : Backend) : Decidable (Selects aStoreType b) := by
  cases b <;> exact inferInstanceAs (Decidable (_ = true))

/-- The one that is tested and removed from. -/
def mainBackend (aStoreType : ℤ) : Backend :=
  if aStoreType.testBit storeInXattrBit then .xattr else .file

/-- The path of what holds the attribute. -/
def backendPath (path : Bytes) (aAttribute : Option Bytes) : Backend → Bytes
  | .file => makeAttrFileName path aAttribute
  | .xattr => path

/-- The backend holds the attribute of the directory at `path`. -/
def HasAttr (fs : FileSystem) (path : Bytes) (aAttribute : Option Bytes) : Backend → Prop
  | .file => isDirValueExists fs path aAttribute
  | .xattr => isXattrExists fs path (generateXattrName aAttribute)

/-- What is at the path of the attribute's file, if anything, is a regular file. -/
def AttrFile (fs : FileSystem) (path : Bytes) (aAttribute : Option Bytes) : Prop :=
  ∀ n, fs.lstat (makeAttrFileName path aAttribute) = .ok n → n.fileType = .reg

/-- The paths at which the attributes of a key are looked for. -/
def lookPaths (iDBMaxPageCount : ℤ) (fs : FileSystem) (vDir : Bytes) : List Bytes :=
  vDir :: if iDBMaxPageCount > 0 then (iIsKeyDirExists fs vDir).toList else []

section

variable {fs fs' : FileSystem} {path : Bytes} {a : Option Bytes} {t : ℤ} {b : Backend}

theorem eq_file_of_selects (hm : mainBackend t = .file) (h : Selects t b) : b = .file := by
  cases b with
  | file => rfl
  | xattr =>
    rw [mainBackend, if_pos (show t.testBit storeInXattrBit = true from h)] at hm
    simp at hm

/-- When an attribute is in its file. -/
theorem hasAttr_file : HasAttr fs path a .file ↔
    ∃ l n, fs.resolve true (makeAttrFileName path a) = .ok l ∧ fs.tree.get l = some n ∧
      n.isDir = false := by
  have hfile : HasAttr fs path a .file ↔
      directoryExists fs (makeAttrFileName path a) = pathIsFile := decide_eq_true_iff
  rw [hfile, directoryExists_eq_file]
  simp only [stat_eq_ok]
  constructor
  · rintro ⟨n, ⟨l, hl, hg⟩, hd⟩
    exact ⟨l, n, hl, hg, hd⟩
  · rintro ⟨l, n, hl, hg, hd⟩
    exact ⟨n, ⟨l, hl, hg⟩, hd⟩

/-- When an attribute is in its extended attribute. -/
theorem hasAttr_xattr : HasAttr fs path a .xattr ↔
    ∃ l n v, fs.resolve true path = .ok l ∧ fs.tree.get l = some n ∧
      nodeXattrs n (generateXattrName a) = some v := by
  have hsome : HasAttr fs path a .xattr ↔ ∃ v, fs.getxattr path (generateXattrName a) = .ok v := by
    simp only [HasAttr, isXattrExists]
    cases fs.getxattr path (generateXattrName a) <;> simp [Except.toOption]
  rw [hsome]
  simp only [getxattr_eq_ok]
  constructor
  · rintro ⟨v, l, n, h⟩
    exact ⟨l, n, v, h⟩
  · rintro ⟨l, n, v, h⟩
    exact ⟨v, l, n, h⟩

/-- An attribute's file is a regular file, and no link leads to it. -/
theorem AttrFile.get (h : AttrFile fs path a) {l : Loc} {n : Node Xattrs}
    (hl : fs.resolve true (makeAttrFileName path a) = .ok l) (hg : fs.tree.get l = some n) :
    n.fileType = .reg ∧ fs.resolve false (makeAttrFileName path a) = .ok l := by
  obtain ⟨q, hq, hgq, hnl⟩ := resolve_nofollow hl (by simp [hg])
  obtain ⟨n', hn'⟩ := Option.ne_none_iff_exists'.1 hgq
  have hreg := h n' (lstat_eq_ok.2 ⟨q, hq, hn'⟩)
  obtain rfl := hnl fun target ht => by
    rw [hn', Option.some.injEq] at ht
    rw [ht] at hreg
    simp [Node.fileType] at hreg
  rw [hg, Option.some.injEq] at hn'
  exact ⟨hn' ▸ hreg, hq⟩

/-! ## Get and test -/

/-- `GetDirValue` answers exactly where the attribute is in its file. -/
theorem getDirValue_ne_none (host : Host) (h : AttrFile fs path a) :
    getDirValue host fs path a ≠ none ↔ HasAttr fs path a .file := by
  rw [hasAttr_file, getDirValue]
  constructor
  · intro hg
    split at hg
    · next v x hn =>
      obtain ⟨l, hl, hgl⟩ := stat_eq_ok.1 hn
      exact ⟨l, _, hl, hgl, rfl⟩
    · next x hn =>
      obtain ⟨l, hl, hgl⟩ := stat_eq_ok.1 hn
      have := (h.get hl hgl).1
      simp [Node.fileType] at this
    · exact absurd rfl hg
  · rintro ⟨l, n, hl, hg, hd⟩
    have hreg := (h.get hl hg).1
    rw [stat_eq_ok.2 ⟨l, hl, hg⟩]
    cases n with
    | dir x => simp [Node.isDir] at hd
    | file v x => simp
    | link target => simp [Node.fileType] at hreg

theorem getXattr_ne_none : getXattr fs path (generateXattrName a) ≠ none ↔
    HasAttr fs path a .xattr := by
  rw [getXattr, HasAttr, isXattrExists, Option.isSome_iff_ne_none]

/-- `_iGet` answers where the attribute is in one of the stores selected. -/
theorem _iGet_ne_none (host : Host) (h : AttrFile fs path a) :
    _iGet host fs path a t ≠ none ↔ ∃ b, Selects t b ∧ HasAttr fs path a b := by
  have hf := getDirValue_ne_none host h
  have hx := @getXattr_ne_none fs path a
  have hex : (∃ b, Selects t b ∧ HasAttr fs path a b) ↔
      (Selects t .xattr ∧ HasAttr fs path a .xattr) ∨
        (Selects t .file ∧ HasAttr fs path a .file) := by
    constructor
    · rintro ⟨b, hb⟩
      cases b with
      | file => exact Or.inr hb
      | xattr => exact Or.inl hb
    · rintro (hb | hb)
      · exact ⟨.xattr, hb⟩
      · exact ⟨.file, hb⟩
  rw [hex, ← hf, ← hx, _iGet]
  simp only [Selects]
  by_cases h₁ : t.testBit storeInXattrBit = true <;>
    by_cases h₂ : t.testBit storeInFileBit = true <;>
    cases hgx : getXattr fs path (generateXattrName a) <;> simp [h₁, h₂]

/-- `_AttrIsExists` asks the main store. -/
theorem _attrIsExists_iff (ht : Selects t (mainBackend t)) :
    _attrIsExists fs path a t ↔ HasAttr fs path a (mainBackend t) := by
  unfold mainBackend at ht ⊢
  rw [_attrIsExists]
  split_ifs at ht ⊢ with h₁ h₂
  · rfl
  · rfl
  · exact absurd ht h₂

end

/-! ## Delete -/

/-- The attribute of `l` is removed from the backend. -/
structure AttrRemoved (fs fs' : FileSystem) (a : Option Bytes) (b : Backend) (l : Loc) : Prop where
  shape : SameShape fs fs'
  updated : match b with
    | .file => fs.tree.Updated fs'.tree l none
    | .xattr => ∃ n, fs.tree.get l = some n ∧ fs.tree.Updated fs'.tree l
        (some (n.mapMeta fun x m => if m = generateXattrName a then none else x m))

section

variable {fs fs' : FileSystem} {path : Bytes} {a : Option Bytes} {t : ℤ} {b : Backend}

namespace AttrRemoved

/-- When an attribute is in its file. -/
theorem hasAttr_file {l : Loc} (h : AttrRemoved fs fs' a .file l) :
    HasAttr fs' path a .file ↔ HasAttr fs path a .file ∧
      ¬fs.resolve true (makeAttrFileName path a) = .ok l := by
  obtain ⟨hs, hu⟩ := h
  rw [Idb.hasAttr_file, Idb.hasAttr_file]
  simp only [hs.resolve_iff]
  constructor
  · rintro ⟨m, n, hr, hg, hd⟩
    rw [hu m] at hg
    split_ifs at hg with hml
    refine ⟨⟨m, n, hr, hg, hd⟩, fun hr' => ?_⟩
    rw [hr, Except.ok.injEq] at hr'
    exact hml hr'
  · rintro ⟨⟨m, n, hr, hg, hd⟩, hne⟩
    have hml : m ≠ l := by
      rintro rfl
      exact hne hr
    exact ⟨m, n, hr, by rw [hu m, if_neg hml, hg], hd⟩

/-- Files are not touched when an extended attribute is removed. -/
theorem hasAttr_file_of_xattr {l : Loc} (h : AttrRemoved fs fs' a .xattr l) :
    HasAttr fs' path a .file ↔ HasAttr fs path a .file := by
  obtain ⟨hs, k, hk, hu⟩ := h
  rw [Idb.hasAttr_file, Idb.hasAttr_file]
  simp only [hs.resolve_iff]
  constructor
  · rintro ⟨m, n, hr, hg, hd⟩
    rw [hu m] at hg
    split_ifs at hg with hml
    · rw [Option.some.injEq] at hg
      exact ⟨m, k, hr, hml ▸ hk, by rw [← hg] at hd; simpa using hd⟩
    · exact ⟨m, n, hr, hg, hd⟩
  · rintro ⟨m, n, hr, hg, hd⟩
    by_cases hml : m = l
    · rw [hml, hk, Option.some.injEq] at hg
      refine ⟨m, _, hr, by rw [hu m, if_pos hml], ?_⟩
      rw [isDir_mapMeta, hg, hd]
    · exact ⟨m, n, hr, by rw [hu m, if_neg hml, hg], hd⟩

/-- When an attribute is in its extended attribute. -/
theorem hasAttr_xattr {l : Loc} (h : AttrRemoved fs fs' a .xattr l) :
    HasAttr fs' path a .xattr ↔ HasAttr fs path a .xattr ∧ ¬fs.resolve true path = .ok l := by
  obtain ⟨hs, k, hk, hu⟩ := h
  rw [Idb.hasAttr_xattr, Idb.hasAttr_xattr]
  simp only [hs.resolve_iff]
  constructor
  · rintro ⟨m, n, v, hr, hg, hv⟩
    rw [hu m] at hg
    split_ifs at hg with hml
    · rw [Option.some.injEq] at hg
      rw [← hg] at hv
      cases k <;> simp [Node.mapMeta, nodeXattrs] at hv
    · refine ⟨⟨m, n, v, hr, hg, hv⟩, fun hr' => ?_⟩
      rw [hr, Except.ok.injEq] at hr'
      exact hml hr'
  · rintro ⟨⟨m, n, v, hr, hg, hv⟩, hne⟩
    have hml : m ≠ l := by
      rintro rfl
      exact hne hr
    exact ⟨m, n, v, hr, by rw [hu m, if_neg hml, hg], hv⟩

/-- What is left is what was there, but for the one removed. -/
theorem hasAttr {l : Loc} (h : AttrRemoved fs fs' a (mainBackend t) l) (hb : Selects t b) :
    HasAttr fs' path a b ↔ HasAttr fs path a b ∧
      ¬(b = mainBackend t ∧ fs.resolve true (backendPath path a b) = .ok l) := by
  cases hm : mainBackend t with
  | file =>
    rw [hm] at h
    obtain rfl := eq_file_of_selects hm hb
    simpa only [backendPath, true_and] using h.hasAttr_file
  | xattr =>
    rw [hm] at h
    cases b with
    | file => simpa using h.hasAttr_file_of_xattr
    | xattr => simpa only [backendPath, true_and] using h.hasAttr_xattr

end AttrRemoved

/-- Removing an attribute leaves attributes in files. -/
theorem AttrRemoved.attrFile {l : Loc} (h : AttrRemoved fs fs' a b l) (hf : AttrFile fs path a) :
    AttrFile fs' path a := by
  obtain ⟨hs, hu⟩ := h
  intro n hn
  obtain ⟨m, hr, hg⟩ := lstat_eq_ok.1 hn
  rw [hs.resolve_iff] at hr
  cases b with
  | file =>
    dsimp only at hu
    rw [hu m] at hg
    split_ifs at hg
    exact hf n (lstat_eq_ok.2 ⟨m, hr, hg⟩)
  | xattr =>
    obtain ⟨k, hk, hu⟩ := hu
    rw [hu m] at hg
    split_ifs at hg with hml
    · rw [Option.some.injEq] at hg
      rw [← hg, fileType_mapMeta]
      exact hf k (lstat_eq_ok.2 ⟨m, hr, hml ▸ hk⟩)
    · exact hf n (lstat_eq_ok.2 ⟨m, hr, hg⟩)

/-- Deleting an extended attribute that is there removes it, and fails otherwise. -/
theorem delXattr_spec : (HasAttr fs path a .xattr →
      ∃ fs' l, delXattr fs path (generateXattrName a) = (fs', 0) ∧
        fs.resolve true path = .ok l ∧ AttrRemoved fs fs' a .xattr l) ∧
    (¬HasAttr fs path a .xattr →
      (delXattr fs path (generateXattrName a)).1 = fs ∧
        (delXattr fs path (generateXattrName a)).2 ≠ 0) := by
  constructor
  · intro h
    obtain ⟨l, n, v, hr, hg, hv⟩ := hasAttr_xattr.1 h
    have hl : fs.tree.NoLink l := by
      intro target ht
      rw [hg, Option.some.injEq] at ht
      simp [ht, nodeXattrs] at hv
    obtain ⟨t', ht'⟩ := setMeta_eq
      (fun (x : Xattrs) m => if m = generateXattrName a then none else x m) (by simp [hg]) hl
    obtain ⟨n', hn', -, hu⟩ := setMeta_ok ht'
    rw [hg, Option.some.injEq] at hn'
    subst hn'
    refine ⟨{ fs with tree := t' }, l, ?_, hr, sameShape_mapMeta rfl hg hl hu, n, hg, hu⟩
    rw [delXattr, removexattr, getxattr_eq_ok.2 ⟨l, n, hr, hg, hv⟩]
    dsimp only
    rw [modify_eq hr ht']
    rfl
  · intro h
    have herr : ∃ e, fs.getxattr path (generateXattrName a) = .error e := by
      cases hx : fs.getxattr path (generateXattrName a) with
      | error e => exact ⟨e, rfl⟩
      | ok v =>
        refine absurd ?_ h
        simp [HasAttr, isXattrExists, hx, Except.toOption]
    obtain ⟨e, he⟩ := herr
    rw [delXattr, removexattr, he]
    refine ⟨rfl, ?_⟩
    cases e <;> simp [codeResult, errnoCode]

/-- Deleting an attribute's file that is there removes it, and fails otherwise. -/
theorem delDirValue_spec (hf : AttrFile fs path a) :
    (HasAttr fs path a .file → ∃ fs' l, delDirValue fs path a = (fs', true) ∧
      fs.resolve true (makeAttrFileName path a) = .ok l ∧ AttrRemoved fs fs' a .file l) ∧
    (¬HasAttr fs path a .file → delDirValue fs path a = (fs, false)) := by
  constructor
  · intro h
    obtain ⟨l, n, hr, hg, hd⟩ := hasAttr_file.1 h
    obtain ⟨hreg, hr'⟩ := hf.get hr hg
    have hnd : fs.tree.isDir l = false := by rw [FileTree.isDir, hg]; exact hd
    obtain ⟨t', ht'⟩ := unlinkAt_eq hnd hg
    have hu := (unlinkAt_ok ht').2.2
    refine ⟨{ fs with tree := t' }, l, ?_, hr, SameShape.of_updated rfl hu ?_ fun target => ?_, hu⟩
    · rw [delDirValue, unlink, modify_eq hr' ht']
      rfl
    · simp [hnd]
    · simp only [reduceCtorEq, iff_false]
      intro ht
      rw [hg, Option.some.injEq] at ht
      simp [ht, Node.fileType] at hreg
  · intro h
    cases hu : fs.unlink (makeAttrFileName path a) with
    | error e => rw [delDirValue, hu]; rfl
    | ok fs' =>
      refine absurd ?_ h
      obtain ⟨l, hr, ho, -⟩ := modify_ok hu
      obtain ⟨hd, hs, -⟩ := unlinkAt_ok ho
      obtain ⟨n, hg⟩ := Option.isSome_iff_exists.1 hs
      have hreg := hf n (lstat_eq_ok.2 ⟨l, hr, hg⟩)
      have hl : fs.tree.NoLink l := by
        intro target ht
        rw [hg, Option.some.injEq] at ht
        simp [ht, Node.fileType] at hreg
      refine hasAttr_file.2 ⟨l, n, ?_, hg, by rw [FileTree.isDir, hg] at hd; exact hd⟩
      unfold FileSystem.resolve at hr ⊢
      split_ifs at hr ⊢
      exact namei_follow hl hr

/-- A delete removes the attribute from the backend that is tested, or nothing. -/
theorem _deleleAttr_spec (ht : Selects t (mainBackend t)) (hf : AttrFile fs path a) :
    (HasAttr fs path a (mainBackend t) → ∃ fs' l, _deleleAttr fs path a t = (fs', true) ∧
      fs.resolve true (backendPath path a (mainBackend t)) = .ok l ∧
        AttrRemoved fs fs' a (mainBackend t) l) ∧
    (¬HasAttr fs path a (mainBackend t) → (_deleleAttr fs path a t).2 = false) := by
  unfold mainBackend at ht ⊢
  rw [_deleleAttr]
  split_ifs at ht ⊢ with h₁ h₂
  · have hspec := @delXattr_spec fs path a
    refine ⟨fun h => ?_, fun h => ?_⟩
    · obtain ⟨fs', l, he, hr, hrem⟩ := hspec.1 h
      exact ⟨fs', l, by simp [he], hr, hrem⟩
    · simpa using (hspec.2 h).2
  · have hspec := delDirValue_spec hf
    exact ⟨hspec.1, fun h => by rw [hspec.2 h]⟩
  · exact absurd ht h₂

end

/-! ## The operations on a key -/

section

variable {fs : FileSystem} {aDir aKey : Bytes} {a : Option Bytes} {t M : ℤ}

/-- `iGet` answers when one of the paths looked at has the attribute in a store selected. -/
theorem iGet_ne_none (host : Host)
    (hf : ∀ p ∈ lookPaths M fs (sdsJoinPathLen aDir aKey), AttrFile fs p a) :
    iGet host M fs aDir aKey a t ≠ none ↔
      ∃ p ∈ lookPaths M fs (sdsJoinPathLen aDir aKey), ∃ b, Selects t b ∧ HasAttr fs p a b := by
  have hex : ∀ p ∈ lookPaths M fs (sdsJoinPathLen aDir aKey),
      (∃ b, Selects t b ∧ HasAttr fs p a b) ↔ _iGet host fs p a t ≠ none :=
    fun p hp => (_iGet_ne_none host (hf p hp)).symm
  rw [exists_congr fun p => and_congr_right (hex p), iGet]
  cases hP : _iGet host fs (sdsJoinPathLen aDir aKey) a t with
  | some v => simp [lookPaths, hP]
  | none =>
    by_cases hM : M > 0
    · cases hQ : iIsKeyDirExists fs (sdsJoinPathLen aDir aKey) <;>
        simp [lookPaths, hP, hM, hQ]
    · simp [lookPaths, hP, hM]

/-- `iIsExists` holds when one of the paths looked at has the attribute in the main store. -/
theorem iIsExists_iff (ht : Selects t (mainBackend t)) : iIsExists M fs aDir aKey a t ↔
    ∃ p ∈ lookPaths M fs (sdsJoinPathLen aDir aKey), HasAttr fs p a (mainBackend t) := by
  rw [exists_congr fun p => and_congr_right fun _ =>
    (@_attrIsExists_iff fs p a t ht).symm, iIsExists]
  by_cases hP : _attrIsExists fs (sdsJoinPathLen aDir aKey) a t = true
  · simp [lookPaths, hP]
  · rw [if_neg hP]
    by_cases hM : M > 0
    · cases hQ : iIsKeyDirExists fs (sdsJoinPathLen aDir aKey) <;>
        simp [lookPaths, hP, hM, hQ]
    · simp [lookPaths, hP, hM]

/-- An attribute is neither read nor seen exactly if no place that is looked at has it. -/
theorem notFound_iff (host : Host) (ht : Selects t (mainBackend t))
    (hf : ∀ p ∈ lookPaths M fs (sdsJoinPathLen aDir aKey), AttrFile fs p a) :
    (iGet host M fs aDir aKey a t = none ∧ iIsExists M fs aDir aKey a t = false) ↔
      ¬∃ p ∈ lookPaths M fs (sdsJoinPathLen aDir aKey), ∃ b, Selects t b ∧ HasAttr fs p a b := by
  have hget := iGet_ne_none (t := t) host hf
  constructor
  · rintro ⟨h, -⟩ h'
    exact hget.2 h' h
  · intro h
    refine ⟨not_not.1 fun h' => h (hget.1 h'), ?_⟩
    rw [← Bool.not_eq_true, iIsExists_iff ht]
    rintro ⟨p, hp, h'⟩
    exact h ⟨p, hp, _, ht, h'⟩

/-- The directory a deletion chooses is one of the paths looked at. -/
theorem mem_lookPaths_of_delete {L : Bytes} (h : keyDirToDelete M fs aDir aKey = some L) :
    L ∈ lookPaths M fs (sdsJoinPathLen aDir aKey) := by
  rw [keyDirToDelete] at h
  unfold lookPaths
  split_ifs at h with hc
  · rw [if_pos hc.2, h]
    simp
  · rw [Option.some.injEq] at h
    exact h ▸ List.mem_cons_self

theorem SameShape.lookPaths_eq {fs' : FileSystem} (h : SameShape fs fs') (vDir : Bytes) :
    lookPaths M fs' vDir = lookPaths M fs vDir := by
  rw [lookPaths, lookPaths, h.iIsKeyDirExists_eq]

end

/-- The values of the attribute at the places where a get looks, in its order. -/
def heldValues (host : Host) (iDBMaxPageCount : ℤ) (fs : FileSystem) (vDir : Bytes)
    (aAttribute : Option Bytes) (aStoreType : ℤ) : List Bytes :=
  (lookPaths iDBMaxPageCount fs vDir).flatMap fun path =>
    (if aStoreType.testBit storeInXattrBit then
      (getXattr fs path (generateXattrName aAttribute)).toList else []) ++
    if aStoreType.testBit storeInFileBit then (getDirValue host fs path aAttribute).toList else []

/-- `_iGet` returns the first of the values that the selected stores hold. -/
theorem _iGet_eq_head? (host : Host) (fs : FileSystem) (path : Bytes) (a : Option Bytes) (t : ℤ) :
    _iGet host fs path a t =
      ((if t.testBit storeInXattrBit then (getXattr fs path (generateXattrName a)).toList
        else []) ++
        if t.testBit storeInFileBit then (getDirValue host fs path a).toList else []).head? := by
  rw [_iGet]
  split_ifs with hx <;>
    cases hg : getXattr fs path (generateXattrName a) <;>
    cases hf : getDirValue host fs path a <;> simp_all

/-- A get finds the first of them. -/
theorem iGet_eq_head? (host : Host) (M : ℤ) (fs : FileSystem) (aDir aKey : Bytes)
    (a : Option Bytes) (t : ℤ) : iGet host M fs aDir aKey a t =
      (heldValues host M fs (sdsJoinPathLen aDir aKey) a t).head? := by
  rw [iGet, heldValues, lookPaths, List.flatMap_cons, List.head?_append, ← _iGet_eq_head?]
  cases _iGet host fs (sdsJoinPathLen aDir aKey) a t with
  | some v => rfl
  | none =>
    rw [Option.none_or]
    dsimp only
    by_cases hM : M > 0
    · rw [if_pos hM, if_pos hM]
      cases iIsKeyDirExists fs (sdsJoinPathLen aDir aKey) with
      | none => rfl
      | some vDir =>
        rw [Option.toList_some, List.flatMap_cons, List.flatMap_nil, List.append_nil]
        exact _iGet_eq_head? host fs vDir a t
    · rw [if_neg hM, if_neg hM]
      rfl

/-- The attribute exists exactly if a get returns a value, and after a delete that succeeds it is
neither got nor does it exist. -/
def StoresAgree (host : Host) (iDBMaxPageCount : ℤ) (fs : FileSystem) (aDir aKey : Bytes)
    (aAttribute : Option Bytes) (aStoreType : ℤ) : Prop :=
  (∃ value, returned (iGet host iDBMaxPageCount fs aDir aKey aAttribute aStoreType) = some value ∧
    (iIsExists iDBMaxPageCount fs aDir aKey aAttribute aStoreType ↔ value ≠ none)) ∧
  ((iDelete iDBMaxPageCount fs aDir aKey aAttribute aStoreType).2 = true →
    returned (iGet host iDBMaxPageCount
      (iDelete iDBMaxPageCount fs aDir aKey aAttribute aStoreType).1 aDir aKey aAttribute
        aStoreType) = some none ∧
    iIsExists iDBMaxPageCount (iDelete iDBMaxPageCount fs aDir aKey aAttribute aStoreType).1
      aDir aKey aAttribute aStoreType = false)

/-- The three agree exactly if the value that is met first is short enough to be read, the backend
tested has the attribute when any selected one has it, and the attribute is nowhere but where a
delete removes it from. -/
theorem storesAgree_iff (host : Host) (iDBMaxPageCount : ℤ) (fs : FileSystem) (aDir aKey : Bytes)
    (aAttribute : Option Bytes) (aStoreType : ℤ)
    (ht : aStoreType = 1 ∨ aStoreType = 2 ∨ aStoreType = 3)
    (hf : ∀ p ∈ lookPaths iDBMaxPageCount fs (sdsJoinPathLen aDir aKey),
      AttrFile fs p aAttribute) :
    StoresAgree host iDBMaxPageCount fs aDir aKey aAttribute aStoreType ↔
      ((∀ v, (heldValues host iDBMaxPageCount fs (sdsJoinPathLen aDir aKey) aAttribute
        aStoreType).head? = some v → v.length < Sdshdr.sdsLimit) ∧
      ∀ p ∈ lookPaths iDBMaxPageCount fs (sdsJoinPathLen aDir aKey), ∀ b, Selects aStoreType b →
        HasAttr fs p aAttribute b →
          ∃ p' ∈ lookPaths iDBMaxPageCount fs (sdsJoinPathLen aDir aKey),
            HasAttr fs p' aAttribute (mainBackend aStoreType)) ∧
      (∀ vDir, keyDirToDelete iDBMaxPageCount fs aDir aKey = some vDir →
        HasAttr fs vDir aAttribute (mainBackend aStoreType) →
          ∀ p ∈ lookPaths iDBMaxPageCount fs (sdsJoinPathLen aDir aKey), ∀ b,
            Selects aStoreType b → HasAttr fs p aAttribute b → b = mainBackend aStoreType ∧
              fs.resolve true (backendPath p aAttribute b) =
                fs.resolve true (backendPath vDir aAttribute b)) := by
  have hsel : Selects aStoreType (mainBackend aStoreType) := by
    rcases ht with rfl | rfl | rfl <;> decide
  refine and_congr ?_ ?_
  · rw [returned_iff, ← iGet_eq_head?, iIsExists_iff hsel, iGet_ne_none host hf]
    refine and_congr_right fun _ => ?_
    constructor
    · rintro h p hp b hb ha
      exact h.2 ⟨p, hp, b, hb, ha⟩
    · intro h
      exact ⟨fun ⟨p, hp, ha⟩ => ⟨p, hp, _, hsel, ha⟩, fun ⟨p, hp, b, hb, ha⟩ => h p hp b hb ha⟩
  · rw [iDelete]
    cases hL : keyDirToDelete iDBMaxPageCount fs aDir aKey with
    | none => simp
    | some vDir =>
      simp only [Option.some.injEq, forall_eq']
      have hspec := _deleleAttr_spec (t := aStoreType) hsel (hf vDir (mem_lookPaths_of_delete hL))
      by_cases ha : HasAttr fs vDir aAttribute (mainBackend aStoreType)
      · obtain ⟨fs', l, he, hr, hrem⟩ := hspec.1 ha
        have hf' : ∀ p ∈ lookPaths iDBMaxPageCount fs' (sdsJoinPathLen aDir aKey),
            AttrFile fs' p aAttribute := by
          rw [hrem.shape.lookPaths_eq]
          exact fun p hp => hrem.attrFile (hf p hp)
        -- What a get finds in the end is what it found before, less what was removed.
        have hleft : (∃ p ∈ lookPaths iDBMaxPageCount fs (sdsJoinPathLen aDir aKey), ∃ b,
            Selects aStoreType b ∧ HasAttr fs' p aAttribute b) ↔
            ∃ p ∈ lookPaths iDBMaxPageCount fs (sdsJoinPathLen aDir aKey), ∃ b,
              Selects aStoreType b ∧ HasAttr fs p aAttribute b ∧
                ¬(b = mainBackend aStoreType ∧
                  fs.resolve true (backendPath p aAttribute b) = .ok l) :=
          exists_congr fun p => and_congr_right fun _ => exists_congr fun b =>
            and_congr_right fun hb => hrem.hasAttr hb
        rw [he, returned_eq_some_none, notFound_iff host hsel hf', hrem.shape.lookPaths_eq, hleft]
        simp only [true_imp_iff, ha]
        constructor
        · intro h p hp b hb hab
          by_contra hne
          refine h ⟨p, hp, b, hb, hab, fun hc => hne ⟨hc.1, ?_⟩⟩
          rw [hc.2, hc.1, hr]
        · rintro h ⟨p, hp, b, hb, hab, hne⟩
          obtain ⟨hbm, hres⟩ := h p hp b hb hab
          exact hne ⟨hbm, by rw [hres, hbm, hr]⟩
      · rw [hspec.2 ha]
        simp [ha]

/-- The key `a` with a value in a file. -/
def fileOnly : FileSystem :=
  (iPut plainHost 0 rootBase.fs [slash] .dkIgnored (some [97]) [1] none storeInFile).1

/-- The hypotheses hold for a value in its file alone. -/
theorem storesAgree_iff_fileOnly :
    (∀ p ∈ lookPaths 0 fileOnly (sdsJoinPathLen [slash] [97]), AttrFile fileOnly p none) ∧
    (StoresAgree plainHost 0 fileOnly [slash] [97] none storeInFile ↔
      ((∀ v, (heldValues plainHost 0 fileOnly (sdsJoinPathLen [slash] [97]) none
        storeInFile).head? = some v → v.length < Sdshdr.sdsLimit) ∧
      ∀ p ∈ lookPaths 0 fileOnly (sdsJoinPathLen [slash] [97]), ∀ b, Selects storeInFile b →
        HasAttr fileOnly p none b →
          ∃ p' ∈ lookPaths 0 fileOnly (sdsJoinPathLen [slash] [97]),
            HasAttr fileOnly p' none (mainBackend storeInFile)) ∧
      (∀ vDir, keyDirToDelete 0 fileOnly [slash] [97] = some vDir →
        HasAttr fileOnly vDir none (mainBackend storeInFile) →
          ∀ p ∈ lookPaths 0 fileOnly (sdsJoinPathLen [slash] [97]), ∀ b, Selects storeInFile b →
            HasAttr fileOnly p none b → b = mainBackend storeInFile ∧
              fileOnly.resolve true (backendPath p none b) =
                fileOnly.resolve true (backendPath vDir none b))) := by
  have hf : ∀ p ∈ lookPaths 0 fileOnly (sdsJoinPathLen [slash] [97]), AttrFile fileOnly p none := by
    intro p hp n hn
    obtain rfl : p = [slash, 97] := by simpa [lookPaths, sdsJoinPathLen] using hp
    rw [show fileOnly.lstat (makeAttrFileName [slash, 97] none) = .ok (.file [1] fun _ => none)
      from rfl, Except.ok.injEq] at hn
    rw [← hn]
    rfl
  exact ⟨hf, storesAgree_iff plainHost 0 fileOnly [slash] [97] none storeInFile (Or.inl rfl) hf⟩

/-- With both store types the value is got, but does not exist. -/
theorem not_storesAgree_fileOnly : ¬StoresAgree plainHost 0 fileOnly [slash] [97] none 3 := by
  rintro ⟨hagree, -⟩
  have hexists := (returned_iff.1 hagree).2
  have hget : iGet plainHost 0 fileOnly [slash] [97] none 3 ≠ none := by decide +kernel
  exact absurd (hexists.2 hget) (by decide +kernel)

end Idb
