import Idb.PlainKeys
import Idb.Refinement
import Idb.ValueReads

/-!
# The store as a tree of keys

Without a page limit a base directory that starts empty is a tree of keys (`KeyTree`) : it mirrors
one (`Mirrors`), every call on the store keeps it so, and is answered as the tree answers it
(`exec_refines`). The calls are those that put, read, test and delete attributes, test and delete
keys, and list and count the subkeys and the attributes of a key. A call that reads a value returns
if the value is not too long (`KeyCall.Readable`).
-/

namespace Idb

open Posix FileSystem FileTree Sdshdr

/-! ## Listing the attributes of a key -/

/-- The option `LIST_ALL_FILES`. -/
def listAllFiles : ℕ :=
  1 <<< listFile ||| 1 <<< listNormalFile ||| 1 <<< listSymbolic ||| 1 <<< listHiddenFile

section

variable (host : Host) (fs : FileSystem) (aDir : Bytes) (aPattern : Option Bytes)

/-- The number of attribute files, as a `size_t`. -/
def _iAttrCount : ℕ :=
  sizeT (countDir host fs aDir aPattern listAllFiles)

/-- The number of attributes of a key. -/
def iAttrCountInFile : ℕ :=
  _iAttrCount host fs aDir aPattern

/-- The attributes of a key. -/
def iAttrsInFile (aSkipCount aCount : ℕ) : Option (List Bytes) :=
  listDirItems host fs aDir aPattern listAllFiles aSkipCount aCount

end

/-! ## Calls -/

/-- The name of an attribute file. -/
abbrev FileName :=
  {n : Name // AttrName n}

/-- The name of the attribute's file. -/
def Attr.file (a : Attr) : FileName :=
  ⟨a.name, a.attrName⟩

/-- A call on the store. The empty key means the base directory, which is not deleted. -/
inductive KeyCall
  | put (aKey : List Key) (aAttribute : Attr) (aValue : Bytes)
  | get (aKey : List Key) (aAttribute : Attr)
  | isExists (aKey : List Key) (aAttribute : Attr)
  | delete (aKey : List Key) (aAttribute : Attr)
  | keyDelete (aKey : List Key) (hne : aKey ≠ [])
  | keyIsExists (aKey : List Key)
  | subkeys (aKey : List Key)
  | subkeyTotal (aKey : List Key)
  | attrs (aKey : List Key) (aPattern : Option Bytes)
  | attrCount (aKey : List Key) (aPattern : Option Bytes)

/-- What a call returns. Lists come in an order the system chooses. -/
inductive Answer
  | number (n : ℤ)
  | ok (done : Bool)
  | value (v : Option Bytes)
  | names (ns : Option (Multiset Bytes))
  deriving DecidableEq

/-- The calls with a store type, if they return. -/
def exec (host : Host) (iDBMaxPageCount : ℤ) (iDBPartitionFullProcess
    iDBDuplicationKeyProcess : TIDBProcesses) (aStoreType : ℤ) (aDir : Bytes) (fs : FileSystem) :
    KeyCall → Option (FileSystem × Answer)
  | .put q a v =>
    let put := iPut host iDBMaxPageCount fs aDir iDBPartitionFullProcess (some (keyOf q)) v a.val
      aStoreType
    some (put.1, .number put.2)
  | .get q a =>
    (returned (iGet host iDBMaxPageCount fs aDir (keyOf q) a.val aStoreType)).map fun value =>
      (fs, .value value)
  | .isExists q a =>
    some (fs, .ok (iIsExists iDBMaxPageCount fs aDir (keyOf q) a.val aStoreType))
  | .delete q a =>
    let deleted := iDelete iDBMaxPageCount fs aDir (keyOf q) a.val aStoreType
    some (deleted.1, .ok deleted.2)
  | .keyDelete q _ =>
    let deleted := iKeyDelete host iDBMaxPageCount fs aDir (keyOf q)
    some (deleted.1, .ok deleted.2)
  | .keyIsExists q => some (fs, .number (iKeyIsExists iDBMaxPageCount fs aDir (keyOf q)))
  | .subkeys q =>
    (iSubkeys host iDBDuplicationKeyProcess fs aDir (keyOf q) none 0 0
      iDBDuplicationKeyProcess).map fun (keys, fs) => (fs, .names (keys.map Multiset.ofList))
  | .subkeyTotal q =>
    (iSubkeyTotal host fs aDir (keyOf q) none iDBDuplicationKeyProcess).map fun n =>
      (fs, .number n)
  | .attrs q aPattern =>
    some (fs, .names ((iAttrsInFile host fs (sdsJoinPathLen aDir (keyOf q)) aPattern 0 0).map
      Multiset.ofList))
  | .attrCount q aPattern =>
    some (fs, .number (iAttrCountInFile host fs (sdsJoinPathLen aDir (keyOf q)) aPattern))

/-- What the calls mean for a tree of keys. A missing key has no lists, and is counted as -1. -/
def spec (host : Host) (t : KeyTree Key FileName Bytes) :
    KeyCall → KeyTree Key FileName Bytes × Answer
  | .put q a v => (t.put q a.file v, .number 0)
  | .get q a => (t, .value (t.value q a.file))
  | .isExists q a => (t, .ok (t.value q a.file).isSome)
  | .delete q a => (t.erase q a.file, .ok (t.value q a.file).isSome)
  | .keyDelete q hne => (t.remove q hne, .ok (q ∈ t.keys))
  | .keyIsExists q => (t, .number (if q ∈ t.keys then pathIsDir else pathIsNotExists))
  | .subkeys q => (t, .names (if q ∈ t.keys then some ((t.children q).val.map Key.val) else none))
  | .subkeyTotal q => (t, .number (if q ∈ t.keys then (t.children q).card else -1))
  | .attrs q aPattern => (t, .names (if q ∈ t.keys then
      some (((t.attrsOf q).filter fun a => fnmMatched host aPattern a.1).val.map Subtype.val)
      else none))
  | .attrCount q aPattern => (t, .number (if q ∈ t.keys then
      ((t.attrsOf q).filter fun a => fnmMatched host aPattern a.1).card else 2 ^ 64 - 1))

/-- A value that is put can be returned. -/
def KeyCall.Short : KeyCall → Prop
  | .put _ _ v => v.length < sdsLimit
  | _ => True

/-- A value that is to be read can be returned. -/
def KeyCall.Readable (t : KeyTree Key FileName Bytes) : KeyCall → Prop
  | .get q a => ∀ v, t.value q a.file = some v → v.length < sdsLimit
  | _ => True

/-- If only short values are put, all that are read are short. -/
theorem readable_of_short {host : Host} {calls : List KeyCall} (h : ∀ c ∈ calls, c.Short) :
    Refinement.Allowed (spec host) (fun t c => c.Readable t) KeyTree.empty calls := by
  refine Refinement.Allowed.of_invariant
    (P := fun t => ∀ q a v, t.value q a = some v → v.length < sdsLimit)
    (fun q a v hv => by simp [KeyTree.empty] at hv) (Refinement.allowed_of_forall h)
    (fun t c ht hc q a v hv => ?_) fun t c ht _ => ?_
  · cases c with
    | put q' a' v' =>
      simp only [spec, KeyTree.value_put] at hv
      split_ifs at hv
      · exact Option.some.inj hv ▸ hc
      · exact ht q a v hv
    | delete q' a' =>
      simp only [spec, KeyTree.value_erase] at hv
      split_ifs at hv
      exact ht q a v hv
    | keyDelete q' hne =>
      simp only [spec, KeyTree.value_remove] at hv
      split_ifs at hv
      exact ht q a v hv
    | _ => exact ht q a v hv
  · cases c with
    | get q a => exact ht q a.file
    | _ => trivial

/-! ## What mirrors a tree -/

/-- Below `d`, which `D` names, there are the keys of the tree and the files of its attributes. -/
structure Mirrors (D : Bytes) (d : Loc) (fs : FileSystem) (t : KeyTree Key FileName Bytes) : Prop
    extends PlainKeys D d fs t.keys where
  files : ∀ l v, d <:+ l → (fs.tree.fileAt l = some v ↔
    ∃ q a, t.value q a = some v ∧ l = a.1 :: keyLoc d q)

/-- An empty base directory. -/
theorem mirrors_empty {D : Bytes} {d : Loc} {fs : FileSystem} (h : fs.At D d)
    (he : ∀ l, Below d l → fs.tree.get l = none) : Mirrors D d fs KeyTree.empty where
  toPlainKeys := plainKeys_empty h he
  files l v hl := by
    refine ⟨fun hv => ?_, fun ⟨q, a, hv, _⟩ => by simp [KeyTree.empty] at hv⟩
    by_cases hne : l = d
    · rw [hne, fileAt_eq_none_of_isDir h.isDir] at hv
      simp at hv
    · simp [fileAt, he l ⟨hl, hne⟩] at hv

/-- The files of attributes do not have places of keys. -/
theorem clear_of_files {d : Loc} {fs : FileSystem} {t : KeyTree Key FileName Bytes}
    (h : ∀ l v, d <:+ l → (fs.tree.fileAt l = some v ↔
      ∃ q a, t.value q a = some v ∧ l = a.1 :: keyLoc d q)) (q : List Key) :
    fs.tree.fileAt (keyLoc d q) = none := by
  refine Option.eq_none_iff_forall_ne_some.2 fun v hv => ?_
  obtain ⟨p, a, -, he⟩ := (h _ v (suffix_keyLoc d q)).1 hv
  exact keyLoc_ne_attr a.2 (suffix_keyLoc d p) he

namespace Mirrors

variable {D : Bytes} {d l : Loc} {fs fs' : FileSystem} {t : KeyTree Key FileName Bytes}
  {q : List Key} {a : Attr} {v : Bytes}

section

variable (h : Mirrors D d fs t)

include h

/-- The attribute's file holds the key's value. -/
theorem fileAt_attr : fs.tree.fileAt (a.name :: keyLoc d q) = t.value q a.file := by
  refine Option.ext fun v => ?_
  rw [h.files _ v ((suffix_keyLoc d q).trans (List.suffix_cons _ _))]
  constructor
  · rintro ⟨p, b, hv, he⟩
    rw [List.cons.injEq] at he
    rw [keyLoc_inj he.2, show a.file = b from Subtype.ext he.1]
    exact hv
  · intro hv
    exact ⟨q, a.file, hv, rfl⟩

/-! ## Reading -/

theorem getDirValue_eq (host : Host) :
    getDirValue host fs (joinName D (keyOf q)) a.val = t.value q a.file := by
  rw [getDirValue_attr (leads_keyOf D d q) h.isAt h.links (h.not_isDir_attr (suffix_keyLoc d q)),
    h.fileAt_attr]

theorem isDirValueExists_eq :
    isDirValueExists fs (joinName D (keyOf q)) a.val = (t.value q a.file).isSome := by
  rw [isDirValueExists_attr (leads_keyOf D d q) h.isAt h.links
    (h.not_isDir_attr (suffix_keyLoc d q)), h.fileAt_attr]

/-! ## Listing -/

variable (host : Host)

/-- The entries of a key that are listed as attributes. -/
theorem mem_chosenNames {aPattern : Option Bytes} {c : Name} :
    c ∈ chosenNames host fs (joinName D (keyOf q)) (keyLoc d q) aPattern listAllFiles ↔
      ∃ a ∈ (t.attrsOf q).filter fun a => fnmMatched host aPattern a.1, a.1 = c := by
  have hs := (suffix_keyLoc d q).trans (List.suffix_cons c _)
  rw [chosenNames, List.mem_filter, Host.mem_names]
  simp only [Finset.mem_filter, KeyTree.mem_attrsOf, Bool.and_eq_true]
  constructor
  · rintro ⟨hg, ⟨-, hk⟩, hm⟩
    rcases get_cases_of_noLink (h.links _ (below_cons (suffix_keyLoc d q) c)) with hn | hd | ⟨v, hv⟩
    · exact absurd hn hg
    · obtain ⟨x, hx⟩ := isDir_iff.1 hd
      simp [hx, kindSelected, entryKind, listAllFiles, listDir, listHiddenFile, listNormalFile,
        listFile, listSymbolic, Nat.testBit] at hk
    · obtain ⟨p, a, ha, he⟩ := (h.files _ v hs).1 hv
      rw [List.cons.injEq] at he
      rw [← keyLoc_inj he.2] at ha
      exact ⟨a, ⟨by simp [ha], he.1 ▸ hm⟩, he.1.symm⟩
  · rintro ⟨a, ⟨ha, hm⟩, rfl⟩
    obtain ⟨v, hv⟩ := Option.isSome_iff_exists.1 ha
    have hfile := (h.files _ v hs).2 ⟨q, a, hv, rfl⟩
    obtain ⟨x, hx⟩ := fileAt_eq_some.1 hfile
    have hplain := (validName_of_get hx).1
    refine ⟨by simp [hx], ⟨?_, ?_⟩, hm⟩
    · simp [shown, listAllFiles, listHiddenFile, listNormalFile, listFile, listSymbolic,
        hplain.2.1, hplain.2.2, Nat.testBit]
    · simp [hx, kindSelected, entryKind, listAllFiles, listHiddenFile, listNormalFile, listFile,
        listSymbolic, Nat.testBit]

/-- The files of a key are its attributes. -/
theorem coe_chosenNames (q : List Key) (aPattern : Option Bytes) :
    (chosenNames host fs (joinName D (keyOf q)) (keyLoc d q) aPattern listAllFiles :
        Multiset Name) =
      ((t.attrsOf q).filter fun a => fnmMatched host aPattern a.1).val.map Subtype.val := by
  refine (Multiset.Nodup.ext (Multiset.coe_nodup.2 nodup_chosenNames) ?_).2 fun c => ?_
  · exact (Finset.nodup _).map Subtype.val_injective
  · simp only [Multiset.mem_coe, Multiset.mem_map, Finset.mem_val, h.mem_chosenNames host]

/-- `iAttrsInFile` lists the attributes of a key that is there. -/
theorem iAttrsInFile_eq (q : List Key) (aPattern : Option Bytes) :
    (iAttrsInFile host fs (joinName D (keyOf q)) aPattern 0 0).map Multiset.ofList =
      if q ∈ t.keys then
        some (((t.attrsOf q).filter fun a => fnmMatched host aPattern a.1).val.map Subtype.val)
      else none := by
  split_ifs with hq
  · rw [iAttrsInFile, listDirItems_eq (h.at_keyOf hq), Pages.slice_zero_right, List.drop_zero,
      Option.map_some, h.coe_chosenNames]
  · rw [iAttrsInFile, listDirItems, h.walkDir_missing host hq]
    rfl

/-- `iAttrCountInFile` counts them, and wraps round for a key that is not there. -/
theorem iAttrCountInFile_eq (q : List Key) (aPattern : Option Bytes) :
    (iAttrCountInFile host fs (joinName D (keyOf q)) aPattern : ℤ) =
      if q ∈ t.keys then
        (((t.attrsOf q).filter fun a => fnmMatched host aPattern a.1).card : ℤ)
      else 2 ^ 64 - 1 := by
  split_ifs with hq
  · have hcard := congrArg Multiset.card (h.coe_chosenNames host q aPattern)
    rw [Multiset.coe_card, Multiset.card_map, Finset.card_val] at hcard
    rw [iAttrCountInFile, _iAttrCount, countDir_eq (h.at_keyOf hq), sizeT_cast, hcard]
  · rw [iAttrCountInFile, _iAttrCount, countDir, h.walkDir_missing host hq]
    rfl

/-! ## Changes -/

/-- An attribute is put. -/
theorem stored (hs : Stored fs fs' d (keyLoc d q) a.name v) :
    Mirrors D d fs' (t.put q a.file v) := by
  have hfiles : ∀ l w, d <:+ l → (fs'.tree.fileAt l = some w ↔
      ∃ p b, (t.put q a.file v).value p b = some w ∧ l = b.1 :: keyLoc d p) := by
    intro l w hl
    rw [hs.fileAt_eq]
    by_cases hat : l = a.name :: keyLoc d q
    · rw [if_pos hat]
      constructor
      · intro hv
        exact ⟨q, a.file, by simpa [KeyTree.value_put] using hv, hat⟩
      · rintro ⟨p, b, hv, he⟩
        rw [hat, List.cons.injEq] at he
        simpa [KeyTree.value_put, keyLoc_inj he.2, show a.file = b from Subtype.ext he.1] using hv
    · rw [if_neg hat, h.files l w hl]
      refine exists_congr fun p => exists_congr fun b => and_congr_left fun he => ?_
      rw [KeyTree.value_put, if_neg]
      rintro ⟨rfl, rfl⟩
      exact hat he
  refine ⟨h.grown hs.cwd_eq (fun m hm => ?_) (fun m hm => hs.noLink hm)
    (hs.isDir_iff_way (h.not_isDir_attr (suffix_keyLoc d q))) (clear_of_files hfiles)
    fun p => KeyTree.mem_put_keys, hfiles⟩
  refine (hs.other m ?_).resolve_right fun hc => hm hc.1
  rintro rfl
  exact hm (below_cons (suffix_keyLoc d q) a.name)

/-- An attribute is deleted. -/
theorem updated (hc : fs'.cwd = fs.cwd) (hu : fs.tree.Updated fs'.tree (a.name :: keyLoc d q) none)
    (hv : fs.tree.fileAt (a.name :: keyLoc d q) ≠ none) : Mirrors D d fs' (t.erase q a.file) where
  anchored := h.anchored.of_agree hc fun m hm => by
    rw [hu m, if_neg]
    rintro rfl
    exact hm (below_cons (suffix_keyLoc d q) a.name)
  links l hb target hl := by
    rw [hu l] at hl
    split_ifs at hl
    exact h.links l hb target hl
  dirs l hl := by
    rw [isDir_of_updated hu hv, h.dirs l hl]
    rfl
  clear p := by
    rw [fileAt_updated hu, h.clear p, ite_self]
  files l w hl := by
    rw [fileAt_updated hu]
    by_cases hat : l = a.name :: keyLoc d q
    · rw [if_pos hat]
      refine ⟨fun hv => by simp at hv, ?_⟩
      rintro ⟨p, b, hv, he⟩
      rw [hat, List.cons.injEq] at he
      simp [KeyTree.value_erase, keyLoc_inj he.2, show a.file = b from Subtype.ext he.1] at hv
    · rw [if_neg hat, h.files l w hl]
      refine exists_congr fun p => exists_congr fun b => and_congr_left fun he => ?_
      rw [KeyTree.value_erase, if_neg]
      rintro ⟨rfl, rfl⟩
      exact hat he

/-- A key is deleted. -/
theorem removed (hc : fs'.cwd = fs.cwd) (hq : q ≠ [])
    (hr : Removed fs.tree fs'.tree (keyLoc d q)) : Mirrors D d fs' (t.remove q hq) where
  toPlainKeys := h.toPlainKeys.removed hc hq hr
  files l w hl := by
    rw [fileAt, hr l]
    by_cases hs : keyLoc d q <:+ l
    · rw [if_pos hs]
      refine ⟨fun hv => by simp at hv, ?_⟩
      rintro ⟨p, b, hv, rfl⟩
      have hp := (List.suffix_cons_iff.1 hs).resolve_left
        (keyLoc_ne_attr b.2 (suffix_keyLoc d p))
      simp [KeyTree.value_remove, keyLoc_suffix_iff.1 hp] at hv
    · rw [if_neg hs]
      refine (h.files l w hl).trans (exists_congr fun p => exists_congr fun b =>
        and_congr_left ?_)
      rintro rfl
      rw [KeyTree.value_remove, if_neg]
      exact fun hp => hs ((keyLoc_suffix_iff.2 hp).trans (List.suffix_cons _ _))

/-! ## The calls -/

section

variable {M : ℤ} (hM : M ≤ 0)

include hM

/-- `iPut` succeeds and puts the value into the tree. -/
theorem iPut_eq (host : Host) (policy : TIDBProcesses) (q : List Key) (a : Attr) (v : Bytes) :
    ∃ fs', iPut host M fs D policy (some (keyOf q)) v a.val storeInFile = (fs', 0) ∧
      Mirrors D d fs' (t.put q a.file v) := by
  simp only [iPut, Option.getD_some, h.path_eq, Option.isSome_some, true_and, if_neg hM.not_gt]
  rcases path_keyOf D q with hp | ⟨rfl, hp⟩
  · obtain ⟨fs', hs, he⟩ := put_names (a := a) h.isAt h.links (fun _ => validName_keyNames (q := q))
      (h.not_isDir_attr (suffix_keyLoc d q)) (fun l => h.missing_or_dir) v
    rw [hp]
    exact ⟨fs', he, h.stored hs⟩
  · have hdir := h.directoryExists_eq (q := [])
    rw [if_pos h.nil_mem] at hdir
    obtain ⟨fs', x, he, hc, hu⟩ := setDirValue_attr (a := a) (leads_keyOf D d []) h.isAt h.links
      (h.not_isDir_attr (suffix_keyLoc d [])) h.isAt.isDir v
    rw [hdir, if_neg (by decide), if_pos rfl, _iPut_storeInFile, he]
    refine ⟨fs', rfl, h.stored ⟨hc, ?_, fun l hl => Or.inl ?_⟩⟩
    · rw [fileAt, hu, if_pos rfl]
    · rw [hu l, if_neg hl]

theorem iGet_eq (host : Host) :
    iGet host M fs D (keyOf q) a.val storeInFile = t.value q a.file := by
  simp only [iGet, h.path_eq, _iGet_storeInFile, h.getDirValue_eq, if_neg hM.not_gt]
  cases t.value q a.file <;> rfl

theorem iIsExists_eq :
    iIsExists M fs D (keyOf q) a.val storeInFile = (t.value q a.file).isSome := by
  simp only [iIsExists, h.path_eq, _attrIsExists_storeInFile, h.isDirValueExists_eq,
    if_neg hM.not_gt]
  cases t.value q a.file <;> rfl

/-- `iDelete` erases the value, and returns whether there was one. -/
theorem iDelete_eq (q : List Key) (a : Attr) :
    ∃ fs', iDelete M fs D (keyOf q) a.val storeInFile = (fs', (t.value q a.file).isSome) ∧
      Mirrors D d fs' (t.erase q a.file) := by
  simp only [iDelete, h.keyDirToDelete_eq hM, _deleleAttr_storeInFile]
  rcases delDirValue_attr (a := a) (leads_keyOf D d q) h.isAt h.links
    (h.not_isDir_attr (suffix_keyLoc d q)) with ⟨hv, he⟩ | ⟨fs', he, hc, hu, hv⟩
  · rw [h.fileAt_attr] at hv
    refine ⟨fs, by rw [he, hv]; rfl, ?_⟩
    exact ⟨h.toPlainKeys, by rw [KeyTree.value_erase_of_none hv]; exact h.files⟩
  · refine ⟨fs', ?_, h.updated hc hu hv⟩
    rw [h.fileAt_attr, ← Option.isSome_iff_ne_none] at hv
    rw [he, hv]

end

end

end Mirrors

/-! ## Runs -/

section

variable (host : Host) {M : ℤ} (hM : M ≤ 0) (policy dup : TIDBProcesses) {D : Bytes} {d : Loc}
  {fs : FileSystem} {t : KeyTree Key FileName Bytes}

include hM

/-- Every call keeps the mirrored tree and is answered as the tree answers it. -/
theorem exec_refines : Refinement.Refines (Mirrors D d)
    (exec host M policy dup storeInFile D) (spec host) fun t c => c.Readable t := by
  intro fs t c h hc
  cases c with
  | put q a v =>
    obtain ⟨fs', he, hm⟩ := h.iPut_eq hM host policy q a v
    simp only [exec, spec, he]
    exact ⟨_, rfl, hm⟩
  | get q a =>
    have hget : returned (t.value q a.file) = some (t.value q a.file) :=
      returned_eq_some.2 ⟨rfl, hc⟩
    simp only [exec, spec, h.iGet_eq hM host, hget]
    exact ⟨_, rfl, h⟩
  | isExists q a =>
    simp only [exec, spec, h.iIsExists_eq hM]
    exact ⟨_, rfl, h⟩
  | delete q a =>
    obtain ⟨fs', he, hm⟩ := h.iDelete_eq hM q a
    simp only [exec, spec, he]
    exact ⟨_, rfl, hm⟩
  | keyDelete q hne =>
    obtain ⟨fs', he, hc, hr⟩ := h.iKeyDelete_eq hM host hne
    simp only [exec, spec, he]
    exact ⟨_, rfl, h.removed hc hne hr⟩
  | keyIsExists q =>
    simp only [exec, spec, h.iKeyIsExists_eq hM]
    exact ⟨_, rfl, h⟩
  | subkeys q =>
    obtain ⟨keys, hlist, hkeys⟩ := h.iSubkeys_eq host dup dup q
    have hset : keys.map Multiset.ofList =
        if q ∈ t.keys then some ((t.children q).val.map Key.val) else none := hkeys
    simp only [exec, spec, hlist]
    exact ⟨fs, by rw [Option.map_some, hset], h⟩
  | subkeyTotal q =>
    simp only [exec, spec, h.iSubkeyTotal_eq]
    exact ⟨_, rfl, h⟩
  | attrs q aPattern =>
    simp only [exec, spec, h.path_eq, h.iAttrsInFile_eq]
    exact ⟨_, rfl, h⟩
  | attrCount q aPattern =>
    simp only [exec, spec, h.path_eq, h.iAttrCountInFile_eq]
    exact ⟨_, rfl, h⟩

/-- Over any run on a base directory that starts empty, the calls return, and are answered as a tree
of keys answers them. -/
theorem run_answers_eq_tree (hat : fs.At D d) (hempty : ∀ l, Below d l → fs.tree.get l = none)
    (calls : List KeyCall) (hshort : ∀ c ∈ calls, c.Short) :
    ∃ s, Refinement.runPartial (exec host M policy dup storeInFile D) fs calls =
        some (s, (Refinement.run (spec host) KeyTree.empty calls).2) ∧
      Mirrors D d s (Refinement.run (spec host) KeyTree.empty calls).1 :=
  (exec_refines host hM policy dup).run (mirrors_empty hat hempty) (readable_of_short hshort)

/-- After any run the calls agree with each other : an attribute with a value has its key and the
parents of it, a key is there if and only if it is among the subkeys of its parent, and what is
listed is what exists, and is counted. -/
theorem run_calls_agree (hat : fs.At D d) (hempty : ∀ l, Below d l → fs.tree.get l = none)
    (calls : List KeyCall) (hshort : ∀ c ∈ calls, c.Short) (q : List Key) :
    ∃ s answers, Refinement.runPartial (exec host M policy dup storeInFile D) fs calls =
        some (s, answers) ∧
    (∀ a : Attr, iIsExists M s D (keyOf q) a.val storeInFile = true →
      ∀ p, p <+: q → iKeyIsExists M s D (keyOf p) = pathIsDir) ∧
    (iKeyIsExists M s D (keyOf q) = pathIsDir → ∃ keys attrs,
      iSubkeys host dup s D (keyOf q) none 0 0 dup = some (some keys, s) ∧ keys.Nodup ∧
      iSubkeyTotal host s D (keyOf q) none dup = some (keys.length : ℤ) ∧
      (∀ k : Key, k.val ∈ keys ↔ iKeyIsExists M s D (keyOf (q ++ [k])) = pathIsDir) ∧
      iAttrsInFile host s (sdsJoinPathLen D (keyOf q)) none 0 0 = some attrs ∧ attrs.Nodup ∧
      iAttrCountInFile host s (sdsJoinPathLen D (keyOf q)) none = attrs.length ∧
      ∀ a : Attr, a.name ∈ attrs ↔ iIsExists M s D (keyOf q) a.val storeInFile = true) := by
  obtain ⟨s, hrun, h⟩ := run_answers_eq_tree host hM policy dup hat hempty calls hshort
  refine ⟨s, _, hrun, ?_⟩
  have hkey : ∀ p, iKeyIsExists M s D (keyOf p) = pathIsDir ↔
      p ∈ (Refinement.run (spec host) KeyTree.empty calls).1.keys := by
    intro p
    rw [h.iKeyIsExists_eq hM]
    split_ifs with hp <;> simp [hp, pathIsDir, pathIsNotExists]
  refine ⟨fun a ha p hp => ?_, fun hq => ?_⟩
  · rw [h.iIsExists_eq hM, Option.isSome_iff_exists] at ha
    obtain ⟨v, hv⟩ := ha
    exact (hkey p).2 (KeyTree.mem_of_prefix hp (KeyTree.mem_of_value hv))
  · rw [hkey] at hq
    obtain ⟨keys', hkeys, hlist⟩ := h.iSubkeys_eq host dup dup q
    rw [if_pos hq, Option.map_eq_some_iff] at hlist
    obtain ⟨keys, rfl, hset⟩ := hlist
    have hattrs := h.iAttrsInFile_eq host q none
    rw [if_pos hq, Option.map_eq_some_iff] at hattrs
    obtain ⟨attrs, hattrs, haset⟩ := hattrs
    refine ⟨keys, attrs, hkeys, ?_, ?_, fun k => ?_, by rw [h.path_eq, hattrs], ?_, ?_, fun a => ?_⟩
    · rw [← Multiset.coe_nodup, hset]
      exact (Finset.nodup _).map fun _ _ he => Key.ext_val he
    · rw [h.iSubkeyTotal_eq, if_pos hq, ← Multiset.coe_card, hset, Multiset.card_map,
        Finset.card_val]
    · rw [hkey, ← KeyTree.mem_childrenIn, ← Multiset.mem_coe, hset, Multiset.mem_map]
      constructor
      · rintro ⟨k', hk', he⟩
        exact Key.ext_val he ▸ hk'
      · intro hk
        exact ⟨k, hk, rfl⟩
    · rw [← Multiset.coe_nodup, haset]
      exact (Finset.nodup _).map Subtype.val_injective
    · rw [← Nat.cast_inj (R := ℤ), h.path_eq, h.iAttrCountInFile_eq, if_pos hq,
        ← Multiset.coe_card, haset, Multiset.card_map, Finset.card_val]
    · rw [h.iIsExists_eq hM, ← KeyTree.mem_attrsOf, ← Multiset.mem_coe, haset, Multiset.mem_map]
      constructor
      · rintro ⟨b, hb, he⟩
        rw [show a.file = b from Subtype.ext he.symm]
        exact (Finset.mem_filter.1 hb).1
      · intro ha
        exact ⟨a.file, Finset.mem_filter.2 ⟨ha, rfl⟩, rfl⟩

end

/-- The key `b`. -/
def keyB : Key :=
  ⟨[98], by decide, by decide⟩

/-- Two attributes are put under `x/b`, and one under its parent, which then is deleted. -/
def treeCalls : List KeyCall :=
  [.put [keyX.toKey, keyB] .default [49], .put [keyX.toKey] .default [50],
    .subkeys [keyX.toKey], .attrs [keyX.toKey] none, .keyDelete [keyX.toKey] (by decide),
    .get [keyX.toKey, keyB] .default, .subkeyTotal []]

/-- The calls on the root of an empty tree. -/
def execRoot : FileSystem → KeyCall → Option (FileSystem × Answer) :=
  exec plainHost 0 .dkIgnored .dkIgnored storeInFile [slash]

theorem short_treeCalls : ∀ c ∈ treeCalls, c.Short := by
  intro c hc
  simp only [treeCalls, List.mem_cons, List.not_mem_nil, or_false] at hc
  rcases hc with rfl | rfl | rfl | rfl | rfl | rfl | rfl <;> simp [KeyCall.Short, sdsLimit,
    sdsMaxPrealloc]

/-- The answers of a run of calls. -/
theorem treeCalls_answers : ∃ s, Refinement.runPartial execRoot rootBase.fs treeCalls =
    some (s, [.number 0, .number 0, .names (some {[98]}), .names (some {idbValueName}), .ok true,
      .value none, .number 0]) := by
  obtain ⟨s, hrun, -⟩ := run_answers_eq_tree plainHost le_rfl .dkIgnored .dkIgnored rootBase.isAt
    rootBase.empty treeCalls short_treeCalls
  refine ⟨s, hrun.trans ?_⟩
  have hanswers : (Refinement.run (spec plainHost) KeyTree.empty treeCalls).2 =
      [.number 0, .number 0, .names (some {[98]}), .names (some {idbValueName}), .ok true,
        .value none, .number 0] := by decide +kernel
  rw [hanswers]

/-- After these calls listing and existence agree. -/
theorem treeCalls_agree : ∃ s answers,
    Refinement.runPartial execRoot rootBase.fs treeCalls = some (s, answers) ∧
      (iKeyIsExists 0 s [slash] (keyOf []) = pathIsDir → ∃ keys,
        iSubkeys plainHost .dkIgnored s [slash] (keyOf []) none 0 0 .dkIgnored =
          some (some keys, s) ∧
        ∀ k : Key, k.val ∈ keys ↔ iKeyIsExists 0 s [slash] (keyOf ([] ++ [k])) = pathIsDir) := by
  obtain ⟨s, answers, hrun, -, hlists⟩ := run_calls_agree plainHost le_rfl .dkIgnored .dkIgnored
    rootBase.isAt rootBase.empty treeCalls short_treeCalls []
  refine ⟨s, answers, hrun, fun hroot => ?_⟩
  obtain ⟨keys, -, hkeys, -, -, hall, -⟩ := hlists hroot
  exact ⟨keys, hkeys, hall⟩

end Idb
