import Idb.AttrNames
import Idb.TreeStore

/-!
# The store in extended attributes

With extended attributes instead of files the store mirrors the same tree of keys
(`XattrMirrors`) : the attributes of a key are found at its directory, under names that are those
of the files behind a prefix. So a run of calls is answered as the one with files is, unless it
lists the files or puts what no extended attribute can hold.
-/

namespace Idb

open Posix FileSystem FileTree

/-! ## Names -/

/-- The extended attribute of an attribute with a dot is named without it. -/
theorem Attr.generateXattrName_eq (a : Attr) :
    generateXattrName a.val = xattrPrefix ++ a.name.tail := by
  have hdot := a.head?_name
  obtain ⟨val, h⟩ := a
  cases val with
  | none => rfl
  | some n => exact congrArg (xattrPrefix ++ ·) (if_pos hdot)

/-- Attributes have one name if their files have. -/
theorem Attr.generateXattrName_eq_iff {a b : Attr} :
    generateXattrName a.val = generateXattrName b.val ↔ a.file = b.file := by
  rw [a.generateXattrName_eq, b.generateXattrName_eq, List.append_cancel_left_eq,
    ← Subtype.val_inj]
  show a.name.tail = b.name.tail ↔ a.name = b.name
  refine ⟨fun h => ?_, fun h => by rw [h]⟩
  rw [← List.cons_head?_tail a.head?_name, ← List.cons_head?_tail b.head?_name, h]

/-! ## What mirrors a tree -/

/-- Below `d`, which `D` names, there are the keys of the tree, with its attributes as extended
attributes. -/
structure XattrMirrors (D : Bytes) (d : Loc) (fs : FileSystem) (t : KeyTree Key FileName Bytes) :
    Prop extends PlainKeys D d fs t.keys where
  xattrs : ∀ q ∈ t.keys, ∀ a : Attr,
    xattrsAt fs (keyLoc d q) (generateXattrName a.val) = t.value q a.file

/-- An empty base directory without attributes. -/
theorem xattrMirrors_empty {D : Bytes} {d : Loc} {fs : FileSystem} (h : fs.At D d)
    (he : ∀ l, Below d l → fs.tree.get l = none) (hx : ∀ name, xattrsAt fs d name = none) :
    XattrMirrors D d fs KeyTree.empty where
  toPlainKeys := plainKeys_empty h he
  xattrs q hq a := by
    rw [KeyTree.empty, Finset.mem_singleton] at hq
    rw [hq, keyLoc_nil, hx]
    rfl

/-- The attributes after a set : one has the new value. -/
theorem XattrSet.xattrsAt_eq {fs fs' : FileSystem} {l : Loc} {name v : Bytes}
    (h : XattrSet fs fs' l name v) (m : Loc) (name' : Bytes) :
    xattrsAt fs' m name' = if m = l ∧ name' = name then some v else xattrsAt fs m name' := by
  obtain ⟨n, hg, hu⟩ := h.updated
  rw [xattrsAt, hu m]
  by_cases hm : m = l
  · simp only [if_pos hm, nodeXattrs_mapMeta _ (fileType_ne_lnk hg h.noLink)]
    simp [hm, xattrsAt, hg]
  · simp [hm, xattrsAt]

/-- Its path names a directory whatever its metadata are. -/
theorem anchored_withMeta {fs fs' : FileSystem} {path : Bytes} {p : Loc} {x y : Xattrs}
    (h : fs.Anchored path p) (hc : fs'.cwd = fs.cwd) (hx : fs.tree.get p = some (.dir x))
    (hu : fs.tree.Updated fs'.tree p (some (.dir y))) : fs'.Anchored path p := by
  intro t ht
  have hy : t.get p = some (.dir y) := by rw [ht p (not_below_self p), hu, if_pos rfl]
  -- The tree with the metadata as they were.
  obtain ⟨t₀, hset⟩ : ∃ t₀ : FileTree Xattrs, t.Updated t₀ p (some (.dir x)) :=
    ⟨_, get_set (by rintro c q rfl; exact ⟨validName_of_get hy, isDir_of_get_cons hy⟩) fun _ => rfl⟩
  have hat := h t₀ fun m hm => by
    rw [hset m]
    split_ifs with hmp
    · rw [hmp, hx]
    · rw [ht m hm, hu m, if_neg hmp]
  have hk : t₀.Keeps t := by
    refine ⟨fun l hl => ?_, fun l target hl => ?_⟩
    · by_cases hlp : l = p
      · exact hlp ▸ isDir_of_get hy
      · rw [FileTree.isDir, hset, if_neg hlp] at hl
        exact hl
    · rw [hset] at hl
      split_ifs at hl with hlp
      · simp at hl
      · exact hl
  exact hat.keeps hk hc

/-- The metadata of the directory of a key are changed. -/
theorem PlainKeys.withMeta {D : Bytes} {d : Loc} {fs fs' : FileSystem} {keys : Finset (List Key)}
    {q : List Key} {n : Node Xattrs} {f : Xattrs → Xattrs} (h : PlainKeys D d fs keys)
    (hq : q ∈ keys) (hc : fs'.cwd = fs.cwd) (hg : fs.tree.get (keyLoc d q) = some n)
    (hu : fs.tree.Updated fs'.tree (keyLoc d q) (some (n.mapMeta f))) : PlainKeys D d fs' keys := by
  obtain ⟨x, hx⟩ := isDir_iff.1 (h.isDir_keyLoc.2 hq)
  obtain rfl : n = .dir x := Option.some.inj (hg.symm.trans hx)
  have hs := sameShape_mapMeta hc hg (noLink_of_isDir (isDir_of_get hx)) hu
  refine ⟨?_, fun l hb => hs.noLink (h.links l hb), fun l hl => ?_, fun p => ?_⟩
  · by_cases hd : keyLoc d q = d
    · rw [hd] at hx hu
      exact anchored_withMeta h.anchored hc hx hu
    · refine h.anchored.of_agree hc fun m hm => ?_
      rw [hu m, if_neg]
      rintro rfl
      exact hm ⟨suffix_keyLoc d q, hd⟩
  · rw [← h.dirs l hl]
    exact ⟨hs.keepsBack.dir l, hs.keeps.dir l⟩
  · rw [fileAt, hu]
    split_ifs
    · rfl
    · exact h.clear p

namespace XattrMirrors

variable {D : Bytes} {d : Loc} {fs fs' : FileSystem} {t : KeyTree Key FileName Bytes}
  {q : List Key} {a : Attr} {v : Bytes} (h : XattrMirrors D d fs t)

include h

/-- Reading the extended attribute gives the key's value. -/
theorem getXattr_eq :
    getXattr fs (joinName D (keyOf q)) (generateXattrName a.val) = t.value q a.file := by
  by_cases hq : q ∈ t.keys
  · refine Option.ext fun v => ?_
    rw [getXattr_eq_some_iff, (h.at_keyOf hq).resolve, ← h.xattrs q hq]
    simp
  · have hval : t.value q a.file = none :=
      Option.eq_none_iff_forall_ne_some.2 fun v hv => hq (KeyTree.mem_of_value hv)
    rw [hval]
    refine Option.eq_none_iff_forall_ne_some.2 fun v hv => ?_
    obtain ⟨l, n, hr, hg, -⟩ := getXattr_eq_some.1 hv
    have hex := h.directoryExists_eq (q := q)
    rw [if_neg hq] at hex
    exact directoryExists_ne_missing.2 ⟨n, stat_eq_ok.2 ⟨l, hr, hg⟩⟩ hex

/-! ## Changes -/

/-- The directory of a key is made if it is missing. -/
theorem withDir_spec (q : List Key) :
    (withDir fs (joinName D (keyOf q))).At (joinName D (keyOf q)) (keyLoc d q) ∧
      PlainKeys D d (withDir fs (joinName D (keyOf q))) (t.keys ∪ q.inits.toFinset) ∧
      ∀ p ∈ t.keys ∪ q.inits.toFinset, ∀ a : Attr,
        xattrsAt (withDir fs (joinName D (keyOf q))) (keyLoc d p) (generateXattrName a.val) =
          t.value p a.file := by
  have hmem : ∀ p, p ∈ t.keys ∪ q.inits.toFinset ↔ p ∈ t.keys ∨ p <+: q := by
    simp
  rw [withDir, h.directoryExists_eq]
  by_cases hq : q ∈ t.keys
  · have hkeys : t.keys ∪ q.inits.toFinset = t.keys := by
      ext p
      rw [hmem]
      exact or_iff_left_of_imp fun hp => KeyTree.mem_of_prefix hp hq
    rw [if_pos hq, if_neg (by decide), hkeys]
    exact ⟨h.at_keyOf hq, h.toPlainKeys, h.xattrs⟩
  · rw [if_neg hq, if_pos rfl]
    have hpath := (path_keyOf D q).resolve_right fun he => hq (he.1 ▸ t.nil_mem)
    rw [hpath]
    obtain ⟨hmade, hat⟩ := forceDirectories_names h.isAt (fun _ => validName_keyNames (q := q))
      fun l hb hs => h.missing_or_dir hb.1 hs
    refine ⟨hat, h.grown (q := q) hmade.cwd_eq (fun m hm => ?_) (fun m hm => hmade.noLink hm)
      (fun m => ?_) (fun p => ?_) hmem, fun p hp a => ?_⟩
    · exact (hmade.get_cases m).resolve_right fun hc => hm hc.1.1
    · constructor
      · intro hd
        rcases hmade.get_cases m with he | hc
        · exact Or.inl (by rwa [FileTree.isDir, he] at hd)
        · exact Or.inr hc.1
      · rintro (hd | ⟨-, hs⟩)
        · exact hmade.keeps.dir m hd
        · exact isDir_of_suffix hs hat.isDir
    · rcases hmade.get_cases (keyLoc d p) with he | ⟨-, -, he⟩
      · rw [fileAt, he]
        exact h.clear p
      · rw [fileAt, he]
        rfl
    · rcases hmade.get_cases (keyLoc d p) with he | ⟨-, hn, he⟩
      · by_cases hpk : p ∈ t.keys
        · rw [xattrsAt, he]
          exact h.xattrs p hpk a
        · have hd := isDir_of_suffix
            (keyLoc_suffix_iff.2 (((hmem p).1 hp).resolve_left hpk)) hat.isDir
          rw [FileTree.isDir, he, h.get_missing hpk] at hd
          simp at hd
      · have hpk : p ∉ t.keys := fun hpk => get_ne_none_of_isDir (h.isDir_keyLoc.2 hpk) hn
        rw [xattrsAt, he]
        exact (Option.eq_none_iff_forall_ne_some.2 fun v hv =>
          hpk (KeyTree.mem_of_value hv)).symm

/-- A put of a value that the kernel takes succeeds and puts it into the tree. -/
theorem iPut_eq {M : ℤ} (hM : M ≤ 0) (host : Host) (policy : TIDBProcesses) (q : List Key)
    (hv : xattrRefused (generateXattrName a.val) v = none) :
    ∃ fs', iPut host M fs D policy (some (keyOf q)) v a.val storeInXattr = (fs', 0) ∧
      XattrMirrors D d fs' (t.put q a.file v) := by
  obtain ⟨hat, hplain, hx⟩ := h.withDir_spec q
  obtain ⟨fs', he, hs⟩ := setXattr_at hat hv
  have hq : q ∈ t.keys ∪ q.inits.toFinset := by simp
  refine ⟨fs', ?_, ?_, fun p hp b => ?_⟩
  · simp only [iPut, Option.getD_some, h.path_eq, Option.isSome_some, true_and, if_neg hM.not_gt,
      _iPut_storeInXattr]
    rw [withDir] at he
    by_cases hex : directoryExists fs (joinName D (keyOf q)) = pathIsNotExists
    · rw [if_pos hex] at he ⊢
      exact he
    · rw [if_neg hex] at he ⊢
      have hdir := h.directoryExists_eq (q := q)
      split_ifs at hdir with hq
      · rw [if_pos hdir]
        exact he
      · exact absurd hdir hex
  · obtain ⟨n, hg, hu⟩ := hs.updated
    exact hplain.withMeta hq hs.cwd_eq hg hu
  · rw [hs.xattrsAt_eq, KeyTree.value_put, hx p hp]
    exact if_congr (and_congr ⟨keyLoc_inj, fun hp => hp ▸ rfl⟩ Attr.generateXattrName_eq_iff)
      rfl rfl

/-- Deleting the extended attribute erases the value, and succeeds when there was one. -/
theorem delXattr_eq (q : List Key) (a : Attr) :
    ∃ fs', (delXattr fs (joinName D (keyOf q)) (generateXattrName a.val)).1 = fs' ∧
      decide ((delXattr fs (joinName D (keyOf q)) (generateXattrName a.val)).2 = 0) =
        (t.value q a.file).isSome ∧ XattrMirrors D d fs' (t.erase q a.file) := by
  have hval := h.getXattr_eq (q := q) (a := a)
  obtain ⟨hdel, hkeep⟩ := @delXattr_spec fs (joinName D (keyOf q)) a.val
  by_cases ha : HasAttr fs (joinName D (keyOf q)) a.val .xattr
  · obtain ⟨fs', l, he, hr, hrem⟩ := hdel ha
    rw [← getXattr_ne_none, hval] at ha
    obtain ⟨v, hv⟩ := Option.ne_none_iff_exists'.1 ha
    have hq := KeyTree.mem_of_value hv
    rw [(h.at_keyOf hq).resolve, Except.ok.injEq] at hr
    obtain ⟨n, hg, hu⟩ := hrem.updated
    subst hr
    refine ⟨fs', by rw [he], by simp [he, hv], h.withMeta hq hrem.shape.cwd_eq hg hu,
      fun p hp b => ?_⟩
    have hlnk := fileType_ne_lnk hg (noLink_of_isDir (h.isDir_keyLoc.2 hq))
    rw [KeyTree.value_erase, ← h.xattrs p hp]
    by_cases hpq : p = q
    · subst hpq
      rw [xattrsAt, hu, if_pos rfl]
      simp only [nodeXattrs_mapMeta _ hlnk, xattrsAt, hg, true_and]
      exact if_congr Attr.generateXattrName_eq_iff rfl rfl
    · rw [xattrsAt, hu, if_neg fun he => hpq (keyLoc_inj he), if_neg fun he => hpq he.1, xattrsAt]
  · obtain ⟨he, hne⟩ := hkeep ha
    rw [← getXattr_ne_none, hval, not_not] at ha
    refine ⟨fs, he, by simp [hne, ha], h.toPlainKeys, fun p hp b => ?_⟩
    rw [KeyTree.value_erase_of_none ha]
    exact h.xattrs p hp b

/-- Removing a key removes its attributes. -/
theorem removed (hc : fs'.cwd = fs.cwd) (hq : q ≠ [])
    (hr : Removed fs.tree fs'.tree (keyLoc d q)) : XattrMirrors D d fs' (t.remove q hq) where
  toPlainKeys := h.toPlainKeys.removed hc hq hr
  xattrs p hp a := by
    rw [KeyTree.mem_remove_keys] at hp
    rw [xattrsAt, hr, if_neg (by rw [keyLoc_suffix_iff]; exact hp.2), KeyTree.value_remove,
      if_neg hp.2]
    exact h.xattrs p hp.1 a

theorem iIsExists_eq {M : ℤ} (hM : M ≤ 0) :
    iIsExists M fs D (keyOf q) a.val storeInXattr = (t.value q a.file).isSome := by
  have hex : isXattrExists fs (joinName D (keyOf q)) (generateXattrName a.val) =
      (t.value q a.file).isSome := congrArg Option.isSome h.getXattr_eq
  simp only [iIsExists, h.path_eq, _attrIsExists_storeInXattr, hex, if_neg hM.not_gt]
  cases t.value q a.file <;> rfl

end XattrMirrors

/-! ## Runs -/

/-- The call lists the files of a key. -/
def KeyCall.ListsFiles : KeyCall → Prop
  | .attrs _ _ | .attrCount _ _ => True
  | _ => False

/-- An extended attribute can hold what the call puts. -/
def KeyCall.FitsXattr : KeyCall → Prop
  | .put _ a v => xattrRefused (generateXattrName a.val) v = none
  | _ => True

/-- A value that fits an extended attribute is short. -/
theorem KeyCall.FitsXattr.short {c : KeyCall} (h : c.FitsXattr) : c.Short := by
  cases c with
  | put q a v =>
    have hsize : ¬xattrSizeMax < v.length := by
      intro hlt
      simp only [FitsXattr, xattrRefused, if_pos hlt] at h
      split_ifs at h
    have hmax : xattrSizeMax = 65536 := rfl
    have hlimit : Sdshdr.sdsLimit = 2 ^ 31 - 2 ^ 20 := rfl
    simp only [Short]
    omega
  | _ => trivial

section

variable (host : Host) {M : ℤ} (hM : M ≤ 0) (policy dup : TIDBProcesses) {D : Bytes} {d : Loc}
  {fs : FileSystem}

include hM

/-- Every call in the extended attributes does to the directory what its specification does to the
tree. -/
theorem execXattr_refines : Refinement.Refines (XattrMirrors D d)
    (exec host M policy dup storeInXattr D) (spec host)
    fun t c => (¬c.ListsFiles ∧ c.FitsXattr) ∧ c.Readable t := by
  rintro fs t c h ⟨⟨hc, hfits⟩, hread⟩
  cases c with
  | put q a v =>
    obtain ⟨fs', he, hm⟩ := h.iPut_eq hM host policy q hfits
    simp only [exec, spec, he]
    exact ⟨_, rfl, hm⟩
  | get q a =>
    have hget : iGet host M fs D (keyOf q) a.val storeInXattr = t.value q a.file := by
      simp only [iGet, h.path_eq, _iGet_storeInXattr, h.getXattr_eq, if_neg hM.not_gt]
      cases t.value q a.file <;> rfl
    have hret : returned (t.value q a.file) = some (t.value q a.file) :=
      returned_eq_some.2 ⟨rfl, hread⟩
    simp only [exec, spec, hget, hret]
    exact ⟨_, rfl, h⟩
  | isExists q a =>
    simp only [exec, spec, h.iIsExists_eq hM]
    exact ⟨_, rfl, h⟩
  | delete q a =>
    obtain ⟨fs', hfs, he, hm⟩ := h.delXattr_eq q a
    simp only [exec, spec, iDelete, h.keyDirToDelete_eq hM, _deleleAttr_storeInXattr, hfs, he]
    exact ⟨_, rfl, hm⟩
  | keyDelete q hne =>
    obtain ⟨fs', he, hc, hr⟩ := h.iKeyDelete_eq hM host hne
    simp only [exec, spec, he]
    exact ⟨_, rfl, h.removed hc hne hr⟩
  | keyIsExists q =>
    simp only [exec, spec, h.iKeyIsExists_eq hM]
    exact ⟨_, rfl, h⟩
  | subkeys q =>
    obtain ⟨keys', hlist, hkeys⟩ := h.iSubkeys_eq host dup dup q
    simp only [exec, spec, hlist, Option.map_some, hkeys]
    exact ⟨_, rfl, h⟩
  | subkeyTotal q =>
    simp only [exec, spec, h.iSubkeyTotal_eq, Option.map_some]
    exact ⟨_, rfl, h⟩
  | attrs q aPattern => exact absurd trivial hc
  | attrCount q aPattern => exact absurd trivial hc

end

end Idb
