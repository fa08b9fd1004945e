import Idb.DbPages
import Idb.KeyTree
import Idb.PathKeys
import Idb.SubkeyCounts

/-!
# Directories of keys

Without a page limit a key is a path of directories below the base directory. What is said here
holds wherever the attributes are stored : which places are those of keys, how keys are looked up,
listed and deleted when the directories below the base directory are those of a set of keys
(`PlainKeys`), and how the set changes.
-/

namespace Idb

open Posix FileSystem FileTree

/-- The names on the way to a key. -/
def keyNames (q : List Key) : List Name :=
  q.map Key.val

/-- The components of a key, joined by slashes. -/
def keyOf (q : List Key) : Bytes :=
  keyText (keyNames q)

/-! ## Places -/

/-- The place of a key. -/
def keyLoc (d : Loc) (q : List Key) : Loc :=
  (keyNames q).reverse ++ d

section

variable {d l : Loc} {q q' : List Key} {k : Key}

theorem keyLoc_nil (d : Loc) : keyLoc d [] = d :=
  rfl

theorem keyLoc_concat (d : Loc) (q : List Key) (k : Key) :
    keyLoc d (q ++ [k]) = k.val :: keyLoc d q := by
  simp [keyLoc, keyNames]

theorem suffix_keyLoc (d : Loc) (q : List Key) : d <:+ keyLoc d q :=
  List.suffix_append _ _

theorem below_keyLoc (hq : q ≠ []) : Below d (keyLoc d q) :=
  ⟨suffix_keyLoc d q, fun he => hq (by simpa [keyLoc, keyNames] using he)⟩

theorem keyNames_inj (h : keyNames q = keyNames q') : q = q' :=
  List.map_injective_iff.2 (fun _ _ he => Key.ext_val he) h

theorem keyLoc_inj (h : keyLoc d q = keyLoc d q') : q = q' := by
  rw [keyLoc, keyLoc, List.append_cancel_right_eq, List.reverse_inj] at h
  exact keyNames_inj h

/-- A key lies below another when that one is its prefix. -/
theorem keyLoc_suffix_iff : keyLoc d q <:+ keyLoc d q' ↔ q <+: q' := by
  rw [keyLoc, keyLoc, List.suffix_append_self_iff, List.reverse_suffix, keyNames, keyNames]
  refine ⟨fun h => ?_, fun h => h.map Key.val⟩
  have he := List.prefix_iff_eq_take.1 h
  rw [List.length_map, ← List.map_take] at he
  rw [keyNames_inj he]
  exact List.take_prefix _ _

/-- The places on the way to a key are those of its prefixes. -/
theorem keyLoc_of_suffix (hd : d <:+ l) (hs : l <:+ keyLoc d q) :
    ∃ p, p <+: q ∧ l = keyLoc d p := by
  obtain ⟨m, rfl⟩ := hd
  rw [keyLoc, List.suffix_append_self_iff] at hs
  refine ⟨q.take m.length, List.take_prefix _ _, ?_⟩
  have he := List.prefix_iff_eq_take.1 (List.reverse_prefix.2 hs)
  rw [List.reverse_reverse, List.length_reverse, keyNames, ← List.map_take] at he
  rw [keyLoc, keyNames, ← he, List.reverse_reverse]

/-- An entry below the base directory that is the place of a key. -/
theorem keyLoc_eq_cons {c : Name} (hs : d <:+ l) (h : keyLoc d q = c :: l) :
    ∃ p k, q = p ++ [k] ∧ k.val = c ∧ keyLoc d p = l := by
  rcases List.eq_nil_or_concat' q with rfl | ⟨p, k, rfl⟩
  · rw [keyLoc_nil] at h
    exact absurd (h ▸ below_cons hs c) (not_below_self d)
  · rw [keyLoc_concat, List.cons.injEq] at h
    exact ⟨p, k, rfl, h⟩

/-- The place of a key does not have the name of an attribute file. -/
theorem keyLoc_ne_attr {a : Name} (ha : AttrName a) (hs : d <:+ l) : keyLoc d q ≠ a :: l := by
  intro he
  obtain ⟨p, k, -, rfl, -⟩ := keyLoc_eq_cons hs he
  exact k.visible ha.1

theorem validName_keyNames {n : Name} (hn : n ∈ keyNames q) : ValidName n := by
  obtain ⟨k, -, rfl⟩ := List.mem_map.1 hn
  exact ⟨plain_of_head? k.component.1 k.visible, k.component.2⟩

/-- The path of a key. -/
theorem path_keyOf (D : Bytes) (q : List Key) :
    joinName D (keyOf q) = (keyNames q).foldl joinName D ∨
      (q = [] ∧ joinName D (keyOf q) = withSlash D) := by
  cases q with
  | nil => exact Or.inr ⟨rfl, rfl⟩
  | cons k q => exact Or.inl (joinName_keyText D k.component.1)

theorem leads_keyOf (D : Bytes) (d : Loc) (q : List Key) :
    Leads D d (joinName D (keyOf q)) (keyLoc d q) := by
  refine ⟨keyNames q, fun _ => validName_keyNames, rfl, ?_⟩
  rcases path_keyOf D q with h | ⟨rfl, h⟩
  · exact Or.inl h
  · exact Or.inr h

end

/-! ## The directories of a set of keys -/

/-- The directories below `d`, which `D` names, are those of the keys. -/
structure PlainKeys (D : Bytes) (d : Loc) (fs : FileSystem) (keys : Finset (List Key)) : Prop where
  anchored : fs.Anchored D d
  links : ∀ l, Below d l → fs.tree.NoLink l
  dirs : ∀ l, d <:+ l → (fs.tree.isDir l ↔ ∃ q ∈ keys, l = keyLoc d q)
  /-- No file has the place of a key. -/
  clear : ∀ q, fs.tree.fileAt (keyLoc d q) = none

/-- An empty base directory. -/
theorem plainKeys_empty {D : Bytes} {d : Loc} {fs : FileSystem} (h : fs.At D d)
    (he : ∀ l, Below d l → fs.tree.get l = none) : PlainKeys D d fs {[]} where
  anchored := Anchored.of_empty h he
  links l hb := by simp [NoLink, he l hb]
  dirs l hl := by
    simp only [Finset.mem_singleton, exists_eq_left, keyLoc_nil]
    refine ⟨fun hd => ?_, fun hl => hl ▸ h.isDir⟩
    by_contra hne
    exact get_ne_none_of_isDir hd (he l ⟨hl, hne⟩)
  clear q := by
    by_cases hq : keyLoc d q = d
    · rw [hq, fileAt_eq_none_of_isDir h.isDir]
    · rw [fileAt, he _ ⟨suffix_keyLoc d q, hq⟩]

namespace PlainKeys

variable {D : Bytes} {d l : Loc} {fs fs' : FileSystem} {keys : Finset (List Key)} {q : List Key}
  {a : Attr} (h : PlainKeys D d fs keys)

include h

theorem isAt : fs.At D d :=
  h.anchored.toAt

theorem path_eq (c : Bytes) : sdsJoinPathLen D c = joinName D c :=
  sdsJoinPathLen_eq h.isAt.ne_nil c

theorem isDir_keyLoc : fs.tree.isDir (keyLoc d q) ↔ q ∈ keys := by
  rw [h.dirs _ (suffix_keyLoc d q)]
  refine ⟨?_, fun hq => ⟨q, hq, rfl⟩⟩
  rintro ⟨p, hp, he⟩
  rwa [keyLoc_inj he]

theorem nil_mem : [] ∈ keys :=
  h.isDir_keyLoc.1 h.isAt.isDir

theorem not_isDir_attr (hs : d <:+ l) : fs.tree.isDir (a.name :: l) = false := by
  rw [← Bool.not_eq_true, h.dirs _ (hs.trans (List.suffix_cons _ _))]
  rintro ⟨q, -, he⟩
  exact keyLoc_ne_attr a.attrName hs he.symm

/-- On the way to a key there are only directories or nothing. -/
theorem missing_or_dir (hs : d <:+ l) (hl : l <:+ keyLoc d q) :
    fs.tree.get l = none ∨ fs.tree.isDir l := by
  obtain ⟨p, -, rfl⟩ := keyLoc_of_suffix hs hl
  by_cases hd : keyLoc d p = d
  · rw [hd]
    exact Or.inr h.isAt.isDir
  · rcases get_cases_of_noLink (h.links _ ⟨hs, hd⟩) with hg | hd | ⟨v, hv⟩
    · exact Or.inl hg
    · exact Or.inr hd
    · simp [h.clear p] at hv

/-! ## Lookup -/

theorem get_missing (hq : q ∉ keys) : fs.tree.get (keyLoc d q) = none :=
  (h.missing_or_dir (suffix_keyLoc d q) (List.suffix_refl _)).resolve_right
    fun hd => hq (h.isDir_keyLoc.1 hd)

/-- `DirectoryExists` asks whether the key is in the tree. -/
theorem directoryExists_eq : directoryExists fs (joinName D (keyOf q)) =
    if q ∈ keys then pathIsDir else pathIsNotExists := by
  have hdir := (leads_keyOf D d q).directoryExists_iff h.links h.isAt
  rw [h.isDir_keyLoc] at hdir
  split_ifs with hq
  · exact hdir.2 hq
  · rcases path_keyOf D q with hp | ⟨rfl, -⟩
    · rw [hp]
      exact directoryExists_missing h.links h.isAt (fun _ => validName_keyNames) (h.get_missing hq)
    · exact absurd h.nil_mem hq

/-- A missing key is not deleted. -/
theorem deleteDir_missing {host : Host} (hq : q ∉ keys) :
    deleteDir host fs (joinName D (keyOf q)) = (fs, false) := by
  have hget := h.get_missing hq
  obtain ⟨p, k, rfl⟩ := (List.eq_nil_or_concat' q).resolve_left fun he => hq (he ▸ h.nil_mem)
  have hpath : joinName D (keyOf (p ++ [k])) = (keyNames p ++ [k.val]).foldl joinName D := by
    rcases path_keyOf D (p ++ [k]) with he | ⟨he, -⟩
    · rw [he, keyNames, List.map_append]
      rfl
    · simp at he
  have hk : k.val ∈ keyNames (p ++ [k]) := by simp [keyNames]
  obtain ⟨hdir, hno⟩ := h.isAt.resolve_names (fun _ => validName_keyNames (q := p))
    (validName_keyNames hk) h.links false
  have hlst : ∃ e, fs.lstat (joinName D (keyOf (p ++ [k]))) = .error e := by
    rw [hpath, lstat]
    by_cases hd : fs.tree.isDir ((keyNames p).reverse ++ d)
    · rw [keyLoc_concat, keyLoc] at hget
      rw [hdir hd, nodeAt, hget]
      exact ⟨_, rfl⟩
    · obtain ⟨e, he⟩ := hno (by simpa using hd)
      exact ⟨e, by rw [he, nodeAt]⟩
  obtain ⟨e, he⟩ := hlst
  rw [deleteDir, if_neg (joinName_ne_nil h.isAt.ne_nil), deleteTree, he]

/-! ## Listing -/

variable (host : Host)

/-- A missing key cannot be opened. -/
theorem entries_missing (hq : q ∉ keys) :
    ∃ e, host.entries fs (joinName D (keyOf q)) = .error e := by
  have hno : ¬∃ p, fs.At (joinName D (keyOf q)) p := by
    rw [← directoryExists_eq_dir_iff_at, h.directoryExists_eq, if_neg hq]
    decide
  rw [Host.entries]
  cases hr : fs.resolve true (joinName D (keyOf q)) with
  | error e => exact ⟨e, rfl⟩
  | ok l =>
    dsimp only
    rw [if_neg fun hd => hno ⟨l, joinName_ne_nil h.isAt.ne_nil, hr, hd⟩]
    exact ⟨_, rfl⟩

theorem walkDir_missing {U : Type} (hq : q ∉ keys) (aCount : ℕ)
    (aProcessor : Option (WalkDirHandler U)) (aPattern : Option Bytes) (aOptions aSkipCount : ℕ)
    (u : U) : walkDir (joinName D (keyOf q)) aCount aProcessor host aPattern aOptions aSkipCount
      (fs, u) = (-1, fs, u) := by
  obtain ⟨e, he⟩ := h.entries_missing host hq
  simp only [walkDir, he]

theorem at_keyOf (hq : q ∈ keys) : fs.At (joinName D (keyOf q)) (keyLoc d q) :=
  (leads_keyOf D d q).isAt h.isAt (h.isDir_keyLoc.2 hq)

/-- There are no partitions. -/
theorem hiddenDirs_eq (hs : d <:+ l) : hiddenDirs host fs.tree l = [] := by
  refine List.eq_nil_iff_forall_not_mem.2 fun c hc => ?_
  obtain ⟨hd, hdot⟩ := mem_hiddenDirs.1 hc
  obtain ⟨q, -, he⟩ := (h.dirs _ (hs.trans (List.suffix_cons _ _))).1 hd
  obtain ⟨p, k, -, rfl, -⟩ := keyLoc_eq_cons hs he.symm
  exact k.visible hdot

/-- The visible directories of a key are its children. -/
theorem mem_visibleDirs_iff {c : Name} : c ∈ visibleDirs host fs.tree (keyLoc d q) ↔
    ∃ k ∈ KeyTree.childrenIn keys q, k.val = c := by
  have hs := (suffix_keyLoc d q).trans (List.suffix_cons c _)
  rw [mem_visibleDirs]
  constructor
  · rintro ⟨hd, -⟩
    obtain ⟨p, hp, he⟩ := (h.dirs _ hs).1 hd
    obtain ⟨p, k, rfl, hk, hl⟩ := keyLoc_eq_cons (suffix_keyLoc d q) he.symm
    exact ⟨k, KeyTree.mem_childrenIn.2 (keyLoc_inj hl ▸ hp), hk⟩
  · rintro ⟨k, hk, rfl⟩
    refine ⟨?_, k.visible⟩
    rw [← keyLoc_concat]
    exact h.isDir_keyLoc.2 (KeyTree.mem_childrenIn.1 hk)

/-- The directories below a key are its subkeys. -/
theorem coe_visibleDirs (q : List Key) : (visibleDirs host fs.tree (keyLoc d q) : Multiset Name) =
    (KeyTree.childrenIn keys q).val.map Key.val := by
  refine (Multiset.Nodup.ext (Multiset.coe_nodup.2 nodup_visibleDirs) ?_).2 fun c => ?_
  · exact (KeyTree.childrenIn keys q).nodup.map fun _ _ he => Key.ext_val he
  · simp only [Multiset.mem_coe, Multiset.mem_map, Finset.mem_val, h.mem_visibleDirs_iff host]

/-- The walk of a missing key fails. -/
theorem iSubkeyWalk_missing (hq : q ∉ keys) (aProcessor : Option WalkKeyHandler)
    (policy : TIDBProcesses) :
    iSubkeyWalk host fs D (keyOf q) none 0 0 aProcessor policy = some (-1, fs, []) := by
  obtain ⟨fuel, hfuel⟩ := walkFuel_succ fs.tree none
  rw [iSubkeyWalk_none, keyWalk]
  simp only [hfuel, _iSubkeyWalk, h.path_eq, h.walkDir_missing host hq]
  rfl

/-- `iSubkeys` returns the children of a key that is there, in the order the host lists them. -/
theorem iSubkeys_eq (iDBDuplicationKeyProcess policy : TIDBProcesses) (q : List Key) :
    ∃ keys', iSubkeys host iDBDuplicationKeyProcess fs D (keyOf q) none 0 0 policy =
        some (keys', fs) ∧
      keys'.map Multiset.ofList =
        if q ∈ keys then some ((KeyTree.childrenIn keys q).val.map Key.val) else none := by
  split_ifs with hq
  · have hat := h.at_keyOf hq
    rw [← h.path_eq] at hat
    refine ⟨_, iSubkeys_at iDBDuplicationKeyProcess hat
      (fun c => h.links _ (below_cons (suffix_keyLoc d q) c))
      (h.hiddenDirs_eq host (suffix_keyLoc d q)), ?_⟩
    rw [← h.coe_visibleDirs host]
    rfl
  · refine ⟨none, ?_, rfl⟩
    rw [iSubkeys, h.iSubkeyWalk_missing host hq]
    rfl

/-- `iSubkeyTotal` counts the children of a key that is there. -/
theorem iSubkeyTotal_eq (policy : TIDBProcesses) (q : List Key) :
    iSubkeyTotal host fs D (keyOf q) none policy =
      some (if q ∈ keys then ((KeyTree.childrenIn keys q).card : ℤ) else -1) := by
  split_ifs with hq
  · have hcard := congrArg Multiset.card (h.coe_visibleDirs host q)
    rw [Multiset.coe_card, Multiset.card_map, Finset.card_val] at hcard
    have hat := h.at_keyOf hq
    have hlinks := fun c => h.links _ (below_cons (suffix_keyLoc d q) c)
    have hnormal := (map_filter_chosen hat).symm.trans
      (@map_filter_normalDirs host _ _ _ hat hlinks)
    have hhidden := (map_filter_chosen hat).symm.trans
      (@map_filter_hiddenDirs host _ _ _ hat hlinks)
    have hnone : Records none policy fun _ => [] := fun _ _ _ _ _ _ => by simp [callKey]
    rw [h.hiddenDirs_eq host (suffix_keyLoc d q)] at hhidden
    rw [← h.path_eq] at hat hnormal hhidden
    rw [iSubkeyTotal, iSubkeyWalk_flat hnone hat hhidden, hnormal, hcard]
    rfl
  · rw [iSubkeyTotal, h.iSubkeyWalk_missing host hq]
    rfl

/-! ## Changes -/

/-- Directories are made on the way to a key. -/
theorem grown {keys' : Finset (List Key)} (hc : fs'.cwd = fs.cwd)
    (hout : ∀ m, ¬Below d m → fs'.tree.get m = fs.tree.get m)
    (hlinks : ∀ m, fs.tree.NoLink m → fs'.tree.NoLink m)
    (hdirs : ∀ m, fs'.tree.isDir m ↔ fs.tree.isDir m ∨ (Below d m ∧ m <:+ keyLoc d q))
    (hclear : ∀ p, fs'.tree.fileAt (keyLoc d p) = none)
    (hkeys : ∀ p, p ∈ keys' ↔ p ∈ keys ∨ p <+: q) : PlainKeys D d fs' keys' where
  anchored := h.anchored.of_agree hc hout
  links l hb := hlinks l (h.links l hb)
  clear := hclear
  dirs l hl := by
    rw [hdirs, h.dirs l hl]
    simp only [hkeys]
    constructor
    · rintro (⟨p, hp, rfl⟩ | ⟨hb, hsuf⟩)
      · exact ⟨p, Or.inl hp, rfl⟩
      · obtain ⟨p, hp, rfl⟩ := keyLoc_of_suffix hl hsuf
        exact ⟨p, Or.inr hp, rfl⟩
    · rintro ⟨p, hp | hp, rfl⟩
      · exact Or.inl ⟨p, hp, rfl⟩
      · by_cases hne : keyLoc d p = d
        · exact Or.inl ⟨[], h.nil_mem, hne⟩
        · exact Or.inr ⟨⟨hl, hne⟩, keyLoc_suffix_iff.2 hp⟩

/-- A key is removed with what is below it. -/
theorem removed (hc : fs'.cwd = fs.cwd) (hq : q ≠ [])
    (hr : Removed fs.tree fs'.tree (keyLoc d q)) :
    PlainKeys D d fs' (keys.filter fun p => ¬q <+: p) where
  anchored := h.anchored.of_agree hc fun m hm => by
    rw [hr m, if_neg]
    exact fun hs => hm ((below_keyLoc hq).suffix hs)
  links l hb target hl := by
    rw [hr l] at hl
    split_ifs at hl
    exact h.links l hb target hl
  clear p := by
    rw [fileAt, hr]
    split_ifs
    · rfl
    · exact h.clear p
  dirs l hl := by
    simp only [Finset.mem_filter]
    by_cases hs : keyLoc d q <:+ l
    · have hno : ¬fs'.tree.isDir l := fun hd => get_ne_none_of_isDir hd (by rw [hr l, if_pos hs])
      refine ⟨fun hd => absurd hd hno, ?_⟩
      rintro ⟨p, ⟨-, hp⟩, rfl⟩
      exact absurd (keyLoc_suffix_iff.1 hs) hp
    · rw [FileTree.isDir, hr l, if_neg hs]
      refine (h.dirs l hl).trans (exists_congr fun p => and_congr_left ?_)
      rintro rfl
      rw [keyLoc_suffix_iff] at hs
      exact (and_iff_left hs).symm

/-! ## Calls that do not depend on the storage -/

section

variable {M : ℤ} (hM : M ≤ 0)

include hM

theorem iKeyIsExists_eq :
    iKeyIsExists M fs D (keyOf q) = if q ∈ keys then pathIsDir else pathIsNotExists := by
  simp only [iKeyIsExists, h.path_eq, h.directoryExists_eq, hM.not_gt, and_false, if_false]

theorem keyDirToDelete_eq : keyDirToDelete M fs D (keyOf q) = some (joinName D (keyOf q)) := by
  simp only [keyDirToDelete, h.path_eq, hM.not_gt, and_false, if_false]

/-- `iKeyDelete` removes a key that is there with all below it. -/
theorem iKeyDelete_eq (host : Host) (hq : q ≠ []) :
    ∃ fs', iKeyDelete host M fs D (keyOf q) = (fs', decide (q ∈ keys)) ∧ fs'.cwd = fs.cwd ∧
      Removed fs.tree fs'.tree (keyLoc d q) := by
  simp only [iKeyDelete, h.keyDirToDelete_eq hM]
  by_cases hmem : q ∈ keys
  · obtain ⟨fs', he, hc, hr⟩ := deleteDir_leads host h.anchored (leads_keyOf D d q)
      (below_keyLoc hq) (h.isDir_keyLoc.2 hmem)
    exact ⟨fs', by rw [he, decide_eq_true hmem], hc, hr⟩
  · refine ⟨fs, by rw [h.deleteDir_missing hmem, decide_eq_false hmem], rfl, fun m => ?_⟩
    -- Nothing is at a missing key or below it.
    split_ifs with hm
    · by_contra hne
      exact get_ne_none_of_suffix hm hne (h.get_missing hmem)
    · rfl

end

end PlainKeys

end Idb
