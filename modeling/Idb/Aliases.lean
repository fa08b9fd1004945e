import Idb.KeyDelete
import Idb.PathBetween
import Idb.PathKeys
import Idb.PutRuns
import Idb.RelativePaths

/-!
# Aliases

`iKeyAlias` makes a symbolic link from the path of the alias to the path of the key. A search in
the partitions goes by the name of the key, and not through the link. So an alias reads what the
key's own directory has at its plain path, and what the key has in a partition is not found
(`transparent_iff`).
-/

namespace Idb

open Posix FileSystem FileTree

/-! ## The function -/

/-- The state and the result, if `GetRelativePath` returns within `fuel` turns. -/
def iKeyAlias (fuel : ℕ) (fs : FileSystem) (aDir aKey aAliasPath : Bytes) :
    Option (FileSystem × ℤ) :=
  let vDestDir := sdsJoinPathLen aDir aAliasPath
  (getRelativePath fuel aAliasPath aKey).map fun vSrcDir =>
    match fs.symlink vSrcDir vDestDir with
    | .ok fs => (fs, 0)
    | .error e => (fs, errnoCode e)

/-! ## Paths and links -/

section

variable {fs : FileSystem} {D : Bytes} {d : Loc}

/-- The path of the directory does not take all the links that may be followed. -/
def SpareLink (fs : FileSystem) (D : Bytes) (d : Loc) : Prop :=
  fs.tree.namei true (symloopMax - 1) (startOf fs.cwd D) (components D) = .ok d

/-- A path with one link less to follow. -/
def resolveSpare (fs : FileSystem) (path : Bytes) : Except Errno Loc :=
  fs.tree.namei true (symloopMax - 1) (startOf fs.cwd path) (components path)

/-- What is joined to the path of a directory is walked from there with what is left of the links,
and there is one less with one link less. -/
theorem resolve_budget {fs' : FileSystem} (hD : fs.At D d) (hk : fs.tree.Keeps fs'.tree)
    (hc : fs'.cwd = fs.cwd) : ∃ w, (SpareLink fs D d ↔ w ≠ 0) ∧ ∀ path,
      fs'.resolve true (joinName D path) = fs'.tree.namei true w d (components path) ∧
      resolveSpare fs' (joinName D path) = match w with
        | 0 => .error .eloop
        | j + 1 => fs'.tree.namei true j d (components path) := by
  obtain ⟨cs, hcs, hiff⟩ := @components_base fs D _ hD.isDir
  have hall := hD.resolve
  rw [FileSystem.resolve, if_neg hD.ne_nil, hiff] at hall
  obtain ⟨u, w, hn, hu, hspare⟩ := exists_needs hall
  refine ⟨w, (hiff _).trans (hspare (symloopMax - 1) rfl), fun path => ?_⟩
  obtain ⟨hrest, hshort⟩ := hu.append hk hD.isDir (List.splitOn_ne_nil slash path) true
  have hrest : ∀ m, fs'.tree.namei true (u + m) (startOf fs.cwd D) (cs ++ components path) =
      fs'.tree.namei true m d (components path) := hrest
  have hfull := hrest w
  rw [← hn] at hfull
  rw [FileSystem.resolve, if_neg (joinName_ne_nil hD.ne_nil), resolveSpare,
    startOf_joinName hD.ne_nil, hc, hcs]
  refine ⟨hfull, ?_⟩
  cases w with
  | zero => exact hshort (symloopMax - 1) hn.symm
  | succ j =>
    have hless : symloopMax - 1 = u + j := by omega
    rw [hless]
    exact hrest j

end

/-! ## The target -/

theorem pathVal_eq_joined (q : List DotFreeKey) : pathVal q = joined false (pathNames q) :=
  (joined_eq_intercalate _).symm

/-- A path of keys. -/
def keysPath (q : List DotFreeKey) (hq : q ≠ []) : PlainPath :=
  ⟨false, pathNames q, false, by simpa [pathNames] using hq, fun _ => validName_of_mem⟩

theorem keysPath_text (q : List DotFreeKey) (hq : q ≠ []) : (keysPath q hq).text = pathVal q :=
  (pathVal_eq_joined q).symm

/-- The link goes up from the alias to where its path and the key's part, and down to the key. -/
structure AliasTarget (p q : List DotFreeKey) (r : Bytes) (n k : ℕ) : Prop where
  length : p.length = n + 1 + k
  lt : k < q.length
  common : p.take k = q.take k
  text : r = parentSteps n ++ joined false (pathNames (q.drop k))

/-- The relative path an alias holds climbs out of the common part and goes down to the target. -/
theorem aliasTarget {p q : List DotFreeKey} {fuel : ℕ} {r : Bytes} (hp : p ≠ []) (hq : q ≠ [])
    (h : getRelativePath fuel (pathVal p) (pathVal q) = some r) :
    ∃ n k, AliasTarget p q r n k := by
  have hrel := getRelativePath_eq (keysPath p hp) (keysPath q hq) rfl fuel
  rw [keysPath_text, keysPath_text, h] at hrel
  have hup : (keysPath p hp).stepsUp (keysPath q hq) =
      (pathNames p).length - commonNames false false (pathNames p) (pathNames q) - 1 := rfl
  set k := commonNames false false (pathNames p) (pathNames q) with hk
  have hlen : ∀ x : List DotFreeKey, (pathNames x).length = x.length := fun x => by simp [pathNames]
  have hne : ∀ {x : List DotFreeKey}, x ≠ [] → pathNames x ≠ [] := fun hx => by
    simpa [pathNames] using hx
  have hkp : k < p.length := by
    refine lt_of_le_of_ne (hlen p ▸ commonNames_le) fun he => ?_
    have := (commonNames_eq_length (hne hp)).1 (he.trans (hlen p).symm)
    simp at this
  have hkq : k < q.length := hlen q ▸ commonNames_lt (hne hq)
  obtain ⟨n, hn⟩ : ∃ n, p.length = n + 1 + k := ⟨p.length - k - 1, by omega⟩
  have hcount : (keysPath p hp).stepsUp (keysPath q hq) = (n : ℤ) := by
    have := hlen p
    omega
  have hrel := hrel.symm
  split_ifs at hrel
  obtain ⟨r', hr', rfl⟩ := Option.map_eq_some_iff.1 hrel
  refine ⟨n, k, hn, hkq, ?_, ?_⟩
  · have hinj : Function.Injective fun k : DotFreeKey => k.val := fun _ _ he =>
      DotFreeKey.ext_key (Key.ext_val he)
    refine List.map_injective_iff.2 hinj ?_
    rw [List.map_take, List.map_take]
    exact take_commonNames
  · have hsteps : parentLoop fuel (n : ℤ) [] = some r' := hcount ▸ hr'
    rw [parentLoop_some hsteps, List.nil_append, pathNames, List.map_drop]
    rfl

namespace AliasTarget

variable {p q : List DotFreeKey} {r : Bytes} {n k : ℕ} (h : AliasTarget p q r n k)

include h

theorem components_eq : components r = List.replicate n [dot, dot] ++ pathNames (q.drop k) := by
  rw [h.text, components_parentSteps, components_joined fun c hc => (validName_of_mem hc).2.1]
  simpa [pathNames] using h.lt

/-- The target is a relative path. -/
theorem startOf_eq (l : Loc) : startOf l r = l := by
  have hcomp := h.components_eq
  rw [startOf, if_neg]
  intro hs
  obtain ⟨r', rfl⟩ := List.head?_eq_some_iff.1 hs
  have hsplit : components (slash :: r') = [] :: components r' := components_append_slash [] r'
  rw [hsplit] at hcomp
  have hmem : ([] : Name) ∈ List.replicate n [dot, dot] ++ pathNames (q.drop k) := by
    rw [← hcomp]
    exact List.mem_cons_self
  rcases List.mem_append.1 hmem with hup | hdown
  · simp at hup
  · exact (validName_of_mem hdown).1.1 rfl

end AliasTarget

/-! ## The link -/

/-- `fs'` is `fs` with a link at the unused place `A`. -/
structure Aliased (fs fs' : FileSystem) (A : Loc) (target : Bytes) : Prop where
  cwd_eq : fs'.cwd = fs.cwd
  missing : fs.tree.get A = none
  parent : fs.tree.isDir A.tail
  updated : fs.tree.Updated fs'.tree A (some (.link target))

namespace Aliased

variable {fs fs' : FileSystem} {A m : Loc} {target : Bytes} (h : Aliased fs fs' A target)

include h

theorem get_of_ne (hm : m ≠ A) : fs'.tree.get m = fs.tree.get m := by
  rw [h.updated, if_neg hm]

theorem get_link : fs'.tree.get A = some (.link target) := by
  rw [h.updated, if_pos rfl]

theorem isDir_eq (m : Loc) : fs'.tree.isDir m = fs.tree.isDir m := by
  by_cases hm : m = A
  · rw [hm, FileTree.isDir, FileTree.isDir, h.get_link, h.missing]
    rfl
  · rw [FileTree.isDir, FileTree.isDir, h.get_of_ne hm]

theorem keeps : fs.tree.Keeps fs'.tree := by
  refine ⟨fun l hl => (h.isDir_eq l).trans hl, fun l target hl => ?_⟩
  rw [h.get_of_ne, hl]
  rintro rfl
  simp [h.missing] at hl

theorem noLink (hm : m ≠ A) (hl : fs.tree.NoLink m) : fs'.tree.NoLink m := fun target ht =>
  hl target (h.get_of_ne hm ▸ ht)

end Aliased

/-- A successful `iKeyAlias` makes one link, which holds the relative path. -/
theorem iKeyAlias_ok {fs fs' : FileSystem} {D : Bytes} {d : Loc} {p q : List DotFreeKey}
    {fuel : ℕ} (hD : fs.At D d) (hl : ∀ l, Below d l → fs.tree.NoLink l) (hp : p ≠ [])
    (h : iKeyAlias fuel fs D (pathVal q) (pathVal p) = some (fs', 0)) :
    ∃ r, getRelativePath fuel (pathVal p) (pathVal q) = some r ∧
      Aliased fs fs' (pathLoc d p) r := by
  obtain ⟨r, hr, hres⟩ := Option.map_eq_some_iff.1 h
  refine ⟨r, hr, ?_⟩
  rw [sdsJoinPathLen_eq hD.ne_nil, joinName_pathVal D hp] at hres
  cases hs : fs.symlink r ((pathNames p).foldl joinName D) with
  | error e =>
    rw [hs, Prod.mk.injEq] at hres
    exact absurd hres.2 (errnoCode_ne_zero e)
  | ok fs'' =>
    rw [hs, Prod.mk.injEq] at hres
    obtain rfl := hres.1
    rw [symlink] at hs
    split_ifs at hs
    obtain ⟨l, hres, ho, hc⟩ := modify_ok hs
    obtain ⟨hn, hd, hu⟩ := makeLink_ok ho
    have hloc : l = pathLoc d p := by
      obtain ⟨p, k, rfl⟩ := (List.eq_nil_or_concat' p).resolve_left hp
      have hk : ValidName k.val := validName_of_mem (q := [k]) (by simp [pathNames])
      have hn : ∀ n ∈ pathNames p, ValidName n := fun _ => validName_of_mem
      obtain ⟨hdir, hno⟩ := hD.resolve_names hn hk hl false
      have hnames : pathNames (p ++ [k]) = pathNames p ++ [k.val] := by simp [pathNames]
      rw [hnames] at hres
      by_cases hpar : fs.tree.isDir ((pathNames p).reverse ++ d)
      · rw [hdir hpar, Except.ok.injEq] at hres
        rw [← hres, pathLoc_concat, pathLoc]
      · obtain ⟨err, he⟩ := hno (by simpa using hpar)
        rw [he] at hres
        simp at hres
    exact hloc ▸ ⟨hc, hn, hd, hu⟩

/-! ## Walks through the link -/

section

variable {fs fs' : FileSystem} {D r : Bytes} {d : Loc} {p q : List DotFreeKey} {n k : ℕ}

/-- The places on the way to the key are not that of the alias. -/
theorem pathLoc_ne_alias (hpq : ¬p <+: q) {q' : List DotFreeKey} (hq : q' <+: q) :
    pathLoc d q' ≠ pathLoc d p := fun he => hpq (pathLoc_inj he ▸ hq)

theorem noLink_pathLoc (hd : fs.tree.isDir d) (hl : ∀ l, Below d l → fs.tree.NoLink l)
    (q : List DotFreeKey) : fs.tree.NoLink (pathLoc d q) := by
  by_cases hq : q = []
  · rw [hq, pathLoc_nil]
    exact noLink_of_isDir hd
  · exact hl _ (below_pathLoc hq)

theorem foldl_enter_pathNames (q q' : List DotFreeKey) :
    (pathNames q').foldl enter (pathLoc d q) = pathLoc d (q ++ q') := by
  rw [foldl_enter fun n hn => (validName_of_mem hn).1]
  simp [pathLoc, pathNames]

theorem drop_pathLoc (h : p.length = n + k) : (pathLoc d p).drop n = pathLoc d (p.take k) := by
  have hlen : n ≤ (pathNames p).reverse.length := by simp [pathNames, h]
  rw [pathLoc, pathLoc, List.drop_append_of_le_length hlen, List.drop_reverse, pathNames,
    List.length_map, ← List.map_take, h, Nat.add_sub_cancel_left]
  rfl

/-- A walk from the target of the link is one on the path of the key. -/
theorem Aliased.walk_target {j : ℕ} (h : Aliased fs fs' (pathLoc d p) r)
    (ht : AliasTarget p q r n k) (cs : List Name) :
    fs'.tree.namei true j (pathLoc d p).tail (components r ++ cs) =
      fs'.tree.namei true j d (pathNames q ++ cs) := by
  have hcommon : (List.replicate n [dot, dot]).foldl enter (pathLoc d p).tail =
      pathLoc d (q.take k) := by
    rw [foldl_enter_replicate, List.drop_tail, drop_pathLoc ht.length, ht.common]
  have hdown : pathNames q = pathNames (q.take k) ++ pathNames (q.drop k) := by
    rw [pathNames, pathNames, pathNames, ← List.map_append, List.take_append_drop]
  have hbase : (pathNames (q.take k)).foldl enter d = pathLoc d (q.take k) :=
    foldl_enter_pathNames [] _
  rw [ht.components_eq, List.append_assoc, namei_dirs, hcommon, hdown, List.append_assoc,
    namei_dirs _ (pathNames (q.drop k) ++ cs), hbase]
  · intro pre hpre
    obtain ⟨q', hq', rfl⟩ := List.prefix_map_iff.1 hpre
    have hway : (pathNames q').foldl enter d = pathLoc d q' := foldl_enter_pathNames [] q'
    have hsuf : pathLoc d (p.take k) <:+ (pathLoc d p).tail := by
      rw [← drop_pathLoc ht.length, ← List.drop_tail]
      exact List.drop_suffix _ _
    rw [← ht.common] at hq'
    change fs'.tree.isDir ((pathNames q').foldl enter d)
    rw [hway, h.isDir_eq]
    exact isDir_of_suffix ((pathLoc_suffix hq').trans hsuf) h.parent
  · intro pre hpre
    rw [(List.prefix_replicate_iff.1 hpre).2, foldl_enter_replicate, h.isDir_eq]
    exact isDir_of_suffix (List.drop_suffix _ _) h.parent

/-- The path of the key does not go through the link. -/
theorem Aliased.walk_key {j : ℕ} {x : Name} (h : Aliased fs fs' (pathLoc d p) r)
    (hd : fs.tree.isDir d) (hl : ∀ l, Below d l → fs.tree.NoLink l) (hpq : ¬p <+: q)
    (hx : ValidName x) (hxl : fs'.tree.NoLink (x :: pathLoc d q)) :
    (fs.tree.isDir (pathLoc d q) →
      fs'.tree.namei true j d (pathNames q ++ [x]) = .ok (x :: pathLoc d q)) ∧
    (fs.tree.isDir (pathLoc d q) = false →
      ∃ err, fs'.tree.namei true j d (pathNames q ++ [x]) = .error err) := by
  have hend : (pathNames q).foldl enter d = pathLoc d q := foldl_enter_pathNames [] q
  have hway : ∀ pre, pre <+: pathNames q → ∃ q', q' <+: q ∧ pre.foldl enter d = pathLoc d q' := by
    intro pre hpre
    obtain ⟨q', hq', rfl⟩ := List.prefix_map_iff.1 hpre
    exact ⟨q', hq', foldl_enter_pathNames [] q'⟩
  constructor
  · intro hdir
    rw [namei_dirs, hend, namei_single, enter_plain hx.1]
    · rwa [h.isDir_eq]
    · rwa [enter_plain hx.1]
    · intro pre hpre
      obtain ⟨q', hq', he⟩ := hway pre hpre
      rw [he, h.isDir_eq]
      exact isDir_of_suffix (pathLoc_suffix hq') hdir
  · intro hdir
    refine namei_no_dir (fun pre hpre => ?_) ?_ (by simp)
    · obtain ⟨q', hq', he⟩ := hway pre hpre
      rw [he]
      exact h.noLink (pathLoc_ne_alias hpq hq') (noLink_pathLoc hd hl q')
    · rwa [hend, h.isDir_eq]

theorem pathVal_ne_nil (hp : p ≠ []) : pathVal p ≠ [] := by
  obtain ⟨k, p, rfl⟩ := List.exists_cons_of_ne_nil hp
  rw [pathVal_cons]
  exact List.append_ne_nil_of_left_ne_nil k.component.1 _

/-- The path of an attribute of a key, walked from the base directory. -/
theorem components_attr (hp : p ≠ []) (x : Bytes) :
    components (joinName (pathVal p) x) = pathNames p ++ components x := by
  have hne : pathNames p ≠ [] := by simpa [pathNames] using hp
  have hlast : (pathVal p).getLast? ≠ some slash := by
    rw [pathVal_eq_joined]
    exact fun hs => by simpa using (getLast?_joined (fun c => validName_of_mem) hne).1 hs
  rw [joinName_of_no_slash hlast, components_append_slash, pathVal_eq_joined,
    components_joined (fun c hc => (validName_of_mem hc).2.1) hne]

/-- A walk comes to the link, which it follows if it can. -/
theorem Aliased.walk_alias (h : Aliased fs fs' (pathLoc d p) r) (ht : AliasTarget p q r n k)
    (hp : p ≠ []) (cs : List Name) :
    fs'.tree.namei true 0 d (pathNames p ++ cs) = .error .eloop ∧
    ∀ j, fs'.tree.namei true (j + 1) d (pathNames p ++ cs) =
      fs'.tree.namei true j (pathLoc d p).tail (components r ++ cs) := by
  obtain ⟨p, z, rfl⟩ := (List.eq_nil_or_concat' p).resolve_left hp
  have hparent : fs'.tree.isDir (pathLoc d p) := by
    have := h.parent
    rw [pathLoc_concat] at this
    rwa [h.isDir_eq]
  have hlink : fs'.tree.get (enter (pathLoc d p) z.val) = some (.link r) := by
    rw [enter_plain (plain_of_head? z.component.1 z.visible), ← pathLoc_concat]
    exact h.get_link
  have hto : ∀ j, fs'.tree.namei true j d (pathNames (p ++ [z]) ++ cs) =
      fs'.tree.namei true j (pathLoc d p) (z.val :: cs) := by
    intro j
    have hnames : pathNames (p ++ [z]) ++ cs = pathNames p ++ z.val :: cs := by simp [pathNames]
    have hend : (pathNames p).foldl enter d = pathLoc d p := foldl_enter_pathNames [] p
    rw [hnames, namei_dirs, hend]
    intro pre hpre
    obtain ⟨q', hq', rfl⟩ := List.prefix_map_iff.1 hpre
    have hway : (pathNames q').foldl enter d = pathLoc d q' := foldl_enter_pathNames [] q'
    exact hway ▸ isDir_of_suffix (pathLoc_suffix hq') hparent
  refine ⟨?_, fun j => ?_⟩
  · rw [hto]
    exact walk_cons_link hparent hlink (Or.inr rfl)
  · rw [hto, namei_cons_link hparent hlink (Or.inr rfl), ht.startOf_eq, pathLoc_concat]
    rfl

end

/-! ## What does not go through the link -/

section

variable {fs fs' : FileSystem} {D path path' r : Bytes} {d l A : Loc} {a : Option Bytes}

/-- A value is read from the node that its file's path names. -/
theorem getDirValue_congr (host : Host) (h : ∀ n, fs'.stat (makeAttrFileName path' a) = .ok n ↔
    fs.stat (makeAttrFileName path a) = .ok n) :
    getDirValue host fs' path' a = getDirValue host fs path a := by
  rw [getDirValue, getDirValue]
  cases hs : fs.stat (makeAttrFileName path a) with
  | ok n => rw [(h n).2 hs]
  | error e =>
    cases hs' : fs'.stat (makeAttrFileName path' a) with
    | ok n => simp [(h n).1 hs'] at hs
    | error e' => rfl

namespace Aliased

variable (h : Aliased fs fs' A r) (hD : fs.At D d) (hl : ∀ l, Below d l → fs.tree.NoLink l)

include h hD hl

theorem directoryExists_leads (hp : Leads D d path l) (hA : ¬A <:+ l) :
    directoryExists fs' path = pathIsDir ↔ directoryExists fs path = pathIsDir := by
  rw [hp.directoryExists_iff hl hD, hp.directoryExists_way (hD.keeps h.keeps h.cwd_eq),
    h.isDir_eq]
  exact fun m hb hm => h.noLink (fun he => hA (he ▸ hm)) (hl m hb)

/-- A read outside the link sees what it saw before. -/
theorem getDirValue_leads (host : Host) {a : Attr} (hp : Leads D d path l)
    (hA : ¬A <:+ a.name :: l) :
    getDirValue host fs' path a.val = getDirValue host fs path a.val := by
  obtain ⟨names, hn, rfl, hattr⟩ := attr_path (a := a) hp hD
  have hn' : ∀ m ∈ names ++ [a.name], ValidName m := by
    intro m hm
    rcases List.mem_append.1 hm with hm | hm
    · exact hn m hm
    · rw [List.mem_singleton.1 hm]
      exact a.validName
  have hrev : (names ++ [a.name]).reverse ++ d = a.name :: (names.reverse ++ d) := by simp
  refine getDirValue_congr host fun n => ?_
  rw [hattr, hD.stat_names hn' hl, (hD.keeps h.keeps h.cwd_eq).stat_way hn', hrev,
    h.get_of_ne fun he => hA (he ▸ List.suffix_refl _)]
  rw [hrev]
  exact fun m hb hm => h.noLink (fun he => hA (he ▸ hm)) (hl m hb)

end Aliased

end

/-! ## Searches in the partitions -/

section

variable {fs fs' : FileSystem} {D r : Bytes} {d l : Loc} {p x : List DotFreeKey} {k : DotFreeKey}
  {i : ℕ} {ns : List Name} {s : Bytes}

/-- The path of the directory that holds a key. -/
def parentDir (D : Bytes) (x : List DotFreeKey) : Bytes :=
  (pathNames x).foldl joinName D

/-- What leads on from the directory of a parent leads on from the base directory. -/
theorem leads_parentDir {path : Bytes} (h : Leads (parentDir D x) (pathLoc d x) path l) :
    Leads D d path l := by
  obtain ⟨names, hn, rfl, hp⟩ := h
  refine ⟨pathNames x ++ names, fun n hm => ?_, by simp [pathLoc], by rwa [List.foldl_append]⟩
  rcases List.mem_append.1 hm with hm | hm
  · exact validName_of_mem hm
  · exact hn n hm

/-- A level of the last component lies below the directory of its parent. -/
theorem leads_levelDir (h : levelAt k.val i = some (ns, s)) :
    Leads D d (levelDir (parentDir D x) ns) (ns.reverse ++ pathLoc d x) := by
  have hn : ∀ n ∈ ns, ValidName n := fun n hn => (k.level_parts h (DotFreeKey.level h).1 n hn).1
  refine leads_parentDir ⟨ns, hn, rfl, ?_⟩
  cases ns with
  | nil => exact Or.inr rfl
  | cons n ns => exact Or.inl (foldl_joinName_withSlash ns n)

theorem leads_level (h : levelAt k.val i = some (ns, s)) :
    Leads D d (keyDir (parentDir D x) ns s) (enter (ns.reverse ++ pathLoc d x) s) :=
  leads_parentDir (leads_keyDir h (DotFreeKey.level h).1 (DotFreeKey.level h).2)

/-- A place behind a partition directory lies behind the alias only if the directory that holds
the key does. -/
theorem prefix_of_suffix {c : Name} (hc : c.head? = some dot) (hp : p ≠ [])
    (hx : c :: pathLoc d x <:+ l) (hA : pathLoc d p <:+ l) : p <+: x := by
  have hsuf : d <:+ c :: pathLoc d x := (List.suffix_append _ d).trans (List.suffix_cons c _)
  rcases List.suffix_or_suffix_of_suffix hA hx with h | h
  · rcases List.suffix_cons_iff.1 h with he | hs
    · exact absurd hc (head?_pathLoc (below_pathLoc hp) he)
    · obtain ⟨q', hq', he⟩ := pathLoc_of_suffix (List.suffix_append _ d) hs
      exact pathLoc_inj he ▸ hq'
  · obtain ⟨q', hq', he⟩ := pathLoc_of_suffix hsuf h
    exact absurd hc (head?_pathLoc (he ▸ below_cons (List.suffix_append _ d) c) he.symm)

/-- No level of a key beside the alias lies below the alias. -/
theorem level_avoids (hp : p ≠ []) (hpx : ¬p <+: x) (h : levelAt k.val (i + 1) = some (ns, s))
    (hl : ns.reverse ++ pathLoc d x <:+ l) : ¬pathLoc d p <:+ l := by
  obtain ⟨n, ns, rfl⟩ : ∃ n ns', ns = n :: ns' := by
    refine List.exists_cons_of_ne_nil fun hnil => ?_
    have := levelAt_length h
    simp [hnil] at this
  obtain ⟨c, rfl, -⟩ := levelAt_parts h _ List.mem_cons_self
  refine fun hA => hpx (prefix_of_suffix (c := partName c) rfl hp (List.IsSuffix.trans ?_ hl) hA)
  rw [List.reverse_cons, List.append_assoc]
  exact List.suffix_append _ _

theorem suffix_enter_level (h : levelAt k.val i = some (ns, s)) (l : Loc) : l <:+ enter l s := by
  by_cases hs : s = []
  · rw [hs, enter_nil]
  · rw [enter_plain (plain_of_head? hs (DotFreeKey.level h).2)]
    exact List.suffix_cons s l

/-- What a search finds is the directory of a level. -/
theorem lookLoop_level (hD : D ≠ []) {fuel : ℕ} {v : Bytes} (h : levelAt k.val i = some (ns, s))
    (hv : lookLoop fs fuel (levelDir (parentDir D x) ns) s = some v) :
    ∃ j ns' s', levelAt k.val (j + 1) = some (ns', s') ∧ v = keyDir (parentDir D x) ns' s' := by
  have hne : parentDir D x ≠ [] := foldl_joinName_ne_nil hD
  induction fuel generalizing i ns s with
  | zero => simp [lookLoop] at hv
  | succ fuel ih =>
    rw [lookLoop] at hv
    cases hc : firstChar s with
    | error e => simp [hc] at hv
    | ok c =>
      have hnext := levelAt_succ h hc
      simp only [hc, joinPart_levelDir hne, sdsJoinPathLen_levelDir hne] at hv
      split_ifs at hv
      · exact ⟨i, _, _, hnext, (Option.some.inj hv).symm⟩
      · exact ⟨i, _, _, hnext, (Option.some.inj hv).symm⟩
      · exact ih hnext hv

/-- A search that starts above the link does not meet it. -/
theorem Aliased.lookLoop_eq (h : Aliased fs fs' (pathLoc d p) r) (hD : fs.At D d)
    (hl : ∀ l, Below d l → fs.tree.NoLink l) (hp : p ≠ []) (hpx : ¬p <+: x) (fuel : ℕ)
    (hlv : levelAt k.val i = some (ns, s)) :
    lookLoop fs' fuel (levelDir (parentDir D x) ns) s =
      lookLoop fs fuel (levelDir (parentDir D x) ns) s := by
  have hne : parentDir D x ≠ [] := foldl_joinName_ne_nil hD.ne_nil
  induction fuel generalizing i ns s with
  | zero => rfl
  | succ fuel ih =>
    rw [lookLoop, lookLoop]
    cases hc : firstChar s with
    | error e => rfl
    | ok c =>
      have hnext := levelAt_succ hlv hc
      have hpart := h.directoryExists_leads hD hl (leads_levelDir hnext)
        (level_avoids hp hpx hnext (List.suffix_refl _))
      have hkey := h.directoryExists_leads hD hl (leads_level hnext)
        (level_avoids hp hpx hnext (suffix_enter_level hnext _))
      simp only [joinPart_levelDir hne, sdsJoinPathLen_levelDir hne, hpart, hkey, ih hnext]

theorem joinName_concat (D : Bytes) (x : List DotFreeKey) (k : DotFreeKey) :
    joinName D (pathVal (x ++ [k])) = joinName (parentDir D x) k.val := by
  rw [joinName_pathVal D (by simp), parentDir, pathNames, List.map_append, List.foldl_append]
  rfl

theorem iIsKeyDirExists_concat (fs : FileSystem) (D : Bytes) (x : List DotFreeKey)
    (k : DotFreeKey) : iIsKeyDirExists fs (joinName D (pathVal (x ++ [k]))) =
      lookLoop fs k.val.length (levelDir (parentDir D x) []) k.val := by
  rw [joinName_concat, iIsKeyDirExists, extractLastPathName_joinName k.component.1 k.component.2.1]
  rfl

/-- Where a key is, the directory that holds it is. -/
theorem isDir_of_iKeyIsExists {M : ℤ} (hD : fs.At D d) (hl : ∀ l, Below d l → fs.tree.NoLink l)
    (h : iKeyIsExists M fs D (pathVal (x ++ [k])) = pathIsDir) : fs.tree.isDir (pathLoc d x) := by
  have hplain : directoryExists fs (joinName D (pathVal (x ++ [k]))) = pathIsDir ↔
      fs.tree.isDir (pathLoc d (x ++ [k])) := by
    rw [joinName_pathVal D (by simp)]
    exact (leads_pathNames D d _).directoryExists_iff hl hD
  rw [iKeyIsExists, sdsJoinPathLen_eq hD.ne_nil] at h
  split_ifs at h with hc
  · cases hv : iIsKeyDirExists fs (joinName D (pathVal (x ++ [k]))) with
    | none => exact absurd (by simpa [hv] using h) hc.1
    | some v =>
      rw [hv] at h
      rw [iIsKeyDirExists_concat] at hv
      obtain ⟨j, ns, s, hlv, rfl⟩ := lookLoop_level hD.ne_nil (levelAt_zero k.val) hv
      have hd := ((leads_level hlv).directoryExists_iff hl hD).1 h
      exact isDir_of_suffix ((List.suffix_append _ _).trans (suffix_enter_level hlv _)) hd
  · have hd := hplain.1 h
    rw [pathLoc_concat] at hd
    exact isDir_of_cons hd

/-- The value of an attribute in the directory that the search in the partitions finds. -/
def partValue (host : Host) (fs : FileSystem) (D : Bytes) (q : List DotFreeKey)
    (a : Option Bytes) : Option Bytes :=
  (iIsKeyDirExists fs (joinName D (pathVal q))).bind fun vDir => getDirValue host fs vDir a

/-- Reading from the partitions is not changed by the link. -/
theorem Aliased.partValue_eq (h : Aliased fs fs' (pathLoc d p) r) (hD : fs.At D d)
    (hl : ∀ l, Below d l → fs.tree.NoLink l) (hp : p ≠ []) (hpx : ¬p <+: x) (host : Host)
    (a : Attr) : partValue host fs' D (x ++ [k]) a.val = partValue host fs D (x ++ [k]) a.val := by
  rw [partValue, partValue, iIsKeyDirExists_concat, iIsKeyDirExists_concat,
    h.lookLoop_eq hD hl hp hpx _ (levelAt_zero k.val)]
  cases hv : lookLoop fs k.val.length (levelDir (parentDir D x) []) k.val with
  | none => rfl
  | some v =>
    obtain ⟨j, ns, s, hlv, rfl⟩ := lookLoop_level hD.ne_nil (levelAt_zero k.val) hv
    refine h.getDirValue_leads hD hl host (leads_level hlv) fun hA => ?_
    rcases List.suffix_cons_iff.1 hA with he | hs
    · exact head?_pathLoc (below_pathLoc hp) he a.head?_name
    · exact level_avoids hp hpx hlv (suffix_enter_level hlv _) hs

end

/-! ## Reading an alias -/

section

variable {fs fs' : FileSystem} {D r : Bytes} {d : Loc} {p q : List DotFreeKey} {n k : ℕ} {M : ℤ}

theorem attr_ne_alias (hp : p ≠ []) (a : Attr) (l : Loc) : a.name :: l ≠ pathLoc d p := fun he =>
  head?_pathLoc (below_pathLoc hp) he.symm a.head?_name

/-- What is read at the plain path of a key with one link less to follow. -/
def spareValue (host : Host) (fs : FileSystem) (D : Bytes) (q : List DotFreeKey)
    (a : Option Bytes) : Option Bytes :=
  match resolveSpare fs (makeAttrFileName (joinName D (pathVal q)) a) with
  | .ok l => readAt host fs.tree l
  | .error _ => none

theorem makeAttrFileName_path (hD : D ≠ []) (hp : p ≠ []) (a : Option Bytes) :
    makeAttrFileName (joinName D (pathVal p)) a =
      joinName D (joinName (pathVal p) (attrEntry a)) := by
  rw [makeAttrFileName_entry (joinName_ne_nil hD), joinName_joinName D (pathVal_ne_nil hp)]

/-- At the plain path of the alias there is what the key's plain path leads to with one link
less. -/
theorem Aliased.getDirValue_alias (h : Aliased fs fs' (pathLoc d p) r)
    (ht : AliasTarget p q r n k) (hD : fs.At D d) (hp : p ≠ []) (hq : q ≠ []) (host : Host)
    (a : Option Bytes) :
    getDirValue host fs' (joinName D (pathVal p)) a = spareValue host fs' D q a := by
  obtain ⟨w, -, hw⟩ := resolve_budget hD h.keeps h.cwd_eq
  obtain ⟨hspent, hfollow⟩ := h.walk_alias ht hp (components (attrEntry a))
  rw [getDirValue_eq_readAt, spareValue, makeAttrFileName_path hD.ne_nil hp,
    makeAttrFileName_path hD.ne_nil hq, (hw _).1, (hw _).2, components_attr hp,
    components_attr hq]
  cases w with
  | zero => rw [hspent]
  | succ j =>
    cases hto : fs'.tree.namei true j d (pathNames q ++ components (attrEntry a)) <;>
      simp only [hfollow, h.walk_target ht, hto]

/-- An attribute with a name needs no link, other than those on the path of the base directory. -/
theorem Aliased.spareValue_named (h : Aliased fs fs' (pathLoc d p) r) (hD : fs.At D d)
    (hl : ∀ l, Below d l → fs.tree.NoLink l) (hpq : ¬p <+: q) (hp : p ≠ []) (hq : q ≠ [])
    (host : Host) (a : Attr) :
    (SpareLink fs D d → spareValue host fs' D q a.val =
      getDirValue host fs (joinName D (pathVal q)) a.val) ∧
    (¬SpareLink fs D d → spareValue host fs' D q a.val = none) := by
  have hne := attr_ne_alias (d := d) hp a (pathLoc d q)
  have hlink : fs.tree.NoLink (a.name :: pathLoc d q) :=
    hl _ (below_cons (List.suffix_append _ _) _)
  obtain ⟨w, hspare, hw⟩ := resolve_budget hD h.keeps h.cwd_eq
  rw [spareValue, makeAttrFileName_path hD.ne_nil hq, (hw _).2, components_attr hq, ← a.name_eq,
    components_of_not_mem a.validName.2.1, hspare]
  cases w with
  | zero => exact ⟨fun h0 => absurd rfl h0, fun _ => rfl⟩
  | succ j =>
    refine ⟨fun _ => ?_, fun h0 => absurd (Nat.succ_ne_zero j) h0⟩
    obtain ⟨hdir, hno⟩ := h.walk_key (j := j) hD.isDir hl hpq a.validName (h.noLink hne hlink)
    have hread : getDirValue host fs (joinName D (pathVal q)) a.val =
        readAt host fs.tree (a.name :: pathLoc d q) := by
      rw [joinName_pathVal D hq, getDirValue, readAt]
      rcases stat_attr_cases (a := a) (leads_pathNames D d q) hD hl with ⟨n, hs, hg⟩ | ⟨e, hs, hg⟩
      · rw [hs, hg]
        cases n <;> rfl
      · rw [hs, hg]
    dsimp only
    rw [hread]
    by_cases hd : fs.tree.isDir (pathLoc d q)
    · rw [hdir hd]
      exact readAt_eq (h.get_of_ne hne)
    · obtain ⟨err, he⟩ := hno (by simpa using hd)
      rw [he, readAt, get_cons_eq_none (by simpa using hd)]

/-- The value in the partitions, if there is a page limit. -/
def limitValue (host : Host) (M : ℤ) (fs : FileSystem) (D : Bytes) (q : List DotFreeKey)
    (a : Option Bytes) : Option Bytes :=
  if M > 0 then partValue host fs D q a else none

/-- From files `iGet` reads the plain path first and the page levels after it. -/
theorem iGet_storeInFile (host : Host) (hD : D ≠ []) (q : List DotFreeKey) (a : Option Bytes) :
    iGet host M fs D (pathVal q) a storeInFile =
      (getDirValue host fs (joinName D (pathVal q)) a).or (limitValue host M fs D q a) := by
  rw [iGet, sdsJoinPathLen_eq hD]
  simp only [_iGet_storeInFile, partValue, limitValue]
  cases getDirValue host fs (joinName D (pathVal q)) a with
  | some v => rfl
  | none =>
    split_ifs
    · cases iIsKeyDirExists fs (joinName D (pathVal q)) <;> rfl
    · rfl

/-- The alias reads every attribute that has a name as the key does. -/
def Transparent (host : Host) (M : ℤ) (fs : FileSystem) (D : Bytes) (p q : List DotFreeKey) :
    Prop :=
  ∀ a : Attr, iGet host M fs D (pathVal p) a.val storeInFile =
    iGet host M fs D (pathVal q) a.val storeInFile

/-- The link leads to a file of the attribute. -/
def LinkReaches (host : Host) (fs : FileSystem) (D : Bytes) (d : Loc) (q : List DotFreeKey)
    (a : Attr) : Prop :=
  SpareLink fs D d ∧ getDirValue host fs (joinName D (pathVal q)) a.val ≠ none

/-- Every attribute that the link does not lead to is in the partitions, under the name of the
alias. -/
def FoundElsewhere (host : Host) (M : ℤ) (fs : FileSystem) (D : Bytes) (d : Loc)
    (p q : List DotFreeKey) : Prop :=
  ∀ a : Attr, ¬LinkReaches host fs D d q a → limitValue host M fs D p a.val =
    (getDirValue host fs (joinName D (pathVal q)) a.val).or (limitValue host M fs D q a.val)

/-- Without a page limit nothing is in the partitions, and the link leads to all there is. -/
theorem foundElsewhere_of_no_limit (host : Host) (hM : M ≤ 0) (hspare : SpareLink fs D d)
    (p q : List DotFreeKey) : FoundElsewhere host M fs D d p q := by
  intro a hreach
  have hnone : getDirValue host fs (joinName D (pathVal q)) a.val = none := by
    by_contra hne
    exact hreach ⟨hspare, hne⟩
  rw [hnone, limitValue, limitValue, if_neg (not_lt.2 hM), if_neg (not_lt.2 hM)]
  rfl

section

variable (h : Aliased fs fs' (pathLoc d p) r) (hD : fs.At D d)
  (hl : ∀ l, Below d l → fs.tree.NoLink l) (hpq : ¬p <+: q) (hp : p ≠ []) (host : Host)

include h hD hl hpq hp

/-- The key is read as before. -/
theorem Aliased.iGet_key (hq : q ≠ []) (a : Attr) :
    iGet host M fs' D (pathVal q) a.val storeInFile =
      iGet host M fs D (pathVal q) a.val storeInFile := by
  have hway : ¬pathLoc d p <:+ a.name :: pathLoc d q := by
    rw [List.suffix_cons_iff]
    rintro (he | hs)
    · exact attr_ne_alias hp a _ he.symm
    · obtain ⟨q', hq', he⟩ := pathLoc_of_suffix (List.suffix_append _ d) hs
      exact hpq (pathLoc_inj he ▸ hq')
  have hplain := h.getDirValue_leads hD hl host (leads_pathNames D d q) hway
  have hpart : partValue host fs' D q a.val = partValue host fs D q a.val := by
    obtain ⟨x, k, rfl⟩ := (List.eq_nil_or_concat' q).resolve_left hq
    exact h.partValue_eq hD hl hp (fun hs => hpq (hs.trans (List.prefix_append _ _))) host a
  rw [iGet_storeInFile host hD.ne_nil, iGet_storeInFile host hD.ne_nil, joinName_pathVal D hq,
    hplain, limitValue, limitValue, hpart]

/-- The partitions are searched for the alias as before. -/
theorem Aliased.limitValue_alias (a : Attr) :
    limitValue host M fs' D p a.val = limitValue host M fs D p a.val := by
  obtain ⟨x, k, rfl⟩ := (List.eq_nil_or_concat' p).resolve_left hp
  have hself : ¬x ++ [k] <+: x := fun hs => by simpa using hs.length_le
  rw [limitValue, limitValue, h.partValue_eq hD hl hp hself host a]

/-- For attributes with names the condition is one on the tree before. -/
theorem Aliased.transparent_iff_found (ht : AliasTarget p q r n k) (hq : q ≠ []) :
    Transparent host M fs' D p q ↔ FoundElsewhere host M fs D d p q := by
  refine forall_congr' fun a => ?_
  obtain ⟨hspared, hspent⟩ := h.spareValue_named hD hl hpq hp hq host a
  rw [h.iGet_key hD hl hpq hp host hq, iGet_storeInFile host hD.ne_nil,
    iGet_storeInFile host hD.ne_nil, h.limitValue_alias hD hl hpq hp,
    h.getDirValue_alias ht hD hp hq]
  by_cases hspare : SpareLink fs D d
  · rw [hspared hspare, LinkReaches, and_iff_right hspare, not_not]
    cases getDirValue host fs (joinName D (pathVal q)) a.val <;> simp
  · rw [hspent hspare, Option.none_or]
    exact ⟨fun he _ => he, fun he => he fun hr => hspare hr.1⟩

end

/-- An attribute is read alike exactly if the link leads to it, or else the search in the partitions
for the name of the alias does. -/
theorem Aliased.iGet_alias_iff (h : Aliased fs fs' (pathLoc d p) r) (ht : AliasTarget p q r n k)
    (hD : fs.At D d) (hp : p ≠ []) (hq : q ≠ []) (host : Host) (a : Option Bytes) :
    iGet host M fs' D (pathVal p) a storeInFile = iGet host M fs' D (pathVal q) a storeInFile ↔
      (spareValue host fs' D q a = none →
        limitValue host M fs' D p a = iGet host M fs' D (pathVal q) a storeInFile) := by
  rw [iGet_storeInFile host hD.ne_nil p, h.getDirValue_alias ht hD hp hq]
  cases hspare : spareValue host fs' D q a with
  | none => simp
  | some v =>
    -- What is read with one link less is read with all of them.
    have hread : getDirValue host fs' (joinName D (pathVal q)) a = some v := by
      rw [spareValue] at hspare
      cases hres : resolveSpare fs' (makeAttrFileName (joinName D (pathVal q)) a) with
      | error e => simp [hres] at hspare
      | ok l =>
        have hmore : fs'.resolve true (makeAttrFileName (joinName D (pathVal q)) a) = .ok l := by
          rw [makeAttrFileName_path hD.ne_nil hq, FileSystem.resolve,
            if_neg (joinName_ne_nil hD.ne_nil), ← makeAttrFileName_path hD.ne_nil hq]
          exact namei_more hres
        rw [getDirValue_eq_readAt, hmore]
        simpa [hres] using hspare
    rw [iGet_storeInFile host hD.ne_nil q, hread]
    simp

end

/-! ## Runs of puts -/

/-- What a put of a path of keys is given. -/
structure PathKeyPut where
  key : List DotFreeKey
  attr : Option Bytes
  value : Bytes
  policy : TIDBProcesses
  storeType : ℤ

/-- The file system after a sequence of puts on paths of keys. -/
def Start.putKeys (S : Start) (host : Host) (iDBMaxPageCount : ℤ) (calls : List PathKeyPut) :
    FileSystem :=
  calls.foldl (fun fs c => (iPut host iDBMaxPageCount fs S.dir c.policy (some (pathVal c.key))
    c.value c.attr c.storeType).1) S.fs

/-- No put moves a directory or makes a link. -/
structure NoNewLinks (fs fs' : FileSystem) : Prop where
  keeps : fs.tree.Keeps fs'.tree
  cwd_eq : fs'.cwd = fs.cwd
  noLink : ∀ m, fs.tree.NoLink m → fs'.tree.NoLink m

theorem NoNewLinks.trans {fs fs' fs'' : FileSystem} (h : NoNewLinks fs fs')
    (h' : NoNewLinks fs' fs'') : NoNewLinks fs fs'' :=
  ⟨h.keeps.trans h'.keeps, h'.cwd_eq.trans h.cwd_eq, fun m hm => h'.noLink m (h.noLink m hm)⟩

/-- A put makes no link. -/
theorem noNewLinks_iPut (host : Host) (M : ℤ) (fs : FileSystem) (D : Bytes)
    (policy : TIDBProcesses) (key : Option Bytes) (v : Bytes) (a : Option Bytes) (t : ℤ) :
    NoNewLinks fs (iPut host M fs D policy key v a t).1 := by
  have hrefl : NoNewLinks fs fs := ⟨Keeps.refl _, rfl, fun _ hm => hm⟩
  rw [← iPutWith_none]
  cases hdir : putDir host M fs D policy key with
  | error e =>
    rw [iPutWith, hdir]
    exact hrefl
  | ok vDir =>
    rcases iPutWith_ok hdir v a t with ⟨-, he⟩ | ⟨-, he⟩
    · rw [he]
      exact hrefl
    · have hmade : MadeOn (fun _ => True) fs (withDir fs vDir) := by
        unfold withDir
        split_ifs
        · exact forceDirectories_made fs vDir
        · exact MadeOn.refl _ fs
      have hshape := @_iPutWith_shape Faults.none (withDir fs vDir) vDir v a t
      rw [he]
      exact ⟨hmade.keeps.trans hshape.keeps, hshape.cwd_eq.trans hmade.cwd_eq,
        fun m hm => hshape.noLink (hmade.noLink hm)⟩

/-- Puts make no links. -/
theorem Start.noNewLinks_putKeys (S : Start) (host : Host) (M : ℤ) (calls : List PathKeyPut) :
    NoNewLinks S.fs (S.putKeys host M calls) := by
  rw [putKeys]
  induction calls using List.reverseRecOn with
  | nil => exact ⟨Keeps.refl _, rfl, fun _ hm => hm⟩
  | append_singleton calls c ih =>
    rw [List.foldl_append]
    exact ih.trans (noNewLinks_iPut host M _ S.dir c.policy _ c.value c.attr c.storeType)

/-- `x` is put. -/
def pathPutX : PathKeyPut :=
  ⟨[keyX], none, [49], .dkIgnored, storeInFile⟩

/-- `ab` is put. -/
def pathPutAb : PathKeyPut :=
  ⟨[keyAb], none, [50], .dkIgnored, storeInFile⟩

/-- A result that is 0 comes with a state. -/
theorem exists_of_result {r : Option (FileSystem × ℤ)} (h : r.map Prod.snd = some 0) :
    ∃ fs', r = some (fs', 0) := by
  obtain ⟨⟨fs', c⟩, hr, rfl⟩ := Option.map_eq_some_iff.1 h
  exact ⟨fs', hr⟩

end Idb
