import Idb.AttrFiles

/-!
# The store in a directory

What the operations with file storage do to a tree in which a base directory holds keys
and nothing else (`Store`) : partition directories, key directories at places of keys,
and attribute files in them. The searches come out at the first place where there is
something, whatever the files are (`BaseDir.iIsKeyDirExists_spec`,
`BaseDir.keyDirToDelete_spec`), and an attribute put goes into the directory of its key at the
least level that is not full (`Store.iPut_spec`).
-/

namespace Idb

open Posix FileSystem FileTree

/-- The directories below `d` are partition directories and directories of keys. -/
def DirsOfKeys (t : FileTree Xattrs) (d : Loc) : Prop :=
  ∀ l, Below d l → t.isDir l → (∃ k i, PartAt d k i l) ∨ ∃ k i, HomeAt d k i l

/-- Below `d` there are only partition directories, directories of keys, and attribute
files in these. -/
structure Layout (t : FileTree Xattrs) (d : Loc) : Prop where
  links : ∀ l, Below d l → t.NoLink l
  dirs : DirsOfKeys t d
  files : ∀ l v, Below d l → t.fileAt l = some v →
    ∃ (a : Attr) (k : Key) (i : ℕ) (h : Loc), l = a.name :: h ∧ HomeAt d k i h

/-- `D` names the directory `d` whatever is below it, and no links are below it. -/
structure BaseDir (fs : FileSystem) (D : Bytes) (d : Loc) : Prop where
  anchored : fs.Anchored D d
  links : ∀ l, Below d l → fs.tree.NoLink l

/-- `D` is the path of the directory `d`, which holds a store. -/
structure Store (fs : FileSystem) (D : Bytes) (d : Loc) : Prop where
  anchored : fs.Anchored D d
  layout : Layout fs.tree d

/-! ## What lies where -/

section

variable {t : FileTree Xattrs} {d l p : Loc} {k : Key} {i : ℕ} {a : Attr}

/-- Where there is no link there is nothing, a directory or a file. -/
theorem get_cases_of_noLink (h : t.NoLink l) :
    t.get l = none ∨ t.isDir l ∨ ∃ v, t.fileAt l = some v := by
  cases hg : t.get l with
  | none => exact Or.inl rfl
  | some n =>
    cases n with
    | dir x => exact Or.inr (Or.inl (isDir_of_get hg))
    | file v x => exact Or.inr (Or.inr ⟨v, fileAt_eq_some.2 ⟨x, hg⟩⟩)
    | link target => exact absurd hg (h target)

/-- A directory does not have the name of an attribute file. -/
theorem DirsOfKeys.not_isDir_attr (h : DirsOfKeys t d) (hs : d <:+ l) :
    t.isDir (a.name :: l) = false := by
  by_contra hd
  rw [Bool.not_eq_false] at hd
  have hb := below_cons hs a.name
  rcases h _ hb hd with ⟨k', j, hp⟩ | ⟨k', j, hl⟩
  · cases j with
    | zero =>
      obtain he := hp.unique (partAt_zero d k')
      rw [he] at hb
      exact not_below_self _ hb
    | succ j =>
      obtain ⟨c, q, hc, -, -, he⟩ := hp.succ
      rw [List.cons.injEq] at he
      exact a.name_ne_partName hc he.1
  · obtain ⟨r, p, -, hvis, -, he⟩ := hl.exists_part
    rw [List.cons.injEq] at he
    exact hvis (he.1 ▸ a.head?_name)

namespace Layout

variable (h : Layout t d)

include h

/-- A home is missing or a directory. -/
theorem home_missing_or_dir (hl : HomeAt d k i l) : t.get l = none ∨ t.isDir l := by
  rcases get_cases_of_noLink (h.links l hl.below) with hg | hd | ⟨v, hv⟩
  · exact Or.inl hg
  · exact Or.inr hd
  · obtain ⟨a, k', j, q, rfl, -⟩ := h.files l v hl.below hv
    obtain ⟨r, p, -, hvis, -, he⟩ := hl.exists_part
    rw [List.cons.injEq] at he
    exact absurd (he.1 ▸ a.head?_name) hvis

/-- A partition is missing or a directory. -/
theorem part_missing_or_dir (hp : PartAt d k (i + 1) p) : t.get p = none ∨ t.isDir p := by
  rcases get_cases_of_noLink (h.links p hp.below) with hg | hd | ⟨v, hv⟩
  · exact Or.inl hg
  · exact Or.inr hd
  · obtain ⟨a, k', j, q, rfl, -⟩ := h.files p v hp.below hv
    obtain ⟨c, q', hc, -, -, he⟩ := hp.succ
    rw [List.cons.injEq] at he
    exact absurd he.1 (a.name_ne_partName hc)

theorem not_isDir_attr (hs : d <:+ l) : t.isDir (a.name :: l) = false :=
  h.dirs.not_isDir_attr hs

/-- A partition directory holds no attribute files. -/
theorem fileAt_part (hp : PartAt d k i p) : t.fileAt (a.name :: p) = none := by
  by_contra hne
  obtain ⟨v, hv⟩ := Option.ne_none_iff_exists'.1 hne
  obtain ⟨a', k', j, q, he, hq⟩ := h.files _ v (below_cons hp.suffix _) hv
  rw [List.cons.injEq] at he
  exact hq.not_partAt (he.2 ▸ hp)

end Layout

end

section

variable {fs : FileSystem} {D path : Bytes} {d l : Loc} {k : Key} {i j : ℕ} {a : Attr}
  {ns : List Name} {r : Bytes} {host : Host} {M : ℕ}

/-! ## Paths of a key -/

/-- A level's key directory leads to the key's spot. -/
theorem leads_keyDir (h : levelAt k.val i = some (ns, r)) (hp : PlainParts ns)
    (hv : r.head? ≠ some dot) : Leads D d (keyDir D ns r) (enter (ns.reverse ++ d) r) := by
  by_cases hr : r = []
  · subst hr
    refine ⟨ns, fun n hn => (Key.level_parts h hp n hn).1, enter_nil _, Or.inr ?_⟩
    rw [keyDir, List.foldl_append]
    rfl
  · obtain ⟨hn, he⟩ := home_names (d := d) h hp hr hv
    rw [enter_plain (plain_of_head? hr hv), ← he]
    exact leads_names hn

theorem leads_key : Leads D d (joinName D k.val) (k.val :: d) := by
  have h := leads_keyDir (D := D) (d := d) (levelAt_zero k.val) List.not_mem_nil k.visible
  rwa [enter_plain (plain_of_head? k.component.1 k.visible)] at h

/-- `DeleteDir` of a directory below the base removes it with all below it. -/
theorem deleteDir_leads (host : Host) (ha : fs.Anchored D d) (hp : Leads D d path l)
    (hb : Below d l) (hd : fs.tree.isDir l) :
    ∃ fs', deleteDir host fs path = (fs', true) ∧ fs'.cwd = fs.cwd ∧
      Removed fs.tree fs'.tree l := by
  obtain ⟨names, hn, rfl, hpath⟩ := hp
  obtain ⟨names, c, rfl⟩ := (List.eq_nil_or_concat' names).resolve_left fun he => by
    rw [he] at hb
    exact not_below_self d hb
  rw [List.reverse_append, List.reverse_singleton, List.singleton_append, List.cons_append] at hd ⊢
  have hc := hn c (by simp)
  have hanc := ha.names (fun n hm => hn n (List.mem_append_left _ hm)) (isDir_of_cons hd)
  rw [List.foldl_append, List.foldl_cons, List.foldl_nil] at hpath
  rcases hpath with rfl | rfl
  · exact deleteDir_entry hanc hc (get_ne_none_of_isDir hd)
  · exact deleteDir_withSlash hanc hc hd

namespace BaseDir

variable {M : ℤ} (h : BaseDir fs D d)

include h

theorem isAt : fs.At D d :=
  h.anchored.toAt

theorem key_path : sdsJoinPathLen D k.val = joinName D k.val :=
  sdsJoinPathLen_eq h.isAt.ne_nil _

/-! ## Searching -/

/-- The search in the partitions comes out at the first spot after the start that is a
directory. -/
theorem iIsKeyDirExists_spec (hk : DotFreeLook fs.tree d k) :
    (∃ i path l, 1 ≤ i ∧ SpotAt d k i l ∧ fs.tree.isDir l ∧ Leads D d path l ∧
        (∀ j l', 1 ≤ j → j < i → SpotAt d k j l' → fs.tree.isDir l' = false) ∧
        iIsKeyDirExists fs (joinName D k.val) = some path) ∨
      ((∀ i l, 1 ≤ i → SpotAt d k i l → fs.tree.isDir l = false) ∧
        iIsKeyDirExists fs (joinName D k.val) = none) := by
  obtain ⟨i, hlook, hres⟩ := iIsKeyDirExists_eq h.isAt k.component
    (hk.clear h.isAt.isDir h.links)
  rcases hres with ⟨ns, r, hl, hd, he⟩ | ⟨hd, he⟩
  · obtain ⟨hp, hv⟩ := hk.level hlook.blind hl
    have hstop := hlook.stops
    rw [blind_iff hl, not_and, Bool.not_eq_false] at hstop
    have hspot := hstop hd
    rw [Key.place_eq hl hp] at hspot
    exact Or.inl ⟨i, _, _, hlook.pos, spotAt_of_level hl hp (hv hd), hspot,
      leads_keyDir hl hp (hv hd), fun j l' h₁ h₂ hj => not_isDir_of_blind hj (hlook.blind j h₁ h₂),
      he⟩
  · refine Or.inr ⟨fun j l hj hs => ?_, he⟩
    rcases Nat.lt_or_ge j i with hlt | hge
    · exact not_isDir_of_blind hs (hlook.blind j hj hlt)
    · obtain ⟨ns, r, hl⟩ : ∃ ns r, levelAt k.val i = some (ns, r) := by
        rcases hs with ⟨ns, r, hl, -⟩ | ⟨ns, hl, -⟩ <;> exact levelAt_of_le hge hl
      have hp := (hk.level hlook.blind hl).1
      have hpart := hd ns r hl
      rw [Key.place_eq hl hp] at hpart
      by_contra hdir
      rw [Bool.not_eq_false] at hdir
      rw [hs.isDir_part hdir ⟨ns, r, hl, hp, rfl⟩ hge] at hpart
      exact absurd hpart (by simp)

/-- What a key is deleted or its attributes are deleted at is the first spot that is a
directory. -/
theorem keyDirToDelete_spec (hM : M > 0) (hk : DotFreeLook fs.tree d k) :
    (∃ i path l, SpotAt d k i l ∧ fs.tree.isDir l ∧ Leads D d path l ∧
        (∀ j l', j < i → SpotAt d k j l' → fs.tree.isDir l' = false) ∧
        keyDirToDelete M fs D k.val = some path) ∨
      ((∀ i l, SpotAt d k i l → fs.tree.isDir l = false) ∧
        keyDirToDelete M fs D k.val = none) := by
  have hzero : SpotAt d k 0 (k.val :: d) := Or.inl (homeAt_zero d k)
  have hpath : Leads D d (joinName D k.val) (k.val :: d) := leads_key
  have hdir := hpath.directoryExists_iff h.links h.isAt
  simp only [keyDirToDelete, h.key_path]
  by_cases h0 : fs.tree.isDir (k.val :: d)
  · rw [if_neg (by simp [hdir.2 h0])]
    exact Or.inl ⟨0, _, _, hzero, h0, hpath, fun j _ hj => absurd hj (Nat.not_lt_zero j), rfl⟩
  · rw [if_pos ⟨mt hdir.1 h0, hM⟩]
    have h0' : ∀ l, SpotAt d k 0 l → fs.tree.isDir l = false := by
      intro l hl
      rw [hl.unique hzero]
      simpa using h0
    rcases h.iIsKeyDirExists_spec hk with ⟨i, path, l, -, hs, hd, hp, hmin, he⟩ | ⟨hnone, he⟩
    · refine Or.inl ⟨i, path, l, hs, hd, hp, fun j l' hj hs' => ?_, he⟩
      rcases Nat.eq_zero_or_pos j with rfl | hpos
      · exact h0' l' hs'
      · exact hmin j l' hpos hj hs'
    · refine Or.inr ⟨fun i l hs => ?_, he⟩
      rcases Nat.eq_zero_or_pos i with rfl | hpos
      · exact h0' l hs
      · exact hnone i l hpos hs

/-! ## Deleting and testing a key -/

/-- Deleting a key removes the first spot that is a directory. -/
theorem iKeyDelete_spec (hM : M > 0) (hk : DotFreeLook fs.tree d k) :
    (∃ i l fs', SpotAt d k i l ∧ fs.tree.isDir l ∧
        (∀ j l', j < i → SpotAt d k j l' → fs.tree.isDir l' = false) ∧
        iKeyDelete host M fs D k.val = (fs', true) ∧ fs'.cwd = fs.cwd ∧
        Removed fs.tree fs'.tree l) ∨
      ((∀ i l, SpotAt d k i l → fs.tree.isDir l = false) ∧
        iKeyDelete host M fs D k.val = (fs, false)) := by
  rcases h.keyDirToDelete_spec hM hk with ⟨i, path, l, hs, hd, hp, hmin, he⟩ | ⟨hnone, he⟩
  · obtain ⟨fs', hdel, hc, hr⟩ := deleteDir_leads host h.anchored hp hs.below hd
    refine Or.inl ⟨i, l, fs', hs, hd, hmin, ?_, hc, hr⟩
    rw [iKeyDelete, he]
    exact hdel
  · refine Or.inr ⟨hnone, ?_⟩
    rw [iKeyDelete, he]

/-- A key is taken to exist if one of its spots is a directory. -/
theorem iKeyIsExists_spec (hM : M > 0) (hk : DotFreeLook fs.tree d k) :
    iKeyIsExists M fs D k.val = pathIsDir ↔ ∃ i l, SpotAt d k i l ∧ fs.tree.isDir l := by
  have hpath : Leads D d (joinName D k.val) (k.val :: d) := leads_key
  have hdir := hpath.directoryExists_iff h.links h.isAt
  simp only [iKeyIsExists, h.key_path]
  by_cases h0 : fs.tree.isDir (k.val :: d)
  · rw [if_neg (by simp [hdir.2 h0])]
    exact ⟨fun _ => ⟨0, _, Or.inl (homeAt_zero d k), h0⟩, fun _ => hdir.2 h0⟩
  · rw [if_pos ⟨mt hdir.1 h0, hM⟩]
    rcases h.iIsKeyDirExists_spec hk with ⟨i, path, l, -, hs, hd, hp, -, he⟩ | ⟨hnone, he⟩
    · simp only [he]
      exact ⟨fun _ => ⟨i, l, hs, hd⟩,
        fun _ => (hp.directoryExists_iff h.links h.isAt).2 hd⟩
    · simp only [he]
      refine ⟨fun h1 => absurd (hdir.1 h1) h0, ?_⟩
      rintro ⟨i, l, hs, hd⟩
      rcases Nat.eq_zero_or_pos i with rfl | hi
      · exact absurd (hs.unique (Or.inl (homeAt_zero d k)) ▸ hd) h0
      · simp [hnone i l hi hs] at hd

end BaseDir

namespace Store

variable (h : Store fs D d)

include h

theorem baseDir : BaseDir fs D d :=
  ⟨h.anchored, h.layout.links⟩

theorem isAt : fs.At D d :=
  h.anchored.toAt

/-! ## Reading -/

theorem getDirValue_leads (hp : Leads D d path l) (host : Host) :
    getDirValue host fs path a.val = fs.tree.fileAt (a.name :: l) :=
  getDirValue_attr hp h.isAt h.layout.links (h.layout.not_isDir_attr hp.suffix) host

theorem isDirValueExists_leads (hp : Leads D d path l) :
    isDirValueExists fs path a.val = (fs.tree.fileAt (a.name :: l)).isSome :=
  isDirValueExists_attr hp h.isAt h.layout.links (h.layout.not_isDir_attr hp.suffix)

/-- `iIsExists` says whether `iGet` finds a value. -/
theorem iIsExists_eq (host : Host) (hk : DotFreeLook fs.tree d k) :
    iIsExists M fs D k.val a.val storeInFile =
      (iGet host M fs D k.val a.val storeInFile).isSome := by
  have hpath : Leads D d (joinName D k.val) (k.val :: d) := leads_key
  simp only [iIsExists, iGet, h.baseDir.key_path, _attrIsExists_storeInFile, _iGet_storeInFile,
    h.isDirValueExists_leads hpath, h.getDirValue_leads hpath host]
  cases fs.tree.fileAt (a.name :: k.val :: d) with
  | some v => rfl
  | none =>
    simp only [Option.isSome_none, Bool.false_eq_true, if_false]
    split_ifs
    · rcases h.baseDir.iIsKeyDirExists_spec hk with ⟨i, path, l, -, -, -, hp, -, he⟩ | ⟨-, he⟩
      · simp only [he, h.isDirValueExists_leads hp, h.getDirValue_leads hp host]
      · simp only [he]
        rfl
    · rfl

end Store

/-- The key lies in one place at most. -/
def HomeUnique (t : FileTree Xattrs) (d : Loc) (k : Key) : Prop :=
  ∀ i j l l', HomeAt d k i l → HomeAt d k j l' → t.isDir l → t.isDir l' → i = j

/-- The first spot that is a directory is the place of the key, if it has one. -/
theorem HomeUnique.eq_of_first {t : FileTree Xattrs} (hu : HomeUnique t d k) {l' : Loc}
    (hl : HomeAt d k i l) (hd : t.isDir l) (hs : SpotAt d k j l') (hd' : t.isDir l')
    (hij : j ≤ i) : j = i ∧ l' = l := by
  rcases hs with hs | hs
  · obtain rfl := hu j i l' l hs hl hd' hd
    exact ⟨rfl, hs.unique hl⟩
  · exact absurd (hs.lt hl) (by omega)

theorem isDir_of_fileAt {t : FileTree Xattrs} {c : Name} {v : Bytes}
    (hv : t.fileAt (c :: l) = some v) : t.isDir l := by
  obtain ⟨x, hx⟩ := fileAt_eq_some.1 hv
  exact isDir_of_get_cons hx

/-- An attribute is read at the place of its key. -/
theorem Store.iGet_eq_some (h : Store fs D d) (hM : 0 < M) (hk : DotFreeLook fs.tree d k)
    (hu : HomeUnique fs.tree d k) {v : Bytes} :
    iGet host M fs D k.val a.val storeInFile = some v ↔
      ∃ i l, HomeAt d k i l ∧ fs.tree.fileAt (a.name :: l) = some v := by
  have hM' : (M : ℤ) > 0 := by exact_mod_cast hM
  have hpath : Leads D d (joinName D k.val) (k.val :: d) := leads_key
  simp only [iGet, h.baseDir.key_path, _iGet_storeInFile, h.getDirValue_leads hpath host,
    if_pos hM']
  cases h0 : fs.tree.fileAt (a.name :: k.val :: d) with
  | some w =>
    refine ⟨fun he => ⟨0, _, homeAt_zero d k, by rw [h0]; exact he⟩, ?_⟩
    rintro ⟨i, l, hl, hv⟩
    obtain rfl := hu 0 i _ l (homeAt_zero d k) hl (isDir_of_fileAt h0) (isDir_of_fileAt hv)
    rw [hl.unique (homeAt_zero d k), h0] at hv
    exact hv
  | none =>
    rcases h.baseDir.iIsKeyDirExists_spec hk with
      ⟨i, path, l, hi, hs, hd, hp, hmin, he⟩ | ⟨hnone, he⟩
    · simp only [he, h.getDirValue_leads hp host]
      constructor
      · intro hv
        rcases hs with hs | hs
        · exact ⟨i, l, hs, hv⟩
        · simp [h.layout.fileAt_part hs.partAt] at hv
      · rintro ⟨j, l', hl', hv⟩
        have hj : 1 ≤ j := by
          by_contra hj
          obtain rfl : j = 0 := by omega
          simp [hl'.unique (homeAt_zero d k), h0] at hv
        have hij : i ≤ j := by
          by_contra hij
          have := hmin j l' hj (by omega) (Or.inl hl')
          rw [isDir_of_fileAt hv] at this
          simp at this
        rw [(hu.eq_of_first hl' (isDir_of_fileAt hv) hs hd hij).2]
        exact hv
    · simp only [he]
      refine ⟨fun hv => by simp at hv, ?_⟩
      rintro ⟨j, l', hl', hv⟩
      rcases Nat.eq_zero_or_pos j with rfl | hj
      · simp [hl'.unique (homeAt_zero d k), h0] at hv
      · have := hnone j l' hj (Or.inl hl')
        rw [isDir_of_fileAt hv] at this
        simp at this

/-! ## Deleting an attribute -/

/-- Deleting an attribute removes its file at a place of the key, or does nothing. -/
theorem Store.iDelete_spec (h : Store fs D d) (hM : 0 < M) (hk : DotFreeLook fs.tree d k) :
    iDelete M fs D k.val a.val storeInFile = (fs, false) ∨
    ∃ i l fs', HomeAt d k i l ∧ iDelete M fs D k.val a.val storeInFile = (fs', true) ∧
      fs'.cwd = fs.cwd ∧ fs.tree.Updated fs'.tree (a.name :: l) none ∧
      fs.tree.fileAt (a.name :: l) ≠ none := by
  have hM' : (M : ℤ) > 0 := by exact_mod_cast hM
  simp only [iDelete, _deleleAttr_storeInFile]
  rcases h.baseDir.keyDirToDelete_spec hM' hk with ⟨i, path, l, hs, hd, hp, -, he⟩ | ⟨-, he⟩
  · simp only [he]
    rcases delDirValue_attr (a := a) hp h.isAt h.layout.links
      (h.layout.not_isDir_attr hp.suffix) with ⟨-, hf⟩ | ⟨fs', hf, hc, hu, hv⟩
    · exact Or.inl hf
    · rcases hs with hs | hs
      · exact Or.inr ⟨i, l, fs', hs, hf, hc, hu, hv⟩
      · exact absurd (h.layout.fileAt_part hs.partAt) hv
  · simp [he]

/-! ## Putting an attribute -/

/-- `fs'` is `fs` with the file `n` of content `v` in the directory `l` below `d`, which
is made if it is missing. -/
structure Stored (fs fs' : FileSystem) (d l : Loc) (n : Name) (v : Bytes) : Prop where
  cwd_eq : fs'.cwd = fs.cwd
  file : fs'.tree.fileAt (n :: l) = some v
  other : ∀ q, q ≠ n :: l → fs'.tree.get q = fs.tree.get q ∨
    (Below d q ∧ q <:+ l ∧ fs.tree.get q = none ∧ fs'.tree.get q = some newDir)

/-- Writing an attribute into the directory some names lead to, when there are only
directories on the way or nothing. -/
theorem put_names {names : List Name} (hD : fs.At D d) (hlinks : ∀ l, Below d l → fs.tree.NoLink l)
    (hn : ∀ n ∈ names, ValidName n)
    (hattr : fs.tree.isDir (a.name :: (names.reverse ++ d)) = false)
    (hway : ∀ q, d <:+ q → q <:+ names.reverse ++ d → fs.tree.get q = none ∨ fs.tree.isDir q)
    (v : Bytes) :
    ∃ fs', Stored fs fs' d (names.reverse ++ d) a.name v ∧
      (if directoryExists fs (names.foldl joinName D) = pathIsNotExists then
        _iPut (forceDirectories fs (names.foldl joinName D)).1 (names.foldl joinName D) v a.val
          storeInFile
      else if directoryExists fs (names.foldl joinName D) = pathIsDir then
        _iPut fs (names.foldl joinName D) v a.val storeInFile
      else (fs, directoryExists fs (names.foldl joinName D))) = (fs', 0) := by
  have hleads : Leads D d (names.foldl joinName D) (names.reverse ++ d) := leads_names hn
  rcases hway _ hleads.suffix (List.suffix_refl _) with hg | hd
  · rw [if_pos (directoryExists_missing hlinks hD hn hg), _iPut_storeInFile]
    obtain ⟨hmade, hat⟩ := forceDirectories_names hD hn fun q hb hs => hway q hb.1 hs
    have hattr' : (forceDirectories fs (names.foldl joinName D)).1.tree.get
        (a.name :: (names.reverse ++ d)) = fs.tree.get (a.name :: (names.reverse ++ d)) := by
      refine (hmade.get_cases _).resolve_right fun hc => ?_
      have := hc.1.2.length_le
      simp at this
    obtain ⟨fs', x, he, hc, hu⟩ := setDirValue_attr (a := a) hleads
      (hD.keeps hmade.keeps hmade.cwd_eq) (fun q hb => hmade.noLink (hlinks q hb))
      (by rw [FileTree.isDir, hattr']; exact hattr) hat.isDir v
    refine ⟨fs', ⟨hc.trans hmade.cwd_eq, ?_, fun q hq => ?_⟩, by rw [he]; rfl⟩
    · rw [fileAt, hu, if_pos rfl]
    · rw [hu q, if_neg hq]
      exact (hmade.get_cases q).imp_right fun hm => ⟨hm.1.1, hm.1.2, hm.2⟩
  · have hdir := (hleads.directoryExists_iff hlinks hD).2 hd
    obtain ⟨fs', x, he, hc, hu⟩ := setDirValue_attr hleads hD hlinks hattr hd v
    rw [if_neg (by rw [hdir]; decide), if_pos hdir, _iPut_storeInFile, he]
    refine ⟨fs', ⟨hc, ?_, fun q hq => Or.inl ?_⟩, rfl⟩
    · rw [fileAt, hu, if_pos rfl]
    · rw [hu q, if_neg hq]

/-- On the way to the place of a key there are only directories or nothing. -/
theorem Store.missing_or_dir_of_suffix (h : Store fs D d) (hl : HomeAt d k i l) {q : Loc}
    (hq : d <:+ q) (hs : q <:+ l) : fs.tree.get q = none ∨ fs.tree.isDir q := by
  rcases hl.of_suffix hq hs with rfl | ⟨j, -, hp⟩
  · exact h.layout.home_missing_or_dir hl
  · cases j with
    | zero =>
      rw [hp.unique (partAt_zero d k)]
      exact Or.inr h.isAt.isDir
    | succ j => exact h.layout.part_missing_or_dir hp

/-- A put fails and does nothing, or stores the attribute at the place for its key. -/
theorem Store.iPut_spec (h : Store fs D d) (host : Host) (a : Attr) (hM : 0 < M)
    (hk : DotFreeFind fs.tree M d k) {policy : TIDBProcesses}
    (hpol : policy = .dkIgnored ∨ policy = .dkStopped) (v : Bytes) :
    (∃ e, e ≠ 0 ∧ iPut host M fs D policy (some k.val) v a.val storeInFile = (fs, e)) ∨
    ∃ i l fs', PutPlace fs.tree M d k policy i l ∧ Stored fs fs' d l a.name v ∧
      iPut host M fs D policy (some k.val) v a.val storeInFile = (fs', 0) := by
  have hM' : (M : ℤ) > 0 := by exact_mod_cast hM
  simp only [iPut, Option.getD_some, h.baseDir.key_path, Option.isSome_some, true_and, if_pos hM']
  rw [← sizeT_cast M] at hk
  rcases iFindKeyDirToPut_spec host h.isAt h.layout.links hk hpol with ⟨e, he, hf⟩ |
    ⟨i, l, names, hp, hn, rfl, hf⟩
  · rw [hf]
    exact Or.inl ⟨e, he, rfl⟩
  · obtain ⟨fs', hs, he⟩ := put_names h.isAt h.layout.links hn
      (h.layout.not_isDir_attr (a := a) (List.suffix_append _ _))
      (fun q => h.missing_or_dir_of_suffix hp.home) v
    rw [hf]
    exact Or.inr ⟨i, _, fs', hp, hs, he⟩

end

end Idb
