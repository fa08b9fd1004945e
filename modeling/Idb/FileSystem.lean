import Idb.PathWalk
import Mathlib.Data.List.DropRight

/-!
# File system calls

The system calls the store is written on, over a tree whose nodes carry extended
attributes and a current directory. Calls never fail for lack of space or permission ;
they fail exactly when the path does not resolve or the node there forbids the call.

What the system leaves open (the order in which a directory is enumerated, whether an
entry's type is reported, what reading a directory as a file gives, pattern matching)
is a parameter, `Host`.
-/

namespace Posix

/-- The node with changed metadata, if it has any. -/
def Node.mapMeta {X : Type} (f : X → X) : Node X → Node X
  | .dir x => .dir (f x)
  | .file content x => .file content (f x)
  | .link target => .link target

namespace FileTree

variable {X : Type}

/-- `t'` is `t` with `n` at `l`. -/
def Updated (t t' : FileTree X) (l : Loc) (n : Option (Node X)) : Prop :=
  ∀ m, t'.get m = if m = l then n else t.get m

/-- Make a directory. -/
def makeDir (t : FileTree X) (x : X) : Loc → Except Errno (FileTree X)
  | [] => .error .eexist
  | c :: p =>
    if hp : ValidName c ∧ t.isDir p then
      if hn : (t.get (c :: p)).isNone then
        .ok (t.set (c :: p) (.dir x) (by rintro _ _ ⟨⟩; exact hp) fun _ => rfl)
      else .error .eexist
    else .error (t.lookupError p)

/-- Make a symbolic link. -/
def makeLink (t : FileTree X) (target : Bytes) : Loc → Except Errno (FileTree X)
  | [] => .error .eexist
  | c :: p =>
    if hp : ValidName c ∧ t.isDir p then
      if hn : (t.get (c :: p)).isNone then
        .ok (t.set (c :: p) (.link target) (by rintro _ _ ⟨⟩; exact hp)
          fun h => by simp [isDir, Option.isNone_iff_eq_none.1 hn] at h)
      else .error .eexist
    else .error (t.lookupError p)

/-- Replace the content of a regular file, or create it with metadata `x`. -/
def writeFile (t : FileTree X) (x : X) (content : Bytes) : Loc → Except Errno (FileTree X)
  | [] => .error .eisdir
  | c :: p =>
    if hp : ValidName c ∧ t.isDir p then
      match hn : t.get (c :: p) with
      | some (.dir _) => .error .eisdir
      | some (.link _) => .error .eloop
      | some (.file _ y) =>
        .ok (t.set (c :: p) (.file content y) (by rintro _ _ ⟨⟩; exact hp)
          fun h => by simp [isDir, hn, Node.isDir] at h)
      | none =>
        .ok (t.set (c :: p) (.file content x) (by rintro _ _ ⟨⟩; exact hp)
          fun h => by simp [isDir, hn] at h)
    else .error (t.lookupError p)

/-- Change the metadata of a directory or regular file. -/
def setMeta (t : FileTree X) (f : X → X) (l : Loc) : Except Errno (FileTree X) :=
  match hn : t.get l with
  | none => .error .enoent
  | some (.link _) => .error .eloop
  | some (.dir x) =>
    .ok (t.set l (.dir (f x)) (by
      rintro c p rfl
      exact ⟨validName_of_get hn, isDir_of_get_cons hn⟩) fun _ => rfl)
  | some (.file content x) =>
    .ok (t.set l (.file content (f x)) (by
      rintro c p rfl
      exact ⟨validName_of_get hn, isDir_of_get_cons hn⟩)
        fun h => by simp [isDir, hn, Node.isDir] at h)

/-- Remove a regular file or a link. -/
def unlinkAt (t : FileTree X) (l : Loc) : Except Errno (FileTree X) :=
  if hd : t.isDir l then .error .eisdir
  else if (t.get l).isNone then .error .enoent
  else .ok (t.erase l (by rintro rfl; exact hd t.isDir_nil)
    fun _ => get_cons_eq_none (by simpa using hd))

/-- Remove an empty directory. -/
def rmdirAt (t : FileTree X) (l : Loc) : Except Errno (FileTree X) :=
  if ¬t.isDir l then .error (t.lookupError l)
  else if hl : l = [] then .error .ebusy
  else if he : (t.children l).isEmpty then
    .ok (t.erase l hl fun c => by
      cases hg : t.get (c :: l) with
      | none => rfl
      | some n =>
        have := mem_children.2 hg
        simp [List.isEmpty_iff.1 he] at this)
  else .error .enotempty

variable {t t' : FileTree X}

/-- `makeDir` makes a directory where nothing was. -/
theorem makeDir_ok {x : X} {l : Loc} (h : t.makeDir x l = .ok t') :
    t.get l = none ∧ t.Updated t' l (some (.dir x)) := by
  cases l with
  | nil => simp [makeDir] at h
  | cons c p =>
    simp only [makeDir] at h
    split_ifs at h with hp hn
    rw [Except.ok.injEq] at h
    subst h
    exact ⟨Option.isNone_iff_eq_none.1 hn, fun m => get_set _ _ m⟩

theorem makeDir_eq {x : X} {c : Name} {p : Loc} (hc : ValidName c) (hp : t.isDir p)
    (hn : t.get (c :: p) = none) : ∃ t', t.makeDir x (c :: p) = .ok t' := by
  simp only [makeDir]
  rw [dif_pos ⟨hc, hp⟩, dif_pos (by simp [hn])]
  exact ⟨_, rfl⟩

/-- `makeLink` makes a link where nothing was. -/
theorem makeLink_ok {target : Bytes} {l : Loc} (h : t.makeLink target l = .ok t') :
    t.get l = none ∧ t.isDir l.tail ∧ t.Updated t' l (some (.link target)) := by
  cases l with
  | nil => simp [makeLink] at h
  | cons c p =>
    simp only [makeLink] at h
    split_ifs at h with hp hn
    rw [Except.ok.injEq] at h
    subst h
    exact ⟨Option.isNone_iff_eq_none.1 hn, hp.2, fun m => get_set _ _ m⟩

/-- `writeFile` replaces the file's content. -/
theorem writeFile_ok {x : X} {content : Bytes} {l : Loc}
    (h : t.writeFile x content l = .ok t') :
    ∃ y, t.isDir l = false ∧ t.NoLink l ∧ t.Updated t' l (some (.file content y)) := by
  cases l with
  | nil => simp [writeFile] at h
  | cons c p =>
    simp only [writeFile] at h
    split_ifs at h with hp
    split at h
    · simp at h
    · simp at h
    · next y hn =>
      rw [Except.ok.injEq] at h
      subst h
      exact ⟨y, by simp [isDir, hn, Node.isDir], by simp [NoLink, hn], fun m => get_set _ _ m⟩
    · next hn =>
      rw [Except.ok.injEq] at h
      subst h
      exact ⟨x, by simp [isDir, hn], by simp [NoLink, hn], fun m => get_set _ _ m⟩

/-- A file that is written keeps its metadata. -/
theorem writeFile_meta {x : X} {content : Bytes} {l : Loc}
    (h : t.writeFile x content l = .ok t') :
    (t.get l = none ∧ t'.get l = some (.file content x)) ∨
      ∃ old y, t.get l = some (.file old y) ∧ t'.get l = some (.file content y) := by
  cases l with
  | nil => simp [writeFile] at h
  | cons c p =>
    simp only [writeFile] at h
    split_ifs at h with hp
    split at h
    · simp at h
    · simp at h
    · next y hn =>
      rw [Except.ok.injEq] at h
      subst h
      exact Or.inr ⟨_, y, hn, by rw [get_set, if_pos rfl]⟩
    · next hn =>
      rw [Except.ok.injEq] at h
      subst h
      exact Or.inl ⟨hn, by rw [get_set, if_pos rfl]⟩

/-- An entry of a directory can be written when it is neither a directory nor a link. -/
theorem writeFile_eq (x : X) (content : Bytes) {c : Name} {p : Loc} (hc : ValidName c)
    (hp : t.isDir p) (hd : t.isDir (c :: p) = false) (hl : t.NoLink (c :: p)) :
    ∃ t', t.writeFile x content (c :: p) = .ok t' := by
  simp only [writeFile]
  rw [dif_pos ⟨hc, hp⟩]
  split
  · next hn => simp [isDir, hn, Node.isDir] at hd
  · next target hn => exact absurd hn (hl target)
  · exact ⟨_, rfl⟩
  · exact ⟨_, rfl⟩

/-- A file can be written at `l`, whatever its content. -/
def Writable (t : FileTree X) : Loc → Prop
  | [] => False
  | c :: p => (ValidName c ∧ t.isDir p) ∧ t.isDir (c :: p) = false ∧ t.NoLink (c :: p)

/-- What is writable is what `writeFile` writes. -/
theorem writable_iff {x : X} {content : Bytes} {l : Loc} :
    t.Writable l ↔ ∃ t', t.writeFile x content l = .ok t' := by
  cases l with
  | nil => simp [Writable, writeFile]
  | cons c p =>
    constructor
    · rintro ⟨hp, hd, hl⟩
      exact writeFile_eq x content hp.1 hp.2 hd hl
    · rintro ⟨t', ht⟩
      obtain ⟨y, hd, hl, -⟩ := writeFile_ok ht
      refine ⟨?_, hd, hl⟩
      by_contra hp
      simp [writeFile, hp] at ht

/-- `setMeta` changes the extended attributes of one node. -/
theorem setMeta_ok {f : X → X} {l : Loc} (h : t.setMeta f l = .ok t') :
    ∃ n, t.get l = some n ∧ t.NoLink l ∧ t.Updated t' l (some (n.mapMeta f)) := by
  unfold setMeta at h
  split at h
  · simp at h
  · simp at h
  · next x hn =>
    rw [Except.ok.injEq] at h
    subst h
    exact ⟨_, hn, by simp [NoLink, hn], fun m => get_set _ _ m⟩
  · next v x hn =>
    rw [Except.ok.injEq] at h
    subst h
    exact ⟨_, hn, by simp [NoLink, hn], fun m => get_set _ _ m⟩

/-- A node that is no link has attributes to set. -/
theorem setMeta_eq (f : X → X) {l : Loc} (hn : t.get l ≠ none) (hl : t.NoLink l) :
    ∃ t', t.setMeta f l = .ok t' := by
  unfold setMeta
  split
  · next h => exact absurd h hn
  · next target h => exact absurd h (hl target)
  · exact ⟨_, rfl⟩
  · exact ⟨_, rfl⟩

/-- `unlinkAt` removes what is no directory. -/
theorem unlinkAt_ok {l : Loc} (h : t.unlinkAt l = .ok t') :
    t.isDir l = false ∧ (t.get l).isSome ∧ t.Updated t' l none := by
  simp only [unlinkAt] at h
  split_ifs at h with hd hn
  rw [Except.ok.injEq] at h
  subst h
  exact ⟨by simpa using hd, by simpa [Option.isSome_iff_ne_none] using hn, fun m => get_erase _ _ m⟩

theorem unlinkAt_eq {l : Loc} {n : Node X} (hd : t.isDir l = false) (hg : t.get l = some n) :
    ∃ t', t.unlinkAt l = .ok t' := by
  simp only [unlinkAt]
  rw [dif_neg (by simp [hd]), if_neg (by simp [hg])]
  exact ⟨_, rfl⟩

/-- `rmdirAt` removes an empty directory other than the root. -/
theorem rmdirAt_ok {l : Loc} (h : t.rmdirAt l = .ok t') :
    l ≠ [] ∧ t.isDir l ∧ (∀ c, t.get (c :: l) = none) ∧ t.Updated t' l none := by
  simp only [rmdirAt] at h
  split_ifs at h with hd hl he
  rw [Except.ok.injEq] at h
  subst h
  refine ⟨hl, by simpa using hd, fun c => ?_, fun m => get_erase _ _ m⟩
  cases hg : t.get (c :: l) with
  | none => rfl
  | some n =>
    have := mem_children.2 hg
    simp [List.isEmpty_iff.1 he] at this

/-- An empty directory other than the root can be removed. -/
theorem rmdirAt_eq {l : Loc} (hl : l ≠ []) (hd : t.isDir l) (he : ∀ c, t.get (c :: l) = none) :
    ∃ t', t.rmdirAt l = .ok t' := by
  have hc : t.children l = [] := by
    refine List.eq_nil_iff_forall_not_mem.2 fun ⟨c, n⟩ hm => ?_
    have := mem_children.1 hm
    simp [he c] at this
  simp only [rmdirAt]
  rw [if_neg (by simp [hd]), dif_neg hl, dif_pos (by simp [hc])]
  exact ⟨_, rfl⟩

end FileTree

/-! ## Calls on paths -/

/-- Extended attributes of a node. -/
abbrev Xattrs := Name → Option Bytes

/-- A tree of files, and where relative paths begin. -/
structure FileSystem where
  tree : FileTree Xattrs
  /-- The current directory. -/
  cwd : Loc

namespace FileSystem

open FileTree

variable (fs : FileSystem)

/-- The number of symbolic links one resolution may follow. -/
def symloopMax : ℕ :=
  40

/-- The place `path` names. A link in the last position is followed only if `last`
says so. -/
def resolve (last : Bool) (path : Bytes) : Except Errno Loc :=
  if path = [] then .error .enoent
  else fs.tree.namei last symloopMax (startOf fs.cwd path) (components path)

/-- The node a resolved path names. -/
def nodeAt (r : Except Errno Loc) : Except Errno (Node Xattrs) :=
  match r with
  | .error e => .error e
  | .ok l =>
    match fs.tree.get l with
    | some n => .ok n
    | none => .error .enoent

/-- Links are followed. -/
def stat (path : Bytes) : Except Errno (Node Xattrs) :=
  fs.nodeAt (fs.resolve true path)

/-- A link at the end of the path is not followed. -/
def lstat (path : Bytes) : Except Errno (Node Xattrs) :=
  fs.nodeAt (fs.resolve false path)

/-- Change the tree where `path` leads. -/
def modify (last : Bool) (path : Bytes) (op : Loc → Except Errno (FileTree Xattrs)) :
    Except Errno FileSystem :=
  match fs.resolve last path with
  | .error e => .error e
  | .ok l => (op l).map fun t => { fs with tree := t }

/-- Slashes at the end of a path do not matter to `mkdir`. -/
def trimSlashes (path : Bytes) : Bytes :=
  let trimmed := path.rdropWhile (· = slash)
  if trimmed = [] then path else trimmed

/-- The last name of a path. -/
def lastName (path : Bytes) : Option Name :=
  ((components path).filter (· ≠ [])).getLast?

/-- A slash at the end of the path makes no difference. -/
def mkdir (path : Bytes) : Except Errno FileSystem :=
  fs.modify false (trimSlashes path) (fs.tree.makeDir fun _ => none)

/-- A link to nothing cannot be made. -/
def symlink (target path : Bytes) : Except Errno FileSystem :=
  if target = [] then .error .enoent else fs.modify false path (fs.tree.makeLink target)

/-- `open` for writing with creation and truncation, `write` and `close`. -/
def write (path content : Bytes) : Except Errno FileSystem :=
  fs.modify true path (fs.tree.writeFile (fun _ => none) content)

/-- A link at the end of the path is removed itself. -/
def unlink (path : Bytes) : Except Errno FileSystem :=
  fs.modify false path fs.tree.unlinkAt

/-- A path that ends in a dot is refused. -/
def rmdir (path : Bytes) : Except Errno FileSystem :=
  if lastName path = some [dot] then .error .einval
  else fs.modify false path fs.tree.rmdirAt

/-- The extended attributes of a node. -/
def nodeXattrs : Node Xattrs → Xattrs
  | .dir x => x
  | .file _ x => x
  | .link _ => fun _ => none

/-- The value of an extended attribute of the node at the path. -/
def getxattr (path name : Bytes) : Except Errno Bytes :=
  match fs.stat path with
  | .error e => .error e
  | .ok n =>
    match nodeXattrs n name with
    | some v => .ok v
    | none => .error .enodata

/-- The prefix of the names of user attributes. -/
def xattrUser : Bytes :=
  [117, 115, 101, 114, 46]

/-- The longest name and the largest value of an extended attribute. -/
def xattrNameMax : ℕ :=
  255

/-- The largest value of an extended attribute. -/
def xattrSizeMax : ℕ :=
  65536

/-- Why a node takes no attribute `name` of the value `value`, whatever its file system : the name
or the value is too long, or there is no name behind the prefix. -/
def xattrRefused (name value : Bytes) : Option Errno :=
  if xattrNameMax < name.length then some .erange
  else if xattrSizeMax < value.length then some .e2big
  else if name = xattrUser then some .einval
  else none

/-- Names that `setxattr` refuses are not there, so that `getxattr` and `removexattr` fail for
them. -/
def setxattr (path name value : Bytes) : Except Errno FileSystem :=
  match xattrRefused name value with
  | some e => .error e
  | none => fs.modify true path (fs.tree.setMeta fun x m => if m = name then some value else x m)

/-- An extended attribute is removed, if it is there. -/
def removexattr (path name : Bytes) : Except Errno FileSystem :=
  match fs.getxattr path name with
  | .error e => .error e
  | .ok _ => fs.modify true path (fs.tree.setMeta fun x m => if m = name then none else x m)

end FileSystem

/-! ## A path that names a directory -/

namespace FileSystem

open FileTree

/-- The path of the entry `c` of the directory at `path`. -/
def joinName (path : Bytes) (c : Name) : Bytes :=
  if path.getLast? = some slash then path ++ c else path ++ slash :: c

/-- `path` names the directory `p`. -/
structure At (fs : FileSystem) (path : Bytes) (p : Loc) : Prop where
  ne_nil : path ≠ []
  resolve : fs.resolve true path = .ok p
  isDir : fs.tree.isDir p

variable {fs fs' : FileSystem} {path : Bytes} {p : Loc} {c : Name}

theorem joinName_ne_nil (h : path ≠ []) : joinName path c ≠ [] := by
  unfold joinName
  split_ifs <;> simp [h]

theorem startOf_joinName (h : path ≠ []) (cur : Loc) :
    startOf cur (joinName path c) = startOf cur path := by
  obtain ⟨b, path, rfl⟩ := List.exists_cons_of_ne_nil h
  unfold startOf joinName
  split_ifs <;> simp_all

theorem components_append_slash (path rest : Bytes) :
    components (path ++ slash :: rest) = components path ++ components rest :=
  List.splitOn_append_cons_self _ _

theorem components_of_not_mem (h : slash ∉ c) : components c = [c] :=
  List.splitOn_eq_singleton h

/-- The components of a joined path are those of a path to the directory and the name. -/
theorem At.components_joinName (h : fs.At path p) (hc : slash ∉ c) :
    ∃ cs, components (joinName path c) = cs ++ [c] ∧
      fs.tree.namei true symloopMax (startOf fs.cwd path) cs = .ok p := by
  have hr := h.resolve
  rw [FileSystem.resolve, if_neg h.ne_nil] at hr
  unfold joinName
  split_ifs with hl
  · obtain ⟨pre, rfl⟩ : ∃ pre, path = pre ++ [slash] := by
      rw [List.getLast?_eq_some_iff] at hl
      exact hl
    refine ⟨components pre, ?_, ?_⟩
    · rw [List.append_assoc, List.singleton_append, components_append_slash,
        components_of_not_mem hc]
    · rw [components_append_slash, components, components, List.splitOn_nil] at hr
      exact namei_concat_nil hr
  · refine ⟨components path, ?_, hr⟩
    rw [components_append_slash, components_of_not_mem hc]

/-- An entry's name is walked from where the directory's path leads. -/
theorem At.resolve_joinName (h : fs.At path p) (hc : slash ∉ c) (last : Bool) :
    ∃ n, fs.resolve last (joinName path c) = fs.tree.namei last n p [c] := by
  obtain ⟨cs, hcs, hw⟩ := h.components_joinName hc
  obtain ⟨n, hn⟩ := namei_append last (List.cons_ne_nil c []) hw
  refine ⟨n, ?_⟩
  rw [FileSystem.resolve, if_neg (joinName_ne_nil h.ne_nil), startOf_joinName h.ne_nil, hcs, hn]

theorem joinName_of_no_slash {path c : Bytes} (h : path.getLast? ≠ some slash) :
    joinName path c = path ++ slash :: c :=
  if_neg h

/-- A path that ends in a component does not end in a slash. -/
theorem getLast?_joinName (hc : Component c) : (joinName path c).getLast? ≠ some slash := by
  obtain ⟨r, b, rfl⟩ := (List.eq_nil_or_concat' c).resolve_left hc.1
  have hb : some b ≠ some slash := by
    rw [ne_eq, Option.some.injEq]
    rintro rfl
    exact hc.2.1 (by simp)
  unfold joinName
  split_ifs
  · rwa [← List.append_assoc, List.getLast?_concat]
  · rwa [← List.cons_append, ← List.append_assoc, List.getLast?_concat]

/-- Names joined to a path that does not end with a slash. -/
theorem foldl_joinName {path : Bytes} {names : List Name} (hn : ∀ c ∈ names, Component c)
    (hl : path.getLast? ≠ some slash) :
    names.foldl joinName path = path ++ names.flatMap fun c => slash :: c := by
  induction names generalizing path with
  | nil => simp
  | cons c cs ih =>
    rw [List.foldl_cons, ih (fun d hd => hn d (by simp [hd]))
      (getLast?_joinName (hn c (by simp))), joinName_of_no_slash hl]
    simp

theorem foldl_joinName_ne_nil {names : List Name} (h : path ≠ []) :
    names.foldl joinName path ≠ [] := by
  induction names generalizing path with
  | nil => exact h
  | cons c cs ih => exact ih (joinName_ne_nil h)

/-- Nothing is found behind an entry that is not a directory. -/
theorem At.resolve_behind (h : fs.At path p) (hc : Component c)
    (hd : fs.tree.isDir (enter p c) = false) (hl : fs.tree.NoLink (enter p c)) (rest : Bytes)
    (last : Bool) : ∃ err, fs.resolve last (joinName (joinName path c) rest) = .error err := by
  obtain ⟨cs, hcs, hw⟩ := h.components_joinName hc.2.1
  obtain ⟨m, hm⟩ := namei_append last (List.cons_ne_nil c (components rest)) hw
  obtain ⟨e, es, hes⟩ := List.exists_cons_of_ne_nil (List.splitOn_ne_nil slash rest)
  have hpath : components (joinName (joinName path c) rest) = cs ++ c :: components rest := by
    rw [joinName_of_no_slash (getLast?_joinName hc), components_append_slash, hcs,
      List.append_assoc]
    rfl
  have hne := joinName_ne_nil (c := c) h.ne_nil
  rw [FileSystem.resolve, if_neg (joinName_ne_nil hne), startOf_joinName hne,
    startOf_joinName h.ne_nil, hpath, hm, namei_cons h.isDir hl, components, hes,
    namei_cons_error hd]
  exact ⟨_, rfl⟩

/-- Names behind an entry are one path behind it. -/
theorem foldl_joinName_behind (path : Bytes) (hc : Component c) {names : List Name}
    (hn : ∀ n ∈ names, Component n) (hne : names ≠ []) :
    ∃ rest, names.foldl joinName (joinName path c) = joinName (joinName path c) rest := by
  obtain ⟨n, names, rfl⟩ := List.exists_cons_of_ne_nil hne
  refine ⟨n ++ names.flatMap fun c => slash :: c, ?_⟩
  rw [foldl_joinName hn (getLast?_joinName hc), joinName_of_no_slash (getLast?_joinName hc),
    List.flatMap_cons, List.cons_append]

theorem At.resolve_entry (h : fs.At path p) (hc : slash ∉ c) (hl : fs.tree.NoLink (enter p c))
    (last : Bool) : fs.resolve last (joinName path c) = .ok (enter p c) := by
  obtain ⟨n, hn⟩ := h.resolve_joinName hc last
  rw [hn, namei_single h.isDir hl]

theorem At.resolve_nofollow (h : fs.At path p) (hc : ValidName c) :
    fs.resolve false (joinName path c) = .ok (c :: p) := by
  obtain ⟨n, hn⟩ := h.resolve_joinName hc.2.1 false
  rw [hn, namei_single_nofollow h.isDir hc.1]

theorem At.lstat_of_get {n : Node Xattrs} (h : fs.At path p) (hc : ValidName c)
    (hg : fs.tree.get (c :: p) = some n) : fs.lstat (joinName path c) = .ok n := by
  rw [lstat, h.resolve_nofollow hc, nodeAt, hg]

theorem At.entry (h : fs.At path p) (hc : slash ∉ c) (hd : fs.tree.isDir (enter p c)) :
    fs.At (joinName path c) (enter p c) :=
  ⟨joinName_ne_nil h.ne_nil, h.resolve_entry hc (noLink_of_isDir hd) true, hd⟩

/-- A subdirectory is where its name joined to the path leads. -/
theorem At.subdir (h : fs.At path p) (hd : fs.tree.isDir (c :: p)) :
    fs.At (joinName path c) (c :: p) := by
  obtain ⟨x, hx⟩ := isDir_iff.1 hd
  have hv := validName_of_get hx
  rw [← enter_plain hv.1 p] at hd ⊢
  exact h.entry hv.2.1 hd

/-- The directory some names lead to from a directory. -/
theorem At.names {names : List Name} (h : fs.At path p) (hn : ∀ n ∈ names, ValidName n)
    (hd : fs.tree.isDir (names.reverse ++ p)) :
    fs.At (names.foldl joinName path) (names.reverse ++ p) := by
  induction names generalizing path p with
  | nil => exact h
  | cons n names ih =>
    rw [List.reverse_cons, List.append_assoc, List.singleton_append] at hd ⊢
    have he := h.subdir (isDir_of_suffix (List.suffix_append _ _) hd)
    exact ih he (fun n' hn' => hn n' (List.mem_cons_of_mem n hn')) hd

/-- Where names below a directory lead if no links are on the way. -/
theorem At.resolve_way {names : List Name} (h : fs.At path p) (hn : ∀ n ∈ names, ValidName n)
    (hc : ValidName c)
    (hl : ∀ l, Below p l → l <:+ c :: (names.reverse ++ p) → fs.tree.NoLink l) (last : Bool) :
    (fs.tree.isDir (names.reverse ++ p) →
      fs.resolve last ((names ++ [c]).foldl joinName path) = .ok (c :: (names.reverse ++ p))) ∧
    (fs.tree.isDir (names.reverse ++ p) = false →
      ∃ err, fs.resolve last ((names ++ [c]).foldl joinName path) = .error err) := by
  induction names generalizing path p with
  | nil =>
    have he := h.resolve_entry (c := c) hc.2.1
      (enter_plain hc.1 p ▸ hl _ (below_cons (List.suffix_refl p) c) (List.suffix_refl _)) last
    rw [enter_plain hc.1] at he
    exact ⟨fun _ => he, fun hd => absurd h.isDir (by simp [show fs.tree.isDir p = false from hd])⟩
  | cons n names ih =>
    have hv := hn n List.mem_cons_self
    have hn' : ∀ m ∈ names, ValidName m := fun m hm => hn m (List.mem_cons_of_mem n hm)
    rw [List.reverse_cons, List.append_assoc, List.singleton_append] at hl ⊢
    rw [List.cons_append, List.foldl_cons]
    have hway : n :: p <:+ c :: (names.reverse ++ n :: p) :=
      (List.suffix_append _ _).trans (List.suffix_cons c _)
    by_cases hd : fs.tree.isDir (n :: p)
    · have he := h.entry (c := n) hv.2.1 (by rwa [enter_plain hv.1])
      rw [enter_plain hv.1] at he
      exact ih he hn' fun l hb => hl l (hb.trans_suffix (List.suffix_cons n p))
    · have hno : ¬fs.tree.isDir (names.reverse ++ n :: p) := fun h' =>
        hd (isDir_of_suffix (List.suffix_append _ _) h')
      have hcomp : ∀ m ∈ names ++ [c], Component m := by
        intro m hm
        rcases List.mem_append.1 hm with hm | hm
        · exact (hn' m hm).component
        · rw [List.mem_singleton.1 hm]
          exact hc.component
      obtain ⟨rest, hrest⟩ := foldl_joinName_behind path hv.component hcomp (by simp)
      rw [hrest]
      refine ⟨fun h' => absurd h' hno, fun _ => h.resolve_behind hv.component ?_ ?_ rest last⟩
      · rw [enter_plain hv.1]
        simpa using hd
      · rw [enter_plain hv.1]
        exact hl _ (below_cons (List.suffix_refl p) n) hway

/-- Names below a directory without links resolve when their parent is a directory, and only then.
-/
theorem At.resolve_names {names : List Name} (h : fs.At path p) (hn : ∀ n ∈ names, ValidName n)
    (hc : ValidName c) (hl : ∀ l, Below p l → fs.tree.NoLink l) (last : Bool) :
    (fs.tree.isDir (names.reverse ++ p) →
      fs.resolve last ((names ++ [c]).foldl joinName path) = .ok (c :: (names.reverse ++ p))) ∧
    (fs.tree.isDir (names.reverse ++ p) = false →
      ∃ err, fs.resolve last ((names ++ [c]).foldl joinName path) = .error err) :=
  h.resolve_way hn hc (fun l hb _ => hl l hb) last

/-- What is found at the end of names below a directory if no links are on the way. -/
theorem At.stat_way {names : List Name} (h : fs.At path p) (hn : ∀ n ∈ names, ValidName n)
    (hl : ∀ l, Below p l → l <:+ names.reverse ++ p → fs.tree.NoLink l) (n : Node Xattrs) :
    fs.stat (names.foldl joinName path) = .ok n ↔ fs.tree.get (names.reverse ++ p) = some n := by
  have hnode : ∀ l, fs.nodeAt (.ok l) = .ok n ↔ fs.tree.get l = some n := by
    intro l
    rw [nodeAt]
    cases fs.tree.get l <;> simp
  rcases List.eq_nil_or_concat' names with rfl | ⟨names, c, rfl⟩
  · rw [← hnode, stat, List.foldl_nil, h.resolve]
    rfl
  · rw [List.reverse_append, List.reverse_singleton, List.singleton_append, List.cons_append]
      at hl ⊢
    obtain ⟨hdir, hno⟩ := h.resolve_way (fun m hm => hn m (List.mem_append_left _ hm))
      (hn c (by simp)) hl true
    rw [stat]
    by_cases hd : fs.tree.isDir (names.reverse ++ p)
    · rw [hdir hd, hnode]
    · obtain ⟨err, he⟩ := hno (by simpa using hd)
      rw [he, get_cons_eq_none (by simpa using hd)]
      simp [nodeAt]

theorem At.stat_names {names : List Name} (h : fs.At path p) (hn : ∀ n ∈ names, ValidName n)
    (hl : ∀ l, Below p l → fs.tree.NoLink l) (n : Node Xattrs) :
    fs.stat (names.foldl joinName path) = .ok n ↔ fs.tree.get (names.reverse ++ p) = some n :=
  h.stat_way hn (fun l hb _ => hl l hb) n

/-- A path that resolves still does when directories and links are kept. -/
theorem resolve_keeps (hk : fs.tree.Keeps fs'.tree) (hc : fs'.cwd = fs.cwd) {last : Bool}
    (hp : fs.tree.NoLink p → fs'.tree.NoLink p) (h : fs.resolve last path = .ok p) :
    fs'.resolve last path = .ok p := by
  unfold resolve at h ⊢
  split_ifs at h ⊢ with he
  rw [hc]
  exact namei_keeps hk hp h

theorem At.keeps (h : fs.At path p) (hk : fs.tree.Keeps fs'.tree) (hc : fs'.cwd = fs.cwd) :
    fs'.At path p :=
  ⟨h.ne_nil, resolve_keeps hk hc (fun _ => noLink_of_isDir (hk.dir _ h.isDir)) h.resolve,
    hk.dir _ h.isDir⟩

/-- The place of a directory is the same whether or not a link in the last position is
followed. -/
theorem at_of_lstat {x : Xattrs} (h : fs.lstat path = .ok (.dir x)) :
    ∃ l, fs.resolve false path = .ok l ∧ fs.At path l := by
  unfold lstat nodeAt at h
  split at h
  · simp at h
  · next l hl =>
    split at h
    · next n hn =>
      rw [Except.ok.injEq] at h
      subst h
      have hd := isDir_of_get hn
      have hne : path ≠ [] := by
        rintro rfl
        simp [resolve] at hl
      refine ⟨l, hl, hne, ?_, hd⟩
      rw [resolve, if_neg hne] at hl ⊢
      exact namei_follow (noLink_of_isDir hd) hl
    · simp at h

/-- What resolves behind a slash is found below a directory. -/
theorem at_of_resolve {rest : Bytes} {last : Bool}
    (h : fs.resolve last (path ++ slash :: rest) = .ok p) (hne : path ≠ []) :
    ∃ q, fs.At path q := by
  rw [FileSystem.resolve, if_neg (by simp), components_append_slash] at h
  have hs : startOf fs.cwd (path ++ slash :: rest) = startOf fs.cwd path := by
    obtain ⟨b, path, rfl⟩ := List.exists_cons_of_ne_nil hne
    rfl
  rw [hs] at h
  obtain ⟨q, hq, hd⟩ := namei_of_append (List.splitOn_ne_nil slash rest) h
  exact ⟨q, hne, by rw [FileSystem.resolve, if_neg hne, hq], hd⟩

/-- Cut off before a slash, the path of a directory names a directory. -/
theorem At.of_append_slash {rest : Bytes} (h : fs.At (path ++ slash :: rest) p) (hne : path ≠ []) :
    ∃ q, fs.At path q :=
  at_of_resolve h.resolve hne

theorem At.stat_dir (h : fs.At path p) : ∃ x, fs.stat path = .ok (.dir x) := by
  obtain ⟨x, hx⟩ := isDir_iff.1 h.isDir
  exact ⟨x, by simp [FileSystem.stat, h.resolve, nodeAt, hx]⟩

theorem At.stat_entry (h : fs.At path p) (hc : slash ∉ c) (hl : fs.tree.NoLink (enter p c)) :
    fs.stat (joinName path c) = fs.nodeAt (.ok (enter p c)) := by
  rw [stat, h.resolve_entry hc hl]

/-- `path` names the directory `p` whatever lies below `p` : the path does not lead
through what is below its own end. -/
def Anchored (fs : FileSystem) (path : Bytes) (p : Loc) : Prop :=
  ∀ t, (∀ m, ¬Below p m → t.get m = fs.tree.get m) → At { fs with tree := t } path p

namespace Anchored

theorem toAt (h : fs.Anchored path p) : fs.At path p :=
  h fs.tree fun _ _ => rfl

theorem of_agree (h : fs.Anchored path p) (hc : fs'.cwd = fs.cwd)
    (ha : ∀ m, ¬Below p m → fs'.tree.get m = fs.tree.get m) : fs'.Anchored path p := by
  intro t ht
  rw [hc]
  exact h t fun m hm => (ht m hm).trans (ha m hm)

/-- An entry that is a directory is anchored where its parent is. -/
theorem entry (h : fs.Anchored path p) (hc : ValidName c) (hd : fs.tree.isDir (c :: p)) :
    fs.Anchored (joinName path c) (c :: p) := by
  intro t ht
  have hp : At { fs with tree := t } path p :=
    h t fun m hm => ht m fun hb => hm (hb.trans_suffix (List.suffix_cons c p))
  rw [← enter_plain hc.1]
  refine hp.entry hc.2.1 ?_
  rw [enter_plain hc.1, FileTree.isDir, ht _ (not_below_self _)]
  exact hd

/-- Names walked from an anchored path are anchored. -/
theorem names {names : List Name} (h : fs.Anchored path p) (hn : ∀ n ∈ names, ValidName n)
    (hd : fs.tree.isDir (names.reverse ++ p)) :
    fs.Anchored (names.foldl joinName path) (names.reverse ++ p) := by
  induction names generalizing path p with
  | nil => exact h
  | cons n names ih =>
    rw [List.reverse_cons, List.append_assoc, List.singleton_append] at hd ⊢
    exact ih (h.entry (hn n List.mem_cons_self) (isDir_of_suffix (List.suffix_append _ _) hd))
      (fun n' hn' => hn n' (List.mem_cons_of_mem n hn')) hd

/-- A path that names a directory with nothing below it leads through no such place. -/
theorem of_empty (h : fs.At path p) (he : ∀ l, Below p l → fs.tree.get l = none) :
    fs.Anchored path p := by
  intro t ht
  have hk : fs.tree.Keeps t := by
    refine ⟨fun l hl => ?_, fun l target hl => ?_⟩
    · obtain ⟨x, hx⟩ := isDir_iff.1 hl
      rw [FileTree.isDir, ht l fun hb => by simp [he l hb] at hx]
      exact hl
    · rw [ht l fun hb => by simp [he l hb] at hl, hl]
  exact h.keeps hk rfl

/-- Directories and links that stay keep the path. -/
theorem keeps (h : fs.Anchored path p) (hk : fs.tree.Keeps fs'.tree) (hc : fs'.cwd = fs.cwd) :
    fs'.Anchored path p := by
  intro t ht
  have hprune := h (fs.tree.prune p) fun m hm => by rw [get_prune, if_neg hm]
  refine hprune.keeps ⟨fun l hl => ?_, fun l target hl => ?_⟩ hc
  · obtain ⟨x, hx⟩ := isDir_iff.1 hl
    rw [get_prune] at hx
    split_ifs at hx with hb
    rw [FileTree.isDir, ht l hb]
    exact hk.dir l (isDir_of_get hx)
  · rw [get_prune] at hl
    split_ifs at hl with hb
    rw [ht l hb]
    exact hk.link l target hl

end Anchored

/-- The root of the tree. -/
theorem at_root (fs : FileSystem) : fs.At [slash] [] := by
  have hd := isDir_nil fs.tree
  refine ⟨by decide, ?_, hd⟩
  have hl : fs.tree.NoLink (enter [] []) := by
    rw [enter_nil]
    exact noLink_of_isDir hd
  have hcomp : components [slash] = [[], []] := rfl
  rw [FileSystem.resolve, if_neg (by decide), hcomp, show startOf fs.cwd [slash] = [] from rfl,
    namei_cons hd hl, enter_nil, namei_cons hd hl, enter_nil, namei_nil]

theorem anchored_root (fs : FileSystem) : fs.Anchored [slash] [] :=
  fun t _ => at_root { fs with tree := t }

/-- What a successful change of the tree did. -/
theorem modify_ok {last : Bool} {op : Loc → Except Errno (FileTree Xattrs)}
    (h : fs.modify last path op = .ok fs') :
    ∃ l, fs.resolve last path = .ok l ∧ op l = .ok fs'.tree ∧ fs'.cwd = fs.cwd := by
  unfold modify at h
  split at h
  · simp at h
  · next l hl =>
    cases ho : op l with
    | error e => simp [ho, Except.map] at h
    | ok t =>
      simp only [ho, Except.map, Except.ok.injEq] at h
      subst h
      exact ⟨l, hl, ho, rfl⟩

theorem modify_eq {last : Bool} {op : Loc → Except Errno (FileTree Xattrs)} {l : Loc}
    {t : FileTree Xattrs} (hl : fs.resolve last path = .ok l) (ho : op l = .ok t) :
    fs.modify last path op = .ok { fs with tree := t } := by
  simp [modify, hl, ho, Except.map]

/-- Whether a file can be written does not depend on the content. -/
theorem write_iff {content : Bytes} : (∃ fs', fs.write path content = .ok fs') ↔
    ∃ l, fs.resolve true path = .ok l ∧ fs.tree.Writable l := by
  constructor
  · rintro ⟨fs', hw⟩
    obtain ⟨l, hr, ho, -⟩ := modify_ok hw
    exact ⟨l, hr, writable_iff.2 ⟨_, ho⟩⟩
  · rintro ⟨l, hr, hw⟩
    obtain ⟨t', ht⟩ := (@writable_iff _ _ (fun _ => none) content l).1 hw
    exact ⟨_, modify_eq hr ht⟩

end FileSystem

/-! ## What the system leaves open -/

/-- The type that a directory entry has. -/
inductive FileType where
  | dir
  | reg
  | lnk
  deriving DecidableEq, Repr

/-- The type of a node. -/
def Node.fileType {X : Type} : Node X → FileType
  | .dir _ => .dir
  | .file _ _ => .reg
  | .link _ => .lnk

/-- A directory entry as `readdir` returns it. The type may be unknown. -/
structure Dirent where
  dName : Name
  dType : Option FileType

/-- What the system leaves open : the order of entries, what `readdir` tells of them, and the
patterns of `fnmatch`. -/
structure Host where
  /-- The order in which the entries of a directory are enumerated. -/
  order : Loc → List Dirent → List Dirent
  order_perm : ∀ l es, (order l es).Perm es
  /-- Whether `readdir` reports the type of an entry. -/
  typed : Loc → Name → Bool
  /-- The bytes found when a directory is read as a file. -/
  dirBytes : Option Bytes
  /-- `fnmatch` with `FNM_PERIOD`. -/
  fnmatch : Bytes → Bytes → Bool

namespace Host

variable (host : Host)

/-- An entry as `readdir` returns it. -/
def dirent (p : Loc) (c : Name) (type : FileType) : Dirent :=
  ⟨c, if host.typed p c then some type else none⟩

/-- The entries of the directory `p`, itself and its parent included. -/
def readdir (t : FileTree Xattrs) (p : Loc) : List Dirent :=
  host.order p (host.dirent p [dot] .dir :: host.dirent p [dot, dot] .dir ::
    (t.children p).map fun e => host.dirent p e.1 e.2.fileType)

/-- `opendir` and the snapshot of entries that `readdir` goes through. -/
def entries (fs : FileSystem) (path : Bytes) : Except Errno (List Dirent) :=
  match fs.resolve true path with
  | .error e => .error e
  | .ok l =>
    if fs.tree.isDir l then .ok (host.readdir fs.tree l) else .error (fs.tree.lookupError l)

variable {host} {t : FileTree Xattrs} {p : Loc}

/-- `readdir` lists the two dot entries and the entries of the directory. -/
theorem mem_readdir {e : Dirent} : e ∈ host.readdir t p ↔
    e = host.dirent p [dot] .dir ∨ e = host.dirent p [dot, dot] .dir ∨
      ∃ c n, t.get (c :: p) = some n ∧ e = host.dirent p c n.fileType := by
  rw [readdir, (host.order_perm _ _).mem_iff, List.mem_cons, List.mem_cons, List.mem_map]
  refine or_congr Iff.rfl (or_congr Iff.rfl ⟨?_, ?_⟩)
  · rintro ⟨⟨c, n⟩, hm, rfl⟩
    exact ⟨c, n, FileTree.mem_children.1 hm, rfl⟩
  · rintro ⟨c, n, hg, rfl⟩
    exact ⟨(c, n), FileTree.mem_children.2 hg, rfl⟩

/-- The entries of a directory other than itself and its parent. -/
def names (t : FileTree Xattrs) (p : Loc) : List Name :=
  ((host.readdir t p).map Dirent.dName).filter fun c => c ≠ [dot] ∧ c ≠ [dot, dot]

/-- The names listed are those of the entries. -/
theorem mem_names {c : Name} : c ∈ host.names t p ↔ t.get (c :: p) ≠ none := by
  rw [names, List.mem_filter, List.mem_map]
  constructor
  · rintro ⟨⟨e, he, rfl⟩, hne⟩
    rw [decide_eq_true_iff] at hne
    rcases mem_readdir.1 he with rfl | rfl | ⟨c, n, hg, rfl⟩
    · exact absurd rfl hne.1
    · exact absurd rfl hne.2
    · simp [dirent, hg]
  · intro hg
    obtain ⟨n, hn⟩ := Option.ne_none_iff_exists'.1 hg
    refine ⟨⟨_, mem_readdir.2 (Or.inr (Or.inr ⟨c, n, hn, rfl⟩)), rfl⟩, ?_⟩
    rw [decide_eq_true_iff]
    exact (FileTree.validName_of_get hn).1.2

/-- No entry is listed twice. -/
theorem nodup_names : (host.names t p).Nodup := by
  have hperm := (host.order_perm p (host.dirent p [dot] .dir :: host.dirent p [dot, dot] .dir ::
    (t.children p).map fun e => host.dirent p e.1 e.2.fileType)).map Dirent.dName
  refine (hperm.nodup_iff.2 ?_).filter _
  have hmap : ((t.children p).map fun e => host.dirent p e.1 e.2.fileType).map Dirent.dName =
      (t.children p).map Prod.fst := by
    rw [List.map_map]
    rfl
  have hmem : ∀ c ∈ (t.children p).map Prod.fst, Plain c := by
    intro c hc
    obtain ⟨⟨c, n⟩, hm, rfl⟩ := List.mem_map.1 hc
    exact (FileTree.validName_of_get (FileTree.mem_children.1 hm)).1
  rw [List.map_cons, List.map_cons, hmap, List.nodup_cons, List.nodup_cons, List.mem_cons]
  refine ⟨?_, fun h => (hmem _ h).2.2 rfl, FileTree.nodup_children p⟩
  rintro (h | h)
  · simp [dirent] at h
  · exact (hmem _ h).2.1 rfl

theorem entries_at {fs : FileSystem} {path : Bytes} (h : fs.At path p) :
    host.entries fs path = .ok (host.readdir fs.tree p) := by
  simp [entries, h.resolve, h.isDir]

end Host

end Posix
