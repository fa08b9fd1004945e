import Idb.Attributes

/-!
# Changes that keep the shape of a tree

Writing and removing attributes changes no directory and no link. So paths lead where they led
before (`SameShape.resolve_iff`), and the search for a key finds what it found
(`SameShape.iIsKeyDirExists_eq`).
-/

namespace Idb

open Posix FileSystem FileTree

/-- The same directories and links in both trees. -/
structure SameShape (fs fs' : FileSystem) : Prop where
  cwd_eq : fs'.cwd = fs.cwd
  keeps : fs.tree.Keeps fs'.tree
  keepsBack : fs'.tree.Keeps fs.tree

namespace SameShape

variable {fs fs' fs'' : FileSystem} {path : Bytes} {l : Loc}

theorem refl (fs : FileSystem) : SameShape fs fs :=
  ⟨rfl, Keeps.refl _, Keeps.refl _⟩

theorem symm (h : SameShape fs fs') : SameShape fs' fs :=
  ⟨h.cwd_eq.symm, h.keepsBack, h.keeps⟩

theorem trans (h : SameShape fs fs') (h' : SameShape fs' fs'') : SameShape fs fs'' :=
  ⟨h'.cwd_eq.trans h.cwd_eq, h.keeps.trans h'.keeps, h'.keepsBack.trans h.keepsBack⟩

theorem noLink (h : SameShape fs fs') (hl : fs.tree.NoLink l) : fs'.tree.NoLink l :=
  fun target ht => hl target (h.keepsBack.link l target ht)

theorem resolve_ok (h : SameShape fs fs') {last : Bool} (hr : fs.resolve last path = .ok l) :
    fs'.resolve last path = .ok l :=
  resolve_keeps h.keeps h.cwd_eq h.noLink hr

theorem resolve_iff (h : SameShape fs fs') {last : Bool} :
    fs'.resolve last path = .ok l ↔ fs.resolve last path = .ok l :=
  ⟨h.symm.resolve_ok, h.resolve_ok⟩

theorem directoryExists_iff (h : SameShape fs fs') :
    directoryExists fs' path = pathIsDir ↔ directoryExists fs path = pathIsDir := by
  rw [directoryExists_eq_dir_iff_at, directoryExists_eq_dir_iff_at]
  exact ⟨fun ⟨p, hp⟩ => ⟨p, hp.keeps h.keepsBack h.cwd_eq.symm⟩,
    fun ⟨p, hp⟩ => ⟨p, hp.keeps h.keeps h.cwd_eq⟩⟩

/-- A node that is changed without becoming, or ceasing to be, a directory or a link. -/
theorem of_updated (hc : fs'.cwd = fs.cwd) {n : Option (Node Xattrs)}
    (hu : fs.tree.Updated fs'.tree l n)
    (hd : fs.tree.isDir l ↔ (n.any Node.isDir) = true)
    (hl : ∀ target, fs.tree.get l = some (.link target) ↔ n = some (.link target)) :
    SameShape fs fs' := by
  have hdir : ∀ m, fs'.tree.isDir m ↔ fs.tree.isDir m := by
    intro m
    rw [FileTree.isDir, hu m]
    split_ifs with hm
    · rw [hm, hd]
    · rfl
  have hlink : ∀ m target, fs'.tree.get m = some (.link target) ↔
      fs.tree.get m = some (.link target) := by
    intro m target
    rw [hu m]
    split_ifs with hm
    · rw [hm, hl]
    · rfl
  exact ⟨hc, ⟨fun m h => (hdir m).2 h, fun m target h => (hlink m target).2 h⟩,
    ⟨fun m h => (hdir m).1 h, fun m target h => (hlink m target).1 h⟩⟩

end SameShape

section

variable {fs fs' : FileSystem}

@[simp] theorem fileType_mapMeta (f : Xattrs → Xattrs) (n : Node Xattrs) :
    (n.mapMeta f).fileType = n.fileType := by
  cases n <;> rfl

@[simp] theorem isDir_mapMeta (f : Xattrs → Xattrs) (n : Node Xattrs) :
    (n.mapMeta f).isDir = n.isDir := by
  cases n <;> rfl

theorem fileType_ne_lnk {l : Loc} {n : Node Xattrs} (hg : fs.tree.get l = some n)
    (hl : fs.tree.NoLink l) : n.fileType ≠ .lnk := by
  cases n with
  | link target => exact absurd hg (hl target)
  | dir x => simp [Node.fileType]
  | file v x => simp [Node.fileType]

theorem nodeXattrs_mapMeta (f : Xattrs → Xattrs) {n : Node Xattrs}
    (h : n.fileType ≠ .lnk) : nodeXattrs (n.mapMeta f) = f (nodeXattrs n) := by
  cases n with
  | link target => simp [Node.fileType] at h
  | dir x => rfl
  | file v x => rfl

/-- Setting extended attributes keeps the shape. -/
theorem sameShape_mapMeta {l : Loc} {n : Node Xattrs} {f : Xattrs → Xattrs}
    (hc : fs'.cwd = fs.cwd) (hg : fs.tree.get l = some n) (hl : fs.tree.NoLink l)
    (hu : fs.tree.Updated fs'.tree l (some (n.mapMeta f))) : SameShape fs fs' := by
  refine SameShape.of_updated hc hu ?_ fun target => ?_
  · rw [FileTree.isDir, hg]
    simp
  · constructor
    · intro h
      exact absurd h (hl target)
    · intro h
      rw [Option.some.injEq] at h
      cases n with
      | dir x => simp [Node.mapMeta] at h
      | file v x => simp [Node.mapMeta] at h
      | link target' => exact absurd hg (hl target')

end

/-- The loop only sees which paths are directories. -/
theorem lookLoop_congr {fs fs' : FileSystem}
    (h : ∀ path, directoryExists fs' path = pathIsDir ↔ directoryExists fs path = pathIsDir)
    (fuel : ℕ) (vDir s : Bytes) : lookLoop fs' fuel vDir s = lookLoop fs fuel vDir s := by
  induction fuel generalizing vDir s with
  | zero => rfl
  | succ fuel ih =>
    rw [lookLoop, lookLoop]
    simp only [h, ih]

theorem SameShape.iIsKeyDirExists_eq {fs fs' : FileSystem} (h : SameShape fs fs') (aDir : Bytes) :
    iIsKeyDirExists fs' aDir = iIsKeyDirExists fs aDir := by
  unfold iIsKeyDirExists
  simp only [lookLoop_congr fun path => h.directoryExists_iff]

/-! ## What is found -/

section

variable {fs fs' : FileSystem} {path name : Bytes} {n : Node Xattrs}

/-- What `stat` sees is the node that the path resolves to. -/
theorem stat_eq_ok : fs.stat path = .ok n ↔
    ∃ l, fs.resolve true path = .ok l ∧ fs.tree.get l = some n := by
  unfold stat nodeAt
  split
  · next e he => simp [he]
  · next l hl =>
    rw [hl]
    cases hg : fs.tree.get l <;> simp [hg]

/-- What `lstat` sees is the node that the path resolves to, the last link apart. -/
theorem lstat_eq_ok : fs.lstat path = .ok n ↔
    ∃ l, fs.resolve false path = .ok l ∧ fs.tree.get l = some n := by
  unfold lstat nodeAt
  split
  · next e he => simp [he]
  · next l hl =>
    rw [hl]
    cases hg : fs.tree.get l <;> simp [hg]

/-- What a path leads to is there without following a link in the last position. -/
theorem resolve_nofollow {l : Loc} (h : fs.resolve true path = .ok l)
    (hg : fs.tree.get l ≠ none) :
    ∃ q, fs.resolve false path = .ok q ∧ fs.tree.get q ≠ none ∧ (fs.tree.NoLink q → q = l) := by
  unfold FileSystem.resolve at h ⊢
  split_ifs at h ⊢
  obtain ⟨q, hq, hgq⟩ := namei_nofollow hg h
  refine ⟨q, hq, hgq, fun hl => ?_⟩
  have := namei_follow hl hq
  rw [h, Except.ok.injEq] at this
  exact this.symm

/-- What `getxattr` reads is the attribute of the node that the path resolves to. -/
theorem getxattr_eq_ok {v : Bytes} : fs.getxattr path name = .ok v ↔
    ∃ l n, fs.resolve true path = .ok l ∧ fs.tree.get l = some n ∧ nodeXattrs n name = some v := by
  unfold getxattr
  constructor
  · intro h
    split at h
    · simp at h
    · next n hn =>
      split at h
      · next v' hv =>
        rw [Except.ok.injEq] at h
        subst h
        obtain ⟨l, hl, hg⟩ := stat_eq_ok.1 hn
        exact ⟨l, n, hl, hg, hv⟩
      · simp at h
  · rintro ⟨l, n, hl, hg, hv⟩
    rw [stat_eq_ok.2 ⟨l, hl, hg⟩]
    simp [hv]

theorem getXattr_eq_some {v : Bytes} : getXattr fs path name = some v ↔
    ∃ l n, fs.resolve true path = .ok l ∧ fs.tree.get l = some n ∧ nodeXattrs n name = some v := by
  rw [← getxattr_eq_ok, getXattr]
  cases fs.getxattr path name <;> simp [Except.toOption]

end

end Idb
