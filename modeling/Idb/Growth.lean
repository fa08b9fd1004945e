import Idb.Store

/-!
# How a store changes

A put adds a file and what is missing of the way to it (`Stored`), a delete takes away
(`Shrunk`) ; both leave a store. As long as no directory is taken away, a partition
directory is only there because its parent is full (`FullParents`). So a put that stops
before the place of a stored key finds that the level it stops at is full too, and a
key never gets a second place (`PutPlace.isDir_of_home`, `HomeUnique`).
-/

namespace Idb

open Posix FileSystem FileTree

section

variable {fs fs' : FileSystem} {t t' : FileTree Xattrs} {D : Bytes} {d l l' p : Loc}
  {k k' : Key} {i j m : ℕ} {a : Attr} {v : Bytes} {policy : TIDBProcesses}

/-! ## More directories -/

/-- The directories of `t'` are those of `t` and some on the way from `d` to `l`. -/
structure Grew (t t' : FileTree Xattrs) (d l : Loc) : Prop where
  mono : ∀ q, t.isDir q → t'.isDir q
  way : ∀ q, t'.isDir q → t.isDir q ∨ (Below d q ∧ q <:+ l)

namespace Grew

variable (hg : Grew t t' d l)

include hg

/-- The only place of a key that can be new is the one put at. -/
theorem isDir_home (hl : HomeAt d k i l) (hl' : HomeAt d k' j l') (hd : t'.isDir l') :
    t.isDir l' ∨ l' = l :=
  (hg.way l' hd).imp_right fun hc => hl'.eq_of_suffix hl hc.2

/-- The directories stay those of keys and partitions. -/
theorem dirsOfKeys (hl : HomeAt d k i l) (h : DirsOfKeys t d) : DirsOfKeys t' d := by
  intro q hb hd
  rcases hg.way q hd with hd | ⟨-, hsuf⟩
  · exact h q hb hd
  · rcases hl.of_suffix hb.1 hsuf with rfl | ⟨j, -, hp⟩
    · exact Or.inr ⟨k, i, hl⟩
    · exact Or.inl ⟨k, j, hp⟩

end Grew

/-! ## After a put -/

namespace Stored

/-- The files after a store : one has the new value. -/
theorem fileAt_eq {n : Name} (hs : Stored fs fs' d l n v) (q : Loc) :
    fs'.tree.fileAt q = if q = n :: l then some v else fs.tree.fileAt q := by
  split_ifs with hq
  · rw [hq, hs.file]
  · rcases hs.other q hq with he | ⟨-, -, hn, hnew⟩
    · rw [fileAt, he, fileAt]
    · rw [fileAt, hnew, fileAt, hn]
      rfl

variable (hs : Stored fs fs' d l a.name v)

include hs

theorem isDir_home : fs'.tree.isDir l :=
  isDir_of_fileAt hs.file

/-- The directories after a put are the old ones and those on its way. -/
theorem isDir_iff_way (hno : fs.tree.isDir (a.name :: l) = false) (q : Loc) :
    fs'.tree.isDir q ↔ fs.tree.isDir q ∨ (Below d q ∧ q <:+ l) := by
  by_cases hq : q = a.name :: l
  · subst hq
    obtain ⟨x, hx⟩ := fileAt_eq_some.1 hs.file
    have hlen : ¬a.name :: l <:+ l := fun hc => by
      have := hc.length_le
      simp at this
    have hfile : fs'.tree.isDir (a.name :: l) = false := by simp [FileTree.isDir, hx, Node.isDir]
    simp [hno, hlen, hfile]
  · constructor
    · intro hd
      rcases hs.other q hq with he | ⟨hb, hsuf, -, -⟩
      · exact Or.inl (by rwa [FileTree.isDir, he] at hd)
      · exact Or.inr ⟨hb, hsuf⟩
    · rintro (hd | ⟨-, hsuf⟩)
      · rcases hs.other q hq with he | ⟨-, -, hn, -⟩
        · rwa [FileTree.isDir, he]
        · exact absurd hn (get_ne_none_of_isDir hd)
      · exact isDir_of_suffix hsuf hs.isDir_home

theorem anchored (ha : fs.Anchored D d) (hb : Below d l) : fs'.Anchored D d :=
  ha.of_agree hs.cwd_eq fun q hq => by
    refine (hs.other q ?_).resolve_right fun hc => hq hc.1
    rintro rfl
    exact hq (hb.cons a.name)

/-- No link comes up. -/
theorem noLink {q : Loc} (hl : fs.tree.NoLink q) : fs'.tree.NoLink q := by
  by_cases hq : q = a.name :: l
  · obtain ⟨x, hx⟩ := fileAt_eq_some.1 hs.file
    simp [hq, NoLink, hx]
  · rcases hs.other q hq with he | ⟨-, -, -, hnew⟩
    · simpa [NoLink, he] using hl
    · simp [NoLink, hnew, newDir]

theorem isDir_iff (h : Store fs D d) (hl : HomeAt d k i l) (q : Loc) :
    fs'.tree.isDir q ↔ fs.tree.isDir q ∨ (Below d q ∧ q <:+ l) :=
  hs.isDir_iff_way (h.layout.not_isDir_attr hl.below.1) q

theorem isDir_mono (h : Store fs D d) (hl : HomeAt d k i l) {q : Loc} (hd : fs.tree.isDir q) :
    fs'.tree.isDir q :=
  (hs.isDir_iff h hl q).2 (Or.inl hd)

theorem grew (h : Store fs D d) (hl : HomeAt d k i l) : Grew fs.tree fs'.tree d l :=
  ⟨fun _ hd => hs.isDir_mono h hl hd, fun q hd => (hs.isDir_iff h hl q).1 hd⟩

/-- A store stays one when a key's home is written. -/
theorem store (h : Store fs D d) (hl : HomeAt d k i l) : Store fs' D d where
  anchored := hs.anchored h.anchored hl.below
  layout := {
    links := fun q hb => hs.noLink (h.layout.links q hb)
    dirs := (hs.grew h hl).dirsOfKeys hl h.layout.dirs
    files := fun q w hb hw => by
      rw [hs.fileAt_eq] at hw
      split_ifs at hw with hq
      · exact ⟨a, k, i, l, hq, hl⟩
      · exact h.layout.files q w hb hw }

end Stored

/-! ## After a delete -/

/-- `fs'` is `fs` without some places below `d`. -/
structure Shrunk (fs fs' : FileSystem) (d : Loc) : Prop where
  cwd_eq : fs'.cwd = fs.cwd
  get_cases : ∀ q, fs'.tree.get q = fs.tree.get q ∨ (Below d q ∧ fs'.tree.get q = none)

namespace Shrunk

/-- Removing one node below the base directory shrinks the store. -/
theorem of_updated {q : Loc} (hc : fs'.cwd = fs.cwd) (hb : Below d q)
    (hu : fs.tree.Updated fs'.tree q none) : Shrunk fs fs' d := by
  refine ⟨hc, fun q' => ?_⟩
  rw [hu q']
  split_ifs with hq
  · exact Or.inr ⟨hq ▸ hb, rfl⟩
  · exact Or.inl rfl

/-- Removing a subtree below the base directory shrinks the store. -/
theorem of_removed {q : Loc} (hc : fs'.cwd = fs.cwd) (hb : Below d q)
    (hr : Removed fs.tree fs'.tree q) : Shrunk fs fs' d := by
  refine ⟨hc, fun q' => ?_⟩
  rw [hr q']
  split_ifs with hq
  · exact Or.inr ⟨hb.suffix hq, rfl⟩
  · exact Or.inl rfl

variable (hs : Shrunk fs fs' d)

include hs

theorem isDir_of {q : Loc} (hd : fs'.tree.isDir q) : fs.tree.isDir q := by
  rcases hs.get_cases q with he | ⟨-, hn⟩
  · rwa [FileTree.isDir, he] at hd
  · exact absurd hn (get_ne_none_of_isDir hd)

theorem fileAt_of {q : Loc} (hv : fs'.tree.fileAt q = some v) : fs.tree.fileAt q = some v := by
  rcases hs.get_cases q with he | ⟨-, hn⟩
  · rwa [fileAt, he] at hv
  · simp [fileAt, hn] at hv

/-- What shrinks keeps its base directory. -/
theorem baseDir (h : BaseDir fs D d) : BaseDir fs' D d where
  anchored := h.anchored.of_agree hs.cwd_eq fun q hq =>
    (hs.get_cases q).resolve_right fun hc => hq hc.1
  links q hb := by
    rcases hs.get_cases q with he | ⟨-, hn⟩
    · simpa [NoLink, he] using h.links q hb
    · simp [NoLink, hn]

/-- A store stays one when a key's home is written. -/
theorem store (h : Store fs D d) : Store fs' D d where
  anchored := (hs.baseDir h.baseDir).anchored
  layout := {
    links := (hs.baseDir h.baseDir).links
    dirs := fun q hb hd => h.layout.dirs q hb (hs.isDir_of hd)
    files := fun q w hb hw => h.layout.files q w hb (hs.fileAt_of hw) }

/-- A key's only home stays its only one. -/
theorem homeUnique (hu : HomeUnique fs.tree d k) : HomeUnique fs'.tree d k :=
  fun i j l l' hl hl' hd hd' => hu i j l l' hl hl' (hs.isDir_of hd) (hs.isDir_of hd')

end Shrunk

/-- Deleting an attribute takes no directory away. -/
theorem isDir_of_updated {q l : Loc} (hu : t.Updated t' l none) (hv : t.fileAt l ≠ none) :
    t'.isDir q ↔ t.isDir q := by
  rw [FileTree.isDir, hu q]
  split_ifs with hq
  · subst hq
    have : ¬t.isDir q := fun hd => hv (fileAt_eq_none_of_isDir hd)
    simp [this]
  · rfl

/-! ## Counting -/

theorem visibleCount_mono (h : ∀ c, c.head? ≠ some dot → t.isDir (c :: p) → t'.isDir (c :: p)) :
    visibleCount t p ≤ visibleCount t' p := by
  refine (List.subperm_of_subset ((nodup_subdirs p).filter _) fun c hc => ?_).length_le
  rw [List.mem_filter, mem_subdirs] at hc ⊢
  exact ⟨h c (by simpa using hc.2) hc.1, hc.2⟩

/-- One more visible directory raises the count by at most one. -/
theorem visibleCount_le_succ {r : Name} (h : ∀ c, c.head? ≠ some dot → t'.isDir (c :: p) →
    t.isDir (c :: p) ∨ c = r) : visibleCount t' p ≤ visibleCount t p + 1 := by
  have hsub : (t'.subdirs p).filter (·.head? ≠ some dot) ⊆
      r :: (t.subdirs p).filter (·.head? ≠ some dot) := by
    intro c hc
    rw [List.mem_filter, mem_subdirs] at hc
    rw [List.mem_cons, List.mem_filter, mem_subdirs]
    rcases h c (by simpa using hc.2) hc.1 with hd | rfl
    · exact Or.inr ⟨hd, hc.2⟩
    · exact Or.inl rfl
  exact (List.subperm_of_subset ((nodup_subdirs p).filter _) hsub).length_le

theorem visibleCount_of_not_isDir (h : t.isDir p = false) : visibleCount t p = 0 := by
  rw [visibleCount, List.length_eq_zero_iff, List.filter_eq_nil_iff]
  intro c hc
  rw [isDir_of_cons (mem_subdirs.1 hc)] at h
  simp at h

theorem le_visibleCount_of_full (hp : PartAt d k i p) (hf : Full t m d k.val i) :
    m ≤ visibleCount t p := by
  obtain ⟨ns, r, hl, hn, rfl⟩ := hp
  rw [full_iff hl, Key.place_eq hl hn] at hf
  exact hf.2.2.1

/-! ## Partition directories have full parents -/

/-- A directory that holds partition directories is full. -/
def FullParents (t : FileTree Xattrs) (m : ℕ) (d : Loc) : Prop :=
  ∀ (k : Key) i p, PartAt d k (i + 1) p → t.isDir p → m ≤ visibleCount t p.tail

/-- If the key has a place, a put goes there. -/
theorem PutPlace.isDir_of_home (hp : PutPlace t m d k policy i l) (hf : FullParents t m d)
    (hl' : HomeAt d k j l') (hd : t.isDir l') : t.isDir l := by
  rcases Nat.lt_trichotomy j i with hlt | rfl | hlt
  · have := ((full_iff_homeAt hl').1 (hp.full j hlt)).2.2
    simp [hd] at this
  · rwa [hp.home.unique hl']
  · -- The next partition is there, so level `i` is full, unless it holds the key.
    obtain ⟨q, hq, hsuf⟩ := hl'.partAt_tail.suffix_of_le (Nat.succ_le_of_lt hlt)
    have hdq := isDir_of_suffix hsuf (isDir_tail hd)
    have hcount := hf k i q hq hdq
    obtain ⟨c, q', -, -, hq', rfl⟩ := hq.succ
    obtain rfl := hp.home.partAt_tail.unique hq'
    by_contra hno
    have hfull : Full t m d k.val i :=
      (full_iff_homeAt hp.home).2 ⟨isDir_of_cons hdq, hcount, by simpa using hno⟩
    rcases hp.stops with hstop | ⟨-, e, he⟩
    · exact hstop hfull
    · exact absurd (he.lt hl') (by omega)

namespace Grew

variable (hg : Grew t t' d l) (hp : PutPlace t m d k policy i l)

include hg hp

/-- Full parents stay full. -/
theorem fullParents (hf : FullParents t m d) : FullParents t' m d := by
  intro k' j q hq hd
  have hmono : visibleCount t q.tail ≤ visibleCount t' q.tail :=
    visibleCount_mono fun c _ hc => hg.mono _ hc
  rcases hg.way q hd with hd | ⟨hb, hsuf⟩
  · exact (hf k' j q hq hd).trans hmono
  · rcases hp.home.of_suffix hb.1 hsuf with rfl | ⟨j', hj', hq'⟩
    · exact absurd hq hp.home.not_partAt
    · obtain ⟨j', rfl⟩ := hq'.exists_succ hb
      obtain ⟨c, q', -, -, hq'', rfl⟩ := hq'.succ
      have hcount := le_visibleCount_of_full hq'' (hp.full j' (by omega))
      exact hcount.trans hmono

/-- A key's only home stays its only one. -/
theorem homeUnique (hf : FullParents t m d) (hu : HomeUnique t d k') : HomeUnique t' d k' := by
  -- A place other than the one put at was there before, and then that one was too.
  have hput : ∀ i' j l', HomeAt d k' i' l → HomeAt d k' j l' → t.isDir l' → i' = j := by
    intro i' j l' hi hl' hd
    obtain ⟨rfl, rfl⟩ := hp.home.inj hi
    exact hu _ _ _ _ hi hl' (hp.isDir_of_home hf hl' hd) hd
  intro i' j l₁ l₂ h₁ h₂ hd₁ hd₂
  rcases hg.isDir_home hp.home h₁ hd₁ with hd₁ | rfl <;>
    rcases hg.isDir_home hp.home h₂ hd₂ with hd₂ | rfl
  · exact hu i' j l₁ l₂ h₁ h₂ hd₁ hd₂
  · exact (hput j i' l₁ h₂ h₁ hd₁).symm
  · exact hput i' j l₂ h₁ h₂ hd₂
  · exact (h₁.inj h₂).2

end Grew

/-! ## Partition directories hold keys -/

/-- Below every partition directory lies a key. -/
def PartsHoldKeys (t : FileTree Xattrs) (d : Loc) : Prop :=
  ∀ (k : Key) i p, PartAt d k (i + 1) p → t.isDir p → ∃ (k' : Key) (j : ℕ) (l : Loc),
    HomeAt d k' j l ∧ p <:+ l ∧ t.isDir l

/-- Partitions still hold keys after growth towards a home. -/
theorem Grew.partsHoldKeys (hg : Grew t t' d l) (hl : HomeAt d k i l)
    (hwhole : t'.isDir l ∨ ∀ q, t'.isDir q → t.isDir q) (hp : PartsHoldKeys t d) :
    PartsHoldKeys t' d := by
  intro k' j q hq hd
  have hcases : t.isDir q ∨ (q <:+ l ∧ t'.isDir l) := by
    rcases hg.way q hd with hold | ⟨-, hsuf⟩
    · exact Or.inl hold
    · exact hwhole.symm.imp (fun hsame => hsame q hd) fun hl' => ⟨hsuf, hl'⟩
  rcases hcases with hold | ⟨hsuf, hl'⟩
  · obtain ⟨k₁, j₁, l₁, hl₁, hsuf, hd₁⟩ := hp k' j q hq hold
    exact ⟨k₁, j₁, l₁, hl₁, hsuf, hg.mono l₁ hd₁⟩
  · exact ⟨k, i, l, hl, hsuf, hl'⟩

end

end Idb
