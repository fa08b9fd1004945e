import Idb.PageLimit
import Idb.SystemCalls

/-!
# What single calls of a put change

A put makes the directories on the way to the place of its key one by one, and then writes a file
there. Each of these changes leaves a store a store, takes no directory away, and leaves alone what
lies at the places of other keys (`Advances`).

If nobody else puts a key, what its client knows of it stays true. A key that is in a directory of
level `i` finds the levels before full, also when the directories fill up meanwhile (`Placed`). So
it is in one place, and its attributes are those that were put (`Kept`).
-/

namespace Idb

open Posix FileSystem FileTree

/-! ## Changes -/

/-- What is at the places of these keys is the same in both trees. -/
def Untouched (d : Loc) (keys : Set Key) (t t' : FileTree Xattrs) : Prop :=
  ∀ k ∈ keys, ∀ i l, HomeAt d k i l → ∀ q, l <:+ q → t'.get q = t.get q

/-- The store goes on, without a change at the places of these keys. -/
structure Advances (D : Bytes) (d : Loc) (keys : Set Key) (fs fs' : FileSystem) : Prop where
  store : Store fs' D d
  mono : ∀ l, fs.tree.isDir l → fs'.tree.isDir l
  untouched : Untouched d keys fs.tree fs'.tree

section

variable {D : Bytes} {d l p : Loc} {keys keys' : Set Key} {fs fs' fs'' : FileSystem} {k : Key}
  {i m : ℕ} {a : Attr} {v : Bytes} {x : Xattrs} {c : Name}

namespace Advances

theorem refl (h : Store fs D d) : Advances D d keys fs fs :=
  ⟨h, fun _ => id, fun _ _ _ _ _ _ _ => rfl⟩

theorem trans (h : Advances D d keys fs fs') (h' : Advances D d keys fs' fs'') :
    Advances D d keys fs fs'' where
  store := h'.store
  mono l hd := h'.mono l (h.mono l hd)
  untouched k hk i l hl q hq := (h'.untouched k hk i l hl q hq).trans (h.untouched k hk i l hl q hq)

theorem anti (h : Advances D d keys fs fs') (hk : keys' ⊆ keys) : Advances D d keys' fs fs' :=
  ⟨h.store, h.mono, fun k hk' => h.untouched k (hk hk')⟩

/-- A change of one place, which is no place of these keys. -/
theorem of_updated {n : Node Xattrs} (hs : Store fs' D d)
    (hu : fs.tree.Updated fs'.tree l (some n)) (hn : fs.tree.isDir l → n.isDir)
    (hk : ∀ k ∈ keys, ∀ i l', HomeAt d k i l' → ¬l' <:+ l) : Advances D d keys fs fs' where
  store := hs
  mono q hd := by
    rw [FileTree.isDir, hu q]
    split_ifs with hq
    · subst hq
      exact hn hd
    · exact hd
  untouched k hk' i l' hl' q hq := by
    rw [hu q, if_neg]
    rintro rfl
    exact hk k hk' i l' hl' hq

end Advances

namespace Store

variable (h : Store fs D d)

include h

/-- A change of one place below the base directory. -/
theorem of_updated {n : Node Xattrs} (hc : fs'.cwd = fs.cwd) (hb : Below d l)
    (hu : fs.tree.Updated fs'.tree l (some n)) (hlink : ∀ target, n ≠ .link target)
    (hdir : n.isDir → (∃ k i, PartAt d k i l) ∨ ∃ k i, HomeAt d k i l)
    (hfile : ∀ v x, n = .file v x → ∃ (a : Attr) (k : Key) (i : ℕ) (l' : Loc),
      l = a.name :: l' ∧ HomeAt d k i l') : Store fs' D d where
  anchored := h.anchored.of_agree hc fun q hq => by
    rw [hu q, if_neg]
    rintro rfl
    exact hq hb
  layout := {
    links := fun q hq target hg => by
      rw [hu q] at hg
      split_ifs at hg
      · exact hlink target (Option.some.inj hg)
      · exact h.layout.links q hq target hg
    dirs := fun q hq hd => by
      rw [FileTree.isDir, hu q] at hd
      split_ifs at hd with he
      · exact he ▸ hdir hd
      · exact h.layout.dirs q hq hd
    files := fun q v hq hv => by
      obtain ⟨x, hg⟩ := fileAt_eq_some.1 hv
      rw [hu q] at hg
      split_ifs at hg with he
      · exact he ▸ hfile v x (Option.some.inj hg)
      · exact h.layout.files q v hq (fileAt_eq_some.2 ⟨x, hg⟩) }

theorem part_made (hp : PartAt d k (i + 1) l) (hc : fs'.cwd = fs.cwd)
    (hu : fs.tree.Updated fs'.tree l (some newDir)) : Advances D d keys fs fs' :=
  .of_updated (h.of_updated hc hp.below hu (fun _ => by simp [newDir])
    (fun _ => Or.inl ⟨k, _, hp⟩) fun _ _ he => by simp [newDir] at he) hu (fun _ => rfl)
    fun _ _ _ _ hl' => hl'.not_suffix_part hp

/-- A step that makes a key's home. -/
theorem home_made (hl : HomeAt d k i l) (hk : k ∉ keys) (hc : fs'.cwd = fs.cwd)
    (hu : fs.tree.Updated fs'.tree l (some newDir)) : Advances D d keys fs fs' :=
  .of_updated (h.of_updated hc hl.below hu (fun _ => by simp [newDir])
    (fun _ => Or.inr ⟨k, _, hl⟩) fun _ _ he => by simp [newDir] at he) hu (fun _ => rfl)
    fun k' hk' i' l' hl' hs => hk <| by
      obtain rfl := hl'.eq_of_suffix hl hs
      rwa [(hl.inj hl').1]

/-- A step that writes an attribute's file. -/
theorem attr_written (hl : HomeAt d k i l) (hk : k ∉ keys) (hc : fs'.cwd = fs.cwd)
    (hu : fs.tree.Updated fs'.tree (a.name :: l) (some (.file v x))) :
    Advances D d keys fs fs' :=
  .of_updated (h.of_updated hc (hl.below.cons a.name) hu (fun _ => by simp)
    (fun hd => by simp [Node.isDir] at hd) fun _ _ _ => ⟨a, k, i, l, rfl, hl⟩) hu
    (fun hd => by simp [h.layout.not_isDir_attr hl.below.1] at hd)
    fun k' hk' i' l' hl' hs => hk <| by
      rcases List.suffix_cons_iff.1 hs with he | hs
      · obtain ⟨r, p, -, hvis, -, rfl⟩ := hl'.exists_part
        rw [List.cons.injEq] at he
        exact absurd (he.1 ▸ a.head?_name) hvis
      · obtain rfl := hl'.eq_of_suffix hl hs
        rwa [(hl.inj hl').1]

end Store

theorem isDir_made {q : Loc} (hu : fs.tree.Updated fs'.tree l (some newDir)) :
    fs'.tree.isDir q ↔ fs.tree.isDir q ∨ q = l := by
  rw [FileTree.isDir, hu q]
  split_ifs with hq
  · simp [hq, newDir, Node.isDir]
  · simp [hq, FileTree.isDir]

theorem isDir_of_written {q : Loc} (hu : fs.tree.Updated fs'.tree l (some (.file v x)))
    (hd : fs'.tree.isDir q) : fs.tree.isDir q := by
  rw [FileTree.isDir, hu] at hd
  split_ifs at hd
  · simp [Node.isDir] at hd
  · exact hd

/-! ## Counting -/

/-- A new directory raises the count of its parent alone, and only when it is visible. -/
theorem visibleCount_made (hu : fs.tree.Updated fs'.tree (c :: p) (some newDir)) (q : Loc) :
    visibleCount fs'.tree q ≤
      visibleCount fs.tree q + if q = p ∧ c.head? ≠ some dot then 1 else 0 := by
  have hdir : ∀ e, e.head? ≠ some dot → fs'.tree.isDir (e :: q) →
      fs.tree.isDir (e :: q) ∨ (q = p ∧ e = c) := by
    intro e _ hd
    refine ((isDir_made hu).1 hd).imp_right fun hq => ?_
    rw [List.cons.injEq] at hq
    exact ⟨hq.2, hq.1⟩
  split_ifs with hq
  · exact visibleCount_le_succ (r := c) fun e he hd => (hdir e he hd).imp_right And.right
  · refine visibleCount_mono fun e he hd => (hdir e he hd).resolve_right ?_
    rintro ⟨rfl, rfl⟩
    exact hq ⟨rfl, he⟩

theorem visibleCount_written (hu : fs.tree.Updated fs'.tree l (some (.file v x))) (q : Loc) :
    visibleCount fs'.tree q ≤ visibleCount fs.tree q :=
  visibleCount_mono fun _ _ hd => isDir_of_written hu hd

end

/-! ## What the client of a key knows -/

/-- The levels before a place of the key are full. -/
def Placed (t : FileTree Xattrs) (m : ℕ) (d : Loc) (k : Key) : Prop :=
  ∀ i l, HomeAt d k i l → t.isDir l → FindVisits t m d k.val i

/-- The key is at no other level. -/
def OnlyAt (t : FileTree Xattrs) (d : Loc) (k : Key) (i : ℕ) : Prop :=
  ∀ j l, HomeAt d k j l → t.isDir l → j = i

/-- The keys are placed and have these attributes. -/
structure Kept (m : ℕ) (d : Loc) (keys : Set Key) (e : DotFreeKey → Attr → Option Bytes)
    (t : FileTree Xattrs) : Prop where
  placed : ∀ k : DotFreeKey, k.toKey ∈ keys → Placed t m d k.toKey
  values : ∀ k : DotFreeKey, k.toKey ∈ keys → ∀ (a : Attr) v,
    e k a = some v ↔ Holds t d k.toKey a v

/-- An attribute of a key has another value. -/
def setValue (e : DotFreeKey → Attr → Option Bytes) (k : DotFreeKey) (a : Attr) (v : Bytes) :
    DotFreeKey → Attr → Option Bytes :=
  fun k' a' => if k' = k ∧ a'.name = a.name then some v else e k' a'

section

variable {D : Bytes} {d l : Loc} {keys : Set Key} {fs fs' : FileSystem}
  {t t' : FileTree Xattrs} {k : DotFreeKey} {i m : ℕ} {a : Attr} {v w : Bytes} {x : Xattrs}
  {e : DotFreeKey → Attr → Option Bytes}

theorem setValue_setValue : setValue (setValue e k a v) k a w = setValue e k a w := by
  funext k' a'
  simp only [setValue]
  split_ifs <;> rfl

theorem Kept.congr {e' : DotFreeKey → Attr → Option Bytes} (h : Kept m d keys e t)
    (he : ∀ k : DotFreeKey, k.toKey ∈ keys → ∀ a, e k a = e' k a) : Kept m d keys e' t :=
  ⟨h.placed, fun k hk a v => by rw [← he k hk, h.values k hk]⟩

theorem Full.exists_homeAt (h : Full t m d k.val i) : ∃ l, HomeAt d k.toKey i l := by
  obtain ⟨ns, r, hl, hr, -⟩ := h
  exact ⟨_, ns, r, hl, (DotFreeKey.level hl).1, hr, (DotFreeKey.level hl).2, rfl⟩

/-- A full level stays full while the key is not put there. -/
theorem Full.grow (h : Full t m d k.val i) (hm : ∀ q, t.isDir q → t'.isDir q)
    (hk : ∀ l, HomeAt d k.toKey i l → t'.isDir l → t.isDir l) : Full t' m d k.val i := by
  obtain ⟨l, hl⟩ := h.exists_homeAt
  rw [full_iff_homeAt hl] at h ⊢
  obtain ⟨hd, hc, hno⟩ := h
  refine ⟨hm _ hd, hc.trans (visibleCount_mono fun _ _ => hm _), ?_⟩
  by_contra hd'
  rw [hk l hl (by simpa using hd')] at hno
  simp at hno

theorem Untouched.isDir_iff (h : Untouched d keys t t') (hk : k.toKey ∈ keys)
    (hl : HomeAt d k.toKey i l) : t'.isDir l ↔ t.isDir l := by
  rw [FileTree.isDir, h k.toKey hk i l hl l (List.suffix_refl l), FileTree.isDir]

theorem Advances.full (h : Advances D d keys fs fs') (hk : k.toKey ∈ keys)
    (hf : Full fs.tree m d k.val i) : Full fs'.tree m d k.val i :=
  hf.grow h.mono fun _ hl => (h.untouched.isDir_iff hk hl).1

theorem Advances.findVisits (h : Advances D d keys fs fs') (hk : k.toKey ∈ keys)
    (hf : FindVisits fs.tree m d k.val i) : FindVisits fs'.tree m d k.val i :=
  fun j hj => h.full hk (hf j hj)

/-- The place of the key itself is made, behind levels that are full. -/
theorem findVisits_home_made (hl : HomeAt d k.toKey i l)
    (hu : fs.tree.Updated fs'.tree l (some newDir)) (hf : FindVisits fs.tree m d k.val i) :
    FindVisits fs'.tree m d k.val i := by
  intro j hj
  refine (hf j hj).grow (fun q hd => (isDir_made hu).2 (Or.inl hd)) fun q hq hd =>
    ((isDir_made hu).1 hd).resolve_right ?_
  rintro rfl
  exact hj.ne (hq.inj hl).2

theorem OnlyAt.home_made (h : OnlyAt fs.tree d k.toKey i) (hl : HomeAt d k.toKey i l)
    (hu : fs.tree.Updated fs'.tree l (some newDir)) : OnlyAt fs'.tree d k.toKey i := by
  intro j l' hl' hd
  rcases (isDir_made hu).1 hd with hd' | rfl
  · exact h j l' hl' hd'
  · exact (hl'.inj hl).2

theorem Advances.onlyAt (h : Advances D d keys fs fs') (hk : k.toKey ∈ keys)
    (ho : OnlyAt fs.tree d k.toKey i) : OnlyAt fs'.tree d k.toKey i :=
  fun j l hl hd => ho j l hl ((h.untouched.isDir_iff hk hl).1 hd)

theorem Advances.placed (h : Advances D d keys fs fs') (hk : k.toKey ∈ keys)
    (hp : Placed fs.tree m d k.toKey) : Placed fs'.tree m d k.toKey :=
  fun i l hl hd => h.findVisits hk (hp i l hl ((h.untouched.isDir_iff hk hl).1 hd))

theorem Advances.holds_iff (h : Advances D d keys fs fs') (hk : k.toKey ∈ keys) :
    Holds fs'.tree d k.toKey a v ↔ Holds fs.tree d k.toKey a v := by
  refine exists_congr fun i => exists_congr fun l => and_congr_right fun hl => ?_
  rw [fileAt, h.untouched k.toKey hk i l hl _ (List.suffix_cons _ _), fileAt]

theorem Advances.kept (h : Advances D d keys fs fs') (hkept : Kept m d keys e fs.tree) :
    Kept m d keys e fs'.tree :=
  ⟨fun k hk => h.placed hk (hkept.placed k hk), fun k hk a v =>
    (hkept.values k hk a v).trans (h.holds_iff hk).symm⟩

/-- A placed key has one home. -/
theorem Placed.homeUnique (h : Placed t m d k.toKey) : HomeUnique t d k.toKey := by
  have hle : ∀ i j l l', HomeAt d k.toKey i l → HomeAt d k.toKey j l' → t.isDir l → t.isDir l' →
      ¬i < j := by
    intro i j l l' hl hl' hd hd' hij
    have hno := ((full_iff_homeAt hl).1 (h j l' hl' hd' i hij)).2.2
    rw [hd] at hno
    simp at hno
  intro i j l l' hl hl' hd hd'
  exact le_antisymm (not_lt.1 (hle j i l' l hl' hl hd' hd)) (not_lt.1 (hle i j l l' hl hl' hd hd'))

/-- In a store that was put to, keys are placed. -/
theorem Grown.placed {B : Base} (h : Grown B fs) (k : DotFreeKey) :
    Placed fs.tree B.maxPageCount B.loc k.toKey := by
  intro i l hl hd j hj
  obtain ⟨l', hl'⟩ := DotFreeKey.exists_home hl.partAt_tail hj
  obtain ⟨q, hq, hs⟩ := hl.partAt_tail.suffix_of_le (Nat.succ_le_of_lt hj)
  have hdq : fs.tree.isDir q := isDir_of_suffix hs (isDir_tail hd)
  have hcount := h.full k.toKey j q hq hdq
  obtain ⟨c, q', -, -, hq', rfl⟩ := hq.succ
  obtain rfl := hl'.partAt_tail.unique hq'
  refine (full_iff_homeAt hl').2 ⟨isDir_of_cons hdq, hcount, ?_⟩
  by_contra hd'
  exact hj.ne (h.unique k.toKey j i l' l hl' hl (by simpa using hd') hd)

/-- A key is at the level its search for a place ends at. -/
theorem Placed.onlyAt (h : Placed t m d k.toKey) (hi : FindVisits t m d k.val i)
    (hstop : ¬Full t m d k.val i) : OnlyAt t d k.toKey i := by
  intro j l hl hd
  rcases Nat.lt_trichotomy j i with hlt | rfl | hgt
  · have hno := ((full_iff_homeAt hl).1 (hi j hlt)).2.2
    rw [hd] at hno
    simp at hno
  · rfl
  · exact absurd (h j l hl hd i hgt) hstop

namespace Kept

variable (h : Kept m d keys e fs.tree)

include h

/-- The other keys are kept. -/
theorem of_others {e' : DotFreeKey → Attr → Option Bytes}
    (hadv : Advances D d (keys \ {k.toKey}) fs fs')
    (hplaced : k.toKey ∈ keys → Placed fs'.tree m d k.toKey)
    (hvalues : k.toKey ∈ keys → ∀ (a : Attr) v, e' k a = some v ↔ Holds fs'.tree d k.toKey a v)
    (he : ∀ k' a, k' ≠ k → e' k' a = e k' a) : Kept m d keys e' fs'.tree := by
  have hmem : ∀ k' : DotFreeKey, k'.toKey ∈ keys → k' ≠ k → k'.toKey ∈ keys \ {k.toKey} :=
    fun k' hk' hne => ⟨hk', fun heq => hne (DotFreeKey.ext_key heq)⟩
  refine ⟨fun k' hk' => ?_, fun k' hk' a v => ?_⟩
  · by_cases hne : k' = k
    · exact hne ▸ hplaced (hne ▸ hk')
    · exact hadv.placed (hmem k' hk' hne) (h.placed k' hk')
  · by_cases hne : k' = k
    · exact hne ▸ hvalues (hne ▸ hk') a v
    · rw [he k' _ hne, h.values k' hk', hadv.holds_iff (hmem k' hk' hne)]

/-- A step that makes a key's home. -/
theorem home_made (hs : Store fs D d) (hl : HomeAt d k.toKey i l) (hc : fs'.cwd = fs.cwd)
    (hu : fs.tree.Updated fs'.tree l (some newDir))
    (hk : k.toKey ∈ keys → FindVisits fs.tree m d k.val i ∧ OnlyAt fs.tree d k.toKey i) :
    Kept m d keys e fs'.tree := by
  have hadv : Advances D d (keys \ {k.toKey}) fs fs' :=
    hs.home_made hl (fun hmem => hmem.2 rfl) hc hu
  refine h.of_others hadv (fun hmem j l' hl' hd => ?_) (fun hmem a v => ?_) fun _ _ _ => rfl
  · obtain ⟨hfull, honly⟩ := hk hmem
    obtain rfl := honly.home_made hl hu j l' hl' hd
    exact findVisits_home_made hl hu hfull
  · rw [h.values k hmem]
    refine exists_congr fun j => exists_congr fun l' => and_congr_right fun hl' => ?_
    rw [fileAt, fileAt, hu, if_neg]
    rintro rfl
    obtain ⟨r, p, -, hvis, -, he⟩ := hl.exists_part
    rw [List.cons.injEq] at he
    exact hvis (he.1 ▸ a.head?_name)

/-- A step that writes an attribute's file. -/
theorem attr_written (hs : Store fs D d) (hl : HomeAt d k.toKey i l)
    (hc : fs'.cwd = fs.cwd) (hu : fs.tree.Updated fs'.tree (a.name :: l) (some (.file v x))) :
    Kept m d keys (setValue e k a v) fs'.tree := by
  have hadv : Advances D d (keys \ {k.toKey}) fs fs' :=
    hs.attr_written hl (fun hmem => hmem.2 rfl) hc hu
  have hdir : ∀ q, fs'.tree.isDir q → fs.tree.isDir q := fun q => isDir_of_written hu
  have hplaced : k.toKey ∈ keys → Placed fs'.tree m d k.toKey := fun hmem j l' hl' hd' j' hj' =>
    (h.placed k hmem j l' hl' (hdir l' hd') j' hj').grow hadv.mono fun q _ => hdir q
  refine h.of_others hadv hplaced (fun hmem a' w => ?_) fun k' n hne => by simp [setValue, hne]
  by_cases ha : a'.name = a.name
  · have hfile : fs'.tree.fileAt (a.name :: l) = some v := by rw [fileAt, hu, if_pos rfl]
    rw [setValue, if_pos ⟨rfl, ha⟩, Option.some.injEq]
    constructor
    · rintro rfl
      exact ⟨i, l, hl, ha ▸ hfile⟩
    · rintro ⟨j, l', hl', hw⟩
      obtain rfl := (hplaced hmem).homeUnique j i l' l hl' hl (isDir_of_fileAt hw)
        (isDir_of_fileAt hfile)
      rw [hl'.unique hl, ha, hfile] at hw
      exact Option.some.inj hw
  · rw [setValue, if_neg fun hc => ha hc.2, h.values k hmem]
    refine exists_congr fun j => exists_congr fun l' => and_congr_right fun hl' => ?_
    rw [fileAt, fileAt, hu, if_neg]
    intro he
    rw [List.cons.injEq] at he
    exact ha he.1

end Kept

end

end Idb
