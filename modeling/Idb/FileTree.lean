import Mathlib.Data.List.AList
import Mathlib.Tactic

/-!
# Trees of named files

A finite tree of directories, regular files and symbolic links, as a POSIX file
system holds it. A place in the tree (`Loc`) is the list of names on the way up to
the root, innermost first, so that the parent of `c :: p` is `p`. A tree carries the
facts that its root is a directory and that every other node has a valid name and sits
in a directory; hence no node has a missing ancestor and a regular file holds nothing.

`FileTree.get` is the view everything else is stated in : `set` and `erase` are
described by what `get` reads after them, and directory listings (`children`,
`subdirs`) by membership. Nodes carry metadata of an arbitrary type `X`.
-/

namespace Posix

/-- A C string without its terminator. -/
abbrev Bytes := List UInt8

/-- The bytes that a shortened string keeps. -/
theorem getD_take {s : Bytes} {n i : ℕ} (h : i < n) : (s.take n).getD i 0 = s.getD i 0 := by
  rw [List.getD_eq_getElem?_getD, List.getD_eq_getElem?_getD, List.getElem?_take_of_lt h]

/-- One component of a path. -/
abbrev Name := Bytes

/-- The character `/`. -/
def slash : UInt8 :=
  47

/-- The character `.`. -/
def dot : UInt8 :=
  46

/-- A name that is looked up in its directory : neither empty nor `.` nor `..`. -/
def Plain (c : Name) : Prop :=
  c ≠ [] ∧ c ≠ [dot] ∧ c ≠ [dot, dot]

/-- A name that a directory entry can have. -/
def ValidName (c : Name) : Prop :=
  Plain c ∧ slash ∉ c ∧ 0 ∉ c

/-- One component of a path. -/
def Component (c : Name) : Prop :=
  c ≠ [] ∧ slash ∉ c ∧ 0 ∉ c

theorem ValidName.component {c : Name} (h : ValidName c) : Component c :=
  ⟨h.1.1, h.2⟩

theorem Component.validName {c : Name} (h : Component c) (hp : Plain c) : ValidName c :=
  ⟨hp, h.2⟩

instance : DecidablePred Plain := fun c =>
  inferInstanceAs (Decidable (c ≠ [] ∧ c ≠ [dot] ∧ c ≠ [dot, dot]))

instance : DecidablePred Component := fun c =>
  inferInstanceAs (Decidable (c ≠ [] ∧ slash ∉ c ∧ 0 ∉ c))

instance : DecidablePred ValidName := fun c =>
  inferInstanceAs (Decidable (Plain c ∧ slash ∉ c ∧ 0 ∉ c))

/-- A place in a tree : the names up to the root, innermost first. -/
abbrev Loc := List Name

/-- What a place holds. Directories and regular files carry metadata. -/
inductive Node (X : Type) where
  | dir (x : X)
  | file (content : Bytes) (x : X)
  | link (target : Bytes)

namespace Node

variable {X : Type}

/-- There is a directory. -/
def isDir : Node X → Bool
  | dir _ => true
  | _ => false

theorem isDir_iff {n : Node X} : n.isDir ↔ ∃ x, n = dir x := by
  cases n <;> simp [isDir]

end Node

/-- `l` lies strictly below `d`. -/
def Below (d l : Loc) : Prop :=
  d <:+ l ∧ l ≠ d

instance (d l : Loc) : Decidable (Below d l) :=
  inferInstanceAs (Decidable (_ ∧ _))

theorem below_cons {d l : Loc} (h : d <:+ l) (c : Name) : Below d (c :: l) := by
  refine ⟨h.trans (List.suffix_cons c l), fun he => ?_⟩
  have := h.length_le
  rw [← he] at this
  simp at this

theorem Below.cons {d l : Loc} (h : Below d l) (c : Name) : Below d (c :: l) :=
  below_cons h.1 c

theorem below_cons_iff {d l : Loc} {c : Name} : Below d (c :: l) ↔ d <:+ l := by
  refine ⟨fun h => ?_, fun h => below_cons h c⟩
  rcases List.suffix_cons_iff.1 h.1 with he | hs
  · exact absurd he.symm h.2
  · exact hs

theorem Below.trans_suffix {d e l : Loc} (h : Below e l) (hd : d <:+ e) : Below d l := by
  obtain ⟨⟨m, rfl⟩, hne⟩ := h
  cases m with
  | nil => exact absurd rfl hne
  | cons c m => exact below_cons (hd.trans (List.suffix_append m e)) c

theorem Below.suffix {d l m : Loc} (h : Below d l) (hm : l <:+ m) : Below d m := by
  by_cases he : m = l
  · exact he ▸ h
  · exact (show Below l m from ⟨hm, he⟩).trans_suffix h.1

theorem not_below_self (d : Loc) : ¬Below d d :=
  fun h => h.2 rfl

/-- A place strictly below `d` is `d` extended by a nonempty list of names. -/
theorem below_iff_exists {d l : Loc} : Below d l ↔ ∃ c m, l = c :: (m ++ d) := by
  constructor
  · rintro ⟨⟨m, rfl⟩, hne⟩
    cases m with
    | nil => exact absurd rfl hne
    | cons c m => exact ⟨c, m, rfl⟩
  · rintro ⟨c, m, rfl⟩
    exact below_cons (List.suffix_append m d) c

/-- The way down from `d` to a place below it starts with an entry of `d`. -/
theorem Below.exists_entry {d l : Loc} (h : Below d l) : ∃ c, c :: d <:+ l := by
  obtain ⟨⟨m, rfl⟩, hne⟩ := h
  obtain ⟨r, c, rfl⟩ := (List.eq_nil_or_concat' m).resolve_left fun he => hne (by simp [he])
  exact ⟨c, r, by simp⟩

/-- A finite tree of nodes : the root is a directory, and every other node has a valid
name and sits in a directory. -/
structure FileTree (X : Type) where
  nodes : AList fun _ : Loc => Node X
  root : ∃ x, nodes.lookup [] = some (.dir x)
  named : ∀ c p n, nodes.lookup (c :: p) = some n → ValidName c
  parent : ∀ c p n, nodes.lookup (c :: p) = some n → ∃ x, nodes.lookup p = some (.dir x)

namespace FileTree

variable {X : Type} (t : FileTree X)

/-- The node at `l`. -/
def get (l : Loc) : Option (Node X) :=
  t.nodes.lookup l

/-- There is a directory. -/
def isDir (l : Loc) : Bool :=
  (t.get l).any Node.isDir

/-- The content of the regular file at `l`. -/
def fileAt (l : Loc) : Option Bytes :=
  match t.get l with
  | some (.file content _) => some content
  | _ => none

/-- No symbolic link sits at `l`. -/
def NoLink (l : Loc) : Prop :=
  ∀ target, t.get l ≠ some (.link target)

instance (l : Loc) : Decidable (t.NoLink l) :=
  match h : t.get l with
  | some (.link target) => .isFalse fun hno => hno target h
  | some (.dir _) => .isTrue fun _ => by simp [h]
  | some (.file _ _) => .isTrue fun _ => by simp [h]
  | none => .isTrue fun _ => by simp [h]

variable {t}

theorem isDir_iff {l : Loc} : t.isDir l ↔ ∃ x, t.get l = some (.dir x) := by
  simp only [isDir, Option.any_eq_true, Node.isDir_iff]
  exact ⟨fun ⟨_, h, x, hx⟩ => ⟨x, hx ▸ h⟩, fun ⟨x, h⟩ => ⟨_, h, x, rfl⟩⟩

theorem isDir_of_get {l : Loc} {x : X} (h : t.get l = some (.dir x)) : t.isDir l :=
  isDir_iff.2 ⟨x, h⟩

theorem fileAt_eq_some {l : Loc} {v : Bytes} :
    t.fileAt l = some v ↔ ∃ x, t.get l = some (.file v x) := by
  unfold fileAt
  cases h : t.get l with
  | none => simp
  | some n => cases n <;> simp

theorem get_ne_none_of_isDir {l : Loc} (h : t.isDir l) : t.get l ≠ none := by
  obtain ⟨x, hx⟩ := isDir_iff.1 h
  simp [hx]

theorem noLink_of_isDir {l : Loc} (h : t.isDir l) : t.NoLink l := by
  obtain ⟨x, hx⟩ := isDir_iff.1 h
  intro target
  simp [hx]

theorem fileAt_eq_none_of_isDir {l : Loc} (h : t.isDir l) : t.fileAt l = none := by
  obtain ⟨x, hx⟩ := isDir_iff.1 h
  simp [fileAt, hx]

variable (t) in
theorem isDir_nil : t.isDir [] :=
  isDir_iff.2 t.root

theorem isDir_of_get_cons {c : Name} {p : Loc} {n : Node X} (h : t.get (c :: p) = some n) :
    t.isDir p :=
  isDir_iff.2 (t.parent c p n h)

theorem validName_of_get {c : Name} {p : Loc} {n : Node X} (h : t.get (c :: p) = some n) :
    ValidName c :=
  t.named c p n h

theorem isDir_of_cons {c : Name} {p : Loc} (h : t.isDir (c :: p)) : t.isDir p := by
  obtain ⟨x, hx⟩ := isDir_iff.1 h
  exact isDir_of_get_cons hx

theorem isDir_tail {p : Loc} (h : t.isDir p) : t.isDir p.tail := by
  cases p with
  | nil => exact h
  | cons c p => exact isDir_of_cons h

theorem isDir_of_suffix {l m : Loc} (h : l <:+ m) (hm : t.isDir m) : t.isDir l := by
  obtain ⟨s, rfl⟩ := h
  induction s with
  | nil => exact hm
  | cons c s ih => exact ih (isDir_of_cons hm)

/-- Every place on the way down to a node is a directory. -/
theorem isDir_of_below {d l : Loc} {n : Node X} (h : Below d l) (hl : t.get l = some n) :
    t.isDir d := by
  obtain ⟨c, m, rfl⟩ := below_iff_exists.1 h
  exact isDir_of_suffix (List.suffix_append m d) (isDir_of_get_cons hl)

theorem get_ne_none_of_suffix {l m : Loc} (h : l <:+ m) (hm : t.get m ≠ none) :
    t.get l ≠ none := by
  by_cases he : m = l
  · exact he ▸ hm
  · obtain ⟨n, hn⟩ := Option.ne_none_iff_exists'.1 hm
    exact get_ne_none_of_isDir (isDir_of_below ⟨h, he⟩ hn)

theorem get_cons_eq_none {c : Name} {p : Loc} (h : t.isDir p = false) :
    t.get (c :: p) = none := by
  cases hg : t.get (c :: p) with
  | none => rfl
  | some n => simp [isDir_of_get_cons hg] at h

theorem get_eq_none_of_below {d l : Loc} (h : Below d l) (hd : t.isDir d = false) :
    t.get l = none := by
  cases hg : t.get l with
  | none => rfl
  | some n => simp [isDir_of_below h hg] at hd

/-- Nothing lies below a place without entries. -/
theorem get_eq_none_of_no_entry {d l : Loc} (h : ∀ c, t.get (c :: d) = none) (hl : Below d l) :
    t.get l = none := by
  by_contra hg
  obtain ⟨c, hc⟩ := hl.exists_entry
  exact get_ne_none_of_suffix hc hg (h c)

/-- The tree of the root alone. -/
theorem lookup_root (x : X) (l : Loc) :
    (AList.singleton (β := fun _ : Loc => Node X) [] (.dir x)).lookup l =
      if l = [] then some (.dir x) else none := by
  rw [← AList.insert_empty]
  split_ifs with h
  · rw [h, AList.lookup_insert]
  · rw [AList.lookup_insert_ne h, AList.lookup_empty]

/-- The tree of a root directory alone. -/
def bare (x : X) : FileTree X where
  nodes := AList.singleton [] (.dir x)
  root := ⟨x, by rw [lookup_root, if_pos rfl]⟩
  named c p n h := by simp [lookup_root] at h
  parent c p n h := by simp [lookup_root] at h

theorem get_bare (x : X) (l : Loc) : (bare x).get l = if l = [] then some (.dir x) else none :=
  lookup_root x l

/-- Directories at the places of a list. -/
def dirNodes (x : X) (ls : List Loc) : AList fun _ : Loc => Node X :=
  ls.foldr (fun l nodes => nodes.insert l (.dir x)) ∅

/-- The nodes made are directories, all at the places given. -/
theorem lookup_dirNodes (x : X) (ls : List Loc) (l : Loc) :
    (dirNodes x ls).lookup l = if l ∈ ls then some (.dir x) else none := by
  induction ls with
  | nil => rfl
  | cons m ls ih =>
    rw [dirNodes, List.foldr_cons, ← dirNodes]
    by_cases h : l = m
    · rw [h, AList.lookup_insert, if_pos List.mem_cons_self]
    · rw [AList.lookup_insert_ne h, ih]
      simp [h]

/-- What is found when all places on the way are directories too. -/
theorem lookup_tails (x : X) (ls : List Loc) (l : Loc) (n : Node X) :
    (dirNodes x (([] :: ls).flatMap List.tails)).lookup l = some n ↔
      .dir x = n ∧ (l = [] ∨ ∃ m ∈ ls, l <:+ m) := by
  have hmem : l ∈ ([] :: ls).flatMap List.tails ↔ l = [] ∨ ∃ m ∈ ls, l <:+ m := by
    simp [List.mem_flatMap]
  rw [lookup_dirNodes, ← hmem]
  split_ifs with h
  · simp only [Option.some.injEq, h, and_true]
  · simp only [h, and_false]

/-- The tree of directories at the places of a list and on the way to them. -/
def ofDirs (x : X) (ls : List Loc) (h : ∀ l ∈ ls, ∀ c ∈ l, ValidName c) : FileTree X where
  nodes := dirNodes x (([] :: ls).flatMap List.tails)
  root := ⟨x, (lookup_tails x ls [] _).2 ⟨rfl, Or.inl rfl⟩⟩
  named c p n hn := by
    obtain ⟨m, hm, hs⟩ := ((lookup_tails x ls _ n).1 hn).2.resolve_left (List.cons_ne_nil c p)
    exact h m hm c (hs.subset List.mem_cons_self)
  parent c p n hn := by
    obtain ⟨m, hm, hs⟩ := ((lookup_tails x ls _ n).1 hn).2.resolve_left (List.cons_ne_nil c p)
    exact ⟨x, (lookup_tails x ls p _).2 ⟨rfl, Or.inr ⟨m, hm, (List.suffix_cons c p).trans hs⟩⟩⟩

/-! ## Changing a tree -/

/-- The nodes that are not strictly below `d`. -/
def nodesOutside (t : FileTree X) (d : Loc) : AList fun _ : Loc => Node X :=
  ⟨t.nodes.entries.filter fun e => ¬Below d e.1, t.nodes.nodupKeys.sublist List.filter_sublist⟩

/-- The nodes outside `d` are those not below it. -/
theorem lookup_nodesOutside (t : FileTree X) (d l : Loc) :
    (t.nodesOutside d).lookup l = if Below d l then none else t.get l := by
  refine Option.ext fun n => ?_
  rw [← Option.mem_def, AList.mem_lookup_iff, nodesOutside, List.mem_filter]
  split_ifs with h
  · simp [h]
  · rw [← AList.mem_lookup_iff, FileTree.get]
    simp [h]

/-- The tree without what is strictly below `d`. -/
def prune (t : FileTree X) (d : Loc) : FileTree X where
  nodes := t.nodesOutside d
  root := by
    obtain ⟨x, hx⟩ := t.root
    refine ⟨x, ?_⟩
    rw [lookup_nodesOutside, if_neg fun h => h.2 (List.suffix_nil.1 h.1).symm]
    exact hx
  named c p n h := by
    rw [lookup_nodesOutside] at h
    split_ifs at h
    exact t.named c p n h
  parent c p n h := by
    rw [lookup_nodesOutside] at h
    split_ifs at h with hb
    obtain ⟨x, hx⟩ := t.parent c p n h
    refine ⟨x, ?_⟩
    rw [lookup_nodesOutside, if_neg fun hp => hb (hp.cons c)]
    exact hx

theorem get_prune (t : FileTree X) (d l : Loc) :
    (t.prune d).get l = if Below d l then none else t.get l :=
  lookup_nodesOutside t d l

/-- Put `n` at `l`. A directory is only ever replaced by a directory. -/
def set (t : FileTree X) (l : Loc) (n : Node X)
    (hp : ∀ c p, l = c :: p → ValidName c ∧ t.isDir p) (hd : t.isDir l → n.isDir) :
    FileTree X where
  nodes := t.nodes.insert l n
  root := by
    by_cases h : l = []
    · subst h
      obtain ⟨x, rfl⟩ := Node.isDir_iff.1 (hd t.isDir_nil)
      exact ⟨x, AList.lookup_insert _⟩
    · rw [AList.lookup_insert_ne fun he => h he.symm]
      exact t.root
  named c p m hm := by
    by_cases h : c :: p = l
    · exact (hp c p h.symm).1
    · rw [AList.lookup_insert_ne h] at hm
      exact t.named c p m hm
  parent c p m hm := by
    have hpd : t.isDir p := by
      by_cases h : c :: p = l
      · exact (hp c p h.symm).2
      · rw [AList.lookup_insert_ne h] at hm
        exact isDir_of_get_cons hm
    by_cases h : p = l
    · subst h
      obtain ⟨x, rfl⟩ := Node.isDir_iff.1 (hd hpd)
      exact ⟨x, AList.lookup_insert _⟩
    · rw [AList.lookup_insert_ne h]
      exact isDir_iff.1 hpd

/-- Remove the node at `l`, which is not the root and holds nothing. -/
def erase (t : FileTree X) (l : Loc) (hl : l ≠ []) (leaf : ∀ c, t.get (c :: l) = none) :
    FileTree X where
  nodes := t.nodes.erase l
  root := by
    rw [AList.lookup_erase_ne hl.symm]
    exact t.root
  named c p m hm := by
    by_cases h : c :: p = l
    · rw [h, AList.lookup_erase] at hm
      simp at hm
    · rw [AList.lookup_erase_ne h] at hm
      exact t.named c p m hm
  parent c p m hm := by
    by_cases h : c :: p = l
    · rw [h, AList.lookup_erase] at hm
      simp at hm
    · rw [AList.lookup_erase_ne h] at hm
      have hpl : p ≠ l := by
        rintro rfl
        have := leaf c
        simp [get, hm] at this
      rw [AList.lookup_erase_ne hpl]
      exact t.parent c p m hm

/-- The tree after one node is set. -/
theorem get_set {l : Loc} {n : Node X}
    (hp : ∀ c p, l = c :: p → ValidName c ∧ t.isDir p) (hd : t.isDir l → n.isDir) (m : Loc) :
    (t.set l n hp hd).get m = if m = l then some n else t.get m := by
  unfold get set
  split_ifs with h
  · rw [h, AList.lookup_insert]
  · rw [AList.lookup_insert_ne h]

theorem get_erase {l : Loc} (hl : l ≠ []) (leaf : ∀ c, t.get (c :: l) = none) (m : Loc) :
    (t.erase l hl leaf).get m = if m = l then none else t.get m := by
  unfold get erase
  split_ifs with h
  · rw [h, AList.lookup_erase]
  · rw [AList.lookup_erase_ne h]

/-! ## Listing a directory -/

variable (t) in
/-- The entries of the directory `p` : their names and nodes. -/
def children (p : Loc) : List (Name × Node X) :=
  t.nodes.entries.filterMap fun e =>
    match e.1 with
    | [] => none
    | c :: q => if q = p then some (c, e.2) else none

/-- The children of `p` are the nodes one name below it. -/
theorem mem_children {p : Loc} {c : Name} {n : Node X} :
    (c, n) ∈ t.children p ↔ t.get (c :: p) = some n := by
  have hlk : t.get (c :: p) = some n ↔
      (⟨c :: p, n⟩ : Sigma fun _ : Loc => Node X) ∈ t.nodes.entries :=
    AList.mem_lookup_iff
  rw [hlk]
  simp only [children, List.mem_filterMap]
  constructor
  · rintro ⟨⟨l, m⟩, hm, he⟩
    cases l with
    | nil => simp at he
    | cons d q =>
      by_cases hq : q = p
      · subst hq
        simp only [if_true, Option.some.injEq, Prod.mk.injEq] at he
        obtain ⟨rfl, rfl⟩ := he
        exact hm
      · simp [hq] at he
  · intro h
    exact ⟨_, h, by simp⟩

/-- Children have different names. -/
theorem nodup_children (p : Loc) : ((t.children p).map Prod.fst).Nodup := by
  have hkeys : (t.nodes.entries.map Sigma.fst).Nodup := t.nodes.nodupKeys
  unfold children
  generalize t.nodes.entries = es at hkeys
  induction es with
  | nil => simp
  | cons e es ih =>
    obtain ⟨l, m⟩ := e
    simp only [List.map_cons, List.nodup_cons] at hkeys
    rw [List.filterMap_cons]
    split
    · exact ih hkeys.2
    · next b hb =>
      rw [List.map_cons, List.nodup_cons]
      refine ⟨fun hmem => hkeys.1 ?_, ih hkeys.2⟩
      cases l with
      | nil => simp at hb
      | cons c q =>
        by_cases hq : q = p
        · subst hq
          simp only [if_true, Option.some.injEq] at hb
          subst hb
          obtain ⟨⟨c', n'⟩, hc', rfl⟩ := List.mem_map.1 hmem
          obtain ⟨⟨l', m'⟩, hl', he⟩ := List.mem_filterMap.1 hc'
          refine List.mem_map.2 ⟨_, hl', ?_⟩
          cases l' with
          | nil => simp at he
          | cons d q' =>
            by_cases hq' : q' = q
            · simp only [hq', if_true, Option.some.injEq, Prod.mk.injEq] at he
              simp [hq', he.1]
            · simp [hq'] at he
        · simp [hq] at hb

variable (t) in
/-- The names of the subdirectories of `p`. -/
def subdirs (p : Loc) : List Name :=
  ((t.children p).filter fun e => e.2.isDir).map Prod.fst

/-- The subdirectories are the children that are directories. -/
theorem mem_subdirs {p : Loc} {c : Name} : c ∈ t.subdirs p ↔ t.isDir (c :: p) := by
  simp only [subdirs, List.mem_map, List.mem_filter, isDir_iff, Node.isDir_iff]
  constructor
  · rintro ⟨⟨c', n⟩, ⟨hm, x, hx⟩, rfl⟩
    exact ⟨x, hx ▸ mem_children.1 hm⟩
  · rintro ⟨x, hx⟩
    exact ⟨(c, .dir x), ⟨mem_children.2 hx, x, rfl⟩, rfl⟩

theorem nodup_subdirs (p : Loc) : (t.subdirs p).Nodup :=
  (nodup_children p).sublist (List.filter_sublist.map _)

variable (t) in
/-- The number of nodes at or below `l`. -/
def sizeAt (l : Loc) : ℕ :=
  (t.nodes.keys.filter fun m => decide (l <:+ m)).length

theorem mem_keys {l : Loc} : l ∈ t.nodes.keys ↔ (t.get l).isSome := by
  rw [get, AList.lookup_isSome, AList.mem_keys]

/-- A tree with fewer nodes below `l` is smaller there. -/
theorem sizeAt_mono {t' : FileTree X} {l m : Loc} (hlm : l <:+ m)
    (h : ∀ k, m <:+ k → (t'.get k).isSome → (t.get k).isSome) : t'.sizeAt m ≤ t.sizeAt l := by
  refine (List.subperm_of_subset (t'.nodes.keys_nodup.filter _) fun k hk => ?_).length_le
  rw [List.mem_filter, decide_eq_true_iff] at hk ⊢
  exact ⟨mem_keys.2 (h k hk.2 (mem_keys.1 hk.1)), hlm.trans hk.2⟩

/-- The subtrees of different children lie apart in the subtree of their parent. -/
theorem sum_sizeAt_lt {cs : List Name} {p : Loc} (h : t.isDir p) (hcs : cs.Nodup) :
    (cs.map fun c => t.sizeAt (c :: p)).sum < t.sizeAt p := by
  have hkeys := t.nodes.keys_nodup
  have hnodup : (p :: cs.flatMap fun c =>
      t.nodes.keys.filter fun m => decide (c :: p <:+ m)).Nodup := by
    rw [List.nodup_cons, List.nodup_flatMap]
    refine ⟨fun hp => ?_, fun c _ => hkeys.filter _, hcs.imp fun {c c'} hne k hk hk' => ?_⟩
    · obtain ⟨c, -, hp⟩ := List.mem_flatMap.1 hp
      rw [List.mem_filter, decide_eq_true_iff] at hp
      have := hp.2.length_le
      simp at this
    · rw [List.mem_filter, decide_eq_true_iff] at hk hk'
      have := (List.suffix_of_suffix_length_le hk.2 hk'.2 (by simp)).eq_of_length_le (by simp)
      rw [List.cons.injEq] at this
      exact hne this.1
  have hsub : (p :: cs.flatMap fun c => t.nodes.keys.filter fun m => decide (c :: p <:+ m)) ⊆
      t.nodes.keys.filter fun m => decide (p <:+ m) := by
    intro k hk
    rw [List.mem_filter, decide_eq_true_iff]
    rcases List.mem_cons.1 hk with rfl | hk
    · obtain ⟨x, hx⟩ := isDir_iff.1 h
      exact ⟨mem_keys.2 (by simp [hx]), List.suffix_refl _⟩
    · obtain ⟨c, -, hk⟩ := List.mem_flatMap.1 hk
      rw [List.mem_filter, decide_eq_true_iff] at hk
      exact ⟨hk.1, (List.suffix_cons c p).trans hk.2⟩
  have := (List.subperm_of_subset hnodup hsub).length_le
  rw [List.length_cons, List.length_flatMap] at this
  exact this

/-- The subtree of a child is smaller than that of its parent. -/
theorem sizeAt_cons_lt {c : Name} {p : Loc} (h : t.isDir p) : t.sizeAt (c :: p) < t.sizeAt p := by
  simpa using sum_sizeAt_lt h (List.nodup_singleton c)

theorem sizeAt_le (l : Loc) : t.sizeAt l ≤ t.nodes.keys.length :=
  List.length_filter_le _ _

theorem sizeAt_pos {l : Loc} {n : Node X} (h : t.get l = some n) : 0 < t.sizeAt l := by
  refine List.length_pos_of_mem (a := l) ?_
  rw [List.mem_filter, decide_eq_true_iff]
  exact ⟨mem_keys.2 (by simp [h]), List.suffix_refl _⟩

theorem sizeAt_pos_of_isDir {l : Loc} (h : t.isDir l) : 0 < t.sizeAt l := by
  obtain ⟨x, hx⟩ := isDir_iff.1 h
  exact sizeAt_pos hx

/-- No directory is deeper than there are nodes. -/
theorem length_le_of_isDir {l : Loc} (h : t.isDir l) : l.length ≤ t.nodes.keys.length := by
  have hsize : l.length + t.sizeAt l ≤ t.sizeAt [] := by
    induction l with
    | nil => simp
    | cons c l ih =>
      have hlt := sizeAt_cons_lt (c := c) (isDir_of_cons h)
      have := ih (isDir_of_cons h)
      rw [List.length_cons]
      omega
  exact (Nat.le_add_right _ _).trans (hsize.trans (sizeAt_le []))

end FileTree

end Posix
