import Idb.Subkeys
import Idb.KeyDelete

/-!
# What a listing finds

The walk over subkeys goes through the visible directories of a partition and then into
its hidden ones, spelling the key as it goes (`listing`). In a store this meets every
key directory once, at its place (`mem_listing`, `nodup_listing`). The count of keys
left, which starts at 0 for no limit and becomes `0 - result` of `size_t` after the
first level, never stops a walk that finds fewer than `2 ^ 64` keys (`Room`).
-/

namespace Idb

open Posix FileSystem FileTree

/-- The keys the walk meets in the directory `p` and in the partition directories below
it, when the partitions on the way to `p` spell `part`. -/
def listing (host : Host) (t : FileTree Xattrs) : ℕ → Loc → Bytes → List Bytes
  | 0, _, _ => []
  | fuel + 1, p, part =>
    (visibleDirs host t p).map (part ++ ·) ++
      (hiddenDirs host t p).flatMap fun n => listing host t fuel (n :: p) (part ++ n.tail)

section

variable {t : FileTree Xattrs} {d l p : Loc} {k : Key} {i : ℕ} {c : Name} {part : Bytes}

/-! ## The way to a key -/

/-- The names of partition directories lead from `d` to `p` and spell `part`. -/
def Spells (d p : Loc) (part : Bytes) : Prop :=
  ∃ ns : List Name, (∀ n ∈ ns, n.head? = some dot) ∧ p = ns.reverse ++ d ∧
    part = ns.flatMap List.tail

theorem spells_base (d : Loc) : Spells d d [] :=
  ⟨[], by simp, rfl, rfl⟩

/-- A partition below adds its character to the part spelled. -/
theorem Spells.cons (h : Spells d p part) (hc : c.head? = some dot) :
    Spells d (c :: p) (part ++ c.tail) := by
  obtain ⟨ns, hns, rfl, rfl⟩ := h
  refine ⟨ns ++ [c], fun n hn => ?_, by simp, by simp⟩
  rcases List.mem_append.1 hn with hn | hn
  · exact hns n hn
  · rw [List.mem_singleton.1 hn]
    exact hc

theorem Spells.suffix (h : Spells d p part) : d <:+ p := by
  obtain ⟨ns, -, rfl, -⟩ := h
  exact List.suffix_append _ _

/-- The names on the way to a key spell it. -/
theorem Spells.key (h : Spells d p part) (hl : HomeAt d k i (c :: p)) : k.val = part ++ c := by
  obtain ⟨ns, -, rfl, rfl⟩ := h
  obtain ⟨ns', r, hl, -, -, -, he⟩ := hl
  rw [List.cons.injEq, List.append_cancel_right_eq, List.reverse_inj] at he
  rw [levelAt_spell hl, he.1, he.2]

/-- A key's home is not the directory walked. -/
theorem Spells.ne_home (h : Spells d p part) (hl : HomeAt d k i l) : l ≠ p := by
  rintro rfl
  obtain ⟨ns, hns, rfl, -⟩ := h
  rcases List.eq_nil_or_concat' ns with rfl | ⟨ns, c, rfl⟩
  · exact not_below_self d hl.below
  · obtain ⟨r, q, -, hv, -, he⟩ := hl.exists_part
    rw [List.reverse_append, List.reverse_singleton, List.singleton_append, List.cons_append,
      List.cons.injEq] at he
    exact hv (he.1 ▸ hns c (by simp))

/-- From a place on the way to a key, the next name is the key's last one or that of a
partition directory. -/
theorem HomeAt.next (h : HomeAt d k i l) (hd : d <:+ p) (hs : p <:+ l) (hne : l ≠ p) :
    (∃ r, r.head? ≠ some dot ∧ l = r :: p) ∨ ∃ n, n.head? = some dot ∧ n :: p <:+ l := by
  obtain ⟨n, hn⟩ := Below.exists_entry ⟨hs, hne⟩
  rcases h.of_suffix (hd.trans (List.suffix_cons n p)) hn with he | ⟨j, -, hp⟩
  · obtain ⟨r, q, -, hv, -, rfl⟩ := h.exists_part
    rw [List.cons.injEq] at he
    exact Or.inl ⟨r, hv, by rw [he.2]⟩
  · obtain ⟨j, rfl⟩ := hp.exists_succ (below_cons hd n)
    obtain ⟨c, q, -, -, -, he⟩ := hp.succ
    rw [List.cons.injEq] at he
    exact Or.inr ⟨n, he.1 ▸ rfl, hn⟩

/-- A visible directory in a partition is the place of a key. -/
theorem DirsOfKeys.home_of_visible (h : DirsOfKeys t d) (hs : d <:+ p) (hd : t.isDir (c :: p))
    (hc : c.head? ≠ some dot) : ∃ k i, HomeAt d k i (c :: p) := by
  rcases h _ (below_cons hs c) hd with ⟨k, i, hp⟩ | hhome
  · obtain ⟨i, rfl⟩ := hp.exists_succ (below_cons hs c)
    obtain ⟨c', q, -, -, -, he⟩ := hp.succ
    rw [List.cons.injEq] at he
    exact absurd (he.1 ▸ rfl) hc
  · exact hhome

/-- A hidden one is a partition directory. -/
theorem DirsOfKeys.part_of_hidden (h : DirsOfKeys t d) (hs : d <:+ p) (hd : t.isDir (c :: p))
    (hc : c.head? = some dot) : ∃ k i, PartAt d k (i + 1) (c :: p) := by
  rcases h _ (below_cons hs c) hd with ⟨k, i, hp⟩ | ⟨k, i, hl⟩
  · obtain ⟨i, rfl⟩ := hp.exists_succ (below_cons hs c)
    exact ⟨k, i, hp⟩
  · obtain ⟨r, q, -, hv, -, he⟩ := hl.exists_part
    rw [List.cons.injEq] at he
    exact absurd (he.1 ▸ hc) hv

/-! ## The keys listed -/

variable {host : Host} {fuel : ℕ} {x : Bytes}

theorem mem_listing_succ : x ∈ listing host t (fuel + 1) p part ↔
    (∃ c, t.isDir (c :: p) ∧ c.head? ≠ some dot ∧ part ++ c = x) ∨
      ∃ n, (t.isDir (n :: p) ∧ n.head? = some dot) ∧
        x ∈ listing host t fuel (n :: p) (part ++ n.tail) := by
  rw [listing, List.mem_append, List.mem_map, List.mem_flatMap]
  simp only [mem_visibleDirs, mem_hiddenDirs, and_assoc]

/-- All levels of a directory are listed, if there are as many as nodes. -/
theorem listing_of_sizeAt {n m : ℕ} (hn : t.sizeAt p ≤ n) (hm : t.sizeAt p ≤ m) (part : Bytes) :
    listing host t n p part = listing host t m p part := by
  have hnil : ∀ {p : Loc} (k : ℕ) (part : Bytes), ¬t.isDir p → listing host t k p part = [] := by
    intro p k part hd
    have hchild : ∀ c, ¬t.isDir (c :: p) := fun c hc => hd (isDir_tail hc)
    cases k with
    | zero => rfl
    | succ k =>
      rw [listing, List.append_eq_nil_iff, List.map_eq_nil_iff, List.flatMap_eq_nil_iff,
        List.eq_nil_iff_forall_not_mem]
      exact ⟨fun c hc => hchild c (mem_visibleDirs.1 hc).1,
        fun c hc => absurd (mem_hiddenDirs.1 hc).1 (hchild c)⟩
  induction n generalizing m p part with
  | zero =>
    have hd : ¬t.isDir p := fun hd => by
      have := sizeAt_pos_of_isDir hd
      omega
    rw [hnil 0 part hd, hnil m part hd]
  | succ n ih =>
    by_cases hd : t.isDir p
    · have hpos := sizeAt_pos_of_isDir hd
      obtain ⟨m, rfl⟩ : ∃ k, m = k + 1 := ⟨m - 1, by omega⟩
      rw [listing, listing]
      refine congrArg _ (List.flatMap_congr fun c _ => ?_)
      have hlt := sizeAt_cons_lt (c := c) hd
      exact ih (by omega) (by omega) _
    · rw [hnil _ part hd, hnil _ part hd]

/-- The fuel of a walk is enough for a tree without links. -/
theorem sizeAt_le_walkFuel (t : FileTree Xattrs) (p : Loc) (aPattern : Option Bytes) :
    t.sizeAt p ≤ walkFuel t aPattern := by
  have hle := sizeAt_le (t := t) p
  have hmul := Nat.le_mul_of_pos_left (t.nodes.keys.length + 2)
    (show 0 < symloopMax + 1 + (aPattern.getD []).length by omega)
  rw [walkFuel]
  omega

theorem listing_walkFuel (aPattern : Option Bytes) (p : Loc) (part : Bytes) :
    listing host t (walkFuel t aPattern) p part =
      listing host t (t.nodes.keys.length + 2) p part :=
  listing_of_sizeAt (sizeAt_le_walkFuel t p aPattern)
    ((sizeAt_le p).trans (Nat.le_add_right _ _)) part

/-- The keys listed are those that have a place. -/
theorem mem_listing (h : DirsOfKeys t d) (hp : Spells d p part) (hd : t.isDir p)
    (hf : t.sizeAt p ≤ fuel) : x ∈ listing host t fuel p part ↔
      ∃ k i l, HomeAt d k i l ∧ t.isDir l ∧ p <:+ l ∧ k.val = x := by
  induction fuel generalizing p part with
  | zero =>
    have := sizeAt_pos_of_isDir hd
    omega
  | succ fuel ih =>
    have hsize : ∀ n, t.sizeAt (n :: p) ≤ fuel := fun n => by
      have := sizeAt_cons_lt (c := n) hd
      omega
    rw [mem_listing_succ]
    constructor
    · rintro (⟨c, hdc, hc, rfl⟩ | ⟨n, ⟨hdn, hn⟩, hx⟩)
      · obtain ⟨k, i, hl⟩ := h.home_of_visible hp.suffix hdc hc
        exact ⟨k, i, _, hl, hdc, List.suffix_cons _ _, hp.key hl⟩
      · obtain ⟨k, i, l, hl, hdl, hsuf, hk⟩ := (ih (hp.cons hn) hdn (hsize n)).1 hx
        exact ⟨k, i, l, hl, hdl, (List.suffix_cons _ _).trans hsuf, hk⟩
    · rintro ⟨k, i, l, hl, hdl, hsuf, rfl⟩
      rcases hl.next hp.suffix hsuf (hp.ne_home hl) with ⟨r, hr, rfl⟩ | ⟨n, hn, hsuf'⟩
      · exact Or.inl ⟨r, hdl, hr, (hp.key hl).symm⟩
      · have hdn := isDir_of_suffix hsuf' hdl
        exact Or.inr ⟨n, ⟨hdn, hn⟩,
          (ih (hp.cons hn) hdn (hsize n)).2 ⟨k, i, l, hl, hdl, hsuf', rfl⟩⟩

/-- No key is listed twice. -/
theorem nodup_listing (h : DirsOfKeys t d) (hu : ∀ k, HomeUnique t d k) (hp : Spells d p part)
    (hd : t.isDir p) (hf : t.sizeAt p ≤ fuel) : (listing host t fuel p part).Nodup := by
  induction fuel generalizing p part with
  | zero => simp [listing]
  | succ fuel ih =>
    have hsize : ∀ n, t.sizeAt (n :: p) ≤ fuel := fun n => by
      have := sizeAt_cons_lt (c := n) hd
      omega
    -- What is listed in a partition lies there, and one key lies in one place.
    have hmem : ∀ n ∈ hiddenDirs host t p, ∀ x,
        x ∈ listing host t fuel (n :: p) (part ++ n.tail) →
          ∃ k i l, HomeAt d k i l ∧ t.isDir l ∧ n :: p <:+ l ∧ k.val = x := by
      intro n hn x hx
      obtain ⟨hdn, hn⟩ := mem_hiddenDirs.1 hn
      exact (mem_listing h (hp.cons hn) hdn (hsize n)).1 hx
    have hsame : ∀ k i l k' i' l', HomeAt d k i l → HomeAt d k' i' l' → t.isDir l → t.isDir l' →
        k.val = k'.val → l = l' := by
      intro k i l k' i' l' hl hl' hdl hdl' hk
      obtain rfl := Key.ext_val hk
      obtain rfl := hu k i i' l l' hl hl' hdl hdl'
      exact hl.unique hl'
    rw [listing, List.nodup_append]
    refine ⟨nodup_visibleDirs.map (List.append_right_injective _), ?_, ?_⟩
    · rw [List.nodup_flatMap]
      refine ⟨fun n hn => ?_, nodup_hiddenDirs.imp_of_mem fun {n n'} hn hn' hne x hx hx' => ?_⟩
      · obtain ⟨hdn, hn⟩ := mem_hiddenDirs.1 hn
        exact ih (hp.cons hn) hdn (hsize n)
      · obtain ⟨k, i, l, hl, hdl, hsuf, rfl⟩ := hmem n hn x hx
        obtain ⟨k', i', l', hl', hdl', hsuf', hk⟩ := hmem n' hn' _ hx'
        obtain rfl := hsame _ _ _ _ _ _ hl' hl hdl' hdl hk
        have he := List.suffix_of_suffix_length_le hsuf hsuf' (by simp)
        have := he.eq_of_length_le (by simp)
        rw [List.cons.injEq] at this
        exact hne this.1
    · rintro x hx y hy rfl
      obtain ⟨c, hc, rfl⟩ := List.mem_map.1 hx
      obtain ⟨n, hn, hy⟩ := List.mem_flatMap.1 hy
      obtain ⟨hdc, hcv⟩ := mem_visibleDirs.1 hc
      obtain ⟨k, i, hl⟩ := h.home_of_visible hp.suffix hdc hcv
      obtain ⟨k', i', l', hl', hdl', hsuf', hk⟩ := hmem n hn _ hy
      obtain rfl := hsame _ _ _ _ _ _ hl' hl hdl' hdc (hk.trans (hp.key hl).symm)
      have he := hsuf'.eq_of_length_le (by simp)
      rw [List.cons.injEq] at he
      exact hcv (he.1 ▸ (mem_hiddenDirs.1 hn).2)

/-- A partition directory is listed with some key. -/
theorem listing_ne_nil (h : DirsOfKeys t d) (hparts : PartsHoldKeys t d) (hp : Spells d p part)
    (hc : c.head? = some dot) (hd : t.isDir (c :: p)) (hf : t.sizeAt (c :: p) ≤ fuel) :
    listing host t fuel (c :: p) (part ++ c.tail) ≠ [] := by
  obtain ⟨k, i, hpart⟩ := h.part_of_hidden hp.suffix hd hc
  obtain ⟨k', j, l, hl, hsuf, hdl⟩ := hparts k i _ hpart hd
  exact List.ne_nil_of_mem
    ((mem_listing h (hp.cons hc) hd hf).2 ⟨_, j, l, hl, hdl, hsuf, rfl⟩)

end

/-! ## The walk -/

/-- The number of keys still wanted is no limit, or more than the `n` to come. -/
def Room (left n : ℕ) : Prop :=
  left = 0 ∨ (n < left ∧ left < 2 ^ 64)

theorem Room.mono {left m n : ℕ} (h : Room left n) (hm : m ≤ n) : Room left m := by
  unfold Room at h ⊢
  omega

/-- What is left after a level : `0 - result` of `size_t` if there was no limit. -/
theorem Room.sizeSub {left m n : ℕ} (h : Room left (m + n)) (hn : m + n < 2 ^ 64) :
    Room (sizeSub left m) n := by
  unfold Room Idb.sizeSub at *
  rcases h with rfl | ⟨h, h'⟩
  · by_cases hm : m = 0
    · subst hm
      exact Or.inl (by decide)
    · right
      rw [Nat.mod_eq_of_lt (show m < 2 ^ 64 by omega), Nat.mod_eq_of_lt (by omega)]
      omega
  · right
    rw [Nat.mod_eq_of_lt (show m < 2 ^ 64 by omega)]
    have : left + (2 ^ 64 - m) = (left - m) + 2 ^ 64 := by omega
    rw [this, Nat.add_mod_right, Nat.mod_eq_of_lt (by omega)]
    omega

/-- A processor that appends `out key` for every key that is not in the list yet, and
does nothing else. -/
def Collects (processor : Option WalkKeyHandler) (policy : TIDBProcesses)
    (out : Bytes → List Bytes) : Prop :=
  (∀ key, ∀ y ∈ out key, y = key) ∧
    match processor with
    | none => ∀ key, out key = []
    | some handler => ∀ n aDir key part fs keys, key ∉ keys →
      handler n aDir key part policy (fs, keys) = (walkItemOk, fs, keys ++ out key)

/-- The keys of a list that are not collected yet. -/
structure Fresh (L keys : List Bytes) : Prop where
  nodup : L.Nodup
  new : ∀ x ∈ L, x ∉ keys

section

variable {out : Bytes → List Bytes}

/-- Keys fresh for two lists are fresh for the first, and for the second after it. -/
theorem Fresh.append {L₁ L₂ keys : List Bytes} (ho : ∀ key, ∀ y ∈ out key, y = key)
    (h : Fresh (L₁ ++ L₂) keys) : Fresh L₁ keys ∧ Fresh L₂ (keys ++ L₁.flatMap out) := by
  obtain ⟨h₁, h₂, hd⟩ := List.nodup_append.1 h.nodup
  refine ⟨⟨h₁, fun x hx => h.new x (List.mem_append_left _ hx)⟩, h₂, fun x hx hk => ?_⟩
  rcases List.mem_append.1 hk with hk | hk
  · exact h.new x (List.mem_append_right _ hx) hk
  · obtain ⟨y, hy, hxy⟩ := List.mem_flatMap.1 hk
    exact hd y hy x hx (ho y x hxy).symm

variable {host : Host} {fs : FileSystem} {aRec : TSubkeyWalkerRec} {vDir : Bytes}
  (hc : Collects aRec.processor aRec.duplicationKeyProcess out)

include hc

/-- The visible directories of a level. -/
theorem handles_subkeyWalker (hpat : aRec.pattern = none) (hskip : aRec.skipCount = 0)
    (names : List Name) (n : ℕ) {keys : List Bytes}
    (hf : Fresh (names.map (aRec.subkeyPart ++ ·)) keys) :
    Handles (subkeyWalker host) vDir fs n names (aRec, keys)
      (aRec, keys ++ (names.map (aRec.subkeyPart ++ ·)).flatMap out) := by
  induction names generalizing n keys with
  | nil =>
    rw [List.map_nil, List.flatMap_nil, List.append_nil]
    exact .nil
  | cons name names ih =>
    obtain ⟨hf₁, hf₂⟩ := (List.map_cons ▸ hf : Fresh ([_] ++ _) keys).append hc.1
    have hrest : Handles (subkeyWalker host) vDir fs (n + 1) names
        (aRec, keys ++ out (aRec.subkeyPart ++ name))
        (aRec, keys ++ ((name :: names).map (aRec.subkeyPart ++ ·)).flatMap out) := by
      simpa using ih (n + 1) hf₂
    refine .cons (fun item hi => ?_) hrest
    have hnew : aRec.subkeyPart ++ name ∉ keys := hf₁.new _ (List.mem_singleton_self _)
    simp only [subkeyWalker, hpat, fnmMatched, hskip, hi, not_true_eq_false, and_false, if_false,
      gt_iff_lt, lt_irrefl]
    cases hp : aRec.processor with
    | none =>
      have := hc.2
      simp only [hp] at this
      rw [this, List.append_nil]
    | some handler =>
      have := hc.2
      simp only [hp] at this
      simp only [this _ _ _ _ _ _ hnew]

end

/-- The partition directories of a level, when the walk of each finds the keys `L`. -/
theorem handles_partitionWalker {fs : FileSystem} {out : Bytes → List Bytes}
    {walk : Bytes → Bytes → RecState → ℤ × RecState} {vDir : Bytes} {L : Name → List Bytes}
    (ho : ∀ key, ∀ y ∈ out key, y = key) (names : List Name) (n : ℕ) {aRec : TSubkeyWalkerRec}
    {keys : List Bytes}
    (hw : ∀ name ∈ names, ∀ count keys, Fresh (L name) keys → ∃ aRec',
      walk vDir name (fs, { aRec with
        subkeyPart := aRec.subkeyPart ++ name.tail
        count := count }, keys) =
          (((L name).length : ℤ), fs, aRec', keys ++ (L name).flatMap out))
    (hroom : Room aRec.leftCount (names.flatMap L).length) (hf : Fresh (names.flatMap L) keys) :
    Handles (subkeyPartitionWalker walk) vDir fs n names (aRec, keys)
      ({ aRec with count := aRec.count + (names.flatMap L).length },
        keys ++ (names.flatMap L).flatMap out) := by
  induction names generalizing n aRec keys with
  | nil =>
    rw [List.flatMap_nil, List.flatMap_nil, List.append_nil]
    exact .nil
  | cons name names ih =>
    rw [List.flatMap_cons] at hroom hf ⊢
    obtain ⟨hf₁, hf₂⟩ := hf.append ho
    obtain ⟨aRec', hwalk⟩ := hw name List.mem_cons_self aRec.count keys hf₁
    rw [List.length_append] at hroom
    have hrest : Handles (subkeyPartitionWalker walk) vDir fs (n + 1) names
        ({ aRec with count := aRec.count + (L name).length }, keys ++ (L name).flatMap out)
        ({ aRec with count := aRec.count + (L name ++ names.flatMap L).length },
          keys ++ (L name ++ names.flatMap L).flatMap out) := by
      simpa [Nat.add_assoc] using
        @ih (n + 1) { aRec with count := aRec.count + (L name).length } _
          (fun m hm => hw m (List.mem_cons_of_mem name hm)) (hroom.mono (by omega)) hf₂
    refine .cons (fun item hi => ?_) hrest
    have hstop : ¬(aRec.leftCount > 0 ∧ ((L name).length : ℤ) ≥ aRec.leftCount) := by
      unfold Room at hroom
      omega
    simp only [subkeyPartitionWalker, hi, hwalk, Int.toNat_natCast, if_neg hstop]
    split_ifs with hpos hneg
    · rfl
    · omega
    · have : (L name).length = 0 := by omega
      rw [this, Nat.add_zero]

section

variable {host : Host} {fs : FileSystem} {d : Loc} {out : Bytes → List Bytes}
  (hbelow : ∀ l, Below d l → fs.tree.NoLink l) (hdirs : DirsOfKeys fs.tree d)
  (hparts : PartsHoldKeys fs.tree d)

include hbelow hdirs hparts

/-- The walk with a record at its start finds the keys listed : it returns their number
and hands them to the processor. -/
theorem subkeyWalk_eq {fuel : ℕ} {p : Loc} {aDir aKey : Bytes} {aRec : TSubkeyWalkerRec}
    {keys : List Bytes} (hp : Spells d p aRec.subkeyPart)
    (hat : fs.At (sdsJoinPathLen aDir aKey) p) (hf : fs.tree.sizeAt p ≤ fuel)
    (hpat : aRec.pattern = none) (hskip : aRec.skipCount = 0)
    (hc : Collects aRec.processor aRec.duplicationKeyProcess out)
    (hroom : Room aRec.leftCount (listing host fs.tree fuel p aRec.subkeyPart).length)
    (hlen : (listing host fs.tree fuel p aRec.subkeyPart).length < 2 ^ 64)
    (hfresh : Fresh (listing host fs.tree fuel p aRec.subkeyPart) keys) :
    ∃ aRec', _iSubkeyWalk host fuel aDir aKey (fs, aRec, keys) =
      (((listing host fs.tree fuel p aRec.subkeyPart).length : ℤ), fs, aRec',
        keys ++ (listing host fs.tree fuel p aRec.subkeyPart).flatMap out) := by
  induction fuel generalizing p aDir aKey aRec keys with
  | zero =>
    have := sizeAt_pos_of_isDir hat.isDir
    omega
  | succ fuel ih =>
    cases aRec with
    | mk pattern part count left skip processor policy =>
    obtain rfl : pattern = none := hpat
    obtain rfl : skip = 0 := hskip
    dsimp only at hp hc hroom hlen hfresh ⊢
    have hlinks : ∀ c, fs.tree.NoLink (c :: p) := fun c => hbelow _ (below_cons hp.suffix c)
    have hsize : ∀ n, fs.tree.sizeAt (n :: p) ≤ fuel := fun n => by
      have := sizeAt_cons_lt (c := n) hat.isDir
      omega
    rw [listing] at hroom hlen hfresh ⊢
    obtain ⟨hf₁, hf₂⟩ := hfresh.append hc.1
    rw [List.length_append, List.length_map] at hroom hlen ⊢
    set vis := visibleDirs host fs.tree p with hvis
    set hid := hiddenDirs host fs.tree p with hhid
    -- The visible directories.
    have hleft : left = 0 ∨ vis.length < left := by
      unfold Room at hroom
      omega
    have hwalk₁ : walkDir (sdsJoinPathLen aDir aKey) left (some (subkeyWalker host)) host none
        listNormalDirs 0 (fs, ⟨none, part, count, left, 0, processor, policy⟩, keys) = _ :=
      walkDir_handles hat (map_filter_normalDirs hat hlinks)
        (handles_subkeyWalker hc rfl rfl vis 0 hf₁) hleft
    have hgo : (vis.length : ℤ) ≥ 0 ∧ (left = 0 ∨ (vis.length : ℤ) < left) := by omega
    -- The partition directories, each of which holds a key.
    have hroom₂ := hroom.sizeSub hlen
    have hcount : hid.length ≤
        (hid.flatMap fun n => listing host fs.tree fuel (n :: p) (part ++ n.tail)).length := by
      rw [List.length_flatMap]
      refine le_trans (by rw [List.length_map]) (List.length_le_sum_of_one_le _ fun m hm => ?_)
      obtain ⟨n, hn, rfl⟩ := List.mem_map.1 hm
      obtain ⟨hdn, hn⟩ := mem_hiddenDirs.1 hn
      exact List.length_pos_iff.2 (listing_ne_nil hdirs hparts hp hn hdn (hsize n))
    have hleft₂ : sizeSub left vis.length = 0 ∨ hid.length < sizeSub left vis.length := by
      unfold Room at hroom₂
      omega
    have hwalk₂ : walkDir (sdsJoinPathLen aDir aKey) (sizeSub left vis.length)
        (some (subkeyPartitionWalker (_iSubkeyWalk host fuel))) host none listHiddenDirs 0
        (fs, ⟨none, part, vis.length, sizeSub left vis.length, 0, processor, policy⟩,
          keys ++ (vis.map (part ++ ·)).flatMap out) = _ :=
      walkDir_handles hat (map_filter_hiddenDirs hat hlinks)
        (handles_partitionWalker hc.1 hid 0 (fun n hn count keys hfn => ?_) hroom₂ hf₂) hleft₂
    · rw [← hvis] at hwalk₁
      rw [← hhid] at hwalk₂
      simp only [_iSubkeyWalk, hwalk₁, if_pos hgo, literalPattern, Int.toNat_natCast, hwalk₂]
      rw [if_pos (Int.natCast_nonneg _), List.flatMap_append, List.append_assoc]
      exact ⟨_, rfl⟩
    · obtain ⟨hdn, hn'⟩ := mem_hiddenDirs.1 hn
      have hat' : fs.At (sdsJoinPathLen (sdsJoinPathLen aDir aKey) n) (n :: p) := by
        rw [sdsJoinPathLen_eq hat.ne_nil]
        exact hat.subdir hdn
      have hle : (listing host fs.tree fuel (n :: p) (part ++ n.tail)).length ≤
          (hid.flatMap fun n => listing host fs.tree fuel (n :: p) (part ++ n.tail)).length := by
        refine (List.sublist_flatten_of_mem ?_).length_le
        exact List.mem_map.2 ⟨n, hn, rfl⟩
      exact ih (hp.cons hn') hat' (hsize n) rfl rfl hc (hroom₂.mono hle)
        (lt_of_le_of_lt hle (by omega)) hfn

end

end Idb
