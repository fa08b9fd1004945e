import Idb.PutRuns
import Idb.Policies

/-!
# Patterns of subkeys

A walk with a pattern matches it against the names in the directory. The characters at its start
that are no wildcards it takes for those of partition directories : it goes into the one of the
first character, with the rest of the pattern. From a wildcard on it goes into all partition
directories, where it matches what is left of the pattern against what is left of the keys.

So a pattern finds the keys it matches if all these partition directories are there, the pattern
left in each directory says of the names there what the pattern says of the keys, and the characters
fit in the block of the key part (`PatternFits`, `findsMatches_iff`).
-/

namespace Idb

open Posix FileSystem FileTree Pages

/-! ## Literal characters -/

/-- The first character of a pattern, if it is taken for a literal one. -/
def literalChar (pattern : Bytes) : Option Bytes :=
  match literalPattern (some pattern) with
  | none => none
  | some pattern => (iterateUtf8Char pattern 6).toOption

/-- The literal characters at the start of a pattern, and what is left. -/
def literals : ℕ → Bytes → List Bytes × Bytes
  | 0, pattern => ([], pattern)
  | n + 1, pattern =>
    match literalChar pattern with
    | none => ([], pattern)
    | some c =>
      (c :: (literals n (pattern.drop c.length)).1, (literals n (pattern.drop c.length)).2)

/-- The pattern is literal in the characters `cs`, before `rest`. -/
inductive Splits : Bytes → List Bytes → Bytes → Prop
  | done {pattern} : literalChar pattern = none → Splits pattern [] pattern
  | step {pattern c cs rest} : literalChar pattern = some c →
      Splits (pattern.drop c.length) cs rest → Splits pattern (c :: cs) rest

/-- The pattern left in the partition directory that some names lead to, if a walk comes to it. -/
def patternAt (pattern : Bytes) : List Name → Option Bytes
  | [] => some pattern
  | n :: ns =>
    match literalChar pattern with
    | none => patternAt pattern ns
    | some c => if n = partName c then patternAt (pattern.drop c.length) ns else none

section

variable {pattern c rest : Bytes} {cs : List Bytes}

/-- A literal character is the first one of a pattern that starts with a literal. -/
theorem literalChar_eq_some : literalChar pattern = some c ↔
    literalPattern (some pattern) = some pattern ∧ iterateUtf8Char pattern 6 = .ok c := by
  unfold literalChar
  cases hlit : literalPattern (some pattern) with
  | none => simp
  | some p =>
    obtain rfl := Option.some.inj (eq_of_literalPattern hlit)
    cases hc : iterateUtf8Char pattern 6 <;> simp [Except.toOption, hc]

/-- A character taken for a literal one is the first of the pattern. -/
theorem firstChar_of_literalChar (h : literalChar pattern = some c) :
    firstChar pattern = .ok c := by
  obtain ⟨hlit, hc⟩ := literalChar_eq_some.1 h
  have hne : pattern ≠ [] := by
    rintro rfl
    simp [literalPattern] at hlit
  unfold iterateUtf8Char at hc
  split at hc
  · simp at hc
  · next n uc hi =>
    have hd := ((utf8procIterate_eq_ok (show 0 < 6 by omega)).1 hi).1
    have hn : n ≤ pattern.length := by
      by_contra hlt
      have hpos := List.length_pos_iff.2 hne
      -- Behind the end there is no continuation byte.
      have := hd.cont pattern.length (by omega) (by omega)
      rw [List.getD_eq_getElem?_getD, List.getElem?_eq_none le_rfl] at this
      simp at this
    rw [hd.encode hn] at hc
    refine firstChar_eq_ok_iff_decodes.2 ⟨n, uc, hd, hn, ?_⟩
    split at hc
    · simp at hc
    · next b bs hb =>
      rw [Except.ok.injEq] at hc
      rw [hb, hc]

/-- The literals and the rest split the pattern. -/
theorem literals_splits (n : ℕ) (h : pattern.length ≤ n) :
    Splits pattern (literals n pattern).1 (literals n pattern).2 := by
  induction n generalizing pattern with
  | zero =>
    obtain rfl := List.length_eq_zero_iff.1 (Nat.le_zero.1 h)
    exact .done rfl
  | succ n ih =>
    rw [literals]
    split
    · next hc => exact .done hc
    · next c hc =>
      have hfirst := firstChar_of_literalChar hc
      have hpos := List.length_pos_iff.2 (firstChar_ne_nil hfirst)
      exact .step hc (ih (by rw [List.length_drop]; omega))

end

/-! ## Keys on the way of a pattern -/

/-- Hidden names lead from `l` to a directory of the name `c`. -/
structure KeyIn (t : FileTree Xattrs) (l : Loc) (ns : List Name) (c : Name) : Prop where
  hidden : ∀ n ∈ ns, n.head? = some dot
  visible : c.head? ≠ some dot
  isDir : t.isDir (c :: (ns.reverse ++ l))

/-- The key that hidden names and the name of its directory spell. -/
def spelled (ns : List Name) (c : Name) : Bytes :=
  ns.flatMap List.tail ++ c

/-- The keys that a walk with the pattern meets, when all its partition directories are there. -/
def patternListing (host : Host) (t : FileTree Xattrs) :
    ℕ → List Bytes → Bytes → Loc → Bytes → List Bytes
  | n, [], pattern, l, part =>
    full (patternKeys host (some pattern) t) (partitions host t) n (l, part)
  | n, c :: cs, pattern, l, part => patternKeys host (some pattern) t (l, part) ++
      patternListing host t (n - 1) cs (pattern.drop c.length) (partName c :: l) (part ++ c)

section

variable {host : Host} {t : FileTree Xattrs} {l : Loc} {part x pattern rest : Bytes}
  {aPattern : Option Bytes} {cs : List Bytes} {ns : List Name} {n c : Name}

theorem keyIn_nil : KeyIn t l [] c ↔ t.isDir (c :: l) ∧ c.head? ≠ some dot :=
  ⟨fun h => ⟨h.isDir, h.visible⟩, fun h => ⟨fun _ hn => absurd hn List.not_mem_nil, h.2, h.1⟩⟩

/-- A key one partition further down. -/
theorem keyIn_cons : KeyIn t l (n :: ns) c ↔ n.head? = some dot ∧ KeyIn t (n :: l) ns c := by
  constructor
  · rintro ⟨hh, hv, hd⟩
    obtain ⟨hn, hns⟩ := List.forall_mem_cons.1 hh
    exact ⟨hn, hns, hv, by simpa using hd⟩
  · rintro ⟨hn, hh, hv, hd⟩
    exact ⟨List.forall_mem_cons.2 ⟨hn, hh⟩, hv, by simpa using hd⟩

theorem KeyIn.isDir_base (h : KeyIn t l ns c) : t.isDir l :=
  isDir_of_suffix ((List.suffix_append _ _).trans (List.suffix_cons c _)) h.isDir

theorem spelled_cons : spelled (n :: ns) c = n.tail ++ spelled ns c := by
  rw [spelled, List.flatMap_cons, List.append_assoc]
  rfl

theorem mem_patternKeys : x ∈ patternKeys host aPattern t (l, part) ↔
    ∃ c, KeyIn t l [] c ∧ fnmMatched host aPattern c ∧ x = part ++ spelled [] c := by
  simp only [patternKeys, List.mem_map, List.mem_filter, mem_visibleDirs, keyIn_nil, and_assoc,
    eq_comm]
  rfl

/-- The full list holds the keys whose last part matches. -/
theorem mem_full {m : ℕ} (hf : t.isDir l → t.sizeAt l ≤ m) :
    x ∈ full (patternKeys host aPattern t) (partitions host t) m (l, part) ↔
      ∃ ns c, KeyIn t l ns c ∧ fnmMatched host aPattern c ∧ x = part ++ spelled ns c := by
  induction m generalizing l part with
  | zero =>
    refine ⟨fun hx => absurd hx List.not_mem_nil, ?_⟩
    rintro ⟨ns, c, hk, -⟩
    have := sizeAt_pos_of_isDir hk.isDir_base
    have := hf hk.isDir_base
    omega
  | succ m ih =>
    have hsize : ∀ n, t.isDir (n :: l) → t.sizeAt (n :: l) ≤ m := fun n hn => by
      have hd := isDir_of_cons hn
      have := sizeAt_cons_lt (c := n) hd
      have := hf hd
      omega
    rw [full, List.mem_append, mem_patternKeys, partitions, List.flatMap_map, List.mem_flatMap]
    constructor
    · rintro (⟨c, hk, hm, rfl⟩ | ⟨n, hn, hx⟩)
      · exact ⟨[], c, hk, hm, rfl⟩
      · obtain ⟨hd, hh⟩ := mem_hiddenDirs.1 hn
        obtain ⟨ns, c, hk, hm, rfl⟩ := (ih (hsize n)).1 hx
        exact ⟨n :: ns, c, keyIn_cons.2 ⟨hh, hk⟩, hm, by rw [spelled_cons, List.append_assoc]⟩
    · rintro ⟨ns, c, hk, hm, rfl⟩
      cases ns with
      | nil => exact Or.inl ⟨c, hk, hm, rfl⟩
      | cons n ns =>
        obtain ⟨hh, hk⟩ := keyIn_cons.1 hk
        exact Or.inr ⟨n, mem_hiddenDirs.2 ⟨hk.isDir_base, hh⟩, (ih (hsize n)).2
          ⟨ns, c, hk, hm, by rw [spelled_cons, List.append_assoc]⟩⟩

/-- Behind the literal characters the pattern is the same everywhere. -/
theorem patternAt_of_none (h : literalChar pattern = none) (ns : List Name) :
    patternAt pattern ns = some pattern := by
  induction ns with
  | nil => rfl
  | cons n ns ih => rw [patternAt, h, ih]

/-- The listing holds the keys whose last part matches what the partitions leave of the pattern. -/
theorem mem_patternListing (hs : Splits pattern cs rest) {m : ℕ}
    (hf : t.isDir l → t.sizeAt l ≤ m) : x ∈ patternListing host t m cs pattern l part ↔
      ∃ ns c, KeyIn t l ns c ∧ (∃ q, patternAt pattern ns = some q ∧ host.fnmatch q c) ∧
        x = part ++ spelled ns c := by
  induction hs generalizing m l part with
  | done hc =>
    rw [patternListing, mem_full hf]
    simp only [patternAt_of_none hc, Option.some.injEq, exists_eq_left']
    rfl
  | @step pattern c cs rest hc _ ih =>
    have hsize : t.isDir (partName c :: l) → t.sizeAt (partName c :: l) ≤ m - 1 := fun hn => by
      have hd := isDir_of_cons hn
      have := sizeAt_cons_lt (c := partName c) hd
      have := hf hd
      omega
    rw [patternListing, List.mem_append, mem_patternKeys, ih hsize]
    constructor
    · rintro (⟨c', hk, hm, rfl⟩ | ⟨ns, c', hk, ⟨q, hq, hm⟩, rfl⟩)
      · exact ⟨[], c', hk, ⟨pattern, rfl, hm⟩, rfl⟩
      · refine ⟨partName c :: ns, c', keyIn_cons.2 ⟨rfl, hk⟩, ⟨q, ?_, hm⟩, ?_⟩
        · rw [patternAt, hc]
          simpa using hq
        · rw [spelled_cons, List.append_assoc]
          rfl
    · rintro ⟨ns, c', hk, ⟨q, hq, hm⟩, rfl⟩
      cases ns with
      | nil =>
        rw [patternAt, Option.some.injEq] at hq
        exact Or.inl ⟨c', hk, hq ▸ hm, rfl⟩
      | cons n ns =>
        rw [patternAt, hc] at hq
        dsimp only at hq
        split_ifs at hq with hn
        subst hn
        refine Or.inr ⟨ns, c', (keyIn_cons.1 hk).2, ⟨q, hq, hm⟩, ?_⟩
        rw [spelled_cons, List.append_assoc]
        rfl

end

/-! ## The walk with a pattern -/

section

variable {host : Host} {fs : FileSystem} {p : Option WalkKeyHandler} {q : TIDBProcesses}
  {out : Bytes → List Bytes} {l d : Loc} {part pattern rest aDir aKey : Bytes} {left n : ℕ}
  {cs : List Bytes}

/-- The walk returns `k`, hands the keys `found` to the processor, and leaves `part'` in its
record. -/
structure WalkFinds (host : Host) (fs : FileSystem) (n : ℕ) (aDir aKey pattern part : Bytes)
    (left : ℕ) (found : List Bytes) (k : ℤ) (part' : Bytes) : Prop where
  walk : ∀ {p q out}, Records p q out → ∀ m keys, ∃ aRec', aRec'.subkeyPart = part' ∧
    _iSubkeyWalk host n aDir aKey (fs, ⟨some pattern, part, m, left, 0, p, q⟩, keys) =
      (k, fs, aRec', keys ++ found.flatMap out)
  low : -2 ^ 31 ≤ k
  le : k ≤ found.length

/-- Behind its literal characters the pattern begins with a wildcard or ends, their partition
directories are there, and what is found in the first one is counted by an `int`. -/
structure WayOpen (host : Host) (t : FileTree Xattrs) (n : ℕ) (cs : List Bytes)
    (rest pattern : Bytes) (l : Loc) (part : Bytes) : Prop where
  wildcard : literalPattern (some rest) = none
  dirs : t.isDir ((cs.map partName).reverse ++ l)
  few : cs ≠ [] → (patternListing host t n cs pattern l part).length <
    (patternKeys host (some pattern) t (l, part)).length + 2 ^ 31

/-- A pattern selects from the listing without one. -/
theorem full_sublist (aPattern : Option Bytes) (t : FileTree Xattrs) (n : ℕ) (l : Loc)
    (part : Bytes) : (full (patternKeys host aPattern t) (partitions host t) n (l, part)).Sublist
      (listing host t n l part) := by
  induction n generalizing l part with
  | zero => exact List.Sublist.refl _
  | succ n ih =>
    rw [full, listing, partitions, List.flatMap_map]
    refine (List.filter_sublist.map _).append ?_
    induction hiddenDirs host t l with
    | nil => exact List.Sublist.refl _
    | cons m ms ihm =>
      rw [List.flatMap_cons, List.flatMap_cons]
      exact (ih _ _).append ihm

/-- A directory that cannot be opened. -/
theorem subkeyWalk_missing {e : Errno}
    (he : host.entries fs (sdsJoinPathLen aDir aKey) = .error e) :
    WalkFinds host fs n aDir aKey pattern part left [] (-1) part := by
  refine ⟨fun {p q out} _ m keys => ?_, by omega, by simp⟩
  rw [List.flatMap_nil, List.append_nil]
  cases n with
  | zero => exact ⟨_, rfl, rfl⟩
  | succ n =>
    have hwalk : walkDir (sdsJoinPathLen aDir aKey) left (some (subkeyWalker host)) host
        (some pattern) listNormalDirs 0 (fs, ⟨some pattern, part, m, left, 0, p, q⟩, keys) =
          (-1, fs, ⟨some pattern, part, m, left, 0, p, q⟩, keys) := by
      simp only [walkDir, he]
    rw [_iSubkeyWalk_succ]
    dsimp only
    rw [hwalk, walkBelow_stop (by simp)]
    exact ⟨_, rfl, rfl⟩

/-- Entries of what is no directory cannot be read. -/
theorem entries_error {path : Bytes} {c : Name} (h : fs.At path l) (hc : ValidName c)
    (hl : fs.tree.NoLink (c :: l)) (hd : fs.tree.isDir (c :: l) = false) :
    ∃ e, host.entries fs (sdsJoinPathLen path c) = .error e := by
  have hr := h.resolve_entry hc.2.1 (by rwa [enter_plain hc.1]) true
  rw [enter_plain hc.1] at hr
  rw [Host.entries, sdsJoinPathLen_eq h.ne_nil, hr]
  simp [hd]

theorem patternKeys_length_le (hat : fs.tree.isDir l) (aPattern : Option Bytes) :
    (patternKeys host aPattern fs.tree (l, part)).length < fs.tree.sizeAt l := by
  have : _ < fs.tree.sizeAt l := @weight_lt_sizeAt host fs.tree aPattern 1 (l, part) hat
  rw [weight] at this
  omega

/-- The matching keys and a partition's nodes are fewer than the nodes of the directory. -/
theorem patternKeys_length_add_lt {c : Name} (hc : c ∈ hiddenDirs host fs.tree l)
    (aPattern : Option Bytes) :
    (patternKeys host aPattern fs.tree (l, part)).length + fs.tree.sizeAt (c :: l) <
      fs.tree.sizeAt l := by
  obtain ⟨hdc, hhid⟩ := mem_hiddenDirs.1 hc
  have hnodup : (c :: visibleDirs host fs.tree l).Nodup :=
    List.nodup_cons.2 ⟨fun hv => (mem_visibleDirs.1 hv).2 hhid, nodup_visibleDirs⟩
  have hsum := sum_sizeAt_lt (isDir_of_cons hdc) hnodup
  have hvis := length_visibleDirs_le host fs.tree l
  have hkeys := List.length_filter_le (fnmMatched host aPattern) (visibleDirs host fs.tree l)
  rw [List.map_cons, List.sum_cons] at hsum
  rw [patternKeys, List.length_map]
  dsimp only
  omega

section

variable (hat : fs.At (sdsJoinPathLen aDir aKey) l) (hd : d <:+ l)
  (hlinks : ∀ l, Below d l → fs.tree.NoLink l)

include hat hd hlinks

/-- From a wildcard on all partitions are walked through. -/
theorem subkeyWalk_wild (hsize : fs.tree.nodes.keys.length < 2 ^ 63)
    (hlit : literalPattern (some pattern) = none) (hf : fs.tree.sizeAt l ≤ n)
    (hroom : Room left (fs.tree.sizeAt l)) :
    WalkFinds host fs n aDir aKey pattern part left
      (full (patternKeys host (some pattern) fs.tree) (partitions host fs.tree) n (l, part))
      (full (patternKeys host (some pattern) fs.tree) (partitions host fs.tree) n
        (l, part)).length part := by
  refine ⟨fun {p q out} hr m keys => ?_, by omega, le_refl _⟩
  have hl : Limit left 0 (weight (patternKeys host (some pattern) fs.tree)
      (partitions host fs.tree) n (l, part)) :=
    Or.inr ⟨rfl, hroom.mono (weight_lt_sizeAt n hat.isDir).le⟩
  obtain ⟨aRec', hwalk⟩ :=
    subkeyWalk_page hr hlit hlinks hsize n (i := (l, part)) hd hat hf hl m 0 keys
  have hpart := @subkeyWalk_part host fs ⟨some pattern, part, m, left, 0, p, q⟩ keys hlit n aDir
    aKey
  rw [page_zero] at hwalk
  rw [hwalk] at hpart
  exact ⟨aRec', hpart, hwalk⟩

/-- The first walk of a level, and whether it goes on. -/
theorem subkeyWalk_level (hr : Records p q out) (hroom : Room left (fs.tree.sizeAt l)) (m : ℕ)
    (keys : List Bytes) :
    _iSubkeyWalk host (n + 1) aDir aKey
        (fs, ⟨some pattern, part, m, left, 0, p, q⟩, keys) =
      walkBelow host (_iSubkeyWalk host n) (sdsJoinPathLen aDir aKey)
        ((patternKeys host (some pattern) fs.tree (l, part)).length, fs,
          ⟨some pattern, part, m, left, 0, p, q⟩,
          keys ++ (patternKeys host (some pattern) fs.tree (l, part)).flatMap out) ∧
    (((patternKeys host (some pattern) fs.tree (l, part)).length : ℤ) ≥ 0 ∧
      (left = 0 ∨ ((patternKeys host (some pattern) fs.tree (l, part)).length : ℤ) < left)) := by
  have hlen := @patternKeys_length_le host fs l part hat.isDir (some pattern)
  have hslice :
      slice 0 left ((visibleDirs host fs.tree l).filter (fnmMatched host (some pattern))) =
      (visibleDirs host fs.tree l).filter (fnmMatched host (some pattern)) := by
    rw [length_slice_of_lt, List.drop_zero]
    intro h0
    have := @length_slice_le _ 0 left
      ((visibleDirs host fs.tree l).filter (fnmMatched host (some pattern)))
    rw [patternKeys, List.length_map] at hlen
    unfold Room at hroom
    dsimp only at hlen
    omega
  constructor
  · rw [_iSubkeyWalk_succ]
    dsimp only
    rw [walkDir_keys hr hat fun c => hlinks _ (below_cons hd c), hslice, patternKeys,
      List.length_map, Nat.zero_sub]
  · unfold Room at hroom
    omega

/-- A byte that begins no character. -/
theorem subkeyWalk_error {e : ℤ} (hlit : literalPattern (some pattern) = some pattern)
    (hc : iterateUtf8Char pattern 6 = .error e) (hroom : Room left (fs.tree.sizeAt l)) :
    WalkFinds host fs (n + 1) aDir aKey pattern part left
      (patternKeys host (some pattern) fs.tree (l, part)) (-1) part := by
  refine ⟨fun {p q out} hr m keys => ?_, by omega, by omega⟩
  obtain ⟨he, hgo⟩ := @subkeyWalk_level host fs p q out l d part pattern aDir aKey left n hat hd
    hlinks hr hroom m keys
  rw [he, walkBelow_error hgo hlit hc]
  exact ⟨_, rfl, rfl⟩

/-- A literal character. -/
theorem subkeyWalk_step {c part' : Bytes} {found : List Bytes} {k : ℤ}
    (hc : literalChar pattern = some c) (hroom : Room left (fs.tree.sizeAt l))
    (hw : WalkFinds host fs n (sdsJoinPathLen aDir aKey) (partName c) (pattern.drop c.length)
      (part ++ c)
      (sizeSub left (patternKeys host (some pattern) fs.tree (l, part)).length) found k part') :
    WalkFinds host fs (n + 1) aDir aKey pattern part left
      (patternKeys host (some pattern) fs.tree (l, part) ++ found)
      ((patternKeys host (some pattern) fs.tree (l, part)).length + intOf k) part' := by
  have hbounds := intOf_bounds k
  have hle := intOf_le hw.low hw.le
  refine ⟨fun {p q out} hr m keys => ?_, by omega, ?_⟩
  · obtain ⟨he, hgo⟩ := @subkeyWalk_level host fs p q out l d part pattern aDir aKey left n hat hd
      hlinks hr hroom m keys
    obtain ⟨hlit, hchar⟩ := literalChar_eq_some.1 hc
    have htake : pattern.take c.length = c := by
      conv_lhs => rw [firstChar_split (firstChar_of_literalChar hc), List.take_left]
    obtain ⟨aRec', hpart, hwalk⟩ := hw.walk hr m
      (keys ++ (patternKeys host (some pattern) fs.tree (l, part)).flatMap out)
    rw [he, walkBelow_literal hgo hlit hchar]
    dsimp only
    rw [htake, Int.toNat_natCast]
    rw [partName] at hwalk
    rw [hwalk, List.flatMap_append, List.append_assoc]
    exact ⟨_, hpart, rfl⟩
  · rw [List.length_append, Nat.cast_add]
    omega

end

/-- The way is open when it is below the first literal and what is found there fits an `int`. -/
theorem wayOpen_cons {t : FileTree Xattrs} {c : Bytes} :
    WayOpen host t (n + 1) (c :: cs) rest pattern l part ↔
      WayOpen host t n cs rest (pattern.drop c.length) (partName c :: l) (part ++ c) ∧
        (patternListing host t n cs (pattern.drop c.length) (partName c :: l)
          (part ++ c)).length < 2 ^ 31 := by
  have hdirs : ((c :: cs).map partName).reverse ++ l =
      (cs.map partName).reverse ++ partName c :: l := by simp
  have hlen : (patternListing host t (n + 1) (c :: cs) pattern l part).length =
      (patternKeys host (some pattern) t (l, part)).length +
        (patternListing host t n cs (pattern.drop c.length) (partName c :: l)
          (part ++ c)).length := by
    rw [patternListing, List.length_append, Nat.add_sub_cancel]
  constructor
  · intro h
    have hfew := h.few (List.cons_ne_nil c cs)
    exact ⟨⟨h.wildcard, hdirs ▸ h.dirs, fun _ => by omega⟩, by omega⟩
  · rintro ⟨h, hfew⟩
    exact ⟨h.wildcard, hdirs ▸ h.dirs, fun _ => by omega⟩

/-- The keys on the way of a pattern are among all keys, in their order. -/
theorem patternListing_sublist {t : FileTree Xattrs} (hs : Splits pattern cs rest)
    (hdirs : t.isDir ((cs.map partName).reverse ++ l)) (hf : t.sizeAt l ≤ n) :
    (patternListing host t n cs pattern l part).Sublist (listing host t n l part) := by
  induction hs generalizing n l part with
  | done => exact full_sublist _ _ _ _ _
  | @step pattern c cs rest _ _ ih =>
    have hdirs' : t.isDir ((cs.map partName).reverse ++ partName c :: l) := by simpa using hdirs
    have hdir : t.isDir (partName c :: l) := isDir_of_suffix (List.suffix_append _ _) hdirs'
    have hlt := sizeAt_cons_lt (c := partName c) (isDir_of_cons hdir)
    obtain ⟨n, rfl⟩ : ∃ m, n = m + 1 := ⟨n - 1, by omega⟩
    have hmem : partName c ∈ hiddenDirs host t l := mem_hiddenDirs.2 ⟨hdir, rfl⟩
    rw [patternListing, listing]
    refine (List.filter_sublist.map _).append
      ((ih hdirs' (Nat.le_of_lt_succ (hlt.trans_le hf))).trans ?_)
    exact List.sublist_flatten_of_mem (List.mem_map.2 ⟨_, hmem, rfl⟩)

/-- A walk with a pattern counts what it finds exactly if its way is open, and then it finds the
keys on its way. -/
theorem subkeyWalk_pattern (hs : Splits pattern cs rest)
    (hnames : ∀ c ∈ cs, ValidName (partName c)) (hlinks : ∀ l, Below d l → fs.tree.NoLink l)
    (hsize : fs.tree.nodes.keys.length < 2 ^ 63) (hd : d <:+ l)
    (hat : fs.At (sdsJoinPathLen aDir aKey) l) (hf : fs.tree.sizeAt l ≤ n)
    (hroom : Room left (fs.tree.sizeAt l)) :
    ∃ found k part', WalkFinds host fs n aDir aKey pattern part left found k part' ∧
      found.Sublist (listing host fs.tree n l part) ∧
      (k = found.length ↔ WayOpen host fs.tree n cs rest pattern l part) ∧
      (WayOpen host fs.tree n cs rest pattern l part →
        found = patternListing host fs.tree n cs pattern l part ∧ part' = part ++ cs.flatten) := by
  induction hs generalizing n l part aDir aKey left with
  | @done pattern hc =>
    by_cases hlit : literalPattern (some pattern) = none
    · have hopen : WayOpen host fs.tree n [] pattern pattern l part :=
        ⟨hlit, hat.isDir, fun h => absurd rfl h⟩
      exact ⟨_, _, _, subkeyWalk_wild hat hd hlinks hsize hlit hf hroom, full_sublist _ _ _ _ _,
        iff_of_true rfl hopen, fun _ => ⟨rfl, (List.append_nil part).symm⟩⟩
    · obtain ⟨pattern', hp⟩ := Option.ne_none_iff_exists'.1 hlit
      obtain rfl := Option.some.inj (eq_of_literalPattern hp)
      have hpos := sizeAt_pos_of_isDir hat.isDir
      obtain ⟨n, rfl⟩ : ∃ m, n = m + 1 := ⟨n - 1, by omega⟩
      cases he : iterateUtf8Char pattern 6 with
      | ok c => rw [literalChar_eq_some.2 ⟨hp, he⟩] at hc; simp at hc
      | error e =>
        refine ⟨_, _, _, subkeyWalk_error hat hd hlinks hp he hroom, ?_, ?_,
          fun h => absurd h.wildcard hlit⟩
        · rw [listing]
          exact (List.filter_sublist.map _).trans (List.sublist_append_left _ _)
        · exact iff_of_false (by omega) fun h => hlit h.wildcard
  | @step pattern c cs rest hc _ ih =>
    have hpos := sizeAt_pos_of_isDir hat.isDir
    obtain ⟨n, rfl⟩ : ∃ m, n = m + 1 := ⟨n - 1, by omega⟩
    obtain ⟨hname, hnames⟩ := List.forall_mem_cons.1 hnames
    have hopen : WayOpen host fs.tree (n + 1) (c :: cs) rest pattern l part ↔
        WayOpen host fs.tree n cs rest (pattern.drop c.length) (partName c :: l) (part ++ c) ∧
          (patternListing host fs.tree n cs (pattern.drop c.length) (partName c :: l)
            (part ++ c)).length < 2 ^ 31 :=
      wayOpen_cons
    obtain ⟨found, k, part', hw, hsub, hk, hfound⟩ : ∃ found k part',
        WalkFinds host fs n (sdsJoinPathLen aDir aKey) (partName c) (pattern.drop c.length)
          (part ++ c) (sizeSub left (patternKeys host (some pattern) fs.tree (l, part)).length)
          found k part' ∧
        found.Sublist ((hiddenDirs host fs.tree l).flatMap fun m =>
          listing host fs.tree n (m :: l) (part ++ m.tail)) ∧
        (k = found.length ↔ WayOpen host fs.tree n cs rest (pattern.drop c.length)
          (partName c :: l) (part ++ c)) ∧
        (WayOpen host fs.tree n cs rest (pattern.drop c.length) (partName c :: l) (part ++ c) →
          found = patternListing host fs.tree n cs (pattern.drop c.length) (partName c :: l)
            (part ++ c) ∧ part' = part ++ c ++ cs.flatten) := by
      by_cases hdir : fs.tree.isDir (partName c :: l)
      · have hmem : partName c ∈ hiddenDirs host fs.tree l := mem_hiddenDirs.2 ⟨hdir, rfl⟩
        have hlt := @patternKeys_length_add_lt host fs l part _ hmem (some pattern)
        have hle := sizeAt_le (t := fs.tree) l
        have hat' : fs.At (sdsJoinPathLen (sdsJoinPathLen aDir aKey) (partName c))
            (partName c :: l) := by
          rw [sdsJoinPathLen_eq hat.ne_nil]
          exact hat.subdir hdir
        have hroom' : Room (sizeSub left (patternKeys host (some pattern) fs.tree (l, part)).length)
            (fs.tree.sizeAt (partName c :: l)) :=
          (hroom.mono hlt.le).sizeSub (by omega)
        obtain ⟨found, k, part', hw, hsub, hk, hfound⟩ := ih (n := n) hnames
          (hd.trans (List.suffix_cons (partName c) l)) hat' (by omega) hroom'
        refine ⟨found, k, part', hw, hsub.trans ?_, hk, hfound⟩
        exact List.sublist_flatten_of_mem (List.mem_map.2 ⟨_, hmem, rfl⟩)
      · have hno : ¬WayOpen host fs.tree n cs rest (pattern.drop c.length) (partName c :: l)
            (part ++ c) := fun h => hdir (isDir_of_suffix (List.suffix_append _ _) h.dirs)
        obtain ⟨e, he⟩ := @entries_error host _ _ _ _ hat hname (hlinks _ (below_cons hd _))
          (by simpa using hdir)
        exact ⟨[], -1, _, subkeyWalk_missing he, List.nil_sublist _, iff_of_false (by simp) hno,
          fun h => absurd h hno⟩
    refine ⟨_, _, _, subkeyWalk_step hat hd hlinks hc hroom hw, ?_, ?_, fun h => ?_⟩
    · rw [listing]
      exact (List.filter_sublist.map _).append hsub
    · rw [List.length_append, Nat.cast_add, add_right_inj, intOf_eq_length hw.low hw.le, hk, hopen]
      refine and_congr_right fun h => ?_
      rw [(hfound h).1]
    · obtain ⟨hlist, hpart⟩ := hfound (hopen.1 h).1
      rw [patternListing, hlist, hpart, List.flatten_cons, List.append_assoc]
      exact ⟨rfl, rfl⟩

end

/-! ## The keys a pattern finds -/

/-- A pattern finds the keys it matches : `iSubkeys` gives them, `iSubkeyTotal` their number. -/
def FindsMatches (host : Host) (iDBDuplicationKeyProcess : TIDBProcesses) (fs : FileSystem)
    (aDir pattern : Bytes) : Prop :=
  ∃ all found,
    iSubkeys host iDBDuplicationKeyProcess fs aDir [] none 0 0 .dkIgnored = some (some all, fs) ∧
    iSubkeys host iDBDuplicationKeyProcess fs aDir [] (some pattern) 0 0 .dkIgnored =
      some (some found, fs) ∧
    found.Perm (all.filter (host.fnmatch pattern)) ∧
    iSubkeyTotal host fs aDir [] (some pattern) .dkIgnored = some (found.length : ℤ)

/-- The pattern fits the partitions in the directory `d`. -/
structure PatternFits (host : Host) (fs : FileSystem) (d : Loc) (pattern : Bytes) : Prop where
  /-- Behind its literal characters it ends or goes on with `*` or `?`. -/
  wildcard : literalPattern (some (literals pattern.length pattern).2) = none
  /-- The partition directories of these characters are there. -/
  dirs : fs.tree.isDir (((literals pattern.length pattern).1.map partName).reverse ++ d)
  /-- The block of the key part holds these characters. -/
  room : (literals pattern.length pattern).1.flatten.length ≤ subkeyRoom
  /-- It matches a key exactly if a walk comes to the directory of the key and what is left of
  the pattern there matches what is left of the key. -/
  agrees : ∀ ns c, KeyIn fs.tree d ns c → (host.fnmatch pattern (spelled ns c) = true ↔
    ∃ q, patternAt pattern ns = some q ∧ host.fnmatch q c = true)
  /-- An `int` counts the keys it matches in the partitions. -/
  few : (literals pattern.length pattern).1 ≠ [] →
    ((listing host fs.tree (fs.tree.nodes.keys.length + 2) d []).filter fun key =>
      host.fnmatch pattern key && !fs.tree.isDir (key :: d)).length < 2 ^ 31

section

variable {host : Host} {M : ℤ} {fs : FileSystem} {D pattern rest c x : Bytes} {d : Loc}
  {cs : List Bytes} {ns ns' : List Name} {n : ℕ}

/-- A literal is not empty and consists of bytes of the pattern. -/
theorem mem_of_splits (hs : Splits pattern cs rest) (hc : c ∈ cs) :
    c ≠ [] ∧ ∀ b ∈ c, b ∈ pattern := by
  induction hs with
  | done _ => exact absurd hc List.not_mem_nil
  | @step pattern c' cs rest hlit _ ih =>
    have hfirst := firstChar_of_literalChar hlit
    rcases List.mem_cons.1 hc with rfl | hc
    · exact ⟨firstChar_ne_nil hfirst, fun b hb => (firstChar_eq_ok.1 hfirst).1.subset hb⟩
    · exact ⟨(ih hc).1, fun b hb => List.mem_of_mem_drop ((ih hc).2 b hb)⟩

/-- A literal character other than `.` and `/` names a partition directory. -/
theorem validName_of_splits (hs : Splits pattern cs rest) (h0 : 0 ∉ pattern) (hc : c ∈ cs)
    (hdot : c ≠ [dot]) (hslash : slash ∉ c) : ValidName (partName c) := by
  obtain ⟨hne, hmem⟩ := mem_of_splits hs hc
  refine ⟨⟨by simp [partName], by simpa [partName] using hne, by simpa [partName] using hdot⟩,
    ?_, ?_⟩
  · simpa [partName, show slash ≠ dot by decide] using hslash
  · simpa [partName, show (0 : UInt8) ≠ dot by decide] using fun h => h0 (hmem 0 h)

theorem mem_listing_keyIn (hf : fs.tree.isDir d → fs.tree.sizeAt d ≤ n) :
    x ∈ listing host fs.tree n d [] ↔ ∃ ns c, KeyIn fs.tree d ns c ∧ x = spelled ns c := by
  rw [← full_eq_listing n (d, []), ← patternKeys_none, mem_full hf]
  simp [fnmMatched]

namespace KeyDirs

variable (h : KeyDirs M fs D d)

include h

theorem home_of_keyIn (hk : KeyIn fs.tree d ns c) :
    ∃ k i, HomeAt d k i (c :: (ns.reverse ++ d)) ∧ k.val = spelled ns c := by
  obtain ⟨k, i, hl⟩ := h.dirs.home_of_visible (List.suffix_append _ _) hk.isDir hk.visible
  exact ⟨k, i, hl, Spells.key ⟨ns, hk.hidden, rfl, rfl⟩ hl⟩

theorem head?_spelled (hk : KeyIn fs.tree d ns c) : (spelled ns c).head? ≠ some dot := by
  obtain ⟨k, i, -, hv⟩ := h.home_of_keyIn hk
  exact hv ▸ k.visible

/-- No key lies in two places. -/
theorem keyIn_inj {c' : Name} (hk : KeyIn fs.tree d ns c) (hk' : KeyIn fs.tree d ns' c')
    (he : spelled ns c = spelled ns' c') : ns = ns' ∧ c = c' := by
  obtain ⟨k, i, hl, hv⟩ := h.home_of_keyIn hk
  obtain ⟨k', i', hl', hv'⟩ := h.home_of_keyIn hk'
  obtain rfl := Key.ext_val (hv.trans (he.trans hv'.symm))
  obtain rfl := h.unique k i i' _ _ hl hl' hk.isDir hk'.isDir
  have := hl.unique hl'
  rw [List.cons.injEq, List.append_cancel_right_eq, List.reverse_inj] at this
  exact ⟨this.2, this.1⟩

theorem nodup_listing (hf : fs.tree.sizeAt d ≤ n) : (listing host fs.tree n d []).Nodup :=
  Idb.nodup_listing h.dirs h.unique (spells_base d) h.isAt.isDir hf

end KeyDirs

/-- What the calls with a pattern return, for the keys found and their number. -/
theorem keyWalk_finds {k : ℤ} {found : List Bytes} {part' : Bytes} {p : Option WalkKeyHandler}
    {q : TIDBProcesses} {out : Bytes → List Bytes}
    (hw : WalkFinds host fs (walkFuel fs.tree (some pattern)) D [] pattern [] 0 found k part')
    (hr : Records p q out) : ∃ aRec', aRec'.subkeyPart = part' ∧
      keyWalk host fs D [] (some pattern) 0 0 p q = (k, fs, aRec', found.flatMap out) :=
  hw.walk hr 0 []

/-- The walk returns what it finds, unless the part it has spelled has outgrown its buffer. -/
theorem iSubkeyWalk_finds {k : ℤ} {found : List Bytes} {part' : Bytes} {p : Option WalkKeyHandler}
    {q : TIDBProcesses} {out : Bytes → List Bytes}
    (hw : WalkFinds host fs (walkFuel fs.tree (some pattern)) D [] pattern [] 0 found k part')
    (hr : Records p q out) :
    iSubkeyWalk host fs D [] (some pattern) 0 0 p q =
      if part'.length ≤ subkeyRoom then some (k, fs, found.flatMap out) else none := by
  obtain ⟨aRec', hpart, hwalk⟩ := keyWalk_finds hw hr
  rw [iSubkeyWalk, hwalk, ← hpart]

variable (h : KeyDirs M fs D d)

include h

/-- The keys on the way of a pattern are those it matches exactly if it agrees with what is left
of it at each of them. -/
theorem agrees_iff (hs : Splits pattern cs rest) {m : ℕ} (hf : fs.tree.sizeAt d ≤ n)
    (hf' : fs.tree.sizeAt d ≤ m) :
    (∀ x, x ∈ patternListing host fs.tree n cs pattern d [] ↔
      x ∈ listing host fs.tree m d [] ∧ host.fnmatch pattern x = true) ↔
    ∀ ns c, KeyIn fs.tree d ns c → (host.fnmatch pattern (spelled ns c) = true ↔
      ∃ q, patternAt pattern ns = some q ∧ host.fnmatch q c = true) := by
  have hmem := fun x => @mem_patternListing host fs.tree d [] x pattern rest cs hs n fun _ => hf
  have hall := fun x => @mem_listing_keyIn host fs x d m fun _ => hf'
  constructor
  · intro hset ns c hk
    have hin : spelled ns c ∈ listing host fs.tree m d [] := (hall _).2 ⟨ns, c, hk, rfl⟩
    constructor
    · intro hmatch
      obtain ⟨ns', c', hk', hq, he⟩ := (hmem _).1 ((hset _).2 ⟨hin, hmatch⟩)
      obtain ⟨rfl, rfl⟩ := h.keyIn_inj hk hk' he
      exact hq
    · intro hq
      exact ((hset _).1 ((hmem _).2 ⟨ns, c, hk, hq, rfl⟩)).2
  · intro hagree x
    rw [hmem, hall]
    constructor
    · rintro ⟨ns, c, hk, hq, rfl⟩
      exact ⟨⟨ns, c, hk, rfl⟩, (hagree ns c hk).2 hq⟩
    · rintro ⟨⟨ns, c, hk, rfl⟩, hmatch⟩
      exact ⟨ns, c, hk, (hagree ns c hk).1 hmatch, rfl⟩

/-- The keys on the way of a pattern that are not in the directory itself. -/
theorem length_patternListing (hs : Splits pattern cs rest) (hcs : cs ≠ [])
    (hf : fs.tree.sizeAt d ≤ n) {all : List Bytes}
    (hall : (patternListing host fs.tree n cs pattern d []).Perm
      (all.filter (host.fnmatch pattern))) :
    (patternListing host fs.tree n cs pattern d []).length =
      (patternKeys host (some pattern) fs.tree (d, [])).length +
        (all.filter fun key => host.fnmatch pattern key && !fs.tree.isDir (key :: d)).length := by
  cases hs with
  | done => exact absurd rfl hcs
  | @step _ c cs rest hc hs =>
    set below := patternListing host fs.tree (n - 1) cs (pattern.drop c.length)
      (partName c :: d) ([] ++ c) with hbelow
    have hsize : fs.tree.isDir (partName c :: d) → fs.tree.sizeAt (partName c :: d) ≤ n - 1 := by
      intro hn
      have := sizeAt_cons_lt (c := partName c) (isDir_of_cons hn)
      omega
    have hkeys : (patternKeys host (some pattern) fs.tree (d, [])).filter
        (fun key => !fs.tree.isDir (key :: d)) = [] := by
      rw [List.filter_eq_nil_iff]
      intro x hx
      obtain ⟨c', hk, -, rfl⟩ := mem_patternKeys.1 hx
      simpa [spelled] using hk.isDir
    -- What lies in a partition does not lie in the directory too.
    have hrest : below.filter (fun key => !fs.tree.isDir (key :: d)) = below := by
      rw [List.filter_eq_self]
      intro x hx
      obtain ⟨ns, c', hk, -, rfl⟩ := (mem_patternListing hs hsize).1 hx
      have hk' : KeyIn fs.tree d (partName c :: ns) c' := keyIn_cons.2 ⟨rfl, hk⟩
      have he : [] ++ c ++ spelled ns c' = spelled (partName c :: ns) c' := by
        rw [spelled_cons]
        rfl
      rw [he, Bool.not_eq_true', ← Bool.not_eq_true]
      intro hd
      have hk₀ : KeyIn fs.tree d [] (spelled (partName c :: ns) c') :=
        keyIn_nil.2 ⟨hd, h.head?_spelled hk'⟩
      exact absurd (h.keyIn_inj hk₀ hk' rfl).1 (by simp)
    have hperm := hall.filter fun key => !fs.tree.isDir (key :: d)
    rw [patternListing, List.filter_append, hkeys, ← hbelow, hrest, List.nil_append,
      List.filter_filter] at hperm
    rw [patternListing, List.length_append, ← hbelow, hperm.length_eq]
    simp only [Bool.and_comm]

/-- A pattern finds the keys it matches if it finds as many as it counts and no others, and the
walk returns. -/
theorem findsMatches_of_finds {k : ℤ} {found : List Bytes} {part' : Bytes} (host : Host)
    (g : TIDBProcesses) (hsize : fs.tree.nodes.keys.length < 2 ^ 63)
    (hw : WalkFinds host fs (walkFuel fs.tree (some pattern)) D [] pattern [] 0 found k part')
    (hnodup : found.Nodup) :
    FindsMatches host g fs D pattern ↔ part'.length ≤ subkeyRoom ∧ k = found.length ∧
      found.Perm ((listing host fs.tree (fs.tree.nodes.keys.length + 2) d []).filter
        (host.fnmatch pattern)) := by
  have hwalk : iSubkeyWalk host fs D [] none 0 0 (some keyRecorder) .dkReserved =
      some (((listing host fs.tree (fs.tree.nodes.keys.length + 2) d []).length : ℤ), fs,
        listing host fs.tree (fs.tree.nodes.keys.length + 2) d []) := by
    rw [iSubkeyWalk_listing records_keyRecorder h.isAt h.links hsize, List.flatMap_singleton']
  have hall : (metKeys host fs D [] none 0 0).Nodup := by
    rw [metKeys_of_walk hwalk]
    exact h.nodup_listing ((sizeAt_le _).trans (Nat.le_add_right _ _))
  have hmet : (metKeys host fs D [] (some pattern) 0 0).Nodup := by
    obtain ⟨aRec', -, hmet⟩ := keyWalk_finds hw records_keyRecorder
    rw [metKeys, hmet, List.flatMap_singleton']
    exact hnodup
  have htotal : iSubkeyTotal host fs D [] (some pattern) .dkIgnored =
      if part'.length ≤ subkeyRoom then some k else none := by
    rw [iSubkeyTotal, @iSubkeyWalk_finds host fs D pattern k found part' none .dkIgnored
      (fun _ => []) hw fun _ _ _ _ _ _ => by simp [callKey]]
    split_ifs <;> rfl
  have hlist : iSubkeys host g fs D [] none 0 0 .dkIgnored =
      some (some (listing host fs.tree (fs.tree.nodes.keys.length + 2) d []), fs) := by
    rw [iSubkeys, iSubkeyWalk_of_nodup (Or.inr hall), hwalk]
    simp
  have hfound : iSubkeys host g fs D [] (some pattern) 0 0 .dkIgnored =
      if part'.length ≤ subkeyRoom then some (if k < 0 then none else some found, fs)
      else none := by
    rw [iSubkeys, iSubkeyWalk_of_nodup (Or.inr hmet), iSubkeyWalk_finds hw records_keyRecorder,
      List.flatMap_singleton']
    split_ifs <;> simp_all
  rw [FindsMatches, hlist, hfound, htotal]
  by_cases hroom : part'.length ≤ subkeyRoom
  · rw [if_pos hroom, if_pos hroom]
    constructor
    · rintro ⟨all, found', hall, hfound, hperm, hk⟩
      obtain rfl := Option.some.inj (congrArg Prod.fst (Option.some.inj hall))
      obtain rfl := Option.some.inj hk
      have hk₀ : ¬(found'.length : ℤ) < 0 := by omega
      rw [if_neg hk₀] at hfound
      obtain rfl := Option.some.inj (congrArg Prod.fst (Option.some.inj hfound))
      exact ⟨hroom, rfl, hperm⟩
    · rintro ⟨-, rfl, hperm⟩
      exact ⟨_, found, rfl, by rw [if_neg (by omega)], hperm, rfl⟩
  · rw [if_neg hroom, if_neg hroom]
    refine iff_of_false ?_ fun hc => hroom hc.1
    rintro ⟨all, found', -, hfound, -⟩
    simp at hfound

end

/-- In every state of a run of puts a pattern finds the keys it matches exactly if it fits the
partitions. The characters `.` and `/` lead out of a directory, not into a partition of it. -/
theorem findsMatches_iff (host : Host) (S : Start) (M : ℤ) (calls : List PutCall) (pattern : Bytes)
    (g : TIDBProcesses) (h0 : 0 ∉ pattern)
    (hchars : ∀ c ∈ (literals pattern.length pattern).1, c ≠ [dot] ∧ slash ∉ c)
    (hsize : (S.putCalls host M calls).tree.nodes.keys.length < 2 ^ 63) :
    FindsMatches host g (S.putCalls host M calls) S.dir pattern ↔
      PatternFits host (S.putCalls host M calls) S.loc pattern := by
  have h := S.keyDirs_putCalls host M calls
  generalize S.putCalls host M calls = fs at h hsize ⊢
  set n := walkFuel fs.tree (some pattern) with hn
  have hf : fs.tree.sizeAt S.loc ≤ n := sizeAt_le_walkFuel _ _ _
  have hf' : fs.tree.sizeAt S.loc ≤ fs.tree.nodes.keys.length + 2 :=
    (sizeAt_le _).trans (Nat.le_add_right _ _)
  have hs : Splits pattern _ _ := literals_splits pattern.length le_rfl
  obtain ⟨found, k, part', hw, hsub, hk, hfound⟩ := @subkeyWalk_pattern host _ _ _ _ _ _ _ [] 0
    _ _ hs (fun c hc => validName_of_splits hs h0 hc (hchars c hc).1 (hchars c hc).2)
    h.links hsize (List.suffix_refl S.loc) (at_sdsJoinPathLen_nil h.isAt) hf (Or.inl rfl)
  have hperm : fs.tree.isDir (((literals pattern.length pattern).1.map partName).reverse ++ S.loc) →
      ((patternListing host fs.tree n (literals pattern.length pattern).1 pattern S.loc []).Perm
        ((listing host fs.tree (fs.tree.nodes.keys.length + 2) S.loc []).filter
          (host.fnmatch pattern)) ↔ ∀ ns c, KeyIn fs.tree S.loc ns c →
          (host.fnmatch pattern (spelled ns c) = true ↔
            ∃ q, patternAt pattern ns = some q ∧ host.fnmatch q c = true)) := by
    intro hdirs
    have hsub := @patternListing_sublist host S.loc [] pattern _ n _ fs.tree hs hdirs hf
    rw [List.perm_ext_iff_of_nodup (hsub.nodup (h.nodup_listing hf))
      ((h.nodup_listing hf').filter _)]
    simp only [List.mem_filter]
    exact agrees_iff h hs hf hf'
  rw [findsMatches_of_finds h host g hsize hw (hsub.nodup (h.nodup_listing hf))]
  constructor
  · rintro ⟨hroom, hcount, hmatch⟩
    have hopen := hk.1 hcount
    obtain ⟨hlist, hpart⟩ := hfound hopen
    rw [hlist] at hmatch
    rw [hpart] at hroom
    refine ⟨hopen.wildcard, hopen.dirs, hroom, (hperm hopen.dirs).1 hmatch, fun hcs => ?_⟩
    have hfew := hopen.few hcs
    rw [length_patternListing h hs hcs hf hmatch] at hfew
    omega
  · rintro ⟨hwild, hdirs, hroom, hagree, hfew⟩
    have hmatch := (hperm hdirs).2 hagree
    have hopen : WayOpen host fs.tree n (literals pattern.length pattern).1
        (literals pattern.length pattern).2 pattern S.loc [] := by
      refine ⟨hwild, hdirs, fun hcs => ?_⟩
      have := hfew hcs
      rw [length_patternListing h hs hcs hf hmatch]
      omega
    obtain ⟨hlist, hpart⟩ := hfound hopen
    exact ⟨hpart ▸ hroom, hk.2 hopen, hlist ▸ hmatch⟩

/-- What `fnmatch` does with a pattern of literal characters, `*` and `?`. -/
def globMatch : Bytes → Bytes → Bool
  | [], name => name.isEmpty
  | 42 :: pattern, name => name.tails.any (globMatch pattern)
  | 63 :: pattern, name => !name.isEmpty && globMatch pattern name.tail
  | b :: pattern, name => name.head? = some b && globMatch pattern name.tail

/-- A host that takes a period at the start of a name only for itself. -/
def globHost : Host :=
  { plainHost with
    fnmatch := fun pattern name =>
      (name.head? ≠ some dot || pattern.head? = some dot) && globMatch pattern name }

/-- `x` is put. -/
def callX : PutCall :=
  ⟨keyX, none, [49], .dkIgnored, storeInFile, .none⟩

/-- `ab` is put. -/
def callAb : PutCall :=
  ⟨keyAb, none, [50], .dkIgnored, storeInFile, .none⟩

/-- Beside `x` the key `ab` goes into the partition of `a`, where `a*` looks for it. -/
theorem findsMatches_partitioned :
    0 ∉ ([97, 42] : Bytes) ∧
      (∀ c ∈ (literals 2 [97, 42]).1, c ≠ [dot] ∧ slash ∉ c) ∧
      (rootStart.putCalls globHost 1 [callX, callAb]).tree.nodes.keys.length < 2 ^ 63 ∧
      (FindsMatches globHost .dkIgnored (rootStart.putCalls globHost 1 [callX, callAb])
        rootStart.dir [97, 42] ↔
        PatternFits globHost (rootStart.putCalls globHost 1 [callX, callAb]) rootStart.loc
          [97, 42]) := by
  have h0 : 0 ∉ ([97, 42] : Bytes) := by decide
  have hchars : ∀ c ∈ (literals 2 [97, 42]).1, c ≠ [dot] ∧ slash ∉ c := by decide +kernel
  have hsize : (rootStart.putCalls globHost 1 [callX, callAb]).tree.nodes.keys.length < 2 ^ 63 := by
    decide +kernel
  exact ⟨h0, hchars, hsize, findsMatches_iff globHost rootStart 1 [callX, callAb] [97, 42]
    .dkIgnored h0 hchars hsize⟩

/-- Without partitions there is no `.a`, and what is missing there is taken off the total. -/
theorem not_findsMatches_flat :
    ¬FindsMatches globHost .dkIgnored (rootStart.putCalls globHost 0 [callAb]) rootStart.dir
      [97, 42] := by
  rintro ⟨all, found, -, hfound, -, htotal⟩
  have hlist : (iSubkeys globHost .dkIgnored (rootStart.putCalls globHost 0 [callAb]) rootStart.dir
      [] (some [97, 42]) 0 0 .dkIgnored).map (·.1) = some (some [[97, 98]]) := by decide +kernel
  have hcount : iSubkeyTotal globHost (rootStart.putCalls globHost 0 [callAb]) rootStart.dir []
      (some [97, 42]) .dkIgnored = some 0 := by decide +kernel
  rw [hfound] at hlist
  obtain rfl := Option.some.inj (Option.some.inj hlist)
  rw [hcount] at htotal
  exact absurd htotal (by decide)

end Idb
