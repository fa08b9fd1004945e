import Idb.Pages
import Idb.Processors
import Idb.KeyList

/-!
# Pages of subkeys

`iSubkeys` with a number of keys to skip and a number of keys wanted copies both for every
partition directory, and takes the second one for a limit of the number of partitions too. A
walk with a processor that only collects is a page of the listing in the sense of `Pages.page`
(`subkeyWalk_page`), whatever the tree. So a page is right if the numbers handed to the partitions
did not have to be taken down, and all pages of a tree are right exactly if that is so for all of
them (`pages_iff`).
-/

namespace Idb

open Posix FileSystem FileTree Pages

/-! ## A directory and its partitions -/

/-- The keys of a directory, which is given with the key part its path spells. -/
def pageKeys (host : Host) (t : FileTree Xattrs) (i : Loc × Bytes) : List Bytes :=
  (visibleDirs host t i.1).map (i.2 ++ ·)

/-- Those whose names match a pattern. -/
def patternKeys (host : Host) (aPattern : Option Bytes) (t : FileTree Xattrs) (i : Loc × Bytes) :
    List Bytes :=
  ((visibleDirs host t i.1).filter (fnmMatched host aPattern)).map (i.2 ++ ·)

/-- The partitions of a directory, with the part of the key they stand for. -/
def partitions (host : Host) (t : FileTree Xattrs) (i : Loc × Bytes) : List (Loc × Bytes) :=
  (hiddenDirs host t i.1).map fun n => (n :: i.1, i.2 ++ n.tail)

section

variable {host : Host} {t : FileTree Xattrs} {aPattern : Option Bytes}

theorem patternKeys_none : patternKeys host none t = pageKeys host t := by
  funext i
  rw [patternKeys, pageKeys, show fnmMatched host none = fun _ => true from rfl, List.filter_true]

/-- The nested listing is the listing of a walk. -/
theorem full_eq_listing (n : ℕ) (i : Loc × Bytes) :
    full (pageKeys host t) (partitions host t) n i = listing host t n i.1 i.2 := by
  induction n generalizing i with
  | zero => rfl
  | succ n ih =>
    rw [full, listing, pageKeys, partitions, List.flatMap_map]
    simp only [ih]

/-- A directory has no more visible entries than the nodes below them. -/
theorem length_visibleDirs_le (host : Host) (t : FileTree Xattrs) (l : Loc) :
    (visibleDirs host t l).length ≤
      ((visibleDirs host t l).map fun c => t.sizeAt (c :: l)).sum := by
  have := List.length_le_sum_of_one_le
    ((visibleDirs host t l).map fun c => t.sizeAt (c :: l)) fun m hm => by
      obtain ⟨c, hc, rfl⟩ := List.mem_map.1 hm
      exact sizeAt_pos_of_isDir (mem_visibleDirs.1 hc).1
  rwa [List.length_map] at this

/-- A directory weighs less than its subtree has nodes. -/
theorem weight_lt_sizeAt (n : ℕ) {i : Loc × Bytes} (h : t.isDir i.1) :
    weight (patternKeys host aPattern t) (partitions host t) n i < t.sizeAt i.1 := by
  induction n generalizing i with
  | zero =>
    exact sizeAt_pos_of_isDir h
  | succ n ih =>
    have hnodup : (visibleDirs host t i.1 ++ hiddenDirs host t i.1).Nodup := by
      refine List.nodup_append.2 ⟨nodup_visibleDirs, nodup_hiddenDirs, fun c hc c' hc' => ?_⟩
      rintro rfl
      exact (mem_visibleDirs.1 hc).2 (mem_hiddenDirs.1 hc').2
    have hsum := sum_sizeAt_lt h hnodup
    rw [List.map_append, List.sum_append] at hsum
    have hkeys : (patternKeys host aPattern t i).length ≤ (visibleDirs host t i.1).length := by
      rw [patternKeys, List.length_map]
      exact List.length_filter_le _ _
    have hvis := length_visibleDirs_le host t i.1
    have hhid : ((partitions host t i).map fun j =>
        1 + weight (patternKeys host aPattern t) (partitions host t) n j).sum ≤
          ((hiddenDirs host t i.1).map fun c => t.sizeAt (c :: i.1)).sum := by
      rw [partitions, List.map_map]
      refine List.sum_le_sum fun c hc => ?_
      have : weight (patternKeys host aPattern t) (partitions host t) n (c :: i.1, i.2 ++ c.tail) <
          t.sizeAt (c :: i.1) := ih (mem_hiddenDirs.1 hc).1
      simp only [Function.comp]
      omega
    rw [weight]
    omega

end

/-! ## Numbers of keys wanted -/

/-- `left` of `size_t` says that `count` keys are wanted, all of them if `count` is 0, in a
walk that comes to at most `n` keys and partitions. -/
def Limit (left count n : ℕ) : Prop :=
  (left = count ∧ 0 < count ∧ count < 2 ^ 64) ∨ (count = 0 ∧ Room left n)

namespace Limit

variable {left count m n : ℕ}

theorem mono (h : Limit left count n) (hm : m ≤ n) : Limit left count m :=
  h.imp_right fun h => ⟨h.1, h.2.mono hm⟩

/-- The limit that is left after `m` of the keys. -/
theorem sizeSub (h : Limit left count (m + n)) (hn : m + n < 2 ^ 64)
    (hm : 0 < count → m < count) : Limit (sizeSub left m) (count - m) n := by
  rcases h with ⟨rfl, h0, h⟩ | ⟨rfl, h⟩
  · have := hm h0
    refine Or.inl ⟨?_, by omega, by omega⟩
    rw [Idb.sizeSub, Nat.mod_eq_of_lt (show m < 2 ^ 64 by omega)]
    omega
  · exact Or.inr ⟨Nat.zero_sub m, h.sizeSub hn⟩

/-- A limit that the list does not reach changes nothing. -/
theorem slice_eq {α : Type} {l : List α} (h : Limit left count n) (hl : l.length ≤ n)
    (skip : ℕ) : slice skip left l = slice skip count l := by
  rcases h with ⟨rfl, -⟩ | ⟨rfl, h⟩
  · rfl
  · rw [slice_zero_right]
    refine length_slice_of_lt fun h0 => ?_
    have := @length_slice_le _ skip left l
    unfold Room at h
    omega

end Limit

/-! ## The levels of a walk -/

/-- A processor that appends `out key` for every key, and does nothing else. -/
def Records (p : Option WalkKeyHandler) (q : TIDBProcesses) (out : Bytes → List Bytes) : Prop :=
  ∀ n vDir key part fs keys,
    callKey p n vDir key part q (fs, keys) = (walkItemOk, fs, keys ++ out key)

section

variable {U : Type} {aDir : Bytes} {aCount : ℕ} {aProcessor : Option (WalkDirHandler U)}

theorem runItems_stopped {w : Walk U} (h : w.vStopped ≤ walkItemStop) (items : List Dirent) :
    runItems aDir aCount aProcessor items w = w := by
  cases items with
  | nil => rfl
  | cons item items => rw [runItems, if_pos h]

end

section

variable {host : Host} {fs : FileSystem} {vDir : Bytes} {aRec : TSubkeyWalkerRec}
  {out : Bytes → List Bytes}

/-- The keys of a directory : `skip` of them are skipped, and `aRec.leftCount` are wanted. -/
theorem runItems_subkeyWalker (hr : Records aRec.processor aRec.duplicationKeyProcess out)
    {items : List Dirent} (hm : ∀ item ∈ items, fnmMatched host aRec.pattern item.dName)
    {left : ℕ} (skip n : ℕ) (hn : left = 0 ∨ n < left) {v : ℤ} (hv : 0 ≤ v) (keys : List Bytes) :
    ∃ v', 0 ≤ v' ∧ runItems vDir left (some (subkeyWalker host)) items
        ⟨n, 0, v, fs, { aRec with skipCount := skip }, keys⟩ =
      ⟨n + (slice skip (left - n) (items.map Dirent.dName)).length, 0, v', fs,
        { aRec with skipCount := skip - items.length },
        keys ++ ((slice skip (left - n) (items.map Dirent.dName)).map
          (aRec.subkeyPart ++ ·)).flatMap out⟩ := by
  induction items generalizing skip n v keys with
  | nil => exact ⟨v, hv, by simp [runItems, slice]⟩
  | cons item items ih =>
    have ih' := fun skip n hn v hv keys =>
      @ih (fun i hi => hm i (List.mem_cons_of_mem item hi)) skip n hn v hv keys
    have hgo : ¬v ≤ walkItemStop := by
      unfold walkItemStop
      omega
    have hcall := fun n key keys => hr n vDir key aRec.subkeyPart fs keys
    have hmatch : ¬(aRec.subkeyPart ≠ [] ∧ ¬fnmMatched host aRec.pattern item.dName) := by
      simp [hm item List.mem_cons_self]
    rw [runItems, if_neg hgo, processItem, if_neg (by simp)]
    simp only [subkeyWalker_eq, if_neg hmatch]
    by_cases hskip : skip > 0
    · obtain ⟨s, rfl⟩ : ∃ s, skip = s + 1 := ⟨skip - 1, by omega⟩
      obtain ⟨v', hv', he⟩ := ih' s n hn walkItemSkip (by decide) keys
      simp only [if_pos hskip, if_true, Nat.add_sub_cancel]
      rw [he, List.map_cons, slice_succ_cons, List.length_cons, Nat.add_sub_add_right]
      exact ⟨v', hv', rfl⟩
    · obtain rfl : skip = 0 := by omega
      simp only [if_neg hskip, hcall]
      rw [if_neg (show ¬walkItemOk = walkItemSkip by decide)]
      simp only [Bool.false_eq_true, if_false]
      by_cases hfull : left > 0 ∧ n + 1 ≥ left
      · rw [if_pos hfull, show left - n = 1 by omega, List.map_cons, slice_zero_one]
        exact ⟨walkItemOk, by decide, by simp⟩
      · obtain ⟨v', hv', he⟩ := ih' 0 (n + 1) (by omega) walkItemOk (by decide)
          (keys ++ out (aRec.subkeyPart ++ item.dName))
        rw [if_neg hfull]
        rw [he, List.map_cons, slice_zero_cons (by omega), Nat.sub_sub]
        exact ⟨v', hv', by simp [Nat.add_assoc, Nat.add_comm]⟩

/-- After a partition the walk stops when its count has reached what was left. -/
theorem partitionDone_length (aRec : TSubkeyWalkerRec) (n : ℕ) :
    partitionDone aRec n = (if aRec.leftCount > 0 ∧ n ≥ aRec.leftCount then walkItemStop
      else walkItemOk, { aRec with count := aRec.count + n }) := by
  unfold partitionDone
  by_cases hn : n = 0
  · subst hn
    rw [if_neg (by simp), if_neg (by simp), if_neg (by omega)]
    rfl
  · rw [if_pos (by omega), Int.toNat_natCast]
    simp

/-- The partitions of a directory, when the walk of each finds the keys `sub`. -/
theorem runItems_partitionWalker {walk : Bytes → Bytes → RecState → ℤ × RecState}
    {sub : Name → List Bytes} {items : List Dirent}
    (hw : ∀ item ∈ items, ∀ m keys, ∃ aRec', walk vDir item.dName (fs, { aRec with
        subkeyPart := aRec.subkeyPart ++ item.dName.tail
        count := m }, keys) =
      (((sub item.dName).length : ℤ), fs, aRec', keys ++ (sub item.dName).flatMap out))
    {count b : ℕ} (hl : Limit aRec.leftCount count
      (b + (items.map fun item => 1 + (sub item.dName).length).sum))
    (hb : 0 < count → b < count) {v : ℤ} (hv : 0 ≤ v) (m : ℕ) (keys : List Bytes) :
    ∃ b' v', walkItemError < v' ∧
      runItems vDir aRec.leftCount (some (subkeyPartitionWalker walk)) items
          ⟨b, 0, v, fs, { aRec with count := m }, keys⟩ =
        ⟨b', 0, v', fs,
          { aRec with count := m + (pageParts sub count b (items.map Dirent.dName)).length },
          keys ++ (pageParts sub count b (items.map Dirent.dName)).flatMap out⟩ := by
  induction items generalizing b v m keys with
  | nil => exact ⟨b, v, by unfold walkItemError; omega, by simp [runItems, pageParts]⟩
  | cons item items ih =>
    rw [List.map_cons, List.sum_cons] at hl
    have ih' := fun hb v hv m keys =>
      @ih (fun i hi => hw i (List.mem_cons_of_mem item hi)) (b + 1) (hl.mono (by omega)) hb v hv
        m keys
    obtain ⟨aRec', hwalk⟩ := hw item List.mem_cons_self m keys
    set part := sub item.dName with hpart
    have hgo : ¬v ≤ walkItemStop := by
      unfold walkItemStop
      omega
    -- Both limits are the same, or neither is reached.
    have hstop : (aRec.leftCount > 0 ∧ part.length ≥ aRec.leftCount) ↔
        (0 < count ∧ count ≤ part.length) := by
      unfold Limit Room at hl
      omega
    have hfull : (aRec.leftCount > 0 ∧ b + 1 ≥ aRec.leftCount) ↔
        (0 < count ∧ count ≤ b + 1) := by
      unfold Limit Room at hl
      omega
    rw [runItems, if_neg hgo, processItem, if_neg (by simp)]
    simp only [subkeyPartitionWalker_eq, hwalk, partitionDone_length]
    rw [List.map_cons, pageParts, ← hpart]
    by_cases hs : aRec.leftCount > 0 ∧ part.length ≥ aRec.leftCount
    · have hend : 0 < count ∧ (count ≤ part.length ∨ count ≤ b + 1) :=
        ⟨(hstop.1 hs).1, Or.inl (hstop.1 hs).2⟩
      rw [if_pos hs, if_neg (show ¬walkItemStop = walkItemSkip by decide), if_pos hend,
        List.append_nil]
      simp only [Bool.false_eq_true, if_false]
      refine ⟨b + 1, walkItemStop, by decide, ?_⟩
      split_ifs
      · rfl
      · exact runItems_stopped (le_refl walkItemStop) items
    · rw [if_neg hs, if_neg (show ¬walkItemOk = walkItemSkip by decide)]
      simp only [Bool.false_eq_true, if_false]
      by_cases hf : aRec.leftCount > 0 ∧ b + 1 ≥ aRec.leftCount
      · have hend : 0 < count ∧ (count ≤ part.length ∨ count ≤ b + 1) :=
          ⟨(hfull.1 hf).1, Or.inr (hfull.1 hf).2⟩
        rw [if_pos hf, if_pos hend, List.append_nil]
        exact ⟨b + 1, walkItemOk, by decide, rfl⟩
      · have hns : ¬(0 < count ∧ (count ≤ part.length ∨ count ≤ b + 1)) := by
          have h₁ := mt hstop.2 hs
          have h₂ := mt hfull.2 hf
          omega
        obtain ⟨b', v', hv', he⟩ := ih' (by omega) walkItemOk (by decide) (m + part.length)
          (keys ++ part.flatMap out)
        rw [if_neg hf, if_neg hns]
        refine ⟨b', v', hv', ?_⟩
        rw [he]
        simp [Nat.add_assoc]

end

/-! ## The walk -/

section

variable {host : Host} {fs : FileSystem} {p : Option WalkKeyHandler} {q : TIDBProcesses}
  {out : Bytes → List Bytes} (hr : Records p q out)

include hr

theorem Records.recOf (vDir key part : Bytes) (n : ℕ) (st : KeyState) (h : st.1 = fs) :
    (callKey p n vDir key part q st).2.1 = fs := by
  obtain ⟨fs', keys⟩ := st
  rw [hr]
  exact h

/-- The key walker keeps the record's processor and policy. -/
theorem keepsOn_subkeyWalker (vDir : Bytes) :
    KeepsOn fs (fun u : TSubkeyWalkerRec × List Bytes => u.1.processor = p ∧
      u.1.duplicationKeyProcess = q) vDir (some (subkeyWalker host)) := by
  rintro processor ⟨⟩ n item ⟨aRec, keys⟩ hS
  have := @subkeyWalker_inv host p q (fun st => st.1 = fs)
    (fun n vDir key part st => hr.recOf vDir key part n st) vDir n item (fs, aRec, keys)
    ⟨hS.1, hS.2, rfl⟩
  exact ⟨this.2.2, this.1, this.2.1⟩

/-- The partition walker keeps the record's processor and policy. -/
theorem keepsOn_partitionWalker (fuel : ℕ) (vDir : Bytes) :
    KeepsOn fs (fun u : TSubkeyWalkerRec × List Bytes => u.1.processor = p ∧
      u.1.duplicationKeyProcess = q) vDir
        (some (subkeyPartitionWalker (_iSubkeyWalk host fuel))) := by
  rintro processor ⟨⟩ n item ⟨aRec, keys⟩ hS
  have := subkeyPartitionWalker_inv (@subkeyWalk_inv host p q (fun st => st.1 = fs)
    (fun n vDir key part st => hr.recOf vDir key part n st) fuel) vDir n item (fs, aRec, keys)
    ⟨hS.1, hS.2, rfl⟩
  exact ⟨this.2.2, this.1, this.2.1⟩

variable {l : Loc} {vDir part : Bytes} (hat : fs.At vDir l)
  (hlinks : ∀ c, fs.tree.NoLink (c :: l))

include hat hlinks

/-- The walk through the keys of a directory. -/
theorem walkDir_keys (aPattern : Option Bytes) (m left skip : ℕ) (keys : List Bytes) :
    walkDir vDir left (some (subkeyWalker host)) host aPattern listNormalDirs 0
        (fs, ⟨aPattern, part, m, left, skip, p, q⟩, keys) =
      (((slice skip left ((visibleDirs host fs.tree l).filter
          (fnmMatched host aPattern))).length : ℤ), fs,
        ⟨aPattern, part, m, left,
          skip - ((visibleDirs host fs.tree l).filter (fnmMatched host aPattern)).length, p, q⟩,
        keys ++ ((slice skip left ((visibleDirs host fs.tree l).filter
          (fnmMatched host aPattern))).map (part ++ ·)).flatMap out) := by
  have hnames := @map_filter_pattern host fs vDir l hat hlinks aPattern
  obtain ⟨v, hv, he⟩ := @runItems_subkeyWalker host fs vDir
    ⟨aPattern, part, m, left, skip, p, q⟩ out hr
    ((host.readdir fs.tree l).filter (itemSelected host aPattern listNormalDirs vDir fs))
    (fun item hi => by
      have := (List.mem_filter.1 hi).2
      rw [itemSelected_pattern, Bool.and_eq_true] at this
      exact this.2) left skip 0 (Nat.eq_zero_or_pos left) 0 (le_refl 0) keys
  have hlen := congrArg List.length hnames
  rw [List.length_map] at hlen
  rw [hnames, hlen, Nat.sub_zero, Nat.zero_add] at he
  rw [walkDir_at (S := fun u : TSubkeyWalkerRec × List Bytes => u.1.processor = p ∧
    u.1.duplicationKeyProcess = q) (keepsOn_subkeyWalker hr _) ⟨rfl, rfl⟩ hat, he]
  dsimp only
  rw [if_neg (by unfold walkItemError; omega)]

/-- The walk through its partitions. -/
theorem walkDir_partitions {aPattern : Option Bytes} {fuel left count skip : ℕ}
    {sub : Name → List Bytes}
    (hw : ∀ name ∈ hiddenDirs host fs.tree l, ∀ m keys, ∃ aRec',
      _iSubkeyWalk host fuel vDir name
          (fs, ⟨aPattern, part ++ name.tail, m, left, skip, p, q⟩, keys) =
        (((sub name).length : ℤ), fs, aRec', keys ++ (sub name).flatMap out))
    (hl : Limit left count
      ((hiddenDirs host fs.tree l).map fun name => 1 + (sub name).length).sum)
    (m : ℕ) (keys : List Bytes) :
    ∃ b : ℕ, walkDir vDir left (some (subkeyPartitionWalker (_iSubkeyWalk host fuel))) host none
        listHiddenDirs 0 (fs, ⟨aPattern, part, m, left, skip, p, q⟩, keys) =
      ((b : ℤ), fs, ⟨aPattern, part,
        m + (pageParts sub count 0 (hiddenDirs host fs.tree l)).length, left, skip, p, q⟩,
        keys ++ (pageParts sub count 0 (hiddenDirs host fs.tree l)).flatMap out) := by
  have hnames := @map_filter_hiddenDirs host fs vDir l hat hlinks
  have hsum : ((host.readdir fs.tree l).filter (itemSelected host none listHiddenDirs vDir fs)).map
      (fun item => 1 + (sub item.dName).length) =
        (hiddenDirs host fs.tree l).map fun name => 1 + (sub name).length := by
    rw [← hnames, List.map_map]
    rfl
  obtain ⟨b, v, hv, he⟩ := @runItems_partitionWalker fs vDir
    ⟨aPattern, part, m, left, skip, p, q⟩ out _ sub
    ((host.readdir fs.tree l).filter (itemSelected host none listHiddenDirs vDir fs))
    (fun item hi => hw item.dName (hnames ▸ List.mem_map_of_mem hi))
    count 0 (by rw [hsum, Nat.zero_add]; exact hl) id 0 (le_refl 0) m keys
  rw [hnames] at he
  refine ⟨b, ?_⟩
  rw [walkDir_at (S := fun u : TSubkeyWalkerRec × List Bytes => u.1.processor = p ∧
    u.1.duplicationKeyProcess = q) (keepsOn_partitionWalker hr fuel _) ⟨rfl, rfl⟩ hat, he]
  dsimp only
  rw [if_neg (by omega)]

omit hat hlinks

/-- A walk whose pattern does not begin with a literal character is a page. -/
theorem subkeyWalk_page {aPattern : Option Bytes} (hlit : literalPattern aPattern = none)
    {d : Loc} (hlinks : ∀ l, Below d l → fs.tree.NoLink l)
    (hsize : fs.tree.nodes.keys.length < 2 ^ 63) (n : ℕ) {i : Loc × Bytes} (hd : d <:+ i.1)
    {aDir aKey : Bytes} (hat : fs.At (sdsJoinPathLen aDir aKey) i.1) (hf : fs.tree.sizeAt i.1 ≤ n)
    {left count : ℕ}
    (hl : Limit left count
      (weight (patternKeys host aPattern fs.tree) (partitions host fs.tree) n i))
    (m skip : ℕ) (keys : List Bytes) :
    ∃ aRec', _iSubkeyWalk host n aDir aKey (fs, ⟨aPattern, i.2, m, left, skip, p, q⟩, keys) =
      (((page (patternKeys host aPattern fs.tree) (partitions host fs.tree) n skip count i).length :
        ℤ), fs, aRec',
        keys ++ (page (patternKeys host aPattern fs.tree) (partitions host fs.tree) n skip count
          i).flatMap out) := by
  induction n generalizing i aDir aKey left count m skip keys with
  | zero =>
    have := sizeAt_pos_of_isDir hat.isDir
    omega
  | succ n ih =>
    obtain ⟨l, part⟩ := i
    dsimp only at hd hat hf hl ⊢
    have hbig := @weight_lt_sizeAt host fs.tree aPattern (n + 1) (l, part) hat.isDir
    have hle := sizeAt_le (t := fs.tree) l
    have hnl : ∀ c, fs.tree.NoLink (c :: l) := fun c => hlinks _ (below_cons hd c)
    rw [weight, patternKeys, List.length_map] at hl hbig
    rw [page, patternKeys, slice_map, List.length_map]
    dsimp only at hl hbig ⊢

    rw [_iSubkeyWalk_succ]
    dsimp only
    rw [walkDir_keys hr hat hnl]
    set vis := (visibleDirs host fs.tree l).filter (fnmMatched host aPattern) with hvis
    rw [hl.slice_eq (Nat.le_add_right vis.length _) skip]
    set here := slice skip count vis with hhere
    have hhere_le : here.length ≤ vis.length := length_slice_le.trans (Nat.sub_le _ _)
    by_cases hfull : 0 < count ∧ count ≤ here.length
    · rw [if_pos hfull, walkBelow_stop (by unfold Limit at hl; dsimp only; omega), List.length_map]
      exact ⟨_, rfl⟩
    · have hgo : (here.length : ℤ) ≥ 0 ∧ (left = 0 ∨ (here.length : ℤ) < left) := by
        unfold Limit Room at hl
        omega
      have hl' : Limit (sizeSub left here.length) (count - here.length)
          ((partitions host fs.tree (l, part)).map fun j =>
            1 + weight (patternKeys host aPattern fs.tree) (partitions host fs.tree) n j).sum :=
        (hl.mono (Nat.add_le_add_right hhere_le _)).sizeSub (by omega) (by omega)
      rw [if_neg hfull, walkBelow_partitions hgo hlit]
      set sub : Name → List Bytes := fun name =>
        page (patternKeys host aPattern fs.tree) (partitions host fs.tree) n (skip - vis.length)
          (count - here.length) (name :: l, part ++ name.tail) with hsub
      rw [partitions, List.map_map] at hl'
      have hmono : ((hiddenDirs host fs.tree l).map fun name => 1 + (sub name).length).sum ≤
          ((hiddenDirs host fs.tree l).map ((fun j => 1 + weight (patternKeys host aPattern fs.tree)
            (partitions host fs.tree) n j) ∘ fun name => (name :: l, part ++ name.tail))).sum :=
        List.sum_le_sum fun name _ => Nat.add_le_add_left
          ((length_page_le n _ _ _).trans ((Nat.sub_le _ _).trans (length_full_le n _))) 1
      have hw : ∀ name ∈ hiddenDirs host fs.tree l, ∀ m keys, ∃ aRec',
          _iSubkeyWalk host n (sdsJoinPathLen aDir aKey) name (fs, ⟨aPattern, part ++ name.tail, m,
            sizeSub left here.length, skip - vis.length, p, q⟩, keys) =
              (((sub name).length : ℤ), fs, aRec', keys ++ (sub name).flatMap out) := by
        intro name hname m keys
        obtain ⟨hdn, hhid⟩ := mem_hiddenDirs.1 hname
        have hat' : fs.At (sdsJoinPathLen (sdsJoinPathLen aDir aKey) name) (name :: l) := by
          rw [sdsJoinPathLen_eq hat.ne_nil]
          exact hat.subdir hdn
        have hsz := sizeAt_cons_lt (c := name) hat.isDir
        refine ih (i := (name :: l, part ++ name.tail)) (hd.trans (List.suffix_cons name l)) hat'
          (by dsimp only; omega) (hl'.mono ?_) m (skip - vis.length) keys
        refine (Nat.le_add_left _ 1).trans (List.single_le_sum (fun _ _ => Nat.zero_le _) _
          (List.mem_map_of_mem hname))
      obtain ⟨b, hparts⟩ := walkDir_partitions hr hat hnl hw (hl'.mono hmono) here.length
        (keys ++ (here.map (part ++ ·)).flatMap out)
      simp only [Int.toNat_natCast]
      rw [hparts]
      dsimp only
      rw [if_pos (Int.natCast_nonneg b), partitions, pageParts_map, List.length_append,
        List.flatMap_append, List.append_assoc]
      simp only [List.length_map]
      exact ⟨_, rfl⟩

end

/-! ## The pages of a tree -/

section

variable {host : Host} {fs : FileSystem}

theorem at_sdsJoinPathLen_nil {aDir : Bytes} {d : Loc} (h : fs.At aDir d) :
    fs.At (sdsJoinPathLen aDir []) d := by
  rw [sdsJoinPathLen_eq h.ne_nil]
  exact at_withSlash h

/-- The pages of a directory, and the list of all its subkeys. -/
theorem iSubkeyWalk_page {p : Option WalkKeyHandler} {q : TIDBProcesses}
    {out : Bytes → List Bytes} (hr : Records p q out) {aDir : Bytes} {d : Loc}
    (hat : fs.At aDir d) (hlinks : ∀ l, Below d l → fs.tree.NoLink l)
    (hsize : fs.tree.nodes.keys.length < 2 ^ 63) (skip : ℕ) {count : ℕ} (hc : count < 2 ^ 64) :
    iSubkeyWalk host fs aDir [] none skip count p q =
      some (((page (pageKeys host fs.tree) (partitions host fs.tree)
          (walkFuel fs.tree none) skip count (d, [])).length : ℤ), fs,
        (page (pageKeys host fs.tree) (partitions host fs.tree)
          (walkFuel fs.tree none) skip count (d, [])).flatMap out) := by
  have hl : Limit count count (weight (patternKeys host none fs.tree) (partitions host fs.tree)
      (walkFuel fs.tree none) (d, [])) := by
    unfold Limit Room
    omega
  rw [← patternKeys_none, iSubkeyWalk_none]
  obtain ⟨aRec', hwalk⟩ := subkeyWalk_page hr rfl hlinks hsize (walkFuel fs.tree none)
    (i := (d, [])) (List.suffix_refl d) (at_sdsJoinPathLen_nil hat) (sizeAt_le_walkFuel _ _ _) hl 0
    skip []
  simp only [keyWalk, hwalk, List.nil_append]

/-- Without a limit a walk over all subkeys meets the keys of the listing. -/
theorem iSubkeyWalk_listing {p : Option WalkKeyHandler} {q : TIDBProcesses}
    {out : Bytes → List Bytes} (hr : Records p q out) {aDir : Bytes} {d : Loc}
    (hat : fs.At aDir d) (hlinks : ∀ l, Below d l → fs.tree.NoLink l)
    (hsize : fs.tree.nodes.keys.length < 2 ^ 63) :
    iSubkeyWalk host fs aDir [] none 0 0 p q =
      some (((listing host fs.tree (fs.tree.nodes.keys.length + 2) d []).length : ℤ), fs,
        (listing host fs.tree (fs.tree.nodes.keys.length + 2) d []).flatMap out) := by
  rw [iSubkeyWalk_page hr hat hlinks hsize 0 (by decide), page_zero, full_eq_listing,
    listing_walkFuel]

theorem records_iSubkeysWalker (host : Host) (g : TIDBProcesses) :
    Records (some (iSubkeysWalker host g)) .dkReserved fun key => [key] :=
  fun _ _ _ _ _ _ => rfl

/-- `iSubkeys` returns the page that its walk serves. -/
theorem iSubkeys_page {aDir : Bytes} {d : Loc} (hat : fs.At aDir d)
    (hlinks : ∀ l, Below d l → fs.tree.NoLink l) (hsize : fs.tree.nodes.keys.length < 2 ^ 63)
    (g : TIDBProcesses) (skip : ℕ) {count : ℕ} (hc : count < 2 ^ 64) :
    iSubkeys host g fs aDir [] none skip count .dkReserved =
      some (some (page (pageKeys host fs.tree) (partitions host fs.tree)
        (walkFuel fs.tree none) skip count (d, [])), fs) := by
  rw [iSubkeys, iSubkeyWalk_page (records_iSubkeysWalker host g) hat hlinks hsize skip hc]
  simp

end

/-- The page is the slice of the list of all subkeys. -/
def PageRight (host : Host) (fs : FileSystem) (aDir : Bytes) (skip count : ℕ) : Prop :=
  ∀ g, ∃ all fs₁ fs₂,
    iSubkeys host g fs aDir [] none 0 0 .dkReserved = some (some all, fs₁) ∧
    iSubkeys host g fs aDir [] none skip count .dkReserved = some (some (slice skip count all), fs₂)

/-- The numbers handed to the partitions did not have to be taken down. -/
def PageServed (host : Host) (fs : FileSystem) (d : Loc) (skip count : ℕ) : Prop :=
  Served (pageKeys host fs.tree) (partitions host fs.tree) (walkFuel fs.tree none) skip count
    (d, [])

section

variable {host : Host} {fs : FileSystem} {aDir : Bytes} {d : Loc} (hat : fs.At aDir d)
  (hlinks : ∀ l, Below d l → fs.tree.NoLink l) (hsize : fs.tree.nodes.keys.length < 2 ^ 63)

include hat hlinks hsize

/-- A page is right when the walk serves the slice of the full list. -/
theorem pageRight_iff_page {skip count : ℕ} (hc : count < 2 ^ 64) :
    PageRight host fs aDir skip count ↔
      page (pageKeys host fs.tree) (partitions host fs.tree) (walkFuel fs.tree none) skip count
        (d, []) = slice skip count (full (pageKeys host fs.tree) (partitions host fs.tree)
          (walkFuel fs.tree none) (d, [])) := by
  have hpage := fun g skip count (hc : count < 2 ^ 64) =>
    @iSubkeys_page host fs aDir d hat hlinks hsize g skip count hc
  constructor
  · intro h
    obtain ⟨all, fs₁, fs₂, hall, hslice⟩ := h .dkIgnored
    rw [hpage _ 0 0 (by decide), page_zero] at hall
    rw [hpage _ skip count hc] at hslice
    simp only [Option.some.injEq, Prod.mk.injEq] at hall hslice
    rw [hslice.1, hall.1]
  · intro h g
    refine ⟨_, fs, fs, hpage g 0 0 (by decide), ?_⟩
    rw [hpage g skip count hc, page_zero, h]

omit hlinks in
/-- The full list has fewer keys than the tree has nodes. -/
theorem length_full_lt : (full (pageKeys host fs.tree) (partitions host fs.tree)
    (walkFuel fs.tree none) (d, [])).length < 2 ^ 63 := by
  have hle : (full (pageKeys host fs.tree) (partitions host fs.tree) _ _).length ≤ _ :=
    length_full_le (walkFuel fs.tree none) (d, [])
  have hlt := @weight_lt_sizeAt host fs.tree none (walkFuel fs.tree none) (d, []) hat.isDir
  rw [patternKeys_none] at hlt
  have := sizeAt_le (t := fs.tree) d
  dsimp only at *
  omega

end

/-- A page that is served is right. All pages of a directory are right exactly if all are
served. -/
theorem pages_iff (host : Host) (fs : FileSystem) (aDir : Bytes) (d : Loc) (hat : fs.At aDir d)
    (hlinks : ∀ l, Below d l → fs.tree.NoLink l) (hsize : fs.tree.nodes.keys.length < 2 ^ 63) :
    (∀ skip count, count < 2 ^ 64 → PageServed host fs d skip count →
      PageRight host fs aDir skip count) ∧
    ((∀ skip count, count < 2 ^ 64 → PageRight host fs aDir skip count) ↔
      ∀ skip count, count < 2 ^ 64 → PageServed host fs d skip count) := by
  have hserved : ∀ skip count, count < 2 ^ 64 → PageServed host fs d skip count →
      PageRight host fs aDir skip count := fun skip count hc h =>
    (pageRight_iff_page hat hlinks hsize hc).2 (page_eq_slice h)
  refine ⟨hserved, fun h skip count _ => ?_, fun h skip count hc => hserved _ _ hc (h _ _ hc)⟩
  have hlen := @length_full_lt host fs aDir d hat hsize
  refine served_of_firstOnly (firstOnly_of_pages fun skip left _ hleft => ?_) skip count
  exact (pageRight_iff_page hat hlinks hsize (by omega)).1 (h skip left (by omega))

/-- The keys `x` and `ab` of one partition. -/
def onePartition : FileSystem :=
  rootWith [[slash, 120], [slash, dot, 97, slash, 98]]

/-- The hypotheses hold for a directory with one partition. -/
theorem pages_iff_onePartition :
    onePartition.At [slash] [] ∧ (∀ l, Below [] l → onePartition.tree.NoLink l) ∧
      onePartition.tree.nodes.keys.length < 2 ^ 63 ∧
      (∀ skip count, count < 2 ^ 64 → PageServed plainHost onePartition [] skip count →
        PageRight plainHost onePartition [slash] skip count) ∧
      ((∀ skip count, count < 2 ^ 64 → PageRight plainHost onePartition [slash] skip count) ↔
        ∀ skip count, count < 2 ^ 64 → PageServed plainHost onePartition [] skip count) := by
  have hlinks : ∀ l, Below [] l → onePartition.tree.NoLink l := fun l _ => noLink_rootWith _ l
  have hsize : onePartition.tree.nodes.keys.length < 2 ^ 63 := by decide +kernel
  exact ⟨at_root _, hlinks, hsize,
    pages_iff plainHost onePartition [slash] [] (at_root _) hlinks hsize⟩

/-- The keys `ab` and `cd` of two partitions. -/
def twoPartitions : FileSystem :=
  rootWith [[slash, dot, 97, slash, 98], [slash, dot, 99, slash, 100]]

/-- Behind one key there is none left : both partitions skip one. -/
theorem not_pageRight_twoPartitions : ¬PageRight plainHost twoPartitions [slash] 1 0 := by
  intro h
  obtain ⟨all, fs₁, fs₂, hall, hpage⟩ := h .dkIgnored
  have hlen : (iSubkeys plainHost .dkIgnored twoPartitions [slash] [] none 0 0 .dkReserved).bind
      (·.1.map List.length) = some 2 := by decide +kernel
  have hnone : (iSubkeys plainHost .dkIgnored twoPartitions [slash] [] none 1 0 .dkReserved).bind
      (·.1.map List.length) = some 0 := by decide +kernel
  rw [hall] at hlen
  rw [hpage] at hnone
  simp only [Option.bind_some, Option.map_some, Option.some.injEq, slice_zero_right,
    List.length_drop] at hlen hnone
  omega

end Idb
