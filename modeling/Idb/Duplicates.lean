import Idb.Policies

/-!
# Repairing duplicates

At a duplicate `iSubkeys` with `dkFixed` removes the directory it is walking through, not the
entry it is at. The duplicate lies in a partition, as names in one directory differ ; so a
partition directory is removed with every key in it, and no tree with duplicates is repaired
(`repairs_iff`).
-/

namespace Idb

open Posix FileSystem FileTree Pages

/-! ## The directories of the keys -/

/-- The directories a walk lists, with their keys. -/
def listedDirs (host : Host) (t : FileTree Xattrs) : ℕ → Loc → Bytes → List (Bytes × Loc)
  | 0, _, _ => []
  | fuel + 1, p, part =>
    (visibleDirs host t p).map (fun c => (part ++ c, c :: p)) ++
      (hiddenDirs host t p).flatMap fun n => listedDirs host t fuel (n :: p) (part ++ n.tail)

/-- A directory that comes after another one of the same key. -/
def LaterDuplicate (dirs : List (Bytes × Loc)) (l : Loc) : Prop :=
  ∃ pre x post, dirs = pre ++ (x, l) :: post ∧ x ∈ pre.map Prod.fst

/-- Hidden names lead from `d` to `p`, which is another place. -/
def HiddenBelow (d p : Loc) : Prop :=
  ∃ ns : List Name, ns ≠ [] ∧ (∀ n ∈ ns, n.head? = some dot) ∧ p = ns.reverse ++ d

section

variable {host : Host} {t : FileTree Xattrs} {d l m p : Loc} {fuel : ℕ} {part x : Bytes}

/-- The first parts are the listing. -/
theorem map_fst_listedDirs :
    (listedDirs host t fuel p part).map Prod.fst = listing host t fuel p part := by
  induction fuel generalizing p part with
  | zero => rfl
  | succ fuel ih =>
    rw [listedDirs, listing, List.map_append, List.map_map, List.map_flatMap]
    simp only [ih]
    rfl

/-- A listed key lies in a visible directory below the one walked. -/
theorem mem_listedDirs (h : (x, l) ∈ listedDirs host t fuel p part) :
    ∃ c q, l = c :: q ∧ c.head? ≠ some dot ∧ p <:+ q := by
  induction fuel generalizing p part with
  | zero => exact absurd h List.not_mem_nil
  | succ fuel ih =>
    rw [listedDirs, List.mem_append, List.mem_map, List.mem_flatMap] at h
    rcases h with ⟨c, hc, he⟩ | ⟨n, -, hn⟩
    · rw [Prod.mk.injEq] at he
      exact ⟨c, p, he.2.symm, (mem_visibleDirs.1 hc).2, List.suffix_refl p⟩
    · obtain ⟨c, q, hl, hc, hq⟩ := ih hn
      exact ⟨c, q, hl, hc, (List.suffix_cons n p).trans hq⟩

theorem not_laterDuplicate {dirs : List (Bytes × Loc)} (h : (dirs.map Prod.fst).Nodup) :
    ¬LaterDuplicate dirs l := by
  rintro ⟨pre, x, post, rfl, hx⟩
  rw [List.map_append, List.nodup_append] at h
  exact h.2.2 x hx x (by simp) rfl

/-- What hidden names lead to lies in no directory of a key. -/
theorem HiddenBelow.not_listed (h : HiddenBelow d m) (hl : (x, l) ∈ listedDirs host t fuel d part) :
    ¬l <:+ m := by
  obtain ⟨ns, -, hns, rfl⟩ := h
  obtain ⟨c, q, rfl, hc, r, rfl⟩ := mem_listedDirs hl
  rintro ⟨pre, hpre⟩
  rw [← List.cons_append, ← List.append_assoc, List.append_cancel_right_eq] at hpre
  refine hc (hns c (List.mem_reverse.1 ?_))
  rw [← hpre]
  simp

end

/-! ## What is removed at a duplicate -/

/-- The path of a partition below `dir`, in a walk without a pattern. -/
def PartitionPath (dir vDir : Bytes) (_part : Bytes) (pattern : Option Bytes) : Prop :=
  pattern = none ∧ ∃ ns : List Name, ns ≠ [] ∧ (∀ n ∈ ns, ValidName n ∧ n.head? = some dot) ∧
    vDir = ns.foldl joinName dir

section

variable {host : Host} {fs : FileSystem} {dir : Bytes} {d : Loc}

/-- What the partition walk is shown has a leading dot. -/
theorem hidden_of_shown {path : Bytes} {items : List Dirent} {item : Dirent}
    (he : host.entries fs path = .ok items) (hi : item ∈ items)
    (hs : shown listHiddenDirs item.dName) :
    ValidName item.dName ∧ item.dName.head? = some dot := by
  obtain ⟨l, -, hg⟩ := at_of_entries he hi hs
  obtain ⟨n, hn⟩ := Option.ne_none_iff_exists'.1 hg
  have hv := validName_of_get hn
  rw [shown_hiddenDirs hv.1] at hs
  exact ⟨hv, by simpa using hs⟩

/-- The first partition on the way down. -/
theorem partitionPath_first (hdir : dir ≠ []) {part : Bytes} {items : List Dirent} {item : Dirent}
    (he : host.entries fs (withSlash dir) = .ok items) (hi : item ∈ items)
    (hs : shown listHiddenDirs item.dName) :
    PartitionPath dir (sdsJoinPathLen (withSlash dir) item.dName) part none := by
  refine ⟨rfl, [item.dName], List.cons_ne_nil _ _, fun n hn => ?_, ?_⟩
  · rw [List.mem_singleton.1 hn]
    exact hidden_of_shown he hi hs
  · rw [sdsJoinPathLen_eq (show withSlash dir ≠ [] from joinName_ne_nil hdir), joinName_withSlash]
    rfl

/-- A partition inside a partition. -/
theorem PartitionPath.next (hdir : dir ≠ []) {vDir part part' : Bytes} {pattern : Option Bytes}
    {items : List Dirent} {item : Dirent} (h : PartitionPath dir vDir part pattern)
    (he : host.entries fs vDir = .ok items) (hi : item ∈ items)
    (hs : shown listHiddenDirs item.dName) :
    PartitionPath dir (sdsJoinPathLen vDir item.dName) part' pattern := by
  obtain ⟨hpat, ns, hne, hns, rfl⟩ := h
  refine ⟨hpat, ns ++ [item.dName], by simp, fun n hn => ?_, ?_⟩
  · rcases List.mem_append.1 hn with hn | hn
    · exact hns n hn
    · rw [List.mem_singleton.1 hn]
      exact hidden_of_shown he hi hs
  · rw [sdsJoinPathLen_eq (foldl_joinName_ne_nil hdir), List.foldl_append]
    rfl

/-- The partition that is walked through is removed. -/
theorem PartitionPath.removed (ha : fs.Anchored dir d) (hlinks : ∀ l, Below d l → fs.tree.NoLink l)
    {vDir part : Bytes} {pattern : Option Bytes} {items : List Dirent} {item : Dirent}
    (h : PartitionPath dir vDir part pattern) (he : host.entries fs vDir = .ok items)
    (hi : item ∈ items) (hs : shown listNormalDirs item.dName) :
    ∃ m, HiddenBelow d m ∧ fs.tree.get m ≠ none ∧ (deleteDir host fs vDir).1.tree.get m = none := by
  obtain ⟨-, ns, hne, hns, rfl⟩ := h
  obtain ⟨l, hat, -⟩ := at_of_entries he hi hs
  obtain ⟨ms, n, rfl⟩ := (List.eq_nil_or_concat' ns).resolve_left hne
  have hvalid : ∀ m ∈ ms, ValidName m := fun m hm => (hns m (List.mem_append_left _ hm)).1
  have hv := (hns n (by simp)).1
  obtain ⟨hdir, herr⟩ := ha.toAt.resolve_names hvalid hv hlinks true
  have hd : fs.tree.isDir (ms.reverse ++ d) := by
    by_contra hd
    obtain ⟨err, herr⟩ := herr (by simpa using hd)
    rw [hat.resolve] at herr
    simp at herr
  have hl := hdir hd
  rw [hat.resolve, Except.ok.injEq] at hl
  have hg : fs.tree.get (n :: (ms.reverse ++ d)) ≠ none := get_ne_none_of_isDir (hl ▸ hat.isDir)
  obtain ⟨fs', he', -, hr⟩ := @deleteDir_entry host _ _ _ _ (ha.names hvalid hd) hv hg
  rw [List.foldl_append, List.foldl_cons, List.foldl_nil, he']
  refine ⟨n :: (ms.reverse ++ d), ⟨ms ++ [n], by simp, fun m hm => (hns m hm).2, by simp⟩, hg, ?_⟩
  rw [hr, if_pos (List.suffix_refl _)]

/-- Some partition of `fs` is gone. -/
def PartitionLost (d : Loc) (fs fs' : FileSystem) : Prop :=
  ∃ m, HiddenBelow d m ∧ fs.tree.get m ≠ none ∧ fs'.tree.get m = none

/-- A walk processor's call leaves a lost partition lost. -/
theorem PartitionLost.call {policy : TIDBProcesses} (hp : policy ≠ .dkReserved) (n : ℕ)
    (vDir key part : Bytes) (st : KeyState) (h : PartitionLost d fs st.1) :
    PartitionLost d fs
      (callKey (some (iSubkeysWalker host .dkFixed)) n vDir key part policy st).2.1 := by
  obtain ⟨fs', keys⟩ := st
  by_cases hmem : key ∈ keys
  · rw [callKey_iSubkeysWalker_fixed hp hmem]
    obtain ⟨m, hm, hg, hn⟩ := h
    refine ⟨m, hm, hg, ?_⟩
    rcases (@deleteDir_frame host fs' vDir).get_cases m with hc | hc
    · exact hc.trans hn
    · exact hc.2
  · rwa [callKey_iSubkeysWalker_new hmem]

end

/-! ## Trees with duplicates -/

section

variable {host : Host} {fs : FileSystem} {dir : Bytes} {d : Loc}

/-- The names in one directory are no duplicates of each other. -/
theorem walkDir_first {p : Option WalkKeyHandler} {q : TIDBProcesses}
    (hc : Collects p q fun key => [key]) (hat : fs.At (withSlash dir) d)
    (hlinks : ∀ c, fs.tree.NoLink (c :: d)) :
    walkDir (withSlash dir) 0 (some (subkeyWalker host)) host none listNormalDirs 0
        (fs, ⟨none, [], 0, 0, 0, p, q⟩, []) =
      (((visibleDirs host fs.tree d).length : ℤ), fs, ⟨none, [], 0, 0, 0, p, q⟩,
        visibleDirs host fs.tree d) := by
  have hh := @handles_subkeyWalker _ host fs ⟨none, [], 0, 0, 0, p, q⟩ (withSlash dir) hc rfl rfl
    (visibleDirs host fs.tree d) 0 []
    ⟨by simpa using nodup_visibleDirs, fun _ _ => List.not_mem_nil⟩
  have hwalk := walkDir_handles hat (map_filter_normalDirs hat hlinks) hh (Or.inl rfl)
  simpa using hwalk

/-- After the keys of the directory come those of its partitions. -/
theorem keyWalk_first {p : Option WalkKeyHandler} {q : TIDBProcesses}
    (hc : Collects p q fun key => [key]) (hat : fs.At dir d)
    (hlinks : ∀ c, fs.tree.NoLink (c :: d)) {fuel : ℕ} (hfuel : walkFuel fs.tree none = fuel + 1) :
    let w := keyWalk host fs dir [] none 0 0 p q
    let vis := visibleDirs host fs.tree d
    let r := walkDir (withSlash dir) (sizeSub 0 vis.length)
      (some (subkeyPartitionWalker (_iSubkeyWalk host fuel))) host none listHiddenDirs 0
      (fs, ⟨none, [], vis.length, sizeSub 0 vis.length, 0, p, q⟩, vis)
    w.2.1 = r.2.1 ∧ w.2.2.2 = r.2.2.2 := by
  have hjoin : sdsJoinPathLen dir [] = withSlash dir := sdsJoinPathLen_eq hat.ne_nil []
  intro w vis r
  have hw : w = walkBelow host (_iSubkeyWalk host fuel) (withSlash dir)
      ((vis.length : ℤ), fs, ⟨none, [], 0, 0, 0, p, q⟩, vis) := by
    change keyWalk host fs dir [] none 0 0 p q = _
    rw [keyWalk, hfuel, _iSubkeyWalk_succ, hjoin, walkDir_first hc (at_withSlash hat) hlinks]
  rw [hw, walkBelow_partitions ⟨Int.natCast_nonneg _, Or.inl rfl⟩ rfl]
  exact ⟨rfl, rfl⟩

theorem collects_keyRecorder : Collects (some keyRecorder) .dkReserved fun key => [key] :=
  ⟨fun _ _ hy => List.mem_singleton.1 hy, fun _ _ _ _ _ _ _ => rfl⟩

/-- At the first duplicate a partition is lost. -/
theorem iSubkeys_partitionLost (ha : fs.Anchored dir d)
    (hlinks : ∀ l, Below d l → fs.tree.NoLink l)
    (h : ¬(metKeys host fs dir [] none 0 0).Nodup) {r : Option (List Bytes) × FileSystem}
    (hr : iSubkeys host .dkFixed fs dir [] none 0 0 .dkFixed = some r) :
    PartitionLost d fs r.2 := by
  have hp : TIDBProcesses.dkFixed ≠ .dkReserved := by decide
  have hdir := ha.toAt.ne_nil
  have hnl : ∀ c, fs.tree.NoLink (c :: d) := fun c => hlinks _ (below_cons (List.suffix_refl d) c)
  have hpaired : KeysPaired host fs (PartitionPath dir) (some keyRecorder) .dkReserved
      (some (iSubkeysWalker host .dkFixed)) .dkFixed
      (fun k k' => k' = k ∧ (TIDBProcesses.dkFixed = .dkReserved ∨ k.Nodup))
      (fun st => ¬st.2.Nodup) (fun st => PartitionLost d fs st.1) :=
    keysPaired_recorder _ _ (fun n vDir key part st => PartitionLost.call hp n vDir key part st)
      (fun hp hV he hi hs hmem => by
        rw [callKey_iSubkeysWalker_fixed hp hmem]
        exact hV.removed ha hlinks he hi hs)
      (fun hV he hi hs => hV.next hdir he hi hs) fun hV => absurd hV.1 (by simp)
  obtain ⟨fuel, hfuel⟩ := walkFuel_succ fs.tree none
  have hrecorder := @keyWalk_first host fs dir d _ _ collects_keyRecorder ha.toAt hnl fuel hfuel
  have hfixed := @keyWalk_first host fs dir d _ _ (collects_iSubkeysWalker host .dkFixed .dkFixed)
    ha.toAt hnl fuel hfuel
  set vis := visibleDirs host fs.tree d with hvis
  have hpartitions := walkDir_partitionWalker_pair
    (fun aDir aKey aRec k k' => subkeyWalk_pair hpaired fuel aDir aKey aRec k k')
    (subkeyWalk_inv hpaired.keepsLeft _) (subkeyWalk_inv hpaired.keepsRight _)
    (sizeSub 0 vis.length)
    ⟨none, [], vis.length, sizeSub 0 vis.length, 0, some keyRecorder, .dkReserved⟩ vis vis
    (fun items (he : host.entries fs _ = _) item hi hs => partitionPath_first hdir he hi hs)
    ⟨rfl, rfl, rfl, rfl, Or.inr nodup_visibleDirs⟩
  rw [metKeys, hrecorder.2] at h
  rw [iSubkeys_of_walk hr, hfixed.1]
  dsimp only [TSubkeyWalkerRec.on] at h hpartitions ⊢
  rcases hpartitions with ⟨a, u, v, h₁, h₂, hr, -⟩ | ⟨-, hlost⟩
  · rw [h₁] at h
    exact absurd (hr.keys.2.resolve_left hp) h
  · exact hlost.2.2

end

/-! ## When duplicates are repaired -/

/-- Every key is listed once, and nothing is removed but the later directories of keys that
have several. -/
def Repairs (host : Host) (fs : FileSystem) (dir : Bytes) (d : Loc) : Prop :=
  let fuel := fs.tree.nodes.keys.length + 2
  ∃ keys fs', iSubkeys host .dkFixed fs dir [] none 0 0 .dkFixed = some (some keys, fs') ∧
    keys.Nodup ∧ (∀ x, x ∈ keys ↔ x ∈ listing host fs.tree fuel d []) ∧
    ∀ m, ((∃ l, LaterDuplicate (listedDirs host fs.tree fuel d []) l ∧ l <:+ m) →
        fs'.tree.get m = none) ∧
      ((¬∃ l, LaterDuplicate (listedDirs host fs.tree fuel d []) l ∧ l <:+ m) →
        fs'.tree.get m = fs.tree.get m)

/-- Duplicates are repaired exactly if there are none. -/
theorem repairs_iff (host : Host) (fs : FileSystem) (dir : Bytes) (d : Loc)
    (ha : fs.Anchored dir d) (hlinks : ∀ l, Below d l → fs.tree.NoLink l)
    (hsize : fs.tree.nodes.keys.length < 2 ^ 63) :
    Repairs host fs dir d ↔
      (listing host fs.tree (fs.tree.nodes.keys.length + 2) d []).Nodup := by
  have hwalk : iSubkeyWalk host fs dir [] none 0 0 (some keyRecorder) .dkReserved =
      some (((listing host fs.tree (fs.tree.nodes.keys.length + 2) d []).length : ℤ), fs,
        listing host fs.tree (fs.tree.nodes.keys.length + 2) d []) := by
    rw [iSubkeyWalk_listing records_keyRecorder ha.toAt hlinks hsize, List.flatMap_singleton']
  have hmet : metKeys host fs dir [] none 0 0 =
      listing host fs.tree (fs.tree.nodes.keys.length + 2) d [] := metKeys_of_walk hwalk
  constructor
  · rintro ⟨keys, fs', hlist, -, -, htree⟩
    by_contra hdup
    rw [← hmet] at hdup
    obtain ⟨m, hm, hg, hn⟩ := iSubkeys_partitionLost ha hlinks hdup hlist
    refine hg ((htree m).2 ?_ ▸ hn)
    rintro ⟨l, ⟨pre, x, post, hdirs, -⟩, hl⟩
    exact hm.not_listed (hdirs ▸ List.mem_append_right pre List.mem_cons_self) hl
  · intro hnodup
    refine ⟨listing host fs.tree (fs.tree.nodes.keys.length + 2) d [], fs, ?_, hnodup,
      fun _ => Iff.rfl, fun m => ⟨?_, fun _ => rfl⟩⟩
    · rw [iSubkeys, iSubkeyWalk_of_nodup (Or.inr (hmet ▸ hnodup)), hwalk]
      simp
    · rintro ⟨l, hl, -⟩
      rw [← map_fst_listedDirs] at hnodup
      exact absurd hl (not_laterDuplicate hnodup)

/-- The hypotheses hold for the tree that lists a key twice. -/
theorem repairs_iff_duplicateTree :
    duplicateTree.Anchored [slash] [] ∧ (∀ l, Below [] l → duplicateTree.tree.NoLink l) ∧
      duplicateTree.tree.nodes.keys.length < 2 ^ 63 ∧
      (Repairs plainHost duplicateTree [slash] [] ↔ (listing plainHost duplicateTree.tree
        (duplicateTree.tree.nodes.keys.length + 2) [] []).Nodup) := by
  have hlinks : ∀ l, Below [] l → duplicateTree.tree.NoLink l := fun l _ => noLink_rootWith _ l
  have hsize : duplicateTree.tree.nodes.keys.length < 2 ^ 63 := by decide +kernel
  exact ⟨anchored_root _, hlinks, hsize,
    repairs_iff plainHost duplicateTree [slash] [] (anchored_root _) hlinks hsize⟩

/-- The duplicate `.a/b` of `ab` takes `.a/c` with it. -/
def siblingTree : FileSystem :=
  rootWith [[slash, 97, 98], [slash, dot, 97, slash, 98], [slash, dot, 97, slash, 99]]

/-- Duplicates in two partitions side by side are not repaired. -/
theorem not_repairs_siblingTree : ¬Repairs plainHost siblingTree [slash] [] := by
  rintro ⟨keys, fs', hlist, -, -, htree⟩
  have hgone : (iSubkeys plainHost .dkFixed siblingTree [slash] [] none 0 0 .dkFixed).map
      (fun r => (r.2.tree.get [[dot, 97]]).isNone) = some true := by decide +kernel
  have hthere : siblingTree.tree.get [[dot, 97]] ≠ none := by decide +kernel
  have hhidden : HiddenBelow [] [[dot, 97]] := ⟨[[dot, 97]], by decide, by decide, rfl⟩
  rw [hlist, Option.map_some, Option.some.injEq, Option.isNone_iff_eq_none] at hgone
  refine hthere ((htree _).2 ?_ ▸ hgone)
  rintro ⟨l, ⟨pre, x, post, hdirs, -⟩, hl⟩
  exact hhidden.not_listed (hdirs ▸ List.mem_append_right pre List.mem_cons_self) hl

end Idb
