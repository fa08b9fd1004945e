import Idb.PutReads

/-!
# Putting again

The first put of an attribute of a key makes the directory of the key, if it is missing. From then
on every put to the key goes to this directory (`putDir_again`), and this does not depend on what
is written there (`SameShape.putDir_eq`). The searches only ask for directories and count them, and
both stay when more directories are made (`iSubkeyCount_keeps`).
-/

namespace Idb

open Posix FileSystem FileTree

/-! ## Counting subdirectories -/

section

variable {host : Host} {fs fs' : FileSystem} {path : Bytes} {p : Loc} {c : Name} {n : Node Xattrs}

/-- The entry of a name is counted. -/
def isCounted (host : Host) (fs : FileSystem) (path : Bytes) (p : Loc) (c : Name) : Bool :=
  (fs.tree.get (c :: p)).any fun n =>
    itemSelected host none listNormalDirs path fs (host.dirent p c n.fileType)

/-- Links that lead to directories are counted too. -/
theorem iSubkeyCount_eq (h : fs.At path p) : iSubkeyCount host fs path none =
    ((host.names fs.tree p).filter (isCounted host fs path p)).length := by
  have hk : KeepsFs (U := Unit) none := fun _ hm => by simp at hm
  have hnames := @map_filter_entries host fs path p listNormalDirs none (isCounted host fs path p)
    fun c n hg => by simp [isCounted, hg]
  rw [← hnames, List.length_map, iSubkeyCount, countDir, walkDir_at (hk.keepsOn fs) trivial h]
  simp only [runItems_none _ (show ¬(0 : ℤ) ≤ walkItemStop by decide)]
  simp [walkItemError, sizeT]

/-- A counted entry is still counted when directories and links are kept. -/
theorem itemSelected_keeps (h : fs.At path p) (hk : fs.tree.Keeps fs'.tree)
    (hc : fs'.cwd = fs.cwd) (hg : fs.tree.get (c :: p) = some n)
    (hs : itemSelected host none listNormalDirs path fs (host.dirent p c n.fileType)) :
    ∃ n', fs'.tree.get (c :: p) = some n' ∧
      itemSelected host none listNormalDirs path fs' (host.dirent p c n'.fileType) := by
  have h' := h.keeps hk hc
  rw [itemSelected, itemType_entry h hg] at hs
  cases n with
  | dir x =>
    obtain ⟨x', hx'⟩ := isDir_iff.1 (hk.dir _ (isDir_of_get hg))
    refine ⟨_, hx', ?_⟩
    rw [itemSelected, itemType_entry h' hx']
    exact hs
  | file v x => simp [Node.fileType, typeSelected, dirsOnly_normalDirs.file] at hs
  | link target =>
    have hg' := hk.link _ _ hg
    refine ⟨_, hg', ?_⟩
    rw [itemSelected, itemType_entry h' hg']
    simp only [Node.fileType, typeSelected, Host.dirent] at hs ⊢
    split at hs
    · next m hm =>
      have hdir : m.isDir := by
        by_contra hd
        simp [hd, dirsOnly_normalDirs.file] at hs
      obtain ⟨x, rfl⟩ := isDir_node hdir
      obtain ⟨q, hq⟩ := directoryExists_eq_dir_iff_at.1 (directoryExists_eq_dir.2 ⟨x, hm⟩)
      obtain ⟨x', hx'⟩ := (hq.keeps hk hc).stat_dir
      rw [hx']
      exact hs
    · simp [show listNormalDirs.testBit listSymbolicNone = false by decide] at hs

/-- No fewer subdirectories are counted when directories and links are kept. -/
theorem iSubkeyCount_keeps (h : fs.At path p) (hk : fs.tree.Keeps fs'.tree)
    (hc : fs'.cwd = fs.cwd) :
    iSubkeyCount host fs path none ≤ iSubkeyCount host fs' path none := by
  have h' := h.keeps hk hc
  rw [iSubkeyCount_eq h, iSubkeyCount_eq h']
  refine ((Host.nodup_names.filter _).subperm fun c hm => ?_).length_le
  obtain ⟨n, hg, hs⟩ := (Option.any_eq_true _ _).1 (List.mem_filter.1 hm).2
  obtain ⟨n', hg', hs'⟩ := itemSelected_keeps h hk hc hg hs
  refine List.mem_filter.2 ⟨Host.mem_names.2 (by simp [hg']), ?_⟩
  exact (Option.any_eq_true _ _).2 ⟨n', hg', hs'⟩

theorem SameShape.iSubkeyCount_eq (h : SameShape fs fs')
    (hd : directoryExists fs path = pathIsDir) :
    iSubkeyCount host fs' path none = iSubkeyCount host fs path none := by
  obtain ⟨p, hp⟩ := directoryExists_eq_dir_iff_at.1 hd
  exact (iSubkeyCount_keeps (hp.keeps h.keeps h.cwd_eq) h.keepsBack h.cwd_eq.symm).antisymm
    (iSubkeyCount_keeps hp h.keeps h.cwd_eq)

end

/-! ## The place of a put -/

section

variable {host : Host} {fs fs' : FileSystem} {M : ℤ} {policy : TIDBProcesses} {D k : Bytes}

/-- The loop only sees which paths are directories and how many subkeys they have. -/
theorem findLoop_congr
    (hdir : ∀ path, directoryExists fs' path = pathIsDir ↔ directoryExists fs path = pathIsDir)
    (hcount : ∀ path, directoryExists fs path = pathIsDir →
      iSubkeyCount host fs' path none = iSubkeyCount host fs path none)
    (fuel : ℕ) (vDir s : Bytes) :
    findLoop host fs' M fuel vDir s = findLoop host fs M fuel vDir s := by
  induction fuel generalizing vDir s with
  | zero => rfl
  | succ fuel ih =>
    rw [findLoop, findLoop]
    cases firstChar s with
    | error e => rfl
    | ok c =>
      by_cases hd : directoryExists fs (joinPart vDir c) = pathIsDir
      · simp only [hdir, ih, hcount _ hd]
      · simp only [hdir, if_neg hd]

/-- A put goes to a place that does not depend on what is written. -/
theorem SameShape.iFindKeyDirToPut_eq (h : SameShape fs fs') (aDir : Bytes) :
    iFindKeyDirToPut host fs' aDir M policy = iFindKeyDirToPut host fs aDir M policy := by
  have hloop := @findLoop_congr host fs fs' M (fun path => h.directoryExists_iff)
    fun path hd => h.iSubkeyCount_eq hd
  have hfull : ∀ vDir, (directoryExists fs vDir = pathIsDir ∧
      iSubkeyCount host fs' vDir none ≥ sizeT M) ↔
      (directoryExists fs vDir = pathIsDir ∧ iSubkeyCount host fs vDir none ≥ sizeT M) :=
    fun vDir => and_congr_right fun hd => by rw [h.iSubkeyCount_eq hd]
  rw [iFindKeyDirToPut, iFindKeyDirToPut]
  simp only [h.directoryExists_iff, hloop, hfull]

theorem SameShape.putDir_eq (h : SameShape fs fs') (aDir : Bytes) (aKey : Option Bytes) :
    putDir host M fs' aDir policy aKey = putDir host M fs aDir policy aKey := by
  simp only [putDir, h.iFindKeyDirToPut_eq]

/-- What is passed is still passed when directories are kept and the key is still missed. -/
theorem Passed.keeps {j : ℕ} (h : Passed host fs M D k j) (hm : Missed fs' D k j)
    (hk : fs.tree.Keeps fs'.tree) (hc : fs'.cwd = fs.cwd) : Passed host fs' M D k j := by
  obtain ⟨ns, r, hl, hdir, -, hcount⟩ := h
  obtain ⟨hdir', hkey'⟩ := (missed_iff hl).1 hm
  obtain ⟨p, hp⟩ := directoryExists_eq_dir_iff_at.1 hdir
  exact ⟨ns, r, hl, hdir', hkey', hcount.trans (iSubkeyCount_keeps hp hk hc)⟩

/-- What the search for a key finds is a directory. -/
theorem lookLoop_isDir {fuel : ℕ} {vDir s path : Bytes}
    (h : lookLoop fs fuel vDir s = some path) : directoryExists fs path = pathIsDir := by
  induction fuel generalizing vDir s with
  | zero => simp [lookLoop] at h
  | succ fuel ih =>
    rw [lookLoop] at h
    cases hc : firstChar s with
    | error e => simp [hc] at h
    | ok c =>
      simp only [hc] at h
      split_ifs at h with hd hk hrest
      · rwa [← Option.some.inj h]
      · rw [← Option.some.inj h, hrest]
        obtain ⟨p, hp⟩ := directoryExists_eq_dir_iff_at.1 hd
        rw [sdsJoinPathLen_eq hp.ne_nil]
        exact directoryExists_at (at_withSlash hp)
      · exact ih h

theorem iIsKeyDirExists_isDir {aDir path : Bytes} (h : iIsKeyDirExists fs aDir = some path) :
    directoryExists fs path = pathIsDir := by
  rw [iIsKeyDirExists] at h
  split at h
  · simp at h
  · exact lookLoop_isDir h

end

/-! ## The directory made by a put -/

section

variable {host : Host} {fs : FileSystem} {M : ℤ} {policy : TIDBProcesses} {aDir aKey vDir : Bytes}

/-- Where a get looks for a key that is not at its plain path : it looks there in vain, and the
search in the partitions finds the directory. -/
structure FoundBehind (M : ℤ) (fs : FileSystem) (path vDir : Bytes) : Prop where
  limited : M > 0
  ne_nil : path ≠ []
  unslashed : path.getLast? ≠ some slash
  missing : directoryExists fs path ≠ pathIsDir
  found : iIsKeyDirExists fs path = some vDir

/-- When the directory of a put is there, the next put goes to it, and a get finds it. -/
theorem putDir_again (hpol : policy = .dkIgnored ∨ policy = .dkStopped)
    (h0 : 0 ∉ sdsJoinPathLen aDir aKey)
    (hslash : M > 0 → (sdsJoinPathLen aDir aKey).getLast? = some slash →
      directoryExists fs (sdsJoinPathLen aDir aKey) = pathIsDir)
    (hlinks : M > 0 → ∀ path, KeyPath (sdsJoinPathLen aDir aKey) path → ¬Dangling fs path)
    (hput : putDir host M fs aDir policy (some aKey) = .ok vDir)
    (hdir : directoryExists (withDir fs vDir) vDir = pathIsDir) :
    putDir host M (withDir fs vDir) aDir policy (some aKey) = .ok vDir ∧
      (vDir = sdsJoinPathLen aDir aKey ∨
        FoundBehind M (withDir fs vDir) (sdsJoinPathLen aDir aKey) vDir) := by
  rcases putDir_place hpol h0 hslash hput with
    rfl | ⟨hM, D, k, i, ns, r, hP, hD, rfl, hbehind, hpassed⟩
  · refine ⟨?_, Or.inl rfl⟩
    simp only [putDir, Option.getD_some, iFindKeyDirToPut, if_pos hdir, ite_self]
  · have hlinks' : ∀ j ns r, levelAt k j = some (ns, r) → ¬Dangling fs (keyDir D ns r) :=
      fun j ns r hl => hlinks hM _ ⟨D, k, j, ns, r, hP, hD, hbehind.component, hl, rfl⟩
    have hmade := withDir_made fs (keyDir D ns r)
    have hmissed := fun j hj => hbehind.missed_withDir hlinks' (j := j) hj
    have hagain : ∀ j < i, Passed host (withDir fs (keyDir D ns r)) M D k j := fun j hj =>
      (hpassed j hj).keeps (hmissed j hj) hmade.keeps hmade.cwd_eq
    have hparent := hbehind.level_isDir hD hdir
    obtain ⟨hk, hi, hl, hr, -⟩ := hbehind
    constructor
    · simp only [putDir, Option.getD_some, Option.isSome_some, true_and, if_pos hM, hP]
      exact iFindKeyDirToPut_found hD hk.1 hk.2.1 hi hl hr hagain hparent hdir policy
    · refine Or.inr ⟨hM, hP ▸ joinName_ne_nil hD, hP ▸ getLast?_joinName hk, ?_, ?_⟩
      · exact hP ▸ ((missed_iff (levelAt_zero k)).1 (hmissed 0 hi)).2
      · rw [hP]
        exact iIsKeyDirExists_missed hD hk.1 hk.2.1 hi hl (fun j _ => hmissed j) hparent hdir

end

end Idb
