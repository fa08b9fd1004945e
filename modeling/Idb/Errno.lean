import Idb.Attributes
import Idb.Search

/-!
# What calls leave in errno

`errno` is shared by all functions. A system call that fails sets it and one that succeeds leaves
it alone ; the two partition walks set it to 0 when they start. Each function that asks the file
system has a companion here, with the same branches, that says what is in `errno` after it. Two
facts are used of them : making directories clears no error (`forceDirectoriesErrno_ne_zero`), and
the search for a key leaves 0 exactly if every path that it tried names something
(`iIsKeyDirExistsErrno_eq`).
-/

namespace Idb

open Posix FileSystem FileTree

/-! ## The companions -/

/-- The files, and `errno`. -/
structure Process where
  fs : FileSystem
  errno : ℤ

/-- `errno` after a system call. -/
def errnoAfter {α : Type} (r : Except Errno α) (errno : ℤ) : ℤ :=
  match r with
  | .ok _ => errno
  | .error e => errnoCode e

/-- After `DirectoryExists`, or another `stat`. -/
def statErrno (fs : FileSystem) (path : Bytes) (errno : ℤ) : ℤ :=
  errnoAfter (fs.stat path) errno

section

variable (fs : FileSystem) (aDir : Bytes) (aOptions : ℕ)

/-- The loop of `WalkDir` : a type that `readdir` does not know is asked for, and the target of
a link that the options ask for. -/
def walkLoopErrno : List Dirent → ℤ → ℤ
  | [], errno => errno
  | item :: items, errno =>
    if ¬shown aOptions item.dName then walkLoopErrno items errno
    else
      let errno :=
        if item.dType.isSome then errno
        else errnoAfter (fs.lstat (itemPath aDir item.dName)) errno
      match itemType fs aDir item with
      | none => errno
      | some .lnk =>
        if aOptions.testBit listSymbolic ∨ aOptions.testBit listSymbolicNone then
          walkLoopErrno items (statErrno fs (itemPath aDir item.dName) errno)
        else walkLoopErrno items errno
      | some _ => walkLoopErrno items errno

/-- `errno` after `CountDir`. -/
def countDirErrno (host : Host) (errno : ℤ) : ℤ :=
  match host.entries fs aDir with
  | .error e => errnoCode e
  | .ok items => walkLoopErrno fs aDir aOptions items errno

end

section

variable (host : Host) (fs : FileSystem)

/-- `errno` after `iSubkeyCount`. -/
def iSubkeyCountErrno (aKeyPath : Bytes) (errno : ℤ) : ℤ :=
  countDirErrno fs aKeyPath listNormalDirs host errno

/-- `errno` after the loop of `iFindKeyDirToPut`. -/
def findLoopErrno (aMaxItemCount : ℤ) : ℕ → Bytes → Bytes → ℤ → ℤ
  | 0, _, _, errno => errno
  | fuel + 1, vDir, s, errno =>
    match firstChar s with
    | .error vLen => vLen
    | .ok vUtf8Char =>
      let rest := s.drop vUtf8Char.length
      if rest = [] then errno
      else
        let vDir := joinPart vDir vUtf8Char
        let errno := statErrno fs vDir errno
        if directoryExists fs vDir = pathIsDir then
          let errno := statErrno fs (sdsJoinPathLen vDir rest) errno
          if directoryExists fs (sdsJoinPathLen vDir rest) = pathIsDir then errno
          else
            let errno := iSubkeyCountErrno host fs vDir errno
            if iSubkeyCount host fs vDir none < sizeT aMaxItemCount then errno
            else findLoopErrno aMaxItemCount fuel vDir rest errno
        else errno

/-- `errno` after `iFindKeyDirToPut`. -/
def iFindKeyDirToPutErrno (aDir : Bytes) (aMaxItemCount : ℤ)
    (aPartitionFullProcess : TIDBProcesses) : ℤ :=
  let errno := statErrno fs aDir 0
  if directoryExists fs aDir = pathIsDir then errno
  else
    match extractLastPathName aDir with
    | (_, none) => errno
    | (vDir, some vKey) =>
      let errno := statErrno fs vDir errno
      if directoryExists fs vDir = pathIsDir then
        let errno := iSubkeyCountErrno host fs vDir errno
        if iSubkeyCount host fs vDir none ≥ sizeT aMaxItemCount then
          let errno := findLoopErrno host fs aMaxItemCount vKey.length vDir vKey errno
          match findLoop host fs aMaxItemCount vKey.length vDir vKey with
          | .last _ _ => if aPartitionFullProcess = .dkStopped then idbErrPartFull else errno
          | _ => errno
        else errno
      else errno

/-- `errno` after the loop of `iIsKeyDirExists`. -/
def lookLoopErrno : ℕ → Bytes → Bytes → ℤ → ℤ
  | 0, _, _, errno => errno
  | fuel + 1, vDir, s, errno =>
    match firstChar s with
    | .error vLen => vLen
    | .ok vUtf8Char =>
      let vDir := joinPart vDir vUtf8Char
      let errno := statErrno fs vDir errno
      if directoryExists fs vDir = pathIsDir then
        let rest := s.drop vUtf8Char.length
        let errno := statErrno fs (sdsJoinPathLen vDir rest) errno
        if directoryExists fs (sdsJoinPathLen vDir rest) = pathIsDir then errno
        else if rest = [] then errno
        else lookLoopErrno fuel vDir rest errno
      else errno

/-- `errno` after `iIsKeyDirExists`, which sets it to 0 first. -/
def iIsKeyDirExistsErrno (aDir : Bytes) : ℤ :=
  match extractLastPathName aDir with
  | (_, none) => 0
  | (vDir, some vKey) => lookLoopErrno fs vKey.length vDir vKey 0

end

/-- `errno` after `do_mkdir`. -/
def doMkdirErrno (fs : FileSystem) (path : Bytes) (errno : ℤ) : ℤ :=
  match fs.stat path with
  | .error e => errnoAfter (fs.mkdir path) (errnoCode e)
  | .ok (.dir _) => errno
  | .ok _ => errnoCode .enotdir

/-- `errno` after the loop of `ForceDirectories`. -/
def forceLoopErrno (fs : FileSystem) (copypath : Bytes) (errno : ℤ) : Bytes → ℤ
  | [] => doMkdirErrno fs copypath errno
  | b :: rest =>
    if b = slash ∧ copypath ≠ [] ∧ copypath.getLast? ≠ some slash then
      let status := doMkdir fs copypath
      let errno := doMkdirErrno fs copypath errno
      if status.2 = 0 then forceLoopErrno status.1 (copypath ++ [b]) errno rest else errno
    else forceLoopErrno fs (copypath ++ [b]) errno rest

/-- `errno` after `ForceDirectories`. -/
def forceDirectoriesErrno (fs : FileSystem) (aFolderPath : Bytes) (errno : ℤ) : ℤ :=
  forceLoopErrno fs [] errno aFolderPath

/-- A directory can be opened for reading, but not read. -/
def getDirValueErrno (fs : FileSystem) (aDir : Bytes) (aAttribute : Option Bytes) (errno : ℤ) : ℤ :=
  match fs.stat (makeAttrFileName aDir aAttribute) with
  | .error e => errnoCode e
  | .ok (.dir _) => errnoCode .eisdir
  | .ok _ => errno

/-- `errno` after `SetDirValue`. -/
def setDirValueErrno (fs : FileSystem) (aDir aValue : Bytes) (aAttribute : Option Bytes)
    (errno : ℤ) : ℤ :=
  errnoAfter (fs.write (makeAttrFileName aDir aAttribute) aValue) errno

/-! ## Errors stay -/

section

variable {host : Host} {fs : FileSystem} {path s v : Bytes} {a : Option Bytes} {errno : ℤ}

theorem errnoAfter_ne_zero {α : Type} {r : Except Errno α} (h : errno ≠ 0) :
    errnoAfter r errno ≠ 0 := by
  cases r with
  | ok _ => exact h
  | error e => exact errnoCode_ne_zero e

/-- `stat` sets the error when nothing is found. -/
theorem statErrno_of_missing (h : directoryExists fs path = pathIsNotExists) :
    statErrno fs path errno ≠ 0 := by
  have hstat := mt directoryExists_ne_missing.2 (not_not.2 h)
  rw [statErrno]
  cases hs : fs.stat path with
  | error e => exact errnoCode_ne_zero e
  | ok n => exact absurd ⟨n, hs⟩ hstat

theorem statErrno_of_exists (h : directoryExists fs path ≠ pathIsNotExists) :
    statErrno fs path errno = errno := by
  obtain ⟨n, hn⟩ := directoryExists_ne_missing.1 h
  rw [statErrno, hn]
  rfl

theorem statErrno_of_dir (h : directoryExists fs path = pathIsDir) :
    statErrno fs path errno = errno :=
  statErrno_of_exists (by rw [h]; decide)

theorem statErrno_eq_zero :
    statErrno fs path errno = 0 ↔ errno = 0 ∧ directoryExists fs path ≠ pathIsNotExists := by
  by_cases h : directoryExists fs path = pathIsNotExists
  · simp [h, statErrno_of_missing h]
  · simp [h, statErrno_of_exists h]

theorem iFindKeyDirToPutErrno_of_dir {M : ℤ} {policy : TIDBProcesses}
    (h : directoryExists fs path = pathIsDir) :
    iFindKeyDirToPutErrno host fs path M policy = 0 := by
  rw [iFindKeyDirToPutErrno]
  dsimp only
  rw [if_pos h, statErrno_of_dir h]

theorem doMkdirErrno_ne_zero (h : errno ≠ 0) : doMkdirErrno fs path errno ≠ 0 := by
  rw [doMkdirErrno]
  split
  · exact errnoAfter_ne_zero (errnoCode_ne_zero _)
  · exact h
  · exact errnoCode_ne_zero _

/-- The loop does not reset an error that is set. -/
theorem forceLoopErrno_ne_zero (h : errno ≠ 0) : forceLoopErrno fs path errno s ≠ 0 := by
  induction s generalizing fs path errno with
  | nil => exact doMkdirErrno_ne_zero h
  | cons b s ih =>
    rw [forceLoopErrno]
    dsimp only
    split_ifs
    · exact ih (doMkdirErrno_ne_zero h)
    · exact doMkdirErrno_ne_zero h
    · exact ih h

theorem forceDirectoriesErrno_ne_zero (h : errno ≠ 0) : forceDirectoriesErrno fs path errno ≠ 0 :=
  forceLoopErrno_ne_zero h

theorem write_of_setDirValue (h : (setDirValue fs path v a).2 = true) :
    fs.write (makeAttrFileName path a) v = .ok (setDirValue fs path v a).1 := by
  rw [setDirValue] at h ⊢
  cases hw : fs.write (makeAttrFileName path a) v with
  | ok fs' => rfl
  | error e => simp [hw, ofResult] at h

theorem setDirValueErrno_of_ok (h : (setDirValue fs path v a).2 = true) :
    setDirValueErrno fs path v a errno = errno := by
  rw [setDirValueErrno, write_of_setDirValue h]
  rfl

end

/-! ## The search for a key -/

/-- The search for the key at `path` after `i` characters : the partition, and what is left of
the key. -/
def searchAt (path : Bytes) : ℕ → Option (Bytes × Bytes)
  | 0 =>
    match extractLastPathName path with
    | (_, none) => none
    | (vDir, some vKey) => some (vDir, vKey)
  | i + 1 =>
    match searchAt path i with
    | none => none
    | some (vDir, s) =>
      match firstChar s with
      | .error _ => none
      | .ok vUtf8Char => some (joinPart vDir vUtf8Char, s.drop vUtf8Char.length)

/-- The path that is tried for the key there. -/
def triedPath (path : Bytes) (i : ℕ) : Option Bytes :=
  (searchAt path i).map fun x => sdsJoinPathLen x.1 x.2

/-- The paths tried in partitions before level `i` name something. -/
def TriedExist (fs : FileSystem) (path : Bytes) (i : ℕ) : Prop :=
  ∀ j, 0 < j → j < i → ∀ q ∈ triedPath path j, directoryExists fs q ≠ pathIsNotExists

section

variable {fs : FileSystem} {path vDir s p c : Bytes} {errno : ℤ} {i j : ℕ}

theorem searchAt_succ (h : searchAt path i = some (vDir, s)) (hc : firstChar s = .ok c) :
    searchAt path (i + 1) = some (joinPart vDir c, s.drop c.length) := by
  rw [searchAt, h]
  simp [hc]

/-- The next level takes one character more. -/
theorem searchAt_succ_inv {x : Bytes × Bytes} (h : searchAt path (i + 1) = some x) :
    ∃ vDir s c, searchAt path i = some (vDir, s) ∧ firstChar s = .ok c ∧
      x = (joinPart vDir c, s.drop c.length) := by
  rw [searchAt] at h
  split at h
  · simp at h
  · next vDir s hs =>
    split at h
    · simp at h
    · next c hc =>
      rw [Option.some.injEq] at h
      exact ⟨vDir, s, c, hs, hc, h.symm⟩

theorem triedPath_of_search (h : searchAt path i = some (vDir, s)) :
    triedPath path i = some (sdsJoinPathLen vDir s) := by
  rw [triedPath, h]
  rfl

/-- A partition directory is found under its path with a slash too. -/
theorem directoryExists_part (h : directoryExists fs path = pathIsDir) :
    directoryExists fs (sdsJoinPathLen path []) = pathIsDir := by
  obtain ⟨q, hq⟩ := directoryExists_eq_dir_iff_at.1 h
  rw [sdsJoinPathLen_eq hq.ne_nil]
  exact directoryExists_at (at_withSlash hq)

/-- The loop ends at a path that it tried, and leaves 0 if it began with 0 and every path tried
before names something. -/
theorem lookLoop_tried {fuel : ℕ} (errno : ℤ) (hs : searchAt path i = some (vDir, s))
    (hp : lookLoop fs fuel vDir s = some p) : ∃ j, i < j ∧ triedPath path j = some p ∧
      (lookLoopErrno fs fuel vDir s errno = 0 ↔ errno = 0 ∧
        ∀ m, i < m → m < j → ∀ q ∈ triedPath path m, directoryExists fs q ≠ pathIsNotExists) := by
  induction fuel generalizing i vDir s errno with
  | zero => simp [lookLoop] at hp
  | succ fuel ih =>
    rw [lookLoop] at hp
    rw [lookLoopErrno]
    cases hc : firstChar s with
    | error e => simp [hc] at hp
    | ok c =>
      simp only [hc] at hp ⊢
      have hsucc := searchAt_succ hs hc
      have htried := triedPath_of_search hsucc
      split_ifs at hp with hpart hkey hrest
      · rw [if_pos hpart, if_pos hkey, statErrno_of_dir hkey, statErrno_of_dir hpart]
        rw [Option.some.injEq] at hp
        refine ⟨i + 1, i.lt_succ_self, hp ▸ htried, ?_⟩
        simp only [iff_self_and]
        intro _ m h₁ h₂
        omega
      · rw [hrest] at hkey
        exact absurd (directoryExists_part hpart) hkey
      · obtain ⟨j, hj, hpj, he⟩ := ih (statErrno fs (sdsJoinPathLen (joinPart vDir c)
          (s.drop c.length)) (statErrno fs (joinPart vDir c) errno)) hsucc hp
        refine ⟨j, by omega, hpj, ?_⟩
        rw [if_pos hpart, if_neg hkey, if_neg hrest, he, statErrno_of_dir hpart,
          statErrno_eq_zero, and_assoc]
        refine and_congr_right fun _ => ?_
        constructor
        · rintro ⟨hq, hall⟩ m h₁ h₂
          by_cases hm : m = i + 1
          · subst hm
            rw [htried]
            simpa using hq
          · exact hall m (by omega) h₂
        · intro hall
          exact ⟨hall (i + 1) i.lt_succ_self hj _ htried, fun m h₁ h₂ => hall m (by omega) h₂⟩

/-- The search for a key that is found leaves 0 exactly if every path that it tried names
something. -/
theorem iIsKeyDirExistsErrno_eq (hp : iIsKeyDirExists fs path = some p) :
    ∃ i, 0 < i ∧ triedPath path i = some p ∧
      (iIsKeyDirExistsErrno fs path = 0 ↔ TriedExist fs path i) := by
  rw [iIsKeyDirExists] at hp
  rw [iIsKeyDirExistsErrno]
  rcases hlast : extractLastPathName path with ⟨vDir, _ | vKey⟩
  · rw [hlast] at hp
    simp at hp
  · rw [hlast] at hp
    have hs : searchAt path 0 = some (vDir, vKey) := by
      rw [searchAt, hlast]
    obtain ⟨i, hi, hpi, he⟩ := lookLoop_tried 0 hs hp
    refine ⟨i, hi, hpi, he.trans ?_⟩
    rw [eq_self_iff_true, true_and]
    rfl

/-! ## A path is tried once -/

/-- The length of a joined path. -/
theorem length_sdsJoinPathLen (path s : Bytes) :
    (sdsJoinPathLen path s).length = (sdsJoinPathLen path []).length + s.length := by
  unfold sdsJoinPathLen
  split_ifs
  · simp
  · simp only [List.length_append, List.length_nil]
    omega
  · simp

/-- A last name holds no slash. -/
theorem slash_notMem_lastName (h : extractLastPathName path = (vDir, some s)) : slash ∉ s := by
  rw [extractLastPathName] at h
  split_ifs at h
  · simp at h
  · rw [Prod.mk.injEq, Option.some.injEq] at h
    rw [← h.2]
    intro hmem
    simpa using List.mem_rtakeWhile_imp hmem

/-- What is left of the key at a level holds no slash. -/
theorem slash_notMem_searchAt (h : searchAt path i = some (vDir, s)) : slash ∉ s := by
  induction i generalizing vDir s with
  | zero =>
    rw [searchAt] at h
    split at h
    · simp at h
    · next vDir' vKey hlast =>
      rw [Option.some.injEq, Prod.mk.injEq] at h
      exact h.2 ▸ slash_notMem_lastName hlast
  | succ i ih =>
    obtain ⟨v, s', c, hs, -, he⟩ := searchAt_succ_inv h
    rw [Prod.mk.injEq] at he
    exact fun hmem => ih hs (List.mem_of_mem_drop (he.2 ▸ hmem))

/-- From level to level the path tried grows by a dot and a slash. -/
theorem length_triedPath_succ (h : searchAt path i = some (vDir, s)) (hc : firstChar s = .ok c) :
    (sdsJoinPathLen (joinPart vDir c) (s.drop c.length)).length =
      (sdsJoinPathLen vDir s).length + 2 := by
  have hsplit := congrArg List.length (firstChar_split hc)
  rw [List.length_append] at hsplit
  obtain ⟨r, b, hr⟩ := (List.eq_nil_or_concat' c).resolve_left (firstChar_ne_nil hc)
  have hb : b ≠ slash := by
    rintro rfl
    refine slash_notMem_searchAt h ?_
    rw [firstChar_split hc, hr]
    simp
  have hpart : sdsJoinPathLen (joinPart vDir c) (s.drop c.length) =
      joinPart vDir c ++ [slash] ++ s.drop c.length := by
    rw [sdsJoinPathLen, if_neg, if_pos]
    · simp [joinPart, hr, hb]
    · simp [joinPart, hr]
  rw [hpart, joinPart]
  simp only [List.length_append, List.length_singleton]
  rw [length_sdsJoinPathLen vDir [dot], length_sdsJoinPathLen vDir s, List.length_singleton]
  omega

/-- Each level makes the path two bytes longer. -/
theorem length_triedPath (h : triedPath path i = some p) :
    ∃ q, triedPath path 0 = some q ∧ p.length = q.length + 2 * i := by
  induction i generalizing p with
  | zero => exact ⟨p, h, rfl⟩
  | succ i ih =>
    obtain ⟨x, hx, rfl⟩ := Option.map_eq_some_iff.1 h
    obtain ⟨vDir, s, c, hs, hc, rfl⟩ := searchAt_succ_inv hx
    obtain ⟨q, hq, hlen⟩ := ih (triedPath_of_search hs)
    refine ⟨q, hq, ?_⟩
    rw [length_triedPath_succ hs hc, hlen]
    ring

/-- The paths tried are all different. -/
theorem triedPath_inj (hi : triedPath path i = some p) (hj : triedPath path j = some p) :
    i = j := by
  obtain ⟨q, hq, h₁⟩ := length_triedPath hi
  obtain ⟨q', hq', h₂⟩ := length_triedPath hj
  rw [hq, Option.some.injEq] at hq'
  subst hq'
  omega

/-- The search by levels of the key. -/
theorem searchAt_joinName {D k r : Bytes} {ns : List Name} (hD : D ≠ []) (hk : k ≠ [])
    (hs : slash ∉ k) (hl : levelAt k i = some (ns, r)) :
    searchAt (joinName D k) i = some (levelDir D ns, r) := by
  induction i generalizing ns r with
  | zero =>
    rw [levelAt_zero_iff] at hl
    rw [searchAt, extractLastPathName_joinName hk hs, ← hl.1, ← hl.2]
    rfl
  | succ i ih =>
    obtain ⟨ns', r', c, hl', hc, rfl, rfl⟩ := levelAt_succ_inv hl
    rw [searchAt_succ (ih hl') hc, joinPart_levelDir hD]

theorem triedPath_joinName {D k r : Bytes} {ns : List Name} (hD : D ≠ []) (hk : k ≠ [])
    (hs : slash ∉ k) (hl : levelAt k i = some (ns, r)) :
    triedPath (joinName D k) i = some (keyDir D ns r) := by
  rw [triedPath_of_search (searchAt_joinName hD hk hs hl), sdsJoinPathLen_levelDir hD]

end

end Idb
