import Idb.FileSystem

/-!
# Directory helpers

Joining and cutting paths, the existence test, the creation of a directory with its
missing parents (`ForceDirectories`) and the recursive removal (`DeleteDir`).
-/

namespace Idb

open Posix FileSystem

/-! ## Path strings -/

/-- Join `aPath2` to `aPath`. A NULL `aPath` gives what an empty one does. -/
def sdsJoinPathLen (aPath aPath2 : Bytes) : Bytes :=
  if aPath = [] then aPath2
  else if aPath.getLast? ≠ some slash then aPath ++ [slash] ++ aPath2
  else aPath ++ aPath2

/-- Cut off the last name of a path : what remains, and the name, if there is one. -/
def extractLastPathName (aDir : Bytes) : Bytes × Option Bytes :=
  let aDir := aDir.rdropWhile (· = slash)
  let s := aDir.rtakeWhile (· ≠ slash)
  if s = [] then (aDir, none) else (aDir.rdropWhile (· ≠ slash), some s)

theorem sdsJoinPathLen_eq {path : Bytes} (h : path ≠ []) (c : Bytes) :
    sdsJoinPathLen path c = joinName path c := by
  unfold sdsJoinPathLen joinName
  rw [if_neg h]
  split_ifs <;> simp_all

/-- A path with a slash at its end, as the walks build it. -/
def withSlash (path : Bytes) : Bytes :=
  joinName path []

theorem joinName_eq_withSlash (path c : Bytes) : joinName path c = withSlash path ++ c := by
  unfold withSlash joinName
  split_ifs <;> simp

theorem getLast?_withSlash (path : Bytes) : (withSlash path).getLast? = some slash := by
  unfold withSlash joinName
  split_ifs with h
  · rwa [List.append_nil]
  · simp

theorem joinName_withSlash (path c : Bytes) : joinName (withSlash path) c = joinName path c := by
  rw [joinName_eq_withSlash path, joinName, if_pos (getLast?_withSlash path)]

/-- Joining to a joined path is joining the joined names. -/
theorem joinName_joinName (D : Bytes) {q : Bytes} (hq : q ≠ []) (c : Bytes) :
    joinName (joinName D q) c = joinName D (joinName q c) := by
  have hlast : (joinName D q).getLast? = q.getLast? := by
    rw [joinName_eq_withSlash, List.getLast?_append_of_ne_nil _ hq]
  rw [joinName.eq_1 (joinName D q), hlast, joinName_eq_withSlash D q, joinName_eq_withSlash D,
    joinName.eq_1 q]
  split_ifs <;> rw [List.append_assoc]

/-- The path of a key. -/
def keyText : List Name → Bytes
  | [] => []
  | c :: cs => cs.foldl joinName c

/-- A key path joined to a path is its names joined one by one. -/
theorem joinName_keyText (D : Bytes) {c : Name} {names : List Name} (hc : c ≠ []) :
    joinName D (keyText (c :: names)) = (c :: names).foldl joinName D := by
  rw [keyText, List.foldl_cons]
  induction names generalizing c with
  | nil => rfl
  | cons d ds ih =>
    rw [List.foldl_cons, List.foldl_cons, ih (joinName_ne_nil hc), joinName_joinName D hc]

/-- The name behind a path that is empty or ends with a slash. -/
theorem rtakeWhile_name {pre c : Bytes} (hp : pre = [] ∨ pre.getLast? = some slash)
    (hs : slash ∉ c) : (pre ++ c).rtakeWhile (· ≠ slash) = c := by
  have hmem : ∀ b ∈ c.reverse, b ≠ slash := by
    rintro b hb rfl
    exact hs (List.mem_reverse.1 hb)
  have hpre : pre.reverse.takeWhile (· ≠ slash) = [] := by
    rcases hp with rfl | hp
    · simp
    · obtain ⟨q, rfl⟩ := List.getLast?_eq_some_iff.1 hp
      simp
  rw [List.rtakeWhile, List.reverse_append, List.takeWhile_append_of_pos (by simpa using hmem),
    hpre]
  simp

/-- Cut off from a path that is empty or ends with a slash, the last name is what
follows it. -/
theorem extractLastPathName_append {pre c : Bytes} (hp : pre = [] ∨ pre.getLast? = some slash)
    (hc : c ≠ []) (hs : slash ∉ c) : extractLastPathName (pre ++ c) = (pre, some c) := by
  obtain ⟨r, b, hr⟩ := (List.eq_nil_or_concat' c).resolve_left hc
  have htrim : (pre ++ c).rdropWhile (· = slash) = pre ++ c := by
    rw [hr, ← List.append_assoc, List.rdropWhile_concat_neg]
    simpa using fun he : b = slash => hs (he ▸ hr ▸ by simp)
  have htake := rtakeWhile_name hp hs
  have hdrop : (pre ++ c).rdropWhile (· ≠ slash) = pre := by
    have hsplit := @List.rdropWhile_append_rtakeWhile _ (· ≠ slash) (pre ++ c)
    rw [htake] at hsplit
    exact List.append_cancel_right hsplit
  simp only [extractLastPathName, htrim, htake, hdrop, if_neg hc]

/-- The last name of a joined path is the name joined to it. -/
theorem extractLastPathName_joinName {path c : Bytes} (hc : c ≠ []) (hs : slash ∉ c) :
    extractLastPathName (joinName path c) = (withSlash path, some c) := by
  rw [joinName_eq_withSlash]
  exact extractLastPathName_append (Or.inr (getLast?_withSlash path)) hc hs

/-! ## The existence test -/

/-- `PATH_IS_DIR`, `PATH_IS_FILE` and `PATH_IS_NOT_EXISTS`. -/
def pathIsDir : ℤ :=
  1

/-- `PATH_IS_FILE`. -/
def pathIsFile : ℤ :=
  -1

/-- `PATH_IS_NOT_EXISTS`. -/
def pathIsNotExists : ℤ :=
  0

/-- What `stat` says of the path. Every error counts as missing. -/
def directoryExists (fs : FileSystem) (aFolderPath : Bytes) : ℤ :=
  match fs.stat aFolderPath with
  | .error _ => pathIsNotExists
  | .ok (.dir _) => pathIsDir
  | .ok _ => pathIsFile

theorem directoryExists_cases (fs : FileSystem) (path : Bytes) :
    directoryExists fs path = pathIsNotExists ∨ directoryExists fs path = pathIsDir ∨
      directoryExists fs path = pathIsFile := by
  unfold directoryExists
  split <;> simp

theorem directoryExists_ne_missing {fs : FileSystem} {path : Bytes} :
    directoryExists fs path ≠ pathIsNotExists ↔ ∃ n, fs.stat path = .ok n := by
  unfold directoryExists
  split <;> simp_all [pathIsDir, pathIsFile, pathIsNotExists]

theorem directoryExists_eq_dir {fs : FileSystem} {path : Bytes} :
    directoryExists fs path = pathIsDir ↔ ∃ x, fs.stat path = .ok (.dir x) := by
  unfold directoryExists
  split <;> simp_all [pathIsDir, pathIsFile, pathIsNotExists]

/-- `DirectoryExists` says file exactly when `stat` sees something that is no directory. -/
theorem directoryExists_eq_file {fs : FileSystem} {path : Bytes} :
    directoryExists fs path = pathIsFile ↔ ∃ n, fs.stat path = .ok n ∧ n.isDir = false := by
  unfold directoryExists
  split
  · next e he => simp [he, pathIsNotExists, pathIsFile]
  · next x hx => simp [hx, pathIsDir, pathIsFile, Node.isDir]
  · next n hnd hn =>
    simp only [hn, Except.ok.injEq, exists_eq_left', true_iff]
    cases n with
    | dir x => exact absurd rfl (hnd x)
    | file v x => rfl
    | link target => rfl

/-- `DirectoryExists` says directory exactly when the path resolves to one. -/
theorem directoryExists_eq_dir_iff_at {fs : FileSystem} {path : Bytes} :
    directoryExists fs path = pathIsDir ↔ ∃ p, fs.At path p := by
  rw [directoryExists_eq_dir]
  constructor
  · rintro ⟨x, hx⟩
    unfold stat nodeAt at hx
    split at hx
    · simp at hx
    · next l hl =>
      split at hx
      · next n hn =>
        rw [Except.ok.injEq] at hx
        subst hx
        refine ⟨l, ?_, hl, FileTree.isDir_of_get hn⟩
        rintro rfl
        simp [resolve] at hl
      · simp at hx
  · rintro ⟨p, hp⟩
    exact hp.stat_dir

theorem directoryExists_at {fs : FileSystem} {path : Bytes} {p : Loc} (h : fs.At path p) :
    directoryExists fs path = pathIsDir :=
  directoryExists_eq_dir_iff_at.2 ⟨p, h⟩

/-- The test on an entry of a directory. -/
theorem directoryExists_joinName {fs : FileSystem} {path c : Bytes} {p : Loc} (h : fs.At path p)
    (hc : slash ∉ c) (hl : fs.tree.NoLink (enter p c)) :
    directoryExists fs (joinName path c) = pathIsDir ↔ fs.tree.isDir (enter p c) := by
  rw [directoryExists_eq_dir, h.stat_entry hc hl, nodeAt, FileTree.isDir_iff]
  cases fs.tree.get (enter p c) <;> simp

/-! ## Creating directories -/

/-- A directory is made where nothing is found. A file in its place is an error. -/
def doMkdir (fs : FileSystem) (path : Bytes) : FileSystem × ℤ :=
  match fs.stat path with
  | .error _ =>
    match fs.mkdir path with
    | .ok fs' => (fs', 0)
    | .error e => (fs, if e ≠ .eexist then -1 else 0)
  | .ok (.dir _) => (fs, 0)
  | .ok _ => (fs, -1)

/-- The loop of `ForceDirectories` : `copypath` is the part of the path passed so far.
At a slash after a name the directory up to there is made. -/
def forceLoop (fs : FileSystem) (copypath : Bytes) : Bytes → FileSystem × ℤ
  | [] => doMkdir fs copypath
  | b :: rest =>
    if b = slash ∧ copypath ≠ [] ∧ copypath.getLast? ≠ some slash then
      let status := doMkdir fs copypath
      if status.2 = 0 then forceLoop status.1 (copypath ++ [b]) rest else status
    else forceLoop fs (copypath ++ [b]) rest

/-- Create the directory, and intermediate directories as required. -/
def forceDirectories (fs : FileSystem) (aFolderPath : Bytes) : FileSystem × ℤ :=
  forceLoop fs [] aFolderPath

/-! ## Removing directories -/

/-- Apply `f` to the paths in turn, up to the first failure. -/
def deleteEach (f : FileSystem → Bytes → FileSystem × Bool) :
    FileSystem → List Bytes → FileSystem × Bool
  | fs, [] => (fs, true)
  | fs, path :: paths =>
    match f fs path with
    | (fs', true) => deleteEach f fs' paths
    | (fs', false) => (fs', false)

/-- A call that fails changes nothing. -/
def ofResult (fs : FileSystem) (r : Except Errno FileSystem) : FileSystem × Bool :=
  match r with
  | .ok fs' => (fs', true)
  | .error _ => (fs, false)

/-- The traversal of `DeleteDir` below `path`, in post-order and without following
links. The traversal goes at most `fuel` levels deep. -/
def deleteTree (host : Host) : ℕ → FileSystem → Bytes → FileSystem × Bool
  | 0, fs, _ => (fs, false)
  | fuel + 1, fs, path =>
    match fs.lstat path with
    | .error _ => (fs, false)
    | .ok (.dir _) =>
      match host.entries fs path with
      | .error _ => (fs, false)
      | .ok items =>
        let names := (items.map Dirent.dName).filter fun c => c ≠ [dot] ∧ c ≠ [dot, dot]
        match deleteEach (deleteTree host fuel) fs (names.map (joinName path)) with
        | (fs', true) => ofResult fs' (fs'.rmdir path)
        | (fs', false) => (fs', false)
    | .ok _ => ofResult fs (fs.unlink path)

/-- Remove a file or a directory with all it holds. The result says whether 0 is
returned ; opening a traversal of the empty path fails, which is not reported. -/
def deleteDir (host : Host) (fs : FileSystem) (aDir : Bytes) : FileSystem × Bool :=
  if aDir = [] then (fs, true)
  else deleteTree host (fs.tree.nodes.keys.length + 1) fs aDir

end Idb
