import Idb.RelativePaths
import Idb.Search
import Idb.PathKeys
import Idb.Faults

/-!
# Puts from the working directory

The database object enters its directory and hands relative key paths to `iPutInFile`. What
remains of such a path without its last name is looked at as a directory, and for a top-level key
nothing remains : the empty path is no directory, so a top-level key is never partitioned. A put
from the working directory does what the put with the explicit path does exactly if that one
leaves the key where it is (`sameInWorkingDir_iff`).
-/

namespace Idb

open Posix FileSystem FileTree

/-! ## The source -/

/-- `!SetDirValue`, with the state after it. -/
def notSetDirValue (fs : FileSystem) (aDir aValue : Bytes) (aAttribute : Option Bytes) :
    FileSystem × ℤ :=
  let written := setDirValue fs aDir aValue aAttribute
  (written.1, if written.2 then 0 else 1)

/-- What `iPutInFile` does with the directory it found. -/
def putInDir (fs : FileSystem) (vDir aValue : Bytes) (aAttribute : Option Bytes) :
    FileSystem × ℤ :=
  let result := directoryExists fs vDir
  if result = pathIsNotExists then
    notSetDirValue (forceDirectories fs vDir).1 vDir aValue aAttribute
  else if result = pathIsDir then notSetDirValue fs vDir aValue aAttribute
  else (fs, result)

/-- A put to a file at the path of a key. -/
def iPutInFile (host : Host) (iDBMaxPageCount : ℤ) (fs : FileSystem) (aKeyPath aValue : Bytes)
    (aAttribute : Option Bytes) (aPartitionFullProcess : TIDBProcesses) : FileSystem × ℤ :=
  let found :=
    if iDBMaxPageCount > 0 then
      iFindKeyDirToPut host fs aKeyPath iDBMaxPageCount aPartitionFullProcess
    else .ok aKeyPath
  match found with
  | .error errno => (fs, errno)
  | .ok vDir => putInDir fs vDir aValue aAttribute

/-! ## Puts into a directory found -/

section

variable {fs : FileSystem} {D path v : Bytes} {d : Loc} {a : Option Bytes}

/-- `putInDir` fails on a file, and otherwise makes the directory and writes the value. -/
theorem putInDir_eq (fs : FileSystem) (path v : Bytes) (a : Option Bytes) :
    (directoryExists fs path = pathIsFile ∧ putInDir fs path v a = (fs, pathIsFile)) ∨
    (directoryExists fs path ≠ pathIsFile ∧
      putInDir fs path v a = notSetDirValue (withDir fs path) path v a) := by
  unfold putInDir withDir
  dsimp only
  split_ifs with hmissing hdir
  · exact Or.inr ⟨by rw [hmissing]; decide, rfl⟩
  · exact Or.inr ⟨by rw [hdir]; decide, rfl⟩
  · have hfile := (directoryExists_cases fs path).resolve_left hmissing |>.resolve_left hdir
    exact Or.inl ⟨hfile, by rw [hfile]⟩

/-- The code of a write is 0 or 1. -/
theorem notSetDirValue_code : (notSetDirValue fs path v a).2 = 0 ∨
    (notSetDirValue fs path v a).2 = 1 := by
  unfold notSetDirValue
  dsimp only
  split_ifs
  · exact Or.inl rfl
  · exact Or.inr rfl

/-- The code of a put tells whether a file is in the way. -/
theorem putInDir_code : (putInDir fs path v a).2 = pathIsFile ↔
    directoryExists fs path = pathIsFile := by
  rcases putInDir_eq fs path v a with ⟨hfile, he⟩ | ⟨hfile, he⟩
  · exact iff_of_true (by rw [he]) hfile
  · refine iff_of_false ?_ hfile
    rw [he]
    rcases @notSetDirValue_code (withDir fs path) path v a with h | h <;> rw [h] <;> decide

/-- A write keeps the shape. -/
theorem notSetDirValue_shape : SameShape fs (notSetDirValue fs path v a).1 := by
  rcases setDirValueWith_cases Faults.none fs path v a with ⟨he, -⟩ | ⟨-, -, hw⟩
  · change SameShape fs (setDirValueWith Faults.none fs path v a).1
    rw [he]
    exact SameShape.refl fs
  · obtain ⟨l, -, hset⟩ := write_ok hw
    exact hset.shape

theorem notSetDirValue_chdir (h : Direct fs D d) (hp : Relative path) (v : Bytes)
    (a : Option Bytes) : notSetDirValue (chdir fs d) path v a =
      (notSetDirValue fs (joinName D path) v a).map (chdir · d) id := by
  rw [notSetDirValue, h.setDirValue_chdir hp]
  rfl

/-- `putInDir` of a relative path from `d`. -/
theorem putInDir_chdir (h : Direct fs D d) (hp : Relative path) (v : Bytes) (a : Option Bytes) :
    putInDir (chdir fs d) path v a = (putInDir fs (joinName D path) v a).map (chdir · d) id := by
  have hmade := forceDirectories_made fs (joinName D path)
  have hforce := h.keeps hmade.keeps hmade.cwd_eq
  unfold putInDir
  rw [h.directoryExists_chdir hp, h.forceDirectories_chdir hp]
  dsimp only
  split_ifs
  · exact notSetDirValue_chdir hforce hp v a
  · exact notSetDirValue_chdir h hp v a
  · rfl

end

/-! ## The search behind a path -/

/-- The same end of a search, found from the current directory and from elsewhere. -/
inductive JoinedEnd (D : Bytes) : FindEnd → FindEnd → Prop
  | error {e} : JoinedEnd D (.error e) (.error e)
  | stop {vDir s} : Relative vDir → JoinedEnd D (.stop vDir s) (.stop (joinName D vDir) s)
  | last {vDir c} : Relative vDir → JoinedEnd D (.last vDir c) (.last (joinName D vDir) c)

/-- The same directory found, or the same error. -/
inductive JoinedPath (D : Bytes) : Except ℤ Bytes → Except ℤ Bytes → Prop
  | error {e} : JoinedPath D (.error e) (.error e)
  | ok {path} : Relative path → JoinedPath D (.ok path) (.ok (joinName D path))

section

variable {host : Host} {fs : FileSystem} {D q vDir k : Bytes} {d : Loc}

theorem Relative.append (h : Relative q) (c : Bytes) : Relative (q ++ c) := by
  obtain ⟨b, q, rfl⟩ := List.exists_cons_of_ne_nil h.ne_nil
  exact ⟨by simp, h.head⟩

theorem Direct.iSubkeyCount_chdir (h : Direct fs D d) (hq : Relative q)
    (hd : directoryExists fs (joinName D q) = pathIsDir) :
    iSubkeyCount host (chdir fs d) q none = iSubkeyCount host fs (joinName D q) none := by
  obtain ⟨l, hl⟩ := directoryExists_eq_dir_iff_at.1 hd
  rw [iSubkeyCount, iSubkeyCount, h.countDir_chdir hq hl]

/-- The page loop from `d` ends where it ends with the whole path. -/
theorem findLoop_chdir (h : Direct fs D d) (host : Host) (M : ℤ) (fuel : ℕ) (hq : Relative vDir)
    (s : Bytes) : JoinedEnd D (findLoop host (chdir fs d) M fuel vDir s)
      (findLoop host fs M fuel (joinName D vDir) s) := by
  induction fuel generalizing vDir s with
  | zero => exact .stop hq
  | succ fuel ih =>
    rw [findLoop, findLoop]
    cases firstChar s with
    | error e => exact .error
    | ok c =>
      have hpart : joinPart (joinName D vDir) c = joinName D (joinPart vDir c) := by
        rw [joinPart, joinPart, sdsJoinPathLen_eq hq.ne_nil,
          sdsJoinPathLen_eq (joinName_ne_nil h.ne_nil), joinName_joinName D hq.ne_nil,
          joinName_eq_withSlash D, joinName_eq_withSlash D, List.append_assoc]
      have hrel : Relative (joinPart vDir c) := by
        rw [joinPart, sdsJoinPathLen_eq hq.ne_nil]
        exact (hq.joinName _).append c
      have hrest : sdsJoinPathLen (joinName D (joinPart vDir c)) (s.drop c.length) =
          joinName D (sdsJoinPathLen (joinPart vDir c) (s.drop c.length)) := by
        rw [sdsJoinPathLen_eq hrel.ne_nil, sdsJoinPathLen_eq (joinName_ne_nil h.ne_nil),
          joinName_joinName D hrel.ne_nil]
      have hrel' : Relative (sdsJoinPathLen (joinPart vDir c) (s.drop c.length)) := by
        rw [sdsJoinPathLen_eq hrel.ne_nil]
        exact hrel.joinName _
      dsimp only
      rw [hpart, hrest, h.directoryExists_chdir hrel, h.directoryExists_chdir hrel']
      by_cases hlast : s.drop c.length = []
      · rw [if_pos hlast, if_pos hlast]
        exact .last hq
      · rw [if_neg hlast, if_neg hlast]
        by_cases hdir : directoryExists fs (joinName D (joinPart vDir c)) = pathIsDir
        · rw [if_pos hdir, if_pos hdir, h.iSubkeyCount_chdir hrel hdir]
          split_ifs
          · exact .stop hrel
          · exact .stop hrel
          · exact ih hrel _
        · rw [if_neg hdir, if_neg hdir]
          exact .stop hrel

/-- Behind at least one name the search is the same. -/
theorem iFindKeyDirToPut_chdir (h : Direct fs D d) (host : Host) (M : ℤ) (policy : TIDBProcesses)
    (hq : Relative q) (hk : k ≠ []) (hs : slash ∉ k) :
    JoinedPath D (iFindKeyDirToPut host (chdir fs d) (joinName q k) M policy)
      (iFindKeyDirToPut host fs (joinName D (joinName q k)) M policy) := by
  have hparent : Relative (withSlash q) := hq.joinName []
  have hjoin : withSlash (joinName D q) = joinName D (withSlash q) :=
    joinName_joinName D hq.ne_nil []
  have hlast : ∀ {vDir} (c : Bytes), Relative vDir →
      JoinedPath D (.ok (sdsJoinPathLen vDir c)) (.ok (sdsJoinPathLen (joinName D vDir) c)) := by
    intro vDir c hv
    rw [sdsJoinPathLen_eq hv.ne_nil, sdsJoinPathLen_eq (joinName_ne_nil h.ne_nil),
      joinName_joinName D hv.ne_nil]
    exact .ok (hv.joinName c)
  rw [← joinName_joinName D hq.ne_nil, iFindKeyDirToPut_joinName hq.ne_nil hk hs,
    iFindKeyDirToPut_joinName (joinName_ne_nil h.ne_nil) hk hs, joinName_joinName D hq.ne_nil,
    hjoin, h.directoryExists_chdir (hq.joinName k), h.directoryExists_chdir hparent]
  have hcount : (directoryExists fs (joinName D (withSlash q)) = pathIsDir ∧
        iSubkeyCount host (chdir fs d) (withSlash q) none ≥ sizeT M) ↔
      (directoryExists fs (joinName D (withSlash q)) = pathIsDir ∧
        iSubkeyCount host fs (joinName D (withSlash q)) none ≥ sizeT M) :=
    and_congr_right fun hd => by rw [h.iSubkeyCount_chdir hparent hd]
  simp only [hcount]
  split_ifs
  · have hloop := findLoop_chdir h host M k.length hparent k
    generalize findLoop host (chdir fs d) M k.length (withSlash q) k = found at hloop ⊢
    generalize findLoop host fs M k.length (joinName D (withSlash q)) k = found' at hloop ⊢
    cases hloop with
    | error => exact .error
    | stop hv => exact hlast _ hv
    | last hv =>
      cases policy with
      | dkIgnored => exact hlast _ hv
      | dkStopped => exact .error
      | dkFixed => exact .ok hv
      | dkReserved => exact .ok hv
  · exact .ok (hq.joinName k)

/-- A top-level key is put where its path says : nothing is left of the path without it. -/
theorem iFindKeyDirToPut_single (host : Host) (M : ℤ) (policy : TIDBProcesses) (fs : FileSystem)
    (hk : k ≠ []) (hs : slash ∉ k) : iFindKeyDirToPut host fs k M policy = .ok k := by
  have hlast := extractLastPathName_append (Or.inl (Eq.refl [])) hk hs
  have hempty : directoryExists fs [] ≠ pathIsDir := by
    simp [directoryExists, FileSystem.stat, nodeAt, FileSystem.resolve, pathIsDir, pathIsNotExists]
  rw [List.nil_append] at hlast
  rw [iFindKeyDirToPut, hlast]
  dsimp only
  split_ifs with _ hfull
  · rfl
  · exact absurd hfull.1 hempty
  · rfl

end

/-! ## The search in a full directory -/

/-- What the search for a key gives that misses it in a full directory. -/
inductive FullEnd (fs : FileSystem) (D k : Bytes) (policy : TIDBProcesses) : Except ℤ Bytes → Prop
  | only : firstChar k = .ok k → policy = .dkIgnored → FullEnd fs D k policy (.ok (joinName D k))
  | error {e} : e ≠ pathIsFile → FullEnd fs D k policy (.error e)
  | part {path} : directoryExists fs path = pathIsDir → FullEnd fs D k policy (.ok path)
  | deeper {i ns r} : levelAt k (i + 1) = some (ns, r) → r ≠ [] →
      FullEnd fs D k policy (.ok (keyDir D ns r))

section

variable {fs : FileSystem} {D k : Bytes}

/-- In a full directory the search ends at a partition. -/
theorem iFindKeyDirToPut_full (hD : D ≠ []) (host : Host) (M : ℤ) (policy : TIDBProcesses)
    (hk : k ≠ []) (hs : slash ∉ k) (hmiss : directoryExists fs (joinName D k) ≠ pathIsDir)
    (hdir : directoryExists fs (withSlash D) = pathIsDir)
    (hfull : iSubkeyCount host fs (withSlash D) none ≥ sizeT M) :
    FullEnd fs D k policy (iFindKeyDirToPut host fs (joinName D k) M policy) := by
  have hl := levelAt_zero k
  have hpassed : ∀ j < 1, Passed host fs M D k j := by
    intro j hj
    obtain rfl : j = 0 := by omega
    exact (passed_iff hl).2 ⟨hdir, hmiss, hfull⟩
  rw [iFindKeyDirToPut_joinName hD hk hs, if_pos ⟨hmiss, hdir, hfull⟩]
  obtain ⟨i, hi, he, hm, -⟩ := findLoop_passed hD k.length hl hk hpassed le_rfl
  change EndsAt D k i (findLoop host fs M k.length (withSlash D) k) at he
  generalize findLoop host fs M k.length (withSlash D) k = found at he ⊢
  cases he with
  | stop hl' hr =>
    obtain ⟨i, rfl⟩ := Nat.exists_eq_succ_of_ne_zero hi.ne'
    rw [placeFound, sdsJoinPathLen_levelDir hD]
    exact .deeper hl' hr
  | error hl' hr hc =>
    refine .error ?_
    rw [firstChar_error hr hc]
    decide
  | @last i ns c hl' hc =>
    have hparent := ((passed_iff hl').1 (hm i (Nat.lt_succ_self i))).1
    simp only [placeFound, sdsJoinPathLen_levelDir hD]
    cases policy with
    | dkStopped => exact .error (by decide)
    | dkFixed => exact .part hparent
    | dkReserved => exact .part hparent
    | dkIgnored =>
      cases i with
      | zero =>
        rw [levelAt_zero_iff] at hl'
        obtain ⟨rfl, rfl⟩ := hl'
        exact .only hc rfl
      | succ i => exact .deeper hl' (firstChar_ne_nil hc)

end

/-! ## What is made on the way -/

section

variable {fs : FileSystem} {D path c : Bytes} {d l : Loc} {names : List Name}

/-- A slash at the end does not change where a path leads. -/
theorem at_append_slash (h : fs.At path l) : fs.At (path ++ [slash]) l := by
  have hr := h.resolve
  rw [FileSystem.resolve, if_neg h.ne_nil] at hr
  obtain ⟨m, hm⟩ := namei_append true (List.cons_ne_nil [] []) hr
  have hstart : startOf fs.cwd (path ++ [slash]) = startOf fs.cwd path := by
    obtain ⟨b, path, rfl⟩ := List.exists_cons_of_ne_nil h.ne_nil
    rfl
  have hcomp : components (path ++ [slash]) = components path ++ [[]] :=
    components_append_slash path []
  have hl : fs.tree.NoLink (enter l []) := by
    rw [enter_nil]
    exact noLink_of_isDir h.isDir
  refine ⟨by simp, ?_, h.isDir⟩
  rw [FileSystem.resolve, if_neg (by simp), hstart, hcomp, hm, namei_single h.isDir hl, enter_nil]

/-- What is joined to a path is looked up in a directory. -/
theorem at_of_resolve_joinName {last : Bool} (h : fs.resolve last (joinName path c) = .ok l)
    (hne : path ≠ []) : ∃ p, fs.At path p := by
  by_cases hl : path.getLast? = some slash
  · obtain ⟨pre, rfl⟩ := List.getLast?_eq_some_iff.1 hl
    have hjoin : joinName (pre ++ [slash]) c = pre ++ slash :: c := by
      rw [joinName, if_pos hl]
      simp
    by_cases hpre : pre = []
    · subst hpre
      exact ⟨[], at_root fs⟩
    · obtain ⟨p, hp⟩ := at_of_resolve (hjoin ▸ h) hpre
      exact ⟨p, at_append_slash hp⟩
  · exact at_of_resolve (joinName_of_no_slash hl ▸ h) hne

/-- A directory that is made has the last name of its path. -/
theorem doMkdir_head (hne : path ≠ []) (hc : ValidName c) :
    MadeOn (fun l => l.head? = some c) fs (doMkdir fs (joinName path c)).1 := by
  unfold doMkdir
  split
  · split
    · next fs' hm =>
      obtain ⟨l, hr, ho, hcwd⟩ := modify_ok hm
      obtain ⟨hn, hu⟩ := makeDir_ok ho
      rw [trimSlashes_joinName hc.component] at hr
      obtain ⟨p, hp⟩ := at_of_resolve_joinName hr hne
      rw [hp.resolve_nofollow hc, Except.ok.injEq] at hr
      refine ⟨hcwd, fun m => ?_⟩
      rw [hu m]
      split_ifs with h
      · exact Or.inr ⟨by rw [h, ← hr]; rfl, h ▸ hn, rfl⟩
      · exact Or.inl rfl
    · exact MadeOn.refl _ fs
  · exact MadeOn.refl _ fs
  · exact MadeOn.refl _ fs

/-- The directories made are named by the names given. -/
theorem forceNames_head (hne : path ≠ []) (hc : ValidName c) (hn : ∀ n ∈ names, ValidName n) :
    MadeOn (fun l => ∃ n ∈ c :: names, l.head? = some n) fs
      (forceNames fs (joinName path c) names).1 := by
  induction names generalizing fs path c with
  | nil => exact (doMkdir_head hne hc).mono fun l hl => ⟨c, List.mem_cons_self, hl⟩
  | cons n names ih =>
    obtain ⟨hv, hn⟩ := List.forall_mem_cons.1 hn
    have hfirst : MadeOn (fun l => ∃ m ∈ c :: n :: names, l.head? = some m) fs
        (doMkdir fs (joinName path c)).1 :=
      (doMkdir_head hne hc).mono fun l hl => ⟨c, List.mem_cons_self, hl⟩
    rw [forceNames]
    split_ifs
    · refine hfirst.trans ((ih (joinName_ne_nil hne) hv hn).mono ?_)
      rintro l ⟨m, hm, hl⟩
      exact ⟨m, List.mem_cons_of_mem c hm, hl⟩
    · exact hfirst

/-- The directories made are named by the names of the path. -/
theorem forceDirectories_head (h : fs.At D d) (hn : ∀ n ∈ names, ValidName n) :
    MadeOn (fun l => ∃ n ∈ names, l.head? = some n) fs
      (forceDirectories fs (names.foldl joinName D)).1 := by
  rw [forceDirectories_eq h fun n hm => (hn n hm).component]
  cases names with
  | nil =>
    rw [forceNames, doMkdir_at h]
    exact MadeOn.refl _ fs
  | cons c names =>
    obtain ⟨hc, hn⟩ := List.forall_mem_cons.1 hn
    rw [forceNames, doMkdir_at h]
    exact forceNames_head h.ne_nil hc hn

end

/-! ## A top-level key -/

/-- A put with the limit `M` leaves the top-level key `k` of `D` where its path says, or finds a
file in both places. -/
inductive LeavesPlain (host : Host) (M : ℤ) (policy : TIDBProcesses) (fs : FileSystem)
    (D k : Bytes) : Prop
  | there : directoryExists fs (joinName D k) = pathIsDir → LeavesPlain host M policy fs D k
  | room : iSubkeyCount host fs (withSlash D) none < sizeT M → LeavesPlain host M policy fs D k
  | single : firstChar k = .ok k → policy = .dkIgnored → LeavesPlain host M policy fs D k
  | files {path} : directoryExists fs (joinName D k) = pathIsFile →
      iFindKeyDirToPut host fs (joinName D k) M policy = .ok path →
      directoryExists fs path = pathIsFile → LeavesPlain host M policy fs D k

/-- What a put does with the path found, or without one. -/
def putFound (fs : FileSystem) (v : Bytes) (a : Option Bytes) : Except ℤ Bytes → FileSystem × ℤ
  | .error errno => (fs, errno)
  | .ok path => putInDir fs path v a

section

variable {host : Host} {M : ℤ} {policy : TIDBProcesses} {fs : FileSystem} {D v : Bytes} {d : Loc}
  {a : Option Bytes} {found : Except ℤ Bytes} {k : DotFreeKey}

theorem iPutInFile_of_pos {p : Bytes} (hM : M > 0) : iPutInFile host M fs p v a policy =
    putFound fs v a (iFindKeyDirToPut host fs p M policy) := by
  simp only [iPutInFile, if_pos hM]
  rfl

theorem putInDir_dir {path : Bytes} (h : directoryExists fs path = pathIsDir) :
    putInDir fs path v a = notSetDirValue fs path v a := by
  rw [putInDir, h]
  rfl

/-- A put into a partition makes no directory of the key's name. -/
theorem not_isDir_putInDir {i : ℕ} {ns : List Name} {r : Bytes} (h : fs.At D d)
    (hg : fs.tree.get (k.val :: d) = none) (hl : levelAt k.val (i + 1) = some (ns, r))
    (hr : r ≠ []) : (putInDir fs (keyDir D ns r) v a).1.tree.isDir (k.val :: d) = false := by
  obtain ⟨hp, hv⟩ := DotFreeKey.level hl
  have hnames : ∀ n ∈ ns ++ [r], ValidName n :=
    (home_names (d := d) (k := k.toKey) hl hp hr hv).1
  have hmade : MadeOn (fun l => ∃ n ∈ ns ++ [r], l.head? = some n) fs
      (withDir fs (keyDir D ns r)) := by
    unfold withDir
    split_ifs
    · exact forceDirectories_head h hnames
    · exact MadeOn.refl _ fs
  have hmissing : (withDir fs (keyDir D ns r)).tree.get (k.val :: d) = none := by
    rcases hmade.get_cases (k.val :: d) with he | ⟨⟨n, hn, hhead⟩, -⟩
    · rw [he, hg]
    · rw [List.head?_cons, Option.some.injEq] at hhead
      subst hhead
      exfalso
      rcases List.mem_append.1 hn with hn | hn
      · exact k.visible (Key.level_parts hl hp _ hn).2
      · have := rest_length_lt (Nat.succ_pos i) hl (levelAt_zero k.val)
        rw [List.mem_singleton.1 hn] at this
        exact lt_irrefl _ this
  rcases putInDir_eq fs (keyDir D ns r) v a with ⟨-, he⟩ | ⟨-, he⟩
  · rw [he, FileTree.isDir, hg]
    rfl
  · have hshape := @notSetDirValue_shape (withDir fs (keyDir D ns r)) (keyDir D ns r) v a
    rw [he, ← Bool.not_eq_true]
    intro hd
    have hd' := hshape.keepsBack.dir _ hd
    rw [FileTree.isDir, hmissing] at hd'
    exact absurd hd' (by decide)

/-- A put to the plain path of a missing key makes its directory. -/
theorem isDir_putInDir (h : fs.At D d) (hlink : fs.tree.NoLink (k.val :: d))
    (hmiss : directoryExists fs (joinName D k.val) = pathIsNotExists) :
    fs.tree.get (k.val :: d) = none ∧
      (putInDir fs (joinName D k.val) v a).1.tree.isDir (k.val :: d) := by
  have hvalid : ValidName k.val := ⟨plain_of_head? k.component.1 k.visible, k.component.2⟩
  rw [← enter_plain hvalid.1 d] at hlink ⊢
  have hstat := h.stat_entry k.component.2.1 hlink
  have hnone : fs.tree.get (enter d k.val) = none := by
    cases hg : fs.tree.get (enter d k.val) with
    | none => rfl
    | some n =>
      rw [nodeAt, hg] at hstat
      exact absurd hmiss (directoryExists_ne_missing.2 ⟨n, hstat⟩)
  refine ⟨hnone, ?_⟩
  have hmade : (withDir fs (joinName D k.val)).tree.isDir (enter d k.val) := by
    rw [withDir, if_pos hmiss]
    have hforce := @forceDirectories_eq _ _ _ [k.val] h (by simpa using k.component)
    rw [List.foldl_cons, List.foldl_nil] at hforce
    rw [hforce, forceNames, doMkdir_at h, if_pos rfl, forceNames]
    rcases doMkdir_entry h k.component hlink with ⟨hd, -⟩ | ⟨hg, -⟩ | ⟨-, fs', he, -, hu⟩
    · simp [FileTree.isDir, hnone] at hd
    · exact absurd hnone hg
    · rw [he]
      exact isDir_of_get ((hu _).trans (if_pos rfl))
  rcases putInDir_eq fs (joinName D k.val) v a with ⟨hfile, -⟩ | ⟨-, he⟩
  · rw [hmiss] at hfile
    exact absurd hfile (by decide)
  · rw [he]
    exact notSetDirValue_shape.keeps.dir _ hmade

theorem putInDir_file {path : Bytes} (h : directoryExists fs path = pathIsFile) :
    putInDir fs path v a = (fs, pathIsFile) := by
  rcases putInDir_eq fs path v a with ⟨-, he⟩ | ⟨hn, -⟩
  · exact he
  · exact absurd h hn

/-- A key of one character can only be put at its plain path. -/
theorem iFindKeyDirToPut_oneChar (host : Host) (M : ℤ) (h : fs.At D d)
    (hc : firstChar k.val = .ok k.val) :
    iFindKeyDirToPut host fs (joinName D k.val) M .dkIgnored = .ok (joinName D k.val) := by
  rw [iFindKeyDirToPut_joinName h.ne_nil k.component.1 k.component.2.1]
  split_ifs
  · obtain ⟨n, hn⟩ := Nat.exists_eq_succ_of_ne_zero (List.length_pos_iff.2 k.component.1).ne'
    have hloop : findLoop host fs M k.val.length (withSlash D) k.val =
        .last (withSlash D) k.val := by
      rw [hn, findLoop, hc]
      simp
    rw [hloop, placeFound, sdsJoinPathLen_eq (at_withSlash h).ne_nil, joinName_withSlash]
  · rfl

section

variable (hfull : FullEnd fs D k.val policy found)
  (hchar : ¬(firstChar k.val = .ok k.val ∧ policy = .dkIgnored))

include hfull hchar

/-- A put behind the full directory makes no directory of the key's name. -/
theorem not_isDir_putFound (h : fs.At D d) (hnone : fs.tree.get (k.val :: d) = none) :
    (putFound fs v a found).1.tree.isDir (k.val :: d) = false := by
  cases hfull with
  | only hc hp => exact absurd ⟨hc, hp⟩ hchar
  | error _ =>
    rw [putFound, FileTree.isDir, hnone]
    rfl
  | @part path hpart =>
    rw [putFound, putInDir_dir hpart, ← Bool.not_eq_true]
    intro hd
    have hd' := notSetDirValue_shape.keepsBack.dir _ hd
    rw [FileTree.isDir, hnone] at hd'
    exact absurd hd' (by decide)
  | deeper hl hr => exact not_isDir_putInDir h hnone hl hr

/-- It says that a file is in the way only if one is at the path found. -/
theorem putFound_code : (putFound fs v a found).2 = pathIsFile ↔
    ∃ path, found = .ok path ∧ directoryExists fs path = pathIsFile := by
  constructor
  · intro hcode
    cases hfull with
    | only hc hp => exact absurd ⟨hc, hp⟩ hchar
    | error he => exact absurd hcode he
    | part hpart => exact ⟨_, rfl, putInDir_code.1 hcode⟩
    | deeper hl hr => exact ⟨_, rfl, putInDir_code.1 hcode⟩
  · rintro ⟨path, rfl, hpath⟩
    exact putInDir_code.2 hpath

end

/-- The put of a top-level key compared with the put to its plain path. -/
theorem putFound_same_iff (host : Host) (M : ℤ) (policy : TIDBProcesses) (v : Bytes)
    (a : Option Bytes) (h : fs.At D d)
    (hk : directoryExists fs (joinName D k.val) ≠ pathIsNotExists ∨ fs.tree.NoLink (k.val :: d)) :
    ((putInDir fs (joinName D k.val) v a).2 =
        (putFound fs v a (iFindKeyDirToPut host fs (joinName D k.val) M policy)).2 ∧
      (putInDir fs (joinName D k.val) v a).1.tree =
        (putFound fs v a (iFindKeyDirToPut host fs (joinName D k.val) M policy)).1.tree) ↔
    LeavesPlain host M policy fs D k.val := by
  have hsame : ∀ {r : FileSystem × ℤ}, putInDir fs (joinName D k.val) v a = r →
      ((putInDir fs (joinName D k.val) v a).2 = r.2 ∧
        (putInDir fs (joinName D k.val) v a).1.tree = r.1.tree) := by
    rintro r rfl
    exact ⟨rfl, rfl⟩
  by_cases hthere : directoryExists fs (joinName D k.val) = pathIsDir
  · rw [iFindKeyDirToPut, if_pos hthere]
    exact iff_of_true (hsame rfl) (.there hthere)
  by_cases hroom : iSubkeyCount host fs (withSlash D) none < sizeT M
  · rw [iFindKeyDirToPut_joinName h.ne_nil k.component.1 k.component.2.1,
      if_neg fun hfull => absurd hroom (not_lt.2 hfull.2.2)]
    exact iff_of_true (hsame rfl) (.room hroom)
  by_cases hchar : firstChar k.val = .ok k.val ∧ policy = .dkIgnored
  · rw [hchar.2, iFindKeyDirToPut_oneChar host M h hchar.1]
    exact iff_of_true (hsame rfl) (.single hchar.1 rfl)
  have hplain : LeavesPlain host M policy fs D k.val ↔
      directoryExists fs (joinName D k.val) = pathIsFile ∧
        ∃ path, iFindKeyDirToPut host fs (joinName D k.val) M policy = .ok path ∧
          directoryExists fs path = pathIsFile := by
    constructor
    · intro hp
      cases hp with
      | there hp => exact absurd hp hthere
      | room hp => exact absurd hp hroom
      | single hc hp => exact absurd ⟨hc, hp⟩ hchar
      | files hp hf hf' => exact ⟨hp, _, hf, hf'⟩
    · rintro ⟨hp, path, hf, hf'⟩
      exact .files hp hf hf'
  have hfull := iFindKeyDirToPut_full h.ne_nil host M policy k.component.1 k.component.2.1 hthere
    (directoryExists_at (at_withSlash h)) (not_lt.1 hroom)
  rw [hplain, ← putFound_code (v := v) (a := a) hfull hchar]
  rcases (directoryExists_cases fs (joinName D k.val)).imp_right (Or.resolve_left · hthere) with
    hmiss | hfile
  · -- The key's directory is made in one run only.
    obtain ⟨hnone, hmade⟩ := isDir_putInDir (v := v) (a := a) h (hk.resolve_left (· hmiss)) hmiss
    have hnot := not_isDir_putFound (v := v) (a := a) hfull hchar h hnone
    refine iff_of_false (fun hs => ?_) (fun hs => ?_)
    · rw [hs.2, hnot] at hmade
      exact absurd hmade (by decide)
    · rw [hmiss] at hs
      exact absurd hs.1 (by decide)
  · -- A file is in the way in one run, so it must be in the other.
    rw [putInDir_file hfile]
    constructor
    · rintro ⟨hcode, -⟩
      exact ⟨hfile, hcode.symm⟩
    · rintro ⟨-, hcode⟩
      obtain ⟨path, hfound, hpath⟩ := (putFound_code hfull hchar).1 hcode
      rw [hfound, putFound, putInDir_file hpath]
      exact ⟨rfl, rfl⟩

end

/-! ## Both ways to put -/

/-- A put from the working directory returns the code that the put with the explicit path
returns, and leaves the same tree. -/
def SameInWorkingDir (host : Host) (M : ℤ) (policy : TIDBProcesses) (fs : FileSystem) (D : Bytes)
    (d : Loc) (p v : Bytes) (a : Option Bytes) : Prop :=
  let here := iPutInFile host M (chdir fs d) p v a policy
  let there := iPutInFile host M fs (joinName D p) v a policy
  here.2 = there.2 ∧ here.1.tree = there.1.tree

theorem pathVal_cons_eq_foldl (k : DotFreeKey) (q : List DotFreeKey) :
    pathVal (k :: q) = (pathNames q).foldl joinName k.val := by
  have hlast : k.val.getLast? ≠ some slash := fun h =>
    k.component.2.1 (List.mem_of_getLast? h)
  rw [pathVal_cons, foldl_joinName (fun c hc => (validName_of_mem hc).component) hlast]

theorem relative_pathVal (k : DotFreeKey) (q : List DotFreeKey) : Relative (pathVal (k :: q)) := by
  have hrel : Relative k.val := by
    refine ⟨k.component.1, fun h => k.component.2.1 ?_⟩
    exact List.mem_of_head? h
  rw [pathVal_cons]
  exact hrel.append _

/-- A put from the working directory and the put with the explicit path do the same exactly if
there is no page limit, the key is not a top-level one or its put leaves it where its path
says. -/
theorem sameInWorkingDir_iff (host : Host) (M : ℤ) (policy : TIDBProcesses) (fs : FileSystem)
    (D : Bytes) (d : Loc) (q : List DotFreeKey) (v : Bytes) (a : Option Bytes) (hD : Direct fs D d)
    (hq : q ≠ [])
    (hlink : ∀ k, q = [k] → directoryExists fs (joinName D k.val) ≠ pathIsNotExists ∨
      fs.tree.NoLink (k.val :: d)) :
    SameInWorkingDir host M policy fs D d (pathVal q) v a ↔
      M ≤ 0 ∨ 2 ≤ q.length ∨ ∃ k, q = [k] ∧ LeavesPlain host M policy fs D k.val := by
  obtain ⟨k, q, rfl⟩ := List.exists_cons_of_ne_nil hq
  have hrel := relative_pathVal k q
  have hmap : ∀ {path}, Relative path → ∀ {r : FileSystem × ℤ},
      r = putInDir fs (joinName D path) v a →
      (putInDir (chdir fs d) path v a).2 = r.2 ∧
        (putInDir (chdir fs d) path v a).1.tree = r.1.tree := by
    rintro path hp r rfl
    rw [putInDir_chdir hD hp]
    exact ⟨rfl, rfl⟩
  by_cases hM : M > 0
  · rcases List.eq_nil_or_concat' q with rfl | ⟨q, k', rfl⟩
    · have hval : pathVal [k] = k.val := pathVal_cons_eq_foldl k []
      have hrel' : Relative k.val := hval ▸ hrel
      have hiff := putFound_same_iff host M policy v a hD.toAt (hlink k rfl)
      have hleft := hmap hrel' rfl
      rw [SameInWorkingDir, hval, iPutInFile_of_pos hM, iPutInFile_of_pos hM,
        iFindKeyDirToPut_single host M policy _ k.component.1 k.component.2.1, putFound, hleft.1,
        hleft.2, hiff]
      constructor
      · exact fun hp => Or.inr (Or.inr ⟨k, rfl, hp⟩)
      · rintro (hM' | hlen | ⟨k', hk, hp⟩)
        · exact absurd hM (not_lt.2 hM')
        · simp at hlen
        · rw [List.cons.injEq] at hk
          exact hk.1 ▸ hp
    · have hval : pathVal (k :: (q ++ [k'])) = joinName (pathVal (k :: q)) k'.val := by
        rw [pathVal_cons_eq_foldl, pathVal_cons_eq_foldl, pathNames, List.map_append,
          List.foldl_append]
        rfl
      have hfound := iFindKeyDirToPut_chdir hD host M policy (relative_pathVal k q)
        k'.component.1 k'.component.2.1
      refine iff_of_true ?_ (Or.inr (Or.inl (by simp)))
      rw [SameInWorkingDir, hval, iPutInFile_of_pos hM, iPutInFile_of_pos hM]
      generalize iFindKeyDirToPut host (chdir fs d) (joinName (pathVal (k :: q)) k'.val) M
        policy = found at hfound ⊢
      generalize iFindKeyDirToPut host fs (joinName D (joinName (pathVal (k :: q)) k'.val)) M
        policy = found' at hfound ⊢
      cases hfound with
      | error => exact ⟨rfl, rfl⟩
      | ok hp => exact hmap hp rfl
  · refine iff_of_true ?_ (Or.inl (not_lt.1 hM))
    rw [SameInWorkingDir]
    simp only [iPutInFile, if_neg hM]
    exact hmap hrel rfl

/-! ## A full root -/

/-- The root is reached directly. -/
theorem direct_root (fs : FileSystem) : Direct fs [slash] [] := by
  have hd := isDir_nil fs.tree
  have hl : fs.tree.NoLink (enter [] []) := by
    rw [enter_nil]
    exact noLink_of_isDir hd
  refine ⟨by decide, ?_, hd⟩
  rw [show components [slash] = [[], []] from rfl, show startOf fs.cwd [slash] = [] from rfl,
    namei_cons hd hl, enter_nil, namei_cons hd hl, enter_nil, namei_nil]

/-- The directory `x`, which fills the root. -/
def fullTree : FileSystem :=
  rootWith [[slash, 120]]

/-- The hypotheses hold for a put into a full directory. -/
theorem sameInWorkingDir_full :
    Direct fullTree [slash] [] ∧ [keyAb] ≠ [] ∧
      (∀ k, [keyAb] = [k] → directoryExists fullTree (joinName [slash] k.val) ≠ pathIsNotExists ∨
        fullTree.tree.NoLink (k.val :: [])) ∧
      (SameInWorkingDir plainHost 1 .dkIgnored fullTree [slash] [] (pathVal [keyAb]) [49] none ↔
        (1 : ℤ) ≤ 0 ∨ 2 ≤ [keyAb].length ∨
          ∃ k, [keyAb] = [k] ∧ LeavesPlain plainHost 1 .dkIgnored fullTree [slash] k.val) := by
  have hlink : ∀ k, [keyAb] = [k] →
      directoryExists fullTree (joinName [slash] k.val) ≠ pathIsNotExists ∨
        fullTree.tree.NoLink (k.val :: []) := fun k _ => Or.inr (noLink_rootWith _ _)
  exact ⟨direct_root _, by simp, hlink, sameInWorkingDir_iff plainHost 1 .dkIgnored fullTree
    [slash] [] [keyAb] [49] none (direct_root _) (by simp) hlink⟩

/-- From the working directory `ab` is put beside `x` in the full root, with the explicit path
it goes into the partition of `a`. -/
theorem not_sameInWorkingDir_full :
    ¬SameInWorkingDir plainHost 1 .dkIgnored fullTree [slash] [] (pathVal [keyAb]) [49] none := by
  rintro ⟨-, htree⟩
  have hhere : (iPutInFile plainHost 1 (chdir fullTree []) (pathVal [keyAb]) [49] none
      .dkIgnored).1.tree.isDir [[97, 98]] = true := by decide +kernel
  have hthere : (iPutInFile plainHost 1 fullTree (joinName [slash] (pathVal [keyAb])) [49] none
      .dkIgnored).1.tree.isDir [[97, 98]] = false := by decide +kernel
  rw [htree, hthere] at hhere
  exact absurd hhere (by decide)

end Idb
