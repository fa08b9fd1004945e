import Idb.Numerals
import Idb.WorkingDir

/-!
# Counts of subkeys

A put of the database object counts how many directories above the key are missing, and adds one
to the `.count` attribute of as many parents and of one more. That is right for a new key. For a
key that is there already one parent is counted up as well, though it gets no subkey.
-/

namespace Idb

open Posix FileSystem FileTree Numerals

/-! ## The function -/

/-- The path before its last name, with the slash. -/
def removeLastPathName (aDir : Bytes) : Bytes :=
  (aDir.rdropWhile (· = slash)).rdropWhile (· ≠ slash)

/-- `IDB_ATTR_COUNT_NAME`. -/
def idbAttrCountName : Bytes :=
  [46, 99, 111, 117, 110, 116]

/-- The empty path is replaced by the current directory. -/
def orDot (path : Bytes) : Bytes :=
  if path = [] then [dot] else path

/-- The loop that counts the missing parents. Each round takes a name off the path, so the length
of the path is fuel enough. -/
def missingLevels (fs : FileSystem) : ℕ → Bytes → ℕ
  | 0, _ => 0
  | fuel + 1, s =>
    if s ≠ [] ∧ directoryExists fs s = pathIsNotExists then
      missingLevels fs fuel (removeLastPathName s) + 1
    else 0

section

variable (incr : FileSystem → Bytes → FileSystem)

/-- The loop that counts the parents up. `incr` is `iIncrByInFile` with the increment 1 and the
attribute `.count`. -/
def countParents : ℕ → FileSystem → Bytes → FileSystem × Bytes
  | 0, fs, vDir => (fs, vDir)
  | vLevel + 1, fs, vDir => countParents vLevel (incr fs vDir) (removeLastPathName vDir)

/-- After a put the counter of each parent that was missing goes up, and that of the next one. -/
def _iDBAttrPutString (host : Host) (iDBMaxPageCount : ℤ) (partitionFullProcess : TIDBProcesses)
    (fs : FileSystem) (aKey aValue : Bytes) (aAttribute : Option Bytes) : FileSystem × ℤ :=
  let vDir := orDot aKey
  let vLevel :=
    if directoryExists fs vDir = pathIsNotExists then
      missingLevels fs vDir.length (removeLastPathName vDir)
    else 0
  let put := iPutInFile host iDBMaxPageCount fs vDir aValue aAttribute partitionFullProcess
  if put.2 = 0 then
    let counted := countParents incr vLevel put.1 (removeLastPathName vDir)
    (incr counted.1 (orDot counted.2), put.2)
  else put

end

/-! ## Keys -/

/-- A path with a slash behind it. Nothing is added to the empty path. -/
def parentText (path : Bytes) : Bytes :=
  if path = [] then [] else withSlash path

section

variable {cs : List Name} {c : Name}

theorem keyText_append (hne : cs ≠ []) (names : List Name) :
    keyText (cs ++ names) = names.foldl joinName (keyText cs) := by
  obtain ⟨d, ds, rfl⟩ := List.exists_cons_of_ne_nil hne
  rw [List.cons_append, keyText, keyText, List.foldl_append]

theorem keyText_eq_nil (h : ∀ d ∈ cs, Component d) : keyText cs = [] ↔ cs = [] := by
  cases cs with
  | nil => simp [keyText]
  | cons d ds =>
    have hne : d ≠ [] := (h d List.mem_cons_self).1
    simp [keyText, foldl_joinName_ne_nil hne]

/-- The text of a key path is that of its parent with the last name behind. -/
theorem keyText_concat (h : ∀ d ∈ cs, Component d) (c : Name) :
    keyText (cs ++ [c]) = parentText (keyText cs) ++ c := by
  by_cases hne : cs = []
  · subst hne
    simp [keyText, parentText]
  · rw [keyText_append hne, parentText, if_neg ((keyText_eq_nil h).not.2 hne)]
    exact joinName_eq_withSlash _ _

/-- A key path has no more components than bytes. -/
theorem length_le_keyText (h : ∀ d ∈ cs, Component d) : cs.length ≤ (keyText cs).length := by
  induction cs using List.reverseRecOn with
  | nil => simp
  | append_singleton cs c ih =>
    have hcs : ∀ d ∈ cs, Component d := fun d hd => h d (List.mem_append_left _ hd)
    have hc : 0 < c.length := List.length_pos_iff.2 (h c (by simp)).1
    have hpar : (keyText cs).length ≤ (parentText (keyText cs)).length := by
      unfold parentText withSlash joinName
      split_ifs with h0
      · simp [h0]
      · simp
      · simp
    have := ih hcs
    rw [keyText_concat hcs, List.length_append, List.length_append, List.length_singleton]
    omega

/-- The parent's text ends in a slash, if it is not empty. -/
theorem parentText_last (path : Bytes) : ∀ b ∈ (parentText path).getLast?, b = slash := by
  intro b hb
  unfold parentText at hb
  split_ifs at hb
  · simp at hb
  · rw [getLast?_withSlash] at hb
    exact (Option.some.inj hb).symm

/-- What satisfies `p` is dropped from the end, up to an element that does not. -/
theorem rdropWhile_append {α : Type} {p : α → Bool} {as bs : List α} (hb : ∀ b ∈ bs, p b)
    (ha : ∀ a ∈ as.getLast?, ¬p a) : (as ++ bs).rdropWhile p = as := by
  induction bs using List.reverseRecOn with
  | nil =>
    rw [List.append_nil, List.rdropWhile_eq_self_iff]
    exact fun hne => ha _ (List.getLast?_eq_some_getLast hne)
  | append_singleton bs b ih =>
    rw [← List.append_assoc, List.rdropWhile_concat_pos _ _ _ (hb b (by simp))]
    exact ih fun b' hb' => hb b' (List.mem_append_left _ hb')

/-- The slashes behind a name. -/
theorem rdropWhile_slashes {pre c tail : Bytes} (hc : c ≠ []) (hs : slash ∉ c)
    (ht : ∀ b ∈ tail, b = slash) : (pre ++ c ++ tail).rdropWhile (· = slash) = pre ++ c := by
  refine rdropWhile_append (by simpa using ht) fun b hb => ?_
  rw [List.getLast?_append_of_ne_nil _ hc] at hb
  have hmem : b ∈ c := List.mem_of_getLast? hb
  simpa using fun he : b = slash => hs (he ▸ hmem)

/-- The last name is taken off, with the slashes behind it. -/
theorem removeLastPathName_append {pre tail : Bytes} (hpre : ∀ b ∈ pre.getLast?, b = slash)
    (hc : Component c) (ht : ∀ b ∈ tail, b = slash) :
    removeLastPathName (pre ++ c ++ tail) = pre := by
  have hname : (pre ++ c).rdropWhile (· ≠ slash) = pre := by
    refine rdropWhile_append (fun b hb => ?_) fun b hb => by simp [hpre b hb]
    simpa using fun he : b = slash => hc.2.1 (he ▸ hb)
  rw [removeLastPathName, rdropWhile_slashes hc.1 hc.2.1 ht, hname]

theorem removeLastPathName_key (h : ∀ d ∈ cs, Component d) (hc : Component c) :
    removeLastPathName (keyText (cs ++ [c])) = parentText (keyText cs) := by
  rw [keyText_concat h]
  have ht : ∀ b ∈ ([] : Bytes), b = slash := by simp
  simpa using removeLastPathName_append (parentText_last (keyText cs)) hc ht

/-- Removing the last name from a parent's text gives the parent's parent. -/
theorem removeLastPathName_parent (h : ∀ d ∈ cs, Component d) (hc : Component c) :
    removeLastPathName (parentText (keyText (cs ++ [c]))) = parentText (keyText cs) := by
  have hne : keyText (cs ++ [c]) ≠ [] := by
    rw [keyText_concat h]
    simp [hc.1]
  have hlast : (keyText (cs ++ [c])).getLast? ≠ some slash := by
    rw [keyText_concat h, List.getLast?_append_of_ne_nil _ hc.1]
    exact fun hs => hc.2.1 (List.mem_of_getLast? hs)
  rw [parentText, if_neg hne, withSlash, joinName_of_no_slash hlast, keyText_concat h]
  exact removeLastPathName_append (parentText_last (keyText cs)) hc (by simp)

end

/-! ## The missing levels -/

section

variable {fs : FileSystem} {base : Bytes} {l : Loc} {c : Name} {names : List Name}

/-- A slash behind a missing path changes nothing. -/
theorem directoryExists_withSlash {path : Bytes} (hne : path ≠ [])
    (h : directoryExists fs path = pathIsNotExists) :
    directoryExists fs (withSlash path) = pathIsNotExists := by
  by_cases hl : path.getLast? = some slash
  · rwa [withSlash, joinName, if_pos hl, List.append_nil]
  · by_contra hc
    obtain ⟨n, hn⟩ := directoryExists_ne_missing.1 hc
    obtain ⟨m, hm, -⟩ := stat_eq_ok.1 hn
    rw [withSlash, joinName_of_no_slash hl] at hm
    obtain ⟨q, hq⟩ := at_of_resolve hm hne
    rw [directoryExists_at hq] at h
    simp [pathIsDir, pathIsNotExists] at h

/-- What starts with a missing name is missing. -/
theorem directoryExists_behind (h : fs.At base l) (hc : ValidName c)
    (hn : ∀ n ∈ names, Component n) (hg : fs.tree.get (c :: l) = none) :
    directoryExists fs ((c :: names).foldl joinName base) = pathIsNotExists := by
  have hlink : fs.tree.NoLink (enter l c) := by
    rw [enter_plain hc.1]
    simp [NoLink, hg]
  rw [List.foldl_cons]
  by_cases hne : names = []
  · rw [hne, List.foldl_nil, directoryExists, h.stat_entry hc.2.1 hlink, enter_plain hc.1, nodeAt,
      hg]
  · have hdir : fs.tree.isDir (enter l c) = false := by
      rw [enter_plain hc.1, FileTree.isDir, hg]
      rfl
    obtain ⟨rest, hrest⟩ := foldl_joinName_behind base hc.component hn hne
    obtain ⟨err, he⟩ := h.resolve_behind hc.component hdir hlink rest true
    rw [hrest, directoryExists, stat, he]
    rfl

/-! ## The path of a key from the current directory -/

/-- The text of a key path is a relative path. -/
theorem relative_keyText (hc : Component c) : Relative (keyText (c :: names)) := by
  have hrel : Relative c := ⟨hc.1, fun h => hc.2.1 (List.mem_of_head? h)⟩
  rw [keyText]
  clear hc
  induction names generalizing c with
  | nil => exact hrel
  | cons d ds ih => exact ih (hrel.joinName d)

/-- The path of one dot is the working directory. -/
theorem direct_dot (h : fs.At [dot] l) : Direct fs [dot] fs.cwd ∧ l = fs.cwd := by
  have hr := h.resolve
  have hcomp : components [dot] = [[dot]] := rfl
  have hstart : startOf fs.cwd [dot] = fs.cwd := rfl
  rw [FileSystem.resolve, if_neg h.ne_nil, hcomp, hstart] at hr
  by_cases hd : fs.tree.isDir fs.cwd
  · have hlink : fs.tree.NoLink (enter fs.cwd [dot]) := by
      rw [enter_dot]
      exact noLink_of_isDir hd
    rw [namei_single hd hlink, enter_dot, Except.ok.injEq] at hr
    refine ⟨⟨by simp, ?_, hd⟩, hr.symm⟩
    rw [hcomp, hstart, namei_single hd hlink, enter_dot]
  · rw [namei_cons_error (by simpa using hd)] at hr
    simp at hr

/-- The names behind a key are walked from where the key leads. -/
theorem key_walk {P : List Name} (h : fs.At (orDot (keyText P)) l) (hP : ∀ d ∈ P, Component d)
    (hc : Component c) :
    directoryExists fs (keyText (P ++ c :: names)) =
        directoryExists fs ((c :: names).foldl joinName (orDot (keyText P))) ∧
      forceDirectories fs (keyText (P ++ c :: names)) =
        forceDirectories fs ((c :: names).foldl joinName (orDot (keyText P))) ∧
      ∀ m, fs.At (keyText (P ++ c :: names)) m ↔
        fs.At ((c :: names).foldl joinName (orDot (keyText P))) m := by
  by_cases hne : P = []
  · subst hne
    have hrel : Relative (keyText (c :: names)) := relative_keyText hc
    have hdot := (direct_dot h).1
    have hbase : orDot (keyText []) = [dot] := rfl
    rw [List.nil_append, hbase, ← joinName_keyText _ hc.1]
    refine ⟨hdot.directoryExists_chdir hrel, ?_, fun m => hdot.at_chdir hrel⟩
    have hcwd := (forceDirectories_made fs (joinName [dot] (keyText (c :: names)))).cwd_eq
    have hforce := hdot.forceDirectories_chdir hrel
    rw [show chdir fs fs.cwd = fs from rfl] at hforce
    rw [hforce, ← hcwd]
    rfl
  · rw [keyText_append hne, orDot, if_neg ((keyText_eq_nil hP).not.2 hne)]
    exact ⟨rfl, rfl, fun m => Iff.rfl⟩

end

/-! ## New keys -/

/-- The key `P` leads to the directory `l`, where the name `c` is missing. The new key has more
`names` behind it. -/
structure NewKey (fs : FileSystem) (P : List Name) (c : Name) (names : List Name) (l : Loc) :
    Prop where
  known : ∀ d ∈ P, Component d
  leads : fs.At (orDot (keyText P)) l
  valid : ∀ n ∈ c :: names, ValidName n
  missing : fs.tree.get (c :: l) = none

namespace NewKey

variable {fs : FileSystem} {P names : List Name} {c n : Name} {l : Loc}

theorem component (h : NewKey fs P c names l) : ∀ d ∈ P ++ c :: names, Component d := by
  intro d hd
  rcases List.mem_append.1 hd with hd | hd
  · exact h.known d hd
  · exact (h.valid d hd).component

theorem init (h : NewKey fs P c (names ++ [n]) l) : NewKey fs P c names l := by
  refine ⟨h.known, h.leads, fun m hm => h.valid m ?_, h.missing⟩
  rw [← List.cons_append]
  exact List.mem_append_left _ hm

theorem last (h : NewKey fs P c (names ++ [n]) l) : Component n :=
  h.component n (by simp)

theorem key_ne_nil (h : NewKey fs P c names l) : keyText (P ++ c :: names) ≠ [] :=
  (keyText_eq_nil h.component).not.2 (by simp)

theorem key_missing (h : NewKey fs P c names l) :
    directoryExists fs (keyText (P ++ c :: names)) = pathIsNotExists := by
  have hc := h.valid c List.mem_cons_self
  rw [(key_walk h.leads h.known hc.component).1]
  exact directoryExists_behind h.leads hc
    (fun n hn => (h.valid n (List.mem_cons_of_mem c hn)).component) h.missing

/-- The loop stops where the key leads to a directory. -/
theorem missingLevels_known (h : NewKey fs P c names l) (fuel : ℕ) :
    missingLevels fs fuel (parentText (keyText P)) = 0 := by
  cases fuel with
  | zero => rfl
  | succ fuel =>
    rw [missingLevels, if_neg]
    rintro ⟨hne, hmiss⟩
    have hP : keyText P ≠ [] := fun he => hne (by rw [parentText, if_pos he])
    have hleads := h.leads
    rw [orDot, if_neg hP] at hleads
    rw [parentText, if_neg hP, directoryExists_at (at_withSlash hleads)] at hmiss
    simp [pathIsDir, pathIsNotExists] at hmiss

theorem parent_missing (h : NewKey fs P c names l) :
    parentText (keyText (P ++ c :: names)) ≠ [] ∧
      directoryExists fs (parentText (keyText (P ++ c :: names))) = pathIsNotExists := by
  rw [parentText, if_neg h.key_ne_nil]
  exact ⟨joinName_ne_nil h.key_ne_nil, directoryExists_withSlash h.key_ne_nil h.key_missing⟩

/-- All levels of a new key are missing. -/
theorem missingLevels_missing (h : NewKey fs P c names l) {fuel : ℕ} (hf : names.length < fuel) :
    missingLevels fs fuel (parentText (keyText (P ++ c :: names))) = names.length + 1 := by
  induction names using List.reverseRecOn generalizing fuel with
  | nil =>
    obtain ⟨fuel, rfl⟩ : ∃ k, fuel = k + 1 := ⟨fuel - 1, by omega⟩
    rw [missingLevels, if_pos h.parent_missing,
      removeLastPathName_parent h.known (h.component c (by simp)), h.missingLevels_known]
    rfl
  | append_singleton names n ih =>
    rw [List.length_append, List.length_singleton] at hf ⊢
    obtain ⟨fuel, rfl⟩ : ∃ k, fuel = k + 1 := ⟨fuel - 1, by omega⟩
    rw [missingLevels, if_pos h.parent_missing, ← List.cons_append, ← List.append_assoc,
      removeLastPathName_parent h.init.component h.last, ih h.init (by omega)]

/-- All parents above the key that are missing are counted. -/
theorem missingLevels_eq (h : NewKey fs P c names l) :
    missingLevels fs (keyText (P ++ c :: names)).length
      (removeLastPathName (keyText (P ++ c :: names))) = names.length := by
  have hlen := length_le_keyText h.component
  rw [List.length_append, List.length_cons] at hlen
  rcases List.eq_nil_or_concat' names with rfl | ⟨names, n, rfl⟩
  · rw [removeLastPathName_key h.known (h.component c (by simp)), h.missingLevels_known]
    rfl
  · rw [List.length_append, List.length_singleton] at hlen
    rw [← List.cons_append, ← List.append_assoc,
      removeLastPathName_key h.init.component h.last, h.init.missingLevels_missing]
    · simp
    · rw [List.append_assoc, List.cons_append]
      omega

end NewKey

/-! ## Counts -/

/-- The number in a text. -/
def numberOf (text : Bytes) : ℤ :=
  readSigned ((text.takeWhile (· ≠ 0)).dropWhile isSpace)

/-- The `.count` attribute of a directory. A missing one counts as zero. -/
def countOf (t : FileTree Xattrs) (l : Loc) : ℤ :=
  ((t.fileAt (idbAttrCountName :: l)).map numberOf).getD 0

/-- A file can have the name `.count` in the directory. -/
structure CountFree (fs : FileSystem) (l : Loc) : Prop where
  isDir : fs.tree.isDir (idbAttrCountName :: l) = false
  noLink : fs.tree.NoLink (idbAttrCountName :: l)

/-- The increment adds one to the `.count` attribute of a directory, and changes nothing else. -/
def AddsOne (incr : FileSystem → Bytes → FileSystem) : Prop :=
  ∀ fs path l, fs.At path l → CountFree fs l → ∃ v x, (incr fs path).cwd = fs.cwd ∧
    fs.tree.Updated (incr fs path).tree (idbAttrCountName :: l) (some (.file v x)) ∧
    numberOf v = countOf fs.tree l + 1

/-- The increments have gone to the directories `ls`. -/
structure Counted (fs fs' : FileSystem) (ls : List Loc) : Prop where
  shape : SameShape fs fs'
  count : ∀ q, countOf fs'.tree q = countOf fs.tree q + ls.count q

section

variable {fs fs' fs'' : FileSystem} {ls ls' : List Loc} {l : Loc}
  {incr : FileSystem → Bytes → FileSystem} {P names : List Name}

theorem CountFree.of_shape (h : CountFree fs l) (hs : SameShape fs fs') : CountFree fs' l := by
  refine ⟨?_, hs.noLink h.noLink⟩
  by_contra hd
  have := hs.keepsBack.dir _ (by simpa using hd)
  simp [h.isDir] at this

theorem Counted.trans (h : Counted fs fs' ls) (h' : Counted fs' fs'' ls') :
    Counted fs fs'' (ls ++ ls') := by
  refine ⟨h.shape.trans h'.shape, fun q => ?_⟩
  rw [h'.count, h.count, List.count_append]
  push_cast
  ring

/-- Adding one counts a directory that no file stands in the way of. -/
theorem AddsOne.counted (hincr : AddsOne incr) {path : Bytes} (h : fs.At path l)
    (hf : CountFree fs l) : Counted fs (incr fs path) [l] := by
  obtain ⟨v, x, hc, hu, hv⟩ := hincr fs path l h hf
  refine ⟨SameShape.of_updated hc hu (by simp [hf.isDir, Node.isDir]) fun target => ?_, fun q => ?_⟩
  · simp [hf.noLink target]
  · by_cases hq : q = l
    · subst hq
      rw [countOf, fileAt, hu, if_pos rfl]
      simp [hv]
    · have hne : idbAttrCountName :: q ≠ idbAttrCountName :: l := by simpa using hq
      rw [countOf, fileAt, hu, if_neg hne, countOf, fileAt]
      simp [Ne.symm hq]

/-- The directory the loop ends with. -/
theorem at_parentText (h : fs.At (orDot (keyText P)) l) :
    fs.At (orDot (parentText (keyText P))) l := by
  by_cases hP : keyText P = []
  · rwa [parentText, if_pos hP, ← hP]
  · rw [orDot, if_neg hP] at h
    have hne : withSlash (keyText P) ≠ [] := joinName_ne_nil hP
    rw [parentText, if_neg hP, orDot, if_neg hne]
    exact at_withSlash h

/-- A key that names directories leads to the last one. -/
theorem at_keyText (h : fs.At (orDot (keyText P)) l) (hP : ∀ d ∈ P, Component d)
    (hn : ∀ n ∈ names, ValidName n) (hne : names ≠ []) (hd : fs.tree.isDir (names.reverse ++ l)) :
    fs.At (keyText (P ++ names)) (names.reverse ++ l) := by
  obtain ⟨c, names, rfl⟩ := List.exists_cons_of_ne_nil hne
  rw [(key_walk h hP (hn c List.mem_cons_self).component).2.2]
  exact h.names hn hd

/-- The loop counts every directory on the way up once, and the last increment the one it
stops at. -/
theorem countParents_counted (hincr : AddsOne incr) (hP : ∀ d ∈ P, Component d)
    (h : fs.At (orDot (keyText P)) l) (hn : ∀ n ∈ names, ValidName n)
    (hd : fs.tree.isDir (names.reverse ++ l))
    (hf : ∀ q, l <:+ q → q <:+ names.reverse ++ l → CountFree fs q) :
    Counted fs
      (incr (countParents incr names.length fs (parentText (keyText (P ++ names)))).1
        (orDot (countParents incr names.length fs (parentText (keyText (P ++ names)))).2))
      (names.reverse.tails.map (· ++ l)) := by
  induction names using List.reverseRecOn generalizing fs with
  | nil =>
    rw [List.append_nil, List.length_nil, countParents]
    exact hincr.counted (at_parentText h) (hf l (List.suffix_refl l) (List.suffix_refl l))
  | append_singleton names n ih =>
    have hcomp : ∀ d ∈ P ++ (names ++ [n]), Component d := by
      intro d hd
      rcases List.mem_append.1 hd with hd | hd
      · exact hP d hd
      · exact (hn d hd).component
    have hne : keyText (P ++ (names ++ [n])) ≠ [] := (keyText_eq_nil hcomp).not.2 (by simp)
    have hat : fs.At (parentText (keyText (P ++ (names ++ [n]))))
        ((names ++ [n]).reverse ++ l) := by
      rw [parentText, if_neg hne]
      exact at_withSlash (at_keyText h hP hn (by simp) hd)
    have hup : removeLastPathName (parentText (keyText (P ++ (names ++ [n])))) =
        parentText (keyText (P ++ names)) := by
      rw [← List.append_assoc] at hcomp ⊢
      exact removeLastPathName_parent (fun d hd => hcomp d (List.mem_append_left _ hd))
        (hcomp n (by simp))
    have hsuf : names.reverse ++ l <:+ (names ++ [n]).reverse ++ l := by simp
    have hone := hincr.counted hat (hf _ (List.suffix_append _ _) (List.suffix_refl _))
    have hrest := ih (h.keeps hone.shape.keeps hone.shape.cwd_eq)
      (fun m hm => hn m (List.mem_append_left _ hm))
      (hone.shape.keeps.dir _ (isDir_of_suffix hsuf hd))
      fun q hl hq => (hf q hl (hq.trans hsuf)).of_shape hone.shape
    rw [List.length_append, List.length_singleton, countParents, hup]
    simpa using hone.trans hrest

end

/-! ## Directories that are made -/

section

variable {t t' : FileTree Xattrs} {l q : Loc} {n : Name} {m : List Name}

/-- Each parent on the way is there once. -/
theorem count_parents (l : Loc) (m : List Name) (q : Loc) :
    (m.tails.map (· ++ l)).count q = if l <:+ q ∧ q <:+ m ++ l then 1 else 0 := by
  induction m with
  | nil =>
    have hiff : l = q ↔ l <:+ q ∧ q <:+ l :=
      ⟨fun he => he ▸ ⟨List.suffix_refl l, List.suffix_refl l⟩,
        fun ⟨hl, hq⟩ => hl.eq_of_length_le hq.length_le⟩
    simp [List.count_singleton, hiff]
  | cons n m ih =>
    have hself : l <:+ n :: (m ++ l) := (List.suffix_append m l).trans (List.suffix_cons n _)
    have hlong : ¬n :: (m ++ l) <:+ m ++ l := fun hs => by simpa using hs.length_le
    rw [List.tails, List.map_cons, List.count_cons, ih, List.cons_append]
    by_cases he : q = n :: (m ++ l)
    · subst he
      simp [hself, hlong]
    · simp [he, Ne.symm he, List.suffix_cons_iff]

/-- Each parent on the way gets one subdirectory. -/
theorem length_subdirs_made (hnew : ∀ q, Below l q → q <:+ n :: (m ++ l) → t.isDir q = false)
    (hmade : ∀ q, t'.isDir q ↔ t.isDir q ∨ Below l q ∧ q <:+ n :: (m ++ l)) (q : Loc) :
    (t'.subdirs q).length = (t.subdirs q).length + (m.tails.map (· ++ l)).count q := by
  rw [count_parents]
  split_ifs with hq
  · obtain ⟨c, hc⟩ : ∃ c, c :: q <:+ n :: (m ++ l) := by
      have hb : Below q (n :: (m ++ l)) := below_cons hq.2 n
      exact hb.exists_entry
    have hcons : (c :: t.subdirs q).Nodup := by
      refine List.nodup_cons.2 ⟨fun hmem => ?_, t.nodup_subdirs q⟩
      rw [mem_subdirs, hnew _ (below_cons hq.1 c) hc] at hmem
      simp at hmem
    have hperm : (t'.subdirs q).Perm (c :: t.subdirs q) := by
      refine (List.perm_ext_iff_of_nodup (t'.nodup_subdirs q) hcons).2 fun d => ?_
      have hsame : d :: q <:+ n :: (m ++ l) ↔ d = c := by
        refine ⟨fun hd => ?_, fun he => he ▸ hc⟩
        have hsuf : d :: q <:+ c :: q := List.suffix_of_suffix_length_le hd hc (by simp)
        simpa using hsuf.eq_of_length (by simp)
      rw [mem_subdirs, hmade, hsame, List.mem_cons, mem_subdirs, and_iff_right (below_cons hq.1 d),
        or_comm]
    exact hperm.length_eq
  · have hperm : (t'.subdirs q).Perm (t.subdirs q) := by
      refine (List.perm_ext_iff_of_nodup (t'.nodup_subdirs q) (t.nodup_subdirs q)).2 fun d => ?_
      rw [mem_subdirs, mem_subdirs, hmade]
      refine or_iff_left fun ⟨hb, hd⟩ => hq ⟨below_cons_iff.1 hb, ?_⟩
      rcases List.suffix_cons_iff.1 hd with he | hs
      · exact (List.cons.inj he).2 ▸ List.suffix_refl q
      · exact (List.suffix_cons d q).trans hs
    exact hperm.length_eq

end

/-! ## What a put does -/

section

variable {fs : FileSystem} {P names : List Name} {c : Name} {l : Loc}

/-- A place below the directory on the way to the new key lies behind the first missing name. -/
theorem NewKey.get_way (h : NewKey fs P c names l) {q : Loc} (hb : Below l q)
    (hq : q <:+ (c :: names).reverse ++ l) : fs.tree.get q = none := by
  have hfirst : c :: l <:+ (c :: names).reverse ++ l := by simp
  have hlen : (c :: l).length ≤ q.length := by
    obtain ⟨x, m, rfl⟩ := below_iff_exists.1 hb
    simp
  by_contra hg
  exact get_ne_none_of_suffix (List.suffix_of_suffix_length_le hfirst hq hlen) hg h.missing

/-- The directories of a new key are made. -/
theorem NewKey.withDir_made (h : NewKey fs P c names l) :
    MadeOn (fun q => Below l q ∧ q <:+ (c :: names).reverse ++ l) fs
        (withDir fs (keyText (P ++ c :: names))) ∧
      (withDir fs (keyText (P ++ c :: names))).tree.isDir ((c :: names).reverse ++ l) := by
  have hcomp := (h.valid c List.mem_cons_self).component
  obtain ⟨hmade, hat⟩ := forceDirectories_names h.leads h.valid fun q hb hq =>
    Or.inl (h.get_way hb hq)
  rw [withDir, if_pos h.key_missing, (key_walk h.leads h.known hcomp).2.1]
  exact ⟨hmade, hat.isDir⟩

/-- A put that succeeds has written the file of the attribute. -/
theorem iPutInFile_newKey {host : Host} {M : ℤ} {policy : TIDBProcesses} {v : Bytes}
    {a : Option Bytes} (hM : M ≤ 0) (h : NewKey fs P c names l)
    (h0 : (iPutInFile host M fs (keyText (P ++ c :: names)) v a policy).2 = 0) :
    ∃ f, (withDir fs (keyText (P ++ c :: names))).resolve true
        (makeAttrFileName (keyText (P ++ c :: names)) a) = .ok f ∧
      FileSet (withDir fs (keyText (P ++ c :: names)))
        (iPutInFile host M fs (keyText (P ++ c :: names)) v a policy).1 f v := by
  have hput : iPutInFile host M fs (keyText (P ++ c :: names)) v a policy =
      notSetDirValue (withDir fs (keyText (P ++ c :: names))) (keyText (P ++ c :: names)) v a := by
    simp only [iPutInFile, if_neg (not_lt.2 hM)]
    refine ((putInDir_eq _ _ _ _).resolve_left fun hc => ?_).2
    rw [h.key_missing] at hc
    simp [pathIsFile, pathIsNotExists] at hc
  rw [hput, notSetDirValue, setDirValue] at h0 ⊢
  cases hw : (withDir fs (keyText (P ++ c :: names))).write
      (makeAttrFileName (keyText (P ++ c :: names)) a) v with
  | error e => simp [hw, ofResult] at h0
  | ok fs' => exact write_ok hw

/-- Making directories changes no stored count. -/
theorem countOf_made {S : Loc → Prop} {fs' : FileSystem} (h : MadeOn S fs fs') (q : Loc) :
    countOf fs'.tree q = countOf fs.tree q := by
  rw [countOf, countOf, fileAt, fileAt]
  rcases h.get_cases (idbAttrCountName :: q) with hg | ⟨-, hg, hg'⟩
  · rw [hg]
  · rw [hg, hg']
    rfl

/-- Writing a file changes the count it holds, and no other. -/
theorem countOf_fileSet {fs' : FileSystem} {f : Loc} {v : Bytes} (h : FileSet fs fs' f v)
    (q : Loc) : countOf fs'.tree q =
      if idbAttrCountName :: q = f then numberOf v else countOf fs.tree q := by
  rw [countOf, fileAt, h.updated]
  split_ifs
  · rfl
  · rfl

/-- Where a new key is put, its parents can be counted. -/
theorem NewKey.countFree (h : NewKey fs P c names l) (hl : CountFree fs l)
    (hc : idbAttrCountName ∉ c :: names) {q : Loc} (hq : l <:+ q)
    (hw : q <:+ (c :: names).reverse ++ l) :
    CountFree (withDir fs (keyText (P ++ c :: names))) q := by
  have hmade := h.withDir_made.1
  have hfree : CountFree fs q := by
    by_cases he : q = l
    · exact he ▸ hl
    · have hg : fs.tree.get (idbAttrCountName :: q) = none :=
        get_cons_eq_none (by rw [FileTree.isDir, h.get_way ⟨hq, he⟩ hw]; rfl)
      exact ⟨by rw [FileTree.isDir, hg]; rfl, by simp [NoLink, hg]⟩
  refine ⟨?_, hmade.noLink hfree.noLink⟩
  rw [FileTree.isDir]
  rcases hmade.get_cases (idbAttrCountName :: q) with hg | ⟨⟨-, hs⟩, -⟩
  · rw [hg]
    exact hfree.isDir
  · obtain ⟨m, rfl⟩ := hq
    obtain ⟨pre, hpre⟩ := hs
    rw [← List.cons_append, ← List.append_assoc, List.append_left_inj] at hpre
    have hmem : idbAttrCountName ∈ (c :: names).reverse := by simp [← hpre]
    exact absurd (List.mem_reverse.1 hmem) hc

variable {incr : FileSystem → Bytes → FileSystem} {host : Host} {M : ℤ} {policy : TIDBProcesses}
  {v : Bytes} {a : Option Bytes}

/-- A put of a new key that succeeds counts the parents of all its names. -/
theorem NewKey.putString_eq {init : List Name} {z : Name} (h : NewKey fs P c names l)
    (hinit : c :: names = init ++ [z])
    (h0 : (_iDBAttrPutString incr host M policy fs (keyText (P ++ c :: names)) v a).2 = 0) :
    (iPutInFile host M fs (keyText (P ++ c :: names)) v a policy).2 = 0 ∧
      (_iDBAttrPutString incr host M policy fs (keyText (P ++ c :: names)) v a).1 =
        incr (countParents incr init.length
            (iPutInFile host M fs (keyText (P ++ c :: names)) v a policy).1
            (parentText (keyText (P ++ init)))).1
          (orDot (countParents incr init.length
            (iPutInFile host M fs (keyText (P ++ c :: names)) v a policy).1
            (parentText (keyText (P ++ init)))).2) := by
  have hlevel : names.length = init.length := by
    have := congrArg List.length hinit
    simpa using this
  have hparent : removeLastPathName (keyText (P ++ c :: names)) =
      parentText (keyText (P ++ init)) := by
    have hcomp := h.component
    rw [hinit, ← List.append_assoc] at hcomp ⊢
    exact removeLastPathName_key (fun d hd => hcomp d (List.mem_append_left _ hd))
      (hcomp z (by simp))
  have hlevels := h.missingLevels_eq
  rw [hparent] at hlevels
  have hdot : orDot (keyText (P ++ c :: names)) = keyText (P ++ c :: names) := if_neg h.key_ne_nil
  rw [_iDBAttrPutString, hdot, if_pos h.key_missing, hparent, hlevels, hlevel] at h0 ⊢
  dsimp only at h0 ⊢
  by_cases hput : (iPutInFile host M fs (keyText (P ++ c :: names)) v a policy).2 = 0
  · rw [if_pos hput]
    exact ⟨hput, rfl⟩
  · rw [if_neg hput] at h0
    exact absurd h0 hput

/-- A put of a new key adds one subdirectory, and one to the count, of each parent on the way. -/
theorem NewKey.putString (hincr : AddsOne incr) (hM : M ≤ 0) (h : NewKey fs P c names l)
    (hl : CountFree fs l) (hc : idbAttrCountName ∉ c :: names)
    (h0 : (_iDBAttrPutString incr host M policy fs (keyText (P ++ c :: names)) v a).2 = 0) :
    ∃ fs' f ls, (_iDBAttrPutString incr host M policy fs (keyText (P ++ c :: names)) v a).1 = fs' ∧
      (withDir fs (keyText (P ++ c :: names))).resolve true
        (makeAttrFileName (keyText (P ++ c :: names)) a) = .ok f ∧ fs'.cwd = fs.cwd ∧
      (∀ q, (fs'.tree.subdirs q).length = (fs.tree.subdirs q).length + List.count q ls) ∧
      ∀ q, countOf fs'.tree q =
        (if idbAttrCountName :: q = f then numberOf v else countOf fs.tree q) +
          List.count q ls := by
  obtain ⟨init, z, hinit⟩ : ∃ init z, c :: names = init ++ [z] :=
    (List.eq_nil_or_concat' (c :: names)).resolve_left (by simp)
  have hway : (c :: names).reverse ++ l = z :: (init.reverse ++ l) := by simp [hinit]
  obtain ⟨hput, hrun⟩ := h.putString_eq hinit h0
  obtain ⟨f, hf, hset⟩ := iPutInFile_newKey hM h hput
  obtain ⟨hmade, hdir⟩ := h.withDir_made
  rw [hway] at hdir hmade
  have hcounted := countParents_counted hincr h.known
    (h.leads.keeps (hmade.keeps.trans hset.shape.keeps) (hset.cwd_eq.trans hmade.cwd_eq))
    (fun n hn => h.valid n (by simp [hinit, hn]))
    (hset.shape.keeps.dir _ (isDir_of_cons hdir))
    fun q hq hw => (h.countFree hl hc hq (hway ▸ hw.trans (List.suffix_cons z _))).of_shape
      hset.shape
  rw [← hrun] at hcounted
  have hshape := hset.shape.trans hcounted.shape
  refine ⟨_, f, init.reverse.tails.map (· ++ l), rfl, hf, hshape.cwd_eq.trans hmade.cwd_eq,
    length_subdirs_made (n := z) (fun q hb hw => ?_) fun q => ?_, fun q => ?_⟩
  · rw [FileTree.isDir, h.get_way hb (hway ▸ hw)]
    rfl
  · constructor
    · intro hd
      have hd := hshape.keepsBack.dir q hd
      rcases hmade.get_cases q with hg | ⟨hw, -⟩
      · left
        rwa [FileTree.isDir, ← hg]
      · exact Or.inr hw
    · rintro (hd | ⟨-, hq⟩)
      · exact hshape.keeps.dir q (hmade.keeps.dir q hd)
      · exact hshape.keeps.dir q (isDir_of_suffix hq hdir)
  · rw [hcounted.count, countOf_fileSet hset, countOf_made hmade]

end

/-! ## Runs of puts -/

/-- A put of the database object. -/
structure StringPut where
  key : List Name
  value : Bytes
  attr : Option Bytes
  component : ∀ c ∈ key, Component c

/-- The `.count` attribute of every directory of the database is the number of its
subdirectories. -/
def CountsRight (fs : FileSystem) : Prop :=
  ∀ q, fs.cwd <:+ q → fs.tree.isDir q → countOf fs.tree q = (fs.tree.subdirs q).length

/-- The key is new from its name `c` on, no directory or link takes the name of a count, and a
value that is written over a count is the right one. -/
def PutsNewKey (fs : FileSystem) (call : StringPut) : Prop :=
  ∃ P c names l, call.key = P ++ c :: names ∧ NewKey fs P c names l ∧ CountFree fs l ∧
    idbAttrCountName ∉ c :: names ∧
    ∀ q, fs.cwd <:+ q →
      (withDir fs (keyText call.key)).resolve true
        (makeAttrFileName (keyText call.key) call.attr) = .ok (idbAttrCountName :: q) →
      numberOf call.value = (fs.tree.subdirs q).length

section

variable (incr : FileSystem → Bytes → FileSystem) (host : Host) (iDBMaxPageCount : ℤ)
  (partitionFullProcess : TIDBProcesses)

/-- A put of the database with these settings. -/
def putString (fs : FileSystem) (call : StringPut) : FileSystem × ℤ :=
  _iDBAttrPutString incr host iDBMaxPageCount partitionFullProcess fs (keyText call.key) call.value
    call.attr

/-- Every put succeeds, and puts a new key. -/
def NewKeyRun : FileSystem → List StringPut → Prop
  | _, [] => True
  | fs, call :: calls =>
    (putString incr host iDBMaxPageCount partitionFullProcess fs call).2 = 0 ∧ PutsNewKey fs call ∧
      NewKeyRun (putString incr host iDBMaxPageCount partitionFullProcess fs call).1 calls

end

section

variable {incr : FileSystem → Bytes → FileSystem} {host : Host} {M : ℤ} {policy : TIDBProcesses}
  {fs : FileSystem} {call : StringPut} {calls : List StringPut}

/-- Where there is no directory there are no subdirectories to count. -/
theorem countOf_no_dir {t : FileTree Xattrs} {q : Loc} (h : t.isDir q = false) :
    countOf t q = (t.subdirs q).length := by
  have hnil : t.subdirs q = [] := by
    refine List.eq_nil_iff_forall_not_mem.2 fun c hc => ?_
    have := isDir_of_cons (mem_subdirs.1 hc)
    simp [h] at this
  rw [countOf, fileAt, get_cons_eq_none h, hnil]
  rfl

/-- A put of a new key keeps every count right. -/
theorem CountsRight.put (hincr : AddsOne incr) (hM : M ≤ 0) (h : CountsRight fs)
    (h0 : (putString incr host M policy fs call).2 = 0) (hnew : PutsNewKey fs call) :
    CountsRight (putString incr host M policy fs call).1 := by
  obtain ⟨P, c, names, l, hkey, hnew, hfree, hname, hvalue⟩ := hnew
  rw [putString, hkey] at h0 ⊢
  obtain ⟨fs', f, ls, rfl, hf, hcwd, hsub, hcount⟩ := hnew.putString hincr hM hfree hname h0
  rw [hkey] at hvalue
  intro q hq hd
  rw [hcwd] at hq
  rw [hcount, hsub]
  push_cast
  congr 1
  split_ifs with hfile
  · exact hvalue q hq (hfile ▸ hf)
  · by_cases hd' : fs.tree.isDir q
    · exact h q hq hd'
    · exact countOf_no_dir (by simpa using hd')

/-- In every run from an empty directory whose puts put new keys, the counts are right. -/
theorem countsRight_of_newKeys (incr : FileSystem → Bytes → FileSystem) (host : Host) (M : ℤ)
    (policy : TIDBProcesses) (fs : FileSystem) (calls : List StringPut) (hincr : AddsOne incr)
    (hM : M ≤ 0) (he : ∀ c, fs.tree.get (c :: fs.cwd) = none)
    (hrun : NewKeyRun incr host M policy fs calls) :
    CountsRight (calls.foldl (fun fs call => (putString incr host M policy fs call).1) fs) := by
  have hempty : CountsRight fs := by
    intro q hq hd
    have hroot : q = fs.cwd := by
      by_contra hne
      exact get_ne_none_of_isDir hd (get_eq_none_of_no_entry he ⟨hq, hne⟩)
    have hnil : fs.tree.subdirs fs.cwd = [] := by
      refine List.eq_nil_iff_forall_not_mem.2 fun c hc => ?_
      exact get_ne_none_of_isDir (mem_subdirs.1 hc) (he c)
    rw [hroot, countOf, fileAt, he, hnil]
    rfl
  clear he
  induction calls generalizing fs with
  | nil => exact hempty
  | cons call calls ih =>
    obtain ⟨h0, hnew, hrun⟩ := hrun
    exact ih _ hrun (hempty.put hincr hM h0 hnew)

end

/-! ## An increment that works -/

/-- The next number is written over the count. -/
def addCount (fs : FileSystem) (path : Bytes) : FileSystem :=
  match fs.resolve true path with
  | .ok l => (setDirValue fs path (decimalText (countOf fs.tree l + 1)) (some idbAttrCountName)).1
  | .error _ => fs

theorem numberOf_decimalText (n : ℤ) : numberOf (decimalText n) = n := by
  rw [numberOf, trim_decimalText, readSigned_decimalText]

/-- Adding one adds one. -/
theorem addsOne_addCount : AddsOne addCount := by
  intro fs path l h hf
  have hname : ValidName idbAttrCountName := by decide
  have hresolve : fs.resolve true (joinName path idbAttrCountName) =
      .ok (idbAttrCountName :: l) := by
    have hlink : fs.tree.NoLink (enter l idbAttrCountName) := by
      rw [enter_plain hname.1]
      exact hf.noLink
    rw [h.resolve_entry hname.2.1 hlink true, enter_plain hname.1]
  obtain ⟨t, ht⟩ := writeFile_eq (fun _ => none) (decimalText (countOf fs.tree l + 1)) hname h.isDir
    hf.isDir hf.noLink
  obtain ⟨x, -, -, hu⟩ := writeFile_ok ht
  have hcount : addCount fs path = { fs with tree := t } := by
    rw [addCount, h.resolve]
    dsimp only
    rw [setDirValue, show makeAttrFileName path (some idbAttrCountName) =
      joinName path idbAttrCountName from sdsJoinPathLen_eq h.ne_nil _, write,
      modify_eq hresolve ht]
    rfl
  rw [hcount]
  exact ⟨_, x, rfl, hu, numberOf_decimalText _⟩

/-- The default attribute of the key `a`. -/
def putA : StringPut :=
  ⟨[[97]], [49], none, by decide⟩

/-- The default attribute of the key `a/b`. -/
def putAb : StringPut :=
  ⟨[[97], [98]], [49], none, by decide⟩

theorem get_rootBase (c : Name) : rootBase.fs.tree.get [c] = none := by
  rw [show rootBase.fs.tree.get [c] = _ from get_bare _ _, if_neg (by simp)]

/-- The put of `ab` makes a new key. -/
theorem putsNewKey_ab : PutsNewKey rootBase.fs putAb := by
  refine ⟨[], [97], [[98]], [], rfl, ⟨by simp, ⟨by decide, rfl, isDir_nil _⟩, by decide,
      get_rootBase _⟩,
      ⟨?_, ?_⟩, by decide, fun q _ hq => ?_⟩
  · rw [FileTree.isDir, get_rootBase]
    rfl
  · simp [NoLink, get_rootBase]
  · have hfile : (withDir rootBase.fs (keyText putAb.key)).resolve true
        (makeAttrFileName (keyText putAb.key) putAb.attr) = .ok [idbValueName, [98], [97]] := by
      decide +kernel
    rw [hfile] at hq
    simp [idbValueName, idbAttrCountName] at hq

theorem countsRight_of_newKeys_ab :
    CountsRight ([putAb].foldl
      (fun fs call => (putString addCount plainHost 0 .dkIgnored fs call).1) rootBase.fs) :=
  countsRight_of_newKeys addCount plainHost 0 .dkIgnored rootBase.fs [putAb] addsOne_addCount
    (by decide) get_rootBase ⟨by decide +kernel, putsNewKey_ab, trivial⟩

/-- The second put of a key makes no directory, but counts one. -/
theorem not_countsRight_twice :
    AddsOne addCount ∧ (putString addCount plainHost 0 .dkIgnored rootBase.fs putA).2 = 0 ∧
      (putString addCount plainHost 0 .dkIgnored
        (putString addCount plainHost 0 .dkIgnored rootBase.fs putA).1 putA).2 = 0 ∧
      ¬CountsRight ([putA, putA].foldl
        (fun fs call => (putString addCount plainHost 0 .dkIgnored fs call).1) rootBase.fs) := by
  refine ⟨addsOne_addCount, by decide +kernel, by decide +kernel, fun h => ?_⟩
  have hroot := h [] (by decide +kernel) (isDir_nil _)
  revert hroot
  decide +kernel

end Idb
