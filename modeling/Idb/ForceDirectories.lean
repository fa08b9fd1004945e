import Idb.Directories

/-!
# What creating a directory does

`forceDirectories` on a path that continues the path of an existing directory by some
names : it goes through the names (`forceNames`), it changes nothing but missing places
on the way, which become directories without attributes, and when it returns 0 the path
names a directory. If no file is in the way it returns 0.
-/

namespace Idb

open Posix FileSystem FileTree

/-- A directory without attributes. -/
def newDir : Node Xattrs :=
  .dir fun _ => none

/-! ## One directory -/

section

variable {fs fs' : FileSystem} {path : Bytes} {p : Loc} {c : Name}

theorem doMkdir_at (h : fs.At path p) : doMkdir fs path = (fs, 0) := by
  obtain ⟨x, hx⟩ := h.stat_dir
  simp [doMkdir, hx]

/-- A path that does not end in a slash has none to trim. -/
theorem trimSlashes_of_last (h : path.getLast? ≠ some slash) : trimSlashes path = path := by
  have : path.rdropWhile (· = slash) = path := by
    rcases List.eq_nil_or_concat' path with rfl | ⟨q, b, rfl⟩
    · rfl
    · rw [List.rdropWhile_concat_neg]
      simpa using h
  simp [trimSlashes, this]

theorem trimSlashes_joinName (hc : Component c) :
    trimSlashes (joinName path c) = joinName path c :=
  trimSlashes_of_last (getLast?_joinName hc)

/-- Making an entry of a directory succeeds unless something else is there. -/
theorem doMkdir_entry (h : fs.At path p) (hc : Component c) (hl : fs.tree.NoLink (enter p c)) :
    (fs.tree.isDir (enter p c) ∧ doMkdir fs (joinName path c) = (fs, 0)) ∨
    (fs.tree.get (enter p c) ≠ none ∧ fs.tree.isDir (enter p c) = false ∧
      doMkdir fs (joinName path c) = (fs, -1)) ∨
    (fs.tree.get (enter p c) = none ∧ ∃ fs', doMkdir fs (joinName path c) = (fs', 0) ∧
      fs'.cwd = fs.cwd ∧ fs.tree.Updated fs'.tree (enter p c) (some newDir)) := by
  have hstat := h.stat_entry hc.2.1 hl
  cases hg : fs.tree.get (enter p c) with
  | some n =>
    cases n with
    | dir x =>
      refine Or.inl ⟨isDir_of_get hg, ?_⟩
      simp [doMkdir, hstat, nodeAt, hg]
    | file v x =>
      refine Or.inr (Or.inl ⟨by simp, by simp [FileTree.isDir, hg, Node.isDir], ?_⟩)
      simp [doMkdir, hstat, nodeAt, hg]
    | link target => exact absurd hg (hl target)
  | none =>
    refine Or.inr (Or.inr ⟨rfl, ?_⟩)
    have hplain : Plain c ∧ enter p c = c :: p := by
      rcases enter_cases p c with he | he | he
      · exact absurd (he ▸ hg) (get_ne_none_of_isDir h.isDir)
      · exact absurd (he ▸ hg) (get_ne_none_of_isDir (isDir_tail h.isDir))
      · exact he
    obtain ⟨hp, he⟩ := hplain
    obtain ⟨t', ht'⟩ := makeDir_eq (x := fun _ => none) (hc.validName hp) h.isDir (he ▸ hg)
    have hmk : fs.mkdir (joinName path c) = .ok { fs with tree := t' } := by
      rw [mkdir, trimSlashes_joinName hc]
      exact modify_eq (he ▸ h.resolve_entry hc.2.1 hl false) ht'
    refine ⟨{ fs with tree := t' }, ?_, rfl, ?_⟩
    · simp [doMkdir, hstat, nodeAt, hg, hmk]
    · rw [he]
      exact (makeDir_ok ht').2

end

/-! ## The loop as a walk over names -/

/-- Make the directory at `path`, then each further name below it. -/
def forceNames (fs : FileSystem) (path : Bytes) : List Name → FileSystem × ℤ
  | [] => doMkdir fs path
  | c :: cs =>
    let status := doMkdir fs path
    if status.2 = 0 then forceNames status.1 (joinName path c) cs else status

/-- The loop passes over a text whose prefixes need no directory. -/
theorem forceLoop_skip {fs : FileSystem} {text rest : Bytes} (copypath : Bytes)
    (h : ∀ a b, text = a ++ slash :: b → copypath ++ a ≠ [] →
      (copypath ++ a).getLast? ≠ some slash → doMkdir fs (copypath ++ a) = (fs, 0)) :
    forceLoop fs copypath (text ++ rest) = forceLoop fs (copypath ++ text) rest := by
  induction text generalizing copypath with
  | nil => simp
  | cons b text ih =>
    have ih' := ih (copypath ++ [b]) fun a b' he hne hl => by
      rw [List.append_assoc] at hne hl ⊢
      exact h (b :: a) b' (by simp [he]) hne hl
    rw [List.append_assoc, List.singleton_append] at ih'
    rw [List.cons_append, forceLoop]
    split_ifs with hb
    · obtain ⟨rfl, hne, hl⟩ := hb
      have hm := h [] text rfl (by simpa using hne) (by simpa using hl)
      rw [List.append_nil] at hm
      simpa [hm] using ih'
    · exact ih'

/-- On a joined path the loop makes the directories name by name. -/
theorem forceLoop_names {fs : FileSystem} {path : Bytes} {names : List Name}
    (hn : ∀ c ∈ names, Component c) (hne : path ≠ []) (hl : path.getLast? ≠ some slash) :
    forceLoop fs path (names.flatMap fun c => slash :: c) = forceNames fs path names := by
  induction names generalizing fs path with
  | nil => rfl
  | cons c cs ih =>
    have hc := hn c (by simp)
    rw [List.flatMap_cons, List.cons_append, forceLoop, if_pos ⟨rfl, hne, hl⟩, forceNames]
    refine if_congr Iff.rfl ?_ rfl
    rw [forceLoop_skip (path ++ [slash]), List.append_assoc, List.singleton_append,
      ← joinName_of_no_slash hl]
    · exact ih (fun d hd => hn d (by simp [hd])) (joinName_ne_nil hne) (getLast?_joinName hc)
    · rintro a b rfl
      exact absurd (by simp) hc.2.1

/-- The way to a directory is there. -/
theorem forceLoop_at {fs : FileSystem} {path : Bytes} {p : Loc} (h : fs.At path p) (rest : Bytes) :
    forceLoop fs [] (path ++ rest) = forceLoop fs path rest := by
  refine forceLoop_skip [] fun a b he hne _ => ?_
  rw [List.nil_append] at hne ⊢
  obtain ⟨q, hq⟩ := At.of_append_slash (he ▸ h) hne
  exact doMkdir_at hq

/-- `ForceDirectories` on names below a directory. -/
theorem forceDirectories_eq {fs : FileSystem} {path : Bytes} {p : Loc} {names : List Name}
    (h : fs.At path p) (hn : ∀ c ∈ names, Component c) :
    forceDirectories fs (names.foldl joinName path) = forceNames fs path names := by
  cases names with
  | nil =>
    have := forceLoop_at h []
    rw [List.append_nil] at this
    exact this
  | cons c cs =>
    have hcs : ∀ d ∈ cs, Component d := fun d hd => hn d (by simp [hd])
    by_cases hl : path.getLast? = some slash
    · have hj : joinName path c = path ++ c := if_pos hl
      rw [forceDirectories, List.foldl_cons,
        foldl_joinName hcs (getLast?_joinName (hn c (by simp))), hj, List.append_assoc,
        forceLoop_at h, forceLoop_skip path, ← hj, forceLoop_names hcs
          (joinName_ne_nil h.ne_nil) (getLast?_joinName (hn c (by simp))), forceNames,
        doMkdir_at h]
      · rfl
      rintro a b rfl
      exact absurd (by simp) (hn _ List.mem_cons_self).2.1
    · rw [forceDirectories, foldl_joinName hn hl, forceLoop_at h, forceLoop_names hn h.ne_nil hl]

/-! ## What is made -/

/-- `fs'` is `fs` with some missing places of `S` made directories. -/
structure MadeOn (S : Loc → Prop) (fs fs' : FileSystem) : Prop where
  cwd_eq : fs'.cwd = fs.cwd
  get_cases : ∀ m, fs'.tree.get m = fs.tree.get m ∨
    (S m ∧ fs.tree.get m = none ∧ fs'.tree.get m = some newDir)

namespace MadeOn

variable {S S' : Loc → Prop} {fs fs' fs'' : FileSystem}

theorem refl (S : Loc → Prop) (fs : FileSystem) : MadeOn S fs fs :=
  ⟨rfl, fun _ => Or.inl rfl⟩

/-- Directories made one after another. -/
theorem trans (h : MadeOn S fs fs') (h' : MadeOn S fs' fs'') : MadeOn S fs fs'' := by
  refine ⟨h'.cwd_eq.trans h.cwd_eq, fun m => ?_⟩
  rcases h.get_cases m with hm | ⟨hS, hn, hm⟩ <;> rcases h'.get_cases m with hm' | ⟨hS', hn', hm'⟩
  · exact Or.inl (hm'.trans hm)
  · exact Or.inr ⟨hS', hm ▸ hn', hm'⟩
  · exact Or.inr ⟨hS, hn, hm'.trans hm⟩
  · exact Or.inr ⟨hS, hn, hm'⟩

theorem mono (h : MadeOn S fs fs') (hS : ∀ m, S m → S' m) : MadeOn S' fs fs' :=
  ⟨h.cwd_eq, fun m => (h.get_cases m).imp_right fun hm => ⟨hS m hm.1, hm.2⟩⟩

theorem get_of_ne_none (h : MadeOn S fs fs') {m : Loc} (hm : fs.tree.get m ≠ none) :
    fs'.tree.get m = fs.tree.get m :=
  (h.get_cases m).resolve_right fun hc => hm hc.2.1

theorem keeps (h : MadeOn S fs fs') : fs.tree.Keeps fs'.tree where
  dir l hl := by
    obtain ⟨x, hx⟩ := isDir_iff.1 hl
    exact isDir_of_get ((h.get_of_ne_none (by simp [hx])).trans hx)
  link l target hl := (h.get_of_ne_none (by simp [hl])).trans hl

theorem noLink (h : MadeOn S fs fs') {m : Loc} (hm : fs.tree.NoLink m) : fs'.tree.NoLink m := by
  intro target ht
  rcases h.get_cases m with hc | hc
  · exact hm target (hc ▸ ht)
  · simp [hc.2.2, newDir] at ht

/-- A place that is missing or a directory stays so. -/
theorem missing_or_dir (h : MadeOn S fs fs') {m : Loc}
    (hm : fs.tree.get m = none ∨ fs.tree.isDir m) : fs'.tree.get m = none ∨ fs'.tree.isDir m := by
  rcases hm with hm | hm
  · rcases h.get_cases m with hc | hc
    · exact Or.inl (hc.trans hm)
    · exact Or.inr (isDir_of_get hc.2.2)
  · exact Or.inr (h.keeps.dir m hm)

end MadeOn

/-- `do_mkdir` only makes directories. -/
theorem doMkdir_made (fs : FileSystem) (path : Bytes) :
    MadeOn (fun _ => True) fs (doMkdir fs path).1 := by
  unfold doMkdir
  split
  · split
    · next fs' hm =>
      obtain ⟨l, -, ho, hc⟩ := modify_ok hm
      obtain ⟨hn, hu⟩ := makeDir_ok ho
      refine ⟨hc, fun m => ?_⟩
      rw [hu m]
      split_ifs with h
      · exact Or.inr ⟨trivial, h ▸ hn, rfl⟩
      · exact Or.inl rfl
    · exact MadeOn.refl _ fs
  · exact MadeOn.refl _ fs
  · exact MadeOn.refl _ fs

/-- The loop only makes directories. -/
theorem forceLoop_made (fs : FileSystem) (copypath rest : Bytes) :
    MadeOn (fun _ => True) fs (forceLoop fs copypath rest).1 := by
  induction rest generalizing fs copypath with
  | nil => exact doMkdir_made fs copypath
  | cons b rest ih =>
    rw [forceLoop]
    dsimp only
    split_ifs
    · exact (doMkdir_made fs copypath).trans (ih _ _)
    · exact doMkdir_made fs copypath
    · exact ih fs _

/-- Whatever the path, nothing but missing places is changed. -/
theorem forceDirectories_made (fs : FileSystem) (path : Bytes) :
    MadeOn (fun _ => True) fs (forceDirectories fs path).1 :=
  forceLoop_made fs [] path

section

variable {fs : FileSystem} {path : Bytes} {p : Loc} {c : Name} {names : List Name}

/-- `do_mkdir` makes at most the one directory, and success means it is there. -/
theorem doMkdir_spec (h : fs.At path p) (hc : Component c) (hl : fs.tree.NoLink (enter p c)) :
    MadeOn (· = enter p c) fs (doMkdir fs (joinName path c)).1 ∧
      ((doMkdir fs (joinName path c)).2 = 0 →
        (doMkdir fs (joinName path c)).1.At (joinName path c) (enter p c)) := by
  rcases doMkdir_entry h hc hl with ⟨hd, he⟩ | ⟨_, _, he⟩ | ⟨hn, fs', he, hcwd, hu⟩
  · rw [he]
    exact ⟨MadeOn.refl _ fs, fun _ => h.entry hc.2.1 hd⟩
  · rw [he]
    exact ⟨MadeOn.refl _ fs, fun h0 => by simp at h0⟩
  · rw [he]
    have hm : MadeOn (· = enter p c) fs fs' := by
      refine ⟨hcwd, fun m => ?_⟩
      rw [hu m]
      split_ifs with hmc
      · exact Or.inr ⟨hmc, hmc ▸ hn, rfl⟩
      · exact Or.inl rfl
    have hg : fs'.tree.get (enter p c) = some newDir := by rw [hu, if_pos rfl]
    exact ⟨hm, fun _ => (h.keeps hm.keeps hcwd).entry hc.2.1 (isDir_of_get hg)⟩

/-- Going through names from an entry of a directory. -/
theorem forceNames_entry (h : fs.At path p) (hc : Component c) (hn : ∀ d ∈ names, Component d)
    (hl : ∀ pre, pre <+: c :: names → fs.tree.NoLink (pre.foldl enter p)) :
    MadeOn (fun m => ∃ pre, pre <+: names ∧ m = (c :: pre).foldl enter p) fs
        (forceNames fs (joinName path c) names).1 ∧
      ((forceNames fs (joinName path c) names).2 = 0 →
        (forceNames fs (joinName path c) names).1.At ((c :: names).foldl joinName path)
          ((c :: names).foldl enter p)) := by
  induction names generalizing fs path p c with
  | nil =>
    obtain ⟨hm, h0⟩ := doMkdir_spec h hc (hl [c] (List.prefix_refl _))
    refine ⟨hm.mono fun m he => ⟨[], List.prefix_refl _, he⟩, h0⟩
  | cons d ds ih =>
    obtain ⟨hm, h0⟩ := doMkdir_spec h hc (hl [c] (by simp))
    rw [forceNames]
    split_ifs with hs
    · obtain ⟨hm', h0'⟩ := ih (h0 hs) (hn d (by simp)) (fun e he => hn e (by simp [he]))
        fun pre hp => hm.noLink (hl (c :: pre) (List.cons_prefix_cons.2 ⟨rfl, hp⟩))
      refine ⟨(hm.mono ?_).trans (hm'.mono ?_), h0'⟩
      · rintro m rfl
        exact ⟨[], List.nil_prefix, rfl⟩
      · rintro m ⟨pre, hp, rfl⟩
        exact ⟨d :: pre, List.cons_prefix_cons.2 ⟨rfl, hp⟩, rfl⟩
    · refine ⟨hm.mono ?_, fun h0' => absurd h0' hs⟩
      rintro m rfl
      exact ⟨[], List.nil_prefix, rfl⟩

/-- What `ForceDirectories` makes below a directory. -/
theorem forceDirectories_spec (h : fs.At path p) (hn : ∀ d ∈ names, Component d)
    (hl : ∀ pre, pre <+: names → fs.tree.NoLink (pre.foldl enter p)) :
    MadeOn (fun m => ∃ pre, pre ≠ [] ∧ pre <+: names ∧ m = pre.foldl enter p) fs
        (forceDirectories fs (names.foldl joinName path)).1 ∧
      ((forceDirectories fs (names.foldl joinName path)).2 = 0 →
        (forceDirectories fs (names.foldl joinName path)).1.At (names.foldl joinName path)
          (names.foldl enter p)) := by
  rw [forceDirectories_eq h hn]
  cases names with
  | nil =>
    rw [forceNames, doMkdir_at h]
    exact ⟨MadeOn.refl _ fs, fun _ => h⟩
  | cons c cs =>
    rw [forceNames, doMkdir_at h]
    obtain ⟨hm, h0⟩ := forceNames_entry h (hn c (by simp)) (fun d hd => hn d (by simp [hd])) hl
    refine ⟨hm.mono ?_, h0⟩
    rintro m ⟨pre, hp, rfl⟩
    exact ⟨c :: pre, by simp, List.cons_prefix_cons.2 ⟨rfl, hp⟩, rfl⟩

theorem noLink_of_missing_or_dir {m : Loc} (h : fs.tree.get m = none ∨ fs.tree.isDir m) :
    fs.tree.NoLink m := by
  rcases h with h | h
  · simp [NoLink, h]
  · exact noLink_of_isDir h

/-- `do_mkdir` succeeds where there is nothing or a directory. -/
theorem doMkdir_success (h : fs.At path p) (hc : Component c)
    (hl : fs.tree.get (enter p c) = none ∨ fs.tree.isDir (enter p c)) :
    (doMkdir fs (joinName path c)).2 = 0 := by
  rcases doMkdir_entry h hc (noLink_of_missing_or_dir hl) with
    ⟨_, he⟩ | ⟨hg, hd, _⟩ | ⟨_, fs', he, _⟩
  · rw [he]
  · simp [hg, hd] at hl
  · rw [he]

/-- The loop succeeds where nothing on the way is other than a directory. -/
theorem forceNames_success (h : fs.At path p) (hc : Component c) (hn : ∀ d ∈ names, Component d)
    (hl : ∀ pre, pre <+: names → fs.tree.get ((c :: pre).foldl enter p) = none ∨
      fs.tree.isDir ((c :: pre).foldl enter p)) :
    (forceNames fs (joinName path c) names).2 = 0 := by
  have hc0 : fs.tree.get (enter p c) = none ∨ fs.tree.isDir (enter p c) := hl [] List.nil_prefix
  have hs := doMkdir_success h hc hc0
  induction names generalizing fs path p c with
  | nil => exact hs
  | cons d ds ih =>
    rw [forceNames, if_pos hs]
    obtain ⟨hm, h0⟩ := doMkdir_spec h hc (noLink_of_missing_or_dir hc0)
    have hl' : ∀ pre, pre <+: ds →
        (doMkdir fs (joinName path c)).1.tree.get ((d :: pre).foldl enter (enter p c)) = none ∨
        (doMkdir fs (joinName path c)).1.tree.isDir ((d :: pre).foldl enter (enter p c)) :=
      fun pre hp => hm.missing_or_dir (hl (d :: pre) (List.cons_prefix_cons.2 ⟨rfl, hp⟩))
    have hd := hl' [] List.nil_prefix
    exact ih (h0 hs) (hn d (by simp)) (fun e he => hn e (by simp [he])) hl' hd
      (doMkdir_success (h0 hs) (hn d (by simp)) hd)

/-- If no file is in the way, the directory is made. -/
theorem forceDirectories_success (h : fs.At path p) (hn : ∀ d ∈ names, Component d)
    (hl : ∀ pre, pre <+: names → fs.tree.get (pre.foldl enter p) = none ∨
      fs.tree.isDir (pre.foldl enter p)) :
    (forceDirectories fs (names.foldl joinName path)).2 = 0 := by
  rw [forceDirectories_eq h hn]
  cases names with
  | nil => rw [forceNames, doMkdir_at h]
  | cons c cs =>
    rw [forceNames, doMkdir_at h]
    exact forceNames_success h (hn c (by simp)) (fun d hd => hn d (by simp [hd]))
      fun pre hp => hl (c :: pre) (List.cons_prefix_cons.2 ⟨rfl, hp⟩)

/-- The places on the way through valid names. -/
theorem suffix_of_names {pre : List Name} (hn : ∀ n ∈ names, ValidName n) (hp : pre <+: names) :
    pre.foldl enter p = pre.reverse ++ p ∧ pre.reverse ++ p <:+ names.reverse ++ p ∧
      (pre ≠ [] → Below p (pre.reverse ++ p)) := by
  refine ⟨foldl_enter (fun n hm => (hn n (hp.subset hm)).1) p, ?_, fun hne =>
    ⟨List.suffix_append _ _, fun he => hne (by simpa using he)⟩⟩
  obtain ⟨rest, rfl⟩ := hp
  simp

/-- What `ForceDirectories` makes when it goes through valid names. -/
theorem forceDirectories_valid (h : fs.At path p) (hn : ∀ n ∈ names, ValidName n)
    (hl : ∀ q, Below p q → q <:+ names.reverse ++ p → fs.tree.NoLink q) :
    MadeOn (fun q => Below p q ∧ q <:+ names.reverse ++ p) fs
        (forceDirectories fs (names.foldl joinName path)).1 ∧
      ((forceDirectories fs (names.foldl joinName path)).2 = 0 →
        (forceDirectories fs (names.foldl joinName path)).1.At (names.foldl joinName path)
          (names.reverse ++ p)) := by
  obtain ⟨hm, hat⟩ := forceDirectories_spec h (fun n hm => (hn n hm).component) fun pre hp => by
    obtain ⟨he, hsuf, hb⟩ := suffix_of_names (p := p) hn hp
    rw [he]
    by_cases hne : pre = []
    · exact hne ▸ noLink_of_isDir h.isDir
    · exact hl _ (hb hne) hsuf
  refine ⟨hm.mono ?_, fun hs => ?_⟩
  · rintro q ⟨pre, hne, hp, rfl⟩
    obtain ⟨he, hsuf, hb⟩ := suffix_of_names (p := p) hn hp
    exact he ▸ ⟨hb hne, hsuf⟩
  · rw [← (suffix_of_names hn (List.prefix_refl names)).1]
    exact hat hs

/-- It makes the directory if nothing is in the way. -/
theorem forceDirectories_names (h : fs.At path p) (hn : ∀ n ∈ names, ValidName n)
    (hl : ∀ q, Below p q → q <:+ names.reverse ++ p → fs.tree.get q = none ∨ fs.tree.isDir q) :
    MadeOn (fun q => Below p q ∧ q <:+ names.reverse ++ p) fs
        (forceDirectories fs (names.foldl joinName path)).1 ∧
      (forceDirectories fs (names.foldl joinName path)).1.At (names.foldl joinName path)
        (names.reverse ++ p) := by
  obtain ⟨hm, hat⟩ := forceDirectories_valid h hn fun q hb hs =>
    noLink_of_missing_or_dir (hl q hb hs)
  refine ⟨hm, hat (forceDirectories_success h (fun n hm => (hn n hm).component) fun pre hp => ?_)⟩
  obtain ⟨he, hsuf, hb⟩ := suffix_of_names (p := p) hn hp
  rw [he]
  by_cases hne : pre = []
  · exact Or.inr (hne ▸ h.isDir)
  · exact hl _ (hb hne) hsuf

/-- It makes the directory, or nothing at all. -/
theorem forceDirectories_whole (h : fs.At path p) (hn : ∀ n ∈ names, ValidName n)
    (hl : ∀ q, Below p q → q <:+ names.reverse ++ p → fs.tree.NoLink q) :
    (forceDirectories fs (names.foldl joinName path)).1.At (names.foldl joinName path)
        (names.reverse ++ p) ∨
      ∀ q, (forceDirectories fs (names.foldl joinName path)).1.tree.get q = fs.tree.get q := by
  by_cases hway : ∀ q, Below p q → q <:+ names.reverse ++ p →
      fs.tree.get q = none ∨ fs.tree.isDir q
  · exact Or.inl (forceDirectories_names h hn hway).2
  · push Not at hway
    obtain ⟨f, hb, hsuf, hget, hdir⟩ := hway
    obtain ⟨hm, -⟩ := forceDirectories_valid h hn hl
    -- A file is in the way : what is before it is there, what is behind it cannot be made.
    refine Or.inr fun q => (hm.get_cases q).resolve_right ?_
    rintro ⟨⟨-, hq⟩, hnone, hnew⟩
    rcases List.suffix_or_suffix_of_suffix hq hsuf with hs | hs
    · exact get_ne_none_of_suffix hs hget hnone
    · have hfile := isDir_of_suffix hs (isDir_of_get hnew)
      rw [FileTree.isDir, hm.get_of_ne_none hget] at hfile
      exact hdir hfile

end

end Idb
