import Idb.Faults
import Idb.StoreTypes

/-!
# Failed puts

A put makes the directory of a new key before it tries to write, with both store types the
extended attribute is written before the file is tried, and the file is truncated before it is
written. So a put that fails may leave something behind, or lose what was there ;
`failedPut_keeps_iff` says when it does not.
-/

namespace Idb

open Posix FileSystem FileTree

/-- The same nodes at the same places. -/
structure SameTree (fs fs' : FileSystem) : Prop where
  cwd_eq : fs'.cwd = fs.cwd
  get_eq : ∀ l, fs'.tree.get l = fs.tree.get l

namespace SameTree

variable {fs fs' : FileSystem}

theorem refl (fs : FileSystem) : SameTree fs fs :=
  ⟨rfl, fun _ => rfl⟩

theorem trans {fs'' : FileSystem} (h : SameTree fs fs') (h' : SameTree fs' fs'') :
    SameTree fs fs'' :=
  ⟨h'.cwd_eq.trans h.cwd_eq, fun l => (h'.get_eq l).trans (h.get_eq l)⟩

theorem symm (h : SameTree fs fs') : SameTree fs' fs :=
  ⟨h.cwd_eq.symm, fun l => (h.get_eq l).symm⟩

theorem shape (h : SameTree fs fs') : SameShape fs fs' := by
  have hd : ∀ l, fs'.tree.isDir l = fs.tree.isDir l := fun l => by
    rw [FileTree.isDir, h.get_eq]
    rfl
  exact ⟨h.cwd_eq, ⟨fun l hl => (hd l).trans hl, fun l _ hl => (h.get_eq l).trans hl⟩,
    ⟨fun l hl => (hd l).symm.trans hl, fun l _ hl => (h.get_eq l).symm.trans hl⟩⟩

end SameTree

/-! ## Making directories -/

/-- The path leads through the place that `pre` names. -/
def OnPath (path pre : Bytes) : Prop :=
  path = pre ∨ ∃ rest, path = pre ++ slash :: rest

section

variable {fs : FileSystem} {path pre : Bytes}

/-- A `mkdir` that fails changes nothing. -/
theorem mkdir_fails_doMkdir (h : ∀ fs', fs.mkdir path ≠ .ok fs') : (doMkdir fs path).1 = fs := by
  unfold doMkdir
  split
  · split
    · next fs' hm => exact absurd hm (h fs')
    · rfl
  · rfl
  · rfl

/-- The loop changes nothing where every `mkdir` on the path fails. -/
theorem forceLoop_keeps {copypath rest : Bytes}
    (h : ∀ pre, OnPath (copypath ++ rest) pre → ∀ fs', fs.mkdir pre ≠ .ok fs') :
    (forceLoop fs copypath rest).1 = fs := by
  induction rest generalizing copypath with
  | nil => exact mkdir_fails_doMkdir (h copypath (Or.inl (List.append_nil _)))
  | cons b rest ih =>
    have hnext : (forceLoop fs (copypath ++ [b]) rest).1 = fs := ih (by
      rwa [List.append_assoc, List.singleton_append])
    rw [forceLoop]
    dsimp only
    split_ifs with hb hs
    · have hm := mkdir_fails_doMkdir (h copypath (Or.inr ⟨rest, by rw [hb.1]⟩))
      rw [hm, hnext]
    · exact mkdir_fails_doMkdir (h copypath (Or.inr ⟨rest, by rw [hb.1]⟩))
    · exact hnext

/-- A directory that can be made is missing. -/
theorem mkdir_ok {fs' : FileSystem} (h : fs.mkdir path = .ok fs')
    (hl : path.getLast? ≠ some slash) : path ≠ [] ∧
      ∃ l, fs.resolve true path = .ok l ∧ fs.tree.get l = none ∧ fs'.tree.get l ≠ none := by
  obtain ⟨l, hr, ho, -⟩ := modify_ok h
  obtain ⟨hn, hu⟩ := makeDir_ok ho
  rw [trimSlashes_of_last hl] at hr
  have hne : path ≠ [] := by
    rintro rfl
    simp [FileSystem.resolve] at hr
  refine ⟨hne, l, ?_, hn, by rw [hu, if_pos rfl]; simp⟩
  unfold FileSystem.resolve at hr ⊢
  split_ifs at hr ⊢
  exact namei_follow (by simp [NoLink, hn]) hr

theorem doMkdir_makes {fs' : FileSystem} (hm : fs.mkdir path = .ok fs')
    (hl : path.getLast? ≠ some slash) : path ≠ [] ∧ doMkdir fs path = (fs', 0) ∧
      ∃ l, fs.tree.get l = none ∧ fs'.tree.get l ≠ none := by
  obtain ⟨hne, l, hr, hn, hn'⟩ := mkdir_ok hm hl
  refine ⟨hne, ?_, l, hn, hn'⟩
  simp [doMkdir, stat, hr, nodeAt, hn, hm]

/-- What can be made on the path is made, unless something else is made before. -/
theorem forceLoop_makes {fs' : FileSystem} {copypath rest : Bytes} (hm : fs.mkdir pre = .ok fs')
    (hl : pre.getLast? ≠ some slash) (hpre : copypath <+: pre)
    (hp : OnPath (copypath ++ rest) pre) : ¬SameTree fs (forceLoop fs copypath rest).1 := by
  obtain ⟨hne, hmake, l, hn, hn'⟩ := doMkdir_makes hm hl
  intro hsame
  induction rest generalizing copypath with
  | nil =>
    obtain rfl : copypath = pre := by
      rw [List.append_nil] at hp
      rcases hp with hp | ⟨rest, hp⟩
      · exact hp
      · have := hpre.length_le
        rw [hp] at this
        simp at this
    rw [forceLoop, hmake] at hsame
    exact hn' ((hsame.get_eq l).trans hn)
  | cons b rest ih =>
    obtain ⟨r, rfl⟩ := hpre
    cases r with
    | nil =>
      rw [List.append_nil] at hp hl hne hmake
      have hb : b = slash := by
        rcases hp with hp | ⟨rest', hp⟩
        · simp at hp
        · exact (List.cons.inj (List.append_cancel_left hp)).1
      have hmade := forceLoop_made fs' (copypath ++ [b]) rest
      rw [forceLoop, if_pos ⟨hb, hne, hl⟩, hmake] at hsame
      dsimp only at hsame
      rw [if_pos rfl] at hsame
      exact hn' ((hmade.get_of_ne_none hn').symm.trans ((hsame.get_eq l).trans hn))
    | cons b' r =>
      have hb : b' = b := by
        rcases hp with hp | ⟨rest', hp⟩
        · exact (List.cons.inj (List.append_cancel_left hp)).1.symm
        · rw [List.append_assoc] at hp
          exact (List.cons.inj (List.append_cancel_left hp)).1.symm
      subst hb
      have hnext : ¬SameTree fs (forceLoop fs (copypath ++ [b']) rest).1 := fun hs =>
        ih ⟨r, by simp⟩ (by simpa using hp) hs
      rw [forceLoop] at hsame
      split_ifs at hsame with hc
      · obtain ⟨-, l', hr, -⟩ := mkdir_ok hm hl
        obtain ⟨q, hq⟩ := at_of_resolve (hc.1 ▸ hr) hc.2.1
        rw [doMkdir_at hq] at hsame
        exact hnext (by simpa using hsame)
      · exact hnext hsame

/-- A path of slashes is the root. -/
theorem resolve_slashes {last : Bool} (hne : path ≠ []) (h : ∀ b ∈ path, b = slash) :
    fs.resolve last path = .ok [] := by
  have hcomp : ∀ c ∈ components path, c = [] := by
    clear hne
    induction path with
    | nil => simp [components]
    | cons b path ih =>
      obtain rfl := h b List.mem_cons_self
      rw [show components (slash :: path) = [] :: components path from
        components_append_slash [] path]
      intro c hc
      rcases List.mem_cons.1 hc with rfl | hc
      · rfl
      · exact ih (fun b hb => h b (List.mem_cons_of_mem _ hb)) c hc
  have hstart : startOf fs.cwd path = [] := by
    obtain ⟨b, path, rfl⟩ := List.exists_cons_of_ne_nil hne
    obtain rfl := h b List.mem_cons_self
    rfl
  rw [FileSystem.resolve, if_neg hne, hstart]
  generalize components path = cs at hcomp
  induction cs with
  | nil => rw [namei_nil]
  | cons c cs ih =>
    obtain rfl := hcomp c List.mem_cons_self
    have hd := isDir_nil fs.tree
    rw [namei_cons hd (by rw [enter_nil]; exact noLink_of_isDir hd), enter_nil]
    exact ih fun c hc => hcomp c (List.mem_cons_of_mem _ hc)

/-- What can be made can be made by its path without slashes at the end. -/
theorem mkdir_trimmed {fs' : FileSystem} (h : fs.mkdir pre = .ok fs') (hp : OnPath path pre) :
    ∃ pre', OnPath path pre' ∧ pre'.getLast? ≠ some slash ∧ fs.mkdir pre' = .ok fs' := by
  obtain ⟨l, hr, ho, -⟩ := modify_ok h
  have hn := (makeDir_ok ho).1
  have htrim : pre.rdropWhile (· = slash) ≠ [] := by
    intro he
    have hall : ∀ b ∈ pre, b = slash := by simpa using List.rdropWhile_eq_nil_iff.1 he
    rw [trimSlashes] at hr
    simp only [he, if_true] at hr
    by_cases hne : pre = []
    · subst hne
      simp [FileSystem.resolve] at hr
    · rw [resolve_slashes hne hall, Except.ok.injEq] at hr
      exact get_ne_none_of_isDir (isDir_nil fs.tree) (hr ▸ hn)
  have hlast : (pre.rdropWhile (· = slash)).getLast? ≠ some slash := by
    rw [List.getLast?_eq_getLast_of_ne_nil htrim, ne_eq, Option.some.injEq]
    simpa using List.rdropWhile_last_not (fun b : UInt8 => decide (b = slash)) pre htrim
  have hpath : trimSlashes pre = pre.rdropWhile (· = slash) := by simp [trimSlashes, htrim]
  refine ⟨_, ?_, hlast, ?_⟩
  · have hsplit := @List.rdropWhile_append_rtakeWhile _ (fun b : UInt8 => decide (b = slash)) pre
    cases htake : pre.rtakeWhile (· = slash) with
    | nil =>
      rw [htake, List.append_nil] at hsplit
      rwa [hsplit]
    | cons b rest =>
      have hb : b = slash := by
        have hmem : b ∈ pre.rtakeWhile (· = slash) := by simp [htake]
        simpa using List.mem_rtakeWhile_imp hmem
      rw [htake, hb] at hsplit
      refine Or.inr ?_
      rcases hp with hp | ⟨rest', hp⟩
      · exact ⟨rest, by rw [hp, hsplit]⟩
      · refine ⟨rest ++ slash :: rest', ?_⟩
        rw [hp, ← List.cons_append, ← List.append_assoc, hsplit]
  · rw [mkdir, hpath] at h
    rwa [mkdir, trimSlashes_of_last hlast]

/-- `ForceDirectories` makes nothing exactly if no directory on the path can be made. -/
theorem forceDirectories_keeps_iff (fs : FileSystem) (path : Bytes) :
    SameTree fs (forceDirectories fs path).1 ↔
      ∀ pre, OnPath path pre → ∀ fs', fs.mkdir pre ≠ .ok fs' := by
  constructor
  · intro hsame pre hp fs' hm
    obtain ⟨pre', hp', hl, hm'⟩ := mkdir_trimmed hm hp
    exact forceLoop_makes hm' hl List.nil_prefix hp' hsame
  · intro h
    have hkeep : (forceLoop fs [] path).1 = fs := forceLoop_keeps h
    rw [forceDirectories, hkeep]
    exact SameTree.refl fs

/-! ## The writes -/

variable {faults : Faults} {v name : Bytes} {a : Option Bytes} {t : ℤ}

theorem getXattr_eq_some_iff : getXattr fs path name = some v ↔
    ∃ l, fs.resolve true path = .ok l ∧ xattrsAt fs l name = some v := by
  rw [getXattr_eq_some]
  refine exists_congr fun l => ?_
  rw [xattrsAt]
  cases fs.tree.get l <;> simp

/-- Writing a file changes no extended attribute. -/
theorem FileSet.getXattr_eq {fs' : FileSystem} {l : Loc} (h : FileSet fs fs' l v) :
    getXattr fs' path name = getXattr fs path name := by
  refine Option.ext fun w => ?_
  rw [getXattr_eq_some_iff, getXattr_eq_some_iff]
  refine exists_congr fun m => ?_
  rw [h.shape.resolve_iff, xattrsAt, xattrsAt, h.updated m]
  refine and_congr_right fun _ => ?_
  split_ifs with hm
  · rw [hm]
    rfl
  · rfl

/-- Setting an extended attribute changes no other one, and no other node's. -/
theorem XattrSet.getXattr_eq {fs' : FileSystem} {l : Loc} {name' : Bytes}
    (h : XattrSet fs fs' l name v) : getXattr fs' path name' =
      if fs.resolve true path = .ok l ∧ name' = name then some v else getXattr fs path name' := by
  obtain ⟨n, hg, hu⟩ := h.updated
  have hlnk := fileType_ne_lnk hg h.noLink
  split_ifs with hr
  · refine getXattr_eq_some.2 ⟨l, _, h.shape.resolve_iff.2 hr.1, by rw [hu, if_pos rfl], ?_⟩
    rw [nodeXattrs_mapMeta _ hlnk, if_pos hr.2]
  · refine Option.ext fun w => ?_
    rw [getXattr_eq_some_iff, getXattr_eq_some_iff]
    refine exists_congr fun m => ?_
    rw [h.shape.resolve_iff]
    refine and_congr_right fun hm => ?_
    rw [xattrsAt, xattrsAt, hu m]
    split_ifs with hml
    · subst hml
      simp only [hg, nodeXattrs_mapMeta _ hlnk, if_neg fun he => hr ⟨hm, he⟩]
    · rfl

/-- The attributes of the same tree are the same. -/
theorem SameTree.getXattr_eq {fs' : FileSystem} (h : SameTree fs fs') :
    getXattr fs' path name = getXattr fs path name := by
  refine Option.ext fun w => ?_
  rw [getXattr_eq_some_iff, getXattr_eq_some_iff]
  refine exists_congr fun l => ?_
  rw [h.shape.resolve_iff, xattrsAt, xattrsAt, h.get_eq]

theorem SameTree.stat_iff {fs' : FileSystem} {n : Node Xattrs} (h : SameTree fs fs') :
    fs'.stat path = .ok n ↔ fs.stat path = .ok n := by
  rw [stat_eq_ok, stat_eq_ok]
  refine exists_congr fun l => ?_
  rw [h.shape.resolve_iff, h.get_eq]

/-- Where a file can be written, it can be in the same tree. -/
theorem SameTree.write {fs' fs₁ : FileSystem} (h : SameTree fs fs')
    (hw : fs.write path v = .ok fs₁) :
    ∃ fs₂, fs'.write path v = .ok fs₂ := by
  obtain ⟨l, hr, hl⟩ := write_iff.1 ⟨fs₁, hw⟩
  refine write_iff.2 ⟨l, h.shape.resolve_iff.2 hr, ?_⟩
  cases l with
  | nil => exact hl
  | cons c p => simpa only [Writable, FileTree.isDir, NoLink, h.get_eq] using hl

/-- A file that is written is as it was exactly if it held what is written. -/
theorem FileSet.sameTree_iff {fs' : FileSystem} {l : Loc} (h : FileSet fs fs' l v)
    (hr : fs.resolve true path = .ok l) :
    SameTree fs fs' ↔ ∃ x, fs.stat path = .ok (.file v x) := by
  constructor
  · intro hs
    refine ⟨xattrsAt fs l, stat_eq_ok.2 ⟨l, hr, ?_⟩⟩
    rw [← hs.get_eq, h.updated, if_pos rfl]
  · rintro ⟨x, hx⟩
    obtain ⟨l', hr', hg⟩ := stat_eq_ok.1 hx
    rw [hr, Except.ok.injEq] at hr'
    subst hr'
    refine ⟨h.cwd_eq, fun m => ?_⟩
    rw [h.updated]
    split_ifs with hm
    · rw [hm, xattrsAt, hg]
      rfl
    · rfl

/-- If the file could be opened and its write failed then, what is left of it was all it held. -/
def LeftAsWas (faults : Faults) (fs : FileSystem) (path v : Bytes) (a : Option Bytes) : Prop :=
  ∀ written, faults.file = some (.writing written) →
    ∀ fs', fs.write (makeAttrFileName path a) (leftOf v written) = .ok fs' →
      ∃ x, fs.stat (makeAttrFileName path a) = .ok (.file (leftOf v written) x)

/-- The condition only looks at the tree. -/
theorem SameTree.leftAsWas_iff {fs' : FileSystem} (h : SameTree fs fs') :
    LeftAsWas faults fs' path v a ↔ LeftAsWas faults fs path v a := by
  simp only [LeftAsWas, h.stat_iff]
  refine forall_congr' fun written => forall_congr' fun _ => ?_
  constructor
  · intro hl fs₁ hw
    obtain ⟨fs₂, hw'⟩ := h.write hw
    exact hl fs₂ hw'
  · intro hl fs₁ hw
    obtain ⟨fs₂, hw'⟩ := h.symm.write hw
    exact hl fs₂ hw'

/-- A write of a file that fails. -/
theorem setDirValueWith_failed_iff (h : (setDirValueWith faults fs path v a).2 = false) :
    SameTree fs (setDirValueWith faults fs path v a).1 ↔ LeftAsWas faults fs path v a := by
  rcases setDirValueWith_cases faults fs path v a with ⟨he, hor⟩ | ⟨ho, hok, hw⟩
  · rw [he]
    refine ⟨fun _ written hf fs' hw => ?_, fun _ => SameTree.refl fs⟩
    rcases hor with hopen | hno
    · simp [hopen] at hf
    · rw [Faults.content, hf] at hno
      exact absurd hw (hno fs')
  · obtain ⟨l, hr, hset⟩ := write_ok hw
    rw [hset.sameTree_iff hr]
    have hne : faults.file ≠ none := fun hn => by simp [hok.2 hn] at h
    rcases hfile : faults.file with - | - | written
    · exact absurd hfile hne
    · exact absurd hfile ho
    · have hcontent : faults.content v = leftOf v written := by rw [Faults.content, hfile]
      simp only [LeftAsWas, hfile, Option.some.injEq, FileFault.writing.injEq, forall_eq', hcontent]
        at hw ⊢
      exact ⟨fun hx _ _ => hx, fun hx => hx _ hw⟩

/-- A write removes nothing. -/
theorem _iPutWith_grows {m : Loc} (h : fs.tree.get m ≠ none) :
    (_iPutWith faults fs path v a t).1.tree.get m ≠ none := by
  have hupdate : ∀ {t₁ t₂ : FileTree Xattrs} {l : Loc} {n : Node Xattrs},
      t₁.Updated t₂ l (some n) → t₁.get m ≠ none → t₂.get m ≠ none := by
    intro t₁ t₂ l n hu hm
    rw [hu m]
    split_ifs
    · simp
    · exact hm
  have hx : (xattrPart faults fs path v a t).1.tree.get m ≠ none := by
    rcases xattrPart_cases faults fs path v a t with ⟨he, -⟩ | ⟨-, -, -, l, -, hs⟩
    · rwa [he]
    · obtain ⟨n, -, hu⟩ := hs.updated
      exact hupdate hu h
  rcases _iPutWith_cases faults fs path v a t with he | ⟨l, hs⟩
  · rwa [he]
  · exact hupdate hs.updated hx

/-- An extended attribute that is set to what it was changes nothing. -/
theorem XattrSet.sameTree_iff {fs' : FileSystem} {l : Loc} (h : XattrSet fs fs' l name v)
    (hr : fs.resolve true path = .ok l) : SameTree fs fs' ↔ getXattr fs path name = some v := by
  obtain ⟨n, hg, hu⟩ := h.updated
  have hlnk := fileType_ne_lnk hg h.noLink
  rw [getXattr_eq_some]
  constructor
  · intro hs
    have hnode := (hu l).symm.trans ((hs.get_eq l).trans hg)
    rw [if_pos rfl, Option.some.injEq] at hnode
    refine ⟨l, n, hr, hg, ?_⟩
    rw [← hnode, nodeXattrs_mapMeta _ hlnk]
    exact if_pos rfl
  · rintro ⟨l', n', hr', hg', hv⟩
    rw [hr, Except.ok.injEq] at hr'
    subst hr'
    rw [hg, Option.some.injEq] at hg'
    subst hg'
    have hsame : (fun m => if m = name then some v else nodeXattrs n m) = nodeXattrs n := by
      funext m
      split_ifs with hm
      · rw [hm, hv]
      · rfl
    refine ⟨h.cwd_eq, fun m => ?_⟩
    rw [hu m]
    split_ifs with hm
    · rw [hm, hg, Option.some.injEq]
      cases n with
      | link target => exact absurd rfl hlnk
      | dir x => exact congrArg Node.dir hsame
      | file old x => exact congrArg (Node.file old) hsame
    · rfl

/-- An extended attribute is changed before the file is tried. -/
theorem xattrPart_sameTree_iff (fs : FileSystem) (path v : Bytes) (a : Option Bytes) (t : ℤ) :
    SameTree fs (xattrPart faults fs path v a t).1 ↔
      ((xattrPart faults fs path v a t).2 = 0 →
        getXattr fs path (generateXattrName a) = some v) := by
  rcases xattrPart_cases faults fs path v a t with ⟨he, hne⟩ | ⟨-, -, hzero, l, hr, hset⟩
  · rw [he]
    exact ⟨fun _ h => absurd h hne, fun _ => SameTree.refl fs⟩
  · rw [hset.sameTree_iff hr]
    exact ⟨fun h _ => h, fun h => h hzero⟩

/-- What a failed write of an attribute changes. -/
theorem _iPutWith_failed_iff (h : (_iPutWith faults fs path v a t).2 ≠ 0) :
    SameTree fs (_iPutWith faults fs path v a t).1 ↔
      SameTree fs (xattrPart faults fs path v a t).1 ∧
        (t.testBit storeInFileBit → LeftAsWas faults fs path v a) := by
  by_cases hf : t.testBit storeInFileBit = true
  · rw [_iPutWith_file hf] at h ⊢
    have hfalse : (setDirValueWith faults (xattrPart faults fs path v a t).1 path v a).2 =
        false := by
      simpa using h
    simp only [hf, forall_const]
    constructor
    · intro hs
      have hx : SameTree fs (xattrPart faults fs path v a t).1 := by
        rw [xattrPart_sameTree_iff]
        intro hzero
        rcases xattrPart_cases faults fs path v a t with ⟨-, hne⟩ | ⟨-, -, -, l, hr, hset⟩
        · exact absurd hzero hne
        · -- The file keeps its extended attributes, so that the new one is there in the end.
          have hnew := hset.getXattr_eq.trans (if_pos ⟨hr, rfl⟩)
          rw [← hs.getXattr_eq, ← hnew]
          rcases setDirValueWith_cases faults (xattrPart faults fs path v a t).1 path v a with
            ⟨he, -⟩ | ⟨-, -, hw⟩
          · rw [he]
          · obtain ⟨l', -, hset'⟩ := write_ok hw
            exact hset'.getXattr_eq
      exact ⟨hx, hx.leftAsWas_iff.1 ((setDirValueWith_failed_iff hfalse).1 (hx.symm.trans hs))⟩
    · rintro ⟨hx, hl⟩
      exact hx.trans ((setDirValueWith_failed_iff hfalse).2 (hx.leftAsWas_iff.2 hl))
  · rw [_iPutWith_xattr hf] at h ⊢
    simp [hf]

/-- A failed write behind a missing directory leaves what was made. -/
theorem failed_missing_iff (hm : directoryExists fs path = pathIsNotExists)
    (h : (_iPutWith faults (forceDirectories fs path).1 path v a t).2 ≠ 0) :
    SameTree fs (_iPutWith faults (forceDirectories fs path).1 path v a t).1 ↔
      SameTree fs (forceDirectories fs path).1 ∧
        (t.testBit storeInFileBit → LeftAsWas faults fs path v a) := by
  have hmade := forceDirectories_made fs path
  constructor
  · intro hs
    have hforced : SameTree fs (forceDirectories fs path).1 := by
      refine ⟨hmade.cwd_eq, fun l => (hmade.get_cases l).resolve_right ?_⟩
      rintro ⟨-, hn, hd⟩
      exact _iPutWith_grows (by rw [hd]; simp) ((hs.get_eq l).trans hn)
    have hwrite := (_iPutWith_failed_iff h).1 (hforced.symm.trans hs)
    exact ⟨hforced, fun hf => hforced.leftAsWas_iff.1 (hwrite.2 hf)⟩
  · rintro ⟨hs, hl⟩
    refine hs.trans ((_iPutWith_failed_iff h).2 ⟨?_, fun hf => hs.leftAsWas_iff.2 (hl hf)⟩)
    rcases xattrPart_cases faults (forceDirectories fs path).1 path v a t with
      ⟨he, -⟩ | ⟨-, -, -, l, hr, hset⟩
    · rw [he]
      exact SameTree.refl _
    · obtain ⟨n, hg, -⟩ := hset.updated
      have hstat : fs.stat path = .ok n :=
        stat_eq_ok.2 ⟨l, hs.shape.resolve_iff.1 hr, (hs.get_eq l).symm.trans hg⟩
      exact absurd hm (directoryExists_ne_missing.2 ⟨n, hstat⟩)

/-- A failed write to a directory leaves the extended attribute, and what it left of the file. -/
theorem failed_dir_iff (hd : directoryExists fs path = pathIsDir)
    (h : (_iPutWith faults fs path v a t).2 ≠ 0) :
    SameTree fs (_iPutWith faults fs path v a t).1 ↔
      (TakesXattr faults (generateXattrName a) v → t.testBit storeInXattrBit →
        t.testBit storeInFileBit → getXattr fs path (generateXattrName a) = some v) ∧
      (t.testBit storeInFileBit → LeftAsWas faults fs path v a) := by
  obtain ⟨p, hp⟩ := directoryExists_eq_dir_iff_at.1 hd
  rw [_iPutWith_failed_iff h, xattrPart_sameTree_iff]
  refine and_congr_left fun _ => ⟨fun hv ht hx _ => hv ?_, fun hv hzero => ?_⟩
  · rw [xattrPart, if_pos hx]
    exact setXattrWith_dir ht hp
  · rcases xattrPart_cases faults fs path v a t with ⟨-, hne⟩ | ⟨hx, ht, -, -⟩
    · exact absurd hzero hne
    · refine hv ht hx ?_
      by_contra hf
      rw [_iPutWith_xattr hf] at h
      exact h hzero

end

/-! ## The put -/

/-- A put that fails changes nothing exactly if the directory for the attribute is there or is not
made, no extended attribute is changed before the file fails, and no file is. -/
theorem failedPut_keeps_iff (host : Host) (iDBMaxPageCount : ℤ) (faults : Faults)
    (fs : FileSystem) (aDir : Bytes) (iDBPartitionFullProcess : TIDBProcesses)
    (aKey : Option Bytes) (aValue : Bytes) (aAttribute : Option Bytes) (aStoreType : ℤ)
    (hfail : (iPutWith host iDBMaxPageCount faults fs aDir iDBPartitionFullProcess aKey aValue
      aAttribute aStoreType).2 ≠ 0) :
    SameTree fs (iPutWith host iDBMaxPageCount faults fs aDir iDBPartitionFullProcess aKey aValue
        aAttribute aStoreType).1 ↔
      ∀ vDir, putDir host iDBMaxPageCount fs aDir iDBPartitionFullProcess aKey = .ok vDir →
        (directoryExists fs vDir = pathIsNotExists →
          ∀ pre, OnPath vDir pre → ∀ fs', fs.mkdir pre ≠ .ok fs') ∧
        (directoryExists fs vDir = pathIsDir →
          TakesXattr faults (generateXattrName aAttribute) aValue →
          aStoreType.testBit storeInXattrBit → aStoreType.testBit storeInFileBit →
            getXattr fs vDir (generateXattrName aAttribute) = some aValue) ∧
        (directoryExists fs vDir ≠ pathIsFile → aStoreType.testBit storeInFileBit →
          LeftAsWas faults fs vDir aValue aAttribute) := by
  cases hput : putDir host iDBMaxPageCount fs aDir iDBPartitionFullProcess aKey with
  | error errno =>
    simp only [iPutWith, hput, reduceCtorEq, false_imp_iff, implies_true, iff_true]
    exact SameTree.refl fs
  | ok vDir =>
    simp only [Except.ok.injEq, forall_eq']
    rw [iPutWith, hput] at hfail ⊢
    dsimp only at hfail ⊢
    rcases directoryExists_cases fs vDir with he | he | he
    · rw [if_pos he] at hfail ⊢
      rw [failed_missing_iff he hfail, forceDirectories_keeps_iff, he]
      exact ⟨fun h => ⟨fun _ => h.1, fun h' => absurd h' (by decide), fun _ => h.2⟩,
        fun h => ⟨h.1 rfl, h.2.2 (by decide)⟩⟩
    · rw [he, if_neg (by decide), if_pos rfl] at hfail ⊢
      rw [failed_dir_iff he hfail]
      exact ⟨fun h => ⟨fun h' => absurd h' (by decide), fun _ => h.1, fun _ => h.2⟩,
        fun h => ⟨h.2.1 rfl, h.2.2 (by decide)⟩⟩
    · rw [he, if_neg (by decide), if_neg (by decide)] at hfail ⊢
      exact ⟨fun _ => ⟨fun h => absurd h (by decide), fun h => absurd h (by decide),
        fun h => absurd rfl h⟩, fun _ => SameTree.refl fs⟩

/-- Nothing is stored in a key that is there. -/
theorem failedPut_keeps_iff_noOperation :
    (iPutWith plainHost 0 Faults.none fileOnly [slash] .dkIgnored (some [97]) [2] none 0).2 ≠ 0 ∧
    (SameTree fileOnly
        (iPutWith plainHost 0 Faults.none fileOnly [slash] .dkIgnored (some [97]) [2] none 0).1 ↔
      ∀ vDir, putDir plainHost 0 fileOnly [slash] .dkIgnored (some [97]) = .ok vDir →
        (directoryExists fileOnly vDir = pathIsNotExists →
          ∀ pre, OnPath vDir pre → ∀ fs', fileOnly.mkdir pre ≠ .ok fs') ∧
        (directoryExists fileOnly vDir = pathIsDir →
          TakesXattr Faults.none (generateXattrName none) [2] →
          Int.testBit 0 storeInXattrBit → Int.testBit 0 storeInFileBit →
            getXattr fileOnly vDir (generateXattrName none) = some [2]) ∧
        (directoryExists fileOnly vDir ≠ pathIsFile → Int.testBit 0 storeInFileBit →
          LeftAsWas Faults.none fileOnly vDir [2] none)) := by
  have hfail : (iPutWith plainHost 0 Faults.none fileOnly [slash] .dkIgnored (some [97]) [2] none
      0).2 ≠ 0 := by decide +kernel
  exact ⟨hfail, failedPut_keeps_iff plainHost 0 Faults.none fileOnly [slash] .dkIgnored (some [97])
    [2] none 0 hfail⟩

/-- The store type 0 selects nothing, and the directory of the new key is made. -/
theorem failedPut_makes_dir :
    (iPutWith plainHost 0 Faults.none rootBase.fs [slash] .dkIgnored (some [97]) [2] none 0).2 =
        enoexec ∧
      ¬SameTree rootBase.fs
        (iPutWith plainHost 0 Faults.none rootBase.fs [slash] .dkIgnored (some [97]) [2] none
          0).1 := by
  refine ⟨by decide +kernel, fun h => ?_⟩
  have hget := h.get_eq [[97]]
  have hnone : rootBase.fs.tree.get [[97]] = none := by decide +kernel
  have hsome : (iPutWith plainHost 0 Faults.none rootBase.fs [slash] .dkIgnored (some [97]) [2]
      none 0).1.tree.isDir [[97]] = true := by decide +kernel
  rw [FileTree.isDir, hget, hnone] at hsome
  simp at hsome

end Idb
