import Idb.PutFailures
import Idb.Search
import Idb.ValueReads

/-!
# Reading what was put

A get reads the extended attribute first and the file last. After a put it finds the value that
was written, unless an extended attribute that the put did not write is met before
(`putReads_iff`).
-/

namespace Idb

open Posix FileSystem FileTree

/-! ## Levels below the place of a put -/

section

variable {k : Bytes} {i j : ℕ} {ns ns' : List Name} {r r' c : Bytes}

/-- The levels of a component consist of components. -/
theorem component_level (hk : Component k) (hl : levelAt k i = some (ns, r)) :
    (∀ n ∈ ns, Component n) ∧ (r ≠ [] → Component r) := by
  obtain ⟨hsr, hsn⟩ := slash_notMem_levelAt hk.2.1 hl
  obtain ⟨hr, hn⟩ := mem_of_levelAt (b := 0) hl
  refine ⟨fun n hm => ?_, fun hne => ⟨hne, hsr, fun h => hk.2.2 (hr h)⟩⟩
  obtain ⟨c, rfl, -⟩ := levelAt_parts hl n hm
  refine ⟨by simp [partName], hsn _ hm, fun h0 => ?_⟩
  rcases List.mem_cons.1 h0 with he | h0
  · exact absurd he (by decide)
  · exact hk.2.2 (hn _ hm h0)

/-- What is left of a key is not the name of a later partition directory of it. -/
theorem rest_ne_partName (hij : j ≤ i) (hj : levelAt k j = some (ns', r'))
    (hi : levelAt k i = some (ns, r)) (hc : firstChar r = .ok c) (hr : r.drop c.length ≠ [])
    (hp : Plain (partName c)) : r' ≠ partName c := by
  rintro rfl
  have hlen := congrArg List.length (firstChar_split hc)
  rw [List.length_append] at hlen
  have hdrop := List.length_pos_iff.2 hr
  rcases Nat.eq_or_lt_of_le hij with rfl | hlt
  · rw [hj, Option.some.injEq, Prod.mk.injEq] at hi
    rw [← hi.2, partName, firstChar_dot, Except.ok.injEq] at hc
    exact hp.2.2 (by rw [← hc]; rfl)
  · have h₁ := levelAt_succ hj (firstChar_dot c)
    have hle : r.length ≤ c.length := by
      rcases Nat.eq_or_lt_of_le (show j + 1 ≤ i from hlt) with rfl | hlt'
      · rw [hi, Option.some.injEq, Prod.mk.injEq] at h₁
        rw [h₁.2]
        simp [partName]
      · have := rest_length_lt hlt' hi h₁
        simp [partName] at this
        omega
    omega

end

/-! ## What making the directory of a key makes -/

section

variable {fs : FileSystem} {path : Bytes} {p : Loc} {c : Name}

/-- A name that is not looked up leads to a directory. -/
theorem isDir_enter (h : fs.tree.isDir p) (hc : ¬Plain c) : fs.tree.isDir (enter p c) := by
  rcases enter_cases p c with he | he | ⟨hp, -⟩
  · rwa [he]
  · rw [he]
    exact isDir_tail h
  · exact absurd hp hc

/-- `do_mkdir` of an entry makes at most that entry. -/
theorem doMkdir_entry_made (h : fs.At path p) (hc : Component c) :
    MadeOn (fun m => Plain c ∧ m = c :: p) fs (doMkdir fs (joinName path c)).1 := by
  by_cases hp : Plain c
  · unfold doMkdir
    split
    · split
      · next fs' hm =>
        obtain ⟨l, hr, ho, hcwd⟩ := modify_ok hm
        rw [trimSlashes_joinName hc, h.resolve_nofollow (hc.validName hp), Except.ok.injEq] at hr
        subst hr
        obtain ⟨hn, hu⟩ := makeDir_ok ho
        refine ⟨hcwd, fun m => ?_⟩
        rw [hu m]
        split_ifs with hmc
        · exact Or.inr ⟨⟨hp, hmc⟩, hmc ▸ hn, rfl⟩
        · exact Or.inl rfl
      · exact MadeOn.refl _ fs
    · exact MadeOn.refl _ fs
    · exact MadeOn.refl _ fs
  · rw [doMkdir_at (h.entry hc.2.1 (isDir_enter h.isDir hp))]
    exact MadeOn.refl _ fs

/-- Behind what is no directory nothing is made. -/
theorem doMkdir_behind_made (hl : path.getLast? ≠ some slash) (hne : path ≠ [])
    (hc : Component c) :
    MadeOn (fun m => ∃ q, m = c :: q) fs (doMkdir fs (joinName path c)).1 := by
  by_cases hat : ∃ q, fs.At path q
  · obtain ⟨q, hq⟩ := hat
    exact (doMkdir_entry_made hq hc).mono fun m hm => ⟨q, hm.2⟩
  · rw [mkdir_fails_doMkdir]
    · exact MadeOn.refl _ fs
    · intro fs' hm
      obtain ⟨l, hr, -⟩ := modify_ok hm
      rw [trimSlashes_joinName hc, joinName_of_no_slash hl] at hr
      exact hat (at_of_resolve hr hne)

/-- Two names below a directory are made one after the other. -/
theorem forceDirectories_pair (h : fs.At path p) {c' : Name} (hc : Component c)
    (hc' : Component c') : forceDirectories fs (joinName (joinName path c) c') =
      forceNames fs path [c, c'] := by
  refine @forceDirectories_eq _ _ _ [c, c'] h fun d hd => ?_
  rcases List.mem_pair.1 hd with rfl | rfl
  · exact hc
  · exact hc'

/-- Two names below a directory : what is made has one of the two names. -/
theorem forceDirectories_two (h : fs.At path p) {c' : Name} (hc : Component c)
    (hc' : Component c') :
    MadeOn (fun m => (Plain c ∧ m = c :: p) ∨ ∃ q, m = c' :: q) fs
      (forceDirectories fs (joinName (joinName path c) c')).1 := by
  rw [forceDirectories_pair h hc hc', forceNames, doMkdir_at h, if_pos rfl, forceNames]
  have hfirst := @MadeOn.mono _ (fun m => (Plain c ∧ m = c :: p) ∨ ∃ q, m = c' :: q) _ _
    (doMkdir_entry_made h hc) fun m hm => Or.inl hm
  split_ifs with hs
  · exact hfirst.trans ((doMkdir_behind_made (getLast?_joinName hc) (joinName_ne_nil h.ne_nil)
      hc').mono fun m hm => Or.inr hm)
  · exact hfirst

/-- What a path leads to stays there when directories are made. -/
theorem MadeOn.stat_ok {S : Loc → Prop} {fs' : FileSystem} {n : Node Xattrs}
    (h : MadeOn S fs fs') (hs : fs.stat path = .ok n) : fs'.stat path = .ok n := by
  obtain ⟨l, hr, hg⟩ := stat_eq_ok.1 hs
  exact stat_eq_ok.2 ⟨l, resolve_keeps h.keeps h.cwd_eq h.noLink hr,
    (h.get_of_ne_none (by simp [hg])).trans hg⟩

theorem withDir_made (fs : FileSystem) (path : Bytes) :
    MadeOn (fun _ => True) fs (withDir fs path) := by
  unfold withDir
  split_ifs
  · exact forceDirectories_made fs path
  · exact MadeOn.refl _ fs

end

/-- The path names a symbolic link that leads nowhere. -/
def Dangling (fs : FileSystem) (path : Bytes) : Prop :=
  (∃ target, fs.lstat path = .ok (.link target)) ∧ directoryExists fs path = pathIsNotExists

/-- The directory of a level that a put of the key `k` of `D` goes to, behind those at which the key
is missed. -/
structure PutBehind (fs : FileSystem) (D k : Bytes) (i : ℕ) (ns : List Name) (r : Bytes) :
    Prop where
  component : Component k
  pos : 0 < i
  level : levelAt k i = some (ns, r)
  ne_nil : r ≠ []
  missed : ∀ j < i, Missed fs D k j

section

variable {fs : FileSystem} {D k : Bytes} {i j : ℕ} {ns ns' : List Name} {r r' : Bytes}

namespace PutBehind

/-- Where the key is missed and nothing is found, there is nothing, not even a link. -/
theorem free (h : PutBehind fs D k i ns r)
    (hlinks : ∀ j ns r, levelAt k j = some (ns, r) → ¬Dangling fs (keyDir D ns r)) (hj : j < i)
    (hl : levelAt k j = some (ns', r')) (hst : ∀ n, fs.stat (keyDir D ns' r') ≠ .ok n) :
    ∃ q, fs.At (levelDir D ns') q ∧ ValidName r' ∧ fs.tree.get (r' :: q) = none := by
  obtain ⟨hdir, hnot⟩ := (missed_iff hl).1 (h.missed j hj)
  obtain ⟨q, hq⟩ := directoryExists_eq_dir_iff_at.1 hdir
  have hcomp := (component_level h.component hl).2 (rest_ne_nil_of_lt hj h.level hl)
  have hplain : Plain r' := by
    by_contra hp
    exact hnot (keyDir_eq D ns' r' ▸
      directoryExists_at (hq.entry hcomp.2.1 (isDir_enter hq.isDir hp)))
  have hvalid := hcomp.validName hplain
  refine ⟨q, hq, hvalid, ?_⟩
  by_contra hg
  obtain ⟨n, hn⟩ := Option.ne_none_iff_exists'.1 hg
  by_cases hlink : fs.tree.NoLink (r' :: q)
  · refine hst n ?_
    rw [keyDir_eq, hq.stat_entry hcomp.2.1 (by rwa [enter_plain hplain]), enter_plain hplain,
      nodeAt, hn]
  · unfold NoLink at hlink
    push Not at hlink
    obtain ⟨target, ht⟩ := hlink
    have hmiss : directoryExists fs (keyDir D ns' r') = pathIsNotExists := by
      by_contra hne
      obtain ⟨n, hn⟩ := directoryExists_ne_missing.1 hne
      exact hst n hn
    refine hlinks j ns' r' hl ⟨⟨target, ?_⟩, hmiss⟩
    exact lstat_eq_ok.2 ⟨_, keyDir_eq D ns' r' ▸ hq.resolve_nofollow hvalid, ht⟩

/-- It stays so when the directory of the key is made. -/
theorem free_withDir (h : PutBehind fs D k i ns r) (hj : j < i)
    (hl : levelAt k j = some (ns', r')) {q : Loc} (hg : fs.tree.get (r' :: q) = none) :
    (withDir fs (keyDir D ns r)).tree.get (r' :: q) = none := by
  obtain ⟨hk, hi, hlevel, hr, hm⟩ := h
  obtain ⟨i, rfl⟩ := Nat.exists_eq_succ_of_ne_zero hi.ne'
  obtain ⟨ns₀, r₀, c, hl₀, hc, rfl, rfl⟩ := levelAt_succ_inv hlevel
  obtain ⟨p, hp⟩ := directoryExists_eq_dir_iff_at.1
    ((missed_iff hl₀).1 (hm i (Nat.lt_succ_self i))).1
  obtain ⟨hcn, hcr⟩ := component_level hk hlevel
  have htwo := forceDirectories_two hp (hcn (partName c) (by simp)) (hcr hr)
  rw [← levelDir_append, ← keyDir_eq] at htwo
  unfold withDir
  split_ifs
  · rcases htwo.get_cases (r' :: q) with he | ⟨⟨hplain, he⟩ | ⟨q', he⟩, -⟩
    · exact he.trans hg
    · exact absurd (List.cons.inj he).1
        (rest_ne_partName (Nat.lt_succ_iff.1 hj) hl hl₀ hc hr hplain)
    · have := rest_length_lt hj hlevel hl
      rw [(List.cons.inj he).1] at this
      exact absurd this (lt_irrefl _)
  · exact hg

/-- Making the directory of a key puts nothing at the places where the key was missed. -/
theorem stat (h : PutBehind fs D k i ns r)
    (hlinks : ∀ j ns r, levelAt k j = some (ns, r) → ¬Dangling fs (keyDir D ns r)) (hj : j < i)
    (hl : levelAt k j = some (ns', r')) {n : Node Xattrs}
    (hs : (withDir fs (keyDir D ns r)).stat (keyDir D ns' r') = .ok n) :
    fs.stat (keyDir D ns' r') = .ok n := by
  have hwith := withDir_made fs (keyDir D ns r)
  by_cases hst : ∃ n', fs.stat (keyDir D ns' r') = .ok n'
  · obtain ⟨n', hn'⟩ := hst
    rw [hwith.stat_ok hn', Except.ok.injEq] at hs
    rw [hn', hs]
  · exfalso
    push Not at hst
    obtain ⟨q, hq, hvalid, hnone⟩ := h.free hlinks hj hl hst
    have hmade := h.free_withDir hj hl hnone
    rw [keyDir_eq D ns', (hq.keeps hwith.keeps hwith.cwd_eq).stat_entry hvalid.2.1
      (by rw [enter_plain hvalid.1]; simp [NoLink, hmade]), enter_plain hvalid.1, nodeAt,
      hmade] at hs
    simp at hs

/-- So the key is missed there still. -/
theorem missed_withDir (h : PutBehind fs D k i ns r)
    (hlinks : ∀ j ns r, levelAt k j = some (ns, r) → ¬Dangling fs (keyDir D ns r)) (hj : j < i) :
    Missed (withDir fs (keyDir D ns r)) D k j := by
  obtain ⟨ns', r', hl', hdir, hnot⟩ := h.missed j hj
  have hwith := withDir_made fs (keyDir D ns r)
  refine ⟨ns', r', hl', ?_, fun hd => hnot ?_⟩
  · obtain ⟨q, hq⟩ := directoryExists_eq_dir_iff_at.1 hdir
    exact directoryExists_at (hq.keeps hwith.keeps hwith.cwd_eq)
  · obtain ⟨x, hx⟩ := directoryExists_eq_dir.1 hd
    exact directoryExists_eq_dir.2 ⟨x, h.stat hlinks hj hl' hx⟩

end PutBehind

end

/-! ## Where a put writes -/

/-- A path at which the key of the path `vDir` is looked for : the plain one, or one in the
partitions. -/
def KeyPath (vDir path : Bytes) : Prop :=
  ∃ D k i ns r, vDir = joinName D k ∧ D ≠ [] ∧ Component k ∧ levelAt k i = some (ns, r) ∧
    path = keyDir D ns r

section

variable {host : Host} {fs : FileSystem} {vDir path : Bytes} {M : ℤ} {policy : TIDBProcesses}

/-- A path that does not end with a slash ends with a name. -/
theorem path_split (hne : path ≠ []) (hl : path.getLast? ≠ some slash) :
    ∃ pre c, path = pre ++ c ∧ (pre = [] ∨ pre.getLast? = some slash) ∧ c ≠ [] ∧ slash ∉ c := by
  have hsplit := @List.rdropWhile_append_rtakeWhile _ (fun b : UInt8 => decide (b ≠ slash)) path
  have hpre : path.rdropWhile (· ≠ slash) = [] ∨
      (path.rdropWhile (· ≠ slash)).getLast? = some slash := by
    by_cases hp : path.rdropWhile (· ≠ slash) = []
    · exact Or.inl hp
    · refine Or.inr ?_
      rw [List.getLast?_eq_getLast_of_ne_nil hp, Option.some.injEq]
      simpa using List.rdropWhile_last_not (fun b : UInt8 => decide (b ≠ slash)) path hp
  refine ⟨_, _, hsplit.symm, hpre, fun hc => ?_, fun hs => ?_⟩
  · rw [hc, List.append_nil] at hsplit
    rw [hsplit] at hpre
    exact hpre.elim hne hl
  · simpa using List.mem_rtakeWhile_imp hs

/-- A key is put at its plain path, or behind levels at which it is missed. -/
theorem iFindKeyDirToPut_place (hne : vDir ≠ []) (hlast : vDir.getLast? ≠ some slash)
    (h0 : 0 ∉ vDir) (hpol : policy = .dkIgnored ∨ policy = .dkStopped)
    (hput : iFindKeyDirToPut host fs vDir M policy = .ok path) :
    path = vDir ∨ ∃ D k i ns r, vDir = joinName D k ∧ D ≠ [] ∧ path = keyDir D ns r ∧
      PutBehind fs D k i ns r ∧ ∀ j < i, Passed host fs M D k j := by
  obtain ⟨D, k, rfl, hD, hk, hs⟩ := path_split hne hlast
  by_cases hDn : D = []
  · subst hDn
    have hempty : directoryExists fs [] = pathIsNotExists := by
      simp [directoryExists, stat, FileSystem.resolve, nodeAt]
    rw [iFindKeyDirToPut] at hput
    split_ifs at hput
    · rw [Except.ok.injEq] at hput
      exact Or.inl hput.symm
    · rw [extractLastPathName_append hD hk hs] at hput
      simp only [hempty, pathIsNotExists, pathIsDir, zero_ne_one, false_and, if_false,
        Except.ok.injEq] at hput
      exact Or.inl hput.symm
  · have hjoin : D ++ k = joinName D k := (if_pos (hD.resolve_left hDn)).symm
    have hcomp : Component k := ⟨hk, hs, fun h => h0 (List.mem_append_right _ h)⟩
    rw [hjoin] at hput ⊢
    obtain ⟨i, hp, hm, -⟩ := @iFindKeyDirToPut_passed fs _ _ hDn hk hs host M policy
    rw [hput] at hp
    have hplace : ∀ {i ns r}, levelAt k i = some (ns, r) → r ≠ [] → path = keyDir D ns r →
        (∀ j < i, Passed host fs M D k j) → path = joinName D k ∨ ∃ D' k' i ns r,
          joinName D k = joinName D' k' ∧ D' ≠ [] ∧ path = keyDir D' ns r ∧
            PutBehind fs D' k' i ns r ∧ ∀ j < i, Passed host fs M D' k' j := by
      intro i ns r hl hr he hm
      rcases Nat.eq_zero_or_pos i with rfl | hi
      · rw [levelAt_zero_iff] at hl
        exact Or.inl (by rw [he, ← hl.1, ← hl.2]; rfl)
      · exact Or.inr ⟨D, k, i, ns, r, rfl, hDn, he,
          ⟨hcomp, hi, hl, hr, fun j hj => (hm j hj).missed⟩, hm⟩
    cases hp with
    | key hl hr => exact hplace hl hr rfl hm
    | forced _ hl hc =>
      exact hplace hl (firstChar_ne_nil hc) rfl fun j hj => hm j (Nat.lt_succ_of_lt hj)
    | other h₁ h₂ => exact absurd hpol (by simp [h₁, h₂])

end

/-! ## Reading after a write -/

section

variable {faults : Faults} {fs : FileSystem} {path v name : Bytes} {a : Option Bytes} {t : ℤ}

/-- Reading an extended attribute only depends on what `stat` sees. -/
theorem getXattr_congr {fs' : FileSystem} (h : ∀ n, fs'.stat path = .ok n ↔ fs.stat path = .ok n) :
    getXattr fs' path name = getXattr fs path name := by
  unfold getXattr getxattr
  cases hs : fs.stat path with
  | ok n => rw [(h n).2 hs]
  | error e =>
    cases hs' : fs'.stat path with
    | ok n => simp [(h n).1 hs'] at hs
    | error e' => rfl

theorem FileSet.getDirValue_eq {fs' : FileSystem} {l : Loc} (h : FileSet fs fs' l v)
    (hr : fs.resolve true (makeAttrFileName path a) = .ok l) (host : Host) :
    getDirValue host fs' path a = some v := by
  rw [getDirValue, stat_eq_ok.2 ⟨l, h.shape.resolve_iff.2 hr, by rw [h.updated, if_pos rfl]⟩]

/-- `_iGet` tries the extended attribute before the file. -/
theorem _iGet_eq (host : Host) (fs : FileSystem) (path : Bytes) (a : Option Bytes) (t : ℤ) :
    _iGet host fs path a t =
      (if t.testBit storeInXattrBit then getXattr fs path (generateXattrName a) else none).or
        (if t.testBit storeInFileBit then getDirValue host fs path a else none) := by
  unfold _iGet
  dsimp only
  generalize (if t.testBit storeInXattrBit then getXattr fs path (generateXattrName a) else none)
    = result
  cases result <;> simp

/-- Where an extended attribute is, another one can be set. -/
theorem setXattrWith_of_some {w : Bytes} (hx : TakesXattr faults name v)
    (hw : getXattr fs path name = some w) : (setXattrWith faults fs path name v).2 = 0 := by
  obtain ⟨l, n, hr, hg, hn⟩ := getXattr_eq_some.1 hw
  refine setXattrWith_at hx hr (by simp [hg]) ?_
  intro target ht
  rw [hg, Option.some.injEq] at ht
  simp [ht, nodeXattrs] at hn

/-- At the path that was written to, the value is read, unless the extended attribute was refused
and there is another one. -/
theorem _iGet_written (host : Host) (hok : (_iPutWith faults fs path v a t).2 = 0) :
    _iGet host (_iPutWith faults fs path v a t).1 path a t ≠ none ∧
    (_iGet host (_iPutWith faults fs path v a t).1 path a t = some v ↔
      (t.testBit storeInXattrBit → ¬TakesXattr faults (generateXattrName a) v →
        ∀ w, getXattr fs path (generateXattrName a) = some w → w = v)) := by
  rw [_iGet_eq]
  by_cases hf : t.testBit storeInFileBit = true
  · rw [_iPutWith_file hf] at hok ⊢
    rcases setDirValueWith_cases faults (xattrPart faults fs path v a t).1 path v a with
      ⟨he, -⟩ | ⟨-, hdone, hw⟩
    · simp [he] at hok
    · have hnone : faults.file = none := hdone.1 (by simpa using hok)
      rw [faults.content_of_none hnone] at hw
      obtain ⟨l, hr, hset⟩ := write_ok hw
      rw [hset.getXattr_eq, hset.getDirValue_eq hr, if_pos hf]
      rcases xattrPart_cases faults fs path v a t with ⟨he, hne⟩ | ⟨hx, ht, -, l', hr', hset'⟩
      · rw [he]
        by_cases hx : t.testBit storeInXattrBit = true
        · rw [if_pos hx]
          cases hg : getXattr fs path (generateXattrName a) with
          | none => simp
          | some w =>
            have hfault : ¬TakesXattr faults (generateXattrName a) v := fun ht => hne (by
              rw [xattrPart, if_pos hx]
              exact setXattrWith_of_some ht hg)
            simp [hx, hfault]
        · simp [hx]
      · rw [if_pos hx, hset'.getXattr_eq, if_pos ⟨hr', rfl⟩]
        simp [ht]
  · rw [_iPutWith_xattr hf] at hok ⊢
    rcases xattrPart_cases faults fs path v a t with ⟨-, hne⟩ | ⟨hx, ht, -, l', hr', hset'⟩
    · exact absurd hok hne
    · rw [if_pos hx, hset'.getXattr_eq, if_pos ⟨hr', rfl⟩]
      simp [ht]

theorem xattrPart_shape : SameShape fs (xattrPart faults fs path v a t).1 := by
  rcases xattrPart_cases faults fs path v a t with ⟨he, -⟩ | ⟨-, -, -, l, -, hset⟩
  · rw [he]
    exact SameShape.refl fs
  · exact hset.shape

/-- A write keeps the shape of the tree. -/
theorem _iPutWith_shape : SameShape fs (_iPutWith faults fs path v a t).1 := by
  rcases _iPutWith_cases faults fs path v a t with he | ⟨l, hset⟩
  · rw [he]
    exact xattrPart_shape
  · exact xattrPart_shape.trans hset.shape

/-- A write to a directory leaves the extended attributes of what is none. -/
theorem _iPutWith_getXattr {path' : Bytes} (hd : directoryExists fs path = pathIsDir)
    (hn : directoryExists fs path' ≠ pathIsDir) :
    getXattr (_iPutWith faults fs path v a t).1 path' (generateXattrName a) =
      getXattr fs path' (generateXattrName a) := by
  have hx : getXattr (xattrPart faults fs path v a t).1 path' (generateXattrName a) =
      getXattr fs path' (generateXattrName a) := by
    rcases xattrPart_cases faults fs path v a t with ⟨he, -⟩ | ⟨-, -, -, l, hr, hset⟩
    · rw [he]
    · rw [hset.getXattr_eq, if_neg]
      rintro ⟨hr', -⟩
      obtain ⟨p, hp⟩ := directoryExists_eq_dir_iff_at.1 hd
      rw [hp.resolve, Except.ok.injEq] at hr
      obtain ⟨x, hx⟩ := isDir_iff.1 (hr ▸ hp.isDir)
      exact hn (directoryExists_eq_dir.2 ⟨x, stat_eq_ok.2 ⟨l, hr', hx⟩⟩)
  rcases _iPutWith_cases faults fs path v a t with he | ⟨l, hset⟩
  · rwa [he]
  · exact hset.getXattr_eq.trans hx

/-- The attribute's path goes on from the key's with a slash. -/
theorem makeAttrFileName_slash (hne : path ≠ []) (hl : path.getLast? ≠ some slash) :
    ∃ rest, makeAttrFileName path a = path ++ slash :: rest := by
  have hjoin : ∀ c, sdsJoinPathLen path c = path ++ slash :: c := fun c => by
    rw [sdsJoinPathLen_eq hne, joinName_of_no_slash hl]
  unfold makeAttrFileName
  split
  · exact ⟨_, hjoin _⟩
  · exact ⟨_, hjoin _⟩

/-- What was written to is there. -/
theorem stat_of_written (hne : path ≠ []) (hl : path.getLast? ≠ some slash)
    (hok : (_iPutWith faults fs path v a t).2 = 0) : ∃ n, fs.stat path = .ok n := by
  by_cases hf : t.testBit storeInFileBit = true
  · rw [_iPutWith_file hf] at hok
    rcases setDirValueWith_cases faults (xattrPart faults fs path v a t).1 path v a with
      ⟨he, -⟩ | ⟨-, -, hw⟩
    · simp [he] at hok
    · obtain ⟨l, hres, -⟩ := write_ok hw
      obtain ⟨rest, he⟩ := makeAttrFileName_slash (a := a) hne hl
      obtain ⟨q, hq⟩ := at_of_resolve (he ▸ hres) hne
      obtain ⟨x, hx⟩ := (hq.keeps xattrPart_shape.keepsBack xattrPart_shape.cwd_eq.symm).stat_dir
      exact ⟨_, hx⟩
  · rw [_iPutWith_xattr hf] at hok
    rcases xattrPart_cases faults fs path v a t with ⟨-, hne'⟩ | ⟨-, -, -, l, hres, hset⟩
    · exact absurd hok hne'
    · obtain ⟨n, hg, -⟩ := hset.updated
      exact ⟨n, stat_eq_ok.2 ⟨l, hres, hg⟩⟩

/-- What is no directory has no attribute files. -/
theorem getDirValue_behind (host : Host) (hne : path ≠ []) (hl : path.getLast? ≠ some slash)
    (hn : directoryExists fs path ≠ pathIsDir) : getDirValue host fs path a = none := by
  have herr : ∀ n, fs.stat (makeAttrFileName path a) ≠ .ok n := by
    intro n hs
    obtain ⟨l, hr, -⟩ := stat_eq_ok.1 hs
    obtain ⟨rest, he⟩ := makeAttrFileName_slash (a := a) hne hl
    obtain ⟨q, hq⟩ := at_of_resolve (he ▸ hr) hne
    exact hn (directoryExists_at hq)
  rw [getDirValue]
  split
  · next content x hs => exact absurd hs (herr _)
  · next x hs => exact absurd hs (herr _)
  · rfl

end

/-! ## The directory of a put -/

section

variable {faults : Faults} {fs : FileSystem} {path v : Bytes} {a : Option Bytes} {t : ℤ} {p : Loc}
  {c c' : Name}

/-- What a directory is made for is a directory, or was there before. -/
theorem doMkdir_stat {n : Node Xattrs} (hl : path.getLast? ≠ some slash)
    (hs : (doMkdir fs path).1.stat path = .ok n) : n.isDir ∨ fs.stat path = .ok n := by
  have hmade := doMkdir_made fs path
  cases hst : fs.stat path with
  | ok n' =>
    rw [hmade.stat_ok hst, Except.ok.injEq] at hs
    exact Or.inr (by rw [hs])
  | error e =>
    cases hm : fs.mkdir path with
    | error e' =>
      rw [mkdir_fails_doMkdir (by simp [hm])] at hs
      exact Or.inr (hst.symm.trans hs)
    | ok fs' =>
      obtain ⟨-, l, hr, hn, hn'⟩ := mkdir_ok hm hl
      obtain ⟨-, hmk, -⟩ := doMkdir_makes hm hl
      rw [hmk] at hs hmade
      obtain ⟨l', hr', hg⟩ := stat_eq_ok.1 hs
      rw [resolve_keeps hmade.keeps hmade.cwd_eq hmade.noLink hr, Except.ok.injEq] at hr'
      subst hr'
      rcases hmade.get_cases l with he | ⟨-, -, he⟩
      · exact absurd (he.trans hn) hn'
      · rw [hg, Option.some.injEq] at he
        exact Or.inl (he ▸ rfl)

theorem isDir_node {n : Node Xattrs} (h : n.isDir) : ∃ x, n = .dir x := by
  cases n with
  | dir x => exact ⟨x, rfl⟩
  | file content x => simp [Node.isDir] at h
  | link target => simp [Node.isDir] at h

/-- A directory just made holds nothing but what leads out of it. -/
theorem isDir_behind_new (h : fs.At path p) (hc : Component c) (hc' : Component c')
    {fs' : FileSystem} (hm : fs.mkdir (joinName path c) = .ok fs') {n : Node Xattrs}
    (hs : fs'.stat (joinName (joinName path c) c') = .ok n) : n.isDir := by
  obtain ⟨l, hr, ho, hcwd⟩ := modify_ok hm
  obtain ⟨hn, hu⟩ := makeDir_ok ho
  have hplain : Plain c := by
    by_contra hp
    have hd := isDir_enter h.isDir hp
    rw [trimSlashes_joinName hc, h.resolve_entry hc.2.1 (noLink_of_isDir hd),
      Except.ok.injEq] at hr
    exact get_ne_none_of_isDir hd (hr ▸ hn)
  rw [trimSlashes_joinName hc, h.resolve_nofollow (hc.validName hplain), Except.ok.injEq] at hr
  subst hr
  have hkeep := (doMkdir_made fs (joinName path c)).keeps
  rw [(doMkdir_makes hm (getLast?_joinName hc)).2.1] at hkeep
  have hnew : fs'.tree.isDir (enter p c) := by
    rw [enter_plain hplain, FileTree.isDir, hu, if_pos rfl]
    rfl
  have hat := (h.keeps hkeep hcwd).entry hc.2.1 hnew
  rw [enter_plain hplain] at hat
  by_cases hp : Plain c'
  · have hnone : fs'.tree.get (c' :: c :: p) = none := by
      rw [hu, if_neg (by simp), get_cons_eq_none (by simp [FileTree.isDir, hn])]
    rw [hat.stat_entry hc'.2.1 (by rw [enter_plain hp]; simp [NoLink, hnone]), enter_plain hp,
      nodeAt, hnone] at hs
    simp at hs
  · obtain ⟨x, hx⟩ := (hat.entry hc'.2.1 (isDir_enter hat.isDir hp)).stat_dir
    rw [hx, Except.ok.injEq] at hs
    exact hs ▸ rfl

/-- What is at the path of a directory that was made for it is a directory. -/
theorem withDir_two_isDir (h : fs.At path p) (hc : Component c) (hc' : Component c')
    (hm : directoryExists fs (joinName (joinName path c) c') ≠ pathIsFile) {n : Node Xattrs}
    (hs : (withDir fs (joinName (joinName path c) c')).stat (joinName (joinName path c) c') =
      .ok n) : n.isDir := by
  have hlast := @getLast?_joinName path _ hc
  have hlast' := @getLast?_joinName (joinName path c) _ hc'
  by_cases hmiss : directoryExists fs (joinName (joinName path c) c') = pathIsNotExists
  · have hnone : ∀ n, fs.stat (joinName (joinName path c) c') ≠ .ok n :=
      fun n hn => directoryExists_ne_missing.2 ⟨n, hn⟩ hmiss
    rw [withDir, if_pos hmiss, forceDirectories_pair h hc hc', forceNames, doMkdir_at h,
      if_pos rfl, forceNames] at hs
    -- What the first directory made leads to is new, so nothing but a directory is behind it.
    have hfirst : ∀ {n : Node Xattrs}, (doMkdir fs (joinName path c)).1.stat
        (joinName (joinName path c) c') = .ok n → n.isDir := by
      intro n hn
      cases hm : fs.mkdir (joinName path c) with
      | error e =>
        rw [mkdir_fails_doMkdir (by simp [hm])] at hn
        exact absurd hn (hnone n)
      | ok fs' =>
        exact isDir_behind_new h hc hc' hm (by rwa [(doMkdir_makes hm hlast).2.1] at hn)
    split_ifs at hs
    · rcases doMkdir_stat hlast' hs with hd | hst
      · exact hd
      · exact hfirst hst
    · exact hfirst hs
  · obtain ⟨x, hx⟩ := directoryExists_eq_dir.1
      (((directoryExists_cases fs _).resolve_left hmiss).resolve_right hm)
    rw [withDir, if_neg hmiss, hx, Except.ok.injEq] at hs
    exact hs ▸ rfl

end

/-! ## The put -/

section

variable {host : Host} {M : ℤ} {fs : FileSystem} {aDir aKey vDir : Bytes}
  {policy : TIDBProcesses} {faults : Faults} {v : Bytes} {a : Option Bytes} {t : ℤ}

/-- The directory of a key behind missed levels lies in a partition directory. -/
theorem PutBehind.level_isDir {fs' : FileSystem} {D k : Bytes} {i : ℕ} {ns : List Name} {r : Bytes}
    (h : PutBehind fs D k i ns r) (hD : D ≠ [])
    (hdir : directoryExists fs' (keyDir D ns r) = pathIsDir) :
    directoryExists fs' (levelDir D ns) = pathIsDir := by
  obtain ⟨i, hi⟩ := Nat.exists_eq_succ_of_ne_zero h.pos.ne'
  obtain ⟨ns₀, r₀, c, -, -, rfl, -⟩ := levelAt_succ_inv (hi ▸ h.level)
  have hcomp := (component_level h.component h.level).1 (partName c) (by simp)
  have hne := joinName_ne_nil (c := partName c) (@levelDir_ne_nil D ns₀ hD)
  rw [keyDir_eq, levelDir_append] at hdir
  rw [levelDir_append]
  obtain ⟨q, hq⟩ := directoryExists_eq_dir_iff_at.1 hdir
  rw [joinName_of_no_slash (getLast?_joinName hcomp)] at hq
  obtain ⟨q', hq'⟩ := hq.of_append_slash hne
  exact directoryExists_at hq'

/-- Where a write succeeded behind missed levels, there is a directory in its partition. -/
theorem PutBehind.written_isDir {D k : Bytes} {i : ℕ} {ns : List Name} {r : Bytes}
    (h : PutBehind fs D k i ns r) (hD : D ≠ [])
    (hfile : directoryExists fs (keyDir D ns r) ≠ pathIsFile)
    (hok : (_iPutWith faults (withDir fs (keyDir D ns r)) (keyDir D ns r) v a t).2 = 0) :
    directoryExists (withDir fs (keyDir D ns r)) (levelDir D ns) = pathIsDir ∧
      directoryExists (withDir fs (keyDir D ns r)) (keyDir D ns r) = pathIsDir := by
  suffices hdir : directoryExists (withDir fs (keyDir D ns r)) (keyDir D ns r) = pathIsDir from
    ⟨h.level_isDir hD hdir, hdir⟩
  obtain ⟨hk, hi, hl, hr, hm⟩ := h
  obtain ⟨i, rfl⟩ := Nat.exists_eq_succ_of_ne_zero hi.ne'
  obtain ⟨ns₀, r₀, c, hl₀, hc, rfl, rfl⟩ := levelAt_succ_inv hl
  obtain ⟨p, hp⟩ := directoryExists_eq_dir_iff_at.1
    ((missed_iff hl₀).1 (hm i (Nat.lt_succ_self i))).1
  obtain ⟨hcn, hcr⟩ := component_level hk hl
  have hcomp := hcn (partName c) (by simp)
  rw [keyDir_eq, levelDir_append] at hfile hok ⊢
  have hlast := @getLast?_joinName (joinName (levelDir D ns₀) (partName c)) _ (hcr hr)
  have hne := joinName_ne_nil (c := partName c) hp.ne_nil
  obtain ⟨n, hn⟩ := stat_of_written (joinName_ne_nil hne) hlast hok
  obtain ⟨x, rfl⟩ := isDir_node (withDir_two_isDir hp hcomp (hcr hr) hfile hn)
  exact directoryExists_eq_dir.2 ⟨x, hn⟩

/-- What was written in the partitions is found : there is no directory at the plain path. -/
theorem PutBehind.found_written {D k : Bytes} {i : ℕ} {ns : List Name} {r : Bytes} (hD : D ≠ [])
    (h : PutBehind fs D k i ns r)
    (hlinks : ∀ j ns r, levelAt k j = some (ns, r) → ¬Dangling fs (keyDir D ns r))
    (hfile : directoryExists fs (keyDir D ns r) ≠ pathIsFile)
    (hok : (_iPutWith faults (withDir fs (keyDir D ns r)) (keyDir D ns r) v a t).2 = 0) :
    directoryExists (_iPutWith faults (withDir fs (keyDir D ns r)) (keyDir D ns r) v a t).1
        (joinName D k) ≠ pathIsDir ∧
      iIsKeyDirExists (_iPutWith faults (withDir fs (keyDir D ns r)) (keyDir D ns r) v a t).1
        (joinName D k) = some (keyDir D ns r) := by
  have hmissed := fun j hj => h.missed_withDir hlinks (j := j) hj
  have hzero := (missed_iff (levelAt_zero k)).1 (hmissed 0 h.pos)
  obtain ⟨hparent, hdir⟩ := h.written_isDir hD hfile hok
  have hshape := @_iPutWith_shape faults (withDir fs (keyDir D ns r)) (keyDir D ns r) v a t
  refine ⟨mt hshape.directoryExists_iff.1 hzero.2, ?_⟩
  rw [hshape.iIsKeyDirExists_eq]
  exact iIsKeyDirExists_missed hD h.component.1 h.component.2.1 h.pos h.level
    (fun j _ hj => hmissed j hj) hparent hdir

/-- A put writes at the plain path, or behind levels at which the key is missed. -/
theorem putDir_place (hpol : policy = .dkIgnored ∨ policy = .dkStopped)
    (h0 : 0 ∉ sdsJoinPathLen aDir aKey)
    (hslash : M > 0 → (sdsJoinPathLen aDir aKey).getLast? = some slash →
      directoryExists fs (sdsJoinPathLen aDir aKey) = pathIsDir)
    (hput : putDir host M fs aDir policy (some aKey) = .ok vDir) :
    vDir = sdsJoinPathLen aDir aKey ∨ M > 0 ∧ ∃ D k i ns r,
      sdsJoinPathLen aDir aKey = joinName D k ∧ D ≠ [] ∧ vDir = keyDir D ns r ∧
        PutBehind fs D k i ns r ∧ ∀ j < i, Passed host fs M D k j := by
  simp only [putDir, Option.getD_some, Option.isSome_some, true_and] at hput
  split_ifs at hput with hM
  · by_cases hlast : (sdsJoinPathLen aDir aKey).getLast? = some slash
    · rw [iFindKeyDirToPut, if_pos (hslash hM hlast), Except.ok.injEq] at hput
      exact Or.inl hput.symm
    · by_cases hne : sdsJoinPathLen aDir aKey = []
      · rw [hne] at hput ⊢
        refine Or.inl ?_
        simpa [iFindKeyDirToPut, extractLastPathName, directoryExists, stat, FileSystem.resolve,
          nodeAt, pathIsNotExists, pathIsDir, eq_comm] using hput
      · exact (iFindKeyDirToPut_place hne hlast h0 hpol hput).imp_right fun h => ⟨hM, h⟩
  · rw [Except.ok.injEq] at hput
    exact Or.inl hput.symm

/-- The loop of a put fails with an error code. -/
theorem findLoop_error {s : Bytes} {fuel : ℕ} {e : ℤ} (hs : s ≠ [])
    (h : findLoop host fs M fuel vDir s = .error e) : e ≠ 0 := by
  induction fuel generalizing vDir s with
  | zero => simp [findLoop] at h
  | succ fuel ih =>
    rw [findLoop] at h
    cases hc : firstChar s with
    | error e' =>
      simp only [hc, FindEnd.error.injEq] at h
      rw [← h, firstChar_error hs hc]
      decide
    | ok c =>
      simp only [hc] at h
      split_ifs at h with hrest
      exact ih hrest h

/-- A put that finds no directory returns an error. -/
theorem putDir_error {e : ℤ} (h : putDir host M fs aDir policy (some aKey) = .error e) : e ≠ 0 := by
  simp only [putDir, Option.getD_some] at h
  split_ifs at h with hM
  rw [iFindKeyDirToPut] at h
  split_ifs at h
  cases hlast : extractLastPathName (sdsJoinPathLen aDir aKey) with
  | mk pre last =>
    cases last with
    | none => simp [hlast] at h
    | some k =>
      have hk : k ≠ [] := by
        rintro rfl
        rw [extractLastPathName] at hlast
        split_ifs at hlast with hs
        · simp at hlast
        · exact hs (Option.some.inj (Prod.mk.inj hlast).2)
      simp only [hlast] at h
      split_ifs at h
      cases hfind : findLoop host fs M k.length pre k with
      | error e' =>
        rw [hfind, Except.error.injEq] at h
        exact h ▸ findLoop_error hk hfind
      | stop pre s => simp [hfind] at h
      | last pre c =>
        simp only [hfind] at h
        cases policy <;> simp only [reduceCtorEq, Except.error.injEq] at h
        rw [← h]
        decide

/-- A put that returns 0 leaves the value to the get exactly if no extended attribute that it did
not write is met before : that of a file at the plain path of the key, or, when the extended
attribute was refused, that of the directory written to. -/
theorem iGet_put_iff (host : Host) {vDir : Bytes} (aValue : Bytes) (aAttribute : Option Bytes)
    (aStoreType : ℤ) (hpol : policy = .dkIgnored ∨ policy = .dkStopped)
    (h0 : 0 ∉ sdsJoinPathLen aDir aKey)
    (hslash : M > 0 → (sdsJoinPathLen aDir aKey).getLast? = some slash →
      directoryExists fs (sdsJoinPathLen aDir aKey) = pathIsDir)
    (hlinks : ∀ path, KeyPath (sdsJoinPathLen aDir aKey) path → ¬Dangling fs path)
    (hput : putDir host M fs aDir policy (some aKey) = .ok vDir)
    (hok : (iPutWith host M faults fs aDir policy (some aKey) aValue aAttribute aStoreType).2 = 0) :
    iGet host M (iPutWith host M faults fs aDir policy (some aKey) aValue aAttribute aStoreType).1
        aDir aKey aAttribute aStoreType = some aValue ↔
      (aStoreType.testBit storeInXattrBit →
        (directoryExists fs (sdsJoinPathLen aDir aKey) = pathIsFile ∧
          getXattr fs (sdsJoinPathLen aDir aKey) (generateXattrName aAttribute) = some aValue) ∨
        ((directoryExists fs (sdsJoinPathLen aDir aKey) = pathIsFile →
          getXattr fs (sdsJoinPathLen aDir aKey) (generateXattrName aAttribute) = none) ∧
        (¬TakesXattr faults (generateXattrName aAttribute) aValue →
          ∀ w, getXattr (withDir fs vDir) vDir (generateXattrName aAttribute) = some w →
            w = aValue))) := by
  obtain ⟨hfile, hw⟩ : directoryExists fs vDir ≠ pathIsFile ∧
      iPutWith host M faults fs aDir policy (some aKey) aValue aAttribute aStoreType =
        _iPutWith faults (withDir fs vDir) vDir aValue aAttribute aStoreType := by
    refine (iPutWith_ok hput aValue aAttribute aStoreType).resolve_left fun h => ?_
    rw [h.2] at hok
    exact absurd (show pathIsFile = 0 from hok) (by decide)
  rw [hw] at hok ⊢
  obtain ⟨hsome, hread⟩ := _iGet_written host hok
  rcases putDir_place hpol h0 hslash hput with
    rfl | ⟨hM, D, k, i, ns, r, hP, hD, rfl, hbehind, -⟩
  · -- The value is at the plain path.
    have hget : iGet host M (_iPutWith faults (withDir fs (sdsJoinPathLen aDir aKey))
        (sdsJoinPathLen aDir aKey) aValue aAttribute aStoreType).1 aDir aKey aAttribute
        aStoreType = _iGet host (_iPutWith faults (withDir fs (sdsJoinPathLen aDir aKey))
        (sdsJoinPathLen aDir aKey) aValue aAttribute aStoreType).1 (sdsJoinPathLen aDir aKey)
        aAttribute aStoreType := by
      obtain ⟨w, hw'⟩ := Option.ne_none_iff_exists'.1 hsome
      rw [iGet, hw']
    rw [hget, hread]
    simp [hfile]
  · -- The value is in the partitions.
    have hne : sdsJoinPathLen aDir aKey ≠ [] := hP ▸ joinName_ne_nil hD
    have hlast : (sdsJoinPathLen aDir aKey).getLast? ≠ some slash :=
      hP ▸ getLast?_joinName hbehind.component
    have hlinks' : ∀ j ns r, levelAt k j = some (ns, r) → ¬Dangling fs (keyDir D ns r) :=
      fun j ns r hl => hlinks _ ⟨D, k, j, ns, r, hP, hD, hbehind.component, hl, rfl⟩
    have hzero := (missed_iff (levelAt_zero k)).1 (hbehind.missed 0 hbehind.pos)
    have hzero' := (missed_iff (levelAt_zero k)).1 (hbehind.missed_withDir hlinks' hbehind.pos)
    rw [keyDir_nil, ← hP] at hzero hzero'
    have hdir := (hbehind.written_isDir hD hfile hok).2
    obtain ⟨hnot, hfound⟩ := hbehind.found_written hD hlinks' hfile hok
    rw [← hP] at hnot hfound
    have hstat : ∀ n, (withDir fs (keyDir D ns r)).stat (sdsJoinPathLen aDir aKey) = .ok n ↔
        fs.stat (sdsJoinPathLen aDir aKey) = .ok n := fun n =>
      ⟨fun h => by
        rw [hP] at h ⊢
        exact hbehind.stat hlinks' hbehind.pos (levelAt_zero k) h,
        (withDir_made fs _).stat_ok⟩
    have hplain : _iGet host (_iPutWith faults (withDir fs (keyDir D ns r)) (keyDir D ns r)
        aValue aAttribute aStoreType).1 (sdsJoinPathLen aDir aKey) aAttribute aStoreType =
        if aStoreType.testBit storeInXattrBit then
          getXattr fs (sdsJoinPathLen aDir aKey) (generateXattrName aAttribute) else none := by
      rw [_iGet_eq, getDirValue_behind host hne hlast hnot,
        ite_self, Option.or_none, _iPutWith_getXattr hdir hzero'.2, getXattr_congr hstat]
    rw [iGet, hplain]
    by_cases hx : aStoreType.testBit storeInXattrBit = true
    · rw [if_pos hx]
      cases hg : getXattr fs (sdsJoinPathLen aDir aKey) (generateXattrName aAttribute) with
      | some w =>
        have hisFile : directoryExists fs (sdsJoinPathLen aDir aKey) = pathIsFile := by
          obtain ⟨l, n, hres, hn, -⟩ := getXattr_eq_some.1 hg
          exact ((directoryExists_cases fs _).resolve_left (directoryExists_ne_missing.2
            ⟨n, stat_eq_ok.2 ⟨l, hres, hn⟩⟩)).resolve_left hzero.2
        simp [hx, hisFile]
      | none => simp [hx, hM, hfound, hread]
    · rw [if_neg hx]
      simp [hx, hM, hfound, hread]

end

/-- A put that returns 0 is read back exactly if its value is short enough to be read, and no
extended attribute that the put did not write is met before. -/
theorem putReads_iff (host : Host) (iDBMaxPageCount : ℤ) (faults : Faults) (fs : FileSystem)
    (aDir : Bytes) (iDBPartitionFullProcess : TIDBProcesses) (aKey aValue : Bytes)
    (aAttribute : Option Bytes) (aStoreType : ℤ)
    (hpol : iDBPartitionFullProcess = .dkIgnored ∨ iDBPartitionFullProcess = .dkStopped)
    (h0 : 0 ∉ sdsJoinPathLen aDir aKey)
    (hslash : iDBMaxPageCount > 0 → (sdsJoinPathLen aDir aKey).getLast? = some slash →
      directoryExists fs (sdsJoinPathLen aDir aKey) = pathIsDir)
    (hlinks : ∀ path, KeyPath (sdsJoinPathLen aDir aKey) path → ¬Dangling fs path)
    (hok : (iPutWith host iDBMaxPageCount faults fs aDir iDBPartitionFullProcess (some aKey) aValue
      aAttribute aStoreType).2 = 0) :
    returned (iGet host iDBMaxPageCount (iPutWith host iDBMaxPageCount faults fs aDir
        iDBPartitionFullProcess (some aKey) aValue aAttribute aStoreType).1 aDir aKey aAttribute
        aStoreType) = some (some aValue) ↔
      aValue.length < Sdshdr.sdsLimit ∧ (aStoreType.testBit storeInXattrBit →
        (directoryExists fs (sdsJoinPathLen aDir aKey) = pathIsFile ∧
          getXattr fs (sdsJoinPathLen aDir aKey) (generateXattrName aAttribute) = some aValue) ∨
        ((directoryExists fs (sdsJoinPathLen aDir aKey) = pathIsFile →
          getXattr fs (sdsJoinPathLen aDir aKey) (generateXattrName aAttribute) = none) ∧
        (¬TakesXattr faults (generateXattrName aAttribute) aValue → ∀ vDir,
          putDir host iDBMaxPageCount fs aDir iDBPartitionFullProcess (some aKey) = .ok vDir →
            ∀ w, getXattr (withDir fs vDir) vDir (generateXattrName aAttribute) = some w →
              w = aValue))) := by
  cases hput : putDir host iDBMaxPageCount fs aDir iDBPartitionFullProcess (some aKey) with
  | error e =>
    rw [iPutWith, hput] at hok
    exact absurd hok (putDir_error hput)
  | ok vDir =>
    simp only [Except.ok.injEq, forall_eq']
    rw [returned_eq_some, ← iGet_put_iff host aValue aAttribute aStoreType hpol h0 hslash hlinks
      hput hok]
    constructor
    · rintro ⟨hget, hshort⟩
      exact ⟨hshort _ hget.symm, hget.symm⟩
    · rintro ⟨hshort, hget⟩
      refine ⟨hget.symm, fun c hc => ?_⟩
      rw [hget, Option.some.injEq] at hc
      exact hc ▸ hshort

/-- The key `a` with a value in an extended attribute. -/
def xattrOnly : FileSystem :=
  (iPut plainHost 0 rootBase.fs [slash] .dkIgnored (some [97]) [1] none 2).1

/-- A new key. -/
theorem putReads_iff_newKey :
    (iPutWith plainHost 0 Faults.none (rootWith []) [slash] .dkIgnored (some [97]) [2] none 3).2 =
        0 ∧
    (returned (iGet plainHost 0 (iPutWith plainHost 0 Faults.none (rootWith []) [slash] .dkIgnored
        (some [97]) [2] none 3).1 [slash] [97] none 3) = some (some [2]) ↔
      [(2 : UInt8)].length < Sdshdr.sdsLimit ∧ (Int.testBit 3 storeInXattrBit →
        (directoryExists (rootWith []) (sdsJoinPathLen [slash] [97]) = pathIsFile ∧
          getXattr (rootWith []) (sdsJoinPathLen [slash] [97]) (generateXattrName none) =
            some [2]) ∨
        ((directoryExists (rootWith []) (sdsJoinPathLen [slash] [97]) = pathIsFile →
          getXattr (rootWith []) (sdsJoinPathLen [slash] [97]) (generateXattrName none) = none) ∧
        (¬TakesXattr Faults.none (generateXattrName none) [2] → ∀ vDir,
          putDir plainHost 0 (rootWith []) [slash] .dkIgnored (some [97]) = .ok vDir →
            ∀ w, getXattr (withDir (rootWith []) vDir) vDir (generateXattrName none) = some w →
              w = [2])))) := by
  have hok : (iPutWith plainHost 0 Faults.none (rootWith []) [slash] .dkIgnored (some [97]) [2]
      none 3).2 = 0 := by decide +kernel
  refine ⟨hok, putReads_iff plainHost 0 Faults.none (rootWith []) [slash] .dkIgnored [97] [2] none
    3 (Or.inl rfl) (by decide) (by decide) ?_ hok⟩
  rintro path - ⟨⟨target, ht⟩, -⟩
  obtain ⟨l, -, hg⟩ := lstat_eq_ok.1 ht
  exact noLink_rootWith [] l target hg

/-- The extended attribute is refused, the file is written, and the old value is read. -/
theorem put_reads_stale_xattr :
    (iPutWith plainHost 0 ⟨some ⟨28, by decide⟩, none⟩ xattrOnly [slash] .dkIgnored (some [97])
        [2] none 3).2 = 0 ∧
      iGet plainHost 0 (iPutWith plainHost 0 ⟨some ⟨28, by decide⟩, none⟩ xattrOnly [slash]
        .dkIgnored (some [97]) [2] none 3).1 [slash] [97] none 3 = some [1] := by
  decide +kernel

end Idb
