import Idb.Directories

/-!
# What removing a directory does

`deleteTree` only removes, and only what lies at or below the place its path names
(`deleteTree_frame`); this holds for every tree and path. It removes all of it and
returns 0 when the path's own resolution does not pass through what is removed
(`deleteDir_entry`).
-/

namespace Idb

open Posix FileSystem FileTree

/-- `fs'` is `fs` with some places of `S` removed. -/
structure RemovedOn (S : Loc → Prop) (fs fs' : FileSystem) : Prop where
  cwd_eq : fs'.cwd = fs.cwd
  get_cases : ∀ m, fs'.tree.get m = fs.tree.get m ∨ (S m ∧ fs'.tree.get m = none)

namespace RemovedOn

variable {S S' : Loc → Prop} {fs fs' fs'' : FileSystem}

theorem refl (S : Loc → Prop) (fs : FileSystem) : RemovedOn S fs fs :=
  ⟨rfl, fun _ => Or.inl rfl⟩

theorem trans (h : RemovedOn S fs fs') (h' : RemovedOn S fs' fs'') : RemovedOn S fs fs'' := by
  refine ⟨h'.cwd_eq.trans h.cwd_eq, fun m => ?_⟩
  rcases h'.get_cases m with hm' | hm'
  · exact (h.get_cases m).imp hm'.trans fun hm => ⟨hm.1, hm'.trans hm.2⟩
  · exact Or.inr hm'

/-- What is removed may be said to lie in a larger set. -/
theorem mono (h : RemovedOn S fs fs') (hS : ∀ m, fs.tree.get m ≠ none → S m → S' m) :
    RemovedOn S' fs fs' := by
  refine ⟨h.cwd_eq, fun m => ?_⟩
  rcases h.get_cases m with hm | ⟨hS', hm⟩
  · exact Or.inl hm
  · by_cases hn : fs.tree.get m = none
    · exact Or.inl (hm.trans hn.symm)
    · exact Or.inr ⟨hS m hn hS', hm⟩

theorem get_of_some (h : RemovedOn S fs fs') {m : Loc} {n : Node Xattrs}
    (hm : fs'.tree.get m = some n) : fs.tree.get m = some n := by
  rcases h.get_cases m with hc | hc
  · exact hc ▸ hm
  · simp [hc.2] at hm

theorem keeps (h : RemovedOn S fs fs') : fs'.tree.Keeps fs.tree where
  dir l hl := by
    obtain ⟨x, hx⟩ := isDir_iff.1 hl
    exact isDir_of_get (h.get_of_some hx)
  link _ _ hl := h.get_of_some hl

/-- What resolves after the removal resolved to the same before. -/
theorem resolve (h : RemovedOn S fs fs') {last : Bool} {path : Bytes} {l : Loc}
    {n : Node Xattrs} (hl : fs'.resolve last path = .ok l) (hg : fs'.tree.get l = some n) :
    fs.resolve last path = .ok l := by
  refine resolve_keeps h.keeps h.cwd_eq.symm (fun hnl target ht => ?_) hl
  rw [h.get_of_some hg] at ht
  exact hnl target (hg.trans ht)

/-- Where one node is gone, it is what was removed. -/
theorem of_updated {l : Loc} (hc : fs'.cwd = fs.cwd) (h : fs.tree.Updated fs'.tree l none) :
    RemovedOn (· = l) fs fs' := by
  refine ⟨hc, fun m => ?_⟩
  rw [h m]
  split_ifs with hm
  · exact Or.inr ⟨hm, rfl⟩
  · exact Or.inl rfl

end RemovedOn

/-- A place at or below the one `path` names. -/
def AtOrBelow (fs : FileSystem) (path : Bytes) (m : Loc) : Prop :=
  ∃ l, fs.resolve false path = .ok l ∧ l <:+ m

variable {host : Host} {fs : FileSystem} {path : Bytes}

/-! ## Only what lies below is removed -/

theorem unlink_removedOn {fs' : FileSystem} (h : fs.unlink path = .ok fs') :
    RemovedOn (AtOrBelow fs path) fs fs' := by
  obtain ⟨l, hl, ho, hc⟩ := modify_ok h
  refine (RemovedOn.of_updated hc (unlinkAt_ok ho).2.2).mono ?_
  rintro m - rfl
  exact ⟨m, hl, List.suffix_refl m⟩

/-- `rmdir` removes one entry. -/
theorem rmdir_removedOn {fs' : FileSystem} (h : fs.rmdir path = .ok fs') :
    RemovedOn (AtOrBelow fs path) fs fs' := by
  unfold rmdir at h
  split_ifs at h
  obtain ⟨l, hl, ho, hc⟩ := modify_ok h
  refine (RemovedOn.of_updated hc (rmdirAt_ok ho).2.2.2).mono ?_
  rintro m - rfl
  exact ⟨m, hl, List.suffix_refl m⟩

theorem ofResult_removedOn {S : Loc → Prop} {r : Except Errno FileSystem}
    (h : ∀ fs', r = .ok fs' → RemovedOn S fs fs') : RemovedOn S fs (ofResult fs r).1 := by
  cases r with
  | error e => exact RemovedOn.refl S fs
  | ok fs' => exact h fs' rfl

/-- What holds of every removal from a smaller tree holds of the removals in turn. -/
theorem deleteEach_removedOn {S : Loc → Prop} {f : FileSystem → Bytes → FileSystem × Bool}
    {paths : List Bytes} {fs₀ fs : FileSystem} (h₀ : RemovedOn S fs₀ fs)
    (h : ∀ fs₁, RemovedOn S fs₀ fs₁ → ∀ path ∈ paths, RemovedOn S fs₁ (f fs₁ path).1) :
    RemovedOn S fs₀ (deleteEach f fs paths).1 := by
  induction paths generalizing fs with
  | nil => exact h₀
  | cons path paths ih =>
    have hf := h₀.trans (h fs h₀ path (by simp))
    rw [deleteEach]
    split
    · next fs' he =>
      rw [he] at hf
      exact ih hf fun fs₁ h₁ p hp => h fs₁ h₁ p (by simp [hp])
    · next fs' he =>
      rw [he] at hf
      exact hf

theorem RemovedOn.atOrBelow {S : Loc → Prop} {fs' : FileSystem} (h : RemovedOn S fs fs') {m : Loc}
    (hm : fs'.tree.get m ≠ none) (hl : AtOrBelow fs' path m) : AtOrBelow fs path m := by
  obtain ⟨l, hr, hs⟩ := hl
  obtain ⟨n, hn⟩ := Option.ne_none_iff_exists'.1 (get_ne_none_of_suffix hs hm)
  exact ⟨l, h.resolve hr hn, hs⟩

/-- What is removed lies at or below the place the path names. -/
theorem deleteTree_frame (fuel : ℕ) (fs : FileSystem) (path : Bytes) :
    RemovedOn (AtOrBelow fs path) fs (deleteTree host fuel fs path).1 := by
  induction fuel generalizing fs path with
  | zero => exact RemovedOn.refl _ fs
  | succ fuel ih =>
    rw [deleteTree]
    split
    · exact RemovedOn.refl _ fs
    · next x hx =>
      obtain ⟨l, hl, hat⟩ := at_of_lstat hx
      rw [Host.entries_at hat]
      have hentry : ∀ fs₁, RemovedOn (AtOrBelow fs path) fs fs₁ →
          ∀ q ∈ (host.names fs.tree l).map (joinName path),
            RemovedOn (AtOrBelow fs path) fs₁ (deleteTree host fuel fs₁ q).1 := by
        intro fs₁ h₁ q hq
        obtain ⟨c, hc, rfl⟩ := List.mem_map.1 hq
        obtain ⟨n, hn⟩ := Option.ne_none_iff_exists'.1 (Host.mem_names.1 hc)
        refine (ih fs₁ (joinName path c)).mono fun m hm hb => ?_
        obtain ⟨l', hr, hs⟩ := h₁.atOrBelow hm hb
        rw [hat.resolve_nofollow (validName_of_get hn), Except.ok.injEq] at hr
        subst hr
        exact ⟨l, hl, (List.suffix_cons c l).trans hs⟩
      have heach := deleteEach_removedOn (RemovedOn.refl _ fs) hentry
      dsimp only
      split
      · next fs' he =>
        rw [Host.names] at heach
        rw [he] at heach
        exact heach.trans (ofResult_removedOn fun fs'' h =>
          (rmdir_removedOn h).mono fun m hm hb => heach.atOrBelow hm hb)
      · next fs' he =>
        rw [Host.names] at heach
        rw [he] at heach
        exact heach
    · exact ofResult_removedOn fun fs' h => unlink_removedOn h

theorem deleteDir_frame (fs : FileSystem) (path : Bytes) :
    RemovedOn (AtOrBelow fs path) fs (deleteDir host fs path).1 := by
  unfold deleteDir
  split_ifs
  · exact RemovedOn.refl _ fs
  · exact deleteTree_frame _ fs path

/-! ## All of it is removed -/

/-- `t'` is `t` without what lies at or below `l`. -/
def Removed (t t' : FileTree Xattrs) (l : Loc) : Prop :=
  ∀ m, t'.get m = if l <:+ m then none else t.get m

/-- The last name of a joined path. -/
theorem lastName_joinName {c : Name} (hc : ValidName c) : lastName (joinName path c) = some c := by
  have hf : [c].filter (fun c => decide (c ≠ [])) = [c] := by simp [hc.1.1]
  unfold lastName joinName
  split_ifs with h
  · obtain ⟨pre, rfl⟩ := List.getLast?_eq_some_iff.1 h
    rw [List.append_assoc, List.singleton_append, components_append_slash,
      components_of_not_mem hc.2.1, List.filter_append, hf, List.getLast?_append]
    rfl
  · rw [components_append_slash, components_of_not_mem hc.2.1, List.filter_append, hf,
      List.getLast?_append]
    rfl

section

variable {p : Loc} {c : Name}

/-- `unlink` of an entry that is no directory removes it. -/
theorem unlink_entry (h : fs.At path p) (hc : ValidName c) {n : Node Xattrs}
    (hg : fs.tree.get (c :: p) = some n) (hd : fs.tree.isDir (c :: p) = false) :
    ∃ fs', ofResult fs (fs.unlink (joinName path c)) = (fs', true) ∧ fs'.cwd = fs.cwd ∧
      Removed fs.tree fs'.tree (c :: p) := by
  obtain ⟨t', ht'⟩ := unlinkAt_eq hd hg
  have hu : fs.unlink (joinName path c) = .ok { fs with tree := t' } :=
    modify_eq (h.resolve_nofollow hc) ht'
  refine ⟨{ fs with tree := t' }, by rw [hu]; rfl, rfl, fun m => ?_⟩
  rw [(unlinkAt_ok ht').2.2 m]
  by_cases hs : c :: p <:+ m
  · rw [if_pos hs]
    split_ifs with hm
    · rfl
    · exact get_eq_none_of_below ⟨hs, hm⟩ hd
  · rw [if_neg hs, if_neg]
    rintro rfl
    exact hs (List.suffix_refl _)

/-- `rmdir` of an empty directory removes it. -/
theorem rmdir_entry (h : fs.At path p) (hc : ValidName c) (hd : fs.tree.isDir (c :: p))
    (he : ∀ e, fs.tree.get (e :: c :: p) = none) :
    ∃ fs', ofResult fs (fs.rmdir (joinName path c)) = (fs', true) ∧ fs'.cwd = fs.cwd ∧
      fs.tree.Updated fs'.tree (c :: p) none := by
  obtain ⟨t', ht'⟩ := rmdirAt_eq (by simp) hd he
  have hr : fs.rmdir (joinName path c) = .ok { fs with tree := t' } := by
    rw [rmdir, if_neg (by rw [lastName_joinName hc, Option.some.injEq]; exact hc.1.2.1)]
    exact modify_eq (h.resolve_nofollow hc) ht'
  exact ⟨{ fs with tree := t' }, by rw [hr]; rfl, rfl, (rmdirAt_ok ht').2.2.2⟩

/-- Removing entries of a directory in turn, when removing one of them works. -/
theorem deleteEach_entries {f : FileSystem → Bytes → FileSystem × Bool} {names : List Name}
    (hn : names.Nodup) (ha : fs.Anchored path p) (hg : ∀ c ∈ names, fs.tree.get (c :: p) ≠ none)
    (hf : ∀ fs₁, (∀ m, fs₁.tree.get m ≠ none → fs.tree.get m ≠ none) → fs₁.Anchored path p →
      ∀ c ∈ names, fs₁.tree.get (c :: p) ≠ none → ∃ fs', f fs₁ (joinName path c) = (fs', true) ∧
        fs'.cwd = fs₁.cwd ∧ Removed fs₁.tree fs'.tree (c :: p)) :
    ∃ fs', deleteEach f fs (names.map (joinName path)) = (fs', true) ∧ fs'.cwd = fs.cwd ∧
      ∀ m, fs'.tree.get m = if ∃ c ∈ names, c :: p <:+ m then none else fs.tree.get m := by
  induction names generalizing fs with
  | nil => exact ⟨fs, rfl, rfl, by simp⟩
  | cons c cs ih =>
    obtain ⟨fs₁, he, hc, hr⟩ := hf fs (fun _ h => h) ha c (by simp) (hg c (by simp))
    have hsub : ∀ m, fs₁.tree.get m ≠ none → fs.tree.get m ≠ none := by
      intro m hm
      rw [hr m] at hm
      split_ifs at hm with hs
      · simp at hm
      · exact hm
    have hother : ∀ d ∈ cs, ¬c :: p <:+ d :: p := by
      intro d hd hs
      rcases List.suffix_cons_iff.1 hs with h | h
      · rw [List.cons.injEq] at h
        exact (List.nodup_cons.1 hn).1 (h.1 ▸ hd)
      · have := h.length_le
        simp at this
    have ha₁ : fs₁.Anchored path p := ha.of_agree hc fun m hm => by
      rw [hr m, if_neg fun hs => hm ((below_cons (List.suffix_refl p) c).suffix hs)]
    obtain ⟨fs₂, he₂, hc₂, hr₂⟩ := ih (List.nodup_cons.1 hn).2 ha₁
      (fun d hd => by rw [hr, if_neg (hother d hd)]; exact hg d (by simp [hd]))
      fun fs' hs' ha' d hd => hf fs' (fun m hm => hsub m (hs' m hm)) ha' d (by simp [hd])
    refine ⟨fs₂, ?_, hc₂.trans hc, fun m => ?_⟩
    · rw [List.map_cons, deleteEach, he]
      exact he₂
    · rw [hr₂ m, hr m]
      by_cases h₁ : c :: p <:+ m
      · simp [h₁]
      · simp [h₁]

theorem sizeAt_le_of_subset {fs₁ : FileSystem}
    (h : ∀ m, fs₁.tree.get m ≠ none → fs.tree.get m ≠ none) (l : Loc) :
    fs₁.tree.sizeAt l ≤ fs.tree.sizeAt l :=
  sizeAt_mono (List.suffix_refl l) fun k _ hk => by
    rw [Option.isSome_iff_ne_none] at hk ⊢
    exact h k hk

/-- A directory is removed with all it holds if its entries and then itself can be. -/
theorem deleteTree_dir {fuel : ℕ} {l : Loc} {x : Xattrs} (ha : fs.Anchored path l)
    (hlst : fs.lstat path = .ok (.dir x))
    (hf : ∀ fs₁, (∀ m, fs₁.tree.get m ≠ none → fs.tree.get m ≠ none) → fs₁.Anchored path l →
      ∀ e ∈ host.names fs.tree l, fs₁.tree.get (e :: l) ≠ none →
        ∃ fs', deleteTree host fuel fs₁ (joinName path e) = (fs', true) ∧ fs'.cwd = fs₁.cwd ∧
          Removed fs₁.tree fs'.tree (e :: l))
    (hr : ∀ fs₁, fs₁.cwd = fs.cwd → (∀ m, ¬Below l m → fs₁.tree.get m = fs.tree.get m) →
      (∀ e, fs₁.tree.get (e :: l) = none) → ∃ fs', ofResult fs₁ (fs₁.rmdir path) = (fs', true) ∧
        fs'.cwd = fs₁.cwd ∧ fs₁.tree.Updated fs'.tree l none) :
    ∃ fs', deleteTree host (fuel + 1) fs path = (fs', true) ∧ fs'.cwd = fs.cwd ∧
      Removed fs.tree fs'.tree l := by
  rw [deleteTree, hlst, Host.entries_at ha.toAt]
  obtain ⟨fs₁, he, hcwd, hrem⟩ := deleteEach_entries (f := deleteTree host fuel) Host.nodup_names
    ha (fun e he => Host.mem_names.1 he) hf
  rw [Host.names] at he
  dsimp only
  rw [he]
  have hgone : ∀ e, fs₁.tree.get (e :: l) = none := by
    intro e
    rw [hrem]
    split_ifs with h
    · rfl
    · by_contra hne
      exact h ⟨e, Host.mem_names.2 hne, List.suffix_refl _⟩
  have hout : ∀ m, ¬Below l m → fs₁.tree.get m = fs.tree.get m := by
    intro m hm
    rw [hrem m, if_neg]
    rintro ⟨e, _, hs⟩
    exact hm ((below_cons (List.suffix_refl l) e).suffix hs)
  obtain ⟨fs₂, he₂, hc₂, hu⟩ := hr fs₁ hcwd hout hgone
  refine ⟨fs₂, he₂, hc₂.trans hcwd, fun m => ?_⟩
  rw [hu m]
  by_cases hm : m = l
  · rw [if_pos hm, if_pos (hm ▸ List.suffix_refl _)]
  · rw [if_neg hm]
    by_cases hs : l <:+ m
    · rw [if_pos hs]
      exact get_eq_none_of_no_entry hgone ⟨hs, hm⟩
    · rw [if_neg hs]
      exact hout m fun hb => hs hb.1

/-- What is no directory is unlinked at once. -/
theorem deleteTree_file (fuel : ℕ) {n : Node Xattrs} (h : fs.At path p) (hc : ValidName c)
    (hn : fs.tree.get (c :: p) = some n) (hd : fs.tree.isDir (c :: p) = false) :
    ∃ fs', deleteTree host (fuel + 1) fs (joinName path c) = (fs', true) ∧ fs'.cwd = fs.cwd ∧
      Removed fs.tree fs'.tree (c :: p) := by
  rw [deleteTree, h.lstat_of_get hc hn]
  cases n with
  | dir x => simp [isDir_of_get hn] at hd
  | file v x => exact unlink_entry h hc hn hd
  | link target => exact unlink_entry h hc hn hd

/-- So is an empty directory. -/
theorem deleteTree_empty (fuel : ℕ) (h : fs.At path p) (hc : ValidName c)
    (hd : fs.tree.isDir (c :: p)) (hempty : ∀ e, fs.tree.get (e :: c :: p) = none) :
    ∃ fs', deleteTree host (fuel + 1) fs (joinName path c) = (fs', true) ∧ fs'.cwd = fs.cwd ∧
      fs.tree.Updated fs'.tree (c :: p) none := by
  obtain ⟨x, hx⟩ := isDir_iff.1 hd
  have hnil : host.names fs.tree (c :: p) = [] :=
    List.eq_nil_iff_forall_not_mem.2 fun e he => Host.mem_names.1 he (hempty e)
  rw [Host.names] at hnil
  rw [deleteTree, h.lstat_of_get hc hx, Host.entries_at (h.subdir hd)]
  dsimp only
  rw [hnil, List.map_nil, deleteEach]
  exact rmdir_entry h hc hd hempty

/-- Deleting an entry removes it with all that is below it. -/
theorem deleteTree_entry {fuel : ℕ} (ha : fs.Anchored path p) (hc : ValidName c)
    (hg : fs.tree.get (c :: p) ≠ none) (hf : fs.tree.sizeAt (c :: p) ≤ fuel) :
    ∃ fs', deleteTree host fuel fs (joinName path c) = (fs', true) ∧ fs'.cwd = fs.cwd ∧
      Removed fs.tree fs'.tree (c :: p) := by
  induction fuel generalizing fs path p c with
  | zero =>
    obtain ⟨n, hn⟩ := Option.ne_none_iff_exists'.1 hg
    have := sizeAt_pos hn
    omega
  | succ fuel ih =>
    obtain ⟨n, hn⟩ := Option.ne_none_iff_exists'.1 hg
    by_cases hd : fs.tree.isDir (c :: p)
    · obtain ⟨x, hx⟩ := isDir_iff.1 hd
      refine deleteTree_dir (ha.entry hc hd) (ha.toAt.lstat_of_get hc hx)
        (fun fs₁ hs ha₁ e he hg₁ => ?_) fun fs₁ hcwd hout hgone => ?_
      · obtain ⟨n', hn'⟩ := Option.ne_none_iff_exists'.1 hg₁
        have h₁ := sizeAt_le_of_subset hs (e :: c :: p)
        have h₂ := sizeAt_cons_lt (c := e) hd
        exact ih ha₁ (validName_of_get hn') hg₁ (by omega)
      · have ha₁ : fs₁.Anchored path p := ha.of_agree hcwd fun m hm => hout m fun hb =>
          hm (hb.trans_suffix (List.suffix_cons c p))
        refine rmdir_entry ha₁.toAt hc ?_ hgone
        rw [FileTree.isDir, hout _ (not_below_self _)]
        exact hd
    · exact deleteTree_file fuel ha.toAt hc hn (by simpa using hd)

/-- `DeleteDir` on an entry of an anchored directory removes all of it. -/
theorem deleteDir_entry (ha : fs.Anchored path p) (hc : ValidName c)
    (hg : fs.tree.get (c :: p) ≠ none) :
    ∃ fs', deleteDir host fs (joinName path c) = (fs', true) ∧ fs'.cwd = fs.cwd ∧
      Removed fs.tree fs'.tree (c :: p) := by
  rw [deleteDir, if_neg (joinName_ne_nil ha.toAt.ne_nil)]
  exact deleteTree_entry ha hc hg ((sizeAt_le _).trans (Nat.le_succ _))

theorem lastName_withSlash (path : Bytes) : lastName (withSlash path) = lastName path := by
  unfold withSlash joinName
  split_ifs
  · rw [List.append_nil]
  · rw [lastName, components_append_slash, List.filter_append]
    simp [components, lastName]

/-- So it does when a slash follows the name of the directory. -/
theorem deleteDir_withSlash (ha : fs.Anchored path p) (hc : ValidName c)
    (hd : fs.tree.isDir (c :: p)) :
    ∃ fs', deleteDir host fs (withSlash (joinName path c)) = (fs', true) ∧ fs'.cwd = fs.cwd ∧
      Removed fs.tree fs'.tree (c :: p) := by
  have hs : (slash : UInt8) ∉ ([] : Bytes) := List.not_mem_nil
  have hpath := joinName_ne_nil (c := c) ha.toAt.ne_nil
  have hres : ∀ fs₁ : FileSystem, fs₁.At (joinName path c) (c :: p) → ∀ last,
      fs₁.resolve last (withSlash (joinName path c)) = .ok (c :: p) := by
    intro fs₁ h₁ last
    have := h₁.resolve_entry hs (by rw [enter_nil]; exact noLink_of_isDir h₁.isDir) last
    rwa [enter_nil] at this
  have hat : ∀ fs₁ : FileSystem, fs₁.At (joinName path c) (c :: p) →
      fs₁.At (withSlash (joinName path c)) (c :: p) :=
    fun fs₁ h₁ => ⟨joinName_ne_nil hpath, hres fs₁ h₁ true, h₁.isDir⟩
  have hentry := ha.entry hc hd
  obtain ⟨x, hx⟩ := isDir_iff.1 hd
  have hslash : withSlash (joinName path c) ≠ [] := joinName_ne_nil hpath
  rw [deleteDir, if_neg hslash]
  refine deleteTree_dir (x := x) (fun t ht => hat _ (hentry t ht)) ?_
    (fun fs₁ hsub ha₁ e he hg₁ => ?_) fun fs₁ hcwd hout hgone => ?_
  · rw [lstat, hres fs hentry.toAt, nodeAt, hx]
  · obtain ⟨n', hn'⟩ := Option.ne_none_iff_exists'.1 hg₁
    refine deleteTree_entry ha₁ (validName_of_get hn') hg₁ ?_
    exact (sizeAt_le_of_subset hsub _).trans (sizeAt_le _)
  · have h₁ := (hentry.of_agree hcwd hout).toAt
    obtain ⟨t', ht'⟩ := rmdirAt_eq (by simp) h₁.isDir hgone
    have hr : fs₁.rmdir (withSlash (joinName path c)) = .ok { fs₁ with tree := t' } := by
      rw [rmdir, lastName_withSlash, if_neg (by
        rw [lastName_joinName hc, Option.some.injEq]; exact hc.1.2.1)]
      exact modify_eq (hres fs₁ h₁ false) ht'
    exact ⟨{ fs₁ with tree := t' }, by rw [hr]; rfl, rfl, (rmdirAt_ok ht').2.2.2⟩

end

/-! ## Something is removed -/

/-- Some place of `fs` is gone in `fs'`. -/
def Lost (fs fs' : FileSystem) : Prop :=
  ∃ m, fs.tree.get m ≠ none ∧ fs'.tree.get m = none

/-- What is lost stays lost when more is removed. -/
theorem Lost.removedOn {fs' fs'' : FileSystem} {S : Loc → Prop} (h : Lost fs fs')
    (hr : RemovedOn S fs' fs'') : Lost fs fs'' := by
  obtain ⟨m, hm, hn⟩ := h
  refine ⟨m, hm, ?_⟩
  rcases hr.get_cases m with hc | hc
  · exact hc.trans hn
  · exact hc.2

theorem Removed.lost {fs' : FileSystem} {l : Loc} (h : Removed fs.tree fs'.tree l)
    (hl : fs.tree.get l ≠ none) : Lost fs fs' :=
  ⟨l, hl, by rw [h l, if_pos (List.suffix_refl l)]⟩

theorem deleteEach_removedOn_below {fuel : ℕ} (fs : FileSystem) (paths : List Bytes) :
    ∃ S, RemovedOn S fs (deleteEach (deleteTree host fuel) fs paths).1 :=
  ⟨fun _ => True, deleteEach_removedOn (RemovedOn.refl _ fs) fun fs₁ _ path _ =>
    (deleteTree_frame fuel fs₁ path).mono fun _ _ _ => trivial⟩

/-- What the first deletion has lost stays lost. -/
theorem deleteEach_lost {fuel : ℕ} {paths : List Bytes}
    (h : Lost fs (deleteTree host fuel fs path).1) :
    Lost fs (deleteEach (deleteTree host fuel) fs (path :: paths)).1 := by
  rw [deleteEach]
  split
  · next fs' he =>
    rw [he] at h
    obtain ⟨S, hS⟩ := @deleteEach_removedOn_below host fuel fs' paths
    exact h.removedOn hS
  · next fs' he =>
    rw [he] at h
    exact h

/-- Removing a directory that holds something removes something, whether or not it
succeeds. -/
theorem deleteTree_lost {fuel : ℕ} {p : Loc} {c : Name} {x : Xattrs} (h : fs.At path p)
    (hl : fs.lstat path = .ok (.dir x)) (hc : fs.tree.get (c :: p) ≠ none)
    (hf : fs.tree.sizeAt p ≤ fuel) : Lost fs (deleteTree host fuel fs path).1 := by
  induction fuel generalizing path p c x with
  | zero =>
    have := sizeAt_pos_of_isDir h.isDir
    omega
  | succ fuel ih =>
    rw [deleteTree, hl, Host.entries_at h]
    obtain ⟨e, names, hnames⟩ := List.exists_cons_of_ne_nil (List.ne_nil_of_mem
      (Host.mem_names.2 hc : c ∈ host.names fs.tree p))
    have hge : fs.tree.get (e :: p) ≠ none := Host.mem_names.1 (hnames ▸ List.mem_cons_self)
    obtain ⟨n, hn⟩ := Option.ne_none_iff_exists'.1 hge
    have hv := validName_of_get hn
    -- What the first entry loses stays lost.
    have hfirst : Lost fs (deleteTree host fuel fs (joinName path e)).1 := by
      have hsize := sizeAt_cons_lt (c := e) h.isDir
      have hpos := sizeAt_pos hn
      obtain ⟨m, rfl⟩ : ∃ m, fuel = m + 1 := ⟨fuel - 1, by omega⟩
      by_cases hd : fs.tree.isDir (e :: p)
      · by_cases hempty : ∀ e', fs.tree.get (e' :: e :: p) = none
        · obtain ⟨fs', he', -, hu⟩ := deleteTree_empty m h hv hd hempty
          rw [he']
          exact ⟨e :: p, hge, by rw [hu, if_pos rfl]⟩
        · push Not at hempty
          obtain ⟨c', hc'⟩ := hempty
          obtain ⟨y, hy⟩ := isDir_iff.1 hd
          exact ih (h.subdir hd) (h.lstat_of_get hv hy) hc' (by omega)
      · obtain ⟨fs', he', -, hr⟩ := deleteTree_file m h hv hn (by simpa using hd)
        rw [he']
        exact hr.lost hge
    rw [Host.names] at hnames
    dsimp only
    rw [hnames, List.map_cons]
    have heach := @deleteEach_lost host _ _ _ (names.map (joinName path)) hfirst
    split
    · next fs' he' =>
      rw [he'] at heach
      exact heach.removedOn (ofResult_removedOn fun fs'' h' => rmdir_removedOn h')
    · next fs' he' =>
      rw [he'] at heach
      exact heach

/-- `DeleteDir` on a directory that holds something, or on a link to one, removes
something. -/
theorem deleteDir_lost {p : Loc} {c : Name} (h : fs.At path p) (hc : fs.tree.get (c :: p) ≠ none) :
    Lost fs (deleteDir host fs path).1 := by
  rw [deleteDir, if_neg h.ne_nil]
  have hr := h.resolve
  rw [FileSystem.resolve, if_neg h.ne_nil] at hr
  obtain ⟨q, hq, hg⟩ := namei_nofollow (get_ne_none_of_isDir h.isDir) hr
  obtain ⟨n, hn⟩ := Option.ne_none_iff_exists'.1 hg
  have hres : fs.resolve false path = .ok q := by rw [FileSystem.resolve, if_neg h.ne_nil, hq]
  have hl : fs.lstat path = .ok n := by rw [lstat, hres, nodeAt, hn]
  by_cases hd : fs.tree.isDir q
  · obtain ⟨x, hx⟩ := isDir_iff.1 hd
    rw [hn, Option.some.injEq] at hx
    subst hx
    exact deleteTree_lost h hl hc ((sizeAt_le _).trans (Nat.le_succ _))
  · obtain ⟨t', ht'⟩ := unlinkAt_eq (by simpa using hd) hn
    have hu : fs.unlink path = .ok { fs with tree := t' } := modify_eq hres ht'
    have hlost : Lost fs (ofResult fs (fs.unlink path)).1 := by
      rw [hu]
      exact ⟨q, hg, by rw [ofResult]; exact (unlinkAt_ok ht').2.2 q ▸ if_pos rfl⟩
    rw [deleteTree, hl]
    cases n with
    | dir x => exact absurd (isDir_of_get hn) hd
    | file v x => exact hlost
    | link target => exact hlost

end Idb
