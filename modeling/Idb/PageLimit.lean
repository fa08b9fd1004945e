import Idb.PutRuns

/-!
# The page limit

With the policy `dkStopped` no directory of the store ever holds more visible subdirectories than
the page limit (`pageLimit_run`). A put makes at most one of them, in the partition of the level it
stops at, and only when that one is not full ; the partition directories it makes on the way are
hidden, and deletions only take away. A deletion can take away a symbolic link on the way to the
base directory, and then a put goes elsewhere (`put_behind_link`).
-/

namespace Idb

open Posix FileSystem FileTree

/-- No directory at or below `d` has more than `m` visible subdirectories. -/
def PageLimit (t : FileTree Xattrs) (m : ℕ) (d : Loc) : Prop :=
  ∀ p, d <:+ p → visibleCount t p ≤ m

/-- No links are below `d`, and the page limit holds there. -/
structure Limited (t : FileTree Xattrs) (m : ℕ) (d : Loc) : Prop where
  links : ∀ l, Below d l → t.NoLink l
  limit : PageLimit t m d

section

variable {host : Host} {M : ℤ} {fs fs' : FileSystem} {t t' : FileTree Xattrs} {D : Bytes}
  {d l : Loc} {k : Key} {i m : ℕ}

/-! ## Puts -/

/-- The only visible directory a put can make is that of its key. -/
theorem Grew.visible (hg : Grew t t' d l) (hl : HomeAt d k i l) {c : Name} {p : Loc} (hp : d <:+ p)
    (hc : c.head? ≠ some dot) (hd : t'.isDir (c :: p)) : t.isDir (c :: p) ∨ c :: p = l := by
  refine (hg.way _ hd).imp_right fun hb => ?_
  rcases hl.of_suffix hb.1.1 hb.2 with he | ⟨j, -, hq⟩
  · exact he
  · obtain ⟨j, rfl⟩ := hq.exists_succ (below_cons hp c)
    obtain ⟨c', q, -, -, -, he⟩ := hq.succ
    rw [List.cons.injEq] at he
    exact absurd (he.1 ▸ rfl) hc

/-- A put that stops at a level that is not full keeps the limit. -/
theorem Grew.pageLimit (hg : Grew t t' d l) (hm : 0 < m) (hl : HomeAt d k i l)
    (hfull : ¬Full t m d k.val i) (hlim : PageLimit t m d) : PageLimit t' m d := by
  intro p hp
  obtain ⟨r, q, -, -, hq, rfl⟩ := id hl.exists_part
  by_cases hnew : p = q ∧ t.isDir (r :: q) = false
  · obtain ⟨rfl, hno⟩ := hnew
    have hlt : visibleCount t p < m := by
      by_cases hd : t.isDir p
      · rw [full_iff_homeAt hl, List.tail_cons] at hfull
        by_contra hge
        exact hfull ⟨hd, by omega, hno⟩
      · rwa [visibleCount_of_not_isDir (by simpa using hd)]
    have hsucc : visibleCount t' p ≤ visibleCount t p + 1 :=
      visibleCount_le_succ (r := r) fun c hc hd => (hg.visible hl hp hc hd).imp_right fun he => by
        rw [List.cons.injEq] at he
        exact he.1
    omega
  · refine (visibleCount_mono fun c hc hd => ?_).trans (hlim p hp)
    rcases hg.visible hl hp hc hd with hd | he
    · exact hd
    · rw [he]
      rw [List.cons.injEq] at he
      by_contra hno
      exact hnew ⟨he.2, by simpa using hno⟩

/-- A put under `dkStopped` keeps every page within the limit. -/
theorem Limited.putCall (h : Limited fs.tree (sizeT M) d) (hM : M > 0) (hat : fs.At D d)
    {c : PutCall} (hc : c.policy = .dkStopped) :
    Limited (putCall host M D fs c).tree (sizeT M) d := by
  rcases putCall_cases hat h.links host M c with he | ⟨i, l, hl, hp, -, hs⟩ | ⟨-, hstop, -⟩
  · rwa [he]
  · have hp := hp hM
    refine ⟨fun q hb => hs.noLink q (h.links q hb), hs.grew.pageLimit ?_ hl
      (hp.stops.resolve_right fun hign => ?_) h.limit⟩
    · unfold sizeT
      split_ifs <;> omega
    · rw [hc] at hign
      simp at hign
  · exact absurd hc hstop

/-! ## Deletions -/

/-- `iDelete` only removes. -/
theorem iDelete_removedOn (M : ℤ) (fs : FileSystem) (D key : Bytes) (a : Option Bytes) :
    RemovedOn (fun _ => True) fs (iDelete M fs D key a storeInFile).1 := by
  unfold iDelete
  cases keyDirToDelete M fs D key with
  | none => exact RemovedOn.refl _ fs
  | some vDir =>
    simp only [_deleleAttr_storeInFile]
    exact ofResult_removedOn fun fs' h => (unlink_removedOn h).mono fun _ _ _ => trivial

theorem iKeyDelete_removedOn (host : Host) (M : ℤ) (fs : FileSystem) (D key : Bytes) :
    RemovedOn (fun _ => True) fs (iKeyDelete host M fs D key).1 := by
  unfold iKeyDelete
  cases keyDirToDelete M fs D key with
  | none => exact RemovedOn.refl _ fs
  | some vDir => exact (deleteDir_frame fs vDir).mono fun _ _ _ => trivial

theorem RemovedOn.limited {S : Loc → Prop} (hr : RemovedOn S fs fs') (h : Limited fs.tree m d) :
    Limited fs'.tree m d where
  links l hb target hl := h.links l hb target (hr.get_of_some hl)
  limit p hp := (visibleCount_mono fun _ _ hd => hr.keeps.dir _ hd).trans (h.limit p hp)

end

/-! ## Runs -/

/-- A put, if it is one, is made with the policy `dkStopped`. -/
def StoreCall.Stopped : StoreCall → Prop
  | .put p => p.policy = .dkStopped
  | _ => True

instance : DecidablePred StoreCall.Stopped
  | .put p => inferInstanceAs (Decidable (p.policy = .dkStopped))
  | .delete _ _ => .isTrue trivial
  | .keyDelete _ => .isTrue trivial

/-- An empty base directory is within every limit. -/
theorem Start.limited_start (S : Start) (m : ℕ) : Limited S.fs.tree m S.loc := by
  refine ⟨fun l hb => by simp [NoLink, S.empty l hb], fun p hp => ?_⟩
  have hnone : visibleCount S.fs.tree p = 0 := by
    rw [visibleCount, List.length_eq_zero_iff, List.filter_eq_nil_iff]
    intro c hc
    exact absurd (S.empty _ (below_cons hp c)) (get_ne_none_of_isDir (mem_subdirs.1 hc))
  omega

/-- In every state of a run whose puts are made with `dkStopped`, and while `D` names the base
directory, no directory at or below it holds more visible subdirectories than the page limit. -/
theorem pageLimit_run (S : Start) (host : Host) (M : ℤ) (calls : List StoreCall) (hM : M > 0)
    (hcalls : ∀ c ∈ calls, c.Stopped)
    (hnamed : ∀ pre p, pre ++ [.put p] <+: calls → (S.run host M pre).At S.dir S.loc) :
    ∀ p, S.loc <:+ p → (visibleCount (S.run host M calls).tree p : ℤ) ≤ M := by
  have hrun : ∀ pre, pre <+: calls → Limited (S.run host M pre).tree (sizeT M) S.loc := by
    intro pre hpre
    induction pre using List.reverseRecOn with
    | nil => exact S.limited_start _
    | append_singleton pre c ih =>
      have h := ih ((List.prefix_append pre [c]).trans hpre)
      rw [Start.run, List.foldl_concat]
      cases c with
      | put p =>
        have hstop : (StoreCall.put p).Stopped := hcalls _ (hpre.subset (by simp))
        exact h.putCall hM (hnamed pre p hpre) hstop
      | delete key attr => exact (iDelete_removedOn _ _ _ _ _).limited h
      | keyDelete key => exact (iKeyDelete_removedOn _ _ _ _ _).limited h
  intro p hp
  have hlim := (hrun calls (List.prefix_refl _)).limit p hp
  unfold sizeT at hlim
  split_ifs at hlim <;> omega

/-- The directory is full with `x`, and `ab` goes into a partition. -/
theorem pageLimit_run_two :
    let calls : List StoreCall :=
      [.put ⟨keyX, none, [49], .dkStopped, storeInFile, .none⟩,
        .put ⟨keyAb, some [dot], [50], .dkStopped, storeInFile, .none⟩]
    (∀ c ∈ calls, c.Stopped) ∧
      (∀ pre p, pre ++ [.put p] <+: calls → (rootStart.run plainHost 1 pre).At [slash] []) ∧
      ∀ p, (visibleCount (rootStart.run plainHost 1 calls).tree p : ℤ) ≤ 1 := by
  intro calls
  have hcalls : ∀ c ∈ calls, c.Stopped := by decide
  have hkey : ∀ c ∈ calls, c.OnKey := by decide
  have hnamed : ∀ pre p, pre ++ [.put p] <+: calls →
      (rootStart.run plainHost 1 pre).At [slash] [] := fun pre p hp =>
    (rootStart.baseDir_run plainHost (by decide) fun c hc =>
      hkey c (hp.subset (List.mem_append_left _ hc))).isAt
  exact ⟨hcalls, hnamed, fun p =>
    pageLimit_run rootStart plainHost 1 calls (by decide) hcalls hnamed p List.nil_suffix⟩

/-! ## Links on the way to the base directory -/

/-- A tree with these directories and symbolic links. -/
def linkedWith (dirs : List Bytes) (links : List (Bytes × Bytes)) : FileSystem :=
  links.foldl (fun fs link => (ofResult fs (fs.symlink link.1 link.2)).1) (rootWith dirs)

/-- `/l` leads to `/r/s` and `/e` to `/r/e/c`. -/
def linkedTree : FileSystem :=
  linkedWith [[slash, 114, slash, 115], [slash, 114, slash, 101, slash, 99]]
    [([slash, 114, slash, 115], [slash, 108]), ([slash, 114, slash, 101, slash, 99], [slash, 101])]

/-- `/l/../e/c` names `/r/e/c`. Once `/l` is a directory, it names `/r/e/c/c`. -/
def linkedStart : Start where
  fs := linkedTree
  dir := [slash, 108, slash, dot, dot, slash, 101, slash, 99]
  loc := [[99], [101], [114]]
  isAt := ⟨by decide, by decide +kernel, by decide +kernel⟩
  empty l hb := by
    have hkeys : ∀ l ∈ linkedTree.tree.nodes.keys, ¬Below [[99], [101], [114]] l := by
      decide +kernel
    by_contra hne
    exact hkeys l (mem_keys.2 (Option.isSome_iff_ne_none.2 hne)) hb

/-- `/l` leads to `/r/s`, and there is a directory `/c` with two subdirectories. -/
def besideTree : FileSystem :=
  linkedWith [[slash, 114, slash, 115], [slash, 114, slash, 99], [slash, 99, slash, 49],
    [slash, 99, slash, 50]] [([slash, 114, slash, 115], [slash, 108])]

/-- `/l/../c` names `/r/c`. Once `/l` is a directory, it names `/c`. -/
def besideStart : Start where
  fs := besideTree
  dir := [slash, 108, slash, dot, dot, slash, 99]
  loc := [[99], [114]]
  isAt := ⟨by decide, by decide +kernel, by decide +kernel⟩
  empty l hb := by
    have hkeys : ∀ l ∈ besideTree.tree.nodes.keys, ¬Below [[99], [114]] l := by decide +kernel
    by_contra hne
    exact hkeys l (mem_keys.2 (Option.isSome_iff_ne_none.2 hne)) hb

/-- `x` is put, its attribute `link`, which is the symbolic link, is deleted, and `ab` is put. -/
def linkCalls (link : Bytes) : List StoreCall :=
  [.put ⟨keyX, none, [49], .dkStopped, storeInFile, .none⟩, .delete keyX (some link),
    .put ⟨keyAb, none, [50], .dkStopped, storeInFile, .none⟩]

/-- The path of `/l` from three and from four levels below the root. -/
def linkAbove : Bytes :=
  [dot, dot, slash, dot, dot, slash, dot, dot, slash, 108]

/-- The second put goes to a new directory beside `x`, or to another directory that is over the
limit. -/
theorem put_behind_link :
    (∀ link, ∀ c ∈ linkCalls link, c.Stopped) ∧
      visibleCount (linkedStart.run plainHost 1 (linkCalls ([dot, dot, slash] ++ linkAbove))).tree
        linkedStart.loc = 2 ∧
      ((besideStart.run plainHost 1 (linkCalls linkAbove)).resolve true besideStart.dir).toOption =
        some [[99]] ∧
      visibleCount (besideStart.run plainHost 1 (linkCalls linkAbove)).tree [[99]] = 3 := by
  refine ⟨fun link c hc => ?_, by decide +kernel⟩
  simp only [linkCalls, List.mem_cons, List.not_mem_nil, or_false] at hc
  rcases hc with rfl | rfl | rfl
  · rfl
  · trivial
  · rfl

end Idb
