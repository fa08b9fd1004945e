import Idb.KeyDelete

/-!
# Where a key is put, it is found

In any tree of directories and files : when the directory that `iFindKeyDirToPut` chose
for a new key has been made, `iIsKeyDirExists` comes out at it. The levels before it
were full, hence are blind to the lookup, and making the directory does not make one of
the places the lookup has passed.
-/

namespace Idb

open Posix FileSystem FileTree

section

variable {fs fs' : FileSystem} {d l l' : Loc} {k : DotFreeKey} {i j m : ℕ}
  (hm : MadeOn (fun q => Below d q ∧ q <:+ l) fs fs') (hl : HomeAt d k.toKey i l)

include hm hl

/-- Making the place of a key makes no other place of it. -/
theorem MadeOn.isDir_home (hl' : HomeAt d k.toKey j l') (hne : j ≠ i)
    (hd : fs.tree.isDir l' = false) : fs'.tree.isDir l' = false := by
  rcases hm.get_cases l' with he | ⟨⟨-, hs⟩, -, -⟩
  · rwa [FileTree.isDir, he]
  · obtain rfl := hl'.eq_of_suffix hl hs
    exact absurd (hl'.inj hl).2 hne

/-- A level that was full before is blind after. -/
theorem MadeOn.blind (hj : j < i) (hf : Full fs.tree m d k.val j) :
    Blind fs'.tree d k.val j := by
  obtain ⟨l', hl'⟩ := DotFreeKey.exists_home hl.partAt_tail hj
  have hfull := (full_iff_homeAt hl').1 hf
  exact (blind_iff_homeAt hl').2
    ⟨hm.keeps.dir _ hfull.1, hm.isDir_home hl hl' (by omega) hfull.2.2⟩

/-- The lookup comes out at the level made. -/
theorem MadeOn.looksAt (hi : 1 ≤ i) (hf : FindVisits fs.tree m d k.val i)
    (hd : fs'.tree.isDir l) : LooksAt fs'.tree d k.val i where
  pos := hi
  blind := fun j _ hj => hm.blind hl hj (hf j hj)
  stops := fun hb => by
    have := ((blind_iff_homeAt hl).1 hb).2
    simp [hd] at this

end

/-- The lookup returns the path of the place of a key at the level it comes out at. -/
theorem iIsKeyDirExists_of_looksAt {fs : FileSystem} {D : Bytes} {d : Loc} {k : DotFreeKey}
    {i : ℕ} {names : List Name} (hD : fs.At D d) (hlinks : ∀ l, fs.tree.NoLink l)
    (hl : HomeAt d k.toKey i (names.reverse ++ d)) (hlook : LooksAt fs.tree d k.val i)
    (hd : fs.tree.isDir (names.reverse ++ d)) :
    iIsKeyDirExists fs (joinName D k.val) = some (names.foldl joinName D) := by
  obtain ⟨ns, r, hlev, hp, hr, hv, he⟩ := id hl
  have hnames : names = ns ++ [r] := by
    rw [← List.cons_append, List.append_cancel_right_eq] at he
    rw [← List.reverse_reverse names, he, List.reverse_cons, List.reverse_reverse]
  obtain ⟨i', hlook', hres⟩ := iIsKeyDirExists_eq hD k.component
    (k.look.clear hD.isDir fun l _ => hlinks l)
  obtain rfl := hlook'.unique hlook
  rcases hres with ⟨ns', r', hlev', -, hres⟩ | ⟨hno, -⟩
  · rw [hlev, Option.some.injEq, Prod.mk.injEq] at hlev'
    rw [hres, hnames, hlev'.1, hlev'.2]
    rfl
  · have hpart := hno ns r hlev
    rw [Key.place_eq hlev hp] at hpart
    rw [he] at hd
    rw [isDir_of_cons hd] at hpart
    simp at hpart

/-- In a tree without links, for the path `pre ++ k` of a key that is not a directory :
when the directory chosen for a put has been made, it is the plain path, or the plain
path still is no directory and the lookup returns the directory made. -/
theorem lookup_finds_put_place (host : Host) (fs : FileSystem) (hlinks : ∀ l, fs.tree.NoLink l)
    (M : ℤ) (policy : TIDBProcesses) (hpol : policy = .dkIgnored ∨ policy = .dkStopped)
    (pre : Bytes) (hpre : pre = [] ∨ pre.getLast? = some slash) (k : DotFreeKey)
    (hnew : directoryExists fs (pre ++ k.val) ≠ pathIsDir) (L : Bytes)
    (hput : iFindKeyDirToPut host fs (pre ++ k.val) M policy = .ok L)
    (hmade : (forceDirectories fs L).2 = 0) :
    L = pre ++ k.val ∨
      (directoryExists (forceDirectories fs L).1 (pre ++ k.val) ≠ pathIsDir ∧
        iIsKeyDirExists (forceDirectories fs L).1 (pre ++ k.val) = some L) := by
  have hlast := extractLastPathName_append hpre k.component.1 k.component.2.1
  by_cases hparent : directoryExists fs pre = pathIsDir
  · obtain ⟨d, hD⟩ := directoryExists_eq_dir_iff_at.1 hparent
    have hjoin : pre ++ k.val = joinName pre k.val := by
      rw [joinName, if_pos (hpre.resolve_left hD.ne_nil)]
    have hplain := plain_of_head? k.component.1 k.visible
    have hkey : ∀ fs' : FileSystem, fs'.At pre d → fs'.tree.NoLink (k.val :: d) →
        (directoryExists fs' (joinName pre k.val) = pathIsDir ↔ fs'.tree.isDir (k.val :: d)) := by
      intro fs' hD' hl
      have := directoryExists_joinName hD' k.component.2.1 (by rwa [enter_plain hplain])
      rwa [enter_plain hplain] at this
    rw [hjoin] at hnew hput ⊢
    rcases iFindKeyDirToPut_spec host hD (fun l _ => hlinks l) k.find hpol with
      ⟨e, -, hres⟩ | ⟨i, l, names, hp, hn, rfl, hres⟩
    · rw [hres] at hput
      simp at hput
    rw [hres, Except.ok.injEq] at hput
    subst hput
    obtain ⟨hm, hat⟩ := forceDirectories_valid hD hn fun q _ _ => hlinks q
    have hat := hat hmade
    have hlinks' := fun l => hm.noLink (hlinks l)
    rcases Nat.eq_zero_or_pos i with rfl | hi
    · left
      have he := hp.home.unique (homeAt_zero d k.toKey)
      rw [← List.singleton_append, List.append_cancel_right_eq] at he
      rw [← List.reverse_reverse names, he]
      rfl
    · right
      have hD' := hD.keeps hm.keeps hm.cwd_eq
      refine ⟨fun hd => ?_, iIsKeyDirExists_of_looksAt hD' hlinks' hp.home
        (hm.looksAt hp.home hi hp.full hat.isDir) hat.isDir⟩
      have hno : fs.tree.isDir (k.val :: d) = false := by
        simpa using mt (hkey fs hD (hlinks _)).2 hnew
      have := hm.isDir_home hp.home (homeAt_zero d k.toKey) (by omega) hno
      rw [(hkey _ hD' (hlinks' _)).1 hd] at this
      simp at this
  · left
    simp only [iFindKeyDirToPut, if_neg hnew, hlast, hparent, false_and, if_false,
      Except.ok.injEq] at hput
    rw [← hput, sdsJoinPathLen]
    rcases hpre with rfl | hs
    · rfl
    · by_cases hne : pre = []
      · rw [if_pos hne, hne, List.nil_append]
      · rw [if_neg hne, if_neg (by simp [hs])]

/-- The directory chosen for `ab` beside `x` is the one looked up. -/
theorem lookup_finds_partition :
    let fs := (rootBase.run [.put (.ofValue keyX [49])]).fs
    let L : Bytes := [slash, dot, 97, slash, 98]
    directoryExists fs ([slash] ++ keyAb.val) ≠ pathIsDir ∧
      iFindKeyDirToPut plainHost fs ([slash] ++ keyAb.val) 1 .dkIgnored = .ok L ∧
      (forceDirectories fs L).2 = 0 ∧
      (L = [slash] ++ keyAb.val ∨
        (directoryExists (forceDirectories fs L).1 ([slash] ++ keyAb.val) ≠ pathIsDir ∧
          iIsKeyDirExists (forceDirectories fs L).1 ([slash] ++ keyAb.val) = some L)) := by
  intro fs L
  have hst := rootBase.store_run [.put (.ofValue keyX [49])]
  have hlinks : ∀ l, fs.tree.NoLink l := fun l =>
    noLink_of_suffix hst.isAt.isDir hst.layout.links (List.nil_suffix)
  have hnew : directoryExists fs ([slash] ++ keyAb.val) ≠ pathIsDir := by decide +kernel
  have hput : iFindKeyDirToPut plainHost fs ([slash] ++ keyAb.val) 1 .dkIgnored = .ok L := by
    decide +kernel
  have hmade : (forceDirectories fs L).2 = 0 := by decide +kernel
  exact ⟨hnew, hput, hmade, lookup_finds_put_place plainHost fs hlinks 1 .dkIgnored (Or.inl rfl)
    [slash] (Or.inr rfl) keyAb hnew L hput hmade⟩

end Idb
