import Idb.ConcurrentSearch

/-!
# Puts with a page limit at once

Each client puts keys one after another, by system calls that the others' calls come between.

Counting and making a directory are two calls, so `dkStopped` does not keep the limit `m` when
others put at the same time : each of `n` clients may have counted `m - 1`. But there are never
more than `m - 1 + n` directories, whatever the order of the calls (`run_puts_pages`).

A key that only one client puts is not touched by the others. Once its client is done, what is read
of it are the values put last (`run_puts_get`), and with a fair schedule all clients get done
(`fair_puts_get`).
-/

set_option linter.unusedSectionVars false

namespace Idb

open Posix FileSystem FileTree Interleaving

namespace Paged

variable {ι : Type} [Fintype ι] [DecidableEq ι] {m : ℕ} {D : Bytes} {d l p : Loc}
  {own : ι → Set Key} {limited : Prop} {t₀ : FileTree Xattrs} {i : ι}
  {x : FileSystem × (ι → Finset Loc)} {host : Host} {fs fs' : FileSystem} {pend : ι → Finset Loc}
  {path : Bytes} {c : Name} {P Q : FileTree Xattrs → Finset Loc → Prop}
  {e : DotFreeKey → Attr → Option Bytes} {k : DotFreeKey} {policy : TIDBProcesses} {j : ℕ}
  {ns : List Name} {r : Bytes}

/-! ## Directories -/

/-- A directory made at `c :: p` keeps the pages within their bound, when it is hidden or the client
still has a look at `p` to spend. -/
theorem within_made (hw : Within m d t₀ (fs, pend))
    (hu : fs.tree.Updated fs'.tree (c :: p) (some newDir))
    (hroom : c.head? = some dot ∨ p ∈ pend i) :
    Within m d t₀ (fs', Function.update pend i ((pend i).erase p)) := by
  intro q hq
  have hcount := visibleCount_made hu q
  have hwait := waiting_erase pend i p
  refine le_trans ?_ (hw q hq)
  dsimp only
  by_cases hqp : q = p
  · subst hqp
    split_ifs at hcount hwait with hv hmem
    · omega
    · exact absurd (hroom.resolve_right hmem) hv.2
    · omega
    · omega
  · rw [if_neg fun h => hqp h.1] at hcount
    rw [waiting_update (by simp [hqp])]
    omega

/-- `do_mkdir` of a directory that is there changes nothing. -/
theorem safe_doMkdir_at (hP : Stable D d own i P)
    (hat : ∀ fs, Store fs D d → ∃ l, fs.At path l) (hx : Knows D d i P x) :
    (Calls.doMkdir path).Safe (markedCall host m i) (contract m D d own limited t₀ i)
      (fun status y => status = 0 ∧ Knows D d i P y) x := by
  refine safe_look trivial hP hx fun fs pend hs hp => ?_
  obtain ⟨l, hl⟩ := hat fs hs
  obtain ⟨n, hn⟩ := hl.stat_dir
  rw [sysCall, hn]
  exact safe_ret hP ⟨hs, hp⟩ fun y hy => ⟨rfl, hy⟩

/-- A directory is there, or is made, by this client or another one. -/
theorem safe_doMkdir (hc : ValidName c) (hP : Stable D d own i P) (hQ : Stable D d own i Q)
    (hat : ∀ fs w, Store fs D d → P fs.tree w → fs.At path p)
    (hmd : ∀ fs, Store fs D d → fs.tree.get (c :: p) = none ∨ fs.tree.isDir (c :: p))
    (hdir : ∀ fs w, Store fs D d → P fs.tree w → fs.tree.isDir (c :: p) → Q fs.tree w)
    (hmade : ∀ fs fs' w, Store fs D d → P fs.tree w → fs.tree.isDir (c :: p) = false →
      fs'.cwd = fs.cwd → fs.tree.Updated fs'.tree (c :: p) (some newDir) →
      Advances D d (others own i) fs fs' ∧ Q fs'.tree (w.erase p) ∧
        (limited → c.head? = some dot ∨ p ∈ w)) (hx : Knows D d i P x) :
    (Calls.doMkdir (joinName path c)).Safe (markedCall host m i)
      (contract m D d own limited t₀ i) (fun status y => status = 0 ∧ Knows D d i Q y) x := by
  refine safe_look trivial hP hx fun fs pend hs hp => ?_
  have hent : enter p c = c :: p := enter_plain hc.1 p
  have hlink : fs.tree.NoLink (enter p c) := by
    rw [hent]
    rcases hmd fs hs with hn | hd
    · simp [NoLink, hn]
    · exact noLink_of_isDir hd
  have hstat := (hat fs _ hs hp).stat_entry hc.2.1 hlink
  rw [hent] at hstat
  rcases hmd fs hs with hn | hd
  · have hreply : ∃ err, fs.stat (joinName path c) = .error err := by
      rw [hstat, nodeAt, hn]
      exact ⟨_, rfl⟩
    obtain ⟨err, he⟩ := hreply
    rw [sysCall, he]
    rintro ⟨fs₁, pend₁⟩ hr
    obtain ⟨hs₁, hp₁⟩ := Knows.rely hP ⟨hs, hp⟩ hr
    have hpath := hat fs₁ _ hs₁ hp₁
    rcases mkdir_entry hpath hc (hmd fs₁ hs₁) with ⟨hd, hm⟩ | ⟨hnone, fs₂, hm, hcwd, hu⟩
    · -- Another client was faster.
      have hcall : markedCall host m i (.mkdir (joinName path c)) (fs₁, pend₁) =
          ((fs₁, pend₁), .error .eexist) := by
        simp only [markedCall, sysCall, mark, hm]
      rw [hcall]
      refine ⟨⟨fun _ => ⟨Advances.refl hs₁, fun _ => id⟩, fun _ _ => rfl⟩, ?_⟩
      exact safe_ret hQ ⟨hs₁, hdir fs₁ _ hs₁ hp₁ hd⟩ fun y hy => ⟨by simp, hy⟩
    · have hcall : markedCall host m i (.mkdir (joinName path c)) (fs₁, pend₁) =
          ((fs₂, Function.update pend₁ i ((pend₁ i).erase p)), .ok ()) := by
        simp only [markedCall, sysCall, mark, hm, trimSlashes_joinName hc.component,
          hpath.resolve_nofollow hc, List.tail_cons]
      obtain ⟨hadv, hq, hroom⟩ := hmade fs₁ fs₂ _ hs₁ hp₁ (by simp [FileTree.isDir, hnone]) hcwd hu
      rw [hcall]
      refine ⟨⟨fun _ => ⟨hadv, fun hlim hw => within_made hw hu (hroom hlim)⟩,
        fun j hj => Function.update_of_ne hj _ _⟩, ?_⟩
      exact safe_ret hQ ⟨hadv.store, by simpa using hq⟩ fun y hy => ⟨rfl, hy⟩
  · obtain ⟨n, hn⟩ := isDir_iff.1 hd
    rw [nodeAt, hn] at hstat
    rw [sysCall, hstat]
    exact safe_ret hQ ⟨hs, hdir fs _ hs hp hd⟩ fun y hy => ⟨rfl, hy⟩

/-- The client may put the key at `l`, and this directory on the way is there. -/
def OnWay (m : ℕ) (d : Loc) (keys : Set Key) (e : DotFreeKey → Attr → Option Bytes)
    (k : DotFreeKey) (policy : TIDBProcesses) (j : ℕ) (l p : Loc) (t : FileTree Xattrs)
    (w : Finset Loc) : Prop :=
  Chosen m d keys e k policy j l t w ∧ t.isDir p

theorem stable_onWay : Stable D d own i (OnWay m d (own i) e k policy j l p) :=
  (stable_chosen e policy j l).and (stable_isDir p)

section

variable (hl : levelAt k.val j = some (ns, r))

include hl

/-- A partition on the way to the key is made. -/
theorem safe_doMkdir_part {ns' rest : List Name} (hns : ns = ns' ++ c :: rest)
    (hx : Knows D d i (OnWay m d (own i) e k policy j (r :: (ns.reverse ++ d)) (ns'.reverse ++ d))
      x) :
    (Calls.doMkdir (joinName (ns'.foldl joinName D) c)).Safe (markedCall host m i)
      (contract m D d own limited t₀ i) (fun status y => status = 0 ∧
        Knows D d i (OnWay m d (own i) e k policy j (r :: (ns.reverse ++ d))
          (c :: (ns'.reverse ++ d))) y) x := by
  obtain ⟨r', hl'⟩ := levelAt_prefix hl (show ns' ++ [c] <+: ns from ⟨rest, by simp [hns]⟩)
  have hparts := k.level_parts hl' (DotFreeKey.level hl').1
  have hpart : PartAt d k.toKey (ns'.length + 1) (c :: (ns'.reverse ++ d)) := by
    simpa using partAt_level (d := d) hl'
  refine safe_doMkdir (hparts c (by simp)).1 stable_onWay stable_onWay (fun fs w hs h =>
    hs.isAt.names (fun n hn => (hparts n (by simp [hn])).1) h.2)
    (fun fs hs => hs.layout.part_missing_or_dir hpart) (fun fs w hs h hd => ⟨h.1, hd⟩)
    (fun fs fs' w hs h hno hc hu => ?_) hx
  refine ⟨hs.part_made hpart hc hu, ⟨h.1.advances (hs.part_made hpart hc hu) fun hmem => ?_,
    (isDir_made hu).2 (Or.inr rfl)⟩, fun _ => Or.inl (hparts c (by simp)).2⟩
  -- It is made in one before that of the key.
  refine Finset.mem_erase.2 ⟨fun he => ?_, hmem⟩
  have := congrArg List.length he
  simp only [hns, List.tail_cons, List.reverse_append, List.reverse_cons, List.length_append,
    List.length_reverse, List.length_singleton] at this
  omega

variable (hr : r ≠ []) (hfree : k.toKey ∉ others own i) (hlim : limited → policy ≠ .dkIgnored)

include hr hfree hlim

/-- The directory of the key is made, with the permission for it. -/
theorem safe_doMkdir_home
    (hx : Knows D d i (OnWay m d (own i) e k policy j (r :: (ns.reverse ++ d)) (ns.reverse ++ d))
      x) :
    (Calls.doMkdir (joinName (ns.foldl joinName D) r)).Safe (markedCall host m i)
      (contract m D d own limited t₀ i) (fun status y => status = 0 ∧
        Knows D d i (OnWay m d (own i) e k policy j (r :: (ns.reverse ++ d))
          (r :: (ns.reverse ++ d))) y) x := by
  have hhome := homeAt_level (d := d) hl hr
  refine safe_doMkdir (Key.level_rest hl hr (DotFreeKey.level hl).2) stable_onWay stable_onWay
    (fun fs w hs h => hs.isAt.names
      (fun n hn => (k.level_parts hl (DotFreeKey.level hl).1 n hn).1) h.2)
    (fun fs hs => hs.layout.home_missing_or_dir hhome) (fun fs w hs h hd => ⟨h.1, hd⟩)
    (fun fs fs' w hs h hno hc hu => ?_) hx
  have hdir : fs'.tree.isDir (r :: (ns.reverse ++ d)) := (isDir_made hu).2 (Or.inr rfl)
  refine ⟨hs.home_made hhome hfree hc hu,
    ⟨⟨?_, ?_, ?_, Or.inr (Or.inl hdir)⟩, hdir⟩, fun hlim' => ?_⟩
  · exact h.1.kept.home_made hs hhome hc hu fun hk => ⟨h.1.before hk, h.1.only hk⟩
  · exact fun hk => findVisits_home_made hhome hu (h.1.before hk)
  · exact fun hk => (h.1.only hk).home_made hhome hu
  · rcases h.1.room with hpol | hd | hmem
    · exact absurd hpol (hlim hlim')
    · simp [hno] at hd
    · exact Or.inr hmem

/-- `ForceDirectories` makes the partitions and the key directory that the search has chosen, one
entry at a time. -/
theorem safe_forceDirectories
    (hx : Knows D d i (Chosen m d (own i) e k policy j (r :: (ns.reverse ++ d))) x) :
    (Calls.forceDirectories (keyDir D ns r)).Safe (markedCall host m i)
      (contract m D d own limited t₀ i) (fun _ y => Knows D d i (OnWay m d (own i) e k policy j
        (r :: (ns.reverse ++ d)) (r :: (ns.reverse ++ d))) y) x := by
  have hlev := DotFreeKey.level hl
  have hmade := Calls.safe_forceDirectories (markedCall host m i)
    (k := contract m D d own limited t₀ i)
    (A := fun ns' => Knows D d i (OnWay m d (own i) e k policy j (r :: (ns.reverse ++ d))
      (ns'.reverse ++ d))) (x := x) (ns ++ [r]) hx.1.isAt.ne_nil (by simp)
    (fun c hc => ((home_names (d := d) hl hlev.1 hr hlev.2).1 c hc).component)
    (fun a b he ha y hy => safe_doMkdir_at stable_onWay
      (fun fs hs => At.of_append_slash (he ▸ at_withSlash hs.isAt) ha) hy)
    (fun ns' c rest he y hy => ?_) ⟨hx.1, hx.2, hx.1.isAt.isDir⟩
  · simpa [keyDir] using hmade
  · rw [List.foldl_append]
    rcases List.eq_nil_or_concat' rest with rfl | ⟨rest, b, rfl⟩
    · obtain ⟨rfl, hc⟩ := List.append_inj' he rfl
      obtain rfl := List.singleton_inj.1 hc
      simpa using safe_doMkdir_home hl hr hfree hlim hy
    · rw [← List.cons_append, ← List.append_assoc] at he
      simpa using safe_doMkdir_part hl (List.append_inj' he rfl).1 hy

end

/-! ## Files -/

theorem within_written {v : Bytes} {y : Xattrs} (hw : Within m d t₀ (fs, pend))
    (hu : fs.tree.Updated fs'.tree l (some (.file v y))) : Within m d t₀ (fs', pend) :=
  fun q hq => (Nat.add_le_add_right (visibleCount_written hu q) _).trans (hw q hq)

/-- The file of an attribute is written. -/
theorem guar_written {a : Attr} {v : Bytes} {y : Xattrs} (hl : HomeAt d k.toKey j l)
    (hfree : k.toKey ∉ others own i) (hc : fs'.cwd = fs.cwd)
    (hu : fs.tree.Updated fs'.tree (a.name :: l) (some (.file v y))) :
    (contract m D d own limited t₀ i).guar (fs, pend) (fs', pend) :=
  ⟨fun hs => ⟨hs.attr_written hl hfree hc hu, fun _ hw => within_written hw hu⟩, fun _ _ => rfl⟩

/-- The key is at `l`, with an empty file for the attribute, if the client can rely on it. -/
def Emptied (m : ℕ) (d : Loc) (keys : Set Key) (e : DotFreeKey → Attr → Option Bytes)
    (k : DotFreeKey) (a : Attr) (l : Loc) (t : FileTree Xattrs) (_ : Finset Loc) : Prop :=
  Kept m d keys (setValue e k a []) t ∧ t.isDir l ∧
    (k.toKey ∈ keys → t.fileAt (a.name :: l) = some [])

theorem stable_emptied {a : Attr} (hl : HomeAt d k.toKey j l) :
    Stable D d own i (Emptied m d (own i) e k a l) := by
  intro fs fs' w w' ha _ h
  refine ⟨ha.kept h.1, ha.mono l h.2.1, fun hk => ?_⟩
  rw [fileAt, ha.untouched k.toKey hk j l hl _ (List.suffix_cons _ _)]
  exact h.2.2 hk

section

variable {a : Attr} {v : Bytes} (hl : levelAt k.val j = some (ns, r)) (hr : r ≠ [])
  (hfree : k.toKey ∉ others own i)

include hl hr hfree

/-- `SetDirValue` stores the put's value in the directory that was made. -/
theorem safe_setDirValue (hx : Knows D d i (fun t _ => Kept m d (own i) e t ∧
      t.isDir (r :: (ns.reverse ++ d))) x) :
    (Calls.setDirValue (keyDir D ns r) v a.val).Safe (markedCall host m i)
      (contract m D d own limited t₀ i) (fun written y => written = true ∧
        Knows D d i (fun t _ => Kept m d (own i) (setValue e k a v) t) y) x := by
  have hlev := DotFreeKey.level hl
  have hhome := homeAt_level (d := d) hl hr
  have hvalid := (home_names (d := d) hl hlev.1 hr hlev.2).1
  rintro ⟨fs, pend⟩ hr'
  obtain ⟨hs, hkept, hd⟩ := hx.rely (stable_kept.and (stable_isDir _)) hr'
  have hresolve : fs.resolve true (makeAttrFileName (keyDir D ns r) a.val) =
      .ok (a.name :: r :: (ns.reverse ++ d)) :=
    resolve_attr (d := d) ⟨ns ++ [r], hvalid, by simp, Or.inl rfl⟩ hs.isAt hs.layout.links hd
  obtain ⟨t', z, ht', hu⟩ := writeFile_attr (hs.layout.links _ (hhome.below.cons a.name))
    (hs.layout.not_isDir_attr hhome.below.1) hd []
  let fs' : FileSystem := { fs with tree := t' }
  have hu' : fs.tree.Updated fs'.tree (a.name :: r :: (ns.reverse ++ d)) (some (.file [] z)) := hu
  have hcall : markedCall host m i (.creat (makeAttrFileName (keyDir D ns r) a.val)) (fs, pend) =
      ((fs', pend), .ok (a.name :: r :: (ns.reverse ++ d))) := by
    rw [markedCall, sysCall, FileSystem.write, modify_eq hresolve ht', hresolve]
    rfl
  rw [hcall]
  refine ⟨guar_written hhome hfree rfl hu', ?_⟩
  have hadv : Advances D d (others own i) fs fs' := hs.attr_written hhome hfree rfl hu'
  have hempty : Emptied m d (own i) e k a (r :: (ns.reverse ++ d)) fs'.tree (pend i) :=
    ⟨hkept.attr_written hs hhome rfl hu', hadv.mono _ hd, fun _ => by rw [fileAt, hu', if_pos rfl]⟩
  rintro ⟨fs₁, pend₁⟩ hr₁
  obtain ⟨hs₁, hkept₁, hd₁, hfile₁⟩ := Knows.rely (stable_emptied hhome) ⟨hadv.store, hempty⟩ hr₁
  -- If others write to the attribute too, the client does not know what it holds.
  have hother : ∀ w, (k.toKey ∈ own i → w = v) → ∀ k' : DotFreeKey, k'.toKey ∈ own i → ∀ a',
      setValue e k a w k' a' = setValue e k a v k' a' := by
    intro w hw k' hk' a'
    by_cases hk : k' = k
    · rw [hw (hk ▸ hk')]
    · simp [setValue, hk]
  have hlen : decide (v.length = v.length) = true := by simp
  rcases writeStart_cases (a := a) (v := v) (hs₁.layout.links _ (hhome.below.cons a.name)) with
    ⟨hnone, hwrite⟩ | ⟨old, y, hold, hc, hu₁⟩
  · have hk : k.toKey ∉ own i := fun hk => by simp [hfile₁ hk] at hnone
    have hcall : markedCall host m i (.write (a.name :: r :: (ns.reverse ++ d)) v) (fs₁, pend₁) =
        ((fs₁, pend₁), v.length) := by
      rw [markedCall, sysCall, hwrite]
      rfl
    rw [hcall]
    refine ⟨⟨fun h => ⟨Advances.refl h, fun _ => id⟩, fun _ _ => rfl⟩, ?_⟩
    exact safe_ret stable_kept ⟨hs₁, hkept₁.congr (hother [] fun h => absurd h hk)⟩
      fun y hy => ⟨hlen, hy⟩
  · refine ⟨guar_written hhome hfree hc hu₁, ?_⟩
    have hkept₂ := hkept₁.attr_written hs₁ hhome hc hu₁
    rw [setValue_setValue] at hkept₂
    refine safe_ret stable_kept ⟨(hs₁.attr_written hhome hfree hc hu₁).store,
      hkept₂.congr (hother _ fun hk => ?_)⟩ fun y hy => ⟨hlen, hy⟩
    rw [hfile₁ hk, Option.some.injEq] at hold
    simp [← hold]

variable (hlim : limited → policy ≠ .dkIgnored)

include hlim

/-- A put succeeds once it has a place. -/
theorem safe_iPutInFile
    (hx : Knows D d i (Chosen m d (own i) e k policy j (r :: (ns.reverse ++ d))) x) :
    (Calls.iPutInFile (keyDir D ns r) v a.val).Safe (markedCall host m i)
      (contract m D d own limited t₀ i) (fun result y => result = 0 ∧
        Knows D d i (fun t _ => Kept m d (own i) (setValue e k a v) t) y) x := by
  have hlev := DotFreeKey.level hl
  have hhome := homeAt_level (d := d) hl hr
  have hvalid := (home_names (d := d) hl hlev.1 hr hlev.2).1
  -- Both ways end with writing the file.
  have hset : ∀ y, Knows D d i (OnWay m d (own i) e k policy j (r :: (ns.reverse ++ d))
      (r :: (ns.reverse ++ d))) y →
      (Calls.setDirValue (keyDir D ns r) v a.val >>= fun written =>
        (pure (if written then 0 else 1) : Program ℤ)).Safe (markedCall host m i)
        (contract m D d own limited t₀ i) (fun result y => result = 0 ∧
          Knows D d i (fun t _ => Kept m d (own i) (setValue e k a v) t) y) y := by
    intro y hy
    refine Prog.Safe.bind ((safe_setDirValue hl hr hfree ⟨hy.1, hy.2.1.kept, hy.2.2⟩).mono ?_)
    rintro written z ⟨rfl, hz⟩
    exact safe_ret stable_kept hz fun y hy => ⟨rfl, hy⟩
  refine Prog.Safe.bind (safe_look trivial (stable_chosen ..) hx fun fs pend hs hp => ?_)
  have hget : ∀ n, fs.stat (keyDir D ns r) = .ok n →
      fs.tree.get (r :: (ns.reverse ++ d)) = some n :=
    fun n hn => by simpa using (hs.isAt.stat_names hvalid hs.layout.links n).1 hn
  cases hstat : fs.stat (keyDir D ns r) with
  | error err =>
    rw [sysCall, hstat]
    refine fun y hr' => Prog.Safe.bind ((safe_forceDirectories hl hr hfree hlim
      (Knows.rely (stable_chosen ..) ⟨hs, hp⟩ hr')).mono fun _ => hset)
  | ok n =>
    rcases hs.layout.home_missing_or_dir hhome with hnone | hd
    · simp [hget n hstat] at hnone
    · obtain ⟨z, hz⟩ := isDir_iff.1 hd
      rw [hget n hstat, Option.some.injEq] at hz
      subst hz
      rw [sysCall, hstat]
      exact fun y hr' => hset y (Knows.rely stable_onWay ⟨hs, hp, hd⟩ hr')

end

/-- A put stores its value and returns 0, or finds no place and returns something else. -/
theorem safe_iPut {a : Attr} {v : Bytes} (hm : 0 < m)
    (hpol : policy = .dkIgnored ∨ policy = .dkStopped) (hfree : k.toKey ∉ others own i)
    (hlim : limited → policy ≠ .dkIgnored)
    (hx : Knows D d i (fun t _ => Kept m d (own i) e t) x) :
    (Calls.iPut host m D policy k.val v a.val).Safe (markedCall host m i)
      (contract m D d own limited t₀ i) (fun result y =>
        Knows D d i (fun t _ => Kept m d (own i)
          (if result = 0 then setValue e k a v else e) t) y) x := by
  have hm' : (m : ℤ) > 0 := by exact_mod_cast hm
  rw [Calls.iPut, if_pos hm', sdsJoinPathLen_eq hx.1.isAt.ne_nil]
  refine Prog.Safe.bind ((safe_iFindKeyDirToPut hm hpol hx).mono ?_)
  rintro found y (⟨err, he, rfl, hy⟩ | ⟨j, ns, r, hl, hr, rfl, hy⟩)
  · exact safe_ret stable_kept hy fun z hz => by rwa [if_neg he]
  · refine (safe_iPutInFile hl hr hfree hlim hy).mono ?_
    rintro result z ⟨rfl, hz⟩
    rwa [if_pos rfl]

/-! ## Clients -/

/-- One put after another. -/
def puts (host : Host) (iDBMaxPageCount : ℤ) (aDir : Bytes) : List Put → Program (List ℤ)
  | [] => pure []
  | p :: ps => do
    let result ← Calls.iPut host iDBMaxPageCount aDir p.policy p.key.val p.value p.attr.val
    let results ← puts host iDBMaxPageCount aDir ps
    pure (result :: results)

/-- The log of puts that returned these results. -/
def putLog (ps : List Put) (results : List ℤ) : List (Op × Bool) :=
  ((ps.zip results).map fun pr => (Op.put pr.1, decide (pr.2 = 0))).reverse

/-- The attributes of the keys are what the log says. -/
def Logged (m : ℕ) (d : Loc) (keys : Set Key) (log : List (Op × Bool)) (t : FileTree Xattrs)
    (_ : Finset Loc) : Prop :=
  Kept m d keys (fun k a => lastValue k a log) t

theorem stable_logged {log : List (Op × Bool)} : Stable D d own i (Logged m d (own i) log) :=
  stable_kept

/-- The last values after one more put that is logged with its success. -/
theorem lastValue_put (p : Put) (result : ℤ) (log : List (Op × Bool)) :
    (fun k a => lastValue k a ((Op.put p, decide (result = 0)) :: log)) =
      if result = 0 then setValue (fun k a => lastValue k a log) p.key p.attr p.value
      else fun k a => lastValue k a log := by
  funext k a
  by_cases hr : result = 0
  · simp [hr, lastValue, setValue, eq_comm]
  · simp [hr, lastValue]

/-- A client that puts key after key reads what it has put, whatever the others do to their own
keys. -/
theorem safe_puts {ps : List Put} {log : List (Op × Bool)} (hm : 0 < m)
    (hfree : ∀ p ∈ ps, p.key.toKey ∉ others own i)
    (hlim : limited → ∀ p ∈ ps, p.policy ≠ .dkIgnored)
    (hx : Knows D d i (Logged m d (own i) log) x) :
    (puts host m D ps).Safe (markedCall host m i) (contract m D d own limited t₀ i)
      (fun results y => Knows D d i (Logged m d (own i) (putLog ps results ++ log)) y) x := by
  induction ps generalizing log x with
  | nil => exact safe_ret stable_logged hx fun y hy => hy
  | cons p ps ih =>
    refine Prog.Safe.bind ((safe_iPut hm p.ignoredOrStopped (hfree p List.mem_cons_self)
      (fun h => hlim h p List.mem_cons_self) hx).mono fun result y hy => ?_)
    have hlog : Knows D d i (Logged m d (own i) ((Op.put p, decide (result = 0)) :: log)) y :=
      ⟨hy.1, by rw [Logged, lastValue_put]; exact hy.2⟩
    refine Prog.Safe.bind ((ih (fun q hq => hfree q (List.mem_cons_of_mem p hq))
      (fun h q hq => hlim h q (List.mem_cons_of_mem p hq)) hlog).mono fun results z hz => ?_)
    exact safe_ret stable_logged hz fun z' hz' => by simpa [putLog] using hz'

/-- Two clients put a key each. -/
def bothPages (first : Bool) : List Put :=
  [⟨if first then keyX else keyAb, .default, if first then [49] else [50], .dkStopped, Or.inr rfl⟩]

/-- The clients take turns. -/
def alternate (n : ℕ) : Bool :=
  n % 2 = 0

theorem fair_alternate : Fair alternate := by
  intro i n
  by_cases h : alternate n = i
  · exact ⟨0, h⟩
  · refine ⟨1, ?_⟩
    cases i <;> simp only [alternate, decide_eq_true_eq, decide_eq_false_iff_not] at h ⊢ <;> omega

variable (host) in
/-- The calls of all clients in the order of a schedule. -/
def runPuts (m : ℕ) (aDir : Bytes) (clients : ι → List Put) (fs : FileSystem) (sched : List ι) :
    Config ι SysCall SysCall.Reply FileSystem (List ℤ) :=
  run (fun _ => sysCall host) ⟨fs, fun i => puts host m aDir (clients i)⟩ sched

/-- The keys that no other client puts. -/
def ownKeys (clients : ι → List Put) (i : ι) : Set Key :=
  {k | ∀ j, j ≠ i → ∀ p ∈ clients j, p.key.toKey ≠ k}

section

variable {clients : ι → List Put}

theorem not_mem_others (i : ι) : ∀ p ∈ clients i, p.key.toKey ∉ others (ownKeys clients) i := by
  rintro p hp ⟨j, hji, hj⟩
  exact hj i hji.symm p hp rfl

/-- What a client guarantees, every other one relies on. -/
theorem rely_of_guar {j : ι} (hij : i ≠ j) {x y : FileSystem × (ι → Finset Loc)}
    (h : (contract m D d own limited t₀ i).guar x y) :
    (contract m D d own limited t₀ j).rely x y :=
  ⟨fun hs => (h.1 hs).1.anti fun _ hk => ⟨j, hij.symm, hk⟩, h.2 j hij.symm⟩

/-- The permissions are nothing that the clients see. -/
theorem runPuts_eq (sched : List ι) : runPuts host m D clients fs sched =
    let x := run (markedCall host m) ⟨(fs, fun _ => ∅), fun i => puts host m D (clients i)⟩ sched
    ⟨x.shared.1, x.prog⟩ :=
  run_forget Prod.fst (fun _ _ _ => rfl)
    ⟨(fs, fun _ => ∅), fun i => puts host m D (clients i)⟩ sched

/-- With a fair schedule all clients get done. -/
theorem exists_all_puts {σ : ℕ → ι} (hσ : Fair σ) : ∃ N, ∃ results : ι → List ℤ, ∀ n, N ≤ n → ∀ i,
    (runPuts host m D clients fs (turns σ n)).prog i = .ret (results i) :=
  exists_all_returned hσ _

/-- Puts with `dkStopped` go over the limit by the number of the other clients at most. -/
theorem run_puts_pages (h : Store fs D d) (hm : 0 < m)
    (hstop : ∀ i, ∀ p ∈ clients i, p.policy = .dkStopped) (sched : List ι) (hp : d <:+ p) :
    visibleCount (runPuts host m D clients fs sched).shared.tree p ≤
      max (visibleCount fs.tree p) (m - 1 + Fintype.card ι) := by
  have hsafe : ∀ i, (puts host m D (clients i)).Safe (markedCall host m i)
      (contract m D d (fun _ => ∅) True fs.tree i) (fun _ _ => True) (fs, fun _ => ∅) := by
    intro i
    have hknows : Knows D d i (Logged m d ∅ []) (fs, fun _ : ι => ∅) :=
      ⟨h, fun _ hk => hk.elim, fun _ hk => hk.elim⟩
    refine (safe_puts hm ?_ ?_ hknows).mono fun _ _ _ => trivial
    · rintro q - ⟨j, -, hj⟩
      exact hj
    · rintro - q hq
      simp [hstop i q hq]
  have hrun := run_invariant (fun y => Store y.1 D d ∧ Within m d fs.tree y)
    (fun i j hij _ _ => rely_of_guar hij)
    (x := ⟨(fs, fun _ => ∅), fun i => puts host m D (clients i)⟩) hsafe
    (fun i y z hg hy => ⟨(hg.1 hy.1).1.store, (hg.1 hy.1).2 trivial hy.2⟩)
    ⟨h, fun q _ => by simp [waiting]⟩ sched
  rw [runPuts_eq]
  exact le_trans (Nat.le_add_right _ _) (hrun.2 p hp)

/-- Both find the empty directory not full, and make a directory in it. -/
theorem bothPages_over :
    visibleCount (runPuts plainHost 1 [slash] bothPages rootBase.fs
        (turns alternate 20)).shared.tree [] = 2 ∧
      visibleCount (runPuts plainHost 1 [slash] bothPages rootBase.fs
        (turns alternate 20)).shared.tree [] ≤
        max (visibleCount rootBase.fs.tree []) (1 - 1 + Fintype.card Bool) :=
  ⟨by decide +kernel, run_puts_pages Base.store_start Nat.one_pos (by decide) _ List.nil_suffix⟩

/-- After a run of one client alone, all know what it has stored. -/
theorem logged_run (B : Base) {ops : List Op} (hops : ∀ op ∈ ops, op.KeepsKeys) :
    Knows B.dir B.loc i (Logged B.maxPageCount B.loc (own i) (B.run ops).log)
      ((B.run ops).fs, pend) :=
  ⟨(B.grown_run hops).store, fun k _ => (B.grown_run hops).placed k,
    fun k _ a v => (remembers_run hops k a v).symm⟩

/-- A client that is done reads what it has put last of a key that no other client puts. -/
theorem run_puts_get (B : Base) {ops : List Op} (hops : ∀ op ∈ ops, op.KeepsKeys)
    {sched : List ι} {results : List ℤ}
    (hret : (runPuts B.host B.maxPageCount B.dir clients (B.run ops).fs sched).prog i =
      .ret results) (hk : ∀ j, j ≠ i → ∀ p ∈ clients j, p.key ≠ k) (a : Attr) :
    iGet B.host B.maxPageCount
        (runPuts B.host B.maxPageCount B.dir clients (B.run ops).fs sched).shared B.dir k.val a.val
        storeInFile =
      lastValue k a (putLog (clients i) results ++ (B.run ops).log) := by
  have hstart : ∀ i, (puts B.host B.maxPageCount B.dir (clients i)).Safe
      (markedCall B.host B.maxPageCount i)
      (contract B.maxPageCount B.dir B.loc (ownKeys clients) False B.fs.tree i)
      (fun results => Knows B.dir B.loc i (Logged B.maxPageCount B.loc (ownKeys clients i)
        (putLog (clients i) results ++ (B.run ops).log))) ((B.run ops).fs, fun _ => ∅) :=
    fun i => safe_puts B.pos (not_mem_others i) False.elim (logged_run B hops)
  have hsafe := run_safe
    (x := ⟨((B.run ops).fs, fun _ => ∅), fun i => puts B.host B.maxPageCount B.dir (clients i)⟩)
    (fun i j hij _ _ => rely_of_guar hij) hstart sched i
  rw [runPuts_eq] at hret ⊢
  simp only at hret
  rw [hret] at hsafe
  obtain ⟨hs, hlog⟩ := hsafe.returned
  have hown : k.toKey ∈ ownKeys clients i := fun j hj p hp he =>
    hk j hj p hp (DotFreeKey.ext_key he)
  refine Option.ext fun v => ?_
  rw [hs.iGet_eq_some B.pos k.look (hlog.placed k hown).homeUnique]
  exact (hlog.values k hown a v).symm

/-- `ab` reads as it was put, whatever the client of `x` does meanwhile. -/
theorem bothPages_get : ∃ n results,
    (runPuts plainHost 1 [slash] bothPages (rootBase.run []).fs (turns alternate n)).prog false =
      .ret results ∧
    iGet plainHost 1 (runPuts plainHost 1 [slash] bothPages (rootBase.run []).fs
        (turns alternate n)).shared [slash] keyAb.val Attr.default.val storeInFile =
      lastValue keyAb .default (putLog (bothPages false) results ++ (rootBase.run []).log) := by
  obtain ⟨n, results, hret⟩ := exists_all_puts fair_alternate
  exact ⟨n, results false, hret n le_rfl false,
    run_puts_get rootBase (by simp) (hret n le_rfl false) (by decide) .default⟩

end

end Paged

end Idb
