import Idb.PagedCalls
import Idb.PutReads
import Idb.PutSteps

/-!
# Looking for a place while others put

With a page limit, a put counts before it makes a directory, and between the two others may make
theirs. What a client has found not full may be over the limit when it comes to it. So a client
that found room has a permission to make one directory there, and keeps it until it has made it
(`mark`). With one more for each permission no directory has too many (`Within`).

Each client has keys that no other puts. The others leave their places alone, so its client knows
what their attributes are all the time (`contract`). Here the search for a place is shown safe : it
fails, or ends at a level where the client has a permission, or may do without, with all levels
before full (`safe_iFindKeyDirToPut`).
-/

set_option linter.unusedSectionVars false

namespace Idb

open Posix FileSystem FileTree Interleaving

namespace Paged

/-! ## Permissions -/

section

variable {ι : Type} [Fintype ι] [DecidableEq ι]

/-- How many clients may still make a directory in `p`. -/
def waiting (pend : ι → Finset Loc) (p : Loc) : ℕ :=
  (Finset.univ.filter fun i => p ∈ pend i).card

/-- A client that finds a directory not full may make one in it. -/
def look (fs : FileSystem) (m : ℕ) (path : Bytes) (w : Finset Loc) : Finset Loc :=
  match fs.resolve true path with
  | .error _ => w
  | .ok p => if visibleCount fs.tree p < m then insert p w else w

/-- Who may make a directory where, after a call of a client. -/
def mark (m : ℕ) (i : ι) (fs : FileSystem) (pend : ι → Finset Loc) : SysCall → ι → Finset Loc
  | .stat path => Function.update pend i (look fs m path (pend i))
  | .openDir path => Function.update pend i (look fs m path (pend i))
  | .mkdir path =>
    match fs.mkdir path, fs.resolve false (trimSlashes path) with
    | .ok _, .ok l => Function.update pend i ((pend i).erase l.tail)
    | _, _ => pend
  | _ => pend

/-- A system call of a client, with the change of the permissions. -/
def markedCall (host : Host) (m : ℕ) (i : ι) (c : SysCall)
    (x : FileSystem × (ι → Finset Loc)) : (FileSystem × (ι → Finset Loc)) × c.Reply :=
  (((sysCall host c x.1).1, mark m i x.1 x.2 c), (sysCall host c x.1).2)

/-- With one more for every client that may still make one, there are not too many directories. -/
def Within (m : ℕ) (d : Loc) (t₀ : FileTree Xattrs) (x : FileSystem × (ι → Finset Loc)) : Prop :=
  ∀ p, d <:+ p →
    visibleCount x.1.tree p + waiting x.2 p ≤ max (visibleCount t₀ p) (m - 1 + Fintype.card ι)

variable {pend : ι → Finset Loc} {i : ι} {p q : Loc} {s : Finset Loc} {m : ℕ} {fs fs' : FileSystem}
  {d : Loc} {t₀ : FileTree Xattrs} {path : Bytes}

theorem waiting_le (pend : ι → Finset Loc) (p : Loc) : waiting pend p ≤ Fintype.card ι :=
  Finset.card_le_univ _

theorem waiting_update (h : p ∈ s ↔ p ∈ pend i) :
    waiting (Function.update pend i s) p = waiting pend p := by
  refine congrArg Finset.card (Finset.filter_congr fun j _ => ?_)
  by_cases hj : j = i
  · rw [hj, Function.update_self, h]
  · rw [Function.update_of_ne hj]

/-- Spending one look takes it from the looks that are waiting. -/
theorem waiting_erase (pend : ι → Finset Loc) (i : ι) (p : Loc) :
    waiting (Function.update pend i ((pend i).erase p)) p + (if p ∈ pend i then 1 else 0) =
      waiting pend p := by
  split_ifs with h
  · have hfilter : (Finset.univ.filter fun j => p ∈ Function.update pend i ((pend i).erase p) j) =
        (Finset.univ.filter fun j => p ∈ pend j).erase i := by
      ext j
      by_cases hj : j = i
      · simp [hj]
      · simp [hj]
    rw [waiting, hfilter, Finset.card_erase_of_mem (by simpa using h), waiting]
    have := Finset.card_pos.2 ⟨i, show i ∈ Finset.univ.filter fun j => p ∈ pend j by simpa using h⟩
    omega
  · exact waiting_update (by simp [h])

/-- A look is added, and none is lost. -/
theorem subset_look (fs : FileSystem) (m : ℕ) (path : Bytes) (w : Finset Loc) :
    w ⊆ look fs m path w := by
  rw [look]
  split
  · exact Finset.Subset.refl w
  · split_ifs
    · exact Finset.subset_insert _ w
    · exact Finset.Subset.refl w

theorem mem_look (h : fs.resolve true path = .ok p) (hm : visibleCount fs.tree p < m) :
    p ∈ look fs m path s := by
  rw [look, h]
  dsimp only
  rw [if_pos hm]
  exact Finset.mem_insert_self p s

/-- Looking keeps the pages within their bound. -/
theorem within_look (h : Within m d t₀ (fs, pend)) :
    Within m d t₀ (fs, Function.update pend i (look fs m path (pend i))) := by
  intro p hp
  rw [look]
  split
  · rw [Function.update_eq_self]
    exact h p hp
  · next q hq =>
    split_ifs with hlt
    · by_cases hpq : p = q
      · subst hpq
        have := waiting_le (Function.update pend i (insert p (pend i))) p
        exact le_max_of_le_right (by dsimp only at this ⊢; omega)
      · dsimp only
        rw [waiting_update (by simp [hpq])]
        exact h p hp
    · rw [Function.update_eq_self]
      exact h p hp

/-! ## Contracts -/

variable (m : ℕ) (D : Bytes) (d : Loc) (own : ι → Set Key) (limited : Prop)
  (t₀ : FileTree Xattrs)

/-- The keys of the other clients. -/
def others (i : ι) : Set Key :=
  {k | ∃ j, j ≠ i ∧ k ∈ own j}

/-- The others put no key that a client has for its own. -/
def contract (i : ι) : Contract (FileSystem × (ι → Finset Loc)) where
  rely x y := (Store x.1 D d → Advances D d (own i) x.1 y.1) ∧ y.2 i = x.2 i
  guar x y := (Store x.1 D d → Advances D d (others own i) x.1 y.1 ∧
    (limited → Within m d t₀ x → Within m d t₀ y)) ∧ ∀ j, j ≠ i → y.2 j = x.2 j
  refl _ := ⟨fun h => Advances.refl h, rfl⟩
  trans h h' := ⟨fun hs => (h.1 hs).trans (h'.1 (h.1 hs).store), h'.2.trans h.2⟩

/-- A store, and what a client knows of it and of its permissions. -/
def Knows (i : ι) (P : FileTree Xattrs → Finset Loc → Prop) (x : FileSystem × (ι → Finset Loc)) :
    Prop :=
  Store x.1 D d ∧ P x.1.tree (x.2 i)

/-- The others keep the fact, and so does another permission. -/
def Stable (i : ι) (P : FileTree Xattrs → Finset Loc → Prop) : Prop :=
  ∀ ⦃fs fs' w w'⦄, Advances D d (own i) fs fs' → w ⊆ w' → P fs.tree w → P fs'.tree w'

variable {m D d own limited t₀} {P : FileTree Xattrs → Finset Loc → Prop}
  {x y : FileSystem × (ι → Finset Loc)} {host : Host} {α : Type}
  {post : α → FileSystem × (ι → Finset Loc) → Prop}

theorem Knows.rely (hP : Stable D d own i P) (h : Knows D d i P x)
    (hr : (contract m D d own limited t₀ i).rely x y) : Knows D d i P y :=
  ⟨(hr.1 h.1).store, hP (hr.1 h.1) hr.2.ge h.2⟩

/-- Calls that change nothing. -/
def Looks : SysCall → Prop
  | .stat _ => True
  | .lstat _ => True
  | .openDir _ => True
  | _ => False

theorem subset_mark {c : SysCall} (hc : Looks c) : pend i ⊆ mark m i fs pend c i := by
  cases c with
  | stat path => simpa [mark] using subset_look fs m path (pend i)
  | openDir path => simpa [mark] using subset_look fs m path (pend i)
  | lstat path => exact Finset.Subset.refl _
  | _ => exact hc.elim

/-- A call that only looks is within what a client guarantees. -/
theorem guar_look {c : SysCall} (hc : Looks c) :
    (contract m D d own limited t₀ i).guar (fs, pend) (markedCall host m i c (fs, pend)).1 := by
  have hfs : (markedCall host m i c (fs, pend)).1 = (fs, mark m i fs pend c) := by
    cases c <;> first | rfl | exact hc.elim
  rw [hfs]
  refine ⟨fun hs => ⟨Advances.refl hs, fun _ hw => ?_⟩, fun j hj => ?_⟩
  · cases c with
    | stat path => exact within_look hw
    | openDir path => exact within_look hw
    | lstat path => exact hw
    | _ => exact hc.elim
  · cases c with
    | stat path => exact Function.update_of_ne hj _ _
    | openDir path => exact Function.update_of_ne hj _ _
    | lstat path => rfl
    | _ => exact hc.elim

/-- A call that only looks is safe when the rest is, for every store it may be answered from. -/
theorem safe_look {c : SysCall} {next : c.Reply → Program α} (hc : Looks c)
    (hP : Stable D d own i P) (hx : Knows D d i P x)
    (h : ∀ fs pend, Store fs D d → P fs.tree (mark m i fs pend c i) →
      (next (sysCall host c fs).2).Safe (markedCall host m i) (contract m D d own limited t₀ i)
        post (fs, mark m i fs pend c)) :
    (Prog.call c next).Safe (markedCall host m i) (contract m D d own limited t₀ i) post x := by
  rintro ⟨fs, pend⟩ hr
  obtain ⟨hs, hp⟩ := hx.rely hP hr
  have hfs : (markedCall host m i c (fs, pend)).1 = (fs, mark m i fs pend c) := by
    cases c <;> first | rfl | exact hc.elim
  refine ⟨guar_look hc, ?_⟩
  rw [hfs]
  exact h fs pend hs (hP (Advances.refl hs) (subset_mark hc) hp)

theorem safe_ret {a : α} (hP : Stable D d own i P) (hx : Knows D d i P x)
    (h : ∀ y, Knows D d i P y → post a y) :
    (Prog.ret a : Program α).Safe (markedCall host m i) (contract m D d own limited t₀ i) post x :=
  fun y hr => h y (hx.rely hP hr)

theorem Stable.and {Q : FileTree Xattrs → Finset Loc → Prop} (hP : Stable D d own i P)
    (hQ : Stable D d own i Q) : Stable D d own i fun t w => P t w ∧ Q t w :=
  fun _ _ _ _ ha hw h => ⟨hP ha hw h.1, hQ ha hw h.2⟩

theorem stable_isDir (l : Loc) : Stable D d own i fun t _ => t.isDir l :=
  fun _ _ _ _ ha _ => ha.mono l

theorem stable_full (p : Loc) : Stable D d own i fun t _ => m ≤ visibleCount t p :=
  fun _ _ _ _ ha _ h => h.trans (visibleCount_mono fun _ _ => ha.mono _)

/-! ## Looking -/

/-- `DirectoryExists` of a path that stays a directory answers that it is one. -/
theorem safe_directoryExists_at {path : Bytes} {l : Loc} (hP : Stable D d own i P)
    (hat : ∀ fs w, Store fs D d → P fs.tree w → fs.At path l) (hx : Knows D d i P x) :
    (Calls.directoryExists path).Safe (markedCall host m i) (contract m D d own limited t₀ i)
      (fun result y => result = pathIsDir ∧ Knows D d i P y) x := by
  refine safe_look trivial hP hx fun fs pend hs hp => ?_
  obtain ⟨n, hn⟩ := (hat fs _ hs hp).stat_dir
  rw [sysCall, hn]
  exact safe_ret hP ⟨hs, hp⟩ fun y hy => ⟨rfl, hy⟩

/-- What is missing has room, so the client may make a directory in it. -/
theorem safe_directoryExists {path : Bytes} {c : Name} {Q : FileTree Xattrs → Finset Loc → Prop}
    (hm : 0 < m) (hc : ValidName c) (hP : Stable D d own i P) (hQ : Stable D d own i Q)
    (hat : ∀ fs w, Store fs D d → P fs.tree w → fs.At path p)
    (hmd : ∀ fs, Store fs D d → fs.tree.get (c :: p) = none ∨ fs.tree.isDir (c :: p))
    (hno : ∀ fs w, Store fs D d → P fs.tree w → fs.tree.isDir (c :: p) = false → c :: p ∈ w →
      Q fs.tree w) (hx : Knows D d i P x) :
    (Calls.directoryExists (joinName path c)).Safe (markedCall host m i)
      (contract m D d own limited t₀ i) (fun result y =>
        (result = pathIsDir ∧ Knows D d i (fun t w => P t w ∧ t.isDir (c :: p)) y) ∨
        (result = pathIsNotExists ∧ Knows D d i Q y)) x := by
  refine safe_look trivial hP hx fun fs pend hs hp => ?_
  have hpath := hat fs _ hs hp
  have hent : enter p c = c :: p := enter_plain hc.1 p
  have hlink : fs.tree.NoLink (enter p c) := by
    rw [hent]
    rcases hmd fs hs with hn | hd
    · simp [NoLink, hn]
    · exact noLink_of_isDir hd
  have hstat := hpath.stat_entry hc.2.1 hlink
  rw [hent] at hstat
  rcases hmd fs hs with hn | hd
  · have hno' : fs.tree.isDir (c :: p) = false := by simp [FileTree.isDir, hn]
    have hmem : c :: p ∈ mark m i fs pend (.stat (joinName path c)) i := by
      rw [mark, Function.update_self]
      refine mem_look (hent ▸ hpath.resolve_entry hc.2.1 hlink true) ?_
      rwa [visibleCount_of_not_isDir hno']
    have hreply : ∃ e, fs.stat (joinName path c) = .error e := by
      rw [hstat, nodeAt, hn]
      exact ⟨_, rfl⟩
    obtain ⟨e, he⟩ := hreply
    rw [sysCall, he]
    exact safe_ret hQ ⟨hs, hno fs _ hs hp hno' hmem⟩ fun y hy => Or.inr ⟨rfl, hy⟩
  · obtain ⟨n, hn⟩ := isDir_iff.1 hd
    rw [nodeAt, hn] at hstat
    rw [sysCall, hstat]
    exact safe_ret (hP.and (stable_isDir _)) ⟨hs, hp, hd⟩ fun y hy => Or.inl ⟨rfl, hy⟩

/-! ## Counting -/

/-- Every visible entry of the store is a directory. -/
theorem isDir_of_visible {c : Name} {n : Node Xattrs} (h : Store fs D d) (hp : d <:+ p)
    (hg : fs.tree.get (c :: p) = some n) (hv : c.head? ≠ some dot) : fs.tree.isDir (c :: p) := by
  have hb := below_cons hp c
  rcases get_cases_of_noLink (h.layout.links _ hb) with hn | hd | ⟨v, hv'⟩
  · simp [hg] at hn
  · exact hd
  · obtain ⟨a, k, j, l, he, -⟩ := h.layout.files _ v hb hv'
    rw [List.cons.injEq] at he
    exact absurd (he.1 ▸ a.head?_name) hv

/-- `WalkDir` looks at the entry when it lists directories that are not hidden. -/
def isShown (item : Dirent) : Bool :=
  shown listNormalDirs item.dName

/-- The entries that are shown are those that are counted. -/
theorem length_shown (h : Store fs D d) (hp : d <:+ p) (hat : fs.At path p) :
    ((host.readdir fs.tree p).filter isShown).length = visibleCount fs.tree p := by
  have hlinks : ∀ c, fs.tree.NoLink (c :: p) := fun c => h.layout.links _ (below_cons hp c)
  rw [visibleCount, ← length_visibleDirs, ← map_filter_normalDirs hat hlinks,
    List.length_map]
  refine congrArg List.length (List.filter_congr fun item hi => ?_)
  rcases Host.mem_readdir.1 hi with rfl | rfl | ⟨c, n, hg, rfl⟩
  · rfl
  · rfl
  · rw [itemSelected_entry hat hlinks dirsOnly_normalDirs hg]
    by_cases hv : c.head? = some dot
    · simp [isShown, Host.dirent, shown_normalDirs, hv]
    · simp [isShown, Host.dirent, shown_normalDirs, hv, isDir_of_visible h hp hg hv]

/-- What is shown is a directory, and has no other type. -/
theorem shown_dir {item : Dirent} (h : Store fs D d) (hp : d <:+ p)
    (hi : item ∈ host.readdir fs.tree p) (hs : isShown item) :
    fs.tree.isDir (item.dName :: p) ∧ ∀ type, item.dType = some type → type = .dir := by
  rw [isShown, shown_normalDirs, decide_eq_true_iff] at hs
  rcases Host.mem_readdir.1 hi with rfl | rfl | ⟨c, n, hg, rfl⟩
  · exact absurd rfl hs
  · exact absurd rfl hs
  · have hd := isDir_of_visible h hp hg hs
    refine ⟨hd, fun type ht => ?_⟩
    obtain ⟨y, hy⟩ := isDir_iff.1 hd
    rw [hg, Option.some.injEq] at hy
    subst hy
    simp only [Host.dirent] at ht
    split_ifs at ht
    exact (Option.some.inj ht).symm

/-- A directory is still one when its type is asked for. -/
theorem safe_itemType {item : Dirent} (hP : Stable D d own i P)
    (hat : ∀ fs w, Store fs D d → P fs.tree w → fs.At path p)
    (hdir : ∀ fs w, Store fs D d → P fs.tree w → fs.tree.isDir (item.dName :: p))
    (htype : ∀ type, item.dType = some type → type = .dir) (hx : Knows D d i P x) :
    (Calls.itemType path item).Safe (markedCall host m i) (contract m D d own limited t₀ i)
      (fun r y => r = some .dir ∧ Knows D d i P y) x := by
  rw [Calls.itemType]
  cases hd : item.dType with
  | some type => exact safe_ret hP hx fun y hy => ⟨by rw [htype type hd], hy⟩
  | none =>
    refine safe_look trivial hP hx fun fs pend hs hp => ?_
    have hpath := hat fs _ hs hp
    obtain ⟨n, hn⟩ := isDir_iff.1 (hdir fs _ hs hp)
    rw [sysCall, itemPath_eq hpath.ne_nil, hpath.lstat_of_get (validName_of_get hn) hn]
    exact safe_ret hP ⟨hs, hp⟩ fun y hy => ⟨rfl, hy⟩

/-- `CountDir`'s loop counts the shown entries of what `readdir` answered, whatever happens
meanwhile. -/
theorem safe_countLoop {items : List Dirent} {vTotal : ℕ} (hP : Stable D d own i P)
    (hat : ∀ fs w, Store fs D d → P fs.tree w → fs.At path p)
    (hdir : ∀ item ∈ items, isShown item → ∀ fs w, Store fs D d → P fs.tree w →
      fs.tree.isDir (item.dName :: p))
    (htype : ∀ item ∈ items, isShown item → ∀ type, item.dType = some type → type = .dir)
    (hx : Knows D d i P x) :
    (Calls.countLoop host path none listNormalDirs items vTotal).Safe (markedCall host m i)
      (contract m D d own limited t₀ i)
      (fun r y => r = some (vTotal + (items.filter isShown).length) ∧ Knows D d i P y) x := by
  induction items generalizing vTotal x with
  | nil => exact safe_ret hP hx fun y hy => ⟨rfl, hy⟩
  | cons item items ih =>
    have ih' := fun x vTotal => @ih x vTotal (fun e he => hdir e (List.mem_cons_of_mem item he))
      fun e he => htype e (List.mem_cons_of_mem item he)
    rw [Calls.countLoop, show shown listNormalDirs item.dName = isShown item from rfl]
    by_cases hs : isShown item
    · rw [if_neg (not_not.2 hs), List.filter_cons_of_pos hs, List.length_cons]
      refine Prog.Safe.bind ((safe_itemType hP hat (hdir item List.mem_cons_self hs)
        (htype item List.mem_cons_self hs) hx).mono ?_)
      rintro r y ⟨rfl, hy⟩
      refine (ih' y (vTotal + 1) hy).mono ?_
      rintro r z ⟨rfl, hz⟩
      exact ⟨by rw [Nat.add_assoc, Nat.add_comm 1], hz⟩
    · rw [if_pos hs, List.filter_cons_of_neg hs]
      exact ih' x vTotal hx

/-- A client that counts less than the limit may make a directory. What it counts stays. -/
theorem safe_iSubkeyCount {Q : FileTree Xattrs → Finset Loc → Prop} (hp : d <:+ p)
    (hP : Stable D d own i P) (hQ : Stable D d own i Q)
    (hat : ∀ fs w, Store fs D d → P fs.tree w → fs.At path p)
    (hlt : ∀ fs w, Store fs D d → P fs.tree w → visibleCount fs.tree p < m → p ∈ w → Q fs.tree w)
    (hx : Knows D d i P x) :
    (Calls.iSubkeyCount host path none).Safe (markedCall host m i)
      (contract m D d own limited t₀ i) (fun n y => (n < m ∧ Knows D d i Q y) ∨
        (m ≤ n ∧ Knows D d i (fun t w => P t w ∧ m ≤ visibleCount t p) y)) x := by
  refine safe_look trivial hP hx fun fs pend hs hmark => ?_
  have hpath := hat fs _ hs hmark
  -- What is in the directory now is counted, whatever is made in it before the count is done.
  have hcount : ∀ R : FileTree Xattrs → Finset Loc → Prop, Stable D d own i R →
      R fs.tree (mark m i fs pend (.openDir path) i) →
      (Calls.countLoop host path none listNormalDirs (host.readdir fs.tree p) 0).Safe
        (markedCall host m i) (contract m D d own limited t₀ i)
        (fun r y => r = some (visibleCount fs.tree p) ∧ Knows D d i R y)
        (fs, mark m i fs pend (.openDir path)) := by
    intro R hR hr
    have hstable : Stable D d own i fun t w => P t w ∧ R t w ∧ ∀ item ∈ host.readdir fs.tree p,
        isShown item → t.isDir (item.dName :: p) := fun _ _ _ _ ha hw h =>
      ⟨hP ha hw h.1, hR ha hw h.2.1, fun item hi hshow => ha.mono _ (h.2.2 item hi hshow)⟩
    refine (safe_countLoop hstable (fun fs w hs h => hat fs w hs h.1)
      (fun item hi hshow _ _ _ h => h.2.2 item hi hshow)
      (fun item hi hshow => (shown_dir hs hp hi hshow).2)
      ⟨hs, hmark, hr, fun item hi hshow => (shown_dir hs hp hi hshow).1⟩).mono ?_
    rintro r y ⟨rfl, hy⟩
    exact ⟨by rw [Nat.zero_add, length_shown hs hp hpath], hy.1, hy.2.2.1⟩
  rw [sysCall, Host.entries_at hpath]
  dsimp only [Prog.bind]
  by_cases hm : visibleCount fs.tree p < m
  · have hmem : p ∈ mark m i fs pend (.openDir path) i := by
      rw [mark, Function.update_self]
      exact mem_look hpath.resolve hm
    refine Prog.Safe.bind (Prog.Safe.bind
      ((hcount Q hQ (hlt fs _ hs hmark hm hmem)).mono ?_))
    rintro r y ⟨rfl, hy⟩ y' hr
    exact safe_ret hQ (hy.rely hQ hr) fun z hz => Or.inl ⟨by rwa [sizeT_cast], hz⟩
  · have hfull := hP.and (stable_full (m := m) p)
    refine Prog.Safe.bind (Prog.Safe.bind ((hcount _ hfull ⟨hmark, not_lt.1 hm⟩).mono ?_))
    rintro r y ⟨rfl, hy⟩ y' hr
    exact safe_ret hfull (hy.rely hfull hr) fun z hz =>
      Or.inr ⟨by rw [sizeT_cast]; exact not_lt.1 hm, hz⟩

/-! ## The search for a place -/

/-- The levels before this one are full, as far as the client can rely on it. -/
def Before (m : ℕ) (d : Loc) (keys : Set Key) (k : DotFreeKey) (j : ℕ) (t : FileTree Xattrs) :
    Prop :=
  k.toKey ∈ keys → FindVisits t m d k.val j

/-- The client may put the key at `l`. -/
structure Chosen (m : ℕ) (d : Loc) (keys : Set Key) (e : DotFreeKey → Attr → Option Bytes)
    (k : DotFreeKey) (policy : TIDBProcesses) (j : ℕ) (l : Loc) (t : FileTree Xattrs)
    (w : Finset Loc) : Prop where
  kept : Kept m d keys e t
  before : Before m d keys k j t
  only : k.toKey ∈ keys → OnlyAt t d k.toKey j
  room : policy = .dkIgnored ∨ t.isDir l ∨ l.tail ∈ w

variable {e : DotFreeKey → Attr → Option Bytes} {k : DotFreeKey} {policy : TIDBProcesses} {j : ℕ}
  {l : Loc} {ns : List Name} {r c : Bytes} {t : FileTree Xattrs}

theorem stable_kept : Stable D d own i fun t _ => Kept m d (own i) e t :=
  fun _ _ _ _ ha _ => ha.kept

theorem stable_before : Stable D d own i fun t _ => Before m d (own i) k j t :=
  fun _ _ _ _ ha _ h hk => ha.findVisits hk (h hk)

theorem stable_missing (hl : HomeAt d k.toKey j l) :
    Stable D d own i fun t _ => k.toKey ∈ own i → t.isDir l = false := by
  intro fs fs' w w' ha _ h hk
  rw [Bool.eq_false_iff, ne_eq, ha.untouched.isDir_iff hk hl, h hk]
  simp

theorem Chosen.advances {w w' : Finset Loc} (h : Chosen m d (own i) e k policy j l fs.tree w)
    (ha : Advances D d (own i) fs fs') (hw : l.tail ∈ w → l.tail ∈ w') :
    Chosen m d (own i) e k policy j l fs'.tree w' :=
  ⟨ha.kept h.kept, fun hk => ha.findVisits hk (h.before hk), fun hk => ha.onlyAt hk (h.only hk),
    h.room.imp_right (Or.imp (ha.mono l) hw)⟩

variable (e policy j l) in
theorem stable_chosen : Stable D d own i (Chosen m d (own i) e k policy j l) :=
  fun _ _ _ _ ha hw h => h.advances ha (hw ·)

/-- The levels before this one are full, and this directory is there. -/
def Arrived (m : ℕ) (d : Loc) (keys : Set Key) (e : DotFreeKey → Attr → Option Bytes)
    (k : DotFreeKey) (j : ℕ) (p : Loc) (t : FileTree Xattrs) (_ : Finset Loc) : Prop :=
  Kept m d keys e t ∧ Before m d keys k j t ∧ t.isDir p

theorem stable_arrived : Stable D d own i (Arrived m d (own i) e k j p) :=
  stable_kept.and (stable_before.and (stable_isDir p))

/-- And the key is not in it, as far as the client can rely on it. -/
def Absent (m : ℕ) (d : Loc) (keys : Set Key) (e : DotFreeKey → Attr → Option Bytes)
    (k : DotFreeKey) (j : ℕ) (l : Loc) (t : FileTree Xattrs) (w : Finset Loc) : Prop :=
  Arrived m d keys e k j l.tail t w ∧ (k.toKey ∈ keys → t.isDir l = false)

theorem stable_absent (hl : HomeAt d k.toKey j l) : Stable D d own i (Absent m d (own i) e k j l) :=
  stable_arrived.and (stable_missing hl)

/-! ### Levels of the key -/

theorem at_level (h : Store fs D d) (hl : levelAt k.val j = some (ns, r))
    (hd : fs.tree.isDir (ns.reverse ++ d)) : fs.At (levelDir D ns) (ns.reverse ++ d) :=
  (at_withSlash h.isAt).names (fun n hn => (k.level_parts hl (DotFreeKey.level hl).1 n hn).1) hd

theorem homeAt_level (hl : levelAt k.val j = some (ns, r)) (hr : r ≠ []) :
    HomeAt d k.toKey j (r :: (ns.reverse ++ d)) :=
  ⟨ns, r, hl, (DotFreeKey.level hl).1, hr, (DotFreeKey.level hl).2, rfl⟩

theorem partAt_level (hl : levelAt k.val j = some (ns, r)) :
    PartAt d k.toKey j (ns.reverse ++ d) :=
  ⟨ns, r, hl, (DotFreeKey.level hl).1, rfl⟩

section

variable (hl : levelAt k.val j = some (ns, r)) (hc : firstChar r = .ok c)

include hl hc

theorem validName_next : ValidName (partName c) :=
  (k.level_parts (levelAt_succ hl hc) (DotFreeKey.level (levelAt_succ hl hc)).1 _ (by simp)).1

theorem partAt_next : PartAt d k.toKey (j + 1) (partName c :: (ns.reverse ++ d)) := by
  simpa using partAt_level (d := d) (levelAt_succ hl hc)

theorem homeAt_next (hr : r.drop c.length ≠ []) :
    HomeAt d k.toKey (j + 1) (r.drop c.length :: partName c :: (ns.reverse ++ d)) := by
  simpa using homeAt_level (d := d) (levelAt_succ hl hc) hr

theorem at_next (h : Store fs D d) (hd : fs.tree.isDir (partName c :: (ns.reverse ++ d))) :
    fs.At (levelDir D (ns ++ [partName c])) (partName c :: (ns.reverse ++ d)) := by
  simpa using at_level h (levelAt_succ hl hc) (by simpa using hd)

end

theorem findVisits_succ (h : FindVisits t m d k.val j) (hf : Full t m d k.val j) :
    FindVisits t m d k.val (j + 1) := by
  intro j' hj'
  rcases Nat.lt_succ_iff_lt_or_eq.1 hj' with hlt | rfl
  · exact h j' hlt
  · exact hf

/-- What the client chooses because its level is not full. -/
theorem chosen_of_not_full {w : Finset Loc} (hkept : Kept m d (own i) e t)
    (hb : Before m d (own i) k j t) (hstop : ¬Full t m d k.val j)
    (hroom : policy = .dkIgnored ∨ t.isDir l ∨ l.tail ∈ w) :
    Chosen m d (own i) e k policy j l t w :=
  ⟨hkept, hb, fun hk => (hkept.placed k hk).onlyAt (hb hk) hstop, hroom⟩

/-- How the search ends : without a place, or at one. -/
def Ends (m : ℕ) (D : Bytes) (d : Loc) (own : ι → Set Key) (i : ι)
    (e : DotFreeKey → Attr → Option Bytes) (k : DotFreeKey) (policy : TIDBProcesses)
    (found : Except ℤ Bytes) (y : FileSystem × (ι → Finset Loc)) : Prop :=
  (∃ err, err ≠ 0 ∧ found = .error err ∧ Knows D d i (fun t _ => Kept m d (own i) e t) y) ∨
    ∃ j ns r, levelAt k.val j = some (ns, r) ∧ r ≠ [] ∧ found = .ok (keyDir D ns r) ∧
      Knows D d i (Chosen m d (own i) e k policy j (r :: (ns.reverse ++ d))) y

theorem Ends.rely {found : Except ℤ Bytes} (h : Ends m D d own i e k policy found x)
    (hr : (contract m D d own limited t₀ i).rely x y) : Ends m D d own i e k policy found y :=
  h.imp (fun ⟨err, he, hf, hx⟩ => ⟨err, he, hf, hx.rely stable_kept hr⟩)
    fun ⟨j, ns, r, hl, hne, hf, hx⟩ => ⟨j, ns, r, hl, hne, hf, hx.rely (stable_chosen ..) hr⟩

/-- The search ends at a level. -/
theorem safe_stop {α : Type} {f : α → Except ℤ Bytes} {a : α}
    (hl : levelAt k.val j = some (ns, r)) (hr : r ≠ []) (ha : f a = .ok (keyDir D ns r))
    (hx : Knows D d i (Chosen m d (own i) e k policy j (r :: (ns.reverse ++ d))) x) :
    (Prog.ret a : Program α).Safe (markedCall host m i) (contract m D d own limited t₀ i)
      (fun found y => Ends m D d own i e k policy (f found) y) x :=
  safe_ret (stable_chosen ..) hx fun _ hy => Or.inr ⟨j, ns, r, hl, hr, ha, hy⟩

/-- A place behind the last part of a level. -/
theorem safe_chosen (hD : D ≠ []) (hl : levelAt k.val j = some (ns, r)) (hc : firstChar r = .ok c)
    (hrest : r.drop c.length ≠ [])
    (hx : Knows D d i (Chosen m d (own i) e k policy (j + 1)
      (r.drop c.length :: partName c :: (ns.reverse ++ d))) x) :
    (Prog.ret (.stop (levelDir D (ns ++ [partName c])) (r.drop c.length)) :
      Program FindEnd).Safe (markedCall host m i) (contract m D d own limited t₀ i)
      (fun found y => Ends m D d own i e k policy (placeFound policy found) y) x :=
  safe_stop (levelAt_succ hl hc) hrest (by rw [placeFound, sdsJoinPathLen_levelDir hD])
    (by simpa using hx)

/-- The last character. The key is at no level before, and there is none behind. -/
theorem safe_last (hD : D ≠ []) (hpol : policy = .dkIgnored ∨ policy = .dkStopped)
    (hl : levelAt k.val j = some (ns, r)) (hr : r ≠ []) (hc : firstChar r = .ok c)
    (hrest : r.drop c.length = [])
    (hx : Knows D d i (Arrived m d (own i) e k (j + 1) (ns.reverse ++ d)) x) :
    (Prog.ret (.last (levelDir D ns) c) : Program FindEnd).Safe (markedCall host m i)
      (contract m D d own limited t₀ i)
      (fun found y => Ends m D d own i e k policy (placeFound policy found) y) x := by
  obtain rfl : r = c := firstChar_last hc hrest
  have hl' := levelAt_succ hl hc
  rw [hrest] at hl'
  have hend : EndAt d k.toKey (j + 1) ((ns ++ [partName r]).reverse ++ d) :=
    ⟨_, hl', (DotFreeKey.level hl').1, rfl⟩
  have honly : k.toKey ∈ own i → OnlyAt x.1.tree d k.toKey j := by
    intro hk j' l' hl' hd
    have hfull := hx.2.2.1 hk j' (hend.lt hl')
    rw [full_iff_homeAt hl', hd] at hfull
    simp at hfull
  rcases hpol with rfl | rfl
  · exact safe_stop hl hr (by simp only [placeFound, sdsJoinPathLen_levelDir hD])
      ⟨hx.1, hx.2.1, fun hk j' hj' => hx.2.2.1 hk j' (Nat.lt_succ_of_lt hj'), honly, Or.inl rfl⟩
  · exact safe_ret stable_kept ⟨hx.1, hx.2.1⟩ fun y hy => Or.inl ⟨_, by decide, rfl, hy⟩

section

variable (policy) (hl : levelAt k.val j = some (ns, r)) (hc : firstChar r = .ok c)

include hl hc

/-- The look at the next partition : it is there, or it may be made. -/
theorem safe_lookPart (hm : 0 < m) (hrest : r.drop c.length ≠ [])
    (hx : Knows D d i (Arrived m d (own i) e k (j + 1) (ns.reverse ++ d)) x) :
    (Calls.directoryExists (levelDir D (ns ++ [partName c]))).Safe (markedCall host m i)
      (contract m D d own limited t₀ i) (fun result y =>
        (result = pathIsDir ∧
          Knows D d i (Arrived m d (own i) e k (j + 1) (partName c :: (ns.reverse ++ d))) y) ∨
        (result = pathIsNotExists ∧ Knows D d i (Chosen m d (own i) e k policy (j + 1)
          (r.drop c.length :: partName c :: (ns.reverse ++ d))) y)) x := by
  have hhome := homeAt_next (d := d) hl hc hrest
  rw [levelDir_append]
  refine Prog.Safe.mono (safe_directoryExists hm (validName_next hl hc) stable_arrived
    (stable_chosen e policy (j + 1) (r.drop c.length :: partName c :: (ns.reverse ++ d)))
    (fun fs _ hs h => at_level hs hl h.2.2)
    (fun fs hs => hs.layout.part_missing_or_dir (partAt_next hl hc))
    (fun fs w hs h hno hw => chosen_of_not_full h.1 h.2.1
      (fun hf => by simp [full_iff_homeAt hhome, hno] at hf) (Or.inr (Or.inr hw))) hx) ?_
  rintro result y (⟨hres, hs, ⟨hkept, hbefore, _⟩, hd⟩ | hy)
  · exact Or.inl ⟨hres, hs, hkept, hbefore, hd⟩
  · exact Or.inr hy

/-- The look at the key in it : it is chosen, or the key is not there. -/
theorem safe_lookKey (hm : 0 < m) (hrest : r.drop c.length ≠ [])
    (hx : Knows D d i (Arrived m d (own i) e k (j + 1) (partName c :: (ns.reverse ++ d))) x) :
    (Calls.directoryExists (keyDir D (ns ++ [partName c]) (r.drop c.length))).Safe
      (markedCall host m i) (contract m D d own limited t₀ i) (fun result y =>
        (result = pathIsDir ∧ Knows D d i (Chosen m d (own i) e k policy (j + 1)
          (r.drop c.length :: partName c :: (ns.reverse ++ d))) y) ∨
        (result = pathIsNotExists ∧ Knows D d i (Absent m d (own i) e k (j + 1)
          (r.drop c.length :: partName c :: (ns.reverse ++ d))) y)) x := by
  have hhome := homeAt_next (d := d) hl hc hrest
  rw [keyDir_eq]
  refine Prog.Safe.mono (safe_directoryExists hm
    (Key.level_rest (levelAt_succ hl hc) hrest (DotFreeKey.level (levelAt_succ hl hc)).2)
    stable_arrived (stable_absent (e := e) hhome) (fun fs _ hs h => at_next hl hc hs h.2.2)
    (fun fs hs => hs.layout.home_missing_or_dir hhome)
    (fun fs w hs h hno hw => ⟨h, fun _ => hno⟩) hx) ?_
  rintro result y (⟨hres, hs, ⟨hkept, hbefore, _⟩, hd⟩ | hy)
  · refine Or.inl ⟨hres, hs, chosen_of_not_full hkept hbefore (fun hf => ?_) (Or.inr (Or.inl hd))⟩
    simp [full_iff_homeAt hhome, hd] at hf
  · exact Or.inr hy

/-- The count of the partition : it has room, or it is full. -/
theorem safe_lookRoom (hrest : r.drop c.length ≠ [])
    (hx : Knows D d i (Absent m d (own i) e k (j + 1)
      (r.drop c.length :: partName c :: (ns.reverse ++ d))) x) :
    (Calls.iSubkeyCount host (levelDir D (ns ++ [partName c])) none).Safe (markedCall host m i)
      (contract m D d own limited t₀ i) (fun n y =>
        (n < m ∧ Knows D d i (Chosen m d (own i) e k policy (j + 1)
          (r.drop c.length :: partName c :: (ns.reverse ++ d))) y) ∨
        (m ≤ n ∧ Knows D d i
          (Arrived m d (own i) e k (j + 1 + 1) (partName c :: (ns.reverse ++ d))) y)) x := by
  have hhome := homeAt_next (d := d) hl hc hrest
  refine Prog.Safe.mono (safe_iSubkeyCount (partAt_next hl hc).suffix (stable_absent hhome)
    (stable_chosen e policy (j + 1) (r.drop c.length :: partName c :: (ns.reverse ++ d)))
    (fun fs _ hs h => at_next hl hc hs h.1.2.2)
    (fun fs w hs h hlt hw => chosen_of_not_full h.1.1 h.1.2.1
      (fun hf => hlt.not_ge ((full_iff_homeAt hhome).1 hf).2.1) (Or.inr (Or.inr hw))) hx) ?_
  rintro n y (hy | ⟨hn, hs, ⟨⟨hkept, hbefore, hd⟩, hno⟩, hcount⟩)
  · exact Or.inl hy
  · exact Or.inr ⟨hn, hs, hkept, fun hk => findVisits_succ (hbefore hk)
      ((full_iff_homeAt hhome).2 ⟨hd, hcount, hno hk⟩), hd⟩

end

/-- Beside other clients the page loop ends where the put may go. -/
theorem safe_findLoop {fuel : ℕ} (hm : 0 < m) (hD : D ≠ [])
    (hpol : policy = .dkIgnored ∨ policy = .dkStopped) (hl : levelAt k.val j = some (ns, r))
    (hr : r ≠ []) (hfuel : r.length ≤ fuel)
    (hx : Knows D d i (Arrived m d (own i) e k (j + 1) (ns.reverse ++ d)) x) :
    (Calls.findLoop host m fuel (levelDir D ns) r).Safe (markedCall host m i)
      (contract m D d own limited t₀ i)
      (fun found y => Ends m D d own i e k policy (placeFound policy found) y) x := by
  induction fuel generalizing j ns r x with
  | zero => exact absurd (List.length_eq_zero_iff.1 (Nat.le_zero.1 hfuel)) hr
  | succ fuel ih =>
    rw [Calls.findLoop]
    cases hc : firstChar r with
    | error err =>
      refine safe_ret stable_kept ⟨hx.1, hx.2.1⟩ fun y hy => Or.inl ⟨err, ?_, rfl, hy⟩
      rw [firstChar_error hr hc]
      decide
    | ok c =>
      dsimp only
      split_ifs with hrest
      · exact safe_last hD hpol hl hr hc hrest hx
      · rw [joinPart_levelDir hD, sdsJoinPathLen_levelDir hD]
        refine Prog.Safe.bind (Prog.Safe.mono (safe_lookPart policy hl hc hm hrest hx) ?_)
        rintro result y (⟨rfl, hy⟩ | ⟨rfl, hy⟩)
        · rw [if_pos rfl]
          refine Prog.Safe.bind (Prog.Safe.mono (safe_lookKey policy hl hc hm hrest hy) ?_)
          rintro result z (⟨rfl, hz⟩ | ⟨rfl, hz⟩)
          · rw [if_pos rfl]
            exact safe_chosen hD hl hc hrest hz
          · rw [if_neg (by decide)]
            refine Prog.Safe.bind (Prog.Safe.mono (safe_lookRoom policy hl hc hrest hz) ?_)
            rintro n u (⟨hn, hu⟩ | ⟨hn, hu⟩)
            · rw [if_pos (by rwa [sizeT_cast])]
              exact safe_chosen hD hl hc hrest hu
            · rw [if_neg (by rw [sizeT_cast]; exact hn.not_gt)]
              have hlen := List.length_pos_iff.2 (firstChar_ne_nil hc)
              exact ih (levelAt_succ hl hc) hrest (by rw [List.length_drop]; omega)
                (by simpa using hu)
        · rw [if_neg (by decide)]
          exact safe_chosen hD hl hc hrest hy

/-- The search of `iFindKeyDirToPut` beside other clients. -/
theorem safe_iFindKeyDirToPut (hm : 0 < m) (hpol : policy = .dkIgnored ∨ policy = .dkStopped)
    (hx : Knows D d i (fun t _ => Kept m d (own i) e t) x) :
    (Calls.iFindKeyDirToPut host (joinName D k.val) m policy).Safe (markedCall host m i)
      (contract m D d own limited t₀ i) (Ends m D d own i e k policy) x := by
  have hD : D ≠ [] := hx.1.isAt.ne_nil
  have hhome := homeAt_zero d k.toKey
  have hl := levelAt_zero k.val
  have hkey : keyDir D [] k.val = joinName D k.val := keyDir_nil D k.val
  have hstop : ∀ {y}, Knows D d i (Chosen m d (own i) e k policy 0 (k.val :: d)) y →
      (Prog.ret (.ok (joinName D k.val)) : Program (Except ℤ Bytes)).Safe (markedCall host m i)
        (contract m D d own limited t₀ i) (Ends m D d own i e k policy) y :=
    fun hy => safe_stop (f := id) hl k.component.1 (by rw [hkey]; rfl) hy
  have hbefore : ∀ t : FileTree Xattrs, Before m d (own i) k 0 t :=
    fun _ _ j hj => absurd hj (Nat.not_lt_zero j)
  -- Is the key there?
  refine Prog.Safe.bind (Prog.Safe.mono (safe_directoryExists hm (Key.level_rest hl k.component.1
    k.visible) stable_kept (stable_absent (e := e) hhome) (fun fs _ hs _ => hs.isAt)
    (fun fs hs => hs.layout.home_missing_or_dir hhome)
    (fun fs w hs h hno _ => ⟨⟨h, hbefore _, hs.isAt.isDir⟩, fun _ => hno⟩) hx) ?_)
  rintro result y (⟨rfl, hy⟩ | ⟨rfl, hy⟩)
  · rw [if_pos rfl]
    refine hstop ⟨hy.1,
      chosen_of_not_full hy.2.1 (hbefore _) (fun hf => ?_) (Or.inr (Or.inl hy.2.2))⟩
    simp [full_iff_homeAt hhome, hy.2.2] at hf
  · rw [if_neg (by decide), extractLastPathName_joinName k.component.1 k.component.2.1]
    refine Prog.Safe.bind (Prog.Safe.mono (safe_directoryExists_at (stable_absent hhome)
      (fun fs _ hs _ => at_withSlash hs.isAt) hy) ?_)
    rintro result z ⟨rfl, hz⟩
    rw [if_pos rfl]
    -- Is there room in the base directory?
    refine Prog.Safe.bind (Prog.Safe.mono (safe_iSubkeyCount (List.suffix_refl d)
      (stable_absent hhome) (stable_chosen e policy 0 (k.val :: d))
      (fun fs _ hs _ => at_withSlash hs.isAt)
      (fun fs w hs h hlt hw => chosen_of_not_full h.1.1 (hbefore _)
        (fun hf => hlt.not_ge ((full_iff_homeAt hhome).1 hf).2.1) (Or.inr (Or.inr hw))) hz) ?_)
    rintro n u (⟨hn, hu⟩ | ⟨hn, hu⟩)
    · rw [if_neg (by rw [sizeT_cast]; exact hn.not_ge),
        show withSlash D = levelDir D [] from rfl, sdsJoinPathLen_levelDir hD, hkey]
      exact hstop hu
    · rw [if_pos (by rwa [sizeT_cast])]
      obtain ⟨hs, ⟨⟨hkept, -, hd⟩, hno⟩, hcount⟩ := hu
      refine Prog.Safe.bind (Prog.Safe.mono (safe_findLoop hm hD hpol hl k.component.1 le_rfl
        ⟨hs, hkept, fun hk => ?_, hd⟩) fun found v hv => ?_)
      · exact findVisits_succ (hbefore _ hk) ((full_iff_homeAt hhome).2 ⟨hd, hcount, hno hk⟩)
      · exact fun _ hr => hv.rely hr

end

end Paged

end Idb
