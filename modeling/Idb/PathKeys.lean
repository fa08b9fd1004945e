import Idb.KeyList

/-!
# Paths of keys

A key may be a path `c1/c2/…/cn` of keys. A put partitions the last component only, and
`ForceDirectories` makes missing parents by their plain names. As long as every put finds
room in the directory of its parent (`HasRoom`), the directories below the base
directory are the paths put and their parents (`PathStore`), so every path has one
directory, and a listing shows what was put below it (`path_keys_of_room`). The first
put that goes into a partition ends this : the listing of its key looks for the plain
path.
-/

namespace Idb

open Posix FileSystem FileTree

/-! ## Paths -/

/-- The names on the way to a path of keys. -/
def pathNames (q : List DotFreeKey) : List Name :=
  q.map fun k => k.val

/-- The keys of a path, joined by slashes. -/
def pathVal (q : List DotFreeKey) : Bytes :=
  [slash].intercalate (pathNames q)

/-- The plain place of a path. -/
def pathLoc (d : Loc) (q : List DotFreeKey) : Loc :=
  (pathNames q).reverse ++ d

/-- `l` is a place of the path : each key lies below the one before, in partition
directories or not. -/
inductive PathAt (d : Loc) : List DotFreeKey → Loc → Prop
  | nil : PathAt d [] d
  | concat {q p k i l} : PathAt d q p → HomeAt p k.toKey i l → PathAt d (q ++ [k]) l

section

variable {d l : Loc} {q q' : List DotFreeKey} {k : DotFreeKey}

theorem pathLoc_nil (d : Loc) : pathLoc d [] = d :=
  rfl

theorem pathLoc_concat (d : Loc) (q : List DotFreeKey) (k : DotFreeKey) :
    pathLoc d (q ++ [k]) = k.val :: pathLoc d q := by
  simp [pathLoc, pathNames]

theorem validName_of_mem {n : Name} (hn : n ∈ pathNames q) : ValidName n := by
  obtain ⟨k, -, rfl⟩ := List.mem_map.1 hn
  exact ⟨plain_of_head? k.component.1 k.visible, k.component.2⟩

theorem below_pathLoc (hq : q ≠ []) : Below d (pathLoc d q) :=
  ⟨List.suffix_append _ _, fun he => hq (by simpa [pathLoc, pathNames] using he)⟩

theorem pathLoc_inj (h : pathLoc d q = pathLoc d q') : q = q' := by
  rw [pathLoc, pathLoc, List.append_cancel_right_eq, List.reverse_inj] at h
  exact List.map_injective_iff.2 (fun _ _ he => DotFreeKey.ext_key (Key.ext_val he)) h

/-- The last name of a path is not hidden. -/
theorem head?_pathLoc {c : Name} {p : Loc} (hb : Below d (pathLoc d q))
    (h : pathLoc d q = c :: p) : c.head? ≠ some dot := by
  rcases List.eq_nil_or_concat' q with rfl | ⟨q, k, rfl⟩
  · exact absurd hb (not_below_self d)
  · rw [pathLoc_concat, List.cons.injEq] at h
    rw [← h.1]
    exact k.visible

/-- The places on the way to a path are those of its prefixes. -/
theorem pathLoc_of_suffix (hd : d <:+ l) (hs : l <:+ pathLoc d q) :
    ∃ q', q' <+: q ∧ l = pathLoc d q' := by
  obtain ⟨m, rfl⟩ := hd
  rw [pathLoc, List.suffix_append_self_iff, ← List.reverse_prefix, List.reverse_reverse] at hs
  refine ⟨q.take m.length, List.take_prefix _ _, ?_⟩
  rw [pathLoc, pathNames, List.map_take, List.append_cancel_right_eq]
  have he := List.prefix_iff_eq_take.1 hs
  rw [List.length_reverse] at he
  rw [← List.reverse_inj, List.reverse_reverse, he, pathNames]

theorem pathLoc_suffix (h : q' <+: q) : pathLoc d q' <:+ pathLoc d q := by
  obtain ⟨r, rfl⟩ := h
  simp [pathLoc, pathNames]

/-- The text of a key path, its first component apart. -/
theorem pathVal_cons (k : DotFreeKey) (q : List DotFreeKey) :
    pathVal (k :: q) = k.val ++ (pathNames q).flatMap fun c => slash :: c := by
  induction q generalizing k with
  | nil => simp [pathVal, pathNames, List.intercalate]
  | cons k' q ih =>
    have hval : pathVal (k :: k' :: q) = k.val ++ slash :: pathVal (k' :: q) := by
      simp [pathVal, pathNames, List.intercalate]
    rw [hval, ih, pathNames, pathNames, List.map_cons, List.flatMap_cons, List.cons_append]

theorem PathAt.suffix (h : PathAt d q l) : d <:+ l := by
  induction h with
  | nil => exact List.suffix_refl _
  | concat _ hl ih => exact ih.trans hl.below.1

/-- The plain place of a path is one of its places. -/
theorem pathAt_pathLoc (d : Loc) (q : List DotFreeKey) : PathAt d q (pathLoc d q) := by
  induction q using List.reverseRecOn with
  | nil => exact .nil
  | append_singleton q k ih =>
    rw [pathLoc_concat]
    exact .concat ih (homeAt_zero _ k.toKey)

theorem leads_pathNames (D : Bytes) (d : Loc) (q : List DotFreeKey) :
    Leads D d ((pathNames q).foldl joinName D) (pathLoc d q) :=
  leads_names fun _ => validName_of_mem

/-- The path string continues the base directory name by name. -/
theorem joinName_pathVal (D : Bytes) (hq : q ≠ []) :
    joinName D (pathVal q) = (pathNames q).foldl joinName D := by
  obtain ⟨k, q, rfl⟩ := List.exists_cons_of_ne_nil hq
  have hnames : pathNames (k :: q) = k.val :: pathNames q := rfl
  rw [pathVal_cons, hnames, List.foldl_cons,
    foldl_joinName (fun c hc => (validName_of_mem hc).component)
      (getLast?_joinName k.component),
    joinName_eq_withSlash, joinName_eq_withSlash D k.val, List.append_assoc]

end

/-! ## Runs of puts -/

/-- What a put with `dkIgnored` is given, for a path of keys, and which of its writes fail. -/
structure PathPut where
  key : List DotFreeKey
  ne_nil : key ≠ []
  attr : Option Bytes
  value : Bytes
  faults : Faults

/-- The state of a run : the file system and the paths whose puts returned 0. -/
structure PathState where
  fs : FileSystem
  stored : List (List DotFreeKey)

/-- The put finds the path, a parent directory that is not full, or no character to make a
partition directory of. -/
def StaysPlain (t : FileTree Xattrs) (m : ℕ) (d : Loc) (q : List DotFreeKey) : Prop :=
  t.isDir (pathLoc d q) ∨ visibleCount t (pathLoc d q).tail < m ∨
    ∃ k ∈ q.getLast?, firstChar k.val = .ok k.val

namespace Start

variable (S : Start) (host : Host) (M : ℤ)

/-- A put, which is stored if it returns 0. -/
def pathStep (s : PathState) (p : PathPut) : PathState :=
  let result := iPutWith host M p.faults s.fs S.dir .dkIgnored (some (pathVal p.key)) p.value p.attr
    storeInFile
  ⟨result.1, if result.2 = 0 then p.key :: s.stored else s.stored⟩

/-- Puts on an empty directory. -/
def pathRun (puts : List PathPut) : PathState :=
  puts.foldl (S.pathStep host M) ⟨S.fs, []⟩

/-- All puts of the run stay plain, and write their attribute if they make a directory. -/
def HasRoom : PathState → List PathPut → Prop
  | _, [] => True
  | s, p :: puts =>
    StaysPlain s.fs.tree (sizeT M) S.loc p.key ∧
      PutLands host M S.dir s.fs p.faults .dkIgnored (pathVal p.key) p.attr ∧
        HasRoom (S.pathStep host M s p) puts

end Start

/-- The directories below the base directory are the paths stored and their parents. -/
structure PathStore (S : Start) (s : PathState) : Prop extends BaseDir s.fs S.dir S.loc where
  dirs : ∀ l, Below S.loc l → (s.fs.tree.isDir l ↔
    ∃ q p, p ∈ s.stored ∧ q ≠ [] ∧ q <+: p ∧ l = pathLoc S.loc q)
  ne_nil : ∀ p ∈ s.stored, p ≠ []

namespace PathStore

variable {S : Start} {host : Host} {M : ℤ} {s : PathState} {l : Loc} {q : List DotFreeKey}

theorem start (S : Start) : PathStore S ⟨S.fs, []⟩ where
  toBaseDir := (@Start.keyDirs_start 0 S).toBaseDir
  dirs := fun l hb => by simp [FileTree.isDir, S.empty l hb]
  ne_nil := fun _ hp => absurd hp List.not_mem_nil

variable (h : PathStore S s)

include h

/-- With room in the parent's directory the plain path is chosen, and also for a last key of a
single character. -/
theorem putDir_eq (host : Host) (hM : M > 0) (hq : q ≠ [])
    (hroom : StaysPlain s.fs.tree (sizeT M) S.loc q) :
    putDir host M s.fs S.dir .dkIgnored (some (pathVal q)) =
      .ok ((pathNames q).foldl joinName S.dir) := by
  have hput : putDir host M s.fs S.dir .dkIgnored (some (pathVal q)) =
      iFindKeyDirToPut host s.fs ((pathNames q).foldl joinName S.dir) M .dkIgnored := by
    simp [putDir, hM, sdsJoinPathLen_eq h.isAt.ne_nil, joinName_pathVal S.dir hq]
  rw [hput]
  have hdir := (leads_pathNames S.dir S.loc q).directoryExists_iff h.links h.isAt
  obtain ⟨q, k, rfl⟩ := (List.eq_nil_or_concat' q).resolve_left hq
  have hpath : (pathNames (q ++ [k])).foldl joinName S.dir =
      joinName ((pathNames q).foldl joinName S.dir) k.val := by
    simp [pathNames]
  rw [StaysPlain, ← hdir, pathLoc_concat, List.tail_cons, List.getLast?_concat] at hroom
  rw [hpath] at hroom ⊢
  have hne := @foldl_joinName_ne_nil _ (pathNames q) h.isAt.ne_nil
  rw [iFindKeyDirToPut_joinName hne k.component.1 k.component.2.1]
  split_ifs with hfull
  · -- A single character is the last one, and the put goes beside the others.
    have hparent : Leads S.dir S.loc (withSlash ((pathNames q).foldl joinName S.dir))
        (pathLoc S.loc q) := ⟨_, fun _ => validName_of_mem, rfl, Or.inr rfl⟩
    have hat := hparent.isAt h.isAt ((hparent.directoryExists_iff h.links h.isAt).1 hfull.2.1)
    have hcount := hfull.2.2
    rw [iSubkeyCount_at hat fun c => h.links _ (below_cons hparent.suffix c)] at hcount
    obtain ⟨k', hk', hc⟩ := (hroom.resolve_left hfull.1).resolve_left (by omega)
    obtain rfl : k = k' := by simpa using hk'
    obtain ⟨n, hn⟩ := Nat.exists_eq_succ_of_ne_zero (List.length_pos_iff.2 k.component.1).ne'
    have hws : withSlash ((pathNames q).foldl joinName S.dir) ≠ [] := joinName_ne_nil hne
    rw [hn, findLoop, hc]
    simp only [List.drop_length, if_true, placeFound, sdsJoinPathLen_eq hws, joinName_withSlash]
  · rfl

/-- A put that stays plain makes what is missing of its path, and is stored if it makes
something. -/
theorem step (hM : M > 0) (p : PathPut) (hroom : StaysPlain s.fs.tree (sizeT M) S.loc p.key)
    (hlands : PutLands host M S.dir s.fs p.faults .dkIgnored (pathVal p.key) p.attr) :
    PathStore S (S.pathStep host M s p) := by
  have hb := below_pathLoc (d := S.loc) p.ne_nil
  obtain ⟨hinto, hdone, hiff⟩ := iPutWith_into_spec (v := p.value) (a := p.attr) h.isAt h.links hb
    (fun _ => validName_of_mem) (h.putDir_eq host hM p.ne_nil hroom)
  have hlands := hiff.1 hlands
  rw [Start.pathStep]
  split_ifs with h0
  · refine ⟨hinto.baseDir h.toBaseDir, fun l hl => ?_,
      List.forall_mem_cons.2 ⟨p.ne_nil, h.ne_nil⟩⟩
    rw [hinto.isDir_iff_way (hdone h0), h.dirs l hl]
    constructor
    · rintro (⟨q, p', hp', hq, hpre, hloc⟩ | ⟨-, hsuf⟩)
      · exact ⟨q, p', List.mem_cons_of_mem _ hp', hq, hpre, hloc⟩
      · obtain ⟨q, hpre, rfl⟩ := pathLoc_of_suffix hl.1 hsuf
        refine ⟨q, p.key, List.mem_cons_self, ?_, hpre, rfl⟩
        rintro rfl
        exact not_below_self _ hl
    · rintro ⟨q, p', hp', hq, hpre, rfl⟩
      rcases List.mem_cons.1 hp' with rfl | hp'
      · exact Or.inr ⟨hl, pathLoc_suffix hpre⟩
      · exact Or.inl ⟨q, p', hp', hq, hpre, rfl⟩
  · refine ⟨hinto.baseDir h.toBaseDir, fun l hl => ?_, h.ne_nil⟩
    rw [hinto.isDir_iff_same fun hd => (hlands hd).resolve_right h0]
    exact h.dirs l hl

/-! ## One directory for a path -/

/-- Every directory of the store is a plain place. -/
theorem isDir_not_hidden {c : Name} {p : Loc} (hs : S.loc <:+ p) (hd : s.fs.tree.isDir (c :: p)) :
    c.head? ≠ some dot := by
  have hb := below_cons hs c
  obtain ⟨q, p', -, -, -, he⟩ := (h.dirs _ hb).1 hd
  exact head?_pathLoc (he ▸ hb) he.symm

/-- The only place of a path that is a directory is the plain one. -/
theorem eq_pathLoc (hq : PathAt S.loc q l) (hd : s.fs.tree.isDir l) : l = pathLoc S.loc q := by
  induction hq with
  | nil => rfl
  | @concat q p k i l hp hl ih =>
    cases i with
    | zero =>
      rw [hl.unique (homeAt_zero p k.toKey)] at hd ⊢
      rw [pathLoc_concat, ih (isDir_of_cons hd)]
    | succ i =>
      obtain ⟨r, p', -, -, hp', rfl⟩ := hl.exists_part
      obtain ⟨c, p'', -, -, hp'', rfl⟩ := hp'.succ
      exact absurd rfl (h.isDir_not_hidden (hp.suffix.trans hp''.suffix) (isDir_of_cons hd))

theorem existsUnique_pathAt {p : List DotFreeKey} (hp : p ∈ s.stored) (hq : q ≠ [])
    (hpre : q <+: p) : ∃! l, PathAt S.loc q l ∧ s.fs.tree.isDir l := by
  have hd := (h.dirs _ (below_pathLoc hq)).2 ⟨q, p, hp, hq, hpre, rfl⟩
  exact ⟨_, ⟨pathAt_pathLoc S.loc q, hd⟩, fun l hl => h.eq_pathLoc hl.1 hl.2⟩

end PathStore

theorem Start.pathStore_run {S : Start} {host : Host} {M : ℤ} (hM : M > 0) {s : PathState}
    (h : PathStore S s) {puts : List PathPut} (hroom : S.HasRoom host M s puts) :
    PathStore S (puts.foldl (S.pathStep host M) s) := by
  induction puts generalizing s with
  | nil => exact h
  | cons p puts ih => exact ih (h.step hM p hroom.1 hroom.2.1) hroom.2.2

/-! ## Listing a path -/

/-- In a directory without partitions the list is that of the visible subdirectories. -/
theorem iSubkeys_at {host : Host} {fs : FileSystem} {aDir aKey : Bytes} {p : Loc}
    {policy : TIDBProcesses} (iDBDuplicationKeyProcess : TIDBProcesses)
    (hat : fs.At (sdsJoinPathLen aDir aKey) p) (hlinks : ∀ c, fs.tree.NoLink (c :: p))
    (hno : hiddenDirs host fs.tree p = []) :
    iSubkeys host iDBDuplicationKeyProcess fs aDir aKey none 0 0 policy =
      some (some (visibleDirs host fs.tree p), fs) := by
  have hc := collects_iSubkeysWalker host iDBDuplicationKeyProcess policy
  have hf : Fresh ((visibleDirs host fs.tree p).map ([] ++ ·)) [] :=
    ⟨nodup_visibleDirs.map (List.append_right_injective _), fun _ _ => List.not_mem_nil⟩
  have hwalk₁ : walkDir (sdsJoinPathLen aDir aKey) 0 (some (subkeyWalker host)) host none
      listNormalDirs 0 (fs, ⟨none, [], 0, 0, 0,
        some (iSubkeysWalker host iDBDuplicationKeyProcess), policy⟩, []) = _ :=
    walkDir_handles hat (map_filter_normalDirs hat hlinks)
      (@handles_subkeyWalker _ host fs ⟨none, [], 0, 0, 0, _, policy⟩ _ hc rfl rfl _ 0 [] hf)
      (Or.inl rfl)
  have hwalk₂ : ∀ left (walker : WalkDirHandler (TSubkeyWalkerRec × List Bytes)) u,
      walkDir (sdsJoinPathLen aDir aKey) left (some walker) host none listHiddenDirs 0 (fs, u) =
        (0, fs, u) := fun left walker u =>
    walkDir_handles hat ((map_filter_hiddenDirs hat hlinks).trans hno) .nil
      (Nat.eq_zero_or_pos left)
  obtain ⟨fuel, hfuel⟩ := walkFuel_succ fs.tree none
  rw [iSubkeys, iSubkeyWalk_none, keyWalk]
  simp only [hfuel, _iSubkeyWalk, hwalk₁, literalPattern, hwalk₂]
  simp

/-- In a run of puts that find room, every prefix of a stored path has one directory below
the base directory, and the list of a stored path has its subkeys, each of them once. -/
theorem path_keys_of_room (S : Start) (host host' : Host) (M : ℤ) (hM : M > 0)
    (puts : List PathPut) (hroom : S.HasRoom host M ⟨S.fs, []⟩ puts)
    (iDBDuplicationKeyProcess : TIDBProcesses) :
    (∀ p ∈ (S.pathRun host M puts).stored, ∀ q, q ≠ [] → q <+: p →
      ∃! l, PathAt S.loc q l ∧ (S.pathRun host M puts).fs.tree.isDir l) ∧
    ∀ p ∈ (S.pathRun host M puts).stored, ∃ keys,
      iSubkeys host' iDBDuplicationKeyProcess (S.pathRun host M puts).fs S.dir (pathVal p) none 0 0
          .dkReserved = some (some keys, (S.pathRun host M puts).fs) ∧
        keys.Nodup ∧ ∀ x, x ∈ keys ↔
          ∃ k : DotFreeKey,
            (∃ p' ∈ (S.pathRun host M puts).stored, p ++ [k] <+: p') ∧ k.val = x := by
  have h : PathStore S (S.pathRun host M puts) := Start.pathStore_run hM (PathStore.start S) hroom
  refine ⟨fun p hp q hq hpre => h.existsUnique_pathAt hp hq hpre, fun p hp => ?_⟩
  have hne := h.ne_nil p hp
  have hd := (h.dirs _ (below_pathLoc hne)).2 ⟨p, p, hp, hne, List.prefix_refl p, rfl⟩
  have hsuf : S.loc <:+ pathLoc S.loc p := (below_pathLoc hne).1
  have hat := (leads_pathNames S.dir S.loc p).isAt h.isAt hd
  rw [← joinName_pathVal S.dir hne, ← sdsJoinPathLen_eq h.isAt.ne_nil] at hat
  have hno : hiddenDirs host' (S.pathRun host M puts).fs.tree (pathLoc S.loc p) = [] := by
    rw [List.eq_nil_iff_forall_not_mem]
    intro c hc
    obtain ⟨hdc, hc⟩ := mem_hiddenDirs.1 hc
    exact h.isDir_not_hidden hsuf hdc hc
  refine ⟨_, iSubkeys_at iDBDuplicationKeyProcess hat
    (fun c => h.links _ (below_cons hsuf c)) hno, nodup_visibleDirs, fun x => ?_⟩
  rw [mem_visibleDirs]
  constructor
  · rintro ⟨hdx, -⟩
    obtain ⟨q, p', hp', hq, hpre, he⟩ := (h.dirs _ (below_cons hsuf x)).1 hdx
    obtain ⟨q, k, rfl⟩ := (List.eq_nil_or_concat' q).resolve_left hq
    rw [pathLoc_concat, List.cons.injEq] at he
    rw [pathLoc_inj he.2]
    exact ⟨k, ⟨p', hp', hpre⟩, he.1.symm⟩
  · rintro ⟨k, ⟨p', hp', hpre⟩, rfl⟩
    rw [← pathLoc_concat]
    exact ⟨(h.dirs _ (below_pathLoc (by simp))).2 ⟨_, p', hp', by simp, hpre, rfl⟩, k.visible⟩

/-- A put of the default attribute, in which nothing fails. -/
def PathPut.ofValue (k : DotFreeKey) (q : List DotFreeKey) (value : Bytes) : PathPut :=
  ⟨k :: q, List.cons_ne_nil k q, none, value, .none⟩

/-- `x` finds room, and `c` is a single character. -/
theorem path_keys_of_two_puts :
    let puts : List PathPut := [.ofValue keyX [] [49], .ofValue keyC [] [50]]
    rootStart.HasRoom plainHost 1 ⟨rootStart.fs, []⟩ puts ∧
      ∀ p ∈ (rootStart.pathRun plainHost 1 puts).stored, ∀ q, q ≠ [] → q <+: p →
        ∃! l, PathAt [] q l ∧ (rootStart.pathRun plainHost 1 puts).fs.tree.isDir l := by
  intro puts
  have hroom : rootStart.HasRoom plainHost 1 ⟨rootStart.fs, []⟩ puts :=
    ⟨Or.inr (Or.inl (by decide +kernel)), putLands_of_zero (v := [49]) (by decide +kernel),
      Or.inr (Or.inr ⟨keyC, rfl, by decide⟩), putLands_of_zero (v := [50]) (by decide +kernel),
      trivial⟩
  exact ⟨hroom, (path_keys_of_room rootStart plainHost plainHost 1 (by decide) puts hroom
    .dkIgnored).1⟩

/-- Beside `x` the key `ab` goes into a partition, where a listing of it does not look, and
a put of `ab/c` makes `ab` again by its plain name. -/
theorem path_key_has_two_homes :
    let s := rootStart.pathRun plainHost 1 [.ofValue keyX [] [49], .ofValue keyAb [] [50]]
    let s' := rootStart.pathStep plainHost 1 s (.ofValue keyAb [keyC] [51])
    [keyAb] ∈ s.stored ∧
      (iSubkeys plainHost .dkIgnored s.fs [slash] (pathVal [keyAb]) none 0 0
        .dkReserved).map (·.1) = some none ∧
      [keyAb] ∈ s'.stored ∧
      ¬∃! l, PathAt [] [keyAb] l ∧ s'.fs.tree.isDir l := by
  intro s s'
  have hplain : PathAt [] [keyAb] [[97, 98]] := pathAt_pathLoc [] [keyAb]
  have hhome : HomeAt [] keyAb.toKey 1 [[98], [dot, 97]] :=
    ⟨[[dot, 97]], [98], by decide, by simp [PlainParts, dot], by decide, by decide, rfl⟩
  have hpart : PathAt [] [keyAb] [[98], [dot, 97]] := .concat .nil hhome
  have hdirs : s'.fs.tree.isDir [[97, 98]] ∧ s'.fs.tree.isDir [[98], [dot, 97]] := by
    decide +kernel
  refine ⟨by decide +kernel, by decide +kernel, by decide +kernel, fun hu => ?_⟩
  exact absurd (hu.unique ⟨hplain, hdirs.1⟩ ⟨hpart, hdirs.2⟩) (by decide)

end Idb
