import Idb.PutReads

/-!
# Runs of puts of every kind

`putCalls` is a run of puts on a base directory that starts empty, with any page limit, any
attributes and values, any way to store them and any policy, and whatever writes fail. Which
directories there are does not depend on what is written into them : they are partition directories
and directories of keys, and no key has two (`KeyDirs`, `Start.keyDirs_putCalls`).
-/

namespace Idb

open Posix FileSystem FileTree

/-- What a put of a single key is given, and which of its writes fail. A value of more than `ioMax`
bytes is one of them, as a single `write` cuts it short. -/
structure PutCall where
  key : DotFreeKey
  attr : Option Bytes
  value : Bytes
  policy : TIDBProcesses
  storeType : ℤ
  faults : Faults

/-- A put of the default attribute, in which nothing fails. -/
def PutCall.ofValue (key : DotFreeKey) (value : Bytes) : PutCall :=
  ⟨key, none, value, .dkIgnored, storeInFile, .none⟩

/-- A base directory that starts empty. -/
structure Start where
  fs : FileSystem
  dir : Bytes
  loc : Loc
  isAt : fs.At dir loc
  empty : ∀ l, Below loc l → fs.tree.get l = none

/-- The root of an empty tree. -/
def rootStart : Start :=
  ⟨rootBase.fs, rootBase.dir, rootBase.loc, rootBase.isAt, rootBase.empty⟩

/-- The file system after a put. -/
def putCall (host : Host) (iDBMaxPageCount : ℤ) (aDir : Bytes) (fs : FileSystem) (c : PutCall) :
    FileSystem :=
  (iPutWith host iDBMaxPageCount c.faults fs aDir c.policy (some c.key.val) c.value c.attr
    c.storeType).1

/-- The file system after a sequence of puts. -/
def Start.putCalls (S : Start) (host : Host) (iDBMaxPageCount : ℤ) (calls : List PutCall) :
    FileSystem :=
  calls.foldl (putCall host iDBMaxPageCount S.dir) S.fs

/-- The directories below `d` when every put had the page limit `M`. -/
structure KeyDirs (M : ℤ) (fs : FileSystem) (D : Bytes) (d : Loc) : Prop
    extends BaseDir fs D d where
  dirs : DirsOfKeys fs.tree d
  unique : ∀ k, HomeUnique fs.tree d k
  parts : PartsHoldKeys fs.tree d
  full : M > 0 → FullParents fs.tree (sizeT M) d
  flat : ¬M > 0 → ∀ k i p, PartAt d k (i + 1) p → fs.tree.isDir p = false

section

variable {M : ℤ} {host : Host} {fs fs' : FileSystem} {D : Bytes} {d l : Loc} {k : Key} {i : ℕ}
  {names : List Name} {faults : Faults} {v : Bytes} {a : Option Bytes} {t : ℤ}

/-! ## One put -/

/-- The directory some names lead to is made with what is missing on the way. -/
theorem withDir_names (hat : fs.At D d) (hlinks : ∀ l, Below d l → fs.tree.NoLink l)
    (hn : ∀ n ∈ names, ValidName n) :
    MadeOn (fun q => Below d q ∧ q <:+ names.reverse ++ d) fs
        (withDir fs (names.foldl joinName D)) ∧
      ((withDir fs (names.foldl joinName D)).tree.isDir (names.reverse ++ d) ∨
        ∀ q, (withDir fs (names.foldl joinName D)).tree.get q = fs.tree.get q) := by
  have hlinks' : ∀ q, Below d q → q <:+ names.reverse ++ d → fs.tree.NoLink q :=
    fun q hb _ => hlinks q hb
  unfold withDir
  split_ifs
  · exact ⟨(forceDirectories_valid hat hn hlinks').1,
      (forceDirectories_whole hat hn hlinks').imp_left fun h => h.isDir⟩
  · exact ⟨MadeOn.refl _ fs, Or.inr fun _ => rfl⟩

/-- A put into the directory that some names lead to : it is made with all that is missing on the
way, or nothing is made. -/
structure PutInto (fs fs' : FileSystem) (d l : Loc) : Prop where
  keeps : fs.tree.Keeps fs'.tree
  cwd_eq : fs'.cwd = fs.cwd
  noLink : ∀ q, fs.tree.NoLink q → fs'.tree.NoLink q
  grew : Grew fs.tree fs'.tree d l
  whole : fs'.tree.isDir l ∨ ∀ q, fs'.tree.isDir q → fs.tree.isDir q

theorem PutInto.refl (fs : FileSystem) (d l : Loc) : PutInto fs fs d l :=
  ⟨Keeps.refl _, rfl, fun _ h => h, ⟨fun _ h => h, fun _ h => Or.inl h⟩, Or.inr fun _ h => h⟩

theorem PutInto.baseDir (hs : PutInto fs fs' d l) (h : BaseDir fs D d) : BaseDir fs' D d :=
  ⟨h.anchored.keeps hs.keeps hs.cwd_eq, fun q hb => hs.noLink q (h.links q hb)⟩

/-- The directories after a put that made its directory, or found it. -/
theorem PutInto.isDir_iff_way (hs : PutInto fs fs' d l) (hd : fs'.tree.isDir l) (q : Loc) :
    fs'.tree.isDir q ↔ fs.tree.isDir q ∨ (Below d q ∧ q <:+ l) := by
  refine ⟨hs.grew.way q, ?_⟩
  rintro (hold | ⟨-, hsuf⟩)
  · exact hs.grew.mono q hold
  · exact isDir_of_suffix hsuf hd

/-- A put that does not make its directory makes none. -/
theorem PutInto.isDir_iff_same (hs : PutInto fs fs' d l) (hold : fs'.tree.isDir l → fs.tree.isDir l)
    (q : Loc) : fs'.tree.isDir q ↔ fs.tree.isDir q := by
  refine ⟨fun hq => ?_, hs.grew.mono q⟩
  rcases hs.whole with hd | hsame
  · exact (hs.grew.way q hq).elim id fun hc => isDir_of_suffix hc.2 (hold hd)
  · exact hsame q hq

/-- Whatever file operation fails, a put changes only the attribute's file in its directory. -/
theorem _iPutWith_into (hm : MadeOn (fun q => Below d q ∧ q <:+ l) fs fs')
    (hw : fs'.tree.isDir l ∨ ∀ q, fs'.tree.get q = fs.tree.get q) :
    PutInto fs (_iPutWith faults fs' D v a t).1 d l := by
  have hs : SameShape fs' (_iPutWith faults fs' D v a t).1 := _iPutWith_shape
  refine ⟨hm.keeps.trans hs.keeps, hs.cwd_eq.trans hm.cwd_eq,
    fun q hq => hs.noLink (hm.noLink hq), ⟨fun q hd => hs.keeps.dir q (hm.keeps.dir q hd),
      fun q hd => ?_⟩, ?_⟩
  · have hd' := hs.keepsBack.dir q hd
    rcases hm.get_cases q with he | ⟨hway, -⟩
    · exact Or.inl (by rwa [FileTree.isDir, he] at hd')
    · exact Or.inr hway
  · refine hw.imp (hs.keeps.dir l) fun hsame q hd => ?_
    rw [FileTree.isDir, ← hsame q]
    exact hs.keepsBack.dir q hd

/-- What a put does once it has chosen a path. -/
theorem iPutWith_into {policy : TIDBProcesses} {key : Bytes} (hat : fs.At D d)
    (hlinks : ∀ l, Below d l → fs.tree.NoLink l) (hn : ∀ n ∈ names, ValidName n)
    (hput : putDir host M fs D policy (some key) = .ok (names.foldl joinName D)) :
    PutInto fs (iPutWith host M faults fs D policy (some key) v a t).1 d (names.reverse ++ d) := by
  rcases iPutWith_ok hput v a t with ⟨-, he⟩ | ⟨-, he⟩
  · rw [he]
    exact PutInto.refl _ _ _
  · rw [he]
    obtain ⟨hm, hw⟩ := withDir_names hat hlinks hn
    exact _iPutWith_into hm hw

/-- A put finds no place, or the place for the key, which without a page limit is the directory of
its name. With a policy that is not for a put it can be a directory that is there. -/
theorem putDir_cases (hat : fs.At D d) (hlinks : ∀ l, Below d l → fs.tree.NoLink l) (host : Host)
    (policy : TIDBProcesses) (hk : DotFreeFind fs.tree (sizeT M) d k) :
    (∃ e, putDir host M fs D policy (some k.val) = .error e) ∨
    (∃ i, ∃ names : List Name, HomeAt d k i (names.reverse ++ d) ∧
      (M > 0 → PutPlace fs.tree (sizeT M) d k policy i (names.reverse ++ d)) ∧
      (¬M > 0 → i = 0) ∧ (∀ n ∈ names, ValidName n) ∧
      putDir host M fs D policy (some k.val) = .ok (names.foldl joinName D)) ∨
    (policy ≠ .dkIgnored ∧ policy ≠ .dkStopped ∧ ∃ path p, fs.At path p ∧
      putDir host M fs D policy (some k.val) = .ok path) := by
  have hjoin : sdsJoinPathLen D k.val = joinName D k.val := sdsJoinPathLen_eq hat.ne_nil _
  by_cases hM : M > 0
  · have hput : putDir host M fs D policy (some k.val) =
        iFindKeyDirToPut host fs (joinName D k.val) M policy := by
      simp [putDir, hM, hjoin]
    rw [hput]
    rcases iFindKeyDirToPut_cases host hat hlinks hk with
      ⟨e, -, he⟩ | ⟨i, l, names, hp, hn, rfl, he⟩ | hother
    · exact Or.inl ⟨e, he⟩
    · exact Or.inr (Or.inl ⟨i, names, hp.home, fun _ => hp, fun h => absurd hM h, hn, he⟩)
    · exact Or.inr (Or.inr hother)
  · have hvalid : ValidName k.val := ⟨plain_of_head? k.component.1 k.visible, k.component.2⟩
    exact Or.inr (Or.inl ⟨0, [k.val], homeAt_zero d k, fun h => absurd h hM, fun _ => rfl,
      List.forall_mem_singleton.2 hvalid, by simp [putDir, hM, hjoin]⟩)

/-- A put does nothing, or goes into the place for the key. -/
theorem iPutWith_cases (hat : fs.At D d) (hlinks : ∀ l, Below d l → fs.tree.NoLink l) (host : Host)
    (faults : Faults) (policy : TIDBProcesses) (v : Bytes) (a : Option Bytes) (t : ℤ)
    (hk : DotFreeFind fs.tree (sizeT M) d k) :
    (iPutWith host M faults fs D policy (some k.val) v a t).1 = fs ∨
    (∃ i l, HomeAt d k i l ∧ (M > 0 → PutPlace fs.tree (sizeT M) d k policy i l) ∧
      (¬M > 0 → i = 0) ∧
      PutInto fs (iPutWith host M faults fs D policy (some k.val) v a t).1 d l) ∨
    (policy ≠ .dkIgnored ∧ policy ≠ .dkStopped ∧
      PutInto fs (iPutWith host M faults fs D policy (some k.val) v a t).1 d d) := by
  rcases putDir_cases hat hlinks host policy hk with
    ⟨e, he⟩ | ⟨i, names, hl, hp, hi, hn, he⟩ | ⟨hign, hstop, path, p, hp, he⟩
  · rw [iPutWith, he]
    exact Or.inl rfl
  · exact Or.inr (Or.inl ⟨i, _, hl, hp, hi, iPutWith_into hat hlinks hn he⟩)
  · have hdir := directoryExists_at hp
    refine Or.inr (Or.inr ⟨hign, hstop, ?_⟩)
    rcases iPutWith_ok he v a t with ⟨-, he⟩ | ⟨-, he⟩
    · rw [he]
      exact PutInto.refl _ _ _
    · rw [he, withDir, if_neg (by rw [hdir]; decide)]
      exact _iPutWith_into (MadeOn.refl _ fs) (Or.inr fun _ => rfl)

/-- A put does nothing, or goes to a home of its key. With a policy that is for neither, it goes to
the base directory. -/
theorem putCall_cases (hat : fs.At D d) (hlinks : ∀ l, Below d l → fs.tree.NoLink l) (host : Host)
    (M : ℤ) (c : PutCall) : putCall host M D fs c = fs ∨
    (∃ i l, HomeAt d c.key.toKey i l ∧
      (M > 0 → PutPlace fs.tree (sizeT M) d c.key.toKey c.policy i l) ∧ (¬M > 0 → i = 0) ∧
      PutInto fs (putCall host M D fs c) d l) ∨
    (c.policy ≠ .dkIgnored ∧ c.policy ≠ .dkStopped ∧ PutInto fs (putCall host M D fs c) d d) :=
  iPutWith_cases (k := c.key.toKey) hat hlinks host c.faults c.policy c.value c.attr c.storeType
    c.key.find

theorem BaseDir.putCall (h : BaseDir fs D d) (host : Host) (M : ℤ) (c : PutCall) :
    BaseDir (putCall host M D fs c) D d := by
  rcases putCall_cases h.isAt h.links host M c with he | ⟨i, l, -, -, -, hs⟩ | ⟨-, -, hs⟩
  · rwa [he]
  · exact hs.baseDir h
  · exact hs.baseDir h

namespace KeyDirs

variable (h : KeyDirs M fs D d)

include h

/-- A put keeps the directories of the keys in order. -/
theorem putInto_place {policy : TIDBProcesses}
    (hp : PutPlace fs.tree (sizeT M) d k policy i l) (hM : M > 0) (hs : PutInto fs fs' d l) :
    KeyDirs M fs' D d where
  toBaseDir := hs.baseDir h.toBaseDir
  dirs := hs.grew.dirsOfKeys hp.home h.dirs
  unique k' := hs.grew.homeUnique hp (h.full hM) (h.unique k')
  parts := hs.grew.partsHoldKeys hp.home hs.whole h.parts
  full hM := hs.grew.fullParents hp (h.full hM)
  flat hM' := absurd hM hM'

/-- A put into a directory that was there before. -/
theorem putInto_dir (hd : fs.tree.isDir l) (hs : PutInto fs fs' d l) : KeyDirs M fs' D d := by
  have hiff : ∀ q, fs'.tree.isDir q → fs.tree.isDir q := fun q hq =>
    (hs.grew.way q hq).elim id fun hc => isDir_of_suffix hc.2 hd
  refine ⟨hs.baseDir h.toBaseDir, fun q hb hq => h.dirs q hb (hiff q hq),
    fun k i j l l' hl hl' hd hd' => h.unique k i j l l' hl hl' (hiff l hd) (hiff l' hd'),
    fun k i p hp hq => ?_,
    fun hM k i p hp hq => (h.full hM k i p hp (hiff p hq)).trans ?_, fun hM k i p hp => ?_⟩
  · obtain ⟨k₁, j, l₁, hl₁, hsuf, hd₁⟩ := h.parts k i p hp (hiff p hq)
    exact ⟨k₁, j, l₁, hl₁, hsuf, hs.grew.mono l₁ hd₁⟩
  · exact visibleCount_mono fun c _ hc => hs.grew.mono _ hc
  · have := h.flat hM k i p hp
    by_contra hq
    rw [hiff p (by simpa using hq)] at this
    simp at this

/-- Without a page limit a put goes to the directory itself. -/
theorem putInto_flat (hM : ¬M > 0) (hs : PutInto fs fs' d (k.val :: d)) : KeyDirs M fs' D d := by
  have hhome := homeAt_zero d k
  have hflat : ∀ k' i p, PartAt d k' (i + 1) p → fs'.tree.isDir p = false := by
    intro k' i p hp
    by_contra hd
    rcases hs.grew.way p (by simpa using hd) with hd | ⟨-, hsuf⟩
    · simp [h.flat hM k' i p hp] at hd
    · rcases hhome.of_suffix hp.suffix hsuf with rfl | ⟨j, hj, hp'⟩
      · exact hhome.not_partAt hp
      · obtain ⟨j, rfl⟩ := hp'.exists_succ hp.below
        exact absurd hj (Nat.not_succ_le_zero j)
  refine ⟨hs.baseDir h.toBaseDir, hs.grew.dirsOfKeys hhome h.dirs,
    fun k' i j l l' hl hl' hd hd' => ?_, fun k i p hp hd => ?_, fun hM' => absurd hM' hM,
    fun _ => hflat⟩
  · -- Behind a partition there is no directory.
    have hzero : ∀ i l, HomeAt d k' i l → fs'.tree.isDir l → i = 0 := by
      intro i l hl hd
      by_contra hi
      obtain ⟨i, rfl⟩ := Nat.exists_eq_succ_of_ne_zero hi
      obtain ⟨r, p, -, -, hp, rfl⟩ := hl.exists_part
      exact absurd (isDir_of_cons hd) (by simp [hflat k' i p hp])
    rw [hzero i l hl hd, hzero j l' hl' hd']
  · simp [hflat k i p hp] at hd

/-- A put keeps what holds of the directories. -/
theorem iPutWith (host : Host) (faults : Faults) (policy : TIDBProcesses) (v : Bytes)
    (a : Option Bytes) (t : ℤ) (hk : DotFreeFind fs.tree (sizeT M) d k) :
    KeyDirs M (iPutWith host M faults fs D policy (some k.val) v a t).1 D d := by
  rcases iPutWith_cases h.isAt h.links host faults policy v a t hk with
    he | ⟨i, l, hl, hp, hi, hs⟩ | ⟨-, -, hs⟩
  · rwa [he]
  · by_cases hM : M > 0
    · exact h.putInto_place (hp hM) hM hs
    · obtain rfl := hi hM
      exact h.putInto_flat hM (hl.unique (homeAt_zero d k) ▸ hs)
  · exact h.putInto_dir h.isAt.isDir hs

theorem putCall (host : Host) (c : PutCall) : KeyDirs M (putCall host M D fs c) D d :=
  h.iPutWith (k := c.key.toKey) host c.faults c.policy c.value c.attr c.storeType c.key.find

end KeyDirs

end

/-- At the start there are no keys. -/
theorem Start.keyDirs_start (S : Start) : KeyDirs M S.fs S.dir S.loc := by
  refine ⟨⟨Anchored.of_empty S.isAt S.empty, fun l hb => by simp [NoLink, S.empty l hb]⟩,
    fun l hb hd => absurd (S.empty l hb) (get_ne_none_of_isDir hd),
    fun _ _ _ l _ hl _ hd => absurd (S.empty l hl.below) (get_ne_none_of_isDir hd),
    fun _ _ p hp hd => absurd (S.empty p hp.below) (get_ne_none_of_isDir hd),
    fun _ _ _ p hp hd => absurd (S.empty p hp.below) (get_ne_none_of_isDir hd),
    fun _ _ _ p hp => ?_⟩
  simp [FileTree.isDir, S.empty p hp.below]

/-! ## Runs -/

/-- In every state of a run each directory below the base directory is a partition directory or
that of a key, and no key has two. -/
theorem Start.keyDirs_putCalls (S : Start) (host : Host) (M : ℤ) (calls : List PutCall) :
    KeyDirs M (S.putCalls host M calls) S.dir S.loc := by
  exact List.foldlRecOn (motive := fun fs => KeyDirs M fs S.dir S.loc) calls
    (putCall host M S.dir) S.keyDirs_start fun _ h c _ => h.putCall host c

/-- A call with file storage on a base directory. -/
inductive StoreCall where
  | put (c : PutCall)
  | delete (key : DotFreeKey) (attr : Option Bytes)
  | keyDelete (key : DotFreeKey)

/-- The file system after a put or a delete. -/
def storeCall (host : Host) (iDBMaxPageCount : ℤ) (aDir : Bytes) (fs : FileSystem) :
    StoreCall → FileSystem
  | .put c => putCall host iDBMaxPageCount aDir fs c
  | .delete key attr => (iDelete iDBMaxPageCount fs aDir key.val attr storeInFile).1
  | .keyDelete key => (iKeyDelete host iDBMaxPageCount fs aDir key.val).1

/-- The file system after a sequence of puts and deletes. -/
def Start.run (S : Start) (host : Host) (iDBMaxPageCount : ℤ) (calls : List StoreCall) :
    FileSystem :=
  calls.foldl (storeCall host iDBMaxPageCount S.dir) S.fs

/-- The call deletes no single attribute. -/
def StoreCall.OnKey : StoreCall → Prop
  | .delete _ _ => False
  | _ => True

instance : DecidablePred StoreCall.OnKey
  | .put _ => .isTrue trivial
  | .delete _ _ => .isFalse id
  | .keyDelete _ => .isTrue trivial

/-- A deletion leaves a base directory. -/
theorem BaseDir.keyDelete {M : ℤ} {fs : FileSystem} {D : Bytes} {d : Loc} (h : BaseDir fs D d)
    (hM : M > 0) (host : Host) (k : DotFreeKey) :
    BaseDir (iKeyDelete host M fs D k.val).1 D d := by
  rcases @BaseDir.iKeyDelete_spec _ _ _ k.toKey host _ h hM k.look with
    ⟨i, l, fs', hl, -, -, he, hc, hr⟩ | ⟨-, he⟩
  · rw [he]
    exact (Shrunk.of_removed hc hl.below hr).baseDir h
  · rwa [he]

/-- After puts and deletions of keys the base directory is where it was. -/
theorem Start.baseDir_run (S : Start) (host : Host) {M : ℤ} (hM : M > 0) {calls : List StoreCall}
    (hcalls : ∀ c ∈ calls, c.OnKey) : BaseDir (S.run host M calls) S.dir S.loc := by
  have hstart : BaseDir S.fs S.dir S.loc := (@Start.keyDirs_start M S).toBaseDir
  refine List.foldlRecOn (motive := fun fs => BaseDir fs S.dir S.loc) calls (storeCall host M S.dir)
    hstart fun fs h c hc => ?_
  cases c with
  | put c => exact h.putCall host M c
  | delete key attr => exact (hcalls _ hc).elim
  | keyDelete key => exact h.keyDelete hM host key

end Idb
