import Idb.Listing
import Idb.Processors

/-!
# Listing a store

After a run of puts, `iSubkeys` on the base directory lists the keys that have a directory, each of
them once, in whatever order `readdir` enumerates the entries, and `iSubkeyTotal` counts them. These
are the keys stored, unless a put made the directory of its key and could not write the attribute
(`subkeys_of_puts_iff`). The existence test agrees with the list on a key unless the key has no
directory and there is a partition directory behind its last character (`keyIsExists_iff_listed`).
-/

namespace Idb

open Posix FileSystem FileTree

/-- Some place of the key is a directory. -/
def HasHome (t : FileTree Xattrs) (d : Loc) (k : Key) : Prop :=
  ∃ i l, HomeAt d k i l ∧ t.isDir l

/-- There is no partition directory behind the last character of the key. -/
def NoEnd (t : FileTree Xattrs) (d : Loc) (k : Key) : Prop :=
  ∀ i p, EndAt d k i p → t.isDir p = false

/-! ## The list -/

theorem collects_iSubkeysWalker (host : Host) (iDBDuplicationKeyProcess policy : TIDBProcesses) :
    Collects (some (iSubkeysWalker host iDBDuplicationKeyProcess)) policy fun key => [key] := by
  refine ⟨fun key y hy => List.mem_singleton.1 hy, fun n aDir key part fs keys hkey => ?_⟩
  simp only [iSubkeysWalker, if_pos hkey, ite_self]

theorem collects_none (policy : TIDBProcesses) : Collects none policy fun _ => [] :=
  ⟨fun _ _ hy => absurd hy List.not_mem_nil, fun _ => rfl⟩

/-- The keys below `d`, in the order of a walk. -/
def keyList (host : Host) (t : FileTree Xattrs) (d : Loc) : List Bytes :=
  listing host t (t.nodes.keys.length + 2) d []

section

variable {M : ℤ} {host : Host} {fs : FileSystem} {D : Bytes} {d : Loc} {policy : TIDBProcesses}

namespace KeyDirs

variable (h : KeyDirs M fs D d)

include h

/-- The list holds the keys that have a home. -/
theorem mem_keyList {x : Bytes} :
    x ∈ keyList host fs.tree d ↔ ∃ k, HasHome fs.tree d k ∧ k.val = x := by
  rw [keyList, mem_listing h.dirs (spells_base _) h.isAt.isDir
    ((sizeAt_le _).trans (Nat.le_add_right _ _))]
  constructor
  · rintro ⟨k, i, l, hl, hd, -, hk⟩
    exact ⟨k, ⟨i, l, hl, hd⟩, hk⟩
  · rintro ⟨k, ⟨i, l, hl, hd⟩, hk⟩
    exact ⟨k, i, l, hl, hd, hl.below.1, hk⟩

theorem nodup_keyList : (keyList host fs.tree d).Nodup :=
  nodup_listing h.dirs h.unique (spells_base _) h.isAt.isDir
    ((sizeAt_le _).trans (Nat.le_add_right _ _))

/-- The walk hands every listed key to its processor and counts it. -/
theorem iSubkeyWalk_eq {aProcessor : Option WalkKeyHandler} {out : Bytes → List Bytes}
    (hc : Collects aProcessor policy out) (hlen : (keyList host fs.tree d).length < 2 ^ 64) :
    iSubkeyWalk host fs D [] none 0 0 aProcessor policy =
      some (((keyList host fs.tree d).length : ℤ), fs, (keyList host fs.tree d).flatMap out) := by
  have hat : fs.At (sdsJoinPathLen D []) d := by
    rw [sdsJoinPathLen_eq h.isAt.ne_nil]
    exact h.isAt.entry (by simp) h.isAt.isDir
  have hkeys : keyList host fs.tree d = listing host fs.tree (walkFuel fs.tree none) d [] :=
    (listing_walkFuel none _ _).symm
  have hnodup : (keyList host fs.tree d).Nodup := h.nodup_keyList
  rw [hkeys] at hlen hnodup ⊢
  obtain ⟨aRec', hwalk⟩ := @subkeyWalk_eq host fs d out h.links h.dirs h.parts
    (walkFuel fs.tree none) d D [] ⟨none, [], 0, 0, 0, aProcessor, policy⟩ []
    (spells_base _) hat (sizeAt_le_walkFuel _ _ _) rfl rfl hc (Or.inl rfl) hlen
    ⟨hnodup, fun _ _ => List.not_mem_nil⟩
  rw [iSubkeyWalk_none]
  simp only [keyWalk, hwalk, List.nil_append]

theorem iSubkeys_eq (iDBDuplicationKeyProcess : TIDBProcesses)
    (hlen : (keyList host fs.tree d).length < 2 ^ 64) :
    iSubkeys host iDBDuplicationKeyProcess fs D [] none 0 0 policy =
      some (some (keyList host fs.tree d), fs) := by
  rw [iSubkeys, h.iSubkeyWalk_eq (collects_iSubkeysWalker host _ policy) hlen]
  simp

theorem iSubkeyTotal_eq (hlen : (keyList host fs.tree d).length < 2 ^ 64) :
    iSubkeyTotal host fs D [] none policy = some ((keyList host fs.tree d).length : ℤ) := by
  rw [iSubkeyTotal, h.iSubkeyWalk_eq (collects_none policy) hlen]
  rfl

end KeyDirs

end

/-! ## Puts and the directories of keys -/

section

variable {M : ℤ} {host : Host} {fs fs' : FileSystem} {D : Bytes} {d l : Loc} {k : Key} {i : ℕ}
  {c : PutCall}

/-- The directories that a put makes are those of its key. -/
theorem PutInto.hasHome (hs : PutInto fs fs' d l) (hl : HomeAt d c.key.toKey i l)
    (hk : HasHome fs'.tree d k) : HasHome fs.tree d k ∨ k = c.key.toKey := by
  obtain ⟨j, l', hl', hd⟩ := hk
  rcases hs.grew.isDir_home hl hl' hd with hd | rfl
  · exact Or.inl ⟨j, l', hl', hd⟩
  · exact Or.inr (hl.inj hl').1.symm

theorem HasHome.mono (hk : HasHome fs.tree d k) (hs : PutInto fs fs' d l) :
    HasHome fs'.tree d k := by
  obtain ⟨j, l', hl', hd⟩ := hk
  exact ⟨j, l', hl', hs.grew.mono l' hd⟩

theorem HasHome.putCall (hk : HasHome fs.tree d k) (h : BaseDir fs D d) (c : PutCall) :
    HasHome (Idb.putCall host M D fs c).tree d k := by
  rcases putCall_cases h.isAt h.links host M c with he | ⟨i, l, -, -, -, hs⟩ | ⟨-, -, hs⟩
  · rwa [he]
  · exact hk.mono hs
  · exact hk.mono hs

/-- A put gives a home to no key but its own. -/
theorem hasHome_of_putCall (h : BaseDir fs D d)
    (hk : HasHome (putCall host M D fs c).tree d k) : HasHome fs.tree d k ∨ k = c.key.toKey := by
  rcases putCall_cases h.isAt h.links host M c with he | ⟨i, l, hl, -, -, hs⟩ | ⟨-, -, hs⟩
  · exact Or.inl (he ▸ hk)
  · exact hs.hasHome hl hk
  · obtain ⟨j, l', hl', hd⟩ := hk
    exact (hs.grew.way l' hd).imp (fun hd => ⟨j, l', hl', hd⟩) fun hc =>
      absurd (hc.2.eq_of_length_le hc.1.1.length_le) hc.1.2

/-- Only keys that were put have a directory. -/
theorem Start.hasHome_putCalls (S : Start) (host : Host) (M : ℤ) (calls : List PutCall)
    (hk : HasHome (S.putCalls host M calls).tree S.loc k) : ∃ c ∈ calls, c.key.toKey = k := by
  induction calls using List.reverseRecOn with
  | nil =>
    obtain ⟨i, l, hl, hd⟩ := hk
    exact absurd (S.empty l hl.below) (get_ne_none_of_isDir hd)
  | append_singleton calls c ih =>
    rw [Start.putCalls, List.foldl_concat] at hk
    rcases hasHome_of_putCall (S.keyDirs_putCalls host M calls).toBaseDir hk with hk | rfl
    · obtain ⟨c', hc', he⟩ := ih hk
      exact ⟨c', List.mem_append_left _ hc', he⟩
    · exact ⟨c, by simp, rfl⟩

/-- There are no more keys in the list than were put. -/
theorem Start.length_keyList_le (S : Start) (host host' : Host) (M : ℤ) (calls : List PutCall) :
    (keyList host' (S.putCalls host M calls).tree S.loc).length ≤
      (calls.map (·.key.val)).dedup.length := by
  have h := S.keyDirs_putCalls host M calls
  refine (List.subperm_of_subset h.nodup_keyList fun x hx => ?_).length_le
  obtain ⟨k, hk, rfl⟩ := h.mem_keyList.1 hx
  obtain ⟨c, hc, rfl⟩ := S.hasHome_putCalls host M calls hk
  exact List.mem_dedup.2 (List.mem_map.2 ⟨c, hc, rfl⟩)

end

/-! ## The keys stored -/

/-- What a put returns. -/
def putResult (host : Host) (iDBMaxPageCount : ℤ) (aDir : Bytes) (fs : FileSystem) (c : PutCall) :
    ℤ :=
  (iPutWith host iDBMaxPageCount c.faults fs aDir c.policy (some c.key.val) c.value c.attr
    c.storeType).2

/-- If a put makes the directory of its key, it can open the file of the attribute and no operation
on it fails. -/
def PutLands (host : Host) (iDBMaxPageCount : ℤ) (aDir : Bytes) (fs : FileSystem) (faults : Faults)
    (policy : TIDBProcesses) (aKey : Bytes) (aAttribute : Option Bytes) : Prop :=
  ∀ vDir, putDir host iDBMaxPageCount fs aDir policy (some aKey) = .ok vDir →
    directoryExists fs vDir ≠ pathIsDir → directoryExists (withDir fs vDir) vDir = pathIsDir →
      faults.file = none ∧
        ∃ l, (withDir fs vDir).resolve true (makeAttrFileName vDir aAttribute) = .ok l ∧
          (withDir fs vDir).tree.Writable l

/-- A put with file storage and a policy that is for puts. -/
def PutCall.IntoFile (c : PutCall) : Prop :=
  (c.policy = .dkIgnored ∨ c.policy = .dkStopped) ∧ c.storeType = storeInFile

section

variable {M : ℤ} {host : Host} {fs fs' : FileSystem} {D : Bytes} {d l : Loc} {k : Key} {i : ℕ}
  {c : PutCall} {policy : TIDBProcesses} {names : List Name} {faults : Faults}

/-- A key has a directory exactly if the place for it is one. -/
theorem KeyDirs.hasHome_iff (h : KeyDirs M fs D d) (hM : M > 0)
    (hp : PutPlace fs.tree (sizeT M) d k policy i l) : HasHome fs.tree d k ↔ fs.tree.isDir l :=
  ⟨fun ⟨_, _, hl', hd⟩ => hp.isDir_of_home (h.full hM) hl' hd, fun hd => ⟨i, l, hp.home, hd⟩⟩

/-- After a put the key has a home exactly when the directory chosen was made. -/
theorem KeyDirs.hasHome_put_iff (h : KeyDirs M fs D d) (hM : M > 0)
    (hp : PutPlace fs.tree (sizeT M) d k policy i l) (hs : PutInto fs fs' d l) :
    HasHome fs'.tree d k ↔ fs'.tree.isDir l := by
  refine ⟨fun hk => ?_, fun hd => ⟨i, l, hp.home, hd⟩⟩
  obtain ⟨j, l', hl', hd⟩ := hk
  rcases hs.grew.isDir_home hp.home hl' hd with hd' | rfl
  · exact hs.grew.mono l ((h.hasHome_iff hM hp).1 ⟨j, l', hl', hd'⟩)
  · exact hd

/-- A path below the base directory does not end in a slash. -/
theorem getLast?_names (hb : Below d (names.reverse ++ d)) (hn : ∀ n ∈ names, ValidName n) :
    (names.foldl joinName D).getLast? ≠ some slash := by
  obtain ⟨ns, n, rfl⟩ := (List.eq_nil_or_concat' names).resolve_left fun he => by
    rw [he] at hb
    exact not_below_self d hb
  rw [List.foldl_concat]
  exact getLast?_joinName (hn n (by simp)).component

/-- A put of a file succeeds exactly if the file can be opened and no operation on it fails. -/
theorem _iPutWith_zero_iff {path v : Bytes} {a : Option Bytes} :
    (_iPutWith faults fs path v a storeInFile).2 = 0 ↔ faults.file = none ∧
      ∃ l, fs.resolve true (makeAttrFileName path a) = .ok l ∧ fs.tree.Writable l := by
  have hput : (_iPutWith faults fs path v a storeInFile).2 =
      if (setDirValueWith faults fs path v a).2 then 0 else 1 := by
    simp [_iPutWith, storeInFile, storeInXattrBit, storeInFileBit, Int.testBit, Nat.testBit]
  rw [hput, setDirValueWith, ← @setDirValue_done _ _ v]
  rcases faults with ⟨_, _ | _ | written⟩
  · cases (setDirValue fs path v a).2 <;> simp
  · simp
  · simp

/-- A put that returns zero has made its directory. -/
theorem putLands_of_zero {key v : Bytes} {a : Option Bytes}
    (h : (iPutWith host M faults fs D policy (some key) v a storeInFile).2 = 0) :
    PutLands host M D fs faults policy key a := by
  intro vDir he hdir hmade
  rcases iPutWith_ok he v a storeInFile with ⟨hfile, hput⟩ | ⟨-, hput⟩
  · rw [hput] at h
    exact absurd (show pathIsFile = 0 from h) (by decide)
  · rw [hput] at h
    exact _iPutWith_zero_iff.1 h

/-- A put into the directory that some names lead to : it is there if the put succeeds, and it is
new and left without the attribute exactly if the file cannot be written. -/
theorem iPutWith_into_spec {key v : Bytes} {a : Option Bytes} (hat : fs.At D d)
    (hlinks : ∀ l, Below d l → fs.tree.NoLink l) (hb : Below d (names.reverse ++ d))
    (hn : ∀ n ∈ names, ValidName n)
    (he : putDir host M fs D policy (some key) = .ok (names.foldl joinName D)) :
    PutInto fs (iPutWith host M faults fs D policy (some key) v a storeInFile).1 d
      (names.reverse ++ d) ∧
    ((iPutWith host M faults fs D policy (some key) v a storeInFile).2 = 0 →
      (iPutWith host M faults fs D policy (some key) v a storeInFile).1.tree.isDir
        (names.reverse ++ d)) ∧
    (PutLands host M D fs faults policy key a ↔
      ((iPutWith host M faults fs D policy (some key) v a storeInFile).1.tree.isDir
          (names.reverse ++ d) →
        fs.tree.isDir (names.reverse ++ d) ∨
          (iPutWith host M faults fs D policy (some key) v a storeInFile).2 = 0)) := by
  simp only [PutLands, he, Except.ok.injEq, forall_eq']
  refine ⟨iPutWith_into hat hlinks hn he, ?_⟩
  set path := names.foldl joinName D with hpath
  have hleads : Leads D d path (names.reverse ++ d) := leads_names hn
  have hdir := hleads.directoryExists_iff hlinks hat
  rcases iPutWith_ok he v a storeInFile with ⟨hfile, hput⟩ | ⟨-, hput⟩
  · -- A file at the place stays, and the put fails.
    have hwith : withDir fs path = fs := by rw [withDir, if_neg (by rw [hfile]; decide)]
    have hcode : pathIsFile ≠ 0 := by decide
    rw [hput, hwith]
    exact ⟨fun h0 => absurd h0 hcode, fun _ => Or.inl, fun _ h0 h1 => absurd h1 h0⟩
  · have hmade := withDir_made fs path
    have hdir' := hleads.directoryExists_iff (fun q hb => hmade.noLink (hlinks q hb))
      (hat.keeps hmade.keeps hmade.cwd_eq)
    have hshape : SameShape (withDir fs path)
        (_iPutWith faults (withDir fs path) path v a storeInFile).1 := _iPutWith_shape
    have hsame : (_iPutWith faults (withDir fs path) path v a storeInFile).1.tree.isDir
        (names.reverse ++ d) ↔ (withDir fs path).tree.isDir (names.reverse ++ d) :=
      ⟨hshape.keepsBack.dir _, hshape.keeps.dir _⟩
    have hzero : (_iPutWith faults (withDir fs path) path v a storeInFile).2 = 0 ↔
        faults.file = none ∧ ∃ l, (withDir fs path).resolve true (makeAttrFileName path a) = .ok l ∧
          (withDir fs path).tree.Writable l := _iPutWith_zero_iff
    rw [hput, hsame, hzero, ne_eq, hdir, hdir']
    constructor
    · -- What is written lies behind the directory.
      rintro ⟨-, q, hq, -⟩
      obtain ⟨rest, hrest⟩ := makeAttrFileName_slash (a := a) (foldl_joinName_ne_nil hat.ne_nil)
        (getLast?_names hb hn)
      obtain ⟨p, hp⟩ := at_of_resolve (hrest ▸ hq) (foldl_joinName_ne_nil hat.ne_nil)
      exact hdir'.1 (directoryExists_at hp)
    · constructor
      · intro hlands hd
        by_cases h0 : fs.tree.isDir (names.reverse ++ d)
        · exact Or.inl h0
        · exact Or.inr (hlands h0 hd)
      · intro hor h0 hd
        exact (hor hd).resolve_left h0

/-- The directories of keys after a put. -/
theorem KeyDirs.putCall_spec (h : KeyDirs M fs D d) (hM : M > 0) (hc : c.IntoFile) :
    (putResult host M D fs c = 0 → HasHome (Idb.putCall host M D fs c).tree d c.key.toKey) ∧
    (PutLands host M D fs c.faults c.policy c.key.val c.attr ↔
      (HasHome (Idb.putCall host M D fs c).tree d c.key.toKey →
        HasHome fs.tree d c.key.toKey ∨ putResult host M D fs c = 0)) := by
  obtain ⟨hpol, ht⟩ := hc
  rw [Idb.putCall, putResult, ht]
  rcases putDir_cases h.isAt h.links host c.policy c.key.find with
    ⟨e, he⟩ | ⟨i, names, hl, hp, hi, hn, he⟩ | ⟨hign, hstop, -⟩
  · have hne := putDir_error he
    rw [Idb.iPutWith, he]
    exact ⟨fun h0 => absurd h0 hne, fun _ => Or.inl, fun _ path hpath => by simp [he] at hpath⟩
  · obtain ⟨hinto, hdone, hlands⟩ := iPutWith_into_spec (v := c.value) (a := c.attr) h.isAt h.links
      hl.below hn he
    rw [h.hasHome_iff hM (hp hM), h.hasHome_put_iff hM (hp hM) hinto]
    exact ⟨hdone, hlands⟩
  · rcases hpol with hpol | hpol
    · exact absurd hpol hign
    · exact absurd hpol hstop

end

/-- The keys put with success, in a run from `fs`. -/
def keysPut (host : Host) (iDBMaxPageCount : ℤ) (aDir : Bytes) :
    FileSystem → List PutCall → List Bytes
  | _, [] => []
  | fs, c :: calls =>
    (if putResult host iDBMaxPageCount aDir fs c = 0 then [c.key.val] else []) ++
      keysPut host iDBMaxPageCount aDir (putCall host iDBMaxPageCount aDir fs c) calls

/-- The keys put by one run after another. -/
theorem keysPut_append {host : Host} {M : ℤ} {D : Bytes} (fs : FileSystem)
    (calls calls' : List PutCall) : keysPut host M D fs (calls ++ calls') =
      keysPut host M D fs calls ++ keysPut host M D (calls.foldl (putCall host M D) fs) calls' := by
  induction calls generalizing fs with
  | nil => rfl
  | cons c calls ih =>
    rw [List.cons_append, keysPut, ih, keysPut, List.append_assoc]
    rfl

/-- A key that was put is a key of one of the calls. -/
theorem mem_map_of_mem_keysPut {host : Host} {M : ℤ} {D x : Bytes} {fs : FileSystem}
    {calls : List PutCall} (hx : x ∈ keysPut host M D fs calls) : x ∈ calls.map (·.key.val) := by
  induction calls generalizing fs with
  | nil => exact hx
  | cons c calls ih =>
    rw [keysPut, List.mem_append, List.mem_ite_nil_right, List.mem_singleton] at hx
    rcases hx with ⟨-, rfl⟩ | hx
    · exact List.mem_cons_self
    · exact List.mem_cons_of_mem _ (ih hx)

namespace Start

variable (S : Start) (host : Host) (M : ℤ) (calls : List PutCall)

/-- The keys put with success, each of them once. -/
def storedKeys : List Bytes :=
  (keysPut host M S.dir S.fs calls).dedup

theorem putCalls_concat (c : PutCall) :
    S.putCalls host M (calls ++ [c]) = putCall host M S.dir (S.putCalls host M calls) c := by
  rw [putCalls, List.foldl_concat]
  rfl

theorem mem_storedKeys_concat (c : PutCall) (x : Bytes) :
    x ∈ S.storedKeys host M (calls ++ [c]) ↔ x ∈ S.storedKeys host M calls ∨
      (putResult host M S.dir (S.putCalls host M calls) c = 0 ∧ c.key.val = x) := by
  simp only [storedKeys, List.mem_dedup, keysPut_append, List.mem_append, keysPut, List.append_nil,
    List.mem_ite_nil_right, List.mem_singleton, putCalls, eq_comm]

/-- The list has every key that was put with success once and nothing else, and the total is
their number. -/
def ListsStored : Prop :=
  ∀ (host' : Host) (iDBDuplicationKeyProcess policy : TIDBProcesses),
    (∃ keys, iSubkeys host' iDBDuplicationKeyProcess (S.putCalls host M calls) S.dir [] none 0 0
        .dkReserved = some (some keys, S.putCalls host M calls) ∧
      keys.Perm (S.storedKeys host M calls)) ∧
    iSubkeyTotal host' (S.putCalls host M calls) S.dir [] none policy =
      some ((S.storedKeys host M calls).length : ℤ)

variable {S host M calls}

/-- The listing is right when the keys with a home are the keys stored. -/
theorem listsStored_iff (hsize : (calls.map (·.key.val)).dedup.length < 2 ^ 63) :
    S.ListsStored host M calls ↔ ∀ k : DotFreeKey,
      HasHome (S.putCalls host M calls).tree S.loc k.toKey ↔ k.val ∈ S.storedKeys host M calls := by
  have h := S.keyDirs_putCalls host M calls
  have hlen : ∀ host', (keyList host' (S.putCalls host M calls).tree S.loc).length < 2 ^ 64 :=
    fun host' => by
      have := S.length_keyList_le host host' M calls
      omega
  have hmem : ∀ host' (k : DotFreeKey),
      k.val ∈ keyList host' (S.putCalls host M calls).tree S.loc ↔
        HasHome (S.putCalls host M calls).tree S.loc k.toKey := fun host' k => by
    rw [h.mem_keyList]
    exact ⟨fun ⟨k', hk', he⟩ => Key.ext_val he ▸ hk', fun hk => ⟨_, hk, rfl⟩⟩
  constructor
  · intro hlists k
    obtain ⟨⟨keys, he, hperm⟩, -⟩ := hlists host .dkIgnored .dkIgnored
    rw [h.iSubkeys_eq _ (hlen host), Option.some.injEq, Prod.mk.injEq, Option.some.injEq] at he
    rw [← hmem host, he.1, hperm.mem_iff]
  · intro hkeys host' dup policy
    have hnodup : (S.storedKeys host M calls).Nodup := List.nodup_dedup _
    have hperm : (keyList host' (S.putCalls host M calls).tree S.loc).Perm
        (S.storedKeys host M calls) := by
      refine (List.perm_ext_iff_of_nodup h.nodup_keyList hnodup).2 fun x => ?_
      constructor
      · intro hx
        obtain ⟨k, hk, rfl⟩ := h.mem_keyList.1 hx
        obtain ⟨c, -, rfl⟩ := S.hasHome_putCalls host M calls hk
        exact (hkeys c.key).1 hk
      · intro hx
        obtain ⟨c, -, rfl⟩ := List.mem_map.1 (mem_map_of_mem_keysPut (List.mem_dedup.1 hx))
        exact (hmem host' c.key).2 ((hkeys c.key).2 hx)
    exact ⟨⟨_, h.iSubkeys_eq dup (hlen host'), hperm⟩, by
      rw [h.iSubkeyTotal_eq (hlen host'), hperm.length_eq]⟩

/-- One more put keeps homes and stored keys the same exactly when it lands. -/
theorem hasHome_iff_concat {c : PutCall} (hM : M > 0) (hc : c.IntoFile)
    (hkeys : ∀ k : DotFreeKey, HasHome (S.putCalls host M calls).tree S.loc k.toKey ↔
      k.val ∈ S.storedKeys host M calls) :
    (∀ k : DotFreeKey, HasHome (S.putCalls host M (calls ++ [c])).tree S.loc k.toKey ↔
      k.val ∈ S.storedKeys host M (calls ++ [c])) ↔
        PutLands host M S.dir (S.putCalls host M calls) c.faults c.policy c.key.val c.attr := by
  have h := S.keyDirs_putCalls host M calls
  obtain ⟨hzero, hlands⟩ := h.putCall_spec hM hc
  simp only [putCalls_concat, mem_storedKeys_concat, ← hkeys]
  rw [hlands]
  constructor
  · intro hstep hk
    exact ((hstep c.key).1 hk).imp_right And.left
  · intro hstep k
    constructor
    · intro hk
      rcases hasHome_of_putCall h.toBaseDir hk with hold | he
      · exact Or.inl hold
      · obtain rfl := DotFreeKey.ext_key he
        exact (hstep hk).imp_right fun h0 => ⟨h0, rfl⟩
    · rintro (hold | ⟨h0, he⟩)
      · exact hold.putCall h.toBaseDir c
      · obtain rfl := DotFreeKey.ext_key (Key.ext_val he)
        exact hzero h0

end Start

/-- In a run of puts, the list is that of the keys stored after every put exactly if every put that
makes the directory of its key writes the attribute. -/
theorem subkeys_of_puts_iff (S : Start) (host : Host) (M : ℤ) (calls : List PutCall) (hM : M > 0)
    (hcalls : ∀ c ∈ calls, c.IntoFile)
    (hsize : (calls.map (·.key.val)).dedup.length < 2 ^ 63) :
    (∀ pre, pre <+: calls → S.ListsStored host M pre) ↔
      ∀ pre c, pre ++ [c] <+: calls →
        PutLands host M S.dir (S.putCalls host M pre) c.faults c.policy c.key.val c.attr := by
  have hpre : ∀ pre, pre <+: calls → (pre.map (·.key.val)).dedup.length < 2 ^ 63 := by
    intro pre hp
    refine lt_of_le_of_lt (List.Subperm.length_le ?_) hsize
    refine List.subperm_of_subset (List.nodup_dedup _) fun x hx => ?_
    rw [List.mem_dedup] at hx ⊢
    exact (hp.map _).subset hx
  have hmem : ∀ {pre c}, pre ++ [c] <+: calls → c.IntoFile := fun hp =>
    hcalls _ (hp.subset (by simp))
  constructor
  · intro hlists pre c hp
    have hp' := (List.prefix_append pre [c]).trans hp
    exact (Start.hasHome_iff_concat hM (hmem hp)
      ((Start.listsStored_iff (hpre pre hp')).1 (hlists pre hp'))).1
        ((Start.listsStored_iff (hpre _ hp)).1 (hlists _ hp))
  · intro hlands pre hp
    refine (Start.listsStored_iff (hpre pre hp)).2 ?_
    clear hsize
    induction pre using List.reverseRecOn with
    | nil =>
      intro k
      refine ⟨?_, fun hk => absurd hk List.not_mem_nil⟩
      rintro ⟨i, l, hl, hd⟩
      exact absurd (S.empty l hl.below) (get_ne_none_of_isDir hd)
    | append_singleton pre c ih =>
      exact (Start.hasHome_iff_concat hM (hmem hp)
        (ih ((List.prefix_append pre [c]).trans hp))).2 (hlands pre c hp)

/-- One key in the directory and one in a partition. -/
theorem subkeys_of_puts_iff_partition :
    ((1 : ℤ) > 0 ∧ (∀ c ∈ partitionCalls, c.IntoFile) ∧
        (partitionCalls.map (·.key.val)).dedup.length < 2 ^ 63) ∧
      ((∀ pre, pre <+: partitionCalls → rootStart.ListsStored plainHost 1 pre) ↔
        ∀ pre c, pre ++ [c] <+: partitionCalls →
          PutLands plainHost 1 rootStart.dir (rootStart.putCalls plainHost 1 pre) c.faults c.policy
            c.key.val c.attr) := by
  have hcalls : ∀ c ∈ partitionCalls, c.IntoFile := by
    intro c hc
    simp only [partitionCalls, List.mem_cons, List.not_mem_nil, or_false] at hc
    rcases hc with rfl | rfl <;> exact ⟨Or.inl rfl, rfl⟩
  have hsize : (partitionCalls.map (·.key.val)).dedup.length < 2 ^ 63 := by decide
  exact ⟨⟨by decide, hcalls, hsize⟩,
    subkeys_of_puts_iff rootStart plainHost 1 partitionCalls (by decide) hcalls hsize⟩

/-- The attribute `.` of `a` cannot be written, as it is the directory itself. -/
def dotCalls : List PutCall :=
  [⟨keyA, some [dot], [49], .dkIgnored, storeInFile, .none⟩]

/-- The put fails, and the key is listed and counted. -/
theorem subkeys_of_failedPut :
    putResult plainHost 1 [slash] rootStart.fs
        ⟨keyA, some [dot], [49], .dkIgnored, storeInFile, .none⟩ ≠ 0 ∧
      rootStart.storedKeys plainHost 1 dotCalls = [] ∧
      (iSubkeys plainHost .dkIgnored (rootStart.putCalls plainHost 1 dotCalls) [slash] [] none 0 0
        .dkReserved).map (·.1) = some (some [keyA.val]) ∧
      iSubkeyTotal plainHost (rootStart.putCalls plainHost 1 dotCalls) [slash] [] none .dkIgnored =
        some 1 := by
  decide +kernel

/-! ## The existence test and the list -/

/-- The existence test agrees with the list on a key exactly if the key has a directory or there is
no partition directory behind its last character. -/
theorem keyIsExists_iff_listed (S : Start) (host host' : Host) (M : ℤ) (calls : List PutCall)
    (iDBDuplicationKeyProcess : TIDBProcesses) (k : DotFreeKey) (hM : M > 0)
    (hsize : (calls.map (·.key.val)).dedup.length < 2 ^ 63) :
    (iKeyIsExists M (S.putCalls host M calls) S.dir k.val = pathIsDir ↔
      ∃ keys fs, iSubkeys host' iDBDuplicationKeyProcess (S.putCalls host M calls) S.dir [] none 0 0
        .dkIgnored = some (some keys, fs) ∧ k.val ∈ keys) ↔
      HasHome (S.putCalls host M calls).tree S.loc k.toKey ∨
        NoEnd (S.putCalls host M calls).tree S.loc k.toKey := by
  have h := S.keyDirs_putCalls host M calls
  have hlen : (keyList host' (S.putCalls host M calls).tree S.loc).length < 2 ^ 64 := by
    have := S.length_keyList_le host host' M calls
    omega
  have hlisted : (∃ keys fs, iSubkeys host' iDBDuplicationKeyProcess (S.putCalls host M calls) S.dir
      [] none 0 0 .dkIgnored = some (some keys, fs) ∧ k.val ∈ keys) ↔
        HasHome (S.putCalls host M calls).tree S.loc k.toKey := by
    rw [h.iSubkeys_eq iDBDuplicationKeyProcess hlen]
    constructor
    · rintro ⟨keys, fs, he, hk⟩
      rw [Option.some.injEq, Prod.mk.injEq, Option.some.injEq] at he
      rw [← he.1, h.mem_keyList] at hk
      obtain ⟨k', hk', he⟩ := hk
      exact Key.ext_val he ▸ hk'
    · exact fun hk => ⟨_, _, rfl, h.mem_keyList.2 ⟨_, hk, rfl⟩⟩
  rw [hlisted, h.toBaseDir.iKeyIsExists_spec (k := k.toKey) hM k.look]
  constructor
  · intro hagree
    by_contra hcond
    rw [not_or] at hcond
    refine hcond.2 fun i p hp => ?_
    by_contra hd
    exact hcond.1 (hagree.1 ⟨i, p, Or.inr hp, by simpa using hd⟩)
  · intro hcond
    constructor
    · rintro ⟨i, l, hs | hs, hd⟩
      · exact ⟨i, l, hs, hd⟩
      · refine hcond.resolve_right fun hno => ?_
        simp [hno i l hs] at hd
    · rintro ⟨i, l, hl, hd⟩
      exact ⟨i, l, Or.inl hl, hd⟩

/-- The two agree on `a`. -/
theorem keyIsExists_iff_listed_stored :
    (1 : ℤ) > 0 ∧ (partitionCalls.map (·.key.val)).dedup.length < 2 ^ 63 ∧
      (iKeyIsExists 1 (rootStart.putCalls plainHost 1 partitionCalls) rootStart.dir keyA.val =
          pathIsDir ↔
        ∃ keys fs, iSubkeys plainHost .dkIgnored (rootStart.putCalls plainHost 1 partitionCalls)
          rootStart.dir [] none 0 0 .dkIgnored = some (some keys, fs) ∧ keyA.val ∈ keys) := by
  have hsize : (partitionCalls.map (·.key.val)).dedup.length < 2 ^ 63 := by decide
  refine ⟨by decide, hsize, (keyIsExists_iff_listed rootStart plainHost plainHost 1 partitionCalls
    .dkIgnored keyA (by decide) hsize).2 (Or.inl ⟨0, _, homeAt_zero _ _, ?_⟩)⟩
  decide +kernel

/-- `c` exists by the test, though only `a` and `cy` are listed. -/
theorem keyIsExists_of_partition :
    iKeyIsExists 1 (rootStart.putCalls plainHost 1 partitionCalls) [slash] keyC.val = pathIsDir ∧
      (iSubkeys plainHost .dkIgnored (rootStart.putCalls plainHost 1 partitionCalls) [slash] [] none
        0 0 .dkIgnored).map (·.1) = some (some [keyA.val, keyCy.val]) := by
  decide +kernel

end Idb
