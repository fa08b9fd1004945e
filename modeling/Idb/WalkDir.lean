import Idb.Directories

/-!
# Walking a directory

`WalkDir` goes through the entries of a directory, selects them by visibility, type
and pattern, and hands each selected one to a processor until the processor stops it
or the requested number is reached. `CountDir` is the walk without a processor.

The processor may change the file system, so the walk carries it. As long as it does
not, the walk is a walk over the selected entries alone (`walkLoop_eq`), and counting
visible subdirectories is counting names (`countDir_normalDirs`).
-/

namespace Idb

open Posix FileSystem

/-! ## Options and results -/

/-- The option bits. -/
def listDir : ℕ :=
  2

/-- The bit for files. -/
def listFile : ℕ :=
  3

/-- The bit for links. -/
def listSymbolic : ℕ :=
  4

/-- The bit for links that lead nowhere. -/
def listSymbolicNone : ℕ :=
  5

/-- The bit for entries whose names begin with a dot. -/
def listHiddenFile : ℕ :=
  6

/-- The bit for the other entries. -/
def listNormalFile : ℕ :=
  7

/-- `LIST_DIRS | 1 << LIST_SYMBOLIC`. -/
def listNormalDirs : ℕ :=
  1 <<< listDir ||| 1 <<< listNormalFile ||| 1 <<< listSymbolic

/-- Hidden directories, and links to such. -/
def listHiddenDirs : ℕ :=
  1 <<< listDir ||| 1 <<< listSymbolic ||| 1 <<< listHiddenFile

/-- The item counts, and the walk goes on. -/
def walkItemOk : ℤ :=
  0

/-- The item does not count. -/
def walkItemSkip : ℤ :=
  1

/-- The walk stops. -/
def walkItemStop : ℤ :=
  -1

/-- The walk fails. -/
def walkItemError : ℤ :=
  -2

/-- Without a pattern every name is matched. -/
def fnmMatched (host : Host) (aPattern : Option Bytes) (name : Name) : Bool :=
  match aPattern with
  | none => true
  | some pattern => host.fnmatch pattern name

/-! ## Selecting entries -/

/-- Whether a name is shown under the options. -/
def shown (aOptions : ℕ) (name : Name) : Bool :=
  if aOptions.testBit listHiddenFile then
    (aOptions.testBit listNormalFile || name.head? = some dot) && name ≠ [dot] &&
      name ≠ [dot, dot]
  else name.head? ≠ some dot

/-- The path of an entry, as the walk builds it. -/
def itemPath (aDir : Bytes) (name : Name) : Bytes :=
  sdsJoinPathLen aDir [] ++ name

/-- The type of an entry, asked for when `readdir` does not know it. -/
def itemType (fs : FileSystem) (aDir : Bytes) (item : Dirent) : Option FileType :=
  match item.dType with
  | some type => some type
  | none =>
    match fs.lstat (itemPath aDir item.dName) with
    | .error _ => none
    | .ok n => some n.fileType

/-- Whether the options select an entry of this type. A link is selected as what it
leads to, or as a link without a target. -/
def typeSelected (fs : FileSystem) (aDir : Bytes) (aOptions : ℕ) (item : Dirent) :
    FileType → Bool
  | .dir => aOptions.testBit listDir
  | .reg => aOptions.testBit listFile
  | .lnk =>
    match fs.stat (itemPath aDir item.dName) with
    | .ok n =>
      aOptions.testBit listSymbolic &&
        if n.isDir then aOptions.testBit listDir else aOptions.testBit listFile
    | .error e => e = .enoent && aOptions.testBit listSymbolicNone

/-! ## The walk -/

/-- The variables of the loop, with the state the processor works on. -/
structure Walk (U : Type) where
  vTotal : ℕ
  skipCount : ℕ
  vStopped : ℤ
  fs : FileSystem
  user : U

/-- A processor is given the count so far, the directory and the entry. -/
abbrev WalkDirHandler (U : Type) :=
  ℕ → Bytes → Dirent → FileSystem × U → ℤ × (FileSystem × U)

section

variable {U : Type} (aDir : Bytes) (aCount : ℕ) (aProcessor : Option (WalkDirHandler U))

/-- What `WALKDIR_PROCESS_ITEM` does with a matching entry : the new variables, and
whether the loop goes on with the next entry at once. -/
def processItem (item : Dirent) (w : Walk U) : Walk U × Bool :=
  if w.skipCount ≠ 0 then ({ w with skipCount := w.skipCount - 1 }, true)
  else
    match aProcessor with
    | none => ({ w with vTotal := w.vTotal + 1 }, false)
    | some processor =>
      let (vStopped, fs, user) := processor w.vTotal aDir item (w.fs, w.user)
      if vStopped = walkItemSkip then ({ w with vStopped, fs, user }, true)
      else ({ w with vStopped, fs, user, vTotal := w.vTotal + 1 }, false)

variable (host : Host) (aPattern : Option Bytes) (aOptions : ℕ)

/-- The loop over the entries. What the processor returns decides whether it goes on. -/
def walkLoop : List Dirent → Walk U → Walk U
  | [], w => w
  | item :: items, w =>
    if w.vStopped ≤ walkItemStop then w
    else if ¬shown aOptions item.dName then walkLoop items w
    else
      match itemType w.fs aDir item with
      | none => { w with vStopped := walkItemError }
      | some type =>
        let (w', next) :=
          if typeSelected w.fs aDir aOptions item type && fnmMatched host aPattern item.dName then
            processItem aDir aProcessor item w
          else (w, false)
        if next then walkLoop items w'
        else if aCount > 0 ∧ w'.vTotal ≥ aCount then w'
        else walkLoop items w'

/-- Walk through the entries of a directory. The result is the number of entries
matched, or -1. -/
def walkDir (aSkipCount : ℕ) (state : FileSystem × U) : ℤ × (FileSystem × U) :=
  match host.entries state.1 aDir with
  | .error _ => (-1, state)
  | .ok items =>
    let w := walkLoop aDir aCount aProcessor host aPattern aOptions items
      ⟨0, aSkipCount, 0, state.1, state.2⟩
    (if w.vStopped ≤ walkItemError then -1 else w.vTotal, (w.fs, w.user))

end

/-- A walk without a processor. -/
def countDir (host : Host) (fs : FileSystem) (aDir : Bytes) (aPattern : Option Bytes)
    (aOptions : ℕ) : ℤ :=
  (walkDir aDir 0 none host aPattern aOptions 0 (fs, ())).1

/-! ## The walk over the selected entries -/

section

variable {U : Type} {aDir : Bytes} {aCount : ℕ} {aProcessor : Option (WalkDirHandler U)}
  {host : Host} {aPattern : Option Bytes} {aOptions : ℕ}

/-- Whether an entry is handed to the processor. -/
def itemSelected (host : Host) (aPattern : Option Bytes) (aOptions : ℕ) (aDir : Bytes)
    (fs : FileSystem) (item : Dirent) : Bool :=
  shown aOptions item.dName &&
    match itemType fs aDir item with
    | none => false
    | some type =>
      typeSelected fs aDir aOptions item type && fnmMatched host aPattern item.dName

/-- The loop on entries that are all selected. -/
def runItems (aDir : Bytes) (aCount : ℕ) (aProcessor : Option (WalkDirHandler U)) :
    List Dirent → Walk U → Walk U
  | [], w => w
  | item :: items, w =>
    if w.vStopped ≤ walkItemStop then w
    else
      let (w', next) := processItem aDir aProcessor item w
      if next then runItems aDir aCount aProcessor items w'
      else if aCount > 0 ∧ w'.vTotal ≥ aCount then w'
      else runItems aDir aCount aProcessor items w'

/-- From states of which `S` holds the processor leaves the file system `fs` alone, and
`S` holds again. -/
def KeepsOn (fs : FileSystem) (S : U → Prop) (aDir : Bytes)
    (aProcessor : Option (WalkDirHandler U)) : Prop :=
  ∀ processor ∈ aProcessor, ∀ n item u, S u →
    (processor n aDir item (fs, u)).2.1 = fs ∧ S (processor n aDir item (fs, u)).2.2

/-- A processor that leaves the file system alone. -/
def KeepsFs (aProcessor : Option (WalkDirHandler U)) : Prop :=
  ∀ processor ∈ aProcessor, ∀ n aDir item st, (processor n aDir item st).2.1 = st.1

theorem KeepsFs.keepsOn (h : KeepsFs aProcessor) (fs : FileSystem) :
    KeepsOn fs (fun _ => True) aDir aProcessor :=
  fun processor hp n item u _ => ⟨h processor hp n aDir item (fs, u), trivial⟩

/-- An item leaves the file system, and what the processor keeps. -/
theorem processItem_keepsOn {S : U → Prop} {w : Walk U} (hp : KeepsOn w.fs S aDir aProcessor)
    (hS : S w.user) (item : Dirent) : (processItem aDir aProcessor item w).1.fs = w.fs ∧
      S (processItem aDir aProcessor item w).1.user := by
  unfold processItem
  split_ifs
  · exact ⟨rfl, hS⟩
  · cases aProcessor with
    | none => exact ⟨rfl, hS⟩
    | some processor =>
      have := hp processor rfl w.vTotal item w.user hS
      dsimp only
      split_ifs <;> exact this

/-- When the loop goes on at once, nothing was counted. -/
theorem processItem_next {item : Dirent} {w : Walk U}
    (h : (processItem aDir aProcessor item w).2 = true) :
    (processItem aDir aProcessor item w).1.vTotal = w.vTotal := by
  unfold processItem at h ⊢
  split_ifs at h ⊢
  · rfl
  · cases aProcessor with
    | none => simp at h
    | some processor =>
      dsimp only at h ⊢
      split_ifs at h ⊢
      rfl

/-- The loop runs the processor on the items that are selected. -/
theorem walkLoop_eq {S : U → Prop} {items : List Dirent} {w : Walk U}
    (hp : KeepsOn w.fs S aDir aProcessor) (hS : S w.user)
    (htype : ∀ item ∈ items, shown aOptions item.dName → itemType w.fs aDir item ≠ none)
    (hcount : aCount = 0 ∨ w.vTotal < aCount) :
    walkLoop aDir aCount aProcessor host aPattern aOptions items w =
      runItems aDir aCount aProcessor
        (items.filter (itemSelected host aPattern aOptions aDir w.fs)) w := by
  induction items generalizing w with
  | nil => rfl
  | cons item items ih =>
    have hgo : ¬(aCount > 0 ∧ w.vTotal ≥ aCount) := by omega
    have ih' := ih hp hS (fun i hi => htype i (List.mem_cons_of_mem item hi)) hcount
    rw [walkLoop]
    by_cases hstop : w.vStopped ≤ walkItemStop
    · rw [if_pos hstop]
      cases (item :: items).filter (itemSelected host aPattern aOptions aDir w.fs) with
      | nil => rfl
      | cons i is => rw [runItems, if_pos hstop]
    rw [if_neg hstop]
    by_cases hshown : shown aOptions item.dName
    · rw [if_neg (by simp [hshown])]
      obtain ⟨type, ht⟩ := Option.ne_none_iff_exists'.1 (htype item List.mem_cons_self hshown)
      simp only [ht]
      have hsel : itemSelected host aPattern aOptions aDir w.fs item =
          (typeSelected w.fs aDir aOptions item type && fnmMatched host aPattern item.dName) := by
        simp [itemSelected, hshown, ht]
      rw [List.filter_cons, hsel]
      by_cases hmatch : (typeSelected w.fs aDir aOptions item type &&
          fnmMatched host aPattern item.dName) = true
      · obtain ⟨hfs, hS'⟩ := processItem_keepsOn hp hS item
        have hp' : KeepsOn (processItem aDir aProcessor item w).1.fs S aDir aProcessor := by
          rwa [hfs]
        have htype' : ∀ i ∈ items, shown aOptions i.dName →
            itemType (processItem aDir aProcessor item w).1.fs aDir i ≠ none := by
          rw [hfs]
          exact fun i hi => htype i (List.mem_cons_of_mem item hi)
        rw [if_pos hmatch, if_pos hmatch, runItems, if_neg hstop]
        by_cases hnext : (processItem aDir aProcessor item w).2 = true
        · simp only [if_pos hnext]
          rw [ih hp' hS' htype' (by rw [processItem_next hnext]; exact hcount), hfs]
        · simp only [if_neg hnext]
          split_ifs with hfull
          · rfl
          · rw [ih hp' hS' htype' (by omega), hfs]
      · simp only [if_neg hmatch, Bool.false_eq_true, if_false, if_neg hgo]
        exact ih'
    · rw [if_pos (by simp [hshown]), List.filter_cons_of_neg (by simp [itemSelected, hshown])]
      exact ih'

end

/-! ## Counting -/

section

variable {host : Host} {fs : FileSystem} {path : Bytes} {p : Loc}

theorem itemPath_eq (hne : path ≠ []) (c : Name) : itemPath path c = joinName path c := by
  rw [itemPath, sdsJoinPathLen_eq hne, joinName_eq_withSlash path c, withSlash]

/-- The visible subdirectories of `p`, in the order of enumeration. -/
def visibleDirs (host : Host) (t : FileTree Xattrs) (p : Loc) : List Name :=
  (host.names t p).filter fun c => t.isDir (c :: p) && c.head? ≠ some dot

/-- The hidden subdirectories of `p`. -/
def hiddenDirs (host : Host) (t : FileTree Xattrs) (p : Loc) : List Name :=
  (host.names t p).filter fun c => t.isDir (c :: p) && c.head? = some dot

/-- The visible directories are the entries without a leading dot. -/
theorem mem_visibleDirs {t : FileTree Xattrs} {c : Name} :
    c ∈ visibleDirs host t p ↔ t.isDir (c :: p) ∧ c.head? ≠ some dot := by
  rw [visibleDirs, List.mem_filter, Host.mem_names]
  constructor
  · rintro ⟨_, h⟩
    simpa using h
  · intro h
    exact ⟨FileTree.get_ne_none_of_isDir h.1, by simpa using h⟩

/-- The hidden directories are the entries with a leading dot. -/
theorem mem_hiddenDirs {t : FileTree Xattrs} {c : Name} :
    c ∈ hiddenDirs host t p ↔ t.isDir (c :: p) ∧ c.head? = some dot := by
  rw [hiddenDirs, List.mem_filter, Host.mem_names]
  constructor
  · rintro ⟨_, h⟩
    simpa using h
  · intro h
    exact ⟨FileTree.get_ne_none_of_isDir h.1, by simpa using h⟩

theorem nodup_visibleDirs {t : FileTree Xattrs} : (visibleDirs host t p).Nodup :=
  Host.nodup_names.filter _

theorem nodup_hiddenDirs {t : FileTree Xattrs} : (hiddenDirs host t p).Nodup :=
  Host.nodup_names.filter _

/-- The number of visible subdirectories does not depend on the enumeration. -/
theorem length_visibleDirs {t : FileTree Xattrs} :
    (visibleDirs host t p).length = ((t.subdirs p).filter (·.head? ≠ some dot)).length := by
  refine List.Perm.length_eq ((List.perm_ext_iff_of_nodup nodup_visibleDirs
    (FileTree.nodup_subdirs p |>.filter _)).2 fun c => ?_)
  rw [mem_visibleDirs, List.mem_filter, FileTree.mem_subdirs]
  simp

/-- The type of an entry is known or asked for. -/
theorem itemType_entry (h : fs.At path p) {c : Name} {n : Node Xattrs}
    (hg : fs.tree.get (c :: p) = some n) :
    itemType fs path (host.dirent p c n.fileType) = some n.fileType := by
  unfold itemType Host.dirent
  cases host.typed p c with
  | true => rfl
  | false =>
    simp [itemPath_eq h.ne_nil, h.lstat_of_get (FileTree.validName_of_get hg) hg]

theorem shown_dots (aOptions : ℕ) :
    shown aOptions [dot] = false ∧ shown aOptions [dot, dot] = false := by
  unfold shown
  split_ifs <;> simp

theorem shown_normalDirs (c : Name) : shown listNormalDirs c = decide (c.head? ≠ some dot) := by
  unfold shown
  rw [if_neg (by decide)]

theorem shown_hiddenDirs {c : Name} (hc : Plain c) :
    shown listHiddenDirs c = decide (c.head? = some dot) := by
  unfold shown
  rw [if_pos (by decide), show listHiddenDirs.testBit listNormalFile = false by decide]
  simp [hc.2.1, hc.2.2]

/-- Options that select directories and no regular files. -/
structure DirsOnly (aOptions : ℕ) : Prop where
  dir : aOptions.testBit listDir = true
  file : aOptions.testBit listFile = false

theorem dirsOnly_normalDirs : DirsOnly listNormalDirs :=
  ⟨by decide, by decide⟩

theorem dirsOnly_hiddenDirs : DirsOnly listHiddenDirs :=
  ⟨by decide, by decide⟩

variable {aOptions : ℕ}

/-- An entry is selected when it is a directory that the options show. -/
theorem itemSelected_entry (h : fs.At path p) (hl : ∀ c, fs.tree.NoLink (c :: p))
    (ho : DirsOnly aOptions) {c : Name} {n : Node Xattrs} (hg : fs.tree.get (c :: p) = some n) :
    itemSelected host none aOptions path fs (host.dirent p c n.fileType) =
      (fs.tree.isDir (c :: p) && shown aOptions c) := by
  rw [itemSelected, itemType_entry h hg, Bool.and_comm]
  simp only [Host.dirent, fnmMatched, Bool.and_true]
  cases n with
  | dir x => simp [typeSelected, Node.fileType, ho.dir, FileTree.isDir_of_get hg]
  | file v x => simp [typeSelected, Node.fileType, ho.file, FileTree.isDir, hg, Node.isDir]
  | link target => exact absurd hg (hl c target)

/-- If the name of an entry tells whether it is selected, the names of those selected. -/
theorem map_filter_entries {aPattern : Option Bytes} {f : Name → Bool}
    (hf : ∀ c n, fs.tree.get (c :: p) = some n →
      itemSelected host aPattern aOptions path fs (host.dirent p c n.fileType) = f c) :
    ((host.readdir fs.tree p).filter (itemSelected host aPattern aOptions path fs)).map
      Dirent.dName = (host.names fs.tree p).filter f := by
  rw [Host.names, List.filter_filter, List.filter_map]
  congr 1
  refine List.filter_congr fun item hi => ?_
  rcases Host.mem_readdir.1 hi with rfl | rfl | ⟨c, n, hg, rfl⟩
  · simp [itemSelected, Host.dirent, (shown_dots aOptions).1]
  · simp [itemSelected, Host.dirent, (shown_dots aOptions).2]
  · have hc := (FileTree.validName_of_get hg).1
    rw [hf c n hg]
    simp [Host.dirent, hc.2.1, hc.2.2]

/-- The entries selected are the shown subdirectories. -/
theorem map_filter_itemSelected (h : fs.At path p) (hl : ∀ c, fs.tree.NoLink (c :: p))
    (ho : DirsOnly aOptions) :
    ((host.readdir fs.tree p).filter (itemSelected host none aOptions path fs)).map Dirent.dName =
      (host.names fs.tree p).filter fun c => fs.tree.isDir (c :: p) && shown aOptions c :=
  map_filter_entries fun _ _ hg => itemSelected_entry h hl ho hg

theorem map_filter_normalDirs (h : fs.At path p) (hl : ∀ c, fs.tree.NoLink (c :: p)) :
    ((host.readdir fs.tree p).filter
      (itemSelected host none listNormalDirs path fs)).map Dirent.dName =
        visibleDirs host fs.tree p := by
  rw [map_filter_itemSelected h hl dirsOnly_normalDirs, visibleDirs]
  exact List.filter_congr fun c _ => by rw [shown_normalDirs]

/-- The options for partitions select the hidden directories. -/
theorem map_filter_hiddenDirs (h : fs.At path p) (hl : ∀ c, fs.tree.NoLink (c :: p)) :
    ((host.readdir fs.tree p).filter
      (itemSelected host none listHiddenDirs path fs)).map Dirent.dName =
        hiddenDirs host fs.tree p := by
  rw [map_filter_itemSelected h hl dirsOnly_hiddenDirs, hiddenDirs]
  refine List.filter_congr fun c hc => ?_
  obtain ⟨n, hn⟩ := Option.ne_none_iff_exists'.1 (Host.mem_names.1 hc)
  rw [shown_hiddenDirs (FileTree.validName_of_get hn).1]

/-- An item is selected when it is without a pattern and its name matches. -/
theorem itemSelected_pattern (aPattern : Option Bytes) (item : Dirent) :
    itemSelected host aPattern aOptions path fs item =
      (itemSelected host none aOptions path fs item && fnmMatched host aPattern item.dName) := by
  unfold itemSelected
  cases itemType fs path item with
  | none => simp
  | some type => simp [fnmMatched, Bool.and_assoc]

/-- With a pattern, those of them that it matches. -/
theorem map_filter_pattern (h : fs.At path p) (hl : ∀ c, fs.tree.NoLink (c :: p))
    (aPattern : Option Bytes) :
    ((host.readdir fs.tree p).filter
      (itemSelected host aPattern listNormalDirs path fs)).map Dirent.dName =
        (visibleDirs host fs.tree p).filter (fnmMatched host aPattern) := by
  rw [← map_filter_normalDirs h hl, List.filter_map, List.filter_filter]
  congr 1
  refine List.filter_congr fun item _ => ?_
  rw [itemSelected_pattern, Bool.and_comm]
  rfl

/-- The type of a listed item can be found. -/
theorem itemType_ne_none (h : fs.At path p) :
    ∀ item ∈ host.readdir fs.tree p, shown aOptions item.dName → itemType fs path item ≠ none := by
  intro item hi hs
  rcases Host.mem_readdir.1 hi with rfl | rfl | ⟨c, n, hg, rfl⟩
  · simp [Host.dirent, (shown_dots aOptions).1] at hs
  · simp [Host.dirent, (shown_dots aOptions).2] at hs
  · simp [itemType_entry h hg]

/-- An entry that is shown names something in the directory. -/
theorem at_of_entries {items : List Dirent} {item : Dirent} (he : host.entries fs path = .ok items)
    (hi : item ∈ items) (hs : shown aOptions item.dName) :
    ∃ l, fs.At path l ∧ fs.tree.get (item.dName :: l) ≠ none := by
  unfold Host.entries at he
  split at he
  · simp at he
  · next l hl =>
    split_ifs at he with hd
    rw [Except.ok.injEq] at he
    subst he
    have hne : path ≠ [] := by
      rintro rfl
      simp [FileSystem.resolve] at hl
    refine ⟨l, ⟨hne, hl, hd⟩, ?_⟩
    rcases Host.mem_readdir.1 hi with rfl | rfl | ⟨c, m, hg, rfl⟩
    · simp [Host.dirent, (shown_dots aOptions).1] at hs
    · simp [Host.dirent, (shown_dots aOptions).2] at hs
    · simp [Host.dirent, hg]

/-- The walk through a directory with a processor that leaves the file system alone. -/
theorem walkDir_at {U : Type} {aProcessor : Option (WalkDirHandler U)} {S : U → Prop} {u : U}
    (hp : KeepsOn fs S path aProcessor) (hS : S u) (h : fs.At path p) (aCount aSkipCount : ℕ)
    (aPattern : Option Bytes) :
    walkDir path aCount aProcessor host aPattern aOptions aSkipCount (fs, u) =
      let w := runItems path aCount aProcessor ((host.readdir fs.tree p).filter
        (itemSelected host aPattern aOptions path fs)) ⟨0, aSkipCount, 0, fs, u⟩
      (if w.vStopped ≤ walkItemError then (-1 : ℤ) else w.vTotal, (w.fs, w.user)) := by
  have hw : walkLoop path aCount aProcessor host aPattern aOptions (host.readdir fs.tree p)
      ⟨0, aSkipCount, 0, fs, u⟩ = _ :=
    walkLoop_eq hp hS (itemType_ne_none h) (Nat.eq_zero_or_pos aCount)
  simp only [walkDir, Host.entries_at h, hw]

/-- Without a processor every item is counted. -/
theorem runItems_none (items : List Dirent) {vStopped : ℤ} (hs : ¬vStopped ≤ walkItemStop)
    (n : ℕ) : runItems path 0 none items ⟨n, 0, vStopped, fs, ()⟩ =
      ⟨n + items.length, 0, vStopped, fs, ()⟩ := by
  induction items generalizing n with
  | nil => rfl
  | cons item items ih =>
    simp only [runItems, if_neg hs, processItem]
    rw [List.length_cons, ← Nat.add_assoc, Nat.add_right_comm, ← ih (n + 1)]
    simp

/-- The count of visible subdirectories. -/
theorem countDir_normalDirs (h : fs.At path p) (hl : ∀ c, fs.tree.NoLink (c :: p)) :
    countDir host fs path none listNormalDirs =
      ((fs.tree.subdirs p).filter (·.head? ≠ some dot)).length := by
  have hk : KeepsFs (U := Unit) none := fun _ hm => by simp at hm
  rw [countDir, walkDir_at (hk.keepsOn fs) trivial h, ← @length_visibleDirs host,
    ← map_filter_normalDirs h hl, List.length_map]
  simp only [runItems_none _ (show ¬(0 : ℤ) ≤ walkItemStop by decide)]
  simp [walkItemError]

/-! ## Walks that the processor never cuts short -/

/-- The processor handles the entries of these names in turn, leaves the file system
alone, and takes its state from `u` to `u'`. -/
inductive Handles {U : Type} (processor : WalkDirHandler U) (aDir : Bytes) (fs : FileSystem) :
    ℕ → List Name → U → U → Prop
  | nil {n u} : Handles processor aDir fs n [] u u
  | cons {n name names u u₁ u₂} :
      (∀ item : Dirent, item.dName = name →
        processor n aDir item (fs, u) = (walkItemOk, fs, u₁)) →
      Handles processor aDir fs (n + 1) names u₁ u₂ →
      Handles processor aDir fs n (name :: names) u u₂

/-- A loop whose processor handles every selected name ends in the state after the last. -/
theorem walkLoop_handles {U : Type} {processor : WalkDirHandler U} {aCount : ℕ}
    {aPattern : Option Bytes} {items : List Dirent} {n : ℕ} {u u' : U}
    (htype : ∀ item ∈ items, shown aOptions item.dName → itemType fs path item ≠ none)
    (hh : Handles processor path fs n
      ((items.filter (itemSelected host aPattern aOptions path fs)).map Dirent.dName) u u')
    (hcount : aCount = 0 ∨
      n + (items.filter (itemSelected host aPattern aOptions path fs)).length < aCount) :
    walkLoop path aCount (some processor) host aPattern aOptions items ⟨n, 0, walkItemOk, fs, u⟩ =
      ⟨n + (items.filter (itemSelected host aPattern aOptions path fs)).length, 0, walkItemOk, fs,
        u'⟩ := by
  induction items generalizing n u with
  | nil =>
    cases hh
    rfl
  | cons item items ih =>
    have htype' := fun i hi => htype i (List.mem_cons_of_mem item hi)
    have hgo : ¬walkItemOk ≤ walkItemStop := by decide
    rw [walkLoop, if_neg hgo]
    by_cases hshown : shown aOptions item.dName
    · rw [if_neg (by simp [hshown])]
      obtain ⟨type, ht⟩ := Option.ne_none_iff_exists'.1 (htype item List.mem_cons_self hshown)
      simp only [ht]
      have hsel : itemSelected host aPattern aOptions path fs item =
          (typeSelected fs path aOptions item type && fnmMatched host aPattern item.dName) := by
        simp [itemSelected, hshown, ht]
      rw [List.filter_cons, hsel] at hh hcount ⊢
      by_cases hmatch : (typeSelected fs path aOptions item type &&
          fnmMatched host aPattern item.dName) = true
      · simp only [if_pos hmatch, List.map_cons, List.length_cons] at hh hcount ⊢
        cases hh with
        | @cons _ _ _ _ u₁ _ hstep hrest =>
          have hproc : processItem path (some processor) item ⟨n, 0, walkItemOk, fs, u⟩ =
              (⟨n + 1, 0, walkItemOk, fs, u₁⟩, false) := by
            simp only [processItem, hstep item rfl]
            rfl
          have hfull : ¬(aCount > 0 ∧ n + 1 ≥ aCount) := by omega
          simp only [hproc, Bool.false_eq_true, if_false, if_neg hfull]
          rw [ih htype' hrest (by omega), Nat.add_assoc, Nat.add_comm 1]
      · simp only [if_neg hmatch, Bool.false_eq_true, if_false] at hh hcount ⊢
        rw [if_neg (by omega), ih htype' hh hcount]
    · rw [List.filter_cons_of_neg (by simp [itemSelected, hshown])] at hh hcount ⊢
      rw [if_pos (by simp [hshown]), ih htype' hh hcount]

/-- A walk whose processor handles every selected name counts them all. -/
theorem walkDir_handles {U : Type} {processor : WalkDirHandler U} {aCount : ℕ} {names : List Name}
    {u u' : U} (h : fs.At path p)
    (hnames : ((host.readdir fs.tree p).filter
      (itemSelected host none aOptions path fs)).map Dirent.dName = names)
    (hh : Handles processor path fs 0 names u u') (hcount : aCount = 0 ∨ names.length < aCount) :
    walkDir path aCount (some processor) host none aOptions 0 (fs, u) =
      ((names.length : ℤ), fs, u') := by
  have hlen : ((host.readdir fs.tree p).filter (itemSelected host none aOptions path fs)).length =
      names.length := by
    rw [← hnames, List.length_map]
  have hw : walkLoop path aCount (some processor) host none aOptions (host.readdir fs.tree p)
      ⟨0, 0, 0, fs, u⟩ = ⟨0 + names.length, 0, walkItemOk, fs, u'⟩ := by
    rw [← hlen]
    exact walkLoop_handles (itemType_ne_none h) (hnames ▸ hh)
      (by rw [hlen, Nat.zero_add]; exact hcount)
  rw [Nat.zero_add] at hw
  simp only [walkDir, Host.entries_at h, hw]
  rfl

end

end Idb
