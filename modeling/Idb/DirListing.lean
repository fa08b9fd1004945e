import Idb.Pages
import Idb.WalkDir

/-!
# Listing a directory

`ListDir` collects the names a walk selects, `IsFileExistsInDir` asks whether there is one. An
entry is of one of six kinds (`EntryKind`), and the options choose among them. What is listed is
the slice of the chosen names that was asked for (`listDir_slice`).
-/

namespace Idb

open Posix FileSystem Pages

/-! ## The functions -/

/-- The names of the items are collected. -/
def walkDirListDirProcessor : WalkDirHandler (List Bytes) :=
  fun _ _ aItem (fs, aList) => (walkItemOk, fs, aList ++ [aItem.dName])

/-- `ListDir`. All names if `aCount` is 0. -/
def listDirItems (host : Host) (fs : FileSystem) (aDir : Bytes) (aPattern : Option Bytes)
    (aOptions aSkipCount aCount : ℕ) : Option (List Bytes) :=
  let (vCount, _, result) := walkDir aDir aCount (some walkDirListDirProcessor) host aPattern
    aOptions aSkipCount (fs, [])
  if vCount = -1 then none else some result

/-- The walk stops after the first item. -/
def isFileExistsInDir (host : Host) (fs : FileSystem) (aDir : Bytes) (aPattern : Option Bytes)
    (aOptions : ℕ) : Bool :=
  (walkDir aDir 1 none host aPattern aOptions 0 (fs, ())).1 ≥ 1

/-! ## What the options choose -/

/-- The kinds of entries. Of a link without access to its target nothing more is known. -/
inductive EntryKind
  | directory
  | file
  | linkToDirectory
  | linkToFile
  | danglingLink
  | blockedLink
  deriving DecidableEq, Repr

/-- The kind of the node found at a path. -/
def entryKind (fs : FileSystem) (path : Bytes) : Node Xattrs → EntryKind
  | .dir _ => .directory
  | .file _ _ => .file
  | .link _ =>
    match fs.stat path with
    | .ok n => if n.isDir then .linkToDirectory else .linkToFile
    | .error .enoent => .danglingLink
    | .error _ => .blockedLink

/-- The options select entries of this kind. -/
def kindSelected (aOptions : ℕ) : EntryKind → Bool
  | .directory => aOptions.testBit listDir
  | .file => aOptions.testBit listFile
  | .linkToDirectory => aOptions.testBit listSymbolic && aOptions.testBit listDir
  | .linkToFile => aOptions.testBit listSymbolic && aOptions.testBit listFile
  | .danglingLink => aOptions.testBit listSymbolicNone
  | .blockedLink => false

/-- The names in the directory `p` at `path` that the options and the pattern choose, in the
order of enumeration. -/
def chosenNames (host : Host) (fs : FileSystem) (path : Bytes) (p : Loc)
    (aPattern : Option Bytes) (aOptions : ℕ) : List Name :=
  (host.names fs.tree p).filter fun c =>
    shown aOptions c &&
      ((fs.tree.get (c :: p)).any fun n =>
        kindSelected aOptions (entryKind fs (joinName path c) n)) &&
      fnmMatched host aPattern c

section

variable {host : Host} {fs : FileSystem} {path : Bytes} {p : Loc} {aPattern : Option Bytes}
  {aOptions : ℕ}

/-- The type test selects by the kind of the entry. -/
theorem typeSelected_eq (h : fs.At path p) (item : Dirent) (n : Node Xattrs) :
    typeSelected fs path aOptions item n.fileType =
      kindSelected aOptions (entryKind fs (joinName path item.dName) n) := by
  cases n with
  | dir x => rfl
  | file v x => rfl
  | link target =>
    simp only [typeSelected, Node.fileType, entryKind, itemPath_eq h.ne_nil]
    cases fs.stat (joinName path item.dName) with
    | ok m => by_cases hm : m.isDir <;> simp [hm, kindSelected]
    | error e => cases e <;> simp [kindSelected]

/-- The entries a walk selects are those chosen. -/
theorem map_filter_chosen (h : fs.At path p) :
    ((host.readdir fs.tree p).filter (itemSelected host aPattern aOptions path fs)).map
      Dirent.dName = chosenNames host fs path p aPattern aOptions := by
  rw [chosenNames]
  refine map_filter_entries fun c n hg => ?_
  rw [itemSelected, itemType_entry h hg]
  dsimp only
  rw [typeSelected_eq h]
  simp [Host.dirent, hg, Bool.and_assoc]

/-! ## The slice -/

/-- The processor of `ListDir` collects the slice of the names that skip and count select. -/
theorem runItems_listDir {aCount : ℕ} (items : List Dirent) (skip n : ℕ)
    (hn : aCount = 0 ∨ n < aCount) (names : List Bytes) :
    runItems path aCount (some walkDirListDirProcessor) items ⟨n, skip, walkItemOk, fs, names⟩ =
      ⟨n + (slice skip (aCount - n) (items.map Dirent.dName)).length, skip - items.length,
        walkItemOk, fs, names ++ slice skip (aCount - n) (items.map Dirent.dName)⟩ := by
  induction items generalizing skip n names with
  | nil => simp [runItems, slice]
  | cons item items ih =>
    rw [runItems, if_neg (show ¬walkItemOk ≤ walkItemStop by decide)]
    cases skip with
    | succ s =>
      -- An entry that is skipped leaves the loop before the count is looked at.
      rw [processItem, if_pos (Nat.succ_ne_zero s)]
      simp only [if_true, Nat.add_sub_cancel]
      rw [ih s n hn, List.map_cons, slice_succ_cons, List.length_cons, Nat.add_sub_add_right]
    | zero =>
      have hproc : processItem path (some walkDirListDirProcessor) item
          ⟨n, 0, walkItemOk, fs, names⟩ =
            (⟨n + 1, 0, walkItemOk, fs, names ++ [item.dName]⟩, false) := rfl
      simp only [hproc, Bool.false_eq_true, if_false]
      by_cases hfull : aCount > 0 ∧ n + 1 ≥ aCount
      · rw [if_pos hfull, show aCount - n = 1 by omega, List.map_cons, slice_zero_one]
        simp
      · rw [if_neg hfull, ih 0 (n + 1) (by omega), List.map_cons, slice_zero_cons (by omega),
          Nat.sub_sub]
        simp [Nat.add_assoc, Nat.add_comm]

/-- `CountDir` counts the chosen names. -/
theorem countDir_eq (h : fs.At path p) :
    countDir host fs path aPattern aOptions =
      (chosenNames host fs path p aPattern aOptions).length := by
  have hk : KeepsFs (U := Unit) none := fun _ hm => by simp at hm
  rw [countDir, walkDir_at (hk.keepsOn fs) trivial h, ← map_filter_chosen h, List.length_map]
  simp only [runItems_none _ (show ¬(0 : ℤ) ≤ walkItemStop by decide)]
  simp [walkItemError]

/-- `ListDir` returns the slice of the chosen names. -/
theorem listDirItems_eq (h : fs.At path p) (aSkipCount aCount : ℕ) :
    listDirItems host fs path aPattern aOptions aSkipCount aCount =
      some (slice aSkipCount aCount (chosenNames host fs path p aPattern aOptions)) := by
  have hk : KeepsFs (some walkDirListDirProcessor) := by
    rintro _ ⟨⟩ n aDir item st
    rfl
  rw [listDirItems, walkDir_at (hk.keepsOn fs) trivial h, ← map_filter_chosen h]
  have hrun := @runItems_listDir fs path aCount ((host.readdir fs.tree p).filter
    (itemSelected host aPattern aOptions path fs)) aSkipCount 0 (Nat.eq_zero_or_pos aCount) []
  dsimp only
  rw [show (0 : ℤ) = walkItemOk from rfl, hrun,
    if_neg (show ¬walkItemOk ≤ walkItemError by decide)]
  dsimp only
  rw [if_neg (by omega)]
  rfl

/-- `IsFileExistsInDir` asks whether a name is chosen. -/
theorem isFileExistsInDir_eq (h : fs.At path p) :
    isFileExistsInDir host fs path aPattern aOptions = true ↔
      chosenNames host fs path p aPattern aOptions ≠ [] := by
  have hk : KeepsFs (U := Unit) none := fun _ hm => by simp at hm
  rw [isFileExistsInDir, walkDir_at (hk.keepsOn fs) trivial h, ← map_filter_chosen h]
  cases (host.readdir fs.tree p).filter (itemSelected host aPattern aOptions path fs) with
  | nil => simp [runItems, walkItemError]
  | cons item items => simp [runItems, processItem, walkItemStop, walkItemError]

end

/-- Listing is choosing and slicing, and counting and asking agree with it. -/
theorem listDir_slice (host : Host) (fs : FileSystem) (path : Bytes) (p : Loc)
    (h : fs.At path p) (aPattern : Option Bytes) (aOptions : ℕ) :
    let names := chosenNames host fs path p aPattern aOptions
    (∀ aSkipCount aCount, listDirItems host fs path aPattern aOptions aSkipCount aCount =
      some (if aCount = 0 then names.drop aSkipCount else (names.drop aSkipCount).take aCount)) ∧
    countDir host fs path aPattern aOptions = names.length ∧
    (isFileExistsInDir host fs path aPattern aOptions = true ↔ names ≠ []) :=
  ⟨fun aSkipCount aCount => listDirItems_eq h aSkipCount aCount, countDir_eq h,
    isFileExistsInDir_eq h⟩

/-- A host that reports no types and matches a pattern with itself only. -/
def untypedHost : Host where
  order _ es := es
  order_perm _ _ := List.Perm.refl _
  typed _ _ := false
  dirBytes := none
  fnmatch pattern name := pattern = name

/-- A directory `a`, a link `b` to it and a link `c` to nothing. -/
def linkTree : FileSystem :=
  let x : Xattrs := fun _ => none
  let t := (FileTree.ofDirs x [[[97]]] (by decide)).set [[98]] (.link [97])
    (by rintro c p ⟨⟩; exact ⟨by decide, FileTree.isDir_nil _⟩) (by decide +kernel)
  ⟨t.set [[99]] (.link [120]) (by rintro c p ⟨⟩; exact ⟨by decide, FileTree.isDir_nil _⟩)
    (by decide +kernel), []⟩

/-- The second of two directories, one of them reached through a link. -/
theorem listDir_slice_linkTree :
    linkTree.At [slash] [] ∧
    chosenNames untypedHost linkTree [slash] [] none listNormalDirs = [[98], [97]] ∧
    listDirItems untypedHost linkTree [slash] none listNormalDirs 1 1 = some [[97]] := by
  have hnames : chosenNames untypedHost linkTree [slash] [] none listNormalDirs = [[98], [97]] := by
    decide +kernel
  have hlist :=
    (listDir_slice untypedHost linkTree [slash] [] (at_root _) none listNormalDirs).1 1 1
  rw [hnames] at hlist
  exact ⟨at_root _, hnames, hlist⟩

end Idb
