import Idb.DirListing
import Idb.Policies
import Idb.Sessions

/-!
# Pages of a database object

`iDB_Subkeys` takes a page size that exceeds the one of the object down to it. The object starts
with a page size of 0, and opening it only takes the size down further. So the page size is
always 0, which for `iSubkeys` means no limit : every page is the list of all subkeys
(`dbPagesRight_iff`).
-/

namespace Idb

open Posix FileSystem Pages

/-- The list of a page, or NULL, or the error that the object is closed, if the walk returns. -/
def iDBSubkeys (host : Host) (iDBDuplicationKeyProcess : TIDBProcesses) (s : Session)
    (aKey : Bytes) (aPattern : Option Bytes) (aPageNo aPageSize : ℕ) :
    Option (Except ℤ (Option (List Bytes) × Session)) :=
  if s.db.opened then
    let aPageSize := if aPageSize > s.db.maxPageSize then s.db.maxPageSize else aPageSize
    (iSubkeys host iDBDuplicationKeyProcess s.fs [dot] aKey aPattern
      (aPageNo * aPageSize % 2 ^ 64) aPageSize s.db.partitionFullProcess).map
        fun (result, fs) => .ok (result, { s with fs })
  else some (.error errIdbClosed)

/-! ## Directories without partitions -/

section

variable {host : Host} {fs : FileSystem} {aDir aKey : Bytes} {d : Loc}

/-- The subkeys of a directory that has no partitions are the names the options choose. -/
theorem iSubkeyWalk_flat {p : Option WalkKeyHandler} {q : TIDBProcesses}
    {out : Bytes → List Bytes} (hr : Records p q out) (hat : fs.At (sdsJoinPathLen aDir aKey) d)
    (hpart : chosenNames host fs (sdsJoinPathLen aDir aKey) d none listHiddenDirs = []) :
    iSubkeyWalk host fs aDir aKey none 0 0 p q =
      some (((chosenNames host fs (sdsJoinPathLen aDir aKey) d none listNormalDirs).length : ℤ), fs,
        (chosenNames host fs (sdsJoinPathLen aDir aKey) d none listNormalDirs).flatMap out) := by
  have hnames := @map_filter_chosen host fs _ d none listNormalDirs hat
  set names := chosenNames host fs (sdsJoinPathLen aDir aKey) d none listNormalDirs
  obtain ⟨v, hv, hrun⟩ := @runItems_subkeyWalker host fs (sdsJoinPathLen aDir aKey)
    ⟨none, [], 0, 0, 0, p, q⟩ out hr _ (fun item _ => rfl) 0 0 0 (Or.inl rfl) 0 le_rfl []
  have hfirst : walkDir (sdsJoinPathLen aDir aKey) 0 (some (subkeyWalker host)) host none
      listNormalDirs 0 (fs, ⟨none, [], 0, 0, 0, p, q⟩, []) =
        ((names.length : ℤ), fs, ⟨none, [], 0, 0, 0, p, q⟩, names.flatMap out) := by
    rw [walkDir_at (keepsOn_subkeyWalker hr _) ⟨rfl, rfl⟩ hat, hrun, hnames]
    dsimp only
    rw [if_neg (by unfold walkItemError; omega)]
    simp [slice]
  have hnone : (host.readdir fs.tree d).filter
      (itemSelected host none listHiddenDirs (sdsJoinPathLen aDir aKey) fs) = [] := by
    rw [← map_filter_chosen hat, List.map_eq_nil_iff] at hpart
    exact hpart
  obtain ⟨fuel, hfuel⟩ := walkFuel_succ fs.tree none
  rw [iSubkeyWalk_none, keyWalk, hfuel, _iSubkeyWalk_succ]
  dsimp only
  rw [hfirst, walkBelow_partitions ⟨Int.natCast_nonneg _, Or.inl rfl⟩ rfl,
    walkDir_at (keepsOn_partitionWalker hr _ _) ⟨rfl, rfl⟩ hat, hnone]
  simp [runItems, walkItemError]

theorem nodup_chosenNames {path : Bytes} {aPattern : Option Bytes} {aOptions : ℕ} :
    (chosenNames host fs path d aPattern aOptions).Nodup :=
  Host.nodup_names.filter _

/-- No policy matters there. -/
theorem iSubkeys_flat (g policy : TIDBProcesses) (hat : fs.At (sdsJoinPathLen aDir aKey) d)
    (hpart : chosenNames host fs (sdsJoinPathLen aDir aKey) d none listHiddenDirs = []) :
    iSubkeys host g fs aDir aKey none 0 0 policy =
      some (some (chosenNames host fs (sdsJoinPathLen aDir aKey) d none listNormalDirs), fs) := by
  have hwalk := iSubkeyWalk_flat records_keyRecorder hat hpart
  rw [List.flatMap_singleton'] at hwalk
  have hmet : (metKeys host fs aDir aKey none 0 0).Nodup := by
    rw [metKeys_of_walk hwalk]
    exact nodup_chosenNames
  rw [iSubkeys, iSubkeyWalk_of_nodup (Or.inr hmet), hwalk]
  simp

end

/-! ## The page size -/

section

variable {M : ℤ} {s : Session}

/-- A page size of zero stays zero. -/
theorem call_maxPageSize (h : s.db.maxPageSize = 0) (call : Call) :
    (call.apply M s).1.db.maxPageSize = 0 := by
  have hset : ∀ (s : Session) (b : Bool), s.db.maxPageSize = 0 →
      (iDBSetOpened M s b).db.maxPageSize = 0 := by
    intro s b h
    cases b with
    | false => exact h
    | true =>
      cases hpath : s.db.path with
      | none => simpa [iDBSetOpened, hpath] using h
      | some path => cases he : enterDir s.fs path <;> simp [iDBSetOpened, hpath, he, h]
  cases call with
  | setOpened b => exact hset s b h
  | openPath path =>
    rw [Call.apply, iDBOpen]
    split_ifs
    · exact h
    · exact hset _ _ h
  | close =>
    rw [Call.apply, iDBClose]
    split_ifs <;> exact h

/-- No call gives an object a page size. -/
theorem sessionAfter_maxPageSize (policy : TIDBProcesses) (fs : FileSystem) (calls : List Call) :
    (sessionAfter M ⟨iDBNew policy, fs⟩ calls).db.maxPageSize = 0 := by
  induction calls using List.reverseRecOn with
  | nil => rfl
  | append_singleton calls call ih =>
    rw [sessionAfter_append]
    exact call_maxPageSize ih call

end

/-! ## The pages -/

/-- Pages of at most `n` keys, without a key on two of them, and with all subkeys on the first
ones together. -/
def DbPagesRight (host : Host) (g : TIDBProcesses) (s : Session) (aKey : Bytes) (d : Loc)
    (n : ℕ) : Prop :=
  ∃ pages : ℕ → List Bytes, (∀ i, iDBSubkeys host g s aKey none i n =
      some (.ok (some (pages i), s))) ∧
    (∀ i, (pages i).length ≤ n) ∧ (∀ i j, i ≠ j → (pages i).Disjoint (pages j)) ∧
    ∃ N, ∀ m ≥ N, (List.range m).flatMap pages =
      chosenNames host s.fs (sdsJoinPathLen [dot] aKey) d none listNormalDirs

/-- The pages of a directory without partitions are right exactly if it has no subkeys. -/
theorem dbPagesRight_iff (host : Host) (iDBMaxPageCount : ℤ) (g policy : TIDBProcesses)
    (fs : FileSystem) (calls : List Call) (s : Session)
    (hs : s = sessionAfter iDBMaxPageCount ⟨iDBNew policy, fs⟩ calls) (hopened : s.db.opened)
    (aKey : Bytes) (d : Loc) (hat : s.fs.At (sdsJoinPathLen [dot] aKey) d)
    (hpart : chosenNames host s.fs (sdsJoinPathLen [dot] aKey) d none listHiddenDirs = [])
    (n : ℕ) (hn : 0 < n) :
    DbPagesRight host g s aKey d n ↔
      chosenNames host s.fs (sdsJoinPathLen [dot] aKey) d none listNormalDirs = [] := by
  have hpage : ∀ i, iDBSubkeys host g s aKey none i n = some (.ok (some (chosenNames host s.fs
      (sdsJoinPathLen [dot] aKey) d none listNormalDirs), s)) := by
    intro i
    have hzero : s.db.maxPageSize = 0 := hs ▸ sessionAfter_maxPageSize policy fs calls
    rw [iDBSubkeys, if_pos hopened, hzero, if_pos hn]
    dsimp only
    rw [Nat.mul_zero, Nat.zero_mod, iSubkeys_flat g _ hat hpart]
    rfl
  unfold DbPagesRight
  set names := chosenNames host s.fs (sdsJoinPathLen [dot] aKey) d none listNormalDirs
  constructor
  · rintro ⟨pages, hpages, -, hdisjoint, -⟩
    have hall : ∀ i, pages i = names := by
      intro i
      have := (hpages i).symm.trans (hpage i)
      simpa using this
    have hself := hdisjoint 0 1 (by decide)
    rw [hall 0, hall 1] at hself
    exact List.eq_nil_iff_forall_not_mem.2 fun x hx => hself hx hx
  · intro hnil
    refine ⟨fun _ => names, hpage, fun _ => ?_, fun _ _ _ => ?_, 0, fun m _ => ?_⟩
    · rw [hnil]
      exact Nat.zero_le n
    · rw [hnil]
      exact List.disjoint_nil_left []
    · rw [hnil]
      simp

/-- A new object, opened on the root of a tree with these directories. -/
def rootSession (dirs : List Bytes) : Session :=
  sessionAfter (-1) ⟨iDBNew .dkIgnored, rootWith dirs⟩ [.openPath [slash], .setOpened true]

/-- The key `a` has no subkeys. -/
theorem dbPagesRight_iff_leaf :
    (rootSession [[slash, 97]]).db.opened ∧
    (rootSession [[slash, 97]]).fs.At (sdsJoinPathLen [dot] [97]) [[97]] ∧
    chosenNames plainHost (rootSession [[slash, 97]]).fs (sdsJoinPathLen [dot] [97]) [[97]] none
      listHiddenDirs = [] ∧
    (DbPagesRight plainHost .dkIgnored (rootSession [[slash, 97]]) [97] [[97]] 1 ↔
      chosenNames plainHost (rootSession [[slash, 97]]).fs (sdsJoinPathLen [dot] [97]) [[97]] none
        listNormalDirs = []) := by
  have hopened : (rootSession [[slash, 97]]).db.opened := by decide +kernel
  have hat : (rootSession [[slash, 97]]).fs.At (sdsJoinPathLen [dot] [97]) [[97]] :=
    ⟨by decide, by decide +kernel, by decide +kernel⟩
  have hpart : chosenNames plainHost (rootSession [[slash, 97]]).fs (sdsJoinPathLen [dot] [97])
      [[97]] none listHiddenDirs = [] := by decide +kernel
  exact ⟨hopened, hat, hpart, dbPagesRight_iff plainHost (-1) .dkIgnored .dkIgnored
    (rootWith [[slash, 97]]) _ _ rfl hopened [97] [[97]] hat hpart 1 Nat.one_pos⟩

/-- The keys `a` and `b` on pages of one key. -/
theorem not_dbPagesRight_two :
    (rootSession [[slash, 97], [slash, 98]]).db.opened ∧
    ¬DbPagesRight plainHost .dkIgnored (rootSession [[slash, 97], [slash, 98]]) [] [] 1 := by
  refine ⟨by decide +kernel, ?_⟩
  rintro ⟨pages, hpages, hlen, -⟩
  have htwo : ((iDBSubkeys plainHost .dkIgnored (rootSession [[slash, 97], [slash, 98]]) [] none 0
      1).bind fun r => r.toOption.bind Prod.fst).map List.length = some 2 := by decide +kernel
  rw [hpages 0] at htwo
  have hlen₀ := hlen 0
  simp only [Except.toOption, Option.bind_some, Option.map_some, Option.some.injEq] at htwo
  omega

end Idb
