import Idb.Partition
import Idb.Attributes

/-!
# Paths from the current directory

A relative path leads from the current directory where the path joined to it leads from
elsewhere. So the calls and the helpers do the same in both cases, as long as no path they are
given becomes empty (`SeenFrom`).
-/

namespace Idb

open Posix FileSystem FileTree

/-- `D` leads to the directory `d` and follows no link. -/
structure Direct (fs : FileSystem) (D : Bytes) (d : Loc) : Prop where
  ne_nil : D ≠ []
  leads : fs.tree.namei true 0 (startOf fs.cwd D) (components D) = .ok d
  isDir : fs.tree.isDir d

/-- A path that is walked from the current directory. -/
structure Relative (path : Bytes) : Prop where
  ne_nil : path ≠ []
  head : path.head? ≠ some slash

/-- The current directory after `chdir`. -/
def chdir (fs : FileSystem) (d : Loc) : FileSystem :=
  { fs with cwd := d }

section

variable {fs fs' : FileSystem} {D path q c : Bytes} {d : Loc} {last : Bool}

/-- The components of a path to the directory, but for the slash at its end. -/
theorem components_base (hd : fs.tree.isDir d) : ∃ cs,
    (∀ path, components (joinName D path) = cs ++ components path) ∧
      ∀ n, fs.tree.namei true n (startOf fs.cwd D) (components D) = .ok d ↔
        fs.tree.namei true n (startOf fs.cwd D) cs = .ok d := by
  unfold joinName
  split_ifs with hl
  · obtain ⟨pre, rfl⟩ : ∃ pre, D = pre ++ [slash] := List.getLast?_eq_some_iff.1 hl
    have hpre : components (pre ++ [slash]) = components pre ++ [[]] :=
      components_append_slash pre []
    refine ⟨components pre, fun path => ?_, fun n => ?_⟩
    · rw [List.append_assoc, List.singleton_append, components_append_slash]
    · rw [hpre]
      refine ⟨namei_concat_nil, fun h => ?_⟩
      have hlink : fs.tree.NoLink (enter d []) := by
        rw [enter_nil]
        exact noLink_of_isDir hd
      obtain ⟨m, hm⟩ := namei_append true (List.cons_ne_nil [] []) h
      rw [hm, namei_single hd hlink, enter_nil]
  · exact ⟨components D, components_append_slash D, fun n => Iff.rfl⟩

namespace Direct

theorem toAt (h : Direct fs D d) : fs.At D d :=
  ⟨h.ne_nil, by rw [FileSystem.resolve, if_neg h.ne_nil, namei_direct symloopMax h.leads], h.isDir⟩

theorem keeps (h : Direct fs D d) (hk : fs.tree.Keeps fs'.tree) (hc : fs'.cwd = fs.cwd) :
    Direct fs' D d :=
  ⟨h.ne_nil, hc ▸ namei_keeps hk (fun _ => noLink_of_isDir (hk.dir _ h.isDir)) h.leads,
    hk.dir _ h.isDir⟩

/-- What is joined to the path is walked from the directory, with the whole budget. -/
theorem resolve_joinName (h : Direct fs D d) (last : Bool) (q : Bytes) :
    fs.resolve last (joinName D q) = fs.tree.namei last symloopMax d (components q) := by
  obtain ⟨cs, hcs, hiff⟩ := components_base h.isDir
  rw [FileSystem.resolve, if_neg (joinName_ne_nil h.ne_nil), startOf_joinName h.ne_nil, hcs]
  exact namei_append_direct last _ ((hiff 0).1 h.leads) _

end Direct

theorem Relative.resolve (h : Relative path) (last : Bool) :
    fs.resolve last path = fs.tree.namei last symloopMax fs.cwd (components path) := by
  rw [FileSystem.resolve, if_neg h.ne_nil, startOf, if_neg h.head]

/-! ## Joined paths -/

theorem Relative.joinName (h : Relative q) (c : Bytes) : Relative (joinName q c) := by
  obtain ⟨b, q, rfl⟩ := List.exists_cons_of_ne_nil h.ne_nil
  refine ⟨joinName_ne_nil h.ne_nil, ?_⟩
  have := h.head
  unfold FileSystem.joinName
  split_ifs <;> simpa using this

theorem Relative.of_append {a b : Bytes} (h : Relative (a ++ b)) (ha : a ≠ []) : Relative a := by
  obtain ⟨x, a, rfl⟩ := List.exists_cons_of_ne_nil ha
  exact ⟨ha, h.head⟩

/-! ## The calls -/

namespace Direct

variable (h : Direct fs D d)

include h

theorem resolve_chdir (hq : Relative q) (last : Bool) :
    (chdir fs d).resolve last q = fs.resolve last (joinName D q) := by
  rw [h.resolve_joinName, hq.resolve]
  rfl

theorem stat_chdir (hq : Relative q) : (chdir fs d).stat q = fs.stat (joinName D q) := by
  rw [FileSystem.stat, h.resolve_chdir hq]
  rfl

theorem lstat_chdir (hq : Relative q) : (chdir fs d).lstat q = fs.lstat (joinName D q) := by
  rw [FileSystem.lstat, h.resolve_chdir hq]
  rfl

theorem directoryExists_chdir (hq : Relative q) :
    directoryExists (chdir fs d) q = directoryExists fs (joinName D q) := by
  rw [directoryExists, directoryExists, h.stat_chdir hq]

theorem at_chdir (hq : Relative q) {l : Loc} : (chdir fs d).At q l ↔ fs.At (joinName D q) l := by
  constructor
  · rintro ⟨-, hr, hd⟩
    exact ⟨joinName_ne_nil h.ne_nil, h.resolve_chdir hq true ▸ hr, hd⟩
  · rintro ⟨-, hr, hd⟩
    exact ⟨hq.ne_nil, (h.resolve_chdir hq true).trans hr, hd⟩

theorem modify_chdir (hq : Relative q) (op : Loc → Except Errno (FileTree Xattrs)) :
    (chdir fs d).modify last q op = (fs.modify last (joinName D q) op).map (chdir · d) := by
  rw [FileSystem.modify, FileSystem.modify, h.resolve_chdir hq]
  cases fs.resolve last (joinName D q) with
  | error e => rfl
  | ok l => cases ho : op l <;> simp [ho, Except.map, chdir]

/-! ## The helpers -/

/-- `mkdir` of a relative path from `d`. -/
theorem mkdir_chdir (hq : Relative q) :
    (chdir fs d).mkdir q = (fs.mkdir (joinName D q)).map (chdir · d) := by
  have hne : q.rdropWhile (· = slash) ≠ [] := by
    obtain ⟨b, q, rfl⟩ := List.exists_cons_of_ne_nil hq.ne_nil
    have hb := hq.head
    rw [ne_eq, List.rdropWhile_eq_nil_iff]
    intro hall
    exact hb (by simpa using hall b List.mem_cons_self)
  obtain ⟨r, hr⟩ := List.rdropWhile_prefix (· = slash) (l := q)
  have hrel : Relative (trimSlashes q) := by
    simp only [trimSlashes, if_neg hne]
    exact (hr ▸ hq).of_append hne
  have htrim : trimSlashes (joinName D q) = joinName D (trimSlashes q) := by
    have hdrop : (withSlash D ++ q).rdropWhile (· = slash) =
        withSlash D ++ q.rdropWhile (· = slash) := by
      have hne' : q.reverse.dropWhile (· = slash) ≠ [] := by simpa [List.rdropWhile] using hne
      rw [List.rdropWhile, List.reverse_append, List.dropWhile_append, if_neg (by simpa using hne'),
        List.reverse_append, List.reverse_reverse, List.rdropWhile]
    simp only [trimSlashes, joinName_eq_withSlash D, hdrop, if_neg hne]
    rw [if_neg (by simp [hne])]
  rw [FileSystem.mkdir, FileSystem.mkdir, htrim, h.modify_chdir hrel]
  rfl

theorem doMkdir_chdir (hq : Relative q) :
    doMkdir (chdir fs d) q = (doMkdir fs (joinName D q)).map (chdir · d) id := by
  rw [doMkdir, doMkdir, h.stat_chdir hq, h.mkdir_chdir hq]
  cases fs.stat (joinName D q) with
  | ok n => cases n <;> rfl
  | error e => cases fs.mkdir (joinName D q) <;> rfl

/-- `SetDirValue` below a relative path from `d`. -/
theorem setDirValue_chdir (hq : Relative q) (v : Bytes) (a : Option Bytes) :
    setDirValue (chdir fs d) q v a =
      (setDirValue fs (joinName D q) v a).map (chdir · d) id := by
  have hattr : makeAttrFileName (joinName D q) a = joinName D (makeAttrFileName q a) ∧
      Relative (makeAttrFileName q a) := by
    unfold makeAttrFileName
    split <;> rw [sdsJoinPathLen_eq (joinName_ne_nil h.ne_nil), sdsJoinPathLen_eq hq.ne_nil] <;>
      exact ⟨joinName_joinName D hq.ne_nil _, hq.joinName _⟩
  have hwrite : (chdir fs d).write (makeAttrFileName q a) v =
      (fs.write (joinName D (makeAttrFileName q a)) v).map (chdir · d) :=
    h.modify_chdir hattr.2 _
  rw [setDirValue, setDirValue, hattr.1, hwrite]
  cases fs.write (joinName D (makeAttrFileName q a)) v <;> rfl

/-- The loop of `ForceDirectories` behind the directory. -/
theorem forceLoop_chdir {rest : Bytes} (hq : Relative (c ++ rest)) :
    forceLoop (chdir fs d) c rest =
      (forceLoop fs (withSlash D ++ c) rest).map (chdir · d) id := by
  induction rest generalizing fs c with
  | nil =>
    rw [List.append_nil] at hq
    rw [forceLoop, forceLoop, h.doMkdir_chdir hq, joinName_eq_withSlash]
  | cons b rest ih =>
    have hnext : Relative ((c ++ [b]) ++ rest) := by simpa using hq
    have hlast : (b = slash ∧ withSlash D ++ c ≠ [] ∧ (withSlash D ++ c).getLast? ≠ some slash) ↔
        (b = slash ∧ c ≠ [] ∧ c.getLast? ≠ some slash) := by
      by_cases hc : c = []
      · simp [hc, getLast?_withSlash]
      · rw [List.getLast?_append_of_ne_nil _ hc]
        simp [hc]
    rw [forceLoop, forceLoop]
    simp only [hlast]
    by_cases hb : b = slash ∧ c ≠ [] ∧ c.getLast? ≠ some slash
    · have hmade := doMkdir_made fs (withSlash D ++ c)
      have ih := ih (h.keeps hmade.keeps hmade.cwd_eq) hnext
      rw [if_pos hb, if_pos hb, h.doMkdir_chdir (hq.of_append hb.2.1), joinName_eq_withSlash,
        List.append_assoc, Prod.map_fst, Prod.map_snd, id_eq]
      split_ifs
      · exact ih
      · rfl
    · rw [if_neg hb, if_neg hb, ih h hnext, List.append_assoc]

theorem forceDirectories_chdir (hq : Relative q) : forceDirectories (chdir fs d) q =
    (forceDirectories fs (joinName D q)).map (chdir · d) id := by
  rw [forceDirectories, forceDirectories, joinName_eq_withSlash, forceLoop_at (at_withSlash h.toAt),
    h.forceLoop_chdir (c := []) hq, List.append_nil]

/-- The selection of an item below a relative path from `d`. -/
theorem itemSelected_chdir (hq : Relative q) (host : Host) (aPattern : Option Bytes)
    (aOptions : ℕ) (item : Dirent) :
    itemSelected host aPattern aOptions q (chdir fs d) item =
      itemSelected host aPattern aOptions (joinName D q) fs item := by
  have hpath : itemPath (joinName D q) item.dName = joinName D (itemPath q item.dName) := by
    rw [itemPath_eq hq.ne_nil, itemPath_eq (joinName_ne_nil h.ne_nil)]
    exact joinName_joinName D hq.ne_nil _
  have hitem : Relative (itemPath q item.dName) := by
    rw [itemPath_eq hq.ne_nil]
    exact hq.joinName _
  have htype : itemType (chdir fs d) q item = itemType fs (joinName D q) item := by
    rw [itemType, itemType, hpath, h.lstat_chdir hitem]
  have hsel : ∀ type, typeSelected (chdir fs d) q aOptions item type =
      typeSelected fs (joinName D q) aOptions item type := by
    intro type
    cases type <;> simp only [typeSelected, hpath, h.stat_chdir hitem]
  simp only [itemSelected, htype, hsel]

/-- `CountDir` of a relative path from `d`. -/
theorem countDir_chdir (hq : Relative q) {l : Loc} (hat : fs.At (joinName D q) l) (host : Host)
    (aPattern : Option Bytes) (aOptions : ℕ) :
    countDir host (chdir fs d) q aPattern aOptions =
      countDir host fs (joinName D q) aPattern aOptions := by
  have hk : KeepsFs (U := Unit) none := fun _ hm => by simp at hm
  have hsel : itemSelected host aPattern aOptions q (chdir fs d) =
      itemSelected host aPattern aOptions (joinName D q) fs :=
    funext (h.itemSelected_chdir hq host aPattern aOptions)
  rw [countDir, countDir, walkDir_at (hk.keepsOn _) trivial ((h.at_chdir hq).2 hat),
    walkDir_at (hk.keepsOn _) trivial hat, hsel]
  simp only [runItems_none _ (show ¬(0 : ℤ) ≤ walkItemStop by decide)]
  rfl

end Direct

end

end Idb
