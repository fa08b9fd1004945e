import Idb.AttrFiles
import Idb.PathBetween

/-!
# Attributes that are paths

The name of an attribute is joined to the directory of the key without a look at it. A name
with slashes in it is a path : it can lead up to the root, through any directory and down to
any file, as long as these directories are there (`getDirValue_through`,
`getDirValue_broken`).
-/

namespace Idb

open Posix FileSystem FileTree

/-- What the node at a place reads as. -/
def readAt (host : Host) (t : FileTree Xattrs) (l : Loc) : Option Bytes :=
  match t.get l with
  | some (.file content _) => some content
  | some (.dir _) => host.dirBytes
  | _ => none

theorem readAt_eq {host : Host} {t t' : FileTree Xattrs} {l : Loc} (h : t'.get l = t.get l) :
    readAt host t' l = readAt host t l := by
  rw [readAt, h, readAt]

/-- The name of the attribute's file. -/
def attrEntry : Option Bytes → Name
  | some (b :: bs) => b :: bs
  | _ => idbValueName

/-- An attribute's file name as an entry. -/
theorem Attr.name_eq (a : Attr) : a.name = attrEntry a.val := by
  obtain ⟨val, h⟩ := a
  cases val with
  | none => rfl
  | some n =>
    cases n with
    | nil => exact absurd rfl (h [] rfl).2.1.symm
    | cons b bs => rfl

theorem makeAttrFileName_entry {path : Bytes} (hne : path ≠ []) (a : Option Bytes) :
    makeAttrFileName path a = joinName path (attrEntry a) := by
  cases a with
  | none => exact sdsJoinPathLen_eq hne _
  | some n => cases n <;> exact sdsJoinPathLen_eq hne _

/-- Up to the root, if it takes at most `n + 1` steps, and down to `l`. -/
def wayTo (n : ℕ) (l : Loc) : List Name :=
  List.replicate (n + 1) [dot, dot] ++ l.reverse

/-- The attribute that leads through the directory `l` to `q`. -/
def throughAttr (n : ℕ) (l q : Loc) : Option Bytes :=
  some (keyText (wayTo n l ++ wayTo n q))

section

variable {host : Host} {fs : FileSystem} {path : Bytes} {p l q : Loc} {n : ℕ} {names : List Name}

/-- `GetDirValue` reads where the attribute's path resolves to. -/
theorem getDirValue_eq_readAt (host : Host) (fs : FileSystem) (path : Bytes) (a : Option Bytes) :
    getDirValue host fs path a = match fs.resolve true (makeAttrFileName path a) with
      | .ok l => readAt host fs.tree l
      | .error _ => none := by
  rw [getDirValue, stat]
  cases fs.resolve true (makeAttrFileName path a) with
  | error e => rfl
  | ok l =>
    simp only [nodeAt, readAt]
    cases fs.tree.get l with
    | none => rfl
    | some n => cases n <;> rfl

/-- An attribute can hold a whole path : up to the root, and down to `l` and `q`. -/
theorem makeAttrFileName_through (hne : path ≠ []) (n : ℕ) (l q : Loc) :
    makeAttrFileName path (throughAttr n l q) = (wayTo n l ++ wayTo n q).foldl joinName path := by
  have hcons : wayTo n l ++ wayTo n q =
      [dot, dot] :: (List.replicate n [dot, dot] ++ l.reverse ++ wayTo n q) := by
    simp [wayTo, List.replicate_succ]
  rw [throughAttr, hcons, ← joinName_keyText path (by decide)]
  obtain ⟨b, bs, hb⟩ := List.exists_cons_of_ne_nil
    (show keyText ([dot, dot] :: (List.replicate n [dot, dot] ++ l.reverse ++ wayTo n q)) ≠ [] from
      foldl_joinName_ne_nil (by decide))
  rw [hb]
  exact sdsJoinPathLen_eq hne _

/-- Climbing `n` directories from `p`. -/
theorem at_up (h : fs.At path p) (n : ℕ) :
    fs.At ((List.replicate n [dot, dot]).foldl joinName path) (p.drop n) := by
  induction n generalizing path p with
  | zero => exact h
  | succ n ih =>
    rw [List.replicate_succ, List.foldl_cons, ← List.drop_tail]
    refine ih ?_
    rw [← enter_dotdot]
    exact h.entry (by decide) (by rw [enter_dotdot]; exact isDir_tail h.isDir)

/-- A node's place consists of valid names. -/
theorem validNames_of_get (hg : fs.tree.get l ≠ none) : ∀ c ∈ l, ValidName c := by
  induction l with
  | nil => simp
  | cons c l ih =>
    obtain ⟨x, hx⟩ := Option.ne_none_iff_exists'.1 hg
    intro m hm
    rcases List.mem_cons.1 hm with rfl | hm
    · exact validName_of_get hx
    · exact ih (get_ne_none_of_isDir (isDir_of_get_cons hx)) m hm

/-- The way up to the root and down again ends at `l`. -/
theorem at_wayTo (h : fs.At path p) (hp : p.length ≤ n) (hl : fs.tree.isDir l) :
    fs.At ((wayTo n l).foldl joinName path) l := by
  have hup := at_up h (n + 1)
  rw [List.drop_eq_nil_of_le (by omega)] at hup
  have hn : ∀ c ∈ l.reverse, ValidName c := fun c hc =>
    validNames_of_get (get_ne_none_of_isDir hl) c (List.mem_reverse.1 hc)
  have hdown := hup.names hn (by simpa using hl)
  rw [List.reverse_reverse, List.append_nil] at hdown
  rwa [wayTo, List.foldl_append]

/-- The file at `q` is read from any directory. -/
theorem getDirValue_through (host : Host) (h : fs.At path p) (hp : p.length ≤ n)
    (hl : fs.tree.isDir l) (hln : l.length ≤ n) (hq : readAt host fs.tree q ≠ none) :
    getDirValue host fs path (throughAttr n l q) = readAt host fs.tree q := by
  have hat := at_wayTo h hp hl
  rw [getDirValue_eq_readAt, makeAttrFileName_through h.ne_nil, List.foldl_append]
  cases q with
  | nil => rw [(at_wayTo hat hln (isDir_nil _)).resolve]
  | cons c q =>
    have hlink : fs.tree.NoLink (c :: q) := fun target ht => hq (by rw [readAt, ht])
    have hget : fs.tree.get (c :: q) ≠ none := fun hn => hq (by rw [readAt, hn])
    obtain ⟨x, hx⟩ := Option.ne_none_iff_exists'.1 hget
    have hc := validName_of_get hx
    have hdown := (at_wayTo hat hln (isDir_of_get_cons hx)).resolve_entry hc.2.1
      (by rwa [enter_plain hc.1]) true
    rw [enter_plain hc.1] at hdown
    rw [show wayTo n (c :: q) = wayTo n q ++ [c] by simp [wayTo], List.foldl_append]
    simp only [List.foldl_cons, List.foldl_nil, hdown]

/-- Nothing is read on a way through a directory that is not there. -/
theorem getDirValue_broken (host : Host) {c : Name} (h : fs.At path p) (hp : p.length ≤ n)
    (hl : fs.tree.isDir l) (hc : ValidName c) (hg : fs.tree.get (c :: l) = none) (q : Loc)
    (hq : ∀ d ∈ q, ValidName d) :
    getDirValue host fs path (throughAttr n (c :: l) q) = none := by
  have hat := at_wayTo h hp hl
  have hcomp : ∀ d ∈ wayTo n q, Component d := by
    intro d hd
    rcases List.mem_append.1 hd with hd | hd
    · rw [(List.mem_replicate.1 hd).2]
      exact ⟨by decide, by decide, by decide⟩
    · exact (hq d (List.mem_reverse.1 hd)).component
  obtain ⟨rest, hrest⟩ := foldl_joinName_behind ((wayTo n l).foldl joinName path) hc.component hcomp
    (by simp [wayTo])
  obtain ⟨err, he⟩ := hat.resolve_behind hc.component
    (by rw [enter_plain hc.1, FileTree.isDir, hg]; rfl)
    (by rw [enter_plain hc.1]; simp [NoLink, hg]) rest true
  rw [getDirValue_eq_readAt, makeAttrFileName_through h.ne_nil, List.foldl_append,
    show wayTo n (c :: l) = wayTo n l ++ [c] by simp [wayTo], List.foldl_append, List.foldl_cons,
    List.foldl_nil, hrest, he]

end

end Idb
