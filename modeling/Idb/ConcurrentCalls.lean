import Idb.SystemCalls
import Idb.TreeStore

/-!
# System calls on a mirrored tree

What a single system call of a put or a get does when the directory mirrors a tree of keys : it
finds what the tree says, or makes a key, or gives an attribute another content.
-/

namespace Idb

open Posix FileSystem FileTree

/-! ## Keys -/

section

variable {D : Bytes} {d l : Loc} {fs fs' : FileSystem} {keys : Finset (List Key)}
  {p q : List Key} {k : Key}

theorem path_concat (D : Bytes) (p : List Key) (k : Key) :
    joinName D (keyOf (p ++ [k])) = joinName ((keyNames p).foldl joinName D) k.val := by
  rcases path_keyOf D (p ++ [k]) with he | ⟨he, -⟩
  · rw [he, keyNames, List.map_append, List.foldl_append]
    rfl
  · simp at he

/-- The path of a key names a directory, or nothing. -/
theorem PlainKeys.stat_key (h : PlainKeys D d fs keys) (q : List Key) :
    (q ∈ keys ∧ ∃ x, fs.stat (joinName D (keyOf q)) = .ok (.dir x)) ∨
      (q ∉ keys ∧ ∃ e, fs.stat (joinName D (keyOf q)) = .error e) := by
  have hdir := h.directoryExists_eq (q := q)
  split_ifs at hdir with hq
  · exact Or.inl ⟨hq, directoryExists_eq_dir.1 hdir⟩
  · refine Or.inr ⟨hq, ?_⟩
    cases hs : fs.stat (joinName D (keyOf q)) with
    | error e => exact ⟨e, rfl⟩
    | ok n => exact absurd hdir (directoryExists_ne_missing.2 ⟨n, hs⟩)

/-- A subkey of a key is made, unless it is there already. -/
theorem PlainKeys.mkdir_key (h : PlainKeys D d fs keys) (hp : p ∈ keys) (k : Key) :
    (p ++ [k] ∈ keys ∧ fs.mkdir (joinName D (keyOf (p ++ [k]))) = .error .eexist) ∨
      (p ++ [k] ∉ keys ∧ ∃ fs', fs.mkdir (joinName D (keyOf (p ++ [k]))) = .ok fs' ∧
        fs'.cwd = fs.cwd ∧
        fs.tree.Updated fs'.tree (keyLoc d (p ++ [k])) (some newDir)) := by
  have hk : ValidName k.val := validName_keyNames (q := [k]) (by simp [keyNames])
  have hat : fs.At ((keyNames p).foldl joinName D) (keyLoc d p) :=
    h.isAt.names (fun _ => validName_keyNames) (h.isDir_keyLoc.2 hp)
  have hget : fs.tree.get (k.val :: keyLoc d p) = none ∨ fs.tree.isDir (k.val :: keyLoc d p) := by
    rw [← keyLoc_concat, h.isDir_keyLoc]
    exact (em (p ++ [k] ∈ keys)).symm.imp_left h.get_missing
  rw [path_concat, keyLoc_concat]
  rcases mkdir_entry hat hk hget with ⟨hd, he⟩ | ⟨hn, fs', hm⟩
  · rw [← keyLoc_concat, h.isDir_keyLoc] at hd
    exact Or.inl ⟨hd, he⟩
  · refine Or.inr ⟨fun hmem => ?_, fs', hm⟩
    rw [← h.isDir_keyLoc, keyLoc_concat] at hmem
    exact get_ne_none_of_isDir hmem hn

end

/-! ## Attributes -/

namespace Mirrors

variable {D : Bytes} {d l : Loc} {fs fs' : FileSystem} {t : KeyTree Key FileName Bytes}
  {p q : List Key} {k : Key} {a : Attr} {v w : Bytes} (h : Mirrors D d fs t)

include h

/-- A subkey is made. -/
theorem made (hp : p ∈ t.keys) (hc : fs'.cwd = fs.cwd)
    (hu : fs.tree.Updated fs'.tree (keyLoc d (p ++ [k])) (some newDir)) :
    Mirrors D d fs' (t.make (p ++ [k])) := by
  have hne : p ++ [k] ≠ [] := by simp
  have hfile : ∀ m, fs'.tree.fileAt m = fs.tree.fileAt m := by
    intro m
    rw [fileAt, hu m]
    split_ifs with hm
    · rw [hm, h.clear]
      rfl
    · rfl
  refine ⟨h.grown (q := p ++ [k]) hc (fun m hm => ?_) (fun m hm => ?_) (fun m => ?_)
    (fun q => by rw [hfile, h.clear]) fun q => KeyTree.mem_make_keys, fun m w hm => ?_⟩
  · rw [hu m, if_neg]
    rintro rfl
    exact hm (below_keyLoc hne)
  · intro target ht
    rw [hu m] at ht
    split_ifs at ht
    · simp [newDir] at ht
    · exact hm target ht
  · rw [FileTree.isDir, hu m]
    split_ifs with hm
    · simp [hm, newDir, Node.isDir, below_keyLoc hne]
    · refine (or_iff_left_of_imp ?_).symm
      rintro ⟨-, hs⟩
      rw [keyLoc_concat] at hm hs
      exact isDir_of_suffix ((List.suffix_cons_iff.1 hs).resolve_left hm) (h.isDir_keyLoc.2 hp)
  · rw [hfile]
    exact h.files m w hm

/-- Where the path of an attribute leads. -/
theorem resolve_attr (hq : q ∈ t.keys) (a : Attr) :
    fs.resolve true (makeAttrFileName (joinName D (keyOf q)) a.val) =
      .ok (a.name :: keyLoc d q) :=
  Idb.resolve_attr (leads_keyOf D d q) h.isAt h.links (h.isDir_keyLoc.2 hq)

theorem rewritten {x : Xattrs} (hc : fs'.cwd = fs.cwd)
    (hu : fs.tree.Updated fs'.tree (a.name :: keyLoc d q) (some (.file v x))) :
    Mirrors D d fs' (t.put q a.file v) := by
  refine h.stored ⟨hc, ?_, fun l hl => Or.inl ?_⟩
  · rw [fileAt, hu, if_pos rfl]
  · rw [hu l, if_neg hl]

theorem writeFile_attr (hq : q ∈ t.keys) (a : Attr) (v : Bytes) :
    ∃ t' x, fs.tree.writeFile (fun _ => none) v (a.name :: keyLoc d q) = .ok t' ∧
      fs.tree.Updated t' (a.name :: keyLoc d q) (some (.file v x)) :=
  Idb.writeFile_attr (h.links _ (below_cons (suffix_keyLoc d q) a.name))
    (h.not_isDir_attr (suffix_keyLoc d q)) (h.isDir_keyLoc.2 hq) v

/-- The file of an attribute of a key can be written. -/
theorem write_attr (hq : q ∈ t.keys) (a : Attr) (v : Bytes) :
    ∃ fs', fs.write (makeAttrFileName (joinName D (keyOf q)) a.val) v = .ok fs' ∧
      Mirrors D d fs' (t.put q a.file v) := by
  obtain ⟨t', x, ht', hu⟩ := h.writeFile_attr hq a v
  refine ⟨{ fs with tree := t' }, ?_, h.rewritten rfl hu⟩
  exact modify_eq (h.resolve_attr hq a) ht'

/-- The path of an attribute names a file that holds its value, or nothing. -/
theorem stat_value (q : List Key) (a : Attr) :
    (∃ w x, t.value q a.file = some w ∧
      fs.stat (makeAttrFileName (joinName D (keyOf q)) a.val) = .ok (.file w x)) ∨
    (t.value q a.file = none ∧
      ∃ e, fs.stat (makeAttrFileName (joinName D (keyOf q)) a.val) = .error e) := by
  have hs := suffix_keyLoc d q
  rw [← h.fileAt_attr]
  rcases stat_attr_cases (a := a) (leads_keyOf D d q) h.isAt h.links with
    ⟨n, hn, hg⟩ | ⟨e, he, hg⟩
  · rcases get_cases_of_noLink (h.links _ (below_cons hs a.name)) with hg' | hd | ⟨w, hw⟩
    · simp [hg'] at hg
    · simp [h.not_isDir_attr hs] at hd
    · obtain ⟨x, hx⟩ := fileAt_eq_some.1 hw
      rw [hx, Option.some.injEq] at hg
      exact Or.inl ⟨w, x, hw, hg ▸ hn⟩
  · exact Or.inr ⟨by rw [fileAt, hg], e, he⟩

theorem openContent_value (host : Host) (hv : t.value q a.file = some w) :
    openContent host fs (a.name :: keyLoc d q) = w := by
  rw [← h.fileAt_attr, fileAt_eq_some] at hv
  obtain ⟨x, hx⟩ := hv
  rw [openContent, hx]

/-- What is written replaces the start of the value. -/
theorem writeStart_value (hv : t.value q a.file = some w) (v : Bytes) :
    Mirrors D d (writeStart fs (a.name :: keyLoc d q) v)
      (t.put q a.file (v ++ w.drop v.length)) := by
  obtain ⟨t', x, ht', hu⟩ :=
    h.writeFile_attr (KeyTree.mem_of_value hv) a (v ++ w.drop v.length)
  rw [← h.fileAt_attr] at hv
  simp only [writeStart, hv, ht']
  exact h.rewritten rfl hu

end Mirrors

end Idb
