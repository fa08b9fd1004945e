import Idb.PathAttrs
import Idb.PutRuns

/-!
# Deleting a key

`iKeyDelete` removes the first spot of the key that is a directory. So the key is gone
exactly if it was in one spot only (`keyDelete_forgets_iff`) ; a delete of another key
can have made room for a second copy. The partition directory behind the last character of a
key is a spot too : when the key is not stored, all keys in that partition are removed. And an
attribute that is a path is read through any directory, so it is gone when one on the way is
(`keyDelete_frame_iff`).
-/

namespace Idb

open Posix FileSystem FileTree

/-- At most one spot of the key is a directory. -/
def OneSpot (t : FileTree Xattrs) (d : Loc) (k : Key) : Prop :=
  ∀ i j l l', SpotAt d k i l → SpotAt d k j l' → t.isDir l → t.isDir l' → i = j

/-- The first spot of the key that is a directory. -/
def FirstSpot (t : FileTree Xattrs) (d : Loc) (k : Key) (l : Loc) : Prop :=
  ∃ i, SpotAt d k i l ∧ t.isDir l ∧ ∀ j l', j < i → SpotAt d k j l' → t.isDir l' = false

/-- Some spot of the key is a directory. -/
def Found (t : FileTree Xattrs) (d : Loc) (k : Key) : Prop :=
  ∃ i l, SpotAt d k i l ∧ t.isDir l

section

variable {fs fs' : FileSystem} {t t' : FileTree Xattrs} {D : Bytes} {d l : Loc} {k : Key}
  {i : ℕ} {M : ℤ} {host : Host}

theorem Removed.isDir_iff (h : Removed t t' l) (q : Loc) :
    t'.isDir q ↔ t.isDir q ∧ ¬l <:+ q := by
  rw [FileTree.isDir, h q]
  split_ifs with hs
  · simp [hs]
  · simp [hs, FileTree.isDir]

theorem Removed.fileAt_eq (h : Removed t t' l) (q : Loc) :
    t'.fileAt q = if l <:+ q then none else t.fileAt q := by
  rw [fileAt, h q]
  split_ifs <;> rfl

theorem isDir_eq_false_of_not_found (h : ¬Found t d k) (hs : SpotAt d k i l) :
    t.isDir l = false := by
  by_contra hd
  exact h ⟨i, l, hs, by simpa using hd⟩

namespace BaseDir

variable (h : BaseDir fs D d) (hk : DotFreeLook fs.tree d k)

include h

/-- Nothing is read through the plain path of a key that is not a directory. -/
theorem getDirValue_eq_none (host : Host) (hd : fs.tree.isDir (k.val :: d) = false)
    (a : Option Bytes) : getDirValue host fs (joinName D k.val) a = none := by
  have hplain := plain_of_head? k.component.1 k.visible
  have hattr : ∃ rest,
      makeAttrFileName (joinName D k.val) a = joinName (joinName D k.val) rest := by
    have hne := joinName_ne_nil (c := k.val) h.isAt.ne_nil
    unfold makeAttrFileName
    split <;> exact ⟨_, sdsJoinPathLen_eq hne _⟩
  obtain ⟨rest, hrest⟩ := hattr
  obtain ⟨err, herr⟩ := h.isAt.resolve_behind k.component (by rwa [enter_plain hplain])
    (enter_plain hplain d ▸ h.links _ (homeAt_zero d k).below) rest true
  rw [getDirValue_eq_readAt, hrest, herr]

include hk

/-- If no spot of a key is a directory, nothing is read of it, under any name. -/
theorem iGet_eq_none (host : Host) (hno : ¬Found fs.tree d k) (a : Option Bytes) :
    iGet host M fs D k.val a storeInFile = none := by
  have hd := isDir_eq_false_of_not_found hno (Or.inl (homeAt_zero d k))
  simp only [iGet, h.key_path, _iGet_storeInFile, h.getDirValue_eq_none host hd]
  split_ifs
  · rcases h.iIsKeyDirExists_spec hk with ⟨i, path, l, -, hs, hd, -⟩ | ⟨-, he⟩
    · exact absurd ⟨i, l, hs, hd⟩ hno
    · simp [he]
  · rfl

end BaseDir

end

/-! ## Gone for good -/

/-- After a deletion a key is gone exactly if at most one spot of it was a directory. -/
theorem keyDelete_forgets_iff (S : Start) (host : Host) (M : ℤ) (calls : List StoreCall)
    (k : DotFreeKey) (hM : M > 0) (hcalls : ∀ c ∈ calls, c.OnKey) :
    ((iKeyDelete host M (S.run host M calls) S.dir k.val).2 = true →
      iKeyIsExists M (iKeyDelete host M (S.run host M calls) S.dir k.val).1 S.dir k.val ≠
          pathIsDir ∧
        ∀ a, iGet host M (iKeyDelete host M (S.run host M calls) S.dir k.val).1 S.dir k.val a
          storeInFile = none) ↔
      OneSpot (S.run host M calls).tree S.loc k.toKey := by
  have h := S.baseDir_run host hM hcalls
  have h' := h.keyDelete hM host k
  have hspec := @BaseDir.iKeyDelete_spec _ _ _ k.toKey host _ h hM k.look
  constructor
  · intro hgone i j l l' hl hl' hd hd'
    rcases hspec with ⟨i₀, l₀, fs', hs, hd₀, hmin, he, hc, hr⟩ | ⟨hno, -⟩
    · rw [he] at h' hgone
      have hexists := (hgone rfl).1
      rw [ne_eq, h'.iKeyIsExists_spec hM k.look] at hexists
      -- A second directory is not inside the first one, and is found after it is removed.
      have honly : ∀ j l, SpotAt S.loc k.toKey j l → (S.run host M calls).tree.isDir l →
          i₀ = j := by
        intro j l hl hd
        have hle : i₀ ≤ j := by
          by_contra hlt
          simp [hmin j l (by omega) hl] at hd
        by_contra hne
        exact hexists ⟨j, l, hl, (hr.isDir_iff l).2 ⟨hd, fun hsuf =>
          hne (hs.eq_of_suffix hl hsuf hle)⟩⟩
      exact (honly i l hl hd).symm.trans (honly j l' hl' hd')
    · simp [hno i l hl] at hd
  · intro hone hdel
    rcases hspec with ⟨i₀, l₀, fs', hs, hd₀, -, he, hc, hr⟩ | ⟨-, he⟩
    · rw [he] at h' ⊢
      have hno : ¬Found fs'.tree S.loc k.toKey := by
        rintro ⟨j, l, hl, hd⟩
        rw [hr.isDir_iff] at hd
        obtain rfl := hone i₀ j l₀ l hs hl hd₀ hd.1
        exact hd.2 (hs.unique hl ▸ List.suffix_refl _)
      refine ⟨?_, fun a => h'.iGet_eq_none k.look host hno a⟩
      rw [ne_eq, h'.iKeyIsExists_spec hM k.look]
      exact hno
    · simp [he] at hdel

/-- With `x` deleted, the second put of `ab` no longer goes into the partition where the
first one is. -/
def copyingCalls : List StoreCall :=
  [.put (.ofValue keyX [49]), .put (.ofValue keyAb [50]), .keyDelete keyX,
    .put (.ofValue keyAb [51])]

/-- So the key has two spots, and is not gone when it is deleted. -/
theorem keyDelete_forgets_iff_copies :
    (∀ c ∈ copyingCalls, c.OnKey) ∧
      ¬((iKeyDelete plainHost 1 (rootStart.run plainHost 1 copyingCalls) [slash] keyAb.val).2 =
          true →
        iKeyIsExists 1 (iKeyDelete plainHost 1 (rootStart.run plainHost 1 copyingCalls) [slash]
            keyAb.val).1 [slash] keyAb.val ≠ pathIsDir ∧
          ∀ a, iGet plainHost 1 (iKeyDelete plainHost 1 (rootStart.run plainHost 1 copyingCalls)
            [slash] keyAb.val).1 [slash] keyAb.val a storeInFile = none) := by
  have hcalls : ∀ c ∈ copyingCalls, c.OnKey := by decide
  refine ⟨hcalls, fun hgone => ?_⟩
  have hone := (keyDelete_forgets_iff rootStart plainHost 1 copyingCalls keyAb (by decide) hcalls).1
    hgone
  have hpart : HomeAt [] keyAb.toKey 1 [[98], [dot, 97]] :=
    ⟨[[dot, 97]], [98], by decide +kernel, by simp [PlainParts, dot], by simp, by decide, rfl⟩
  have := hone 0 1 _ _ (Or.inl (homeAt_zero [] keyAb.toKey)) (Or.inl hpart) (by decide +kernel)
    (by decide +kernel)
  omega

/-- Deleting `ab` uncovers the first copy. -/
theorem keyDelete_uncovers :
    (iKeyDelete plainHost 1 (rootStart.run plainHost 1 copyingCalls) [slash] keyAb.val).2 = true ∧
      iKeyIsExists 1 (iKeyDelete plainHost 1 (rootStart.run plainHost 1 copyingCalls) [slash]
        keyAb.val).1 [slash] keyAb.val = pathIsDir ∧
      iGet plainHost 1 (iKeyDelete plainHost 1 (rootStart.run plainHost 1 copyingCalls) [slash]
        keyAb.val).1 [slash] keyAb.val none storeInFile = some [50] := by
  decide +kernel

/-! ## Other keys -/

/-- Deleting the key leaves what is read of an attribute of the other keys as it is. -/
def DeleteKeeps (host : Host) (M : ℤ) (fs : FileSystem) (D : Bytes) (k : DotFreeKey)
    (a : Option Bytes) : Prop :=
  ∀ k' : DotFreeKey, k' ≠ k →
    iGet host M (iKeyDelete host M fs D k.val).1 D k'.val a storeInFile =
      iGet host M fs D k'.val a storeInFile

section

variable {fs fs' : FileSystem} {t t' : FileTree Xattrs} {D : Bytes} {d l l' q : Loc}
  {k k' : DotFreeKey} {M : ℤ} {host : Host} {v : Bytes} {n : ℕ} {c : Name}

namespace BaseDir

variable (h : BaseDir fs D d)

include h

/-- Through a key that is found any file is read, by way of any directory. -/
theorem iGet_through (hM : M > 0) (host : Host) (hf : Found fs.tree d k.toKey)
    (hl : fs.tree.isDir l) (hq : readAt host fs.tree q = some v) :
    iGet host M fs D k.val (throughAttr fs.tree.nodes.keys.length l q) storeInFile = some v := by
  have hread : ∀ {path p}, fs.At path p → getDirValue host fs path
      (throughAttr fs.tree.nodes.keys.length l q) = some v := fun hp => by
    rw [getDirValue_through host hp (length_le_of_isDir hp.isDir) hl (length_le_of_isDir hl)
      (by rw [hq]; simp), hq]
  have hpath : Leads D d (joinName D k.val) (k.val :: d) := leads_key (k := k.toKey)
  simp only [iGet, h.key_path (k := k.toKey), _iGet_storeInFile, if_pos hM]
  by_cases hd : fs.tree.isDir (k.val :: d)
  · rw [hread (hpath.isAt h.isAt hd)]
  · rw [h.getDirValue_eq_none host (by simpa using hd)]
    rcases h.iIsKeyDirExists_spec k.look with ⟨i, path, l', -, -, hd', hp, -, he⟩ | ⟨hno, -⟩
    · simp only [he, hread (hp.isAt h.isAt hd')]
    · obtain ⟨i, l', hs, hd'⟩ := hf
      rcases Nat.eq_zero_or_pos i with rfl | hi
      · exact absurd (hs.unique (Or.inl (homeAt_zero d k.toKey)) ▸ hd') hd
      · simp [hno i l' hi hs] at hd'

/-- When a directory on the way is gone, nothing is read. -/
theorem iGet_broken (host : Host) (k : DotFreeKey) (hn : ∀ p, fs.tree.isDir p → p.length ≤ n)
    (hl : fs.tree.isDir l) (hc : ValidName c) (hg : fs.tree.get (c :: l) = none)
    (hq : ∀ e ∈ q, ValidName e) :
    iGet host M fs D k.val (throughAttr n (c :: l) q) storeInFile = none := by
  have hread : ∀ {path p}, fs.At path p →
      getDirValue host fs path (throughAttr n (c :: l) q) = none := fun hp =>
    getDirValue_broken host hp (hn _ hp.isDir) hl hc hg q hq
  have hpath : Leads D d (joinName D k.val) (k.val :: d) := leads_key (k := k.toKey)
  simp only [iGet, h.key_path (k := k.toKey), _iGet_storeInFile]
  have hplain : getDirValue host fs (joinName D k.val) (throughAttr n (c :: l) q) = none := by
    by_cases hd : fs.tree.isDir (k.val :: d)
    · exact hread (hpath.isAt h.isAt hd)
    · exact h.getDirValue_eq_none host (by simpa using hd) _
  simp only [hplain]
  split_ifs
  · rcases h.iIsKeyDirExists_spec k.look with ⟨i, path, l', -, -, hd', hp, -, he⟩ | ⟨-, he⟩
    · simp only [he, hread (hp.isAt h.isAt hd')]
    · simp only [he]
  · rfl

end BaseDir

/-- A key has one first spot. -/
theorem FirstSpot.unique {k : Key} (h : FirstSpot t d k l) (h' : FirstSpot t d k l') :
    l = l' := by
  obtain ⟨i, hs, hd, hmin⟩ := h
  obtain ⟨j, hs', hd', hmin'⟩ := h'
  rcases Nat.lt_trichotomy i j with hij | rfl | hij
  · simp [hmin' i l hij hs] at hd
  · exact hs.unique hs'
  · simp [hmin j l' hij hs'] at hd'

/-- In a tree with nothing to read, nothing is read. -/
theorem iGet_of_unreadable (hq : ∀ q, readAt host fs.tree q = none) (key : Bytes)
    (a : Option Bytes) : iGet host M fs D key a storeInFile = none := by
  have hread : ∀ path, getDirValue host fs path a = none := fun path => by
    rw [getDirValue_eq_readAt]
    cases fs.resolve true (makeAttrFileName path a) with
    | error e => rfl
    | ok l => exact hq l
  simp only [iGet, _iGet_storeInFile, hread]
  split_ifs
  · cases iIsKeyDirExists fs (sdsJoinPathLen D key) <;> rfl
  · rfl

/-- Whether deleting a key changes what is read of the others under names that are paths. -/
theorem deleteKeeps_all_iff (h : BaseDir fs D d) (hM : M > 0) (host : Host) (k : DotFreeKey) :
    (∀ a, DeleteKeeps host M fs D k a) ↔
      ∀ l, FirstSpot fs.tree d k.toKey l → ∀ k' : DotFreeKey, k' ≠ k →
        Found fs.tree d k'.toKey → ∀ q, readAt host fs.tree q = none := by
  have h' := h.keyDelete hM host k
  unfold DeleteKeeps
  rcases @BaseDir.iKeyDelete_spec _ _ _ k.toKey host _ h hM k.look with
    ⟨i, l₀, fs', hs, hd, hmin, he, hc, hr⟩ | ⟨hno, he⟩
  · rw [he] at h' ⊢
    constructor
    · intro hkeeps l hl k' hne hf q
      by_contra hq
      obtain ⟨v, hv⟩ := Option.ne_none_iff_exists'.1 hq
      obtain ⟨c, p, rfl⟩ := below_iff_exists.1 hs.below
      have hsame := hkeeps (throughAttr fs.tree.nodes.keys.length (c :: (p ++ d)) q) k' hne
      have hget : fs.tree.get (c :: (p ++ d)) ≠ none := get_ne_none_of_isDir hd
      have hval := validNames_of_get hget
      rw [h.iGet_through hM host hf hd hv, h'.iGet_broken host k'
        (fun m hm => length_le_of_isDir ((hr.isDir_iff m).1 hm).1)
        ((hr.isDir_iff _).2 ⟨isDir_of_cons hd, fun hsuf => by simpa using hsuf.length_le⟩)
        (hval c List.mem_cons_self) (by rw [hr, if_pos (List.suffix_refl _)])
        (validNames_of_get fun hn => hq (by rw [readAt, hn]))] at hsame
      simp at hsame
    · intro hcond a k' hne
      by_cases hf : Found fs.tree d k'.toKey
      · have hq := hcond l₀ ⟨i, hs, hd, hmin⟩ k' hne hf
        rw [iGet_of_unreadable hq, iGet_of_unreadable fun q => ?_]
        rw [readAt, hr q]
        split_ifs
        · rfl
        · exact hq q
      · rw [h.iGet_eq_none k'.look host hf, h'.iGet_eq_none k'.look host]
        rintro ⟨j, l, hl, hdl⟩
        exact hf ⟨j, l, hl, ((hr.isDir_iff l).1 hdl).1⟩
  · rw [he]
    refine ⟨fun _ l hl => ?_, fun _ _ _ _ => rfl⟩
    obtain ⟨i, hs, hd, -⟩ := hl
    simp [hno i l hs] at hd

/-! ## Attributes with names -/

/-- Where the search in the partitions comes out. -/
def LookSpot (t : FileTree Xattrs) (d : Loc) (k : Key) (l : Loc) : Prop :=
  ∃ i, 1 ≤ i ∧ SpotAt d k i l ∧ t.isDir l ∧
    ∀ j l', 1 ≤ j → j < i → SpotAt d k j l' → t.isDir l' = false

/-- The place of the file that is read for an attribute of a key. -/
def ReadFrom (t : FileTree Xattrs) (d : Loc) (k : Key) (a : Attr) (q : Loc) : Prop :=
  t.fileAt q ≠ none ∧ (q = a.name :: k.val :: d ∨
    (t.fileAt (a.name :: k.val :: d) = none ∧ ∃ l, LookSpot t d k l ∧ q = a.name :: l))

/-- A key is looked for at one spot. -/
theorem LookSpot.unique {k : Key} (h : LookSpot t d k l) (h' : LookSpot t d k l') : l = l' := by
  obtain ⟨i, hi, hs, hd, hmin⟩ := h
  obtain ⟨j, hj, hs', hd', hmin'⟩ := h'
  rcases Nat.lt_trichotomy i j with hij | rfl | hij
  · simp [hmin' i l hi hij hs] at hd
  · exact hs.unique hs'
  · simp [hmin j l' hj hij hs'] at hd'

/-- What is read of an attribute is the content of its file. -/
theorem iGet_eq_some_iff (h : BaseDir fs D d) (hdirs : DirsOfKeys fs.tree d) (hM : M > 0)
    (host : Host) (k : DotFreeKey) (a : Attr) : iGet host M fs D k.val a.val storeInFile = some v ↔
      ∃ q, ReadFrom fs.tree d k.toKey a q ∧ fs.tree.fileAt q = some v := by
  have hread : ∀ {path l}, Leads D d path l →
      getDirValue host fs path a.val = fs.tree.fileAt (a.name :: l) := fun hp =>
    getDirValue_attr hp h.isAt h.links (hdirs.not_isDir_attr hp.suffix) host
  have hpath : Leads D d (joinName D k.val) (k.val :: d) := leads_key (k := k.toKey)
  simp only [iGet, h.key_path (k := k.toKey), _iGet_storeInFile, if_pos hM, hread hpath]
  cases h0 : fs.tree.fileAt (a.name :: k.val :: d) with
  | some w =>
    simp only [ReadFrom, h0]
    constructor
    · intro hw
      exact ⟨_, ⟨by rw [h0]; simp, Or.inl rfl⟩, h0.trans hw⟩
    · rintro ⟨q, ⟨-, rfl | ⟨hn, -⟩⟩, hv⟩
      · exact h0.symm.trans hv
      · simp at hn
  | none =>
    have hfrom : (∃ q, ReadFrom fs.tree d k.toKey a q ∧ fs.tree.fileAt q = some v) ↔
        ∃ l, LookSpot fs.tree d k.toKey l ∧ fs.tree.fileAt (a.name :: l) = some v := by
      constructor
      · rintro ⟨q, ⟨-, rfl | ⟨-, l, hl, rfl⟩⟩, hv⟩
        · simp [h0] at hv
        · exact ⟨l, hl, hv⟩
      · rintro ⟨l, hl, hv⟩
        exact ⟨_, ⟨by rw [hv]; simp, Or.inr ⟨h0, l, hl, rfl⟩⟩, hv⟩
    rw [hfrom]
    rcases h.iIsKeyDirExists_spec k.look with ⟨i, path, l, hi, hs, hd, hp, hmin, he⟩ | ⟨hno, he⟩
    · simp only [he, hread hp]
      have hl : LookSpot fs.tree d k.toKey l := ⟨i, hi, hs, hd, hmin⟩
      refine ⟨fun hv => ⟨l, hl, hv⟩, ?_⟩
      rintro ⟨l', hl', hv⟩
      exact hl.unique hl' ▸ hv
    · simp only [he]
      refine ⟨fun hv => by simp at hv, ?_⟩
      rintro ⟨l, ⟨i, hi, hs, hd, -⟩, -⟩
      simp [hno i l hi hs] at hd

/-- An attribute of a key is read from one file. -/
theorem ReadFrom.unique {k : Key} {a : Attr} {q' : Loc} (h : ReadFrom t d k a q)
    (h' : ReadFrom t d k a q') : q = q' := by
  obtain ⟨hq, rfl | ⟨hnone, l, hl, rfl⟩⟩ := h <;> obtain ⟨hq', rfl | ⟨hnone', l', hl', rfl⟩⟩ := h'
  · rfl
  · exact absurd hnone' hq
  · exact absurd hnone hq'
  · rw [hl.unique hl']

section

variable {i j m : ℕ} {l₁ : Loc} (hs : SpotAt d k.toKey m l) (hne : k' ≠ k)

include hs hne

/-- Where a spot of another key lies in a spot of the key, the later ones do too. -/
theorem SpotAt.suffix_of_lt (h₁ : SpotAt d k'.toKey j l₁) (hsuf : l <:+ l₁)
    (h' : SpotAt d k'.toKey i l') (hij : j < i) : l <:+ l' := by
  rcases hs with hs | hs
  · rcases h₁ with h₁ | h₁
    · obtain rfl := hs.eq_of_suffix h₁ hsuf
      exact absurd (DotFreeKey.ext_key (h₁.inj hs).1) hne
    · exact absurd hsuf (hs.not_suffix_part h₁.partAt)
  · rcases h₁ with h₁ | h₁
    · -- The partition of the earlier spot is on the way to the later one.
      obtain ⟨q, hq, hqs⟩ : ∃ q, PartAt d k'.toKey i q ∧ q <:+ l' := by
        rcases h' with h' | h'
        · obtain ⟨r, q, -, -, hq, rfl⟩ := h'.exists_part
          exact ⟨q, hq, List.suffix_cons _ _⟩
        · exact ⟨l', h'.partAt, List.suffix_refl _⟩
      obtain ⟨p, hp, hps⟩ := hq.suffix_of_le hij.le
      obtain ⟨r, p₁, -, -, hp₁, rfl⟩ := id h₁.exists_part
      obtain rfl := hp.unique hp₁
      rcases List.suffix_cons_iff.1 hsuf with rfl | hsuf
      · exact absurd hs.partAt h₁.not_partAt
      · exact hsuf.trans (hps.trans hqs)
    · rcases h' with h' | h'
      · have := h₁.lt h'
        omega
      · have := (h₁.unique h').1
        omega

/-- A key's spot is not above the plain place of another key. -/
theorem SpotAt.not_suffix_plain : ¬l <:+ k'.val :: d := by
  intro hsuf
  have hb := hs.below
  rcases List.suffix_cons_iff.1 hsuf with rfl | hsuf
  · rcases hs with hs | hs
    · exact hne (DotFreeKey.ext_key ((homeAt_zero d k'.toKey).inj hs).1)
    · exact (homeAt_zero d k'.toKey).not_partAt hs.partAt
  · exact hb.2 (hsuf.eq_of_length_le hb.1.length_le)

variable (hd : t.isDir l) (hdirs : DirsOfKeys t d) (hr : Removed t t' l)

include hr

/-- After the removal a key is looked for where it was before, unless that lay below what is gone.
-/
theorem lookSpot_removed :
    LookSpot t' d k'.toKey l' ↔ LookSpot t d k'.toKey l' ∧ ¬l <:+ l' := by
  constructor
  · rintro ⟨i, hi, hl', hd', hmin⟩
    obtain ⟨hd', hno⟩ := (hr.isDir_iff l').1 hd'
    refine ⟨⟨i, hi, hl', hd', fun j l₁ hj hij h₁ => ?_⟩, hno⟩
    by_contra hd₁
    have hsuf : l <:+ l₁ := by
      by_contra hsuf
      have := (hr.isDir_iff l₁).2 ⟨by simpa using hd₁, hsuf⟩
      simp [hmin j l₁ hj hij h₁] at this
    exact hno (hs.suffix_of_lt hne h₁ hsuf hl' hij)
  · rintro ⟨⟨i, hi, hl', hd', hmin⟩, hno⟩
    refine ⟨i, hi, hl', (hr.isDir_iff l').2 ⟨hd', hno⟩, fun j l₁ hj hij h₁ => ?_⟩
    by_contra hd₁
    have := ((hr.isDir_iff l₁).1 (by simpa using hd₁)).1
    simp [hmin j l₁ hj hij h₁] at this

include hd hdirs

/-- Deleting a key takes the files that lie in the directory removed. -/
theorem readFrom_removed (a : Attr) :
    ReadFrom t' d k'.toKey a q ↔ ReadFrom t d k'.toKey a q ∧ ¬l <:+ q := by
  have hcons : ∀ {p}, d <:+ p → (l <:+ a.name :: p ↔ l <:+ p) := fun hp => by
    refine ⟨fun h => (List.suffix_cons_iff.1 h).resolve_left ?_, fun h =>
      h.trans (List.suffix_cons _ _)⟩
    rintro rfl
    simp [hdirs.not_isDir_attr hp] at hd
  have hplain : ¬l <:+ a.name :: k'.val :: d := by
    rw [hcons (List.suffix_cons _ _)]
    exact hs.not_suffix_plain hne
  have hfile : t'.fileAt q ≠ none ↔ t.fileAt q ≠ none ∧ ¬l <:+ q := by
    rw [hr.fileAt_eq]
    split_ifs with h <;> simp [h]
  rw [ReadFrom, ReadFrom, hfile, hr.fileAt_eq, if_neg hplain]
  constructor
  · rintro ⟨⟨hq, hno⟩, hplain | ⟨hnone, l', hl', rfl⟩⟩
    · exact ⟨⟨hq, Or.inl hplain⟩, hno⟩
    · exact ⟨⟨hq, Or.inr ⟨hnone, l', ((lookSpot_removed hs hne hr).1 hl').1, rfl⟩⟩, hno⟩
  · rintro ⟨⟨hq, hplain | ⟨hnone, l', hl', rfl⟩⟩, hno⟩
    · exact ⟨⟨hq, hno⟩, Or.inl hplain⟩
    · exact ⟨⟨hq, hno⟩, Or.inr ⟨hnone, l', (lookSpot_removed hs hne hr).2
        ⟨hl', fun h => hno (h.trans (List.suffix_cons _ _))⟩, rfl⟩⟩

end

/-- Whether deleting a key changes what is read of the others. -/
theorem deleteKeeps_named_iff (h : BaseDir fs D d) (hdirs : DirsOfKeys fs.tree d) (hM : M > 0)
    (host : Host) (k : DotFreeKey) : (∀ a : Attr, DeleteKeeps host M fs D k a.val) ↔
      ∀ l, FirstSpot fs.tree d k.toKey l → ∀ k' : DotFreeKey, k' ≠ k → ∀ (a : Attr) q,
        ReadFrom fs.tree d k'.toKey a q → ¬l <:+ q := by
  have h' := h.keyDelete hM host k
  unfold DeleteKeeps
  rcases @BaseDir.iKeyDelete_spec _ _ _ k.toKey host _ h hM k.look with
    ⟨i, l₀, fs', hs, hd, hmin, he, hc, hr⟩ | ⟨hno, he⟩
  · have hdirs' : DirsOfKeys fs'.tree d := fun q hb hq => hdirs q hb ((hr.isDir_iff q).1 hq).1
    rw [he] at h' ⊢
    constructor
    · intro hkeeps l hl k' hne a q hq hsuf
      obtain ⟨v, hv⟩ := Option.ne_none_iff_exists'.1 hq.1
      have hread := (iGet_eq_some_iff h hdirs hM host k' a).2 ⟨q, hq, hv⟩
      rw [← hkeeps a k' hne] at hread
      obtain ⟨q', hq', -⟩ := (iGet_eq_some_iff h' hdirs' hM host k' a).1 hread
      obtain ⟨hq', hno⟩ := (readFrom_removed hs hne hd hdirs hr a).1 hq'
      rw [hl.unique ⟨i, hs, hd, hmin⟩] at hsuf
      exact hno (hq'.unique hq ▸ hsuf)
    · intro hcond a k' hne
      have hkeep := hcond l₀ ⟨i, hs, hd, hmin⟩ k' hne a
      refine Option.ext fun v => ?_
      rw [iGet_eq_some_iff h' hdirs' hM, iGet_eq_some_iff h hdirs hM]
      refine exists_congr fun q => ?_
      rw [readFrom_removed hs hne hd hdirs hr, hr.fileAt_eq]
      constructor
      · rintro ⟨⟨hq, hno⟩, hv⟩
        rw [if_neg hno] at hv
        exact ⟨hq, hv⟩
      · rintro ⟨hq, hv⟩
        exact ⟨⟨hq, hkeep q hq⟩, by rw [if_neg (hkeep q hq), hv]⟩
  · rw [he]
    refine ⟨fun _ l hl => ?_, fun _ _ _ _ => rfl⟩
    obtain ⟨i, hs, hd, -⟩ := hl
    simp [hno i l hs] at hd

end

/-- After a run of puts, deleting a key leaves what is read of the other keys alone, for any
attribute, exactly if the key is not found, no other key is, or nothing can be read. For
attributes with names it is enough that no file of another key lies in the directory removed. -/
theorem keyDelete_frame_iff (S : Start) (host : Host) (M : ℤ) (calls : List PutCall)
    (k : DotFreeKey) (hM : M > 0) :
    ((∀ a, DeleteKeeps host M (S.putCalls host M calls) S.dir k a) ↔
      ∀ l, FirstSpot (S.putCalls host M calls).tree S.loc k.toKey l → ∀ k' : DotFreeKey, k' ≠ k →
        Found (S.putCalls host M calls).tree S.loc k'.toKey →
          ∀ q, readAt host (S.putCalls host M calls).tree q = none) ∧
    ((∀ a : Attr, DeleteKeeps host M (S.putCalls host M calls) S.dir k a.val) ↔
      ∀ l, FirstSpot (S.putCalls host M calls).tree S.loc k.toKey l → ∀ k' : DotFreeKey, k' ≠ k →
        ∀ (a : Attr) q, ReadFrom (S.putCalls host M calls).tree S.loc k'.toKey a q → ¬l <:+ q) := by
  have h := S.keyDirs_putCalls host M calls
  exact ⟨deleteKeeps_all_iff h.toBaseDir hM host k,
    deleteKeeps_named_iff h.toBaseDir h.dirs hM host k⟩

/-- The key `a`. -/
def keyA : DotFreeKey :=
  ⟨⟨[97], by decide, by decide⟩, by decide⟩

/-- The key `c`. -/
def keyC : DotFreeKey :=
  ⟨⟨[99], by decide, by decide⟩, by decide⟩

/-- The key `cy`, which begins with `c`. -/
def keyCy : DotFreeKey :=
  ⟨⟨[99, 121], by decide, by decide⟩, by decide⟩

/-- The directory is full with `a`, so `cy` goes into the partition of `c`. -/
def partitionCalls : List PutCall :=
  [.ofValue keyA [49], .ofValue keyCy [50]]

/-- Where `cy` is read is in the directory that is removed with `c`. -/
theorem keyDelete_frame_iff_partition :
    ¬∀ a : Attr, DeleteKeeps plainHost 1 (rootStart.putCalls plainHost 1 partitionCalls) [slash]
      keyC a.val := by
  rw [show ([slash] : Bytes) = rootStart.dir from rfl,
    (keyDelete_frame_iff rootStart plainHost 1 partitionCalls keyC (by decide)).2]
  have hend : EndAt [] keyC.toKey 1 [[dot, 99]] :=
    ⟨[[dot, 99]], by decide +kernel, by simp [PlainParts, dot], rfl⟩
  have hhome : HomeAt [] keyCy.toKey 1 [[121], [dot, 99]] :=
    ⟨[[dot, 99]], [121], by decide +kernel, by simp [PlainParts, dot], by simp, by decide, rfl⟩
  have hfirst : FirstSpot (rootStart.putCalls plainHost 1 partitionCalls).tree [] keyC.toKey
      [[dot, 99]] := by
    refine ⟨1, Or.inr hend, by decide +kernel, fun j l hj hl => ?_⟩
    obtain rfl : j = 0 := by omega
    rw [hl.unique (Or.inl (homeAt_zero [] keyC.toKey))]
    decide +kernel
  have hread : ReadFrom (rootStart.putCalls plainHost 1 partitionCalls).tree [] keyCy.toKey
      .default [idbValueName, [121], [dot, 99]] :=
    ⟨by decide +kernel, Or.inr ⟨by decide +kernel, _, ⟨1, le_rfl, Or.inl hhome, by decide +kernel,
      fun j _ h₁ h₂ => by omega⟩, rfl⟩⟩
  exact fun hcond => hcond _ hfirst keyCy (by decide) _ _ hread ⟨[idbValueName, [121]], rfl⟩

/-- Deleting `c`, which was never put, deletes `cy`. -/
theorem keyDelete_takes_partition :
    keyCy ≠ keyC ∧
      iGet plainHost 1 (rootStart.putCalls plainHost 1 partitionCalls) [slash] keyCy.val none
        storeInFile = some [50] ∧
      iGet plainHost 1 (iKeyDelete plainHost 1 (rootStart.putCalls plainHost 1 partitionCalls)
        [slash] keyC.val).1 [slash] keyCy.val none storeInFile = none := by
  decide +kernel

end Idb
