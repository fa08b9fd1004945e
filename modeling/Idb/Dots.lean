import Idb.KeyList

/-!
# Keys with dots

A key that is not hidden may have dots further on. The searches cut it character by
character, so behind some characters the rest can begin with a dot : then the rest names
a partition directory of other keys, or the next part is `..`. As long as no put comes
to such a rest, the directories are those of keys in places of their own
(`KeyDirs.putKeys`), and a put does not change what is read of a key whose lookup comes to no such
rest either (`put_keeps_other_keys`). That is said of attributes without slashes : one with slashes
is a path out of the directory of its key. And where a key ends in a partition directory, the
directories in there would be read for its attributes.
-/

namespace Idb

open Posix FileSystem FileTree

/-- What a put with `dkIgnored` is given, for any visible key. -/
structure KeyPut where
  key : Key
  attr : Option Bytes
  value : Bytes

/-- A put with the policy `dkIgnored`. -/
def putKey (host : Host) (iDBMaxPageCount : ℤ) (aDir : Bytes) (fs : FileSystem) (p : KeyPut) :
    FileSystem :=
  (iPut host iDBMaxPageCount fs aDir .dkIgnored (some p.key.val) p.value p.attr storeInFile).1

/-- The puts come to no rest that begins with a dot. -/
def AvoidsDots (host : Host) (M : ℤ) (D : Bytes) (d : Loc) : FileSystem → List KeyPut → Prop
  | _, [] => True
  | fs, p :: ps =>
    DotFreeFind fs.tree (sizeT M) d p.key ∧ AvoidsDots host M D d (putKey host M D fs p) ps

theorem KeyDirs.putKeys {host : Host} {M : ℤ} {D : Bytes} {d : Loc} {fs : FileSystem}
    {ps : List KeyPut} (h : KeyDirs M fs D d) (hps : AvoidsDots host M D d fs ps) :
    KeyDirs M (ps.foldl (putKey host M D) fs) D d := by
  induction ps generalizing fs with
  | nil => exact h
  | cons p ps ih =>
    exact ih (h.iPutWith host .none .dkIgnored p.value p.attr storeInFile hps.1) hps.2

/-! ## Attributes without slashes -/

/-- The attribute is one name. -/
def NoSlash (a : Option Bytes) : Prop :=
  ∀ n ∈ a, slash ∉ n ∧ 0 ∉ n

/-- The attribute is NULL or has the name of an attribute file. -/
def Named (a : Option Bytes) : Prop :=
  ∀ n ∈ a, AttrName n

section

variable {host : Host} {M : ℤ} {fs fs' : FileSystem} {t t' : FileTree Xattrs} {D path : Bytes}
  {d l q : Loc} {k k' : Key} {i m : ℕ} {a : Option Bytes} {v : Bytes} {n : Name}
  {policy : TIDBProcesses}

theorem NoSlash.component (h : NoSlash a) : Component (attrEntry a) := by
  unfold attrEntry
  split
  · exact ⟨by simp, h _ rfl⟩
  · exact ⟨by decide, by decide, by decide⟩

theorem Named.attr (h : Named a) : ∃ x : Attr, x.val = a ∧ x.name = attrEntry a :=
  ⟨⟨a, h⟩, rfl, (Attr.mk a h).name_eq⟩

/-- Where no entry is a link, entering one keeps so. -/
theorem noLink_enter (hd : t.isDir l) (hl : ∀ c, t.NoLink (c :: l)) (n : Name) :
    t.NoLink (enter l n) := by
  rcases enter_cases l n with he | he | ⟨hp, he⟩
  · rw [he]
    exact noLink_of_isDir hd
  · rw [he]
    exact noLink_of_isDir (isDir_tail hd)
  · rw [he]
    exact hl n

theorem getDirValue_entry (host : Host) (hat : fs.At path l) (hl : ∀ c, fs.tree.NoLink (c :: l))
    (ha : NoSlash a) :
    getDirValue host fs path a = readAt host fs.tree (enter l (attrEntry a)) := by
  rw [getDirValue_eq_readAt, makeAttrFileName_entry hat.ne_nil,
    hat.resolve_entry ha.component.2.1 (noLink_enter hat.isDir hl _)]

theorem readAt_dir (host : Host) (hd : t.isDir l) : readAt host t l = host.dirBytes := by
  obtain ⟨x, hx⟩ := isDir_iff.1 hd
  rw [readAt, hx]

/-! ## What a put changes -/

/-- The nodes changed are directories that are made on the way to `l`, and `n` in `l`. -/
def ChangedAt (t t' : FileTree Xattrs) (d l : Loc) (n : Name) : Prop :=
  ∀ q, t'.get q = t.get q ∨ (Below d q ∧ q <:+ l ∧ t'.isDir q) ∨ q = n :: l

/-- The file of an attribute is written in the directory of the path. -/
theorem write_entry {names : List Name} (hat : fs.At D d) (hl : ∀ l, Below d l → fs.tree.NoLink l)
    (hn : ∀ n ∈ names, ValidName n) (hb : Below d (names.reverse ++ d)) (ha : NoSlash a)
    (hw : fs.write (makeAttrFileName (names.foldl joinName D) a) v = .ok fs') :
    FileSet fs fs' (attrEntry a :: (names.reverse ++ d)) v := by
  obtain ⟨q, hq, hset⟩ := write_ok hw
  have hne := @foldl_joinName_ne_nil _ names hat.ne_nil
  obtain ⟨rest, hrest⟩ := makeAttrFileName_slash (a := a) hne (getLast?_names hb hn)
  obtain ⟨p, hp⟩ := at_of_resolve (hrest ▸ hq) hne
  have hleads : Leads D d (names.foldl joinName D) (names.reverse ++ d) := leads_names hn
  have hd := (hleads.directoryExists_iff hl hat).1 (directoryExists_at hp)
  have hl' : ∀ c, fs.tree.NoLink (c :: (names.reverse ++ d)) := fun c =>
    hl _ (below_cons hleads.suffix c)
  rw [makeAttrFileName_entry hne, (hleads.isAt hat hd).resolve_entry ha.component.2.1
    (noLink_enter hd hl' _), Except.ok.injEq] at hq
  rw [← hq] at hset
  have hplain : Plain (attrEntry a) := by
    by_contra hno
    have := isDir_enter hd hno
    simp [hset.isFile] at this
  rwa [enter_plain hplain] at hset

/-- A put changes nothing, or only the attribute's file of the key's home and the directories above
it. -/
theorem iPut_changes (hat : fs.At D d) (hlinks : ∀ l, Below d l → fs.tree.NoLink l) (hM : M > 0)
    (host : Host) (hpol : policy = .dkIgnored ∨ policy = .dkStopped) (ha : NoSlash a) (v : Bytes)
    (hk : DotFreeFind fs.tree (sizeT M) d k) :
    (iPut host M fs D policy (some k.val) v a storeInFile).1 = fs ∨
    ∃ i l, PutPlace fs.tree (sizeT M) d k policy i l ∧
      PutInto fs (iPut host M fs D policy (some k.val) v a storeInFile).1 d l ∧
      ChangedAt fs.tree (iPut host M fs D policy (some k.val) v a storeInFile).1.tree d l
        (attrEntry a) := by
  rw [← iPutWith_none]
  rcases putDir_cases hat hlinks host policy hk with
    ⟨e, he⟩ | ⟨i, names, hl, hp, -, hn, he⟩ | ⟨hign, hstop, -⟩
  · rw [iPutWith, he]
    exact Or.inl rfl
  · refine Or.inr ⟨i, _, hp hM, iPutWith_into hat hlinks hn he, ?_⟩
    rcases iPutWith_ok he v a storeInFile with ⟨-, he⟩ | ⟨-, he⟩
    · rw [he]
      exact fun q => Or.inl rfl
    · have hmade := (withDir_names hat hlinks hn).1
      have hstep : ∀ q, (withDir fs (names.foldl joinName D)).tree.get q = fs.tree.get q ∨
          (Below d q ∧ q <:+ names.reverse ++ d ∧
            (withDir fs (names.foldl joinName D)).tree.isDir q) := fun q =>
        (hmade.get_cases q).imp_right fun hc => ⟨hc.1.1, hc.1.2, isDir_of_get hc.2.2⟩
      rw [he]
      change ChangedAt fs.tree (_iPut (withDir fs (names.foldl joinName D)) (names.foldl joinName D)
        v a storeInFile).1.tree d _ _
      rw [_iPut_storeInFile, setDirValue]
      cases hw : (withDir fs (names.foldl joinName D)).write
          (makeAttrFileName (names.foldl joinName D) a) v with
      | error e => exact fun q => (hstep q).imp_right Or.inl
      | ok fs' =>
        have hset := write_entry (hat.keeps hmade.keeps hmade.cwd_eq)
          (fun q hb => hmade.noLink (hlinks q hb)) hn hl.below ha hw
        intro q
        by_cases hq : q = attrEntry a :: (names.reverse ++ d)
        · exact Or.inr (Or.inr hq)
        · have hsame := hset.updated q
          rw [if_neg hq] at hsame
          rcases hstep q with hc | ⟨hb, hs, hd⟩
          · exact Or.inl (hsame.trans hc)
          · refine Or.inr (Or.inl ⟨hb, hs, ?_⟩)
            rw [FileTree.isDir] at hd ⊢
            exact hsame.symm ▸ hd
  · rcases hpol with hpol | hpol
    · exact absurd hpol hign
    · exact absurd hpol hstop

end

/-! ## Looking beside a put -/

/-- The lookup of `k'` does not come to a rest that begins with a dot, in a partition
directory that exists or that a put of `k` makes. -/
def DotFreeBeside (t : FileTree Xattrs) (m : ℕ) (d : Loc) (k k' : Key) : Prop :=
  ∀ i ns r, 1 ≤ i → LookVisits t d k'.val i → levelAt k'.val i = some (ns, r) →
    (t.isDir (place d ns) ∨ (FindVisits t m d k.val i ∧ ∃ r', levelAt k.val i = some (ns, r'))) →
    r.head? ≠ some dot

/-- There is no partition directory behind the last character of `k'`, and a put of `k` does not go
through one. -/
def NoEndBeside (t : FileTree Xattrs) (m : ℕ) (d : Loc) (k k' : Key) : Prop :=
  ∀ i p, EndAt d k' i p → t.isDir p = false ∧ ¬∃ j, FindVisits t m d k.val j ∧ PartAt d k j p

section

variable {t t' : FileTree Xattrs} {d l l' : Loc} {k k' : Key} {i m : ℕ} {policy : TIDBProcesses}

theorem DotFreeBeside.look (h : DotFreeBeside t m d k k') :
    DotFreeLook t d k' :=
  fun i ns r hi hv hl hd => h i ns r hi hv hl (Or.inl hd)

/-- A put adds at most one partition directory to the way of a lookup, the last one. -/
theorem Grew.look_visits (hg : Grew t t' d l) (hp : PutPlace t m d k policy i l)
    (hb : DotFreeBeside t m d k k') {j : ℕ} {ns : List Name} {r : Bytes} (hj : 1 ≤ j)
    (hv : LookVisits t' d k'.val j) (hl : levelAt k'.val j = some (ns, r))
    (hd : t'.isDir (place d ns)) : LookVisits t d k'.val j ∧ r.head? ≠ some dot := by
  induction j using Nat.strong_induction_on generalizing ns r with
  | _ j ih =>
  -- No rest before begins with a dot, so the names so far are looked up.
  have hrest : ∀ j' ns' r', j' < j → levelAt k'.val j' = some (ns', r') →
      r'.head? ≠ some dot := by
    intro j' ns' r' hlt hl'
    rcases Nat.eq_zero_or_pos j' with rfl | hpos
    · rw [levelAt_zero_iff] at hl'
      rw [← hl'.2]
      exact k'.visible
    · exact (ih j' hlt hpos (fun n h₁ h₂ => hv n h₁ (by omega)) hl'
        ((blind_iff hl').1 (hv j' hpos hlt)).1).2
  have hplain := plainParts_of_rests hl hrest
  have hpart : PartAt d k' j (place d ns) := ⟨ns, r, hl, hplain, Key.place_eq hl hplain⟩
  -- A partition directory of the other key that is on the way of the put.
  have hway : ∀ {n q}, PartAt d k' n q → Below d q → q <:+ l →
      ∃ i', i' + 1 ≤ i ∧ PartAt d k (i' + 1) q := by
    intro n q hq hbelow hsuf
    rcases hp.home.of_suffix hbelow.1 hsuf with rfl | ⟨i', hi', hp'⟩
    · exact absurd hq hp.home.not_partAt
    · obtain ⟨i', rfl⟩ := hp'.exists_succ hbelow
      exact ⟨i', hi', hp'⟩
  have hvisits : LookVisits t d k'.val j := by
    intro n hn hnj
    obtain ⟨ns', r', hl'⟩ := levelAt_of_le hnj.le hl
    obtain ⟨-, hno⟩ := (blind_iff hl').1 (hv n hn hnj)
    refine (blind_iff hl').2 ⟨?_, ?_⟩
    · -- The next partition directory is there : an old one, or one on the way of the put,
      -- which went past the level of this one.
      obtain ⟨q, hq, hsuf⟩ := hpart.suffix_of_le (Nat.succ_le_of_lt hnj)
      obtain ⟨c, q', -, -, hq', rfl⟩ := hq.succ
      have hplain' := plainParts_of_rests hl' fun j' ns₁ r₁ hlt => hrest j' ns₁ r₁ (by omega)
      rw [PartAt.unique ⟨ns', r', hl', hplain', Key.place_eq hl' hplain'⟩ hq']
      rcases hg.way _ (isDir_of_suffix hsuf hd) with hd' | ⟨hbelow, hsuf'⟩
      · exact isDir_of_cons hd'
      · obtain ⟨i', hi', hp'⟩ := hway hq hbelow hsuf'
        obtain ⟨c', q₁, -, -, hq₁, he⟩ := hp'.succ
        rw [List.cons.injEq] at he
        rw [he.2]
        exact isDir_of_blind hq₁ (hp.full i' (by omega)).blind
    · by_contra hd'
      rw [hg.mono _ (by simpa using hd')] at hno
      simp at hno
  refine ⟨hvisits, hb j ns r hj hvisits hl ?_⟩
  refine (hg.way _ hd).imp_right fun hway' => ?_
  obtain ⟨i', hi', ns', r', hl', hplain', he⟩ := hway hpart hway'.1 hway'.2
  rw [Key.place_eq hl hplain, List.append_cancel_right_eq, List.reverse_inj] at he
  subst he
  have hj' : j = i' + 1 := (levelAt_length hl).symm.trans (levelAt_length hl')
  rw [hj']
  exact ⟨fun n hn => hp.full n (by omega), r', hl'⟩

/-- The lookups of a key that come to no dot before a put come to none after it. -/
theorem Grew.dotFreeLook (hg : Grew t t' d l) (hp : PutPlace t m d k policy i l)
    (hb : DotFreeBeside t m d k k') : DotFreeLook t' d k' :=
  fun _ _ _ hj hv hl hd => (hg.look_visits hp hb hj hv hl hd).2

/-! ## Where a lookup comes out -/

/-- The spots of another key that a put makes are partition directories. -/
theorem Grew.new_spot (hg : Grew t t' d l) (hl : HomeAt d k i l) (hne : k' ≠ k) {j : ℕ}
    (hs : SpotAt d k' j l') (hd : t'.isDir l') : t.isDir l' ∨ EndAt d k' j l' := by
  rcases hs with hs | hs
  · rcases hg.isDir_home hl hs hd with hold | rfl
    · exact Or.inl hold
    · exact absurd (hs.inj hl).1 hne
  · exact Or.inr hs

/-- A lookup comes out where it did before a put of another key, or, if it found nothing, in a
partition directory behind the last character. -/
theorem Grew.lookSpot_iff (hg : Grew t t' d l) (hl : HomeAt d k i l) (hne : k' ≠ k) :
    LookSpot t' d k' l' ↔ LookSpot t d k' l' ∨
      ((∀ j l₁, 1 ≤ j → SpotAt d k' j l₁ → t.isDir l₁ = false) ∧
        t'.isDir l' ∧ ∃ j, EndAt d k' j l') := by
  constructor
  · rintro ⟨j, hj, hs, hd, hmin⟩
    have hold : ∀ n l₁, 1 ≤ n → n < j → SpotAt d k' n l₁ → t.isDir l₁ = false := by
      intro n l₁ hn hlt h₁
      by_contra hd₁
      have := hmin n l₁ hn hlt h₁
      rw [hg.mono l₁ (by simpa using hd₁)] at this
      simp at this
    by_cases hd₀ : t.isDir l'
    · exact Or.inl ⟨j, hj, hs, hd₀, hold⟩
    · have hend := (hg.new_spot hl hne hs hd).resolve_left hd₀
      refine Or.inr ⟨fun n l₁ hn h₁ => ?_, hd, j, hend⟩
      rcases Nat.lt_or_ge n j with hlt | hge
      · exact hold n l₁ hn hlt h₁
      · rcases h₁ with h₁ | h₁
        · exact absurd (hend.lt h₁) (by omega)
        · rw [(h₁.unique hend).2]
          simpa using hd₀
  · rintro (⟨j, hj, hs, hd, hmin⟩ | ⟨hno, hd, j, hend⟩)
    · refine ⟨j, hj, hs, hg.mono l' hd, fun n l₁ hn hlt h₁ => ?_⟩
      by_contra hd₁
      rcases hg.new_spot hl hne h₁ (by simpa using hd₁) with hold | hend
      · simp [hmin n l₁ hn hlt h₁] at hold
      · rcases hs with hs | hs
        · exact absurd (hend.lt hs) (by omega)
        · exact absurd (hend.unique hs).1 (by omega)
    · refine ⟨j, hend.pos, Or.inr hend, hd, fun n l₁ hn hlt h₁ => ?_⟩
      by_contra hd₁
      rcases hg.new_spot hl hne h₁ (by simpa using hd₁) with hold | hend'
      · simp [hno n l₁ hn h₁] at hold
      · exact absurd (hend'.unique hend).1 (by omega)

/-- If no partition directory lies behind the last character, the lookup comes out at a place of
the key. -/
theorem NoEndBeside.home (h : NoEndBeside t m d k k') (hg : Grew t t' d l)
    (hp : PutPlace t m d k policy i l) {j : ℕ} (hs : SpotAt d k' j l') (hd : t'.isDir l') :
    HomeAt d k' j l' := by
  refine hs.resolve_right fun hend => ?_
  obtain ⟨hno, hvisit⟩ := h j l' hend
  rcases hg.way l' hd with hold | ⟨hb, hsuf⟩
  · simp [hno] at hold
  · rcases hp.home.of_suffix hb.1 hsuf with rfl | ⟨n, hn, hq⟩
    · exact hp.home.not_partAt hend.partAt
    · exact hvisit ⟨n, fun n' hn' => hp.full n' (by omega), hq⟩

end

/-! ## What is read -/

section

variable {host : Host} {M : ℤ} {fs fs' : FileSystem} {t t' : FileTree Xattrs} {D : Bytes}
  {d l l' : Loc} {k k' : Key} {i m : ℕ} {a : Option Bytes} {v : Bytes} {n n' : Name}
  {policy : TIDBProcesses}

/-- What is read under the plain path of a key. -/
def plainRead (host : Host) (t : FileTree Xattrs) (d : Loc) (k : Key) (n : Name) : Option Bytes :=
  if t.isDir (k.val :: d) then readAt host t (enter (k.val :: d) n) else none

/-- What is read of an attribute of a key, at its plain path or where the lookup comes out. -/
theorem BaseDir.iGet_entry (h : BaseDir fs D d) (hM : M > 0) (host : Host)
    (hk : DotFreeLook fs.tree d k) (ha : NoSlash a) :
    iGet host M fs D k.val a storeInFile = some v ↔
      plainRead host fs.tree d k (attrEntry a) = some v ∨
        (plainRead host fs.tree d k (attrEntry a) = none ∧
          ∃ l, LookSpot fs.tree d k l ∧ readAt host fs.tree (enter l (attrEntry a)) = some v) := by
  have hpath : Leads D d (joinName D k.val) (k.val :: d) := leads_key
  have hread : ∀ {path l}, Leads D d path l → fs.tree.isDir l →
      getDirValue host fs path a = readAt host fs.tree (enter l (attrEntry a)) := fun hp hd =>
    getDirValue_entry host (hp.isAt h.isAt hd) (fun c => h.links _ (below_cons hp.suffix c)) ha
  have hplain : getDirValue host fs (joinName D k.val) a =
      plainRead host fs.tree d k (attrEntry a) := by
    unfold plainRead
    split_ifs with hd
    · exact hread hpath hd
    · exact h.getDirValue_eq_none host (by simpa using hd) a
  simp only [iGet, h.key_path, _iGet_storeInFile, hplain, if_pos hM]
  cases plainRead host fs.tree d k (attrEntry a) with
  | some w => simp
  | none =>
    simp only [reduceCtorEq, true_and, false_or]
    rcases h.iIsKeyDirExists_spec hk with ⟨i, path, l, hi, hs, hd, hp, hmin, he⟩ | ⟨hno, he⟩
    · simp only [he, hread hp hd]
      have hl : LookSpot fs.tree d k l := ⟨i, hi, hs, hd, hmin⟩
      refine ⟨fun hv => ⟨l, hl, hv⟩, ?_⟩
      rintro ⟨l', hl', hv⟩
      exact hl.unique hl' ▸ hv
    · simp only [he]
      refine ⟨fun hv => by simp at hv, ?_⟩
      rintro ⟨l, ⟨i, hi, hs, hd, -⟩, -⟩
      simp [hno i l hi hs] at hd

/-- A put of another key changes nothing in the places of a key. -/
theorem ChangedAt.readAt_home (hc : ChangedAt t t' d l n) (hg : Grew t t' d l)
    (hl : HomeAt d k i l) (hne : k' ≠ k) {j : ℕ} (hl' : HomeAt d k' j l') (hd : t.isDir l')
    (host : Host) (n' : Name) : readAt host t' (enter l' n') = readAt host t (enter l' n') := by
  have hdir : ∀ q, t.isDir q → readAt host t' q = readAt host t q := fun q hq => by
    rw [readAt_dir host hq, readAt_dir host (hg.mono q hq)]
  rcases enter_cases l' n' with he | he | ⟨-, he⟩
  · rw [he]
    exact hdir _ hd
  · rw [he]
    exact hdir _ (isDir_tail hd)
  · have hdiff : ¬l' <:+ l := fun hsuf => by
      obtain rfl := hl'.eq_of_suffix hl hsuf
      exact hne (hl'.inj hl).1
    rw [he]
    rcases hc (n' :: l') with hsame | ⟨-, hsuf, -⟩ | heq
    · exact readAt_eq hsame
    · exact absurd ((List.suffix_cons n' l').trans hsuf) hdiff
    · rw [List.cons.injEq] at heq
      exact absurd (heq.2 ▸ List.suffix_refl _) hdiff

/-- A change at the home of one key leaves what is read of another. -/
theorem ChangedAt.plainRead_eq (hc : ChangedAt t t' d l n) (hg : Grew t t' d l)
    (hl : HomeAt d k i l) (hne : k' ≠ k) (host : Host) (n' : Name) :
    plainRead host t' d k' n' = plainRead host t d k' n' := by
  have hhome := homeAt_zero d k'
  unfold plainRead
  by_cases hd : t.isDir (k'.val :: d)
  · rw [if_pos hd, if_pos (hg.mono _ hd), hc.readAt_home hg hl hne hhome hd]
  · have hd' : ¬t'.isDir (k'.val :: d) := fun hd' => by
      rcases hg.isDir_home hl hhome hd' with hold | rfl
      · exact hd hold
      · exact hne (hhome.inj hl).1
    rw [if_neg hd, if_neg hd']

/-- A put leaves the files in a partition directory alone. -/
theorem ChangedAt.readAt_part (hc : ChangedAt t t' d l n) (hl : HomeAt d k i l) {j : ℕ}
    (hp : PartAt d k' j l') (hdirs' : DirsOfKeys t' d) (x : Attr) (host : Host) :
    readAt host t' (x.name :: l') = readAt host t (x.name :: l') := by
  rcases hc (x.name :: l') with hsame | ⟨-, -, hd⟩ | he
  · exact readAt_eq hsame
  · simp [hdirs'.not_isDir_attr hp.suffix] at hd
  · rw [List.cons.injEq] at he
    exact absurd (he.2 ▸ hp) hl.not_partAt

/-- A put does not change what is read of another key. -/
theorem KeyDirs.iGet_beside (h : KeyDirs M fs D d) (h' : KeyDirs M fs' D d) (hM : M > 0)
    (host : Host) (hp : PutPlace fs.tree (sizeT M) d k policy i l) (hs : PutInto fs fs' d l)
    (hc : ChangedAt fs.tree fs'.tree d l n) (hne : k' ≠ k)
    (hb : DotFreeBeside fs.tree (sizeT M) d k k') (ha : NoSlash a)
    (hend : Named a ∨ NoEndBeside fs.tree (sizeT M) d k k') :
    iGet host M fs' D k'.val a storeInFile = iGet host M fs D k'.val a storeInFile := by
  have hspot : ∀ {j l'}, SpotAt d k' j l' → fs.tree.isDir l' →
      readAt host fs'.tree (enter l' (attrEntry a)) =
        readAt host fs.tree (enter l' (attrEntry a)) := by
    intro j l' hl' hd
    rcases hl' with hl' | hl'
    · exact hc.readAt_home hs.grew hp.home hne hl' hd host _
    · rcases hend with hnamed | hno
      · obtain ⟨x, -, hx⟩ := hnamed.attr
        rw [← hx, enter_plain x.validName.1]
        exact hc.readAt_part hp.home hl'.partAt h'.dirs x host
      · exact hc.readAt_home hs.grew hp.home hne
          (hno.home hs.grew hp (Or.inr hl') (hs.grew.mono l' hd)) hd host _
  have hlook : ∀ v, (∃ l', LookSpot fs'.tree d k' l' ∧
      readAt host fs'.tree (enter l' (attrEntry a)) = some v) ↔
        ∃ l', LookSpot fs.tree d k' l' ∧
          readAt host fs.tree (enter l' (attrEntry a)) = some v := by
    intro v
    constructor
    · rintro ⟨l', hl', hv⟩
      rcases (hs.grew.lookSpot_iff hp.home hne).1 hl' with hold | ⟨hno, hd', j, hend'⟩
      · obtain ⟨j, -, hsp, hd, -⟩ := id hold
        exact ⟨l', hold, (hspot hsp hd).symm.trans hv⟩
      · -- A partition directory that is new holds no file.
        rcases hend with hnamed | hnoend
        · obtain ⟨x, -, hx⟩ := hnamed.attr
          rw [← hx, enter_plain x.validName.1,
            hc.readAt_part hp.home hend'.partAt h'.dirs x host] at hv
          have hd : fs.tree.isDir l' := by
            by_contra hd
            rw [readAt, get_cons_eq_none (by simpa using hd)] at hv
            simp at hv
          simp [hno j l' hend'.pos (Or.inr hend')] at hd
        · exact absurd (hend'.lt (hnoend.home hs.grew hp (Or.inr hend') hd')) (lt_irrefl j)
    · rintro ⟨l', hl', hv⟩
      obtain ⟨j, -, hsp, hd, -⟩ := id hl'
      exact ⟨l', (hs.grew.lookSpot_iff hp.home hne).2 (Or.inl hl'), (hspot hsp hd).trans hv⟩
  refine Option.ext fun v => ?_
  rw [h'.toBaseDir.iGet_entry hM host (hs.grew.dotFreeLook hp hb) ha,
    h.toBaseDir.iGet_entry hM host hb.look ha, hc.plainRead_eq hs.grew hp.home hne, hlook]

end

/-- In a run of puts that come to no rest with a dot, a further such put does not change
what is read of another key whose lookup comes to no such rest. -/
theorem put_keeps_other_keys (S : Start) (host : Host) (M : ℤ) (hM : M > 0) (ps : List KeyPut)
    (hps : AvoidsDots host M S.dir S.loc S.fs ps) (p : KeyPut)
    (hp : DotFreeFind (ps.foldl (putKey host M S.dir) S.fs).tree (sizeT M) S.loc p.key)
    (k' : Key) (hne : k' ≠ p.key)
    (hb : DotFreeBeside (ps.foldl (putKey host M S.dir) S.fs).tree (sizeT M) S.loc p.key k')
    (a : Option Bytes) (hput : NoSlash p.attr) (ha : NoSlash a)
    (hend : Named a ∨
      NoEndBeside (ps.foldl (putKey host M S.dir) S.fs).tree (sizeT M) S.loc p.key k') :
    iGet host M (putKey host M S.dir (ps.foldl (putKey host M S.dir) S.fs) p) S.dir k'.val a
        storeInFile =
      iGet host M (ps.foldl (putKey host M S.dir) S.fs) S.dir k'.val a storeInFile := by
  have h := S.keyDirs_start.putKeys hps
  have h' := h.iPutWith host .none .dkIgnored p.value p.attr storeInFile hp
  rw [putKey]
  rcases iPut_changes h.isAt h.links hM host (Or.inl rfl) hput p.value hp with
    he | ⟨i, l, hpl, hs, hc⟩
  · rw [he]
  · exact h.iGet_beside h' hM host hpl hs hc hne hb ha hend

/-- The attribute `t` of `x.y` is put. -/
def dottedPut : KeyPut :=
  ⟨⟨[120, dot, 121], by decide, by decide⟩, some [116], [49]⟩

/-- The attribute `t` of `x.y` put in the empty directory, beside `ab`. -/
theorem put_keeps_other_keys_dotted :
    AvoidsDots plainHost 1 [slash] [] rootStart.fs [] ∧
      DotFreeFind rootStart.fs.tree (sizeT 1) [] dottedPut.key ∧
      keyAb.toKey ≠ dottedPut.key ∧
      DotFreeBeside rootStart.fs.tree (sizeT 1) [] dottedPut.key keyAb.toKey ∧
      NoSlash dottedPut.attr ∧ NoSlash none ∧ Named none ∧
      iGet plainHost 1 (putKey plainHost 1 [slash] rootStart.fs dottedPut) [slash] keyAb.val none
          storeInFile =
        iGet plainHost 1 rootStart.fs [slash] keyAb.val none storeInFile := by
  have hempty : visibleCount rootStart.fs.tree [] = 0 := by decide +kernel
  have hfind : DotFreeFind rootStart.fs.tree (sizeT 1) [] dottedPut.key := by
    intro i ns r hi hv
    have hcount := le_visibleCount_of_full (partAt_zero [] dottedPut.key) (hv 0 (by omega))
    rw [hempty] at hcount
    simp [sizeT] at hcount
  have hbeside : DotFreeBeside rootStart.fs.tree (sizeT 1) [] dottedPut.key keyAb.toKey :=
    fun _ _ _ _ _ hl _ => (DotFreeKey.level hl).2
  have hne : keyAb.toKey ≠ dottedPut.key := by decide
  have hput : NoSlash dottedPut.attr := by
    rintro n ⟨⟩
    decide
  have hnone : NoSlash none := by simp [NoSlash]
  have hnamed : Named none := by simp [Named]
  exact ⟨trivial, hfind, hne, hbeside, hput, hnone, hnamed, put_keeps_other_keys rootStart plainHost
    1 (by decide) [] trivial dottedPut hfind keyAb.toKey hne hbeside none hput hnone
    (Or.inl hnamed)⟩

/-- `x` is put. -/
def keyPutX : KeyPut :=
  ⟨keyX.toKey, none, [49]⟩

/-- `a.b` is put. -/
def keyPutADotB : KeyPut :=
  ⟨⟨[97, dot, 98], by decide, by decide⟩, none, [50]⟩

/-- Beside `x` the key `a.b` goes into the partition directory `.b` of `.a`, where `ab`
is looked up. -/
theorem put_dotted_is_read_as_other :
    keyAb.toKey ≠ keyPutADotB.key ∧
      iGet plainHost 1 (putKey plainHost 1 [slash] rootStart.fs keyPutX) [slash] keyAb.val none
        storeInFile = none ∧
      iGet plainHost 1 (putKey plainHost 1 [slash] (putKey plainHost 1 [slash] rootStart.fs keyPutX)
        keyPutADotB) [slash] keyAb.val none storeInFile = some [50] := by
  decide +kernel

end Idb
