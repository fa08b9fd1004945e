import Idb.Partition

/-!
# The partition walks by levels

From a directory `d` and in a tree without links where they look, both walks are
searches for a least level : `iFindKeyDirToPut` for the first one that is not `Full`,
`iIsKeyDirExists` for the first one after the start that is not `Blind`.
-/

namespace Idb

open Posix FileSystem FileTree

/-- The path of a level's directory, as the walks build it : with a slash at its end
until a partition directory is joined to it. -/
def levelDir (D : Bytes) (ns : List Name) : Bytes :=
  ns.foldl joinName (withSlash D)

/-- The path of the key directory at a level. -/
def keyDir (D : Bytes) (ns : List Name) (r : Bytes) : Bytes :=
  (ns ++ [r]).foldl joinName D

section

variable {D : Bytes} {ns : List Name} {r c : Bytes}

theorem foldl_joinName_withSlash (ns : List Name) (n : Name) :
    (n :: ns).foldl joinName (withSlash D) = (n :: ns).foldl joinName D := by
  rw [List.foldl_cons, joinName_withSlash, List.foldl_cons]

/-- A level's key directory is the level's directory with the rest of the key. -/
theorem keyDir_eq (D : Bytes) (ns : List Name) (r : Bytes) :
    keyDir D ns r = joinName (levelDir D ns) r := by
  unfold keyDir levelDir
  cases ns with
  | nil => rw [List.nil_append, ← foldl_joinName_withSlash, List.foldl_cons, List.foldl_nil,
      List.foldl_nil]
  | cons n ns => rw [foldl_joinName_withSlash, List.foldl_append, List.foldl_cons (l := []),
      List.foldl_nil]

theorem levelDir_append (D : Bytes) (ns : List Name) (n : Name) :
    levelDir D (ns ++ [n]) = joinName (levelDir D ns) n := by
  rw [levelDir, List.foldl_append]
  rfl

theorem keyDir_nil (D k : Bytes) : keyDir D [] k = joinName D k :=
  rfl

/-- A level's path is not empty. -/
theorem levelDir_ne_nil (hD : D ≠ []) : levelDir D ns ≠ [] := by
  unfold levelDir
  induction ns using List.reverseRecOn with
  | nil => exact joinName_ne_nil hD
  | append_singleton ns n ih =>
    rw [List.foldl_append]
    exact joinName_ne_nil ih

theorem joinPart_levelDir (hD : D ≠ []) (c : Bytes) :
    joinPart (levelDir D ns) c = levelDir D (ns ++ [partName c]) := by
  rw [joinPart, sdsJoinPathLen_eq (levelDir_ne_nil hD), joinName_eq_withSlash, levelDir, levelDir,
    List.foldl_append, List.foldl_cons, List.foldl_nil, joinName_eq_withSlash, List.append_assoc]
  rfl

theorem sdsJoinPathLen_levelDir (hD : D ≠ []) (r : Bytes) :
    sdsJoinPathLen (levelDir D ns) r = keyDir D ns r := by
  rw [sdsJoinPathLen_eq (levelDir_ne_nil hD), keyDir_eq]

theorem place_append (d : Loc) (ns : List Name) (n : Name) :
    place d (ns ++ [n]) = enter (place d ns) n := by
  rw [place, List.foldl_append]
  rfl

theorem place_nil (d : Loc) : place d [] = d :=
  rfl

end

/-! ## Searching levels -/

section

variable (t : FileTree Xattrs) (m : ℕ) (d : Loc) (k : Bytes)

/-- At this level the search for a place to put the key goes on : the partition has `m`
keys, and the key is not among them. -/
def Full (i : ℕ) : Prop :=
  ∃ ns r, levelAt k i = some (ns, r) ∧ r ≠ [] ∧ t.isDir (place d ns) ∧
    m ≤ visibleCount t (place d ns) ∧ t.isDir (enter (place d ns) r) = false

/-- At this level the search for the key goes on : the partition is there, the key is
not. -/
def Blind (i : ℕ) : Prop :=
  ∃ ns r, levelAt k i = some (ns, r) ∧ t.isDir (place d ns) ∧
    t.isDir (enter (place d ns) r) = false

/-- The search for a place to put the key comes to level `i`. -/
def FindVisits (i : ℕ) : Prop :=
  ∀ j < i, Full t m d k j

/-- The search for the key comes to level `i`. -/
def LookVisits (i : ℕ) : Prop :=
  ∀ j, 1 ≤ j → j < i → Blind t d k j

/-- The least level that is not full. -/
structure FindsAt (i : ℕ) : Prop where
  full : FindVisits t m d k i
  stops : ¬Full t m d k i

/-- The least level after the start that is not blind. -/
structure LooksAt (i : ℕ) : Prop where
  pos : 1 ≤ i
  blind : LookVisits t d k i
  stops : ¬Blind t d k i

/-- Where a search looks that comes to the levels in `visits`, there are no links. -/
def Clear (visits : ℕ → Prop) : Prop :=
  ∀ i ns r, visits i → levelAt k i = some (ns, r) → t.NoLink (place d ns) ∧
    (t.isDir (place d ns) →
      t.NoLink (enter (place d ns) r) ∧ ∀ c, t.NoLink (c :: place d ns))

end

section

variable {t : FileTree Xattrs} {m : ℕ} {d : Loc} {k : Bytes} {i j : ℕ} {ns : List Name}
  {r c : Bytes}

theorem Full.blind (h : Full t m d k i) : Blind t d k i := by
  obtain ⟨ns, r, hl, -, hp, -, hh⟩ := h
  exact ⟨ns, r, hl, hp, hh⟩

theorem full_iff (hl : levelAt k i = some (ns, r)) : Full t m d k i ↔
    r ≠ [] ∧ t.isDir (place d ns) ∧ m ≤ visibleCount t (place d ns) ∧
      t.isDir (enter (place d ns) r) = false :=
  exists_level_iff hl

theorem blind_iff (hl : levelAt k i = some (ns, r)) : Blind t d k i ↔
    t.isDir (place d ns) ∧ t.isDir (enter (place d ns) r) = false :=
  exists_level_iff hl

theorem not_full_of_none (hl : levelAt k i = none) : ¬Full t m d k i := by
  rintro ⟨ns, r, h, -⟩
  simp [hl] at h

theorem not_blind_of_none (hl : levelAt k i = none) : ¬Blind t d k i := by
  rintro ⟨ns, r, h, -⟩
  simp [hl] at h

theorem LooksAt.unique (h : LooksAt t d k i) (h' : LooksAt t d k j) : i = j := by
  rcases Nat.lt_trichotomy i j with hij | hij | hij
  · exact absurd (h'.blind i h.pos hij) h.stops
  · exact hij
  · exact absurd (h.blind j h'.pos hij) h'.stops

end

/-! ## The loops -/

/-- What the search for a place gives when it ends at a level. -/
inductive EndsAt (D k : Bytes) : ℕ → FindEnd → Prop
  | stop {i ns r} : levelAt k i = some (ns, r) → r ≠ [] → EndsAt D k i (.stop (levelDir D ns) r)
  | last {i ns c} : levelAt k i = some (ns, c) → firstChar c = .ok c →
      EndsAt D k (i + 1) (.last (levelDir D ns) c)
  | error {i ns r e} : levelAt k i = some (ns, r) → r ≠ [] → firstChar r = .error e →
      EndsAt D k (i + 1) (.error e)

section

variable {fs : FileSystem} {D : Bytes} {d : Loc} {k : Bytes}

theorem at_withSlash (h : fs.At D d) : fs.At (withSlash D) d := by
  have hs : (slash : UInt8) ∉ ([] : Bytes) := by simp
  have he := h.entry hs (by rw [enter_nil]; exact h.isDir)
  rwa [enter_nil] at he

theorem iSubkeyCount_at {host : Host} {path : Bytes} {p : Loc} (h : fs.At path p)
    (hl : ∀ c, fs.tree.NoLink (c :: p)) :
    iSubkeyCount host fs path none = visibleCount fs.tree p := by
  rw [iSubkeyCount, countDir_normalDirs h hl, visibleCount]
  simp [sizeT]

variable (hD : D ≠ []) (hk : slash ∉ k)

include hD hk

omit hD in
/-- One step of the walks : the tests on the next level. -/
theorem level_tests {visits : ℕ → Prop} (hclear : Clear fs.tree d k visits) {i : ℕ}
    {ns : List Name} {r c : Bytes} (hV : fs.At (levelDir D ns) (place d ns))
    (hv : visits (i + 1)) (hl : levelAt k i = some (ns, r)) (hc : firstChar r = .ok c) :
    (directoryExists fs (levelDir D (ns ++ [partName c])) = pathIsDir ↔
      fs.tree.isDir (place d (ns ++ [partName c]))) ∧
    (fs.tree.isDir (place d (ns ++ [partName c])) →
      fs.At (levelDir D (ns ++ [partName c])) (place d (ns ++ [partName c])) ∧
      (directoryExists fs (keyDir D (ns ++ [partName c]) (r.drop c.length)) = pathIsDir ↔
        fs.tree.isDir (enter (place d (ns ++ [partName c])) (r.drop c.length))) ∧
      ∀ host, iSubkeyCount host fs (levelDir D (ns ++ [partName c])) none =
        visibleCount fs.tree (place d (ns ++ [partName c]))) := by
  have hl' := levelAt_succ hl hc
  obtain ⟨hlp, hin⟩ := hclear (i + 1) _ _ hv hl'
  obtain ⟨hsr, hsn⟩ := slash_notMem_levelAt hk hl'
  have hsp : slash ∉ partName c := hsn _ (by simp)
  have hdir := levelDir_append D ns (partName c)
  rw [place_append] at hlp hin ⊢
  refine ⟨?_, fun hd => ?_⟩
  · rw [hdir]
    exact directoryExists_joinName hV hsp hlp
  · obtain ⟨hlh, hlc⟩ := hin hd
    have hV' : fs.At (levelDir D (ns ++ [partName c])) (enter (place d ns) (partName c)) :=
      hdir ▸ hV.entry hsp hd
    refine ⟨hV', ?_, fun host => iSubkeyCount_at hV' hlc⟩
    rw [keyDir_eq]
    exact directoryExists_joinName hV' hsr hlh

/-- The loop of `iFindKeyDirToPut` goes on through full levels and ends at the first other one. -/
theorem findLoop_spec (host : Host) (M : ℤ)
    (hclear : Clear fs.tree d k (FindVisits fs.tree (sizeT M) d k)) (fuel : ℕ) {i : ℕ}
    {ns : List Name} {r : Bytes} (hV : fs.At (levelDir D ns) (place d ns))
    (hl : levelAt k i = some (ns, r)) (hr : r ≠ [])
    (hfull : FindVisits fs.tree (sizeT M) d k (i + 1)) (hfuel : r.length ≤ fuel) :
    ∃ i', FindsAt fs.tree (sizeT M) d k i' ∧
      EndsAt D k i' (findLoop host fs M fuel (levelDir D ns) r) := by
  induction fuel generalizing i ns r with
  | zero => exact absurd (List.length_eq_zero_iff.1 (Nat.le_zero.1 hfuel)) hr
  | succ fuel ih =>
    rw [findLoop]
    cases hc : firstChar r with
    | error e =>
      exact ⟨i + 1, ⟨hfull, not_full_of_none (levelAt_succ_error hl hc)⟩, .error hl hr hc⟩
    | ok c =>
      have hl' := levelAt_succ hl hc
      obtain ⟨htest, hnext⟩ := level_tests hk hclear hV hfull hl hc
      simp only [joinPart_levelDir hD, sdsJoinPathLen_levelDir hD]
      by_cases hrest : r.drop c.length = []
      · rw [if_pos hrest]
        have hrc : r = c := firstChar_last hc hrest
        refine ⟨i + 1, ⟨hfull, ?_⟩, .last (hrc ▸ hl) (hrc ▸ hc)⟩
        rw [full_iff hl']
        exact fun h => h.1 hrest
      rw [if_neg hrest]
      split_ifs with h₁ h₂ h₃
      · obtain ⟨_, hkey, _⟩ := hnext (htest.1 h₁)
        refine ⟨i + 1, ⟨hfull, ?_⟩, .stop hl' hrest⟩
        rw [full_iff hl', hkey.1 h₂]
        simp
      · obtain ⟨_, _, hcount⟩ := hnext (htest.1 h₁)
        rw [hcount host] at h₃
        refine ⟨i + 1, ⟨hfull, ?_⟩, .stop hl' hrest⟩
        rw [full_iff hl']
        exact fun h => absurd h.2.2.1 (by omega)
      · obtain ⟨hV', hkey, hcount⟩ := hnext (htest.1 h₁)
        rw [hcount host, not_lt] at h₃
        refine ih hV' hl' hrest (fun j hj => ?_) ?_
        · rcases Nat.lt_or_ge j (i + 1) with hlt | hge
          · exact hfull j hlt
          · obtain rfl : j = i + 1 := by omega
            rw [full_iff hl']
            exact ⟨hrest, htest.1 h₁, h₃, by simpa using mt hkey.2 h₂⟩
        · have := List.length_pos_iff.2 (firstChar_ne_nil hc)
          rw [List.length_drop]
          omega
      · refine ⟨i + 1, ⟨hfull, ?_⟩, .stop hl' hrest⟩
        rw [full_iff hl']
        exact fun h => h₁ (htest.2 h.2.1)

/-- The loop of `iIsKeyDirExists` goes on through partitions and ends at the first directory, or
past the last level. -/
theorem lookLoop_spec (hclear : Clear fs.tree d k (LookVisits fs.tree d k)) (fuel : ℕ) {i : ℕ}
    {ns : List Name} {r : Bytes} (hV : fs.At (levelDir D ns) (place d ns))
    (hl : levelAt k i = some (ns, r)) (hr : r ≠ [])
    (hblind : LookVisits fs.tree d k (i + 1)) (hfuel : r.length ≤ fuel) :
    ∃ i', LooksAt fs.tree d k i' ∧
      ((∃ ns' r', levelAt k i' = some (ns', r') ∧ fs.tree.isDir (place d ns') ∧
          lookLoop fs fuel (levelDir D ns) r = some (keyDir D ns' r')) ∨
        ((∀ ns' r', levelAt k i' = some (ns', r') → fs.tree.isDir (place d ns') = false) ∧
          lookLoop fs fuel (levelDir D ns) r = none)) := by
  induction fuel generalizing i ns r with
  | zero => exact absurd (List.length_eq_zero_iff.1 (Nat.le_zero.1 hfuel)) hr
  | succ fuel ih =>
    rw [lookLoop]
    cases hc : firstChar r with
    | error e =>
      have hn := levelAt_succ_error hl hc
      exact ⟨i + 1, ⟨by omega, hblind, not_blind_of_none hn⟩,
        Or.inr ⟨fun _ _ h => by simp [hn] at h, rfl⟩⟩
    | ok c =>
      have hl' := levelAt_succ hl hc
      obtain ⟨htest, hnext⟩ := level_tests hk hclear hV hblind hl hc
      simp only [joinPart_levelDir hD, sdsJoinPathLen_levelDir hD]
      split_ifs with h₁ h₂ h₃
      · have hd := htest.1 h₁
        refine ⟨i + 1, ⟨by omega, hblind, ?_⟩, Or.inl ⟨_, _, hl', hd, rfl⟩⟩
        rw [blind_iff hl', (hnext hd).2.1.1 h₂]
        simp
      · have hd := htest.1 h₁
        refine absurd ((hnext hd).2.1.2 ?_) h₂
        rw [h₃, enter_nil]
        exact hd
      · obtain ⟨hV', hkey, _⟩ := hnext (htest.1 h₁)
        refine ih hV' hl' h₃ (fun j h1 hj => ?_) ?_
        · rcases Nat.lt_or_ge j (i + 1) with hlt | hge
          · exact hblind j h1 hlt
          · obtain rfl : j = i + 1 := by omega
            rw [blind_iff hl']
            exact ⟨htest.1 h₁, by simpa using mt hkey.2 h₂⟩
        · have := List.length_pos_iff.2 (firstChar_ne_nil hc)
          rw [List.length_drop]
          omega
      · have hd : fs.tree.isDir (place d (ns ++ [partName c])) = false := by
          simpa using mt htest.2 h₁
        refine ⟨i + 1, ⟨by omega, hblind, ?_⟩, Or.inr ⟨fun ns' r' h => ?_, rfl⟩⟩
        · rw [blind_iff hl', hd]
          simp
        · rw [hl', Option.some.injEq, Prod.mk.injEq] at h
          rwa [← h.1]

end

/-! ## The walks -/

/-- What `iFindKeyDirToPut` makes of the end of its loop. -/
def placeFound (policy : TIDBProcesses) : FindEnd → Except ℤ Bytes
  | .error vLen => .error vLen
  | .stop vDir s => .ok (sdsJoinPathLen vDir s)
  | .last vDir vUtf8Char =>
    match policy with
    | .dkIgnored => .ok (sdsJoinPathLen vDir vUtf8Char)
    | .dkStopped => .error idbErrPartFull
    | _ => .ok vDir

/-- What `iFindKeyDirToPut` returns when the least level that is not full is a level of
the key, its end, or behind a character that is not valid. -/
inductive PutsAt (D k : Bytes) (aPartitionFullProcess : TIDBProcesses) : ℕ → Except ℤ Bytes → Prop
  | key {i ns r} : levelAt k i = some (ns, r) → r ≠ [] →
      PutsAt D k aPartitionFullProcess i (.ok (keyDir D ns r))
  | forced {i ns c} : aPartitionFullProcess = .dkIgnored → levelAt k i = some (ns, c) →
      firstChar c = .ok c → PutsAt D k aPartitionFullProcess (i + 1) (.ok (keyDir D ns c))
  | stopped {i ns c} : aPartitionFullProcess = .dkStopped → levelAt k i = some (ns, c) →
      firstChar c = .ok c → PutsAt D k aPartitionFullProcess (i + 1) (.error idbErrPartFull)
  | other {i ns c} : aPartitionFullProcess ≠ .dkIgnored → aPartitionFullProcess ≠ .dkStopped →
      levelAt k i = some (ns, c) → firstChar c = .ok c →
      PutsAt D k aPartitionFullProcess (i + 1) (.ok (levelDir D ns))
  | invalid {i ns r e} : levelAt k i = some (ns, r) → r ≠ [] → firstChar r = .error e →
      PutsAt D k aPartitionFullProcess (i + 1) (.error e)

section

variable {host : Host} {fs : FileSystem} {D : Bytes} {d : Loc} {k : Bytes} {M : ℤ}
  {policy : TIDBProcesses}

/-- A key that is missing from a full directory is put where the loop ends, any other one at its
plain path. -/
theorem iFindKeyDirToPut_joinName (hD : D ≠ []) (hk : k ≠ []) (hs : slash ∉ k) (host : Host)
    (fs : FileSystem) (M : ℤ) (policy : TIDBProcesses) :
    iFindKeyDirToPut host fs (joinName D k) M policy =
      if directoryExists fs (joinName D k) ≠ pathIsDir ∧
          directoryExists fs (withSlash D) = pathIsDir ∧
            iSubkeyCount host fs (withSlash D) none ≥ sizeT M then
        placeFound policy (findLoop host fs M k.length (withSlash D) k)
      else .ok (joinName D k) := by
  rw [iFindKeyDirToPut, extractLastPathName_joinName hk hs]
  dsimp only
  by_cases hdir : directoryExists fs (joinName D k) = pathIsDir
  · rw [if_pos hdir, if_neg fun h => h.1 hdir]
  by_cases hfull : directoryExists fs (withSlash D) = pathIsDir ∧
      iSubkeyCount host fs (withSlash D) none ≥ sizeT M
  · rw [if_neg hdir, if_pos hfull, if_pos ⟨hdir, hfull⟩]
    cases findLoop host fs M k.length (withSlash D) k <;> rfl
  · have hne : withSlash D ≠ [] := joinName_ne_nil hD
    rw [if_neg hdir, if_neg hfull, if_neg fun h => hfull h.2, sdsJoinPathLen_eq hne,
      joinName_withSlash]

/-- The level where the loop ends is the one the policy puts at. -/
theorem EndsAt.putsAt {i : ℕ} {found : FindEnd} (hD : D ≠ []) (h : EndsAt D k i found)
    (policy : TIDBProcesses) : PutsAt D k policy i (placeFound policy found) := by
  cases h with
  | error hl hr hc => exact .invalid hl hr hc
  | stop hl hr =>
    rw [placeFound, sdsJoinPathLen_levelDir hD]
    exact .key hl hr
  | last hl hc =>
    cases policy with
    | dkIgnored =>
      simp only [placeFound, sdsJoinPathLen_levelDir hD]
      exact .forced rfl hl hc
    | dkStopped => exact .stopped rfl hl hc
    | dkFixed => exact .other (by simp) (by simp) hl hc
    | dkReserved => exact .other (by simp) (by simp) hl hc

variable (host policy) in
/-- The place `iFindKeyDirToPut` chooses for a key of the directory `d`. -/
theorem iFindKeyDirToPut_eq (hD : fs.At D d) (hk : Component k)
    (hclear : Clear fs.tree d k (FindVisits fs.tree (sizeT M) d k)) :
    ∃ i, FindsAt fs.tree (sizeT M) d k i ∧
      PutsAt D k policy i (iFindKeyDirToPut host fs (joinName D k) M policy) := by
  have hl := levelAt_zero k
  have hnone : FindVisits fs.tree (sizeT M) d k 0 := fun j hj => absurd hj (Nat.not_lt_zero j)
  obtain ⟨hlh, hlc⟩ := (hclear 0 [] k hnone hl).2 hD.isDir
  have hV : fs.At (levelDir D []) (place d []) := at_withSlash hD
  have hkey := directoryExists_joinName hD hk.2.1 hlh
  have hitems : iSubkeyCount host fs (withSlash D) none = visibleCount fs.tree d :=
    iSubkeyCount_at hV hlc
  rw [iFindKeyDirToPut_joinName hD.ne_nil hk.1 hk.2.1, directoryExists_at (at_withSlash hD),
    hitems]
  split_ifs with hfull
  · obtain ⟨hmiss, -, hcount⟩ := hfull
    have hfree : fs.tree.isDir (enter d k) = false := by simpa using mt hkey.2 hmiss
    obtain ⟨i, hi, he⟩ := findLoop_spec hD.ne_nil hk.2.1 host M hclear
      k.length hV hl hk.1 (fun j hj => by
        obtain rfl : j = 0 := by omega
        rw [full_iff hl]
        exact ⟨hk.1, hD.isDir, hcount, hfree⟩) le_rfl
    exact ⟨i, hi, he.putsAt hD.ne_nil policy⟩
  · refine ⟨0, ⟨hnone, ?_⟩, .key hl hk.1⟩
    rw [full_iff hl, place_nil]
    rintro ⟨-, -, hcount, hfree⟩
    exact hfull ⟨fun hdir => by simp [hkey.1 hdir] at hfree, rfl, hcount⟩

/-- The place `iIsKeyDirExists` finds a key of the directory `d` at. -/
theorem iIsKeyDirExists_eq (hD : fs.At D d) (hk : Component k)
    (hclear : Clear fs.tree d k (LookVisits fs.tree d k)) :
    ∃ i, LooksAt fs.tree d k i ∧
      ((∃ ns r, levelAt k i = some (ns, r) ∧ fs.tree.isDir (place d ns) ∧
          iIsKeyDirExists fs (joinName D k) = some (keyDir D ns r)) ∨
        ((∀ ns r, levelAt k i = some (ns, r) → fs.tree.isDir (place d ns) = false) ∧
          iIsKeyDirExists fs (joinName D k) = none)) := by
  have hV : fs.At (levelDir D []) (place d []) := at_withSlash hD
  have h := lookLoop_spec hD.ne_nil hk.2.1 hclear k.length hV (levelAt_zero k) hk.1
    (fun j h₁ h₂ => by omega) le_rfl
  rw [iIsKeyDirExists, extractLastPathName_joinName hk.1 hk.2.1]
  exact h

end

end Idb
