import Idb.ForceDirectories
import Idb.Levels

/-!
# The two searches side by side

The search for a place to put a key and the search for the key build the same paths from the same
characters. So where the first one stopped, the second one looks, whatever the tree (links
included) : it comes there through levels at which the key was missed (`Missed`).
-/

namespace Idb

open Posix FileSystem FileTree

/-- At level `i` the key is looked for in vain : the partition is there, the key is not. -/
def Missed (fs : FileSystem) (D k : Bytes) (i : ℕ) : Prop :=
  ∃ ns r, levelAt k i = some (ns, r) ∧ directoryExists fs (levelDir D ns) = pathIsDir ∧
    directoryExists fs (keyDir D ns r) ≠ pathIsDir

/-- At level `i` the search for a place goes on : the key is missed, and there is no room. -/
def Passed (host : Host) (fs : FileSystem) (M : ℤ) (D k : Bytes) (i : ℕ) : Prop :=
  ∃ ns r, levelAt k i = some (ns, r) ∧ directoryExists fs (levelDir D ns) = pathIsDir ∧
    directoryExists fs (keyDir D ns r) ≠ pathIsDir ∧
    sizeT M ≤ iSubkeyCount host fs (levelDir D ns) none

section

variable {host : Host} {fs : FileSystem} {M : ℤ} {D k : Bytes} {i j : ℕ} {ns : List Name}
  {r c : Bytes}

theorem missed_iff (hl : levelAt k i = some (ns, r)) : Missed fs D k i ↔
    directoryExists fs (levelDir D ns) = pathIsDir ∧
      directoryExists fs (keyDir D ns r) ≠ pathIsDir :=
  exists_level_iff hl

theorem passed_iff (hl : levelAt k i = some (ns, r)) : Passed host fs M D k i ↔
    directoryExists fs (levelDir D ns) = pathIsDir ∧
      directoryExists fs (keyDir D ns r) ≠ pathIsDir ∧
      sizeT M ≤ iSubkeyCount host fs (levelDir D ns) none :=
  exists_level_iff hl

instance : Decidable (Passed host fs M D k i) :=
  match hl : levelAt k i with
  | some (ns, r) => decidable_of_iff (directoryExists fs (levelDir D ns) = pathIsDir ∧
      directoryExists fs (keyDir D ns r) ≠ pathIsDir ∧
      sizeT M ≤ iSubkeyCount host fs (levelDir D ns) none) (passed_iff hl).symm
  | none => .isFalse fun ⟨_, _, h, _⟩ => by simp [hl] at h

theorem Passed.missed (h : Passed host fs M D k i) : Missed fs D k i := by
  obtain ⟨ns, r, hl, hdir, hkey, -⟩ := h
  exact ⟨ns, r, hl, hdir, hkey⟩

theorem not_passed_of_none (hl : levelAt k i = none) : ¬Passed host fs M D k i := by
  rintro ⟨ns, r, h, -⟩
  simp [hl] at h

/-- Without characters left the key is not missed where its partition is. -/
theorem rest_ne_nil_of_missed (hl : levelAt k i = some (ns, r)) (h : Missed fs D k i) :
    r ≠ [] := by
  rintro rfl
  obtain ⟨hdir, hkey⟩ := (missed_iff hl).1 h
  obtain ⟨p, hp⟩ := directoryExists_eq_dir_iff_at.1 hdir
  exact hkey (keyDir_eq D ns [] ▸ directoryExists_at (at_withSlash hp))

/-! ## The search for a place -/

/-- The loop passes the levels that are full and ends at the first that is not. -/
theorem findLoop_passed (hD : D ≠ []) (fuel : ℕ) (hl : levelAt k i = some (ns, r)) (hr : r ≠ [])
    (hm : ∀ j < i + 1, Passed host fs M D k j) (hfuel : r.length ≤ fuel) :
    ∃ i', i < i' ∧ EndsAt D k i' (findLoop host fs M fuel (levelDir D ns) r) ∧
      (∀ j < i', Passed host fs M D k j) ∧ ¬Passed host fs M D k i' := by
  induction fuel generalizing i ns r with
  | zero => exact absurd (List.length_eq_zero_iff.1 (Nat.le_zero.1 hfuel)) hr
  | succ fuel ih =>
    rw [findLoop]
    cases hc : firstChar r with
    | error e =>
      exact ⟨i + 1, i.lt_succ_self, .error hl hr hc, hm, not_passed_of_none
        (levelAt_succ_error hl hc)⟩
    | ok c =>
      have hl' := levelAt_succ hl hc
      simp only [joinPart_levelDir hD, sdsJoinPathLen_levelDir hD]
      by_cases hrest : r.drop c.length = []
      · rw [if_pos hrest]
        have hrc : r = c := firstChar_last hc hrest
        exact ⟨i + 1, i.lt_succ_self, .last (hrc ▸ hl) (hrc ▸ hc), hm,
          fun h => rest_ne_nil_of_missed hl' h.missed hrest⟩
      · rw [if_neg hrest]
        have hp := @passed_iff host fs M D k _ _ _ hl'
        split_ifs with h₁ h₂ h₃
        · exact ⟨i + 1, i.lt_succ_self, .stop hl' hrest, hm, fun h => (hp.1 h).2.1 h₂⟩
        · exact ⟨i + 1, i.lt_succ_self, .stop hl' hrest, hm,
            fun h => (hp.1 h).2.2.not_gt h₃⟩
        · have hpos := List.length_pos_iff.2 (firstChar_ne_nil hc)
          have hnext : Passed host fs M D k (i + 1) := hp.2 ⟨h₁, h₂, not_lt.1 h₃⟩
          obtain ⟨i', hi, he⟩ := ih hl' hrest (Nat.forall_lt_succ_right.2 ⟨hm, hnext⟩)
            (by rw [List.length_drop]; omega)
          exact ⟨i', by omega, he⟩
        · exact ⟨i + 1, i.lt_succ_self, .stop hl' hrest, hm, fun h => h₁ (hp.1 h).1⟩

/-- `iFindKeyDirToPut` ends at the first level that it does not pass. -/
theorem iFindKeyDirToPut_passed (hD : D ≠ []) (hk : k ≠ []) (hs : slash ∉ k) (host : Host)
    (M : ℤ) (policy : TIDBProcesses) :
    ∃ i, PutsAt D k policy i (iFindKeyDirToPut host fs (joinName D k) M policy) ∧
      (∀ j < i, Passed host fs M D k j) ∧ ¬Passed host fs M D k i := by
  have hl := levelAt_zero k
  have hzero := @passed_iff host fs M D k _ _ _ hl
  have hnone : ∀ j < 0, Passed host fs M D k j := fun j hj => absurd hj (Nat.not_lt_zero j)
  rw [iFindKeyDirToPut_joinName hD hk hs]
  split_ifs with hfull
  · obtain ⟨i, -, he, hm⟩ := findLoop_passed hD k.length hl hk
      (Nat.forall_lt_succ_right.2 ⟨hnone, hzero.2 ⟨hfull.2.1, hfull.1, hfull.2.2⟩⟩) le_rfl
    exact ⟨i, he.putsAt hD policy, hm⟩
  · exact ⟨0, .key hl hk, hnone, fun h => hfull ⟨(hzero.1 h).2.1, (hzero.1 h).1, (hzero.1 h).2.2⟩⟩

/-- The first level that is not passed is the one it ends at. -/
theorem putsAt_of_passed (hD : D ≠ []) (hk : k ≠ []) (hs : slash ∉ k) (policy : TIDBProcesses)
    (hm : ∀ j < i, Passed host fs M D k j) (hend : ¬Passed host fs M D k i) :
    PutsAt D k policy i (iFindKeyDirToPut host fs (joinName D k) M policy) := by
  obtain ⟨j, hp, hj, hstop⟩ := @iFindKeyDirToPut_passed fs D k hD hk hs host M policy
  rcases Nat.lt_trichotomy i j with hij | rfl | hij
  · exact absurd (hj i hij) hend
  · exact hp
  · exact absurd (hm j hij) hstop

section

variable {policy : TIDBProcesses} {res : Except ℤ Bytes}

/-- At a level with characters left it ends with the directory of the key. -/
theorem PutsAt.eq_key (h : PutsAt D k policy i res) (hl : levelAt k i = some (ns, r))
    (hr : r ≠ []) : res = .ok (keyDir D ns r) := by
  have hend : ∀ {j ns' c}, i = j + 1 → levelAt k j = some (ns', c) → firstChar c = .ok c →
      False := by
    rintro j ns' c rfl hl' hc
    rw [levelAt_succ hl' hc, List.drop_length, Option.some.injEq, Prod.mk.injEq] at hl
    exact hr hl.2.symm
  cases h with
  | key hl' =>
    rw [hl', Option.some.injEq, Prod.mk.injEq] at hl
    rw [hl.1, hl.2]
  | forced _ hl' hc => exact (hend rfl hl' hc).elim
  | stopped _ hl' hc => exact (hend rfl hl' hc).elim
  | other _ _ hl' hc => exact (hend rfl hl' hc).elim
  | invalid hl' _ hc =>
    rw [levelAt_succ_error hl' hc] at hl
    simp at hl

/-- Behind the last character it goes back to the level before it, if the partitions are
ignored. -/
theorem PutsAt.eq_forced (h : PutsAt D k .dkIgnored (i + 1) res)
    (hl : levelAt k i = some (ns, c)) (hc : firstChar c = .ok c) : res = .ok (keyDir D ns c) := by
  have hnext := levelAt_succ hl hc
  rw [List.drop_length] at hnext
  cases h with
  | key hl' hr =>
    rw [hl', Option.some.injEq, Prod.mk.injEq] at hnext
    exact absurd hnext.2 hr
  | forced _ hl' =>
    rw [hl', Option.some.injEq, Prod.mk.injEq] at hl
    rw [hl.1, hl.2]
  | stopped hstop => cases hstop
  | other hign => exact absurd rfl hign
  | invalid hl' _ hc' =>
    rw [levelAt_succ_error hl' hc'] at hnext
    simp at hnext

end

/-- The loop stops at the first level where the key is. -/
theorem findLoop_stop (hD : D ≠ []) (fuel : ℕ) {ns' : List Name} {r' : Bytes}
    (hl : levelAt k i = some (ns, r)) (hi : i < j) (hl' : levelAt k j = some (ns', r'))
    (hr' : r' ≠ []) (hm : ∀ m, i < m → m < j → Passed host fs M D k m)
    (hd : directoryExists fs (levelDir D ns') = pathIsDir)
    (hk : directoryExists fs (keyDir D ns' r') = pathIsDir) (hfuel : r.length ≤ fuel) :
    findLoop host fs M fuel (levelDir D ns) r = .stop (levelDir D ns') r' := by
  induction fuel generalizing i ns r with
  | zero =>
    exact absurd (List.length_eq_zero_iff.1 (Nat.le_zero.1 hfuel)) (rest_ne_nil_of_lt hi hl' hl)
  | succ fuel ih =>
    obtain ⟨c, hc, hl₁⟩ := levelAt_next hl hi hl'
    rw [findLoop, hc]
    simp only [joinPart_levelDir hD, sdsJoinPathLen_levelDir hD]
    by_cases hj : j = i + 1
    · subst hj
      rw [hl', Option.some.injEq, Prod.mk.injEq] at hl₁
      obtain ⟨rfl, rfl⟩ := hl₁
      rw [if_neg hr', if_pos hd, if_pos hk]
    · obtain ⟨hd₁, hk₁, hcount⟩ := (passed_iff hl₁).1 (hm (i + 1) (by omega) (by omega))
      rw [if_neg (rest_ne_nil_of_lt (by omega) hl' hl₁), if_pos hd₁, if_neg hk₁,
        if_neg (not_lt.2 hcount)]
      refine ih hl₁ (by omega) (fun m h₁ h₂ => hm m (by omega) h₂) ?_
      have := List.length_pos_iff.2 (firstChar_ne_nil hc)
      rw [List.length_drop]
      omega

/-- Behind levels that it passes, `iFindKeyDirToPut` finds the key where it is. -/
theorem iFindKeyDirToPut_found (hD : D ≠ []) (hk : k ≠ []) (hs : slash ∉ k) (hi : 0 < i)
    (hl : levelAt k i = some (ns, r)) (hr : r ≠ []) (hm : ∀ j < i, Passed host fs M D k j)
    (hd : directoryExists fs (levelDir D ns) = pathIsDir)
    (hkey : directoryExists fs (keyDir D ns r) = pathIsDir) (policy : TIDBProcesses) :
    iFindKeyDirToPut host fs (joinName D k) M policy = .ok (keyDir D ns r) := by
  obtain ⟨hdir, hmiss, hfull⟩ := (passed_iff (levelAt_zero k)).1 (hm 0 hi)
  have hstop := findLoop_stop hD k.length (levelAt_zero k) hi hl hr (fun j _ => hm j) hd hkey le_rfl
  rw [iFindKeyDirToPut_joinName hD hk hs, if_pos ⟨hmiss, hdir, hfull⟩]
  change placeFound policy (findLoop host fs M k.length (levelDir D []) k) = _
  rw [hstop, placeFound, sdsJoinPathLen_levelDir hD]

/-! ## The search for the key -/

/-- The loop passes the levels that lack the key and ends at the first that has it. -/
theorem lookLoop_missed (hD : D ≠ []) (fuel : ℕ) {ns' : List Name} {r' : Bytes}
    (hl : levelAt k i = some (ns, r)) (hi : i < j) (hl' : levelAt k j = some (ns', r'))
    (hm : ∀ m, i < m → m < j → Missed fs D k m)
    (hd : directoryExists fs (levelDir D ns') = pathIsDir)
    (hk : directoryExists fs (keyDir D ns' r') = pathIsDir) (hfuel : r.length ≤ fuel) :
    lookLoop fs fuel (levelDir D ns) r = some (keyDir D ns' r') := by
  induction fuel generalizing i ns r with
  | zero =>
    exact absurd (List.length_eq_zero_iff.1 (Nat.le_zero.1 hfuel)) (rest_ne_nil_of_lt hi hl' hl)
  | succ fuel ih =>
    obtain ⟨c, hc, hl₁⟩ := levelAt_next hl hi hl'
    rw [lookLoop, hc]
    simp only [joinPart_levelDir hD, sdsJoinPathLen_levelDir hD]
    by_cases hj : j = i + 1
    · subst hj
      rw [hl', Option.some.injEq, Prod.mk.injEq] at hl₁
      obtain ⟨rfl, rfl⟩ := hl₁
      rw [if_pos hd, if_pos hk]
    · obtain ⟨hd₁, hk₁⟩ := (missed_iff hl₁).1 (hm (i + 1) (by omega) (by omega))
      rw [if_pos hd₁, if_neg hk₁, if_neg (rest_ne_nil_of_lt (by omega) hl' hl₁)]
      refine ih hl₁ (by omega) (fun m h₁ h₂ => hm m (by omega) h₂) ?_
      have := List.length_pos_iff.2 (firstChar_ne_nil hc)
      rw [List.length_drop]
      omega

/-- What the loop finds lies at a level behind those at which it missed the key. -/
theorem lookLoop_ends (hD : D ≠ []) {fuel : ℕ} {path : Bytes} (hl : levelAt k i = some (ns, r))
    (h : lookLoop fs fuel (levelDir D ns) r = some path) :
    ∃ j ns' r', i < j ∧ (∀ m, i < m → m < j → Missed fs D k m) ∧ levelAt k j = some (ns', r') ∧
      directoryExists fs (levelDir D ns') = pathIsDir ∧
        directoryExists fs (keyDir D ns' r') = pathIsDir ∧ path = keyDir D ns' r' := by
  induction fuel generalizing i ns r with
  | zero => simp [lookLoop] at h
  | succ fuel ih =>
    rw [lookLoop] at h
    cases hc : firstChar r with
    | error e => simp [hc] at h
    | ok c =>
      have hl' := levelAt_succ hl hc
      simp only [hc, joinPart_levelDir hD, sdsJoinPathLen_levelDir hD] at h
      split_ifs at h with h₁ h₂ h₃
      · exact ⟨i + 1, _, _, i.lt_succ_self, fun m hm hm' => by omega, hl', h₁, h₂,
          (Option.some.inj h).symm⟩
      · exact absurd h₃ (rest_ne_nil_of_missed hl' ((missed_iff hl').2 ⟨h₁, h₂⟩))
      · obtain ⟨j, ns', r', hj, hm, hend⟩ := ih hl' h
        refine ⟨j, ns', r', by omega, fun m h₄ h₅ => ?_, hend⟩
        rcases Nat.lt_or_ge (i + 1) m with hlt | hge
        · exact hm m hlt h₅
        · obtain rfl : m = i + 1 := by omega
          exact (missed_iff hl').2 ⟨h₁, h₂⟩

/-- `iIsKeyDirExists` finds what lies at the first level at which the key is not missed. -/
theorem iIsKeyDirExists_missed (hD : D ≠ []) (hk : k ≠ []) (hs : slash ∉ k) (hi : 0 < i)
    (hl : levelAt k i = some (ns, r)) (hm : ∀ j, 0 < j → j < i → Missed fs D k j)
    (hd : directoryExists fs (levelDir D ns) = pathIsDir)
    (hkey : directoryExists fs (keyDir D ns r) = pathIsDir) :
    iIsKeyDirExists fs (joinName D k) = some (keyDir D ns r) := by
  rw [iIsKeyDirExists, extractLastPathName_joinName hk hs]
  exact lookLoop_missed hD k.length (levelAt_zero k) hi hl hm hd hkey le_rfl

end

end Idb
