import Idb.KeyMap

/-!
# The placement rule

`iFindKeyDirToPut` on the path of a key goes down the partition directories of its characters
and stops at the first one where the key has its place : the partition directory is missing, the
key is there already, or the partition has room. The rule is stated on paths, for any tree,
links included, and for keys that are not UTF-8 to their end (`placement`).
-/

namespace Idb

open Posix FileSystem FileTree

/-- `p_i`, the partition directory of the first `i` characters below `R`. -/
def partPath (R : Bytes) (cs : List Bytes) (i : ℕ) : Bytes :=
  ((cs.take i).map partName).foldl joinName R

/-- `r_i`, what follows the first `i` characters. -/
def partRest (cs : List Bytes) (rest : Bytes) (i : ℕ) : Bytes :=
  (cs.drop i).flatten ++ rest

/-- The key has its place in the directory `p` : it is no directory, holds `r` already or has
room. -/
def HasPlace (host : Host) (fs : FileSystem) (M : ℤ) (p r : Bytes) : Prop :=
  directoryExists fs p ≠ pathIsDir ∨ directoryExists fs (joinName p r) = pathIsDir ∨
    (iSubkeyCount host fs p none : ℤ) < M

/-- What is found for a key of the characters `cs` followed by `rest`, from level `m` on. -/
structure PlacedFrom (host : Host) (fs : FileSystem) (M : ℤ) (policy : TIDBProcesses) (R : Bytes)
    (cs : List Bytes) (rest : Bytes) (m : ℕ) (found : Except ℤ Bytes) : Prop where
  /-- The first level with a place. -/
  first : ∀ i, m ≤ i → i ≤ cs.length → partRest cs rest i ≠ [] →
    (∀ j, m ≤ j → j < i → ¬HasPlace host fs M (partPath R cs j) (partRest cs rest j)) →
    HasPlace host fs M (partPath R cs i) (partRest cs rest i) →
      found = .ok (joinName (partPath R cs i) (partRest cs rest i))
  /-- All levels are full. -/
  full : ∀ hne : cs ≠ [], rest = [] →
    (∀ j, m ≤ j → j < cs.length → ¬HasPlace host fs M (partPath R cs j) (partRest cs rest j)) →
    (policy = .dkIgnored →
      found = .ok (joinName (partPath R cs (cs.length - 1)) (cs.getLast hne))) ∧
    (policy = .dkStopped → found = .error idbErrPartFull)
  /-- All levels are full up to what is not UTF-8. -/
  invalid : ∀ e, rest ≠ [] → firstChar rest = .error e →
    (∀ j, m ≤ j → j ≤ cs.length → ¬HasPlace host fs M (partPath R cs j) (partRest cs rest j)) →
      found = .error e

section

variable {host : Host} {fs : FileSystem} {M : ℤ} {policy : TIDBProcesses} {R c rest : Bytes}
  {cs : List Bytes} {found : Except ℤ Bytes} {i : ℕ}

theorem partPath_zero : partPath R cs 0 = R := by
  simp [partPath]

theorem partPath_cons : partPath R (c :: cs) (i + 1) = partPath (joinName R (partName c)) cs i := by
  simp [partPath]

theorem partRest_cons : partRest (c :: cs) rest (i + 1) = partRest cs rest i := by
  simp [partRest]

theorem partPath_withSlash (hi : 0 < i) (hc : cs ≠ []) :
    partPath (withSlash R) cs i = partPath R cs i := by
  obtain ⟨i, rfl⟩ := Nat.exists_eq_succ_of_ne_zero hi.ne'
  obtain ⟨c, cs, rfl⟩ := List.exists_cons_of_ne_nil hc
  rw [partPath_cons, partPath_cons, joinName_withSlash]

namespace PlacedFrom

/-- The level at which the search starts has a place, or the search goes on behind it. -/
theorem start (hhas : HasPlace host fs M R (cs.flatten ++ rest) →
      found = .ok (joinName R (cs.flatten ++ rest)))
    (hgo : ¬HasPlace host fs M R (cs.flatten ++ rest) →
      PlacedFrom host fs M policy R cs rest 1 found) :
    PlacedFrom host fs M policy R cs rest 0 found := by
  have hzero : HasPlace host fs M (partPath R cs 0) (partRest cs rest 0) ↔
      HasPlace host fs M R (cs.flatten ++ rest) := by
    rw [partPath_zero, partRest, List.drop_zero]
  refine ⟨fun i _ hi hr hno hp => ?_, fun hcs hrest hno => ?_, fun e hrest he hno => ?_⟩
  · cases i with
    | zero =>
      rw [partPath_zero, partRest, List.drop_zero]
      exact hhas (hzero.1 hp)
    | succ i =>
      have h := hgo (mt hzero.2 (hno 0 le_rfl (Nat.succ_pos i)))
      exact h.first _ (Nat.succ_pos i) hi hr (fun j _ => hno j (Nat.zero_le j)) hp
  · have h := hgo (mt hzero.2 (hno 0 le_rfl (List.length_pos_iff.2 hcs)))
    exact h.full hcs hrest fun j _ => hno j (Nat.zero_le j)
  · have h := hgo (mt hzero.2 (hno 0 le_rfl (Nat.zero_le _)))
    exact h.invalid e hrest he fun j _ => hno j (Nat.zero_le j)

/-- The levels of a key are those of the key without its first character, one level deeper. -/
theorem cons (hne : cs.flatten ++ rest ≠ [])
    (h : PlacedFrom host fs M policy (joinName R (partName c)) cs rest 0 found) :
    PlacedFrom host fs M policy R (c :: cs) rest 1 found := by
  have hshift : ∀ {m : ℕ}, (∀ j, 1 ≤ j → j < m + 1 →
        ¬HasPlace host fs M (partPath R (c :: cs) j) (partRest (c :: cs) rest j)) →
      ∀ j < m, ¬HasPlace host fs M (partPath (joinName R (partName c)) cs j)
        (partRest cs rest j) := by
    intro m hno j hj
    have := hno (j + 1) (Nat.succ_pos j) (Nat.succ_lt_succ hj)
    rwa [partPath_cons, partRest_cons] at this
  refine ⟨fun i hi hle hr hno hp => ?_, fun _ hrest hno => ?_, fun e hrest he hno => ?_⟩
  · obtain ⟨i, rfl⟩ := Nat.exists_eq_succ_of_ne_zero (Nat.one_le_iff_ne_zero.1 hi)
    rw [partRest_cons] at hr
    rw [partPath_cons, partRest_cons] at hp ⊢
    exact h.first i (Nat.zero_le i) (Nat.succ_le_succ_iff.1 hle) hr
      (fun j _ hj => hshift hno j hj) hp
  · have hcs : cs ≠ [] := by
      rintro rfl
      exact hne (by rw [hrest]; rfl)
    obtain ⟨m, hm⟩ := Nat.exists_eq_succ_of_ne_zero (List.length_pos_iff.2 hcs).ne'
    have hfull := h.full hcs hrest fun j _ hj => hshift hno j hj
    rw [List.getLast_cons hcs, List.length_cons, Nat.add_sub_cancel, hm, partPath_cons]
    rwa [hm] at hfull
  · exact h.invalid e hrest he fun j _ hj => hshift (m := cs.length + 1)
      (fun j hj hj' => hno j hj (by rw [List.length_cons]; omega)) j (Nat.lt_succ_of_le hj)

/-- Behind the first level a slash at the end of the path does not matter. -/
theorem of_withSlash (h : PlacedFrom host fs M policy (withSlash R) cs rest 1 found) :
    PlacedFrom host fs M policy R cs rest 1 found := by
  have hpath : ∀ {j}, 1 ≤ j → j ≤ cs.length → partPath (withSlash R) cs j = partPath R cs j :=
    fun hj hle => partPath_withSlash hj (List.length_pos_iff.1 (hj.trans hle))
  refine ⟨fun i hi hle hr hno hp => ?_, fun hcs hrest hno => ?_, fun e hrest he hno => ?_⟩
  · rw [← hpath hi hle] at hp ⊢
    refine h.first i hi hle hr (fun j hj hj' => ?_) hp
    rw [hpath hj (hj'.le.trans hle)]
    exact hno j hj hj'
  · have hfull := h.full hcs hrest fun j hj hj' => by
      rw [hpath hj hj'.le]
      exact hno j hj hj'
    have hjoin : ∀ c, joinName (partPath (withSlash R) cs (cs.length - 1)) c =
        joinName (partPath R cs (cs.length - 1)) c := by
      intro c
      rcases Nat.eq_zero_or_pos (cs.length - 1) with hz | hpos
      · rw [hz, partPath_zero, partPath_zero, joinName_withSlash]
      · rw [hpath hpos (Nat.sub_le _ _)]
    rwa [hjoin] at hfull
  · refine h.invalid e hrest he fun j hj hj' => ?_
    rw [hpath hj hj']
    exact hno j hj hj'

end PlacedFrom

theorem lt_sizeT_iff (hM : M > 0) {n : ℕ} : n < sizeT M ↔ (n : ℤ) < M := by
  rw [sizeT, if_neg (by omega)]
  omega

/-- The loop finds the first level with a place behind the one it starts at. -/
theorem findLoop_placed (hM : M > 0) (hR : R ≠ []) (hcs : ∀ c ∈ cs, firstChar c = .ok c)
    (hrest : rest = [] ∨ ∃ e, firstChar rest = .error e) (hne : cs.flatten ++ rest ≠ []) {fuel : ℕ}
    (hfuel : (cs.flatten ++ rest).length ≤ fuel) :
    PlacedFrom host fs M policy R cs rest 1
      (placeFound policy (findLoop host fs M fuel R (cs.flatten ++ rest))) := by
  induction cs generalizing R fuel with
  | nil =>
    rw [List.flatten_nil, List.nil_append] at hne hfuel ⊢
    obtain ⟨e, he⟩ := hrest.resolve_left hne
    obtain ⟨n, rfl⟩ := Nat.exists_eq_succ_of_ne_zero
      ((List.length_pos_iff.2 hne).trans_le hfuel).ne'
    rw [findLoop, he]
    refine ⟨fun i hi hi' => absurd (hi.trans hi') (by simp), fun h => absurd rfl h,
      fun e' _ he' _ => ?_⟩
    rw [he] at he'
    exact he'
  | cons c cs ih =>
    obtain ⟨hc, hcs⟩ := List.forall_mem_cons.1 hcs
    rw [List.flatten_cons, List.append_assoc] at hfuel hne ⊢
    have hpos := List.length_pos_iff.2 (firstChar_ne_nil hc)
    rw [List.length_append] at hfuel
    obtain ⟨n, rfl⟩ : ∃ n, fuel = n + 1 := ⟨fuel - 1, by omega⟩
    have hpart : joinPart R c = joinName R (partName c) := by
      rw [joinPart, sdsJoinPathLen_eq hR, joinName_eq_withSlash, joinName_eq_withSlash,
        List.append_assoc]
      rfl
    have hne' : joinName R (partName c) ≠ [] := joinName_ne_nil hR
    rw [findLoop, firstChar_append hc]
    dsimp only
    rw [List.drop_left, hpart, sdsJoinPathLen_eq hne']
    by_cases hlast : cs.flatten ++ rest = []
    · obtain ⟨hflat, rfl⟩ := List.append_eq_nil_iff.1 hlast
      obtain rfl : cs = [] := by
        rcases cs with - | ⟨c', cs⟩
        · rfl
        · rw [List.flatten_cons, List.append_eq_nil_iff] at hflat
          exact absurd hflat.1 (firstChar_ne_nil (hcs c' List.mem_cons_self))
      rw [if_pos hlast]
      refine ⟨fun i hi hle hr => ?_, fun _ _ _ => ⟨?_, ?_⟩, fun _ h => absurd rfl h⟩
      · obtain rfl : i = 1 := le_antisymm hle hi
        exact absurd rfl hr
      · rintro rfl
        rw [placeFound, sdsJoinPathLen_eq hR]
        rfl
      · rintro rfl
        rfl
    · rw [if_neg hlast]
      refine .cons hlast (.start (fun hp => ?_) fun hp => ?_)
      · rw [HasPlace, ← lt_sizeT_iff hM] at hp
        split_ifs with hdir hkey hroom
        · rw [placeFound, sdsJoinPathLen_eq hne']
        · rw [placeFound, sdsJoinPathLen_eq hne']
        · exact absurd hp (by simp [hdir, hkey, hroom])
        · rw [placeFound, sdsJoinPathLen_eq hne']
      · rw [HasPlace, ← lt_sizeT_iff hM, not_or, not_or, not_not] at hp
        rw [if_pos hp.1, if_neg hp.2.1, if_neg hp.2.2]
        exact ih hne' hcs hlast (by omega)

/-- A slash at the end does not change the count. -/
theorem iSubkeyCount_withSlash {d : Loc} (h : fs.At R d) (host : Host) :
    iSubkeyCount host fs (withSlash R) none = iSubkeyCount host fs R none := by
  have hk : KeepsFs (U := Unit) none := fun _ hm => by simp at hm
  have hpath : ∀ c, itemPath (withSlash R) c = itemPath R c := fun c => by
    rw [itemPath_eq (at_withSlash h).ne_nil, itemPath_eq h.ne_nil, joinName_withSlash]
  have hsel : itemSelected host none listNormalDirs (withSlash R) fs =
      itemSelected host none listNormalDirs R fs := by
    funext item
    have htype : itemType fs (withSlash R) item = itemType fs R item := by
      rw [itemType, itemType, hpath]
    have hsel : ∀ type, typeSelected fs (withSlash R) listNormalDirs item type =
        typeSelected fs R listNormalDirs item type := fun type => by
      cases type <;> simp only [typeSelected, hpath]
    simp only [itemSelected, htype, hsel]
  rw [iSubkeyCount, iSubkeyCount, countDir, countDir, walkDir_at (hk.keepsOn _) trivial
    (at_withSlash h), walkDir_at (hk.keepsOn _) trivial h, hsel]
  simp only [runItems_none _ (show ¬(0 : ℤ) ≤ walkItemStop by decide)]

/-- A slash at the end of the path of a directory does not matter. -/
theorem hasPlace_withSlash (hR : R ≠ []) :
    HasPlace host fs M (withSlash R) rest ↔ HasPlace host fs M R rest := by
  have hdir : directoryExists fs (withSlash R) = pathIsDir ↔ directoryExists fs R = pathIsDir := by
    rw [directoryExists_eq_dir_iff_at, directoryExists_eq_dir_iff_at]
    constructor
    · rintro ⟨p, hp⟩
      rw [withSlash, joinName] at hp
      split_ifs at hp
      · rw [List.append_nil] at hp
        exact ⟨p, hp⟩
      · exact hp.of_append_slash hR
    · rintro ⟨p, hp⟩
      exact ⟨p, at_withSlash hp⟩
  rw [HasPlace, HasPlace, ne_eq, ne_eq, hdir, joinName_withSlash]
  refine or_congr_right' fun hno => or_congr Iff.rfl ?_
  obtain ⟨p, hp⟩ := directoryExists_eq_dir_iff_at.1 (not_not.1 hno)
  rw [iSubkeyCount_withSlash hp]

/-- The search starts in the directory itself. -/
theorem iFindKeyDirToPut_placed (hM : M > 0) (hR : R ≠ []) (hcs : ∀ c ∈ cs, firstChar c = .ok c)
    (hrest : rest = [] ∨ ∃ e, firstChar rest = .error e) (hne : cs.flatten ++ rest ≠ [])
    (hs : slash ∉ cs.flatten ++ rest) : PlacedFrom host fs M policy R cs rest 0
      (iFindKeyDirToPut host fs (joinName R (cs.flatten ++ rest)) M policy) := by
  have hR' : withSlash R ≠ [] := joinName_ne_nil hR
  have hplace : HasPlace host fs M R (cs.flatten ++ rest) ↔
      directoryExists fs (withSlash R) ≠ pathIsDir ∨
        directoryExists fs (joinName R (cs.flatten ++ rest)) = pathIsDir ∨
          iSubkeyCount host fs (withSlash R) none < sizeT M := by
    rw [← hasPlace_withSlash hR, HasPlace, joinName_withSlash, lt_sizeT_iff hM]
  rw [iFindKeyDirToPut_joinName hR hne hs]
  refine .start (fun hp => ?_) fun hp => ?_
  · rw [hplace] at hp
    rw [if_neg]
    rintro ⟨hkey, hdir, hfull⟩
    exact absurd hp (by simp [hkey, hdir, hfull])
  · rw [hplace, not_or, not_or, not_not, not_lt] at hp
    rw [if_pos ⟨hp.2.1, hp.1, hp.2.2⟩]
    exact (findLoop_placed hM hR' hcs hrest hne le_rfl).of_withSlash

end

/-! ## The rule -/

/-- A key of the characters `cs`, followed by what is not UTF-8 or by nothing, is put into the
first partition directory on its way where it has a place, the directory `R` included. If there
is none, the policy decides about its last character, and what is not UTF-8 is an error. -/
theorem placement (host : Host) (fs : FileSystem) (M : ℤ) (policy : TIDBProcesses) (R : Bytes)
    (k : DotFreeKey) (cs : List Bytes) (rest : Bytes) (hM : M > 0) (hR : R ≠ [])
    (hk : k.val = cs.flatten ++ rest) (hcs : ∀ c ∈ cs, firstChar c = .ok c)
    (hrest : rest = [] ∨ ∃ e, firstChar rest = .error e) :
    PlacedFrom host fs M policy R cs rest 0
      (iFindKeyDirToPut host fs (joinName R k.val) M policy) := by
  have hcomp := k.component
  rw [hk] at hcomp ⊢
  exact iFindKeyDirToPut_placed hM hR hcs hrest hcomp.1 hcomp.2.1

/-- The hypotheses hold for a put into a full directory. -/
theorem placement_full :
    (1 : ℤ) > 0 ∧ [slash] ≠ [] ∧ keyAb.val = [[97], [98]].flatten ++ [] ∧
      (∀ c ∈ ([[97], [98]] : List Bytes), firstChar c = .ok c) ∧
      PlacedFrom plainHost (rootWith [[slash, 120]]) 1 .dkStopped [slash] [[97], [98]] [] 0
        (iFindKeyDirToPut plainHost (rootWith [[slash, 120]]) (joinName [slash] keyAb.val) 1
          .dkStopped) := by
  have hcs : ∀ c ∈ ([[97], [98]] : List Bytes), firstChar c = .ok c := by decide
  exact ⟨by decide, by decide, rfl, hcs, placement plainHost (rootWith [[slash, 120]]) 1
    .dkStopped [slash] keyAb [[97], [98]] [] (by decide) (by decide) rfl hcs (Or.inl rfl)⟩

end Idb
