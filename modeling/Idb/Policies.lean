import Idb.Paging
import Idb.Runs

/-!
# The policy for duplicate keys

The policy handed to `iSubkeys` says whether duplicates are looked for, the global one what
is done about them. So the global one does not matter exactly if no duplicate is looked for or
none is met (`policyDecides_iff`). Ignoring them gives the list that reserves them, without its
repetitions (`dropsRepetitions_iff`). Both are so only if the key part stays in its block.
-/

namespace Idb

open Posix FileSystem FileTree

/-! ## The keys a walk meets -/

/-- A processor that only records. -/
def keyRecorder : WalkKeyHandler :=
  fun _ _ aKey _ _ (fs, keys) => (walkItemOk, fs, keys ++ [aKey])

section

variable (host : Host) (fs : FileSystem) (aDir aKey : Bytes) (aPattern : Option Bytes)
  (aSkipCount aCount : ℕ)

/-- The keys a walk meets, in the order it meets them. -/
def metKeys : List Bytes :=
  (keyWalk host fs aDir aKey aPattern aSkipCount aCount (some keyRecorder) .dkReserved).2.2.2

/-- The literal characters of the pattern whose partitions a walk goes into. -/
def literalPart : Bytes :=
  (keyWalk host fs aDir aKey aPattern aSkipCount aCount (some keyRecorder)
    .dkReserved).2.2.1.subkeyPart

/-- They fit in the block of the key part. -/
def PartFits : Prop :=
  (literalPart host fs aDir aKey aPattern aSkipCount aCount).length ≤ subkeyRoom

end

theorem records_keyRecorder : Records (some keyRecorder) .dkReserved fun key => [key] :=
  fun _ _ _ _ _ _ => rfl

section

variable {host : Host} {fs : FileSystem} {g policy : TIDBProcesses}

theorem callKey_iSubkeysWalker_new {n : ℕ} {vDir key part : Bytes} {keys : List Bytes}
    (h : key ∉ keys) :
    callKey (some (iSubkeysWalker host g)) n vDir key part policy (fs, keys) =
      (walkItemOk, fs, keys ++ [key]) := by
  simp only [callKey, iSubkeysWalker, if_pos h, ite_self]

theorem callKey_iSubkeysWalker_fixed {n : ℕ} {vDir key part : Bytes} {keys : List Bytes}
    (hp : policy ≠ .dkReserved) (h : key ∈ keys) :
    callKey (some (iSubkeysWalker host .dkFixed)) n vDir key part policy (fs, keys) =
      (walkItemSkip, (deleteDir host fs vDir).1, keys) := by
  simp only [callKey, iSubkeysWalker, if_neg hp, if_neg (not_not.2 h)]

/-- The walk of `iSubkeys` and one that only records, up to the first duplicate. What `J`
says of the walk's state is to hold from there on. -/
theorem keysPaired_recorder (V : Bytes → Bytes → Option Bytes → Prop) (J : KeyState → Prop)
    (hJ : ∀ n vDir key part st, J st →
      J (callKey (some (iSubkeysWalker host g)) n vDir key part policy st).2)
    (hdup : ∀ {vDir key part pattern items item} {keys : List Bytes} {n}, policy ≠ .dkReserved →
      V vDir part pattern → host.entries fs vDir = .ok items → item ∈ items →
        shown listNormalDirs item.dName → key ∈ keys →
          J (callKey (some (iSubkeysWalker host g)) n vDir key part policy (fs, keys)).2)
    (hpart : ∀ {vDir part pattern items item}, V vDir part pattern →
      host.entries fs vDir = .ok items → item ∈ items → shown listHiddenDirs item.dName →
        V (sdsJoinPathLen vDir item.dName) (part ++ item.dName.tail) pattern)
    (hliteral : ∀ {vDir part pattern c}, V vDir part (some pattern) →
      iterateUtf8Char pattern 6 = .ok c →
        V (sdsJoinPathLen vDir (dot :: pattern.take c.length)) (part ++ pattern.take c.length)
          (some (pattern.drop c.length))) :
    KeysPaired host fs V (some keyRecorder) .dkReserved (some (iSubkeysWalker host g)) policy
      (fun k k' => k' = k ∧ (policy = .dkReserved ∨ k.Nodup)) (fun st => ¬st.2.Nodup) J where
  key := by
    rintro vDir part pattern items item hV he hi hs n _ k ⟨rfl, hk⟩
    by_cases hp : policy = .dkReserved
    · exact Or.inl ⟨walkItemOk, k ++ [part ++ item.dName], k ++ [part ++ item.dName], rfl,
        by simp only [callKey, iSubkeysWalker, if_pos hp], rfl, Or.inl hp⟩
    have hnodup := hk.resolve_left hp
    by_cases hmem : part ++ item.dName ∈ k
    · refine Or.inr ⟨fun h => ?_, hdup hp hV he hi hs hmem⟩
      exact (List.nodup_append.1 h).2.2 _ hmem _ (List.mem_singleton_self _) rfl
    · refine Or.inl ⟨walkItemOk, k ++ [part ++ item.dName], k ++ [part ++ item.dName], rfl,
        callKey_iSubkeysWalker_new hmem, rfl, Or.inr ?_⟩
      rw [List.nodup_append]
      refine ⟨hnodup, List.nodup_singleton _, fun x hx y hy => ?_⟩
      rintro rfl
      exact hmem (List.mem_singleton.1 hy ▸ hx)
  keepsLeft := fun n vDir key part st h hn => h (List.nodup_append.1 hn).1
  keepsRight := hJ
  part := hpart
  literal := hliteral

end

section

variable {host : Host} {fs : FileSystem} {aDir aKey : Bytes} {aPattern : Option Bytes}
  {aSkipCount aCount : ℕ} {policy : TIDBProcesses}

/-- Without a duplicate the walk records. -/
theorem keyWalk_of_nodup (h : policy = .dkReserved ∨
      (metKeys host fs aDir aKey aPattern aSkipCount aCount).Nodup) (g : TIDBProcesses) :
    let r := keyWalk host fs aDir aKey aPattern aSkipCount aCount (some keyRecorder) .dkReserved
    keyWalk host fs aDir aKey aPattern aSkipCount aCount (some (iSubkeysWalker host g)) policy =
      (r.1, r.2.1, r.2.2.1.on (some (iSubkeysWalker host g)) policy, r.2.2.2) := by
  have hpaired : KeysPaired host fs _ _ _ (some (iSubkeysWalker host g)) policy _ _ _ :=
    keysPaired_recorder (fun _ _ _ => True) (fun _ => policy ≠ .dkReserved)
      (fun _ _ _ _ _ h => h) (fun hp _ _ _ _ _ => hp) (fun _ _ _ _ => trivial) fun _ _ => trivial
  rcases keyWalk_pair hpaired aDir aKey aPattern aSkipCount aCount trivial
    ⟨rfl, Or.inr List.nodup_nil⟩ with ⟨a, ⟨r, k⟩, ⟨r', k'⟩, hr, hw, hrec⟩ | ⟨hdup, hp⟩
  · obtain rfl : r' = r.on _ _ := hrec.record
    obtain rfl : k' = k := hrec.keys.1
    rw [hr, hw]
  · exact absurd (h.resolve_left hp.2.2) hdup.2.2

theorem iSubkeyWalk_of_nodup (h : policy = .dkReserved ∨
      (metKeys host fs aDir aKey aPattern aSkipCount aCount).Nodup) (g : TIDBProcesses) :
    iSubkeyWalk host fs aDir aKey aPattern aSkipCount aCount (some (iSubkeysWalker host g)) policy =
      iSubkeyWalk host fs aDir aKey aPattern aSkipCount aCount (some keyRecorder) .dkReserved := by
  rw [iSubkeyWalk, keyWalk_of_nodup h g]
  rfl

/-- A walk returns its record's keys exactly if their part fits. -/
theorem iSubkeyWalk_recorder_iff :
    (∃ r, iSubkeyWalk host fs aDir aKey aPattern aSkipCount aCount (some keyRecorder) .dkReserved =
      some r) ↔ PartFits host fs aDir aKey aPattern aSkipCount aCount := by
  rw [iSubkeyWalk, PartFits, literalPart]
  dsimp only
  split_ifs with h <;> simp [h]

/-- The keys met are what a walk that records them returns. -/
theorem metKeys_of_walk {w : ℤ × KeyState}
    (h : iSubkeyWalk host fs aDir aKey aPattern aSkipCount aCount (some keyRecorder) .dkReserved =
      some w) : metKeys host fs aDir aKey aPattern aSkipCount aCount = w.2.2 := by
  rw [iSubkeyWalk] at h
  dsimp only at h
  split_ifs at h
  rw [metKeys, ← Option.some.inj h]

/-- `iSubkeys` leaves the file system as its walk does. -/
theorem iSubkeys_of_walk {r : Option (List Bytes) × FileSystem} {g : TIDBProcesses}
    (h : iSubkeys host g fs aDir aKey aPattern aSkipCount aCount policy = some r) :
    r.2 = (keyWalk host fs aDir aKey aPattern aSkipCount aCount (some (iSubkeysWalker host g))
      policy).2.1 := by
  obtain ⟨w, hw, rfl⟩ := Option.map_eq_some_iff.1 h
  rw [iSubkeyWalk] at hw
  dsimp only at hw
  split_ifs at hw
  rw [← Option.some.inj hw]

/-- Ignoring duplicates leaves the tree. -/
theorem iSubkeys_ignored {r : Option (List Bytes) × FileSystem}
    (h : iSubkeys host .dkIgnored fs aDir aKey aPattern aSkipCount aCount policy = some r) :
    r.2 = fs := by
  rw [iSubkeys_of_walk h]
  refine (keyWalk_inv (I := fun st => st.1 = fs) (fun n vDir key part st h => ?_) rfl aDir aKey
    aPattern aSkipCount aCount).2.2
  unfold callKey iSubkeysWalker
  dsimp only
  split_ifs <;> exact h

/-- Fixing them does not. -/
theorem iSubkeys_fixed (hp : policy ≠ .dkReserved)
    (h : ¬(metKeys host fs aDir aKey aPattern aSkipCount aCount).Nodup)
    {r : Option (List Bytes) × FileSystem}
    (hr : iSubkeys host .dkFixed fs aDir aKey aPattern aSkipCount aCount policy = some r) :
    Lost fs r.2 := by
  rw [iSubkeys_of_walk hr]
  have hkeep : ∀ n vDir key part (st : KeyState), Lost fs st.1 →
      Lost fs (callKey (some (iSubkeysWalker host .dkFixed)) n vDir key part policy st).2.1 := by
    rintro n vDir key part ⟨fs', keys⟩ hl
    by_cases hmem : key ∈ keys
    · rw [callKey_iSubkeysWalker_fixed hp hmem]
      exact hl.removedOn (deleteDir_frame fs' vDir)
    · rwa [callKey_iSubkeysWalker_new hmem]
  have hdup : ∀ {vDir key part : Bytes} {pattern : Option Bytes} {items item}
      {keys : List Bytes} {n}, policy ≠ .dkReserved → True → host.entries fs vDir = .ok items →
        item ∈ items → shown listNormalDirs item.dName → key ∈ keys →
          Lost fs (callKey (some (iSubkeysWalker host .dkFixed)) n vDir key part policy
            (fs, keys)).2.1 := by
    intro vDir key part pattern items item keys n hp _ he hi hs hmem
    rw [callKey_iSubkeysWalker_fixed hp hmem]
    obtain ⟨l, hat, hg⟩ := at_of_entries he hi hs
    exact deleteDir_lost hat hg
  rcases keyWalk_pair (keysPaired_recorder (fun _ _ _ => True) (fun st => Lost fs st.1) hkeep
    (@hdup) (fun _ _ _ _ => trivial) fun _ _ => trivial) aDir aKey aPattern aSkipCount aCount
    trivial ⟨rfl, Or.inr List.nodup_nil⟩ with ⟨a, u, v, hr, -, hrec⟩ | ⟨-, hl⟩
  · refine absurd ?_ h
    rw [metKeys, hr]
    exact hrec.keys.2.resolve_left hp
  · exact hl.2.2

end

/-! ## The policy alone -/

/-- The global policy changes neither the list nor the tree, and with `dkStopped` the call
fails if a key is met twice. -/
def PolicyDecides (host : Host) (fs : FileSystem) (aDir aKey : Bytes) (aPattern : Option Bytes)
    (aSkipCount aCount : ℕ) (policy : TIDBProcesses) : Prop :=
  (∀ g₁ g₂, ∃ r, iSubkeys host g₁ fs aDir aKey aPattern aSkipCount aCount policy = some r ∧
    iSubkeys host g₂ fs aDir aKey aPattern aSkipCount aCount policy = some r) ∧
  (policy = .dkStopped → ¬(metKeys host fs aDir aKey aPattern aSkipCount aCount).Nodup →
    ∀ g, ∃ fs', iSubkeys host g fs aDir aKey aPattern aSkipCount aCount policy = some (none, fs'))

/-- The policy decides alone exactly if it reserves duplicates or none is met, and the call
returns. -/
theorem policyDecides_iff (host : Host) (fs : FileSystem) (aDir aKey : Bytes)
    (aPattern : Option Bytes) (aSkipCount aCount : ℕ) (policy : TIDBProcesses) :
    PolicyDecides host fs aDir aKey aPattern aSkipCount aCount policy ↔
      (policy = .dkReserved ∨ (metKeys host fs aDir aKey aPattern aSkipCount aCount).Nodup) ∧
        PartFits host fs aDir aKey aPattern aSkipCount aCount := by
  constructor
  · rintro ⟨hsame, -⟩
    have hcond : policy = .dkReserved ∨
        (metKeys host fs aDir aKey aPattern aSkipCount aCount).Nodup := by
      by_contra hcond
      rw [not_or] at hcond
      obtain ⟨r, hfixed, hignored⟩ := hsame .dkFixed .dkIgnored
      obtain ⟨m, hm, hn⟩ := iSubkeys_fixed hcond.1 hcond.2 hfixed
      rw [iSubkeys_ignored hignored] at hn
      exact hm hn
    obtain ⟨r, hr, -⟩ := hsame .dkIgnored .dkIgnored
    obtain ⟨w, hw, -⟩ := Option.map_eq_some_iff.1 hr
    rw [iSubkeyWalk_of_nodup hcond] at hw
    exact ⟨hcond, iSubkeyWalk_recorder_iff.1 ⟨w, hw⟩⟩
  · rintro ⟨hcond, hfits⟩
    obtain ⟨w, hw⟩ := iSubkeyWalk_recorder_iff.2 hfits
    have hcall : ∀ g, iSubkeys host g fs aDir aKey aPattern aSkipCount aCount policy =
        some (if w.1 < 0 then none else some w.2.2, w.2.1) := by
      intro g
      rw [iSubkeys, iSubkeyWalk_of_nodup hcond, hw]
      rfl
    refine ⟨fun g₁ g₂ => ⟨_, hcall g₁, hcall g₂⟩, fun hp hdup => ?_⟩
    subst hp
    exact absurd (hcond.resolve_left (by decide)) hdup

/-- The directories `ab` and `.a/b` of one key. -/
def duplicateTree : FileSystem :=
  rootWith [[slash, 97, 98], [slash, dot, 97, slash, 98]]

/-- Asked to stop at a duplicate, the call stops or goes on as the global policy says. -/
theorem not_policyDecides_duplicate :
    ¬PolicyDecides plainHost duplicateTree [slash] [] none 0 0 .dkStopped := by
  rintro ⟨hsame, -⟩
  obtain ⟨r, h₁, h₂⟩ := hsame .dkStopped .dkIgnored
  have hne : (iSubkeys plainHost .dkStopped duplicateTree [slash] [] none 0 0 .dkStopped).map
      (·.1) ≠ (iSubkeys plainHost .dkIgnored duplicateTree [slash] [] none 0 0 .dkStopped).map
        (·.1) := by decide +kernel
  exact hne (by rw [h₁, h₂])

/-! ## Ignoring duplicates -/

theorem eraseDups_append_singleton (l : List Bytes) (x : Bytes) :
    (l ++ [x]).eraseDups = if x ∈ l then l.eraseDups else l.eraseDups ++ [x] := by
  rw [List.eraseDups_append, List.removeAll]
  split_ifs with h <;> simp [h, List.eraseDups_cons]

/-- A walk that keeps duplicates and one that ignores them : the second list is the first
without repetitions. -/
theorem keysPaired_eraseDups (host : Host) (fs : FileSystem) :
    KeysPaired host fs (fun _ _ _ => True) (some (iSubkeysWalker host .dkIgnored)) .dkReserved
      (some (iSubkeysWalker host .dkIgnored)) .dkIgnored (fun k k' => k' = k.eraseDups)
      (fun _ => False) (fun _ => False) where
  key := by
    rintro vDir part pattern items item - - - - n k _ rfl
    refine Or.inl ⟨walkItemOk, k ++ [part ++ item.dName], _, rfl, ?_,
      (eraseDups_append_singleton k (part ++ item.dName)).symm⟩
    by_cases hmem : part ++ item.dName ∈ k
    · have hmem' : part ++ item.dName ∈ k.eraseDups := List.mem_eraseDups.2 hmem
      simp [callKey, iSubkeysWalker, hmem, hmem']
    · rw [callKey_iSubkeysWalker_new fun h => hmem (List.mem_eraseDups.1 h)]
      simp [hmem]
  keepsLeft := fun _ _ _ _ _ h => h
  keepsRight := fun _ _ _ _ _ h => h
  part := fun _ _ _ _ => trivial
  literal := fun _ _ => trivial

/-- With duplicates ignored the list is the one that keeps them, each key at its first place. -/
def DropsRepetitions (host : Host) (fs : FileSystem) (aDir aKey : Bytes)
    (aPattern : Option Bytes) (aSkipCount aCount : ℕ) : Prop :=
  ∃ l fs₁ fs₂,
    iSubkeys host .dkIgnored fs aDir aKey aPattern aSkipCount aCount .dkReserved = some (l, fs₁) ∧
    iSubkeys host .dkIgnored fs aDir aKey aPattern aSkipCount aCount .dkIgnored =
      some (l.map List.eraseDups, fs₂)

/-- That is so exactly if the key part fits. -/
theorem dropsRepetitions_iff (host : Host) (fs : FileSystem) (aDir aKey : Bytes)
    (aPattern : Option Bytes) (aSkipCount aCount : ℕ) :
    DropsRepetitions host fs aDir aKey aPattern aSkipCount aCount ↔
      PartFits host fs aDir aKey aPattern aSkipCount aCount := by
  have hreserved := @iSubkeyWalk_of_nodup host fs aDir aKey aPattern aSkipCount aCount .dkReserved
    (Or.inl rfl) .dkIgnored
  constructor
  · rintro ⟨l, fs₁, fs₂, hl, -⟩
    obtain ⟨w, hw, -⟩ := Option.map_eq_some_iff.1 hl
    exact iSubkeyWalk_recorder_iff.1 ⟨w, hreserved ▸ hw⟩
  · intro hfits
    obtain ⟨w, hw⟩ := iSubkeyWalk_recorder_iff.2 hfits
    rw [← hreserved] at hw
    rcases keyWalk_pair (keysPaired_eraseDups host fs) aDir aKey aPattern aSkipCount aCount
      trivial rfl with ⟨vCount, ⟨u, k⟩, ⟨v, k'⟩, hr, hi, hrec⟩ | ⟨hfalse, -⟩
    · obtain rfl : v = u.on _ _ := hrec.record
      obtain rfl : k' = k.eraseDups := hrec.keys
      rw [iSubkeyWalk, hr] at hw
      dsimp only at hw
      split_ifs at hw with hpart
      refine ⟨if vCount < 0 then none else some k, fs, fs, ?_, ?_⟩
      · rw [iSubkeys, iSubkeyWalk, hr]
        dsimp only
        rw [if_pos hpart]
        rfl
      · have hpart' : (u.on (some (iSubkeysWalker host .dkIgnored)) .dkIgnored).subkeyPart.length ≤
            subkeyRoom := hpart
        rw [iSubkeys, iSubkeyWalk, hi]
        dsimp only
        rw [if_pos hpart']
        split_ifs with hneg <;> simp [hneg]
    · exact hfalse.2.2.elim

/-- Partitions for eight letters, one in the other. -/
def deepPartitions : FileSystem :=
  rootWith [[slash, dot, 97, slash, dot, 98, slash, dot, 99, slash, dot, 100, slash, dot, 101,
    slash, dot, 102, slash, dot, 103, slash, dot, 104]]

/-- With a ninth letter the key part has moved. -/
theorem not_dropsRepetitions_deep : ¬DropsRepetitions plainHost deepPartitions [slash] []
    (some [97, 98, 99, 100, 101, 102, 103, 104, 105, 42]) 0 0 := by
  rintro ⟨l, fs₁, fs₂, hl, -⟩
  have hnone : (iSubkeys plainHost .dkIgnored deepPartitions [slash] []
      (some [97, 98, 99, 100, 101, 102, 103, 104, 105, 42]) 0 0 .dkReserved).isNone := by
    decide +kernel
  rw [hl] at hnone
  exact absurd hnone (by simp)

end Idb
