import Idb.Subkeys

/-!
# Walks and their processors

What a processor keeps, a walk keeps (`walkDir_inv`, `subkeyWalk_inv`). Two walks whose
processors agree step by step agree, up to the step at which they first part ; what both
keep from there on holds in the end (`walkDir_pair`, `subkeyWalk_pair`).
-/

namespace Idb

open Posix FileSystem

/-! ## What a walk keeps -/

section

variable {U : Type} {aDir : Bytes} {aCount : ℕ} {host : Host} {aPattern : Option Bytes}
  {aOptions : ℕ} {I : FileSystem × U → Prop} {processor : WalkDirHandler U}
  (hI : ∀ n item st, I st → I (processor n aDir item st).2)

include hI

/-- What the processor keeps, one item keeps. -/
theorem processItem_inv (item : Dirent) {w : Walk U} (h : I (w.fs, w.user)) :
    I ((processItem aDir (some processor) item w).1.fs,
      (processItem aDir (some processor) item w).1.user) := by
  have := hI w.vTotal item (w.fs, w.user) h
  unfold processItem
  split_ifs
  · exact h
  · dsimp only
    split_ifs <;> exact this

/-- What the processor keeps, the loop keeps. -/
theorem walkLoop_inv {items : List Dirent} {w : Walk U} (h : I (w.fs, w.user)) :
    I ((walkLoop aDir aCount (some processor) host aPattern aOptions items w).fs,
      (walkLoop aDir aCount (some processor) host aPattern aOptions items w).user) := by
  induction items generalizing w with
  | nil => exact h
  | cons item items ih =>
    have hitem := processItem_inv hI item h
    rw [walkLoop]
    by_cases hstop : w.vStopped ≤ walkItemStop
    · rwa [if_pos hstop]
    rw [if_neg hstop]
    by_cases hshown : ¬shown aOptions item.dName
    · rw [if_pos hshown]
      exact ih h
    rw [if_neg hshown]
    cases itemType w.fs aDir item with
    | none => exact h
    | some type =>
      dsimp only
      by_cases hsel : (typeSelected w.fs aDir aOptions item type &&
          fnmMatched host aPattern item.dName) = true
      · rw [if_pos hsel]
        split_ifs
        · exact ih hitem
        · exact hitem
        · exact ih hitem
      · rw [if_neg hsel]
        simp only [Bool.false_eq_true, if_false]
        split_ifs
        · exact h
        · exact ih h

theorem walkDir_inv (aSkipCount : ℕ) (st : FileSystem × U) (h : I st) :
    I (walkDir aDir aCount (some processor) host aPattern aOptions aSkipCount st).2 := by
  rw [walkDir]
  cases host.entries st.1 aDir with
  | error e => exact h
  | ok items => exact walkLoop_inv hI h

end

/-! ## Two walks side by side -/

/-- Two results agree in the file system `fs`, with states that `S` relates, or the runs
have parted. -/
def Paired {A U V : Type} (fs : FileSystem) (S : U → V → Prop) (I : FileSystem × U → Prop)
    (J : FileSystem × V → Prop) (r : A × (FileSystem × U)) (r' : A × (FileSystem × V)) : Prop :=
  (∃ a u v, r = (a, fs, u) ∧ r' = (a, fs, v) ∧ S u v) ∨ (I r.2 ∧ J r'.2)

/-- The variables of a loop beside its state. -/
def Walk.result {U : Type} (w : Walk U) : (ℕ × ℕ × ℤ) × (FileSystem × U) :=
  ((w.vTotal, w.skipCount, w.vStopped), w.fs, w.user)

section

variable {U V : Type} {aDir : Bytes} {aCount : ℕ} {host : Host} {aPattern : Option Bytes}
  {aOptions : ℕ} {fs : FileSystem} {S : U → V → Prop} {I : FileSystem × U → Prop}
  {J : FileSystem × V → Prop} {p : WalkDirHandler U} {q : WalkDirHandler V}
  (hI : ∀ n item st, I st → I (p n aDir item st).2)
  (hJ : ∀ n item st, J st → J (q n aDir item st).2)

/-- Two processors that go together do so on one item. -/
theorem processItem_pair {item : Dirent} {n s : ℕ} {c : ℤ} {u : U} {v : V} (hS : S u v)
    (hstep : Paired fs S I J (p n aDir item (fs, u)) (q n aDir item (fs, v))) :
    (∃ n' s' c' u' v' next,
      processItem aDir (some p) item ⟨n, s, c, fs, u⟩ = (⟨n', s', c', fs, u'⟩, next) ∧
      processItem aDir (some q) item ⟨n, s, c, fs, v⟩ = (⟨n', s', c', fs, v'⟩, next) ∧ S u' v') ∨
    (I (processItem aDir (some p) item ⟨n, s, c, fs, u⟩).1.result.2 ∧
      J (processItem aDir (some q) item ⟨n, s, c, fs, v⟩).1.result.2) := by
  unfold processItem Walk.result
  split_ifs with hs
  · exact Or.inl ⟨_, _, _, _, _, _, rfl, rfl, hS⟩
  · dsimp only
    rcases hstep with ⟨a, u', v', hp, hq, hS'⟩ | ⟨hi, hj⟩
    · rw [hp, hq]
      dsimp only
      split_ifs <;> exact Or.inl ⟨_, _, _, _, _, _, rfl, rfl, hS'⟩
    · right
      constructor <;> split_ifs <;> assumption

include hI hJ

/-- Two processors that go together do so through the loop. -/
theorem walkLoop_pair {items : List Dirent} {n s : ℕ} {c : ℤ} {u : U} {v : V} (hS : S u v)
    (hstep : ∀ item ∈ items, shown aOptions item.dName → ∀ n u v, S u v →
      Paired fs S I J (p n aDir item (fs, u)) (q n aDir item (fs, v))) :
    Paired fs S I J
      (walkLoop aDir aCount (some p) host aPattern aOptions items ⟨n, s, c, fs, u⟩).result
      (walkLoop aDir aCount (some q) host aPattern aOptions items ⟨n, s, c, fs, v⟩).result := by
  induction items generalizing n s c u v with
  | nil => exact Or.inl ⟨_, _, _, rfl, rfl, hS⟩
  | cons item items ih =>
    have ih' := fun {n s c u v} (hS : S u v) => @ih n s c u v hS fun i hi =>
      hstep i (List.mem_cons_of_mem item hi)
    rw [walkLoop, walkLoop]
    dsimp only
    by_cases hstop : c ≤ walkItemStop
    · rw [if_pos hstop, if_pos hstop]
      exact Or.inl ⟨_, _, _, rfl, rfl, hS⟩
    rw [if_neg hstop, if_neg hstop]
    by_cases hshown : ¬shown aOptions item.dName
    · rw [if_pos hshown, if_pos hshown]
      exact ih' hS
    rw [if_neg hshown, if_neg hshown]
    cases itemType fs aDir item with
    | none => exact Or.inl ⟨_, _, _, rfl, rfl, hS⟩
    | some type =>
      dsimp only
      by_cases hsel : (typeSelected fs aDir aOptions item type &&
          fnmMatched host aPattern item.dName) = true
      · rw [if_pos hsel, if_pos hsel]
        rcases processItem_pair (c := c) hS
          (hstep item List.mem_cons_self (not_not.1 hshown) n u v hS) with
          ⟨n', s', c', u', v', next, hp, hq, hS'⟩ | ⟨hi, hj⟩
        · rw [hp, hq]
          dsimp only
          split_ifs
          · exact ih' hS'
          · exact Or.inl ⟨_, _, _, rfl, rfl, hS'⟩
          · exact ih' hS'
        · right
          constructor
          · split_ifs
            · exact walkLoop_inv hI hi
            · exact hi
            · exact walkLoop_inv hI hi
          · split_ifs
            · exact walkLoop_inv hJ hj
            · exact hj
            · exact walkLoop_inv hJ hj
      · rw [if_neg hsel, if_neg hsel]
        simp only [Bool.false_eq_true, if_false]
        split_ifs
        · exact Or.inl ⟨_, _, _, rfl, rfl, hS⟩
        · exact ih' hS

/-- Two walks through a directory. -/
theorem walkDir_pair (aSkipCount : ℕ) {u : U} {v : V} (hS : S u v)
    (hstep : ∀ items, host.entries fs aDir = .ok items → ∀ item ∈ items,
      shown aOptions item.dName → ∀ n u v, S u v →
        Paired fs S I J (p n aDir item (fs, u)) (q n aDir item (fs, v))) :
    Paired fs S I J (walkDir aDir aCount (some p) host aPattern aOptions aSkipCount (fs, u))
      (walkDir aDir aCount (some q) host aPattern aOptions aSkipCount (fs, v)) := by
  rw [walkDir, walkDir]
  cases he : host.entries fs aDir with
  | error e => exact Or.inl ⟨_, _, _, rfl, rfl, hS⟩
  | ok items =>
    have hloop := @walkLoop_pair _ _ _ aCount host aPattern _ _ _ _ _ _ _ hI hJ items 0
      aSkipCount 0 _ _ hS (hstep items he)
    dsimp only
    rcases hloop with ⟨a, u', v', hp, hq, hS'⟩ | ⟨hi, hj⟩
    · simp only [Walk.result, Prod.mk.injEq] at hp hq
      obtain ⟨rfl, hp⟩ := hp
      obtain ⟨hq₁, hq⟩ := hq
      rw [Prod.mk.injEq, Prod.mk.injEq] at hq₁
      rw [hq₁.2.2, hq₁.1, hp.1, hp.2, hq.1, hq.2]
      exact Or.inl ⟨_, _, _, rfl, rfl, hS'⟩
    · exact Or.inr ⟨hi, hj⟩

end

/-! ## Walks over subkeys -/

/-- Hand a key to the processor, if there is one. -/
def callKey (processor : Option WalkKeyHandler) (n : ℕ) (vDir key part : Bytes)
    (policy : TIDBProcesses) (st : KeyState) : ℤ × KeyState :=
  match processor with
  | none => (walkItemOk, st)
  | some handler => handler n vDir key part policy st

/-- What the walk through the partitions makes of the number of keys found in one. -/
def partitionDone (aRec : TSubkeyWalkerRec) (vCount : ℤ) : ℤ × TSubkeyWalkerRec :=
  if vCount > 0 then
    (if aRec.leftCount > 0 ∧ vCount ≥ aRec.leftCount then walkItemStop else walkItemOk,
      { aRec with count := aRec.count + vCount.toNat })
  else (if vCount < 0 then walkItemError else walkItemOk, aRec)

/-- What a walk over subkeys does with the result of its walk through the normal keys. -/
def walkBelow (host : Host) (walk : Bytes → Bytes → RecState → ℤ × RecState) (vDir : Bytes) :
    ℤ × RecState → ℤ × RecState
  | (result, fs, aRec, keys) =>
    if result ≥ 0 ∧ (aRec.leftCount = 0 ∨ result < aRec.leftCount) then
      let aRec := { aRec with leftCount := sizeSub aRec.leftCount result.toNat }
      match literalPattern aRec.pattern with
      | some pattern =>
        match iterateUtf8Char pattern 6 with
        | .error _ => (-1, fs, aRec, keys)
        | .ok vIndexChar =>
          let vLen := vIndexChar.length
          let aRec := { aRec with
            subkeyPart := aRec.subkeyPart ++ pattern.take vLen
            pattern := some (pattern.drop vLen) }
          let (vCount, st) := walk vDir (dot :: pattern.take vLen) (fs, aRec, keys)
          (result + intOf vCount, st)
      | none =>
        let vRec := { aRec with count := result.toNat }
        let (walked, fs, vRec, keys) := walkDir vDir aRec.leftCount
          (some (subkeyPartitionWalker walk)) host none listHiddenDirs 0 (fs, vRec, keys)
        (if walked ≥ 0 then vRec.count else walked, fs, aRec, keys)
    else (result, fs, aRec, keys)

section

variable {host : Host} {fuel n : ℕ} {aDir aKey vDir : Bytes} {item : Dirent}

theorem _iSubkeyWalk_succ (fs : FileSystem) (aRec : TSubkeyWalkerRec) (keys : List Bytes) :
    _iSubkeyWalk host (fuel + 1) aDir aKey (fs, aRec, keys) =
      walkBelow host (_iSubkeyWalk host fuel) (sdsJoinPathLen aDir aKey)
        (walkDir (sdsJoinPathLen aDir aKey) aRec.leftCount (some (subkeyWalker host)) host
          aRec.pattern listNormalDirs 0 (fs, aRec, keys)) :=
  rfl

section

variable {walk : Bytes → Bytes → RecState → ℤ × RecState} {result : ℤ} {fs : FileSystem}
  {aRec : TSubkeyWalkerRec} {keys : List Bytes}

theorem walkBelow_stop (h : ¬(result ≥ 0 ∧ (aRec.leftCount = 0 ∨ result < aRec.leftCount))) :
    walkBelow host walk vDir (result, fs, aRec, keys) = (result, fs, aRec, keys) :=
  if_neg h

variable (h : result ≥ 0 ∧ (aRec.leftCount = 0 ∨ result < aRec.leftCount))

include h

/-- A pattern that does not start with a character ends the walk with an error. -/
theorem walkBelow_error {pattern : Bytes} {e : ℤ}
    (hlit : literalPattern aRec.pattern = some pattern)
    (hc : iterateUtf8Char pattern 6 = .error e) :
    walkBelow host walk vDir (result, fs, aRec, keys) =
      (-1, fs, { aRec with leftCount := sizeSub aRec.leftCount result.toNat }, keys) := by
  rw [walkBelow, if_pos h]
  dsimp only
  rw [hlit]
  dsimp only
  rw [hc]

/-- A leading literal leads to the partition of its first character. -/
theorem walkBelow_literal {pattern c : Bytes} (hlit : literalPattern aRec.pattern = some pattern)
    (hc : iterateUtf8Char pattern 6 = .ok c) :
    walkBelow host walk vDir (result, fs, aRec, keys) =
      let r := walk vDir (dot :: pattern.take c.length) (fs, { aRec with
        leftCount := sizeSub aRec.leftCount result.toNat
        subkeyPart := aRec.subkeyPart ++ pattern.take c.length
        pattern := some (pattern.drop c.length) }, keys)
      (result + intOf r.1, r.2) := by
  rw [walkBelow, if_pos h]
  dsimp only
  rw [hlit]
  dsimp only
  rw [hc]

/-- Without a leading literal all partitions are walked. -/
theorem walkBelow_partitions (hlit : literalPattern aRec.pattern = none) :
    walkBelow host walk vDir (result, fs, aRec, keys) =
      let r := walkDir vDir (sizeSub aRec.leftCount result.toNat)
        (some (subkeyPartitionWalker walk)) host none listHiddenDirs 0 (fs, { aRec with
          leftCount := sizeSub aRec.leftCount result.toNat
          count := result.toNat }, keys)
      (if r.1 ≥ 0 then (r.2.2.1.count : ℤ) else r.1, r.2.1,
        { aRec with leftCount := sizeSub aRec.leftCount result.toNat }, r.2.2.2) := by
  rw [walkBelow, if_pos h]
  dsimp only
  rw [hlit]

end

/-- The key walker, with its records spelled out. -/
theorem subkeyWalker_eq (fs : FileSystem) (aRec : TSubkeyWalkerRec) (keys : List Bytes) :
    subkeyWalker host n vDir item (fs, aRec, keys) =
      if aRec.subkeyPart ≠ [] ∧ ¬fnmMatched host aRec.pattern item.dName then
        (walkItemSkip, fs, aRec, keys)
      else if aRec.skipCount > 0 then
        (walkItemSkip, fs, { aRec with skipCount := aRec.skipCount - 1 }, keys)
      else
        let r := callKey aRec.processor (aRec.count + n) vDir (aRec.subkeyPart ++ item.dName)
          aRec.subkeyPart aRec.duplicationKeyProcess (fs, keys)
        (r.1, r.2.1, aRec, r.2.2) := by
  rw [subkeyWalker]
  split_ifs
  · rfl
  · rfl
  · cases aRec.processor <;> rfl

end

/-- The partition walker, with its records spelled out. -/
theorem subkeyPartitionWalker_eq {n : ℕ} {vDir : Bytes} {item : Dirent}
    (walk : Bytes → Bytes → RecState → ℤ × RecState) (fs : FileSystem) (aRec : TSubkeyWalkerRec)
    (keys : List Bytes) :
    subkeyPartitionWalker walk n vDir item (fs, aRec, keys) =
      let r := walk vDir item.dName
        (fs, { aRec with subkeyPart := aRec.subkeyPart ++ item.dName.tail }, keys)
      ((partitionDone aRec r.1).1, r.2.1, (partitionDone aRec r.1).2, r.2.2.2) := by
  rw [subkeyPartitionWalker]
  dsimp only [partitionDone]
  split_ifs <;> rfl

section

variable (aRec : TSubkeyWalkerRec) (vCount : ℤ)

@[simp]
theorem partitionDone_processor : (partitionDone aRec vCount).2.processor = aRec.processor := by
  rw [partitionDone]
  split_ifs <;> rfl

@[simp]
theorem partitionDone_policy : (partitionDone aRec vCount).2.duplicationKeyProcess =
    aRec.duplicationKeyProcess := by
  rw [partitionDone]
  split_ifs <;> rfl

@[simp]
theorem partitionDone_subkeyPart :
    (partitionDone aRec vCount).2.subkeyPart = aRec.subkeyPart := by
  rw [partitionDone]
  split_ifs <;> rfl

@[simp]
theorem partitionDone_pattern : (partitionDone aRec vCount).2.pattern = aRec.pattern := by
  rw [partitionDone]
  split_ifs <;> rfl

end

/-- The record has this processor and policy, and the rest of the state is as `I` says. -/
def RecOf (p : Option WalkKeyHandler) (q : TIDBProcesses) (I : KeyState → Prop) (st : RecState) :
    Prop :=
  st.2.1.processor = p ∧ st.2.1.duplicationKeyProcess = q ∧ I (st.1, st.2.2)

section

variable {host : Host} {p : Option WalkKeyHandler} {q : TIDBProcesses} {I : KeyState → Prop}
  {walk : Bytes → Bytes → RecState → ℤ × RecState}

/-- What each call of the processor keeps, the key walker keeps. -/
theorem subkeyWalker_inv (hI : ∀ n vDir key part st, I st → I (callKey p n vDir key part q st).2)
    (vDir : Bytes) (n : ℕ) (item : Dirent) (st : RecState) (h : RecOf p q I st) :
    RecOf p q I (subkeyWalker host n vDir item st).2 := by
  obtain ⟨fs, aRec, keys⟩ := st
  obtain ⟨hp, hq, hst⟩ := h
  dsimp only at hp hq
  rw [subkeyWalker_eq]
  split_ifs
  · exact ⟨hp, hq, hst⟩
  · exact ⟨hp, hq, hst⟩
  · refine ⟨hp, hq, ?_⟩
    dsimp only
    rw [hp, hq]
    exact hI _ _ _ _ _ hst

/-- What the inner walk keeps, the partition walker keeps. -/
theorem subkeyPartitionWalker_inv
    (hw : ∀ aDir aKey st, RecOf p q I st → RecOf p q I (walk aDir aKey st).2)
    (vDir : Bytes) (n : ℕ) (item : Dirent) (st : RecState) (h : RecOf p q I st) :
    RecOf p q I (subkeyPartitionWalker walk n vDir item st).2 := by
  obtain ⟨fs, aRec, keys⟩ := st
  obtain ⟨hp, hq, hst⟩ := h
  have := hw vDir item.dName
    (fs, { aRec with subkeyPart := aRec.subkeyPart ++ item.dName.tail }, keys) ⟨hp, hq, hst⟩
  rw [subkeyPartitionWalker_eq]
  exact ⟨(partitionDone_processor _ _).trans hp, (partitionDone_policy _ _).trans hq, this.2.2⟩

/-- What the inner walk keeps, the walk below a directory keeps. -/
theorem walkBelow_inv (hw : ∀ aDir aKey st, RecOf p q I st → RecOf p q I (walk aDir aKey st).2)
    (vDir : Bytes) (r : ℤ × RecState) (h : RecOf p q I r.2) :
    RecOf p q I (walkBelow host walk vDir r).2 := by
  obtain ⟨result, fs, aRec, keys⟩ := r
  obtain ⟨hp, hq, hst⟩ := h
  by_cases hgo : result ≥ 0 ∧ (aRec.leftCount = 0 ∨ result < aRec.leftCount)
  · cases hlit : literalPattern aRec.pattern with
    | some pattern =>
      cases hc : iterateUtf8Char pattern 6 with
      | error e =>
        rw [walkBelow_error hgo hlit hc]
        exact ⟨hp, hq, hst⟩
      | ok c =>
        rw [walkBelow_literal hgo hlit hc]
        exact hw _ _ _ ⟨hp, hq, hst⟩
    | none =>
      rw [walkBelow_partitions hgo hlit]
      refine ⟨hp, hq, ?_⟩
      exact (walkDir_inv (subkeyPartitionWalker_inv hw vDir) 0 (fs, { aRec with
        leftCount := sizeSub aRec.leftCount result.toNat
        count := result.toNat }, keys) ⟨hp, hq, hst⟩).2.2
  · rw [walkBelow_stop hgo]
    exact ⟨hp, hq, hst⟩

/-- What the processor keeps, the walk keeps. -/
theorem subkeyWalk_inv (hI : ∀ n vDir key part st, I st → I (callKey p n vDir key part q st).2)
    (fuel : ℕ) (aDir aKey : Bytes) (st : RecState) (h : RecOf p q I st) :
    RecOf p q I (_iSubkeyWalk host fuel aDir aKey st).2 := by
  induction fuel generalizing aDir aKey st with
  | zero => exact h
  | succ fuel ih =>
    obtain ⟨fs, aRec, keys⟩ := st
    rw [_iSubkeyWalk_succ]
    exact walkBelow_inv ih _ _ (walkDir_inv (subkeyWalker_inv hI _) 0 _ h)

end

/-! ## Two walks over subkeys -/

/-- The record with another processor and policy. -/
def TSubkeyWalkerRec.on (aRec : TSubkeyWalkerRec) (p : Option WalkKeyHandler) (q : TIDBProcesses) :
    TSubkeyWalkerRec :=
  { aRec with processor := p, duplicationKeyProcess := q }

/-- Two processors agree on keys from directories of which `V` holds, with the key part and
the pattern of the walk there, or part. `V` holds of the partitions of such directories. -/
structure KeysPaired (host : Host) (fs : FileSystem) (V : Bytes → Bytes → Option Bytes → Prop)
    (p : Option WalkKeyHandler) (q : TIDBProcesses) (p' : Option WalkKeyHandler)
    (q' : TIDBProcesses) (K : List Bytes → List Bytes → Prop) (I J : KeyState → Prop) : Prop where
  key : ∀ {vDir part pattern items item}, V vDir part pattern → host.entries fs vDir = .ok items →
    item ∈ items → shown listNormalDirs item.dName → ∀ n k k', K k k' →
      Paired fs K I J (callKey p n vDir (part ++ item.dName) part q (fs, k))
        (callKey p' n vDir (part ++ item.dName) part q' (fs, k'))
  keepsLeft : ∀ n vDir key part st, I st → I (callKey p n vDir key part q st).2
  keepsRight : ∀ n vDir key part st, J st → J (callKey p' n vDir key part q' st).2
  part : ∀ {vDir part pattern items item}, V vDir part pattern →
    host.entries fs vDir = .ok items → item ∈ items → shown listHiddenDirs item.dName →
      V (sdsJoinPathLen vDir item.dName) (part ++ item.dName.tail) pattern
  literal : ∀ {vDir part pattern c}, V vDir part (some pattern) →
    iterateUtf8Char pattern 6 = .ok c →
      V (sdsJoinPathLen vDir (dot :: pattern.take c.length)) (part ++ pattern.take c.length)
        (some (pattern.drop c.length))

/-- Records that differ in processor and policy only, and keys that `K` relates. -/
structure RecPaired (p : Option WalkKeyHandler) (q : TIDBProcesses) (p' : Option WalkKeyHandler)
    (q' : TIDBProcesses) (K : List Bytes → List Bytes → Prop)
    (u v : TSubkeyWalkerRec × List Bytes) : Prop where
  processor : u.1.processor = p
  policy : u.1.duplicationKeyProcess = q
  record : v.1 = u.1.on p' q'
  keys : K u.2 v.2

/-- The key walker with another processor and policy. -/
theorem subkeyWalker_on {host : Host} {n : ℕ} {vDir : Bytes} {item : Dirent} (fs : FileSystem)
    (aRec : TSubkeyWalkerRec) (p : Option WalkKeyHandler) (q : TIDBProcesses) (keys : List Bytes) :
    subkeyWalker host n vDir item (fs, aRec.on p q, keys) =
      if aRec.subkeyPart ≠ [] ∧ ¬fnmMatched host aRec.pattern item.dName then
        (walkItemSkip, fs, aRec.on p q, keys)
      else if aRec.skipCount > 0 then
        (walkItemSkip, fs, { aRec with skipCount := aRec.skipCount - 1 }.on p q, keys)
      else
        let r := callKey p (aRec.count + n) vDir (aRec.subkeyPart ++ item.dName)
          aRec.subkeyPart q (fs, keys)
        (r.1, r.2.1, aRec.on p q, r.2.2) :=
  subkeyWalker_eq fs (aRec.on p q) keys

/-- The end of a partition does not look at processor and policy. -/
theorem partitionDone_on (aRec : TSubkeyWalkerRec) (p : Option WalkKeyHandler)
    (q : TIDBProcesses) (vCount : ℤ) : partitionDone (aRec.on p q) vCount =
      ((partitionDone aRec vCount).1, (partitionDone aRec vCount).2.on p q) := by
  unfold partitionDone
  by_cases h : vCount > 0
  · rw [if_pos h, if_pos h]
    rfl
  · rw [if_neg h, if_neg h]

/-- The partition walker with another processor and policy. -/
theorem subkeyPartitionWalker_on {n : ℕ} {vDir : Bytes} {item : Dirent}
    (walk : Bytes → Bytes → RecState → ℤ × RecState) (fs : FileSystem) (aRec : TSubkeyWalkerRec)
    (p : Option WalkKeyHandler) (q : TIDBProcesses) (keys : List Bytes) :
    subkeyPartitionWalker walk n vDir item (fs, aRec.on p q, keys) =
      let r := walk vDir item.dName
        (fs, { aRec with subkeyPart := aRec.subkeyPart ++ item.dName.tail }.on p q, keys)
      ((partitionDone aRec r.1).1, r.2.1, (partitionDone aRec r.1).2.on p q, r.2.2.2) := by
  rw [subkeyPartitionWalker_eq]
  exact congrArg (fun d : ℤ × TSubkeyWalkerRec => (d.1, _, d.2, _)) (partitionDone_on aRec p q _)

/-- A literal pattern is a pattern. -/
theorem eq_of_literalPattern {pattern : Option Bytes} {pat : Bytes}
    (h : literalPattern pattern = some pat) : pattern = some pat := by
  unfold literalPattern at h
  split at h
  · split_ifs at h
    rw [← h]
  · simp at h

section

variable {host : Host} {fs : FileSystem} {V : Bytes → Bytes → Option Bytes → Prop}
  {p : Option WalkKeyHandler} {q : TIDBProcesses} {p' : Option WalkKeyHandler} {q' : TIDBProcesses}
  {K : List Bytes → List Bytes → Prop} {I J : KeyState → Prop}
  (h : KeysPaired host fs V p q p' q' K I J)

include h

/-- The normal keys of a directory. -/
theorem walkDir_subkeyWalker_pair {vDir : Bytes} (aCount : ℕ) {aRec : TSubkeyWalkerRec}
    {k k' : List Bytes} (hV : V vDir aRec.subkeyPart aRec.pattern)
    (hr : RecPaired p q p' q' K (aRec, k) (aRec.on p' q', k')) :
    Paired fs (fun u v => RecPaired p q p' q' K u v ∧ u.1.subkeyPart = aRec.subkeyPart ∧
        u.1.pattern = aRec.pattern) (RecOf p q I) (RecOf p' q' J)
      (walkDir vDir aCount (some (subkeyWalker host)) host aRec.pattern listNormalDirs 0
        (fs, aRec, k))
      (walkDir vDir aCount (some (subkeyWalker host)) host aRec.pattern listNormalDirs 0
        (fs, aRec.on p' q', k')) := by
  refine walkDir_pair (subkeyWalker_inv h.keepsLeft vDir) (subkeyWalker_inv h.keepsRight vDir) 0
    ⟨hr, rfl, rfl⟩ fun items he item hi hs n u v hS => ?_
  obtain ⟨r, k⟩ := u
  obtain ⟨r', k'⟩ := v
  obtain ⟨⟨hp, hq, hrec, hk⟩, hpart, hpat⟩ := hS
  dsimp only at hp hq hrec hk hpart hpat
  subst hrec
  rw [subkeyWalker_eq, subkeyWalker_on]
  by_cases hm : r.subkeyPart ≠ [] ∧ ¬fnmMatched host r.pattern item.dName
  · rw [if_pos hm, if_pos hm]
    exact Or.inl ⟨_, (r, k), (r.on p' q', k'), rfl, rfl, ⟨hp, hq, rfl, hk⟩, hpart, hpat⟩
  rw [if_neg hm, if_neg hm]
  by_cases hskip : r.skipCount > 0
  · rw [if_pos hskip, if_pos hskip]
    exact Or.inl ⟨_, ({ r with skipCount := r.skipCount - 1 }, k),
      ({ r with skipCount := r.skipCount - 1 }.on p' q', k'), rfl, rfl, ⟨hp, hq, rfl, hk⟩,
      hpart, hpat⟩
  rw [if_neg hskip, if_neg hskip]
  have hkey := h.key hV he hi hs (r.count + n) k k' hk
  simp only [hp, hq, ← hpart] at hkey ⊢
  rcases hkey with ⟨c, k₁, k₁', h₁, h₂, hk'⟩ | hout
  · simp only [h₁, h₂]
    exact Or.inl ⟨_, (r, k₁), (r.on p' q', k₁'), rfl, rfl, ⟨hp, hq, rfl, hk'⟩, rfl, hpat⟩
  · exact Or.inr ⟨⟨hp, hq, hout.1⟩, rfl, rfl, hout.2⟩

omit h in
/-- Its partitions. -/
theorem walkDir_partitionWalker_pair {walk : Bytes → Bytes → RecState → ℤ × RecState}
    (hw : ∀ aDir aKey (aRec : TSubkeyWalkerRec) k k',
      V (sdsJoinPathLen aDir aKey) aRec.subkeyPart aRec.pattern →
      RecPaired p q p' q' K (aRec, k) (aRec.on p' q', k') →
      Paired fs (RecPaired p q p' q' K) (RecOf p q I) (RecOf p' q' J)
        (walk aDir aKey (fs, aRec, k)) (walk aDir aKey (fs, aRec.on p' q', k')))
    (hI : ∀ aDir aKey st, RecOf p q I st → RecOf p q I (walk aDir aKey st).2)
    (hJ : ∀ aDir aKey st, RecOf p' q' J st → RecOf p' q' J (walk aDir aKey st).2)
    {vDir : Bytes} (aCount : ℕ) (aRec : TSubkeyWalkerRec) (k k' : List Bytes)
    (hV : ∀ items, host.entries fs vDir = .ok items → ∀ item ∈ items,
      shown listHiddenDirs item.dName →
        V (sdsJoinPathLen vDir item.dName) (aRec.subkeyPart ++ item.dName.tail) aRec.pattern)
    (hr : RecPaired p q p' q' K (aRec, k) (aRec.on p' q', k')) :
    Paired fs (fun u v => RecPaired p q p' q' K u v ∧ u.1.subkeyPart = aRec.subkeyPart ∧
        u.1.pattern = aRec.pattern) (RecOf p q I) (RecOf p' q' J)
      (walkDir vDir aCount (some (subkeyPartitionWalker walk)) host none listHiddenDirs 0
        (fs, aRec, k))
      (walkDir vDir aCount (some (subkeyPartitionWalker walk)) host none listHiddenDirs 0
        (fs, aRec.on p' q', k')) := by
  refine walkDir_pair (subkeyPartitionWalker_inv hI vDir) (subkeyPartitionWalker_inv hJ vDir) 0
    ⟨hr, rfl, rfl⟩ fun items he item hi hs n u v hS => ?_
  obtain ⟨r, k⟩ := u
  obtain ⟨r', k'⟩ := v
  obtain ⟨⟨hp, hq, hrec, hk⟩, hpart, hpat⟩ := hS
  dsimp only at hp hq hrec hk hpart hpat
  subst hrec
  have hsub := hw vDir item.dName { r with subkeyPart := r.subkeyPart ++ item.dName.tail } k k'
    (by rw [hpart, hpat]; exact hV items he item hi hs) ⟨hp, hq, rfl, hk⟩
  rw [subkeyPartitionWalker_eq, subkeyPartitionWalker_on]
  rcases hsub with ⟨c, u₁, v₁, h₁, h₂, hr'⟩ | hout
  · simp only [h₁, h₂]
    exact Or.inl ⟨_, ((partitionDone r c).2, u₁.2), ((partitionDone r c).2.on p' q', v₁.2), rfl,
      rfl, ⟨(partitionDone_processor r c).trans hp, (partitionDone_policy r c).trans hq, rfl,
        hr'.keys⟩, (partitionDone_subkeyPart r c).trans hpart,
      (partitionDone_pattern r c).trans hpat⟩
  · exact Or.inr ⟨⟨(partitionDone_processor r _).trans hp, (partitionDone_policy r _).trans hq,
      hout.1.2.2⟩, rfl, rfl, hout.2.2.2⟩

/-- Two walks over subkeys with processors that are paired. -/
theorem subkeyWalk_pair (fuel : ℕ) (aDir aKey : Bytes) (aRec : TSubkeyWalkerRec)
    (k₀ k₀' : List Bytes) (hV : V (sdsJoinPathLen aDir aKey) aRec.subkeyPart aRec.pattern)
    (hr : RecPaired p q p' q' K (aRec, k₀) (aRec.on p' q', k₀')) :
    Paired fs (RecPaired p q p' q' K) (RecOf p q I) (RecOf p' q' J)
      (_iSubkeyWalk host fuel aDir aKey (fs, aRec, k₀))
      (_iSubkeyWalk host fuel aDir aKey (fs, aRec.on p' q', k₀')) := by
  induction fuel generalizing aDir aKey aRec k₀ k₀' with
  | zero => exact Or.inl ⟨_, _, _, rfl, rfl, hr⟩
  | succ fuel ih =>
    have hI := @subkeyWalk_inv host _ _ _ h.keepsLeft fuel
    have hJ := @subkeyWalk_inv host _ _ _ h.keepsRight fuel
    rw [_iSubkeyWalk_succ, _iSubkeyWalk_succ]
    rcases walkDir_subkeyWalker_pair h aRec.leftCount hV hr with
      ⟨result, ⟨r, k⟩, ⟨r', k'⟩, h₁, h₂, ⟨⟨hp, hq, hrec, hk⟩, hpart, hpat⟩⟩ | hout
    · dsimp only at hp hq hrec hk hpart hpat
      subst hrec
      have h₂' : walkDir (sdsJoinPathLen aDir aKey) (aRec.on p' q').leftCount
          (some (subkeyWalker host)) host (aRec.on p' q').pattern listNormalDirs 0
          (fs, aRec.on p' q', k₀') = (result, fs, r.on p' q', k') := h₂
      rw [h₁, h₂']
      have hV' : V (sdsJoinPathLen aDir aKey) r.subkeyPart r.pattern := by rwa [hpart, hpat]
      by_cases hgo : result ≥ 0 ∧ (r.leftCount = 0 ∨ result < r.leftCount)
      · cases hlit : literalPattern r.pattern with
        | some pattern =>
          rw [eq_of_literalPattern hlit] at hV'
          cases hc : iterateUtf8Char pattern 6 with
          | error e =>
            rw [walkBelow_error hgo hlit hc,
              @walkBelow_error host _ _ _ _ (r.on p' q') k' hgo _ _ hlit hc]
            exact Or.inl ⟨_, (_, k), (_, k'), rfl, rfl, ⟨hp, hq, rfl, hk⟩⟩
          | ok c =>
            rw [walkBelow_literal hgo hlit hc,
              @walkBelow_literal host _ _ _ _ (r.on p' q') k' hgo _ _ hlit hc]
            have hsub := ih (sdsJoinPathLen aDir aKey) (dot :: pattern.take c.length)
              { r with
                leftCount := sizeSub r.leftCount result.toNat
                subkeyPart := r.subkeyPart ++ pattern.take c.length
                pattern := some (pattern.drop c.length) } k k' (h.literal hV' hc) ⟨hp, hq, rfl, hk⟩
            dsimp only [TSubkeyWalkerRec.on] at hsub ⊢
            rcases hsub with ⟨a, u₁, v₁, h₃, h₄, hr'⟩ | hout
            · rw [h₃, h₄]
              exact Or.inl ⟨_, _, _, rfl, rfl, hr'⟩
            · exact Or.inr hout
        | none =>
          rw [walkBelow_partitions hgo hlit,
            @walkBelow_partitions host _ _ _ _ (r.on p' q') k' hgo hlit]
          have hsub := walkDir_partitionWalker_pair ih hI hJ
            (sizeSub r.leftCount result.toNat)
            { r with
              leftCount := sizeSub r.leftCount result.toNat
              count := result.toNat } k k' (fun _ he _ hi hs => h.part hV' he hi hs)
            ⟨hp, hq, rfl, hk⟩
          dsimp only [TSubkeyWalkerRec.on] at hsub ⊢
          rcases hsub with ⟨a, u₁, v₁, h₃, h₄, hr', -⟩ | hout
          · have hcount : v₁.1.count = u₁.1.count := by rw [hr'.record]; rfl
            rw [h₃, h₄]
            dsimp only
            rw [hcount]
            exact Or.inl ⟨_, (_, u₁.2), (_, v₁.2), rfl, rfl, ⟨hp, hq, rfl, hr'.keys⟩⟩
          · exact Or.inr ⟨⟨hp, hq, hout.1.2.2⟩, rfl, rfl, hout.2.2.2⟩
      · rw [walkBelow_stop hgo, @walkBelow_stop host _ _ _ _ (r.on p' q') k' hgo]
        exact Or.inl ⟨_, (r, k), (r.on p' q', k'), rfl, rfl, ⟨hp, hq, rfl, hk⟩⟩
    · exact Or.inr ⟨walkBelow_inv hI _ _ hout.1, walkBelow_inv hJ _ _ hout.2⟩

/-- Two processors that go together do so through the whole walk. -/
theorem keyWalk_pair (aDir aKey : Bytes) (aPattern : Option Bytes) (aSkipCount aCount : ℕ)
    (hV : V (sdsJoinPathLen aDir aKey) [] aPattern) (hK : K [] []) :
    Paired fs (RecPaired p q p' q' K) (RecOf p q I) (RecOf p' q' J)
      (keyWalk host fs aDir aKey aPattern aSkipCount aCount p q)
      (keyWalk host fs aDir aKey aPattern aSkipCount aCount p' q') :=
  subkeyWalk_pair h (walkFuel fs.tree aPattern) aDir aKey
    ⟨aPattern, [], 0, aCount, aSkipCount, p, q⟩ [] [] hV ⟨rfl, rfl, rfl, hK⟩

end

/-- What the processor keeps, the walk keeps. -/
theorem keyWalk_inv {host : Host} {fs : FileSystem} {p : Option WalkKeyHandler}
    {q : TIDBProcesses} {I : KeyState → Prop}
    (hI : ∀ n vDir key part st, I st → I (callKey p n vDir key part q st).2) (h : I (fs, []))
    (aDir aKey : Bytes) (aPattern : Option Bytes) (aSkipCount aCount : ℕ) :
    RecOf p q I (keyWalk host fs aDir aKey aPattern aSkipCount aCount p q).2 :=
  subkeyWalk_inv hI (walkFuel fs.tree aPattern) aDir aKey
    (fs, ⟨aPattern, [], 0, aCount, aSkipCount, p, q⟩, []) ⟨rfl, rfl, h⟩

theorem walkFuel_succ (t : FileTree Xattrs) (aPattern : Option Bytes) :
    ∃ fuel, walkFuel t aPattern = fuel + 1 :=
  Nat.exists_eq_succ_of_ne_zero (Nat.mul_ne_zero (by omega) (by omega))

/-! ## The key part -/

section

variable {host : Host} {fs : FileSystem} {aRec : TSubkeyWalkerRec} {keys : List Bytes}

/-- The keys of a directory leave the key part and the pattern. -/
theorem walkDir_subkeyWalker_part (vDir : Bytes) (aCount : ℕ) :
    let r := walkDir vDir aCount (some (subkeyWalker host)) host aRec.pattern listNormalDirs 0
      (fs, aRec, keys)
    r.2.2.1.subkeyPart = aRec.subkeyPart ∧ r.2.2.1.pattern = aRec.pattern := by
  refine walkDir_inv (I := fun st : RecState => st.2.1.subkeyPart = aRec.subkeyPart ∧
    st.2.1.pattern = aRec.pattern) (fun n item st hst => ?_) 0 (fs, aRec, keys) ⟨rfl, rfl⟩
  obtain ⟨fs, aRec, keys⟩ := st
  rw [subkeyWalker_eq]
  split_ifs <;> exact hst

/-- Without literal characters the key part stays. -/
theorem subkeyWalk_part (h : literalPattern aRec.pattern = none) (fuel : ℕ) (aDir aKey : Bytes) :
    (_iSubkeyWalk host fuel aDir aKey (fs, aRec, keys)).2.2.1.subkeyPart = aRec.subkeyPart := by
  cases fuel with
  | zero => rfl
  | succ fuel =>
    have hpart := @walkDir_subkeyWalker_part host fs aRec keys (sdsJoinPathLen aDir aKey)
      aRec.leftCount
    rw [_iSubkeyWalk_succ]
    dsimp only at hpart
    generalize walkDir (sdsJoinPathLen aDir aKey) aRec.leftCount (some (subkeyWalker host)) host
      aRec.pattern listNormalDirs 0 (fs, aRec, keys) = r at hpart ⊢
    obtain ⟨result, fs, aRec', keys⟩ := r
    by_cases hgo : result ≥ 0 ∧ (aRec'.leftCount = 0 ∨ result < aRec'.leftCount)
    · rw [walkBelow_partitions hgo ((congrArg _ hpart.2).trans h)]
      exact hpart.1
    · rw [walkBelow_stop hgo]
      exact hpart.1

/-- Without a pattern the walk returns. -/
theorem iSubkeyWalk_none (aDir aKey : Bytes) (aSkipCount aCount : ℕ) (p : Option WalkKeyHandler)
    (q : TIDBProcesses) :
    iSubkeyWalk host fs aDir aKey none aSkipCount aCount p q =
      let r := keyWalk host fs aDir aKey none aSkipCount aCount p q
      some (r.1, r.2.1, r.2.2.2) := by
  have hpart := @subkeyWalk_part host fs ⟨none, [], 0, aCount, aSkipCount, p, q⟩ [] rfl
    (walkFuel fs.tree none) aDir aKey
  rw [iSubkeyWalk]
  dsimp only [keyWalk] at hpart ⊢
  rw [hpart]
  rfl

end

end Idb
