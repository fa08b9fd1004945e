import Idb.Counters

/-!
# Integers as attributes

`iPutInt` stores the text of a number and `iGetInt` reads it back, but it gives 0 if there is
anything in `errno` then, and nobody has cleared it. So a number that was stored is read back
exactly if neither an earlier call nor a path tried in vain has left an error there
(`intsSurvive_iff`). The store type is `STORE_IN_FILE` throughout.
-/

namespace Idb

open Posix FileSystem FileTree Numerals

/-! ## The functions -/

/-- `ERANGE`. -/
def erange : ℤ :=
  34

section

variable (host : Host) (iDBMaxPageCount : ℤ) (iDBPartitionFullProcess : TIDBProcesses)
  (s : Process) (aDir aKey : Bytes)

/-- `errno` after `iGet`. -/
def iGetErrno (aAttribute : Option Bytes) : ℤ :=
  let vDir := sdsJoinPathLen aDir aKey
  let errno := getDirValueErrno s.fs vDir aAttribute s.errno
  if (getDirValue host s.fs vDir aAttribute).isNone ∧ iDBMaxPageCount > 0 then
    let errno := iIsKeyDirExistsErrno s.fs vDir
    match iIsKeyDirExists s.fs vDir with
    | some vDir => getDirValueErrno s.fs vDir aAttribute errno
    | none => errno
  else errno

/-- The number that is stored, and 0 if there is an error. -/
def iGetInt (aAttribute : Option Bytes) : Process × ℤ :=
  let errno := iGetErrno host iDBMaxPageCount s aDir aKey aAttribute
  match iGet host iDBMaxPageCount s.fs aDir aKey aAttribute storeInFile with
  | none => (⟨s.fs, errno⟩, 0)
  | some text =>
    let (result, outOfRange) := strtoll text
    let errno := if outOfRange then erange else errno
    (⟨s.fs, errno⟩, if errno ≠ 0 then 0 else result)

/-- `errno` after `iPut`. -/
def iPutErrno (aValue : Bytes) (aAttribute : Option Bytes) : ℤ :=
  let vDir := sdsJoinPathLen aDir aKey
  let errno :=
    if iDBMaxPageCount > 0 then
      iFindKeyDirToPutErrno host s.fs vDir iDBMaxPageCount iDBPartitionFullProcess
    else s.errno
  match putDir host iDBMaxPageCount s.fs aDir iDBPartitionFullProcess (some aKey) with
  | .error _ => errno
  | .ok vDir =>
    let errno := statErrno s.fs vDir errno
    let result := directoryExists s.fs vDir
    if result = pathIsNotExists then
      setDirValueErrno (forceDirectories s.fs vDir).1 vDir aValue aAttribute
        (forceDirectoriesErrno s.fs vDir errno)
    else if result = pathIsDir then setDirValueErrno s.fs vDir aValue aAttribute errno
    else errno

/-- The number is put as a text. -/
def iPutInt (aValue : ℤ) (aAttribute : Option Bytes) : Process × ℤ :=
  let text := decimalText aValue
  let result := iPut host iDBMaxPageCount s.fs aDir iDBPartitionFullProcess (some aKey) text
    aAttribute storeInFile
  let errno := iPutErrno host iDBMaxPageCount iDBPartitionFullProcess s aDir aKey text aAttribute
  (⟨result.1, errno⟩, result.2)

/-- Whether the number could be stored is not looked at. -/
def iIncrBy (aValue : ℤ) (aAttribute : Option Bytes) : Process × ℤ :=
  let (s, old) := iGetInt host iDBMaxPageCount s aDir aKey aAttribute
  let result := addInt64 old aValue
  ((iPutInt host iDBMaxPageCount iDBPartitionFullProcess s aDir aKey result aAttribute).1, result)

/-- The number is taken down by 1. -/
def iDecr (aAttribute : Option Bytes) : Process × ℤ :=
  iIncrBy host iDBMaxPageCount iDBPartitionFullProcess s aDir aKey (-1) aAttribute

/-- The number is taken up by 1. -/
def iIncr (aAttribute : Option Bytes) : Process × ℤ :=
  iIncrBy host iDBMaxPageCount iDBPartitionFullProcess s aDir aKey 1 aAttribute

end

/-! ## Reading -/

/-- The attribute of the directory at `path` is a regular file. -/
def HasFile (fs : FileSystem) (path : Bytes) (aAttribute : Option Bytes) : Prop :=
  ∃ v x, fs.stat (makeAttrFileName path aAttribute) = .ok (.file v x)

/-- A read of the attribute leaves `errno` 0 : the file is at the plain path and `errno` was 0, or
the search in the partitions finds it and tries no path in vain. -/
def ReadsClean (host : Host) (s : Process) (vDir : Bytes) (aAttribute : Option Bytes) : Prop :=
  (HasFile s.fs vDir aAttribute ∧ s.errno = 0) ∨
    (getDirValue host s.fs vDir aAttribute = none ∧ ∃ i p, 0 < i ∧ triedPath vDir i = some p ∧
      iIsKeyDirExists s.fs vDir = some p ∧ HasFile s.fs p aAttribute ∧ TriedExist s.fs vDir i)

section

variable {host : Host} {M : ℤ} {s : Process} {aDir aKey path v : Bytes} {a : Option Bytes}
  {errno : ℤ}

/-- A read leaves `errno` zero when it was zero and the path names a file. -/
theorem getDirValueErrno_eq_zero (h : getDirValue host s.fs path a = some v) :
    getDirValueErrno s.fs path a errno = 0 ↔ HasFile s.fs path a ∧ errno = 0 := by
  rw [getDirValue] at h
  rw [getDirValueErrno, HasFile]
  split at h
  · next content x hs =>
    rw [hs]
    simp
  · next x hs =>
    rw [hs]
    simp [errnoCode_ne_zero]
  · simp at h

theorem not_hasFile {fs : FileSystem} (h : getDirValue host fs path a = none) :
    ¬HasFile fs path a := by
  rintro ⟨v, x, hs⟩
  simp [getDirValue, hs] at h

/-- What a read that finds something leaves. -/
theorem iGetErrno_eq_zero (h : iGet host M s.fs aDir aKey a storeInFile = some v) :
    iGetErrno host M s aDir aKey a = 0 ↔ ReadsClean host s (sdsJoinPathLen aDir aKey) a := by
  simp only [iGet, _iGet_storeInFile] at h
  rw [iGetErrno, ReadsClean]
  cases hplain : getDirValue host s.fs (sdsJoinPathLen aDir aKey) a with
  | some w =>
    simp only [Option.isNone_some, Bool.false_eq_true, false_and, if_false, reduceCtorEq, or_false]
    exact getDirValueErrno_eq_zero hplain
  | none =>
    have hnot := not_hasFile hplain
    simp only [hplain] at h
    split_ifs at h with hM
    cases hp : iIsKeyDirExists s.fs (sdsJoinPathLen aDir aKey) with
    | none => simp [hp] at h
    | some p =>
      simp only [hp] at h
      obtain ⟨i, hi, htried, he⟩ := iIsKeyDirExistsErrno_eq hp
      simp only [Option.isNone_none, hM, and_self, if_true, hnot, false_and, false_or, true_and,
        Option.some.injEq]
      rw [getDirValueErrno_eq_zero h, he]
      constructor
      · rintro ⟨hf, hall⟩
        exact ⟨i, p, hi, htried, rfl, hf, hall⟩
      · rintro ⟨j, q, -, hj, rfl, hf, hall⟩
        exact ⟨hf, triedPath_inj htried hj ▸ hall⟩

/-- A number that is stored is read exactly if the read is clean or the number is 0. -/
theorem iGetInt_iff {n : ℤ} (hlo : -2 ^ 63 ≤ n) (hhi : n < 2 ^ 63)
    (h : iGet host M s.fs aDir aKey a storeInFile = some (decimalText n)) :
    (iGetInt host M s aDir aKey a).2 = n ↔
      n = 0 ∨ ReadsClean host s (sdsJoinPathLen aDir aKey) a := by
  rw [← iGetErrno_eq_zero h, iGetInt]
  simp only [h, strtoll_decimalText hlo hhi, Bool.false_eq_true, if_false]
  split_ifs with he
  · simp [he, eq_comm]
  · simp only [not_not.1 he, or_true]

end

/-! ## Storing -/

/-- The paths lead to the same place. -/
def SamePlace (fs : FileSystem) (path path' : Bytes) : Prop :=
  ∃ l, fs.resolve true path = .ok l ∧ fs.resolve true path' = .ok l

/-- What a put to the directory `vDir` stores can be read : the directory was there and no error is
left, or the place is in the partitions and no path is tried in vain on the way to it. A path that
leads to the file of the attribute itself is not in vain. -/
def PutClean (iDBMaxPageCount : ℤ) (s : Process) (path vDir : Bytes) (aAttribute : Option Bytes) :
    Prop :=
  (directoryExists s.fs path = pathIsDir ∧ (iDBMaxPageCount > 0 ∨ s.errno = 0)) ∨
    (vDir ≠ path ∧ ∃ i, 0 < i ∧ triedPath path i = some vDir ∧
      ∀ j, 0 < j → j < i → ∀ q ∈ triedPath path j, directoryExists s.fs q ≠ pathIsNotExists ∨
        SamePlace (withDir s.fs vDir) q (makeAttrFileName vDir aAttribute))

section

variable {host : Host} {M : ℤ} {policy : TIDBProcesses} {s : Process} {fs fs' : FileSystem}
  {aDir aKey vDir path v : Bytes} {a : Option Bytes} {errno : ℤ}

/-- A put that returns 0 has written the file in the directory it chose. -/
theorem iPut_written (hput : putDir host M fs aDir policy (some aKey) = .ok vDir)
    (hok : (iPut host M fs aDir policy (some aKey) v a storeInFile).2 = 0) :
    directoryExists fs vDir ≠ pathIsFile ∧
      (setDirValue (withDir fs vDir) vDir v a).2 = true ∧
      (iPut host M fs aDir policy (some aKey) v a storeInFile).1 =
        (setDirValue (withDir fs vDir) vDir v a).1 := by
  rw [← iPutWith_none] at hok ⊢
  rcases iPutWith_ok hput v a storeInFile with ⟨-, he⟩ | ⟨hfile, he⟩
  · rw [he] at hok
    exact absurd (show pathIsFile = 0 from hok) (by decide)
  · have hput : _iPutWith Faults.none (withDir fs vDir) vDir v a storeInFile =
        _iPut (withDir fs vDir) vDir v a storeInFile := rfl
    rw [he, hput, _iPut_storeInFile] at hok ⊢
    refine ⟨hfile, ?_, rfl⟩
    by_contra hnot
    simp [hnot] at hok

theorem hasFile_written (h : (setDirValue fs path v a).2 = true) :
    HasFile (setDirValue fs path v a).1 path a := by
  obtain ⟨x, hx⟩ := stat_written (write_of_setDirValue h)
  exact ⟨v, x, hx⟩

theorem getDirValue_written (host : Host) (h : (setDirValue fs path v a).2 = true) :
    getDirValue host (setDirValue fs path v a).1 path a = some v := by
  obtain ⟨x, hx⟩ := stat_written (write_of_setDirValue h)
  rw [getDirValue, hx]

/-! ## What a put leaves in errno -/

theorem putDir_of_dir (h : directoryExists fs (sdsJoinPathLen aDir aKey) = pathIsDir) :
    putDir host M fs aDir policy (some aKey) = .ok (sdsJoinPathLen aDir aKey) := by
  simp only [putDir, Option.getD_some, iFindKeyDirToPut, if_pos h, ite_self]

/-- On a key that is there a put leaves `errno` as it was, unless a page limit resets it. -/
theorem iPutErrno_of_dir (h : directoryExists s.fs (sdsJoinPathLen aDir aKey) = pathIsDir)
    (hok : (setDirValue s.fs (sdsJoinPathLen aDir aKey) v a).2 = true) :
    iPutErrno host M policy s aDir aKey v a = if M > 0 then 0 else s.errno := by
  have hmiss : directoryExists s.fs (sdsJoinPathLen aDir aKey) ≠ pathIsNotExists := by
    rw [h]
    decide
  rw [iPutErrno, putDir_of_dir h]
  dsimp only
  rw [if_neg hmiss, if_pos h, setDirValueErrno_of_ok hok, statErrno_of_dir h,
    iFindKeyDirToPutErrno_of_dir h]

/-- If there was nothing at the plain path, an error is left when the key is put there. -/
theorem iPutErrno_ne_zero
    (hput : putDir host M s.fs aDir policy (some aKey) = .ok (sdsJoinPathLen aDir aKey))
    (h : directoryExists s.fs (sdsJoinPathLen aDir aKey) = pathIsNotExists)
    (hok : (setDirValue (withDir s.fs (sdsJoinPathLen aDir aKey)) (sdsJoinPathLen aDir aKey) v
      a).2 = true) :
    iPutErrno host M policy s aDir aKey v a ≠ 0 := by
  rw [iPutErrno, hput]
  dsimp only
  rw [withDir, if_pos h] at hok
  rw [if_pos h, setDirValueErrno_of_ok hok]
  exact forceDirectoriesErrno_ne_zero (statErrno_of_missing h)

/-! ## Reading what was stored -/

/-- A put to the plain path. -/
theorem put_plain (hput : putDir host M s.fs aDir policy (some aKey) =
      .ok (sdsJoinPathLen aDir aKey))
    (hok : (iPut host M s.fs aDir policy (some aKey) v a storeInFile).2 = 0) :
    iGet host M (iPut host M s.fs aDir policy (some aKey) v a storeInFile).1 aDir aKey a
        storeInFile = some v ∧
      (ReadsClean host ⟨(iPut host M s.fs aDir policy (some aKey) v a storeInFile).1,
          iPutErrno host M policy s aDir aKey v a⟩ (sdsJoinPathLen aDir aKey) a ↔
        PutClean M s (sdsJoinPathLen aDir aKey) (sdsJoinPathLen aDir aKey) a) := by
  obtain ⟨hfile, hset, he⟩ := iPut_written hput hok
  have hread := getDirValue_written host hset
  have hhas := hasFile_written hset
  rw [he]
  refine ⟨by simp only [iGet, _iGet_storeInFile, hread], ?_⟩
  simp only [ReadsClean, PutClean, hhas, hread, true_and, reduceCtorEq, false_and, or_false,
    ne_eq, not_true_eq_false]
  by_cases hdir : directoryExists s.fs (sdsJoinPathLen aDir aKey) = pathIsDir
  · have hwith : withDir s.fs (sdsJoinPathLen aDir aKey) = s.fs := by
      rw [withDir, if_neg (by rw [hdir]; decide)]
    rw [hwith] at hset
    rw [iPutErrno_of_dir hdir hset]
    by_cases hM : M > 0 <;> simp [hdir, hM]
  · have hmiss := ((directoryExists_cases s.fs (sdsJoinPathLen aDir aKey)).resolve_right
      fun h => h.elim hdir hfile)
    simp [hdir, iPutErrno_ne_zero hput hmiss hset]

/-- What there is at a path of the key before the place that was written to : what was there, or
the file of the attribute itself. -/
theorem tried_written {D k r ns' r'} {i j : ℕ} {ns : List Name}
    (h : PutBehind s.fs D k i ns r)
    (hlinks : ∀ j ns r, levelAt k j = some (ns, r) → ¬Dangling s.fs (keyDir D ns r)) (hj : j < i)
    (hl' : levelAt k j = some (ns', r'))
    (hset : (setDirValue (withDir s.fs (keyDir D ns r)) (keyDir D ns r) v a).2 = true) :
    directoryExists (setDirValue (withDir s.fs (keyDir D ns r)) (keyDir D ns r) v a).1
        (keyDir D ns' r') ≠ pathIsNotExists ↔
      directoryExists s.fs (keyDir D ns' r') ≠ pathIsNotExists ∨
        SamePlace (withDir s.fs (keyDir D ns r)) (keyDir D ns' r')
          (makeAttrFileName (keyDir D ns r) a) := by
  obtain ⟨l, hres, hfile⟩ := write_ok (write_of_setDirValue hset)
  simp only [directoryExists_ne_missing, stat_eq_ok]
  constructor
  · rintro ⟨n, m, hm', hg⟩
    rw [hfile.shape.resolve_iff] at hm'
    by_cases hml : m = l
    · exact Or.inr ⟨l, hml ▸ hm', hres⟩
    · rw [hfile.updated, if_neg hml] at hg
      obtain hstat := h.stat hlinks hj hl' (stat_eq_ok.2 ⟨m, hm', hg⟩)
      exact Or.inl ⟨n, stat_eq_ok.1 hstat⟩
  · rintro (⟨n, hn⟩ | ⟨m, hm', hres'⟩)
    · obtain ⟨m, hm', hg⟩ := stat_eq_ok.1 ((withDir_made s.fs (keyDir D ns r)).stat_ok
        (stat_eq_ok.2 hn))
      by_cases hml : m = l
      · exact ⟨_, l, hfile.shape.resolve_iff.2 (hml ▸ hm'), by rw [hfile.updated, if_pos rfl]⟩
      · exact ⟨n, m, hfile.shape.resolve_iff.2 hm', by rw [hfile.updated, if_neg hml, hg]⟩
    · rw [hres, Except.ok.injEq] at hres'
      exact ⟨_, l, hfile.shape.resolve_iff.2 (hres' ▸ hm'), by rw [hfile.updated, if_pos rfl]⟩

/-- A put to the partitions. -/
theorem put_partition {D k r : Bytes} {i : ℕ} {ns : List Name} (hM : M > 0)
    (hP : sdsJoinPathLen aDir aKey = joinName D k) (hD : D ≠ []) (h : PutBehind s.fs D k i ns r)
    (hlinks : ∀ j ns r, levelAt k j = some (ns, r) → ¬Dangling s.fs (keyDir D ns r))
    (hput : putDir host M s.fs aDir policy (some aKey) = .ok (keyDir D ns r))
    (hok : (iPut host M s.fs aDir policy (some aKey) v a storeInFile).2 = 0) :
    iGet host M (iPut host M s.fs aDir policy (some aKey) v a storeInFile).1 aDir aKey a
        storeInFile = some v ∧
      (ReadsClean host ⟨(iPut host M s.fs aDir policy (some aKey) v a storeInFile).1, errno⟩
          (sdsJoinPathLen aDir aKey) a ↔
        PutClean M s (sdsJoinPathLen aDir aKey) (keyDir D ns r) a) := by
  obtain ⟨hfile, hset, he⟩ := iPut_written hput hok
  have hread := getDirValue_written host hset
  have hhas := hasFile_written hset
  have hwritten : _iPutWith Faults.none (withDir s.fs (keyDir D ns r)) (keyDir D ns r) v a
      storeInFile = ((setDirValue (withDir s.fs (keyDir D ns r)) (keyDir D ns r) v a).1, 0) := by
    have hput' : _iPutWith Faults.none (withDir s.fs (keyDir D ns r)) (keyDir D ns r) v a
      storeInFile = _iPut (withDir s.fs (keyDir D ns r)) (keyDir D ns r) v a storeInFile := rfl
    rw [hput', _iPut_storeInFile, if_pos hset]
  have hdone : (_iPutWith Faults.none (withDir s.fs (keyDir D ns r)) (keyDir D ns r) v a
      storeInFile).2 = 0 := by rw [hwritten]
  obtain ⟨hnot, hfound⟩ := h.found_written hD hlinks hfile hdone
  rw [hwritten, ← hP] at hnot hfound
  have htried : ∀ j ns' r', levelAt k j = some (ns', r') →
      triedPath (joinName D k) j = some (keyDir D ns' r') :=
    fun j ns' r' hl => triedPath_joinName hD h.component.1 h.component.2.1 hl
  rw [← hP] at htried
  have hne : sdsJoinPathLen aDir aKey ≠ [] := hP ▸ joinName_ne_nil hD
  have hlast : (sdsJoinPathLen aDir aKey).getLast? ≠ some slash :=
    hP ▸ getLast?_joinName h.component
  have hplain := getDirValue_behind (a := a) host hne hlast hnot
  rw [he]
  refine ⟨by simp only [iGet, _iGet_storeInFile, hplain, if_pos hM, hfound, hread], ?_⟩
  have hnodir : directoryExists s.fs (sdsJoinPathLen aDir aKey) ≠ pathIsDir :=
    hP ▸ ((missed_iff (levelAt_zero k)).1 (h.missed 0 h.pos)).2
  have hother : keyDir D ns r ≠ sdsJoinPathLen aDir aKey := by
    intro heq
    have hzero := htried 0 [] k (levelAt_zero k)
    rw [keyDir_nil, ← hP, ← heq] at hzero
    exact h.pos.ne' (triedPath_inj (heq ▸ htried i ns r h.level) hzero)
  have hall : TriedExist (setDirValue (withDir s.fs (keyDir D ns r)) (keyDir D ns r) v a).1
      (sdsJoinPathLen aDir aKey) i ↔ ∀ j, 0 < j → j < i → ∀ q ∈ triedPath (sdsJoinPathLen aDir
        aKey) j, directoryExists s.fs q ≠ pathIsNotExists ∨
          SamePlace (withDir s.fs (keyDir D ns r)) q (makeAttrFileName (keyDir D ns r) a) := by
    refine forall_congr' fun j => forall_congr' fun _ => forall_congr' fun hj => ?_
    obtain ⟨ns', r', hl'⟩ := levelAt_of_le hj.le h.level
    rw [htried j ns' r' hl']
    simp only [Option.mem_def, Option.some.injEq, forall_eq']
    exact tried_written h hlinks hj hl' hset
  simp only [ReadsClean, PutClean, not_hasFile hplain, hplain, hnodir, hother, hfound,
    false_and, false_or, true_and, ne_eq, not_false_eq_true, Option.some.injEq]
  constructor
  · rintro ⟨j, p, hj, hp, rfl, -, hex⟩
    refine ⟨j, hj, hp, ?_⟩
    obtain rfl := triedPath_inj hp (htried i ns r h.level)
    exact hall.1 hex
  · rintro ⟨j, hj, hp, hex⟩
    obtain rfl := triedPath_inj hp (htried i ns r h.level)
    exact ⟨j, _, hj, hp, rfl, hhas, hall.2 hex⟩

end

/-! ## Runs of calls -/

/-- A number that an `int64_t` holds. -/
def InInt64 (n : ℤ) : Prop :=
  -2 ^ 63 ≤ n ∧ n < 2 ^ 63

/-- A call on the attribute (`iIncr` and `iDecr` add 1 and -1), or a read of any attribute. -/
inductive IntCall
  | incr (aValue : ℤ)
  | read (aDir aKey : Bytes) (aAttribute : Option Bytes)
  | readInt (aDir aKey : Bytes) (aAttribute : Option Bytes)

section

variable (host : Host) (iDBMaxPageCount : ℤ) (iDBPartitionFullProcess : TIDBProcesses)
  (aDir aKey : Bytes) (aAttribute : Option Bytes)

/-- A place for the key is found, the put to it succeeds, and no path of the key is a symbolic
link that leads nowhere. -/
structure CanPut (fs : FileSystem) (aValue : Bytes) : Prop where
  slashed : iDBMaxPageCount > 0 → (sdsJoinPathLen aDir aKey).getLast? = some slash →
    directoryExists fs (sdsJoinPathLen aDir aKey) = pathIsDir
  links : ∀ path, KeyPath (sdsJoinPathLen aDir aKey) path → ¬Dangling fs path
  found : ∃ vDir, putDir host iDBMaxPageCount fs aDir iDBPartitionFullProcess (some aKey) = .ok vDir
  done : (iPut host iDBMaxPageCount fs aDir iDBPartitionFullProcess (some aKey) aValue aAttribute
    storeInFile).2 = 0

/-- The number that is stored, 0 if there is none. -/
def StoredInt (fs : FileSystem) (v : ℤ) : Prop :=
  iGet host iDBMaxPageCount fs aDir aKey aAttribute storeInFile = some (decimalText v) ∨
    v = 0 ∧ iGet host iDBMaxPageCount fs aDir aKey aAttribute storeInFile = none

/-- The state after a call. -/
def IntCall.apply (s : Process) : IntCall → Process
  | incr n =>
    (iIncrBy host iDBMaxPageCount iDBPartitionFullProcess s aDir aKey n aAttribute).1
  | read aDir aKey aAttribute => ⟨s.fs, iGetErrno host iDBMaxPageCount s aDir aKey aAttribute⟩
  | readInt aDir aKey aAttribute => (iGetInt host iDBMaxPageCount s aDir aKey aAttribute).1

/-- No sum overflows, and every sum can be put when it is reached. -/
def SumsFit : ℤ → Process → List IntCall → Prop
  | _, _, [] => True
  | v, s, .incr n :: calls =>
    InInt64 (v + n) ∧ CanPut host iDBMaxPageCount iDBPartitionFullProcess aDir aKey aAttribute s.fs
      (decimalText (v + n)) ∧ SumsFit (v + n) (IntCall.apply host iDBMaxPageCount
        iDBPartitionFullProcess aDir aKey aAttribute s (.incr n)) calls
  | v, s, call :: calls =>
    SumsFit v (call.apply host iDBMaxPageCount iDBPartitionFullProcess aDir aKey aAttribute s) calls

/-- Each increment returns the previous value plus its increment. -/
def CountsFrom : ℤ → Process → List IntCall → Prop
  | _, _, [] => True
  | v, s, .incr n :: calls =>
    (iIncrBy host iDBMaxPageCount iDBPartitionFullProcess s aDir aKey n aAttribute).2 = v + n ∧
      CountsFrom (v + n) (IntCall.apply host iDBMaxPageCount iDBPartitionFullProcess aDir aKey
        aAttribute s (.incr n)) calls
  | v, s, call :: calls =>
    CountsFrom v (call.apply host iDBMaxPageCount iDBPartitionFullProcess aDir aKey aAttribute s)
      calls

/-- At each increment the previous value is 0 or is read without an error in `errno`. -/
def CleanRun : ℤ → Process → List IntCall → Prop
  | _, _, [] => True
  | v, s, .incr n :: calls =>
    (v = 0 ∨ ReadsClean host s (sdsJoinPathLen aDir aKey) aAttribute) ∧
      CleanRun (v + n) (IntCall.apply host iDBMaxPageCount iDBPartitionFullProcess aDir aKey
        aAttribute s (.incr n)) calls
  | v, s, call :: calls =>
    CleanRun v (call.apply host iDBMaxPageCount iDBPartitionFullProcess aDir aKey aAttribute s)
      calls

end

section

variable {host : Host} {M : ℤ} {policy : TIDBProcesses} {s : Process} {aDir aKey vDir v : Bytes}
  {a : Option Bytes} {m n : ℤ}

/-- What a put stored, and when it is read without an error. -/
theorem put_read (hpol : policy = .dkIgnored ∨ policy = .dkStopped)
    (h0 : 0 ∉ sdsJoinPathLen aDir aKey) (hcan : CanPut host M policy aDir aKey a s.fs v)
    (hput : putDir host M s.fs aDir policy (some aKey) = .ok vDir) :
    iGet host M (iPut host M s.fs aDir policy (some aKey) v a storeInFile).1 aDir aKey a
        storeInFile = some v ∧
      (ReadsClean host ⟨(iPut host M s.fs aDir policy (some aKey) v a storeInFile).1,
          iPutErrno host M policy s aDir aKey v a⟩ (sdsJoinPathLen aDir aKey) a ↔
        PutClean M s (sdsJoinPathLen aDir aKey) vDir a) := by
  rcases putDir_place hpol h0 hcan.slashed hput with
    rfl | ⟨hM, D, k, i, ns, r, hP, hD, rfl, h, -⟩
  · exact put_plain hput hcan.done
  · exact put_partition hM hP hD h
      (fun j ns r hl => hcan.links _ ⟨D, k, j, ns, r, hP, hD, h.component, hl, rfl⟩) hput hcan.done

theorem iGetInt_fs : (iGetInt host M s aDir aKey a).1.fs = s.fs := by
  rw [iGetInt]
  dsimp only
  split <;> rfl

theorem iGetInt_stored (hm : InInt64 m) (h : StoredInt host M aDir aKey a s.fs m) :
    (iGetInt host M s aDir aKey a).2 = m ↔
      m = 0 ∨ ReadsClean host s (sdsJoinPathLen aDir aKey) a := by
  rcases h with h | ⟨rfl, h⟩
  · exact iGetInt_iff hm.1 hm.2 h
  · simp [iGetInt, h]

/-- A stored number is read as itself or as zero. -/
theorem iGetInt_cases (hm : InInt64 m) (h : StoredInt host M aDir aKey a s.fs m) :
    (iGetInt host M s aDir aKey a).2 = 0 ∨ (iGetInt host M s aDir aKey a).2 = m := by
  rcases h with h | ⟨rfl, h⟩
  · simp only [iGetInt, h, strtoll_decimalText hm.1 hm.2, Bool.false_eq_true, if_false]
    split_ifs
    · exact Or.inl rfl
    · exact Or.inr rfl
  · simp [iGetInt, h]

/-- The sum is right exactly if the number was. -/
theorem addInt64_iff {g : ℤ} (hg : g = 0 ∨ g = m) (hm : InInt64 m) (hn : InInt64 (m + n)) :
    addInt64 g n = m + n ↔ g = m := by
  obtain ⟨hm₁, hm₂⟩ := hm
  obtain ⟨hn₁, hn₂⟩ := hn
  rw [addInt64, Int.bmod_def]
  push_cast
  omega

/-- One increment. -/
theorem iIncrBy_iff (policy : TIDBProcesses) (hm : InInt64 m) (hn : InInt64 (m + n))
    (h : StoredInt host M aDir aKey a s.fs m) :
    (iIncrBy host M policy s aDir aKey n a).2 = m + n ↔
      m = 0 ∨ ReadsClean host s (sdsJoinPathLen aDir aKey) a := by
  rw [← iGetInt_stored hm h]
  exact addInt64_iff (iGetInt_cases hm h) hm hn

/-- After an increment that returned the right sum, that is what is stored. -/
theorem stored_incr (hpol : policy = .dkIgnored ∨ policy = .dkStopped)
    (h0 : 0 ∉ sdsJoinPathLen aDir aKey)
    (hcan : CanPut host M policy aDir aKey a s.fs (decimalText (m + n)))
    (h : (iIncrBy host M policy s aDir aKey n a).2 = m + n) :
    StoredInt host M aDir aKey a (iIncrBy host M policy s aDir aKey n a).1.fs (m + n) := by
  obtain ⟨vDir, hput⟩ := hcan.found
  refine Or.inl ?_
  have hread := (put_read hpol h0 hcan hput).1
  have hfs : (iIncrBy host M policy s aDir aKey n a).1.fs = (iPut host M s.fs aDir policy
      (some aKey) (decimalText (iIncrBy host M policy s aDir aKey n a).2) a storeInFile).1 := by
    simp only [iIncrBy, iPutInt, iGetInt_fs]
  rw [hfs, h, hread]

/-- A run counts exactly if each increment starts with a clean read. -/
theorem countsFrom_iff (hpol : policy = .dkIgnored ∨ policy = .dkStopped)
    (h0 : 0 ∉ sdsJoinPathLen aDir aKey) {calls : List IntCall} (hm : InInt64 m)
    (h : StoredInt host M aDir aKey a s.fs m) (hfit : SumsFit host M policy aDir aKey a m s calls) :
    CountsFrom host M policy aDir aKey a m s calls ↔
      CleanRun host M policy aDir aKey a m s calls := by
  induction calls generalizing m s with
  | nil => exact Iff.rfl
  | cons call calls ih =>
    cases call with
    | incr n =>
      obtain ⟨hn, hcan, hfit⟩ := hfit
      have hstep := iIncrBy_iff policy hm hn h
      rw [CountsFrom, CleanRun, ← hstep]
      refine and_congr_right fun hsum => ih hn ?_ hfit
      exact stored_incr hpol h0 hcan hsum
    | read => exact ih hm h hfit
    | readInt =>
      refine ih hm ?_ hfit
      rw [IntCall.apply, iGetInt_fs]
      exact h

end

/-- A number that was put is read back, and the increments of a run count, exactly if it is read
without an error in `errno` or is 0. -/
theorem intsSurvive_iff (host : Host) (iDBMaxPageCount : ℤ)
    (iDBPartitionFullProcess : TIDBProcesses) (aDir aKey : Bytes) (aAttribute : Option Bytes)
    (hpol : iDBPartitionFullProcess = .dkIgnored ∨ iDBPartitionFullProcess = .dkStopped)
    (h0 : 0 ∉ sdsJoinPathLen aDir aKey) :
    (∀ (s : Process) (v : ℤ) (vDir : Bytes), InInt64 v →
      putDir host iDBMaxPageCount s.fs aDir iDBPartitionFullProcess (some aKey) = .ok vDir →
      CanPut host iDBMaxPageCount iDBPartitionFullProcess aDir aKey aAttribute s.fs
        (decimalText v) →
      ((iGetInt host iDBMaxPageCount (iPutInt host iDBMaxPageCount iDBPartitionFullProcess s aDir
          aKey v aAttribute).1 aDir aKey aAttribute).2 = v ↔
        v = 0 ∨ PutClean iDBMaxPageCount s (sdsJoinPathLen aDir aKey) vDir aAttribute)) ∧
    ∀ (s : Process) (v : ℤ) (calls : List IntCall), InInt64 v →
      StoredInt host iDBMaxPageCount aDir aKey aAttribute s.fs v →
      SumsFit host iDBMaxPageCount iDBPartitionFullProcess aDir aKey aAttribute v s calls →
      (CountsFrom host iDBMaxPageCount iDBPartitionFullProcess aDir aKey aAttribute v s calls ↔
        CleanRun host iDBMaxPageCount iDBPartitionFullProcess aDir aKey aAttribute v s calls) := by
  refine ⟨fun s v vDir hv hput hcan => ?_, fun s v calls hv h hfit =>
    countsFrom_iff hpol h0 hv h hfit⟩
  obtain ⟨hget, hclean⟩ := put_read hpol h0 hcan hput
  rw [← hclean]
  exact iGetInt_iff hv.1 hv.2 hget

/-- A new key. -/
theorem intsSurvive_iff_newKey :
    ((iGetInt plainHost 0 (iPutInt plainHost 0 .dkIgnored ⟨rootWith [], 0⟩ [slash] [97] 5
        none).1 [slash] [97] none).2 = 5 ↔
      (5 : ℤ) = 0 ∨ PutClean 0 ⟨rootWith [], 0⟩ [slash, 97] [slash, 97] none) ∧
    (CountsFrom plainHost 0 .dkIgnored [slash] [97] none 0 ⟨rootWith [], 0⟩
        [.read [slash] [98] none, .incr 5] ↔
      CleanRun plainHost 0 .dkIgnored [slash] [97] none 0 ⟨rootWith [], 0⟩
        [.read [slash] [98] none, .incr 5]) := by
  have hlinks : ∀ path, KeyPath [slash, 97] path → ¬Dangling (rootWith []) path := by
    rintro path - ⟨⟨target, ht⟩, -⟩
    obtain ⟨l, -, hg⟩ := lstat_eq_ok.1 ht
    exact noLink_rootWith [] l target hg
  have hcan : CanPut plainHost 0 .dkIgnored [slash] [97] none (rootWith []) (decimalText 5) :=
    ⟨by decide, hlinks, ⟨_, rfl⟩, by decide +kernel⟩
  have hmain := intsSurvive_iff plainHost 0 .dkIgnored [slash] [97] none (Or.inl rfl) (by decide)
  refine ⟨hmain.1 ⟨rootWith [], 0⟩ 5 [slash, 97] ⟨by decide, by decide⟩ rfl hcan,
    hmain.2 ⟨rootWith [], 0⟩ 0 _ ⟨by decide, by decide⟩ (Or.inr ⟨rfl, by decide +kernel⟩)
      ⟨⟨by decide, by decide⟩, hcan, trivial⟩⟩

/-- The number 5 is put to a new key, and 0 is read. -/
theorem not_intsSurvive_newKey :
    (iPutInt plainHost 0 .dkIgnored ⟨rootWith [], 0⟩ [slash] [97] 5 none).2 = 0 ∧
      (iGetInt plainHost 0 (iPutInt plainHost 0 .dkIgnored ⟨rootWith [], 0⟩ [slash] [97] 5
        none).1 [slash] [97] none).2 ≠ 5 := by
  decide +kernel

end Idb
