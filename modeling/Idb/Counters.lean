import Idb.Errno
import Idb.Numerals
import Idb.PutReads

/-!
# Counters in files

`IncrByDirValue` reads the number in the file of an attribute and writes a new one. It reads to
the end of the file and writes there, so the file holds the texts of all numbers that the calls
returned, one after the other (`incrByDirValues_content`). `iIncrByInFile` hands a NULL pointer to
`ForceDirectories` before it comes to that.
-/

namespace Idb

open Posix FileSystem FileTree Numerals

/-! ## The functions -/

/-- The sum in 64 bits. -/
def addInt64 (m n : ℤ) : ℤ :=
  (m + n).bmod (2 ^ 64)

/-- `open` for reading and writing with creation : the state, and the content of the file. -/
def openFile (fs : FileSystem) (path : Bytes) : Except Errno (FileSystem × Bytes) :=
  match fs.stat path with
  | .ok (.file content _) => .ok (fs, content)
  | .ok _ => .error .eisdir
  | .error _ => (fs.write path []).map fun fs => (fs, [])

/-- The old text is read over the path in its buffer, which ends as far behind the path as the
text is long. `heap` is what the memory behind the path holds. -/
def numberBuffer (vFile content heap : Bytes) : Bytes :=
  (content ++ (vFile ++ 0 :: heap).drop content.length).take (vFile.length + content.length)

/-- The number in a file is read, and the sum is written behind it, where the file offset is. -/
def incrByDirValue (heap : Bytes) (s : Process) (aDir : Bytes) (aValue : ℤ)
    (aAttribute : Option Bytes) : Process × ℤ :=
  let vFile := makeAttrFileName aDir aAttribute
  match openFile s.fs vFile with
  | .error e => (⟨s.fs, errnoCode e⟩, 0)
  | .ok (fs, content) =>
    let (old, errno) :=
      if content = [] then (0, s.errno)
      else
        let (old, outOfRange) := strtoll (numberBuffer vFile content heap)
        if s.errno ≠ 0 ∨ outOfRange then (0, 0) else (old, s.errno)
    let result := addInt64 old aValue
    -- the file offset is at the end
    match fs.write vFile (content ++ decimalText result) with
    | .ok fs => (⟨fs, errno⟩, result)
    | .error e => (⟨fs, errnoCode e⟩, result)

/-- `EFAULT`, the error of a system call on a NULL path. -/
def efault : ℤ :=
  14

/-- `DirectoryExists` on a pointer. -/
def pointerExists (s : Process) : Option Bytes → Process × ℤ
  | none => (⟨s.fs, efault⟩, pathIsNotExists)
  | some path => (⟨s.fs, statErrno s.fs path s.errno⟩, directoryExists s.fs path)

/-- `ForceDirectories` on a pointer. It copies the string, and does not return if there is
none. -/
def forcePointer (s : Process) : Option Bytes → Option Process
  | none => none
  | some path => some ⟨(forceDirectories s.fs path).1, forceDirectoriesErrno s.fs path s.errno⟩

section

variable (host : Host) (iDBMaxPageCount : ℤ)

/-- The state and the result, if the call returns. `vDir` is NULL at the start, and the result
goes through an `int`. -/
def iIncrByInFile (heap : Bytes) (s : Process) (aKeyPath : Bytes) (aValue : ℤ)
    (aAttribute : Option Bytes) (aPartitionFullProcess : TIDBProcesses) : Option (Process × ℤ) :=
  let vDir : Option Bytes := none
  let (found, errno) : Except ℤ (Option Bytes) × ℤ :=
    match vDir with
    | none => (.ok vDir, s.errno)
    | some path =>
      if iDBMaxPageCount > 0 then
        ((iFindKeyDirToPut host s.fs path iDBMaxPageCount aPartitionFullProcess).map some,
          iFindKeyDirToPutErrno host s.fs path iDBMaxPageCount aPartitionFullProcess)
      else (.ok vDir, s.errno)
  match found with
  | .error e => some (⟨s.fs, errno⟩, e)
  | .ok vDir =>
    let (s, result) := pointerExists ⟨s.fs, errno⟩ vDir
    if result = pathIsFile then some (s, result)
    else
      match if result = pathIsNotExists then forcePointer s vDir else some s with
      | none => none
      | some s =>
        let (s, result) := incrByDirValue heap s (vDir.getD aKeyPath) aValue aAttribute
        some (s, result.bmod (2 ^ 32))

end

/-! ## Runs of calls -/

/-- The states after the calls and their results. Each call has its increment, and what its
memory holds. -/
def incrByDirValues (aDir : Bytes) (aAttribute : Option Bytes) :
    Process → List (ℤ × Bytes) → List (Process × ℤ)
  | _, [] => []
  | s, call :: calls =>
    let r := incrByDirValue call.2 s aDir call.1 aAttribute
    r :: incrByDirValues aDir aAttribute r.1 calls

/-- The run ends with a call that does not return. -/
def iIncrByInFiles (host : Host) (iDBMaxPageCount : ℤ) (aKeyPath : Bytes)
    (aAttribute : Option Bytes) (aPartitionFullProcess : TIDBProcesses) :
    Process → List (ℤ × Bytes) → List (Process × ℤ)
  | _, [] => []
  | s, call :: calls =>
    match iIncrByInFile host iDBMaxPageCount call.2 s aKeyPath call.1 aAttribute
      aPartitionFullProcess with
    | none => []
    | some r =>
      r :: iIncrByInFiles host iDBMaxPageCount aKeyPath aAttribute aPartitionFullProcess r.1 calls

/-- Every call returns the sum of the increments so far, and leaves its text as the whole content
of the file. -/
def CountsUp (host : Host) (aDir : Bytes) (aAttribute : Option Bytes) (rs : List (Process × ℤ))
    (ns : List ℤ) : Prop :=
  ∀ i < ns.length, ∃ r, rs[i]? = some r ∧ r.2 = (ns.take (i + 1)).sum ∧
    getDirValue host r.1.fs aDir aAttribute = some (decimalText (ns.take (i + 1)).sum)

/-! ## Files that are written -/

section

variable {fs fs' : FileSystem} {path v w : Bytes} {x : Xattrs}

theorem stat_written (h : fs.write path w = .ok fs') : ∃ x, fs'.stat path = .ok (.file w x) := by
  obtain ⟨l, hl, hset⟩ := write_ok h
  exact ⟨_, stat_eq_ok.2 ⟨l, hset.shape.resolve_iff.2 hl, by rw [hset.updated, if_pos rfl]⟩⟩

/-- A file can be written. -/
theorem write_file (h : fs.stat path = .ok (.file v x)) (w : Bytes) :
    ∃ fs', fs.write path w = .ok fs' := by
  obtain ⟨l, hl, hg⟩ := stat_eq_ok.1 h
  have hdir : fs.tree.isDir l = false := by simp [FileTree.isDir, hg, Node.isDir]
  have hlink : fs.tree.NoLink l := fun target ht => by simp [hg] at ht
  cases l with
  | nil =>
    obtain ⟨y, hy⟩ := fs.tree.root
    rw [FileTree.get, hy] at hg
    simp at hg
  | cons c p =>
    obtain ⟨t', ht'⟩ := writeFile_eq (fun _ => none) w (fs.tree.named c p _ hg)
      (isDir_of_get_cons hg) hdir hlink
    exact ⟨_, modify_eq hl ht'⟩

theorem openFile_file (h : fs.stat path = .ok (.file v x)) : openFile fs path = .ok (fs, v) := by
  rw [openFile, h]

/-- Opening a missing file creates it. -/
theorem openFile_missing (h : ∀ n, fs.stat path ≠ .ok n) (hw : fs.write path [] = .ok fs') :
    openFile fs path = .ok (fs', []) := by
  rw [openFile]
  cases hs : fs.stat path with
  | ok n => exact absurd hs (h n)
  | error e =>
    simp only [hw]
    rfl

/-- A file that is opened is there afterwards. -/
theorem openFile_ok (h : openFile fs path = .ok (fs', v)) :
    ∃ x, fs'.stat path = .ok (.file v x) := by
  rw [openFile] at h
  split at h
  · next content x hs =>
    rw [Except.ok.injEq, Prod.mk.injEq] at h
    exact ⟨x, h.1 ▸ h.2 ▸ hs⟩
  · simp at h
  · cases hw : fs.write path [] with
    | error e =>
      rw [hw] at h
      simp [Except.map] at h
    | ok fs'' =>
      rw [hw] at h
      simp only [Except.map, Except.ok.injEq, Prod.mk.injEq] at h
      rw [← h.1, ← h.2]
      exact stat_written hw

end

/-! ## The file grows -/

section

variable {s : Process} {aDir content : Bytes} {a : Option Bytes} {fs : FileSystem}

/-- A call writes the text of its result behind what the file held. -/
theorem incrByDirValue_appends (heap : Bytes) (n : ℤ)
    (h : openFile s.fs (makeAttrFileName aDir a) = .ok (fs, content)) :
    ∃ x, (incrByDirValue heap s aDir n a).1.fs.stat (makeAttrFileName aDir a) =
      .ok (.file (content ++ decimalText (incrByDirValue heap s aDir n a).2) x) := by
  obtain ⟨x, hx⟩ := openFile_ok h
  unfold incrByDirValue
  simp only [h]
  generalize (if content = [] then ((0 : ℤ), s.errno)
    else if s.errno ≠ 0 ∨ (strtoll (numberBuffer (makeAttrFileName aDir a) content heap)).2 then
      (0, 0)
    else ((strtoll (numberBuffer (makeAttrFileName aDir a) content heap)).1, s.errno)) = old
  obtain ⟨fs', hw⟩ := write_file hx (content ++ decimalText (addInt64 old.1 n))
  simp only [hw]
  exact stat_written hw

/-- What a call returns that finds nothing in the file. -/
theorem incrByDirValue_empty (heap : Bytes) (n : ℤ)
    (h : openFile s.fs (makeAttrFileName aDir a) = .ok (fs, [])) :
    (incrByDirValue heap s aDir n a).2 = addInt64 0 n := by
  unfold incrByDirValue
  simp only [h, if_true]
  split <;> rfl

/-- After each call of a run the file holds what it held before the run, and the texts of all
results up to then. -/
theorem incrByDirValues_content {calls : List (ℤ × Bytes)} {i : ℕ} {r : Process × ℤ}
    (h : openFile s.fs (makeAttrFileName aDir a) = .ok (fs, content))
    (hr : (incrByDirValues aDir a s calls)[i]? = some r) :
    ∃ x, r.1.fs.stat (makeAttrFileName aDir a) = .ok (.file (content ++
      ((incrByDirValues aDir a s calls).take (i + 1)).flatMap fun r => decimalText r.2) x) := by
  induction calls generalizing s fs content i with
  | nil => simp [incrByDirValues] at hr
  | cons call calls ih =>
    have happ := incrByDirValue_appends call.2 call.1 h
    rw [incrByDirValues] at hr ⊢
    generalize incrByDirValue call.2 s aDir call.1 a = first at hr happ ⊢
    obtain ⟨x, hx⟩ := happ
    rw [List.take_succ_cons, List.flatMap_cons, ← List.append_assoc]
    cases i with
    | zero =>
      rw [List.getElem?_cons_zero, Option.some.injEq] at hr
      exact ⟨x, by rw [← hr, hx, List.take_zero, List.flatMap_nil, List.append_nil]⟩
    | succ i =>
      rw [List.getElem?_cons_succ] at hr
      exact ih (openFile_file hx) hr

end

/-- The call never returns : nothing comes between the NULL and its use. -/
theorem iIncrByInFile_eq_none (host : Host) (M : ℤ) (heap : Bytes) (s : Process)
    (path : Bytes) (n : ℤ) (a : Option Bytes) (policy : TIDBProcesses) :
    iIncrByInFile host M heap s path n a policy = none :=
  rfl

theorem iIncrByInFiles_cons (host : Host) (M : ℤ) (s : Process) (path : Bytes) (a : Option Bytes)
    (policy : TIDBProcesses) (call : ℤ × Bytes) (calls : List (ℤ × Bytes)) :
    iIncrByInFiles host M path a policy s (call :: calls) = [] := by
  rw [iIncrByInFiles, iIncrByInFile_eq_none]

theorem addInt64_zero {n : ℤ} (hlo : -2 ^ 63 ≤ n) (hhi : n < 2 ^ 63) : addInt64 0 n = n := by
  rw [addInt64, zero_add, Int.bmod_eq_of_le (by omega) (by omega)]

/-- The first call of a run counts right. -/
theorem countsUp_first (host : Host) {s : Process} {aDir : Bytes} {a : Option Bytes}
    {fs : FileSystem} {call : ℤ × Bytes} (hlo : -2 ^ 63 ≤ call.1) (hhi : call.1 < 2 ^ 63)
    (h : openFile s.fs (makeAttrFileName aDir a) = .ok (fs, [])) :
    CountsUp host aDir a (incrByDirValues aDir a s [call]) [call.1] := by
  intro i hi
  obtain rfl : i = 0 := Nat.lt_one_iff.1 hi
  have hresult := incrByDirValue_empty call.2 call.1 h
  rw [addInt64_zero hlo hhi] at hresult
  obtain ⟨x, hx⟩ := incrByDirValue_appends call.2 call.1 h
  refine ⟨incrByDirValue call.2 s aDir call.1 a, rfl, by simpa using hresult, ?_⟩
  rw [getDirValue, hx, hresult]
  simp

/-- `IncrByDirValue` counts up in runs of at most one call, `iIncrByInFile` in none. -/
theorem countsUp_iff (host : Host) (iDBMaxPageCount : ℤ) (aPartitionFullProcess : TIDBProcesses)
    (s : Process) (aDir aKeyPath : Bytes) (aAttribute : Option Bytes) (calls : List (ℤ × Bytes))
    (hmissing : ∀ n, s.fs.stat (makeAttrFileName aDir aAttribute) ≠ .ok n)
    (hcreate : ∃ fs, s.fs.write (makeAttrFileName aDir aAttribute) [] = .ok fs)
    (hrange : ∀ i ≤ calls.length, -2 ^ 63 ≤ ((calls.map Prod.fst).take i).sum ∧
      ((calls.map Prod.fst).take i).sum < 2 ^ 63) :
    (CountsUp host aDir aAttribute (incrByDirValues aDir aAttribute s calls)
        (calls.map Prod.fst) ↔ calls.length ≤ 1) ∧
      ((∃ vDir, CountsUp host vDir aAttribute (iIncrByInFiles host iDBMaxPageCount aKeyPath
        aAttribute aPartitionFullProcess s calls) (calls.map Prod.fst)) ↔ calls = []) := by
  obtain ⟨fs, hw⟩ := hcreate
  have hopen := openFile_missing hmissing hw
  cases calls with
  | nil =>
    have hnone : ∀ dir rs, CountsUp host dir aAttribute rs [] :=
      fun dir rs i hi => absurd hi (Nat.not_lt_zero i)
    exact ⟨iff_of_true (hnone _ _) (Nat.zero_le 1), iff_of_true ⟨[], hnone _ _⟩ rfl⟩
  | cons call calls =>
    refine ⟨?_, iff_of_false ?_ (by simp)⟩
    · cases calls with
      | nil =>
        obtain ⟨hlo, hhi⟩ := hrange 1 le_rfl
        simp only [List.map_cons, List.map_nil, List.take_succ_cons, List.take_zero, List.sum_cons,
          List.sum_nil, add_zero] at hlo hhi
        exact iff_of_true (countsUp_first host hlo hhi hopen) le_rfl
      | cons call' calls =>
        refine iff_of_false (fun h => ?_) (by simp)
        obtain ⟨r, hr, hsum, hcontent⟩ := h 1 (by simp)
        obtain ⟨x, hx⟩ := incrByDirValues_content hopen hr
        rw [getDirValue, hx, Option.some.injEq, List.nil_append] at hcontent
        -- the text of the first result stands in front of that of the second
        simp only [incrByDirValues, List.take_succ_cons, List.take_zero, List.flatMap_cons,
          List.flatMap_nil, List.append_nil, List.getElem?_cons_succ, List.getElem?_cons_zero,
          Option.some.injEq] at hr hcontent
        rw [hr, hsum] at hcontent
        exact decimalText_ne_nil _ (List.append_left_eq_self.1 hcontent)
    · rintro ⟨vDir, h⟩
      obtain ⟨r, hr, -⟩ := h 0 (by simp)
      rw [iIncrByInFiles_cons] at hr
      simp at hr

/-- Counting from nothing in the root. -/
theorem countsUp_iff_root :
    (CountsUp plainHost [slash] none (incrByDirValues [slash] none ⟨rootBase.fs, 0⟩
        [(5, []), (7, [])]) [5, 7] ↔ [((5 : ℤ), ([] : Bytes)), (7, [])].length ≤ 1) ∧
      ((∃ vDir, CountsUp plainHost vDir none (iIncrByInFiles plainHost 0 [slash, 97] none
        .dkIgnored ⟨rootBase.fs, 0⟩ [(5, []), (7, [])]) [5, 7]) ↔
          [((5 : ℤ), ([] : Bytes)), (7, [])] = []) := by
  refine countsUp_iff plainHost 0 .dkIgnored ⟨rootBase.fs, 0⟩ [slash] [slash, 97] none
    [(5, []), (7, [])] ?_ ⟨_, rfl⟩ (by decide)
  intro n hn
  have hmissing : directoryExists rootBase.fs (makeAttrFileName [slash] none) =
      pathIsNotExists := by decide +kernel
  exact directoryExists_ne_missing.2 ⟨n, hn⟩ hmissing

/-- After 5 and 7 the file holds both. -/
theorem not_countsUp_twice :
    ¬CountsUp plainHost [slash] none (incrByDirValues [slash] none ⟨rootBase.fs, 0⟩
      [(5, []), (7, [])]) [5, 7] := by
  have hcontent : ((incrByDirValues [slash] none ⟨rootBase.fs, 0⟩ [(5, []), (7, [])])[1]?.bind
      fun r => getDirValue plainHost r.1.fs [slash] none) = some [53, 49, 50] := by
    decide +kernel
  intro h
  obtain ⟨r, hr, -, hsum⟩ := h 1 (by decide)
  rw [hr, Option.bind_some, hsum] at hcontent
  revert hcontent
  decide +kernel

end Idb
