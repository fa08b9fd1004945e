import Idb.RelativePaths
import Idb.Runs

/-!
# Opening and closing a database

A database object holds its path and whether it is opened. `iDB_Open` stores the path and then
hands the flag that it has just found to be false to `iDB_SetOpened` ; so it opens nothing, and
only `iDB_SetOpened` can do it afterwards. Close acts on an opened object alone, and leaves the
path that a failed open has stored. The calls of a run do what is expected of them exactly if
neither matters (`lifeCycle_iff`).
-/

namespace Idb

open Posix FileSystem FileTree

/-! ## The functions -/

/-- A database object. -/
structure IDB where
  path : Option Bytes
  /-- The max page count for the subkeys. -/
  maxPageSize : ℕ
  partitionFullProcess : TIDBProcesses
  opened : Bool

/-- The policy is what the new memory holds. -/
def iDBNew (partitionFullProcess : TIDBProcesses) : IDB where
  path := none
  maxPageSize := 0
  partitionFullProcess
  opened := false

/-- `chdir` to a path. -/
def enterDir (fs : FileSystem) (path : Bytes) : Except Errno FileSystem :=
  match fs.resolve true path with
  | .error e => .error e
  | .ok l => if fs.tree.isDir l then .ok (chdir fs l) else .error (fs.tree.lookupError l)

/-- A database object and the files around it. -/
structure Session where
  db : IDB
  fs : FileSystem

section

variable (iDBMaxPageCount : ℤ)

/-- A database is opened by going to its path, or closed. -/
def iDBSetOpened (s : Session) (aOpened : Bool) : Session :=
  match aOpened, s.db.path with
  | true, some path =>
    let maxPageSize :=
      if s.db.maxPageSize > sizeT iDBMaxPageCount then sizeT iDBMaxPageCount
      else s.db.maxPageSize
    match enterDir s.fs path with
    | .ok fs => ⟨{ s.db with opened := true, maxPageSize }, fs⟩
    | .error _ => { s with db := { s.db with opened := false, maxPageSize } }
  | _, _ => { s with db := { s.db with opened := false } }

/-- The flag that was tested to be false is handed on. -/
def iDBOpen (s : Session) (aDBPath : Bytes) : Session × Bool :=
  if ¬s.db.opened then
    let s := { s with db := { s.db with path := some aDBPath } }
    let s := iDBSetOpened iDBMaxPageCount s s.db.opened
    (s, s.db.opened)
  else (s, false)

/-- A database that is open is closed. -/
def iDBClose (s : Session) : Session × Bool :=
  if s.db.opened then ({ s with db := { s.db with opened := false, path := none } }, true)
  else (s, false)

/-- `ERR_IDB_CLOSED`. -/
def errIdbClosed : ℤ :=
  -1

/-- The value at the path of a key, else the one in the partitions. -/
def iGetInFile (host : Host) (fs : FileSystem) (aKeyPath : Bytes) (aAttribute : Option Bytes) :
    Option Bytes :=
  match getDirValue host fs aKeyPath aAttribute with
  | some result => some result
  | none =>
    if iDBMaxPageCount > 0 then
      match iIsKeyDirExists fs aKeyPath with
      | some vDir => getDirValue host fs vDir aAttribute
      | none => none
    else none

/-- The value, or the error that the object is closed. -/
def iDBAttrGetString (host : Host) (s : Session) (aKey : Bytes) (aAttribute : Option Bytes) :
    Except ℤ (Option Bytes) :=
  if s.db.opened then .ok (iGetInFile iDBMaxPageCount host s.fs aKey aAttribute)
  else .error errIdbClosed

/-! ## Runs of calls -/

/-- A call on a database object. -/
inductive Call
  | setOpened (aOpened : Bool)
  | openPath (aDBPath : Bytes)
  | close

/-- The session after a call, and the result if there is one. -/
def Call.apply (s : Session) : Call → Session × Bool
  | setOpened aOpened => (iDBSetOpened iDBMaxPageCount s aOpened, false)
  | openPath aDBPath => iDBOpen iDBMaxPageCount s aDBPath
  | close => iDBClose s

/-- The session after a sequence of calls. -/
def sessionAfter (s : Session) (calls : List Call) : Session :=
  calls.foldl (fun s call => (call.apply iDBMaxPageCount s).1) s

/-- An opened object has a path, and the current directory is the one entered by that path in
the call that opened it. -/
def InOwnDir (s : Session) (calls : List Call) : Prop :=
  (sessionAfter iDBMaxPageCount s calls).db.opened → ∃ path pre call post,
    calls = pre ++ call :: post ∧ (sessionAfter iDBMaxPageCount s calls).db.path = some path ∧
    enterDir (sessionAfter iDBMaxPageCount s pre).fs path =
      .ok (sessionAfter iDBMaxPageCount s calls).fs ∧
    ∀ mid, mid <+: post → sessionAfter iDBMaxPageCount s (pre ++ call :: mid) =
      sessionAfter iDBMaxPageCount s calls

/-- A path is opened that can be entered, on an object that is closed. -/
def OpensClosed (s : Session) (call : Call) : Prop :=
  ∃ path, call = .openPath path ∧ s.db.opened = false ∧ ∃ fs, enterDir s.fs path = .ok fs

/-- The life cycle of an object, in a run of calls from `s`. -/
structure LifeCycle (host : Host) (s : Session) (calls : List Call) : Prop where
  entered : ∀ pre, pre <+: calls → InOwnDir iDBMaxPageCount s pre
  opens : ∀ pre call post, calls = pre ++ call :: post →
    OpensClosed (sessionAfter iDBMaxPageCount s pre) call →
      (call.apply iDBMaxPageCount (sessionAfter iDBMaxPageCount s pre)).2 = true ∧
      (sessionAfter iDBMaxPageCount s (pre ++ [call])).db.opened
  readable : ∀ pre call mid post, calls = pre ++ call :: (mid ++ post) →
    OpensClosed (sessionAfter iDBMaxPageCount s pre) call → .close ∉ mid →
      ∀ aKey aAttribute, iDBAttrGetString iDBMaxPageCount host
        (sessionAfter iDBMaxPageCount s (pre ++ call :: mid)) aKey aAttribute ≠
          .error errIdbClosed
  closes : ∀ pre post, calls = pre ++ .close :: post →
    ((iDBClose (sessionAfter iDBMaxPageCount s pre)).2 = true ↔
      (sessionAfter iDBMaxPageCount s pre).db.opened) ∧
    (iDBClose (sessionAfter iDBMaxPageCount s pre)).1.db.opened = false ∧
    (iDBClose (sessionAfter iDBMaxPageCount s pre)).1.db.path = none

end

section

variable {M : ℤ} {s : Session}

theorem sessionAfter_append (calls calls' : List Call) :
    sessionAfter M s (calls ++ calls') = sessionAfter M (sessionAfter M s calls) calls' :=
  List.foldl_append

/-- Only setting the flag opens an object, by entering the directory of its path. -/
theorem iDBSetOpened_opened {b : Bool} (h : (iDBSetOpened M s b).db.opened) :
    ∃ path, (iDBSetOpened M s b).db.path = some path ∧
      enterDir s.fs path = .ok (iDBSetOpened M s b).fs := by
  cases b with
  | false => simp [iDBSetOpened] at h
  | true =>
    cases hpath : s.db.path with
    | none => simp [iDBSetOpened, hpath] at h
    | some path =>
      cases he : enterDir s.fs path with
      | error e => simp [iDBSetOpened, hpath, he] at h
      | ok fs => exact ⟨path, by simp [iDBSetOpened, hpath, he], by simp [iDBSetOpened, hpath, he]⟩

/-- Open opens nothing. -/
theorem iDBOpen_closed (h : s.db.opened = false) (path : Bytes) :
    iDBOpen M s path = ({ s with db := { s.db with path := some path } }, false) := by
  simp [iDBOpen, iDBSetOpened, h]

theorem iDBOpen_opened (h : s.db.opened) (path : Bytes) : iDBOpen M s path = (s, false) := by
  simp [iDBOpen, h]

theorem iDBClose_opened (h : s.db.opened) :
    iDBClose s = ({ s with db := { s.db with opened := false, path := none } }, true) :=
  if_pos h

theorem iDBClose_closed (h : s.db.opened = false) : iDBClose s = (s, false) :=
  if_neg (by simp [h])

/-- A new session is in its own directory. -/
theorem inOwnDir_start (policy : TIDBProcesses) (fs : FileSystem) (calls : List Call) :
    InOwnDir M ⟨iDBNew policy, fs⟩ calls := by
  induction calls using List.reverseRecOn with
  | nil => exact fun h => by simp [sessionAfter, iDBNew] at h
  | append_singleton calls call ih =>
    intro h
    have hstep : sessionAfter M ⟨iDBNew policy, fs⟩ (calls ++ [call]) =
        (call.apply M (sessionAfter M ⟨iDBNew policy, fs⟩ calls)).1 := sessionAfter_append _ _
    rw [hstep] at h ⊢
    cases call with
    | setOpened b =>
      obtain ⟨path, hpath, he⟩ := iDBSetOpened_opened h
      refine ⟨path, calls, .setOpened b, [], rfl, hpath, he, fun mid hmid => ?_⟩
      rw [List.prefix_nil.1 hmid, hstep]
    | openPath path =>
      by_cases ho : (sessionAfter M ⟨iDBNew policy, fs⟩ calls).db.opened
      · have hsame : (Call.apply M (sessionAfter M ⟨iDBNew policy, fs⟩ calls)
            (.openPath path)).1 = sessionAfter M ⟨iDBNew policy, fs⟩ calls :=
          congrArg Prod.fst (iDBOpen_opened ho path)
        rw [hsame]
        obtain ⟨q, pre, c, post, hcalls, hpath, he, hstay⟩ := ih ho
        refine ⟨q, pre, c, post ++ [.openPath path], by rw [hcalls]; simp, hpath, he, ?_⟩
        intro mid hmid
        rcases List.prefix_concat_iff.1 hmid with rfl | hmid
        · rw [show pre ++ c :: (post ++ [.openPath path]) = calls ++ [.openPath path] by
            rw [hcalls]; simp, hstep, hsame]
        · exact hstay mid hmid
      · rw [Call.apply, iDBOpen_closed (by simpa using ho)] at h
        exact absurd h ho
    | close =>
      by_cases ho : (sessionAfter M ⟨iDBNew policy, fs⟩ calls).db.opened
      · rw [Call.apply, iDBClose_opened ho] at h
        simp at h
      · rw [Call.apply, iDBClose_closed (by simpa using ho)] at h
        exact absurd h ho

end

/-- The object lives as described exactly if no path that can be entered is opened while it is
closed, and it is never closed with the path of a failed open. -/
theorem lifeCycle_iff (iDBMaxPageCount : ℤ) (host : Host) (policy : TIDBProcesses)
    (fs : FileSystem) (calls : List Call) :
    LifeCycle iDBMaxPageCount host ⟨iDBNew policy, fs⟩ calls ↔
      ∀ pre call post, calls = pre ++ call :: post →
        ¬OpensClosed (sessionAfter iDBMaxPageCount ⟨iDBNew policy, fs⟩ pre) call ∧
        (call = .close →
          (sessionAfter iDBMaxPageCount ⟨iDBNew policy, fs⟩ pre).db.opened = false →
            (sessionAfter iDBMaxPageCount ⟨iDBNew policy, fs⟩ pre).db.path = none) := by
  constructor
  · intro h pre call post hcalls
    refine ⟨?_, ?_⟩
    · intro hopen
      have hres := (h.opens pre call post hcalls hopen).1
      obtain ⟨path, rfl, hc, -⟩ := hopen
      rw [Call.apply, iDBOpen_closed hc] at hres
      simp at hres
    · rintro rfl hc
      have hpath := (h.closes pre post hcalls).2.2
      rwa [iDBClose_closed hc] at hpath
  · intro h
    refine ⟨fun pre _ => inOwnDir_start policy fs pre, ?_, ?_, ?_⟩
    · exact fun pre call post hcalls hopen => absurd hopen (h pre call post hcalls).1
    · exact fun pre call mid post hcalls hopen => absurd hopen (h pre call _ hcalls).1
    · intro pre post hcalls
      by_cases ho : (sessionAfter iDBMaxPageCount ⟨iDBNew policy, fs⟩ pre).db.opened
      · rw [iDBClose_opened ho]
        exact ⟨by simp [ho], rfl, rfl⟩
      · have hc : (sessionAfter iDBMaxPageCount ⟨iDBNew policy, fs⟩ pre).db.opened = false := by
          simpa using ho
        rw [iDBClose_closed hc]
        exact ⟨by simp [hc], hc, (h pre .close post hcalls).2 rfl hc⟩

/-- The root is opened with a new object. -/
theorem not_lifeCycle_open :
    ¬LifeCycle (-1) plainHost ⟨iDBNew .dkIgnored, rootBase.fs⟩ [.openPath [slash]] := by
  intro h
  have hres := (h.opens [] _ [] rfl ⟨[slash], rfl, rfl, rootBase.fs, rfl⟩).1
  exact absurd hres (by decide)

end Idb
