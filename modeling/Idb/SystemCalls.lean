import Idb.Interleaving
import Idb.Sessions
import Idb.SplitOperations

/-!
# One system call at a time

Several processes may work on one database : they share the files and nothing else, and nobody
locks. So between two system calls of one of them the others may do theirs. Here the operations on
attribute files are written as programs of system calls (`Calls`). A program that nothing comes
between does what the operation does (`Calls.iPutInFile_alone`, `Calls.iGetInFile_alone`).

There is no page limit, and no file is renamed or deleted, so that an open file is known by its
place.
-/

namespace Posix.FileTree

/-! ## Emptying a file -/

variable {X : Type} {t t' : FileTree X} {x : X} {v w : Bytes} {l : Loc}

theorem ext_nodes (h : t.nodes = t'.nodes) : t = t' := by
  cases t
  cases t'
  simpa using h

/-- The nodes after a write : one file is new or has new content. -/
theorem writeFile_nodes (h : t.writeFile x v l = .ok t') : ∃ y,
    t'.nodes = t.nodes.insert l (.file v y) ∧
      (t.get l = none ∧ y = x ∨ ∃ old, t.get l = some (.file old y)) := by
  cases l with
  | nil => simp [writeFile] at h
  | cons c p =>
    simp only [writeFile] at h
    split_ifs at h
    split at h
    · simp at h
    · simp at h
    · next old y hn =>
      rw [Except.ok.injEq] at h
      subst h
      exact ⟨y, rfl, Or.inr ⟨old, hn⟩⟩
    · next hn =>
      rw [Except.ok.injEq] at h
      subst h
      exact ⟨x, rfl, Or.inl ⟨hn, rfl⟩⟩

/-- Whether a file can be written does not depend on what is written. -/
theorem writeFile_error {e : Errno} (h : t.writeFile x v l = .error e) :
    t.writeFile x w l = .error e := by
  cases l with
  | nil => exact h
  | cons c p =>
    simp only [writeFile] at h ⊢
    split_ifs at h ⊢
    · split at h <;> simp_all
    · exact h

/-- A file that is emptied first is written as one that is not. -/
theorem writeFile_empty (h : t.writeFile x [] l = .ok t') :
    t'.fileAt l = some [] ∧ t'.writeFile x v l = t.writeFile x v l := by
  obtain ⟨y, hnodes, hy⟩ := writeFile_nodes h
  have hget : t'.get l = some (.file [] y) := by
    rw [FileTree.get, hnodes, AList.lookup_insert]
  refine ⟨fileAt_eq_some.2 ⟨y, hget⟩, ?_⟩
  cases hv : t.writeFile x v l with
  | error e => simp [writeFile_error (w := []) hv] at h
  | ok t₁ =>
    cases l with
    | nil => simp [writeFile] at h
    | cons c p =>
      obtain ⟨t₂, hv'⟩ := writeFile_eq x v (validName_of_get hget) (isDir_of_get_cons hget)
        (by simp [FileTree.isDir, hget, Node.isDir]) (by simp [NoLink, hget])
      obtain ⟨y₁, hnodes₁, hy₁⟩ := writeFile_nodes hv
      obtain ⟨y₂, hnodes₂, hy₂⟩ := writeFile_nodes hv'
      have hmeta : y₁ = y ∧ y₂ = y := by
        constructor
        · rcases hy with ⟨hn, rfl⟩ | ⟨old, hn⟩ <;> simpa [hn, eq_comm] using hy₁
        · simpa [hget, eq_comm] using hy₂
      rw [hv', Except.ok.injEq]
      refine ext_nodes ?_
      rw [hnodes₁, hnodes₂, hnodes, AList.insert_insert, hmeta.1, hmeta.2]

end Posix.FileTree

namespace Idb

open Posix FileSystem FileTree Interleaving

/-- A directory is made in another one, unless it is there already. -/
theorem mkdir_entry {fs : FileSystem} {path : Bytes} {p : Loc} {c : Name} (h : fs.At path p)
    (hc : ValidName c) (hn : fs.tree.get (c :: p) = none ∨ fs.tree.isDir (c :: p)) :
    (fs.tree.isDir (c :: p) ∧ fs.mkdir (joinName path c) = .error .eexist) ∨
      (fs.tree.get (c :: p) = none ∧ ∃ fs', fs.mkdir (joinName path c) = .ok fs' ∧
        fs'.cwd = fs.cwd ∧ fs.tree.Updated fs'.tree (c :: p) (some newDir)) := by
  rw [FileSystem.mkdir, trimSlashes_joinName hc.component, FileSystem.modify,
    h.resolve_nofollow hc]
  rcases hn with hn | hd
  · obtain ⟨t, ht⟩ := makeDir_eq (x := fun _ => none) hc h.isDir hn
    refine Or.inr ⟨hn, { fs with tree := t }, ?_, rfl, (makeDir_ok ht).2⟩
    simp only [ht]
    rfl
  · refine Or.inl ⟨hd, ?_⟩
    simp only [makeDir, dif_pos (And.intro hc h.isDir), Option.isNone_iff_eq_none,
      dif_neg (get_ne_none_of_isDir hd)]
    rfl

section

variable {fs : FileSystem} {D path : Bytes} {d l : Loc} {a : Attr}

/-- Where the path of an attribute of a directory leads. -/
theorem resolve_attr (h : Leads D d path l) (hD : fs.At D d)
    (hl : ∀ l, Below d l → fs.tree.NoLink l) (hp : fs.tree.isDir l) :
    fs.resolve true (makeAttrFileName path a.val) = .ok (a.name :: l) := by
  obtain ⟨names, hn, rfl, hpath⟩ := attr_path (a := a) h hD
  rw [hpath]
  exact (hD.resolve_names hn a.validName hl true).1 hp

/-- The file of an attribute of a directory can be written. -/
theorem writeFile_attr (hl : fs.tree.NoLink (a.name :: l))
    (hd : fs.tree.isDir (a.name :: l) = false) (hp : fs.tree.isDir l) (v : Bytes) :
    ∃ t' x, fs.tree.writeFile (fun _ => none) v (a.name :: l) = .ok t' ∧
      fs.tree.Updated t' (a.name :: l) (some (.file v x)) := by
  obtain ⟨t', ht'⟩ := writeFile_eq (fun _ => none) v a.validName hp hd hl
  obtain ⟨x, -, -, hu⟩ := writeFile_ok ht'
  exact ⟨t', x, ht', hu⟩

end

/-! ## System calls -/

/-- The system calls that puts and gets make. -/
inductive SysCall where
  | stat (path : Bytes)
  | lstat (path : Bytes)
  /-- `opendir`, and the entries that `readdir` goes through. -/
  | openDir (path : Bytes)
  | mkdir (path : Bytes)
  /-- `open` for writing, with creation and truncation. -/
  | creat (path : Bytes)
  /-- `open` for reading. -/
  | openRead (path : Bytes)
  /-- `lseek` to the end. -/
  | seekEnd (fd : Loc)
  | read (fd : Loc) (count : ℕ)
  | write (fd : Loc) (buf : Bytes)

/-- What a system call returns. -/
def SysCall.Reply : SysCall → Type
  | stat _ => Except Errno (Node Xattrs)
  | lstat _ => Except Errno (Node Xattrs)
  | openDir _ => Except Errno (List Dirent)
  | mkdir _ => Except Errno Unit
  | creat _ => Except Errno Loc
  | openRead _ => Except Errno Loc
  | seekEnd _ => ℕ
  | read _ _ => Bytes
  | write _ _ => ℕ

/-- What can be read from an open file. -/
def openContent (host : Host) (fs : FileSystem) (fd : Loc) : Bytes :=
  match fs.tree.get fd with
  | some (.file content _) => content
  | some (.dir _) => host.dirBytes.getD []
  | _ => []

/-- Write at the start of a file. What it holds behind stays. -/
def writeStart (fs : FileSystem) (fd : Loc) (buf : Bytes) : FileSystem :=
  match fs.tree.fileAt fd with
  | none => fs
  | some old =>
    match fs.tree.writeFile (fun _ => none) (buf ++ old.drop buf.length) fd with
    | .error _ => fs
    | .ok t => { fs with tree := t }

/-- Opening for a write leaves a missing file missing, and of an old one what the new bytes do not
cover. -/
theorem writeStart_cases {fs : FileSystem} {a : Attr} {l : Loc} {v : Bytes}
    (hl : fs.tree.NoLink (a.name :: l)) :
    (fs.tree.fileAt (a.name :: l) = none ∧ writeStart fs (a.name :: l) v = fs) ∨
      ∃ old x, fs.tree.fileAt (a.name :: l) = some old ∧
        (writeStart fs (a.name :: l) v).cwd = fs.cwd ∧
        fs.tree.Updated (writeStart fs (a.name :: l) v).tree (a.name :: l)
          (some (.file (v ++ old.drop v.length) x)) := by
  cases hf : fs.tree.fileAt (a.name :: l) with
  | none => exact Or.inl ⟨rfl, by simp only [writeStart, hf]⟩
  | some old =>
    obtain ⟨y, hg⟩ := fileAt_eq_some.1 hf
    obtain ⟨t', x, ht', hu⟩ := writeFile_attr (a := a) hl
      (by simp [FileTree.isDir, hg, Node.isDir]) (isDir_of_get_cons hg)
      (v ++ old.drop v.length)
    have hwrite : writeStart fs (a.name :: l) v = { fs with tree := t' } := by
      simp only [writeStart, hf, ht']
    rw [hwrite]
    exact Or.inr ⟨old, x, rfl, rfl, hu⟩

/-- The file system after a call, and what the call returns. -/
def sysCall (host : Host) : (c : SysCall) → FileSystem → FileSystem × c.Reply
  | .stat path, fs => (fs, fs.stat path)
  | .lstat path, fs => (fs, fs.lstat path)
  | .openDir path, fs => (fs, host.entries fs path)
  | .mkdir path, fs =>
    match fs.mkdir path with
    | .error e => (fs, .error e)
    | .ok fs' => (fs', .ok ())
  | .creat path, fs =>
    match fs.write path [] with
    | .error e => (fs, .error e)
    | .ok fs' => (fs', fs.resolve true path)
  | .openRead path, fs =>
    match fs.stat path with
    | .error e => (fs, .error e)
    | .ok (.dir _) => (fs, if host.dirBytes.isNone then .error .eisdir else fs.resolve true path)
    | .ok (.file _ _) => (fs, fs.resolve true path)
    | .ok (.link _) => (fs, .error .eloop)
  | .seekEnd fd, fs => (fs, (openContent host fs fd).length)
  | .read fd count, fs => (fs, (openContent host fs fd).take count)
  | .write fd buf, fs => (writeStart fs fd buf, buf.length)

/-- Programs of system calls. -/
abbrev Program :=
  Prog SysCall SysCall.Reply

/-! ## Programs -/

namespace Calls

/-- The call as a program. -/
def stat (path : Bytes) : Program (Except Errno (Node Xattrs)) :=
  .call (.stat path) .ret

/-- The call as a program. -/
def lstat (path : Bytes) : Program (Except Errno (Node Xattrs)) :=
  .call (.lstat path) .ret

/-- The call as a program. -/
def openDir (path : Bytes) : Program (Except Errno (List Dirent)) :=
  .call (.openDir path) .ret

/-- The call as a program. -/
def mkdir (path : Bytes) : Program (Except Errno Unit) :=
  .call (.mkdir path) .ret

/-- The call as a program. -/
def creat (path : Bytes) : Program (Except Errno Loc) :=
  .call (.creat path) .ret

/-- The call as a program. -/
def openRead (path : Bytes) : Program (Except Errno Loc) :=
  .call (.openRead path) .ret

/-- The call as a program. -/
def seekEnd (fd : Loc) : Program ℕ :=
  .call (.seekEnd fd) .ret

/-- The call as a program. -/
def read (fd : Loc) (count : ℕ) : Program Bytes :=
  .call (.read fd count) .ret

/-- The call as a program. -/
def write (fd : Loc) (buf : Bytes) : Program ℕ :=
  .call (.write fd buf) .ret

/-- `DirectoryExists`, one `stat`. -/
def directoryExists (aFolderPath : Bytes) : Program ℤ := do
  match ← stat aFolderPath with
  | .error _ => pure pathIsNotExists
  | .ok (.dir _) => pure pathIsDir
  | .ok _ => pure pathIsFile

/-- A directory that another process made in between is as good as one made here. -/
def doMkdir (path : Bytes) : Program ℤ := do
  match ← stat path with
  | .error _ =>
    match ← mkdir path with
    | .error e => pure (if e ≠ .eexist then -1 else 0)
    | .ok () => pure 0
  | .ok (.dir _) => pure 0
  | .ok _ => pure (-1)

/-- The loop of `ForceDirectories`, from slash to slash. -/
def forceLoop (copypath : Bytes) : Bytes → Program ℤ
  | [] => doMkdir copypath
  | b :: rest =>
    if b = slash ∧ copypath ≠ [] ∧ copypath.getLast? ≠ some slash then do
      let status ← doMkdir copypath
      if status = 0 then forceLoop (copypath ++ [b]) rest else pure status
    else forceLoop (copypath ++ [b]) rest

/-- `ForceDirectories` by its calls. -/
def forceDirectories (aFolderPath : Bytes) : Program ℤ :=
  forceLoop [] aFolderPath

/-- `GetDirValue` : the size is asked for, and that many bytes are read. -/
def getDirValue (aDir : Bytes) (aAttribute : Option Bytes) : Program (Option Bytes) := do
  match ← openRead (makeAttrFileName aDir aAttribute) with
  | .error _ => pure none
  | .ok fd =>
    let vSize ← seekEnd fd
    let result ← read fd vSize
    pure (some result)

/-- `SetDirValue` : the file is emptied, and the value is written to it. -/
def setDirValue (aDir aValue : Bytes) (aAttribute : Option Bytes) : Program Bool := do
  match ← creat (makeAttrFileName aDir aAttribute) with
  | .error _ => pure false
  | .ok fd =>
    let vSize ← write fd aValue
    pure (vSize = aValue.length)

/-- Whether the directories could be made is not looked at. -/
def iPutInFile (aKeyPath aValue : Bytes) (aAttribute : Option Bytes) : Program ℤ := do
  let result ← directoryExists aKeyPath
  if result = pathIsNotExists then do
    let _ ← forceDirectories aKeyPath
    let written ← setDirValue aKeyPath aValue aAttribute
    pure (if written then 0 else 1)
  else if result = pathIsDir then do
    let written ← setDirValue aKeyPath aValue aAttribute
    pure (if written then 0 else 1)
  else pure result

/-- `iGetInFile` without a page limit. -/
def iGetInFile (aKeyPath : Bytes) (aAttribute : Option Bytes) : Program (Option Bytes) :=
  getDirValue aKeyPath aAttribute

/-! ## Nothing in between -/

section

variable (host : Host) (fs : FileSystem)

/-- Alone, `DirectoryExists` is the sequential one. -/
theorem directoryExists_alone (path : Bytes) :
    (directoryExists path).alone (sysCall host) fs = (fs, Idb.directoryExists fs path) := by
  rw [directoryExists, Prog.bind_eq, Prog.alone_bind, Idb.directoryExists]
  simp only [stat, Prog.alone, sysCall]
  cases fs.stat path with
  | error e => rfl
  | ok n => cases n <;> rfl

/-- Alone, `do_mkdir` is the sequential one. -/
theorem doMkdir_alone (path : Bytes) :
    (doMkdir path).alone (sysCall host) fs = Idb.doMkdir fs path := by
  rw [doMkdir, Prog.bind_eq, Prog.alone_bind, Idb.doMkdir]
  simp only [stat, Prog.alone, sysCall]
  cases fs.stat path with
  | error e =>
    simp only [Prog.bind_eq, Prog.alone_bind, mkdir, Prog.alone, sysCall]
    cases fs.mkdir path <;> rfl
  | ok n => cases n <;> rfl

/-- Alone, the loop is the sequential one. -/
theorem forceLoop_alone (copypath rest : Bytes) :
    (forceLoop copypath rest).alone (sysCall host) fs = Idb.forceLoop fs copypath rest := by
  induction rest generalizing fs copypath with
  | nil => exact doMkdir_alone host fs copypath
  | cons b rest ih =>
    rw [forceLoop, Idb.forceLoop]
    split_ifs with hb
    · simp only [Prog.bind_eq, Prog.alone_bind, doMkdir_alone]
      split_ifs
      · exact ih _ _
      · rfl
    · exact ih _ _

/-- Alone, `GetDirValue` is the sequential one. -/
theorem getDirValue_alone (aDir : Bytes) (a : Option Bytes) :
    (getDirValue aDir a).alone (sysCall host) fs = (fs, Idb.getDirValue host fs aDir a) := by
  rw [getDirValue, Prog.bind_eq, Prog.alone_bind, Idb.getDirValue]
  simp only [openRead, Prog.alone, sysCall]
  cases hs : fs.stat (makeAttrFileName aDir a) with
  | error e => rfl
  | ok n =>
    obtain ⟨l, hl, hg⟩ := stat_eq_ok.1 hs
    cases n with
    | dir x =>
      cases hd : host.dirBytes with
      | none => rfl
      | some bytes =>
        simp [hl, Prog.bind_eq, Prog.alone_bind, seekEnd, read, Prog.alone, sysCall, openContent,
          hg, hd, Prog.pure_eq]
    | file v x =>
      simp [hl, Prog.bind_eq, Prog.alone_bind, seekEnd, read, Prog.alone, sysCall, openContent, hg,
        Prog.pure_eq]
    | link target => rfl

/-- Alone, `SetDirValue` is the sequential one. -/
theorem setDirValue_alone (aDir v : Bytes) (a : Option Bytes) :
    (setDirValue aDir v a).alone (sysCall host) fs = Idb.setDirValue fs aDir v a := by
  rw [setDirValue, Prog.bind_eq, Prog.alone_bind, Idb.setDirValue]
  simp only [creat, Prog.alone, sysCall, FileSystem.write, FileSystem.modify]
  cases hr : fs.resolve true (makeAttrFileName aDir a) with
  | error e => rfl
  | ok l =>
    dsimp only
    cases hw : fs.tree.writeFile (fun _ => none) [] l with
    | error e =>
      rw [writeFile_error hw]
      rfl
    | ok t =>
      obtain ⟨hfile, he⟩ := writeFile_empty (v := v) hw
      simp only [Except.map, Prog.bind_eq, Prog.alone_bind, write, Prog.alone, sysCall, writeStart,
        hfile, List.drop_nil, List.append_nil, he]
      cases hv : fs.tree.writeFile (fun _ => none) v l with
      | error e => simp [writeFile_error (w := []) hv] at hw
      | ok t₂ => simp [ofResult, Prog.pure_eq, Prog.alone]

/-- Alone and without a page limit, `iPutInFile` is the sequential one. -/
theorem iPutInFile_alone {M : ℤ} (hM : M ≤ 0) (policy : TIDBProcesses) (aKeyPath v : Bytes)
    (a : Option Bytes) : (iPutInFile aKeyPath v a).alone (sysCall host) fs =
      Idb.iPutInFile host M fs aKeyPath v a policy := by
  rw [iPutInFile, Prog.bind_eq, Prog.alone_bind, directoryExists_alone, Idb.iPutInFile,
    if_neg hM.not_gt]
  simp only [putInDir]
  split_ifs
  · rw [Prog.bind_eq, Prog.alone_bind, forceDirectories, forceLoop_alone, Prog.bind_eq,
      Prog.alone_bind, setDirValue_alone]
    rfl
  · rw [Prog.bind_eq, Prog.alone_bind, setDirValue_alone]
    rfl
  · rfl

/-- The same in the words of `iPut`. -/
theorem iPutInFile_alone_storeInFile (path v : Bytes) (a : Option Bytes) :
    (iPutInFile path v a).alone (sysCall host) fs =
      if Idb.directoryExists fs path = pathIsNotExists then
        _iPut (Idb.forceDirectories fs path).1 path v a storeInFile
      else if Idb.directoryExists fs path = pathIsDir then _iPut fs path v a storeInFile
      else (fs, Idb.directoryExists fs path) := by
  rw [iPutInFile_alone host fs le_rfl .dkIgnored, Idb.iPutInFile, if_neg (lt_irrefl 0)]
  rfl

theorem iGetInFile_alone {M : ℤ} (hM : M ≤ 0) (aKeyPath : Bytes) (a : Option Bytes) :
    (iGetInFile aKeyPath a).alone (sysCall host) fs =
      (fs, Idb.iGetInFile M host fs aKeyPath a) := by
  rw [iGetInFile, getDirValue_alone, Idb.iGetInFile, if_neg hM.not_gt]
  cases Idb.getDirValue host fs aKeyPath a <;> rfl

end

/-! ## How many calls are made -/

theorem directoryExists_atMost (path : Bytes) : (directoryExists path).AtMost 1 := by
  rintro (e | n)
  · trivial
  · cases n <;> trivial

theorem doMkdir_atMost (path : Bytes) : (doMkdir path).AtMost 2 := by
  rintro (e | n)
  · rintro (e | -) <;> trivial
  · cases n <;> trivial

/-- The loop makes at most two calls for each byte. -/
theorem forceLoop_atMost (copypath rest : Bytes) :
    (forceLoop copypath rest).AtMost (2 * rest.length + 2) := by
  induction rest generalizing copypath with
  | nil => exact doMkdir_atMost copypath
  | cons b rest ih =>
    rw [forceLoop, List.length_cons, Nat.mul_succ, Nat.add_comm _ 2]
    split_ifs
    · refine (doMkdir_atMost copypath).bind fun status => ?_
      split_ifs
      · exact ih _
      · trivial
    · exact (ih _).mono (Nat.le_add_left _ 2)

theorem setDirValue_atMost (aDir v : Bytes) (a : Option Bytes) :
    (setDirValue aDir v a).AtMost 2 := by
  rintro (e | fd)
  · trivial
  · exact fun _ => trivial

/-- A put makes at most two calls for each byte of its path, and five more. -/
theorem iPutInFile_atMost (aKeyPath v : Bytes) (a : Option Bytes) :
    (iPutInFile aKeyPath v a).AtMost (2 * aKeyPath.length + 5) := by
  have hset : ((setDirValue aKeyPath v a).bind fun written =>
      (.ret (if written then (0 : ℤ) else 1) : Program ℤ)).AtMost (2 + 0) :=
    (setDirValue_atMost aKeyPath v a).bind fun _ => trivial
  rw [iPutInFile, Prog.bind_eq,
    show 2 * aKeyPath.length + 5 = 1 + (2 * aKeyPath.length + 2 + (2 + 0)) by omega]
  refine (directoryExists_atMost aKeyPath).bind fun result => ?_
  split_ifs
  · exact (forceLoop_atMost [] aKeyPath).bind fun _ => hset
  · exact hset.mono (Nat.le_add_left _ _)
  · trivial

theorem iGetInFile_atMost (aKeyPath : Bytes) (a : Option Bytes) :
    (iGetInFile aKeyPath a).AtMost 3 := by
  rintro (e | fd)
  · trivial
  · exact fun _ _ => trivial

/-! ## Directories one by one -/

section

variable {S : Type} {sem : (c : SysCall) → S → S × c.Reply} {k : Contract S} {D : Bytes} {x : S}
  {post : ℤ → S → Prop}

/-- The text between two slashes is passed over. -/
theorem forceLoop_name {c : Bytes} (hc : slash ∉ c) (copypath rest : Bytes) :
    forceLoop copypath (c ++ rest) = forceLoop (copypath ++ c) rest := by
  induction c generalizing copypath with
  | nil => simp
  | cons b c ih =>
    rw [List.mem_cons, not_or] at hc
    rw [List.cons_append, forceLoop, if_neg fun h => hc.1 h.1.symm, ih hc.2, List.append_assoc,
      List.singleton_append]

/-- A `do_mkdir` and what follows it. -/
theorem safe_mkdirs {path : Bytes} {next : Program ℤ} {A : S → Prop}
    (h : (doMkdir path).Safe sem k (fun status y => status = 0 ∧ A y) x)
    (hnext : ∀ y, A y → next.Safe sem k post y) :
    (doMkdir path >>= fun status => if status = 0 then next else pure status).Safe sem k post
      x := by
  refine Prog.Safe.bind (h.mono ?_)
  rintro status y ⟨rfl, hy⟩
  exact hnext y hy

/-- The way to the base directory is there, and stays as it is. -/
theorem safe_forceLoop_way {text rest copypath : Bytes} {A : S → Prop}
    (hmk : ∀ a b, text = a ++ slash :: b → copypath ++ a ≠ [] → ∀ y, A y →
      (doMkdir (copypath ++ a)).Safe sem k (fun status z => status = 0 ∧ A z) y)
    (hx : A x) (hnext : ∀ y, A y → (forceLoop (copypath ++ text) rest).Safe sem k post y) :
    (forceLoop copypath (text ++ rest)).Safe sem k post x := by
  induction text generalizing copypath x with
  | nil => simpa using hnext x hx
  | cons b text ih =>
    have ih' : ∀ y, A y → (forceLoop (copypath ++ [b]) (text ++ rest)).Safe sem k post y := by
      intro y hy
      refine ih (fun a b' he hne => ?_) hy fun z hz => ?_
      · rw [List.append_assoc] at hne ⊢
        exact hmk (b :: a) b' (by simp [he]) hne
      · rw [List.append_assoc]
        exact hnext z hz
    rw [List.cons_append, forceLoop]
    split_ifs with hb
    · obtain ⟨rfl, hne, -⟩ := hb
      refine safe_mkdirs ?_ ih'
      simpa using hmk [] text rfl (by simpa using hne) x hx
    · exact ih' x hx

variable {A : List Name → S → Prop}

/-- The way from a directory that is there. -/
theorem safe_forceLoop_names {ns r : List Name} {n : Name} (hD : D ≠ [])
    (hn : ∀ c ∈ n :: r, Component c)
    (hmk : ∀ ns' c rest, ns ++ n :: r = ns' ++ c :: rest → ∀ y, A ns' y →
      (doMkdir ((ns' ++ [c]).foldl joinName D)).Safe sem k
        (fun status z => status = 0 ∧ A (ns' ++ [c]) z) y)
    (hx : A ns x) :
    (forceLoop ((ns ++ [n]).foldl joinName D) (r.flatMap fun c => slash :: c)).Safe sem k
      (fun _ y => A (ns ++ n :: r) y) x := by
  induction r generalizing ns n x with
  | nil => exact (hmk ns n [] rfl x hx).mono fun _ _ h => h.2
  | cons c r ih =>
    have hfold : ∀ c, (ns ++ [n] ++ [c]).foldl joinName D =
        joinName ((ns ++ [n]).foldl joinName D) c := fun c => by rw [List.foldl_append]; rfl
    have hlast : ((ns ++ [n]).foldl joinName D).getLast? ≠ some slash := by
      rw [List.foldl_append]
      exact getLast?_joinName (hn n List.mem_cons_self)
    rw [List.flatMap_cons, List.cons_append, forceLoop,
      if_pos ⟨rfl, foldl_joinName_ne_nil hD, hlast⟩]
    refine safe_mkdirs (hmk ns n (c :: r) rfl x hx) fun y hy => ?_
    have := @ih y (ns ++ [n]) c (fun e he => hn e (List.mem_cons_of_mem n he))
      (by simpa using hmk) hy
    rw [hfold, joinName_of_no_slash hlast] at this
    rw [forceLoop_name (hn c (by simp)).2.1]
    simpa using this

variable (sem) in
/-- A directory is made with what is missing on the way, if each of the steps is safe. -/
theorem safe_forceDirectories (names : List Name) (hD : D ≠ []) (hne : names ≠ [])
    (hn : ∀ c ∈ names, Component c)
    (hway : ∀ a b, withSlash D = a ++ slash :: b → a ≠ [] → ∀ y, A [] y →
      (doMkdir a).Safe sem k (fun status z => status = 0 ∧ A [] z) y)
    (hmk : ∀ ns c rest, names = ns ++ c :: rest → ∀ y, A ns y →
      (doMkdir ((ns ++ [c]).foldl joinName D)).Safe sem k
        (fun status z => status = 0 ∧ A (ns ++ [c]) z) y)
    (hx : A [] x) :
    (forceDirectories (names.foldl joinName D)).Safe sem k (fun _ y => A names y) x := by
  obtain ⟨n, r, rfl⟩ := List.exists_cons_of_ne_nil hne
  have hcomp := hn n List.mem_cons_self
  have hpath : (n :: r).foldl joinName D =
      withSlash D ++ (n ++ r.flatMap fun c => slash :: c) := by
    rw [List.foldl_cons, foldl_joinName (fun c hc => hn c (List.mem_cons_of_mem n hc))
      (getLast?_joinName hcomp), joinName_eq_withSlash, List.append_assoc]
  rw [forceDirectories, hpath]
  refine safe_forceLoop_way hway hx fun y hy => ?_
  have hfirst : [] ++ withSlash D ++ n = ([] ++ [n]).foldl joinName D := by
    rw [List.nil_append]
    exact (joinName_eq_withSlash D n).symm
  rw [forceLoop_name hcomp.2.1, hfirst]
  exact safe_forceLoop_names hD hn hmk hy

end

end Calls

end Idb
