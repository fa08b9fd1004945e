import Idb.Growth

/-!
# Runs

Sequences of puts and deletes on a base directory that starts empty (`Base.run`). The
base directory holds a store in every state reached (`Base.store_run`). If no key is
deleted, partition directories have full parents and every key has one place at most
(`Grown`, `Base.grown_run`).
-/

namespace Idb

open Posix FileSystem FileTree

/-- A base directory that starts empty, with what the store on it depends on. -/
structure Base where
  host : Host
  /-- `IDBMaxPageCount`. -/
  maxPageCount : ℕ
  pos : 0 < maxPageCount
  fs : FileSystem
  dir : Bytes
  loc : Loc
  isAt : fs.At dir loc
  empty : ∀ l, Below loc l → fs.tree.get l = none

/-- What a put is given, with the value of `IDBPartitionFullProcess` at the time. -/
structure Put where
  key : DotFreeKey
  attr : Attr
  value : Bytes
  policy : TIDBProcesses
  ignoredOrStopped : policy = .dkIgnored ∨ policy = .dkStopped

/-- A put or a delete. -/
inductive Op where
  | put (p : Put)
  | delete (key : DotFreeKey) (attr : Attr)
  | keyDelete (key : DotFreeKey)

/-- The state of a run : the file system, and the operations so far with their success,
the last one first. -/
structure RunState where
  fs : FileSystem
  log : List (Op × Bool)

namespace Base

variable (B : Base)

/-- An operation with file storage. A put succeeds if it returns 0. -/
def apply (fs : FileSystem) : Op → FileSystem × Bool
  | .put p =>
    let result := iPut B.host B.maxPageCount fs B.dir p.policy (some p.key.val) p.value p.attr.val
      storeInFile
    (result.1, result.2 = 0)
  | .delete key attr => iDelete B.maxPageCount fs B.dir key.val attr.val storeInFile
  | .keyDelete key => iKeyDelete B.host B.maxPageCount fs B.dir key.val

/-- An operation is done and goes into the log. -/
def step (s : RunState) (op : Op) : RunState :=
  let result := B.apply s.fs op
  ⟨result.1, (op, result.2) :: s.log⟩

/-- Operations on an empty directory. -/
def run (ops : List Op) : RunState :=
  ops.foldl B.step ⟨B.fs, []⟩

variable {B}

theorem run_concat (ops : List Op) (op : Op) : B.run (ops ++ [op]) = B.step (B.run ops) op := by
  rw [run, List.foldl_append]
  rfl

/-- What holds at the start and is kept by every operation of a run holds after it. -/
theorem run_induction {P : RunState → Prop} {ops : List Op} (h0 : P ⟨B.fs, []⟩)
    (hstep : ∀ s, ∀ op ∈ ops, P s → P (B.step s op)) : P (B.run ops) :=
  List.foldlRecOn ops B.step h0 fun s hs op hop => hstep s op hop hs

/-! ## Every state is a store -/

theorem store_start : Store B.fs B.dir B.loc where
  anchored := Anchored.of_empty B.isAt B.empty
  layout := {
    links := fun l hb => by simp [NoLink, B.empty l hb]
    dirs := fun l hb hd => absurd (B.empty l hb) (get_ne_none_of_isDir hd)
    files := fun l v hb hv => by simp [fileAt, B.empty l hb] at hv }

variable {fs : FileSystem}

/-- A put fails and does nothing, or stores the attribute at the place for its key. -/
theorem apply_put (h : Store fs B.dir B.loc) (p : Put) :
    B.apply fs (.put p) = (fs, false) ∨
    ∃ i l fs', PutPlace fs.tree B.maxPageCount B.loc p.key.toKey p.policy i l ∧
      Stored fs fs' B.loc l p.attr.name p.value ∧ B.apply fs (.put p) = (fs', true) := by
  rcases h.iPut_spec B.host p.attr B.pos p.key.find p.ignoredOrStopped p.value
    with ⟨e, he, hput⟩ | ⟨i, l, fs', hp, hs, hput⟩
  · exact Or.inl (by simp [apply, hput, he])
  · exact Or.inr ⟨i, l, fs', hp, hs, by simp [apply, hput]⟩

theorem apply_delete (h : Store fs B.dir B.loc) (k : DotFreeKey) (a : Attr) :
    B.apply fs (.delete k a) = (fs, false) ∨
    ∃ i l fs', HomeAt B.loc k.toKey i l ∧ B.apply fs (.delete k a) = (fs', true) ∧
      fs'.cwd = fs.cwd ∧ fs.tree.Updated fs'.tree (a.name :: l) none ∧
      fs.tree.fileAt (a.name :: l) ≠ none :=
  h.iDelete_spec B.pos k.look

/-- A deletion removes the first directory on the key's levels, or fails and changes nothing. -/
theorem apply_keyDelete (h : Store fs B.dir B.loc) (k : DotFreeKey) :
    (∃ i l fs', SpotAt B.loc k.toKey i l ∧ fs.tree.isDir l ∧
        (∀ j l', j < i → SpotAt B.loc k.toKey j l' → fs.tree.isDir l' = false) ∧
        B.apply fs (.keyDelete k) = (fs', true) ∧ fs'.cwd = fs.cwd ∧
        Removed fs.tree fs'.tree l) ∨
      ((∀ i l, SpotAt B.loc k.toKey i l → fs.tree.isDir l = false) ∧
        B.apply fs (.keyDelete k) = (fs, false)) :=
  h.baseDir.iKeyDelete_spec (by exact_mod_cast B.pos) k.look

/-- Every call leaves a store. -/
theorem store_apply (h : Store fs B.dir B.loc) (op : Op) :
    Store (B.apply fs op).1 B.dir B.loc := by
  cases op with
  | put p =>
    rcases apply_put h p with he | ⟨i, l, fs', hp, hs, he⟩
    · rwa [he]
    · rw [he]
      exact hs.store h hp.home
  | delete k a =>
    rcases apply_delete h k a with he | ⟨i, l, fs', hl, he, hc, hu, -⟩
    · rwa [he]
    · rw [he]
      exact (Shrunk.of_updated hc (hl.below.cons a.name) hu).store h
  | keyDelete k =>
    rcases apply_keyDelete h k with ⟨i, l, fs', hl, -, -, he, hc, hr⟩ | ⟨-, he⟩
    · rw [he]
      exact (Shrunk.of_removed hc hl.below hr).store h
    · rwa [he]

variable (B) in
theorem store_run (ops : List Op) : Store (B.run ops).fs B.dir B.loc :=
  run_induction (P := fun s => Store s.fs B.dir B.loc) store_start
    fun _ op _ h => store_apply h op

end Base

/-! ## A base directory -/

/-- A host that enumerates entries as they come. -/
def plainHost : Host where
  order _ es := es
  order_perm _ _ := List.Perm.refl _
  typed _ _ := true
  dirBytes := none
  fnmatch _ _ := true

/-- The root of an empty tree, with one key to a directory. -/
def rootBase : Base where
  host := plainHost
  maxPageCount := 1
  pos := Nat.one_pos
  fs := ⟨bare fun _ => none, []⟩
  dir := [slash]
  loc := []
  isAt := ⟨by decide, rfl, isDir_nil _⟩
  empty l hb := by rw [get_bare, if_neg hb.2]

/-- The root of a tree with these directories. -/
def rootWith (dirs : List Bytes) : FileSystem :=
  dirs.foldl (fun fs dir => (forceDirectories fs dir).1) rootBase.fs

theorem made_rootWith (dirs : List Bytes) :
    MadeOn (fun _ => True) rootBase.fs (rootWith dirs) :=
  List.foldlRecOn dirs (fun fs dir => (forceDirectories fs dir).1) (MadeOn.refl _ _)
    fun fs h dir _ => h.trans (forceDirectories_made fs dir)

theorem noLink_rootWith (dirs : List Bytes) (l : Loc) : (rootWith dirs).tree.NoLink l := by
  refine (made_rootWith dirs).noLink fun target hl => ?_
  rw [show rootBase.fs.tree.get l = _ from get_bare _ l] at hl
  split_ifs at hl
  simp at hl

/-- A put of the default attribute. -/
def Put.ofValue (key : DotFreeKey) (value : Bytes) : Put :=
  ⟨key, .default, value, .dkIgnored, Or.inl rfl⟩

/-! ## Runs that delete no key -/

/-- The operation is not the deletion of a key. -/
def Op.KeepsKeys (op : Op) : Prop :=
  ∀ k, op ≠ .keyDelete k

/-- A store that has only grown in its directories. -/
structure Grown (B : Base) (fs : FileSystem) : Prop where
  store : Store fs B.dir B.loc
  full : FullParents fs.tree B.maxPageCount B.loc
  unique : ∀ k, HomeUnique fs.tree B.loc k

namespace Grown

variable {B : Base} {fs fs' : FileSystem} {k : Key} {i : ℕ} {l : Loc} {a : Attr} {v : Bytes}
  {policy : TIDBProcesses}

theorem start : Grown B B.fs where
  store := Base.store_start
  full := fun _ _ p hp hd => absurd (B.empty p hp.below) (get_ne_none_of_isDir hd)
  unique := fun _ _ _ l _ hl _ hd => absurd (B.empty l hl.below) (get_ne_none_of_isDir hd)

theorem stored (h : Grown B fs) (hp : PutPlace fs.tree B.maxPageCount B.loc k policy i l)
    (hs : Stored fs fs' B.loc l a.name v) : Grown B fs' where
  store := hs.store h.store hp.home
  full := (hs.grew h.store hp.home).fullParents hp h.full
  unique := fun k' => (hs.grew h.store hp.home).homeUnique hp h.full (h.unique k')

/-- Removing an attribute's file leaves a grown store. -/
theorem updated (h : Grown B fs) (hl : HomeAt B.loc k i l) (hc : fs'.cwd = fs.cwd)
    (hu : fs.tree.Updated fs'.tree (a.name :: l) none) (hv : fs.tree.fileAt (a.name :: l) ≠ none) :
    Grown B fs' := by
  have hs := Shrunk.of_updated hc (hl.below.cons a.name) hu
  refine ⟨hs.store h.store, fun k' j p hp hd => ?_, fun k' => hs.homeUnique (h.unique k')⟩
  refine (h.full k' j p hp (hs.isDir_of hd)).trans (visibleCount_mono fun c _ hdc => ?_)
  exact (isDir_of_updated hu hv).2 hdc

/-- A call that keeps the keys leaves a grown store. -/
theorem apply (h : Grown B fs) {op : Op} (hop : op.KeepsKeys) : Grown B (B.apply fs op).1 := by
  cases op with
  | put p =>
    rcases Base.apply_put h.store p with he | ⟨i, l, fs', hp, hs, he⟩
    · rwa [he]
    · rw [he]
      exact h.stored hp hs
  | delete k a =>
    rcases Base.apply_delete h.store k a with he | ⟨i, l, fs', hl, he, hc, hu, hv⟩
    · rwa [he]
    · rw [he]
      exact h.updated hl hc hu hv
  | keyDelete k => exact absurd rfl (hop k)

end Grown

theorem Base.grown_run (B : Base) {ops : List Op} (hops : ∀ op ∈ ops, op.KeepsKeys) :
    Grown B (B.run ops).fs :=
  Base.run_induction (P := fun s => Grown B s.fs) Grown.start
    fun _ op hop h => h.apply (hops op hop)

end Idb
