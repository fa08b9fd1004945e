import Idb.Runs
import Idb.ValueReads

/-!
# The store as a map

As long as no key is deleted, the store is a map from keys and attributes to values : an
attribute holds the value last put and not deleted since (`lastValue`). The file of
the attribute at a place of its key holds that value (`Remembers`), and the lookups find
the place. It is read if it is not too long (`readsLastPut_iff`).
-/

namespace Idb

open Posix FileSystem FileTree

/-- The value last put successfully under a key and attribute, if no successful delete
of it came after. The log begins with the last operation. -/
def lastValue (k : DotFreeKey) (a : Attr) : List (Op × Bool) → Option Bytes
  | [] => none
  | (_, false) :: log => lastValue k a log
  | (.put p, true) :: log =>
    if p.key = k ∧ p.attr.name = a.name then some p.value else lastValue k a log
  | (.delete k' a', true) :: log =>
    if k' = k ∧ a'.name = a.name then none else lastValue k a log
  | (.keyDelete _, true) :: log => lastValue k a log

/-- A file of the attribute with this value lies at a place of the key. -/
def Holds (t : FileTree Xattrs) (d : Loc) (k : Key) (a : Attr) (v : Bytes) : Prop :=
  ∃ i l, HomeAt d k i l ∧ t.fileAt (a.name :: l) = some v

/-- The operation is on this key and attribute. -/
def Op.On (k : DotFreeKey) (a : Attr) : Op → Prop
  | .put p => p.key = k ∧ p.attr.name = a.name
  | .delete k' a' => k' = k ∧ a'.name = a.name
  | .keyDelete k' => k' = k

section

variable {fs fs' : FileSystem} {t t' : FileTree Xattrs} {D : Bytes} {d l : Loc}
  {k k' : DotFreeKey} {a a' : Attr} {i : ℕ} {v w : Bytes}

/-- The file of one attribute of one key is not that of another. -/
theorem HomeAt.attr_inj {k k' : Key} {j : ℕ} {l' : Loc} (h : HomeAt d k i l)
    (h' : HomeAt d k' j l') (he : a.name :: l = a'.name :: l') : k = k' ∧ a.name = a'.name := by
  rw [List.cons.injEq] at he
  exact ⟨(h.inj (he.2 ▸ h')).1, he.1⟩

/-- After a store the key's attribute holds the new value. -/
theorem Stored.holds_same (hs : Stored fs fs' d l a'.name v) (hl : HomeAt d k.toKey i l)
    (hu : HomeUnique fs'.tree d k.toKey) (ha : a'.name = a.name) :
    Holds fs'.tree d k.toKey a w ↔ w = v := by
  constructor
  · rintro ⟨j, l', hl', hw⟩
    obtain rfl := hu i j l l' hl hl' hs.isDir_home (isDir_of_fileAt hw)
    rw [hl'.unique hl, ← ha, hs.file, Option.some.injEq] at hw
    exact hw.symm
  · rintro rfl
    exact ⟨i, l, hl, ha ▸ hs.file⟩

/-- A store leaves every other key and attribute. -/
theorem Stored.holds_other {k k' : Key} (hs : Stored fs fs' d l a'.name v)
    (hl : HomeAt d k' i l) (hne : ¬(k' = k ∧ a'.name = a.name)) :
    Holds fs'.tree d k a w ↔ Holds fs.tree d k a w := by
  refine exists_congr fun j => exists_congr fun l' => and_congr_right fun hl' => ?_
  rw [hs.fileAt_eq, if_neg]
  intro he
  obtain ⟨hk, ha⟩ := hl'.attr_inj hl he
  exact hne ⟨hk.symm, ha.symm⟩

theorem fileAt_updated {q : Loc} (hu : t.Updated t' l none) :
    t'.fileAt q = if q = l then none else t.fileAt q := by
  rw [fileAt, hu q]
  split_ifs <;> rfl

/-- An attribute whose file is removed at the key's only home is not held. -/
theorem not_holds_updated (hu : t.Updated t' (a'.name :: l) none) (hl : HomeAt d k.toKey i l)
    (hd : t'.isDir l) (huniq : HomeUnique t' d k.toKey) (ha : a'.name = a.name) :
    ¬Holds t' d k.toKey a w := by
  rintro ⟨j, l', hl', hw⟩
  obtain rfl := huniq i j l l' hl hl' hd (isDir_of_fileAt hw)
  rw [hl'.unique hl, fileAt_updated hu, if_pos (by rw [ha])] at hw
  simp at hw

/-- Removing one attribute's file leaves every other key and attribute. -/
theorem holds_updated_other (hu : t.Updated t' (a'.name :: l) none) (hl : HomeAt d k'.toKey i l)
    (hne : ¬(k' = k ∧ a'.name = a.name)) :
    Holds t' d k.toKey a w ↔ Holds t d k.toKey a w := by
  refine exists_congr fun j => exists_congr fun l' => and_congr_right fun hl' => ?_
  rw [fileAt_updated hu, if_neg]
  intro he
  obtain ⟨hk, ha⟩ := hl'.attr_inj hl he
  exact hne ⟨DotFreeKey.ext_key hk.symm, ha.symm⟩

end

/-! ## The map over runs -/

/-- The files hold what the log says. -/
def Remembers (B : Base) (s : RunState) : Prop :=
  ∀ (k : DotFreeKey) (a : Attr) (w : Bytes),
    Holds s.fs.tree B.loc k.toKey a w ↔ lastValue k a s.log = some w

section

variable {B : Base}

theorem remembers_start : Remembers B ⟨B.fs, []⟩ := by
  intro k a w
  refine ⟨?_, fun h => by simp [lastValue] at h⟩
  rintro ⟨i, l, hl, hw⟩
  simp [fileAt, B.empty _ (hl.below.cons a.name)] at hw

/-- One call keeps the store in step with its log. -/
theorem remembers_step {s : RunState} {op : Op} (hg : Grown B s.fs) (hop : op.KeepsKeys)
    (h : Remembers B s) : Remembers B (B.step s op) := by
  have hg' := hg.apply hop
  intro k a w
  cases op with
  | put p =>
    rcases Base.apply_put hg.store p with he | ⟨i, l, fs', hp, hs, he⟩
    · simp only [Base.step, he, lastValue]
      exact h k a w
    · rw [he] at hg'
      simp only [Base.step, he, lastValue]
      split_ifs with hon
      · obtain ⟨rfl, ha⟩ := hon
        rw [hs.holds_same hp.home (hg'.unique _) ha, Option.some.injEq, eq_comm]
      · rw [hs.holds_other hp.home fun he => hon ⟨DotFreeKey.ext_key he.1, he.2⟩]
        exact h k a w
  | delete k' a' =>
    rcases Base.apply_delete hg.store k' a' with he | ⟨i, l, fs', hl, he, hc, hu, hv⟩
    · simp only [Base.step, he, lastValue]
      exact h k a w
    · rw [he] at hg'
      simp only [Base.step, he, lastValue]
      split_ifs with hon
      · obtain ⟨rfl, ha⟩ := hon
        obtain ⟨v, hv⟩ := Option.ne_none_iff_exists'.1 hv
        have hd := (isDir_of_updated hu (by rw [hv]; simp)).2 (isDir_of_fileAt hv)
        simp [not_holds_updated hu hl hd (hg'.unique _) ha]
      · rw [holds_updated_other hu hl hon]
        exact h k a w
  | keyDelete k' => exact absurd rfl (hop k')

theorem remembers_run {ops : List Op} (hops : ∀ op ∈ ops, op.KeepsKeys) :
    Remembers B (B.run ops) :=
  (Base.run_induction (P := fun s => Grown B s.fs ∧ Remembers B s)
    ⟨Grown.start, remembers_start⟩ fun _ op hop h =>
      ⟨h.1.apply (hops op hop), remembers_step h.1 (hops op hop) h.2⟩).2

/-- An attribute reads as the value of its file. -/
theorem Grown.iGet_eq_some {fs : FileSystem} (h : Grown B fs) (host : Host) (k : DotFreeKey)
    (a : Attr) (v : Bytes) :
    iGet host B.maxPageCount fs B.dir k.val a.val storeInFile = some v ↔
      Holds fs.tree B.loc k.toKey a v :=
  h.store.iGet_eq_some B.pos k.look (h.unique _)

/-- `iGet` over a run that deletes no key. -/
theorem iGet_run (B : Base) {ops : List Op} (hops : ∀ op ∈ ops, op.KeepsKeys) (k : DotFreeKey)
    (a : Attr) : iGet B.host B.maxPageCount (B.run ops).fs B.dir k.val a.val storeInFile =
      lastValue k a (B.run ops).log := by
  refine Option.ext fun v => ?_
  rw [(B.grown_run hops).iGet_eq_some, remembers_run hops]

/-- `iGet` over a run and one operation on another key or attribute. -/
theorem iGet_run_other (B : Base) {ops : List Op} (hops : ∀ op ∈ ops, op.KeepsKeys)
    {k : DotFreeKey} {a : Attr} {op : Op} (hop : op.KeepsKeys) (hon : ¬op.On k a) :
    iGet B.host B.maxPageCount (B.apply (B.run ops).fs op).1 B.dir k.val a.val storeInFile =
      iGet B.host B.maxPageCount (B.run ops).fs B.dir k.val a.val storeInFile := by
  have hops' : ∀ op' ∈ ops ++ [op], op'.KeepsKeys := by
    intro op' hmem
    rcases List.mem_append.1 hmem with hm | hm
    · exact hops op' hm
    · rw [List.mem_singleton.1 hm]
      exact hop
  have hget' := iGet_run B hops' k a
  rw [Base.run_concat] at hget'
  rw [iGet_run B hops k a]
  refine hget'.trans ?_
  simp only [Base.step]
  cases (B.apply (B.run ops).fs op).2 <;> cases op <;> simp_all [lastValue, Op.On]

/-- After the run `iGet` returns the value last put and not deleted since, `iIsExists` tells
whether there is one, and an operation on another key or attribute does not change what is
returned. -/
structure ReadsLastPut (B : Base) (ops : List Op) (k : DotFreeKey) (a : Attr) : Prop where
  get : returned (iGet B.host B.maxPageCount (B.run ops).fs B.dir k.val a.val storeInFile) =
    some (lastValue k a (B.run ops).log)
  isExists : ∃ value, returned (iGet B.host B.maxPageCount (B.run ops).fs B.dir k.val a.val
      storeInFile) = some value ∧
    iIsExists B.maxPageCount (B.run ops).fs B.dir k.val a.val storeInFile = value.isSome
  frame : ∀ op : Op, op.KeepsKeys → ¬op.On k a →
    returned (iGet B.host B.maxPageCount (B.apply (B.run ops).fs op).1 B.dir k.val a.val
      storeInFile) =
    returned (iGet B.host B.maxPageCount (B.run ops).fs B.dir k.val a.val storeInFile)

/-- The last put is read exactly when its value is short enough to be returned. -/
theorem readsLastPut_iff_returned (B : Base) {ops : List Op} (hops : ∀ op ∈ ops, op.KeepsKeys)
    (k : DotFreeKey) (a : Attr) : ReadsLastPut B ops k a ↔
      returned (lastValue k a (B.run ops).log) = some (lastValue k a (B.run ops).log) := by
  have hget := iGet_run B hops k a
  refine ⟨fun h => hget ▸ h.get, fun h => ⟨by rw [hget, h], ⟨_, by rw [hget, h], ?_⟩, ?_⟩⟩
  · rw [(B.grown_run hops).store.iIsExists_eq B.host k.look, hget]
  · intro op hop hon
    rw [iGet_run_other B hops hop hon]

/-- A run that deletes no key is a run of a map, except that values that are too long are not
read. -/
theorem readsLastPut_iff (B : Base) (ops : List Op) (hops : ∀ op ∈ ops, op.KeepsKeys)
    (k : DotFreeKey) (a : Attr) : ReadsLastPut B ops k a ↔
      ∀ v, lastValue k a (B.run ops).log = some v → v.length < Sdshdr.sdsLimit := by
  rw [readsLastPut_iff_returned B hops, returned_eq_some]
  exact and_iff_right rfl

end

/-- The key `x`. -/
def keyX : DotFreeKey :=
  ⟨⟨[120], by decide, by decide⟩, by decide⟩

/-- The key `ab`. -/
def keyAb : DotFreeKey :=
  ⟨⟨[97, 98], by decide, by decide⟩, by decide⟩

/-- `ab` is put twice, the second time beside `x` in the full directory. -/
def overwritingOps : List Op :=
  [.put (.ofValue keyX [49]), .put (.ofValue keyAb [50]), .delete keyX .default,
    .put (.ofValue keyAb [51])]

theorem overwritingOps_keepsKeys : ∀ op ∈ overwritingOps, op.KeepsKeys := by
  intro op hop k
  simp only [overwritingOps, List.mem_cons, List.not_mem_nil, or_false] at hop
  rcases hop with rfl | rfl | rfl | rfl <;> simp

/-- The run reads the second value of `ab`. -/
theorem overwritingOps_readsLastPut :
    lastValue keyAb .default (rootBase.run overwritingOps).log = some [51] ∧
      (ReadsLastPut rootBase overwritingOps keyAb .default ↔
        ∀ v, lastValue keyAb .default (rootBase.run overwritingOps).log = some v →
          v.length < Sdshdr.sdsLimit) :=
  ⟨by decide +kernel,
    readsLastPut_iff rootBase overwritingOps overwritingOps_keepsKeys keyAb .default⟩

/-- The shortest value that is too long is put, and the call that reads it aborts. -/
theorem not_readsLastPut_long : (List.replicate Sdshdr.sdsLimit (49 : UInt8)).length ≤ ioMax ∧
    (∀ junk, readInto junk (makeAttrFileName (joinName rootBase.dir keyX.val) none)
      (List.replicate Sdshdr.sdsLimit 49) = none) ∧
    ¬ReadsLastPut rootBase [.put (.ofValue keyX (List.replicate Sdshdr.sdsLimit 49))] keyX
      .default := by
  generalize hv : List.replicate Sdshdr.sdsLimit (49 : UInt8) = v
  have hlen : v.length = Sdshdr.sdsLimit := by rw [← hv, List.length_replicate]
  have hmax : v.length ≤ ioMax := hlen.trans_le (by decide)
  have hput : (iPut rootBase.host rootBase.maxPageCount rootBase.fs rootBase.dir .dkIgnored
      (some keyX.val) v Attr.default.val storeInFile).2 = 0 := by
    rw [iPut_code _ _ _ _ _ _ _ v []]
    decide +kernel
  refine ⟨hmax, fun junk => ?_, fun h => ?_⟩
  · rw [readInto_eq junk (by decide) hmax, if_neg hlen.not_lt]
  · have hlast : lastValue keyX .default (rootBase.run [.put (.ofValue keyX v)]).log = some v := by
      simp only [Base.run, List.foldl_cons, List.foldl_nil, Base.step, Base.apply, Put.ofValue,
        hput]
      simp [lastValue]
    have hops : ∀ op ∈ [Op.put (.ofValue keyX v)], op.KeepsKeys := fun op hop k => by
      simp [List.mem_singleton.1 hop]
    have hshort := (returned_eq_some.1
      ((readsLastPut_iff_returned rootBase hops keyX .default).1 h)).2 v hlast
    omega

end Idb
