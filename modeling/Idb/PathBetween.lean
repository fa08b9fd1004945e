import Idb.FileSystem

/-!
# From one path to another

`GetRelativePath` drops the components that two paths have in common, goes up once for every
separator that is left of the first, and appends what is left of the second. A separator at the
end of the first path does not count. It is taken off also when it is gone already, because all
of the path was dropped ; then the count is negative and the loop does not end. The room for the
result is counted in an `int`, three bytes for a step up and all of the second path
(`leadsBetween_iff`).
-/

namespace Idb

open Posix FileSystem FileTree

/-! ## The function -/

/-- `strchr` : what comes before the first separator and what comes after it. -/
def firstSep (p : Bytes) : Option (Bytes × Bytes) :=
  if slash ∈ p then some (p.takeWhile (· ≠ slash), (p.dropWhile (· ≠ slash)).tail) else none

/-- Drop components of both while they are the same, in at most `fuel` turns. -/
def stripCommon : ℕ → Bytes → Bytes → Bytes × Bytes
  | 0, vFromPart, vToPart => (vFromPart, vToPart)
  | fuel + 1, vFromPart, vToPart =>
    match firstSep vFromPart, firstSep vToPart with
    | some (c, vFrom), some (d, vTo) =>
      if c = d then stripCommon fuel vFrom vTo else (vFromPart, vToPart)
    | _, _ => (vFromPart, vToPart)

/-- `"../"`. -/
def parentStep : Bytes :=
  [dot, dot, slash]

/-- `while (vSepCount)`, if it ends within `fuel` turns. -/
def parentLoop : ℕ → ℤ → Bytes → Option Bytes
  | 0, vSepCount, result => if vSepCount = 0 then some result else none
  | fuel + 1, vSepCount, result =>
    if vSepCount = 0 then some result else parentLoop fuel (vSepCount - 1) (result ++ parentStep)

/-- `GetRelativePath`, if it returns within `fuel` turns. The lengths that are passed are those of
the paths, and `int`s. `sdsalloc` has no block for a size beyond the `int`s. -/
def getRelativePath (fuel : ℕ) (aFrom aTo : Bytes) : Option Bytes :=
  let (vFromPart, vToPart) :=
    stripCommon aFrom.length (aFrom.dropWhile (· = slash)) (aTo.dropWhile (· = slash))
  let vSepCount : ℤ := vFromPart.count slash
  let vSepCount := if aFrom.getLast? = some slash then vSepCount - 1 else vSepCount
  if aFrom.length < 2 ^ 31 ∧ aTo.length + vSepCount * 3 < 2 ^ 31 then
    (parentLoop fuel vSepCount []).map (· ++ vToPart)
  else none

/-! ## Paths -/

/-- The text of names with separators between them, and maybe one behind. -/
def joined (trailing : Bool) : List Name → Bytes
  | [] => []
  | c :: cs => if cs = [] && !trailing then c else c ++ slash :: joined trailing cs

/-- A path of proper names. -/
structure PlainPath where
  absolute : Bool
  names : List Name
  trailing : Bool
  ne_nil : names ≠ []
  valid : ∀ c ∈ names, ValidName c

/-- The path as a text. -/
def PlainPath.text (p : PlainPath) : Bytes :=
  (if p.absolute then [slash] else []) ++ joined p.trailing p.names

/-- The relative path is found, and leads to `q` from the directory that `p` names something
in. -/
def LeadsBetween (p q : PlainPath) : Prop :=
  ∃ fuel r, getRelativePath fuel p.text q.text = some r ∧
    (components r).foldl enter p.names.dropLast.reverse = q.names.reverse

/-! ## What is dropped -/

/-- How many components are dropped. The last of either path counts if a separator is behind
it. -/
def commonNames (s t : Bool) : List Name → List Name → ℕ
  | c :: cs, d :: ds =>
    if c = d ∧ (cs ≠ [] ∨ s) ∧ (ds ≠ [] ∨ t) then commonNames s t cs ds + 1 else 0
  | _, _ => 0

section

variable {s t : Bool} {c : Name} {cs ds : List Name}

theorem firstSep_of_not_mem (h : slash ∉ c) : firstSep c = none :=
  if_neg h

theorem firstSep_append (h : slash ∉ c) (rest : Bytes) :
    firstSep (c ++ slash :: rest) = some (c, rest) := by
  have hc : ∀ b ∈ c, (decide (b ≠ slash)) = true := fun b hb =>
    decide_eq_true fun he => h (he ▸ hb)
  rw [firstSep, if_pos (by simp), List.takeWhile_append_of_pos hc, List.dropWhile_append_of_pos hc]
  simp

/-- The first separator of joined names is behind the first. -/
theorem firstSep_joined (h : slash ∉ c) :
    firstSep (joined s (c :: cs)) =
      if cs ≠ [] ∨ s then some (c, joined s cs) else none := by
  rw [joined]
  by_cases hlast : cs = [] && !s
  · rw [if_pos hlast, firstSep_of_not_mem h, if_neg (by simpa using hlast)]
  · rw [if_neg hlast, firstSep_append h, if_pos (by simpa [or_iff_not_imp_left] using hlast)]

/-- Stripping the common part of two joined paths drops their common names. -/
theorem stripCommon_joined (hcs : ∀ c ∈ cs, ValidName c) (hds : ∀ d ∈ ds, ValidName d) {fuel : ℕ}
    (hf : cs.length ≤ fuel) :
    stripCommon fuel (joined s cs) (joined t ds) =
      (joined s (cs.drop (commonNames s t cs ds)), joined t (ds.drop (commonNames s t cs ds))) := by
  induction cs generalizing ds fuel with
  | nil => cases fuel <;> simp [stripCommon, joined, commonNames, firstSep]
  | cons c cs ih =>
    obtain ⟨fuel, rfl⟩ : ∃ f, fuel = f + 1 := ⟨fuel - 1, by simp at hf; omega⟩
    cases ds with
    | nil =>
      rw [stripCommon, show firstSep (joined t []) = none from rfl, commonNames]
      · cases firstSep (joined s (c :: cs)) <;> rfl
      · simp
    | cons d ds =>
      have hc := (hcs c List.mem_cons_self).2.1
      have hd := (hds d List.mem_cons_self).2.1
      have ih' := @ih ds (fun x hx => hcs x (List.mem_cons_of_mem c hx))
        (fun x hx => hds x (List.mem_cons_of_mem d hx)) fuel (by simpa using hf)
      rw [commonNames]
      by_cases hall : c = d ∧ (cs ≠ [] ∨ s) ∧ (ds ≠ [] ∨ t)
      · rw [if_pos hall, stripCommon, firstSep_joined hc, firstSep_joined hd, if_pos hall.2.1,
          if_pos hall.2.2]
        dsimp only
        rw [if_pos hall.1, ih', List.drop_succ_cons, List.drop_succ_cons]
      · rw [if_neg hall, stripCommon, firstSep_joined hc, firstSep_joined hd]
        by_cases h₁ : cs ≠ [] ∨ s
        · by_cases h₂ : ds ≠ [] ∨ t
          · rw [if_pos h₁, if_pos h₂]
            dsimp only
            rw [if_neg fun heq => hall ⟨heq, h₁, h₂⟩]
            rfl
          · rw [if_pos h₁, if_neg h₂]
            rfl
        · rw [if_neg h₁]
          rfl

/-- The common names are the same in both. -/
theorem take_commonNames :
    cs.take (commonNames s t cs ds) = ds.take (commonNames s t cs ds) := by
  induction cs generalizing ds with
  | nil => simp [commonNames]
  | cons c cs ih =>
    cases ds with
    | nil => simp [commonNames]
    | cons d ds =>
      rw [commonNames]
      split_ifs with h
      · rw [List.take_succ_cons, List.take_succ_cons, h.1, ih]
      · rfl

/-- No more names are common than there are. -/
theorem commonNames_le : commonNames s t cs ds ≤ cs.length := by
  induction cs generalizing ds with
  | nil => simp [commonNames]
  | cons c cs ih =>
    cases ds with
    | nil => simp [commonNames]
    | cons d ds =>
      rw [commonNames]
      split_ifs with h
      · exact Nat.succ_le_succ ih
      · exact Nat.zero_le _

/-- Some of the second path is left, if no separator ends it. -/
theorem commonNames_lt (hne : ds ≠ []) :
    commonNames s false cs ds < ds.length := by
  induction cs generalizing ds with
  | nil =>
    obtain ⟨d, ds, rfl⟩ := List.exists_cons_of_ne_nil hne
    simp [commonNames]
  | cons c cs ih =>
    obtain ⟨d, ds, rfl⟩ := List.exists_cons_of_ne_nil hne
    rw [commonNames]
    by_cases hc : c = d ∧ (cs ≠ [] ∨ s) ∧ (ds ≠ [] ∨ (false : Bool))
    · rw [if_pos hc, List.length_cons]
      exact Nat.succ_lt_succ (ih (by simpa using hc.2.2))
    · rw [if_neg hc]
      simp

/-- All of the first path is dropped. -/
theorem commonNames_eq_length (hne : cs ≠ []) : commonNames s t cs ds = cs.length ↔
    s ∧ cs <+: ds ∧ (cs.length < ds.length ∨ t) := by
  induction cs generalizing ds with
  | nil => exact absurd rfl hne
  | cons c cs ih =>
    cases ds with
    | nil => simp [commonNames]
    | cons d ds =>
      have hif : ∀ (P : Prop) [Decidable P] (k n : ℕ),
          (if P then k + 1 else 0) = n + 1 ↔ P ∧ k = n := by
        intro P _ k n
        split_ifs with h <;> simp [h]
      rw [commonNames, List.length_cons, hif, List.cons_prefix_cons, List.length_cons,
        Nat.add_lt_add_iff_right]
      by_cases hnil : cs = []
      · subst hnil
        have hlast : ds ≠ [] ↔ 0 < ds.length := List.length_pos_iff.symm
        simp only [commonNames, List.length_nil, hlast, List.nil_prefix, ne_eq, not_true,
          false_or, and_true]
        tauto
      · have hds : cs <+: ds → ds ≠ [] := by
          rintro ⟨r, rfl⟩
          simp [hnil]
        rw [ih hnil]
        tauto

end

/-! ## What is put together -/

section

variable {s : Bool} {c : Name} {cs : List Name} {p : Loc}

/-- A joined path has one slash fewer than names, and one more where it ends in a slash. -/
theorem count_joined (hcs : ∀ c ∈ cs, ValidName c) (hne : cs ≠ []) :
    (joined s cs).count slash + 1 = cs.length + if s then 1 else 0 := by
  induction cs with
  | nil => exact absurd rfl hne
  | cons c cs ih =>
    have hc : c.count slash = 0 := List.count_eq_zero.2 (hcs c List.mem_cons_self).2.1
    rw [joined, List.length_cons]
    by_cases hnil : cs = []
    · subst hnil
      cases s <;> simp [hc, joined]
    · rw [if_neg (by simp [hnil]), List.count_append, List.count_cons_self, hc, Nat.zero_add,
        ih (fun x hx => hcs x (List.mem_cons_of_mem c hx)) hnil, Nat.add_right_comm]

/-- A joined path ends in a slash exactly when it is joined so. -/
theorem getLast?_joined (hcs : ∀ c ∈ cs, ValidName c) (hne : cs ≠ []) :
    (joined s cs).getLast? = some slash ↔ s := by
  induction cs with
  | nil => exact absurd rfl hne
  | cons c cs ih =>
    have hc := hcs c List.mem_cons_self
    rw [joined]
    by_cases hnil : cs = []
    · subst hnil
      cases s with
      | true => simp [joined]
      | false =>
        simp only [decide_true, Bool.not_false, Bool.and_self, if_true]
        exact iff_of_false (fun h => hc.2.1 (List.mem_of_getLast? h)) (by simp)
    · have hjoined : joined s cs ≠ [] := by
        obtain ⟨d, ds, rfl⟩ := List.exists_cons_of_ne_nil hnil
        rw [joined]
        split_ifs
        · exact (hcs d (by simp)).1.1
        · simp
      rw [if_neg (by simp [hnil]), ← ih (fun x hx => hcs x (List.mem_cons_of_mem c hx)) hnil,
        List.getLast?_append_of_ne_nil _ (List.cons_ne_nil _ _), List.getLast?_cons]
      obtain ⟨b, bs, hb⟩ := List.exists_cons_of_ne_nil hjoined
      simp [hb, List.getLast?_cons]

/-- The names of a path are entered one after the other. -/
theorem enter_joined (hcs : ∀ c ∈ cs, ValidName c) :
    (components (joined s cs)).foldl enter p = cs.reverse ++ p := by
  induction cs generalizing p with
  | nil => simp [joined, components]
  | cons c cs ih =>
    have hc := hcs c List.mem_cons_self
    have ih' := @ih (c :: p) fun x hx => hcs x (List.mem_cons_of_mem c hx)
    rw [joined]
    split_ifs with hlast
    · rw [Bool.and_eq_true, decide_eq_true_iff] at hlast
      obtain rfl := hlast.1
      rw [components_of_not_mem hc.2.1, List.foldl_cons, enter_plain hc.1]
      rfl
    · rw [components_append_slash, components_of_not_mem hc.2.1, List.foldl_append,
        List.foldl_cons, enter_plain hc.1, List.foldl_nil, ih', List.reverse_cons,
        List.append_assoc]
      rfl

/-- Without the last slash, joining is intercalation. -/
theorem joined_eq_intercalate (cs : List Name) : joined false cs = [slash].intercalate cs := by
  induction cs with
  | nil => rfl
  | cons c cs ih =>
    by_cases hnil : cs = []
    · subst hnil
      simp [joined, List.intercalate]
    · obtain ⟨e, es, rfl⟩ := List.exists_cons_of_ne_nil hnil
      rw [joined, if_neg (by simp), ih]
      simp [List.intercalate]

theorem components_joined (hcs : ∀ c ∈ cs, slash ∉ c) (hne : cs ≠ []) :
    components (joined false cs) = cs := by
  rw [joined_eq_intercalate]
  exact List.splitOn_intercalate slash hcs hne

/-- The steps up. -/
def parentSteps : ℕ → Bytes
  | 0 => []
  | n + 1 => parentStep ++ parentSteps n

/-- The components of the parent steps are double dots. -/
theorem components_parentSteps (n : ℕ) (rest : Bytes) :
    components (parentSteps n ++ rest) = List.replicate n [dot, dot] ++ components rest := by
  induction n with
  | zero => rfl
  | succ n ih =>
    have hup : parentSteps (n + 1) ++ rest = [dot, dot] ++ slash :: (parentSteps n ++ rest) := rfl
    rw [hup, components_append_slash, components_of_not_mem (by decide), ih]
    rfl

theorem foldl_enter_replicate (i : ℕ) (l : Loc) :
    (List.replicate i [dot, dot]).foldl enter l = l.drop i := by
  induction i generalizing l with
  | zero => rfl
  | succ i ih =>
    rw [List.replicate_succ, List.foldl_cons, enter_dotdot, ih, List.drop_tail]

theorem enter_parentSteps (n : ℕ) (rest : Bytes) :
    (components (parentSteps n ++ rest)).foldl enter p =
      (components rest).foldl enter (p.drop n) := by
  rw [components_parentSteps, List.foldl_append, foldl_enter_replicate]

/-- The loop ends after as many turns as there are steps up. -/
theorem parentLoop_natCast (n : ℕ) (result : Bytes) :
    parentLoop n n result = some (result ++ parentSteps n) := by
  induction n generalizing result with
  | zero => simp [parentLoop, parentSteps]
  | succ n ih =>
    rw [parentLoop, if_neg (by omega), Nat.cast_succ, add_sub_cancel_right, ih, parentSteps,
      List.append_assoc]

/-- The loop appends `n` parent steps. -/
theorem parentLoop_some {fuel n : ℕ} {result r : Bytes}
    (h : parentLoop fuel (n : ℤ) result = some r) : r = result ++ parentSteps n := by
  induction fuel generalizing n result with
  | zero =>
    rw [parentLoop] at h
    split_ifs at h with hn
    rw [Nat.cast_eq_zero.1 hn, parentSteps, List.append_nil]
    exact (Option.some.inj h).symm
  | succ fuel ih =>
    rw [parentLoop] at h
    split_ifs at h with hn
    · rw [Nat.cast_eq_zero.1 hn, parentSteps, List.append_nil]
      exact (Option.some.inj h).symm
    · obtain ⟨n, rfl⟩ : ∃ m, n = m + 1 := ⟨n - 1, by omega⟩
      rw [Nat.cast_succ, add_sub_cancel_right] at h
      rw [ih h, parentSteps, List.append_assoc]

/-- With a negative count the loop does not end. -/
theorem parentLoop_neg {n : ℤ} (h : n < 0) (fuel : ℕ) (result : Bytes) :
    parentLoop fuel n result = none := by
  induction fuel generalizing n result with
  | zero => exact if_neg h.ne
  | succ fuel ih =>
    rw [parentLoop, if_neg h.ne]
    exact ih (by omega) _

end

/-! ## When it leads there -/

namespace PlainPath

variable (p : PlainPath)

/-- A joined path starts with a byte other than a slash. -/
theorem joined_head : ∃ b bs, joined p.trailing p.names = b :: bs ∧ b ≠ slash := by
  obtain ⟨c, cs, hn⟩ := List.exists_cons_of_ne_nil p.ne_nil
  have hc := p.valid c (hn ▸ List.mem_cons_self)
  obtain ⟨b, bs, rfl⟩ := List.exists_cons_of_ne_nil hc.1.1
  have hb : b ≠ slash := fun he => hc.2.1 (he ▸ List.mem_cons_self)
  rw [hn, joined]
  split_ifs
  · exact ⟨b, bs, rfl, hb⟩
  · exact ⟨b, _, rfl, hb⟩

theorem dropWhile_text : p.text.dropWhile (· = slash) = joined p.trailing p.names := by
  obtain ⟨b, bs, he, hb⟩ := p.joined_head
  rw [text, he]
  split_ifs <;> simp [hb]

theorem getLast?_text : p.text.getLast? = some slash ↔ p.trailing := by
  obtain ⟨b, bs, he, -⟩ := p.joined_head
  rw [text, List.getLast?_append_of_ne_nil _ (by simp [he]), getLast?_joined p.valid p.ne_nil]

/-- A path has no more names than bytes. -/
theorem length_names_le : p.names.length ≤ p.text.length := by
  have hle : ∀ cs : List Name, (∀ c ∈ cs, ValidName c) →
      cs.length ≤ (joined p.trailing cs).length := by
    intro cs hcs
    induction cs with
    | nil => exact Nat.zero_le _
    | cons c cs ih =>
      have hc := List.length_pos_iff.2 (hcs c List.mem_cons_self).1.1
      have := ih fun x hx => hcs x (List.mem_cons_of_mem c hx)
      rw [joined]
      split_ifs with hlast
      · rw [Bool.and_eq_true, decide_eq_true_iff] at hlast
        rw [hlast.1]
        exact hc
      · rw [List.length_append, List.length_cons, List.length_cons]
        omega
  rw [text, List.length_append]
  exact (hle _ p.valid).trans (Nat.le_add_left _ _)

/-- All components are dropped before the count. -/
def Swallowed (p q : PlainPath) : Prop :=
  p.trailing ∧ p.names <+: q.names ∧ (p.names.length < q.names.length ∨ q.trailing)

/-- The steps up, counted by `vSepCount`. -/
def stepsUp (p q : PlainPath) : ℤ :=
  p.names.length - commonNames p.trailing q.trailing p.names q.names - 1

/-- The length of the first path is an `int`, and so is the room for the result. -/
def Measured (p q : PlainPath) : Prop :=
  p.text.length < 2 ^ 31 ∧ (q.text.length : ℤ) + p.stepsUp q * 3 < 2 ^ 31

instance (p q : PlainPath) : Decidable (p.Measured q) :=
  inferInstanceAs (Decidable (_ ∧ _))

end PlainPath

/-- The count of the separators and what is left of the second path. -/
theorem getRelativePath_eq (p q : PlainPath) {k : ℕ}
    (hk : commonNames p.trailing q.trailing p.names q.names = k) (fuel : ℕ) :
    getRelativePath fuel p.text q.text = if p.Measured q then
      (parentLoop fuel (p.stepsUp q) []).map (· ++ joined q.trailing (q.names.drop k))
      else none := by
  have hvalid : ∀ c ∈ p.names.drop k, ValidName c := fun c hc =>
    p.valid c (List.mem_of_mem_drop hc)
  have hcount : (if p.text.getLast? = some slash
      then ((joined p.trailing (p.names.drop k)).count slash : ℤ) - 1
      else ((joined p.trailing (p.names.drop k)).count slash : ℤ)) = p.stepsUp q := by
    rw [PlainPath.stepsUp, hk]
    have hle : k ≤ p.names.length := hk ▸ commonNames_le
    by_cases hnil : p.names.drop k = []
    · have hlen : k = p.names.length := le_antisymm hle (List.drop_eq_nil_iff.1 hnil)
      have hall := (commonNames_eq_length p.ne_nil).1 (hk.trans hlen)
      rw [if_pos (p.getLast?_text.2 hall.1), hnil, hlen]
      simp [joined]
    · have hcount := count_joined (s := p.trailing) hvalid hnil
      rw [List.length_drop] at hcount
      have hlt : k < p.names.length := by
        by_contra h
        exact hnil (List.drop_eq_nil_iff.2 (by omega))
      by_cases ht : p.trailing
      · rw [if_pos ht] at hcount
        rw [if_pos (p.getLast?_text.2 ht)]
        omega
      · rw [if_neg ht] at hcount
        rw [if_neg fun h => ht (p.getLast?_text.1 h)]
        omega
  rw [getRelativePath, p.dropWhile_text, q.dropWhile_text,
    stripCommon_joined p.valid q.valid p.length_names_le, hk]
  dsimp only
  rw [hcount]
  rfl

/-- The relative path leads to its target exactly if not all of the first path is dropped with
a separator at its end, and the room for it can be counted. -/
theorem leadsBetween_iff (p q : PlainPath) :
    LeadsBetween p q ↔ ¬p.Swallowed q ∧ p.Measured q := by
  have hrel := getRelativePath_eq p q rfl
  have hup : p.stepsUp q =
      p.names.length - commonNames p.trailing q.trailing p.names q.names - 1 := rfl
  set k := commonNames p.trailing q.trailing p.names q.names
  have hle : k ≤ p.names.length := commonNames_le
  have hiff : k = p.names.length ↔ p.Swallowed q := commonNames_eq_length p.ne_nil
  constructor
  · rintro ⟨fuel, r, hr, -⟩
    rw [hrel] at hr
    split_ifs at hr with hm
    refine ⟨fun hsw => ?_, hm⟩
    rw [parentLoop_neg (by have := hiff.2 hsw; omega)] at hr
    simp at hr
  · rintro ⟨hsw, hm⟩
    have hlt : k < p.names.length := lt_of_le_of_ne hle fun h => hsw (hiff.1 h)
    obtain ⟨n, hn⟩ : ∃ n, p.names.length = n + 1 + k := ⟨p.names.length - k - 1, by omega⟩
    have hcount : p.stepsUp q = (n : ℤ) := by omega
    refine ⟨n, parentSteps n ++ joined q.trailing (q.names.drop k), ?_, ?_⟩
    · rw [hrel, if_pos hm, hcount, parentLoop_natCast]
      rfl
    · rw [enter_parentSteps, enter_joined fun c hc => q.valid c (List.mem_of_mem_drop hc)]
      have htake : (p.names.dropLast.reverse).drop n = (q.names.take k).reverse := by
        have hsame : p.names.take k = q.names.take k := take_commonNames
        rw [← hsame, List.drop_reverse, List.dropLast_eq_take, List.take_take, List.length_take]
        congr 2
        omega
      rw [htake, ← List.reverse_append, List.take_append_drop]

/-- From `a/` to `a/b`. -/
theorem not_leadsBetween_slash : ¬LeadsBetween
    ⟨false, [[97]], true, by decide, by decide⟩
    ⟨false, [[97], [98]], false, by decide, by decide⟩ := by
  rintro ⟨fuel, r, hr, -⟩
  rw [getRelativePath_eq _ _ (show commonNames true false [[97]] [[97], [98]] = 1 by decide),
    if_pos (by decide), parentLoop_neg (by decide)] at hr
  simp at hr

end Idb
