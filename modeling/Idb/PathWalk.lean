import Idb.FileTree

/-!
# Path resolution

How an operating system walks the components of a path through a tree. The empty
name and `.` stay where they are, `..` names the parent (the root is its own parent),
any other name is looked up. Every component is looked up in a directory. A symbolic
link is replaced by its target, except that a caller may ask not to follow a link in
the last position; the number of links followed is limited.

The walk returns the place a path names, which need not hold anything when only the
last component is missing.
-/

namespace Posix

/-- The reasons for which the calls of this development fail. -/
inductive Errno where
  | enoent
  | eexist
  | enotdir
  | eisdir
  | einval
  | enotempty
  | eloop
  | ebusy
  | enodata
  | erange
  | e2big
  deriving DecidableEq, Repr

/-- The place the name `c` leads to from the directory `p`. -/
def enter (p : Loc) (c : Name) : Loc :=
  if c = [] ∨ c = [dot] then p else if c = [dot, dot] then p.tail else c :: p

theorem enter_plain {c : Name} (h : Plain c) (p : Loc) : enter p c = c :: p := by
  simp [enter, h.1, h.2.1, h.2.2]

@[simp] theorem enter_nil (p : Loc) : enter p [] = p := by
  simp [enter]

theorem enter_dot (p : Loc) : enter p [dot] = p := by
  simp [enter]

theorem enter_dotdot (p : Loc) : enter p [dot, dot] = p.tail := by
  simp [enter]

/-- Plain names are entered one below the other. -/
theorem foldl_enter {names : List Name} (h : ∀ n ∈ names, Plain n) (p : Loc) :
    names.foldl enter p = names.reverse ++ p := by
  induction names generalizing p with
  | nil => rfl
  | cons n names ih =>
    rw [List.foldl_cons, enter_plain (h n List.mem_cons_self),
      ih fun m hm => h m (List.mem_cons_of_mem n hm)]
    simp

/-- From a directory, a name leads up, nowhere or to an entry. -/
theorem enter_cases (p : Loc) (c : Name) :
    enter p c = p ∨ enter p c = p.tail ∨ (Plain c ∧ enter p c = c :: p) := by
  unfold enter Plain
  split_ifs with h₁ h₂
  · exact Or.inl rfl
  · exact Or.inr (Or.inl rfl)
  · rw [not_or] at h₁
    exact Or.inr (Or.inr ⟨⟨h₁.1, h₁.2, h₂⟩, rfl⟩)

namespace FileTree

variable {X : Type} (t : FileTree X)

/-- The error of looking something up in `l`, which is not a directory. -/
def lookupError (l : Loc) : Errno :=
  if (t.get l).isNone then .enoent else .enotdir

/-- Walk the names `cs` from `cur`. `follow cur target cs` continues at a symbolic link
found in `cur`; a link in the last position is followed only if `last` says so. -/
def walk (follow : Loc → Bytes → List Name → Except Errno Loc) (last : Bool) :
    Loc → List Name → Except Errno Loc
  | cur, [] => .ok cur
  | cur, c :: cs =>
    if t.isDir cur then
      match t.get (enter cur c) with
      | some (.link target) =>
        if cs = [] ∧ last = false then .ok (enter cur c) else follow cur target cs
      | _ => walk follow last (enter cur c) cs
    else .error (t.lookupError cur)

/-- The components of a path. An absolute path starts with an empty one. -/
def components (path : Bytes) : List Name :=
  path.splitOn slash

/-- The place a path is walked from, when `cur` is the current directory. -/
def startOf (cur : Loc) (path : Bytes) : Loc :=
  if path.head? = some slash then [] else cur

/-- Walk the names `cs` from `cur`, following at most `budget` symbolic links. -/
def namei (last : Bool) : ℕ → Loc → List Name → Except Errno Loc
  | 0 => t.walk (fun _ _ _ => .error .eloop) last
  | n + 1 => t.walk (fun cur target cs =>
      namei last n (startOf cur target) (components target ++ cs)) last

variable {t}

/-! ## One step of a walk -/

section

variable {follow : Loc → Bytes → List Name → Except Errno Loc} {last : Bool}
  {cur p : Loc} {c : Name} {cs : List Name}

theorem walk_cons (hd : t.isDir cur) (hl : t.NoLink (enter cur c)) :
    t.walk follow last cur (c :: cs) = t.walk follow last (enter cur c) cs := by
  rw [walk, if_pos hd]
  split
  · next target h => exact absurd h (hl target)
  · rfl

theorem walk_cons_link {target : Bytes} (hd : t.isDir cur)
    (hg : t.get (enter cur c) = some (.link target)) (hf : cs ≠ [] ∨ last = true) :
    t.walk follow last cur (c :: cs) = follow cur target cs := by
  have hn : ¬(cs = [] ∧ last = false) := by
    rcases hf with h | h <;> simp [h]
  simp only [walk, if_pos hd, hg, if_neg hn]

theorem walk_cons_error (hd : t.isDir cur = false) :
    t.walk follow last cur (c :: cs) = .error (t.lookupError cur) := by
  simp [walk, hd]

/-- A successful step starts in a directory and passes an entry or a link. -/
theorem walk_cons_ok (h : t.walk follow last cur (c :: cs) = .ok p) :
    t.isDir cur ∧ ((t.NoLink (enter cur c) ∧ t.walk follow last (enter cur c) cs = .ok p) ∨
      ∃ target, t.get (enter cur c) = some (.link target) ∧
        ((cs = [] ∧ last = false ∧ enter cur c = p) ∨
          ((cs ≠ [] ∨ last = true) ∧ follow cur target cs = .ok p))) := by
  have hd : t.isDir cur := by
    by_contra hd
    simp [walk, hd] at h
  refine ⟨hd, ?_⟩
  by_cases hl : t.NoLink (enter cur c)
  · exact Or.inl ⟨hl, walk_cons hd hl ▸ h⟩
  · unfold NoLink at hl
    push Not at hl
    obtain ⟨target, hg⟩ := hl
    refine Or.inr ⟨target, hg, ?_⟩
    by_cases hf : cs = [] ∧ last = false
    · simp only [walk, if_pos hd, hg, if_pos hf, Except.ok.injEq] at h
      exact Or.inl ⟨hf.1, hf.2, h⟩
    · have hf' : cs ≠ [] ∨ last = true := by
        rcases Decidable.not_and_iff_or_not.1 hf with h' | h'
        · exact Or.inl h'
        · exact Or.inr (by simpa using h')
      exact Or.inr ⟨hf', (walk_cons_link hd hg hf').symm.trans h⟩

end

theorem namei_nil {last : Bool} (n : ℕ) (cur : Loc) : t.namei last n cur [] = .ok cur := by
  cases n <;> rfl

theorem namei_cons {last : Bool} {n : ℕ} {cur : Loc} {c : Name} {cs : List Name}
    (hd : t.isDir cur) (hl : t.NoLink (enter cur c)) :
    t.namei last n cur (c :: cs) = t.namei last n (enter cur c) cs := by
  cases n <;> exact walk_cons hd hl

/-- A single name that is no link is looked up. -/
theorem namei_single {last : Bool} {n : ℕ} {cur : Loc} {c : Name} (hd : t.isDir cur)
    (hl : t.NoLink (enter cur c)) : t.namei last n cur [c] = .ok (enter cur c) := by
  rw [namei_cons hd hl, namei_nil]

theorem namei_cons_error {last : Bool} {n : ℕ} {cur : Loc} {c : Name} {cs : List Name}
    (hd : t.isDir cur = false) :
    t.namei last n cur (c :: cs) = .error (t.lookupError cur) := by
  cases n <;> exact walk_cons_error hd

theorem namei_cons_link {last : Bool} {n : ℕ} {cur : Loc} {c : Name} {cs : List Name}
    {target : Bytes} (hd : t.isDir cur) (hg : t.get (enter cur c) = some (.link target))
    (hf : cs ≠ [] ∨ last = true) : t.namei last (n + 1) cur (c :: cs) =
      t.namei last n (startOf cur target) (components target ++ cs) :=
  walk_cons_link hd hg hf

/-! ## Splitting a walk -/

/-- A walk through `cs` that ends at `p` goes on from `p` with the names behind. -/
theorem walk_append {follow follow' : Loc → Bytes → List Name → Except Errno Loc} {last : Bool}
    {p : Loc} {names : List Name} {r : Except Errno Loc → Prop} (hn : names ≠ [])
    (hfollow : ∀ cur target cs, follow' cur target cs = .ok p →
      r (follow cur target (cs ++ names)))
    (hend : r (t.walk follow last p names)) {cs : List Name} {cur : Loc}
    (h : t.walk follow' true cur cs = .ok p) : r (t.walk follow last cur (cs ++ names)) := by
  induction cs generalizing cur with
  | nil =>
    rw [walk, Except.ok.injEq] at h
    rwa [List.nil_append, h]
  | cons c cs ih =>
    obtain ⟨hd, ⟨hl, h⟩ | ⟨target, hg, ⟨_, hf, _⟩ | ⟨_, h⟩⟩⟩ := walk_cons_ok h
    · rw [List.cons_append, walk_cons hd hl]
      exact ih h
    · simp at hf
    · rw [List.cons_append, walk_cons_link hd hg (Or.inl (by simp [hn]))]
      exact hfollow _ _ _ h

/-- Once a prefix of a path is resolved, what follows is walked from there, with what
is left of the link budget. -/
theorem namei_append (last : Bool) {p : Loc} {names : List Name} (hn : names ≠ []) {n : ℕ}
    {cur : Loc} {cs : List Name} (h : t.namei true n cur cs = .ok p) :
    ∃ m, t.namei last n cur (cs ++ names) = t.namei last m p names := by
  induction n generalizing cur cs with
  | zero =>
    refine walk_append (r := fun e => ∃ m, e = t.namei last m p names) hn ?_ ⟨0, rfl⟩ h
    intro _ _ _ he
    simp at he
  | succ n ih =>
    refine walk_append (r := fun e => ∃ m, e = t.namei last m p names) hn ?_ ⟨n + 1, rfl⟩ h
    intro cur' target cs' he
    rw [← List.append_assoc]
    exact ih he

/-- A walk that follows no link leaves the whole budget to what follows. -/
theorem namei_append_direct (last : Bool) (n : ℕ) {p cur : Loc} {cs : List Name}
    (h : t.namei true 0 cur cs = .ok p) (names : List Name) :
    t.namei last n cur (cs ++ names) = t.namei last n p names := by
  induction cs generalizing cur with
  | nil =>
    rw [namei_nil, Except.ok.injEq] at h
    rw [List.nil_append, h]
  | cons c cs ih =>
    obtain ⟨hd, ⟨hl, h⟩ | ⟨target, hg, ⟨_, hf, _⟩ | ⟨_, h⟩⟩⟩ := walk_cons_ok h
    · rw [List.cons_append, namei_cons hd hl]
      exact ih h
    · simp at hf
    · simp at h

theorem namei_direct (n : ℕ) {p cur : Loc} {cs : List Name} (h : t.namei true 0 cur cs = .ok p) :
    t.namei true n cur cs = .ok p := by
  have := namei_append_direct true n h []
  rwa [List.append_nil, namei_nil] at this

/-- A path that resolves after a trailing slash resolves without it. -/
theorem walk_concat_nil {follow follow' : Loc → Bytes → List Name → Except Errno Loc} {p : Loc}
    (hfollow : ∀ cur target cs, follow cur target (cs ++ [[]]) = .ok p →
      follow' cur target cs = .ok p) {cs : List Name} {cur : Loc}
    (h : t.walk follow true cur (cs ++ [[]]) = .ok p) : t.walk follow' true cur cs = .ok p := by
  induction cs generalizing cur with
  | nil =>
    obtain ⟨hd, ⟨_, h⟩ | ⟨target, hg, _⟩⟩ := walk_cons_ok h
    · rwa [enter_nil] at h
    · rw [enter_nil] at hg
      exact absurd hg (noLink_of_isDir hd target)
  | cons c cs ih =>
    obtain ⟨hd, ⟨hl, h⟩ | ⟨target, hg, ⟨hc, _⟩ | ⟨_, h⟩⟩⟩ := walk_cons_ok h
    · rw [walk_cons hd hl]
      exact ih h
    · simp at hc
    · rw [walk_cons_link hd hg (Or.inr rfl)]
      exact hfollow _ _ _ h

/-- An empty last name, as a trailing slash leaves it, changes nothing. -/
theorem namei_concat_nil {n : ℕ} {cur p : Loc} {cs : List Name}
    (h : t.namei true n cur (cs ++ [[]]) = .ok p) : t.namei true n cur cs = .ok p := by
  induction n generalizing cur cs with
  | zero => exact walk_concat_nil (fun _ _ _ he => he) h
  | succ n ih =>
    refine walk_concat_nil (fun cur' target cs' he => ?_) h
    rw [← List.append_assoc] at he
    exact ih he

/-! ## Resolution in a changed tree -/

/-- Every directory and every link of `t` is still there in `t'`. -/
structure Keeps (t t' : FileTree X) : Prop where
  dir : ∀ l, t.isDir l → t'.isDir l
  link : ∀ l target, t.get l = some (.link target) → t'.get l = some (.link target)

theorem Keeps.refl (t : FileTree X) : t.Keeps t :=
  ⟨fun _ h => h, fun _ _ h => h⟩

theorem Keeps.trans {t₁ t₂ t₃ : FileTree X} (h₁ : t₁.Keeps t₂) (h₂ : t₂.Keeps t₃) : t₁.Keeps t₃ :=
  ⟨fun l h => h₂.dir l (h₁.dir l h), fun l x h => h₂.link l x (h₁.link l x h)⟩

theorem walk_cons_isDir {follow : Loc → Bytes → List Name → Except Errno Loc} {last : Bool}
    {cur p : Loc} {cs : List Name} (hcs : cs ≠ []) (h : t.walk follow last cur cs = .ok p) :
    t.isDir cur := by
  obtain ⟨c, cs, rfl⟩ := List.exists_cons_of_ne_nil hcs
  exact (walk_cons_ok h).1

/-- A resolution passes only directories and links; so it ends at the same place where
these are kept, unless a link came to be in the last position. -/
theorem walk_keeps {t' : FileTree X} (hk : t.Keeps t')
    {follow follow' : Loc → Bytes → List Name → Except Errno Loc} {last : Bool} {p : Loc}
    (hp : t.NoLink p → t'.NoLink p) (hfollow : ∀ cur target cs, follow cur target cs = .ok p →
      follow' cur target cs = .ok p) {cs : List Name} {cur : Loc}
    (h : t.walk follow last cur cs = .ok p) : t'.walk follow' last cur cs = .ok p := by
  induction cs generalizing cur with
  | nil => exact h
  | cons c cs ih =>
    obtain ⟨hd, ⟨hl, h⟩ | ⟨target, hg, ⟨hcs, hlast, he⟩ | ⟨hf, h⟩⟩⟩ := walk_cons_ok h
    · have hl' : t'.NoLink (enter cur c) := by
        by_cases hcs : cs = []
        · subst hcs
          rw [walk, Except.ok.injEq] at h
          exact h ▸ hp (h ▸ hl)
        · exact noLink_of_isDir (hk.dir _ (walk_cons_isDir hcs h))
      rw [walk_cons (hk.dir _ hd) hl']
      exact ih h
    · subst hcs hlast he
      simp [walk, hk.dir _ hd, hk.link _ _ hg]
    · rw [walk_cons_link (hk.dir _ hd) (hk.link _ _ hg) hf]
      exact hfollow _ _ _ h

theorem namei_keeps {t' : FileTree X} (hk : t.Keeps t') {last : Bool} {p : Loc}
    (hp : t.NoLink p → t'.NoLink p) {n : ℕ} {cur : Loc} {cs : List Name}
    (h : t.namei last n cur cs = .ok p) : t'.namei last n cur cs = .ok p := by
  induction n generalizing cur cs with
  | zero => exact walk_keeps hk hp (fun _ _ _ he => he) h
  | succ n ih => exact walk_keeps hk hp (fun _ _ _ he => ih he) h

/-- What is found with some links is found with one more. -/
theorem namei_more {last : Bool} {p : Loc} {n : ℕ} {cur : Loc} {cs : List Name}
    (h : t.namei last n cur cs = .ok p) : t.namei last (n + 1) cur cs = .ok p := by
  induction n generalizing cur cs with
  | zero => exact walk_keeps (Keeps.refl t) id (fun _ _ _ he => by simp at he) h
  | succ n ih => exact walk_keeps (Keeps.refl t) id (fun _ _ _ he => ih he) h

/-- A resolution that does not end at a link does not depend on whether a link in the
last position is followed. -/
theorem walk_follow {follow follow' : Loc → Bytes → List Name → Except Errno Loc} {p : Loc}
    (hp : t.NoLink p) (hfollow : ∀ cur target cs, follow cur target cs = .ok p →
      follow' cur target cs = .ok p) {cs : List Name} {cur : Loc}
    (h : t.walk follow false cur cs = .ok p) : t.walk follow' true cur cs = .ok p := by
  induction cs generalizing cur with
  | nil => exact h
  | cons c cs ih =>
    obtain ⟨hd, ⟨hl, h⟩ | ⟨target, hg, ⟨_, _, he⟩ | ⟨_, h⟩⟩⟩ := walk_cons_ok h
    · rw [walk_cons hd hl]
      exact ih h
    · exact absurd hg (he ▸ hp target)
    · rw [walk_cons_link hd hg (Or.inr rfl)]
      exact hfollow _ _ _ h

theorem namei_follow {p : Loc} (hp : t.NoLink p) {n : ℕ} {cur : Loc} {cs : List Name}
    (h : t.namei false n cur cs = .ok p) : t.namei true n cur cs = .ok p := by
  induction n generalizing cur cs with
  | zero => exact walk_follow hp (fun _ _ _ he => he) h
  | succ n ih => exact walk_follow hp (fun _ _ _ he => ih he) h

/-- A path that leads to something names something if a link in the last position is not
followed. -/
theorem walk_nofollow {follow follow' : Loc → Bytes → List Name → Except Errno Loc} {p : Loc}
    (hp : t.get p ≠ none) (hfollow : ∀ cur target cs, follow cur target cs = .ok p →
      ∃ q, follow' cur target cs = .ok q ∧ t.get q ≠ none) {cs : List Name} {cur : Loc}
    (h : t.walk follow true cur cs = .ok p) :
    ∃ q, t.walk follow' false cur cs = .ok q ∧ t.get q ≠ none := by
  induction cs generalizing cur with
  | nil =>
    rw [walk, Except.ok.injEq] at h
    exact ⟨cur, rfl, h ▸ hp⟩
  | cons c cs ih =>
    obtain ⟨hd, ⟨hl, h⟩ | ⟨target, hg, ⟨_, hlast, _⟩ | ⟨_, h⟩⟩⟩ := walk_cons_ok h
    · rw [walk_cons hd hl]
      exact ih h
    · simp at hlast
    · by_cases hcs : cs = []
      · subst hcs
        exact ⟨enter cur c, by simp [walk, hd, hg], by rw [hg]; simp⟩
      · rw [walk_cons_link hd hg (Or.inl hcs)]
        exact hfollow _ _ _ h

theorem namei_nofollow {p : Loc} (hp : t.get p ≠ none) {n : ℕ} {cur : Loc} {cs : List Name}
    (h : t.namei true n cur cs = .ok p) :
    ∃ q, t.namei false n cur cs = .ok q ∧ t.get q ≠ none := by
  induction n generalizing cur cs with
  | zero => exact walk_nofollow hp (fun _ _ _ he => by simp at he) h
  | succ n ih => exact walk_nofollow hp (fun _ _ _ he => ih he) h

/-- Not following, a link is found where its name is. -/
theorem namei_single_nofollow {n : ℕ} {cur : Loc} {c : Name} (hd : t.isDir cur) (hc : Plain c) :
    t.namei false n cur [c] = .ok (c :: cur) := by
  by_cases hl : t.NoLink (enter cur c)
  · rw [namei_single hd hl, enter_plain hc]
  · rw [enter_plain hc] at hl
    unfold NoLink at hl
    push Not at hl
    obtain ⟨target, hg⟩ := hl
    cases n <;> simp [namei, walk, hd, enter_plain hc, hg]

/-! ## Prefixes of a path -/

/-- Every prefix of a path that resolves names a directory. -/
theorem walk_of_append {follow follow' : Loc → Bytes → List Name → Except Errno Loc} {last : Bool}
    {p : Loc} {cs₂ : List Name} (hne : cs₂ ≠ [])
    (hfollow : ∀ cur target cs, follow cur target (cs ++ cs₂) = .ok p →
      ∃ q, follow' cur target cs = .ok q ∧ t.isDir q) {cs₁ : List Name} {cur : Loc}
    (h : t.walk follow last cur (cs₁ ++ cs₂) = .ok p) :
    ∃ q, t.walk follow' true cur cs₁ = .ok q ∧ t.isDir q := by
  induction cs₁ generalizing cur with
  | nil => exact ⟨cur, rfl, walk_cons_isDir hne h⟩
  | cons c cs₁ ih =>
    obtain ⟨hd, ⟨hl, h⟩ | ⟨target, hg, ⟨hnil, _⟩ | ⟨_, h⟩⟩⟩ := walk_cons_ok h
    · rw [walk_cons hd hl]
      exact ih h
    · exact absurd (List.append_eq_nil_iff.1 hnil).2 hne
    · rw [walk_cons_link hd hg (Or.inr rfl)]
      exact hfollow _ _ _ h

/-- A path with names behind it passes through a directory. -/
theorem namei_of_append {last : Bool} {n : ℕ} {cur p : Loc} {cs₁ cs₂ : List Name}
    (hne : cs₂ ≠ []) (h : t.namei last n cur (cs₁ ++ cs₂) = .ok p) :
    ∃ q, t.namei true n cur cs₁ = .ok q ∧ t.isDir q := by
  induction n generalizing cur cs₁ with
  | zero => exact walk_of_append hne (fun _ _ _ he => by simp at he) h
  | succ n ih =>
    refine walk_of_append hne (fun cur' target cs' he => ?_) h
    rw [← List.append_assoc] at he
    exact ih he

/-! ## Walks that meet no link -/

/-- The part `cs` of a path leads to `p` with a budget of `n` links, and not with less. -/
structure Needs (t : FileTree X) (n : ℕ) (cur : Loc) (cs : List Name) (p : Loc) : Prop where
  leads : t.namei true n cur cs = .ok p
  least : ∀ m, n = m + 1 → t.namei true m cur cs ≠ .ok p

/-- What a budget that is enough leaves : nothing, exactly if one link less is not enough. -/
theorem exists_needs {n : ℕ} {cur p : Loc} {cs : List Name} (h : t.namei true n cur cs = .ok p) :
    ∃ u m, n = u + m ∧ t.Needs u cur cs p ∧
      ∀ k, n = k + 1 → (t.namei true k cur cs = .ok p ↔ m ≠ 0) := by
  induction n with
  | zero => exact ⟨0, 0, rfl, ⟨h, fun m hm => by simp at hm⟩, fun k hk => by simp at hk⟩
  | succ n ih =>
    by_cases hn : t.namei true n cur cs = .ok p
    · obtain ⟨u, m, rfl, hu, -⟩ := ih hn
      refine ⟨u, m + 1, rfl, hu, fun k hk => ?_⟩
      obtain rfl : u + m = k := by omega
      simp [hn]
    · refine ⟨n + 1, 0, rfl, ⟨h, fun m hm => ?_⟩, fun k hk => ?_⟩
      · obtain rfl : n = m := by omega
        exact hn
      · obtain rfl : n = k := by omega
        simp [hn]

/-- A part of the path takes what it needs of the budget and leaves the rest to what follows. `t'`
has what `t` has. -/
theorem Needs.append {t' : FileTree X} (hk : t.Keeps t') {p : Loc} (hp : t.isDir p)
    {names : List Name} (hn : names ≠ []) {n : ℕ} {cur : Loc} {cs : List Name}
    (h : t.Needs n cur cs p) (last : Bool) :
    (∀ m, t'.namei last (n + m) cur (cs ++ names) = t'.namei last m p names) ∧
    ∀ m, n = m + 1 → t'.namei last m cur (cs ++ names) = .error .eloop := by
  induction n generalizing cur cs with
  | zero =>
    have hdirect := namei_keeps hk (fun _ => noLink_of_isDir (hk.dir _ hp)) h.leads
    refine ⟨fun m => ?_, fun m hm => by simp at hm⟩
    rw [Nat.zero_add]
    exact namei_append_direct last m hdirect names
  | succ n ih =>
    induction cs generalizing cur with
    | nil =>
      have hcur : cur = p := by simpa [namei_nil] using h.leads
      exact absurd (by rw [namei_nil, hcur]) (h.least n rfl)
    | cons c cs ihc =>
      have hmin := h.least n rfl
      obtain ⟨hd, ⟨hl, hw⟩ | ⟨target, hg, ⟨_, hf, _⟩ | ⟨_, hw⟩⟩⟩ := walk_cons_ok h.leads
      · have hdir : t.isDir (enter cur c) := by
          by_cases hcs : cs = []
          · subst hcs
            rw [walk, Except.ok.injEq] at hw
            exact hw ▸ hp
          · exact walk_cons_isDir hcs hw
        rw [namei_cons hd hl] at hmin
        have hstep : t.Needs (n + 1) (enter cur c) cs p :=
          ⟨hw, fun m hm => by
            obtain rfl : n = m := by omega
            exact hmin⟩
        have hd' := hk.dir _ hd
        have hl' := noLink_of_isDir (hk.dir _ hdir)
        obtain ⟨hrest, hshort⟩ := ihc hstep
        refine ⟨fun m => ?_, fun m hm => ?_⟩
        · rw [List.cons_append, namei_cons hd' hl', hrest]
        · rw [List.cons_append, namei_cons hd' hl', hshort m hm]
      · simp at hf
      · have hd' := hk.dir _ hd
        have hg' := hk.link _ _ hg
        have hne : cs ++ names ≠ [] ∨ last = true := Or.inl (by simp [hn])
        have hstep : t.Needs n (startOf cur target) (components target ++ cs) p :=
          ⟨hw, fun m hm => by
            subst hm
            rwa [namei_cons_link hd hg (Or.inr rfl)] at hmin⟩
        obtain ⟨hrest, hshort⟩ := ih hstep
        refine ⟨fun m => ?_, fun m hm => ?_⟩
        · rw [Nat.succ_add, List.cons_append, namei_cons_link hd' hg' hne, ← List.append_assoc,
            hrest]
        · obtain rfl : n = m := by omega
          rw [List.cons_append]
          cases n with
          | zero => exact walk_cons_link hd' hg' hne
          | succ n =>
            rw [namei_cons_link hd' hg' hne, ← List.append_assoc]
            exact hshort n rfl

section

variable {last : Bool} {n : ℕ} {cur : Loc} {cs names : List Name}

/-- A walk through directories. -/
theorem namei_dirs (hd : ∀ pre, pre <+: cs → t.isDir (pre.foldl enter cur)) (names : List Name) :
    t.namei last n cur (cs ++ names) = t.namei last n (cs.foldl enter cur) names := by
  induction cs generalizing cur with
  | nil => rfl
  | cons c cs ih =>
    have hcur : t.isDir cur := hd [] List.nil_prefix
    have hc : t.isDir (enter cur c) := hd [c] (by simp)
    rw [List.cons_append, namei_cons hcur (noLink_of_isDir hc), List.foldl_cons]
    exact ih fun pre hp => hd (c :: pre) (List.cons_prefix_cons.2 ⟨rfl, hp⟩)

/-- A walk ends at what is neither a directory nor a link. -/
theorem namei_no_dir (hl : ∀ pre, pre <+: cs → t.NoLink (pre.foldl enter cur))
    (hd : t.isDir (cs.foldl enter cur) = false) (hn : names ≠ []) :
    ∃ err, t.namei last n cur (cs ++ names) = .error err := by
  induction cs generalizing cur with
  | nil =>
    obtain ⟨c, names, rfl⟩ := List.exists_cons_of_ne_nil hn
    exact ⟨_, namei_cons_error hd⟩
  | cons c cs ih =>
    rw [List.cons_append]
    by_cases hcur : t.isDir cur
    · rw [namei_cons hcur (hl [c] (by simp))]
      exact ih (fun pre hp => hl (c :: pre) (List.cons_prefix_cons.2 ⟨rfl, hp⟩)) hd
    · exact ⟨_, namei_cons_error (by simpa using hcur)⟩

end

end FileTree

end Posix
