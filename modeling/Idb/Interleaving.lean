import Mathlib.Data.Fintype.Order
import Mathlib.Data.List.Count
import Mathlib.Logic.Function.Basic

/-!
# Programs that interleave

A program calls, goes on with the answer, and returns in the end (`Prog`). Clients run programs on
a state they share, in the order a schedule says, one call at a time (`run`).

What a client does is shown against anything the others may do between two of its calls : it
relies on a relation of states, and its own calls guarantee one (`Contract`, `Prog.Safe`). If what
each client guarantees is what the others rely on, then in every run every client that returns has
reached what it is to reach (`run_safe`), and what all calls keep is kept (`run_invariant`). A
client whose program makes a limited number of calls returns once it was given as many turns,
whatever the others do (`run_returned`). Where the number depends on the answers, a client still
returns if it has its turn again and again (`exists_returned`).

The state may contain things that only the proof looks at, which the clients change along with
their calls. They are dropped in the end (`run_forget`).
-/

namespace Interleaving

/-- Programs that make calls `c`, which answer with an `R c`. -/
inductive Prog (C : Type) (R : C → Type) (α : Type) : Type
  | ret (a : α)
  | call (c : C) (next : R c → Prog C R α)

namespace Prog

variable {C : Type} {R : C → Type} {S α β : Type}

/-- Go on with what a program returns. -/
def bind (f : α → Prog C R β) : Prog C R α → Prog C R β
  | ret a => f a
  | call c next => call c fun r => (next r).bind f

instance : Monad (Prog C R) where
  pure := ret
  bind p f := p.bind f

theorem pure_eq (a : α) : (pure a : Prog C R α) = ret a :=
  rfl

theorem bind_eq (p : Prog C R α) (f : α → Prog C R β) : (p >>= f) = p.bind f :=
  rfl

/-- A program that nothing comes between. -/
def alone (sem : (c : C) → S → S × R c) : Prog C R α → S → S × α
  | ret a, s => (s, a)
  | call c next, s => (next (sem c s).2).alone sem (sem c s).1

theorem alone_bind (sem : (c : C) → S → S × R c) (p : Prog C R α) (f : α → Prog C R β) (s : S) :
    (p.bind f).alone sem s = (f (p.alone sem s).2).alone sem (p.alone sem s).1 := by
  induction p generalizing s with
  | ret a => rfl
  | call c next ih => exact ih _ _

/-! ## The number of calls -/

/-- The program makes at most `n` calls. -/
def AtMost : Prog C R α → ℕ → Prop
  | ret _, _ => True
  | call _ _, 0 => False
  | call _ next, n + 1 => ∀ r, (next r).AtMost n

/-- A larger bound holds too. -/
theorem AtMost.mono {p : Prog C R α} {m n : ℕ} (h : p.AtMost m) (hmn : m ≤ n) : p.AtMost n := by
  induction p generalizing m n with
  | ret a => trivial
  | call c next ih =>
    cases m with
    | zero => exact h.elim
    | succ m =>
      obtain ⟨n, rfl⟩ := Nat.exists_eq_add_of_lt hmn
      exact fun r => ih r (h r) (Nat.le_add_right m n)

/-- The bounds of two programs run in sequence add up. -/
theorem AtMost.bind {p : Prog C R α} {f : α → Prog C R β} {m n : ℕ} (h : p.AtMost m)
    (hf : ∀ a, (f a).AtMost n) : (p.bind f).AtMost (m + n) := by
  induction p generalizing m with
  | ret a => exact (hf a).mono (Nat.le_add_left n m)
  | call c next ih =>
    cases m with
    | zero => exact h.elim
    | succ m =>
      rw [Nat.succ_add]
      exact fun r => ih r (h r)

theorem atMost_zero {p : Prog C R α} : p.AtMost 0 ↔ ∃ a, p = ret a := by
  cases p with
  | ret a => exact ⟨fun _ => ⟨a, rfl⟩, fun _ => trivial⟩
  | call c next => exact ⟨fun h => h.elim, fun ⟨_, h⟩ => by simp at h⟩

end Prog

/-! ## Contracts -/

/-- What a client relies on, which may happen any number of times between two of its calls, and
what its calls guarantee. -/
structure Contract (S : Type) where
  rely : S → S → Prop
  guar : S → S → Prop
  refl : ∀ s, rely s s
  trans : ∀ {s s' s''}, rely s s' → rely s' s'' → rely s s''

namespace Prog

variable {C : Type} {R : C → Type} {S α β : Type}

/-- From the state the program keeps its contract, and returns what meets `post`. -/
def Safe (sem : (c : C) → S → S × R c) (k : Contract S) (post : α → S → Prop) :
    Prog C R α → S → Prop
  | ret a, s => ∀ s', k.rely s s' → post a s'
  | call c next, s => ∀ s', k.rely s s' →
      k.guar s' (sem c s').1 ∧ (next (sem c s').2).Safe sem k post (sem c s').1

variable {sem : (c : C) → S → S × R c} {k : Contract S} {post post' : α → S → Prop}
  {p : Prog C R α} {s s' : S}

/-- What the others do makes no difference. -/
theorem Safe.rely (h : p.Safe sem k post s) (hs : k.rely s s') : p.Safe sem k post s' := by
  cases p with
  | ret a => exact fun s'' hs' => h s'' (k.trans hs hs')
  | call c next => exact fun s'' hs' => h s'' (k.trans hs hs')

theorem Safe.returned {a : α} (h : (ret a : Prog C R α).Safe sem k post s) : post a s :=
  h s (k.refl s)

theorem Safe.mono (h : p.Safe sem k post s) (hp : ∀ a s, post a s → post' a s) :
    p.Safe sem k post' s := by
  induction p generalizing s with
  | ret a => exact fun s' hs => hp a s' (h s' hs)
  | call c next ih => exact fun s' hs => ⟨(h s' hs).1, ih _ (h s' hs).2⟩

/-- One program after another. -/
theorem Safe.bind {f : α → Prog C R β} {post : β → S → Prop}
    (h : p.Safe sem k (fun a s => (f a).Safe sem k post s) s) : (p.bind f).Safe sem k post s := by
  induction p generalizing s with
  | ret a => exact h s (k.refl s)
  | call c next ih => exact fun s' hs => ⟨(h s' hs).1, ih _ (h s' hs).2⟩

end Prog

/-! ## Runs -/

section

variable {ι C : Type} {R : C → Type} {S S' α : Type}

/-- A shared state, and how far each client is. -/
structure Config (ι : Type) (C : Type) (R : C → Type) (S α : Type) where
  shared : S
  prog : ι → Prog C R α

variable [DecidableEq ι]

/-- A client makes its next call, if it has not returned. -/
def step (sem : ι → (c : C) → S → S × R c) (x : Config ι C R S α) (i : ι) : Config ι C R S α :=
  match x.prog i with
  | .ret _ => x
  | .call c next =>
    ⟨(sem i c x.shared).1, Function.update x.prog i (next (sem i c x.shared).2)⟩

/-- The clients make their calls in the order of a schedule. -/
def run (sem : ι → (c : C) → S → S × R c) (x : Config ι C R S α) (sched : List ι) :
    Config ι C R S α :=
  sched.foldl (step sem) x

variable {sem : ι → (c : C) → S → S × R c} {k : ι → Contract S} {post : ι → α → S → Prop}
  {x : Config ι C R S α} {i : ι}

/-- A call keeps every client safe. -/
theorem step_safe (hk : ∀ i j, i ≠ j → ∀ s s', (k i).guar s s' → (k j).rely s s')
    (h : ∀ j, (x.prog j).Safe (sem j) (k j) (post j) x.shared) (i j : ι) :
    ((step sem x i).prog j).Safe (sem j) (k j) (post j) (step sem x i).shared := by
  have hi := h i
  rw [step]
  cases hp : x.prog i with
  | ret a => exact h j
  | call c next =>
    rw [hp] at hi
    obtain ⟨hg, hnext⟩ := hi x.shared ((k i).refl _)
    by_cases hij : j = i
    · subst hij
      simpa using hnext
    · simp only [Function.update_of_ne hij]
      exact (h j).rely (hk i j (Ne.symm hij) _ _ hg)

/-- In every run the clients stay safe. -/
theorem run_safe (hk : ∀ i j, i ≠ j → ∀ s s', (k i).guar s s' → (k j).rely s s')
    (h : ∀ j, (x.prog j).Safe (sem j) (k j) (post j) x.shared) (sched : List ι) (j : ι) :
    ((run sem x sched).prog j).Safe (sem j) (k j) (post j) (run sem x sched).shared := by
  induction sched generalizing x with
  | nil => exact h j
  | cons i sched ih => exact ih (step_safe hk h i)

/-- What the guarantees keep holds in every run. -/
theorem run_invariant (inv : S → Prop)
    (hk : ∀ i j, i ≠ j → ∀ s s', (k i).guar s s' → (k j).rely s s')
    (h : ∀ j, (x.prog j).Safe (sem j) (k j) (post j) x.shared)
    (hinv : ∀ i s s', (k i).guar s s' → inv s → inv s') (h0 : inv x.shared) (sched : List ι) :
    inv (run sem x sched).shared := by
  induction sched generalizing x with
  | nil => exact h0
  | cons i sched ih =>
    refine ih (step_safe hk h i) ?_
    have hi := h i
    rw [step]
    cases hp : x.prog i with
    | ret a => exact h0
    | call c next =>
      rw [hp] at hi
      exact hinv i _ _ (hi x.shared ((k i).refl _)).1 h0

/-! ## Progress -/

/-- Its own turn takes one from a client's bound. -/
theorem step_atMost {n : ℕ} (h : (x.prog i).AtMost n) (j : ι) :
    ((step sem x j).prog i).AtMost (n - if j = i then 1 else 0) := by
  rw [step]
  cases hp : x.prog j with
  | ret a =>
    split_ifs with hj
    · rw [← hj, hp]
      trivial
    · exact h
  | call c next =>
    split_ifs with hj
    · subst hj
      rw [hp] at h
      cases n with
      | zero => exact h.elim
      | succ n => simpa using h _
    · simpa only [Function.update_of_ne (Ne.symm hj), Nat.sub_zero] using h

/-- A client that was given as many turns as it makes calls has returned. -/
theorem run_returned {n : ℕ} {sched : List ι} (h : (x.prog i).AtMost n) (hn : n ≤ sched.count i) :
    ∃ a, (run sem x sched).prog i = .ret a := by
  induction sched generalizing x n with
  | nil =>
    rw [List.count_nil, Nat.le_zero] at hn
    exact Prog.atMost_zero.1 (hn ▸ h)
  | cons j sched ih =>
    refine ih (step_atMost h j) ?_
    rw [List.count_cons] at hn
    simp only [beq_iff_eq] at hn
    omega

/-! ## Fair schedules -/

/-- Every client has its turn again and again. -/
def Fair (σ : ℕ → ι) : Prop :=
  ∀ i n, ∃ j, σ (n + j) = i

/-- The first turns of an endless schedule. -/
def turns (σ : ℕ → ι) (n : ℕ) : List ι :=
  (List.range n).map σ

theorem run_turns_succ (x : Config ι C R S α) (σ : ℕ → ι) (n : ℕ) :
    run sem x (turns σ (n + 1)) = step sem (run sem x (turns σ n)) (σ n) := by
  rw [turns, List.range_succ, List.map_append, run, List.foldl_append]
  rfl

/-- A client that has returned stays so. -/
theorem step_ret {a : α} (h : x.prog i = .ret a) (j : ι) : (step sem x j).prog i = .ret a := by
  rw [step]
  cases hp : x.prog j with
  | ret b => exact h
  | call c next =>
    have hij : i ≠ j := by
      rintro rfl
      simp [hp] at h
    simpa only [Function.update_of_ne hij] using h

/-- Who has returned has returned at every later time. -/
theorem run_turns_ret {σ : ℕ → ι} {a : α} {n n' : ℕ} (h : (run sem x (turns σ n)).prog i = .ret a)
    (hn : n ≤ n') : (run sem x (turns σ n')).prog i = .ret a := by
  induction n', hn using Nat.le_induction with
  | base => exact h
  | succ n' hn ih =>
    rw [run_turns_succ]
    exact step_ret ih _

/-- A client makes its next call at its next turn. -/
theorem exists_turn {σ : ℕ → ι} {c : C} {next : R c → Prog C R α} {n j : ℕ}
    (h : (run sem x (turns σ n)).prog i = .call c next) (hj : σ (n + j) = i) :
    ∃ n' r, (run sem x (turns σ n')).prog i = next r := by
  induction j generalizing n with
  | zero =>
    refine ⟨n + 1, (sem i c (run sem x (turns σ n)).shared).2, ?_⟩
    rw [run_turns_succ, show σ n = i from hj, step, h]
    simp
  | succ j ih =>
    by_cases hi : σ n = i
    · refine ⟨n + 1, (sem i c (run sem x (turns σ n)).shared).2, ?_⟩
      rw [run_turns_succ, hi, step, h]
      simp
    · refine ih (n := n + 1) ?_ (by rwa [Nat.add_assoc, Nat.add_comm 1])
      rw [run_turns_succ, step]
      cases (run sem x (turns σ n)).prog (σ n) with
      | ret b => exact h
      | call c' next' => simpa only [Function.update_of_ne (Ne.symm hi)] using h

/-- In a fair schedule every client returns, whatever the others do. -/
theorem exists_returned {σ : ℕ → ι} (hσ : Fair σ) (x : Config ι C R S α) (i : ι) :
    ∃ n a, (run sem x (turns σ n)).prog i = .ret a := by
  suffices h : ∀ p n, (run sem x (turns σ n)).prog i = p →
      ∃ n' a, (run sem x (turns σ n')).prog i = .ret a from h _ 0 rfl
  intro p
  induction p with
  | ret a => exact fun n h => ⟨n, a, h⟩
  | call c next ih =>
    intro n h
    obtain ⟨j, hj⟩ := hσ i n
    obtain ⟨n', r, hr⟩ := exists_turn h hj
    exact ih r n' hr

theorem exists_all_returned [Finite ι] {σ : ℕ → ι} (hσ : Fair σ) (x : Config ι C R S α) :
    ∃ N, ∃ a : ι → α, ∀ n, N ≤ n → ∀ i, (run sem x (turns σ n)).prog i = .ret (a i) := by
  have hret : ∀ i, ∃ n a, (run sem x (turns σ n)).prog i = .ret a := exists_returned hσ x
  choose n a h using hret
  obtain ⟨N, hN⟩ := Finite.exists_le n
  exact ⟨N, a, fun n' hn' i => run_turns_ret (h i) ((hN i).trans hn')⟩

/-! ## What only the proof looks at -/

/-- Calls that also change something they do not depend on. -/
theorem run_forget {sem' : ι → (c : C) → S' → S' × R c} (proj : S' → S)
    (h : ∀ i c s, sem i c (proj s) = (proj (sem' i c s).1, (sem' i c s).2))
    (x : Config ι C R S' α) (sched : List ι) :
    run sem ⟨proj x.shared, x.prog⟩ sched =
      ⟨proj (run sem' x sched).shared, (run sem' x sched).prog⟩ := by
  induction sched generalizing x with
  | nil => rfl
  | cons i sched ih =>
    have hstep : step sem ⟨proj x.shared, x.prog⟩ i =
        ⟨proj (step sem' x i).shared, (step sem' x i).prog⟩ := by
      simp only [step]
      cases x.prog i with
      | ret a => rfl
      | call c next => simp only [h]
    rw [run, List.foldl_cons, hstep]
    exact ih _

end

end Interleaving
