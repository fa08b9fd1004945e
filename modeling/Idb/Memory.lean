import Mathlib.Tactic

/-!
# Blocks of memory

A block is the list of what it holds. Writing and reading outside of it has no result.
-/

namespace Memory

/-- Conversion to `size_t`. -/
def toSizeT (x : ℤ) : ℕ :=
  (x % 2 ^ 64).toNat

theorem toSizeT_natCast {n : ℕ} (h : n < 2 ^ 64) : toSizeT n = n := by
  rw [toSizeT]
  omega

variable {α : Type*}

/-- Write into a block. -/
def poke (buf : List α) (i : ℤ) (xs : List α) : Option (List α) :=
  if 0 ≤ i ∧ i + xs.length ≤ buf.length then
    some (buf.take i.toNat ++ xs ++ buf.drop (i.toNat + xs.length))
  else none

/-- Read from a block. -/
def peek (buf : List α) (i : ℤ) (n : ℕ) : Option (List α) :=
  if 0 ≤ i ∧ i + n ≤ buf.length then some ((buf.drop i.toNat).take n) else none

/-- `memmove` -/
def move (buf : List α) (dst src : ℤ) (n : ℕ) : Option (List α) := do
  let xs ← peek buf src n
  poke buf dst xs

/-- `realloc`. What is new holds anything. -/
def realloc (junk : ℕ → α) (buf : List α) (size : ℕ) : List α :=
  buf.take size ++ (List.range (size - buf.length)).map junk

variable {a b c t u r s : List α} {z e : α} {n : ℕ}

theorem poke_split (h : u.length ≤ r.length) :
    poke (t ++ r) t.length u = some (t ++ u ++ r.drop u.length) := by
  rw [poke, if_pos ⟨by omega, by simp; omega⟩]
  simp

/-- One thing is written behind others. -/
theorem poke_one : poke (t ++ e :: s) t.length [z] = some (t ++ z :: s) := by
  rw [poke_split (by simp)]
  simp

/-- A text and its terminator are written behind another. -/
theorem poke_text (h : u.length < r.length) :
    ∃ buf, poke (t ++ r) t.length u = some buf ∧
      poke buf (t.length + u.length) [z] = some (t ++ u ++ z :: r.drop (u.length + 1)) := by
  refine ⟨_, poke_split h.le, ?_⟩
  rw [← Nat.cast_add, ← List.length_append, poke_split (by simp; omega)]
  simp

/-- A text and its terminator are written over another. -/
theorem poke_over (h : u.length ≤ t.length + s.length) :
    ∃ buf s', poke (t ++ e :: s) 0 u = some buf ∧
      poke buf u.length [z] = some (u ++ z :: s') ∧
      u.length + s'.length = t.length + s.length := by
  obtain ⟨buf, hu, hend⟩ :=
    poke_text (t := []) (u := u) (z := z) (r := t ++ e :: s) (by simp; omega)
  refine ⟨buf, _, hu, by simpa using hend, ?_⟩
  simp
  omega

theorem peek_append (a b c : List α) : peek (a ++ (b ++ c)) a.length b.length = some b := by
  rw [peek, if_pos ⟨by omega, by simp⟩]
  simp

theorem peek_text (t r : List α) : peek (t ++ r) 0 t.length = some t :=
  peek_append [] t r

/-- What is moved to the right leaves something in its place. -/
theorem move_right (h : n ≤ r.length) :
    ∃ ys, ys.length = n ∧ move (a ++ (b ++ r)) (a.length + n) a.length b.length =
      some (a ++ (ys ++ (b ++ r.drop n))) := by
  have hys : ((b ++ r).take n).length = n := by
    rw [List.length_take, List.length_append]
    omega
  refine ⟨(b ++ r).take n, hys, ?_⟩
  have hpoke := poke_split (t := a ++ (b ++ r).take n) (u := b) (r := (b ++ r).drop n)
    (by rw [List.length_drop, List.length_append]; omega)
  rw [List.append_assoc, List.take_append_drop, List.length_append, hys, Nat.cast_add] at hpoke
  rw [move, peek_append, Option.bind_eq_bind, Option.bind_some, hpoke, List.drop_drop, Nat.add_comm,
    List.drop_append]
  simp

/-- Moving items down by one place over the item before them. -/
theorem move_left (a b c : List α) (e : α) :
    ∃ rest, rest.length = c.length + 1 ∧
      move (a ++ e :: (b ++ c)) a.length (a.length + 1) b.length = some (a ++ (b ++ rest)) := by
  have hpeek := peek_append (a ++ [e]) b c
  rw [List.length_append, List.length_singleton, Nat.cast_add, Nat.cast_one, List.append_assoc,
    List.singleton_append] at hpeek
  refine ⟨(e :: (b ++ c)).drop b.length, by simp; omega, ?_⟩
  rw [move, hpeek, Option.bind_eq_bind, Option.bind_some, poke_split (by simp; omega),
    List.append_assoc]

/-- A block that grows keeps what it holds. -/
theorem realloc_eq (junk : ℕ → α) (h : t.length ≤ n) :
    ∃ new, realloc junk t n = t ++ new ∧ t.length + new.length = n := by
  refine ⟨(List.range (n - t.length)).map junk, by rw [realloc, List.take_of_length_le h], ?_⟩
  simp
  omega

end Memory
