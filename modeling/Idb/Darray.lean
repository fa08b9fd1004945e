import Idb.Memory
import Idb.Refinement
import Mathlib.Data.Nat.Bitwise

/-!
# Dynamic arrays

A `darray` is a block with its size and the size that is in use. The macros of `darray.h` grow the
block when it is used up, to a power of two (`roundup32_eq`), and move what is in the way.

`darray_insert` moves one item too many : it writes behind the block if the new item fills it. This
is all that can go wrong. A run of calls stays inside the block if and only if no item that is
inserted fills it, and the array is then the list that the calls are to make of it
(`Darray.run_inside`, `Darray.run_items`).
-/

namespace Idb

open Memory

/-! ## Powers of two -/

/-- `(x)|=(x)>>k` -/
def smear (k x : ℕ) : ℕ :=
  x ||| x >>> k

/-- The next power of two. -/
def roundup32 (x : ℕ) : ℕ :=
  smear 16 (smear 8 (smear 4 (smear 2 (smear 1 (x - 1))))) + 1

theorem le_smear (k x : ℕ) : x ≤ smear k x :=
  Nat.left_le_or

theorem smear_lt {k x n : ℕ} (h : x < 2 ^ n) : smear k x < 2 ^ n := by
  refine Nat.or_lt_two_pow h (lt_of_le_of_lt ?_ h)
  rw [Nat.shiftRight_eq_div_pow]
  exact Nat.div_le_self _ _

theorem le_roundup32 (x : ℕ) : x ≤ roundup32 x := by
  have h := ((((le_smear 1 (x - 1)).trans (le_smear 2 _)).trans (le_smear 4 _)).trans
    (le_smear 8 _)).trans (le_smear 16 _)
  rw [roundup32]
  omega

theorem roundup32_le {x n : ℕ} (h : x ≤ 2 ^ n) : roundup32 x ≤ 2 ^ n := by
  have hpos := Nat.two_pow_pos n
  exact smear_lt (smear_lt (smear_lt (smear_lt (smear_lt (by omega)))))

/-- The bits of `y` and of all that it was shifted by, up to `m`. -/
def Smeared (m x y : ℕ) : Prop :=
  ∀ i, y.testBit i ↔ ∃ j < m, x.testBit (i + j)

/-- One shift doubles how far the bits have been smeared. -/
theorem Smeared.smear {m x y : ℕ} (h : Smeared m x y) : Smeared (2 * m) x (smear m y) := by
  intro i
  rw [Idb.smear, Nat.testBit_or, Nat.testBit_shiftRight, Bool.or_eq_true, h, h]
  constructor
  · rintro (⟨j, hj, hx⟩ | ⟨j, hj, hx⟩)
    · exact ⟨j, by omega, hx⟩
    · exact ⟨m + j, by omega, by rwa [← Nat.add_assoc, Nat.add_comm i m]⟩
  · rintro ⟨j, hj, hx⟩
    rcases Nat.lt_or_ge j m with hlt | hge
    · exact .inl ⟨j, hlt, hx⟩
    · refine .inr ⟨j - m, by omega, ?_⟩
      rwa [show m + i + (j - m) = i + j by omega]

/-- The least power of two that is not below. -/
theorem roundup32_eq {x : ℕ} (h0 : 0 < x) (h : x ≤ 2 ^ 32) : roundup32 x = 2 ^ Nat.clog 2 x := by
  have hbits : Smeared 32 (x - 1) (roundup32 x - 1) := by
    have h1 : Smeared 1 (x - 1) (x - 1) := fun i => by simp
    exact h1.smear.smear.smear.smear.smear
  have hx := Nat.le_pow_clog (b := 2) (by decide) x
  have hround := roundup32_le hx
  rcases Nat.lt_or_ge 1 x with h1 | h1
  · have hn : Nat.clog 2 x ≤ 32 := Nat.clog_le_of_le_pow h
    have hpred := Nat.pow_pred_clog_lt_self (b := 2) (by decide) h1
    obtain ⟨n, hclog⟩ : ∃ n, Nat.clog 2 x = n + 1 :=
      Nat.exists_eq_succ_of_ne_zero (Nat.clog_pos (by decide) h1).ne'
    rw [hclog] at hn hx hpred hround ⊢
    have htop : (x - 1).testBit n :=
      Nat.testBit_of_two_pow_le_and_two_pow_add_one_gt (by simp at hpred; omega) (by omega)
    have hones : roundup32 x - 1 = 2 ^ (n + 1) - 1 := by
      refine Nat.eq_of_testBit_eq fun i => ?_
      rw [Nat.testBit_two_pow_sub_one]
      rcases Nat.lt_or_ge i (n + 1) with hi | hi
      · rw [decide_eq_true hi, hbits]
        exact ⟨n - i, by omega, by rwa [Nat.add_sub_cancel' (by omega)]⟩
      · rw [decide_eq_false (by omega)]
        refine Nat.testBit_lt_two_pow (lt_of_lt_of_le ?_ (Nat.pow_le_pow_right (by decide) hi))
        have := Nat.two_pow_pos (n + 1)
        omega
    have := le_roundup32 x
    have := Nat.two_pow_pos (n + 1)
    omega
  · obtain rfl : x = 1 := by omega
    rfl

/-! ## The macros -/

/-- A block of items, how many of them are in use, and how many there are. -/
structure Darray (α : Type*) where
  item : List α
  size : ℕ
  alloc : ℕ

namespace Darray

variable {α : Type*}

/-- An array grows by this many items at least. -/
def minGrowingSize : ℕ :=
  64

/-- The empty array has no block. -/
def new : Darray α :=
  ⟨[], 0, 0⟩

section

variable (w : ℕ) (junk : ℕ → α) (d : Darray α)

/-- The size of the block is given in bytes, with `w` bytes for an item. -/
def realloc (newAlloc : ℕ) : Darray α :=
  ⟨Memory.realloc junk d.item (toSizeT (newAlloc * w) / w), d.size, newAlloc⟩

/-- The block grows to the next power of two, if it is too small. -/
def growalloc (need : ℕ) : Darray α :=
  if need > d.alloc then
    realloc w junk d
      (roundup32 (if need - d.alloc < minGrowingSize then d.alloc + minGrowingSize else need))
  else d

/-- The size changes, and the block grows if it is too small. New items are not set. -/
def resize (newSize : ℕ) : Darray α :=
  growalloc w junk ⟨d.item, newSize, d.alloc⟩ newSize

/-- The new items are zero. -/
def resize0 [Zero α] (newSize : ℕ) : Option (Darray α) :=
  if newSize > d.size then do
    let e := growalloc w junk ⟨d.item, newSize, d.alloc⟩ newSize
    let item ← poke e.item d.size (List.replicate (newSize - d.size) 0)
    some ⟨item, e.size, e.alloc⟩
  else some ⟨d.item, newSize, d.alloc⟩

/-- The block grows to the very size. -/
def makeRoom (room : ℕ) : Darray α :=
  if d.alloc < d.size + room then realloc w junk d (d.size + room) else d

/-- The items behind the place move up, and with them one item more. -/
def insert (index : ℕ) (x : α) : Option (Darray α) := do
  let d := resize w junk d (d.size + 1)
  let item ← move d.item (index + 1) index (d.size - index)
  let item ← poke item index [x]
  some ⟨item, d.size, d.alloc⟩

/-- One item at the end. -/
def append (x : α) : Option (Darray α) := do
  let d := resize w junk d (d.size + 1)
  let item ← poke d.item (d.size - 1) [x]
  some ⟨item, d.size, d.alloc⟩

/-- One item at the start. -/
def prepend (x : α) : Option (Darray α) := do
  let d := resize w junk d (d.size + 1)
  let item ← move d.item 1 0 (d.size - 1)
  let item ← poke item 0 [x]
  some ⟨item, d.size, d.alloc⟩

/-- Several items at the end. -/
def appendItems (xs : List α) : Option (Darray α) := do
  let e := resize w junk d (d.size + xs.length)
  let item ← poke e.item d.size xs
  some ⟨item, e.size, e.alloc⟩

/-- Several items at the start. -/
def prependItems (xs : List α) : Option (Darray α) := do
  let e := resize w junk d (xs.length + d.size)
  let item ← move e.item xs.length 0 d.size
  let item ← poke item 0 xs
  some ⟨item, e.size, e.alloc⟩

/-- The items of another array. -/
def fromItems (xs : List α) : Option (Darray α) := do
  let d := resize w junk d xs.length
  let item ← poke d.item 0 xs
  some ⟨item, d.size, d.alloc⟩

end

/-- The items behind the place move down. -/
def del (d : Darray α) (index : ℕ) : Option (Darray α) := do
  let item ← move d.item index (index + 1) (d.size - index - 1)
  some ⟨item, d.size - 1, d.alloc⟩

/-- The item at a place, if it is in the block. -/
def item? (d : Darray α) (i : ℕ) : Option α := do
  let xs ← peek d.item i 1
  xs.head?

/-- The last item is taken off. The size is not looked at. -/
def pop (d : Darray α) : Option (Darray α × α) := do
  let size := toSizeT (d.size - 1)
  let x ← item? d size
  some (⟨d.item, size, d.alloc⟩, x)

/-- The last item is taken off, if there is one. -/
def popCheck (d : Darray α) : Option (Darray α × Option α) :=
  if d.size = 0 then some (d, none)
  else do
    let (d, x) ← pop d
    some (d, some x)

/-! ## What an array holds -/

/-- The items in use and the size of the block. -/
def Has (d : Darray α) (s : List α × ℕ) : Prop :=
  ∃ spare, d = ⟨s.1 ++ spare, s.1.length, s.2⟩ ∧ s.1.length + spare.length = s.2

/-- Sizes up to this one, and the sizes of blocks that are made for them, have sizes in bytes. -/
def limit : ℕ :=
  2 ^ 31

/-- The size of the block that is made for so many items. -/
def grown (a need : ℕ) : ℕ :=
  if need > a then
    roundup32 (if need - a < minGrowingSize then a + minGrowingSize else need)
  else a

/-- The grown capacity holds what is needed, and is not less than before. -/
theorem le_grown (a need : ℕ) : need ≤ grown a need ∧ a ≤ grown a need := by
  rw [grown]
  split_ifs with hneed hsmall
  · have := le_roundup32 (a + minGrowingSize)
    rw [minGrowingSize] at *
    omega
  · have := le_roundup32 need
    omega
  · omega

theorem grown_le {a need : ℕ} (h : need ≤ limit) (hneed : a < need) : grown a need ≤ 2 ^ 32 := by
  rw [limit] at h
  rw [grown, if_pos hneed]
  refine roundup32_le ?_
  rw [minGrowingSize]
  split_ifs <;> omega

section

variable {w a n i : ℕ} {junk : ℕ → α} {t spare xs : List α} {x : α}

theorem realloc_eq (hw : 0 < w) (hlimit : w ≤ limit) (hn : n ≤ 2 ^ 32) (d : Darray α) :
    realloc w junk d n = ⟨Memory.realloc junk d.item n, d.size, n⟩ := by
  have hbytes : n * w ≤ 2 ^ 32 * 2 ^ 31 := Nat.mul_le_mul hn hlimit
  rw [realloc, ← Nat.cast_mul, toSizeT_natCast (by omega), Nat.mul_div_cancel _ hw]

/-- Room is made behind the items. -/
theorem growalloc_has (junk : ℕ → α) (hw : 0 < w) (hlimit : w ≤ limit) (hn : n ≤ limit)
    (m : ℕ) (ha : t.length + spare.length = a) :
    ∃ spare', growalloc w junk ⟨t ++ spare, m, a⟩ n = ⟨t ++ spare', m, grown a n⟩ ∧
      t.length + spare'.length = grown a n := by
  by_cases hneed : a < n
  · obtain ⟨more, hbuf, hlen⟩ := Memory.realloc_eq junk (t := t ++ spare)
      (n := grown a n) (by rw [List.length_append, ha]; exact (le_grown a n).2)
    refine ⟨spare ++ more, ?_, by simp at hlen ⊢; omega⟩
    have hround := grown_le hn hneed
    rw [grown, if_pos hneed] at hbuf hround ⊢
    rw [growalloc, if_pos hneed, realloc_eq hw hlimit hround, hbuf, List.append_assoc]
  · exact ⟨spare, by rw [growalloc, grown, if_neg hneed, if_neg hneed],
      by rw [grown, if_neg hneed, ha]⟩

theorem has_mk {item r : List α} (hitem : item = t ++ r) (hn : n = t.length)
    (ha : item.length = a) : Has ⟨item, n, a⟩ (t, a) := by
  subst hitem hn
  exact ⟨r, rfl, by rw [← ha, List.length_append]⟩

/-- Appending adds the items behind. -/
theorem appendItems_has (junk : ℕ → α) (xs : List α) (hw : 0 < w) (hlimit : w ≤ limit)
    (hn : t.length + xs.length ≤ limit) (ha : t.length + spare.length = a) :
    ∃ d, appendItems w junk ⟨t ++ spare, t.length, a⟩ xs = some d ∧
      Has d (t ++ xs, grown a (t.length + xs.length)) := by
  obtain ⟨spare', hroom, hlen⟩ :=
    growalloc_has junk hw hlimit hn (t.length + xs.length) ha
  have hle := (le_grown a (t.length + xs.length)).1
  refine ⟨⟨t ++ xs ++ spare'.drop xs.length, t.length + xs.length,
    grown a (t.length + xs.length)⟩, ?_, has_mk rfl (by simp) (by simp; omega)⟩
  rw [appendItems, resize, hroom]
  dsimp only
  rw [poke_split (by omega)]
  rfl

/-- Prepending moves the items and adds the new ones in front. -/
theorem prependItems_has (junk : ℕ → α) (xs : List α) (hw : 0 < w) (hlimit : w ≤ limit)
    (hn : xs.length + t.length ≤ limit) (ha : t.length + spare.length = a) :
    ∃ d, prependItems w junk ⟨t ++ spare, t.length, a⟩ xs = some d ∧
      Has d (xs ++ t, grown a (xs.length + t.length)) := by
  obtain ⟨spare', hroom, hlen⟩ :=
    growalloc_has junk hw hlimit hn (xs.length + t.length) ha
  have hle := (le_grown a (xs.length + t.length)).1
  obtain ⟨ys, hys, hmove⟩ := move_right (a := []) (b := t) (r := spare') (n := xs.length)
    (by omega)
  rw [List.nil_append, List.length_nil, Nat.cast_zero, zero_add, List.nil_append] at hmove
  have hpoke := poke_split (t := []) (u := xs) (r := ys ++ (t ++ spare'.drop xs.length))
    (by simp; omega)
  rw [List.nil_append, List.length_nil, Nat.cast_zero, List.nil_append, ← hys, List.drop_left]
    at hpoke
  refine ⟨⟨xs ++ t ++ spare'.drop xs.length, xs.length + t.length,
    grown a (xs.length + t.length)⟩, ?_, has_mk rfl (by simp) (by simp; omega)⟩
  rw [prependItems, resize, hroom]
  dsimp only
  rw [hmove, Option.bind_eq_bind, Option.bind_some, ← hys, hpoke, List.append_assoc]
  rfl

@[simp] theorem growalloc_size (d : Darray α) : (growalloc w junk d n).size = d.size := by
  rw [growalloc]
  split_ifs <;> rfl

theorem append_eq (d : Darray α) : append w junk d x = appendItems w junk d [x] := by
  simp [append, appendItems, resize]

theorem prepend_eq (d : Darray α) : prepend w junk d x = prependItems w junk d [x] := by
  simp [prepend, prependItems, resize, Nat.add_comm 1]

/-- `darray_from_items` replaces the items. -/
theorem fromItems_has (hw : 0 < w) (hlimit : w ≤ limit) (hn : xs.length ≤ limit)
    (ha : t.length + spare.length = a) :
    ∃ d, fromItems w junk ⟨t ++ spare, t.length, a⟩ xs = some d ∧
      Has d (xs, grown a xs.length) := by
  obtain ⟨spare', hroom, hlen⟩ := growalloc_has junk hw hlimit hn xs.length ha
  have hle := (le_grown a xs.length).1
  have hpoke := poke_split (t := []) (u := xs) (r := t ++ spare') (by simp; omega)
  rw [List.nil_append, List.length_nil, Nat.cast_zero, List.nil_append] at hpoke
  refine ⟨⟨xs ++ (t ++ spare').drop xs.length, xs.length, grown a xs.length⟩, ?_,
    has_mk rfl rfl (by simp; omega)⟩
  rw [fromItems, resize, hroom]
  dsimp only
  rw [hpoke]
  rfl

theorem resize_down (hn : n ≤ t.length) (ha : t.length + spare.length = a) :
    resize w junk ⟨t ++ spare, t.length, a⟩ n = ⟨t ++ spare, n, a⟩ := by
  rw [resize, growalloc, if_neg (by dsimp only; omega)]

/-- Items at the end are dropped. -/
theorem has_take (hn : n ≤ t.length) (ha : t.length + spare.length = a) :
    Has ⟨t ++ spare, n, a⟩ (t.take n, a) := by
  refine has_mk (r := t.drop n ++ spare) ?_ (by simp; omega) (by simpa using ha)
  rw [← List.append_assoc, List.take_append_drop]

/-- `darray_resize0` cuts the items, or fills up with zeros. -/
theorem resize0_has [Zero α] (hw : 0 < w) (hlimit : w ≤ limit) (hn : n ≤ limit)
    (ha : t.length + spare.length = a) :
    ∃ d, resize0 w junk ⟨t ++ spare, t.length, a⟩ n = some d ∧
      Has d (t.take n ++ List.replicate (n - t.length) 0,
        if n > t.length then grown a n else a) := by
  rw [resize0]
  dsimp only
  split_ifs with hmore
  · obtain ⟨spare', hroom, hlen⟩ := growalloc_has junk hw hlimit hn n ha
    have hle := (le_grown a n).1
    rw [List.take_of_length_le (by omega)]
    refine ⟨⟨t ++ List.replicate (n - t.length) 0 ++ spare'.drop (n - t.length), n, grown a n⟩, ?_,
      has_mk rfl (by simp; omega) (by simp; omega)⟩
    rw [hroom]
    dsimp only
    rw [poke_split (by simp; omega), List.length_replicate]
    rfl
  · rw [Nat.sub_eq_zero_of_le (by omega), List.replicate_zero, List.append_nil]
    exact ⟨_, rfl, has_take (by omega) ha⟩

/-- `darray_insert` puts the item at its place when the insertion does not fill the block. -/
theorem insert_has (hw : 0 < w) (hlimit : w ≤ limit) (hn : t.length + 1 ≤ limit)
    (hi : i ≤ t.length) (hfill : t.length + 1 ≠ grown a (t.length + 1))
    (ha : t.length + spare.length = a) :
    ∃ d, insert w junk ⟨t ++ spare, t.length, a⟩ i x = some d ∧
      Has d (t.take i ++ x :: t.drop i, grown a (t.length + 1)) := by
  obtain ⟨spare', hroom, hlen⟩ :=
    growalloc_has junk hw hlimit hn (t.length + 1) ha
  have hle := (le_grown a (t.length + 1)).1
  obtain ⟨e, rest, rfl⟩ := List.exists_cons_of_ne_nil (List.ne_nil_of_length_pos
    (l := spare') (by omega))
  have htake : (t.take i).length = i := List.length_take_of_le hi
  obtain ⟨ys, hys, hmove⟩ := move_right (a := t.take i) (b := t.drop i ++ [e]) (r := rest)
    (n := 1) (by simp at hlen; omega)
  obtain ⟨y, rfl⟩ := List.length_eq_one_iff.1 hys
  have hsplit : t.take i ++ (t.drop i ++ [e] ++ rest) = t ++ e :: rest := by
    rw [List.append_assoc, ← List.append_assoc, List.take_append_drop]
    rfl
  have hcount : (t.drop i ++ [e]).length = t.length + 1 - i := by simp; omega
  rw [hsplit, hcount, htake, Nat.cast_one] at hmove
  have hpoke := poke_one (t := t.take i) (e := y) (z := x) (s := t.drop i ++ [e] ++ rest.drop 1)
  rw [htake] at hpoke
  refine ⟨⟨t.take i ++ x :: (t.drop i ++ [e] ++ rest.drop 1), t.length + 1,
    grown a (t.length + 1)⟩, ?_, has_mk (r := e :: rest.drop 1) ?_ ?_ ?_⟩
  · rw [insert, resize, hroom]
    dsimp only
    rw [hmove, Option.bind_eq_bind, Option.bind_some, List.singleton_append, hpoke]
    rfl
  · simp
  · simp; omega
  · simp at hlen ⊢; omega

/-- The item behind the last one is moved too, out of the block. -/
theorem insert_none (hw : 0 < w) (hlimit : w ≤ limit) (hn : t.length + 1 ≤ limit)
    (hi : i ≤ t.length) (hfill : t.length + 1 = grown a (t.length + 1))
    (ha : t.length + spare.length = a) :
    insert w junk ⟨t ++ spare, t.length, a⟩ i x = none := by
  obtain ⟨spare', hroom, hlen⟩ :=
    growalloc_has junk hw hlimit hn (t.length + 1) ha
  rw [insert, resize, hroom]
  dsimp only
  rw [move, peek, if_pos ⟨by omega, by simp; omega⟩]
  simp only [Option.bind_eq_bind, Option.bind_some]
  rw [poke, if_neg (by simp; omega)]
  rfl

/-- Deleting the item at `i` moves the later ones down. -/
theorem del_has (hi : i < t.length) (ha : t.length + spare.length = a) :
    ∃ d, del ⟨t ++ spare, t.length, a⟩ i = some d ∧ Has d (t.take i ++ t.drop (i + 1), a) := by
  have htake : (t.take i).length = i := List.length_take_of_le hi.le
  obtain ⟨rest, hrest, hmove⟩ := move_left (t.take i) (t.drop (i + 1)) spare t[i]
  have hsplit : t.take i ++ t[i] :: (t.drop (i + 1) ++ spare) = t ++ spare := by
    rw [← List.cons_append, ← List.drop_eq_getElem_cons hi, ← List.append_assoc,
      List.take_append_drop]
  have hcount : (t.drop (i + 1)).length = t.length - i - 1 := by simp; omega
  rw [hsplit, hcount, htake] at hmove
  refine ⟨⟨t.take i ++ (t.drop (i + 1) ++ rest), t.length - 1, a⟩, ?_,
    has_mk (r := rest) (by rw [List.append_assoc]) (by simp; omega) (by simp; omega)⟩
  rw [del]
  dsimp only
  rw [hmove]
  rfl

/-- Reading the item at `i`. -/
theorem item?_has (hi : i < t.length) (a : ℕ) : item? ⟨t ++ spare, t.length, a⟩ i = t[i]? := by
  have hsplit : t ++ spare = t.take i ++ ([t[i]] ++ (t.drop (i + 1) ++ spare)) := by
    rw [List.singleton_append, ← List.cons_append, ← List.drop_eq_getElem_cons hi,
      ← List.append_assoc, List.take_append_drop]
  have hpeek := peek_append (t.take i) [t[i]] (t.drop (i + 1) ++ spare)
  rw [← hsplit, List.length_take_of_le hi.le] at hpeek
  rw [item?]
  dsimp only
  rw [← List.length_singleton (a := t[i]), hpeek, List.getElem?_eq_getElem hi]
  rfl

/-- Popping returns the last item and leaves the others. -/
theorem pop_has (hpos : 0 < t.length) (hl : t.length ≤ limit) (ha : t.length + spare.length = a) :
    ∃ d, pop ⟨t ++ spare, t.length, a⟩ = some (d, t.getLast (List.ne_nil_of_length_pos hpos)) ∧
      Has d (t.dropLast, a) := by
  rw [limit] at hl
  have hsize : toSizeT ((t.length : ℤ) - 1) = t.length - 1 := by
    rw [toSizeT]
    omega
  refine ⟨⟨t ++ spare, t.length - 1, a⟩, ?_, ?_⟩
  · rw [pop]
    dsimp only
    rw [hsize, item?_has (by omega), ← List.getLast?_eq_getElem?,
      List.getLast?_eq_some_getLast (List.ne_nil_of_length_pos hpos)]
    rfl
  · rw [List.dropLast_eq_take]
    exact has_take (by omega) ha

theorem realloc_has (hw : 0 < w) (hlimit : w ≤ limit) (hn : n ≤ limit) (hle : t.length ≤ n)
    (a : ℕ) : Has (realloc w junk ⟨t ++ spare, t.length, a⟩ n) (t, n) := by
  have hn' : n ≤ 2 ^ 32 := hn.trans (by decide)
  rw [realloc_eq hw hlimit hn', Memory.realloc, List.take_append, List.take_of_length_le hle,
    List.append_assoc]
  exact has_mk rfl rfl (by simp; omega)

theorem Has.peek {d : Darray α} {s : List α × ℕ} (h : Has d s) :
    Memory.peek d.item 0 d.size = some s.1 := by
  obtain ⟨spare, rfl, -⟩ := h
  exact peek_text s.1 spare

end

/-! ## Runs -/

/-- What can be done with an array. -/
inductive Call (α : Type*)
  | insert (index : ℕ) (x : α)
  | append (x : α)
  | prepend (x : α)
  | appendItems (xs : List α)
  | prependItems (xs : List α)
  | fromItems (xs : List α)
  | resize (newSize : ℕ)
  | resize0 (newSize : ℕ)
  | realloc (newAlloc : ℕ)
  | makeRoom (room : ℕ)
  | del (index : ℕ)
  | pop
  | popCheck
  | item (i : ℕ)
  | free

/-- The call, and the item that it gets. -/
def exec [Zero α] (w : ℕ) (junk : ℕ → α) (d : Darray α) :
    Call α → Option (Darray α × Option α)
  | .insert i x => (insert w junk d i x).map (·, none)
  | .append x => (append w junk d x).map (·, none)
  | .prepend x => (prepend w junk d x).map (·, none)
  | .appendItems xs => (appendItems w junk d xs).map (·, none)
  | .prependItems xs => (prependItems w junk d xs).map (·, none)
  | .fromItems xs => (fromItems w junk d xs).map (·, none)
  | .resize n => some (resize w junk d n, none)
  | .resize0 n => (resize0 w junk d n).map (·, none)
  | .realloc n => some (realloc w junk d n, none)
  | .makeRoom n => some (makeRoom w junk d n, none)
  | .del i => (del d i).map (·, none)
  | .pop => (pop d).map fun r => (r.1, some r.2)
  | .popCheck => popCheck d
  | .item i => (item? d i).map fun x => (d, some x)
  | .free => some (new, none)

/-- What the call makes of the items and of the size of the block. -/
def spec [Zero α] (t : List α) (a : ℕ) : Call α → (List α × ℕ) × Option α
  | .insert i x => ((t.take i ++ x :: t.drop i, grown a (t.length + 1)), none)
  | .append x => ((t ++ [x], grown a (t.length + 1)), none)
  | .prepend x => ((x :: t, grown a (t.length + 1)), none)
  | .appendItems xs => ((t ++ xs, grown a (t.length + xs.length)), none)
  | .prependItems xs => ((xs ++ t, grown a (xs.length + t.length)), none)
  | .fromItems xs => ((xs, grown a xs.length), none)
  | .resize n => ((t.take n, a), none)
  | .resize0 n =>
    ((t.take n ++ List.replicate (n - t.length) 0, if n > t.length then grown a n else a), none)
  | .realloc n => ((t, n), none)
  | .makeRoom n => ((t, if a < t.length + n then t.length + n else a), none)
  | .del i => ((t.take i ++ t.drop (i + 1), a), none)
  | .pop => ((t.dropLast, a), t.getLast?)
  | .popCheck => ((t.dropLast, a), t.getLast?)
  | .item i => ((t, a), t[i]?)
  | .free => (([], 0), none)

/-- The call is for items that are there, and the sizes are within the limit. -/
def Legal (t : List α) : Call α → Prop
  | .insert i _ => i ≤ t.length ∧ t.length + 1 ≤ limit
  | .append _ => t.length + 1 ≤ limit
  | .prepend _ => t.length + 1 ≤ limit
  | .appendItems xs => t.length + xs.length ≤ limit
  | .prependItems xs => xs.length + t.length ≤ limit
  | .fromItems xs => xs.length ≤ limit
  | .resize n => n ≤ t.length
  | .resize0 n => n ≤ limit
  | .realloc n => t.length ≤ n ∧ n ≤ limit
  | .makeRoom n => t.length + n ≤ limit
  | .del i => i < t.length
  | .pop => 0 < t.length
  | .popCheck => True
  | .item i => i < t.length
  | .free => True

/-- An item that is inserted does not fill the block. -/
def NoFill (t : List α) (a : ℕ) : Call α → Prop
  | .insert _ _ => t.length + 1 ≠ grown a (t.length + 1)
  | _ => True

/-- An array with these items, which are within the limit. -/
def Holds (d : Darray α) (s : List α × ℕ) : Prop :=
  Has d s ∧ s.1.length ≤ limit

/-- One legal call does to the block what its specification does to the list. -/
theorem exec_has [Zero α] {w a : ℕ} {t spare : List α} (hw : 0 < w) (hlimit : w ≤ limit)
    (junk : ℕ → α) (c : Call α) (ha : t.length + spare.length = a) (hl : t.length ≤ limit)
    (hc : Legal t c) (hfill : NoFill t a c) :
    ∃ d, exec w junk ⟨t ++ spare, t.length, a⟩ c = some (d, (spec t a c).2) ∧
      Holds d (spec t a c).1 := by
  have hmap : ∀ {o : Option (Darray α)} {s' : List α × ℕ}, (∃ d, o = some d ∧ Has d s') →
      s'.1.length ≤ limit →
      ∃ d', o.map (·, (none : Option α)) = some (d', none) ∧ Holds d' s' := by
    rintro o s' ⟨d, rfl, hd⟩ hs
    exact ⟨d, rfl, hd, hs⟩
  cases c with
  | insert i x =>
    have hlen : (t.take i ++ x :: t.drop i).length ≤ limit := by
      have := hc.1
      have := hc.2
      simp
      omega
    exact hmap (insert_has hw hlimit hc.2 hc.1 hfill ha) hlen
  | append x =>
    have happ := appendItems_has junk [x] hw hlimit hc ha
    rw [← append_eq] at happ
    exact hmap happ (List.length_append.trans_le hc)
  | prepend x =>
    have hpre := prependItems_has junk [x] hw hlimit
      (by rw [List.length_singleton, Nat.add_comm]; exact hc) ha
    rw [← prepend_eq, List.length_singleton, Nat.add_comm 1] at hpre
    exact hmap hpre hc
  | appendItems xs =>
    exact hmap (appendItems_has junk xs hw hlimit hc ha) (List.length_append.trans_le hc)
  | prependItems xs =>
    exact hmap (prependItems_has junk xs hw hlimit hc ha) (List.length_append.trans_le hc)
  | fromItems xs => exact hmap (fromItems_has hw hlimit hc ha) hc
  | resize n =>
    refine ⟨_, by rw [exec, resize_down hc ha]; rfl, has_take hc ha, ?_⟩
    exact (List.length_take_le _ _).trans hc |>.trans hl
  | resize0 n =>
    have hlen : (t.take n ++ List.replicate (n - t.length) 0).length ≤ limit := by
      have hn : n ≤ limit := hc
      simp
      omega
    exact hmap (resize0_has hw hlimit hc ha) hlen
  | realloc n => exact ⟨_, rfl, realloc_has hw hlimit hc.2 hc.1 a, hl⟩
  | makeRoom n =>
    refine ⟨_, rfl, ?_, hl⟩
    rw [makeRoom, spec]
    split_ifs
    · exact realloc_has hw hlimit hc (by omega) a
    · exact has_mk rfl rfl (by rw [List.length_append, ha])
  | del i =>
    have hlen : (t.take i ++ t.drop (i + 1)).length ≤ limit := by
      simp
      omega
    exact hmap (del_has hc ha) hlen
  | pop =>
    obtain ⟨d, hpop, hd⟩ := pop_has hc hl ha
    refine ⟨d, ?_, hd, ?_⟩
    · rw [exec, hpop, spec, List.getLast?_eq_some_getLast (List.ne_nil_of_length_pos hc)]
      rfl
    · exact (List.length_dropLast ▸ Nat.sub_le _ _ : t.dropLast.length ≤ t.length).trans hl
  | popCheck =>
    rcases Nat.eq_zero_or_pos t.length with h0 | hpos
    · obtain rfl := List.length_eq_zero_iff.1 h0
      exact ⟨_, rfl, ⟨spare, rfl, ha⟩, hl⟩
    · obtain ⟨d, hpop, hd⟩ := pop_has hpos hl ha
      refine ⟨d, ?_, hd, ?_⟩
      · rw [exec, popCheck, if_neg hpos.ne', hpop, spec,
          List.getLast?_eq_some_getLast (List.ne_nil_of_length_pos hpos)]
        rfl
      · exact (List.length_dropLast ▸ Nat.sub_le _ _ : t.dropLast.length ≤ t.length).trans hl
  | item i =>
    refine ⟨⟨t ++ spare, t.length, a⟩, ?_, ⟨spare, rfl, ha⟩, hl⟩
    rw [exec, item?_has hc, spec, List.getElem?_eq_getElem hc]
    rfl
  | free => exact ⟨_, rfl, ⟨[], rfl, rfl⟩, Nat.zero_le _⟩

/-- A call, with what memory holds when it is allocated. -/
def conc [Zero α] (w : ℕ) (d : Darray α) (c : Call α × (ℕ → α)) : Option (Darray α × Option α) :=
  exec w c.2 d c.1

/-- What a call does to the list of items and the size of the block. -/
def abs [Zero α] (s : List α × ℕ) (c : Call α × (ℕ → α)) : (List α × ℕ) × Option α :=
  spec s.1 s.2 c.1

theorem conc_refines [Zero α] {w : ℕ} (hw : 0 < w) (hlimit : w ≤ limit) :
    Refinement.Refines (Holds (α := α)) (conc w) abs
      fun s c => Legal s.1 c.1 ∧ NoFill s.1 s.2 c.1 := by
  rintro d ⟨t, a⟩ ⟨c, junk⟩ ⟨⟨spare, rfl, ha⟩, hl⟩ ⟨hc, hfill⟩
  exact exec_has hw hlimit junk c ha hl hc hfill

theorem new_holds : Holds (new : Darray α) ([], 0) :=
  ⟨⟨[], rfl, rfl⟩, Nat.zero_le _⟩

/-- A run goes outside the block if and only if an item is inserted that fills it. -/
theorem run_inside [Zero α] {w : ℕ} (hw : 0 < w) (hlimit : w ≤ limit)
    {cs : List (Call α × (ℕ → α))}
    (hl : Refinement.Allowed abs (fun s c => Legal s.1 c.1) ([], 0) cs) :
    (∃ r, Refinement.runPartial (conc w) new cs = some r) ↔
      Refinement.Allowed abs (fun s c => NoFill s.1 s.2 c.1) ([], 0) cs := by
  refine (conc_refines hw hlimit).run_iff ?_ new_holds hl
  rintro d ⟨t, a⟩ ⟨c, junk⟩ ⟨⟨spare, rfl, ha⟩, -⟩ hc hfill
  cases c with
  | insert i x =>
    rw [conc, exec, insert_none hw hlimit hc.2 hc.1 (not_not.1 hfill) ha]
    rfl
  | _ => exact absurd trivial hfill

/-- A run with an insertion that does not fill the block. -/
theorem run_inside_insert :
    let cs : List (Call ℕ × (ℕ → ℕ)) :=
      [(.append 4, fun _ => 9), (.append 5, fun _ => 9), (.insert 1 6, fun _ => 9)]
    (∃ r, Refinement.runPartial (conc 8) new cs = some r) ↔
      Refinement.Allowed abs (fun s c => NoFill s.1 s.2 c.1) ([], 0) cs :=
  run_inside (by decide) (by decide)
    ⟨show 1 ≤ limit by decide, show 2 ≤ limit by decide, show 1 ≤ 2 ∧ 3 ≤ limit by decide, trivial⟩

example : (Refinement.runPartial (conc (α := ℕ) 8) new
    [(.fromItems (List.replicate 63 4), id), (.insert 0 5, id)]).isNone := by
  decide

/-- A run that stays inside makes of the array what it makes of a list. -/
theorem run_items [Zero α] {w : ℕ} (hw : 0 < w) (hlimit : w ≤ limit)
    {cs : List (Call α × (ℕ → α))}
    (hl : Refinement.Allowed abs (fun s c => Legal s.1 c.1) ([], 0) cs)
    (hfill : Refinement.Allowed abs (fun s c => NoFill s.1 s.2 c.1) ([], 0) cs) :
    ∃ d, Refinement.runPartial (conc w) new cs = some (d, (Refinement.run abs ([], 0) cs).2) ∧
      d.size ≤ d.alloc ∧ d.item.length = d.alloc ∧
      peek d.item 0 d.size = some (Refinement.run abs ([], 0) cs).1.1 := by
  obtain ⟨d, hrun, ⟨hhas, -⟩⟩ := (conc_refines hw hlimit).run new_holds (hl.and hfill)
  refine ⟨d, hrun, ?_, ?_, hhas.peek⟩
  all_goals
    obtain ⟨spare, rfl, ha⟩ := hhas
    simp
    omega

/-- A run with an insertion in the middle. -/
theorem run_items_insert :
    let cs : List (Call ℕ × (ℕ → ℕ)) :=
      [(.append 4, fun _ => 9), (.append 5, fun _ => 9), (.insert 1 6, fun _ => 9),
        (.pop, fun _ => 9)]
    ∃ d, Refinement.runPartial (conc 8) new cs = some (d, [none, none, none, some 5]) ∧
      d.size ≤ d.alloc ∧ d.item.length = d.alloc ∧ peek d.item 0 d.size = some [4, 6] :=
  run_items (by decide) (by decide)
    ⟨show 1 ≤ limit by decide, show 2 ≤ limit by decide, show 1 ≤ 2 ∧ 3 ≤ limit by decide,
      show 0 < 3 by decide, trivial⟩
    ⟨trivial, trivial, show 3 ≠ grown (grown (grown 0 1) 2) 3 by decide, trivial, trivial⟩

/-! ## Sizes of blocks -/

/-- No block, or one of a power of two. -/
def TwoPow (a : ℕ) : Prop :=
  a = 0 ∨ ∃ k, 6 ≤ k ∧ a = 2 ^ k

/-- A grown capacity is zero or a power of two. -/
theorem grown_twoPow {a need : ℕ} (ha : TwoPow a) (h : need ≤ limit) : TwoPow (grown a need) := by
  rw [grown]
  by_cases hneed : need > a
  · rw [if_pos hneed]
    generalize hx : (if need - a < minGrowingSize then a + minGrowingSize else need) = x
    have hbounds : 2 ^ 6 ≤ x ∧ x ≤ 2 ^ 32 := by
      rw [limit] at h
      rw [← hx, minGrowingSize]
      split_ifs <;> omega
    refine .inr ⟨Nat.clog 2 x, ?_, roundup32_eq (by omega) hbounds.2⟩
    exact (Nat.pow_le_pow_iff_right (by decide)).1
      (hbounds.1.trans (Nat.le_pow_clog (by decide) x))
  · rwa [if_neg hneed]

/-- The size of the block is not asked for, and an item that is inserted does not make the size a
power of two. -/
def Plain (t : List α) : Call α → Prop
  | .insert _ _ => ∀ k, 6 ≤ k → t.length + 1 ≠ 2 ^ k
  | .realloc _ => False
  | .makeRoom _ => False
  | _ => True

/-- A plain call keeps the capacity zero or a power of two. -/
theorem spec_twoPow [Zero α] {t : List α} {a : ℕ} {c : Call α} (ha : TwoPow a) (hl : Legal t c)
    (hp : Plain t c) : TwoPow (spec t a c).1.2 := by
  cases c with
  | insert i x => exact grown_twoPow ha hl.2
  | append x => exact grown_twoPow ha hl
  | prepend x => exact grown_twoPow ha hl
  | appendItems xs => exact grown_twoPow ha hl
  | prependItems xs => exact grown_twoPow ha hl
  | fromItems xs => exact grown_twoPow ha hl
  | resize0 n =>
    rw [spec]
    dsimp only
    split_ifs
    · exact grown_twoPow ha hl
    · exact ha
  | realloc n => exact hp.elim
  | makeRoom n => exact hp.elim
  | free => exact .inl rfl
  | resize | del | pop | popCheck | item => exact ha

/-- The sizes that an insertion must not reach are powers of two. -/
theorem run_plain [Zero α] {w : ℕ} (hw : 0 < w) (hlimit : w ≤ limit)
    {cs : List (Call α × (ℕ → α))}
    (hl : Refinement.Allowed abs (fun s c => Legal s.1 c.1 ∧ Plain s.1 c.1) ([], 0) cs) :
    ∃ r, Refinement.runPartial (conc w) new cs = some r := by
  refine (run_inside hw hlimit (hl.mono fun _ _ h => h.1)).2 ?_
  refine hl.of_invariant (P := fun s => TwoPow s.2) (.inl rfl)
    (fun s c ha h => spec_twoPow ha h.1 h.2) ?_
  rintro ⟨t, a⟩ ⟨c, junk⟩ ha ⟨hc, hp⟩
  cases c with
  | insert i x =>
    intro heq
    rcases grown_twoPow ha hc.2 with h0 | ⟨k, hk, hpow⟩
    · omega
    · exact hp k hk (heq.trans hpow)
  | _ => exact trivial

/-- A plain run with an insertion. -/
theorem run_plain_insert :
    ∃ r, Refinement.runPartial (conc (α := ℕ) 8) new
      [(.append 4, fun _ => 9), (.insert 1 6, fun _ => 9)] = some r :=
  run_plain (by decide) (by decide)
    ⟨⟨show 1 ≤ limit by decide, trivial⟩, ⟨show 1 ≤ 1 ∧ 2 ≤ limit by decide, fun k hk h => by
      have hk' := Nat.pow_le_pow_right (n := 2) (by decide) hk
      have h2 : 2 = 2 ^ k := h
      omega⟩, trivial⟩

end Darray

end Idb
