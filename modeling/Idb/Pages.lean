import Mathlib.Data.List.Flatten
import Mathlib.Tactic

/-!
# Pages of a nested listing

A directory has keys of its own and then parts, which are directories again. `full`
lists the keys of all of them. `page` is a walk that is to skip some keys and then list
some : it takes its page of the directory's own keys and hands what is left of both
numbers to every part in turn, without taking off what the parts before have used. It
stops at a part that fills the page, and after as many parts as keys are wanted.

A page is right if the numbers that were handed on did not have to be taken down : if no part
with keys is gone through, unless it fills the page or the rest holds none (`page_eq_slice`). All
pages of a directory are right only if in every directory they come to no part but the first
holds keys (`firstOnly_of_pages`), and then no number has to be taken down
(`served_of_firstOnly`).
-/

namespace Pages

variable {ι α : Type}

/-- The part of a list behind `skip` elements, at most `count` of them ; 0 means all. -/
def slice (skip count : ℕ) (l : List α) : List α :=
  if count = 0 then l.drop skip else (l.drop skip).take count

/-- Go through parts with a walk `sub` of each, when `b` parts were gone through before. -/
def pageParts (sub : ι → List α) (left : ℕ) : ℕ → List ι → List α
  | _, [] => []
  | b, j :: js =>
    sub j ++ if 0 < left ∧ (left ≤ (sub j).length ∨ left ≤ b + 1) then []
      else pageParts sub left (b + 1) js

section

variable (keys : ι → List α) (parts : ι → List ι)

/-- The keys of a directory and those in its parts, down to a depth. -/
def full : ℕ → ι → List α
  | 0, _ => []
  | n + 1, i => keys i ++ (parts i).flatMap (full n)

/-- The keys from `skip` on, `left` of them or all for 0, as the walk counts them. -/
def page : ℕ → ℕ → ℕ → ι → List α
  | 0, _, _, _ => []
  | n + 1, skip, left, i =>
    let here := slice skip left (keys i)
    if 0 < left ∧ left ≤ here.length then here
    else here ++ pageParts (page n (skip - (keys i).length) (left - here.length))
      (left - here.length) 0 (parts i)

/-- The number of keys and parts in a directory and its parts. -/
def weight : ℕ → ι → ℕ
  | 0, _ => 0
  | n + 1, i => (keys i).length + ((parts i).map fun j => 1 + weight n j).sum

/-- The parts that are gone through hold no keys up to one that is `served`. Either that one fills
the page, or the parts behind it hold no keys. Nor do the parts behind the last one that is gone
through. -/
def PartsServed (n : ℕ) (served : ι → Prop) (skip left : ℕ) : ℕ → List ι → Prop
  | _, [] => True
  | b, j :: js =>
    (full keys parts n j = [] ∧
      if 0 < left ∧ left ≤ b + 1 then ∀ j' ∈ js, full keys parts n j' = []
      else PartsServed n served skip left (b + 1) js) ∨
    (served j ∧ ((0 < left ∧ left ≤ (slice skip left (full keys parts n j)).length) ∨
      ∀ j' ∈ js, full keys parts n j' = []))

/-- The page is filled by the directory's own keys ; or nothing is left to be skipped and all are
wanted ; or all keys are skipped ; or the parts are served. -/
def Served : ℕ → ℕ → ℕ → ι → Prop
  | 0, _, _, _ => True
  | n + 1, skip, left, i =>
    let here := slice skip left (keys i)
    (0 < left ∧ left ≤ here.length) ∨ (skip ≤ (keys i).length ∧ left = 0) ∨
      (full keys parts (n + 1) i).length ≤ skip ∨
      PartsServed keys parts n (Served n (skip - (keys i).length) (left - here.length))
        (skip - (keys i).length) (left - here.length) 0 (parts i)

/-- No part but the first holds keys, in the directory and in the first part down to the
depth. -/
def FirstOnly : ℕ → ι → Prop
  | 0, _ => True
  | n + 1, i =>
    match parts i with
    | [] => True
    | j :: js => FirstOnly n j ∧ ∀ j' ∈ js, full keys parts n j' = []

end

/-! ## Slices -/

section

variable {skip count : ℕ} {l l' : List α}

theorem slice_zero_right (skip : ℕ) (l : List α) : slice skip 0 l = l.drop skip :=
  if_pos rfl

theorem slice_succ_cons (skip count : ℕ) (a : α) (l : List α) :
    slice (skip + 1) count (a :: l) = slice skip count l :=
  rfl

theorem slice_zero_one (a : α) (l : List α) : slice 0 1 (a :: l) = [a] :=
  rfl

/-- A slice that starts at once takes the first item. -/
theorem slice_zero_cons (h : count ≠ 1) (a : α) (l : List α) :
    slice 0 count (a :: l) = a :: slice 0 (count - 1) l := by
  unfold slice
  by_cases h0 : count = 0
  · rw [if_pos h0, if_pos (by omega)]
    rfl
  · obtain ⟨c, rfl⟩ : ∃ c, count = c + 1 := ⟨count - 1, by omega⟩
    rw [if_neg h0, if_neg (by omega)]
    rfl

theorem slice_map {β : Type} (f : α → β) :
    slice skip count (l.map f) = (slice skip count l).map f := by
  unfold slice
  split_ifs <;> simp

theorem length_slice_le : (slice skip count l).length ≤ l.length - skip := by
  unfold slice
  split_ifs <;> simp

/-- A slice that is not full ends with the list. -/
theorem length_slice_of_lt (h : 0 < count → (slice skip count l).length < count) :
    slice skip count l = l.drop skip := by
  unfold slice at h ⊢
  split_ifs at h ⊢ with h0
  · rfl
  · have := h (by omega)
    rw [List.length_take] at this
    exact List.take_of_length_le (by omega)

/-- A slice of the front of a list is a slice of the list if it is full. -/
theorem slice_append_of_full (h0 : 0 < count) (h : count ≤ (slice skip count l).length) :
    slice skip count (l ++ l') = slice skip count l := by
  unfold slice at h ⊢
  rw [if_neg (by omega), List.length_take] at h
  rw [if_neg (by omega), if_neg (by omega), List.drop_append, List.take_append_of_le_length]
  omega

/-- If it is not, what is left of both numbers is for the rest of the list. -/
theorem slice_append (h : 0 < count → (slice skip count l).length < count) :
    slice skip count (l ++ l') =
      slice skip count l ++ slice (skip - l.length) (count - (slice skip count l).length) l' := by
  have hl := length_slice_of_lt h
  rw [hl] at h ⊢
  unfold slice
  by_cases h0 : count = 0
  · rw [if_pos h0, if_pos (by omega), List.drop_append]
  · rw [if_neg h0, if_neg (by have := h (by omega); omega), List.drop_append, List.take_append,
      List.take_of_length_le (by have := h (by omega); omega)]

end

/-! ## What pages are short of -/

variable {keys : ι → List α} {parts : ι → List ι}

/-- The parts yield no more than their sizes, less what each skips. -/
theorem length_pageParts_le {sub : ι → List α} {size : ι → ℕ} {skip : ℕ} (left : ℕ)
    (h : ∀ j, (sub j).length ≤ size j - skip) (b : ℕ) (js : List ι) :
    (pageParts sub left b js).length ≤ (js.map size).sum - skip := by
  induction js generalizing b with
  | nil => exact Nat.zero_le _
  | cons j js ih =>
    have hj := h j
    have hjs := ih (b + 1)
    rw [pageParts, List.map_cons, List.sum_cons]
    split_ifs
    · rw [List.append_nil]
      omega
    · rw [List.length_append]
      omega

theorem length_flatMap_full (n : ℕ) (js : List ι) :
    (js.flatMap (full keys parts n)).length =
      (js.map fun j => (full keys parts n j).length).sum := by
  rw [List.length_flatMap]

/-- A page is no longer than what is left behind the keys skipped. -/
theorem length_page_le (n skip left : ℕ) (i : ι) :
    (page keys parts n skip left i).length ≤ (full keys parts n i).length - skip := by
  induction n generalizing skip left i with
  | zero => exact Nat.zero_le _
  | succ n ih =>
    have hhere := @length_slice_le α skip left (keys i)
    have hparts := length_pageParts_le (left - (slice skip left (keys i)).length)
      (fun j => ih (skip - (keys i).length) (left - (slice skip left (keys i)).length) j) 0
      (parts i)
    rw [full, List.length_append, length_flatMap_full, page]
    split_ifs
    · omega
    · rw [List.length_append]
      omega

/-- A list has no more keys than the directory weighs. -/
theorem length_full_le (n : ℕ) (i : ι) : (full keys parts n i).length ≤ weight keys parts n i := by
  induction n generalizing i with
  | zero => exact Nat.zero_le _
  | succ n ih =>
    rw [full, weight, List.length_append, length_flatMap_full]
    refine Nat.add_le_add_left (List.sum_le_sum fun j _ => ?_) _
    exact (ih j).trans (Nat.le_add_left _ _)

theorem page_eq_nil {n skip left : ℕ} {i : ι} (h : full keys parts n i = []) :
    page keys parts n skip left i = [] := by
  have : (page keys parts n skip left i).length ≤ _ := length_page_le n skip left i
  rw [h] at this
  exact List.eq_nil_of_length_eq_zero (by simpa using this)

/-- Empty parts yield nothing. -/
theorem pageParts_eq_nil {sub : ι → List α} {js : List ι} (h : ∀ j ∈ js, sub j = [])
    (left b : ℕ) : pageParts sub left b js = [] := by
  induction js generalizing b with
  | nil => rfl
  | cons j js ih =>
    rw [pageParts, h j List.mem_cons_self, List.nil_append]
    split_ifs
    · rfl
    · exact ih (fun j' hj' => h j' (List.mem_cons_of_mem j hj')) (b + 1)

theorem pageParts_map {κ : Type} {sub : ι → List α} (f : κ → ι) (left b : ℕ) (js : List κ) :
    pageParts sub left b (js.map f) = pageParts (fun j => sub (f j)) left b js := by
  induction js generalizing b with
  | nil => rfl
  | cons j js ih => rw [List.map_cons, pageParts, pageParts, ih]

/-- If only the first part holds keys, the page is its page. -/
theorem pageParts_first {n skip left : ℕ} {j : ι} {js : List ι}
    (h : ∀ j' ∈ js, full keys parts n j' = []) :
    pageParts (page keys parts n skip left) left 0 (j :: js) = page keys parts n skip left j := by
  rw [pageParts, pageParts_eq_nil (fun j' hj' => page_eq_nil (h j' hj')), ite_self,
    List.append_nil]

theorem flatMap_full_first {n : ℕ} {j : ι} {js : List ι}
    (h : ∀ j' ∈ js, full keys parts n j' = []) :
    (j :: js).flatMap (full keys parts n) = full keys parts n j := by
  rw [List.flatMap_cons, List.flatMap_eq_nil_iff.2 h, List.append_nil]

theorem slice_nil (skip count : ℕ) : slice skip count ([] : List α) = [] := by
  simp [slice]

theorem slice_of_length_le {skip : ℕ} {l : List α} (h : l.length ≤ skip) (count : ℕ) :
    slice skip count l = [] := by
  simp [slice, List.drop_of_length_le h]

/-! ## When pages are right -/

/-- Without a limit all parts are gone through. -/
theorem pageParts_zero (sub : ι → List α) (b : ℕ) (js : List ι) :
    pageParts sub 0 b js = js.flatMap sub := by
  induction js generalizing b with
  | nil => rfl
  | cons j js ih => rw [pageParts, if_neg (by omega), ih, List.flatMap_cons]

/-- Nothing skipped and everything wanted, a page is the listing. -/
theorem page_zero (n : ℕ) (i : ι) : page keys parts n 0 0 i = full keys parts n i := by
  induction n generalizing i with
  | zero => rfl
  | succ n ih =>
    rw [page, full, if_neg (by omega), slice_zero_right, List.drop_zero, Nat.zero_sub,
      pageParts_zero, funext ih]

/-- What the parts give, if the page of one that is served is right. -/
theorem pageParts_served {n skip left b : ℕ} {served : ι → Prop} {js : List ι}
    (hs : ∀ j, served j → page keys parts n skip left j = slice skip left (full keys parts n j))
    (h : PartsServed keys parts n served skip left b js) :
    pageParts (page keys parts n skip left) left b js =
      slice skip left (js.flatMap (full keys parts n)) := by
  induction js generalizing b with
  | nil => rw [List.flatMap_nil, slice_nil, pageParts]
  | cons j js ih =>
    rw [pageParts, List.flatMap_cons]
    rcases h with ⟨hnil, hrest⟩ | ⟨hj, hrest⟩
    · rw [page_eq_nil hnil, hnil, List.nil_append, List.nil_append, List.length_nil]
      by_cases hfull : 0 < left ∧ left ≤ b + 1
      · rw [if_pos hfull] at hrest
        rw [if_pos (by omega), List.flatMap_eq_nil_iff.2 hrest, slice_nil]
      · rw [if_neg hfull] at hrest
        rw [if_neg (by omega)]
        exact ih hrest
    · rw [hs j hj]
      rcases hrest with hfull | hnil
      · rw [if_pos ⟨hfull.1, Or.inl hfull.2⟩, List.append_nil,
          slice_append_of_full hfull.1 hfull.2]
      · rw [pageParts_eq_nil fun j' hj' => page_eq_nil (hnil j' hj'), ite_self, List.append_nil,
          List.flatMap_eq_nil_iff.2 hnil, List.append_nil]

/-- A page that is served is right. -/
theorem page_eq_slice {n skip left : ℕ} {i : ι} (h : Served keys parts n skip left i) :
    page keys parts n skip left i = slice skip left (full keys parts n i) := by
  induction n generalizing i skip left with
  | zero => rw [page, full, slice_nil]
  | succ n ih =>
    rw [Served] at h
    by_cases hfull : 0 < left ∧ left ≤ (slice skip left (keys i)).length
    · rw [page, full, if_pos hfull, slice_append_of_full hfull.1 hfull.2]
    have hsplit : slice skip left (full keys parts (n + 1) i) = slice skip left (keys i) ++
        slice (skip - (keys i).length) (left - (slice skip left (keys i)).length)
          ((parts i).flatMap (full keys parts n)) := slice_append (by omega)
    rcases h.resolve_left hfull with ⟨hskip, rfl⟩ | hskip | hparts
    · rw [hsplit, page, if_neg hfull, Nat.sub_eq_zero_of_le hskip, Nat.zero_sub, pageParts_zero,
        slice_zero_right 0, List.drop_zero, funext (page_zero n)]
    · have hlen : (page keys parts (n + 1) skip left i).length ≤ _ := length_page_le (n + 1) skip
        left i
      rw [slice_of_length_le hskip]
      exact List.eq_nil_of_length_eq_zero (by omega)
    · rw [hsplit, page, if_neg hfull, pageParts_served (fun j => ih) hparts]

/-- Every page is served where only first parts hold keys. -/
theorem served_of_firstOnly {n : ℕ} {i : ι} (h : FirstOnly keys parts n i) (skip left : ℕ) :
    Served keys parts n skip left i := by
  induction n generalizing i skip left with
  | zero => trivial
  | succ n ih =>
    rw [FirstOnly] at h
    refine Or.inr (Or.inr (Or.inr ?_))
    cases hp : parts i with
    | nil => trivial
    | cons j js =>
      rw [hp] at h
      exact Or.inr ⟨ih h.1 _ _, Or.inr h.2⟩

/-- The page behind the directory's own keys is one of its parts. -/
theorem page_behind (n skip left : ℕ) (i : ι) :
    page keys parts (n + 1) ((keys i).length + skip) left i =
      pageParts (page keys parts n skip left) left 0 (parts i) := by
  have hnil : slice ((keys i).length + skip) left (keys i) = [] :=
    List.eq_nil_of_length_eq_zero (by
      have := @length_slice_le α ((keys i).length + skip) left (keys i)
      omega)
  rw [page]
  simp only [hnil, List.length_nil, Nat.sub_zero, List.nil_append, Nat.add_sub_cancel_left]
  rw [if_neg (by omega)]

/-- A slice that skips the own keys is one of the parts. -/
theorem slice_behind (n skip left : ℕ) (i : ι) :
    slice ((keys i).length + skip) left (full keys parts (n + 1) i) =
      slice skip left ((parts i).flatMap (full keys parts n)) := by
  have hdrop : (keys i ++ (parts i).flatMap (full keys parts n)).drop ((keys i).length + skip) =
      ((parts i).flatMap (full keys parts n)).drop skip := by
    rw [List.drop_append, List.drop_of_length_le (Nat.le_add_right _ _), List.nil_append,
      Nat.add_sub_cancel_left]
  rw [full, slice, slice, hdrop]

/-- If the pages are right up to the length of the listing, only the first part of a
directory holds keys. -/
theorem full_eq_nil_of_pages {n : ℕ} {j : ι} {js : List ι}
    (h : ∀ skip left, skip ≤ ((j :: js).flatMap (full keys parts n)).length →
      left ≤ ((j :: js).flatMap (full keys parts n)).length →
      pageParts (page keys parts n skip left) left 0 (j :: js) =
        slice skip left ((j :: js).flatMap (full keys parts n))) :
    ∀ j' ∈ js, full keys parts n j' = [] := by
  by_contra hne
  push Not at hne
  obtain ⟨j', hj', hne⟩ := hne
  have hpos := List.length_pos_iff.2 hne
  have hle : (full keys parts n j').length ≤ (js.flatMap (full keys parts n)).length :=
    (List.sublist_flatten_of_mem (List.mem_map.2 ⟨j', hj', rfl⟩)).length_le
  rw [List.flatMap_cons, List.length_append] at h
  by_cases hfirst : full keys parts n j = []
  · -- The first part is the only one that a page of one key goes through.
    have hone := h 0 1 (Nat.zero_le _) (by omega)
    rw [pageParts, page_eq_nil hfirst, if_pos (by omega), hfirst] at hone
    have := congrArg List.length hone
    simp only [slice, List.length_nil, List.nil_append, one_ne_zero, if_false, List.drop_zero,
      List.length_take] at this
    omega
  · -- Both parts skip the one key to be skipped.
    have hpos₁ := List.length_pos_iff.2 hfirst
    have hskip := congrArg List.length (h 1 0 (by omega) (Nat.zero_le _))
    rw [pageParts, if_neg (by omega), List.length_append, slice_zero_right, List.length_drop,
      List.length_append] at hskip
    have h₁ : (page keys parts n 1 0 j).length ≤ _ := length_page_le n 1 0 j
    have h₂ := length_pageParts_le 0
      (fun j => (length_page_le n 1 0 j : (page keys parts n 1 0 j).length ≤ _)) (0 + 1) js
    rw [← length_flatMap_full] at h₂
    omega

/-- When every page is right, only the first part holds keys. -/
theorem firstOnly_of_pages {n : ℕ} {i : ι} (h : ∀ skip left,
    skip ≤ (full keys parts n i).length → left ≤ (full keys parts n i).length →
      page keys parts n skip left i = slice skip left (full keys parts n i)) :
    FirstOnly keys parts n i := by
  induction n generalizing i with
  | zero => trivial
  | succ n ih =>
    have hbehind : ∀ skip left, skip ≤ ((parts i).flatMap (full keys parts n)).length →
        left ≤ ((parts i).flatMap (full keys parts n)).length →
        pageParts (page keys parts n skip left) left 0 (parts i) =
          slice skip left ((parts i).flatMap (full keys parts n)) := by
      intro skip left hs hl
      rw [← page_behind, ← slice_behind]
      refine h _ _ ?_ ?_ <;> rw [full, List.length_append] <;> omega
    rw [FirstOnly]
    cases hp : parts i with
    | nil => trivial
    | cons j js =>
      rw [hp] at hbehind
      have hrest := full_eq_nil_of_pages hbehind
      refine ⟨ih fun skip left hs hl => ?_, hrest⟩
      rw [flatMap_full_first hrest] at hbehind
      rw [← hbehind skip left hs hl, pageParts_first hrest]

end Pages
