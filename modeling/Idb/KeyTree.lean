import Mathlib.Data.Finset.Dedup
import Mathlib.Data.Finset.Union

/-!
# Trees of keys with attributes

What a hierarchical store is for : it holds keys, which are paths, and values of attributes of
these keys. With a key it holds the keys on the way to it, and only a key it holds has attributes.
A put makes the key with its parents, and a removal takes everything below a key away.

Components of keys, attributes and values are of arbitrary types.
-/

/-- A set of keys with all parents of each, and the values of their attributes. -/
structure KeyTree (K A V : Type*) where
  keys : Finset (List K)
  /-- The attributes that have a value, with their keys. -/
  attrs : Finset (List K × A)
  value : List K → A → Option V
  nil_mem : [] ∈ keys
  parent_mem : ∀ q k, q ++ [k] ∈ keys → q ∈ keys
  mem_attrs : ∀ q a, (q, a) ∈ attrs ↔ (value q a).isSome
  owner_mem : ∀ q a, (q, a) ∈ attrs → q ∈ keys

namespace KeyTree

variable {K A V : Type*}

section

variable {t : KeyTree K A V} {q : List K}

/-- A tree is what keys it holds and what values. -/
theorem eq_of {t' : KeyTree K A V} (hk : ∀ q, q ∈ t.keys ↔ q ∈ t'.keys)
    (hv : ∀ q a, t.value q a = t'.value q a) : t = t' := by
  have hkeys : t.keys = t'.keys := Finset.ext hk
  have hvalue : t.value = t'.value := funext fun q => funext (hv q)
  have hattrs : t.attrs = t'.attrs := by
    ext ⟨q, a⟩
    rw [t.mem_attrs, t'.mem_attrs, hvalue]
  cases t
  cases t'
  simp_all

theorem mem_of_value {a : A} {v : V} (h : t.value q a = some v) : q ∈ t.keys :=
  t.owner_mem q a ((t.mem_attrs q a).2 (by simp [h]))

/-- With a key, the keys on the way to it are held. -/
theorem mem_of_prefix {p : List K} (h : p <+: q) (hq : q ∈ t.keys) : p ∈ t.keys := by
  obtain ⟨r, rfl⟩ := h
  induction r using List.reverseRecOn with
  | nil => simpa using hq
  | append_singleton r k ih =>
    rw [← List.append_assoc] at hq
    exact ih (t.parent_mem _ k hq)

variable [DecidableEq K]

/-- What follows a key in the keys of a set. -/
def childrenIn (keys : Finset (List K)) (q : List K) : Finset K :=
  keys.filterMap (fun p => if p.dropLast = q then p.getLast? else none) fun p p' k hp hp' => by
    simp only [Option.mem_def, Option.ite_none_right_eq_some, List.getLast?_eq_some_iff] at hp hp'
    obtain ⟨rfl, r, rfl⟩ := hp
    obtain ⟨he, r', rfl⟩ := hp'
    simpa using he.symm

/-- The children of `q` are the keys one component longer. -/
theorem mem_childrenIn {keys : Finset (List K)} {k : K} :
    k ∈ childrenIn keys q ↔ q ++ [k] ∈ keys := by
  simp only [childrenIn, Finset.mem_filterMap, Option.ite_none_right_eq_some,
    List.getLast?_eq_some_iff]
  constructor
  · rintro ⟨p, hp, rfl, r, rfl⟩
    simpa using hp
  · intro h
    exact ⟨_, h, by simp, q, rfl⟩

variable (t q) in
/-- The subkeys of a key. -/
def children : Finset K :=
  childrenIn t.keys q

variable [DecidableEq A]

variable (t q) in
/-- The attributes of a key. -/
def attrsOf : Finset A :=
  (t.attrs.filter fun e => e.1 = q).image Prod.snd

theorem mem_attrsOf {a : A} : a ∈ t.attrsOf q ↔ (t.value q a).isSome := by
  simp [attrsOf, ← t.mem_attrs]

end

/-! ## Operations -/

/-- The tree of the root alone. -/
def empty : KeyTree K A V where
  keys := {[]}
  attrs := ∅
  value _ _ := none
  nil_mem := Finset.mem_singleton_self _
  parent_mem q k h := by simp at h
  mem_attrs q a := by simp
  owner_mem q a h := by simp at h

section

variable [DecidableEq K] (t : KeyTree K A V) (q : List K)

/-- Take a key away with all that is below it. -/
def remove (hq : q ≠ []) : KeyTree K A V where
  keys := t.keys.filter fun p => ¬q <+: p
  attrs := t.attrs.filter fun e => ¬q <+: e.1
  value p b := if q <+: p then none else t.value p b
  nil_mem := Finset.mem_filter.2 ⟨t.nil_mem, by simpa using hq⟩
  parent_mem p k h := by
    rw [Finset.mem_filter] at h ⊢
    exact ⟨t.parent_mem p k h.1, fun hp => h.2 (hp.trans (List.prefix_append p [k]))⟩
  mem_attrs p b := by
    rw [Finset.mem_filter, t.mem_attrs]
    split_ifs with h <;> simp [h]
  owner_mem p b h := by
    rw [Finset.mem_filter] at h ⊢
    exact ⟨t.owner_mem p b h.1, h.2⟩

variable {t q} in
theorem mem_remove_keys {hq : q ≠ []} {p : List K} :
    p ∈ (t.remove q hq).keys ↔ p ∈ t.keys ∧ ¬q <+: p :=
  Finset.mem_filter

variable {t q} in
theorem value_remove {hq : q ≠ []} (p : List K) (b : A) :
    (t.remove q hq).value p b = if q <+: p then none else t.value p b :=
  rfl

/-- Make a key with its parents. -/
def make : KeyTree K A V where
  keys := t.keys ∪ q.inits.toFinset
  attrs := t.attrs
  value := t.value
  nil_mem := Finset.mem_union_left _ t.nil_mem
  parent_mem p k h := by
    rw [Finset.mem_union, List.mem_toFinset, List.mem_inits] at h ⊢
    exact h.imp (t.parent_mem p k) fun h => (List.prefix_append p [k]).trans h
  mem_attrs := t.mem_attrs
  owner_mem p b h := Finset.mem_union_left _ (t.owner_mem p b h)

variable {t q} in
theorem mem_make_keys {p : List K} : p ∈ (t.make q).keys ↔ p ∈ t.keys ∨ p <+: q := by
  rw [make, Finset.mem_union, List.mem_toFinset, List.mem_inits]

variable [DecidableEq A] (a : A)

/-- Give an attribute a value. The key and its parents are made. -/
def put (v : V) : KeyTree K A V where
  keys := t.keys ∪ q.inits.toFinset
  attrs := insert (q, a) t.attrs
  value p b := if p = q ∧ b = a then some v else t.value p b
  nil_mem := Finset.mem_union_left _ t.nil_mem
  parent_mem p k h := by
    rw [Finset.mem_union, List.mem_toFinset, List.mem_inits] at h ⊢
    exact h.imp (t.parent_mem p k) fun h => (List.prefix_append p [k]).trans h
  mem_attrs p b := by
    rw [Finset.mem_insert, Prod.mk.injEq, t.mem_attrs]
    split_ifs with h <;> simp [h]
  owner_mem p b h := by
    rw [Finset.mem_insert, Prod.mk.injEq] at h
    rw [Finset.mem_union, List.mem_toFinset, List.mem_inits]
    rcases h with ⟨rfl, -⟩ | h
    · exact Or.inr List.prefix_rfl
    · exact Or.inl (t.owner_mem p b h)

/-- Take the value of an attribute away. -/
def erase : KeyTree K A V where
  keys := t.keys
  attrs := t.attrs.erase (q, a)
  value p b := if p = q ∧ b = a then none else t.value p b
  nil_mem := t.nil_mem
  parent_mem := t.parent_mem
  mem_attrs p b := by
    rw [Finset.mem_erase, ne_eq, Prod.mk.injEq, t.mem_attrs]
    split_ifs with h <;> simp [h]
  owner_mem p b h := t.owner_mem p b (Finset.mem_of_mem_erase h)

variable {t q a}

theorem mem_put_keys {v : V} {p : List K} : p ∈ (t.put q a v).keys ↔ p ∈ t.keys ∨ p <+: q := by
  rw [put, Finset.mem_union, List.mem_toFinset, List.mem_inits]

theorem value_put (v : V) (p : List K) (b : A) :
    (t.put q a v).value p b = if p = q ∧ b = a then some v else t.value p b :=
  rfl

theorem value_erase (p : List K) (b : A) :
    (t.erase q a).value p b = if p = q ∧ b = a then none else t.value p b :=
  rfl

/-- There is nothing to take away. -/
theorem value_erase_of_none (h : t.value q a = none) : (t.erase q a).value = t.value := by
  ext p b : 2
  rw [value_erase]
  split_ifs with hb
  · rw [hb.1, hb.2, h]
  · rfl

end

end KeyTree
