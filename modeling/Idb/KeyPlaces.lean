import Idb.Levels

/-!
# Where a key can lie

A key can lie at one place for each of its levels : below the partition directories of
the level, under the rest of the key. As long as no dot of the key comes into play
(`PartAt`, `HomeAt`), partition directories are hidden and key directories are not, so
the place determines the key and the level (`HomeAt.inj`). At the last level nothing of
the key is left, and what would be its place is the partition directory itself
(`EndAt`).
-/

namespace Idb

open Posix FileSystem FileTree

/-- A key of one path component that is not hidden. -/
structure Key where
  val : Bytes
  component : Component val
  visible : val.head? ≠ some dot
  deriving DecidableEq

/-- A key without the reserved character. -/
structure DotFreeKey extends Key where
  dotFree : dot ∉ val
  deriving DecidableEq

/-- The partition directories of a level have names that are looked up. -/
def PlainParts (ns : List Name) : Prop :=
  [dot, dot] ∉ ns

/-- `p` is the partition directory of the key at level `i`. -/
def PartAt (d : Loc) (k : Key) (i : ℕ) (p : Loc) : Prop :=
  ∃ ns r, levelAt k.val i = some (ns, r) ∧ PlainParts ns ∧ p = ns.reverse ++ d

/-- `l` is the place of the key at level `i`. -/
def HomeAt (d : Loc) (k : Key) (i : ℕ) (l : Loc) : Prop :=
  ∃ ns r, levelAt k.val i = some (ns, r) ∧ PlainParts ns ∧ r ≠ [] ∧ r.head? ≠ some dot ∧
    l = r :: (ns.reverse ++ d)

/-- `p` is the partition directory behind the last character of the key. -/
def EndAt (d : Loc) (k : Key) (i : ℕ) (p : Loc) : Prop :=
  ∃ ns, levelAt k.val i = some (ns, []) ∧ PlainParts ns ∧ p = ns.reverse ++ d

variable {k k' : Key} {i j : ℕ} {ns : List Name} {r : Bytes} {d l l' p p' : Loc}

theorem Key.ext_val (h : k.val = k'.val) : k = k' := by
  cases k
  cases k'
  simp_all

theorem DotFreeKey.ext_key {k k' : DotFreeKey} (h : k.toKey = k'.toKey) : k = k' := by
  cases k
  cases k'
  simp_all

/-- What has no dot does not begin with one. -/
theorem head?_ne_dot {r : Bytes} (h : dot ∉ r) : r.head? ≠ some dot := by
  cases r with
  | nil => simp
  | cons b bs =>
    rw [List.head?_cons, ne_eq, Option.some.injEq]
    rintro rfl
    exact h List.mem_cons_self

theorem plain_of_head? {r : Bytes} (hr : r ≠ []) (h : r.head? ≠ some dot) : Plain r := by
  refine ⟨hr, ?_, ?_⟩ <;>
  · rintro rfl
    simp at h

/-! ## Names on the way -/

/-- The names of partition directories are hidden entries. -/
theorem Key.level_parts (h : levelAt k.val i = some (ns, r)) (hp : PlainParts ns) :
    ∀ n ∈ ns, ValidName n ∧ n.head? = some dot := by
  intro n hn
  have h0 : (0 : UInt8) ∈ n.tail → (0 : UInt8) ∈ k.val := (mem_of_levelAt h).2 n hn
  have hs := (slash_notMem_levelAt k.component.2.1 h).2 n hn
  obtain ⟨c, rfl, hc⟩ := levelAt_parts h n hn
  have hne := firstChar_ne_nil hc
  refine ⟨⟨⟨by simp [partName], by simpa [partName] using hne, ?_⟩, hs, ?_⟩, rfl⟩
  · intro he
    exact hp (he ▸ hn)
  · intro hz
    rcases List.mem_cons.1 hz with he | hz
    · exact absurd he (by decide)
    · exact k.component.2.2 (h0 hz)

/-- The rest of a key is a visible entry. -/
theorem Key.level_rest (h : levelAt k.val i = some (ns, r)) (hr : r ≠ [])
    (hv : r.head? ≠ some dot) : ValidName r :=
  ⟨plain_of_head? hr hv, (slash_notMem_levelAt k.component.2.1 h).1,
    fun hz => k.component.2.2 ((mem_of_levelAt h).1 hz)⟩

/-- Nothing in the levels of a key without dots begins with a dot by itself. -/
theorem DotFreeKey.level {k : DotFreeKey} (h : levelAt k.val i = some (ns, r)) :
    PlainParts ns ∧ r.head? ≠ some dot := by
  refine ⟨fun hn => k.dotFree ((mem_of_levelAt h).2 _ hn (by simp)), head?_ne_dot fun hd => ?_⟩
  exact k.dotFree ((mem_of_levelAt h).1 hd)

/-- If the rests of the earlier levels do not begin with a dot, the partition
directories of a level have names that are looked up. -/
theorem plainParts_of_rests (h : levelAt k.val i = some (ns, r))
    (hr : ∀ j ns' r', j < i → levelAt k.val j = some (ns', r') → r'.head? ≠ some dot) :
    PlainParts ns := by
  induction i generalizing ns r with
  | zero =>
    rw [levelAt_zero_iff] at h
    simp [PlainParts, ← h.1]
  | succ i ih =>
    obtain ⟨ns', r', c, hl, hc, rfl, -⟩ := levelAt_succ_inv h
    have hns := ih hl fun j ns₁ r₁ hj => hr j ns₁ r₁ (by omega)
    intro hm
    rcases List.mem_append.1 hm with hm | hm
    · exact hns hm
    · rw [List.mem_singleton, partName, List.cons.injEq] at hm
      refine hr i ns' r' (by omega) hl ?_
      rw [firstChar_split hc, ← hm.2]
      rfl

theorem Key.place_eq (h : levelAt k.val i = some (ns, r)) (hp : PlainParts ns) :
    place d ns = ns.reverse ++ d :=
  foldl_enter (fun n hn => (Key.level_parts h hp n hn).1.1) d

/-! ## Places of a key -/

theorem homeAt_zero (d : Loc) (k : Key) : HomeAt d k 0 (k.val :: d) :=
  ⟨[], k.val, levelAt_zero k.val, List.not_mem_nil, k.component.1, k.visible, rfl⟩

theorem partAt_zero (d : Loc) (k : Key) : PartAt d k 0 d :=
  ⟨[], k.val, levelAt_zero k.val, List.not_mem_nil, rfl⟩

/-- The place of a key determines the key and the level. -/
theorem HomeAt.inj (h : HomeAt d k i l) (h' : HomeAt d k' j l) : k = k' ∧ i = j := by
  obtain ⟨ns, r, hl, -, -, -, rfl⟩ := h
  obtain ⟨ns', r', hl', -, -, -, he⟩ := h'
  rw [List.cons.injEq, List.append_cancel_right_eq, List.reverse_inj] at he
  obtain ⟨rfl, rfl⟩ := he
  refine ⟨Key.ext_val ?_, ?_⟩
  · rw [levelAt_spell hl, levelAt_spell hl']
  · rw [← levelAt_length hl, levelAt_length hl']

theorem HomeAt.unique (h : HomeAt d k i l) (h' : HomeAt d k i l') : l = l' := by
  obtain ⟨ns, r, hl, -, -, -, rfl⟩ := h
  obtain ⟨ns', r', hl', -, -, -, rfl⟩ := h'
  rw [hl, Option.some.injEq, Prod.mk.injEq] at hl'
  rw [hl'.1, hl'.2]

theorem PartAt.unique (h : PartAt d k i p) (h' : PartAt d k i p') : p = p' := by
  obtain ⟨ns, r, hl, -, rfl⟩ := h
  obtain ⟨ns', r', hl', -, rfl⟩ := h'
  rw [hl, Option.some.injEq, Prod.mk.injEq] at hl'
  rw [hl'.1]

/-- Below the directory itself a partition is behind a character. -/
theorem PartAt.exists_succ (h : PartAt d k i p) (hb : Below d p) : ∃ j, i = j + 1 := by
  cases i with
  | zero =>
    rw [h.unique (partAt_zero d k)] at hb
    exact absurd hb (not_below_self d)
  | succ j => exact ⟨j, rfl⟩

theorem EndAt.partAt (h : EndAt d k i p) : PartAt d k i p := by
  obtain ⟨ns, hl, hp, rfl⟩ := h
  exact ⟨ns, [], hl, hp, rfl⟩

/-- The last level comes after those where the key can lie. -/
theorem EndAt.lt (h : EndAt d k i p) (hl : HomeAt d k j l) : j < i := by
  obtain ⟨ns, he, -⟩ := h
  obtain ⟨ns', r', hl, -, hr, -⟩ := hl
  by_contra hij
  rcases Nat.lt_or_ge i j with hlt | hge
  · exact rest_ne_nil_of_lt hlt hl he rfl
  · obtain rfl : i = j := by omega
    rw [he, Option.some.injEq, Prod.mk.injEq] at hl
    exact hr hl.2.symm

/-- A search ends at one level. -/
theorem EndAt.unique (h : EndAt d k i p) (h' : EndAt d k j p') : i = j ∧ p = p' := by
  have hij : i = j := by
    obtain ⟨ns, hl, -⟩ := h
    obtain ⟨ns', hl', -⟩ := h'
    rcases Nat.lt_trichotomy i j with hlt | he | hlt
    · exact absurd rfl (rest_ne_nil_of_lt hlt hl' hl)
    · exact he
    · exact absurd rfl (rest_ne_nil_of_lt hlt hl hl')
  subst hij
  exact ⟨rfl, h.partAt.unique h'.partAt⟩

/-- Where the searches look for the key at level `i` : its place, or the partition
directory behind its last character. -/
def SpotAt (d : Loc) (k : Key) (i : ℕ) (l : Loc) : Prop :=
  HomeAt d k i l ∨ EndAt d k i l

/-- The level's directory and what is left of the key give a spot. -/
theorem spotAt_of_level (h : levelAt k.val i = some (ns, r)) (hp : PlainParts ns)
    (hv : r.head? ≠ some dot) : SpotAt d k i (enter (ns.reverse ++ d) r) := by
  by_cases hr : r = []
  · subst hr
    rw [enter_nil]
    exact Or.inr ⟨ns, h, hp, rfl⟩
  · rw [enter_plain (plain_of_head? hr hv)]
    exact Or.inl ⟨ns, r, h, hp, hr, hv, rfl⟩

theorem SpotAt.unique (h : SpotAt d k i l) (h' : SpotAt d k i l') : l = l' := by
  rcases h with h | h <;> rcases h' with h' | h'
  · exact h.unique h'
  · exact absurd (h'.lt h) (lt_irrefl i)
  · exact absurd (h.lt h') (lt_irrefl i)
  · exact (h.unique h').2

theorem HomeAt.exists_part (h : HomeAt d k i l) :
    ∃ r p, ValidName r ∧ r.head? ≠ some dot ∧ PartAt d k i p ∧ l = r :: p := by
  obtain ⟨ns, r, hl, hp, hr, hv, rfl⟩ := h
  exact ⟨r, _, Key.level_rest hl hr hv, hv, ⟨ns, r, hl, hp, rfl⟩, rfl⟩

/-- A key lies in the partition directory of its level. -/
theorem HomeAt.partAt_tail (h : HomeAt d k i l) : PartAt d k i l.tail := by
  obtain ⟨r, p, -, -, hp, rfl⟩ := h.exists_part
  exact hp

theorem HomeAt.below (h : HomeAt d k i l) : Below d l := by
  obtain ⟨ns, r, -, -, -, -, rfl⟩ := h
  exact below_cons (List.suffix_append _ _) r

theorem PartAt.suffix (h : PartAt d k i p) : d <:+ p := by
  obtain ⟨ns, r, -, -, rfl⟩ := h
  exact List.suffix_append _ _

/-- A partition directory after the first level is a hidden entry of the one before. -/
theorem PartAt.succ (h : PartAt d k (i + 1) p) : ∃ c q, firstChar c = .ok c ∧
    ValidName (partName c) ∧ PartAt d k i q ∧ p = partName c :: q := by
  obtain ⟨ns, r, hl, hp, rfl⟩ := h
  have hparts := Key.level_parts hl hp
  obtain ⟨ns', r', c, hl', hc, rfl, -⟩ := levelAt_succ_inv hl
  exact ⟨c, _, (firstChar_eq_ok.1 hc).2, (hparts (partName c) (by simp)).1,
    ⟨ns', r', hl', fun hn => hp (List.mem_append_left _ hn), rfl⟩, by simp⟩

theorem PartAt.below (h : PartAt d k (i + 1) p) : Below d p := by
  obtain ⟨c, q, -, -, hq, rfl⟩ := h.succ
  exact below_cons hq.suffix _

theorem EndAt.pos (h : EndAt d k i p) : 1 ≤ i := by
  obtain ⟨ns, hl, -⟩ := h
  by_contra hi
  obtain rfl : i = 0 := by omega
  rw [levelAt_zero_iff] at hl
  exact k.component.1 hl.2

theorem SpotAt.below (h : SpotAt d k i l) : Below d l := by
  rcases h with h | h
  · exact h.below
  · obtain ⟨i, rfl⟩ : ∃ j, i = j + 1 := ⟨i - 1, by have := h.pos; omega⟩
    exact h.partAt.below

/-- The partition of an earlier level lies on the way to that of a later one. -/
theorem PartAt.suffix_of_le (h : PartAt d k i p) (hij : j ≤ i) :
    ∃ p', PartAt d k j p' ∧ p' <:+ p := by
  induction i generalizing p with
  | zero =>
    obtain rfl : j = 0 := by omega
    exact ⟨_, h, List.suffix_refl _⟩
  | succ i ih =>
    by_cases he : j = i + 1
    · exact ⟨_, he ▸ h, List.suffix_refl _⟩
    · obtain ⟨c, q, -, -, hq, rfl⟩ := h.succ
      obtain ⟨p', hp', hs⟩ := ih hq (by omega)
      exact ⟨p', hp', hs.trans (List.suffix_cons _ _)⟩

/-- A place on the way to a partition directory is one of an earlier level. -/
theorem PartAt.of_suffix (h : PartAt d k i p) (hd : d <:+ p') (hs : p' <:+ p) :
    ∃ j ≤ i, PartAt d k j p' := by
  induction i generalizing p with
  | zero =>
    obtain ⟨ns, r, hl, -, rfl⟩ := id h
    rw [levelAt_zero_iff] at hl
    rw [← hl.1] at hs
    obtain rfl : p' = d := (hd.eq_of_length_le hs.length_le).symm
    exact ⟨0, le_rfl, partAt_zero p' k⟩
  | succ i ih =>
    rcases eq_or_ne p' p with rfl | hne
    · exact ⟨i + 1, le_rfl, h⟩
    · obtain ⟨c, q, -, -, hq, rfl⟩ := h.succ
      obtain ⟨j, hj, hp⟩ := ih hq ((List.suffix_cons_iff.1 hs).resolve_left hne)
      exact ⟨j, by omega, hp⟩

/-- A place on the way to a key is the key's or a partition directory. -/
theorem HomeAt.of_suffix (h : HomeAt d k i l) (hd : d <:+ p) (hs : p <:+ l) :
    p = l ∨ ∃ j ≤ i, PartAt d k j p := by
  obtain ⟨r, q, -, -, hq, rfl⟩ := h.exists_part
  rcases List.suffix_cons_iff.1 hs with he | hs
  · exact Or.inl he
  · exact Or.inr (hq.of_suffix hd hs)

/-- Before a level the key has a place. -/
theorem DotFreeKey.exists_home {k : DotFreeKey} (h : PartAt d k.toKey i p) (hij : j < i) :
    ∃ l, HomeAt d k.toKey j l := by
  obtain ⟨ns, r, hl, -, -⟩ := h
  obtain ⟨ns', r', hj⟩ := levelAt_of_le hij.le hl
  have hlev := DotFreeKey.level hj
  exact ⟨_, ns', r', hj, hlev.1, rest_ne_nil_of_lt hij hl hj, hlev.2, rfl⟩

/-- A place strictly below the base directory is not both a partition directory and the
place of a key. -/
theorem HomeAt.not_partAt (h : HomeAt d k i l) : ¬PartAt d k' j l := by
  intro hp
  cases j with
  | zero =>
    obtain ⟨ns, r, hl, -, rfl⟩ := hp
    rw [levelAt_zero_iff] at hl
    rw [← hl.1] at h
    exact not_below_self _ h.below
  | succ j =>
    obtain ⟨r, p, -, hv, -, rfl⟩ := h.exists_part
    obtain ⟨c, q, -, -, -, he⟩ := hp.succ
    rw [List.cons.injEq] at he
    exact hv (he.1 ▸ rfl)

/-- A key does not lie on the way to a partition directory. -/
theorem HomeAt.not_suffix_part (h : HomeAt d k i l) (hp : PartAt d k' j p) : ¬l <:+ p := by
  intro hs
  induction j generalizing p with
  | zero =>
    obtain ⟨ns, r, hl, -, rfl⟩ := hp
    rw [levelAt_zero_iff] at hl
    rw [← hl.1] at hs
    have hb := h.below
    exact hb.2 (hb.1.eq_of_length_le hs.length_le).symm
  | succ j ih =>
    by_cases he : l = p
    · exact h.not_partAt (he ▸ hp)
    · obtain ⟨c, q, -, -, hq, rfl⟩ := hp.succ
      exact ih hq ((List.suffix_cons_iff.1 hs).resolve_left he)

/-- No key lies below another one. -/
theorem HomeAt.eq_of_suffix (h : HomeAt d k i l) (h' : HomeAt d k' j l') (hs : l <:+ l') :
    l = l' := by
  obtain ⟨r, p, -, -, hp, rfl⟩ := h'.exists_part
  exact (List.suffix_cons_iff.1 hs).resolve_right (h.not_suffix_part hp)

/-- The spots of a key at different levels do not lie in each other. -/
theorem SpotAt.eq_of_suffix (h : SpotAt d k i l) (h' : SpotAt d k j l') (hs : l <:+ l')
    (hij : i ≤ j) : i = j := by
  rcases h with h | h <;> rcases h' with h' | h'
  · exact (h.inj (h.eq_of_suffix h' hs ▸ h')).2
  · exact absurd hs (h.not_suffix_part h'.partAt)
  · exact absurd (h.lt h') (by omega)
  · exact (h.unique h').1

/-! ## Levels in a tree -/

section

variable {t : FileTree Xattrs} {m : ℕ}

/-- The key's search for a place goes past a level. -/
theorem full_iff_homeAt (hl : HomeAt d k i l) : Full t m d k.val i ↔
    t.isDir l.tail ∧ m ≤ visibleCount t l.tail ∧ t.isDir l = false := by
  obtain ⟨ns, r, h, hp, hr, hv, rfl⟩ := hl
  rw [full_iff h, Key.place_eq h hp, enter_plain (plain_of_head? hr hv), List.tail_cons]
  simp [hr]

theorem blind_iff_homeAt (hl : HomeAt d k i l) : Blind t d k.val i ↔
    t.isDir l.tail ∧ t.isDir l = false := by
  obtain ⟨ns, r, h, hp, hr, hv, rfl⟩ := hl
  rw [blind_iff h, Key.place_eq h hp, enter_plain (plain_of_head? hr hv), List.tail_cons]

/-- At the last level a search never goes on. -/
theorem not_blind_of_endAt (h : EndAt d k i p) : ¬Blind t d k.val i := by
  obtain ⟨ns, hl, -⟩ := h
  rw [blind_iff hl, enter_nil]
  simp

theorem not_isDir_of_blind (h : SpotAt d k i l) (hb : Blind t d k.val i) : t.isDir l = false := by
  rcases h with h | h
  · exact ((blind_iff_homeAt h).1 hb).2
  · exact absurd hb (not_blind_of_endAt h)

/-- The partition directory of a spot is there if the spot is. -/
theorem SpotAt.isDir_part (h : SpotAt d k i l) (hd : t.isDir l) (hp : PartAt d k j p)
    (hij : j ≤ i) : t.isDir p := by
  obtain ⟨q, hq, hs⟩ : ∃ q, PartAt d k i q ∧ q <:+ l := by
    rcases h with h | h
    · obtain ⟨r, q, -, -, hq, rfl⟩ := h.exists_part
      exact ⟨q, hq, List.suffix_cons _ _⟩
    · exact ⟨l, h.partAt, List.suffix_refl _⟩
  obtain ⟨p', hp', hs'⟩ := hq.suffix_of_le hij
  obtain rfl := hp.unique hp'
  exact isDir_of_suffix (hs'.trans hs) hd

/-- Full levels lie in existing partition directories. -/
theorem isDir_of_blind (h : PartAt d k i p) (hb : Blind t d k.val i) : t.isDir p := by
  obtain ⟨ns, r, hl, hp, rfl⟩ := h
  rw [blind_iff hl, Key.place_eq hl hp] at hb
  exact hb.1

end

/-! ## Searches that come to no dots -/

section

variable {t : FileTree Xattrs} {m : ℕ}

/-- The search for a place to put the key does not come to a rest that begins with a
dot. -/
def DotFreeFind (t : FileTree Xattrs) (m : ℕ) (d : Loc) (k : Key) : Prop :=
  ∀ i ns r, 1 ≤ i → FindVisits t m d k.val i → levelAt k.val i = some (ns, r) →
    r.head? ≠ some dot

/-- The search for the key does not come, in a partition directory that exists, to a
rest that begins with a dot. -/
def DotFreeLook (t : FileTree Xattrs) (d : Loc) (k : Key) : Prop :=
  ∀ i ns r, 1 ≤ i → LookVisits t d k.val i → levelAt k.val i = some (ns, r) →
    t.isDir (place d ns) → r.head? ≠ some dot

theorem DotFreeKey.find (k : DotFreeKey) : DotFreeFind t m d k.toKey :=
  fun _ _ _ _ _ h => (DotFreeKey.level h).2

theorem DotFreeKey.look (k : DotFreeKey) : DotFreeLook t d k.toKey :=
  fun _ _ _ _ _ h _ => (DotFreeKey.level h).2

theorem Key.visible_zero (hl : levelAt k.val 0 = some (ns, r)) : r.head? ≠ some dot := by
  rw [levelAt_zero_iff] at hl
  rw [← hl.2]
  exact k.visible

/-- The level the search for a place comes to. -/
theorem DotFreeFind.level (hw : DotFreeFind t m d k) (hv : FindVisits t m d k.val i)
    (h : levelAt k.val i = some (ns, r)) : PlainParts ns ∧ r.head? ≠ some dot := by
  have hrest : ∀ j ns' r', j ≤ i → levelAt k.val j = some (ns', r') → r'.head? ≠ some dot := by
    intro j ns' r' hji hl
    rcases Nat.eq_zero_or_pos j with rfl | hpos
    · exact Key.visible_zero hl
    · exact hw j ns' r' hpos (fun j' h₁ => hv j' (by omega)) hl
  exact ⟨plainParts_of_rests h fun j ns' r' hlt => hrest j ns' r' hlt.le, hrest i ns r le_rfl h⟩

/-- The level the search for the key comes to. -/
theorem DotFreeLook.level (hw : DotFreeLook t d k) (hv : LookVisits t d k.val i)
    (h : levelAt k.val i = some (ns, r)) :
    PlainParts ns ∧ (t.isDir (place d ns) → r.head? ≠ some dot) := by
  have hrest : ∀ j ns' r', j ≤ i → levelAt k.val j = some (ns', r') →
      (1 ≤ j → t.isDir (place d ns')) → r'.head? ≠ some dot := by
    intro j ns' r' hji hl hd
    rcases Nat.eq_zero_or_pos j with rfl | hpos
    · exact Key.visible_zero hl
    · exact hw j ns' r' hpos (fun j' h₁ h₂ => hv j' h₁ (by omega)) hl (hd hpos)
  refine ⟨plainParts_of_rests h fun j ns' r' hlt hl => hrest j ns' r' hlt.le hl fun hpos => ?_,
    fun hd => hrest i ns r le_rfl h fun _ => hd⟩
  exact ((blind_iff hl).1 (hv j hpos hlt)).1

section

variable (hd : t.isDir d) (hl : ∀ l, Below d l → t.NoLink l)

include hd hl

theorem noLink_of_suffix (hs : d <:+ l) : t.NoLink l := by
  by_cases he : l = d
  · exact he ▸ noLink_of_isDir hd
  · exact hl l ⟨hs, he⟩

/-- Without links below the directory a search sees none at a level without dots. -/
theorem clear_level (h : levelAt k.val i = some (ns, r)) (hp : PlainParts ns)
    (hv : t.isDir (place d ns) → r.head? ≠ some dot) : t.NoLink (place d ns) ∧
    (t.isDir (place d ns) →
      t.NoLink (enter (place d ns) r) ∧ ∀ c, t.NoLink (c :: place d ns)) := by
  rw [Key.place_eq h hp] at hv ⊢
  have hs : d <:+ ns.reverse ++ d := List.suffix_append _ _
  refine ⟨noLink_of_suffix hd hl hs, fun hdir => ⟨?_, fun c => hl _ (below_cons hs c)⟩⟩
  by_cases hr : r = []
  · rw [hr, enter_nil]
    exact noLink_of_suffix hd hl hs
  · rw [enter_plain (plain_of_head? hr (hv hdir))]
    exact hl _ (below_cons hs r)

theorem DotFreeFind.clear (hw : DotFreeFind t m d k) :
    Clear t d k.val (FindVisits t m d k.val) :=
  fun _ _ _ hv h => clear_level hd hl h (hw.level hv h).1 fun _ => (hw.level hv h).2

theorem DotFreeLook.clear (hw : DotFreeLook t d k) : Clear t d k.val (LookVisits t d k.val) :=
  fun _ _ _ hv h => clear_level hd hl h (hw.level hv h).1 (hw.level hv h).2

end

end

/-! ## The place for a put -/

/-- `l` is the place where a put stores the key : at the least level that is not full, or
at the last one. -/
structure PutPlace (t : FileTree Xattrs) (m : ℕ) (d : Loc) (k : Key) (policy : TIDBProcesses)
    (i : ℕ) (l : Loc) : Prop where
  home : HomeAt d k i l
  full : FindVisits t m d k.val i
  stops : ¬Full t m d k.val i ∨ (policy = .dkIgnored ∧ ∃ p, EndAt d k (i + 1) p)

theorem sizeT_cast (M : ℕ) : sizeT M = M := by
  simp [sizeT]

/-- The names on the way to a home are valid, and give its place. -/
theorem home_names (h : levelAt k.val i = some (ns, r)) (hp : PlainParts ns) (hr : r ≠ [])
    (hv : r.head? ≠ some dot) :
    (∀ n ∈ ns ++ [r], ValidName n) ∧ (ns ++ [r]).reverse ++ d = r :: (ns.reverse ++ d) := by
  refine ⟨fun n hn => ?_, by simp⟩
  rcases List.mem_append.1 hn with hn | hn
  · exact (Key.level_parts h hp n hn).1
  · rw [List.mem_singleton.1 hn]
    exact Key.level_rest h hr hv

/-- The path `iFindKeyDirToPut` returns is that of the place for the key, or with the policies
that are not for a put that of a directory. -/
theorem iFindKeyDirToPut_cases (host : Host) {fs : FileSystem} {D : Bytes} {M : ℤ}
    {policy : TIDBProcesses} (hD : fs.At D d) (hl : ∀ l, Below d l → fs.tree.NoLink l)
    (hk : DotFreeFind fs.tree (sizeT M) d k) :
    (∃ e, e ≠ 0 ∧ iFindKeyDirToPut host fs (joinName D k.val) M policy = .error e) ∨
    (∃ i l, ∃ names : List Name, PutPlace fs.tree (sizeT M) d k policy i l ∧
      (∀ n ∈ names, ValidName n) ∧ l = names.reverse ++ d ∧
      iFindKeyDirToPut host fs (joinName D k.val) M policy = .ok (names.foldl joinName D)) ∨
    (policy ≠ .dkIgnored ∧ policy ≠ .dkStopped ∧ ∃ path p, fs.At path p ∧
      iFindKeyDirToPut host fs (joinName D k.val) M policy = .ok path) := by
  obtain ⟨i, hi, hres⟩ := iFindKeyDirToPut_eq host policy hD k.component
    (hk.clear hD.isDir hl)
  generalize iFindKeyDirToPut host fs (joinName D k.val) M policy = res at hres
  cases hres with
  | @key _ ns r hl hr =>
    obtain ⟨hp, hv⟩ := hk.level hi.full hl
    obtain ⟨hn, he⟩ := home_names (d := d) hl hp hr hv
    exact Or.inr (Or.inl ⟨i, _, ns ++ [r], ⟨⟨ns, r, hl, hp, hr, hv, he⟩, hi.full,
      Or.inl hi.stops⟩, hn, rfl, rfl⟩)
  | @forced i ns c hpol hl hc =>
    have hfull : FindVisits fs.tree (sizeT M) d k.val i := fun j hj => hi.full j (by omega)
    obtain ⟨hp, hv⟩ := hk.level hfull hl
    obtain ⟨hn, he⟩ := home_names (d := d) hl hp (firstChar_ne_nil hc) hv
    have hl' := levelAt_succ hl hc
    rw [List.drop_length] at hl'
    exact Or.inr (Or.inl ⟨i, _, ns ++ [c], ⟨⟨ns, c, hl, hp, firstChar_ne_nil hc, hv, he⟩, hfull,
      Or.inr ⟨hpol, _, _, hl', (hk.level hi.full hl').1, rfl⟩⟩, hn, rfl, rfl⟩)
  | stopped hpol hl hc => exact Or.inl ⟨_, by decide, rfl⟩
  | @other i ns c hign hstop hl hc =>
    have hfull : FindVisits fs.tree (sizeT M) d k.val i := fun j hj => hi.full j (by omega)
    have hp := (hk.level hfull hl).1
    have hdir := ((full_iff hl).1 (hi.full i (Nat.lt_succ_self i))).2.1
    rw [Key.place_eq hl hp] at hdir
    exact Or.inr (Or.inr ⟨hign, hstop, _, _, (at_withSlash hD).names
      (fun n hn => (Key.level_parts hl hp n hn).1) hdir, rfl⟩)
  | invalid hl hr hc =>
    refine Or.inl ⟨_, ?_, rfl⟩
    rw [firstChar_error hr hc]
    decide

/-- `iFindKeyDirToPut` fails, or returns the path of the place where the put goes. -/
theorem iFindKeyDirToPut_spec (host : Host) {fs : FileSystem} {D : Bytes} {M : ℤ}
    {policy : TIDBProcesses} (hD : fs.At D d) (hl : ∀ l, Below d l → fs.tree.NoLink l)
    (hk : DotFreeFind fs.tree (sizeT M) d k) (hpol : policy = .dkIgnored ∨ policy = .dkStopped) :
    (∃ e, e ≠ 0 ∧ iFindKeyDirToPut host fs (joinName D k.val) M policy = .error e) ∨
    ∃ i l, ∃ names : List Name, PutPlace fs.tree (sizeT M) d k policy i l ∧
      (∀ n ∈ names, ValidName n) ∧ l = names.reverse ++ d ∧
      iFindKeyDirToPut host fs (joinName D k.val) M policy = .ok (names.foldl joinName D) := by
  rcases iFindKeyDirToPut_cases host hD hl hk with he | hp | ⟨hign, hstop, -⟩
  · exact Or.inl he
  · exact Or.inr hp
  · exact absurd hpol (by simp [hign, hstop])

end Idb
