import Idb.WalkDir
import Idb.Utf8

/-!
# The partition walks

A key that finds its directory full is put below partition directories named `.` and a
character of the key. `iFindKeyDirToPut` looks for the place to put a key,
`iIsKeyDirExists` for the place it was put. Both cut the key character by character.

Level `i` of a key is reached after `i` characters (`levelAt`) : the names of the
partition directories so far and the rest of the key. The walks are described by
levels : the first goes past the full ones (`Full`, `iFindKeyDirToPut_eq`), the second
past those where it sees no key (`Blind`, `iIsKeyDirExists_eq`).
-/

namespace Idb

open Posix FileSystem FileTree

/-! ## The source -/

/-- What to do with duplicate keys and with full directories. -/
inductive TIDBProcesses where
  | dkIgnored
  | dkFixed
  | dkReserved
  | dkStopped
  deriving DecidableEq, Repr

/-- `IDB_ERR_PART_FULL`. -/
def idbErrPartFull : ℤ :=
  -100

/-- Conversion to `size_t`. A nonnegative count stays what it is. -/
def sizeT (x : ℤ) : ℕ :=
  if x < 0 then (x + 2 ^ 64).toNat else x.toNat

/-- The number of normal keys (no partition). -/
def iSubkeyCount (host : Host) (fs : FileSystem) (aKeyPath : Bytes) (aPattern : Option Bytes) :
    ℕ :=
  sizeT (countDir host fs aKeyPath aPattern listNormalDirs)

/-- `vDir` with the partition directory of a character joined to it. -/
def joinPart (vDir vUtf8Char : Bytes) : Bytes :=
  sdsJoinPathLen vDir [dot] ++ vUtf8Char

/-- How the loop of `iFindKeyDirToPut` ends : without a character, with a directory and
what is left of the key, or at the last character. -/
inductive FindEnd where
  | error (vLen : ℤ)
  | stop (vDir s : Bytes)
  | last (vDir vUtf8Char : Bytes)

/-- The loop of `iFindKeyDirToPut`. Every round cuts off at least one byte of the key. -/
def findLoop (host : Host) (fs : FileSystem) (aMaxItemCount : ℤ) :
    ℕ → Bytes → Bytes → FindEnd
  | 0, vDir, s => .stop vDir s
  | fuel + 1, vDir, s =>
    match firstChar s with
    | .error vLen => .error vLen
    | .ok vUtf8Char =>
      let rest := s.drop vUtf8Char.length
      if rest = [] then .last vDir vUtf8Char
      else
        let vDir := joinPart vDir vUtf8Char
        if directoryExists fs vDir = pathIsDir then
          if directoryExists fs (sdsJoinPathLen vDir rest) = pathIsDir then .stop vDir rest
          else if iSubkeyCount host fs vDir none < sizeT aMaxItemCount then .stop vDir rest
          else findLoop host fs aMaxItemCount fuel vDir rest
        else .stop vDir rest

/-- Find a proper directory to save the key in : its path, or the error code. The empty path,
which has no last name, is returned as it is. -/
def iFindKeyDirToPut (host : Host) (fs : FileSystem) (aDir : Bytes) (aMaxItemCount : ℤ)
    (aPartitionFullProcess : TIDBProcesses) : Except ℤ Bytes :=
  if directoryExists fs aDir = pathIsDir then .ok aDir
  else
    match extractLastPathName aDir with
    | (vDir, none) => .ok vDir
    | (vDir, some vKey) =>
      if directoryExists fs vDir = pathIsDir ∧
          iSubkeyCount host fs vDir none ≥ sizeT aMaxItemCount then
        match findLoop host fs aMaxItemCount vKey.length vDir vKey with
        | .error vLen => .error vLen
        | .stop vDir s => .ok (sdsJoinPathLen vDir s)
        | .last vDir vUtf8Char =>
          match aPartitionFullProcess with
          | .dkIgnored => .ok (sdsJoinPathLen vDir vUtf8Char)
          | .dkStopped => .error idbErrPartFull
          | _ => .ok vDir
      else .ok (sdsJoinPathLen vDir vKey)

/-- The loop of `iIsKeyDirExists`. -/
def lookLoop (fs : FileSystem) : ℕ → Bytes → Bytes → Option Bytes
  | 0, _, _ => none
  | fuel + 1, vDir, s =>
    match firstChar s with
    | .error _ => none
    | .ok vUtf8Char =>
      let vDir := joinPart vDir vUtf8Char
      if directoryExists fs vDir = pathIsDir then
        let rest := s.drop vUtf8Char.length
        if directoryExists fs (sdsJoinPathLen vDir rest) = pathIsDir then
          some (sdsJoinPathLen vDir rest)
        else if rest = [] then some (sdsJoinPathLen vDir rest)
        else lookLoop fs fuel vDir rest
      else none

/-- The directory of the key in the partitions, if such a key exists. -/
def iIsKeyDirExists (fs : FileSystem) (aDir : Bytes) : Option Bytes :=
  match extractLastPathName aDir with
  | (_, none) => none
  | (vDir, some vKey) => lookLoop fs vKey.length vDir vKey

/-! ## Levels of a key -/

/-- The name of the partition directory of the character `c`. -/
def partName (c : Bytes) : Name :=
  dot :: c

/-- The partition directories and the rest of the key after `i` characters. -/
def levelAt (k : Bytes) : ℕ → Option (List Name × Bytes)
  | 0 => some ([], k)
  | i + 1 =>
    match levelAt k i with
    | none => none
    | some (ns, r) =>
      match firstChar r with
      | .error _ => none
      | .ok c => some (ns ++ [partName c], r.drop c.length)

/-- Where a list of names leads from `d`. -/
def place (d : Loc) (ns : List Name) : Loc :=
  ns.foldl enter d

/-- The number of visible subdirectories. -/
def visibleCount (t : FileTree Xattrs) (p : Loc) : ℕ :=
  ((t.subdirs p).filter (·.head? ≠ some dot)).length

variable {k : Bytes} {i j : ℕ} {ns ns' : List Name} {r r' c : Bytes}

theorem levelAt_zero (k : Bytes) : levelAt k 0 = some ([], k) :=
  rfl

theorem levelAt_zero_iff : levelAt k 0 = some (ns, r) ↔ [] = ns ∧ k = r := by
  rw [levelAt_zero, Option.some.injEq, Prod.mk.injEq]

theorem levelAt_succ (h : levelAt k i = some (ns, r)) (hc : firstChar r = .ok c) :
    levelAt k (i + 1) = some (ns ++ [partName c], r.drop c.length) := by
  simp [levelAt, h, hc]

theorem levelAt_succ_error {e : ℤ} (h : levelAt k i = some (ns, r)) (hc : firstChar r = .error e) :
    levelAt k (i + 1) = none := by
  simp [levelAt, h, hc]

/-- A level after the first comes from the one before by a character. -/
theorem levelAt_succ_inv {ns' : List Name} {r' : Bytes} (h : levelAt k (i + 1) = some (ns', r')) :
    ∃ ns r c, levelAt k i = some (ns, r) ∧ firstChar r = .ok c ∧ ns' = ns ++ [partName c] ∧
      r' = r.drop c.length := by
  rw [levelAt] at h
  split at h
  · simp at h
  · next ns r hl =>
    split at h
    · simp at h
    · next c hc =>
      rw [Option.some.injEq, Prod.mk.injEq] at h
      exact ⟨ns, r, c, hl, hc, h.1.symm, h.2.symm⟩

/-- What holds at some place of a level holds at the only one. -/
theorem exists_level_iff (hl : levelAt k i = some (ns, r)) {P : List Name → Bytes → Prop} :
    (∃ ns' r', levelAt k i = some (ns', r') ∧ P ns' r') ↔ P ns r := by
  constructor
  · rintro ⟨ns', r', hl', h⟩
    rw [hl, Option.some.injEq, Prod.mk.injEq] at hl'
    rwa [hl'.1, hl'.2]
  · exact fun h => ⟨ns, r, hl, h⟩

/-- A key that has a level has all the lower ones. -/
theorem levelAt_of_le (hij : j ≤ i) (h : levelAt k i = some (ns, r)) :
    ∃ ns' r', levelAt k j = some (ns', r') := by
  induction i generalizing ns r with
  | zero =>
    obtain rfl : j = 0 := by omega
    exact ⟨_, _, h⟩
  | succ i ih =>
    by_cases he : j = i + 1
    · exact ⟨_, _, he ▸ h⟩
    · obtain ⟨ns', r', c, hl, -⟩ := levelAt_succ_inv h
      exact ih (by omega) hl

/-- Before a level the key goes on with a character, which leads to the next level. -/
theorem levelAt_next {ns' : List Name} {r' : Bytes} (hl : levelAt k i = some (ns, r))
    (hi : i < j) (hl' : levelAt k j = some (ns', r')) :
    ∃ c, firstChar r = .ok c ∧
      levelAt k (i + 1) = some (ns ++ [partName c], r.drop c.length) := by
  obtain ⟨ns₁, r₁, hl₁⟩ := levelAt_of_le (show i + 1 ≤ j from hi) hl'
  obtain ⟨ns₂, r₂, c, hl₂, hc, rfl, rfl⟩ := levelAt_succ_inv hl₁
  rw [hl, Option.some.injEq, Prod.mk.injEq] at hl₂
  obtain ⟨rfl, rfl⟩ := hl₂
  exact ⟨c, hc, hl₁⟩

/-- Before a level the rest of the key is not empty. -/
theorem rest_ne_nil_of_lt {ns' : List Name} {r' : Bytes} (hij : j < i)
    (hi : levelAt k i = some (ns, r)) (hj : levelAt k j = some (ns', r')) : r' ≠ [] := by
  obtain ⟨c, hc, -⟩ := levelAt_next hj hij hi
  rintro rfl
  rw [firstChar_nil] at hc
  simp at hc

/-- Level `i` lies `i` partitions deep. -/
theorem levelAt_length (h : levelAt k i = some (ns, r)) : ns.length = i := by
  induction i generalizing ns r with
  | zero =>
    rw [levelAt_zero_iff] at h
    simp [← h.1]
  | succ i ih =>
    obtain ⟨ns', r', c, hl, -, rfl, -⟩ := levelAt_succ_inv h
    simp [ih hl]

/-- The names of a level, without their dots, and the rest spell the key. -/
theorem levelAt_spell (h : levelAt k i = some (ns, r)) : k = ns.flatMap List.tail ++ r := by
  induction i generalizing ns r with
  | zero =>
    rw [levelAt_zero_iff] at h
    simp [← h.1, h.2]
  | succ i ih =>
    obtain ⟨ns', r', c, hl, hc, rfl, rfl⟩ := levelAt_succ_inv h
    rw [List.flatMap_append, List.append_assoc]
    conv_lhs => rw [ih hl, firstChar_split hc]
    simp [partName]

/-- The names on the way to a level are partition names of one character. -/
theorem levelAt_parts (h : levelAt k i = some (ns, r)) :
    ∀ n ∈ ns, ∃ c, n = partName c ∧ firstChar c = .ok c := by
  induction i generalizing ns r with
  | zero =>
    rw [levelAt_zero_iff] at h
    simp [← h.1]
  | succ i ih =>
    obtain ⟨ns', r', c, hl, hc, rfl, -⟩ := levelAt_succ_inv h
    intro n hn
    rcases List.mem_append.1 hn with hn | hn
    · exact ih hl n hn
    · rw [List.mem_singleton] at hn
      exact ⟨c, hn, (firstChar_eq_ok.1 hc).2⟩

/-- The bytes of a level are bytes of the key. -/
theorem mem_of_levelAt {b : UInt8} (h : levelAt k i = some (ns, r)) :
    (b ∈ r → b ∈ k) ∧ ∀ n ∈ ns, b ∈ n.tail → b ∈ k := by
  rw [levelAt_spell h]
  exact ⟨fun hb => List.mem_append_right _ hb,
    fun n hn hb => List.mem_append_left _ (List.mem_flatMap.2 ⟨n, hn, hb⟩)⟩

/-- The names and the rest of a level hold no slash when the key holds none. -/
theorem slash_notMem_levelAt (hk : slash ∉ k) (h : levelAt k i = some (ns, r)) :
    slash ∉ r ∧ ∀ n ∈ ns, slash ∉ n := by
  refine ⟨fun hr => hk ((mem_of_levelAt h).1 hr), fun n hn hs => ?_⟩
  obtain ⟨c, rfl, -⟩ := levelAt_parts h n hn
  rcases List.mem_cons.1 hs with he | hc
  · exact absurd he (by decide)
  · exact hk ((mem_of_levelAt h).2 _ hn hc)

/-- The name of a part is `..` or looked up. -/
theorem partName_cases (h : firstChar r = .ok c) :
    (c = [dot] ∧ partName c = [dot, dot]) ∨ Plain (partName c) := by
  by_cases hc : c = [dot]
  · exact Or.inl ⟨hc, by rw [hc]; rfl⟩
  · exact Or.inr ⟨by simp [partName], by simpa [partName] using firstChar_ne_nil h,
      by simpa [partName] using hc⟩

/-- A level cut short. -/
theorem levelAt_prefix (h : levelAt k i = some (ns, r)) (hp : ns' <+: ns) :
    ∃ r', levelAt k ns'.length = some (ns', r') := by
  induction i generalizing ns r with
  | zero =>
    rw [levelAt_zero_iff] at h
    rw [← h.1, List.prefix_nil] at hp
    exact ⟨k, hp ▸ levelAt_zero k⟩
  | succ i ih =>
    obtain ⟨ns₁, r₁, c, hl, -, rfl, -⟩ := levelAt_succ_inv h
    rcases List.prefix_concat_iff.1 hp with rfl | hp
    · exact ⟨r, levelAt_length h ▸ h⟩
    · exact ih hl hp

/-- The rest of the key gets shorter from level to level. -/
theorem rest_length_lt (hij : j < i) (hi : levelAt k i = some (ns, r))
    (hj : levelAt k j = some (ns', r')) : r.length < r'.length := by
  induction i generalizing ns r with
  | zero => exact absurd hij (Nat.not_lt_zero j)
  | succ i ih =>
    obtain ⟨ns₁, r₁, c, hl, hc, -, rfl⟩ := levelAt_succ_inv hi
    have hpos := List.length_pos_iff.2 (firstChar_ne_nil hc)
    have hlen := congrArg List.length (firstChar_split hc)
    rw [List.length_append] at hlen
    rcases Nat.lt_succ_iff_lt_or_eq.1 hij with hlt | rfl
    · have := ih hlt hl
      omega
    · rw [hj, Option.some.injEq, Prod.mk.injEq] at hl
      rw [hl.2]
      omega

end Idb
