import Idb.KeyMap
import Idb.Search

/-!
# Staying inside

The partition loop joins `.` and a character of the key. When the character is a dot, the
name joined is `..`, and the walk goes up. The searches for a key return paths strictly below
the base directory exactly if no level strays at which one of them ends (`staysInside_iff`).
A level strays if a link on the way to it leads elsewhere, or without links if its names are
an `Escape` : they go up from the base directory and do not come back, or what is left is the
base directory itself or leads up to it.
-/

namespace Idb

open Posix FileSystem FileTree

/-! ## Where a path leads -/

/-- Where `path` leads to with one name more, when `p` is where it leads without. Links are
followed, and what is missing is made. -/
def goOn (fs : FileSystem) (path : Bytes) (p : Loc) (n : Name) : Loc :=
  match fs.resolve true (joinName path n) with
  | .ok l => l
  | .error _ => enter p n

/-- Where the names lead from the directory `p`, which `path` names. -/
def leadsTo (fs : FileSystem) : Bytes → Loc → List Name → Loc
  | _, p, [] => p
  | path, p, n :: names => leadsTo fs (joinName path n) (goOn fs path p n) names

/-- Where a path goes on to from the directory `d` that its beginning `D` names. -/
def placeFrom (fs : FileSystem) (D : Bytes) (d : Loc) (path : Bytes) : Loc :=
  leadsTo fs D d (components (path.drop D.length))

section

variable {fs : FileSystem} {D path : Bytes} {d : Loc} {ns : List Name} {n r : Name}

/-- One name more is walked from where the names before it lead. -/
theorem leadsTo_append :
    leadsTo fs path d (ns ++ [n]) = goOn fs (ns.foldl joinName path) (leadsTo fs path d ns) n := by
  induction ns generalizing path d with
  | nil => rfl
  | cons m ns ih => exact ih

theorem getLast?_joinName_ne (hn : n ≠ []) (hs : slash ∉ n) :
    (joinName path n).getLast? ≠ some slash := by
  obtain ⟨m, b, rfl⟩ := (List.eq_nil_or_concat' n).resolve_left hn
  have hb : b ≠ slash := fun he => hs (by simp [he])
  unfold joinName
  split_ifs <;> simp [List.getLast?_append, List.getLast?_cons, hb]

/-- A slash that is put behind the base directory makes no difference. -/
theorem leadsTo_withSlash (names : List Name) :
    leadsTo fs (withSlash D) d (n :: names) = leadsTo fs D d (n :: names) := by
  rw [leadsTo, leadsTo, goOn, goOn, joinName_withSlash]

/-- What is joined to the base directory, as one text. -/
theorem keyDir_eq_intercalate (hns : ∀ n ∈ ns, n ≠ [] ∧ slash ∉ n) :
    keyDir D ns r = withSlash D ++ [slash].intercalate (ns ++ [r]) := by
  unfold keyDir
  induction ns generalizing D with
  | nil => simp [joinName_eq_withSlash]
  | cons n ns ih =>
    obtain ⟨hn, hs⟩ := hns n List.mem_cons_self
    have hslash : withSlash (joinName D n) = withSlash D ++ n ++ [slash] := by
      rw [withSlash, joinName, if_neg (getLast?_joinName_ne hn hs), joinName_eq_withSlash]
    rw [List.cons_append, List.foldl_cons, ih fun m hm => hns m (List.mem_cons_of_mem n hm), hslash,
      List.intercalate_cons_of_ne_nil (by simp)]
    simp

/-- From the base directory, the path of a level leads where its names lead. -/
theorem placeFrom_keyDir (hD : fs.At D d) (hns : ∀ n ∈ ns, n ≠ [] ∧ slash ∉ n) (hr : slash ∉ r) :
    placeFrom fs D d (keyDir D ns r) = leadsTo fs D d (ns ++ [r]) := by
  have hc : components ([slash].intercalate (ns ++ [r])) = ns ++ [r] := by
    refine List.splitOn_intercalate slash (fun n hn => ?_) (by simp)
    rcases List.mem_append.1 hn with hn | hn
    · exact (hns n hn).2
    · exact List.mem_singleton.1 hn ▸ hr
  rw [placeFrom, keyDir_eq_intercalate hns]
  by_cases hlast : D.getLast? = some slash
  · rw [show withSlash D = D by simp [withSlash, joinName, hlast], List.drop_left, hc]
  · -- The empty component is the slash behind the base directory.
    have hgo : goOn fs D d [] = d := by
      rw [goOn, show joinName D [] = withSlash D from rfl, (at_withSlash hD).resolve]
    rw [show withSlash D = D ++ [slash] by simp [withSlash, joinName, hlast], List.append_assoc,
      List.drop_left, List.singleton_append, ← List.nil_append (slash :: _),
      components_append_slash, hc, show components ([] : Bytes) = [[]] from rfl,
      List.singleton_append, leadsTo, hgo, show joinName D [] = withSlash D from rfl]
    cases ns with
    | nil => exact leadsTo_withSlash []
    | cons n ns => exact leadsTo_withSlash (ns ++ [r])

/-- A path that names a directory leads there. -/
theorem leadsTo_at {l : Loc} (h : fs.At (keyDir D ns r) l) : leadsTo fs D d (ns ++ [r]) = l := by
  have hpath : joinName (ns.foldl joinName D) r = keyDir D ns r := by
    simp [keyDir, List.foldl_append]
  rw [leadsTo_append, goOn, hpath, h.resolve]

end

/-! ## Leaving the base directory -/

/-- The names go up from `d` and do not come back to it. -/
def Leaves (d : Loc) (ns : List Name) : Prop :=
  ∃ ns', ns' ++ [[dot, dot]] <+: ns ∧ place d ns' = d ∧
    ∀ ns'', ns' ++ [[dot, dot]] <+: ns'' → ns'' <+: ns → ¬d <:+ place d ns''

/-- The names of level `i` leave the base directory, or with what is left they lead to it
or up from it. -/
def Escape (d : Loc) (k : Bytes) (i : ℕ) : Prop :=
  ∃ ns r, levelAt k i = some (ns, r) ∧ (Leaves d ns ∨
    ((r = [] ∨ r = [dot]) ∧ place d ns = d) ∨
    (r = [dot, dot] ∧ (place d ns = d ∨ (place d ns).tail = d)))

section

variable {d : Loc} {ns : List Name} {r : Bytes}

/-- Names that do not leave a directory lead to a place in it. -/
theorem suffix_place (hn : ∀ n ∈ ns, n = [dot, dot] ∨ Plain n) (h : ¬Leaves d ns) :
    d <:+ place d ns := by
  by_contra hs
  refine h ?_
  clear h
  induction ns using List.reverseRecOn with
  | nil => exact absurd (List.suffix_refl d) hs
  | append_singleton ns n ih =>
    rw [place_append] at hs
    by_cases hd : d <:+ place d ns
    · -- The last name is the one that leaves.
      obtain ⟨q, hq⟩ := hd
      rcases hn n (by simp) with rfl | hp
      · rw [enter_dotdot, ← hq] at hs
        cases q with
        | nil =>
          refine ⟨ns, List.prefix_refl _, hq.symm, fun ns'' h₁ h₂ => ?_⟩
          rw [h₂.eq_of_length_le h₁.length_le, place_append, enter_dotdot, ← hq]
          exact hs
        | cons x q => exact absurd (List.suffix_append q d) hs
      · rw [enter_plain hp] at hs
        exact absurd ((List.suffix_append q d).trans (hq ▸ List.suffix_cons n _)) hs
    · obtain ⟨ns', h₁, he, hout⟩ := ih (fun m hm => hn m (List.mem_append_left _ hm)) hd
      refine ⟨ns', h₁.trans (List.prefix_append _ _), he, fun ns'' h₂ h₃ => ?_⟩
      rcases List.prefix_concat_iff.1 h₃ with rfl | h₃
      · rwa [place_append]
      · exact hout ns'' h₂ h₃

/-- A path that has left the base directory ends outside it. -/
theorem not_below_of_leaves (h : Leaves d ns) (hr : r = [] ∨ r = [dot] ∨ r = [dot, dot] ∨ Plain r) :
    ¬Below d (place d (ns ++ [r])) := by
  obtain ⟨ns', h₁, -, hout⟩ := h
  have hs := hout ns h₁ (List.prefix_refl ns)
  rw [place_append]
  rintro ⟨hsuf, hne⟩
  rcases hr with rfl | rfl | rfl | hp
  · rw [enter_nil] at hsuf
    exact hs hsuf
  · rw [enter_dot] at hsuf
    exact hs hsuf
  · rw [enter_dotdot] at hsuf
    exact hs (hsuf.trans (List.tail_suffix _))
  · rw [enter_plain hp] at hsuf hne
    exact (List.suffix_cons_iff.1 hsuf).elim (fun he => hne he.symm) hs

theorem length_lt_of_below {l : Loc} (h : Below d l) : d.length < l.length :=
  lt_of_le_of_ne h.1.length_le fun he => h.2 (h.1.eq_of_length he).symm

/-- The names and what is left lead strictly below the base directory exactly if they are no
escape. -/
theorem below_place_iff {k : Bytes} {i : ℕ} (hl : levelAt k i = some (ns, r)) :
    Below d (place d (ns ++ [r])) ↔ ¬Escape d k i := by
  have hn : ∀ n ∈ ns, n = [dot, dot] ∨ Plain n := fun n hm => by
    obtain ⟨c, rfl, hc⟩ := levelAt_parts hl n hm
    exact (partName_cases hc).imp_left And.right
  have hr : r = [] ∨ r = [dot] ∨ r = [dot, dot] ∨ Plain r := by
    by_cases h₀ : r = []
    · exact Or.inl h₀
    by_cases h₁ : r = [dot]
    · exact Or.inr (Or.inl h₁)
    by_cases h₂ : r = [dot, dot]
    · exact Or.inr (Or.inr (Or.inl h₂))
    · exact Or.inr (Or.inr (Or.inr ⟨h₀, h₁, h₂⟩))
  have hesc : Escape d k i ↔ _ := exists_level_iff hl
  rw [hesc]
  constructor
  · rintro hb (hleaves | ⟨hr, he⟩ | ⟨rfl, he⟩)
    · exact not_below_of_leaves hleaves hr hb
    · rw [place_append, he] at hb
      rcases hr with rfl | rfl
      · exact hb.2 (enter_nil d)
      · exact hb.2 (enter_dot d)
    · rw [place_append, enter_dotdot] at hb
      rcases he with he | he
      · have := length_lt_of_below hb
        rw [he, List.length_tail] at this
        omega
      · exact hb.2 he
  · intro h
    obtain ⟨hleaves, hself, hup⟩ : ¬Leaves d ns ∧ ¬((r = [] ∨ r = [dot]) ∧ place d ns = d) ∧
        ¬(r = [dot, dot] ∧ (place d ns = d ∨ (place d ns).tail = d)) := by
      simpa only [not_or] using h
    have hs := suffix_place hn hleaves
    rw [place_append]
    rcases hr with rfl | rfl | rfl | hp
    · rw [enter_nil]
      exact ⟨hs, fun he => hself ⟨Or.inl rfl, he⟩⟩
    · rw [enter_dot]
      exact ⟨hs, fun he => hself ⟨Or.inr rfl, he⟩⟩
    · rw [enter_dotdot]
      refine ⟨?_, fun he => hup ⟨rfl, Or.inr he⟩⟩
      obtain ⟨q, hq⟩ := hs
      cases q with
      | nil => exact absurd ⟨rfl, Or.inl hq.symm⟩ hup
      | cons x q => exact hq ▸ List.suffix_append q d
    · rw [enter_plain hp]
      exact below_cons hs r

end

/-! ## Links on the way -/

/-- A link on the way through the names leads elsewhere than the names say. -/
def LinkMet (fs : FileSystem) (D : Bytes) (d : Loc) (names : List Name) : Prop :=
  ∃ pre, pre <+: names ∧ leadsTo fs D d pre ≠ place d pre

instance (fs : FileSystem) (D : Bytes) (d : Loc) (names : List Name) :
    Decidable (LinkMet fs D d names) :=
  decidable_of_iff (∃ pre ∈ names.inits, leadsTo fs D d pre ≠ place d pre)
    (by simp [LinkMet])

/-- Level `i` does not lead strictly below the base directory, by a link or by its names. -/
def Strays (fs : FileSystem) (D : Bytes) (d : Loc) (k : Bytes) (i : ℕ) : Prop :=
  ∃ ns r, levelAt k i = some (ns, r) ∧
    ((LinkMet fs D d (ns ++ [r]) ∧ ¬Below d (leadsTo fs D d (ns ++ [r]))) ∨
      (¬LinkMet fs D d (ns ++ [r]) ∧ Escape d k i))

/-- A level leads strictly below the base directory exactly if it does not stray. -/
theorem below_leadsTo_iff {fs : FileSystem} {D k : Bytes} {d : Loc} {i : ℕ} {ns : List Name}
    {r : Name} (hl : levelAt k i = some (ns, r)) :
    Below d (leadsTo fs D d (ns ++ [r])) ↔ ¬Strays fs D d k i := by
  have hstrays : Strays fs D d k i ↔ _ := exists_level_iff hl
  rw [hstrays]
  by_cases hlink : LinkMet fs D d (ns ++ [r])
  · simp [hlink]
  · have hplace : leadsTo fs D d (ns ++ [r]) = place d (ns ++ [r]) := by
      by_contra hne
      exact hlink ⟨_, List.prefix_refl _, hne⟩
    rw [hplace, below_place_iff hl]
    simp [hlink]

/-! ## Where the searches end -/

/-- The search for a place ends at level `i` with a path : it does not go past it, or the
character left is the last and the partitions are to be ignored. -/
def PutEnds (host : Host) (fs : FileSystem) (M : ℤ) (policy : TIDBProcesses) (D k : Bytes)
    (i : ℕ) : Prop :=
  (∀ j < i, Passed host fs M D k j) ∧ ∃ ns r, levelAt k i = some (ns, r) ∧ r ≠ [] ∧
    (¬Passed host fs M D k i ∨ (policy = .dkIgnored ∧ firstChar r = .ok r))

/-- The search for the key finds it at level `i`. -/
def LookEnds (fs : FileSystem) (D k : Bytes) (i : ℕ) : Prop :=
  1 ≤ i ∧ (∀ j, 1 ≤ j → j < i → Missed fs D k j) ∧ ∃ ns r, levelAt k i = some (ns, r) ∧
    directoryExists fs (levelDir D ns) = pathIsDir ∧
      directoryExists fs (keyDir D ns r) = pathIsDir

section

variable {host : Host} {fs : FileSystem} {D k : Bytes} {d : Loc} {M : ℤ} {policy : TIDBProcesses}
  {i : ℕ} {ns : List Name} {r path : Bytes}

/-- The paths that the search for a place returns. -/
theorem iFindKeyDirToPut_iff (hD : D ≠ []) (hk : Component k)
    (hpol : policy = .dkIgnored ∨ policy = .dkStopped) :
    iFindKeyDirToPut host fs (joinName D k) M policy = .ok path ↔
      ∃ i ns r, PutEnds host fs M policy D k i ∧ levelAt k i = some (ns, r) ∧
        path = keyDir D ns r := by
  constructor
  · intro he
    obtain ⟨i, hp, hm, hend⟩ := @iFindKeyDirToPut_passed fs D k hD hk.1 hk.2.1 host M policy
    rw [he] at hp
    cases hp with
    | key hl hr => exact ⟨i, _, _, ⟨hm, _, _, hl, hr, Or.inl hend⟩, hl, rfl⟩
    | @forced i ns c hign hl hc =>
      exact ⟨i, ns, c, ⟨fun j hj => hm j (by omega), ns, c, hl, firstChar_ne_nil hc,
        Or.inr ⟨hign, hc⟩⟩, hl, rfl⟩
    | other hign hstop => exact absurd hpol (not_or.2 ⟨hign, hstop⟩)
  · rintro ⟨i, ns, r, ⟨hm, hend⟩, hl, rfl⟩
    obtain ⟨hr, hstop⟩ := (exists_level_iff hl).1 hend
    by_cases hpass : Passed host fs M D k i
    · obtain ⟨rfl, hc⟩ := hstop.resolve_left (not_not_intro hpass)
      have hnext := levelAt_succ hl hc
      rw [List.drop_length] at hnext
      exact (putsAt_of_passed hD hk.1 hk.2.1 _ (Nat.forall_lt_succ_right.2 ⟨hm, hpass⟩)
        fun h => rest_ne_nil_of_missed hnext h.missed rfl).eq_forced hl hc
    · exact (putsAt_of_passed hD hk.1 hk.2.1 policy hm hpass).eq_key hl hr

/-- The paths that the search for the key returns. -/
theorem iIsKeyDirExists_iff (hD : D ≠ []) (hk : Component k) :
    iIsKeyDirExists fs (joinName D k) = some path ↔
      ∃ i ns r, LookEnds fs D k i ∧ levelAt k i = some (ns, r) ∧ path = keyDir D ns r := by
  constructor
  · intro h
    rw [iIsKeyDirExists, extractLastPathName_joinName hk.1 hk.2.1] at h
    obtain ⟨i, ns, r, hi, hm, hl, hdir, hkey, he⟩ := lookLoop_ends hD (levelAt_zero k) h
    exact ⟨i, ns, r, ⟨hi, fun j => hm j, ns, r, hl, hdir, hkey⟩, hl, he⟩
  · rintro ⟨i, ns, r, ⟨hi, hm, hend⟩, hl, rfl⟩
    obtain ⟨hdir, hkey⟩ := (exists_level_iff hl).1 hend
    exact iIsKeyDirExists_missed hD hk.1 hk.2.1 hi hl (fun j h₁ h₂ => hm j h₁ h₂) hdir hkey

end

/-- The searches for a key return only paths that lead strictly below the base directory. -/
def StaysInside (host : Host) (fs : FileSystem) (D : Bytes) (d : Loc) (M : ℤ)
    (policy : TIDBProcesses) (k : Bytes) : Prop :=
  (∀ path, iFindKeyDirToPut host fs (joinName D k) M policy = .ok path →
    Below d (placeFrom fs D d path)) ∧
  ∀ path, iIsKeyDirExists fs (joinName D k) = some path → ∃ l, fs.At path l ∧ Below d l

/-- The names of a level can be told apart in its path. -/
theorem names_of_level {k : Bytes} {i : ℕ} {ns : List Name} {r : Bytes} (hk : slash ∉ k)
    (hl : levelAt k i = some (ns, r)) : (∀ n ∈ ns, n ≠ [] ∧ slash ∉ n) ∧ slash ∉ r := by
  obtain ⟨hr, hns⟩ := slash_notMem_levelAt hk hl
  refine ⟨fun n hn => ⟨?_, hns n hn⟩, hr⟩
  obtain ⟨c, rfl, -⟩ := levelAt_parts hl n hn
  exact List.cons_ne_nil _ _

/-- The searches for a key stay inside exactly if no level strays that they end at. -/
theorem staysInside_iff (host : Host) (fs : FileSystem) (D : Bytes) (d : Loc) (M : ℤ)
    (policy : TIDBProcesses) (k : Bytes) (hD : fs.At D d) (hk : Component k)
    (hpol : policy = .dkIgnored ∨ policy = .dkStopped) :
    StaysInside host fs D d M policy k ↔
      ∀ i, PutEnds host fs M policy D k i ∨ LookEnds fs D k i → ¬Strays fs D d k i := by
  constructor
  · rintro ⟨hput, hlook⟩ i (hi | hi)
    · obtain ⟨ns, r, hl, -⟩ := hi.2
      obtain ⟨hns, hr⟩ := names_of_level hk.2.1 hl
      rw [← below_leadsTo_iff hl, ← placeFrom_keyDir hD hns hr]
      exact hput _ ((iFindKeyDirToPut_iff hD.ne_nil hk hpol).2 ⟨i, ns, r, hi, hl, rfl⟩)
    · obtain ⟨-, -, ns, r, hl, -⟩ := id hi
      obtain ⟨l, hat, hb⟩ :=
        hlook _ ((iIsKeyDirExists_iff hD.ne_nil hk).2 ⟨i, ns, r, hi, hl, rfl⟩)
      rw [← below_leadsTo_iff hl, leadsTo_at hat]
      exact hb
  · intro hno
    constructor
    · intro path hput
      obtain ⟨i, ns, r, hi, hl, rfl⟩ := (iFindKeyDirToPut_iff hD.ne_nil hk hpol).1 hput
      obtain ⟨hns, hr⟩ := names_of_level hk.2.1 hl
      rw [placeFrom_keyDir hD hns hr, below_leadsTo_iff hl]
      exact hno i (Or.inl hi)
    · intro path hlook
      obtain ⟨i, ns, r, hi, hl, rfl⟩ := (iIsKeyDirExists_iff hD.ne_nil hk).1 hlook
      obtain ⟨-, -, hend⟩ := id hi
      obtain ⟨-, hkey⟩ := (exists_level_iff hl).1 hend
      obtain ⟨l, hat⟩ := directoryExists_eq_dir_iff_at.1 hkey
      refine ⟨l, hat, ?_⟩
      rw [← leadsTo_at hat, below_leadsTo_iff hl]
      exact hno i (Or.inr hi)

/-! ## A key that leaves -/

/-- The place of the directory `db`. -/
def dbLoc : Loc :=
  [[100, 98]]

/-- The path `/db`. -/
def dbPath : Bytes :=
  [slash, 100, 98]

theorem at_dbPath {fs : FileSystem} (hd : fs.tree.isDir dbLoc) : fs.At dbPath dbLoc :=
  (at_root fs).entry (c := [100, 98]) (by decide) hd

/-- `/db` with `x` in it, and `ab` in a partition. -/
def escapeFs : FileSystem :=
  let start := (forceDirectories ⟨bare fun _ => none, []⟩ dbPath).1
  let withX := (iPut plainHost 1 start dbPath .dkIgnored (some keyX.val) [49] none storeInFile).1
  (iPut plainHost 1 withX dbPath .dkIgnored (some keyAb.val) [50] none storeInFile).1

/-- The key `a..b`. -/
def dotsKey : Bytes :=
  [97, dot, dot, 98]

/-- A put of `a..b` into `/db` writes `/b/.value`. -/
theorem put_leaves_base :
    escapeFs.At dbPath dbLoc ∧
      (∃ path, iFindKeyDirToPut plainHost escapeFs (joinName dbPath dotsKey) 1 .dkIgnored =
        .ok path ∧ ¬Below dbLoc (placeFrom escapeFs dbPath dbLoc path)) ∧
      (iPut plainHost 1 escapeFs dbPath .dkIgnored (some dotsKey) [51] none
        storeInFile).1.tree.fileAt [Attr.default.name, [98]] = some [51] := by
  refine ⟨at_dbPath (by decide +kernel), ⟨dbPath ++ [slash, dot, 97, slash, dot, dot, slash, dot,
    dot, slash, 98], by decide +kernel, fun hb => ?_⟩, by decide +kernel⟩
  have hplace : placeFrom escapeFs dbPath dbLoc (dbPath ++ [slash, dot, 97, slash, dot, dot, slash,
      dot, dot, slash, 98]) = [[98]] := by
    decide +kernel
  rw [hplace] at hb
  exact absurd hb.1 (by decide)

/-- Behind `a.` the key is back in the base directory, and goes up. -/
theorem not_staysInside_dots :
    ¬StaysInside plainHost escapeFs dbPath dbLoc 1 .dkIgnored dotsKey := by
  rw [staysInside_iff plainHost escapeFs dbPath dbLoc 1 .dkIgnored dotsKey
    (at_dbPath (by decide +kernel)) (by decide) (Or.inl rfl)]
  have hl : levelAt dotsKey 3 = some ([[dot, 97], [dot, dot], [dot, dot]], [98]) := by
    decide +kernel
  have hpassed : ∀ j < 3, Passed plainHost escapeFs 1 dbPath dotsKey j := by decide +kernel
  have hlinks : ¬LinkMet escapeFs dbPath dbLoc ([[dot, 97], [dot, dot], [dot, dot]] ++ [[98]]) := by
    decide +kernel
  refine fun hno => hno 3 (Or.inl ⟨hpassed, _, _, hl, by decide, Or.inr ⟨rfl, by decide⟩⟩)
    ⟨_, _, hl, Or.inr ⟨hlinks, _, _, hl, Or.inl ⟨[[dot, 97], [dot, dot]], List.prefix_refl _,
      by decide, fun ns h₁ h₂ => ?_⟩⟩⟩
  rw [h₂.eq_of_length_le h₁.length_le]
  decide

end Idb
