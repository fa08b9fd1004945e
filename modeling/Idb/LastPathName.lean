import Idb.SubkeyCounts
import Idb.UrlCodec

/-!
# Cutting off the last name in place

`ExtractLastPathName` and `RemoveLastPathName` shorten a string with a stored length. Both first
take the slashes off its end, and look at the byte before the end without asking whether there is
one. They do what `extractLastPathName` and `removeLastPathName` say on lists exactly if the path
has another character than slashes (`cutsLastName_iff`) ; otherwise the byte before the string is
read.
-/

namespace Idb

open Posix

/-! ## The source -/

/-- A string with its stored length and the bytes from its first one on. -/
structure Sds where
  len : ℕ
  buf : Memory

namespace Sds

/-- `sdsSetlen_`, and `sdsIncrLen` with a negative number : the string is shortened. -/
def setLen (s : Sds) (len : ℕ) : Sds :=
  ⟨len, Function.update s.buf len 0⟩

/-- The loop that takes the slashes off. It reads the byte at `vLen - 1`, and nothing is returned
when that is no byte of the string. -/
def trimSlashes : ℕ → Sds → Option Sds
  | 0, _ => none
  | vLen + 1, s => if s.buf vLen = slash then trimSlashes vLen (s.setLen vLen) else some s

/-- The characters from a place up to the terminator. -/
def textFrom (m : Memory) : ℕ → ℕ → Bytes
  | 0, _ => []
  | fuel + 1, i => if m i = 0 then [] else m i :: textFrom m fuel (i + 1)

/-- The string as the C library reads it. The terminator is at `len` at the latest. -/
def text (s : Sds) : Bytes :=
  textFrom s.buf (s.len + 1) 0

/-- The name behind the last slash, by `strrchr`. -/
def lastName (s : Sds) : Bytes :=
  s.text.rtakeWhile (· ≠ slash)

/-- The string is cut before its last name. -/
def removeLastPathName (aDir : Sds) : Option Sds :=
  (trimSlashes aDir.len aDir).map fun aDir =>
    let vLen := aDir.lastName.length
    if vLen > 0 then aDir.setLen (aDir.len - vLen) else aDir

/-- The shortened string and the name, or NULL. -/
def extractLastPathName (aDir : Sds) : Option (Sds × Option Bytes) :=
  (trimSlashes aDir.len aDir).map fun aDir =>
    let vLen := aDir.lastName.length
    if vLen > 0 then (aDir.setLen (aDir.len - vLen), some aDir.lastName) else (aDir, none)

/-- The string is a text with its terminator. -/
structure Holds (s : Sds) (text : Bytes) : Prop where
  len : s.len = text.length
  buf : HoldsAt s.buf 0 (text ++ [0])

/-! ## Shortening -/

section

variable {s : Sds} {t body tail : Bytes}

/-- Shortening the header keeps the front of the text. -/
theorem Holds.setLen (h : s.Holds (t ++ tail)) : (s.setLen t.length).Holds t := by
  refine ⟨rfl, holdsAt_append.2 ⟨?_, ?_, trivial⟩⟩
  · have hbuf := h.buf
    rw [List.append_assoc] at hbuf
    refine (holdsAt_append.1 hbuf).1.congr fun q _ hq => Function.update_of_ne ?_ _ _
    omega
  · rw [Nat.zero_add]
    exact Function.update_self _ _ _

theorem Holds.last {b : UInt8} (h : s.Holds (t ++ [b])) : s.buf t.length = b := by
  have hbuf := h.buf
  rw [List.append_assoc] at hbuf
  simpa using (holdsAt_append.1 hbuf).2.1

/-- The slashes at the end are taken off, down to another character. -/
theorem trimSlashes_of_holds (h : s.Holds (body ++ tail)) (ht : ∀ b ∈ tail, b = slash)
    (hbody : ∀ b ∈ body.getLast?, b ≠ slash) (hne : body ≠ []) :
    ∃ s', trimSlashes s.len s = some s' ∧ s'.Holds body := by
  induction tail using List.reverseRecOn generalizing s with
  | nil =>
    obtain ⟨init, b, rfl⟩ := (List.eq_nil_or_concat' body).resolve_left hne
    rw [List.append_nil] at h
    refine ⟨s, ?_, h⟩
    rw [h.len, List.length_append, List.length_singleton, trimSlashes, h.last, if_neg]
    exact hbody b (by simp)
  | append_singleton tail b ih =>
    rw [← List.append_assoc] at h
    rw [h.len, List.length_append, List.length_singleton, trimSlashes, h.last,
      if_pos (ht b (by simp))]
    exact ih h.setLen fun b' hb' => ht b' (List.mem_append_left _ hb')

/-- With slashes only, the loop goes on to the byte before the string. -/
theorem trimSlashes_of_slashes (h : s.Holds t) (ht : ∀ b ∈ t, b = slash) :
    trimSlashes s.len s = none := by
  induction t using List.reverseRecOn generalizing s with
  | nil => rw [h.len, List.length_nil, trimSlashes]
  | append_singleton t b ih =>
    rw [h.len, List.length_append, List.length_singleton, trimSlashes, h.last,
      if_pos (ht b (by simp))]
    exact ih h.setLen fun b' hb' => ht b' (List.mem_append_left _ hb')

/-- The C string that starts at `i`. -/
theorem textFrom_of_holdsAt {m : Memory} {i fuel : ℕ} (h : HoldsAt m i (t ++ [0])) (h0 : 0 ∉ t)
    (hf : t.length < fuel) : textFrom m fuel i = t := by
  induction t generalizing i fuel with
  | nil =>
    obtain ⟨fuel, rfl⟩ : ∃ f, fuel = f + 1 := ⟨fuel - 1, by simp at hf; omega⟩
    rw [textFrom, if_pos h.1]
  | cons b t ih =>
    obtain ⟨fuel, rfl⟩ : ∃ f, fuel = f + 1 := ⟨fuel - 1, by simp at hf; omega⟩
    rw [List.mem_cons, not_or] at h0
    rw [textFrom, h.1, if_neg (Ne.symm h0.1), ih h.2 h0.2 (by simpa using hf)]

theorem Holds.text_eq (h : s.Holds t) (h0 : 0 ∉ t) : s.text = t :=
  textFrom_of_holdsAt h.buf h0 (by rw [h.len]; omega)

end

/-! ## Both levels -/

section

variable {s : Sds} {pre c tail : Bytes}

/-- A name between slashes, or what is before and behind it. -/
theorem cut_of_holds (h : s.Holds (pre ++ c ++ tail)) (h0 : 0 ∉ pre ++ c)
    (hp : pre = [] ∨ pre.getLast? = some slash) (hc : c ≠ []) (hs : slash ∉ c)
    (ht : ∀ b ∈ tail, b = slash) :
    ∃ s', s.extractLastPathName = some (s', some c) ∧ s.removeLastPathName = some s' ∧
      s'.Holds pre := by
  have hlast : ∀ b ∈ (pre ++ c).getLast?, b ≠ slash := by
    intro b hb
    rw [List.getLast?_append_of_ne_nil _ hc] at hb
    exact fun he => hs (he ▸ List.mem_of_getLast? hb)
  obtain ⟨s', he, hs'⟩ := trimSlashes_of_holds h ht hlast (List.append_ne_nil_of_right_ne_nil _ hc)
  have hname : s'.lastName = c := by
    rw [lastName, hs'.text_eq h0]
    exact rtakeWhile_name hp hs
  have hlen : s'.len - c.length = pre.length := by
    rw [hs'.len, List.length_append, Nat.add_sub_cancel]
  have hpos : c.length > 0 := List.length_pos_iff.2 hc
  refine ⟨s'.setLen pre.length, ?_, ?_, hs'.setLen⟩
  · rw [extractLastPathName, he, Option.map_some, hname]
    dsimp only
    rw [if_pos hpos, hlen]
  · rw [removeLastPathName, he, Option.map_some, hname]
    dsimp only
    rw [if_pos hpos, hlen]

end

end Sds

/-- A path with another character than slashes has a last name. -/
theorem exists_lastName {p : Bytes} (h : ∃ c ∈ p, c ≠ slash) :
    ∃ pre c tail, p = pre ++ c ++ tail ∧ (pre = [] ∨ pre.getLast? = some slash) ∧ c ≠ [] ∧
      slash ∉ c ∧ ∀ b ∈ tail, b = slash := by
  let body := p.rdropWhile (· = slash)
  have hne : body ≠ [] := by
    obtain ⟨c, hc, hs⟩ := h
    exact fun he => hs (by simpa using List.rdropWhile_eq_nil_iff.1 he c hc)
  have hlast : body.getLast hne ≠ slash := by
    simpa using List.rdropWhile_last_not (p := (· = slash)) p hne
  refine ⟨body.rdropWhile (· ≠ slash), body.rtakeWhile (· ≠ slash), p.rtakeWhile (· = slash), ?_,
    ?_, fun he => ?_, fun hs => ?_, fun b hb => by simpa using List.mem_rtakeWhile_imp hb⟩
  · rw [List.rdropWhile_append_rtakeWhile, List.rdropWhile_append_rtakeWhile]
  · by_cases hpre : body.rdropWhile (· ≠ slash) = []
    · exact Or.inl hpre
    · refine Or.inr ?_
      rw [List.getLast?_eq_some_getLast hpre]
      simpa using List.rdropWhile_last_not (p := (· ≠ slash)) body hpre
  · have := List.rtakeWhile_eq_nil_iff.1 he hne
    exact hlast (by simpa using this)
  · simpa using List.mem_rtakeWhile_imp hs

/-- Both functions stay inside the string, and split a path into what remains and its last
name. -/
def CutsLastName (s : Sds) (p : Bytes) : Prop :=
  ∃ rest name s₁ s₂, s.extractLastPathName = some (s₁, name) ∧ s.removeLastPathName = some s₂ ∧
    s₁.Holds rest ∧ s₂.Holds rest ∧ (rest = [] ∨ rest.getLast? = some slash) ∧
    rest ++ name.getD [] = p.rdropWhile (· = slash) ∧ slash ∉ name.getD [] ∧
    (name = none ↔ ∀ c ∈ p, c = slash)

/-- The path is cut as it should, wherever it is in memory, exactly if not all of its characters
are slashes. -/
theorem cutsLastName_iff (p : CString) :
    (∀ s : Sds, s.Holds p.1 → CutsLastName s p.1) ↔ ∃ c ∈ p.1, c ≠ slash := by
  obtain ⟨p, h0⟩ := p
  dsimp only
  constructor
  · intro h
    by_contra hall
    push Not at hall
    have hs : (⟨p.length, textMemory (p ++ [0])⟩ : Sds).Holds p :=
      ⟨rfl, holdsAt_textMemory [] _⟩
    obtain ⟨rest, name, s₁, s₂, he, -⟩ := h _ hs
    rw [Sds.extractLastPathName, Sds.trimSlashes_of_slashes hs hall] at he
    simp at he
  · intro h s hs
    obtain ⟨pre, c, tail, rfl, hp, hc, hn, ht⟩ := exists_lastName h
    rw [List.mem_append, not_or] at h0
    obtain ⟨s', he, hr, hs'⟩ := Sds.cut_of_holds hs h0.1 hp hc hn ht
    refine ⟨pre, some c, s', s', he, hr, hs', hs', hp, ?_, hn, ?_⟩
    · rw [Option.getD_some, rdropWhile_slashes hc hn ht]
    · obtain ⟨b, hb, hne⟩ := h
      exact iff_of_false (by simp) fun hall => hne (hall b hb)

/-- The empty path, for which the byte before the string is read. -/
def emptySds : Sds :=
  ⟨0, textMemory [0]⟩

theorem not_cutsLastName_empty : emptySds.Holds [] ∧ ¬CutsLastName emptySds [] := by
  refine ⟨⟨rfl, rfl, trivial⟩, ?_⟩
  rintro ⟨rest, name, s₁, s₂, he, -⟩
  simp [emptySds, Sds.extractLastPathName, Sds.trimSlashes] at he

/-- The two functions do in place what the ones on lists say. -/
theorem lastPathName_holds {p : CString} (h : ∃ c ∈ p.1, c ≠ slash) {s : Sds} (hs : s.Holds p.1) :
    ∃ s', s.extractLastPathName = some (s', (extractLastPathName p.1).2) ∧
      s.removeLastPathName = some s' ∧ s'.Holds (extractLastPathName p.1).1 ∧
      (extractLastPathName p.1).1 = removeLastPathName p.1 := by
  obtain ⟨p, h0⟩ := p
  obtain ⟨pre, c, tail, rfl, hp, hc, hn, ht⟩ := exists_lastName h
  dsimp only at hs h0 ⊢
  have hbody : 0 ∉ pre ++ c := fun hm => h0 (List.mem_append_left _ hm)
  have hpre : ∀ b ∈ pre.getLast?, b = slash := by
    rcases hp with rfl | hp
    · simp
    · simp [hp, eq_comm]
  have hremove : removeLastPathName (pre ++ c ++ tail) = pre :=
    removeLastPathName_append hpre ⟨hc, hn, fun hm => hbody (List.mem_append_right _ hm)⟩ ht
  have hextract : extractLastPathName (pre ++ c ++ tail) = (pre, some c) := by
    have htrim := @rdropWhile_slashes pre c [] hc hn (by simp)
    rw [List.append_nil] at htrim
    rw [← extractLastPathName_append hp hc hn, extractLastPathName, extractLastPathName,
      rdropWhile_slashes hc hn ht, htrim]
  obtain ⟨s', he, hr, hs'⟩ := Sds.cut_of_holds hs hbody hp hc hn ht
  rw [hextract, hremove]
  exact ⟨s', he, hr, hs', rfl⟩

/-- The name `a` is cut off `/a`. -/
theorem lastPathName_holds_root : ∃ s',
    Sds.extractLastPathName ⟨2, textMemory [slash, 97]⟩ = some (s', some [97]) ∧
      Sds.removeLastPathName ⟨2, textMemory [slash, 97]⟩ = some s' ∧ s'.Holds [slash] ∧
      [slash] = removeLastPathName [slash, 97] :=
  lastPathName_holds (p := ⟨[slash, 97], by decide⟩) ⟨97, by decide, by decide⟩
    ⟨rfl, rfl, rfl, rfl, trivial⟩

end Idb
