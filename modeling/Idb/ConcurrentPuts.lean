import Idb.ConcurrentCalls

/-!
# Puts and gets at once

Clients that put attributes and clients that get them work on one database at once, each by its
own system calls, in any order. Each put is safe against whatever the others do between two of its
calls (`safe_iPutInFile`) : a directory that is made meanwhile does no harm, and none is taken
away. So every run keeps a tree mirrored, and puts to other attributes do not disturb a client
(`run_clients`).

Clients that put to the same attribute write over each other. Each empties the file before it
writes, so in the end the file starts with one of the values and may go on with the end of a longer
one (`run_finished`). With values of one length nothing is left of the others, and the run is as
good as one in which the clients come one after another (`run_serial`). That every client has
written what it emptied is seen with a mark for each, which only the proof looks at (`mark`).
-/

namespace Idb

open Posix FileSystem FileTree Interleaving

/-! ## Writes at the start -/

section

variable {α : Type*} {vs : Set (List α)} {v w : List α}

/-- Every element is at its place in one of the lists. -/
def MixOf (vs : Set (List α)) (w : List α) : Prop :=
  ∀ (n : ℕ) (x : α), w[n]? = some x → ∃ v ∈ vs, v[n]? = some x

theorem mixOf_nil (vs : Set (List α)) : MixOf vs [] := by
  intro n x h
  simp at h

theorem MixOf.take (h : MixOf vs w) (m : ℕ) : MixOf vs (w.take m) := by
  intro n x hx
  rw [List.getElem?_take] at hx
  split_ifs at hx
  exact h n x hx

/-- What is written over the start of a mix. -/
theorem MixOf.overwrite (h : MixOf vs w) (hv : v ∈ vs) : MixOf vs (v ++ w.drop v.length) := by
  intro n x hx
  by_cases hn : n < v.length
  · rw [List.getElem?_append_left hn] at hx
    exact ⟨v, hv, hx⟩
  · rw [List.getElem?_append_right (not_lt.1 hn), List.getElem?_drop,
      Nat.add_sub_cancel' (not_lt.1 hn)] at hx
    exact h n x hx

/-- A mix that starts with a list as long as any other. -/
theorem MixOf.eq_of_prefix (h : MixOf vs w) (hp : v <+: w)
    (hlen : ∀ u ∈ vs, u.length ≤ v.length) : w = v := by
  refine (hp.eq_of_length_le ?_).symm
  by_contra hlt
  obtain ⟨u, hu, hx⟩ := h v.length _ (List.getElem?_eq_getElem (not_le.1 hlt))
  have := (List.getElem?_eq_some_iff.1 hx).1
  exact absurd (hlen u hu) (not_le.2 this)

end

/-! ## Clients -/

/-- What a client does with an attribute of a key. -/
inductive Client
  | put (aKey : List Key) (aAttribute : Attr) (aValue : Bytes)
  | get (aKey : List Key) (aAttribute : Attr)

namespace Client

/-- The system calls of a client. -/
def program (aDir : Bytes) : Client → Program Answer
  | put q a v => do
    let result ← Calls.iPutInFile (sdsJoinPathLen aDir (keyOf q)) v a.val
    pure (.number result)
  | get q a => do
    let result ← Calls.iGetInFile (sdsJoinPathLen aDir (keyOf q)) a.val
    pure (.value result)

/-- What a client does to a tree when it is the only one. -/
def apply (t : KeyTree Key FileName Bytes) : Client → KeyTree Key FileName Bytes
  | put q a v => t.put q a.file v
  | get _ _ => t

/-- More calls than this are not made. -/
def calls (aDir : Bytes) : Client → ℕ
  | put q _ _ => 2 * (sdsJoinPathLen aDir (keyOf q)).length + 5
  | get _ _ => 3

theorem program_atMost (aDir : Bytes) (client : Client) :
    (client.program aDir).AtMost (client.calls aDir) := by
  cases client with
  | put q a v => exact (Calls.iPutInFile_atMost _ v a.val).bind (n := 0) fun _ => trivial
  | get q a => exact (Calls.iGetInFile_atMost _ a.val).bind (n := 0) fun _ => trivial

/-- The client puts the value. -/
def Puts (q : List Key) (f : FileName) (v : Bytes) : Client → Prop
  | put q' a v' => q' = q ∧ a.file = f ∧ v' = v
  | get _ _ => False

/-- A client puts one value. -/
theorem Puts.unique {client : Client} {q q' : List Key} {f f' : FileName} {v v' : Bytes}
    (h : client.Puts q f v) (h' : client.Puts q' f' v') : q = q' ∧ f = f' ∧ v = v' := by
  cases client with
  | put q₁ a₁ v₁ =>
    obtain ⟨rfl, rfl, rfl⟩ := h
    exact h'
  | get q₁ a₁ => exact h.elim

end Client

/-- Both put to one attribute of a key that is not there yet. -/
def bothPut (first : Bool) : Client :=
  .put [keyX.toKey, keyB] .default (if first then [49] else [50])

/-- Turns for both, one after the other. -/
def bothTurns : List Bool :=
  (List.replicate 13 [true, false]).flatten

section

variable {ι : Type} (clients : ι → Client)

/-- The values that are put. -/
def putValues (q : List Key) (f : FileName) : Set Bytes :=
  {v | ∃ i, (clients i).Puts q f v}

/-- The value of an attribute that clients put to. Some have emptied the file and not written it
yet (`pending`). -/
def Written (pending : ι → Bool) (q : List Key) (f : FileName) (w : Bytes) : Prop :=
  MixOf (putValues clients q f) w ∧
    ((∃ v ∈ putValues clients q f, v <+: w) ∨ ∃ i v, (clients i).Puts q f v ∧ pending i = true)

/-- What calls of the clients do to a tree. -/
structure Evolves (pending pending' : ι → Bool) (t t' : KeyTree Key FileName Bytes) : Prop where
  keys : t.keys ⊆ t'.keys
  made : ∀ p ∈ t'.keys, p ∈ t.keys ∨ ∃ q f, (putValues clients q f).Nonempty ∧ p <+: q
  values : ∀ q f,
    (t'.value q f = t.value q f ∧ ∀ w, Written clients pending q f w →
      Written clients pending' q f w) ∨
    ∃ w, t'.value q f = some w ∧ Written clients pending' q f w

variable {clients} {pending pending' pending'' : ι → Bool}
  {t t' t'' : KeyTree Key FileName Bytes} {q : List Key} {f : FileName} {v w : Bytes} {i : ι}

theorem Written.nonempty (h : Written clients pending q f w) :
    (putValues clients q f).Nonempty := by
  rcases h.2 with ⟨v, hv, -⟩ | ⟨i, v, hv, -⟩
  · exact ⟨v, hv⟩
  · exact ⟨v, i, hv⟩

/-- A client has written the file. -/
theorem Written.overwrite (h : Written clients pending q f w) (hi : (clients i).Puts q f v)
    (pending' : ι → Bool) : Written clients pending' q f (v ++ w.drop v.length) :=
  ⟨h.1.overwrite ⟨i, hi⟩, Or.inl ⟨v, ⟨i, hi⟩, List.prefix_append _ _⟩⟩

/-- A client has emptied the file. -/
theorem written_nil (hi : (clients i).Puts q f v) (hp : pending i = true) :
    Written clients pending q f [] :=
  ⟨mixOf_nil _, Or.inr ⟨i, v, hi, hp⟩⟩

namespace Evolves

theorem refl (pending : ι → Bool) (t : KeyTree Key FileName Bytes) :
    Evolves clients pending pending t t :=
  ⟨Finset.Subset.refl _, fun _ hp => Or.inl hp, fun _ _ => Or.inl ⟨rfl, fun _ => id⟩⟩

/-- Evolution composes. -/
theorem trans (h : Evolves clients pending pending' t t')
    (h' : Evolves clients pending' pending'' t' t'') :
    Evolves clients pending pending'' t t'' where
  keys := h.keys.trans h'.keys
  made p hp := (h'.made p hp).elim (h.made p) Or.inr
  values q f := by
    rcases h'.values q f with ⟨he', hw'⟩ | hw'
    · rcases h.values q f with ⟨he, hw⟩ | ⟨w, he, hw⟩
      · exact Or.inl ⟨he'.trans he, fun w => hw' w ∘ hw w⟩
      · exact Or.inr ⟨w, he'.trans he, hw' w hw⟩
    · exact Or.inr hw'

/-- A value that was there stays there, if not the same. -/
theorem isSome (h : Evolves clients pending pending' t t') (hv : (t.value q f).isSome) :
    (t'.value q f).isSome := by
  rcases h.values q f with ⟨he, -⟩ | ⟨w, he, -⟩
  · rwa [he]
  · rw [he]
    rfl

/-- A value that was written stays written. -/
theorem written (h : Evolves clients pending pending' t t')
    (hw : ∃ w, t.value q f = some w ∧ Written clients pending q f w) :
    ∃ w, t'.value q f = some w ∧ Written clients pending' q f w := by
  obtain ⟨w, hv, hw⟩ := hw
  rcases h.values q f with ⟨he, hkeep⟩ | hnew
  · exact ⟨w, he.trans hv, hkeep w hw⟩
  · exact hnew

/-- A key is made on the way to one that is put. -/
theorem make {p : List Key} (hq : (putValues clients q f).Nonempty) (hp : p <+: q) :
    Evolves clients pending pending t (t.make p) where
  keys _ hp' := KeyTree.mem_make_keys.2 (Or.inl hp')
  made _ hp' := (KeyTree.mem_make_keys.1 hp').imp_right fun h => ⟨q, f, hq, h.trans hp⟩
  values _ _ := Or.inl ⟨rfl, fun _ => id⟩

variable [DecidableEq ι]

/-- A client empties the file. -/
theorem emptied (hi : (clients i).Puts q f v) :
    Evolves clients pending (Function.update pending i true) t (t.put q f []) where
  keys p hp := KeyTree.mem_put_keys.2 (Or.inl hp)
  made p hp := (KeyTree.mem_put_keys.1 hp).imp_right fun h => ⟨q, f, ⟨v, i, hi⟩, h⟩
  values q' f' := by
    rw [KeyTree.value_put]
    split_ifs with h
    · obtain ⟨rfl, rfl⟩ := h
      exact Or.inr ⟨[], rfl, written_nil hi (by simp)⟩
    · refine Or.inl ⟨rfl, fun w hw => ⟨hw.1, hw.2.imp_right ?_⟩⟩
      rintro ⟨j, u, hj, hp⟩
      refine ⟨j, u, hj, ?_⟩
      by_cases hij : j = i
      · rw [hij, Function.update_self]
      · rwa [Function.update_of_ne hij]

/-- A client writes the file. -/
theorem overwritten (hi : (clients i).Puts q f v) (hw : Written clients pending q f w) :
    Evolves clients pending (Function.update pending i false) t
      (t.put q f (v ++ w.drop v.length)) where
  keys p hp := KeyTree.mem_put_keys.2 (Or.inl hp)
  made p hp := (KeyTree.mem_put_keys.1 hp).imp_right fun h => ⟨q, f, ⟨v, i, hi⟩, h⟩
  values q' f' := by
    rw [KeyTree.value_put]
    split_ifs with h
    · obtain ⟨rfl, rfl⟩ := h
      exact Or.inr ⟨_, rfl, hw.overwrite hi _⟩
    · refine Or.inl ⟨rfl, fun w hw => ⟨hw.1, hw.2.imp_right ?_⟩⟩
      rintro ⟨j, u, hj, hp⟩
      refine ⟨j, u, hj, ?_⟩
      -- The client that writes puts to no other attribute.
      have hij : j ≠ i := by
        rintro rfl
        obtain ⟨rfl, rfl, -⟩ := hi.unique hj
        exact h ⟨rfl, rfl⟩
      rwa [Function.update_of_ne hij]

end Evolves

end

/-! ## Contracts -/

/-- A directory mirrors one tree. -/
theorem Mirrors.unique {D : Bytes} {d : Loc} {fs : FileSystem}
    {t t' : KeyTree Key FileName Bytes} (h : Mirrors D d fs t) (h' : Mirrors D d fs t') :
    t = t' := by
  refine KeyTree.eq_of (fun q => ?_) fun q f => ?_
  · rw [← h.isDir_keyLoc, h'.isDir_keyLoc]
  · have he : (Attr.file ⟨some f.1, by simpa using f.2⟩) = f := rfl
    rw [← he, ← h.fileAt_attr, h'.fileAt_attr]

section

variable {ι : Type} (D : Bytes) (d : Loc) (clients : ι → Client)

/-- What calls of the clients do to the files. -/
def Moves (x y : FileSystem × (ι → Bool)) : Prop :=
  ∀ t, Mirrors D d x.1 t → ∃ t', Mirrors D d y.1 t' ∧ Evolves clients x.2 y.2 t t'

/-- The others do not touch what is known of a client. -/
def contract (i : ι) : Contract (FileSystem × (ι → Bool)) where
  rely x y := Moves D d clients x y ∧ y.2 i = x.2 i
  guar x y := Moves D d clients x y ∧ ∀ j, j ≠ i → y.2 j = x.2 j
  refl x := ⟨fun t ht => ⟨t, ht, Evolves.refl _ _⟩, rfl⟩
  trans := by
    rintro x y z ⟨h, hi⟩ ⟨h', hi'⟩
    refine ⟨fun t ht => ?_, hi'.trans hi⟩
    obtain ⟨t', ht', he⟩ := h t ht
    obtain ⟨t'', ht'', he'⟩ := h' t' ht'
    exact ⟨t'', ht'', he.trans he'⟩

/-- A fact of the tree that is mirrored. -/
def Knows (P : (ι → Bool) → KeyTree Key FileName Bytes → Prop) (x : FileSystem × (ι → Bool)) :
    Prop :=
  ∃ t, Mirrors D d x.1 t ∧ P x.2 t

/-- The others keep the fact. -/
def Stable (i : ι) (P : (ι → Bool) → KeyTree Key FileName Bytes → Prop) : Prop :=
  ∀ {pending pending' t t'}, Evolves clients pending pending' t t' → pending' i = pending i →
    P pending t → P pending' t'

end

section

variable {ι : Type} {D : Bytes} {d : Loc} {clients : ι → Client}
  {i : ι} {P Q : (ι → Bool) → KeyTree Key FileName Bytes → Prop}
  {x y : FileSystem × (ι → Bool)} {α : Type} {post : α → FileSystem × (ι → Bool) → Prop}
  {t₀ : KeyTree Key FileName Bytes} {p q : List Key} {k : Key} {f : FileName} {a : Attr}
  {v : Bytes}

theorem Knows.rely (hP : Stable clients i P) (h : Knows D d P x)
    (hr : (contract D d clients i).rely x y) : Knows D d P y := by
  obtain ⟨t, ht, hp⟩ := h
  obtain ⟨t', ht', he⟩ := hr.1 t ht
  exact ⟨t', ht', hP he hr.2 hp⟩

theorem stable_key (q : List Key) : Stable clients i fun _ t => q ∈ t.keys :=
  fun he _ hq => he.keys hq

/-- The key is there, and the attribute has what was written. -/
def PutWritten (clients : ι → Client) (q : List Key) (f : FileName) (pending : ι → Bool)
    (t : KeyTree Key FileName Bytes) : Prop :=
  q ∈ t.keys ∧ ∃ w, t.value q f = some w ∧ Written clients pending q f w

theorem stable_putWritten : Stable clients i (PutWritten clients q f) :=
  fun he _ h => ⟨he.keys h.1, he.written h.2⟩

theorem stable_putDone : Stable clients i fun pending t =>
    PutWritten clients q f pending t ∧ pending i = false :=
  fun he hi h => ⟨stable_putWritten he hi h.1, hi.trans h.2⟩

/-- The value is as it was at the start, or was written. -/
def StartOrWritten (clients : ι → Client) (t₀ : KeyTree Key FileName Bytes) (q : List Key)
    (f : FileName) (pending : ι → Bool) (t : KeyTree Key FileName Bytes) : Prop :=
  t.value q f = t₀.value q f ∨ ∃ w, t.value q f = some w ∧ Written clients pending q f w

theorem stable_startOrWritten : Stable clients i (StartOrWritten clients t₀ q f) := by
  rintro pending pending' t t' he - (h | h)
  · rcases he.values q f with ⟨hv, -⟩ | hw
    · exact Or.inl (hv.trans h)
    · exact Or.inr hw
  · exact Or.inr (he.written h)

/-- What a get that starts with the tree may give : without puts to the attribute its value, else
the start of this value, or what is made of the values that are put. -/
structure ReadOf (clients : ι → Client) (t₀ : KeyTree Key FileName Bytes) (q : List Key)
    (f : FileName) (r : Option Bytes) : Prop where
  unchanged : putValues clients q f = ∅ → r = t₀.value q f
  none : r = none → t₀.value q f = none
  some : ∀ b, r = some b →
    (∃ w, t₀.value q f = some w ∧ b <+: w) ∨ MixOf (putValues clients q f) b

theorem StartOrWritten.value_eq {pending : ι → Bool} {t : KeyTree Key FileName Bytes}
    (h : StartOrWritten clients t₀ q f pending t) (he : putValues clients q f = ∅) :
    t.value q f = t₀.value q f := by
  rcases h with h | ⟨w, -, hw⟩
  · exact h
  · exact absurd he hw.nonempty.ne_empty

/-- A key without a value reads as absent. -/
theorem readOf_none {pending : ι → Bool} {t : KeyTree Key FileName Bytes}
    (h : StartOrWritten clients t₀ q f pending t) (hv : t.value q f = none) :
    ReadOf clients t₀ q f none := by
  have h₀ : t₀.value q f = none := by
    rcases h with h | ⟨w, he, -⟩
    · rw [← h, hv]
    · simp [hv] at he
  exact ⟨fun _ => h₀.symm, fun _ => h₀, by simp⟩

/-- The value that is found, cut off at the length that was found before. -/
theorem readOf_take {pending : ι → Bool} {t : KeyTree Key FileName Bytes} {w : Bytes} {n : ℕ}
    (h : StartOrWritten clients t₀ q f pending t) (hv : t.value q f = some w)
    (hn : putValues clients q f = ∅ → ∀ w, t₀.value q f = some w → n = w.length) :
    ReadOf clients t₀ q f (some (w.take n)) := by
  refine ⟨fun he => ?_, by simp, fun b hb => ?_⟩
  · have h₀ := h.value_eq he
    rw [hv] at h₀
    rw [← h₀, hn he w h₀.symm, List.take_length]
  · rw [StartOrWritten, hv] at h
    rw [Option.some.injEq] at hb
    subst hb
    rcases h with h | ⟨w', he, hw'⟩
    · exact Or.inl ⟨w, h.symm, List.take_prefix n w⟩
    · rw [Option.some.injEq] at he
      exact Or.inr (he ▸ hw'.1.take n)

theorem guar_of {fs fs' : FileSystem} {pending pending' : ι → Bool}
    {t t' : KeyTree Key FileName Bytes} (h : Mirrors D d fs t) (h' : Mirrors D d fs' t')
    (he : Evolves clients pending pending' t t') (hj : ∀ j, j ≠ i → pending' j = pending j) :
    (contract D d clients i).guar (fs, pending) (fs', pending') :=
  ⟨fun _ ht => ⟨t', h', h.unique ht ▸ he⟩, hj⟩

variable [DecidableEq ι]

/-- Who has emptied a file and not written it yet. -/
def mark (i : ι) (pending : ι → Bool) : (c : SysCall) → c.Reply → ι → Bool
  | .creat _, .ok _ => Function.update pending i true
  | .write _ _, _ => Function.update pending i false
  | _, _ => pending

/-- A system call of a client, with its mark. -/
def markedCall (host : Host) (i : ι) (c : SysCall) (x : FileSystem × (ι → Bool)) :
    (FileSystem × (ι → Bool)) × c.Reply :=
  (((sysCall host c x.1).1, mark i x.2 c (sysCall host c x.1).2), (sysCall host c x.1).2)

variable {host : Host}

/-- A call that changes nothing. -/
theorem safe_look {c : SysCall} {next : c.Reply → Program α} (hP : Stable clients i P)
    (hx : Knows D d P x)
    (hc : ∀ fs pending, (markedCall host i c (fs, pending)).1 = (fs, pending))
    (h : ∀ fs pending t, Mirrors D d fs t → P pending t →
      (next (sysCall host c fs).2).Safe (markedCall host i) (contract D d clients i) post
        (fs, pending)) :
    (Prog.call c next).Safe (markedCall host i) (contract D d clients i) post x := by
  rintro ⟨fs, pending⟩ hr
  obtain ⟨t, ht, hp⟩ := hx.rely hP hr
  rw [hc]
  exact ⟨guar_of ht ht (Evolves.refl _ _) fun _ _ => rfl, h fs pending t ht hp⟩

theorem safe_ret {a : α} (hP : Stable clients i P) (hx : Knows D d P x)
    (h : ∀ y, Knows D d P y → post a y) :
    (Prog.ret a : Program α).Safe (markedCall host i) (contract D d clients i) post x :=
  fun y hr => h y (hx.rely hP hr)

/-- The way to the base directory is there. -/
theorem safe_doMkdir_at {path : Bytes}
    (hpath : ∀ fs t, Mirrors D d fs t → ∃ l, fs.At path l) (hP : Stable clients i P)
    (hx : Knows D d P x) :
    (Calls.doMkdir path).Safe (markedCall host i) (contract D d clients i)
      (fun status y => status = 0 ∧ Knows D d P y) x := by
  refine safe_look hP hx (fun _ _ => rfl) fun fs pending t ht hp => ?_
  obtain ⟨l, hl⟩ := hpath fs t ht
  obtain ⟨n, hn⟩ := hl.stat_dir
  rw [sysCall, hn]
  exact safe_ret hP ⟨t, ht, hp⟩ fun y hy => ⟨rfl, hy⟩

/-- A subkey on the way to a key that is put, be it there already, or made by another client while
this one is about to. -/
theorem safe_doMkdir_key (hq : (putValues clients q f).Nonempty) (hk : p ++ [k] <+: q)
    (hx : Knows D d (fun _ t => p ∈ t.keys) x) :
    (Calls.doMkdir (joinName D (keyOf (p ++ [k])))).Safe (markedCall host i)
      (contract D d clients i)
      (fun status y => status = 0 ∧ Knows D d (fun _ t => p ++ [k] ∈ t.keys) y) x := by
  refine safe_look (stable_key p) hx (fun _ _ => rfl) fun fs pending t ht hp => ?_
  rcases ht.stat_key (p ++ [k]) with ⟨hmem, n, hn⟩ | ⟨-, e, he⟩
  · rw [sysCall, hn]
    exact safe_ret (stable_key _) ⟨t, ht, hmem⟩ fun y hy => ⟨rfl, hy⟩
  · rw [sysCall, he]
    rintro ⟨fs', pending'⟩ hr
    obtain ⟨t', ht', hp'⟩ := Knows.rely (stable_key p) ⟨t, ht, hp⟩ hr
    rcases ht'.mkdir_key hp' k with ⟨hmem, hmk⟩ | ⟨-, fs₁, hmk, hc, hu⟩
    · rw [markedCall, sysCall, hmk]
      refine ⟨guar_of ht' ht' (Evolves.refl _ _) fun _ _ => rfl, ?_⟩
      exact safe_ret (stable_key _) ⟨t', ht', hmem⟩ fun y hy => ⟨by simp, hy⟩
    · rw [markedCall, sysCall, hmk]
      have hmade := ht'.made hp' hc hu
      refine ⟨guar_of ht' hmade (Evolves.make hq hk) fun _ _ => rfl, ?_⟩
      refine safe_ret (stable_key _) ⟨_, hmade, ?_⟩ fun y hy => ⟨rfl, hy⟩
      exact KeyTree.mem_make_keys.2 (Or.inr List.prefix_rfl)

/-- `ForceDirectories` makes the key and the keys above it, beside all other clients. -/
theorem safe_forceDirectories (hq : (putValues clients q f).Nonempty) (hne : q ≠ [])
    (hx : Knows D d (fun _ t => [] ∈ t.keys) x) :
    (Calls.forceDirectories (joinName D (keyOf q))).Safe (markedCall host i)
      (contract D d clients i) (fun _ y => Knows D d (fun _ t => q ∈ t.keys) y) x := by
  have hpath : joinName D (keyOf q) = (keyNames q).foldl joinName D :=
    (path_keyOf D q).resolve_right fun he => hne he.1
  have hD : D ≠ [] := by
    obtain ⟨t, ht, -⟩ := hx
    exact ht.isAt.ne_nil
  have hlen : (keyNames q).length = q.length := List.length_map _
  have hmade := Calls.safe_forceDirectories (markedCall host i) (k := contract D d clients i)
    (A := fun ns => Knows D d fun _ t => q.take ns.length ∈ t.keys) (x := x) (keyNames q) hD
    (by simpa [keyNames] using hne) (fun c hc => (validName_keyNames hc).component)
    (fun a b he ha y hy => safe_doMkdir_at (fun fs t ht =>
      At.of_append_slash (he ▸ at_withSlash ht.isAt) ha) (stable_key _) hy)
    (fun ns c rest he y hy => ?_) (by simpa using hx)
  · rw [hlen, List.take_length] at hmade
    rwa [hpath]
  · obtain ⟨p, q', rfl, rfl, hq'⟩ := List.map_eq_append_iff.1 he
    obtain ⟨k, r, rfl, rfl, -⟩ := List.map_eq_cons_iff.1 hq'
    have htake : (p ++ k :: r).take (p.map Key.val ++ [k.val]).length = p ++ [k] := by
      simp [List.take_append]
    have hfold : (p.map Key.val ++ [k.val]).foldl joinName D = joinName D (keyOf (p ++ [k])) := by
      rw [path_concat, List.foldl_append]
      rfl
    rw [hfold, htake]
    refine safe_doMkdir_key hq (by simp) ?_
    simpa using hy

/-- What is found missing may be made by others before this client comes to it. -/
theorem safe_directoryExists (hx : Knows D d (fun _ t => [] ∈ t.keys) x) :
    (Calls.directoryExists (joinName D (keyOf q))).Safe (markedCall host i)
      (contract D d clients i) (fun result y =>
        (result = pathIsDir ∧ Knows D d (fun _ t => q ∈ t.keys) y) ∨
        (result = pathIsNotExists ∧ q ≠ [] ∧ Knows D d (fun _ t => [] ∈ t.keys) y)) x := by
  refine safe_look (stable_key []) hx (fun _ _ => rfl) fun fs pending t ht hnil => ?_
  rcases ht.stat_key q with ⟨hmem, n, hn⟩ | ⟨hmem, e, he⟩
  · rw [sysCall, hn]
    exact safe_ret (stable_key q) ⟨t, ht, hmem⟩ fun y hy => Or.inl ⟨rfl, hy⟩
  · rw [sysCall, he]
    have hne : q ≠ [] := fun h => hmem (h ▸ hnil)
    exact safe_ret (stable_key []) ⟨t, ht, hnil⟩ fun y hy => Or.inr ⟨rfl, hne, hy⟩

/-! ## Puts -/

/-- `SetDirValue` on a key that exists writes the client's value and returns success. -/
theorem safe_setDirValue (hi : clients i = .put q a v) (hx : Knows D d (fun _ t => q ∈ t.keys) x) :
    (Calls.setDirValue (joinName D (keyOf q)) v a.val).Safe (markedCall host i)
      (contract D d clients i) (fun written y => written = true ∧
        Knows D d (fun pending t => PutWritten clients q a.file pending t ∧ pending i = false) y)
      x := by
  have hput : (clients i).Puts q a.file v := by simp [hi, Client.Puts]
  rintro ⟨fs, pending⟩ hr
  obtain ⟨t, ht, hq⟩ := hx.rely (stable_key q) hr
  obtain ⟨fs', hw, hm⟩ := ht.write_attr hq a []
  have hcall : markedCall host i (.creat (makeAttrFileName (joinName D (keyOf q)) a.val))
      (fs, pending) =
        ((fs', Function.update pending i true), Except.ok (a.name :: keyLoc d q)) := by
    rw [markedCall]
    simp only [sysCall, hw, ht.resolve_attr hq a]
    rfl
  rw [hcall]
  refine ⟨guar_of ht hm (Evolves.emptied hput) fun j hj => Function.update_of_ne hj _ _, ?_⟩
  have hwritten : PutWritten clients q a.file (Function.update pending i true)
      (t.put q a.file []) :=
    ⟨KeyTree.mem_put_keys.2 (Or.inl hq), [], by simp [KeyTree.value_put],
      written_nil hput (by simp)⟩
  rintro ⟨fs₁, pending₁⟩ hr₁
  obtain ⟨t₁, ht₁, hq₁, w, hv, hw₁⟩ := Knows.rely stable_putWritten ⟨_, hm, hwritten⟩ hr₁
  have hm₁ := ht₁.writeStart_value hv v
  refine ⟨guar_of ht₁ hm₁ (Evolves.overwritten hput hw₁) fun j hj => Function.update_of_ne hj _ _,
    ?_⟩
  refine safe_ret stable_putDone ⟨_, hm₁, ⟨KeyTree.mem_put_keys.2 (Or.inl hq₁), _, ?_,
    hw₁.overwrite hput _⟩, Function.update_self _ _ _⟩ fun y hy => ⟨?_, hy⟩
  · simp [KeyTree.value_put]
  · simp only [decide_eq_true_eq]
    rfl

/-- A put returns 0. -/
theorem safe_iPutInFile (hi : clients i = .put q a v) (hx : Knows D d (fun _ t => [] ∈ t.keys) x) :
    (Calls.iPutInFile (joinName D (keyOf q)) v a.val).Safe (markedCall host i)
      (contract D d clients i) (fun result y => result = 0 ∧
        Knows D d (fun pending t => PutWritten clients q a.file pending t ∧ pending i = false) y)
      x := by
  have hput : (putValues clients q a.file).Nonempty := ⟨v, i, by simp [hi, Client.Puts]⟩
  -- Both ways end with writing the file.
  have hset : ∀ y, Knows D d (fun _ t => q ∈ t.keys) y →
      (Calls.setDirValue (joinName D (keyOf q)) v a.val >>= fun written =>
        (pure (if written then 0 else 1) : Program ℤ)).Safe (markedCall host i)
        (contract D d clients i) (fun result y => result = 0 ∧
          Knows D d (fun pending t => PutWritten clients q a.file pending t ∧ pending i = false) y)
        y := by
    intro y hy
    refine Prog.Safe.bind ((safe_setDirValue hi hy).mono ?_)
    rintro written z ⟨rfl, hz⟩
    exact safe_ret stable_putDone hz fun y hy => ⟨rfl, hy⟩
  refine Prog.Safe.bind ((safe_directoryExists hx).mono ?_)
  rintro result y (⟨rfl, hy⟩ | ⟨rfl, hne, hy⟩)
  · exact hset y hy
  · exact Prog.Safe.bind ((safe_forceDirectories hput hne hy).mono fun _ => hset)

/-! ## Gets -/

theorem markedCall_openRead (path : Bytes) (fs : FileSystem) (pending : ι → Bool) :
    (markedCall host i (.openRead path) (fs, pending)).1 = (fs, pending) := by
  simp only [markedCall, sysCall]
  cases fs.stat path with
  | error e => rfl
  | ok n => cases n <;> rfl

/-- `iGetInFile` returns the start value or one that was put, beside all other clients. -/
theorem safe_iGetInFile (hx : Knows D d (StartOrWritten clients t₀ q a.file) x) :
    (Calls.iGetInFile (joinName D (keyOf q)) a.val).Safe (markedCall host i)
      (contract D d clients i) (fun r _ => ReadOf clients t₀ q a.file r) x := by
  refine safe_look stable_startOrWritten hx (markedCall_openRead _) fun fs pending t ht h => ?_
  rcases ht.stat_value q a with ⟨w, y, hv, hs⟩ | ⟨hv, e, he⟩
  · have hcall : (sysCall host (.openRead (makeAttrFileName (joinName D (keyOf q)) a.val)) fs).2 =
        Except.ok (a.name :: keyLoc d q) := by
      simp only [sysCall, hs, ht.resolve_attr (KeyTree.mem_of_value hv) a]
      rfl
    rw [hcall]
    have hopen : Stable clients i fun pending t =>
        StartOrWritten clients t₀ q a.file pending t ∧ (t.value q a.file).isSome :=
      fun he hi h => ⟨stable_startOrWritten he hi h.1, he.isSome h.2⟩
    refine safe_look hopen ⟨t, ht, h, by simp [hv]⟩ (fun _ _ => rfl)
      fun fs₁ pending₁ t₁ ht₁ h₁ => ?_
    obtain ⟨w₁, hv₁⟩ := Option.isSome_iff_exists.1 h₁.2
    -- The length stays what it is now. The others may change the content before it is read.
    refine safe_look hopen ⟨t₁, ht₁, h₁⟩ (fun _ _ => rfl) fun fs₂ pending₂ t₂ ht₂ h₂ => ?_
    obtain ⟨w₂, hv₂⟩ := Option.isSome_iff_exists.1 h₂.2
    have hread : ReadOf clients t₀ q a.file (some (w₂.take w₁.length)) := by
      refine readOf_take h₂.1 hv₂ fun he w hw => ?_
      rw [← h₁.1.value_eq he, hv₁, Option.some.injEq] at hw
      rw [hw]
    simp only [sysCall, ht₁.openContent_value host hv₁, ht₂.openContent_value host hv₂]
    exact fun _ _ => hread
  · have hcall : (sysCall host (.openRead (makeAttrFileName (joinName D (keyOf q)) a.val)) fs).2 =
        Except.error e := by
      simp only [sysCall, he]
      rfl
    rw [hcall]
    exact fun _ _ => readOf_none h hv

/-! ## Runs -/

/-- What a client that has returned has found or done. -/
def Client.Returned (clients : ι → Client) (t₀ t : KeyTree Key FileName Bytes) :
    Client → Answer → Prop
  | put q a _, r => r = .number 0 ∧ q ∈ t.keys ∧ (t.value q a.file).isSome
  | get q a, r => ∃ b, r = .value b ∧ ReadOf clients t₀ q a.file b

/-- The same with what only the proof looks at. -/
def returnedMarked (D : Bytes) (d : Loc) (clients : ι → Client) (t₀ : KeyTree Key FileName Bytes)
    (i : ι) (r : Answer) (y : FileSystem × (ι → Bool)) : Prop :=
  match clients i with
  | .put q a _ => r = .number 0 ∧
      Knows D d (fun pending t => PutWritten clients q a.file pending t ∧ pending i = false) y
  | .get q a => ∃ b, r = .value b ∧ ReadOf clients t₀ q a.file b

/-- Each client's program keeps its part of the contract and returns what is promised. -/
theorem safe_program {fs : FileSystem} (h : Mirrors D d fs t₀) (i : ι) :
    ((clients i).program D).Safe (markedCall host i) (contract D d clients i)
      (returnedMarked D d clients t₀ i) (fs, fun _ => false) := by
  cases hi : clients i with
  | put q a v =>
    rw [Client.program, h.path_eq]
    refine Prog.Safe.bind ((safe_iPutInFile hi ⟨t₀, h, h.nil_mem⟩).mono ?_)
    rintro r y ⟨rfl, hy⟩
    refine safe_ret stable_putDone hy fun z hz => ?_
    simp only [returnedMarked, hi, true_and]
    exact hz
  | get q a =>
    rw [Client.program, h.path_eq]
    refine Prog.Safe.bind ((safe_iGetInFile ⟨t₀, h, Or.inl rfl⟩).mono fun r y hr => ?_)
    refine fun z _ => ?_
    simp only [returnedMarked, hi]
    exact ⟨r, rfl, hr⟩

/-- The clients at their first calls. -/
def startClients (clients : ι → Client) (aDir : Bytes) (fs : FileSystem) :
    Config ι SysCall SysCall.Reply FileSystem Answer :=
  ⟨fs, fun i => (clients i).program aDir⟩

/-- The calls of all clients in the order of a schedule. -/
def runClients (host : Host) (clients : ι → Client) (aDir : Bytes) (fs : FileSystem)
    (sched : List ι) : Config ι SysCall SysCall.Reply FileSystem Answer :=
  run (fun _ => sysCall host) (startClients clients aDir fs) sched

variable (host) in
/-- What all clients keep, and what those that have returned have reached. -/
theorem run_marked {fs : FileSystem} (h : Mirrors D d fs t₀) (sched : List ι) :
    ∃ t pending, Mirrors D d (runClients host clients D fs sched).shared t ∧
      Evolves clients (fun _ => false) pending t₀ t ∧
      ∀ i r, (runClients host clients D fs sched).prog i = .ret r →
        returnedMarked D d clients t₀ i r
          ((runClients host clients D fs sched).shared, pending) := by
  let x : Config ι SysCall SysCall.Reply (FileSystem × (ι → Bool)) Answer :=
    ⟨(fs, fun _ => false), fun i => (clients i).program D⟩
  have hrely : ∀ i j, i ≠ j → ∀ s s', (contract D d clients i).guar s s' →
      (contract D d clients j).rely s s' :=
    fun i j hij s s' hg => ⟨hg.1, hg.2 j hij.symm⟩
  have hsafe : ∀ i, (x.prog i).Safe (markedCall host i) (contract D d clients i)
      (returnedMarked D d clients t₀ i) x.shared := safe_program h
  have hforget : runClients host clients D fs sched =
      ⟨(run (markedCall host) x sched).shared.1, (run (markedCall host) x sched).prog⟩ :=
    run_forget Prod.fst (fun _ _ _ => rfl) x sched
  obtain ⟨t, ht, he⟩ := run_invariant
    (fun y => ∃ t, Mirrors D d y.1 t ∧ Evolves clients (fun _ => false) y.2 t₀ t) hrely hsafe
    (fun i y z hg hy => by
      obtain ⟨t, ht, he⟩ := hy
      obtain ⟨t', ht', he'⟩ := hg.1 t ht
      exact ⟨t', ht', he.trans he'⟩) ⟨t₀, h, Evolves.refl _ _⟩ sched
  refine ⟨t, (run (markedCall host) x sched).shared.2, by rw [hforget]; exact ht, he, ?_⟩
  intro i r hr
  rw [hforget] at hr ⊢
  have := run_safe hrely hsafe sched i
  rw [hr] at this
  exact this.returned

variable (host) (clients) in
/-- In every run the directory mirrors a tree. It has the keys and values there were at the start
but for the keys that are put, and where clients put values, the attribute is as it was or a mix
of these. Every put that has returned has succeeded, and every get has found the start of the
value there was at the start, or a mix, and the value itself if no one puts to the attribute. -/
theorem run_clients {fs : FileSystem} (h : Mirrors D d fs t₀) (sched : List ι) :
    ∃ t, Mirrors D d (runClients host clients D fs sched).shared t ∧ t₀.keys ⊆ t.keys ∧
      (∀ p ∈ t.keys, p ∈ t₀.keys ∨ ∃ q f, (putValues clients q f).Nonempty ∧ p <+: q) ∧
      (∀ q f, t.value q f = t₀.value q f ∨
        ∃ w, t.value q f = some w ∧ (putValues clients q f).Nonempty ∧
          MixOf (putValues clients q f) w) ∧
      ∀ i r, (runClients host clients D fs sched).prog i = .ret r →
        (clients i).Returned clients t₀ t r := by
  obtain ⟨t, pending, ht, he, hret⟩ := run_marked host h sched
  refine ⟨t, ht, he.keys, he.made, fun q f => ?_, fun i r hr => ?_⟩
  · rcases he.values q f with ⟨hv, -⟩ | ⟨w, hv, hw⟩
    · exact Or.inl hv
    · exact Or.inr ⟨w, hv, hw.nonempty, hw.1⟩
  · have hi := hret i r hr
    rw [returnedMarked] at hi
    cases hc : clients i with
    | put q a v =>
      simp only [hc] at hi
      obtain ⟨rfl, t', ht', ⟨hq, w, hv, -⟩, -⟩ := hi
      rw [ht.unique ht']
      exact ⟨rfl, hq, by simp [hv]⟩
    | get q a =>
      simp only [hc] at hi
      exact hi

variable (host) in
/-- A client that has had its turns has returned, whatever the others do. -/
theorem returned_of_turns (fs : FileSystem) {sched : List ι}
    (h : (clients i).calls D ≤ sched.count i) :
    ∃ r, (runClients host clients D fs sched).prog i = .ret r :=
  run_returned (Client.program_atMost D (clients i)) h

/-- A client that has had its turns has returned 0. -/
theorem bothPut_returned :
    (runClients plainHost bothPut [slash] rootBase.fs bothTurns).prog true = .ret (.number 0) := by
  have hturns : (bothPut true).calls [slash] ≤ bothTurns.count true := by decide
  obtain ⟨t, -, -, -, -, hret⟩ := run_clients bothPut plainHost
    (mirrors_empty rootBase.isAt rootBase.empty) bothTurns
  obtain ⟨r, hr⟩ := returned_of_turns plainHost rootBase.fs hturns
  rw [hr, (hret true r hr).1]

variable (host) in
/-- When all clients have had their turns, the keys that are put are there, and an attribute that
is put starts with one of the values put to it, and goes on with the ends of longer ones. -/
theorem run_finished {fs : FileSystem} (h : Mirrors D d fs t₀) {sched : List ι}
    (hturns : ∀ i, (clients i).calls D ≤ sched.count i) :
    ∃ t, Mirrors D d (runClients host clients D fs sched).shared t ∧
      (∀ p, p ∈ t.keys ↔ p ∈ t₀.keys ∨ ∃ q f, (putValues clients q f).Nonempty ∧ p <+: q) ∧
      (∀ q f, putValues clients q f = ∅ → t.value q f = t₀.value q f) ∧
      ∀ q f, (putValues clients q f).Nonempty → ∃ w, t.value q f = some w ∧
        MixOf (putValues clients q f) w ∧ ∃ v ∈ putValues clients q f, v <+: w := by
  obtain ⟨t, pending, ht, he, hret⟩ := run_marked host h sched
  have hdone : ∀ i q f v, (clients i).Puts q f v →
      PutWritten clients q f pending t ∧ pending i = false := by
    intro i q f v hi
    obtain ⟨r, hr⟩ := returned_of_turns host fs (hturns i)
    have hmark := hret i r hr
    rw [returnedMarked] at hmark
    cases hc : clients i with
    | put q' a v' =>
      rw [hc] at hi
      obtain ⟨rfl, rfl, rfl⟩ := hi
      simp only [hc] at hmark
      obtain ⟨-, t', ht', hw⟩ := hmark
      rwa [ht.unique ht']
    | get q' a =>
      rw [hc] at hi
      exact hi.elim
  refine ⟨t, ht, fun p => ⟨he.made p, ?_⟩, fun q f hempty => ?_, ?_⟩
  · rintro (hp | ⟨q, f, ⟨v, i, hi⟩, hp⟩)
    · exact he.keys hp
    · exact KeyTree.mem_of_prefix hp (hdone i q f v hi).1.1
  · rcases he.values q f with ⟨hv, -⟩ | ⟨w, -, hw⟩
    · exact hv
    · exact absurd hempty hw.nonempty.ne_empty
  · rintro q f ⟨v, i, hi⟩
    obtain ⟨⟨-, w, hv, hw⟩, -⟩ := hdone i q f v hi
    refine ⟨w, hv, hw.1, hw.2.resolve_right ?_⟩
    rintro ⟨j, u, hj, hp⟩
    rw [(hdone j q f u hj).2] at hp
    exact Bool.false_ne_true hp

/-- Two clients put the same key : at the end it holds a value that one of them put. -/
theorem bothPut_finished : ∃ t v, Mirrors [slash] []
    (runClients plainHost bothPut [slash] rootBase.fs bothTurns).shared t ∧
      v ∈ putValues bothPut [keyX.toKey, keyB] Attr.default.file ∧
      ∃ w, t.value [keyX.toKey, keyB] Attr.default.file = some w ∧ v <+: w := by
  have hturns : ∀ i, (bothPut i).calls [slash] ≤ bothTurns.count i := by decide
  obtain ⟨t, ht, -, -, hput⟩ := run_finished plainHost (mirrors_empty rootBase.isAt rootBase.empty)
    hturns
  obtain ⟨w, hw, -, v, hv, hp⟩ := hput _ _ ⟨[49], true, rfl, rfl, rfl⟩
  exact ⟨t, v, ht, hv, w, hw, hp⟩

end

/-! ## One after another -/

section

variable {ι : Type} {clients : ι → Client} {t : KeyTree Key FileName Bytes} {q : List Key}
  {f : FileName} {v w : Bytes} {i : ι} {order : List ι} {D : Bytes} {d : Loc}

/-- What the clients do to a tree, one after another. -/
def serial (clients : ι → Client) (t : KeyTree Key FileName Bytes) (order : List ι) :
    KeyTree Key FileName Bytes :=
  order.foldl (fun t i => (clients i).apply t) t

/-- The programs of the clients, one run after another. -/
def oneByOne (host : Host) (clients : ι → Client) (aDir : Bytes) (fs : FileSystem)
    (order : List ι) : FileSystem :=
  order.foldl (fun fs i => (((clients i).program aDir).alone (sysCall host) fs).1) fs

/-- Run alone, a client applies its operation to the tree. -/
theorem Client.program_alone {fs : FileSystem} (host : Host) (client : Client)
    (h : Mirrors D d fs t) :
    Mirrors D d ((client.program D).alone (sysCall host) fs).1 (client.apply t) := by
  cases client with
  | put q a v =>
    obtain ⟨fs', he, hm⟩ := h.iPut_eq le_rfl host .dkIgnored q a v
    rw [iPut, if_neg fun h => lt_irrefl 0 h.2] at he
    have hput : _ = fs' := congrArg Prod.fst he
    subst hput
    rw [Client.program, Prog.bind_eq, Prog.alone_bind, Calls.iPutInFile_alone_storeInFile]
    exact hm
  | get q a =>
    rw [Client.program, Prog.bind_eq, Prog.alone_bind, Calls.iGetInFile_alone host fs le_rfl]
    exact h

theorem mirrors_oneByOne {fs : FileSystem} (host : Host) (h : Mirrors D d fs t) :
    Mirrors D d (oneByOne host clients D fs order) (serial clients t order) := by
  induction order generalizing fs t with
  | nil => exact h
  | cons i order ih => exact ih ((clients i).program_alone host h)

/-- The keys after an operation : those before, the key put and the keys above it. -/
theorem mem_apply_keys {client : Client} {p : List Key} :
    p ∈ (client.apply t).keys ↔ p ∈ t.keys ∨ ∃ q f v, client.Puts q f v ∧ p <+: q := by
  cases client with
  | put q a v =>
    rw [Client.apply, KeyTree.mem_put_keys]
    refine or_congr_right ⟨fun h => ⟨q, a.file, v, ⟨rfl, rfl, rfl⟩, h⟩, ?_⟩
    rintro ⟨q', f, v', ⟨rfl, -, -⟩, h⟩
    exact h
  | get q a => simp [Client.apply, Client.Puts]

/-- An operation puts its value. -/
theorem value_apply {client : Client} (h : client.Puts q f v) :
    (client.apply t).value q f = some v := by
  cases client with
  | put q' a v' =>
    obtain ⟨rfl, rfl, rfl⟩ := h
    simp [Client.apply, KeyTree.value_put]
  | get q' a => exact h.elim

/-- An operation leaves the values it does not put. -/
theorem value_apply_of_not {client : Client} (h : ∀ v, ¬client.Puts q f v) :
    (client.apply t).value q f = t.value q f := by
  cases client with
  | put q' a v' =>
    rw [Client.apply, KeyTree.value_put, if_neg]
    rintro ⟨rfl, rfl⟩
    exact h v' ⟨rfl, rfl, rfl⟩
  | get q' a => rfl

/-- The keys after the clients, one after another. -/
theorem mem_serial_keys {p : List Key} : p ∈ (serial clients t order).keys ↔
    p ∈ t.keys ∨ ∃ i ∈ order, ∃ q f v, (clients i).Puts q f v ∧ p <+: q := by
  induction order generalizing t with
  | nil => simp [serial]
  | cons i order ih =>
    rw [serial, List.foldl_cons, ← serial, ih, mem_apply_keys, or_assoc]
    simp

/-- An attribute that no client of the list puts to. -/
theorem value_serial_of_not (h : ∀ i ∈ order, ∀ v, ¬(clients i).Puts q f v) :
    (serial clients t order).value q f = t.value q f := by
  induction order generalizing t with
  | nil => rfl
  | cons i order ih =>
    rw [serial, List.foldl_cons, ← serial, ih fun j hj => h j (List.mem_cons_of_mem i hj),
      value_apply_of_not (h i List.mem_cons_self)]

/-- An attribute that the last clients of the list put the same value to. -/
theorem value_serial_append {last : List ι} (hall : ∀ i ∈ last, ∀ v, (clients i).Puts q f v → v = w)
    (hi : i ∈ last) (hw : (clients i).Puts q f w) :
    (serial clients t (order ++ last)).value q f = some w := by
  induction last using List.reverseRecOn with
  | nil => simp at hi
  | append_singleton last j ih =>
    have hstep : serial clients t (order ++ (last ++ [j])) =
        (clients j).apply (serial clients t (order ++ last)) := by
      simp [serial]
    rw [hstep]
    by_cases hj : ∃ v, (clients j).Puts q f v
    · obtain ⟨v, hv⟩ := hj
      rw [value_apply hv, hall j (by simp) v hv]
    · rw [value_apply_of_not fun v hv => hj ⟨v, hv⟩]
      refine ih (fun i hi => hall i (by simp [hi])) ?_
      refine (List.mem_append.1 hi).resolve_right fun hi => ?_
      rw [List.mem_singleton.1 hi] at hw
      exact hj ⟨w, hw⟩

variable [Fintype ι] [DecidableEq ι]

/-- If the values put to one attribute are of one length, then when all clients have had their
turns, the base directory holds the same tree as if the clients had come one after another. -/
theorem run_serial (host : Host) {fs : FileSystem} (h : Mirrors D d fs t) {sched : List ι}
    (hturns : ∀ i, (clients i).calls D ≤ sched.count i)
    (hlen : ∀ q f, ∀ v ∈ putValues clients q f, ∀ w ∈ putValues clients q f, v.length = w.length) :
    ∃ order : List ι, order.Nodup ∧ (∀ i, i ∈ order) ∧
      Mirrors D d (runClients host clients D fs sched).shared (serial clients t order) ∧
      Mirrors D d (oneByOne host clients D fs order) (serial clients t order) := by
  classical
  obtain ⟨t', ht', hkeys, hsame, hput⟩ := run_finished host h hturns
  -- The clients whose values are there in the end come last.
  let wins : ι → Prop := fun i => ∀ q f v, (clients i).Puts q f v → t'.value q f = some v
  let last := Finset.univ.toList.filter fun i => wins i
  let first := Finset.univ.toList.filter fun i => ¬wins i
  have hmem : ∀ i, i ∈ first ++ last := fun i => by simp [first, last, or_comm, em]
  refine ⟨first ++ last, ?_, hmem, ?_, mirrors_oneByOne host h⟩
  · have hall : (Finset.univ : Finset ι).toList.Nodup := Finset.nodup_toList _
    refine (hall.filter _).append (hall.filter _) fun i hi hl => ?_
    simp only [last, List.mem_filter, decide_eq_true_eq] at hi hl
    exact hi.2 hl.2
  · have heq : t' = serial clients t (first ++ last) := by
      refine KeyTree.eq_of (fun p => ?_) fun q f => ?_
      · rw [hkeys, mem_serial_keys]
        refine or_congr_right ⟨?_, ?_⟩
        · rintro ⟨q, f, ⟨v, i, hi⟩, hp⟩
          exact ⟨i, hmem i, q, f, v, hi, hp⟩
        · rintro ⟨i, -, q, f, v, hi, hp⟩
          exact ⟨q, f, ⟨v, i, hi⟩, hp⟩
      · rcases (putValues clients q f).eq_empty_or_nonempty with hempty | hne
        · rw [hsame q f hempty, value_serial_of_not]
          intro i _ v hi
          exact Set.notMem_empty v (hempty ▸ ⟨i, hi⟩)
        · obtain ⟨w, hw, hmix, v, hv, hp⟩ := hput q f hne
          obtain rfl := hmix.eq_of_prefix hp fun u hu => (hlen q f u hu v hv).le
          obtain ⟨i, hi⟩ := hv
          have hwin : wins i := fun q' f' v' h' => by
            obtain ⟨rfl, rfl, rfl⟩ := hi.unique h'
            exact hw
          rw [hw, value_serial_append (fun j hj v hv => ?_) (by simpa [last] using hwin) hi]
          simp only [last, List.mem_filter, decide_eq_true_eq] at hj
          simpa [hw, eq_comm] using hj.2 q f v hv
    exact heq ▸ ht'

end

/-- Two clients put the same key : the final files are those of one of the two orders. -/
theorem bothPut_serial : ∃ order : List Bool, order.Nodup ∧ (∀ i, i ∈ order) ∧
    Mirrors [slash] [] (runClients plainHost bothPut [slash] rootBase.fs bothTurns).shared
      (serial bothPut KeyTree.empty order) ∧
    Mirrors [slash] [] (oneByOne plainHost bothPut [slash] rootBase.fs order)
      (serial bothPut KeyTree.empty order) := by
  refine run_serial plainHost (mirrors_empty rootBase.isAt rootBase.empty) (by decide) ?_
  rintro q f v ⟨i, -, -, rfl⟩ w ⟨j, -, -, rfl⟩
  cases i <;> cases j <;> rfl

end Idb
