import Mathlib.Logic.Basic

/-!
# Data refinement

Machines that are called and answer. A concrete machine, whose calls may go wrong, refines an
abstract one if a relation of their states is kept by every call and gives the same answer. Then
no call of a sequence goes wrong, and all are answered as the abstract machine answers them
(`Refines.run`). If the abstract machine is to be called under a condition only, the condition is
asked of its own run (`Allowed`).
-/

namespace Refinement

variable {S T C A : Type*}

/-- The state after some calls, and their answers. -/
def run (abs : T → C → T × A) (t : T) : List C → T × List A
  | [] => (t, [])
  | c :: cs => ((run abs (abs t c).1 cs).1, (abs t c).2 :: (run abs (abs t c).1 cs).2)

/-- Every call of the run meets the condition. -/
def Allowed (abs : T → C → T × A) (pre : T → C → Prop) (t : T) : List C → Prop
  | [] => True
  | c :: cs => pre t c ∧ Allowed abs pre (abs t c).1 cs

theorem allowed_of_forall {abs : T → C → T × A} {pre : C → Prop} {t : T} {cs : List C}
    (h : ∀ c ∈ cs, pre c) : Allowed abs (fun _ => pre) t cs := by
  induction cs generalizing t with
  | nil => trivial
  | cons c cs ih =>
    exact ⟨h c List.mem_cons_self, ih fun c hc => h c (List.mem_cons_of_mem _ hc)⟩

/-- A run that goes wrong with the first call that does. -/
def runPartial (conc : S → C → Option (S × A)) (s : S) : List C → Option (S × List A)
  | [] => some (s, [])
  | c :: cs => (conc s c).bind fun r => (runPartial conc r.1 cs).map fun q => (q.1, r.2 :: q.2)

/-- The calls that meet the condition keep the relation and have the same answers. -/
def Refines (R : S → T → Prop) (conc : S → C → Option (S × A)) (abs : T → C → T × A)
    (pre : T → C → Prop) : Prop :=
  ∀ s t c, R s t → pre t c → ∃ s', conc s c = some (s', (abs t c).2) ∧ R s' (abs t c).1

section

variable {R : S → T → Prop} {conc : S → C → Option (S × A)} {abs : T → C → T × A}
  {pre : T → C → Prop}

/-- A refinement extends from calls to runs. -/
theorem Refines.run (h : Refines R conc abs pre) {s : S} {t : T} {cs : List C} (hr : R s t)
    (hp : Allowed abs pre t cs) :
    ∃ s', runPartial conc s cs = some (s', (run abs t cs).2) ∧ R s' (run abs t cs).1 := by
  induction cs generalizing s t with
  | nil => exact ⟨s, rfl, hr⟩
  | cons c cs ih =>
    obtain ⟨s₁, he, hr₁⟩ := h s t c hr hp.1
    obtain ⟨s₂, he₂, hr₂⟩ := ih hr₁ hp.2
    refine ⟨s₂, ?_, hr₂⟩
    rw [runPartial, he, Option.bind_some, he₂]
    rfl

theorem Allowed.mono {p q : T → C → Prop} {t : T} {cs : List C} (hp : Allowed abs p t cs)
    (h : ∀ t c, p t c → q t c) : Allowed abs q t cs := by
  induction cs generalizing t with
  | nil => trivial
  | cons c cs ih => exact ⟨h t c hp.1, ih hp.2⟩

theorem Allowed.and {p q : T → C → Prop} {t : T} {cs : List C} (hp : Allowed abs p t cs)
    (hq : Allowed abs q t cs) : Allowed abs (fun t c => p t c ∧ q t c) t cs := by
  induction cs generalizing t with
  | nil => trivial
  | cons c cs ih => exact ⟨⟨hp.1, hq.1⟩, ih hp.2 hq.2⟩

/-- If a call that is not safe goes wrong, then a run goes wrong unless all its calls are safe. -/
theorem Refines.run_iff {legal safe : T → C → Prop}
    (h : Refines R conc abs fun t c => legal t c ∧ safe t c)
    (hbad : ∀ s t c, R s t → legal t c → ¬safe t c → conc s c = none) {s : S} {t : T} {cs : List C}
    (hr : R s t) (hl : Allowed abs legal t cs) :
    (∃ r, runPartial conc s cs = some r) ↔ Allowed abs safe t cs := by
  constructor
  · induction cs generalizing s t with
    | nil => exact fun _ => trivial
    | cons c cs ih =>
      rintro ⟨r, hrun⟩
      by_cases hs : safe t c
      · obtain ⟨s₁, he, hr₁⟩ := h s t c hr ⟨hl.1, hs⟩
        refine ⟨hs, ih hr₁ hl.2 ?_⟩
        rw [runPartial, he, Option.bind_some, Option.map_eq_some_iff] at hrun
        obtain ⟨q, hq, -⟩ := hrun
        exact ⟨q, hq⟩
      · rw [runPartial, hbad s t c hr hl.1 hs] at hrun
        simp at hrun
  · intro hs
    obtain ⟨s', hrun, -⟩ := h.run hr (hl.and hs)
    exact ⟨_, hrun⟩

/-- What the calls keep, and their condition, may give another condition. -/
theorem Allowed.of_invariant {P : T → Prop} {q : T → C → Prop} {t : T} {cs : List C} (h0 : P t)
    (hl : Allowed abs pre t cs) (hstep : ∀ t c, P t → pre t c → P (abs t c).1)
    (hq : ∀ t c, P t → pre t c → q t c) : Allowed abs q t cs := by
  induction cs generalizing t with
  | nil => trivial
  | cons c cs ih => exact ⟨hq t c h0 hl.1, ih (hstep t c h0 hl.1) hl.2⟩

end

end Refinement
