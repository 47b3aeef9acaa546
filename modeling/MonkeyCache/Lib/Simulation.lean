import Mathlib

/-!
# Answers of a component and forward simulation

A component is a function `step` that answers a call and moves to the next
state, or fails.  What it should do is said by a second one, which cannot fail.
`run` and `answers` make a list of calls, and `Meets P` says that every call
satisfies `P` in the state in which it is made.

`Simulates P` is the obligation for one call: from related states, a call that
satisfies `P` is answered as it should be and leads to related states again.
`Simulates.run` carries it through every list of calls.

`Returns Q` says that every call returns, and leaves a state that satisfies `Q`.
Where `P` is just what one call needs for that, `Meets P` is what a list needs
(`returns_iff_meets`), also among the calls of some domain
(`returns_iff_meets_on`).  `paired` runs the component beside what it should be,
so that `Q` can compare the two.
-/

namespace Simulation

variable {σ τ ι ο : Type*} {φ : Type*}

/-- The answers to a list of calls, and the state after them. -/
def run (step : σ → ι → Except φ (ο × σ)) : σ → List ι → Except φ (List ο × σ)
  | s, [] => .ok ([], s)
  | s, c :: cs =>
    match step s c with
    | .error e => .error e
    | .ok (out, s') =>
      match run step s' cs with
      | .error e => .error e
      | .ok (outs, s'') => .ok (out :: outs, s'')

/-- The answers of a component that cannot fail. -/
def answers (step : τ → ι → ο × τ) : τ → List ι → List ο × τ
  | t, [] => ([], t)
  | t, c :: cs =>
    let out := step t c
    let rest := answers step out.2 cs
    (out.1 :: rest.1, rest.2)

/-- Every call satisfies `P` in the state in which it is made. -/
def Meets (P : σ → ι → Prop) (step : σ → ι → Except φ (ο × σ)) : σ → List ι → Prop
  | _, [] => True
  | s, c :: cs => P s c ∧ ∀ out s', step s c = .ok (out, s') → Meets P step s' cs

/-- Every call returns and leaves a state that satisfies `Q`. -/
def Returns (Q : σ → Prop) (step : σ → ι → Except φ (ο × σ)) : σ → List ι → Prop
  | _, [] => True
  | s, c :: cs => ∃ out s', step s c = .ok (out, s') ∧ Q s' ∧ Returns Q step s' cs

/-- A call that satisfies `P` is answered as `spec` answers it, and keeps `R`. -/
def Simulates (P : σ → ι → Prop) (step : σ → ι → Except φ (ο × σ)) (spec : τ → ι → ο × τ)
    (R : σ → τ → Prop) : Prop :=
  ∀ s t c, R s t → P s c →
    ∃ s', step s c = .ok ((spec t c).1, s') ∧ R s' (spec t c).2

variable {P : σ → ι → Prop} {step : σ → ι → Except φ (ο × σ)} {spec : τ → ι → ο × τ}
  {R : σ → τ → Prop}

/-- **Simulation.**  Calls that satisfy `P` are all answered as they should be. -/
theorem Simulates.run (h : Simulates P step spec R) :
    ∀ (cs : List ι) (s : σ) (t : τ), R s t → Meets P step s cs →
      ∃ s', Simulation.run step s cs = .ok ((answers spec t cs).1, s') ∧
        R s' (answers spec t cs).2 := by
  intro cs
  induction cs with
  | nil =>
      intro s t hR _
      exact ⟨s, rfl, hR⟩
  | cons c cs ih =>
      intro s t hR hmeets
      obtain ⟨hP, hrest⟩ := hmeets
      obtain ⟨s', hstep, hR'⟩ := h s t c hR hP
      obtain ⟨s'', hrun, hR''⟩ := ih s' (spec t c).2 hR' (hrest _ _ hstep)
      refine ⟨s'', ?_, hR''⟩
      unfold Simulation.run
      rw [hstep]
      dsimp only
      rw [hrun]
      rfl

/-- The component beside what it should be, which moves by `spec`. -/
def paired (step : σ → ι → Except φ (ο × σ)) (spec : τ → ι → τ) (s : σ × τ) (c : ι) :
    Except φ (ο × (σ × τ)) :=
  match step s.1 c with
  | .error e => .error e
  | .ok (out, s') => .ok (out, s', spec s.2 c)

theorem paired_eq_ok {move : τ → ι → τ} {s : σ × τ} {c : ι} {out : ο} {s' : σ × τ} :
    paired step move s c = .ok (out, s') ↔
      step s.1 c = .ok (out, s'.1) ∧ s'.2 = move s.2 c := by
  unfold paired
  cases step s.1 c with
  | error e => simp
  | ok p =>
      constructor
      · intro h
        cases h
        exact ⟨rfl, rfl⟩
      · intro h
        obtain ⟨hok, hmove⟩ := h
        cases hok
        dsimp only
        rw [← hmove]

/-- **Exact condition**, from one call to lists of calls of the domain `D`. -/
theorem returns_iff_meets_on {Q : σ → Prop} {D : σ → ι → Prop}
    (h : ∀ s c, Q s → D s c → ((∃ out s', step s c = .ok (out, s') ∧ Q s') ↔ P s c)) :
    ∀ (cs : List ι) (s : σ), Q s → Meets D step s cs →
      (Returns Q step s cs ↔ Meets P step s cs) := by
  intro cs
  induction cs with
  | nil =>
      intro s _ _
      exact Iff.rfl
  | cons c cs ih =>
      intro s hQ hdomain
      obtain ⟨hD, hnext⟩ := hdomain
      constructor
      · intro hreturns
        obtain ⟨out, s', hstep, hQ', hrest⟩ := hreturns
        refine ⟨(h s c hQ hD).1 ⟨out, s', hstep, hQ'⟩, ?_⟩
        intro out₁ s₁ hstep₁
        cases hstep.symm.trans hstep₁
        exact (ih s' hQ' (hnext out s' hstep)).1 hrest
      · intro hmeets
        obtain ⟨hP, hrest⟩ := hmeets
        obtain ⟨out, s', hstep, hQ'⟩ := (h s c hQ hD).2 hP
        exact ⟨out, s', hstep, hQ', (ih s' hQ' (hnext out s' hstep)).2 (hrest out s' hstep)⟩

/-- What holds of every call is met. -/
theorem meets_of_forall (h : ∀ s c, P s c) : ∀ (cs : List ι) (s : σ), Meets P step s cs := by
  intro cs
  induction cs with
  | nil =>
      intro s
      trivial
  | cons c cs ih =>
      intro s
      exact ⟨h s c, fun _ s' _ => ih s'⟩

/-- **Exact condition.**  From one call to lists of calls. -/
theorem returns_iff_meets {Q : σ → Prop}
    (h : ∀ s c, Q s → ((∃ out s', step s c = .ok (out, s') ∧ Q s') ↔ P s c))
    (cs : List ι) (s : σ) (hQ : Q s) : Returns Q step s cs ↔ Meets P step s cs :=
  returns_iff_meets_on (D := fun _ _ => True) (fun s c hQ _ => h s c hQ) cs s hQ
    (meets_of_forall (fun _ _ => trivial) cs s)

end Simulation
