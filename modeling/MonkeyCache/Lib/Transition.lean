import Mathlib

/-!
# Runs of a labelled transition system

A system is a relation `R s e s'`: event `e` can take state `s` to `s'`.  Its
runs are the reflexive transitive closure, so an invariant is proved once for a
step and holds in every state a run reaches.  `guarded P R` keeps the steps of
`R` whose event and state before the step satisfy `P`; a theorem about every run
whose steps all meet a condition is a theorem about the guarded system.

Programs give deterministic systems: `stepRel f` is the relation of a step
function that may abort and that reports something about the step.
-/

namespace Transition

variable {σ ε φ ο : Type*}

/-- Some run leads from `s₀` to `s`. -/
def Reachable (R : σ → ε → σ → Prop) (s₀ s : σ) : Prop :=
  Relation.ReflTransGen (fun a b => ∃ e, R a e b) s₀ s

/-- The steps of `R` taken in a state and with an event that satisfy `P`. -/
def guarded (P : σ → ε → Prop) (R : σ → ε → σ → Prop) : σ → ε → σ → Prop :=
  fun s e s' => P s e ∧ R s e s'

/-- The steps of a program that returns the next state and a report. -/
def stepRel (step : σ → ε → Except φ (ο × σ)) : σ → ε → σ → Prop :=
  fun s e s' => ∃ o, step s e = .ok (o, s')

variable {R R' : σ → ε → σ → Prop} {s₀ s s' : σ} {e : ε}

/-- Every state is reached from itself. -/
theorem Reachable.init : Reachable R s₀ s₀ := Relation.ReflTransGen.refl

/-- One step more is reached too. -/
theorem Reachable.step (h : Reachable R s₀ s) (he : R s e s') : Reachable R s₀ s' :=
  Relation.ReflTransGen.tail h ⟨e, he⟩

/-- Runs are joined end to end. -/
theorem Reachable.trans {s₁ : σ} (h : Reachable R s₀ s₁) (h' : Reachable R s₁ s) :
    Reachable R s₀ s :=
  Relation.ReflTransGen.trans h h'

/-- **Invariant rule.**  What holds initially and is kept by every step out of a
reachable state holds in every reachable state. -/
theorem Reachable.invariant (I : σ → Prop) (hinit : I s₀)
    (hstep : ∀ s e s', Reachable R s₀ s → I s → R s e s' → I s')
    (h : Reachable R s₀ s) : I s := by
  induction h with
  | refl => exact hinit
  | tail hreach he ih =>
      obtain ⟨e, he⟩ := he
      exact hstep _ e _ hreach ih he

/-- A system with more steps reaches more states. -/
theorem Reachable.mono (hR : ∀ s e s', R s e s' → R' s e s')
    (h : Reachable R s₀ s) : Reachable R' s₀ s := by
  refine h.invariant (fun s => Reachable R' s₀ s) .init ?_
  intro a e b _ ih hab
  exact ih.step (hR a e b hab)

/-- Run a list of events; the reports are dropped. -/
def exec (step : σ → ε → Except φ (ο × σ)) : σ → List ε → Except φ σ
  | s, [] => .ok s
  | s, e :: es =>
    match step s e with
    | .error f => .error f
    | .ok (_, s') => exec step s' es

/-- A run computed by `exec` whose events all satisfy a guard is a run of the
guarded system. -/
theorem Reachable.of_exec {step : σ → ε → Except φ (ο × σ)} {P : σ → ε → Prop}
    (es : List ε) (hP : ∀ e ∈ es, ∀ s, P s e) (h : exec step s₀ es = .ok s) :
    Reachable (guarded P (stepRel step)) s₀ s := by
  induction es generalizing s₀ with
  | nil =>
      cases h
      exact .init
  | cons e es ih =>
      unfold exec at h
      cases hs : step s₀ e with
      | error f =>
          rw [hs] at h
          cases h
      | ok next =>
          rw [hs] at h
          have hfirst : guarded P (stepRel step) s₀ e next.2 :=
            ⟨hP e (by simp) s₀, next.1, hs⟩
          have hrest := ih (fun e' he' => hP e' (by simp [he'])) h
          exact (Reachable.init.step hfirst).trans hrest

end Transition
