import Mathlib

/-!
# Pre- and postconditions of fallible programs

A program that may abort is a value of `Except φ α`.  `Ensures x Q E` says what
every outcome of `x` satisfies: `Q` when it returns, `E` when it fails.  The
rules below follow the shape of the program (`bind`, a test, a bounded loop),
so that a proof about a function is assembled from the proofs about its parts.

`iterate` is the loop `while`/`return` with an explicit bound on the number of
rounds.  `Ensures.iterate` is its invariant rule: a measure that decreases in
every round bounds the rounds, so the time-out is never taken.
-/

namespace Fallible

universe u v w

variable {φ : Type v} {α β : Type u} {σ ρ : Type w}

/-- Every value `x` returns satisfies `Q`, and every failure of `x` satisfies `E`. -/
def Ensures (x : Except φ α) (Q : α → Prop) (E : φ → Prop) : Prop :=
  match x with
  | .ok a => Q a
  | .error e => E e

@[simp] theorem ensures_ok {a : α} {Q : α → Prop} {E : φ → Prop} :
    Ensures (.ok a) Q E ↔ Q a := Iff.rfl

@[simp] theorem ensures_error {e : φ} {Q : α → Prop} {E : φ → Prop} :
    Ensures (.error e : Except φ α) Q E ↔ E e := Iff.rfl

@[simp] theorem ensures_pure {a : α} {Q : α → Prop} {E : φ → Prop} :
    Ensures (pure a) Q E ↔ Q a := Iff.rfl

/-- The postcondition of a program that returned. -/
theorem Ensures.of_ok {x : Except φ α} {Q : α → Prop} {E : φ → Prop} {a : α}
    (h : Ensures x Q E) (hx : x = .ok a) : Q a := by
  rw [hx] at h
  exact h

/-- The condition on the failure of a program that aborted. -/
theorem Ensures.of_error {x : Except φ α} {Q : α → Prop} {E : φ → Prop} {e : φ}
    (h : Ensures x Q E) (hx : x = .error e) : E e := by
  rw [hx] at h
  exact h

/-- A program that cannot fail returns. -/
theorem Ensures.exists_ok {x : Except φ α} {Q : α → Prop}
    (h : Ensures x Q (fun _ => False)) : ∃ a, x = .ok a ∧ Q a := by
  cases x with
  | ok a => exact ⟨a, rfl, h⟩
  | error e => exact h.elim

/-- Consequence. -/
theorem Ensures.mono {x : Except φ α} {Q Q' : α → Prop} {E E' : φ → Prop}
    (h : Ensures x Q E) (hQ : ∀ a, Q a → Q' a) (hE : ∀ e, E e → E' e) :
    Ensures x Q' E' := by
  cases x with
  | ok a => exact hQ a h
  | error e => exact hE e h

/-- Consequence, for the values alone. -/
theorem Ensures.imp_ok {x : Except φ α} {Q Q' : α → Prop} {E : φ → Prop}
    (h : Ensures x Q E) (hQ : ∀ a, Q a → Q' a) : Ensures x Q' E :=
  h.mono hQ (fun _ he => he)

/-- Consequence, for the failures alone. -/
theorem Ensures.imp_error {x : Except φ α} {Q : α → Prop} {E E' : φ → Prop}
    (h : Ensures x Q E) (hE : ∀ e, E e → E' e) : Ensures x Q E' :=
  h.mono (fun _ ha => ha) hE

/-- A program that cannot fail meets every condition on failures. -/
theorem Ensures.total {x : Except φ α} {Q : α → Prop} {E : φ → Prop}
    (h : Ensures x Q (fun _ => False)) : Ensures x Q E :=
  h.imp_error (fun _ => False.elim)

/-- Two postconditions of one program. -/
theorem Ensures.and {x : Except φ α} {Q Q' : α → Prop} {E : φ → Prop}
    (h : Ensures x Q E) (h' : Ensures x Q' E) : Ensures x (fun a => Q a ∧ Q' a) E := by
  cases x with
  | ok a => exact ⟨h, h'⟩
  | error e => exact h

/-- Nothing is asked of the program. -/
theorem Ensures.any (x : Except φ α) : Ensures x (fun _ => True) (fun _ => True) := by
  cases x <;> trivial

/-- Sequential composition. -/
theorem Ensures.bind {x : Except φ α} {f : α → Except φ β}
    {Q : α → Prop} {R : β → Prop} {E : φ → Prop}
    (hx : Ensures x Q E) (hf : ∀ a, Q a → Ensures (f a) R E) :
    Ensures (x >>= f) R E := by
  cases x with
  | ok a => exact hf a hx
  | error e => exact hx

/-- A test whose first branch is a failure. -/
theorem Ensures.guard {c : Prop} [Decidable c] {x : Except φ α} {e : φ}
    {Q : α → Prop} {E : φ → Prop}
    (he : c → E e) (hx : ¬ c → Ensures x Q E) :
    Ensures (if c then .error e else x) Q E := by
  split
  · exact he ‹_›
  · exact hx ‹_›

/-- A failure with another name. -/
theorem Ensures.mapError {ψ : Type v} {x : Except φ α} {Q : α → Prop} {E : φ → Prop}
    {E' : ψ → Prop} {g : φ → ψ} (h : Ensures x Q E) (hE : ∀ e, E e → E' (g e)) :
    Ensures (x.mapError g) Q E' := by
  cases x with
  | ok a => exact h
  | error e => exact hE e h

/-- A two-way test. -/
theorem Ensures.ite {c : Prop} [Decidable c] {x y : Except φ α}
    {Q : α → Prop} {E : φ → Prop}
    (hx : c → Ensures x Q E) (hy : ¬ c → Ensures y Q E) :
    Ensures (if c then x else y) Q E := by
  split
  · exact hx ‹_›
  · exact hy ‹_›

/-- The first part of a composed program returned. -/
@[simp] theorem ok_bind {a : α} {f : α → Except φ β} : (Except.ok a >>= f) = f a := rfl

/-- The result of a composed program is changed where it ends. -/
theorem except_map_bind (x : Except φ α) (f : α → Except φ β) {γ : Type u} (g : β → γ) :
    (x >>= f).map g = x >>= fun a => (f a).map g := by
  cases x <;> rfl

@[simp] theorem except_map_ok (a : α) (g : α → β) : (Except.ok a : Except φ α).map g = .ok (g a) := rfl

theorem except_bind_ok (x : Except φ α) : (x >>= fun a => .ok a) = x := by
  cases x <;> rfl

/-- A composed program returned, so both of its parts did. -/
theorem bind_eq_ok {x : Except φ α} {f : α → Except φ β} {b : β} :
    (x >>= f) = .ok b ↔ ∃ a, x = .ok a ∧ f a = .ok b := by
  cases x with
  | ok a => exact ⟨fun h => ⟨a, rfl, h⟩, fun ⟨_, ha, h⟩ => by cases ha; exact h⟩
  | error e => exact ⟨fun h => (nomatch h), fun ⟨_, ha, _⟩ => nomatch ha⟩

/-! ## Bounded loops -/

/-- Run `body` until it returns a result (`inr`), for at most `fuel` rounds; the
rounds are numbered from `k`.  A loop that uses up its rounds fails with
`timeout`. -/
def iterate (timeout : φ) (body : Nat → σ → Except φ (σ ⊕ ρ)) :
    Nat → Nat → σ → Except φ ρ
  | 0, _, _ => .error timeout
  | fuel + 1, k, s =>
    match body k s with
    | .error e => .error e
    | .ok (.inl s') => iterate timeout body fuel (k + 1) s'
    | .ok (.inr r) => .ok r

/-- **Loop rule.**  `I` is kept by every round, every round that goes on
decreases `m`, and a round that ends or fails gives `Q` or `E`.  Then a loop
with more rounds than `m` allows ends with `Q` or `E`, and never times out. -/
theorem Ensures.iterate {timeout : φ} {body : Nat → σ → Except φ (σ ⊕ ρ)}
    (I : σ → Prop) (m : σ → Nat) {Q : ρ → Prop} {E : φ → Prop}
    (hbody : ∀ k s, I s → Ensures (body k s)
      (Sum.elim (fun s' => I s' ∧ m s' < m s) Q) E) :
    ∀ (fuel k : Nat) (s : σ), I s → m s < fuel →
      Ensures (iterate timeout body fuel k s) Q E := by
  intro fuel
  induction fuel with
  | zero =>
      intro k s _ hm
      exact absurd hm (Nat.not_lt_zero _)
  | succ fuel ih =>
      intro k s hI hm
      have hround := hbody k s hI
      unfold Fallible.iterate
      cases hb : body k s with
      | error e => exact hround.of_error hb
      | ok next =>
          have hnext := hround.of_ok hb
          cases next with
          | inl s' =>
              obtain ⟨hI', hlt⟩ := hnext
              exact ih (k + 1) s' hI' (by omega)
          | inr r => exact hnext

/-- Partial correctness of a loop: where the time-out is a failure like any
other, an invariant is enough. -/
theorem Ensures.iterate_partial {timeout : φ} {body : Nat → σ → Except φ (σ ⊕ ρ)}
    (I : σ → Prop) {Q : ρ → Prop} {E : φ → Prop} (htimeout : E timeout)
    (hbody : ∀ k s, I s → Ensures (body k s) (Sum.elim I Q) E) :
    ∀ (fuel k : Nat) (s : σ), I s →
      Ensures (Fallible.iterate timeout body fuel k s) Q E := by
  intro fuel
  induction fuel with
  | zero =>
      intro k s _
      exact htimeout
  | succ fuel ih =>
      intro k s hI
      have hround := hbody k s hI
      unfold Fallible.iterate
      cases hb : body k s with
      | error e => exact hround.of_error hb
      | ok next =>
          have hnext := hround.of_ok hb
          cases next with
          | inl s' => exact ih (k + 1) s' hnext
          | inr r => exact hnext

end Fallible
