import Mathlib

/-!
# Numbers handed out in order

Whoever asks gets the next number.  `Handed next number` says that the numbers below
`next` were handed out, each to one holder, and that nobody has another one.

`Handed.give` — the next number goes to somebody who has none.
`Handed.lt_card` — while somebody has none, there are more holders than numbers.
-/

namespace Tickets

variable {ω : Type*}

/-- The numbers below `next` are handed out, each once. -/
structure Handed (next : ℕ) (number : ω → Option ℕ) : Prop where
  below : ∀ w n, number w = some n → n < next
  distinct : ∀ v w n, number v = some n → number w = some n → v = w
  taken : ∀ n < next, ∃ w, number w = some n

variable {next : ℕ} {number : ω → Option ℕ} {w : ω}

/-- Nobody has a number yet. -/
theorem Handed.zero : Handed 0 (fun _ : ω => none) := by
  constructor
  · intro w n hn
    cases hn
  · intro v w n hn
    cases hn
  · intro n hn
    omega

/-- **The next number** is given to somebody who has none. -/
theorem Handed.give [DecidableEq ω] (h : Handed next number) (hw : number w = none) :
    Handed (next + 1) (Function.update number w (some next)) := by
  have hold : ∀ v n, v ≠ w → Function.update number w (some next) v = some n →
      number v = some n := by
    intro v n hv hn
    rwa [Function.update_of_ne hv] at hn
  have hself : ∀ n, Function.update number w (some next) w = some n → n = next := by
    intro n hn
    rw [Function.update_self] at hn
    exact (Option.some.inj hn).symm
  constructor
  · intro v n hn
    by_cases hv : v = w
    · subst hv
      have := hself n hn
      omega
    · have := h.below v n (hold v n hv hn)
      omega
  · intro u v n hu hv
    by_cases huw : u = w
    · by_cases hvw : v = w
      · rw [huw, hvw]
      · subst huw
        have hlt := h.below v n (hold v n hvw hv)
        have := hself n hu
        omega
    · by_cases hvw : v = w
      · subst hvw
        have hlt := h.below u n (hold u n huw hu)
        have := hself n hv
        omega
      · exact h.distinct u v n (hold u n huw hu) (hold v n hvw hv)
  · intro n hn
    by_cases heq : n = next
    · exact ⟨w, by rw [Function.update_self, heq]⟩
    · obtain ⟨v, hv⟩ := h.taken n (by omega)
      have hvw : v ≠ w := by
        intro hvw
        rw [hvw, hw] at hv
        cases hv
      exact ⟨v, by rw [Function.update_of_ne hvw, hv]⟩

/-- **Somebody without a number** is one more than the numbers. -/
theorem Handed.lt_card [Fintype ω] (h : Handed next number) (hw : number w = none) :
    next < Fintype.card ω := by
  choose f hf using fun n : Fin next => h.taken n n.isLt
  have hinj : Function.Injective f := by
    intro a b hab
    have hsome : some (a : ℕ) = some (b : ℕ) := by
      rw [← hf a, ← hf b, hab]
    exact Fin.ext (Option.some.inj hsome)
  have hout : w ∉ Set.range f := by
    rintro ⟨n, rfl⟩
    rw [hf n] at hw
    cases hw
  have hcard := Fintype.card_lt_of_injective_of_notMem f hinj hout
  rwa [Fintype.card_fin] at hcard

end Tickets
