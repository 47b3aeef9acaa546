import Mathlib

/-!
# Custody of numbered resources

Resources are made one after the other and numbered in this order.  Afterwards
they are handed from place to place, changed by `R` on the way, and closed in
the end.  An `Account` is what is left of the places: the resources in them, in
some order, with those that were closed.

`Step.conserved` — no resource is lost or in two places.
`Step.forall_held` — what `R` keeps and new resources have, all of them have.
-/

namespace Custody

variable {α : Type*}

/-- The resources that are held, the numbers of those that were closed, and how
many were made. -/
structure Account (α : Type*) where
  held : List α
  closed : List ℕ
  made : ℕ

/-- One step: resources are handed on, one is made, or one is closed.  `num` is
the number of a resource, and `New n` what the `n`-th is when it is made. -/
inductive Step (num : α → ℕ) (R : α → α → Prop) (New : ℕ → α → Prop) :
    Account α → Account α → Prop
  | hand {xs ys zs : List α} {closed : List ℕ} {made : ℕ} (hperm : xs.Perm ys)
      (hchange : List.Forall₂ R ys zs) : Step num R New ⟨xs, closed, made⟩ ⟨zs, closed, made⟩
  | make {xs ys : List α} {x : α} {closed : List ℕ} {made : ℕ} (hnew : New made x)
      (hperm : ys.Perm (x :: xs)) : Step num R New ⟨xs, closed, made⟩ ⟨ys, closed, made + 1⟩
  | close {xs ys : List α} {x : α} {closed : List ℕ} {made : ℕ} (hperm : xs.Perm (x :: ys)) :
      Step num R New ⟨xs, closed, made⟩ ⟨ys, closed ++ [num x], made⟩

/-- Every resource that was made is held or closed, once. -/
def Account.Conserved (num : α → ℕ) (acc : Account α) : Prop :=
  (acc.held.map num ++ acc.closed).Perm (List.range acc.made)

variable {num : α → ℕ} {R : α → α → Prop} {New : ℕ → α → Prop} {acc acc' : Account α}

/-- What is held has all the numbers that were not closed. -/
theorem Account.Conserved.length (h : acc.Conserved num) :
    acc.held.length + acc.closed.length = acc.made := by
  have hlen := h.length_eq
  rwa [List.length_append, List.length_map, List.length_range] at hlen

/-- A resource is closed once at most, and then it is not held. -/
theorem Account.Conserved.nodup (h : acc.Conserved num) :
    (acc.held.map num ++ acc.closed).Nodup :=
  h.nodup_iff.2 List.nodup_range

/-- Changed resources have the numbers they had. -/
theorem map_num {xs ys : List α} (hR : ∀ x y, R x y → num y = num x)
    (h : List.Forall₂ R xs ys) : ys.map num = xs.map num := by
  induction h with
  | nil => rfl
  | cons hxy _ ih => rw [List.map_cons, List.map_cons, hR _ _ hxy, ih]

/-- Changed resources have what `R` keeps. -/
theorem forall_changed {P : α → Prop} {xs ys : List α} (hR : ∀ x y, R x y → P x → P y)
    (h : List.Forall₂ R xs ys) (hxs : ∀ x ∈ xs, P x) : ∀ y ∈ ys, P y := by
  induction h with
  | nil => exact hxs
  | cons hxy _ ih =>
      rw [List.forall_mem_cons] at hxs ⊢
      exact ⟨hR _ _ hxy hxs.1, ih hxs.2⟩

/-- **Conservation.** -/
theorem Step.conserved (h : Step num R New acc acc') (hR : ∀ x y, R x y → num y = num x)
    (hNew : ∀ n x, New n x → num x = n) (hacc : acc.Conserved num) : acc'.Conserved num := by
  unfold Account.Conserved at hacc ⊢
  cases h with
  | hand hperm hchange =>
      dsimp only at hacc ⊢
      rw [map_num hR hchange]
      exact ((hperm.map num).symm.append_right _).trans hacc
  | @make xs ys x closed made hnew hperm =>
      have hfirst := (hperm.map num).append_right closed
      rw [List.map_cons, List.cons_append, hNew made x hnew] at hfirst
      rw [List.range_succ]
      exact hfirst.trans ((hacc.cons made).trans (List.perm_append_singleton _ _).symm)
  | @close xs ys x closed made hperm =>
      have hfirst := (hperm.map num).append_right closed
      rw [List.map_cons, List.cons_append] at hfirst
      rw [← List.append_assoc]
      exact (List.perm_append_singleton _ _).trans (hfirst.symm.trans hacc)

/-- **A property of all resources.** -/
theorem Step.forall_held {P : α → Prop} (h : Step num R New acc acc')
    (hR : ∀ x y, R x y → P x → P y) (hNew : ∀ n x, New n x → P x)
    (hacc : ∀ x ∈ acc.held, P x) : ∀ x ∈ acc'.held, P x := by
  cases h with
  | hand hperm hchange =>
      apply forall_changed hR hchange
      intro y hy
      exact hacc y (hperm.mem_iff.2 hy)
  | make hnew hperm =>
      intro y hy
      rcases List.mem_cons.1 (hperm.mem_iff.1 hy) with rfl | hy
      · exact hNew _ _ hnew
      · exact hacc y hy
  | @close xs ys x closed made hperm =>
      intro y hy
      exact hacc y (hperm.mem_iff.2 (List.mem_cons_of_mem x hy))

end Custody
