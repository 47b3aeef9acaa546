import Mathlib

/-!
# A list cut into chunks

`slice xs a n` is the part of `xs` of length (at most) `n` that starts at `a`.
`chunk c xs i` is the `i`-th piece of `xs` cut into pieces of `c` items, and
`count c n` is the number of pieces of a list of length `n`.
-/

namespace Chunks

variable {α : Type*}

/-- `n` items of `xs` from position `a` on. -/
def slice (xs : List α) (a n : Nat) : List α := (xs.drop a).take n

/-- A slice is short only at the end of the list. -/
@[simp] theorem length_slice (xs : List α) (a n : Nat) :
    (slice xs a n).length = min n (xs.length - a) := by
  simp [slice]

/-- A slice of no elements is empty. -/
@[simp] theorem slice_zero (xs : List α) (a : Nat) : slice xs a 0 = [] := by
  simp [slice]

/-- The start of a slice is a shorter slice. -/
theorem take_slice (xs : List α) (a n k : Nat) :
    (slice xs a n).take k = slice xs a (min k n) := by
  simp [slice, List.take_take]

/-- Adjacent slices join. -/
theorem slice_append_slice (xs : List α) (a m n : Nat) :
    slice xs a m ++ slice xs (a + m) n = slice xs a (m + n) := by
  unfold slice
  rw [List.take_add, List.drop_drop]

/-- A prefix is extended by the slice that follows it. -/
theorem take_append_slice (xs : List α) (a n : Nat) :
    xs.take a ++ slice xs a n = xs.take (a + n) := by
  unfold slice
  rw [List.take_add]

/-- The number of pieces of `c` items that hold `n` items. -/
def count (c n : Nat) : Nat := (n + c - 1) / c

variable {c n i : Nat}

/-- Nothing needs no chunk. -/
theorem count_zero (hc : 0 < c) : count c 0 = 0 := by
  unfold count
  exact Nat.div_eq_of_lt (by omega)

/-- Something needs a chunk. -/
theorem count_pos (hc : 0 < c) (hn : 0 < n) : 0 < count c n := by
  unfold count
  exact Nat.div_pos (by omega) hc

/-- Taking one full piece away leaves one piece less. -/
theorem count_sub (hc : 0 < c) (hn : 0 < n) : count c n = count c (n - c) + 1 := by
  unfold count
  by_cases h : n ≤ c
  · rw [Nat.sub_eq_zero_of_le h, Nat.div_eq_of_lt (a := 0 + c - 1) (by omega)]
    exact Nat.div_eq_of_lt_le (by omega) (by omega)
  · have hsplit : n + c - 1 = (n - c + c - 1) + c := by omega
    rw [hsplit, Nat.add_div_right _ hc]

/-- A piece starts inside the list. -/
theorem mul_lt_of_lt_count (hc : 0 < c) (hi : i < count c n) : i * c < n := by
  unfold count at hi
  have h := (Nat.le_div_iff_mul_le hc).1 hi
  rw [Nat.succ_mul] at h
  omega

/-- Past the last piece there is nothing left. -/
theorem le_mul_of_count_le (hc : 0 < c) (hi : count c n ≤ i) : n ≤ i * c := by
  unfold count at hi
  have h := (Nat.div_lt_iff_lt_mul hc).1 (Nat.lt_succ_of_le hi)
  rw [Nat.succ_mul] at h
  omega

end Chunks
