import MonkeyCache.Lib.Chunks

/-!
# Blocks of memory and the strings in them

A block is the list of its cells.  `overwrite` copies cells into a block, from a
position on, and `slice` reads them back: what was written is read, and what lies
apart from it is as it was.  `resize` cuts a block off or adds cells to it, and
keeps those in front.  A string in a block ends in front of the first cell
that holds `nul`; `cstr` reads it.
-/

namespace Memory

open Chunks

variable {α : Type*}

/-! ## Cells -/

/-- The block after `src` was copied to position `i`. -/
def overwrite (mem : List α) (i : ℕ) (src : List α) : List α :=
  mem.take i ++ src ++ mem.drop (i + src.length)

variable {mem src : List α} {i a n : ℕ}

theorem length_overwrite (h : i + src.length ≤ mem.length) :
    (overwrite mem i src).length = mem.length := by
  unfold overwrite
  rw [List.length_append, List.length_append, List.length_take, List.length_drop]
  omega

/-- What was written is read. -/
theorem slice_overwrite_self (h : i ≤ mem.length) :
    slice (overwrite mem i src) i src.length = src := by
  have hlen : (mem.take i).length = i := List.length_take_of_le h
  unfold slice overwrite
  rw [List.append_assoc, List.drop_append_of_le_length hlen.ge, List.drop_eq_nil_of_le hlen.le,
    List.nil_append, List.take_left]

/-- Cells in front of a write. -/
theorem slice_overwrite_before (h : i ≤ mem.length) (ha : a + n ≤ i) :
    slice (overwrite mem i src) a n = slice mem a n := by
  have hlen : (mem.take i).length = i := List.length_take_of_le h
  unfold slice overwrite
  rw [List.append_assoc, List.drop_append_of_le_length (by omega),
    List.take_append_of_le_length (by rw [List.length_drop]; omega), List.drop_take, List.take_take,
    min_eq_left (by omega)]

/-- Cells behind a write. -/
theorem slice_overwrite_behind (h : i ≤ mem.length) (ha : i + src.length ≤ a) :
    slice (overwrite mem i src) a n = slice mem a n := by
  have hlen : (mem.take i ++ src).length = i + src.length := by
    rw [List.length_append, List.length_take_of_le h]
  unfold slice overwrite
  rw [List.drop_append, List.drop_eq_nil_of_le (by omega), List.nil_append, List.drop_drop, hlen,
    Nat.add_sub_cancel' ha]

/-- The block with `n` cells; new ones hold `fresh`. -/
def resize (fresh : α) (mem : List α) (n : ℕ) : List α :=
  mem.take n ++ List.replicate (n - mem.length) fresh

theorem length_resize (fresh : α) : (resize fresh mem n).length = n := by
  unfold resize
  rw [List.length_append, List.length_take, List.length_replicate]
  omega

/-- Cells that both blocks have. -/
theorem slice_resize {m : ℕ} (fresh : α) (ha : a + n ≤ mem.length) (hm : a + n ≤ m) :
    slice (resize fresh mem m) a n = slice mem a n := by
  have hlen : (mem.take m).length = min m mem.length := List.length_take
  unfold slice resize
  rw [List.drop_append_of_le_length (by omega),
    List.take_append_of_le_length (by rw [List.length_drop]; omega), List.drop_take, List.take_take,
    min_eq_left (by omega)]

/-! ## Strings -/

variable [DecidableEq α] {nul : α} {s : List α}

/-- The string at the start of the block. -/
def cstr (nul : α) (mem : List α) : List α := mem.takeWhile (fun x => x ≠ nul)

/-- Cells that are not `nul` belong to the string. -/
theorem cstr_append (hs : nul ∉ s) (rest : List α) : cstr nul (s ++ rest) = s ++ cstr nul rest := by
  unfold cstr
  apply List.takeWhile_append_of_pos
  intro x hx
  rw [decide_eq_true_iff]
  intro heq
  exact hs (heq ▸ hx)

theorem cstr_cons_nul (rest : List α) : cstr nul (nul :: rest) = [] := by
  simp [cstr]

/-- **A string and its terminator.** -/
theorem cstr_eq_of_nul (hs : nul ∉ s) (rest : List α) : cstr nul (s ++ nul :: rest) = s := by
  rw [cstr_append hs, cstr_cons_nul, List.append_nil]

/-- A string inside a block is followed by its terminator. -/
theorem cstr_eq_iff (hs : nul ∉ s) (hlen : s.length < mem.length) :
    cstr nul mem = s ↔ s <+: mem ∧ mem[s.length]? = some nul := by
  constructor
  · intro h
    obtain ⟨rest, hmem⟩ : s <+: mem := h ▸ List.takeWhile_prefix _
    refine ⟨⟨rest, hmem⟩, ?_⟩
    rw [← hmem] at h hlen ⊢
    rw [cstr_append hs] at h
    have hempty : cstr nul rest = [] := List.append_cancel_left (h.trans (List.append_nil s).symm)
    rw [List.length_append] at hlen
    cases rest with
    | nil =>
        rw [List.length_nil] at hlen
        omega
    | cons x rest =>
        have hx : x = nul := by
          by_contra hne
          simp [cstr, hne] at hempty
        simp [hx]
  · intro h
    obtain ⟨⟨rest, hmem⟩, hnul⟩ := h
    rw [← hmem, List.getElem?_append_right le_rfl, Nat.sub_self] at hnul
    cases rest with
    | nil => cases hnul
    | cons x rest =>
        have hx : x = nul := by simpa using hnul
        rw [← hmem, hx, cstr_eq_of_nul hs]

end Memory
