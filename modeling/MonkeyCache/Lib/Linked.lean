import Mathlib

/-!
# Blocks on a heap and doubly linked lists

A heap maps the addresses in use to the blocks behind them.  Reading, changing
or freeing a block that is not in use is a fault, and following a `NULL` is
another.  A `Backend` answers a request for a block: it may refuse, and it never
hands out an address in use.

`Chain next prev p xs` says that the cells `xs` are linked in both directions,
and that the cell before the first one is `p`.  The links are functions of the
address, so one block can be a cell of several lists.  `Chain.push` and
`Chain.remove` say which links an insertion at the head and a removal have to
change, and that no other link matters.
-/

namespace Linked

universe u

/-! ## The heap -/

/-- The address of a block. -/
abbrev Ptr := Nat

/-- What can go wrong with a pointer. -/
inductive HeapFault
  /-- a `NULL` is followed -/
  | null
  /-- an address that is not in use is read, written or freed -/
  | dangling
  /-- an array is accessed outside of its bounds -/
  | bounds
  /-- a loop over links was cut short -/
  | timeout
  deriving DecidableEq, Repr

variable {β : Type u}

/-- The blocks in use, by address. -/
abbrev Heap (β : Type u) := Ptr → Option β

/-- Read a block. -/
def Heap.read (h : Heap β) (p : Ptr) : Except HeapFault β :=
  match h p with
  | some b => .ok b
  | none => .error .dangling

/-- Change a block in place. -/
def Heap.modify (h : Heap β) (p : Ptr) (f : β → β) : Except HeapFault (Heap β) :=
  match h p with
  | some b => .ok (Function.update h p (some (f b)))
  | none => .error .dangling

/-- Change the block behind a pointer that may be `NULL`; then nothing happens. -/
def Heap.modify? (h : Heap β) (p : Option Ptr) (f : β → β) : Except HeapFault (Heap β) :=
  match p with
  | some p => h.modify p f
  | none => .ok h

/-- Give a block back. -/
def Heap.free (h : Heap β) (p : Ptr) : Except HeapFault (Heap β) :=
  match h p with
  | some _ => .ok (Function.update h p none)
  | none => .error .dangling

/-- What the allocator answers during one call. -/
structure Backend (β : Type u) where
  pick : Heap β → Option Ptr
  /-- a block is handed out once -/
  fresh : ∀ h a, pick h = some a → h a = none

/-- An allocator with `n` blocks. -/
def Backend.pool (β : Type u) (n : Nat) : Backend β where
  pick h := (List.range n).find? (fun a => (h a).isNone)
  fresh _ _ ha := by simpa using List.find?_some ha

/-- It refuses nothing before it is exhausted. -/
theorem Backend.pool_isSome {h : Heap β} {as : List Ptr} {n : Nat}
    (hmem : ∀ a, (h a).isSome → a ∈ as) (hlen : as.length < n) :
    ((Backend.pool β n).pick h).isSome := by
  rw [Option.isSome_iff_ne_none]
  intro hnone
  have hsub : List.range n ⊆ as := by
    intro a ha
    have hno := List.find?_eq_none.1 hnone a ha
    apply hmem a
    simpa [Option.isSome_iff_ne_none] using hno
  have hle := (List.subperm_of_subset List.nodup_range hsub).length_le
  rw [List.length_range] at hle
  omega

theorem Heap.read_ok {h : Heap β} {p : Ptr} {b : β} (hp : h p = some b) : h.read p = .ok b := by
  unfold read
  rw [hp]

theorem Heap.modify_ok {h : Heap β} {p : Ptr} {b : β} (hp : h p = some b) (f : β → β) :
    h.modify p f = .ok (Function.update h p (some (f b))) := by
  unfold modify
  rw [hp]

theorem Heap.free_ok {h : Heap β} {p : Ptr} {b : β} (hp : h p = some b) :
    h.free p = .ok (Function.update h p none) := by
  unfold free
  rw [hp]

/-- **Change behind a pointer**, seen block by block. -/
theorem Heap.modify?_ok {h : Heap β} {p : Option Ptr} (hp : ∀ a ∈ p, (h a).isSome) (f : β → β) :
    ∃ h', h.modify? p f = .ok h' ∧ ∀ a, h' a = if p = some a then (h a).map f else h a := by
  cases p with
  | none => exact ⟨h, rfl, fun a => by simp⟩
  | some p =>
      obtain ⟨b, hb⟩ := Option.isSome_iff_exists.1 (hp p rfl)
      refine ⟨_, Heap.modify_ok hb f, fun a => ?_⟩
      by_cases ha : p = a
      · subst ha
        simp [hb]
      · rw [Function.update_of_ne (Ne.symm ha), if_neg (by simpa using ha)]

/-! ## Chains -/

variable {α : Type u} {next prev next' prev' : α → Option α} {p n p' n' : Option α} {x : α}
  {xs ys : List α}

/-- The cells `xs` are linked one behind the other; `p` comes before them and `n`
after them. -/
def Chain (next prev : α → Option α) : Option α → List α → Option α → Prop
  | _, [], _ => True
  | p, x :: xs, n => prev x = p ∧ next x = xs.head?.or n ∧ Chain next prev (some x) xs n

theorem Chain.congr (h : Chain next prev p xs n) (hnext : ∀ y ∈ xs, next' y = next y)
    (hprev : ∀ y ∈ xs, prev' y = prev y) : Chain next' prev' p xs n := by
  induction xs generalizing p with
  | nil => trivial
  | cons x xs ih =>
      obtain ⟨hp, hn, htail⟩ := h
      refine ⟨(hprev x (by simp)).trans hp, (hnext x (by simp)).trans hn, ih htail ?_ ?_⟩
      · intro y hy
        exact hnext y (by simp [hy])
      · intro y hy
        exact hprev y (by simp [hy])

/-- Two stretches, one behind the other. -/
theorem chain_append : Chain next prev p (xs ++ ys) n ↔
    Chain next prev p xs (ys.head?.or n) ∧ Chain next prev (xs.getLast?.or p) ys n := by
  induction xs generalizing p with
  | nil => simp [Chain]
  | cons x xs ih =>
      have hlast : (x :: xs).getLast?.or p = xs.getLast?.or (some x) := by
        rw [List.getLast?_cons]
        cases xs.getLast? <;> rfl
      have hhead : (xs ++ ys).head?.or n = xs.head?.or (ys.head?.or n) := by
        rw [List.head?_append, Option.or_assoc]
      rw [List.cons_append, hlast]
      simp only [Chain]
      rw [ih, hhead]
      tauto

/-- The links of a cell in the middle. -/
theorem Chain.middle (h : Chain next prev p (xs ++ x :: ys) n) :
    prev x = xs.getLast?.or p ∧ next x = ys.head?.or n := by
  obtain ⟨-, hx, hn, -⟩ := chain_append.1 h
  exact ⟨hx, hn⟩

/-- Another cell behind the last one. -/
theorem Chain.after (h : Chain next prev p xs n) (hnd : xs.Nodup)
    (hlast : ∀ y ∈ xs.getLast?, next' y = n') (hnext : ∀ y ∈ xs, xs.getLast? ≠ some y →
      next' y = next y) (hprev : ∀ y ∈ xs, prev' y = prev y) : Chain next' prev' p xs n' := by
  rcases List.eq_nil_or_concat xs with hnil | ⟨zs, z, hconcat⟩
  · subst hnil
    trivial
  · rw [List.concat_eq_append] at hconcat
    subst hconcat
    have hz : z ∉ zs := by
      intro hmem
      exact (List.nodup_append.1 hnd).2.2 z hmem z (by simp) rfl
    obtain ⟨hzs, hpz, -, -⟩ := chain_append.1 h
    refine chain_append.2 ⟨?_, ?_, ?_, trivial⟩
    · refine Chain.congr hzs ?_ ?_
      · intro y hy
        refine hnext y (by simp [hy]) ?_
        intro heq
        have hyz : y = z := by simpa using heq.symm
        exact hz (hyz ▸ hy)
      · intro y hy
        exact hprev y (by simp [hy])
    · rw [hprev z (by simp), hpz]
    · simpa using hlast z (by simp)

/-- Another cell before the first one. -/
theorem Chain.before (h : Chain next prev p xs n) (hnd : xs.Nodup)
    (hhead : ∀ y ∈ xs.head?, prev' y = p') (hnext : ∀ y ∈ xs, next' y = next y)
    (hprev : ∀ y ∈ xs, xs.head? ≠ some y → prev' y = prev y) : Chain next' prev' p' xs n := by
  cases xs with
  | nil => trivial
  | cons x xs =>
      obtain ⟨-, hn, htail⟩ := h
      refine ⟨hhead x rfl, (hnext x (by simp)).trans hn, Chain.congr htail ?_ ?_⟩
      · intro y hy
        exact hnext y (by simp [hy])
      · intro y hy
        refine hprev y (by simp [hy]) ?_
        intro heq
        have hxy : x = y := by simpa using heq
        exact (List.nodup_cons.1 hnd).1 (hxy ▸ hy)

variable [DecidableEq α]

/-- **Insertion at the head.** -/
theorem Chain.push (h : Chain next prev none xs n) (hnd : xs.Nodup)
    (hxn : next' x = xs.head?.or n) (hxp : prev' x = none) (hnext : ∀ y ∈ xs, next' y = next y)
    (hprev : ∀ y ∈ xs, prev' y = if xs.head? = some y then some x else prev y) :
    Chain next' prev' none (x :: xs) n := by
  refine ⟨hxp, hxn, h.before hnd ?_ hnext ?_⟩
  · intro y hy
    have hhead : xs.head? = some y := hy
    rw [hprev y (List.mem_of_mem_head? hy), if_pos hhead]
  · intro y hy hne
    rw [hprev y hy, if_neg hne]

/-- **Removal**, from anywhere: the neighbours are linked with each other. -/
theorem Chain.remove (h : Chain next prev p (xs ++ x :: ys) n) (hnd : (xs ++ x :: ys).Nodup)
    (hnext : ∀ y ∈ xs ++ ys, next' y = if xs.getLast? = some y then ys.head?.or n else next y)
    (hprev : ∀ y ∈ xs ++ ys, prev' y = if ys.head? = some y then xs.getLast?.or p else prev y) :
    Chain next' prev' p (xs ++ ys) n := by
  obtain ⟨hxs, -, -, hys⟩ := chain_append.1 h
  obtain ⟨hndx, hndxy, hdisj⟩ := List.nodup_append.1 hnd
  have hndy : ys.Nodup := (List.nodup_cons.1 hndxy).2
  have hapart : ∀ y ∈ xs, y ∉ ys := by
    intro y hy hmem
    exact hdisj y hy y (by simp [hmem]) rfl
  refine chain_append.2 ⟨hxs.after hndx ?_ ?_ ?_, hys.before hndy ?_ ?_ ?_⟩
  · intro y hy
    have hlast : xs.getLast? = some y := hy
    rw [hnext y (by simp [List.mem_of_getLast? hlast]), if_pos hlast]
  · intro y hy hne
    rw [hnext y (by simp [hy]), if_neg hne]
  · intro y hy
    rw [hprev y (by simp [hy]), if_neg]
    intro hhead
    exact hapart y hy (List.mem_of_mem_head? hhead)
  · intro y hy
    have hhead : ys.head? = some y := hy
    rw [hprev y (by simp [List.mem_of_mem_head? hy]), if_pos hhead]
  · intro y hy
    rw [hnext y (by simp [hy]), if_neg]
    intro hlast
    exact hapart y (List.mem_of_getLast? hlast) hy
  · intro y hy hne
    rw [hprev y (by simp [hy]), if_neg hne]

end Linked
