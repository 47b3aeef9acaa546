import MonkeyCache.Kernel
import MonkeyCache.Lib.Memory
import MonkeyCache.Lib.Simulation

/-!
# The growable buffer of `utils.c`

A `buf_t` is a block of `cap` items, of which the first `size` are in use.
`buf_push` doubles `size` when the block is full, and twice nothing is nothing:
into an empty buffer without capacity it writes outside of the block.  So does a
buffer that was reset and compacted.

* `Buf.Holds` — the items in use are a list, and the block has room for `cap`.
* `Buf.HasRoom` — what a call needs: a push finds room or something to double.
* `buf_list` — a buffer behaves as a list if and only if every push has that.

Products of `int`s that overflow are failures, and so are accesses outside of a
block; allocation never fails.
-/

namespace MonkeyCache

open Chunks Fallible Memory Simulation

/-! ## The code -/

/-- A byte of memory; nobody wrote it where it is `none`. -/
abbrev Cell := Option Byte

/-- How a function on a buffer goes wrong. -/
inductive BufFault
  /-- a cell outside of the block is read or written -/
  | outOfBounds
  /-- an `int` overflows -/
  | overflow
  deriving DecidableEq, Repr

/-- A product of two `int`s. -/
def intMul (a b : Nat) : Except BufFault Nat :=
  if a * b < 2 ^ 31 then .ok (a * b) else .error .overflow

/-- `malloc` -/
def malloc (n : Nat) : List Cell := List.replicate n none

/-- `realloc` -/
def realloc (data : List Cell) (n : Nat) : List Cell := resize none data n

/-- `struct buf_t`; `data` is `none` where it is `(void *) -1`. -/
structure Buf where
  data : Option (List Cell)
  valueSize : Nat
  size : Nat
  cap : Nat
  deriving DecidableEq, Repr

/-- The cells behind `data`. -/
def Buf.block (buf : Buf) : List Cell := buf.data.getD []

/-- `buf_init` -/
def bufInit (valueSize initSize : Nat) : Except BufFault Buf :=
  if 0 < initSize then do
    let n ← intMul valueSize initSize
    .ok { data := some (malloc n), valueSize := valueSize, size := 0, cap := initSize }
  else .ok { data := none, valueSize := valueSize, size := 0, cap := initSize }

/-- `buf_resize` -/
def bufResize (buf : Buf) (nsize : Nat) : Except BufFault Buf := do
  let n ← intMul nsize buf.valueSize
  match buf.data with
  | some data => .ok { buf with cap := nsize, data := some (realloc data n) }
  | none => .ok { buf with cap := nsize, data := some (malloc n) }

/-- `buf_compact` -/
def bufCompact (buf : Buf) : Except BufFault Buf := bufResize buf buf.size

/-- `buf_reset` -/
def bufReset (buf : Buf) : Buf := { buf with size := 0 }

/-- `buf_get`: the cells of the item that its result points to. -/
def bufGet (buf : Buf) (index : Nat) : Except BufFault (List Cell) := do
  let pos ← intMul index buf.valueSize
  if pos + buf.valueSize ≤ buf.block.length then .ok (slice buf.block pos buf.valueSize)
  else .error .outOfBounds

/-- `buf_set`: `value_size` cells of `val` are copied. -/
def bufSet (buf : Buf) (index : Nat) (val : List Cell) : Except BufFault Buf := do
  let pos ← intMul index buf.valueSize
  if pos + buf.valueSize ≤ buf.block.length ∧ buf.valueSize ≤ val.length then
    .ok { buf with data := some (overwrite buf.block pos (val.take buf.valueSize)) }
  else .error .outOfBounds

/-- The first lines of `buf_push`. -/
def bufGrow (buf : Buf) : Except BufFault Buf :=
  if buf.size ≥ buf.cap then do
    let nsize ← intMul 2 buf.size
    bufResize buf nsize
  else .ok buf

/-- `buf_push` -/
def bufPush (buf : Buf) (item : List Cell) : Except BufFault Buf := do
  let buf ← bufGrow buf
  let buf ← bufSet buf buf.size item
  .ok { buf with size := buf.size + 1 }

/-- A call on a buffer. -/
inductive BufCall
  | push (item : List Cell)
  | set (index : Nat) (item : List Cell)
  | reset
  | compact

/-- One call on a buffer. -/
def Buf.call (buf : Buf) : BufCall → Except BufFault (Unit × Buf)
  | .push item => (bufPush buf item).map fun buf => ((), buf)
  | .set index item => (bufSet buf index item).map fun buf => ((), buf)
  | .reset => .ok ((), bufReset buf)
  | .compact => (bufCompact buf).map fun buf => ((), buf)

/-! ## A buffer as a list -/

/-- One call on a list. -/
def listCall (items : List (List Cell)) : BufCall → List (List Cell)
  | .push item => items ++ [item]
  | .set index item => items.set index item
  | .reset => []
  | .compact => items

/-- The calls that a buffer is made for: an item is as long as `value_size` says,
and is set below `size`. -/
def Buf.Proper (buf : Buf) : BufCall → Prop
  | .push item => item.length = buf.valueSize
  | .set index item => index < buf.size ∧ item.length = buf.valueSize
  | _ => True

/-- **What a call needs.**  There is room for the item that is pushed, or there
are items to double, and the size of the doubled block is an `int`. -/
def Buf.HasRoom (buf : Buf) : BufCall → Prop
  | .push _ => buf.size < buf.cap ∨ 0 < buf.size ∧ 2 * buf.size * buf.valueSize < 2 ^ 31
  | _ => True

/-- The block is as long as `cap` says. -/
structure Buf.Sized (buf : Buf) : Prop where
  pos : 0 < buf.valueSize
  block : buf.block.length = buf.cap * buf.valueSize
  fits : buf.cap * buf.valueSize < 2 ^ 31

/-- The buffer holds the items, and each is read at its position. -/
structure Buf.Holds (buf : Buf) (items : List (List Cell)) : Prop extends buf.Sized where
  size : buf.size = items.length
  size_le : buf.size ≤ buf.cap
  get : ∀ i item, items[i]? = some item → bufGet buf i = .ok item

/-! ## The functions -/

variable {buf buf' : Buf} {items : List (List Cell)} {item cells : List Cell} {a b i j n : Nat}

theorem intMul_eq_ok : intMul a b = .ok n ↔ a * b < 2 ^ 31 ∧ n = a * b := by
  unfold intMul
  split
  · rename_i h
    rw [Except.ok.injEq, and_iff_right h, eq_comm]
  · rename_i h
    exact iff_of_false nofun fun hand => h hand.1

theorem intMul_of_lt (h : a * b < 2 ^ 31) : intMul a b = .ok (a * b) := intMul_eq_ok.2 ⟨h, rfl⟩

theorem bufResize_eq_ok :
    bufResize buf n = .ok buf' ↔ n * buf.valueSize < 2 ^ 31 ∧
      buf' = { buf with cap := n, data := some (realloc buf.block (n * buf.valueSize)) } := by
  have hblock : (match buf.data with
      | some data => .ok { buf with cap := n, data := some (realloc data (n * buf.valueSize)) }
      | none => .ok { buf with cap := n, data := some (malloc (n * buf.valueSize)) } :
        Except BufFault Buf) =
      .ok { buf with cap := n, data := some (realloc buf.block (n * buf.valueSize)) } := by
    unfold Buf.block
    cases buf.data with
    | some data => rfl
    | none => simp [realloc, malloc, resize]
  unfold bufResize
  rw [bind_eq_ok]
  constructor
  · intro h
    obtain ⟨m, hm, hok⟩ := h
    obtain ⟨hlt, rfl⟩ := intMul_eq_ok.1 hm
    rw [hblock] at hok
    cases hok
    exact ⟨hlt, rfl⟩
  · intro h
    obtain ⟨hlt, rfl⟩ := h
    exact ⟨_, intMul_of_lt hlt, hblock⟩

theorem bufGet_eq_ok :
    bufGet buf i = .ok cells ↔ i * buf.valueSize < 2 ^ 31 ∧
      i * buf.valueSize + buf.valueSize ≤ buf.block.length ∧
      cells = slice buf.block (i * buf.valueSize) buf.valueSize := by
  unfold bufGet
  rw [bind_eq_ok]
  constructor
  · intro h
    obtain ⟨pos, hpos, hok⟩ := h
    obtain ⟨hlt, rfl⟩ := intMul_eq_ok.1 hpos
    split at hok
    · cases hok
      exact ⟨hlt, ‹_›, rfl⟩
    · cases hok
  · intro h
    obtain ⟨hlt, hin, rfl⟩ := h
    exact ⟨_, intMul_of_lt hlt, if_pos hin⟩

theorem bufSet_eq_ok :
    bufSet buf i item = .ok buf' ↔ i * buf.valueSize < 2 ^ 31 ∧
      (i * buf.valueSize + buf.valueSize ≤ buf.block.length ∧ buf.valueSize ≤ item.length) ∧
      buf' = { buf with
        data := some (overwrite buf.block (i * buf.valueSize) (item.take buf.valueSize)) } := by
  unfold bufSet
  rw [bind_eq_ok]
  constructor
  · intro h
    obtain ⟨pos, hpos, hok⟩ := h
    obtain ⟨hlt, rfl⟩ := intMul_eq_ok.1 hpos
    split at hok
    · cases hok
      exact ⟨hlt, ‹_›, rfl⟩
    · cases hok
  · intro h
    obtain ⟨hlt, hin, rfl⟩ := h
    exact ⟨_, intMul_of_lt hlt, if_pos hin⟩

/-- An item below `cap` lies in the block. -/
theorem Buf.Sized.inside (h : buf.Sized) (hi : i < buf.cap) :
    i * buf.valueSize < 2 ^ 31 ∧ i * buf.valueSize + buf.valueSize ≤ buf.block.length := by
  have hpos := h.pos
  have hfits := h.fits
  have hle : (i + 1) * buf.valueSize ≤ buf.cap * buf.valueSize := Nat.mul_le_mul_right _ hi
  rw [Nat.succ_mul] at hle
  rw [h.block]
  omega

/-- Two items lie apart. -/
theorem apart {vs : Nat} (hne : j ≠ i) : j * vs + vs ≤ i * vs ∨ i * vs + vs ≤ j * vs := by
  rcases Nat.lt_or_gt_of_ne hne with hlt | hgt
  · left
    rw [← Nat.succ_mul]
    exact Nat.mul_le_mul_right vs hlt
  · right
    rw [← Nat.succ_mul]
    exact Nat.mul_le_mul_right vs hgt

/-- **`buf_set`** writes an item below `cap`, and no other. -/
theorem Buf.Sized.set (h : buf.Sized) (hi : i < buf.cap) (hitem : item.length = buf.valueSize) :
    ∃ data, bufSet buf i item = .ok { buf with data := some data } ∧
      Buf.Sized { buf with data := some data } ∧
      bufGet { buf with data := some data } i = .ok item ∧
      ∀ j < buf.cap, j ≠ i → ∀ other, bufGet buf j = .ok other →
        bufGet { buf with data := some data } j = .ok other := by
  obtain ⟨hlt, hin⟩ := h.inside hi
  have hstart : i * buf.valueSize ≤ buf.block.length := by omega
  have hlen : (overwrite buf.block (i * buf.valueSize) item).length = buf.block.length :=
    length_overwrite (by rw [hitem]; exact hin)
  refine ⟨overwrite buf.block (i * buf.valueSize) item, ?_, ⟨h.pos, hlen.trans h.block, h.fits⟩,
    ?_, ?_⟩
  · rw [bufSet_eq_ok, List.take_of_length_le hitem.le]
    exact ⟨hlt, ⟨hin, hitem.ge⟩, rfl⟩
  · have hself : slice (overwrite buf.block (i * buf.valueSize) item) (i * buf.valueSize)
        item.length = item := slice_overwrite_self hstart
    rw [hitem] at hself
    exact bufGet_eq_ok.2 ⟨hlt, hin.trans hlen.ge, hself.symm⟩
  · intro j hj hne other hget
    obtain ⟨hjlt, hjin, rfl⟩ := bufGet_eq_ok.1 hget
    refine bufGet_eq_ok.2 ⟨hjlt, hjin.trans hlen.ge, ?_⟩
    rcases apart hne with hbefore | hbehind
    · exact (slice_overwrite_before hstart hbefore).symm
    · exact (slice_overwrite_behind hstart (by rw [hitem]; exact hbehind)).symm

/-- **`buf_resize`** keeps the items that the new block has room for. -/
theorem Buf.Holds.resize (h : buf.Holds items) (hn : buf.size ≤ n)
    (hfits : n * buf.valueSize < 2 ^ 31) :
    ∃ data, bufResize buf n = .ok { buf with cap := n, data := some data } ∧
      Buf.Holds { buf with cap := n, data := some data } items := by
  have hlen : (realloc buf.block (n * buf.valueSize)).length = n * buf.valueSize :=
    length_resize none
  refine ⟨realloc buf.block (n * buf.valueSize), bufResize_eq_ok.2 ⟨hfits, rfl⟩,
    ⟨⟨h.pos, hlen, hfits⟩, h.size, hn, ?_⟩⟩
  intro i item hitem
  obtain ⟨hlt, hin, rfl⟩ := bufGet_eq_ok.1 (h.get i item hitem)
  have hi : i < n := by
    have hlist := (List.getElem?_eq_some_iff.1 hitem).1
    have hsize := h.size
    omega
  have hle : (i + 1) * buf.valueSize ≤ n * buf.valueSize := Nat.mul_le_mul_right _ hi
  rw [Nat.succ_mul] at hle
  exact bufGet_eq_ok.2 ⟨hlt, hle.trans hlen.ge, (slice_resize none hin hle).symm⟩

/-- **`buf_push`** behind the last item, where there is room. -/
theorem Buf.Holds.append (h : buf.Holds items) (hroom : buf.size < buf.cap)
    (hitem : item.length = buf.valueSize) :
    ∃ buf', (do
        let buf ← bufSet buf buf.size item
        .ok { buf with size := buf.size + 1 } : Except BufFault Buf) = .ok buf' ∧
      buf'.Holds (items ++ [item]) := by
  obtain ⟨data, hset, hsized, hself, hothers⟩ := h.toSized.set hroom hitem
  refine ⟨{ buf with data := some data, size := buf.size + 1 }, ?_, ⟨⟨hsized.pos, hsized.block,
    hsized.fits⟩, ?_, hroom, ?_⟩⟩
  · rw [hset]
    rfl
  · rw [List.length_append, ← h.size]
    rfl
  · intro i other hother
    have hsize := h.size
    by_cases hi : i < items.length
    · rw [List.getElem?_append_left hi] at hother
      exact hothers i (by omega) (by omega) other (h.get i other hother)
    · have hlast : i = items.length := by
        have hlt := (List.getElem?_eq_some_iff.1 hother).1
        rw [List.length_append, List.length_singleton] at hlt
        omega
      rw [hlast, List.getElem?_append_right le_rfl, Nat.sub_self] at hother
      cases hother
      rw [hlast, ← hsize]
      exact hself

/-- **Room** is made where a push needs it. -/
theorem Buf.Holds.grow (h : buf.Holds items) (hroom : buf.HasRoom (.push item)) :
    ∃ buf', bufGrow buf = .ok buf' ∧ buf'.Holds items ∧ buf'.size < buf'.cap ∧
      buf'.valueSize = buf.valueSize := by
  have hpos := h.pos
  unfold bufGrow
  by_cases hfull : buf.size ≥ buf.cap
  · obtain ⟨hsome, hfits⟩ := hroom.resolve_left (by omega)
    have hdouble : 2 * buf.size < 2 ^ 31 :=
      (Nat.le_mul_of_pos_right _ hpos).trans_lt hfits
    obtain ⟨data, hresize, hholds⟩ := h.resize (n := 2 * buf.size) (by omega) hfits
    refine ⟨{ buf with cap := 2 * buf.size, data := some data }, ?_, hholds, ?_, rfl⟩
    · rw [if_pos hfull, intMul_of_lt hdouble]
      exact hresize
    · show buf.size < 2 * buf.size
      omega
  · rw [if_neg hfull]
    exact ⟨buf, rfl, h, by omega, rfl⟩

/-- **`buf_push`**, where there is room or something to double. -/
theorem Buf.Holds.push_returns (h : buf.Holds items) (hroom : buf.HasRoom (.push item))
    (hitem : item.length = buf.valueSize) :
    ∃ buf', bufPush buf item = .ok buf' ∧ buf'.Holds (items ++ [item]) := by
  obtain ⟨grown, hgrow, hholds, hlt, hvs⟩ := h.grow hroom
  have hsame : item.length = grown.valueSize := hitem.trans hvs.symm
  obtain ⟨buf', happend, hholds'⟩ := hholds.append hlt hsame
  refine ⟨buf', ?_, hholds'⟩
  unfold bufPush
  rw [hgrow]
  exact happend

/-- **`buf_set`** at an item. -/
theorem Buf.Holds.set (h : buf.Holds items) {i : Nat} (hi : i < buf.size)
    (hitem : item.length = buf.valueSize) :
    ∃ buf', bufSet buf i item = .ok buf' ∧ buf'.Holds (items.set i item) := by
  have hcap := h.size_le
  obtain ⟨data, hset, hsized, hself, hothers⟩ := h.toSized.set (hi.trans_le hcap) hitem
  refine ⟨{ buf with data := some data }, hset, ⟨hsized, ?_, hcap, ?_⟩⟩
  · rw [List.length_set]
    exact h.size
  · intro j other hother
    have hlt := (List.getElem?_eq_some_iff.1 hother).1
    rw [List.length_set, ← h.size] at hlt
    by_cases hj : j = i
    · rw [hj, List.getElem?_set_self (by rw [← h.size]; exact hi)] at hother
      cases hother
      rw [hj]
      exact hself
    · rw [List.getElem?_set_ne (Ne.symm hj)] at hother
      exact hothers j (hlt.trans_le hcap) hj other (h.get j other hother)

/-- A push that returns had room, or made it. -/
theorem Buf.HasRoom.of_push (hpos : 0 < buf.valueSize) (h : bufPush buf item = .ok buf') :
    buf.HasRoom (.push item) := by
  unfold bufPush bufGrow at h
  obtain ⟨grown, hgrow, hrest⟩ := bind_eq_ok.1 h
  obtain ⟨_, hset, _⟩ := bind_eq_ok.1 hrest
  by_cases hfull : buf.size ≥ buf.cap
  · rw [if_pos hfull] at hgrow
    obtain ⟨nsize, hdouble, hresize⟩ := bind_eq_ok.1 hgrow
    obtain ⟨_, rfl⟩ := intMul_eq_ok.1 hdouble
    obtain ⟨hfits, rfl⟩ := bufResize_eq_ok.1 hresize
    obtain ⟨_, ⟨hin, _⟩, _⟩ := bufSet_eq_ok.1 hset
    have hlen : (realloc buf.block (2 * buf.size * buf.valueSize)).length =
        2 * buf.size * buf.valueSize := length_resize none
    have hin : buf.size * buf.valueSize + buf.valueSize ≤ 2 * buf.size * buf.valueSize :=
      hin.trans hlen.le
    refine .inr ⟨?_, hfits⟩
    by_contra hzero
    have hsize : buf.size = 0 := by omega
    rw [hsize] at hin
    omega
  · exact .inl (by omega)

/-- What a push that returns makes of `cap`. -/
theorem bufPush_cap (h : bufPush buf item = .ok buf') :
    buf'.valueSize = buf.valueSize ∧
      buf'.cap = if buf.size ≥ buf.cap then 2 * buf.size else buf.cap := by
  unfold bufPush bufGrow at h
  obtain ⟨grown, hgrow, hrest⟩ := bind_eq_ok.1 h
  obtain ⟨written, hset, hok⟩ := bind_eq_ok.1 hrest
  obtain ⟨_, _, rfl⟩ := bufSet_eq_ok.1 hset
  cases hok
  by_cases hfull : buf.size ≥ buf.cap
  · rw [if_pos hfull] at hgrow ⊢
    obtain ⟨nsize, hdouble, hresize⟩ := bind_eq_ok.1 hgrow
    obtain ⟨_, rfl⟩ := intMul_eq_ok.1 hdouble
    obtain ⟨_, rfl⟩ := bufResize_eq_ok.1 hresize
    exact ⟨rfl, rfl⟩
  · rw [if_neg hfull] at hgrow ⊢
    cases hgrow
    exact ⟨rfl, rfl⟩

/-! ## Calls -/

/-- **One call**, among those a buffer is made for. -/
theorem Buf.Holds.call (h : buf.Holds items) (c : BufCall) (hproper : buf.Proper c) :
    (∃ buf', buf.call c = .ok ((), buf') ∧ buf'.Holds (listCall items c)) ↔ buf.HasRoom c := by
  cases c with
  | push item =>
      constructor
      · intro hcall
        obtain ⟨buf', hcall, _⟩ := hcall
        unfold Buf.call at hcall
        dsimp only at hcall
        cases hpush : bufPush buf item with
        | error e =>
            rw [hpush] at hcall
            cases hcall
        | ok buf₁ => exact .of_push h.pos hpush
      · intro hroom
        obtain ⟨buf', hpush, hholds⟩ := h.push_returns hroom hproper
        refine ⟨buf', ?_, hholds⟩
        unfold Buf.call
        dsimp only
        rw [hpush]
        rfl
  | set index item =>
      refine iff_of_true ?_ trivial
      obtain ⟨buf', hset, hholds⟩ := h.set hproper.1 hproper.2
      refine ⟨buf', ?_, hholds⟩
      unfold Buf.call
      dsimp only
      rw [hset]
      rfl
  | reset =>
      refine iff_of_true ⟨bufReset buf, rfl, ⟨⟨h.pos, h.block, h.fits⟩, rfl, Nat.zero_le _, ?_⟩⟩
        trivial
      intro i item hitem
      cases hitem
  | compact =>
      refine iff_of_true ?_ trivial
      have hle : buf.size * buf.valueSize ≤ buf.cap * buf.valueSize :=
        Nat.mul_le_mul_right _ h.size_le
      obtain ⟨data, hresize, hholds⟩ := h.resize le_rfl (hle.trans_lt h.fits)
      refine ⟨{ buf with cap := buf.size, data := some data }, ?_, hholds⟩
      unfold Buf.call bufCompact
      dsimp only
      rw [hresize]
      rfl

/-- **A push that returns** appends its item. -/
theorem Buf.Holds.push (h : buf.Holds items) (hitem : item.length = buf.valueSize)
    (hpush : bufPush buf item = .ok buf') : buf'.Holds (items ++ [item]) := by
  obtain ⟨buf₁, hreturns, hholds⟩ := h.push_returns (.of_push h.pos hpush) hitem
  cases hpush.symm.trans hreturns
  exact hholds

/-- **`buf_init`** returns unless its product overflows. -/
theorem bufInit_holds {vs init : Nat} (hvs : 0 < vs) (h : vs * init < 2 ^ 31) :
    ∃ buf, bufInit vs init = .ok buf ∧ buf.Holds [] := by
  have hempty : ∀ (buf : Buf) (i : Nat) (item : List Cell),
      ([] : List (List Cell))[i]? = some item → bufGet buf i = .ok item := by
    intro buf i item hitem
    cases hitem
  unfold bufInit
  by_cases hinit : 0 < init
  · rw [if_pos hinit, intMul_of_lt h]
    refine ⟨_, rfl, ⟨⟨hvs, ?_, ?_⟩, rfl, Nat.zero_le _, hempty _⟩⟩
    · show (malloc (vs * init)).length = init * vs
      rw [Nat.mul_comm]
      exact List.length_replicate
    · show init * vs < 2 ^ 31
      rw [Nat.mul_comm]
      exact h
  · rw [if_neg hinit]
    have hzero : init = 0 := by omega
    refine ⟨_, rfl, ⟨⟨hvs, ?_, ?_⟩, rfl, Nat.zero_le _, hempty _⟩⟩
    · simp [Buf.block, hzero]
    · simp [hzero]

/-- The buffer beside the list that it should be. -/
def Buf.beside :
    Buf × List (List Cell) → BufCall → Except BufFault (Unit × Buf × List (List Cell)) :=
  paired Buf.call listCall

/-- **A list.**  After `buf_init`, calls that a buffer is made for all return, and
each leaves the buffer with the items of the list, if and only if the first block
is of an `int` size and every push has room. -/
theorem buf_list {vs init : Nat} (hvs : 0 < vs) {calls : List BufCall}
    (hproper : ∀ buf, bufInit vs init = .ok buf →
      Meets (fun s c => s.1.Proper c) Buf.beside (buf, []) calls) :
    (∃ buf, bufInit vs init = .ok buf ∧ buf.Holds [] ∧
        Returns (fun s => s.1.Holds s.2) Buf.beside (buf, []) calls) ↔
      vs * init < 2 ^ 31 ∧ ∀ buf, bufInit vs init = .ok buf →
        Meets (fun s c => s.1.HasRoom c) Buf.beside (buf, []) calls := by
  have hcall : ∀ (s : Buf × List (List Cell)) c, s.1.Holds s.2 → s.1.Proper c →
      ((∃ out s', Buf.beside s c = .ok (out, s') ∧ s'.1.Holds s'.2) ↔ s.1.HasRoom c) := by
    intro s c hholds hproper
    rw [← hholds.call c hproper]
    constructor
    · intro h
      obtain ⟨_, s', hok, hholds'⟩ := h
      obtain ⟨hcall, hlist⟩ := paired_eq_ok.1 hok
      exact ⟨s'.1, hcall, hlist ▸ hholds'⟩
    · intro h
      obtain ⟨buf', hcall, hholds'⟩ := h
      exact ⟨(), (buf', listCall s.2 c), paired_eq_ok.2 ⟨hcall, rfl⟩, hholds'⟩
  constructor
  · intro h
    obtain ⟨buf, hinit, hholds, hreturns⟩ := h
    constructor
    · unfold bufInit at hinit
      split at hinit
      · obtain ⟨n, hmul, _⟩ := bind_eq_ok.1 hinit
        exact (intMul_eq_ok.1 hmul).1
      · have hzero : init = 0 := by omega
        simp [hzero]
    · intro buf₁ hinit₁
      cases hinit.symm.trans hinit₁
      exact (returns_iff_meets_on hcall calls (buf, []) hholds (hproper buf hinit)).1 hreturns
  · intro h
    obtain ⟨hfits, hroom⟩ := h
    obtain ⟨buf, hinit, hholds⟩ := bufInit_holds hvs hfits
    exact ⟨buf, hinit, hholds, (returns_iff_meets_on hcall calls (buf, []) hholds
      (hproper buf hinit)).2 (hroom buf hinit)⟩

/-- An item is pushed into a full buffer and is written over. -/
theorem buf_list_sample :
    ∃ buf, bufInit 1 1 = .ok buf ∧ buf.Holds [] ∧
      Returns (fun s => s.1.Holds s.2) Buf.beside (buf, [])
        [.push [some 5], .push [some 6], .set 0 [some 7]] := by
  refine (buf_list Nat.one_pos ?_).2 ⟨by decide, ?_⟩
  · intro buf hinit
    cases hinit
    refine ⟨rfl, ?_⟩
    intro _ _ heq
    cases heq
    refine ⟨rfl, ?_⟩
    intro _ _ heq
    cases heq
    refine ⟨⟨show 0 < 2 by decide, rfl⟩, ?_⟩
    intro _ _ heq
    cases heq
    trivial
  · intro buf hinit
    cases hinit
    refine ⟨.inl Nat.one_pos, ?_⟩
    intro _ _ heq
    cases heq
    refine ⟨.inr ⟨Nat.one_pos, show 2 * 1 * 1 < 2 ^ 31 by decide⟩, ?_⟩
    intro _ _ heq
    cases heq
    refine ⟨trivial, ?_⟩
    intro _ _ heq
    cases heq
    trivial

/-- Without capacity, or after a reset and a compaction, the first push writes
outside of the block. -/
theorem push_outside :
    (∃ buf, bufInit 4 0 = .ok buf ∧ buf.Proper (.push [some 1, some 0, some 0, some 0]) ∧
      buf.call (.push [some 1, some 0, some 0, some 0]) = .error .outOfBounds) ∧
    ∃ buf, bufInit 1 2 = .ok buf ∧
      run Buf.call buf [.push [some 5], .reset, .compact, .push [some 6]] =
        .error .outOfBounds :=
  ⟨⟨_, rfl, rfl, rfl⟩, ⟨_, rfl, rfl⟩⟩

end MonkeyCache
