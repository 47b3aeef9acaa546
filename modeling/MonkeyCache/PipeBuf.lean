import MonkeyCache.Kernel

/-!
# Pipe buffers (`pipe_buf.c`)

A `struct pipe_buf_t` counts in `filled` the bytes it believes to be in its
kernel pipe.  The model keeps the bytes of the kernel pipe beside the counter,
so that the two can disagree.  `PipeOk` is the state in which they agree, the
mutex is free and the capacity is respected; `pipeBufVmsplice_all` says that a
`vmsplice` that takes everything keeps it.
-/

namespace MonkeyCache

open Fallible

/-- `struct pipe_buf_t`, with the kernel pipe behind its descriptors. -/
structure PipeBuf where
  /-- `pipe[2]`: the descriptors, which name the kernel pipe -/
  pipe : Nat
  /-- the bytes in the kernel pipe -/
  data : List Byte
  filled : Nat
  cap : Nat
  /-- `write_mutex` is held -/
  locked : Bool
  deriving DecidableEq, Repr

/-! ## System calls on pipes -/

/-- `vmsplice(buf->pipe[1], iov, 1, ..)`: the count and the pipe afterwards. -/
def vmsplice (x : Xfer) (buf : PipeBuf) (iov : List Byte) : Except Errno (Nat × PipeBuf) :=
  match x.count (min iov.length (buf.cap - buf.data.length)) with
  | .error e => .error e
  | .ok n => .ok (n, { buf with data := buf.data ++ iov.take n })

/-- `tee(src->pipe[0], dst->pipe[1], len, ..)`: the count and the destination
afterwards; the source keeps its bytes. -/
def tee (x : Xfer) (src dst : PipeBuf) (len : Nat) : Except Errno (Nat × PipeBuf) :=
  match x.count (min (min len src.data.length) (dst.cap - dst.data.length)) with
  | .error e => .error e
  | .ok n => .ok (n, { dst with data := dst.data ++ src.data.take n })

/-- `splice(buf->pipe[0], NULL, fd, NULL, len, ..)`: the count, the bytes that
went to `fd` and the pipe afterwards. -/
def splice (x : Xfer) (buf : PipeBuf) (len : Nat) :
    Except Errno (Nat × List Byte × PipeBuf) :=
  match x.count (min len buf.data.length) with
  | .error e => .error e
  | .ok n => .ok (n, buf.data.take n, { buf with data := buf.data.drop n })

/-- A `vmsplice` with room for the whole vector appends all of it. -/
theorem vmsplice_all {buf : PipeBuf} {iov : List Byte} (hne : 0 < iov.length)
    (hroom : buf.data.length + iov.length ≤ buf.cap) :
    vmsplice .all buf iov = .ok (iov.length, { buf with data := buf.data ++ iov }) := by
  have hmin : min iov.length (buf.cap - buf.data.length) = iov.length := by omega
  simp [vmsplice, hmin, Xfer.count_all hne]

/-- A `tee` that returns has appended a nonempty part of the first `len` bytes. -/
theorem tee_ok {x : Xfer} {src dst dst' : PipeBuf} {len n : Nat}
    (h : tee x src dst len = .ok (n, dst')) :
    0 < n ∧ n ≤ len ∧ n ≤ src.data.length ∧ n ≤ dst.cap - dst.data.length ∧
      dst' = { dst with data := dst.data ++ src.data.take n } := by
  unfold tee at h
  split at h
  · cases h
  · rename_i m hcount
    cases h
    have hm := Xfer.count_ok hcount
    exact ⟨hm.1, by omega, by omega, by omega, rfl⟩

/-- A `tee` fails in an unnamed way only where the kernel said so. -/
theorem tee_other {x : Xfer} {src dst : PipeBuf} {len : Nat}
    (h : tee x src dst len = .error .other) : x = .error := by
  unfold tee at h
  split at h
  · rename_i hcount
    cases h
    exact Xfer.count_other hcount
  · cases h

/-- `tee` of a whole pipe into an empty one of at least its size. -/
theorem tee_all {src dst : PipeBuf} (hne : 0 < src.data.length)
    (hdst : dst.data = []) (hcap : src.data.length ≤ dst.cap) :
    tee .all src dst src.data.length =
      .ok (src.data.length, { dst with data := src.data }) := by
  have hmin : min (min src.data.length src.data.length) (dst.cap - dst.data.length)
      = src.data.length := by
    rw [hdst, List.length_nil]
    omega
  unfold tee
  rw [hmin, Xfer.count_all hne]
  simp [hdst]

/-- A `splice` that returns has moved a nonempty part of the first `len` bytes. -/
theorem splice_ok {x : Xfer} {buf buf' : PipeBuf} {len n : Nat} {out : List Byte}
    (h : splice x buf len = .ok (n, out, buf')) :
    0 < n ∧ n ≤ len ∧ n ≤ buf.data.length ∧ out = buf.data.take n ∧
      buf' = { buf with data := buf.data.drop n } := by
  unfold splice at h
  split at h
  · cases h
  · rename_i m hcount
    cases h
    have hm := Xfer.count_ok hcount
    exact ⟨hm.1, by omega, by omega, rfl, rfl⟩

/-! ## `pipe_buf_vmsplice` and `pipe_buf_flush` -/

/-- One round of the loop of `pipe_buf_vmsplice`; the state is `cnt` and the
pipe.  The iovec is not advanced between rounds, and both early returns leave
the mutex held. -/
def vmspliceRound (mem : List Byte) (o : Nat → Xfer) (k : Nat) (s : Nat × PipeBuf) :
    Except Fault ((Nat × PipeBuf) ⊕ (Int × PipeBuf)) :=
  if s.1 < mem.length then
    match vmsplice (o k) s.2 mem with
    | .error .eagain => .ok (.inr (s.1, s.2))
    | .error .other => .ok (.inr (-1, s.2))
    | .ok (ret, buf) => .ok (.inl (s.1 + ret, { buf with filled := buf.filled + ret }))
  else
    .ok (.inr (s.1, { s.2 with locked := false }))

/-- `pipe_buf_vmsplice(buf, mem, len)`; `mem` is the memory from the given
address on, and `o` gives the outcome of each `vmsplice` call. -/
def pipeBufVmsplice (buf : PipeBuf) (mem : List Byte) (len : Int) (o : Nat → Xfer) :
    Except Fault (Int × PipeBuf) :=
  if buf.locked then .error .deadlock
  else if (buf.cap : Int) - buf.filled < len then .error .pipeFull
  else if len < 0 then .error .negativeLen
  else
    iterate .diverged (vmspliceRound (mem.take len.toNat) o) (len.toNat + 1) 0
      (0, { buf with locked := true })

/-- `pipe_buf_flush`: empty the pipe into `/dev/null`. -/
def pipeBufFlush (buf : PipeBuf) (x : Xfer) : Except Fault PipeBuf :=
  match splice x buf buf.filled with
  | .error _ => .error .flush
  | .ok (res, _, buf') =>
    if buf.filled - res ≠ 0 then .error .flush
    else .ok { buf' with filled := buf.filled - res }

/-! ## The pool of pipe buffers -/

/-- `PIPE_BUF_POOL_MAX` -/
def pipeBufPoolMax : Nat := 16

/-- The pool of free pipe buffers, the number of pipes ever created and
`pipe_mem_used`. -/
structure PipePool where
  pool : List PipeBuf
  made : Nat
  memUsed : Int
  deriving DecidableEq, Repr

/-- What one `pipe_buf_new` meets: the splice of a flush, and whether
`createpipe` succeeds. -/
structure PipeOut where
  flush : Xfer
  created : Bool
  deriving DecidableEq, Repr

/-- A pipe fresh from `createpipe`; `PIPE_SIZE` is the parameter `size`. -/
def PipeBuf.fresh (size pipe : Nat) : PipeBuf :=
  { pipe := pipe, data := [], filled := 0, cap := size, locked := false }

/-- `if (buf->filled) pipe_buf_flush(buf)` and the check that follows it. -/
def emptied (buf : PipeBuf) (x : Xfer) : Except Fault PipeBuf :=
  (if buf.filled ≠ 0 then pipeBufFlush buf x else .ok buf) >>= fun buf =>
    if buf.filled ≠ 0 then .error .bufNotEmpty else .ok buf

/-- `pipe_buf_new`: a pipe from the pool, or a new one. -/
def pipeBufNew (size : Nat) (pp : PipePool) (o : PipeOut) :
    Except Fault (PipeBuf × PipePool) :=
  match pp.pool with
  | buf :: rest => do
    let buf ← emptied buf o.flush
    .ok (buf, { pp with pool := rest })
  | [] =>
    if o.created then
      .ok (.fresh size pp.made,
        { pp with made := pp.made + 1, memUsed := pp.memUsed + size })
    else .error .createPipe

/-- `pipe_buf_free`: back to the pool, or closed when the pool is full. -/
def pipeBufFree (size : Nat) (buf : PipeBuf) (pp : PipePool) : PipePool :=
  if pp.pool.length < pipeBufPoolMax then { pp with pool := pp.pool ++ [buf] }
  else { pp with memUsed := pp.memUsed - size }

/-! ## Pipes whose counter is right -/

/-- The counter of the pipe is the number of bytes in it, the bytes fit and
nobody holds the mutex. -/
structure PipeOk (c : Nat) (buf : PipeBuf) : Prop where
  cap_eq : buf.cap = c
  filled_eq : buf.filled = buf.data.length
  filled_le : buf.filled ≤ c
  unlocked : buf.locked = false

/-- The pipe after `bytes` have been appended and counted. -/
def PipeBuf.append (buf : PipeBuf) (bytes : List Byte) : PipeBuf :=
  { buf with data := buf.data ++ bytes, filled := buf.filled + bytes.length }

/-- Appended bytes come behind the others. -/
@[simp] theorem PipeBuf.append_data (buf : PipeBuf) (bytes : List Byte) :
    (buf.append bytes).data = buf.data ++ bytes := rfl

/-- Appended bytes are counted. -/
@[simp] theorem PipeBuf.append_filled (buf : PipeBuf) (bytes : List Byte) :
    (buf.append bytes).filled = buf.filled + bytes.length := rfl

variable {c : Nat} {buf : PipeBuf}

/-- A pipe with room for the bytes stays well formed when they are appended. -/
theorem PipeOk.append (h : PipeOk c buf) {bytes : List Byte}
    (hroom : buf.filled + bytes.length ≤ c) : PipeOk c (buf.append bytes) where
  cap_eq := h.cap_eq
  filled_eq := by simp [h.filled_eq]
  filled_le := hroom
  unlocked := h.unlocked

/-- **Full fill.**  When every `vmsplice` takes what fits, `pipe_buf_vmsplice`
appends the whole memory, counts it and releases the mutex. -/
theorem pipeBufVmsplice_all (h : PipeOk c buf) {mem : List Byte} {o : Nat → Xfer}
    (ho : ∀ k, o k = .all) (hroom : buf.filled + mem.length ≤ c) :
    pipeBufVmsplice buf mem mem.length o = .ok (mem.length, buf.append mem) := by
  have hcap := h.cap_eq
  have hfilled := h.filled_eq
  have hlock := h.unlocked
  unfold pipeBufVmsplice
  rw [if_neg (by simp [hlock]), if_neg (by omega), if_neg (by omega)]
  rw [Int.toNat_natCast, List.take_length]
  by_cases hmem : mem.length = 0
  · -- nothing to move: the loop is not entered
    have hnil : mem = [] := List.length_eq_zero_iff.1 hmem
    subst hnil
    simp [iterate, vmspliceRound, PipeBuf.append, ← hlock]
  · -- the first round moves everything, the second one leaves the loop
    obtain ⟨n, hn⟩ : ∃ n, mem.length = n + 1 := ⟨mem.length - 1, by omega⟩
    have hfirst : vmspliceRound mem o 0 (0, { buf with locked := true })
        = .ok (.inl (mem.length, { buf.append mem with locked := true })) := by
      have hmove : vmsplice .all { buf with locked := true } mem
          = .ok (mem.length, { buf with locked := true, data := buf.data ++ mem }) :=
        vmsplice_all (by omega) (by dsimp only; omega)
      simp only [vmspliceRound, ho, hmove, PipeBuf.append]
      simp [hn]
    have hsecond : vmspliceRound mem o 1 (mem.length, { buf.append mem with locked := true })
        = .ok (.inr (mem.length, { buf.append mem with locked := false })) := by
      simp [vmspliceRound]
    have hback : ({ buf.append mem with locked := false } : PipeBuf) = buf.append mem := by
      simp [PipeBuf.append, ← hlock]
    rw [hn]
    unfold iterate
    rw [hfirst]
    dsimp only
    unfold iterate
    rw [hsecond, hback, ← hn]

/-- A flush leaves the pipe empty, or aborts. -/
theorem pipeBufFlush_ensures (h : PipeOk c buf) (x : Xfer) :
    Ensures (pipeBufFlush buf x) (fun buf' => PipeOk c buf' ∧ buf'.data = [])
      (fun e => e = .flush) := by
  have hlen := h.filled_eq
  have hle := h.filled_le
  unfold pipeBufFlush splice
  cases hcount : x.count (min buf.filled buf.data.length) with
  | error e => exact rfl
  | ok n =>
      dsimp only
      refine Ensures.guard (fun _ => rfl) ?_
      intro hleft
      have hdrop : buf.data.drop n = [] := List.drop_eq_nil_of_le (by omega)
      refine ⟨⟨h.cap_eq, ?_, ?_, h.unlocked⟩, hdrop⟩
      · simp only [hdrop, List.length_nil]
        omega
      · dsimp only
        omega

/-- A new pipe is well formed. -/
theorem pipeOk_fresh (size pipe : Nat) : PipeOk size (.fresh size pipe) where
  cap_eq := rfl
  filled_eq := rfl
  filled_le := Nat.zero_le size
  unlocked := rfl

/-- A pipe is handed out empty, or not at all. -/
theorem emptied_ensures (h : PipeOk c buf) (x : Xfer) :
    Ensures (emptied buf x) (fun buf' => PipeOk c buf' ∧ buf'.data = [])
      (fun e => e = .flush ∨ e = .bufNotEmpty) := by
  unfold emptied
  have hflush : Ensures (if buf.filled ≠ 0 then pipeBufFlush buf x else .ok buf)
      (fun buf' => PipeOk c buf' ∧ buf'.data = []) (fun e => e = .flush ∨ e = .bufNotEmpty) := by
    refine Ensures.ite ?_ ?_
    · intro _
      exact (pipeBufFlush_ensures h x).imp_error (fun _ h => Or.inl h)
    · intro hzero
      have hlen := h.filled_eq
      exact ⟨h, List.length_eq_zero_iff.1 (by omega)⟩
  apply hflush.bind
  intro mid hmid
  exact Ensures.guard (fun _ => .inr rfl) (fun _ => hmid)

/-- Every pipe of the pool is in order. -/
def PipePool.Ok (c : Nat) (pp : PipePool) : Prop := ∀ buf ∈ pp.pool, PipeOk c buf

/-- **What `pipe_buf_new` hands out** is an empty pipe. -/
theorem pipeBufNew_ensures {pp : PipePool} (hpp : pp.Ok c) (o : PipeOut) :
    Ensures (pipeBufNew c pp o)
      (fun new => PipeOk c new.1 ∧ new.1.data = [] ∧ new.2.Ok c)
      (fun e => e = .flush ∨ e = .bufNotEmpty ∨ e = .createPipe) := by
  unfold pipeBufNew
  cases hpool : pp.pool with
  | cons first rest =>
      have hfirst := emptied_ensures (hpp first (by simp [hpool])) o.flush
      refine (hfirst.imp_error ?_).bind ?_
      · rintro e (rfl | rfl)
        · exact .inl rfl
        · exact .inr (.inl rfl)
      · intro mid hmid
        exact ⟨hmid.1, hmid.2, fun b hb => hpp b (by simp [hpool, hb])⟩
  | nil =>
      refine Ensures.ite ?_ ?_
      · intro _
        exact ⟨pipeOk_fresh c _, rfl, fun b hb => by simp at hb⟩
      · intro _
        exact .inr (.inr rfl)

/-- pipe_buf_free keeps the pool well formed. -/
theorem pipeBufFree_ok {pp : PipePool} (hpp : pp.Ok c) (h : PipeOk c buf) :
    (pipeBufFree c buf pp).Ok c := by
  unfold pipeBufFree
  split
  · intro b hb
    rcases List.mem_append.1 hb with hb | hb
    · exact hpp b hb
    · rw [List.mem_singleton.1 hb]
      exact h
  · exact hpp

end MonkeyCache
