import MonkeyCache.CacheReq
import MonkeyCache.Lib.Transition

/-!
# Filling one pipe from several workers (`cache_req.c`, `pipe_buf.c`)

Workers whose requests stand at one pipe of a chain and at one file offset all
run `cache_req_fill_curr` on it.  The call is two atomic steps: it decides from
`curr->filled` what to append (`fillDecide`), and `pipe_buf_vmsplice` appends it
under the mutex of the pipe (`fillAppend`).  `cacheReqFillCurr_steps` says that
the two steps taken one after the other are the call.

Nothing keeps a second worker from appending between the two steps of the
first.  The pipe stays a prefix of the chunk exactly as long as every worker
appends to the pipe as it saw it (`Filling.Fresh`).
-/

namespace MonkeyCache

open Fallible Chunks Transition

/-! ## The two steps -/

/-- `cache_req_fill_curr` up to the call of `pipe_buf_vmsplice`, for a request at
file offset `off`: the value to return, or the offset and the number of the
bytes to append. -/
def fillDecide (f : CacheFile) (off : Int) (curr : PipeBuf) :
    Except Fault (Int ⊕ (Int × Int)) :=
  let len : Int := if (f.size : Int) < off + curr.cap then f.size - off else curr.cap
  if (f.size : Int) < off then .error .offsetPastEnd
  else if len < 0 then .error .negativeChunk
  else if curr.filled = len then .ok (.inl 0)
  else if curr.filled < len then .ok (.inr (curr.filled + off, len - curr.filled))
  else .ok (.inl (len - curr.filled))

/-- The call of `pipe_buf_vmsplice`. -/
def fillAppend (f : CacheFile) (curr : PipeBuf) (job : Int × Int) (o : Nat → Xfer) :
    Except Fault PipeBuf := do
  let mem ← f.read job.1 job.2
  let out ← pipeBufVmsplice curr mem job.2 o
  .ok out.2

/-- `return len - curr->filled;`, where `len` was computed with the job. -/
def fillReturn (off : Int) (job : Int × Int) (curr : PipeBuf) : Int :=
  job.1 - off + job.2 - curr.filled

/-- **The steps make up the call.** -/
theorem cacheReqFillCurr_steps {ι : Type} (f : CacheFile) (r : CacheReq ι) {i : Nat}
    {p : PipeBuf} (o : Nat → Xfer) (hcurr : r.curr = some i) (hp : f.cache[i]? = some p) :
    cacheReqFillCurr f r o =
      fillDecide f r.off p >>= Sum.elim
        (fun ret => .ok (ret, f))
        (fun job => fillAppend f p job o >>= fun p' =>
          .ok (fillReturn r.off job p', { f with cache := f.cache.set i p' })) := by
  unfold cacheReqFillCurr fillDecide CacheReq.off
  simp only [hcurr, hp]
  generalize (if (f.size : Int) < r.bytesOffset + r.buf.filled + p.cap then
    f.size - (r.bytesOffset + r.buf.filled) else (p.cap : Int)) = len
  split
  · rfl
  · split
    · rfl
    · split
      · rfl
      · split
        · simp only [bind, Except.bind, Sum.elim_inr, fillAppend, fillReturn]
          split
          · rfl
          · split
            · rfl
            · congr 2
              omega
        · rfl

/-! ## The machine -/

/-- The two steps of a worker. -/
inductive FillAct
  | decide
  | append
  deriving DecidableEq, Repr

/-- The pipe, and for each worker between its two steps what it is about to
append. -/
structure Filling (ω : Type) where
  curr : PipeBuf
  job : ω → Option (Int × Int)

variable {ω : Type} [DecidableEq ω]

/-- A step of one worker; the value its call returns is reported.  A step the
worker is not at changes nothing. -/
def Filling.step (f : CacheFile) (off : Int) (s : Filling ω) :
    ω × FillAct → Except Fault (Option Int × Filling ω)
  | (w, .decide) =>
    match s.job w with
    | some _ => .ok (none, s)
    | none =>
      fillDecide f off s.curr >>= Sum.elim
        (fun ret => .ok (some ret, s))
        (fun job => .ok (none, { s with job := Function.update s.job w (some job) }))
  | (w, .append) =>
    match s.job w with
    | none => .ok (none, s)
    | some job => do
      let curr ← fillAppend f s.curr job (fun _ => .all)
      .ok (some (fillReturn off job curr),
        { curr := curr, job := Function.update s.job w none })

/-- The worker appends to the pipe as it saw it. -/
def Filling.Fresh (off : Int) (s : Filling ω) : ω × FillAct → Prop
  | (_, .decide) => True
  | (w, .append) => ∀ job, s.job w = some job → job.1 = s.curr.filled + off

/-- The part of the file that belongs into the pipe. -/
def chunkOf (c : Nat) (f : CacheFile) (a : Nat) : List Byte :=
  slice f.buf a (want c f.size a)

/-- The pipe holds a prefix of its chunk and knows how much. -/
def Filling.Good (c : Nat) (f : CacheFile) (a : Nat) (s : Filling ω) : Prop :=
  s.curr.data <+: chunkOf c f a ∧ s.curr.filled = s.curr.data.length ∧
    s.curr.filled ≤ want c f.size a

/-- No worker is between its two steps. -/
structure Filling.Start (c : Nat) (f : CacheFile) (a : Nat) (s : Filling ω) : Prop where
  pipe : PipeOk c s.curr
  held : s.curr.data <+: chunkOf c f a
  idle : ∀ w, s.job w = none

/-! ## The invariant -/

variable {c a : Nat} {f : CacheFile} {s : Filling ω} {o : Nat → Xfer} {p : PipeBuf}

/-- A chunk is as long as the file has bytes for it. -/
theorem length_chunkOf (hmap : f.buf.length = f.size) :
    (chunkOf c f a).length = want c f.size a := by
  have hle : want c f.size a ≤ f.size - a := Nat.min_le_right _ _
  rw [chunkOf, length_slice]
  omega

/-- What a worker decides at a pipe that holds no more than the chunk. -/
theorem fillDecide_eq (hpipe : PipeOk c p) (ha : a ≤ f.size)
    (hle : p.filled ≤ want c f.size a) :
    fillDecide f a p =
      if p.filled = want c f.size a then .ok (.inl 0)
      else .ok (.inr ((p.filled : Int) + a, (want c f.size a : Int) - p.filled)) := by
  have hwant : (if (f.size : Int) < (a : Int) + p.cap then (f.size : Int) - a else p.cap)
      = (want c f.size a : Int) := by
    have hcap := hpipe.cap_eq
    unfold want
    split <;> omega
  unfold fillDecide
  simp only [hwant]
  rw [if_neg (by omega), if_neg (by omega)]
  by_cases heq : p.filled = want c f.size a
  · rw [if_pos (by omega), if_pos heq]
  · rw [if_neg (by omega), if_pos (by omega), if_neg heq]

/-- What a worker appends that decided when the pipe held `k` bytes. -/
theorem fillAppend_eq (hpipe : PipeOk c p) (hmap : f.buf.length = f.size) (ha : a ≤ f.size)
    (ho : ∀ j, o j = .all) {k : Nat} (hk : k ≤ want c f.size a) :
    fillAppend f p ((k : Int) + a, (want c f.size a : Int) - k) o =
      if p.filled + (want c f.size a - k) ≤ c then
        .ok (p.append (slice f.buf (k + a) (want c f.size a - k)))
      else .error .pipeFull := by
  have hwant : want c f.size a ≤ f.size - a := Nat.min_le_right _ _
  have hlen : (slice f.buf (k + a) (want c f.size a - k)).length = want c f.size a - k := by
    rw [length_slice]
    omega
  have hread : f.read ((k : Int) + a) ((want c f.size a : Int) - k)
      = .ok (slice f.buf (k + a) (want c f.size a - k)) := by
    have h := f.read_ok (a := k + a) (n := want c f.size a - k) (by omega)
    rw [← h]
    congr 1
    omega
  unfold fillAppend
  rw [hread]
  simp only [bind, Except.bind]
  have hn : (want c f.size a : Int) - k
      = ((slice f.buf (k + a) (want c f.size a - k)).length : Nat) := by
    rw [hlen]
    omega
  rw [hn]
  by_cases hroom : p.filled + (want c f.size a - k) ≤ c
  · rw [pipeBufVmsplice_all hpipe ho (by omega), if_pos hroom]
  · rw [if_neg hroom]
    have hcap := hpipe.cap_eq
    unfold pipeBufVmsplice
    rw [if_neg (by simp [hpipe.unlocked]), if_pos (by omega)]

/-- The pipe is in order and holds a prefix of the chunk; a worker between its
two steps saw the pipe as it is, or the chunk has been completed since. -/
structure Filling.Inv (c : Nat) (f : CacheFile) (a : Nat) (s : Filling ω) : Prop where
  pipe : PipeOk c s.curr
  held : s.curr.data <+: chunkOf c f a
  jobs : ∀ w job, s.job w = some job → ∃ k : Nat,
    job = ((k : Int) + a, (want c f.size a : Int) - k) ∧ k < want c f.size a ∧
      (k = s.curr.filled ∨ s.curr.filled = want c f.size a)

omit [DecidableEq ω] in
/-- The pipe of the chunk never holds more than the chunk. -/
theorem Filling.Inv.filled_le (h : s.Inv c f a) (hmap : f.buf.length = f.size) :
    s.curr.filled ≤ want c f.size a := by
  rw [h.pipe.filled_eq, ← length_chunkOf hmap]
  exact h.held.length_le

omit [DecidableEq ω] in
/-- In a state of the invariant the chunk is good. -/
theorem Filling.Inv.good (h : s.Inv c f a) (hmap : f.buf.length = f.size) : s.Good c f a :=
  ⟨h.held, h.pipe.filled_eq, h.filled_le hmap⟩

omit [DecidableEq ω] in
/-- **A fresh append completes the chunk.** -/
theorem Filling.Inv.append (h : s.Inv c f a)
    (hlt : s.curr.filled < want c f.size a) :
    (s.curr.append (slice f.buf (s.curr.filled + a) (want c f.size a - s.curr.filled))).data
      = chunkOf c f a := by
  have hprefix : s.curr.data = slice f.buf a s.curr.filled := by
    have htake := List.prefix_iff_eq_take.1 h.held
    rw [htake, chunkOf, take_slice, ← h.pipe.filled_eq]
    congr 1
    omega
  rw [PipeBuf.append_data, hprefix, Nat.add_comm s.curr.filled a, slice_append_slice, chunkOf]
  congr 1
  omega

/-- **Step lemma.**  A fresh step keeps the invariant and aborts nothing. -/
theorem Filling.Inv.step (h : s.Inv c f a) (hmap : f.buf.length = f.size) (ha : a ≤ f.size)
    {e : ω × FillAct} (hfresh : s.Fresh a e) :
    Ensures (s.step f a e) (fun out => out.2.Inv c f a) (fun _ => False) := by
  obtain ⟨w, act⟩ := e
  have hle := h.filled_le hmap
  cases act with
  | decide =>
      cases hjob : s.job w with
      | some job => simpa only [Filling.step, hjob, ensures_ok] using h
      | none =>
          simp only [Filling.step, hjob]
          rw [fillDecide_eq h.pipe ha hle]
          split
          · exact h
          · rename_i hne
            refine ⟨h.pipe, h.held, ?_⟩
            intro v job hv
            by_cases hvw : v = w
            · subst hvw
              simp only [Function.update_self, Option.some.injEq] at hv
              exact ⟨s.curr.filled, hv.symm, by omega, .inl rfl⟩
            · exact h.jobs v job (by simpa [hvw] using hv)
  | append =>
      cases hjob : s.job w with
      | none => simpa only [Filling.step, hjob, ensures_ok] using h
      | some job =>
          obtain ⟨k, rfl, hk, _⟩ := h.jobs w job hjob
          have hkeq : k = s.curr.filled := by
            have := hfresh _ hjob
            dsimp only at this
            omega
          subst hkeq
          have hwant : want c f.size a ≤ c := Nat.min_le_left _ _
          have hsub : want c f.size a ≤ f.size - a := Nat.min_le_right _ _
          have hlen : (slice f.buf (s.curr.filled + a) (want c f.size a - s.curr.filled)).length
              = want c f.size a - s.curr.filled := by
            rw [length_slice]
            omega
          have hdata := h.append hk
          simp only [Filling.step, hjob]
          rw [fillAppend_eq h.pipe hmap ha (fun _ => rfl) (Nat.le_of_lt hk), if_pos (by omega)]
          refine ⟨h.pipe.append (by omega), by rw [hdata], ?_⟩
          intro v job hv
          by_cases hvw : v = w
          · subst hvw
            simp at hv
          · obtain ⟨k, hkjob, hklt, _⟩ := h.jobs v job (by simpa [hvw] using hv)
            refine ⟨k, hkjob, hklt, .inr ?_⟩
            rw [PipeBuf.append_filled, hlen]
            omega

/-- A stale append finds the chunk complete and overfills the pipe, or there is
no room for it. -/
theorem Filling.Inv.stale (h : s.Inv c f a) (hmap : f.buf.length = f.size) (ha : a ≤ f.size)
    {e : ω × FillAct} (hstale : ¬ s.Fresh a e) :
    ¬ Ensures (s.step f a e) (fun out => out.2.Good c f a) (fun _ => False) := by
  obtain ⟨w, act⟩ := e
  cases act with
  | decide => exact absurd trivial hstale
  | append =>
      unfold Filling.Fresh at hstale
      push Not at hstale
      obtain ⟨job, hjob, hne⟩ := hstale
      obtain ⟨k, rfl, hk, hsaw⟩ := h.jobs w job hjob
      have hfull : s.curr.filled = want c f.size a := by
        rcases hsaw with rfl | hfull
        · exact absurd rfl hne
        · exact hfull
      have hsub : want c f.size a ≤ f.size - a := Nat.min_le_right _ _
      simp only [Filling.step, hjob]
      rw [fillAppend_eq h.pipe hmap ha (fun _ => rfl) (Nat.le_of_lt hk)]
      split
      · intro hgood
        obtain ⟨_, _, hle⟩ : Filling.Good c f a _ := hgood
        simp only [PipeBuf.append_filled, length_slice] at hle
        omega
      · exact id

omit [DecidableEq ω] in
/-- The invariant holds at the start. -/
theorem Filling.Start.inv {s₀ : Filling ω} (h : s₀.Start c f a) : s₀.Inv c f a where
  pipe := h.pipe
  held := h.held
  jobs w job hjob := by simp [h.idle w] at hjob

/-- **Concurrent filling.**  Along runs whose appends are all fresh, the pipe is
a prefix of its chunk and nothing aborts; the first append that is not fresh
aborts the server or leaves more in the pipe than the chunk. -/
theorem filling_good_iff (hmap : f.buf.length = f.size) (ha : a ≤ f.size) {s₀ : Filling ω}
    (hstart : s₀.Start c f a)
    (hrun : Reachable (guarded (Filling.Fresh a) (stepRel (Filling.step f a))) s₀ s) :
    s.Good c f a ∧ ∀ e,
      (Ensures (s.step f a e) (fun out => out.2.Good c f a) (fun _ => False) ↔
        s.Fresh a e) := by
  have hinv : s.Inv c f a := by
    refine hrun.invariant (fun s => s.Inv c f a) hstart.inv ?_
    intro s e s' _ hs hstep
    obtain ⟨hfresh, o, ho⟩ := hstep
    exact (hs.step hmap ha hfresh).of_ok ho
  refine ⟨hinv.good hmap, ?_⟩
  intro e
  constructor
  · intro hgood
    by_contra hstale
    exact hinv.stale hmap ha hstale hgood
  · intro hfresh
    exact (hinv.step hmap ha hfresh).imp_ok (fun _ h => h.good hmap)

/-- A file of two bytes. -/
def shortFile : CacheFile where
  fd := 3
  buf := [1, 2]
  size := 2
  uri := ['/', 'a']
  cache := [.fresh 4 1]
  cacheHeaders := .fresh 4 0
  evictable := true
  lastAccessed := ⟨0, 0⟩
  headerLen := 0
  zombie := false
  pendingReqs := 0

/-- Two workers at its only pipe. -/
def emptyFilling : Filling Bool := { curr := .fresh 4 1, job := fun _ => none }

/-- The sample starts with an empty pipe and no worker in the chunk. -/
theorem emptyFilling_start : emptyFilling.Start 4 shortFile 0 where
  pipe := pipeOk_fresh 4 1
  held := by simp [emptyFilling, PipeBuf.fresh]
  idle _ := rfl

/-- Two workers that both decided on the first chunk have not spoiled it before they append. -/
theorem filling_good_iff_both :
    ∃ s : Filling Bool, (∀ w, s.job w = some (0, 2)) ∧ s.Good 4 shortFile 0 := by
  have hrun : Reachable (guarded (Filling.Fresh 0) (stepRel (Filling.step shortFile 0)))
      emptyFilling _ :=
    .of_exec [(false, FillAct.decide), (true, FillAct.decide)]
      (by simp [Filling.Fresh]) rfl
  exact ⟨_, by decide, (filling_good_iff rfl (Nat.zero_le 2) emptyFilling_start hrun).1⟩

/-- Both workers append what they decided on, and the file is in the pipe twice. -/
theorem filling_twice :
    emptyFilling.Start 4 shortFile 0 ∧
      ∃ s, Reachable (stepRel (Filling.step shortFile 0)) emptyFilling s ∧
        s.curr.data = [1, 2, 1, 2] := by
  refine ⟨⟨pipeOk_fresh 4 1, by simp [emptyFilling, PipeBuf.fresh], fun _ => rfl⟩, ?_⟩
  have hrun : Reachable (guarded (fun _ _ => True) (stepRel (Filling.step shortFile 0)))
      emptyFilling _ :=
    .of_exec [(false, FillAct.decide), (true, FillAct.decide),
      (false, FillAct.append), (true, FillAct.append)] (fun _ _ _ => trivial) rfl
  exact ⟨_, hrun.mono (fun _ _ _ h => h.2), rfl⟩

end MonkeyCache
