import MonkeyCache.CacheReq

/-!
# Sending a file over a socket (`socket.c`)

`socketServeReqSplice` is the loop that fills the private pipe of a request
from the file's chain and splices it to the socket, until the socket blocks or
nothing is left to send.  One round is `spliceRound`; it is cut into the part
that fills the private pipe (`fillBuffer`) and the part that sends it
(`sendBuffer`).
-/

namespace MonkeyCache

open Fallible Chunks

variable {ι : Type}

/-- The kernel's answers in one round of the loop: to the `vmsplice` calls of
`cache_req_fill_curr`, to the `tee` and to the `splice`. -/
structure RoundOut where
  fill : Nat → Xfer
  tee : Xfer
  splice : Xfer

/-- The pipe after the `i`-th of the chain; past the last one there is none. -/
def CacheFile.nextPipe (f : CacheFile) (i : Nat) : Option Nat :=
  if i + 1 = f.cache.length then none else some (i + 1)

/-- The request after `tee` has copied `n` bytes of `curr` into its pipe. -/
def CacheReq.teed (r : CacheReq ι) (curr : PipeBuf) (n : Nat) (next : Option Nat) :
    CacheReq ι :=
  { r with buf := r.buf.append (curr.data.take n), curr := next }

/-- Lines 40 to 74 of `socket_serve_req_splice`.  The Boolean is false when the
call returns -1 here. -/
def fillBuffer (f : CacheFile) (r : CacheReq ι) (o : RoundOut) :
    Except Fault (Bool × CacheFile × CacheReq ι) :=
  match r.curr with
  | none => .ok (true, f, r)
  | some i => do
    let filled ← cacheReqFillCurr f r o.fill
    let f := filled.2
    if filled.1 = 0 ∧ r.buf.filled = 0 then
      match f.cache[i]? with
      | none => .error .noPipe
      | some curr =>
        match tee o.tee curr r.buf curr.filled with
        | .error .eagain => .ok (true, f, r)
        | .error .other => .ok (false, f, r)
        | .ok (pbytes, buf) =>
          .ok (true, f, { r with
            buf := { buf with filled := r.buf.filled + pbytes }
            curr := f.nextPipe i })
    else .ok (true, f, r)

/-- Lines 76 to 108 of `socket_serve_req_splice`. -/
def sendBuffer (f : CacheFile) (r : CacheReq ι) (x : Xfer) :
    Except Fault ((CacheFile × CacheReq ι) ⊕ (Int × CacheFile × CacheReq ι)) :=
  if r.buf.filled = 0 then .ok (.inr (r.bytesToSend, f, r))
  else
    match splice x r.buf r.buf.filled with
    | .error .eagain => .ok (.inr (r.bytesToSend, f, r))
    | .error .other => .ok (.inr (-1, f, r))
    | .ok (pbytes, out, buf) =>
      let r' := { r with
        buf := { buf with filled := r.buf.filled - pbytes }
        bytesToSend := r.bytesToSend - pbytes
        bytesOffset := r.bytesOffset + pbytes
        sent := r.sent ++ out }
      if r'.bytesToSend < 0 then .error .oversent else .ok (.inl (f, r'))

/-- One round of the loop of `socket_serve_req_splice`. -/
def spliceRound (o : Nat → RoundOut) (k : Nat) (s : CacheFile × CacheReq ι) :
    Except Fault ((CacheFile × CacheReq ι) ⊕ (Int × CacheFile × CacheReq ι)) :=
  if 0 < s.2.bytesToSend ∧ (s.2.curr.isSome ∨ s.2.buf.filled ≠ 0) then
    if s.2.bytesOffset + s.2.bytesToSend ≠ s.1.size then .error .lengthMismatch
    else do
      let next ← fillBuffer s.1 s.2 (o k)
      if next.1 then sendBuffer next.2.1 next.2.2 (o k).splice
      else .ok (.inr (-1, next.2))
  else .ok (.inr (s.2.bytesToSend, s))

/-- `socket_serve_req_splice`: the value it returns, the file and the request.
Every round that goes on sends a byte at least, so the bound on the rounds is
never reached. -/
def socketServeReqSplice (f : CacheFile) (r : CacheReq ι) (o : Nat → RoundOut) :
    Except Fault (Int × CacheFile × CacheReq ι) :=
  iterate .diverged (spliceRound o) (r.bytesToSend.toNat + 1) 0 (f, r)

/-! ## What the two halves of a round do -/

/-- The file after a request at position `i` and offset `a` has filled its pipe. -/
def CacheFile.afterFill (f : CacheFile) (c i a : Nat) : CacheFile :=
  match f.cache[i]? with
  | none => f
  | some p =>
    if p.filled < want c f.size a then
      f.fillPipe i p (slice f.buf (p.filled + a) (want c f.size a - p.filled))
    else f

variable {c : Nat} {f : CacheFile} {r : CacheReq ι}

/-- What `fillBuffer` can do when every `vmsplice` takes everything: nothing for
a request that is past the last pipe; otherwise it fills the pipe at which the
request stands and, if the private pipe is empty and the other one holds exactly
the chunk that is wanted, may copy some of it and step to the next pipe. -/
inductive FillBuffer (c : Nat) (f : CacheFile) (r : CacheReq ι) (x : Xfer) :
    Bool × CacheFile × CacheReq ι → Prop
  | past (hcurr : r.curr = none) : FillBuffer c f r x (true, f, r)
  | stay {i a : Nat} {go : Bool} (hcurr : r.curr = some i) (hoff : r.off = a)
      (hgo : go = true ∨ x = .error)
      (hstay : x = .all → r.buf.filled = 0 →
        ∀ p, (f.afterFill c i a).cache[i]? = some p → p.filled ≠ want c f.size a) :
      FillBuffer c f r x (go, f.afterFill c i a, r)
  | copy {i a n : Nat} {p : PipeBuf} (hcurr : r.curr = some i) (hoff : r.off = a)
      (hempty : r.buf.filled = 0) (hp : (f.afterFill c i a).cache[i]? = some p)
      (hfull : p.filled = want c f.size a) (hpos : 0 < n) (hle : n ≤ p.filled)
      (hall : x = .all → n = p.filled) :
      FillBuffer c f r x
        (true, f.afterFill c i a, r.teed p n (f.nextPipe i))

/-- A fill leaves the size. -/
@[simp] theorem CacheFile.afterFill_size (f : CacheFile) (c i a : Nat) :
    (f.afterFill c i a).size = f.size := by
  unfold afterFill
  split
  · rfl
  · split <;> rfl

/-- A fill leaves the map. -/
@[simp] theorem CacheFile.afterFill_buf (f : CacheFile) (c i a : Nat) :
    (f.afterFill c i a).buf = f.buf := by
  unfold afterFill
  split
  · rfl
  · split <;> rfl

/-- A fill leaves the number of chunks. -/
@[simp] theorem CacheFile.afterFill_length (f : CacheFile) (c i a : Nat) :
    (f.afterFill c i a).cache.length = f.cache.length := by
  unfold afterFill
  split
  · rfl
  · split <;> simp [fillPipe]

/-- The pipe at which the request stands, after the fill. -/
theorem CacheFile.afterFill_self {i a : Nat} {p : PipeBuf} (hp : f.cache[i]? = some p) :
    (f.afterFill c i a).cache[i]? = some
      (if p.filled < want c f.size a then
        p.append (slice f.buf (p.filled + a) (want c f.size a - p.filled))
      else p) := by
  have hi : i < f.cache.length := (List.getElem?_eq_some_iff.1 hp).1
  unfold afterFill
  rw [hp]
  dsimp only
  split
  · simp [fillPipe, hi]
  · exact hp

/-- The other pipes are left alone. -/
theorem CacheFile.afterFill_other {i j a : Nat} (hij : i ≠ j) :
    (f.afterFill c i a).cache[j]? = f.cache[j]? := by
  unfold afterFill
  split
  · rfl
  · split
    · simp [fillPipe, List.getElem?_set_ne hij]
    · rfl

/-- A fill leaves every counter of the chain right. -/
theorem CacheFile.afterFill_pipes {i a : Nat} (hpipes : ∀ p ∈ f.cache, PipeOk c p) :
    ∀ p ∈ (f.afterFill c i a).cache, PipeOk c p := by
  unfold afterFill
  split
  · exact hpipes
  · rename_i p hp
    split
    · rename_i hlt
      have hpipe := hpipes p (List.mem_of_getElem? hp)
      have hbytes : p.filled + (slice f.buf (p.filled + a) (want c f.size a - p.filled)).length
          ≤ c := by
        have hwant : want c f.size a ≤ c := Nat.min_le_left _ _
        rw [length_slice]
        omega
      intro q hq
      rcases List.mem_or_eq_of_mem_set hq with hq | rfl
      · exact hpipes q hq
      · exact hpipe.append hbytes
    · exact hpipes

/-- A fill leaves the order of the chunks. -/
@[simp] theorem CacheFile.afterFill_nextPipe (f : CacheFile) (c i a j : Nat) :
    (f.afterFill c i a).nextPipe j = f.nextPipe j := by
  simp [nextPipe]

/-- What `cache_req_fill_curr` returns, and the file it leaves. -/
theorem cacheReqFillCurr_afterFill {o : Nat → Xfer} {i a : Nat} {p : PipeBuf}
    (ho : ∀ k, o k = .all) (hcurr : r.curr = some i) (hp : f.cache[i]? = some p)
    (hpipe : PipeOk c p) (hlen : f.buf.length = f.size)
    (hoff : r.off = a) (ha : a ≤ f.size) :
    ∃ ret, cacheReqFillCurr f r o = .ok (ret, f.afterFill c i a) ∧
      ∀ p', (f.afterFill c i a).cache[i]? = some p' →
        (ret = 0 ↔ p'.filled = want c f.size a) := by
  rw [cacheReqFillCurr_eq ho hcurr hp hpipe hlen hoff ha]
  have hself := f.afterFill_self (c := c) (a := a) hp
  by_cases hlt : p.filled < want c f.size a
  · refine ⟨0, ?_, ?_⟩
    · simp [CacheFile.afterFill, hp, hlt]
    · intro p' hp'
      rw [if_pos hlt] at hself
      cases hself.symm.trans hp'
      have hsub : want c f.size a ≤ f.size - a := Nat.min_le_right _ _
      simp
      omega
  · refine ⟨(want c f.size a : Int) - p.filled, ?_, ?_⟩
    · simp [CacheFile.afterFill, hp, hlt]
    · intro p' hp'
      rw [if_neg hlt] at hself
      cases hself.symm.trans hp'
      omega

/-- **What the first half of a round does.**  A request whose private pipe is
empty still has some of the file to take, or its loop would have ended. -/
theorem fillBuffer_cases {o : RoundOut} (hc : 0 < c) (ho : ∀ k, o.fill k = .all)
    (hpipes : ∀ p ∈ f.cache, PipeOk c p) (hlen : f.buf.length = f.size)
    (hin : ∀ i, r.curr = some i → i < f.cache.length) (hbuf : PipeOk c r.buf)
    {a : Nat} (hoff : r.off = a) (ha : a ≤ f.size) (hmore : r.buf.filled = 0 → a < f.size) :
    Ensures (fillBuffer f r o) (FillBuffer c f r o.tee) (fun _ => False) := by
  unfold fillBuffer
  cases hcurr : r.curr with
  | none => exact .past hcurr
  | some i =>
      have hi := hin i hcurr
      have hp : f.cache[i]? = some f.cache[i] := List.getElem?_eq_getElem hi
      have hpipe := hpipes _ (List.getElem_mem hi)
      obtain ⟨ret, hret, hzero⟩ :=
        cacheReqFillCurr_afterFill ho hcurr hp hpipe hlen hoff ha
      obtain ⟨q, hq⟩ : ∃ q, (f.afterFill c i a).cache[i]? = some q :=
        ⟨_, f.afterFill_self hp⟩
      have hqok : PipeOk c q := CacheFile.afterFill_pipes hpipes q (List.mem_of_getElem? hq)
      have hqlen := hqok.filled_eq
      simp only [hret, bind, Except.bind]
      split
      · rename_i hcond
        have hfull : q.filled = want c f.size a := (hzero q hq).1 hcond.1
        have hblen := hbuf.filled_eq
        simp only [hq]
        cases htee : tee o.tee q r.buf q.filled with
        | error e =>
            -- a `tee` that copies everything has something to copy, and room for it
            have hx : o.tee ≠ .all := by
              intro hx
              have hwant : 0 < want c f.size a := by
                have := hmore hcond.2
                unfold want
                omega
              have hle := hqok.filled_le
              have hcap := hbuf.cap_eq
              rw [hx, hqlen, tee_all (by omega) (List.length_eq_zero_iff.1 (by omega))
                (by omega)] at htee
              cases htee
            cases e with
            | eagain => exact .stay hcurr hoff (.inl rfl) (fun h => absurd h hx)
            | other => exact .stay hcurr hoff (.inr (tee_other htee)) (fun h => absurd h hx)
        | ok out =>
            obtain ⟨n, buf⟩ := out
            obtain ⟨hpos, hle, hdata, hroom, hdst⟩ := tee_ok htee
            have hteed : ({ r with
                buf := { buf with filled := r.buf.filled + n }
                curr := (f.afterFill c i a).nextPipe i } : CacheReq ι)
                = r.teed q n (f.nextPipe i) := by
              simp [CacheReq.teed, PipeBuf.append, hdst, Nat.min_eq_left hdata]
            dsimp only
            rw [hteed, ensures_ok]
            refine .copy hcurr hoff hcond.2 hq hfull hpos hle ?_
            intro hx
            have hcap := hbuf.cap_eq
            have hqle := hqok.filled_le
            rw [hx, hqlen, tee_all (by omega) (List.length_eq_zero_iff.1 (by omega))
              (by omega)] at htee
            cases htee
            exact hqlen.symm
      · rename_i hcond
        refine .stay hcurr hoff (.inl rfl) (fun _ hempty p hp' => ?_)
        intro heq
        exact hcond ⟨(hzero p hp').2 heq, hempty⟩

/-- What the second half of a round can do: end the call because nothing can be
sent, or send a nonempty part of the private pipe. -/
inductive SendBuffer (f : CacheFile) (r : CacheReq ι) (x : Xfer) :
    (CacheFile × CacheReq ι) ⊕ (Int × CacheFile × CacheReq ι) → Prop
  | stop {ret : Int} (hret : ret = r.bytesToSend ∨ ret = -1)
      (hwhy : r.buf.filled = 0 ∨ x = .eagain ∨ x = .error) :
      SendBuffer f r x (.inr (ret, f, r))
  | sent {n : Nat} (hpos : 0 < n) (hle : n ≤ r.buf.filled) :
      SendBuffer f r x (.inl (f, { r with
        buf := { r.buf with data := r.buf.data.drop n, filled := r.buf.filled - n }
        bytesToSend := r.bytesToSend - n
        bytesOffset := r.bytesOffset + n
        sent := r.sent ++ r.buf.data.take n }))

/-- **What the second half of a round does.** -/
theorem sendBuffer_cases {x : Xfer} (hbuf : PipeOk c r.buf)
    (hmany : (r.buf.filled : Int) ≤ r.bytesToSend) :
    Ensures (sendBuffer f r x) (SendBuffer f r x) (fun _ => False) := by
  have hlen := hbuf.filled_eq
  unfold sendBuffer
  split
  · rename_i hzero
    exact .stop (.inl rfl) (.inl hzero)
  · rename_i hsome
    have hroom : min r.buf.filled r.buf.data.length ≠ 0 := by omega
    cases hsp : splice x r.buf r.buf.filled with
    | error e =>
        have hx : x = .eagain ∨ x = .error := by
          cases x with
          | all => simp [splice, Xfer.count, hroom] at hsp
          | short n => simp [splice, Xfer.count, hroom] at hsp
          | eagain => exact .inl rfl
          | error => exact .inr rfl
        cases e with
        | eagain => exact .stop (.inl rfl) (.inr hx)
        | other => exact .stop (.inr rfl) (.inr hx)
    | ok out =>
        obtain ⟨n, out, buf⟩ := out
        obtain ⟨hpos, hle, _, rfl, rfl⟩ := splice_ok hsp
        dsimp only
        rw [if_neg (by omega)]
        exact .sent hpos hle

end MonkeyCache
