import MonkeyCache.Serving

/-!
# What serving a request does to the pipes

`filled` is kept by hand beside the bytes of the kernel pipe.  Whatever the
kernel answers, a call that serves a request leaves every pipe of its file and
the private pipe of the request where they are, and leaves their counters right
where they were right (`PipeBuf.Refilled`).  `header_send` alone writes into a
pipe without counting; it is used on an empty one, and counted after.
-/

namespace MonkeyCache

open Fallible

variable {ι : Type} {f f' : CacheFile} {r r' : CacheReq ι} {p p' p'' : PipeBuf}

/-- The counter of the pipe is the number of bytes in it, and they fit. -/
structure PipeBuf.Exact (p : PipeBuf) : Prop where
  filled_eq : p.filled = p.data.length
  filled_le : p.filled ≤ p.cap

/-- `p'` is the pipe `p` after some bytes went in or out. -/
structure PipeBuf.Refilled (p p' : PipeBuf) : Prop where
  pipe : p'.pipe = p.pipe
  cap : p'.cap = p.cap
  keeps : p.Exact → p'.Exact

/-- A pipe left alone counts as refilled. -/
theorem PipeBuf.Refilled.refl (p : PipeBuf) : p.Refilled p :=
  ⟨rfl, rfl, id⟩

/-- Two refills of one pipe are one refill. -/
theorem PipeBuf.Refilled.trans (h : p.Refilled p') (h' : p'.Refilled p'') : p.Refilled p'' where
  pipe := h'.pipe.trans h.pipe
  cap := h'.cap.trans h.cap
  keeps hp := h'.keeps (h.keeps hp)

/-- The pipes of the file after some bytes went in or out. -/
structure CacheFile.Refilled (f f' : CacheFile) : Prop where
  fd : f'.fd = f.fd
  headers : f.cacheHeaders.Refilled f'.cacheHeaders
  cache : List.Forall₂ PipeBuf.Refilled f.cache f'.cache

/-- A chain of pipes left alone counts as refilled, pipe by pipe. -/
theorem refilled_refl (ps : List PipeBuf) : List.Forall₂ PipeBuf.Refilled ps ps :=
  List.forall₂_same.2 fun p _ => .refl p

/-- Two refills of one chain of pipes are one refill. -/
theorem refilled_trans {ps qs rs : List PipeBuf} (h : List.Forall₂ PipeBuf.Refilled ps qs)
    (h' : List.Forall₂ PipeBuf.Refilled qs rs) : List.Forall₂ PipeBuf.Refilled ps rs := by
  induction h generalizing rs with
  | nil => exact h'
  | cons hp _ ih =>
      cases h' with
      | cons hq hqs => exact .cons (hp.trans hq) (ih hqs)

/-- One pipe of a chain is refilled. -/
theorem refilled_set {ps : List PipeBuf} {i : Nat} (hp : ps[i]? = some p) (h : p.Refilled p') :
    List.Forall₂ PipeBuf.Refilled ps (ps.set i p') := by
  induction ps generalizing i with
  | nil => cases hp
  | cons q qs ih =>
      cases i with
      | zero =>
          cases hp
          exact .cons h (refilled_refl qs)
      | succ i => exact .cons (.refl q) (ih hp)

/-- An object left alone counts as refilled. -/
theorem CacheFile.Refilled.refl (f : CacheFile) : f.Refilled f :=
  ⟨rfl, .refl _, refilled_refl _⟩

/-- Two refills of one object are one refill. -/
theorem CacheFile.Refilled.trans {f'' : CacheFile} (h : f.Refilled f') (h' : f'.Refilled f'') :
    f.Refilled f'' where
  fd := h'.fd.trans h.fd
  headers := h.headers.trans h'.headers
  cache := refilled_trans h.cache h'.cache

/-! ## Bytes in and out -/

/-- A `tee` that is counted. -/
theorem tee_refilled {x : Xfer} {src : PipeBuf} {len n : Nat}
    (h : tee x src p len = .ok (n, p')) : p.Refilled { p' with filled := p.filled + n } := by
  obtain ⟨_, _, hsrc, hroom, rfl⟩ := tee_ok h
  refine ⟨rfl, rfl, ?_⟩
  intro hp
  have heq := hp.filled_eq
  have hle := hp.filled_le
  refine ⟨?_, ?_⟩
  · simp only [List.length_append, List.length_take]
    omega
  · show p.filled + n ≤ p.cap
    omega

/-- A `splice` that is counted. -/
theorem splice_refilled {x : Xfer} {len n : Nat} {out : List Byte}
    (h : splice x p len = .ok (n, out, p')) : p.Refilled { p' with filled := p.filled - n } := by
  obtain ⟨_, _, hdata, _, rfl⟩ := splice_ok h
  refine ⟨rfl, rfl, ?_⟩
  intro hp
  have heq := hp.filled_eq
  have hle := hp.filled_le
  refine ⟨?_, ?_⟩
  · simp only [List.length_drop]
    omega
  · show p.filled - n ≤ p.cap
    omega

/-- A `vmsplice` that is counted. -/
theorem vmsplice_refilled {x : Xfer} {mem : List Byte} {n : Nat}
    (h : vmsplice x p mem = .ok (n, p')) : p.Refilled { p' with filled := p'.filled + n } := by
  unfold vmsplice at h
  split at h
  · cases h
  · rename_i m hcount
    cases h
    have hm := (Xfer.count_ok hcount).2
    refine ⟨rfl, rfl, ?_⟩
    intro hp
    have heq := hp.filled_eq
    have hle := hp.filled_le
    refine ⟨?_, ?_⟩
    · simp only [List.length_append, List.length_take]
      omega
    · show p.filled + n ≤ p.cap
      omega

/-- **What `pipe_buf_vmsplice` does to a pipe**, also where it returns early. -/
theorem pipeBufVmsplice_refilled (p : PipeBuf) (mem : List Byte) (len : Int) (o : Nat → Xfer) :
    Ensures (pipeBufVmsplice p mem len o) (fun out => p.Refilled out.2) (fun _ => True) := by
  unfold pipeBufVmsplice
  apply Ensures.guard (fun _ => trivial)
  intro _
  apply Ensures.guard (fun _ => trivial)
  intro _
  apply Ensures.guard (fun _ => trivial)
  intro _
  refine Ensures.iterate_partial (fun s : Nat × PipeBuf => p.Refilled s.2) trivial ?_ _ _ _
    ⟨rfl, rfl, fun hp => ⟨hp.filled_eq, hp.filled_le⟩⟩
  intro k s hs
  unfold vmspliceRound
  split
  · cases hmove : vmsplice (o k) s.2 (mem.take len.toNat) with
    | error e =>
        cases e with
        | eagain => exact hs
        | other => exact hs
    | ok next => exact hs.trans (vmsplice_refilled hmove)
  · exact hs.trans ⟨rfl, rfl, fun hp => ⟨hp.filled_eq, hp.filled_le⟩⟩

/-! ## Emptying -/

/-- An exact pipe whose count is zero holds no byte. -/
theorem PipeBuf.Exact.data_nil (h : p.Exact) (hempty : p.filled = 0) : p.data = [] :=
  List.length_eq_zero_iff.1 (h.filled_eq ▸ hempty)

/-- What `pipe_buf_new` and `cache_req_new` do to a pipe they hand out again. -/
theorem emptied_refilled (p : PipeBuf) (x : Xfer) :
    Ensures (emptied p x) (fun p' => p.Refilled p' ∧ p'.filled = 0) (fun _ => True) := by
  unfold emptied
  have hflush : Ensures (if p.filled ≠ 0 then pipeBufFlush p x else .ok p)
      (fun p' => p.Refilled p') (fun _ => True) := by
    apply Ensures.ite
    · intro _
      unfold pipeBufFlush
      cases hsplice : splice x p p.filled with
      | error e => trivial
      | ok out =>
          apply Ensures.guard (fun _ => trivial)
          intro _
          exact splice_refilled hsplice
    · intro _
      exact .refl p
  apply hflush.bind
  intro p' hp'
  apply Ensures.guard (fun _ => trivial)
  intro hempty
  exact ⟨hp', not_not.1 hempty⟩

/-- **Handing out a pipe.**  It comes from the pool and was emptied, or it is new. -/
theorem pipeBufNew_cases {size : Nat} {pp pp' : PipePool} {x : PipeOut}
    (h : pipeBufNew size pp x = .ok (p, pp')) :
    (∃ first rest, pp.pool = first :: rest ∧ first.Refilled p ∧ p.filled = 0 ∧
      pp' = { pp with pool := rest }) ∨
    (pp.pool = [] ∧ p = .fresh size pp.made ∧
      pp' = { pp with made := pp.made + 1, memUsed := pp.memUsed + size }) := by
  unfold pipeBufNew at h
  cases hpool : pp.pool with
  | cons first rest =>
      rw [hpool] at h
      obtain ⟨buf, hemptied, h⟩ := bind_eq_ok.1 h
      cases h
      obtain ⟨hrefilled, hempty⟩ := (emptied_refilled first x.flush).of_ok hemptied
      exact .inl ⟨first, rest, rfl, hrefilled, hempty, rfl⟩
  | nil =>
      rw [hpool] at h
      dsimp only at h
      split at h
      · cases h
        exact .inr ⟨rfl, rfl, rfl⟩
      · cases h

/-! ## The serving loop -/

/-- What a call that serves `r` on `f` does to pipes. -/
structure Poured (f : CacheFile) (r : CacheReq ι) (f' : CacheFile) (r' : CacheReq ι) : Prop where
  file : f.Refilled f'
  buf : r.buf.Refilled r'.buf

/-- Doing nothing pours nothing. -/
theorem Poured.refl (f : CacheFile) (r : CacheReq ι) : Poured f r f r :=
  ⟨.refl f, .refl r.buf⟩

/-- Pourings compose, from the object and the request to their last versions. -/
theorem Poured.trans {f'' : CacheFile} {r'' : CacheReq ι} (h : Poured f r f' r')
    (h' : Poured f' r' f'' r'') : Poured f r f'' r'' :=
  ⟨h.file.trans h'.file, h.buf.trans h'.buf⟩

/-- Filling the current chunk only refills the object. -/
theorem cacheReqFillCurr_refilled (f : CacheFile) (r : CacheReq ι) (o : Nat → Xfer) :
    Ensures (cacheReqFillCurr f r o) (fun out => f.Refilled out.2) (fun _ => True) := by
  unfold cacheReqFillCurr
  split
  · trivial
  · rename_i i _
    split
    · trivial
    · rename_i curr hcurr
      apply Ensures.guard (fun _ => trivial)
      intro _
      apply Ensures.guard (fun _ => trivial)
      intro _
      refine Ensures.ite (fun _ => CacheFile.Refilled.refl f) ?_
      intro _
      apply Ensures.ite
      · intro _
        have hread : ∀ a n, Ensures (f.read a n) (fun _ => True) (fun _ => True) := by
          intro a n
          exact Ensures.guard (fun _ => trivial) (fun _ => trivial)
        apply (hread _ _).bind
        intro mem _
        apply (pipeBufVmsplice_refilled _ _ _ _).bind
        intro filled hfilled
        exact ⟨rfl, .refl _, refilled_set hcurr hfilled⟩
      · intro _
        exact .refl f

/-- The filling half of a round only pours between the object and the request. -/
theorem fillBuffer_poured (f : CacheFile) (r : CacheReq ι) (o : RoundOut) :
    Ensures (fillBuffer f r o) (fun out => Poured f r out.2.1 out.2.2) (fun _ => True) := by
  unfold fillBuffer
  split
  · exact .refl f r
  · apply (cacheReqFillCurr_refilled f r o.fill).bind
    intro filled hfilled
    apply Ensures.ite
    · intro _
      split
      · trivial
      · rename_i curr _
        cases htee : tee o.tee curr r.buf curr.filled with
        | error e =>
            cases e with
            | eagain => exact ⟨hfilled, .refl _⟩
            | other => exact ⟨hfilled, .refl _⟩
        | ok out => exact ⟨hfilled, tee_refilled htee⟩
    · intro _
      exact ⟨hfilled, .refl _⟩

/-- The sending half of a round only pours, whether the round goes on or returns. -/
theorem sendBuffer_poured (f : CacheFile) (r : CacheReq ι) (x : Xfer) :
    Ensures (sendBuffer f r x)
      (Sum.elim (fun s => Poured f r s.1 s.2) (fun out => Poured f r out.2.1 out.2.2))
      (fun _ => True) := by
  unfold sendBuffer
  refine Ensures.ite (fun _ => Poured.refl f r) ?_
  intro _
  cases hsplice : splice x r.buf r.buf.filled with
  | error e =>
      cases e with
      | eagain => exact .refl f r
      | other => exact .refl f r
  | ok out =>
      apply Ensures.guard (fun _ => trivial)
      intro _
      exact ⟨.refl f, splice_refilled hsplice⟩

/-- A whole round only pours, whether the loop goes on or returns. -/
theorem spliceRound_poured (o : Nat → RoundOut) (k : Nat) (s : CacheFile × CacheReq ι) :
    Ensures (spliceRound o k s)
      (Sum.elim (fun s' => Poured s.1 s.2 s'.1 s'.2)
        (fun out => Poured s.1 s.2 out.2.1 out.2.2)) (fun _ => True) := by
  unfold spliceRound
  apply Ensures.ite
  · intro _
    apply Ensures.guard (fun _ => trivial)
    intro _
    apply (fillBuffer_poured s.1 s.2 (o k)).bind
    intro next hnext
    apply Ensures.ite
    · intro _
      apply (sendBuffer_poured next.2.1 next.2.2 (o k).splice).imp_ok
      intro out hout
      cases out with
      | inl s' => exact hnext.trans hout
      | inr out => exact hnext.trans hout
    · intro _
      exact hnext
  · intro _
    exact .refl s.1 s.2

/-- **What `socket_serve_req_splice` does to pipes.** -/
theorem socketServeReqSplice_poured (f : CacheFile) (r : CacheReq ι) (o : Nat → RoundOut) :
    Ensures (socketServeReqSplice f r o) (fun out => Poured f r out.2.1 out.2.2)
      (fun _ => True) := by
  refine Ensures.iterate_partial (fun s : CacheFile × CacheReq ι => Poured f r s.1 s.2) trivial
    ?_ _ _ _ (.refl f r)
  intro k s hs
  apply (spliceRound_poured o k s).imp_ok
  intro out hout
  cases out with
  | inl s' => exact hs.trans hout
  | inr out => exact hs.trans hout

/-! ## Headers -/

/-- The header pipe, into which `header_send` wrote while it was empty. -/
theorem fillLeftover_refilled (hempty : p.filled = 0) (first : PipeBuf) (header : List Byte)
    (x : Xfer) :
    Ensures (fillLeftover first
        { p with data := p.data ++ header.take (p.cap - p.data.length) } x)
      (fun p' => p.Refilled p') (fun _ => True) := by
  have hsent : p.Refilled
      { p with
        data := p.data ++ header.take (p.cap - p.data.length)
        filled := (p.data ++ header.take (p.cap - p.data.length)).length } := by
    refine ⟨rfl, rfl, ?_⟩
    intro hp
    have heq := hp.filled_eq
    have hle := hp.filled_le
    refine ⟨rfl, ?_⟩
    simp only [List.length_append, List.length_take]
    omega
  unfold fillLeftover
  apply Ensures.ite
  · intro _
    cases htee : tee x first
        { p with data := p.data ++ header.take (p.cap - p.data.length) } first.filled with
    | error e => trivial
    | ok out =>
        obtain ⟨n, p'⟩ := out
        obtain ⟨_, _, hsrc, hroom, rfl⟩ := tee_ok htee
        refine hsent.trans ⟨rfl, rfl, ?_⟩
        intro hp
        have hle := hp.filled_le
        dsimp only at hle hroom
        refine ⟨?_, ?_⟩
        · simp only [List.length_append, List.length_take]
          omega
        · dsimp only
          omega
  · intro _
    exact hsent

/-- Preparing the headers of an object only refills it. -/
theorem prepareHeaders_refilled (f : CacheFile) (e : StartOut) :
    Ensures (prepareHeaders f e) (fun f' => f.Refilled f') (fun _ => True) := by
  unfold prepareHeaders fillCacheHeaders
  apply Ensures.ite
  · intro hempty
    refine Ensures.ite (fun _ => CacheFile.Refilled.refl f) ?_
    intro _
    dsimp only
    split
    · trivial
    · apply (fillLeftover_refilled hempty _ _ _).bind
      intro filled hfilled
      apply Ensures.guard (fun _ => trivial)
      intro _
      exact ⟨rfl, hfilled, refilled_refl _⟩
  · intro _
    exact .refl f

/-- Teeing the headers into a request only refills the buffer of the request. -/
theorem attachHeaders_refilled (f : CacheFile) (r : CacheReq ι) (e : StartOut) :
    Ensures (attachHeaders f r e) (fun r' => r.buf.Refilled r'.buf) (fun _ => True) := by
  unfold attachHeaders serveCacheHeaders
  refine Ensures.ite (fun _ => PipeBuf.Refilled.refl r.buf) ?_
  intro _
  cases htee : tee e.serveTee f.cacheHeaders r.buf f.cacheHeaders.filled with
  | error e => trivial
  | ok out =>
      apply Ensures.guard (fun _ => trivial)
      intro _
      exact tee_refilled htee

/-- **What the start of a request does to pipes.** -/
theorem startReq_poured (f : CacheFile) (file : ι) (socket : Int) (buf : PipeBuf) (e : StartOut) :
    Ensures (startReq f file socket buf e)
      (fun out => f.Refilled out.2.1 ∧ buf.Refilled out.2.2.buf) (fun _ => True) := by
  unfold startReq
  apply (cacheReqFillCurr_refilled _ _ _).bind
  intro filled hfilled
  apply Ensures.guard (fun _ => trivial)
  intro _
  apply (prepareHeaders_refilled filled.2 e).bind
  intro f' hf'
  apply (attachHeaders_refilled f' _ e).bind
  intro r' hr'
  apply (socketServeReqSplice_poured f' r' e.serve).imp_ok
  intro out hout
  have hfile : f.Refilled filled.2 := ⟨hfilled.fd, hfilled.headers, hfilled.cache⟩
  exact ⟨(hfile.trans hf').trans hout.file, hr'.trans hout.buf⟩

end MonkeyCache
