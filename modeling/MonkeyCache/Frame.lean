import MonkeyCache.Serving

/-!
# What serving a request leaves alone

Whatever the kernel answers, a call that serves a request changes nothing of its
file but the pipes and the length of the headers (`CacheFile.core`), nothing of
the socket and the file of the request, and it touches no other file object, so
it never uses a freed one.
-/

namespace MonkeyCache

open Fallible

variable {ι : Type} {f : CacheFile} {r : CacheReq ι}

/-- A fault other than the use of a freed file object. -/
def Fault.Live (e : Fault) : Prop := e ≠ .useAfterFree

/-- The file without its pipes and without what is known about its headers. -/
def CacheFile.core (f : CacheFile) : CacheFile :=
  { f with cache := [], cacheHeaders := .fresh 0 0, headerLen := 0 }

/-! ## Pipes -/

/-- Filling a pipe touches no object. -/
theorem pipeBufVmsplice_live (buf : PipeBuf) (mem : List Byte) (len : Int) (o : Nat → Xfer) :
    Ensures (pipeBufVmsplice buf mem len o) (fun _ => True) Fault.Live := by
  unfold pipeBufVmsplice
  refine Ensures.guard (fun _ => nofun) fun _ => ?_
  refine Ensures.guard (fun _ => nofun) fun _ => ?_
  refine Ensures.guard (fun _ => nofun) fun _ => ?_
  refine Ensures.iterate_partial (fun _ => True) nofun ?_ _ _ _ trivial
  intro k s _
  unfold vmspliceRound
  split
  · split <;> trivial
  · trivial

/-- Nor does emptying one. -/
theorem emptied_live (buf : PipeBuf) (x : Xfer) :
    Ensures (emptied buf x) (fun _ => True) Fault.Live := by
  have hflush : Ensures (if buf.filled ≠ 0 then pipeBufFlush buf x else .ok buf)
      (fun _ => True) Fault.Live := by
    refine Ensures.ite (fun _ => ?_) (fun _ => trivial)
    unfold pipeBufFlush
    split
    · exact nofun
    · exact Ensures.guard (fun _ => nofun) (fun _ => trivial)
  exact hflush.bind fun _ _ => Ensures.guard (fun _ => nofun) (fun _ => trivial)

/-- A pipe is made without a look at any object. -/
theorem pipeBufNew_live (size : Nat) (pp : PipePool) (o : PipeOut) :
    Ensures (pipeBufNew size pp o) (fun _ => True) Fault.Live := by
  unfold pipeBufNew
  split
  · exact (emptied_live _ _).bind fun _ _ => trivial
  · exact Ensures.ite (fun _ => trivial) (fun _ => nofun)

/-- So is the chain of a file. -/
theorem newChain_live (size len : Nat) (o : Nat → PipeOut) (pp : PipePool) :
    Ensures (newChain size len o pp) (fun _ => True) Fault.Live := by
  refine Ensures.iterate_partial (fun _ => True) nofun ?_ _ _ _ trivial
  intro k s _
  exact Ensures.ite (fun _ => (pipeBufNew_live _ _ _).bind fun _ _ => trivial) (fun _ => trivial)

/-- A request is made without a look at its file. -/
theorem cacheReqNew_live (size : Nat) (ps : Pools) (o : PipeOut) :
    Ensures (cacheReqNew size ps o) (fun _ => True) Fault.Live := by
  unfold cacheReqNew
  split
  · exact (emptied_live _ _).bind fun _ _ => trivial
  · exact (pipeBufNew_live _ _ _).bind fun _ _ =>
      Ensures.guard (fun _ => nofun) (fun _ => trivial)

/-! ## The serving loop -/

/-- Filling the current pipe changes the file only in its pipes. -/
theorem cacheReqFillCurr_core (f : CacheFile) (r : CacheReq ι) (o : Nat → Xfer) :
    Ensures (cacheReqFillCurr f r o) (fun out => out.2.core = f.core) Fault.Live := by
  unfold cacheReqFillCurr
  split
  · exact nofun
  · split
    · exact nofun
    · refine Ensures.guard (fun _ => nofun) fun _ => ?_
      refine Ensures.guard (fun _ => nofun) fun _ => ?_
      refine Ensures.ite (fun _ => rfl) fun _ => ?_
      refine Ensures.ite (fun _ => ?_) (fun _ => rfl)
      have hread : ∀ a n, Ensures (f.read a n) (fun _ => True) Fault.Live := fun _ _ =>
        Ensures.guard (fun _ => nofun) (fun _ => trivial)
      exact (hread _ _).bind fun _ _ => (pipeBufVmsplice_live _ _ _ _).bind fun _ _ => rfl

/-- What a call that serves `r` on `f` leaves alone. -/
def Kept (f : CacheFile) (r : CacheReq ι) (f' : CacheFile) (r' : CacheReq ι) : Prop :=
  f'.core = f.core ∧ r'.socket = r.socket ∧ r'.file = r.file

/-- What two steps keep, they keep together. -/
theorem Kept.trans {f' f'' : CacheFile} {r' r'' : CacheReq ι} (h : Kept f r f' r')
    (h' : Kept f' r' f'' r'') : Kept f r f'' r'' :=
  ⟨h'.1.trans h.1, h'.2.1.trans h.2.1, h'.2.2.trans h.2.2⟩

/-- One filling of the buffer keeps the file and the request what they are. -/
theorem fillBuffer_kept (f : CacheFile) (r : CacheReq ι) (o : RoundOut) :
    Ensures (fillBuffer f r o) (fun out => Kept f r out.2.1 out.2.2) Fault.Live := by
  unfold fillBuffer
  split
  · exact ⟨rfl, rfl, rfl⟩
  · apply (cacheReqFillCurr_core f r o.fill).bind
    intro filled hfilled
    refine Ensures.ite (fun _ => ?_) (fun _ => ⟨hfilled, rfl, rfl⟩)
    split
    · exact nofun
    · split <;> exact ⟨hfilled, rfl, rfl⟩

/-- So does one sending, whether the loop goes on or ends. -/
theorem sendBuffer_kept (f : CacheFile) (r : CacheReq ι) (x : Xfer) :
    Ensures (sendBuffer f r x)
      (Sum.elim (fun s => Kept f r s.1 s.2) (fun out => Kept f r out.2.1 out.2.2))
      Fault.Live := by
  unfold sendBuffer
  refine Ensures.ite (fun _ => ⟨rfl, rfl, rfl⟩) fun _ => ?_
  split
  · exact ⟨rfl, rfl, rfl⟩
  · exact ⟨rfl, rfl, rfl⟩
  · exact Ensures.guard (fun _ => nofun) (fun _ => ⟨rfl, rfl, rfl⟩)

/-- And so does a whole round of the loop. -/
theorem spliceRound_kept (o : Nat → RoundOut) (k : Nat) (s : CacheFile × CacheReq ι) :
    Ensures (spliceRound o k s)
      (Sum.elim (fun s' => Kept s.1 s.2 s'.1 s'.2) (fun out => Kept s.1 s.2 out.2.1 out.2.2))
      Fault.Live := by
  unfold spliceRound
  refine Ensures.ite (fun _ => ?_) (fun _ => ⟨rfl, rfl, rfl⟩)
  refine Ensures.guard (fun _ => nofun) fun _ => ?_
  apply (fillBuffer_kept s.1 s.2 (o k)).bind
  intro next hnext
  refine Ensures.ite (fun _ => ?_) (fun _ => hnext)
  apply (sendBuffer_kept next.2.1 next.2.2 (o k).splice).imp_ok
  intro out hout
  cases out with
  | inl s' => exact hnext.trans hout
  | inr out => exact hnext.trans hout

/-- **What `socket_serve_req_splice` leaves alone.** -/
theorem socketServeReqSplice_kept (f : CacheFile) (r : CacheReq ι) (o : Nat → RoundOut) :
    Ensures (socketServeReqSplice f r o) (fun out => Kept f r out.2.1 out.2.2) Fault.Live := by
  refine Ensures.iterate_partial (I := fun s : CacheFile × CacheReq ι => Kept f r s.1 s.2)
    nofun ?_ _ _ _ ⟨rfl, rfl, rfl⟩
  intro k s hs
  apply (spliceRound_kept o k s).imp_ok
  intro out hout
  cases out with
  | inl s' => exact hs.trans hout
  | inr out => exact hs.trans hout

/-! ## Setting a request up -/

/-- The headers are written into a pipe, and nothing else of the file changes. -/
theorem prepareHeaders_core (f : CacheFile) (e : StartOut) :
    Ensures (prepareHeaders f e) (fun f' => f'.core = f.core) Fault.Live := by
  have hleft : ∀ first pipe x, Ensures (fillLeftover first pipe x) (fun _ => True)
      Fault.Live := by
    intro first pipe x
    refine Ensures.ite (fun _ => ?_) (fun _ => trivial)
    split
    · exact nofun
    · trivial
  unfold prepareHeaders fillCacheHeaders
  refine Ensures.ite (fun _ => ?_) (fun _ => rfl)
  refine Ensures.ite (fun _ => rfl) fun _ => ?_
  dsimp only
  split
  · exact nofun
  · exact (hleft _ _ _).bind fun _ _ => Ensures.guard (fun _ => nofun) (fun _ => rfl)

/-- A request with headers is still the request of its socket and its file. -/
theorem attachHeaders_kept (f : CacheFile) (r : CacheReq ι) (e : StartOut) :
    Ensures (attachHeaders f r e) (fun r' => r'.socket = r.socket ∧ r'.file = r.file)
      Fault.Live := by
  unfold attachHeaders serveCacheHeaders
  refine Ensures.ite (fun _ => ⟨rfl, rfl⟩) fun _ => ?_
  split
  · exact nofun
  · exact Ensures.guard (fun _ => nofun) (fun _ => ⟨rfl, rfl⟩)

/-- **What the start of a request leaves alone.**  Of the file it changes the
counter as well. -/
theorem startReq_kept (f : CacheFile) (file : ι) (socket : Int) (buf : PipeBuf) (e : StartOut) :
    Ensures (startReq f file socket buf e)
      (fun out => out.2.1.core = ({ f with pendingReqs := f.pendingReqs + 1 } : CacheFile).core ∧
        out.2.2.socket = socket ∧ out.2.2.file = file) Fault.Live := by
  unfold startReq
  apply (cacheReqFillCurr_core _ _ _).bind
  intro filled hfilled
  refine Ensures.guard (fun _ => nofun) fun _ => ?_
  apply (prepareHeaders_core filled.2 e).bind
  intro f' hf'
  apply (attachHeaders_kept f' _ e).bind
  intro r' hr'
  apply (socketServeReqSplice_kept f' r' e.serve).imp_ok
  intro out hout
  exact ⟨(hout.1.trans hf').trans hfilled, hout.2.1.trans hr'.1, hout.2.2.trans hr'.2⟩

end MonkeyCache
