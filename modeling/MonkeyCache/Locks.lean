import MonkeyCache.Moves
import MonkeyCache.ObjectLife
import MonkeyCache.Refilling
import MonkeyCache.ServingRuns

/-!
# The mutexes of the pipes

`pipe_buf_vmsplice` takes the `write_mutex` of its pipe and gives it back at the end
of its loop.  Where `vmsplice` would block or fails, it returns from inside of the
loop, and the pipe keeps its mutex: through the rest of the file's life, through the
pool, and into the next file.  Then the next fill of it never returns, and
`fill_cache_headers` passes it by.

As long as every `vmsplice` of a fill moves something, all pipes of a worker are in
order and unlocked, and nothing waits for a mutex (`pipes_unlocked`).
-/

namespace MonkeyCache

open Fallible Transition

variable {ι : Type} {c : Nat} {p p' : PipeBuf} {f : CacheFile} {r : CacheReq ι}

/-- The call moves a nonempty part of what it can move. -/
def Xfer.Moves (x : Xfer) : Prop := x = .all ∨ ∃ n, x = .short n

/-- Not a wait for a mutex that nobody will release. -/
def Fault.NoWait (e : Fault) : Prop := e ≠ .deadlock

/-- A call that moves something has a count where there is room. -/
theorem Xfer.Moves.count {x : Xfer} (h : x.Moves) {room : Nat} (hroom : 0 < room) :
    ∃ n, x.count room = .ok n := by
  rcases h with rfl | ⟨n, rfl⟩
  · exact ⟨room, if_neg (by omega)⟩
  · exact ⟨min room (max 1 n), if_neg (by omega)⟩

/-! ## Pipes -/

/-- A pipe in order stays so when it is refilled and nobody takes its mutex. -/
theorem PipeOk.refilled (h : PipeOk c p) (hp : p.Refilled p') (hlocked : p'.locked = p.locked) :
    PipeOk c p' := by
  have hexact := hp.keeps ⟨h.filled_eq, h.cap_eq ▸ h.filled_le⟩
  have hcap := hp.cap.trans h.cap_eq
  exact ⟨hcap, hexact.filled_eq, hcap ▸ hexact.filled_le, hlocked.trans h.unlocked⟩

/-- **A fill** that always moves something gives the mutex back. -/
theorem pipeBufVmsplice_unlocks (h : PipeOk c p) (mem : List Byte) (len : Int) {o : Nat → Xfer}
    (ho : ∀ k, (o k).Moves) :
    Ensures (pipeBufVmsplice p mem len o) (fun out => PipeOk c out.2) Fault.NoWait := by
  have hcap := h.cap_eq
  unfold pipeBufVmsplice
  rw [if_neg (by simp [h.unlocked])]
  apply Ensures.guard (fun _ => nofun)
  intro hroom
  apply Ensures.guard (fun _ => nofun)
  intro hlen
  -- `cnt` bytes have been moved and counted, so there is room for another one
  refine Ensures.iterate_partial
    (fun s : Nat × PipeBuf => s.2.cap = c ∧ s.2.filled = s.2.data.length ∧ s.2.filled ≤ c ∧
      s.2.filled = p.filled + s.1) nofun ?_ _ _ _
    ⟨hcap, h.filled_eq, h.filled_le, rfl⟩
  intro k s hs
  obtain ⟨hscap, hdata, hle, hcnt⟩ := hs
  unfold vmspliceRound
  apply Ensures.ite
  · intro hmore
    have hiov : (mem.take len.toNat).length ≤ len.toNat := List.length_take_le ..
    have hspace : 0 < min (mem.take len.toNat).length (s.2.cap - s.2.data.length) := by omega
    obtain ⟨n, hn⟩ := (ho k).count hspace
    have hbound := (Xfer.count_ok hn).2
    unfold vmsplice
    rw [hn]
    refine ⟨hscap, ?_, ?_, ?_⟩
    · show s.2.filled + n = (s.2.data ++ (mem.take len.toNat).take n).length
      rw [List.length_append, List.length_take]
      omega
    · show s.2.filled + n ≤ c
      omega
    · show s.2.filled + n = p.filled + (s.1 + n)
      omega
  · intro _
    exact ⟨hscap, hdata, hle, rfl⟩

/-- The pipes of a file are in order. -/
def CacheFile.PipesOk (c : Nat) (f : CacheFile) : Prop :=
  PipeOk c f.cacheHeaders ∧ ∀ p ∈ f.cache, PipeOk c p

/-- One pipe of the chain is replaced by one that is in order. -/
theorem CacheFile.PipesOk.set (h : f.PipesOk c) (i : Nat) (hp : PipeOk c p) :
    CacheFile.PipesOk c { f with cache := f.cache.set i p } := by
  refine ⟨h.1, ?_⟩
  intro q hq
  rcases List.mem_or_eq_of_mem_set hq with hold | rfl
  · exact h.2 q hold
  · exact hp

/-! ## Serving a request -/

/-- The current pipe is filled, and its mutex is free again. -/
theorem cacheReqFillCurr_unlocks (h : f.PipesOk c) (r : CacheReq ι) {o : Nat → Xfer}
    (ho : ∀ k, (o k).Moves) :
    Ensures (cacheReqFillCurr f r o) (fun out => out.2.PipesOk c) Fault.NoWait := by
  unfold cacheReqFillCurr
  split
  · exact nofun
  · rename_i i _
    split
    · exact nofun
    · rename_i curr hcurr
      apply Ensures.guard (fun _ => nofun)
      intro _
      apply Ensures.guard (fun _ => nofun)
      intro _
      refine Ensures.ite (fun _ => h) ?_
      intro _
      apply Ensures.ite
      · intro _
        have hread : ∀ a n, Ensures (f.read a n) (fun _ => True) Fault.NoWait :=
          fun a n => Ensures.guard (fun _ => nofun) (fun _ => trivial)
        apply (hread _ _).bind
        intro mem _
        apply (pipeBufVmsplice_unlocks (h.2 curr (List.mem_of_getElem? hcurr)) _ _ ho).bind
        intro filled hfilled
        exact h.set i hfilled
      · intro _
        exact h

/-- A `tee` into a pipe in order. -/
theorem PipeOk.tee {x : Xfer} {src : PipeBuf} {len n : Nat} (h : PipeOk c p)
    (htee : MonkeyCache.tee x src p len = .ok (n, p')) :
    PipeOk c { p' with filled := p.filled + n } := by
  refine h.refilled (tee_refilled htee) ?_
  obtain ⟨_, _, _, _, rfl⟩ := tee_ok htee
  rfl

/-- What a splice leaves in a pipe is in order. -/
theorem PipeOk.splice {x : Xfer} {len n : Nat} {out : List Byte} (h : PipeOk c p)
    (hsplice : MonkeyCache.splice x p len = .ok (n, out, p')) :
    PipeOk c { p' with filled := p.filled - n } := by
  refine h.refilled (splice_refilled hsplice) ?_
  obtain ⟨_, _, _, _, rfl⟩ := splice_ok hsplice
  rfl

/-- A request and its file are in order. -/
def ServingOk (c : Nat) (f : CacheFile) (r : CacheReq ι) : Prop := f.PipesOk c ∧ PipeOk c r.buf

/-- Filling the buffer leaves every mutex free. -/
theorem fillBuffer_unlocks (h : ServingOk c f r) {o : RoundOut} (ho : ∀ k, (o.fill k).Moves) :
    Ensures (fillBuffer f r o) (fun out => ServingOk c out.2.1 out.2.2) Fault.NoWait := by
  unfold fillBuffer
  split
  · exact h
  · apply (cacheReqFillCurr_unlocks h.1 r ho).bind
    intro filled hfilled
    apply Ensures.ite
    · intro _
      split
      · exact nofun
      · rename_i curr _
        cases htee : MonkeyCache.tee o.tee curr r.buf curr.filled with
        | error e =>
            cases e with
            | eagain => exact ⟨hfilled, h.2⟩
            | other => exact ⟨hfilled, h.2⟩
        | ok out => exact ⟨hfilled, h.2.tee htee⟩
    · intro _
      exact ⟨hfilled, h.2⟩

/-- So does sending from it. -/
theorem sendBuffer_unlocks (h : ServingOk c f r) (x : Xfer) :
    Ensures (sendBuffer f r x)
      (Sum.elim (fun s => ServingOk c s.1 s.2) (fun out => ServingOk c out.2.1 out.2.2))
      Fault.NoWait := by
  unfold sendBuffer
  refine Ensures.ite (fun _ => h) ?_
  intro _
  cases hsplice : MonkeyCache.splice x r.buf r.buf.filled with
  | error e =>
      cases e with
      | eagain => exact h
      | other => exact h
  | ok out =>
      apply Ensures.guard (fun _ => nofun)
      intro _
      exact ⟨h.1, h.2.splice hsplice⟩

/-- **The loop** leaves every mutex free. -/
theorem socketServeReqSplice_unlocks (h : ServingOk c f r) {o : Nat → RoundOut}
    (ho : ∀ k j, ((o k).fill j).Moves) :
    Ensures (socketServeReqSplice f r o) (fun out => ServingOk c out.2.1 out.2.2)
      Fault.NoWait := by
  refine Ensures.iterate_partial (fun s : CacheFile × CacheReq ι => ServingOk c s.1 s.2) nofun
    ?_ _ _ _ h
  intro k s hs
  unfold spliceRound
  apply Ensures.ite
  · intro _
    apply Ensures.guard (fun _ => nofun)
    intro _
    apply (fillBuffer_unlocks hs (ho k)).bind
    intro next hnext
    refine Ensures.ite (fun _ => ?_) (fun _ => hnext)
    exact sendBuffer_unlocks hnext (o k).splice
  · intro _
    exact hs

/-- The header pipe is written and counted; nobody took its mutex for good. -/
theorem prepareHeaders_unlocks (h : f.PipesOk c) (e : StartOut) :
    Ensures (prepareHeaders f e) (fun f' => f'.PipesOk c) Fault.NoWait := by
  unfold prepareHeaders fillCacheHeaders
  apply Ensures.ite
  · intro hempty
    refine Ensures.ite (fun _ => h) ?_
    intro _
    dsimp only
    split
    · exact nofun
    · rename_i first _
      have hlocked : Ensures (fillLeftover first { f.cacheHeaders with
          data := f.cacheHeaders.data ++
            e.header.take (f.cacheHeaders.cap - f.cacheHeaders.data.length) } e.headerTee)
          (fun p' => p'.locked = f.cacheHeaders.locked) Fault.NoWait := by
        unfold fillLeftover
        apply Ensures.ite
        · intro _
          split
          · exact nofun
          · rename_i htee
            obtain ⟨_, _, _, _, rfl⟩ := tee_ok htee
            rfl
        · intro _
          rfl
      have hrefilled := fillLeftover_refilled hempty first e.header e.headerTee
      cases hfill : fillLeftover first { f.cacheHeaders with
          data := f.cacheHeaders.data ++
            e.header.take (f.cacheHeaders.cap - f.cacheHeaders.data.length) } e.headerTee with
      | error err => exact hlocked.of_error hfill
      | ok filled =>
          apply Ensures.guard (fun _ => nofun)
          intro _
          exact ⟨h.1.refilled (hrefilled.of_ok hfill) (hlocked.of_ok hfill), h.2⟩
  · intro _
    exact h

/-- The pipe of the headers is copied from, and its mutex is free again. -/
theorem attachHeaders_unlocks (h : PipeOk c r.buf) (f : CacheFile) (e : StartOut) :
    Ensures (attachHeaders f r e) (fun r' => PipeOk c r'.buf) Fault.NoWait := by
  unfold attachHeaders serveCacheHeaders
  refine Ensures.ite (fun _ => h) ?_
  intro _
  cases htee : MonkeyCache.tee e.serveTee f.cacheHeaders r.buf f.cacheHeaders.filled with
  | error e => exact nofun
  | ok out =>
      apply Ensures.guard (fun _ => nofun)
      intro _
      exact h.tee htee

/-- The fills of a request that starts. -/
def StartOut.Fills (e : StartOut) : Prop :=
  (∀ k, (e.fill k).Moves) ∧ ∀ k j, ((e.serve k).fill j).Moves

/-- **The start of a request.** -/
theorem startReq_unlocks (h : f.PipesOk c) (file : ι) (socket : Int) (hp : PipeOk c p)
    {e : StartOut} (he : e.Fills) :
    Ensures (startReq f file socket p e) (fun out => ServingOk c out.2.1 out.2.2)
      Fault.NoWait := by
  unfold startReq
  have hfile : CacheFile.PipesOk c { f with pendingReqs := f.pendingReqs + 1 } := h
  apply (cacheReqFillCurr_unlocks hfile _ he.1).bind
  intro filled hfilled
  apply Ensures.guard (fun _ => nofun)
  intro _
  apply (prepareHeaders_unlocks hfilled e).bind
  intro f' hf'
  have hreq : PipeOk c (newReq f file socket p).buf := hp
  apply (attachHeaders_unlocks hreq f' e).bind
  intro r' hr'
  exact socketServeReqSplice_unlocks ⟨hf', hr'⟩ he.2

/-! ## The worker -/

/-- What a pool hands out is in order. -/
theorem pipeBufNew_unlocks {pp : PipePool} (hpp : pp.Ok c) (x : PipeOut) :
    Ensures (pipeBufNew c pp x) (fun new => PipeOk c new.1 ∧ new.2.Ok c) Fault.NoWait := by
  refine (pipeBufNew_ensures hpp x).mono (fun _ hnew => ⟨hnew.1, hnew.2.2⟩) ?_
  intro e he
  rcases he with rfl | rfl | rfl <;> nofun

/-- No fault of a constructor is a wait for ever. -/
theorem Fault.Setup.noWait {e : Fault} (h : e.Setup) : e.NoWait := by
  rcases h with rfl | rfl | rfl | rfl | rfl | rfl <;> nofun

/-- **All pipes of a worker are in order**: those of its pools, of its requests and
of its files. -/
structure Worker.PipesOk (c : Nat) (s : Worker) : Prop where
  pools : s.pools.Ok c
  reqs : ∀ r ∈ s.currReqs, PipeOk c r.buf
  files : ∀ a o, s.heap a = some o → o.file.PipesOk c

variable {cfg : Config} {s : Worker} {o : Object}

/-- An object in order takes the place of another one. -/
theorem Worker.PipesOk.put (h : s.PipesOk c) (a : Addr) (ho : o.file.PipesOk c) :
    (s.put a o).PipesOk c := by
  refine ⟨h.pools, h.reqs, ?_⟩
  intro b p hb
  by_cases hba : b = a
  · subst hba
    cases (s.put_self b o).symm.trans hb
    exact ho
  · exact h.files b p ((s.put_other hba o).symm.trans hb)

/-- An access finds an object whose pipes are in order. -/
theorem Worker.PipesOk.deref (h : s.PipesOk c) (a : Addr) :
    Ensures (s.deref a) (fun o => o.file.PipesOk c) Fault.NoWait := by
  unfold Books.deref
  split
  · exact nofun
  · rename_i o ha
    exact h.files a o ha

/-! ### The table -/

/-- Freeing a file gives its pipes back to the pool. -/
theorem cacheFileFree_unlocks (h : s.PipesOk c) (a : Addr) :
    Ensures (cacheFileFree c s a) (fun s' => s'.PipesOk c) Fault.NoWait := by
  unfold cacheFileFree
  apply (h.deref a).bind
  intro o ho
  -- the pipes of the chain follow the header pipe into the pool
  have hchain : ∀ (chain : List PipeBuf) (pp : PipePool), (∀ p ∈ chain, PipeOk c p) → pp.Ok c →
      (chain.foldl (fun pp buf => pipeBufFree c buf pp) pp).Ok c := by
    intro chain
    induction chain with
    | nil =>
        intro pp _ hpp
        exact hpp
    | cons p ps ih =>
        intro pp hps hpp
        refine ih _ ?_ (pipeBufFree_ok hpp (hps p List.mem_cons_self))
        intro q hq
        exact hps q (List.mem_cons_of_mem p hq)
  refine ⟨⟨h.pools.1, hchain _ _ ho.2 (pipeBufFree_ok h.pools.2 ho.1)⟩, h.reqs, ?_⟩
  intro b p hb
  by_cases hba : b = a
  · subst hba
    cases (Function.update_self b none s.heap).symm.trans hb
  · exact h.files b p ((Function.update_of_ne hba _ _).symm.trans hb)

/-- A look-up leaves the pipes alone. -/
theorem cacheFileGet_unlocks (h : s.PipesOk c) (uri : Key) (now : Timeval) :
    Ensures (cacheFileGet s uri now) (fun out => out.2.PipesOk c) Fault.NoWait := by
  unfold cacheFileGet
  split
  · exact h
  · rename_i a _
    apply (h.deref a).bind
    intro o ho
    exact h.put a ho

/-- A reset frees the file, or leaves it as a zombie. -/
theorem fileTableReset_unlocks (h : s.PipesOk c) (uri : Key) :
    Ensures (fileTableReset c s uri) (fun s' => s'.PipesOk c) Fault.NoWait := by
  have hdel : (s.tableDel uri).PipesOk c := ⟨h.pools, h.reqs, h.files⟩
  unfold fileTableReset
  split
  · exact hdel
  · rename_i a _
    unfold resetFile
    apply (hdel.deref a).bind
    intro o ho
    have hmark : ((s.tableDel uri).put a { o with file := { o.file with zombie := true } }).PipesOk
        c := hdel.put a ho
    exact Ensures.ite (fun _ => cacheFileFree_unlocks hmark a) (fun _ => hmark)

/-- A constructor gets pipes in order. -/
theorem newChain_unlocks {pp : PipePool} (hpp : pp.Ok c) (len : Nat) (o : Nat → PipeOut) :
    Ensures (newChain c len o pp) (fun out => (∀ p ∈ out.1, PipeOk c p) ∧ out.2.Ok c)
      Fault.NoWait := by
  refine Ensures.iterate_partial
    (fun s : Nat × List PipeBuf × PipePool => (∀ p ∈ s.2.1, PipeOk c p) ∧ s.2.2.Ok c) nofun
    ?_ _ _ _ ⟨nofun, hpp⟩
  intro k s hs
  obtain ⟨hchain, hpool⟩ := hs
  unfold chainRound
  refine Ensures.ite (fun _ => ?_) (fun _ => ⟨hchain, hpool⟩)
  apply (pipeBufNew_unlocks hpool (o k)).bind
  intro new hnew
  refine ⟨?_, hnew.2⟩
  intro p hp
  rcases List.mem_append.1 hp with hold | hlast
  · exact hchain p hold
  · rw [List.mem_singleton.1 hlast]
    exact hnew.1

/-- A new object has new pipes, which nobody has locked. -/
theorem publish_unlocks (h : s.PipesOk c) (maker : Maker) (uri : Key) (content : List Byte)
    (evictable zombie : Bool) (pendingReqs : Int) (out : CreateOut) :
    Ensures (publish c s maker uri content evictable zombie pendingReqs out)
      (fun made => made.2.PipesOk c) Fault.NoWait := by
  unfold publish
  apply Ensures.guard (fun _ => nofun)
  intro _
  apply (pipeBufNew_unlocks h.pools.2 out.headers).bind
  intro headers hheaders
  apply (newChain_unlocks hheaders.2 content.length out.pipes).bind
  intro chain hchain
  have hpools : Worker.PipesOk c { s with pools := { s.pools with pipes := chain.2 } } :=
    ⟨⟨h.pools.1, hchain.2⟩, h.reqs, h.files⟩
  let file := builtFile uri content evictable zombie pendingReqs out headers.1 chain.1
  have hbuilt := hpools.put out.block (o := ⟨file, maker, s.serials, pendingReqs⟩)
    ⟨hheaders.1, hchain.1⟩
  dsimp only
  split
  · have hfree := cacheFileFree_unlocks (c := c) (s := { s.put out.block
        ⟨file, maker, s.serials, pendingReqs⟩ with
      pools := { s.pools with pipes := chain.2 }
      serials := s.serials + 1 }) ⟨hbuilt.pools, hbuilt.reqs, hbuilt.files⟩ out.block
    apply hfree.bind
    intro s' hs'
    exact hs'
  · rename_i s' hadd
    unfold Worker.tableAdd at hadd
    split at hadd
    · cases hadd
    · cases hadd
      exact ⟨hbuilt.pools, hbuilt.reqs, hbuilt.files⟩

/-- The descriptors have nothing to do with the pipes. -/
theorem Worker.PipesOk.useFd (h : s.PipesOk c) (fd : Int) (left : Bool) :
    (s.useFd fd left).PipesOk c := ⟨h.pools, h.reqs, h.files⟩

/-- An added resource. -/
theorem cacheFileTmp_unlocks (h : s.PipesOk c) (uri : Key) (body : List Byte) (out : CreateOut) :
    Ensures (cacheFileTmp c s uri body out) (fun made => made.2.PipesOk c) Fault.NoWait := by
  unfold cacheFileTmp
  apply (fileTableReset_unlocks h uri).bind
  intro s' hs'
  apply Ensures.guard (fun _ => nofun)
  intro _
  refine Ensures.ite (fun _ => hs') (fun _ => ?_)
  refine Ensures.ite (fun _ => hs'.useFd _ _) (fun _ => ?_)
  exact publish_unlocks (hs'.useFd _ _) _ _ _ _ _ _ _

/-- A file from the disk. -/
theorem cacheFileNew_unlocks (h : s.PipesOk c) (path uri : Key)
    (disk : Key → Option (List Byte)) (out : CreateOut) :
    Ensures (cacheFileNew c s path uri disk out) (fun made => made.2.PipesOk c)
      Fault.NoWait := by
  unfold cacheFileNew
  split
  · exact h
  · refine Ensures.ite (fun _ => h) (fun _ => ?_)
    split
    · exact h
    · refine Ensures.ite (fun _ => h) (fun _ => ?_)
      refine Ensures.ite (fun _ => h.useFd _ _) (fun _ => ?_)
      exact publish_unlocks (h.useFd _ _) _ _ _ _ _ _ _

/-- A tick, by its loop rule. -/
theorem cacheFileTick_unlocks (h : s.PipesOk c) (now : Nat → Timeval) :
    Ensures (cacheFileTick c now s) (fun s' => s'.PipesOk c) Fault.NoWait := by
  apply cacheFileTick_ensures ?_ h
  intro t _ a i ht _
  unfold cacheFileTickCb
  apply (ht.deref a).bind
  intro o _
  exact Ensures.ite (fun _ => fileTableReset_unlocks ht _) (fun _ => ht)

/-! ### The events -/

/-- The end of a request: its pipe goes back, and perhaps its file. -/
theorem currReqsDel_unlocks (h : s.PipesOk cfg.cap) (socket : Int) :
    Ensures (currReqsDel cfg s socket) (fun s' => s'.PipesOk cfg.cap) Fault.NoWait := by
  unfold currReqsDel
  split
  · exact h
  · rename_i r hget
    have hr : PipeOk cfg.cap r.buf := h.reqs r (currReqsGet_mem hget).1
    apply (h.deref r.file).bind
    intro o ho
    let f := { o.file with pendingReqs := o.file.pendingReqs - 1 }
    have hleft : Worker.PipesOk cfg.cap { s.put r.file { o with file := f } with
        currReqs := s.currReqs.eraseP (fun q => q.socket = socket) } := by
      have hput := h.put r.file (o := { o with file := f }) ho
      refine ⟨hput.pools, ?_, hput.files⟩
      intro q hq
      exact h.reqs q (List.mem_of_mem_eraseP hq)
    have hfree := Ensures.ite (c := f.zombie ∧ f.pendingReqs = 0)
      (fun _ => cacheFileFree_unlocks hleft r.file) (fun _ => ensures_ok.2 hleft)
    apply hfree.bind
    intro s' hs'
    exact ⟨cacheReqRelease_ok hs'.pools hr, hs'.reqs, hs'.files⟩

/-- A call ends a request, or leaves it waiting. -/
theorem endCall_unlocks (h : s.PipesOk cfg.cap) (socket ret : Int) :
    Ensures (endCall cfg s socket ret) (fun s' => s'.PipesOk cfg.cap) Fault.NoWait :=
  Ensures.ite (fun _ => currReqsDel_unlocks h socket) (fun _ => h)

/-- The first call for a file. -/
theorem serveFile_unlocks (h : s.PipesOk cfg.cap) (a : Addr) (socket : Int) {out : RequestOut}
    (hout : out.start.Fills) :
    Ensures (serveFile cfg s a socket out) (fun s' => s'.PipesOk cfg.cap) Fault.NoWait := by
  unfold serveFile
  apply ((cacheReqNew_keeps h.pools out.pipe).imp_error (fun _ he => he.noWait)).bind
  intro new hnew
  apply (h.deref a).bind
  intro o ho
  apply (startReq_unlocks ho a socket hnew.1 hout).bind
  intro call hcall
  have hput := h.put a (o := { o with file := call.2.1 }) hcall.1
  apply endCall_unlocks
  refine ⟨hnew.2.2, ?_, hput.files⟩
  intro r hr
  rcases List.mem_append.1 hr with hold | hlast
  · exact h.reqs r hold
  · rw [List.mem_singleton.1 hlast]
    exact hcall.2

/-- A later call for a request. -/
theorem eventWrite_unlocks (h : s.PipesOk cfg.cap) (socket : Int) {out : Nat → RoundOut}
    (hout : ∀ k j, ((out k).fill j).Moves) :
    Ensures (eventWrite cfg s socket out) (fun s' => s'.PipesOk cfg.cap) Fault.NoWait := by
  unfold eventWrite
  split
  · exact h
  · rename_i r hget
    have hr : PipeOk cfg.cap r.buf := h.reqs r (currReqsGet_mem hget).1
    refine Ensures.ite (fun _ => h) (fun _ => ?_)
    apply (h.deref r.file).bind
    intro o ho
    apply (socketServeReqSplice_unlocks ⟨ho, hr⟩ hout).bind
    intro call hcall
    have hput := h.put r.file (o := { o with file := call.2.1 }) hcall.1
    apply endCall_unlocks
    refine ⟨h.pools, ?_, hput.files⟩
    intro q hq
    rcases mem_currReqsSet hq with rfl | hold
    · exact hcall.2
    · exact h.reqs q hold

/-- A file is opened for a request. -/
theorem openFile_unlocks (h : s.PipesOk cfg.cap) (path uri : Key)
    (disk : Key → Option (List Byte)) (out : CreateOut) :
    Ensures (openFile cfg s path uri disk out) (fun found => found.2.PipesOk cfg.cap)
      Fault.NoWait := by
  unfold openFile
  apply (cacheFileNew_unlocks h path uri disk out).bind
  intro made hmade
  split
  · exact hmade
  · exact hmade

/-- A call of the API. -/
theorem callApi_unlocks (h : s.PipesOk cfg.cap) (q : Request) (out : RequestOut) :
    Ensures (callApi cfg s q out) (fun found => found.2.PipesOk cfg.cap) Fault.NoWait := by
  unfold callApi
  split
  · apply (cacheFileTmp_unlocks h _ q.body out.create).bind
    intro made hmade
    exact hmade
  · have hstats : ∀ es, Ensures (statsEach s es) (fun _ => True) Fault.NoWait := by
      intro es
      induction es with
      | nil => trivial
      | cons e es ih => exact (h.deref e.2).bind (fun _ _ => ih)
    apply (hstats _).bind
    intro _ _
    exact h
  · apply (fileTableReset_unlocks h _).bind
    intro s' hs'
    exact hs'
  · rename_i ptr _
    unfold openWebui
    apply Ensures.guard (fun _ => nofun)
    intro _
    apply (cacheFileNew_unlocks h _ ptr out.disk out.create).bind
    intro made hmade
    split
    · exact hmade
    · exact openFile_unlocks hmade _ q.uri out.disk out.retry
  · exact openFile_unlocks h q.path q.uri out.disk out.retry

/-- The file of a request is found or made. -/
theorem findFile_unlocks (h : s.PipesOk cfg.cap) (q : Request) (out : RequestOut) :
    Ensures (findFile cfg s q out) (fun found => found.2.PipesOk cfg.cap) Fault.NoWait := by
  unfold findFile
  have hhit : Ensures (if q.get then cacheFileGet s q.uri out.now else .ok (none, s))
      (fun hit => hit.2.PipesOk cfg.cap) Fault.NoWait :=
    Ensures.ite (fun _ => cacheFileGet_unlocks h q.uri out.now) (fun _ => h)
  apply hhit.bind
  intro hit hhit
  split
  · exact hhit
  · exact callApi_unlocks hhit q out

/-- Every `vmsplice` of the fills of an event moves something. -/
def WorkerEvent.Fills : WorkerEvent → Prop
  | .stage30 _ out => out.start.Fills
  | .eventWrite _ out => ∀ k j, ((out k).fill j).Moves
  | _ => True

/-- **Step lemma.** -/
theorem Worker.step_unlocks (h : s.PipesOk cfg.cap) {e : WorkerEvent} (he : e.Fills) :
    Ensures (s.step cfg e) (fun out => out.2.PipesOk cfg.cap) Fault.NoWait := by
  unfold Worker.step
  cases e with
  | stage30 q out =>
      have hstage : Ensures (stage30 cfg s q out) (fun reply => reply.2.PipesOk cfg.cap)
          Fault.NoWait := by
        unfold stage30
        split
        · exact h
        · apply (findFile_unlocks h q out).bind
          intro found hfound
          split
          · rename_i a _
            apply (serveFile_unlocks hfound a q.socket he).bind
            intro s' hs'
            exact hs'
          · exact hfound
      exact hstage.bind (fun _ hs' => hs')
  | eventWrite socket out => exact (eventWrite_unlocks h socket he).bind (fun _ hs' => hs')
  | eventError socket => exact (currReqsDel_unlocks h socket).bind (fun _ hs' => hs')
  | eventTimeout socket => exact (currReqsDel_unlocks h socket).bind (fun _ hs' => hs')
  | tick now => exact (cacheFileTick_unlocks h now).bind (fun _ hs' => hs')

/-! ## Runs -/

/-- There are no pipes at first. -/
theorem Worker.PipesOk.init : Worker.init.PipesOk c where
  pools := ⟨nofun, nofun⟩
  reqs := nofun
  files := by
    intro a o ha
    cases ha

/-- Nobody holds the mutex of a pipe. -/
structure Worker.Unlocked (s : Worker) : Prop where
  pools : ∀ p ∈ s.pools.reqs ++ s.pools.pipes.pool, p.locked = false
  reqs : ∀ r ∈ s.currReqs, r.buf.locked = false
  files : ∀ a o, s.heap a = some o → ∀ p ∈ o.pipes, p.locked = false

/-- Pipes that are in order are not locked. -/
theorem Worker.PipesOk.unlocked (h : s.PipesOk c) : s.Unlocked where
  pools := by
    intro p hp
    rcases List.mem_append.1 hp with hreq | hpool
    · exact (h.pools.1 p hreq).unlocked
    · exact (h.pools.2 p hpool).unlocked
  reqs := fun r hr => (h.reqs r hr).unlocked
  files := by
    intro a o ha p hp
    have hfile := h.files a o ha
    rcases List.mem_cons.1 hp with rfl | hchain
    · exact hfile.1.unlocked
    · exact (hfile.2 p hchain).unlocked

/-- `fill_cache_headers` does its work when nobody holds the mutex. -/
theorem prepareHeaders_fills (hlocked : f.cacheHeaders.locked = false) (e : StartOut) :
    Ensures (prepareHeaders f e) (fun f' => f'.cacheHeaders.filled ≠ 0) (fun _ => True) := by
  unfold prepareHeaders
  refine Ensures.ite (fun hempty => ?_) id
  unfold fillCacheHeaders
  rw [if_neg (by simp [hlocked, hempty])]
  dsimp only
  split
  · trivial
  · rename_i first _
    cases fillLeftover first { f.cacheHeaders with
        data := f.cacheHeaders.data ++
          e.header.take (f.cacheHeaders.cap - f.cacheHeaders.data.length) } e.headerTee with
    | error err => trivial
    | ok filled => exact Ensures.guard (fun _ => trivial) id

/-- **Where every `vmsplice` moves something, no pipe is left locked**, neither between
the events nor where a request has found its file; no request goes without the headers
of its file, and no event waits for a mutex. -/
theorem pipes_unlocked (hrun : Worker.Runs cfg WorkerEvent.Fills Worker.init s) :
    s.Unlocked ∧
    (∀ q out found, findFile cfg s q out = .ok found → found.2.Unlocked ∧
      ∀ a o, found.2.heap a = some o → ∀ (r : CacheReq Addr) fill ret f,
        (∀ k, (fill k).Moves) → cacheReqFillCurr o.file r fill = .ok (ret, f) →
        ∀ e f', prepareHeaders f e = .ok f' → f'.cacheHeaders.filled ≠ 0) ∧
    ∀ e, e.Fills → s.step cfg e ≠ .error .deadlock := by
  have hok : s.PipesOk cfg.cap := by
    apply hrun.invariant (fun s => s.PipesOk cfg.cap) .init
    intro s e s' _ hs hstep
    obtain ⟨he, reply, hstep⟩ := hstep
    exact (Worker.step_unlocks hs he).of_ok hstep
  refine ⟨hok.unlocked, ?_, ?_⟩
  · intro q out found hfind
    have hfound := (findFile_unlocks hok q out).of_ok hfind
    refine ⟨hfound.unlocked, ?_⟩
    intro a o ha r fill ret f hmoves hfill e f' hprepare
    have hfile := (cacheReqFillCurr_unlocks (hfound.files a o ha) r hmoves).of_ok hfill
    exact (prepareHeaders_fills hfile.1.unlocked e).of_ok hprepare
  · intro e he hwait
    exact (Worker.step_unlocks hok he).of_error hwait rfl

/-- A request waits for its socket. -/
theorem pipes_unlocked_sample : ∃ s : Worker, s.refs 100 = 1 ∧ s.Unlocked := by
  have hrun : Worker.Runs plainConfig WorkerEvent.Fills Worker.init _ :=
    .of_exec [plainRequest 5 true fileA [] 100 ⟨0, true, -7⟩ .eagain]
      (by
        intro e he _
        rw [List.mem_singleton.1 he]
        exact ⟨fun _ => .inl rfl, fun _ _ => .inl rfl⟩) rfl
  exact ⟨_, rfl, (pipes_unlocked hrun).1⟩

/-- A request for a file of five bytes, which takes two pipes. -/
def wideRequest (uri : Key) (block : Addr) (x : Xfer) : WorkerEvent :=
  .stage30 { socket := 5, get := true, uriProcessed := uri, realPath := uri, body := [] }
    { plainOut block ⟨0, false, 0⟩ x with disk := fun _ => some [1, 2, 3, 4, 5] }

/-- The fill of the second pipe of `/a` would block.  The client leaves and the file is
reset, so that the pipe goes to the pool with its mutex held; it becomes the second
pipe of `/b`, whose first request waits for it. -/
theorem locked_pipe_recycled :
    ∃ s : Worker, Worker.Runs plainConfig (fun _ => True) Worker.init s ∧ ¬ s.Unlocked ∧
      s.step plainConfig (wideRequest fileB 200 .all) = .error .deadlock := by
  have hrun : Worker.Runs plainConfig (fun _ => True) Worker.init _ :=
    .of_exec [wideRequest fileA 100 .eagain,
        .eventWrite 5 (fun _ => { fill := fun _ => .eagain, tee := .all, splice := .all }),
        .eventError 5, plainRequest 5 true resetA [] 300 ⟨0, false, 0⟩ .all]
      (fun _ _ _ => trivial) rfl
  refine ⟨_, hrun, ?_, rfl⟩
  intro h
  have hmutex := h.pools { PipeBuf.fresh 4 2 with locked := true } (by decide)
  cases hmutex

end MonkeyCache
