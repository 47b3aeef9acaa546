import MonkeyCache.ObjectLife

/-!
# What the plugin tells the server (`cache.c`)

The server calls five hooks, and goes by their return values.  A request that
`_mkp_stage_30` could not finish is left with the plugin (`MK_PLUGIN_RET_CONTINUE`);
from then on the server waits for `http_request_end`, which `_mkp_event_write` calls,
or drops the connection itself and says so with `_mkp_event_error` or
`_mkp_event_timeout`.

`pluginCall` is a hook with its return value.

* `pluginCall_step` — it does to the worker what `Worker.step` does.
* `pluginCall_hook` — what it does to the list of requests, and which value it returns
  then.
* `requests_end_once` — every request that was accepted is ended once, by the plugin or
  by the server, and `MK_PLUGIN_RET_EVENT_CLOSE` is never returned.
-/

namespace MonkeyCache

open Fallible Transition

variable {cfg : Config} {s s' : Worker}

/-! ## The code -/

/-- `MK_PLUGIN_RET_…` -/
inductive PluginRet
  | retNotMe
  | retContinue
  | retEnd
  | eventNext
  | eventOwned
  | eventClose
  | eventContinue
  deriving DecidableEq, Repr

/-- What the server learns of a call: the value it returns, and the argument of
`http_request_end` where this was called. -/
structure Answer where
  ret : PluginRet
  ended : Option Int
  deriving DecidableEq, Repr

/-- Lines 398 to 445 of `_mkp_stage_30`, with the return value. -/
def serveFileRet (cfg : Config) (s : Worker) (a : Addr) (socket : Int) (o : RequestOut) :
    Except Fault (PluginRet × Worker) := do
  let new ← cacheReqNew cfg.cap s.pools o.pipe
  let obj ← s.deref a
  let out ← startReq obj.file a socket new.1 o.start
  let s ← endCall cfg
    { s.put a { obj with file := out.2.1 } with
      currReqs := s.currReqs ++ [out.2.2]
      pools := new.2 } socket out.1
  .ok (if out.1 ≤ 0 then .retEnd else .retContinue, s)

/-- `_mkp_stage_30` -/
def mkpStage30 (cfg : Config) (s : Worker) (q : Request) (o : RequestOut) :
    Except Fault (PluginRet × Worker) :=
  match currReqsGet s.currReqs q.socket with
  | some _ => .ok (.retContinue, s)
  | none => do
    let found ← findFile cfg s q o
    match found.1 with
    | .file a => serveFileRet cfg found.2 a q.socket o
    | .notMe => .ok (.retNotMe, found.2)
    | _ => .ok (.retEnd, found.2)

/-- `_mkp_event_read`; a timer that fired gives 8 bytes. -/
def mkpEventRead (cfg : Config) (timerFd : Int) (s : Worker) (fd : Int) (fired : Bool)
    (now : Nat → Timeval) : Except Fault (PluginRet × Worker) :=
  if fd = timerFd then
    if fired then do
      let s ← cacheFileTick cfg.cap now s
      .ok (.eventOwned, s)
    else .ok (.eventOwned, s)
  else .ok (.eventNext, s)

/-- `_mkp_event_write` -/
def mkpEventWrite (cfg : Config) (s : Worker) (fd : Int) (o : Nat → RoundOut) :
    Except Fault (Answer × Worker) :=
  match currReqsGet s.currReqs fd with
  | none => .ok (⟨.eventNext, none⟩, s)
  | some r =>
    if r.bytesToSend ≤ 0 then .ok (⟨.eventClose, none⟩, s)
    else do
      let obj ← s.deref r.file
      let out ← socketServeReqSplice obj.file r o
      let s := { s.put r.file { obj with file := out.2.1 } with
        currReqs := currReqsSet out.2.2 s.currReqs }
      if out.1 ≤ 0 then do
        let s ← currReqsDel cfg s fd
        .ok (⟨.eventOwned, some fd⟩, s)
      else .ok (⟨.eventContinue, none⟩, s)

/-- A hook and what it meets. -/
inductive PluginCall
  | stage30 (q : Request) (o : RequestOut)
  | eventRead (fd : Int) (fired : Bool) (now : Nat → Timeval)
  | eventWrite (fd : Int) (o : Nat → RoundOut)
  | eventError (socket : Int)
  | eventTimeout (socket : Int)

/-- A call of a hook; `timerFd` is `timer_get_fd()`. -/
def pluginCall (cfg : Config) (timerFd : Int) (s : Worker) :
    PluginCall → Except Fault (Answer × Worker)
  | .stage30 q o => do
    let out ← mkpStage30 cfg s q o
    .ok (⟨out.1, none⟩, out.2)
  | .eventRead fd fired now => do
    let out ← mkpEventRead cfg timerFd s fd fired now
    .ok (⟨out.1, none⟩, out.2)
  | .eventWrite fd o => mkpEventWrite cfg s fd o
  | .eventError socket => do
    let s ← currReqsDel cfg s socket
    .ok (⟨.eventNext, none⟩, s)
  | .eventTimeout socket => do
    let s ← currReqsDel cfg s socket
    .ok (⟨.eventNext, none⟩, s)

/-! ## The same worker -/

/-- The event of the worker that a call is, if it is one. -/
def PluginCall.event (timerFd : Int) : PluginCall → Option WorkerEvent
  | .stage30 q o => some (.stage30 q o)
  | .eventRead fd fired now => if fd = timerFd ∧ fired then some (.tick now) else none
  | .eventWrite fd o => some (.eventWrite fd o)
  | .eventError socket => some (.eventError socket)
  | .eventTimeout socket => some (.eventTimeout socket)

/-- The worker after an event, if there is one. -/
def Worker.stepOpt (cfg : Config) (s : Worker) : Option WorkerEvent → Except Fault Worker
  | none => .ok s
  | some e => (s.step cfg e).map Prod.snd

/-- The return value aside, this is `serveFile`. -/
theorem serveFileRet_snd (s : Worker) (a : Addr) (socket : Int) (o : RequestOut) :
    (serveFileRet cfg s a socket o).map Prod.snd = serveFile cfg s a socket o := by
  simp only [serveFileRet, serveFile, except_map_bind, except_map_ok, except_bind_ok]

/-- The return value aside, this is `stage30`. -/
theorem mkpStage30_snd (cfg : Config) (s : Worker) (q : Request) (o : RequestOut) :
    (mkpStage30 cfg s q o).map Prod.snd = (stage30 cfg s q o).map Prod.snd := by
  unfold mkpStage30 stage30
  cases currReqsGet s.currReqs q.socket with
  | some r => rfl
  | none =>
    simp only [except_map_bind]
    congr 1
    funext found
    cases found.1 with
    | file a => simp only [serveFileRet_snd, except_map_bind, except_map_ok, except_bind_ok]
    | busy => rfl
    | api => rfl
    | notMe => rfl

/-- The return value aside, this is `eventWrite`. -/
theorem mkpEventWrite_snd (s : Worker) (fd : Int) (o : Nat → RoundOut) :
    (mkpEventWrite cfg s fd o).map Prod.snd = eventWrite cfg s fd o := by
  unfold mkpEventWrite eventWrite
  cases currReqsGet s.currReqs fd with
  | none => rfl
  | some r =>
    dsimp only
    split
    · rfl
    · simp only [except_map_bind]
      congr 1
      funext obj
      congr 1
      funext out
      unfold endCall
      split
      · simp only [except_map_bind, except_map_ok, except_bind_ok]
      · rfl

/-- **The hooks are the events of the worker.** -/
theorem pluginCall_step (cfg : Config) (timerFd : Int) (s : Worker) (c : PluginCall) :
    (pluginCall cfg timerFd s c).map Prod.snd = s.stepOpt cfg (c.event timerFd) := by
  cases c with
  | stage30 q o =>
    have hsame := mkpStage30_snd cfg s q o
    simp only [pluginCall, PluginCall.event, Worker.stepOpt, Worker.step, except_map_bind, except_map_ok]
    exact hsame
  | eventRead fd fired now =>
    simp only [pluginCall, mkpEventRead, PluginCall.event]
    by_cases hfd : fd = timerFd
    · cases fired with
      | true => simp [hfd, Worker.stepOpt, Worker.step, except_map_bind]
      | false => simp [hfd, Worker.stepOpt]
    · simp [hfd, Worker.stepOpt]
  | eventWrite fd o =>
    simp only [pluginCall, mkpEventWrite_snd, PluginCall.event, Worker.stepOpt, Worker.step,
      except_map_bind, except_map_ok, except_bind_ok]
  | eventError socket =>
    simp only [pluginCall, PluginCall.event, Worker.stepOpt, Worker.step, except_map_bind, except_map_ok]
  | eventTimeout socket =>
    simp only [pluginCall, PluginCall.event, Worker.stepOpt, Worker.step, except_map_bind, except_map_ok]

/-! ## The list of requests -/

section Requests

variable {ι : Type} {reqs : List (CacheReq ι)} {r : CacheReq ι} {k : Int}

/-- The sockets that have a request. -/
def sockets (reqs : List (CacheReq ι)) : List Int := reqs.map (fun r => r.socket)

/-- A request is found for just the sockets that have one. -/
theorem currReqsGet_isSome (reqs : List (CacheReq ι)) (k : Int) :
    (currReqsGet reqs k).isSome ↔ k ∈ sockets reqs := by
  simp [currReqsGet, sockets, List.find?_isSome]

/-- The first request of a socket goes, and its socket with it. -/
theorem sockets_erase (reqs : List (CacheReq ι)) (k : Int) :
    sockets (reqs.eraseP (fun q => q.socket = k)) = (sockets reqs).erase k := by
  induction reqs with
  | nil => rfl
  | cons q qs ih =>
    by_cases hq : q.socket = k
    · simp [sockets, hq]
    · have hne : ¬ (q.socket == k) = true := by simpa using hq
      simp only [sockets, List.map_cons, List.erase_cons_tail hne] at ih ⊢
      rw [List.eraseP_cons_of_neg (by simpa using hq), List.map_cons, ih]

/-- A request that is written back keeps the sockets. -/
theorem sockets_set (r : CacheReq ι) (reqs : List (CacheReq ι)) :
    sockets (currReqsSet r reqs) = sockets reqs := by
  induction reqs with
  | nil => rfl
  | cons q qs ih =>
    unfold currReqsSet
    split
    · rename_i hq
      simp [sockets, hq]
    · simpa [sockets] using ih

/-- A request that is not listed is not erased. -/
theorem eraseP_of_none (h : currReqsGet reqs k = none) :
    reqs.eraseP (fun q => q.socket = k) = reqs := by
  apply List.eraseP_of_forall_not
  intro q hq hk
  have hnone := List.find?_eq_none.mp h q hq
  exact hnone hk

end Requests

/-! ### The functions of `cache_file.c` leave it alone -/

section Files

variable {size : Nat}

/-- Freeing a file leaves the requests alone. -/
theorem cacheFileFree_reqs (s : Worker) (a : Addr) :
    Ensures (cacheFileFree size s a) (fun s' => s'.currReqs = s.currReqs) (fun _ => True) := by
  unfold cacheFileFree
  apply (s.deref_ensures a).bind
  intro o _
  rfl

/-- A reset leaves the requests alone. -/
theorem fileTableReset_reqs (s : Worker) (uri : Key) :
    Ensures (fileTableReset size s uri) (fun s' => s'.currReqs = s.currReqs)
      (fun _ => True) := by
  unfold fileTableReset
  split
  · exact rfl
  · rename_i a _
    unfold resetFile
    apply ((s.tableDel uri).deref_ensures a).bind
    intro o _
    exact Ensures.ite (fun _ => cacheFileFree_reqs _ a) (fun _ => rfl)

/-- A look-up leaves the requests alone. -/
theorem cacheFileGet_reqs (s : Worker) (uri : Key) (now : Timeval) :
    Ensures (cacheFileGet s uri now) (fun out => out.2.currReqs = s.currReqs)
      (fun _ => True) := by
  unfold cacheFileGet
  split
  · exact rfl
  · rename_i a _
    apply (s.deref_ensures a).bind
    intro o _
    exact rfl

/-- A new object leaves the requests alone. -/
theorem publish_reqs (s : Worker) (maker : Maker) (uri : Key) (content : List Byte)
    (evictable zombie : Bool) (pendingReqs : Int) (o : CreateOut) :
    Ensures (publish size s maker uri content evictable zombie pendingReqs o)
      (fun out => out.2.currReqs = s.currReqs) (fun _ => True) := by
  unfold publish
  refine Ensures.guard (fun _ => trivial) (fun _ => ?_)
  apply (Ensures.any (pipeBufNew size s.pools.pipes o.headers)).bind
  intro headers _
  apply (Ensures.any (newChain size content.length o.pipes headers.2)).bind
  intro chain _
  dsimp only
  split
  · exact (cacheFileFree_reqs _ o.block).bind (fun s' h => h)
  · rename_i s' hadd
    unfold Worker.tableAdd at hadd
    split at hadd <;> cases hadd
    rfl

/-- An added resource leaves the requests alone. -/
theorem cacheFileTmp_reqs (s : Worker) (uri : Key) (body : List Byte) (o : CreateOut) :
    Ensures (cacheFileTmp size s uri body o) (fun out => out.2.currReqs = s.currReqs)
      (fun _ => True) := by
  unfold cacheFileTmp
  apply (fileTableReset_reqs s uri).bind
  intro s' hs'
  refine Ensures.guard (fun _ => trivial) (fun _ => ?_)
  refine Ensures.ite (fun _ => hs') (fun _ => Ensures.ite (fun _ => hs') (fun _ => ?_))
  exact (publish_reqs _ _ _ _ _ _ _ _).imp_ok (fun out h => h.trans hs')

/-- A file from the disk leaves the requests alone. -/
theorem cacheFileNew_reqs (s : Worker) (path uri : Key) (disk : Key → Option (List Byte))
    (o : CreateOut) :
    Ensures (cacheFileNew size s path uri disk o) (fun out => out.2.currReqs = s.currReqs)
      (fun _ => True) := by
  unfold cacheFileNew
  split
  · exact rfl
  · split
    · exact rfl
    · split
      · exact rfl
      · refine Ensures.ite (fun _ => rfl) (fun _ => Ensures.ite (fun _ => rfl) (fun _ => ?_))
        exact publish_reqs _ _ _ _ _ _ _ _

/-- A tick leaves the requests alone. -/
theorem cacheFileTick_reqs (s : Worker) (now : Nat → Timeval) :
    Ensures (cacheFileTick size now s) (fun s' => s'.currReqs = s.currReqs)
      (fun _ => True) := by
  refine cacheFileTick_ensures (I := fun t => t.currReqs = s.currReqs) ?_ rfl
  intro t k a i ht _
  unfold cacheFileTickCb
  apply (t.deref_ensures a).bind
  intro o _
  exact Ensures.ite (fun _ => (fileTableReset_reqs t _).imp_ok (fun _ h => h.trans ht))
    (fun _ => ht)

/-- Opening a file leaves the requests alone. -/
theorem openFile_reqs (s : Worker) (path uri : Key) (disk : Key → Option (List Byte))
    (o : CreateOut) :
    Ensures (openFile cfg s path uri disk o) (fun out => out.2.currReqs = s.currReqs)
      (fun _ => True) := by
  unfold openFile
  apply (cacheFileNew_reqs s path uri disk o).bind
  intro out hout
  split <;> exact hout

/-- Whatever file or answer is found for a request, it is not yet among the requests. -/
theorem findFile_reqs (s : Worker) (q : Request) (o : RequestOut) :
    Ensures (findFile cfg s q o) (fun out => out.2.currReqs = s.currReqs) (fun _ => True) := by
  have hget : Ensures (if q.get then cacheFileGet s q.uri o.now else .ok (none, s))
      (fun out => out.2.currReqs = s.currReqs) (fun _ => True) :=
    Ensures.ite (fun _ => cacheFileGet_reqs s q.uri o.now) (fun _ => rfl)
  unfold findFile
  apply hget.bind
  intro hit hhit
  split
  · exact hhit
  · unfold callApi
    split
    · apply (cacheFileTmp_reqs hit.2 _ _ _).bind
      intro out hout
      exact hout.trans hhit
    · apply (Ensures.any (statsEach hit.2 _)).bind
      intro _ _
      exact hhit
    · apply (fileTableReset_reqs hit.2 _).bind
      intro s' hs'
      exact hs'.trans hhit
    · unfold openWebui
      refine Ensures.guard (fun _ => trivial) (fun _ => ?_)
      apply (cacheFileNew_reqs hit.2 _ _ _ _).bind
      intro out hout
      split
      · exact hout.trans hhit
      · exact (openFile_reqs out.2 _ _ _ _).imp_ok (fun _ h => h.trans (hout.trans hhit))
    · exact (openFile_reqs hit.2 _ _ _ _).imp_ok (fun _ h => h.trans hhit)

end Files

/-! ### What is returned goes by what is left to send -/

section Returns

variable {ι : Type}

/-- The value is the number of bytes left, or -1; the socket stays. -/
def Returns (socket : Int) (out : Int × CacheFile × CacheReq ι) : Prop :=
  out.2.2.socket = socket ∧ (out.1 = out.2.2.bytesToSend ∨ out.1 = -1)

/-- Filling does not change whose request it is. -/
theorem fillBuffer_socket (f : CacheFile) (r : CacheReq ι) (x : RoundOut) :
    Ensures (fillBuffer f r x) (fun out => out.2.2.socket = r.socket) (fun _ => True) := by
  unfold fillBuffer
  split
  · exact rfl
  · apply (Ensures.any (cacheReqFillCurr f r x.fill)).bind
    intro filled _
    dsimp only
    split
    · split
      · trivial
      · split <;> exact rfl
    · exact rfl

/-- Sending does not either, and its result is one that the hooks know. -/
theorem sendBuffer_socket (f : CacheFile) (r : CacheReq ι) (x : Xfer) :
    Ensures (sendBuffer f r x) (Sum.elim (fun s => s.2.socket = r.socket) (Returns r.socket))
      (fun _ => True) := by
  unfold sendBuffer
  split
  · exact ⟨rfl, .inl rfl⟩
  · split
    · exact ⟨rfl, .inl rfl⟩
    · exact ⟨rfl, .inr rfl⟩
    · exact Ensures.guard (fun _ => trivial) (fun _ => rfl)

/-- The loop returns a request of the same socket. -/
theorem socketServeReqSplice_returns (f : CacheFile) (r : CacheReq ι) (o : Nat → RoundOut) :
    Ensures (socketServeReqSplice f r o) (Returns r.socket) (fun _ => True) := by
  refine Ensures.iterate_partial (fun s => s.2.socket = r.socket) trivial ?_ _ 0 (f, r) rfl
  intro k s hs
  unfold spliceRound
  split
  · refine Ensures.guard (fun _ => trivial) (fun _ => ?_)
    apply (fillBuffer_socket s.1 s.2 (o k)).bind
    intro next hnext
    rw [hs] at hnext
    split
    · rw [← hnext]
      exact sendBuffer_socket next.2.1 next.2.2 (o k).splice
    · exact ⟨hnext, .inr rfl⟩
  · exact ⟨hs, .inl rfl⟩

/-- So does the first call for a request. -/
theorem startReq_returns (f : CacheFile) (file : ι) (socket : Int) (buf : PipeBuf)
    (e : StartOut) :
    Ensures (startReq f file socket buf e) (Returns socket) (fun _ => True) := by
  unfold startReq
  apply (Ensures.any (cacheReqFillCurr _ (newReq f file socket buf) e.fill)).bind
  intro filled _
  refine Ensures.guard (fun _ => trivial) (fun _ => ?_)
  apply (Ensures.any (prepareHeaders filled.2 e)).bind
  intro f' _
  have hattach : Ensures (attachHeaders f' (newReq f file socket buf) e)
      (fun r => r.socket = socket) (fun _ => True) := by
    unfold attachHeaders serveCacheHeaders
    split
    · exact rfl
    · split
      · trivial
      · exact Ensures.guard (fun _ => trivial) (fun _ => rfl)
  apply hattach.bind
  rintro r rfl
  exact socketServeReqSplice_returns f' r e.serve

end Returns

/-! ## A hook and the list of requests -/

/-- What a hook answers, and what becomes of the list of requests. -/
inductive Hook (timerFd : Int) :
    List (CacheReq Addr) → PluginCall → Answer → List (CacheReq Addr) → Prop
  /-- the socket has a request already -/
  | busy {reqs q o} (h : q.socket ∈ sockets reqs) :
      Hook timerFd reqs (.stage30 q o) ⟨.retContinue, none⟩ reqs
  /-- answered, or passed on -/
  | answered {reqs q o ret} (h : q.socket ∉ sockets reqs) (hret : ret = .retEnd ∨ ret = .retNotMe) :
      Hook timerFd reqs (.stage30 q o) ⟨ret, none⟩ reqs
  /-- a request that could not be answered at once -/
  | accepted {reqs q o r} (h : q.socket ∉ sockets reqs) (hr : r.socket = q.socket)
      (hleft : 0 < r.bytesToSend) :
      Hook timerFd reqs (.stage30 q o) ⟨.retContinue, none⟩ (reqs ++ [r])
  | read {reqs fd fired now} :
      Hook timerFd reqs (.eventRead fd fired now)
        ⟨if fd = timerFd then .eventOwned else .eventNext, none⟩ reqs
  /-- not a socket of the plugin -/
  | unknown {reqs fd o} (h : fd ∉ sockets reqs) :
      Hook timerFd reqs (.eventWrite fd o) ⟨.eventNext, none⟩ reqs
  /-- nothing is left to send -/
  | stale {reqs fd o r} (hr : r ∈ reqs) (hnone : r.bytesToSend ≤ 0) :
      Hook timerFd reqs (.eventWrite fd o) ⟨.eventClose, none⟩ reqs
  | going {reqs fd o r} (h : fd ∈ sockets reqs) (hr : r.socket = fd)
      (hleft : 0 < r.bytesToSend) :
      Hook timerFd reqs (.eventWrite fd o) ⟨.eventContinue, none⟩ (currReqsSet r reqs)
  | ended {reqs fd o} (h : fd ∈ sockets reqs) :
      Hook timerFd reqs (.eventWrite fd o) ⟨.eventOwned, some fd⟩
        (reqs.eraseP (fun q => q.socket = fd))
  | error {reqs socket} :
      Hook timerFd reqs (.eventError socket) ⟨.eventNext, none⟩
        (reqs.eraseP (fun q => q.socket = socket))
  | timeout {reqs socket} :
      Hook timerFd reqs (.eventTimeout socket) ⟨.eventNext, none⟩
        (reqs.eraseP (fun q => q.socket = socket))

/-- `curr_reqs_del` takes the first request of the socket out. -/
theorem currReqsDel_reqs (s : Worker) (socket : Int) :
    Ensures (currReqsDel cfg s socket)
      (fun s' => s'.currReqs = s.currReqs.eraseP (fun q => q.socket = socket))
      (fun _ => True) := by
  unfold currReqsDel
  split
  · rename_i hnone
    exact (eraseP_of_none hnone).symm
  · rename_i r _
    apply (s.deref_ensures r.file).bind
    intro o _
    dsimp only
    have hfree : ∀ t : Worker, ∀ zombie : Prop, ∀ [Decidable zombie],
        Ensures (if zombie then cacheFileFree cfg.cap t r.file else .ok t)
          (fun s' => s'.currReqs = t.currReqs) (fun _ => True) :=
      fun t zombie => Ensures.ite (fun _ => cacheFileFree_reqs t r.file) (fun _ => rfl)
    apply (hfree _ _).bind
    intro s' hs'
    exact hs'

/-- Serving a file from `_mkp_stage_30` is a step of the hooks. -/
theorem serveFileRet_hook (s : Worker) (a : Addr) (timerFd : Int) (q : Request)
    (o : RequestOut) (h : currReqsGet s.currReqs q.socket = none) :
    Ensures (serveFileRet cfg s a q.socket o)
      (fun out => Hook timerFd s.currReqs (.stage30 q o) ⟨out.1, none⟩ out.2.currReqs)
      (fun _ => True) := by
  have hout : q.socket ∉ sockets s.currReqs := by
    rw [← currReqsGet_isSome, h]
    simp
  unfold serveFileRet
  apply (Ensures.any (cacheReqNew cfg.cap s.pools o.pipe)).bind
  intro new _
  apply (s.deref_ensures a).bind
  intro obj _
  apply (startReq_returns obj.file a q.socket new.1 o.start).bind
  rintro ⟨ret, f, r⟩ ⟨hsocket, hret⟩
  dsimp only at hsocket hret ⊢
  unfold endCall
  split
  · rename_i hle
    apply (currReqsDel_reqs _ q.socket).bind
    intro s' hs'
    rw [← hsocket] at h hs'
    have hback := (currReqs_append h).2
    dsimp only at hs'
    rw [hback] at hs'
    show Hook timerFd s.currReqs (.stage30 q o) ⟨.retEnd, none⟩ s'.currReqs
    rw [hs']
    exact .answered hout (.inl rfl)
  · rename_i hpos
    exact .accepted hout hsocket (by omega)

/-- **What a hook does.** -/
theorem pluginCall_hook (timerFd : Int) (s : Worker) (c : PluginCall) :
    Ensures (pluginCall cfg timerFd s c)
      (fun out => Hook timerFd s.currReqs c out.1 out.2.currReqs) (fun _ => True) := by
  cases c with
  | stage30 q o =>
    have hstage : Ensures (mkpStage30 cfg s q o)
        (fun out => Hook timerFd s.currReqs (.stage30 q o) ⟨out.1, none⟩ out.2.currReqs)
        (fun _ => True) := by
      unfold mkpStage30
      split
      · rename_i r hget
        refine .busy ?_
        rw [← currReqsGet_isSome, hget]
        rfl
      · rename_i hget
        have hout : q.socket ∉ sockets s.currReqs := by
          rw [← currReqsGet_isSome, hget]
          simp
        apply (findFile_reqs s q o).bind
        intro found hfound
        split
        · rw [← hfound] at hget ⊢
          exact serveFileRet_hook found.2 _ timerFd q o hget
        · rw [ensures_ok, hfound]
          exact .answered hout (.inr rfl)
        · rw [ensures_ok, hfound]
          exact .answered hout (.inl rfl)
    exact hstage.bind (fun out h => h)
  | eventRead fd fired now =>
    have hread : Ensures (mkpEventRead cfg timerFd s fd fired now)
        (fun out => Hook timerFd s.currReqs (.eventRead fd fired now) ⟨out.1, none⟩
          out.2.currReqs) (fun _ => True) := by
      have hhook : Hook timerFd s.currReqs (.eventRead fd fired now) _ s.currReqs := .read
      unfold mkpEventRead
      split
      · rename_i hfd
        rw [if_pos hfd] at hhook
        split
        · apply (cacheFileTick_reqs s now).bind
          intro s' hs'
          rw [ensures_ok, hs']
          exact hhook
        · exact hhook
      · rename_i hfd
        rw [if_neg hfd] at hhook
        exact hhook
    exact hread.bind (fun out h => h)
  | eventWrite fd o =>
    show Ensures (mkpEventWrite cfg s fd o) _ _
    unfold mkpEventWrite
    split
    · rename_i hget
      refine .unknown ?_
      rw [← currReqsGet_isSome, hget]
      simp
    · rename_i r hget
      have hin : fd ∈ sockets s.currReqs := by
        rw [← currReqsGet_isSome, hget]
        rfl
      obtain ⟨hmem, hsocket⟩ := currReqsGet_mem hget
      split
      · rename_i hnone
        exact .stale hmem hnone
      · apply (s.deref_ensures r.file).bind
        intro obj _
        apply (socketServeReqSplice_returns obj.file r o).bind
        rintro ⟨ret, f, r'⟩ ⟨hsame, hret⟩
        dsimp only at hsame hret ⊢
        rw [hsocket] at hsame
        split
        · apply (currReqsDel_reqs _ fd).bind
          intro s' hs'
          have hset : currReqsGet s.currReqs r'.socket = some r := by rw [hsame, hget]
          have herase := (currReqs_set hset).2
          rw [hsame] at herase
          dsimp only at hs'
          rw [ensures_ok, hs', herase]
          exact .ended hin
        · exact .going hin hsame (by omega)
  | eventError socket =>
    apply (currReqsDel_reqs s socket).bind
    intro s' hs'
    rw [ensures_ok, hs']
    exact .error
  | eventTimeout socket =>
    apply (currReqsDel_reqs s socket).bind
    intro s' hs'
    rw [ensures_ok, hs']
    exact .timeout

/-! ## Every request ends once -/

/-- What a call says about the request of a socket. -/
inductive Mark
  /-- the plugin keeps the request -/
  | accepted
  /-- the plugin called `http_request_end` -/
  | ended
  /-- the server gave the connection up -/
  | dropped
  deriving DecidableEq, Repr

/-- The mark of a call. -/
def PluginCall.marks (c : PluginCall) (reqs : List (CacheReq Addr)) (ans : Answer) :
    List (Int × Mark) :=
  match c with
  | .stage30 q _ =>
    if ans.ret = .retContinue ∧ q.socket ∉ sockets reqs then [(q.socket, .accepted)] else []
  | .eventRead .. => []
  | .eventWrite .. => ans.ended.toList.map (fun fd => (fd, .ended))
  | .eventError socket => if socket ∈ sockets reqs then [(socket, .dropped)] else []
  | .eventTimeout socket => if socket ∈ sockets reqs then [(socket, .dropped)] else []

/-- A worker and the marks of the calls so far, which are a ghost. -/
structure Session where
  worker : Worker
  log : List (Int × Mark)

/-- One call. -/
def Session.step (cfg : Config) (timerFd : Int) (t : Session) (c : PluginCall) :
    Except Fault (Answer × Session) := do
  let out ← pluginCall cfg timerFd t.worker c
  .ok (out.1, ⟨out.2, t.log ++ c.marks t.worker.currReqs out.1⟩)

/-- The marks of one socket. -/
def marksOf (k : Int) (log : List (Int × Mark)) : List Mark :=
  (log.filter (fun e => e.1 = k)).map Prod.snd

/-- A request is accepted, then ended or dropped, then the next one is accepted; the
flag is set while there is one. -/
inductive Alternates : Bool → List Mark → Prop
  | nil : Alternates false []
  | accepted {ms : List Mark} (h : Alternates false ms) : Alternates true (ms ++ [.accepted])
  | over {ms : List Mark} {m : Mark} (hm : m ≠ .accepted) (h : Alternates true ms) :
      Alternates false (ms ++ [m])

/-- The marks of a socket, one log after another. -/
theorem marksOf_append (k : Int) (log log' : List (Int × Mark)) :
    marksOf k (log ++ log') = marksOf k log ++ marksOf k log' := by
  simp [marksOf]

/-- One request for each socket, and something left to send for each request. -/
structure Pending (reqs : List (CacheReq Addr)) : Prop where
  once : (sockets reqs).Nodup
  left : ∀ r ∈ reqs, 0 < r.bytesToSend

section Hooks

variable {timerFd : Int} {reqs reqs' : List (CacheReq Addr)} {c : PluginCall} {ans : Answer}
  {k : Int} {ms : List Mark}

/-- One request for a socket at most is left when one goes. -/
theorem Pending.erase (h : Pending reqs) (k : Int) :
    Pending (reqs.eraseP (fun q => q.socket = k)) where
  once := by
    rw [sockets_erase]
    exact h.once.erase k
  left r hr := h.left r (List.mem_of_mem_eraseP hr)

/-- **Step lemma.** -/
theorem Hook.pending (h : Hook timerFd reqs c ans reqs') (hp : Pending reqs) :
    Pending reqs' := by
  cases h with
  | busy => exact hp
  | answered => exact hp
  | @accepted q o r hout hr hleft =>
    constructor
    · rw [sockets, List.map_append, List.nodup_append]
      refine ⟨hp.once, List.nodup_singleton _, ?_⟩
      rintro j hj _ hk rfl
      obtain rfl := List.mem_singleton.mp hk
      have hin : r.socket ∈ sockets reqs := hj
      rw [hr] at hin
      exact hout hin
    · intro r' hr'
      rcases List.mem_append.mp hr' with hr' | hr'
      · exact hp.left r' hr'
      · obtain rfl := List.mem_singleton.mp hr'
        exact hleft
  | read => exact hp
  | unknown => exact hp
  | stale => exact hp
  | @going fd o r hin hr hleft =>
    constructor
    · rw [sockets_set]
      exact hp.once
    · intro r' hr'
      rcases mem_currReqsSet hr' with rfl | hr'
      · exact hleft
      · exact hp.left r' hr'
  | ended => exact hp.erase _
  | error => exact hp.erase _
  | timeout => exact hp.erase _

/-- A call that ends the request of `j`, or finds none. -/
theorem Alternates.erase (hp : Pending reqs) {j : Int} {m : Mark} (hm : m ≠ .accepted)
    (h : Alternates (k ∈ sockets reqs) ms) :
    Alternates (k ∈ sockets (reqs.eraseP (fun q => q.socket = j)))
      (ms ++ marksOf k (if j ∈ sockets reqs then [(j, m)] else [])) := by
  rw [sockets_erase]
  by_cases hj : j ∈ sockets reqs
  · rw [if_pos hj]
    by_cases hk : j = k
    · subst hk
      have hgone : j ∉ (sockets reqs).erase j := hp.once.not_mem_erase
      simp only [hj, decide_true] at h
      simpa [marksOf, hgone] using Alternates.over hm h
    · have hstays : k ∈ (sockets reqs).erase j ↔ k ∈ sockets reqs :=
        List.mem_erase_of_ne (Ne.symm hk)
      simpa [marksOf, hk, hstays] using h
  · rw [if_neg hj, List.erase_of_not_mem hj]
    simpa [marksOf] using h

/-- **Step lemma.** -/
theorem Hook.alternates (h : Hook timerFd reqs c ans reqs') (hp : Pending reqs)
    (hms : Alternates (k ∈ sockets reqs) ms) :
    Alternates (k ∈ sockets reqs') (ms ++ marksOf k (c.marks reqs ans)) := by
  cases h with
  | busy hin => simpa [PluginCall.marks, marksOf, hin] using hms
  | answered hout hret =>
    rcases hret with rfl | rfl
    · simpa [PluginCall.marks, marksOf] using hms
    · simpa [PluginCall.marks, marksOf] using hms
  | @accepted q o r hout hr hleft =>
    have hadd : sockets (reqs ++ [r]) = sockets reqs ++ [q.socket] := by
      simp [sockets, hr]
    rw [hadd]
    by_cases hk : q.socket = k
    · subst hk
      simp only [hout, decide_false] at hms
      simpa [PluginCall.marks, marksOf, hout] using Alternates.accepted hms
    · simpa [PluginCall.marks, marksOf, hout, hk, Ne.symm hk] using hms
  | read => simpa [PluginCall.marks, marksOf] using hms
  | unknown => simpa [PluginCall.marks, marksOf] using hms
  | stale => simpa [PluginCall.marks, marksOf] using hms
  | going =>
    rw [sockets_set]
    simpa [PluginCall.marks, marksOf] using hms
  | @ended fd o hin =>
    have hend := hms.erase hp (j := fd) (m := .ended) (by decide)
    rw [if_pos hin] at hend
    exact hend
  | error => exact hms.erase hp (by decide)
  | timeout => exact hms.erase hp (by decide)

/-- The return values say what becomes of the request. -/
structure Tells (reqs : List (CacheReq Addr)) (c : PluginCall) (ans : Answer)
    (reqs' : List (CacheReq Addr)) : Prop where
  not_close : ans.ret ≠ .eventClose
  ends : ∀ fd, ans.ended = some fd → fd ∈ sockets reqs ∧ fd ∉ sockets reqs'
  stage30 : ∀ q o, c = .stage30 q o → (ans.ret = .retContinue ↔ q.socket ∈ sockets reqs')
  continues : ∀ fd o, c = .eventWrite fd o → (ans.ret = .eventContinue ↔ fd ∈ sockets reqs')
  next : ∀ fd o, c = .eventWrite fd o → (ans.ret = .eventNext ↔ fd ∉ sockets reqs)

/-- A step of the hooks returns what is true of the requests. -/
theorem Hook.tells (h : Hook timerFd reqs c ans reqs') (hp : Pending reqs) :
    Tells reqs c ans reqs' := by
  cases h with
  | busy hin => exact ⟨by decide, by simp, by simp [hin], by simp, by simp⟩
  | answered hout hret =>
    rcases hret with rfl | rfl
    · exact ⟨by decide, by simp, by simp [hout], by simp, by simp⟩
    · exact ⟨by decide, by simp, by simp [hout], by simp, by simp⟩
  | accepted hout hr => exact ⟨by decide, by simp, by simp [sockets, hr], by simp, by simp⟩
  | @read fd fired now =>
    refine ⟨?_, by simp, by simp, by simp, by simp⟩
    split <;> decide
  | unknown hout => exact ⟨by decide, by simp, by simp, by simp [hout], by simp [hout]⟩
  | @stale fd o r hr hnone => exact absurd (hp.left r hr) (by omega)
  | going hin => exact ⟨by decide, by simp, by simp, by simp [sockets_set, hin], by simp [hin]⟩
  | @ended fd o hin =>
    have hgone : fd ∉ sockets (reqs.eraseP (fun q => q.socket = fd)) := by
      rw [sockets_erase]
      exact hp.once.not_mem_erase
    refine ⟨by simp, ?_, by simp, by simp [hgone], by simp [hin]⟩
    rintro j hj
    obtain rfl := Option.some.inj hj
    exact ⟨hin, hgone⟩
  | error => exact ⟨by decide, by simp, by simp, by simp, by simp⟩
  | timeout => exact ⟨by decide, by simp, by simp, by simp, by simp⟩

end Hooks

/-- The runs of the hooks. -/
def Session.Runs (cfg : Config) (timerFd : Int) (t₀ t : Session) : Prop :=
  Reachable (stepRel (Session.step cfg timerFd)) t₀ t

/-- A step of a session is a hook. -/
theorem Session.step_hook {timerFd : Int} {t t' : Session} {c : PluginCall} {ans : Answer}
    (h : t.step cfg timerFd c = .ok (ans, t')) :
    Hook timerFd t.worker.currReqs c ans t'.worker.currReqs ∧
      t'.log = t.log ++ c.marks t.worker.currReqs ans := by
  obtain ⟨out, hcall, hstep⟩ := bind_eq_ok.mp h
  have hhook := (pluginCall_hook timerFd t.worker c).of_ok hcall
  cases hstep
  exact ⟨hhook, rfl⟩

/-- The runs of the hooks are runs of the worker. -/
theorem Session.worker_runs {timerFd : Int} {t₀ t : Session} (h : Session.Runs cfg timerFd t₀ t) :
    Worker.Runs cfg (fun _ => True) t₀.worker t.worker := by
  have hinit : Worker.Runs cfg (fun _ => True) t₀.worker t₀.worker := .init
  refine h.invariant (fun t => Worker.Runs cfg (fun _ => True) t₀.worker t.worker) hinit ?_
  rintro t c t' - hruns ⟨ans, hstep⟩
  obtain ⟨⟨ans', s'⟩, hcall, hout⟩ := bind_eq_ok.mp hstep
  cases hout
  have hsame := pluginCall_step cfg timerFd t.worker c
  rw [hcall] at hsame
  cases hevent : c.event timerFd with
  | none =>
    rw [hevent] at hsame
    have heq : s' = t.worker := Except.ok.inj hsame
    rw [heq]
    exact hruns
  | some e =>
    rw [hevent] at hsame
    cases hworker : t.worker.step cfg e with
    | error f =>
      rw [Worker.stepOpt, hworker] at hsame
      cases hsame
    | ok next =>
      rw [Worker.stepOpt, hworker] at hsame
      have heq : s' = next.2 := Except.ok.inj hsame
      rw [heq]
      exact hruns.step ⟨trivial, next.1, hworker⟩

/-- **Every request is ended once**: in every run, the marks of each socket alternate,
and the value that a call returns says whether its request is still there.  The branch
that closes a connection with nothing left to send is never taken. -/
theorem requests_end_once {timerFd : Int} {t : Session}
    (hrun : Session.Runs cfg timerFd ⟨.init, []⟩ t) :
    (∀ k, Alternates (k ∈ sockets t.worker.currReqs) (marksOf k t.log)) ∧
      ∀ c ans t', t.step cfg timerFd c = .ok (ans, t') →
        Tells t.worker.currReqs c ans t'.worker.currReqs := by
  have hinv : Pending t.worker.currReqs ∧
      ∀ k, Alternates (k ∈ sockets t.worker.currReqs) (marksOf k t.log) := by
    refine hrun.invariant (fun t => Pending t.worker.currReqs ∧
      ∀ k, Alternates (k ∈ sockets t.worker.currReqs) (marksOf k t.log)) ?_ ?_
    · have hnone : sockets Worker.init.currReqs = [] := rfl
      refine ⟨⟨List.nodup_nil, fun r hr => absurd hr List.not_mem_nil⟩, fun k => ?_⟩
      simpa [hnone, marksOf] using Alternates.nil
    · rintro t c t' - ⟨hp, halt⟩ ⟨ans, hstep⟩
      obtain ⟨hhook, hlog⟩ := Session.step_hook hstep
      refine ⟨hhook.pending hp, fun k => ?_⟩
      rw [hlog, marksOf_append]
      exact hhook.alternates hp (halt k)
  refine ⟨hinv.2, ?_⟩
  intro c ans t' hstep
  exact (Session.step_hook hstep).1.tells hinv.1

/-- A request whose socket takes nothing at first. -/
theorem requests_end_once_sample :
    ∃ t : Session, marksOf 5 t.log = [.accepted, .ended] ∧
      Alternates (5 ∈ sockets t.worker.currReqs) (marksOf 5 t.log) := by
  have hrun : Session.Runs plainConfig 3 ⟨.init, []⟩ _ :=
    Reachable.mono (fun _ _ _ h => h.2) (Reachable.of_exec (P := fun _ _ => True)
      [.stage30 { socket := 5, get := true, uriProcessed := fileA, realPath := fileA, body := [] }
          (plainOut 100 ⟨0, true, -7⟩ .eagain),
        .eventWrite 5 (fun _ => { fill := fun _ => .all, tee := .all, splice := .all })]
      (fun _ _ _ => trivial) rfl)
  exact ⟨_, rfl, (requests_end_once hrun).1 5⟩

end MonkeyCache
