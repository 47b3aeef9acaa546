import MonkeyCache.Lib.Transition
import MonkeyCache.Socket

/-!
# The serving machine (`cache.c`, `cache_req.c`, `curr_reqs.c`)

One worker serves any number of requests on files that stay in the cache.  Its
events are `_mkp_stage_30` on a file that was found (from `cache_req_new` on),
`_mkp_event_write`, `_mkp_event_error` and `_mkp_event_timeout`.  The requests
share the pipes of their file and the pools, and every answer of the kernel is
part of the event, so a run is any order of calls with any answers.
-/

namespace MonkeyCache

open Fallible Chunks Transition

variable {ι : Type}

/-! ## Request pool -/

/-- `CACHE_REQ_POOL_MAX` -/
def cacheReqPoolMax : Nat := 32

/-- The two pools of a worker.  Of a pooled request only the private pipe is
used again. -/
structure Pools where
  reqs : List PipeBuf
  pipes : PipePool
  deriving DecidableEq, Repr

/-- `cache_req_new`: the private pipe of the new request. -/
def cacheReqNew (size : Nat) (ps : Pools) (o : PipeOut) :
    Except Fault (PipeBuf × Pools) :=
  match ps.reqs with
  | buf :: rest => do
    let buf ← emptied buf o.flush
    .ok (buf, { ps with reqs := rest })
  | [] => do
    let new ← pipeBufNew size ps.pipes o
    if new.1.filled ≠ 0 then .error .bufNotEmpty
    else .ok (new.1, { ps with pipes := new.2 })

/-- Lines 99 to 108 of `cache_req_del`: the request goes to its pool, or its
pipe is released. -/
def cacheReqRelease (size : Nat) (buf : PipeBuf) (ps : Pools) : Pools :=
  if ps.reqs.length < cacheReqPoolMax then { ps with reqs := ps.reqs ++ [buf] }
  else { ps with pipes := pipeBufFree size buf ps.pipes }

/-! ## Setting up a request -/

/-- What `_mkp_stage_30` meets after the file was found: the header string
`header_send` produces, the requests left on the connection, and the kernel's
answers in the order in which they are needed. -/
structure StartOut where
  header : List Byte
  keepAliveLeft : Int
  fill : Nat → Xfer
  headerTee : Xfer
  serveTee : Xfer
  serve : Nat → RoundOut

/-- The request of lines 402 to 410 of `_mkp_stage_30`. -/
def newReq (f : CacheFile) (file : ι) (socket : Int) (buf : PipeBuf) : CacheReq ι :=
  { socket := socket, file := file, curr := some 0, bytesOffset := 0
    bytesToSend := f.size, buf := buf, sent := [], viaCache := false }

/-- Lines 423 to 426 of `_mkp_stage_30`. -/
def prepareHeaders (f : CacheFile) (e : StartOut) : Except Fault CacheFile :=
  if f.cacheHeaders.filled = 0 then fillCacheHeaders f e.header e.headerTee else .ok f

/-- Lines 429 to 434 of `_mkp_stage_30`: headers that `header_send` writes to the
socket do not touch the request. -/
def attachHeaders (f : CacheFile) (r : CacheReq ι) (e : StartOut) :
    Except Fault (CacheReq ι) :=
  if f.cacheHeaders.filled = 0 ∨ e.keepAliveLeft ≤ 0 then .ok r
  else serveCacheHeaders f r e.serveTee

/-- Lines 402 to 439 of `_mkp_stage_30`: what `serve_req` returns, the file and
the request. -/
def startReq (f : CacheFile) (file : ι) (socket : Int) (buf : PipeBuf) (e : StartOut) :
    Except Fault (Int × CacheFile × CacheReq ι) := do
  let r := newReq f file socket buf
  let filled ← cacheReqFillCurr { f with pendingReqs := f.pendingReqs + 1 } r e.fill
  if r.buf.filled ≠ 0 then .error .bufNotEmpty
  else do
    let f ← prepareHeaders filled.2 e
    let r ← attachHeaders f r e
    socketServeReqSplice f r e.serve

/-! ## The machine -/

/-- The files, the requests in `curr_reqs` and the pools of one worker. -/
structure Serving (ι : Type) where
  files : ι → CacheFile
  currReqs : List (CacheReq ι)
  pools : Pools

/-- One call into the plugin. -/
inductive ServingEvent (ι : Type)
  | stage30 (file : ι) (socket : Int) (pipe : PipeOut) (e : StartOut)
  | eventWrite (socket : Int) (o : Nat → RoundOut)
  | eventError (socket : Int)
  | eventTimeout (socket : Int)

/-- `curr_reqs_get` -/
def currReqsGet (reqs : List (CacheReq ι)) (socket : Int) : Option (CacheReq ι) :=
  reqs.find? (fun r => r.socket = socket)

/-- The list after the request it holds for `r`'s socket was changed into `r`. -/
def currReqsSet (r : CacheReq ι) : List (CacheReq ι) → List (CacheReq ι)
  | [] => []
  | q :: qs => if q.socket = r.socket then r :: qs else q :: currReqsSet r qs

/-! ## The list of current requests -/

/-- A request that is found is in the list, with the socket asked for. -/
theorem currReqsGet_mem {reqs : List (CacheReq ι)} {socket : Int} {r : CacheReq ι}
    (h : currReqsGet reqs socket = some r) : r ∈ reqs ∧ r.socket = socket :=
  ⟨List.mem_of_find?_eq_some h, by simpa [currReqsGet] using List.find?_some h⟩

/-- A request that is added for a socket without one is found, and deleting it
gives the old list back. -/
theorem currReqs_append {reqs : List (CacheReq ι)} {r : CacheReq ι}
    (h : currReqsGet reqs r.socket = none) :
    currReqsGet (reqs ++ [r]) r.socket = some r ∧
      (reqs ++ [r]).eraseP (fun q => q.socket = r.socket) = reqs := by
  induction reqs with
  | nil => simp [currReqsGet]
  | cons q qs ih =>
      have hne : ¬ q.socket = r.socket := by
        intro heq
        simp [currReqsGet, heq] at h
      have htail : currReqsGet qs r.socket = none := by
        simpa [currReqsGet, hne] using h
      obtain ⟨hget, herase⟩ := ih htail
      exact ⟨by simpa [currReqsGet, hne] using hget, by simpa [hne] using herase⟩

/-- A request that is changed in place is found under its socket, and deleting
it is deleting the one it was. -/
theorem currReqs_set {reqs : List (CacheReq ι)} {r q : CacheReq ι}
    (h : currReqsGet reqs r.socket = some q) :
    currReqsGet (currReqsSet r reqs) r.socket = some r ∧
      (currReqsSet r reqs).eraseP (fun q => q.socket = r.socket) =
        reqs.eraseP (fun q => q.socket = r.socket) := by
  induction reqs with
  | nil => simp [currReqsGet] at h
  | cons p ps ih =>
      by_cases heq : p.socket = r.socket
      · simp [currReqsSet, currReqsGet, heq]
      · have htail : currReqsGet ps r.socket = some q := by
          simpa [currReqsGet, heq] using h
        obtain ⟨hget, herase⟩ := ih htail
        simp only [currReqsSet, heq, if_false]
        exact ⟨by simpa [currReqsGet, heq] using hget, by simpa [heq] using herase⟩

/-- A request of the new list is the stored one or an old one. -/
theorem mem_currReqsSet {reqs : List (CacheReq ι)} {r q : CacheReq ι}
    (h : q ∈ currReqsSet r reqs) : q = r ∨ q ∈ reqs := by
  induction reqs with
  | nil => cases h
  | cons p ps ih =>
      unfold currReqsSet at h
      split at h
      · rcases List.mem_cons.1 h with h | h
        · exact .inl h
        · exact .inr (List.mem_cons_of_mem p h)
      · rcases List.mem_cons.1 h with rfl | h
        · exact .inr List.mem_cons_self
        · exact (ih h).imp_right (List.mem_cons_of_mem p)

/-! ## Events -/

variable [DecidableEq ι]

/-- `curr_reqs_del` with `cache_req_del`.  The files of this machine are in the
table throughout, so none is a zombie and none is freed here. -/
def Serving.currReqsDel (size : Nat) (s : Serving ι) (socket : Int) : Serving ι :=
  match currReqsGet s.currReqs socket with
  | none => s
  | some r =>
    let f := s.files r.file
    { files := Function.update s.files r.file { f with pendingReqs := f.pendingReqs - 1 }
      currReqs := s.currReqs.eraseP (fun q => q.socket = socket)
      pools := cacheReqRelease size r.buf s.pools }

/-- The end of `_mkp_stage_30` and of `_mkp_event_write`: a request whose
`serve_req` returned 0 or less is removed. -/
def Serving.finish (size : Nat) (s : Serving ι) (socket : Int)
    (out : Int × CacheFile × CacheReq ι) :
    Option (Int × CacheReq ι) × Serving ι :=
  (some (out.1, out.2.2), if out.1 ≤ 0 then s.currReqsDel size socket else s)

/-- One event.  The report is the call of `socket_serve_req_splice` that the
event made: the value it returned and the request as it left it. -/
def Serving.step (size : Nat) (s : Serving ι) :
    ServingEvent ι → Except Fault (Option (Int × CacheReq ι) × Serving ι)
  | .stage30 file socket pipe e =>
    match currReqsGet s.currReqs socket with
    | some _ => .ok (none, s)
    | none => do
      let new ← cacheReqNew size s.pools pipe
      let out ← startReq (s.files file) file socket new.1 e
      .ok (Serving.finish size
        { files := Function.update s.files file out.2.1
          currReqs := s.currReqs ++ [out.2.2]
          pools := new.2 } socket out)
  | .eventWrite socket o =>
    match currReqsGet s.currReqs socket with
    | none => .ok (none, s)
    | some r =>
      if r.bytesToSend ≤ 0 then .ok (none, s)
      else do
        let out ← socketServeReqSplice (s.files r.file) r o
        .ok (Serving.finish size
          { s with
            files := Function.update s.files r.file out.2.1
            currReqs := currReqsSet out.2.2 s.currReqs } socket out)
  | .eventError socket => .ok (none, s.currReqsDel size socket)
  | .eventTimeout socket => .ok (none, s.currReqsDel size socket)

/-! ## Files as the constructors build them -/

/-- One round of the loop that gives a file its pipes; the state is `len`, the
chain so far and the pool. -/
def chainRound (size : Nat) (o : Nat → PipeOut) (k : Nat)
    (s : Nat × List PipeBuf × PipePool) :
    Except Fault ((Nat × List PipeBuf × PipePool) ⊕ (List PipeBuf × PipePool)) :=
  if 0 < s.1 then do
    let new ← pipeBufNew size s.2.2 (o k)
    .ok (.inl (s.1 - new.1.cap, s.2.1 ++ [new.1], new.2))
  else .ok (.inr s.2)

/-- `while (len > 0) { tmp = pipe_buf_new(); .. len -= tmp->cap; }` -/
def newChain (size len : Nat) (o : Nat → PipeOut) (pp : PipePool) :
    Except Fault (List PipeBuf × PipePool) :=
  iterate .diverged (chainRound size o) (len + 1) 0 (len, [], pp)

/-- `f` is a file with content `F` whose pipes were made by a constructor, out of
a pool in order, and on which no request was served yet. -/
structure Built (c : Nat) (F : List Byte) (f : CacheFile) : Prop where
  buf_eq : f.buf = F
  size_eq : f.size = F.length
  headerLen_eq : f.headerLen = 0
  headers : ∃ pp pp' o, pp.Ok c ∧ pipeBufNew c pp o = .ok (f.cacheHeaders, pp')
  cache : ∃ pp pp' o, pp.Ok c ∧ newChain c F.length o pp = .ok (f.cache, pp')

/-- The pipes of both pools are in order. -/
def Pools.Ok (c : Nat) (ps : Pools) : Prop :=
  (∀ buf ∈ ps.reqs, PipeOk c buf) ∧ ps.pipes.Ok c

/-- What is served: the pipe capacity, the nonempty content of every file and
the header string of every file. -/
structure Site (ι : Type) where
  cap : Nat
  cap_pos : 0 < cap
  content : ι → List Byte
  content_pos : ∀ f, 0 < (content f).length
  header : ι → List Byte

/-- A worker that serves no request yet. -/
structure Site.Start (site : Site ι) (s : Serving ι) : Prop where
  files : ∀ f, Built site.cap (site.content f) (s.files f)
  idle : s.currReqs = []
  pools : s.pools.Ok site.cap

/-- A chain has one pipe for every chunk, and the pipes are empty. -/
theorem newChain_ok {c len : Nat} (hc : 0 < c) {o : Nat → PipeOut} {pp pp' : PipePool}
    {chain : List PipeBuf} (hpp : pp.Ok c) (h : newChain c len o pp = .ok (chain, pp')) :
    chain.length = count c len ∧ (∀ p ∈ chain, PipeOk c p ∧ p.data = []) ∧ pp'.Ok c := by
  have hloop : Ensures (newChain c len o pp)
      (fun r => r.1.length = count c len ∧ (∀ p ∈ r.1, PipeOk c p ∧ p.data = []) ∧ r.2.Ok c)
      (fun _ => True) := by
    refine Ensures.iterate_partial
      (I := fun s : Nat × List PipeBuf × PipePool =>
        s.2.1.length + count c s.1 = count c len ∧
          (∀ p ∈ s.2.1, PipeOk c p ∧ p.data = []) ∧ s.2.2.Ok c)
      trivial ?_ _ _ _ ⟨by simp, by simp, hpp⟩
    intro k s hs
    obtain ⟨n, ch, pl⟩ := s
    obtain ⟨hcount, hch, hpl⟩ := hs
    unfold chainRound
    refine Ensures.ite ?_ ?_
    · intro hpos
      apply ((pipeBufNew_ensures hpl (o k)).imp_error (fun _ _ => trivial)).bind
      intro new hnew
      obtain ⟨hok, hdata, hpl'⟩ := hnew
      refine ⟨?_, ?_, hpl'⟩
      · have hsub := count_sub hc hpos
        simp only [List.length_append, List.length_singleton, hok.cap_eq]
        dsimp only at hcount hsub
        omega
      · intro p hp
        rcases List.mem_append.1 hp with hp | hp
        · exact hch p hp
        · rw [List.mem_singleton.1 hp]
          exact ⟨hok, hdata⟩
    · intro hzero
      dsimp only at hzero hcount
      rw [Nat.eq_zero_of_not_pos hzero, count_zero hc, Nat.add_zero] at hcount
      exact ⟨hcount, hch, hpl⟩
  exact hloop.of_ok h

end MonkeyCache
