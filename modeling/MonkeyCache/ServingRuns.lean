import MonkeyCache.ServingStart

/-!
# The invariant of the serving machine

`Serving.Inv` is kept by every event, whatever the sockets answer
(`Serving.step_keeps`), so it holds in every reachable state
(`Serving.inv_of_reachable`).  What is assumed of the kernel is the guard
`Site.Kernel`: every `vmsplice` takes everything; and, where `full` holds, so
does every `tee` into an empty pipe, while the `tee` that fills the header pipe
copies a prefix whose length is in `A`.
-/

namespace MonkeyCache

open Fallible Chunks Transition

variable {ι : Type} {c : Nat} {f : CacheFile} {r : CacheReq ι} {full : Prop}

/-! ## What is assumed of the kernel -/

/-- The kernel's answers during one call of `socket_serve_req_splice`. -/
structure ServeKernel (full : Prop) (o : Nat → RoundOut) : Prop where
  fill : ∀ k j, (o k).fill j = .all
  tee : full → ∀ k, (o k).tee = .all

/-- The kernel's answers while a request is set up. -/
structure StartKernel (full : Prop) (e : StartOut) : Prop where
  fill : ∀ j, e.fill j = .all
  serveTee : full → e.serveTee = .all
  serve : ServeKernel full e.serve

/-- The `tee` that fills the header pipe copies, if it is made, a prefix of a
length in `A`. -/
def Site.Carries (site : Site ι) (A : ι → Nat → Prop) (s : Serving ι) (file : ι)
    (x : Xfer) : Prop :=
  (s.files file).cacheHeaders.filled = 0 →
    (site.header file).length + (site.content file).length < site.cap →
    ∀ k, x.count (site.content file).length = .ok k → A file k

/-- The guard of the machine's steps. -/
def Site.Kernel (site : Site ι) (full : Prop) (A : ι → Nat → Prop) (s : Serving ι) :
    ServingEvent ι → Prop
  | .stage30 file _ _ e => StartKernel full e ∧
      (full → e.header = site.header file ∧ site.Carries A s file e.headerTee)
  | .eventWrite _ o => ServeKernel full o
  | .eventError _ => True
  | .eventTimeout _ => True

/-- The checks that may fire while a request is set up, before the serving loop. -/
def Fault.Setup (e : Fault) : Prop :=
  e = .headersTee ∨ e = .headersShort ∨ e = .headersEmpty ∨ e = .bufNotEmpty ∨
    e = .flush ∨ e = .createPipe

/-! ## One call -/

/-- What a call that served a request leaves behind. -/
structure Served (c : Nat) (full : Prop) (F H : List Byte) (A : Nat → Prop) (f : CacheFile)
    (file : ι) (socket : Int) (out : Int × CacheFile × CacheReq ι) : Prop where
  fileOk : FileOk c out.2.1
  reqOk : ReqOk c out.2.1 out.2.2
  exact : full → FileExact c F H A out.2.1 ∧ ReqExact c F H A out.2.2
  returned : Returned out.1 out.2.2
  grows : Grows c f out.2.1
  file_eq : out.2.2.file = file
  socket_eq : out.2.2.socket = socket

/-- A round changes neither the socket nor the file of its request. -/
theorem frame_roundInvariant (c : Nat) (f₀ : CacheFile) (file : ι) (socket : Int) :
    RoundInvariant c (fun _ => True)
      (fun f (r : CacheReq ι) => Grows c f₀ f ∧ r.file = file ∧ r.socket = socket) where
  fill := by
    rintro f r x out - hf hok ⟨hgrow, hfile, hsocket⟩ hout
    have hkeeps := fillBuffer_keeps hf hok hout
    refine ⟨hgrow.trans hkeeps.2.2.1, ?_⟩
    cases hout with
    | past _ => exact ⟨hfile, hsocket⟩
    | stay _ _ _ _ => exact ⟨hfile, hsocket⟩
    | copy _ _ _ _ _ _ _ _ => exact ⟨hfile, hsocket⟩
  send := by
    rintro f r n - - ⟨hgrow, hfile, hsocket⟩ -
    exact ⟨hgrow, hfile, hsocket⟩

/-- **One call of `socket_serve_req_splice`.** -/
theorem serve_keeps {F H : List Byte} {A : Nat → Prop} (hc : 0 < c) {o : Nat → RoundOut}
    (hk : ServeKernel full o) (hf : FileOk c f) (hr : ReqOk c f r)
    (he : full → FileExact c F H A f ∧ ReqExact c F H A r) :
    Ensures (socketServeReqSplice f r o) (Served c full F H A f r.file r.socket)
      (fun _ => False) := by
  have hP : RoundInvariant c (fun x => full → x = .all)
      (fun f' (r' : CacheReq ι) =>
        (full → FileExact c F H A f' ∧ ReqExact c F H A r') ∧
          (Grows c f f' ∧ r'.file = r.file ∧ r'.socket = r.socket)) :=
    { fill := fun hx hf hok hp hout =>
        ⟨fun hfull => (exact_roundInvariant hc).fill (hx hfull) hf hok (hp.1 hfull) hout,
          (frame_roundInvariant c f r.file r.socket).fill trivial hf hok hp.2 hout⟩
      send := fun hf hok hp hn =>
        ⟨fun hfull => (exact_roundInvariant hc).send hf hok (hp.1 hfull) hn,
          (frame_roundInvariant c f r.file r.socket).send hf hok hp.2 hn⟩ }
  have hcall := socketServeReqSplice_keeps hP hc hk.fill (fun k hfull => hk.tee hfull k) hf hr
    ⟨he, .refl c f, rfl, rfl⟩
  apply hcall.imp_ok
  rintro out ⟨hf', hr', ⟨hexact, hgrow, hfile, hsocket⟩, hret, _⟩
  exact ⟨hf', hr', hexact, hret, hgrow, hfile, hsocket⟩

/-- The reference count is no part of what is served. -/
theorem FileOk.setPending (hf : FileOk c f) (n : Int) :
    FileOk c { f with pendingReqs := n } :=
  ⟨hf.pos, hf.mapped, hf.chain, hf.pipes, hf.first, hf.headers, hf.headerLen_le, hf.carried⟩

theorem FileExact.setPending {F H : List Byte} {A : Nat → Prop} (he : FileExact c F H A f)
    (n : Int) : FileExact c F H A { f with pendingReqs := n } :=
  ⟨he.content, he.chunks, he.header⟩

theorem Served.setPending {F H : List Byte} {A : Nat → Prop} {f' : CacheFile} {ret : Int}
    {file : ι} {socket : Int} (h : Served c full F H A f file socket (ret, f', r)) (n : Int) :
    Served c full F H A f file socket (ret, { f' with pendingReqs := n }, r) where
  fileOk := h.fileOk.setPending n
  reqOk := h.reqOk.grows ⟨rfl, rfl, id⟩
  exact hfull := ⟨(h.exact hfull).1.setPending n, (h.exact hfull).2⟩
  returned := h.returned
  grows := h.grows.trans ⟨rfl, rfl, id⟩
  file_eq := h.file_eq
  socket_eq := h.socket_eq

/-- A request that was just created is in order. -/
theorem newReq_ok (hf : FileOk c f) (hc : 0 < c) {buf : PipeBuf} (hbuf : PipeOk c buf)
    (hempty : buf.data = []) (file : ι) (socket : Int) :
    ReqOk c f (newReq f file socket buf) ∧ (newReq f file socket buf).off = 0 := by
  have hfilled : buf.filled = 0 := by
    rw [hbuf.filled_eq, hempty]
    rfl
  have hoff : (newReq f file socket buf).off = 0 := by
    simp [newReq, CacheReq.off, hfilled]
  obtain ⟨p, hp⟩ := hf.exists_first hc
  refine ⟨⟨by simp [newReq], by omega, by omega, hbuf, ?_, ?_⟩, hoff⟩
  · intro i hi
    cases hi
    exact (List.getElem?_eq_some_iff.1 hp).1
  · intro _ hpos
    omega

theorem newReq_exact {F H : List Byte} {A : Nat → Prop} {buf : PipeBuf}
    (hempty : buf.data = []) {file : ι} {socket : Int}
    (hoff : (newReq f file socket buf).off = 0) :
    ReqExact c F H A (newReq f file socket buf) where
  sentLen := rfl
  stream := by
    rw [hoff]
    simp [newReq, CacheReq.headers, hempty]
  atEnd hnone := by cases hnone
  inStep i hi := by
    cases hi
    left
    rw [hoff, Nat.zero_mul]
    rfl

/-- Lines 423 to 426 of `_mkp_stage_30`, with the first pipe filled. -/
theorem prepareHeaders_keeps {F H : List Byte} {A : Nat → Prop} (hc : 0 < c) {e : StartOut}
    (hf : FileOk c f) (hfirst : f.FirstFull c) (he : full → FileExact c F H A f)
    (hH : full → e.header = H ∧ H.length < c)
    (hA : full → f.cacheHeaders.filled = 0 → H.length + F.length < c →
      ∀ k, e.headerTee.count F.length = .ok k → A k) :
    Ensures (prepareHeaders f e)
      (fun f' => FileOk c f' ∧ Grows c f f' ∧ (full → FileExact c F H A f')) Fault.Setup := by
  unfold prepareHeaders
  refine Ensures.ite ?_ ?_
  · intro hzero
    refine (fillCacheHeaders_cases hc hf hzero).mono ?_ ?_
    · intro f' hfill
      obtain ⟨hf', hgrow⟩ := hf.fillHeaders hfirst hfill
      refine ⟨hf', hgrow, ?_⟩
      intro hfull
      obtain ⟨hheader, hlt⟩ := hH hfull
      rw [hheader] at hfill
      exact (he hfull).fillHeaders hf hfirst hlt (fun k hfit => hA hfull hzero hfit k) hfill
    · intro e he
      rcases he with rfl | rfl
      · exact .inl rfl
      · exact .inr (.inr (.inl rfl))
  · intro _
    exact ⟨hf, .refl c f, he⟩

/-- Lines 429 to 434 of `_mkp_stage_30`, for a request that was just created. -/
theorem attachHeaders_keeps {F H : List Byte} {A : Nat → Prop} (hc : 0 < c) {e : StartOut}
    (hf : FileOk c f) (he : full → FileExact c F H A f) (htee : full → e.serveTee = .all)
    {buf : PipeBuf} (hbuf : PipeOk c buf) (hempty : buf.data = []) (file : ι) (socket : Int) :
    Ensures (attachHeaders f (newReq f file socket buf) e)
      (fun r => ReqOk c f r ∧ (full → ReqExact c F H A r) ∧ r.file = file ∧
        r.socket = socket) Fault.Setup := by
  obtain ⟨hnew, hoff⟩ := newReq_ok hf hc hbuf hempty file socket
  unfold attachHeaders
  refine Ensures.ite ?_ ?_
  · intro _
    exact ⟨hnew, fun _ => newReq_exact hempty hoff, rfl, rfl⟩
  · intro hserve
    refine (serveCacheHeaders_cases hf hbuf hempty).mono ?_ ?_
    · intro r' hr'
      refine ⟨.serveHeaders hf hbuf hempty rfl rfl rfl hc hr', ?_, ?_⟩
      · intro hfull
        rw [htee hfull] at hr'
        exact .serveHeaders hf (he hfull) hbuf hempty rfl rfl rfl
          (fun hzero => hserve (.inl hzero)) hr'
      · cases hr'
        exact ⟨rfl, rfl⟩
    · intro e he
      rcases he with rfl | rfl
      · exact .inl rfl
      · exact .inr (.inl rfl)

/-- **Setting up a request** keeps the file in order and leaves a request in
order, or one of the checks before the serving loop fires. -/
theorem startReq_keeps {F H : List Byte} {A : Nat → Prop} (hc : 0 < c) {e : StartOut}
    (hk : StartKernel full e) (hf : FileOk c f) (he : full → FileExact c F H A f)
    (hH : full → e.header = H ∧ H.length < c)
    (hA : full → f.cacheHeaders.filled = 0 → H.length + F.length < c →
      ∀ k, e.headerTee.count F.length = .ok k → A k)
    {buf : PipeBuf} (hbuf : PipeOk c buf) (hempty : buf.data = []) (file : ι) (socket : Int) :
    Ensures (startReq f file socket buf e) (Served c full F H A f file socket) Fault.Setup := by
  -- the early fill, of the file whose count has just been raised
  let f₁ : CacheFile := { f with pendingReqs := f.pendingReqs + 1 }
  have hf₁ : FileOk c f₁ := hf.setPending _
  obtain ⟨hnew, hoff⟩ := newReq_ok hf₁ hc hbuf hempty file socket
  obtain ⟨p, hp⟩ := hf₁.exists_first hc
  obtain ⟨ret, hret, _⟩ := cacheReqFillCurr_afterFill hk.fill rfl hp
    (hf₁.pipes p (List.mem_of_getElem? hp)) hf₁.mapped hoff (Nat.zero_le _)
  have hgrow := grows_afterFill c f₁ 0 0
  have hf₂ := hf₁.afterFill hnew rfl hoff
  have he₂ : full → FileExact c F H A (f₁.afterFill c 0 0) := fun hfull =>
    ((he hfull).setPending _).afterFill hf₁ hnew (newReq_exact hempty hoff) rfl hoff
  have hfilled : (newReq f₁ file socket buf).buf.filled = 0 := by
    show buf.filled = 0
    rw [hbuf.filled_eq, hempty]
    rfl
  unfold startReq
  show Ensures (cacheReqFillCurr f₁ (newReq f₁ file socket buf) e.fill >>= _) _ _
  rw [hret]
  simp only [bind, Except.bind]
  rw [if_neg (fun h => h hfilled)]
  -- the headers
  refine (prepareHeaders_keeps hc hf₂ (hf₁.firstFull_afterFill hc) he₂ hH ?_).bind ?_
  · intro hfull hzero
    rw [(afterFill_headers c f₁ 0 0).1] at hzero
    exact hA hfull hzero
  · intro f₃ h₃
    obtain ⟨hf₃, hgrow₃, he₃⟩ := h₃
    have hsize : newReq f file socket buf = newReq f₃ file socket buf := by
      simp [newReq, hgrow₃.size_eq, f₁]
    rw [hsize]
    apply (attachHeaders_keeps hc hf₃ he₃ hk.serveTee hbuf hempty file socket).bind
    intro r hr
    obtain ⟨hr, hexact, rfl, rfl⟩ := hr
    -- the first call of the serving loop
    refine (serve_keeps hc hk.serve hf₃ hr (fun h => ⟨he₃ h, hexact h⟩)).mono ?_ ?_
    · intro out hout
      have hpending : Grows c f f₁ := ⟨rfl, rfl, id⟩
      exact { hout with grows := (hpending.trans hgrow).trans (hgrow₃.trans hout.grows) }
    · intro e he
      exact he.elim

/-! ## The pools -/

theorem cacheReqNew_keeps {ps : Pools} (hps : ps.Ok c) (o : PipeOut) :
    Ensures (cacheReqNew c ps o)
      (fun new => PipeOk c new.1 ∧ new.1.data = [] ∧ new.2.Ok c) Fault.Setup := by
  unfold cacheReqNew
  cases hreqs : ps.reqs with
  | cons first rest =>
      have hfirst := emptied_ensures (hps.1 first (by simp [hreqs])) o.flush
      refine (hfirst.imp_error ?_).bind ?_
      · intro e he
        rcases he with rfl | rfl
        · exact .inr (.inr (.inr (.inr (.inl rfl))))
        · exact .inr (.inr (.inr (.inl rfl)))
      · intro buf hbuf
        exact ⟨hbuf.1, hbuf.2, fun b hb => hps.1 b (by simp [hreqs, hb]), hps.2⟩
  | nil =>
      refine ((pipeBufNew_ensures hps.2 o).imp_error ?_).bind ?_
      · intro e he
        rcases he with rfl | rfl | rfl
        · exact .inr (.inr (.inr (.inr (.inl rfl))))
        · exact .inr (.inr (.inr (.inl rfl)))
        · exact .inr (.inr (.inr (.inr (.inr rfl))))
      · intro new hnew
        refine Ensures.guard ?_ ?_
        · intro _
          exact .inr (.inr (.inr (.inl rfl)))
        · intro _
          exact ⟨hnew.1, hnew.2.1, fun b hb => by simp at hb, hnew.2.2⟩

theorem cacheReqRelease_ok {ps : Pools} (hps : ps.Ok c) {buf : PipeBuf} (hbuf : PipeOk c buf) :
    (cacheReqRelease c buf ps).Ok c := by
  unfold cacheReqRelease
  split
  · refine ⟨?_, hps.2⟩
    intro b hb
    rcases List.mem_append.1 hb with hb | hb
    · exact hps.1 b hb
    · rw [List.mem_singleton.1 hb]
      exact hbuf
  · exact ⟨hps.1, pipeBufFree_ok hps.2 hbuf⟩

/-! ## The invariant -/

/-- Every file and every request is in order, with something left to send. -/
structure Serving.Inv (site : Site ι) (full : Prop) (A : ι → Nat → Prop)
    (s : Serving ι) : Prop where
  files : ∀ i, FileOk site.cap (s.files i)
  size_eq : ∀ i, (s.files i).size = (site.content i).length
  exactFiles : full → ∀ i,
    FileExact site.cap (site.content i) (site.header i) (A i) (s.files i)
  reqs : ∀ r ∈ s.currReqs, ReqOk site.cap (s.files r.file) r ∧ 0 < r.bytesToSend
  exactReqs : full → ∀ r ∈ s.currReqs,
    ReqExact site.cap (site.content r.file) (site.header r.file) (A r.file) r
  pools : s.pools.Ok site.cap

/-- What a step reports of the call it made. -/
def Site.Reported (site : Site ι) (full : Prop) (call : Int × CacheReq ι) : Prop :=
  full → call.2.sent <+: call.2.stream (site.content call.2.file) (site.header call.2.file) ∧
    (call.1 = 0 ↔
      call.2.sent = call.2.stream (site.content call.2.file) (site.header call.2.file))

/-- What a call reports. -/
theorem Served.reported {site : Site ι} {A : ι → Nat → Prop} {s : Serving ι} {i : ι} {socket : Int}
    {out : Int × CacheFile × CacheReq ι}
    (hs : s.Inv site full A)
    (hout : Served site.cap full (site.content i) (site.header i) (A i) (s.files i) i socket out) :
    site.Reported full (out.1, out.2.2) := by
  intro hfull
  have hexact := (hout.exact hfull).2
  have hsize : out.2.1.size = (site.content i).length :=
    hout.grows.size_eq.trans (hs.size_eq i)
  dsimp only
  rw [hout.file_eq]
  exact ⟨hexact.sent_initial, hexact.returned hout.reqOk hsize hout.returned⟩

variable [DecidableEq ι] {site : Site ι} {A : ι → Nat → Prop} {s : Serving ι}

/-- The file of one request was worked on by a call; the others rely only on its
growth. -/
theorem Serving.Inv.served (hs : s.Inv site full A) {i : ι} {socket : Int}
    {out : Int × CacheFile × CacheReq ι}
    (hout : Served site.cap full (site.content i) (site.header i) (A i) (s.files i) i socket out)
    {reqs : List (CacheReq ι)} {ps : Pools} (hps : ps.Ok site.cap)
    (hreqs : ∀ q ∈ reqs, q ∈ s.currReqs ∨ (q = out.2.2 ∧ 0 < q.bytesToSend)) :
    Serving.Inv site full A
      { files := Function.update s.files i out.2.1, currReqs := reqs, pools := ps } := by
  have hother : ∀ j, Grows site.cap (s.files j) (Function.update s.files i out.2.1 j) := by
    intro j
    by_cases hj : j = i
    · subst hj
      rw [Function.update_self]
      exact hout.grows
    · rw [Function.update_of_ne hj]
      exact .refl _ _
  refine ⟨?_, ?_, ?_, ?_, ?_, hps⟩
  · intro j
    by_cases hj : j = i
    · subst hj
      simpa using hout.fileOk
    · simpa [Function.update_of_ne hj] using hs.files j
  · intro j
    exact (hother j).size_eq.trans (hs.size_eq j)
  · intro hfull j
    by_cases hj : j = i
    · subst hj
      simpa using (hout.exact hfull).1
    · simpa [Function.update_of_ne hj] using hs.exactFiles hfull j
  · intro q hq
    rcases hreqs q hq with hold | ⟨rfl, hpos⟩
    · obtain ⟨hok, hpos⟩ := hs.reqs q hold
      exact ⟨hok.grows (hother q.file), hpos⟩
    · refine ⟨?_, hpos⟩
      rw [hout.file_eq]
      simpa using hout.reqOk
  · intro hfull q hq
    rcases hreqs q hq with hold | ⟨rfl, _⟩
    · exact hs.exactReqs hfull q hold
    · rw [hout.file_eq]
      exact (hout.exact hfull).2

/-- Deleting a request keeps the invariant. -/
theorem Serving.Inv.currReqsDel (hs : s.Inv site full A) (socket : Int) :
    (s.currReqsDel site.cap socket).Inv site full A := by
  unfold Serving.currReqsDel
  cases hget : currReqsGet s.currReqs socket with
  | none => exact hs
  | some r =>
      obtain ⟨hmem, _⟩ := currReqsGet_mem hget
      obtain ⟨hok, _⟩ := hs.reqs r hmem
      -- a call that returns at once, on the file with one request less
      have hout : Served site.cap full (site.content r.file) (site.header r.file) (A r.file)
          (s.files r.file) r.file r.socket
          (r.bytesToSend, { s.files r.file with pendingReqs := (s.files r.file).pendingReqs - 1 },
            r) :=
        Served.setPending ⟨hs.files r.file, hok,
          fun hfull => ⟨hs.exactFiles hfull r.file, hs.exactReqs hfull r hmem⟩,
          .inl rfl, .refl _ _, rfl, rfl⟩ _
      exact hs.served hout (cacheReqRelease_ok hs.pools hok.buf)
        (fun q hq => .inl (List.mem_of_mem_eraseP hq))

/-- The end of a call: a request that is done or failed is removed, the others
have something left to send. -/
theorem Serving.Inv.finish (hs : s.Inv site full A) {i : ι} {socket : Int}
    {out : Int × CacheFile × CacheReq ι}
    (hout : Served site.cap full (site.content i) (site.header i) (A i) (s.files i) i socket out)
    {reqs : List (CacheReq ι)} {ps : Pools} (hps : ps.Ok site.cap)
    (hreqs : ∀ q ∈ reqs, q = out.2.2 ∨ q ∈ s.currReqs)
    (hget : currReqsGet reqs socket = some out.2.2)
    (herase : ∀ q ∈ reqs.eraseP (fun q => q.socket = socket), q ∈ s.currReqs) :
    (Serving.finish site.cap
      { files := Function.update s.files i out.2.1, currReqs := reqs, pools := ps }
      socket out).2.Inv site full A := by
  obtain ⟨ret, f, r⟩ := out
  have hfile : r.file = i := hout.file_eq
  unfold Serving.finish
  dsimp only
  split
  · unfold Serving.currReqsDel
    dsimp only at hget ⊢
    simp only [hget, hfile, Function.update_self, Function.update_idem]
    exact hs.served (hout.setPending _) (cacheReqRelease_ok hps hout.reqOk.buf)
      (fun q hq => .inl (herase q hq))
  · rename_i hpos
    refine hs.served hout hps ?_
    intro q hq
    rcases hreqs q hq with rfl | hold
    · refine .inr ⟨rfl, ?_⟩
      have hret := hout.returned
      unfold Returned at hret
      dsimp only at hret ⊢
      omega
    · exact .inl hold

/-- **Step lemma.**  An event keeps the invariant and reports a call truly; only
the checks before the serving loop can fire. -/
theorem Serving.step_keeps (hsite : full → ∀ i, (site.header i).length < site.cap)
    (hs : s.Inv site full A) {e : ServingEvent ι} (hk : site.Kernel full A s e) :
    Ensures (s.step site.cap e)
      (fun out => out.2.Inv site full A ∧ ∀ call, out.1 = some call → site.Reported full call)
      Fault.Setup := by
  cases e with
  | stage30 file socket pipe e =>
      obtain ⟨hstart, hheader⟩ := hk
      unfold Serving.step
      dsimp only
      cases hget : currReqsGet s.currReqs socket with
      | some r => exact ⟨hs, fun call hcall => by cases hcall⟩
      | none =>
          apply (cacheReqNew_keeps hs.pools pipe).bind
          intro new hnew
          obtain ⟨hbuf, hempty, hps⟩ := hnew
          have hcall := startReq_keeps site.cap_pos hstart (hs.files file)
            (fun hfull => hs.exactFiles hfull file)
            (fun hfull => ⟨(hheader hfull).1, hsite hfull file⟩)
            (fun hfull => (hheader hfull).2) hbuf hempty file socket
          apply hcall.bind
          intro out hout
          have hsocket := hout.socket_eq
          obtain ⟨hfound, herase⟩ := currReqs_append (r := out.2.2) (hsocket ▸ hget)
          rw [hsocket] at hfound herase
          refine ⟨hs.finish hout hps ?_ hfound ?_, ?_⟩
          · intro q hq
            rcases List.mem_append.1 hq with hq | hq
            · exact .inr hq
            · exact .inl (List.mem_singleton.1 hq)
          · intro q hq
            rw [herase] at hq
            exact hq
          · intro call hreport
            cases hreport
            exact hout.reported hs
  | eventWrite socket o =>
      unfold Serving.step
      dsimp only
      cases hget : currReqsGet s.currReqs socket with
      | none => exact ⟨hs, fun call hcall => by cases hcall⟩
      | some r =>
          obtain ⟨hmem, rfl⟩ := currReqsGet_mem hget
          obtain ⟨hok, hpos⟩ := hs.reqs r hmem
          dsimp only
          rw [if_neg (by omega)]
          have hcall := serve_keeps site.cap_pos hk (hs.files r.file) hok
            (fun hfull => ⟨hs.exactFiles hfull r.file, hs.exactReqs hfull r hmem⟩)
          apply hcall.total.bind
          intro out hout
          have hsocket := hout.socket_eq
          obtain ⟨hfound, herase⟩ := currReqs_set (r := out.2.2) (hsocket ▸ hget)
          rw [hsocket] at hfound herase
          refine ⟨hs.finish hout hs.pools ?_ hfound ?_, ?_⟩
          · intro q hq
            exact mem_currReqsSet hq
          · intro q hq
            rw [herase] at hq
            exact List.mem_of_mem_eraseP hq
          · intro call hreport
            cases hreport
            exact hout.reported hs
  | eventError socket => exact ⟨hs.currReqsDel socket, fun call hcall => by cases hcall⟩
  | eventTimeout socket => exact ⟨hs.currReqsDel socket, fun call hcall => by cases hcall⟩

/-! ## Runs -/

/-- A file as a constructor built it. -/
theorem Built.ok {F H : List Byte} {A : Nat → Prop} (hc : 0 < c) (hpos : 0 < F.length)
    (hb : Built c F f) : FileOk c f ∧ FileExact c F H A f := by
  obtain ⟨hp, hp', o, hpp, hnew⟩ := hb.headers
  obtain ⟨cp, cp', co, hcp, hchain⟩ := hb.cache
  obtain ⟨hheaders, hempty, _⟩ := (pipeBufNew_ensures hpp o).of_ok hnew
  obtain ⟨hcount, hpipes, _⟩ := newChain_ok hc hcp hchain
  have hsize := hb.size_eq
  have hzero : f.cacheHeaders.filled = 0 := by
    rw [hheaders.filled_eq, hempty]
    rfl
  have hfilled : ∀ (i : Nat) (p : PipeBuf), f.cache[i]? = some p →
      p.filled = 0 ∧ p.data = [] := by
    intro i p hp
    obtain ⟨hok, hdata⟩ := hpipes p (List.mem_of_getElem? hp)
    refine ⟨?_, hdata⟩
    rw [hok.filled_eq, hdata]
    rfl
  refine ⟨⟨by omega, by rw [hb.buf_eq, hsize], by rw [hcount, hsize],
      fun p hp => (hpipes p hp).1, fun p hp => .inl (hfilled 0 p hp).1, hheaders, ?_, ?_⟩,
    ⟨hb.buf_eq, ?_, ?_⟩⟩
  · rw [hb.headerLen_eq]
    exact Nat.zero_le _
  · intro hlt
    omega
  · intro i p hp
    obtain ⟨hnone, hdata⟩ := hfilled i p hp
    refine ⟨.inl hnone, ?_⟩
    rw [hdata, hnone, slice_zero]
  · intro hne
    exact absurd hzero hne

omit [DecidableEq ι] in
theorem Site.Start.inv (h : site.Start s) : s.Inv site full A where
  files i := (Built.ok (H := site.header i) (A := A i) site.cap_pos (site.content_pos i)
    (h.files i)).1
  size_eq i := (h.files i).size_eq
  exactFiles _ i := (Built.ok site.cap_pos (site.content_pos i) (h.files i)).2
  reqs r hr := by
    rw [h.idle] at hr
    cases hr
  exactReqs _ r hr := by
    rw [h.idle] at hr
    cases hr
  pools := h.pools

/-- The runs of a worker whose kernel obeys the guard. -/
def Site.Runs (site : Site ι) (full : Prop) (A : ι → Nat → Prop) (s₀ s : Serving ι) : Prop :=
  Reachable (guarded (site.Kernel full A) (stepRel (Serving.step site.cap))) s₀ s

/-- **Run lemma.** -/
theorem Serving.inv_of_reachable (hsite : full → ∀ i, (site.header i).length < site.cap)
    {s₀ : Serving ι} (hstart : site.Start s₀) (h : site.Runs full A s₀ s) :
    s.Inv site full A := by
  refine Reachable.invariant (fun s => s.Inv site full A) hstart.inv ?_ h
  intro s e s' _ hs hstep
  obtain ⟨hk, o, ho⟩ := hstep
  exact ((Serving.step_keeps hsite hs hk).of_ok ho).1

end MonkeyCache
