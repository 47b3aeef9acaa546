import MonkeyCache.TableRuns
import MonkeyCache.Worker

/-!
# The events of a worker keep the books

`Worker.step_keeps` carries `Books.Inv` through an event the regime allows, and
`Worker.inv_of_reachable` through a run: no event uses a freed object, whatever
the kernel, the allocator, the disk and the clock answer.
-/

namespace MonkeyCache

open Fallible Transition

variable {ι : Type} {R : Regime} {cfg : Config} {s : Worker} {a : Addr} {o : Object}

/-! ## Counting the requests of a file -/

/-- The deleted request is counted once. -/
theorem countP_delete {reqs : List (CacheReq ι)} {socket : Int} {r : CacheReq ι}
    (h : currReqsGet reqs socket = some r) (p : CacheReq ι → Bool) :
    reqs.countP p = (reqs.eraseP (fun q => q.socket = socket)).countP p +
      (if p r then 1 else 0) := by
  induction reqs with
  | nil => simp [currReqsGet] at h
  | cons q qs ih =>
      by_cases hq : q.socket = socket
      · have hr : q = r := by simpa [currReqsGet, hq] using h
        rw [List.eraseP_cons_of_pos (by simp [hq]), List.countP_cons, hr]
      · have htail : currReqsGet qs socket = some r := by simpa [currReqsGet, hq] using h
        have hrest := ih htail
        simp only [List.countP_cons, hq, decide_false, Bool.false_eq_true, not_false_eq_true,
          List.eraseP_cons_of_neg]
        omega

/-- A request that is changed in place still counts for its file. -/
theorem countP_set {reqs : List (CacheReq ι)} {r q : CacheReq ι}
    (h : currReqsGet reqs r.socket = some q) (hfile : r.file = q.file) {p : CacheReq ι → Bool}
    (hp : ∀ x y : CacheReq ι, x.file = y.file → p x = p y) :
    (currReqsSet r reqs).countP p = reqs.countP p := by
  induction reqs with
  | nil => rfl
  | cons x xs ih =>
      by_cases hx : x.socket = r.socket
      · have hq : x = q := by simpa [currReqsGet, hx] using h
        simp only [currReqsSet, hx, if_true, List.countP_cons]
        rw [hp r x (hfile.trans (congrArg CacheReq.file hq.symm))]
      · have htail : currReqsGet xs r.socket = some q := by simpa [currReqsGet, hx] using h
        simp only [currReqsSet, hx, if_false, List.countP_cons, ih htail]

/-- Storing a request again leaves the sockets as they are. -/
theorem map_socket_set (r : CacheReq ι) (reqs : List (CacheReq ι)) :
    (currReqsSet r reqs).map (fun q => q.socket) = reqs.map (fun q => q.socket) := by
  induction reqs with
  | nil => rfl
  | cons x xs ih =>
      by_cases hx : x.socket = r.socket
      · simp [currReqsSet, hx]
      · simp [currReqsSet, hx, ih]

/-- A socket without a request is not among the sockets. -/
theorem socket_notMem {reqs : List (CacheReq ι)} {socket : Int}
    (h : currReqsGet reqs socket = none) : socket ∉ reqs.map (fun q => q.socket) := by
  intro hmem
  obtain ⟨r, hr, hsocket⟩ := List.mem_map.1 hmem
  have hnone := List.find?_eq_none.1 h r hr
  simp [hsocket] at hnone

/-! ## A request ends -/

/-- The object after one of its requests was deleted. -/
def Object.released (o : Object) : Object :=
  { o with file := { o.file with pendingReqs := o.file.pendingReqs - 1 } }

/-- The books after the request `r` of the object `o` was deleted. -/
def Books.release (s : Books) (r : CacheReq Addr) (o : Object) : Books :=
  s.change r.file o.released (s.currReqs.eraseP (fun q => q.socket = r.socket))

variable {b : Books} {r : CacheReq Addr}

/-- Ending a request takes one reference from its file. -/
theorem Books.release_refs (hget : currReqsGet b.currReqs r.socket = some r) (o : Object) :
    b.refs r.file = (b.release r o).refs r.file + 1 := by
  have hcount := countP_delete hget (fun q => q.file = r.file)
  simpa [Books.refs, Books.release, Books.change] using hcount

/-- Ending a request takes no reference from any other file. -/
theorem Books.release_other (hget : currReqsGet b.currReqs r.socket = some r) (o : Object)
    {a : Addr} (ha : a ≠ r.file) : (b.release r o).refs a = b.refs a := by
  have hcount := countP_delete hget (fun q => q.file = a)
  simpa [Books.refs, Books.release, Books.change, ha.symm] using hcount.symm

/-- Ending a request writes the released object back. -/
theorem Books.release_heap (b : Books) (r : CacheReq Addr) (o : Object) :
    (b.release r o).heap r.file = some o.released :=
  Function.update_self r.file _ b.heap

/-- A released object is the same object. -/
theorem Object.Same.released (o : Object) : o.Same o.released :=
  ⟨rfl, rfl, rfl, rfl, rfl, rfl, rfl⟩

/-- The counter of the object follows its requests. -/
theorem Books.Core.release (h : b.Core R) (hget : currReqsGet b.currReqs r.socket = some r)
    (ha : b.heap r.file = some o) : (b.release r o).Core R := by
  apply h.change ha (.released o) (.inl rfl)
  · have hcounted := (h.sound _ o ha).counted
    have hrefs := b.release_refs hget o
    unfold Books.release at hrefs
    show o.file.pendingReqs - 1 = _
    omega
  · intro a ha
    exact Books.release_other hget o ha
  · intro q hq
    exact .inr (List.mem_of_mem_eraseP hq)
  · exact h.sockets.sublist (List.eraseP_sublist.map _)

/-- A zombie whose counter is at 0 has no request left and is out of the table. -/
theorem Books.Core.last (h : b.Core R) {a : Addr} (ha : b.heap a = some o)
    (hlast : o.file.zombie = true ∧ o.file.pendingReqs = 0) :
    b.refs a = 0 ∧ b.tableGet o.file.uri ≠ some a := by
  have hs := h.sound a o ha
  have hcounted := hs.counted
  have hbase : 0 ≤ o.base := by
    rcases hs.base_nonneg with hbase | ⟨hz, _⟩
    · exact hbase
    · exact absurd (hz.symm.trans hlast.1) Bool.false_ne_true
  refine ⟨by omega, ?_⟩
  rcases hs.out hlast.1 with hpos | hout
  · omega
  · exact hout

/-- **Release.**  The last request of a zombie frees it. -/
theorem currReqsDel_keeps (h : s.Inv R) (socket : Int) :
    Ensures (currReqsDel cfg s socket) (fun s' => s'.Inv R) (fun _ => False) := by
  unfold currReqsDel
  cases hget : currReqsGet s.currReqs socket with
  | none => exact h
  | some r =>
      obtain ⟨hmem, rfl⟩ := currReqsGet_mem hget
      obtain ⟨o, ha⟩ := h.core.reqs r hmem
      have hcore := h.core.release hget ha
      have hself := s.toBooks.release_heap r o
      dsimp only
      rw [Books.deref_ok ha]
      refine Ensures.bind (Q := fun s' : Worker => s'.Inv R) ?_ (fun _ hs' => hs')
      refine Ensures.ite ?_ ?_
      · intro hlast
        obtain ⟨hrefs, hout⟩ := hcore.last hself hlast
        have hleak : (s.toBooks.release r o).NoLeak (fun b => b = r.file) :=
          h.noLeak.change ha (.released o) rfl (fun _ _ => .inr rfl)
            (fun _ hb => Books.release_other hget o hb)
        exact (cacheFileFree_keeps (s := { s.put r.file o.released with
            currReqs := s.currReqs.eraseP (fun q => q.socket = r.socket) })
          hcore hleak hself hout hrefs).imp_ok (fun _ hs' => hs'.1.inv)
      · intro hmore
        have hskip : (s.toBooks.release r o).NoLeak (fun b => b = r.file ∧ o.base ≠ 0) := by
          refine h.noLeak.change ha (.released o) rfl ?_
            (fun _ hb => Books.release_other hget o hb)
          intro hz _
          by_cases hbase : o.base = 0
          · -- the counter is not at 0, so there is another request
            left
            have hcounted := (hcore.sound _ _ hself).counted
            have hne : o.released.file.pendingReqs ≠ 0 := fun hzero => hmore ⟨hz, hzero⟩
            have hsame : o.released.base = o.base := rfl
            unfold Books.release at hcounted
            omega
          · exact .inr ⟨rfl, hbase⟩
        refine ⟨hcore, ?_⟩
        intro b p hb hbase hshort
        rcases hskip b p hb hbase hshort with hin | hz | ⟨rfl, hne⟩
        · exact .inl hin
        · exact .inr (.inl hz)
        · cases hself.symm.trans hb
          exact absurd hbase hne

/-- The end of a call keeps the invariant and faults nowhere. -/
theorem endCall_keeps (h : s.Inv R) (socket ret : Int) :
    Ensures (endCall cfg s socket ret) (fun s' => s'.Inv R) (fun _ => False) :=
  Ensures.ite (fun _ => currReqsDel_keeps h socket) (fun _ => h)

/-! ## A request is served -/

/-- What a call that serves a request does to the object. -/
theorem Object.Same.of_core {f : CacheFile} {n : Int}
    (h : f.core = ({ o.file with pendingReqs := n } : CacheFile).core) :
    o.Same { o with file := f } ∧ f.zombie = o.file.zombie ∧ f.pendingReqs = n := by
  simp only [CacheFile.core, CacheFile.mk.injEq] at h
  obtain ⟨_, hbuf, hsize, huri, _, _, hevictable, _, _, hzombie, hpending⟩ := h
  exact ⟨⟨rfl, rfl, rfl, huri, hbuf, hsize, hevictable⟩, hzombie, hpending⟩

/-- **Acquire.**  The new request is counted and refers to a live object. -/
theorem serveFile_keeps (h : s.Inv R) (ha : s.heap a = some o) {socket : Int}
    (hfresh : currReqsGet s.currReqs socket = none) (out : RequestOut) :
    Ensures (serveFile cfg s a socket out) (fun s' => s'.Inv R) Fault.Live := by
  unfold serveFile
  apply (cacheReqNew_live _ _ _).bind
  intro new _
  rw [Books.deref_ok ha]
  apply (startReq_kept _ _ _ _ _).bind
  intro call hcall
  obtain ⟨hcore, hsocket, hfile⟩ := hcall
  obtain ⟨hsame, hzombie, hpending⟩ := Object.Same.of_core hcore
  refine (endCall_keeps ?_ socket call.1).total
  show ((s.toBooks.change a _ (s.currReqs ++ [call.2.2])).Inv R)
  have hself : (s.toBooks.change a { o with file := call.2.1 }
      (s.currReqs ++ [call.2.2])).refs a = s.refs a + 1 := by
    simp [Books.refs, Books.change, hfile]
  have hother : ∀ b, b ≠ a → (s.toBooks.change a { o with file := call.2.1 }
      (s.currReqs ++ [call.2.2])).refs b = s.refs b := by
    intro b hb
    simp [Books.refs, Books.change, hfile, hb.symm]
  refine ⟨h.core.change ha hsame (.inl hzombie) ?_ hother ?_ ?_,
    h.noLeak.change ha hsame hzombie ?_ hother⟩
  · rw [hself]
    show call.2.1.pendingReqs = _
    rw [hpending, (h.core.sound a o ha).counted]
    push_cast
    omega
  · intro r hr
    rcases List.mem_append.1 hr with hr | hr
    · exact .inr hr
    · rw [List.mem_singleton.1 hr]
      exact .inl hfile
  · rw [List.map_append, List.nodup_append]
    refine ⟨h.core.sockets, by simp, ?_⟩
    intro x hx y hy
    simp only [List.map_cons, List.map_nil, List.mem_singleton] at hy
    intro heq
    rw [heq, hy, hsocket] at hx
    exact socket_notMem hfresh hx
  · intro _ _
    left
    omega

/-- A call for a request that has been started. -/
theorem eventWrite_keeps (h : s.Inv R) (socket : Int) (out : Nat → RoundOut) :
    Ensures (eventWrite cfg s socket out) (fun s' => s'.Inv R) Fault.Live := by
  unfold eventWrite
  cases hget : currReqsGet s.currReqs socket with
  | none => exact h
  | some r =>
      obtain ⟨hmem, hrsocket⟩ := currReqsGet_mem hget
      obtain ⟨o, ha⟩ := h.core.reqs r hmem
      dsimp only
      refine Ensures.ite (fun _ => h) fun _ => ?_
      rw [Books.deref_ok ha]
      apply (socketServeReqSplice_kept o.file r out).bind
      intro call hcall
      obtain ⟨hcore, hsocket, hfile⟩ := hcall
      obtain ⟨hsame, hzombie, hpending⟩ := Object.Same.of_core (n := o.file.pendingReqs) hcore
      refine (endCall_keeps ?_ socket call.1).total
      show ((s.toBooks.change r.file _ (currReqsSet call.2.2 s.currReqs)).Inv R)
      have hfound : currReqsGet s.currReqs call.2.2.socket = some r := by
        rw [hsocket, hrsocket, hget]
      have hrefs : ∀ b, (s.toBooks.change r.file { o with file := call.2.1 }
          (currReqsSet call.2.2 s.currReqs)).refs b = s.refs b := by
        intro b
        refine countP_set hfound hfile ?_
        intro x y hxy
        simp [hxy]
      refine ⟨h.core.change ha hsame (.inl hzombie) ?_ (fun b _ => hrefs b) ?_ ?_,
        h.noLeak.change ha hsame hzombie ?_ (fun b _ => hrefs b)⟩
      · rw [hrefs]
        exact hpending.trans (h.core.sound _ o ha).counted
      · intro q hq
        rcases mem_currReqsSet hq with rfl | hq
        · exact .inl hfile
        · exact .inr hq
      · rw [map_socket_set]
        exact h.core.sockets
      · intro _ hpos
        left
        rw [hrefs]
        exact hpos

/-! ## `_mkp_stage_30` -/

/-- A request is an add only for its own URI and with a body. -/
theorem apiOf_add {uri key : Key} {body : List Byte} (h : apiOf uri body = .add key) :
    uri = apiPrefix ++ ['/', 'a', 'd', 'd'] ++ key ∧ body ≠ [] := by
  unfold apiOf at h
  split at h
  · rename_i happ
    obtain ⟨ptr, rfl⟩ := happ
    rw [List.drop_left] at h
    dsimp only at h
    split at h
    · rename_i hadd
      obtain ⟨⟨rest, rfl⟩, hbody⟩ := hadd
      cases h
      exact ⟨by simp [addPrefix], hbody⟩
    · split at h
      · cases h
      · split at h
        · cases h
        · split at h <;> cases h
  · cases h

/-- A request is for the web UI only under its prefix. -/
theorem apiOf_webui {uri ptr : Key} {body : List Byte} (h : apiOf uri body = .webui ptr) :
    uri = apiPrefix ++ ptr ∧ webuiPrefix <+: ptr := by
  unfold apiOf at h
  split at h
  · rename_i happ
    obtain ⟨rest, rfl⟩ := happ
    rw [List.drop_left] at h
    dsimp only at h
    split at h
    · cases h
    · split at h
      · cases h
      · split at h
        · cases h
        · split at h
          · cases h
            exact ⟨rfl, ‹_›⟩
          · cases h
  · cases h

/-- The URI of a request has at most MAX_URI_LEN characters. -/
theorem Request.uri_length (q : Request) : q.uri.length ≤ maxUriLen := by
  unfold Request.uri cString
  exact (List.takeWhile_prefix _).length_le.trans (List.length_take_le _ _)

/-- What a regime asks of an event: short URIs; and an added resource gets a
block it allows and, like a reset, names no pinned key. -/
def Regime.Allows (R : Regime) : WorkerEvent → Prop
  | .stage30 q out => q.uri.length ≤ R.uriMax ∧
      (∀ key, apiOf q.uri q.body = .add key → R.pin key = none ∧ R.junk out.create.junk) ∧
      ∀ key, apiOf q.uri q.body = .reset key → R.pin key = none
  | _ => True

/-- What an event stores is what the regime lets its key stand for. -/
def Regime.Reads (R : Regime) (cfg : Config) : WorkerEvent → Prop
  | .stage30 q out =>
    match apiOf q.uri q.body with
    | .add key => R.content key q.body
    | .webui ptr => ∀ content, onDisk out.disk (cfg.confDir ++ ptr.drop 1) = some content →
        R.content (ptr.take (maxUriLen - 1)) content ∧
          R.content (q.uri.take (maxUriLen - 1)) content
    | .file => ∀ content, onDisk out.disk q.path = some content →
        R.content (q.uri.take (maxUriLen - 1)) content
    | _ => True
  | _ => True

/-- Where keys may stand for anything. -/
theorem Regime.Reads.of_any (h : ∀ k content, R.content k content) (e : WorkerEvent) :
    R.Reads cfg e := by
  cases e with
  | stage30 q out =>
      unfold Regime.Reads
      dsimp only
      split
      · exact h _ _
      · exact fun content _ => ⟨h _ content, h _ content⟩
      · exact fun content _ => h _ content
      · trivial
  | _ => trivial

/-- What a request is served from: a live object that was stored for its URI or,
by the web UI, for the rest of it, where there is such a file. -/
def Reply.Served (cfg : Config) (q : Request) (disk : Key → Option (List Byte)) (s : Worker) :
    Reply → Prop
  | .file a => Settled.StoredFor s q.uri a ∨
      ∃ ptr, apiOf q.uri q.body = .webui ptr ∧ Settled.StoredFor s ptr a ∧
        (onDisk disk (cfg.confDir ++ ptr.drop 1)).isSome
  | _ => True

/-- Opening a file for a request keeps the invariant. -/
theorem openFile_keeps (h : s.Inv R) {q : Request} {path : Key} (huri : q.uri.length ≤ R.uriMax)
    {disk : Key → Option (List Byte)} (out : CreateOut)
    (hreads : ∀ content, onDisk disk path = some content →
      R.content (q.uri.take (maxUriLen - 1)) content) :
    Ensures (openFile cfg s path q.uri disk out)
      (fun found => Settled R s found.2 ∧ found.1.Served cfg q disk found.2) Fault.Live := by
  unfold openFile
  apply (cacheFileNew_keeps h huri out hreads).bind
  intro made hmade
  obtain ⟨hs, hfound⟩ := hmade
  split
  · exact ⟨hs, trivial⟩
  · rename_i a ha
    exact ⟨hs, .inl (hfound a ha).1⟩

/-- The walk of the statistics meets live objects only. -/
theorem statsEach_keeps (h : s.Inv R) :
    ∀ es, (∀ e ∈ es, e ∈ s.fileTable.entries) →
      Ensures (statsEach s es) (fun _ => True) (fun _ => False) := by
  intro es
  induction es with
  | nil =>
      intro _
      trivial
  | cons e es ih =>
      intro hes
      have hget : s.tableGet e.1 = some e.2 := AList.mem_lookup_iff.2 (hes e (by simp))
      obtain ⟨o, ha, _⟩ := h.core.table _ _ hget
      unfold statsEach
      rw [Books.deref_ok ha]
      exact ih fun e' he' => hes e' (by simp [he'])

/-- Opening a file of the web UI keeps the invariant. -/
theorem openWebui_keeps (h : s.Inv R) {q : Request} {ptr : Key} {out : RequestOut}
    (hapi : apiOf q.uri q.body = .webui ptr) (huri : q.uri.length ≤ R.uriMax)
    (hreads : ∀ content, onDisk out.disk (cfg.confDir ++ ptr.drop 1) = some content →
      R.content (ptr.take (maxUriLen - 1)) content ∧
        R.content (q.uri.take (maxUriLen - 1)) content) :
    Ensures (openWebui cfg s q ptr out)
      (fun found => Settled R s found.2 ∧ found.1.Served cfg q out.disk found.2) Fault.Live := by
  have hptr : ptr.length ≤ R.uriMax := by
    have hlen := congrArg List.length (apiOf_webui hapi).1
    simp only [List.length_append] at hlen
    omega
  unfold openWebui
  refine Ensures.guard (fun _ => nofun) fun _ => ?_
  apply (cacheFileNew_keeps h hptr out.create fun content hc => (hreads content hc).1).bind
  intro made hmade
  obtain ⟨hs, hfound⟩ := hmade
  split
  · rename_i a ha
    exact ⟨hs, .inr ⟨ptr, hapi, hfound a ha⟩⟩
  · apply (openFile_keeps hs.inv huri out.retry fun content hc => (hreads content hc).2).imp_ok
    intro found hfound
    exact ⟨⟨hfound.1.inv, hfound.1.reqs.trans hs.reqs⟩, hfound.2⟩

/-- The calls of the API. -/
theorem callApi_keeps (h : s.Inv R) {q : Request} {out : RequestOut}
    (hallow : R.Allows (.stage30 q out)) (hreads : R.Reads cfg (.stage30 q out)) :
    Ensures (callApi cfg s q out)
      (fun found => Settled R s found.2 ∧ found.1.Served cfg q out.disk found.2)
      Fault.Live := by
  obtain ⟨huri, hadd, hreset⟩ := hallow
  unfold callApi
  cases hapi : apiOf q.uri q.body with
  | add key =>
      simp only [Regime.Reads, hapi] at hreads
      obtain ⟨hpin, hjunk⟩ := hadd key hapi
      have hlen := congrArg List.length (apiOf_add hapi).1
      have hmax := q.uri_length
      simp only [apiPrefix, List.length_append, List.length_cons, List.length_nil] at hlen
      have hkey : key.length < maxUriLen - 1 := by
        unfold maxUriLen at hmax ⊢
        omega
      refine (cacheFileTmp_keeps h hkey (.refl hpin)
        (Object.Fresh.of_junk hkey (by omega) hpin hjunk hreads)).bind ?_
      intro made hmade
      rcases hmade with ⟨_, hs⟩ | ⟨_, hs, _⟩
      · exact ⟨hs, trivial⟩
      · exact ⟨hs, trivial⟩
  | stats =>
      exact (statsEach_keeps h _ fun _ he => he).total.bind fun _ _ => ⟨.refl h, trivial⟩
  | reset key =>
      exact (fileTableReset_keeps h (hreset key hapi)).total.bind fun _ hs => ⟨hs.1, trivial⟩
  | webui ptr =>
      simp only [Regime.Reads, hapi] at hreads
      exact openWebui_keeps h hapi huri hreads
  | file =>
      simp only [Regime.Reads, hapi] at hreads
      exact openFile_keeps h huri out.retry hreads

/-- **Finding the file.** -/
theorem findFile_keeps (h : s.Inv R) {q : Request} {out : RequestOut}
    (hallow : R.Allows (.stage30 q out)) (hreads : R.Reads cfg (.stage30 q out)) :
    Ensures (findFile cfg s q out)
      (fun found => Settled R s found.2 ∧ found.1.Served cfg q out.disk found.2)
      Fault.Live := by
  unfold findFile
  have hhit : Ensures (if q.get then cacheFileGet s q.uri out.now else .ok (none, s))
      (fun hit => Settled R s hit.2 ∧
        ∀ a, hit.1 = some a → Settled.StoredFor hit.2 q.uri a) Fault.Live :=
    Ensures.ite
      (fun _ => (cacheFileGet_keeps h q.uri out.now).total)
      (fun _ => ⟨.refl h, nofun⟩)
  apply hhit.bind
  intro hit hs
  obtain ⟨hs, hfound⟩ := hs
  split
  · rename_i a ha
    exact ⟨hs, .inl (hfound a ha)⟩
  · apply (callApi_keeps hs.inv hallow hreads).imp_ok
    intro found hfound
    exact ⟨⟨hfound.1.inv, hfound.1.reqs.trans hs.reqs⟩, hfound.2⟩

/-- A request is served from a live object. -/
theorem Reply.Served.live {q : Request} {disk : Key → Option (List Byte)}
    (h : (Reply.file a).Served cfg q disk s) : ∃ o, s.heap a = some o := by
  rcases h with ⟨o, ho, _⟩ | ⟨_, _, ⟨o, ho, _⟩, _⟩
  · exact ⟨o, ho⟩
  · exact ⟨o, ho⟩

/-- Stage 30 keeps the invariant and touches no freed object. -/
theorem stage30_keeps (h : s.Inv R) {q : Request} {out : RequestOut}
    (hallow : R.Allows (.stage30 q out)) (hreads : R.Reads cfg (.stage30 q out)) :
    Ensures (stage30 cfg s q out) (fun reply => reply.2.Inv R) Fault.Live := by
  unfold stage30
  cases hget : currReqsGet s.currReqs q.socket with
  | some r => exact h
  | none =>
      apply (findFile_keeps h hallow hreads).bind
      intro found hfound
      obtain ⟨hs, hserved⟩ := hfound
      split
      · rename_i a ha
        rw [ha] at hserved
        obtain ⟨o, ho⟩ := hserved.live
        have hfresh : currReqsGet found.2.currReqs q.socket = none := by
          rw [hs.reqs]
          exact hget
        exact (serveFile_keeps hs.inv ho hfresh out).bind fun _ hs' => hs'
      · exact hs.inv

/-! ## Runs -/

/-- **Step lemma.** -/
theorem Worker.step_keeps (h : s.Inv R) {e : WorkerEvent} (hallow : R.Allows e)
    (hreads : R.Reads cfg e) :
    Ensures (s.step cfg e) (fun out => out.2.Inv R) Fault.Live := by
  unfold Worker.step
  cases e with
  | stage30 q out => exact (stage30_keeps h hallow hreads).bind fun _ hs => hs
  | eventWrite socket out => exact (eventWrite_keeps h socket out).bind fun _ hs => hs
  | eventError socket =>
      exact (currReqsDel_keeps h socket).total.bind fun _ hs => hs
  | eventTimeout socket =>
      exact (currReqsDel_keeps h socket).total.bind fun _ hs => hs
  | tick now =>
      exact ((cacheFileTick_keeps h now).mono (fun _ h => h.inv)
        (fun _ => False.elim)).bind fun _ hs => hs

/-- The invariant holds before the first event, if nothing is pinned. -/
theorem Worker.init_inv (hpin : ∀ k, R.pin k = none) : Worker.init.Inv R where
  core :=
    { sound := fun a o h => by simp [Worker.init] at h
      table := fun k a h => by simp [Worker.init, Books.tableGet] at h
      reqs := fun r h => by simp [Worker.init] at h
      sockets := List.nodup_nil
      serials := fun a b o o' h => by simp [Worker.init] at h
      once := List.nodup_nil
      clean := fun x h => by simp [Worker.init] at h
      pinned := fun k p hp => by
        rw [hpin k] at hp
        cases hp }
  noLeak := fun a o h => by simp [Worker.init] at h

/-- The runs of a worker whose events all satisfy `P`. -/
def Worker.Runs (cfg : Config) (P : WorkerEvent → Prop) (s₀ s : Worker) : Prop :=
  Reachable (guarded (fun _ e => P e) (stepRel (Worker.step cfg))) s₀ s

/-- **Run lemma.** -/
theorem Worker.inv_of_runs {s₀ : Worker} {P : WorkerEvent → Prop} (h : s₀.Inv R)
    (hP : ∀ e, P e → R.Allows e ∧ R.Reads cfg e) (hrun : Worker.Runs cfg P s₀ s) :
    s.Inv R := by
  refine hrun.invariant (fun s => s.Inv R) h ?_
  intro s e s' _ hs hstep
  obtain ⟨hallow, reply, hstep⟩ := hstep
  exact (Worker.step_keeps hs (hP e hallow).1 (hP e hallow).2).of_ok hstep

end MonkeyCache
