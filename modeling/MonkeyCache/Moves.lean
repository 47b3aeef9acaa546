import MonkeyCache.Refilling
import MonkeyCache.WorkerRuns

/-!
# The moves of a worker

Between two lines of the plugin a pipe may be in no list: it was taken from a
pool, a file or a request, and will be put into another.  A `Desk` is a worker
with these pipes, and with those that `closepipe` has closed so far.  `Move` has
one constructor for every kind of line that touches a pipe, a descriptor or a
file object, so an invariant of a run is checked once for each of them
(`Desk.Reaches.invariant`).  `Worker.step_leads` shows that every event of a
worker consists of such moves.
-/

namespace MonkeyCache

open Fallible Transition

/-- A worker in the middle of a call. -/
structure Desk where
  worker : Worker
  /-- the pipes that are in no list -/
  hand : List PipeBuf
  /-- the pipes that were closed, by their descriptors -/
  closed : List Nat

/-- What `pipe_buf_free` closes. -/
def pipeBufFreeClosed (pp : PipePool) (buf : PipeBuf) : List Nat :=
  if pp.pool.length < pipeBufPoolMax then [] else [buf.pipe]

/-- The worker after `pipes` became its pool of pipes. -/
def Worker.withPipes (s : Worker) (pipes : PipePool) : Worker :=
  { s with pools := { s.pools with pipes := pipes } }

/-- The worker after `close` and `mem_free` of the object `o` at `a`. -/
def Worker.drop (s : Worker) (a : Addr) (o : Object) : Worker :=
  { s with
    heap := Function.update s.heap a none
    frees := s.frees ++ [⟨o.maker, o.serial, s.inTable a, s.refs a⟩]
    fds := if o.file.fd ≠ -1 then s.fds ++ [.closed o.file.fd] else s.fds }

/-- The worker after a constructor built `o` at `a` around the descriptor `fd`. -/
def Worker.build (s : Worker) (a : Addr) (o : Object) (fd : Int) : Worker :=
  { s with
    heap := Function.update s.heap a (some o)
    serials := s.serials + 1
    fds := s.fds ++ [.opened fd] }

/-- The pipes of an object. -/
def Object.pipes (o : Object) : List PipeBuf := o.file.cacheHeaders :: o.file.cache

/-- The object `o` that a constructor builds as the `n`-th, with the outcomes `c`. -/
structure Object.BuiltBy (c : CreateOut) (n : Nat) (o : Object) : Prop where
  opened : c.opened = true
  serial : o.serial = n
  fd : o.file.fd = c.junk.fd

/-- One move, where the outcomes of constructors satisfy `Q`. -/
inductive Desk.Move (cfg : Config) (Q : CreateOut → Prop) : Desk → Desk → Prop
  /-- the table changes -/
  | table {s : Worker} {hand : List PipeBuf} {closed : List Nat} (t : AList (fun _ : Key => Addr)) :
      Move cfg Q ⟨s, hand, closed⟩ ⟨{ s with fileTable := t }, hand, closed⟩
  /-- an object changes; its pipes are refilled at most -/
  | mark {s : Worker} {hand : List PipeBuf} {closed : List Nat} {a : Addr} {o : Object}
      {f : CacheFile} (ha : s.heap a = some o) (hf : o.file.Refilled f) :
      Move cfg Q ⟨s, hand, closed⟩ ⟨s.put a { o with file := f }, hand, closed⟩
  /-- a constructor closes the descriptor it opened -/
  | refuse {s : Worker} {hand : List PipeBuf} {closed : List Nat} (fd : Int) :
      Move cfg Q ⟨s, hand, closed⟩ ⟨s.useFd fd false, hand, closed⟩
  /-- `pipe_buf_new` -/
  | newPipe {s : Worker} {hand : List PipeBuf} {closed : List Nat} {x : PipeOut} {buf : PipeBuf}
      {pipes : PipePool} (h : pipeBufNew cfg.cap s.pools.pipes x = .ok (buf, pipes)) :
      Move cfg Q ⟨s, hand, closed⟩ ⟨s.withPipes pipes, hand ++ [buf], closed⟩
  /-- `cache_req_new` with a request from the pool -/
  | newReq {s : Worker} {hand : List PipeBuf} {closed : List Nat} {x : Xfer} {buf first : PipeBuf}
      {rest : List PipeBuf} (hreqs : s.pools.reqs = first :: rest) (h : emptied first x = .ok buf) :
      Move cfg Q ⟨s, hand, closed⟩
        ⟨{ s with pools := { s.pools with reqs := rest } }, hand ++ [buf], closed⟩
  /-- `pipe_buf_free` -/
  | freePipe {s : Worker} {hand : List PipeBuf} {closed : List Nat} {buf : PipeBuf} :
      Move cfg Q ⟨s, buf :: hand, closed⟩
        ⟨s.withPipes (pipeBufFree cfg.cap buf s.pools.pipes), hand,
          closed ++ pipeBufFreeClosed s.pools.pipes buf⟩
  /-- a request goes back to its pool -/
  | freeReq {s : Worker} {hand : List PipeBuf} {closed : List Nat} {buf : PipeBuf}
      (hroom : s.pools.reqs.length < cacheReqPoolMax) :
      Move cfg Q ⟨s, buf :: hand, closed⟩
        ⟨{ s with pools := { s.pools with reqs := s.pools.reqs ++ [buf] } }, hand, closed⟩
  /-- a constructor builds an object out of the pipes in hand -/
  | build {s : Worker} {closed : List Nat} {a : Addr} {o : Object} (c : CreateOut)
      (hfree : s.heap a = none) (hQ : Q c) (hbuilt : o.BuiltBy c s.serials) :
      Move cfg Q ⟨s, o.pipes, closed⟩ ⟨s.build a o c.fd, [], closed⟩
  /-- an object is freed; its pipes are left -/
  | drop {s : Worker} {hand : List PipeBuf} {closed : List Nat} {a : Addr} {o : Object}
      (ha : s.heap a = some o) :
      Move cfg Q ⟨s, hand, closed⟩ ⟨s.drop a o, o.pipes ++ hand, closed⟩
  /-- a request starts with a pipe in hand -/
  | enter {s : Worker} {hand : List PipeBuf} {closed : List Nat} {buf : PipeBuf}
      {r : CacheReq Addr} (hbuf : buf.Refilled r.buf) :
      Move cfg Q ⟨s, buf :: hand, closed⟩ ⟨{ s with currReqs := s.currReqs ++ [r] }, hand, closed⟩
  /-- a request is served -/
  | send {s : Worker} {hand : List PipeBuf} {closed : List Nat} {r r' : CacheReq Addr}
      (hget : currReqsGet s.currReqs r'.socket = some r)
      (hbuf : r.buf.Refilled r'.buf) :
      Move cfg Q ⟨s, hand, closed⟩
        ⟨{ s with currReqs := currReqsSet r' s.currReqs }, hand, closed⟩
  /-- a request ends; its pipe is left -/
  | detach {s : Worker} {hand : List PipeBuf} {closed : List Nat} {socket : Int} {r : CacheReq Addr}
      (hget : currReqsGet s.currReqs socket = some r) :
      Move cfg Q ⟨s, hand, closed⟩
        ⟨{ s with currReqs := s.currReqs.eraseP (fun q => q.socket = socket) }, r.buf :: hand,
          closed⟩

variable {cfg : Config} {Q : CreateOut → Prop} {s s' s'' : Worker}
  {hand hand' hand'' : List PipeBuf} {closed : List Nat} {a : Addr} {o : Object}

/-- Any number of moves. -/
def Desk.Reaches (cfg : Config) (Q : CreateOut → Prop) : Desk → Desk → Prop :=
  Relation.ReflTransGen (Desk.Move cfg Q)

/-- **Invariant rule.**  What every move keeps holds wherever moves lead. -/
theorem Desk.Reaches.invariant {d d' : Desk} (h : Desk.Reaches cfg Q d d') (I : Desk → Prop)
    (hI : I d) (hmove : ∀ d d', I d → Desk.Move cfg Q d d' → I d') : I d' := by
  induction h with
  | refl => exact hI
  | tail _ hstep ih => exact hmove _ _ ih hstep

/-- Moves lead from `s` with the pipes `hand` to `s'` with the pipes `hand'`. -/
def Leads (cfg : Config) (Q : CreateOut → Prop) (s : Worker) (hand : List PipeBuf) (s' : Worker)
    (hand' : List PipeBuf) : Prop :=
  ∀ closed, ∃ closed', Desk.Reaches cfg Q ⟨s, hand, closed⟩ ⟨s', hand', closed'⟩

/-- A worker that stays as it is has made no move. -/
theorem Leads.refl (s : Worker) (hand : List PipeBuf) : Leads cfg Q s hand s hand :=
  fun closed => ⟨closed, .refl⟩

/-- Moves chain, and so does what they leave in hand. -/
theorem Leads.trans (h : Leads cfg Q s hand s' hand') (h' : Leads cfg Q s' hand' s'' hand'') :
    Leads cfg Q s hand s'' hand'' := by
  intro closed
  obtain ⟨closed', h⟩ := h closed
  obtain ⟨closed'', h'⟩ := h' closed'
  exact ⟨closed'', Relation.ReflTransGen.trans h h'⟩

/-- One move leads on. -/
theorem Leads.move
    (h : ∀ closed, ∃ closed', Desk.Move cfg Q ⟨s, hand, closed⟩ ⟨s', hand', closed'⟩) :
    Leads cfg Q s hand s' hand' := by
  intro closed
  obtain ⟨closed', hmove⟩ := h closed
  exact ⟨closed', .single hmove⟩

/-- The outcomes of the constructors an event calls satisfy `Q`. -/
def WorkerEvent.Creates (Q : CreateOut → Prop) : WorkerEvent → Prop
  | .stage30 _ o => Q o.create ∧ Q o.retry
  | _ => True

/-! ## Live objects -/

/-- The objects that were not freed are those at `objs`. -/
structure Books.LiveAt (s : Books) (objs : List Addr) : Prop where
  nodup : objs.Nodup
  mem_iff : ∀ a, a ∈ objs ↔ ∃ o, s.heap a = some o

/-- The items of the object at `a`, if there is one. -/
def itemsAt {β : Type} (items : Object → List β) (heap : Addr → Option Object) (a : Addr) :
    List β :=
  (heap a).elim [] items

/-- What a live object owns is read at its address. -/
theorem itemsAt_some {β : Type} (items : Object → List β) {heap : Addr → Option Object}
    (ha : heap a = some o) : itemsAt items heap a = items o := by
  simp [itemsAt, ha]

/-- Only the object at `a` changes. -/
theorem flatMap_itemsAt_update {β : Type} (items : Object → List β)
    (heap : Addr → Option Object) (x : Option Object) {objs : List Addr} (ha : a ∉ objs) :
    objs.flatMap (itemsAt items (Function.update heap a x)) =
      objs.flatMap (itemsAt items heap) := by
  apply List.flatMap_congr
  intro b hb
  have hba : b ≠ a := by
    intro hba
    exact ha (hba ▸ hb)
  unfold itemsAt
  rw [Function.update_of_ne hba]

variable {objs : List Addr}

/-- A write to a live object leaves the same objects live. -/
theorem Books.LiveAt.update (h : s.toBooks.LiveAt objs) (ha : s.heap a = some o) {t : Books}
    {o' : Object} (ht : t.heap = Function.update s.heap a (some o')) : t.LiveAt objs := by
  refine ⟨h.nodup, ?_⟩
  intro b
  rw [h.mem_iff, ht]
  by_cases hba : b = a
  · rw [hba, Function.update_self, ha]
    simp
  · rw [Function.update_of_ne hba]

/-- A new object at a free address is one more live object. -/
theorem Books.LiveAt.build (h : s.toBooks.LiveAt objs) (ha : s.heap a = none) {t : Books}
    (ht : t.heap = Function.update s.heap a (some o)) : t.LiveAt (a :: objs) := by
  constructor
  · rw [List.nodup_cons, h.mem_iff, ha]
    exact ⟨by simp, h.nodup⟩
  · intro b
    rw [List.mem_cons, h.mem_iff, ht]
    by_cases hba : b = a
    · rw [hba, Function.update_self]
      simp
    · rw [Function.update_of_ne hba]
      simp [hba]

/-- A freed object is one live object less. -/
theorem Books.LiveAt.drop (h : s.toBooks.LiveAt objs) (a : Addr) {t : Books}
    (ht : t.heap = Function.update s.heap a none) : t.LiveAt (objs.erase a) := by
  refine ⟨h.nodup.erase a, ?_⟩
  intro b
  rw [h.nodup.mem_erase_iff, h.mem_iff, ht]
  by_cases hba : b = a
  · rw [hba, Function.update_self]
    simp
  · rw [Function.update_of_ne hba]
    simp [hba]

/-! ## Freeing and resetting -/

/-- The pipes at the front of the hand are freed one after the other. -/
theorem leads_freeAll (bufs : List PipeBuf) (s : Worker) :
    Leads cfg Q s (bufs ++ hand)
      (s.withPipes (bufs.foldl (fun pp buf => pipeBufFree cfg.cap buf pp) s.pools.pipes)) hand := by
  induction bufs generalizing s with
  | nil => exact .refl s hand
  | cons buf bufs ih =>
      have hfirst : Leads cfg Q s (buf :: (bufs ++ hand))
          (s.withPipes (pipeBufFree cfg.cap buf s.pools.pipes)) (bufs ++ hand) :=
        .move fun closed => ⟨_, .freePipe⟩
      exact hfirst.trans (ih _)

/-- cache_file_free is a series of moves that leaves the hand as it was. -/
theorem cacheFileFree_leads (s : Worker) (a : Addr) (hand : List PipeBuf) :
    Ensures (cacheFileFree cfg.cap s a) (fun s' => Leads cfg Q s hand s' hand) (fun _ => True) := by
  unfold cacheFileFree
  apply (s.deref_ensures a).bind
  intro o ha
  have hdrop : Leads cfg Q s hand (s.drop a o) (o.pipes ++ hand) :=
    .move fun closed => ⟨closed, .drop ha⟩
  exact hdrop.trans (leads_freeAll o.pipes (s.drop a o))

/-- A table that changed, and nothing else. -/
theorem leads_table (s : Worker) (t : AList (fun _ : Key => Addr)) (hand : List PipeBuf) :
    Leads cfg Q s hand { s with fileTable := t } hand :=
  .move fun closed => ⟨closed, .table t⟩

/-- An object whose pipes were refilled at most. -/
theorem leads_mark (ha : s.heap a = some o) {f : CacheFile} (hf : o.file.Refilled f)
    (hand : List PipeBuf) : Leads cfg Q s hand (s.put a { o with file := f }) hand :=
  .move fun closed => ⟨closed, .mark ha hf⟩

/-- cache_file_get is a series of moves. -/
theorem cacheFileGet_leads (s : Worker) (uri : Key) (now : Timeval) :
    Ensures (cacheFileGet s uri now) (fun out => Leads cfg Q s [] out.2 []) (fun _ => True) := by
  unfold cacheFileGet
  cases hget : s.tableGet uri with
  | none => exact Leads.refl s []
  | some a =>
      apply (s.deref_ensures a).bind
      intro o ha
      exact leads_mark (f := { o.file with lastAccessed := now }) ha
        ⟨rfl, .refl _, refilled_refl _⟩ []

/-- file_table_reset is a series of moves. -/
theorem fileTableReset_leads (s : Worker) (uri : Key) :
    Ensures (fileTableReset cfg.cap s uri) (fun s' => Leads cfg Q s [] s' []) (fun _ => True) := by
  unfold fileTableReset
  cases hget : s.tableGet uri with
  | none => exact leads_table s _ []
  | some a =>
      have htable : Leads cfg Q s [] (s.tableDel uri) [] := leads_table s _ []
      apply ((s.tableDel uri).deref_ensures a).bind
      intro o ha
      have hmark : Leads cfg Q (s.tableDel uri) []
          ((s.tableDel uri).put a { o with file := { o.file with zombie := true } }) [] :=
        leads_mark (f := { o.file with zombie := true }) ha ⟨rfl, .refl _, refilled_refl _⟩ []
      apply Ensures.ite
      · intro _
        apply (cacheFileFree_leads _ a []).imp_ok
        intro s' hs'
        exact (htable.trans hmark).trans hs'
      · intro _
        exact htable.trans hmark

/-! ## Constructors -/

/-- The pipes of a chain come out of the pool one after the other. -/
theorem newChain_leads (s : Worker) (len : Nat) (o : Nat → PipeOut) (hand : List PipeBuf) :
    Ensures (newChain cfg.cap len o s.pools.pipes)
      (fun out => Leads cfg Q s hand (s.withPipes out.2) (hand ++ out.1)) (fun _ => True) := by
  refine Ensures.iterate_partial
    (fun t : Nat × List PipeBuf × PipePool =>
      Leads cfg Q s hand (s.withPipes t.2.2) (hand ++ t.2.1)) trivial ?_ _ _ _ ?_
  · intro k t ht
    unfold chainRound
    apply Ensures.ite
    · intro _
      cases hnew : pipeBufNew cfg.cap t.2.2 (o k) with
      | error e => trivial
      | ok new =>
          have hmove : Leads cfg Q (s.withPipes t.2.2) (hand ++ t.2.1) (s.withPipes new.2)
              (hand ++ t.2.1 ++ [new.1]) := .move fun closed => ⟨closed, .newPipe hnew⟩
          have hnext := ht.trans hmove
          rw [List.append_assoc] at hnext
          exact hnext
    · intro _
      exact ht
  · rw [List.append_nil]
    exact .refl s hand

/-- **What a constructor does once it has its descriptor.** -/
theorem publish_leads (s : Worker) {c : CreateOut} (hQ : Q c) (hopened : c.opened = true)
    (maker : Maker) (uri : Key) (content : List Byte) (evictable zombie : Bool)
    (pendingReqs : Int) :
    Ensures (publish cfg.cap (s.useFd c.fd true) maker uri content evictable zombie pendingReqs c)
      (fun out => Leads cfg Q s [] out.2 []) (fun _ => True) := by
  unfold publish
  apply Ensures.guard (fun _ => trivial)
  intro hblock
  have hnone : (s.useFd c.fd true).heap c.block = none := by simpa using hblock
  have hfree : s.heap c.block = none := hnone
  cases hheaders : pipeBufNew cfg.cap (s.useFd c.fd true).pools.pipes c.headers with
  | error e => trivial
  | ok headers =>
      have hfirst : Leads cfg Q s [] (s.withPipes headers.2) [headers.1] :=
        .move fun closed => ⟨closed, .newPipe hheaders⟩
      apply (newChain_leads (s.withPipes headers.2) content.length c.pipes [headers.1]).bind
      intro chain hchain
      -- the pipes in hand are those of the object
      obtain ⟨o, ho⟩ : ∃ o : Object, o = ⟨builtFile uri content evictable zombie pendingReqs c
          headers.1 chain.1, maker, s.serials, pendingReqs⟩ := ⟨_, rfl⟩
      have hbuilt : o.BuiltBy c s.serials := by
        rw [ho]
        exact ⟨hopened, rfl, rfl⟩
      have hpipes : [headers.1] ++ chain.1 = o.pipes := by
        rw [ho]
        rfl
      have hbuild : Leads cfg Q (s.withPipes chain.2) o.pipes
          ((s.withPipes chain.2).build c.block o c.fd) [] :=
        .move fun closed => ⟨closed, .build c hfree hQ hbuilt⟩
      have hmade := hfirst.trans (hpipes ▸ hchain : Leads cfg Q _ _ _ o.pipes)
      have hall := hmade.trans hbuild
      rw [ho] at hall
      dsimp only [Worker.tableAdd]
      by_cases hstore : (builtFile uri content evictable zombie pendingReqs c headers.1
          chain.1).uri = [] ∨ c.stored = false
      · rw [if_pos hstore]
        apply (cacheFileFree_leads _ c.block []).bind
        intro s' hs'
        exact hall.trans hs'
      · rw [if_neg hstore]
        exact hall.trans (leads_table _ _ [])

/-- A constructor that fails after it opened its descriptor. -/
theorem leads_refuse (s : Worker) (fd : Int) : Leads cfg Q s [] (s.useFd fd false) [] :=
  .move fun closed => ⟨closed, .refuse fd⟩

/-- cache_file_tmp is a series of moves, given what the constructor met. -/
theorem cacheFileTmp_leads (s : Worker) (uri : Key) (body : List Byte) {c : CreateOut}
    (hQ : Q c) :
    Ensures (cacheFileTmp cfg.cap s uri body c) (fun out => Leads cfg Q s [] out.2 [])
      (fun _ => True) := by
  unfold cacheFileTmp
  apply (fileTableReset_leads s uri).bind
  intro s₁ hs₁
  apply Ensures.guard (fun _ => trivial)
  intro _
  apply Ensures.ite
  · intro _
    exact hs₁
  · intro hopened
    apply Ensures.ite
    · intro _
      exact hs₁.trans (leads_refuse s₁ c.fd)
    · intro _
      apply (publish_leads s₁ hQ (not_not.1 hopened) _ _ _ _ _ _).imp_ok
      intro out hout
      exact hs₁.trans hout

/-- cache_file_new is a series of moves, given what the constructor met. -/
theorem cacheFileNew_leads (s : Worker) (path uri : Key) (disk : Key → Option (List Byte))
    {c : CreateOut} (hQ : Q c) :
    Ensures (cacheFileNew cfg.cap s path uri disk c) (fun out => Leads cfg Q s [] out.2 [])
      (fun _ => True) := by
  unfold cacheFileNew
  cases disk path with
  | none => exact Leads.refl s []
  | some content =>
      apply Ensures.ite
      · intro _
        exact Leads.refl s []
      · intro _
        cases s.tableGet uri with
        | some a => exact Leads.refl s []
        | none =>
            apply Ensures.ite
            · intro _
              exact Leads.refl s []
            · intro hopened
              apply Ensures.ite
              · intro _
                exact leads_refuse s c.fd
              · intro _
                exact publish_leads s hQ (not_not.1 hopened) _ _ _ _ _ _

/-! ## Eviction -/

/-- One call back of the tick is a series of moves. -/
theorem cacheFileTickCb_leads (s : Worker) (a : Addr) (now : Timeval) :
    Ensures (cacheFileTickCb cfg.cap s a now) (fun s' => Leads cfg Q s [] s' [])
      (fun _ => True) := by
  unfold cacheFileTickCb
  apply (s.deref_ensures a).bind
  intro o _
  apply Ensures.ite
  · intro _
    exact fileTableReset_leads s o.file.uri
  · intro _
    exact Leads.refl s []

/-- A whole tick is a series of moves. -/
theorem cacheFileTick_leads (now : Nat → Timeval) (s : Worker) :
    Ensures (cacheFileTick cfg.cap now s) (fun s' => Leads cfg Q s [] s' []) (fun _ => True) := by
  apply cacheFileTick_ensures ?_ (.refl s [])
  intro t _ a i ht _
  apply (cacheFileTickCb_leads t a (now i)).imp_ok
  intro t' ht'
  exact ht.trans ht'

/-! ## Requests -/

/-- The last lines of `cache_req_del`. -/
theorem leads_release (s : Worker) (buf : PipeBuf) (hand : List PipeBuf) :
    Leads cfg Q s (buf :: hand) { s with pools := cacheReqRelease cfg.cap buf s.pools } hand := by
  unfold cacheReqRelease
  by_cases hroom : s.pools.reqs.length < cacheReqPoolMax
  · rw [if_pos hroom]
    exact .move fun closed => ⟨closed, .freeReq hroom⟩
  · rw [if_neg hroom]
    exact .move fun closed => ⟨_, .freePipe⟩

/-- curr_reqs_del is a series of moves. -/
theorem currReqsDel_leads (s : Worker) (socket : Int) :
    Ensures (currReqsDel cfg s socket) (fun s' => Leads cfg Q s [] s' []) (fun _ => True) := by
  unfold currReqsDel
  cases hget : currReqsGet s.currReqs socket with
  | none => exact Leads.refl s []
  | some r =>
      apply (s.deref_ensures r.file).bind
      intro o ha
      have hmark : Leads cfg Q s [] (s.put r.file o.released) [] :=
        leads_mark (f := { o.file with pendingReqs := o.file.pendingReqs - 1 }) ha
          ⟨rfl, .refl _, refilled_refl _⟩ []
      have hdetach : Leads cfg Q (s.put r.file o.released) []
          { s.put r.file o.released with
            currReqs := s.currReqs.eraseP (fun q => q.socket = socket) } [r.buf] :=
        .move fun closed => ⟨closed, .detach (s := s.put r.file o.released) hget⟩
      have hleft := hmark.trans hdetach
      have hfree : Ensures (if o.released.file.zombie ∧ o.released.file.pendingReqs = 0 then
          cacheFileFree cfg.cap { s.put r.file o.released with
            currReqs := s.currReqs.eraseP (fun q => q.socket = socket) } r.file
          else .ok { s.put r.file o.released with
            currReqs := s.currReqs.eraseP (fun q => q.socket = socket) })
          (fun s' => Leads cfg Q s [] s' [r.buf]) (fun _ => True) := by
        apply Ensures.ite
        · intro _
          apply (cacheFileFree_leads _ r.file [r.buf]).imp_ok
          intro s' hs'
          exact hleft.trans hs'
        · intro _
          exact hleft
      apply hfree.bind
      intro s' hs'
      exact hs'.trans (leads_release s' r.buf [])

/-- The end of a call of the server is a series of moves. -/
theorem endCall_leads (s : Worker) (socket ret : Int) :
    Ensures (endCall cfg s socket ret) (fun s' => Leads cfg Q s [] s' []) (fun _ => True) := by
  unfold endCall
  apply Ensures.ite
  · intro _
    exact currReqsDel_leads s socket
  · intro _
    exact Leads.refl s []

/-- cache_req_new is a series of moves that leaves one pipe in hand. -/
theorem cacheReqNew_leads (s : Worker) (x : PipeOut) :
    Ensures (cacheReqNew cfg.cap s.pools x)
      (fun new => Leads cfg Q s [] { s with pools := new.2 } [new.1]) (fun _ => True) := by
  unfold cacheReqNew
  cases hreqs : s.pools.reqs with
  | cons first rest =>
      cases hnew : emptied first x.flush with
      | error e =>
          simp only [hnew]
          trivial
      | ok buf =>
          simp only [hnew]
          exact .move fun closed => ⟨closed, .newReq hreqs hnew⟩
  | nil =>
      cases hnew : pipeBufNew cfg.cap s.pools.pipes x with
      | error e => trivial
      | ok new =>
          apply Ensures.guard (fun _ => trivial)
          intro _
          have hpools : (⟨[], new.2⟩ : Pools) = { s.pools with pipes := new.2 } := by rw [← hreqs]
          show Leads cfg Q s [] { s with pools := ⟨[], new.2⟩ } [new.1]
          rw [hpools]
          exact .move fun closed => ⟨closed, .newPipe hnew⟩

/-- **The start of a request on an object.** -/
theorem serveFile_leads (s : Worker) (a : Addr) (socket : Int) (out : RequestOut) :
    Ensures (serveFile cfg s a socket out) (fun s' => Leads cfg Q s [] s' []) (fun _ => True) := by
  unfold serveFile
  apply (cacheReqNew_leads s out.pipe).bind
  intro new hnew
  apply (s.deref_ensures a).bind
  intro o ha
  apply (startReq_poured o.file a socket new.1 out.start).bind
  intro call hcall
  obtain ⟨hfile, hbuf⟩ := hcall
  have hmark : Leads cfg Q { s with pools := new.2 } [new.1]
      { s.put a { o with file := call.2.1 } with pools := new.2 } [new.1] :=
    leads_mark (s := { s with pools := new.2 }) ha hfile [new.1]
  have henter : Leads cfg Q { s.put a { o with file := call.2.1 } with pools := new.2 } [new.1]
      { s.put a { o with file := call.2.1 } with
        currReqs := s.currReqs ++ [call.2.2]
        pools := new.2 } [] :=
    .move fun closed =>
      ⟨closed, .enter (s := { s.put a { o with file := call.2.1 } with pools := new.2 }) hbuf⟩
  apply (endCall_leads _ socket call.1).imp_ok
  intro s' hs'
  exact ((hnew.trans hmark).trans henter).trans hs'

/-- A write event is a series of moves, rounds and end of call together. -/
theorem eventWrite_leads (s : Worker) (socket : Int) (out : Nat → RoundOut) :
    Ensures (eventWrite cfg s socket out) (fun s' => Leads cfg Q s [] s' []) (fun _ => True) := by
  unfold eventWrite
  cases hget : currReqsGet s.currReqs socket with
  | none => exact Leads.refl s []
  | some r =>
      dsimp only
      apply Ensures.ite
      · intro _
        exact Leads.refl s []
      · intro _
        apply (s.deref_ensures r.file).bind
        intro o ha
        have hboth := ((socketServeReqSplice_kept o.file r out).imp_error
          (fun _ _ => trivial)).and (socketServeReqSplice_poured o.file r out)
        apply hboth.bind
        intro call hcall
        obtain ⟨⟨_, hsocket, _⟩, hfile, hbuf⟩ := hcall
        have hfound : currReqsGet s.currReqs call.2.2.socket = some r := by
          rw [hsocket, (currReqsGet_mem hget).2, hget]
        have hmark : Leads cfg Q s [] (s.put r.file { o with file := call.2.1 }) [] :=
          leads_mark ha hfile []
        have hsend : Leads cfg Q (s.put r.file { o with file := call.2.1 }) []
            { s.put r.file { o with file := call.2.1 } with
              currReqs := currReqsSet call.2.2 s.currReqs } [] :=
          .move fun closed =>
            ⟨closed, .send (s := s.put r.file { o with file := call.2.1 }) hfound hbuf⟩
        apply (endCall_leads _ socket call.1).imp_ok
        intro s' hs'
        exact (hmark.trans hsend).trans hs'

/-! ## `_mkp_stage_30` -/

/-- Opening a file for a request is a series of moves. -/
theorem openFile_leads (s : Worker) (path uri : Key) (disk : Key → Option (List Byte))
    {c : CreateOut} (hQ : Q c) :
    Ensures (openFile cfg s path uri disk c) (fun found => Leads cfg Q s [] found.2 [])
      (fun _ => True) := by
  unfold openFile
  apply (cacheFileNew_leads s path uri disk hQ).bind
  intro made hmade
  split
  · exact hmade
  · exact hmade

/-- **Finding the file.** -/
theorem findFile_leads (s : Worker) (q : Request) {out : RequestOut} (hcreate : Q out.create)
    (hretry : Q out.retry) :
    Ensures (findFile cfg s q out) (fun found => Leads cfg Q s [] found.2 []) (fun _ => True) := by
  unfold findFile
  have hhit : Ensures (if q.get then cacheFileGet s q.uri out.now else .ok (none, s))
      (fun hit => Leads cfg Q s [] hit.2 []) (fun _ => True) := by
    apply Ensures.ite
    · intro _
      exact cacheFileGet_leads s q.uri out.now
    · intro _
      exact Leads.refl s []
  apply hhit.bind
  intro hit hs
  split
  · exact hs
  · unfold callApi
    cases apiOf q.uri q.body with
    | add key =>
        apply (cacheFileTmp_leads hit.2 key q.body hcreate).bind
        intro made hmade
        exact hs.trans hmade
    | stats =>
        have hstats : Ensures (statsEach hit.2 hit.2.fileTable.entries) (fun _ => True)
            (fun _ => True) := by
          cases statsEach hit.2 hit.2.fileTable.entries with
          | error e => trivial
          | ok u => trivial
        apply hstats.bind
        intro _ _
        exact hs
    | reset key =>
        apply (fileTableReset_leads hit.2 key).bind
        intro s' hs'
        exact hs.trans hs'
    | webui ptr =>
        dsimp only
        unfold openWebui
        apply Ensures.guard (fun _ => trivial)
        intro _
        apply (cacheFileNew_leads hit.2 _ ptr out.disk hcreate).bind
        intro made hmade
        split
        · exact hs.trans hmade
        · apply (openFile_leads made.2 _ q.uri out.disk hretry).imp_ok
          intro found hfound
          exact (hs.trans hmade).trans hfound
    | file =>
        apply (openFile_leads hit.2 q.path q.uri out.disk hretry).imp_ok
        intro found hfound
        exact hs.trans hfound

/-- Stage 30 as a whole is a series of moves. -/
theorem stage30_leads (s : Worker) (q : Request) {out : RequestOut} (hcreate : Q out.create)
    (hretry : Q out.retry) :
    Ensures (stage30 cfg s q out) (fun reply => Leads cfg Q s [] reply.2 []) (fun _ => True) := by
  unfold stage30
  cases currReqsGet s.currReqs q.socket with
  | some r => exact Leads.refl s []
  | none =>
      apply (findFile_leads s q hcreate hretry).bind
      intro found hfound
      split
      · apply (serveFile_leads found.2 _ q.socket out).bind
        intro s' hs'
        exact hfound.trans hs'
      · exact hfound

/-! ## Runs -/

/-- **Step lemma.**  An event consists of moves and leaves no pipe in hand. -/
theorem Worker.step_leads (s : Worker) {e : WorkerEvent} (he : e.Creates Q) :
    Ensures (s.step cfg e) (fun out => Leads cfg Q s [] out.2 []) (fun _ => True) := by
  unfold Worker.step
  cases e with
  | stage30 q out =>
      apply (stage30_leads s q he.1 he.2).bind
      intro reply hreply
      exact hreply
  | eventWrite socket out =>
      apply (eventWrite_leads s socket out).bind
      intro s' hs'
      exact hs'
  | eventError socket =>
      apply (currReqsDel_leads s socket).bind
      intro s' hs'
      exact hs'
  | eventTimeout socket =>
      apply (currReqsDel_leads s socket).bind
      intro s' hs'
      exact hs'
  | tick now =>
      apply (cacheFileTick_leads now s).bind
      intro s' hs'
      exact hs'

/-- **Run lemma.** -/
theorem Worker.runs_lead {P : WorkerEvent → Prop} (hP : ∀ e, P e → e.Creates Q)
    (hrun : Worker.Runs cfg P s s') : Leads cfg Q s [] s' [] := by
  apply hrun.invariant (fun t => Leads cfg Q s [] t []) (.refl s [])
  intro t e t' _ ht hstep
  obtain ⟨he, reply, hstep⟩ := hstep
  exact ht.trans ((Worker.step_leads t (hP e he)).of_ok hstep)

end MonkeyCache
