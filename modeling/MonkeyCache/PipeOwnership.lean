import MonkeyCache.Lib.Custody
import MonkeyCache.Moves
import MonkeyCache.ObjectLife

/-!
# Ownership of the pipes

Every pipe that was not closed is in one place: in the pool of pipes, in the
chain or the header pipe of an object, or in the private pipe of a request that
is active or pooled.  In the middle of a call it may be in hand as well.
`Desk.Move.custody` says what a move does to these pipes: it hands some on and
refills them, makes one or closes one.  The ownership (`pipes_owned_once`) and
the contents (`recycled_pipes_empty`) follow.
-/

namespace MonkeyCache

open Fallible Transition Custody

variable {cfg : Config} {Q : CreateOut → Prop} {s s' : Worker} {d d' : Desk}
  {objs : List Addr} {a : Addr} {o : Object}

/-! ## All the pipes -/

/-- The pipes of a worker, place by place. -/
def Worker.pipes (s : Worker) (objs : List Addr) : List PipeBuf :=
  s.pools.pipes.pool ++ s.pools.reqs ++ s.currReqs.map (fun r => r.buf) ++
    objs.flatMap (itemsAt Object.pipes s.heap)

/-- The pipes of a worker and those in hand. -/
def Desk.inventory (d : Desk) (objs : List Addr) : List PipeBuf :=
  d.worker.pipes objs ++ d.hand

/-- An object whose pipes are refilled. -/
theorem refilled_itemsAt (heap : Addr → Option Object) (ha : heap a = some o) {o' : Object}
    (ho : o.file.Refilled o'.file) (objs : List Addr) :
    List.Forall₂ PipeBuf.Refilled (objs.flatMap (itemsAt Object.pipes heap))
      (objs.flatMap (itemsAt Object.pipes (Function.update heap a (some o')))) := by
  induction objs with
  | nil => exact .nil
  | cons b objs ih =>
      rw [List.flatMap_cons, List.flatMap_cons]
      refine List.rel_append ?_ ih
      by_cases hba : b = a
      · rw [hba, itemsAt_some Object.pipes ha,
          itemsAt_some Object.pipes (Function.update_self a _ heap)]
        exact .cons ho.headers ho.cache
      · unfold itemsAt
        rw [Function.update_of_ne hba]
        exact refilled_refl _

/-- The request that is changed in place. -/
theorem refilled_currReqsSet {reqs : List (CacheReq Addr)} {r r' : CacheReq Addr}
    (hget : currReqsGet reqs r'.socket = some r) (hbuf : r.buf.Refilled r'.buf) :
    List.Forall₂ PipeBuf.Refilled (reqs.map (fun q => q.buf))
      ((currReqsSet r' reqs).map (fun q => q.buf)) := by
  induction reqs with
  | nil => exact .nil
  | cons q qs ih =>
      by_cases hq : q.socket = r'.socket
      · have hqr : q = r := by simpa [currReqsGet, hq] using hget
        unfold currReqsSet
        rw [if_pos hq, hqr]
        exact .cons hbuf (refilled_refl _)
      · have htail : currReqsGet qs r'.socket = some r := by simpa [currReqsGet, hq] using hget
        unfold currReqsSet
        rw [if_neg hq]
        exact .cons (.refl q.buf) (ih htail)

/-- The request that is deleted. -/
theorem perm_currReqs_eraseP {reqs : List (CacheReq Addr)} {socket : Int} {r : CacheReq Addr}
    (hget : currReqsGet reqs socket = some r) :
    reqs.Perm (r :: reqs.eraseP (fun q => q.socket = socket)) := by
  induction reqs with
  | nil => cases hget
  | cons q qs ih =>
      by_cases hq : q.socket = socket
      · have hqr : q = r := by simpa [currReqsGet, hq] using hget
        rw [List.eraseP_cons_of_pos (by simp [hq]), hqr]
      · have htail : currReqsGet qs socket = some r := by simpa [currReqsGet, hq] using hget
        rw [List.eraseP_cons_of_neg (by simp [hq])]
        exact ((ih htail).cons q).trans (.swap r q _)

/-- The pipes that are somewhere, those that were closed, and how many were made. -/
def Desk.account (d : Desk) (objs : List Addr) : Account PipeBuf where
  held := d.inventory objs
  closed := d.closed
  made := d.worker.pools.pipes.made

/-! ## What a move does -/

/-- A step of the pipes: handed on and refilled at most, made by `createpipe` or
closed. -/
def PipeStep (size : Nat) : Account PipeBuf → Account PipeBuf → Prop :=
  Step PipeBuf.pipe PipeBuf.Refilled fun n p => p = .fresh size n

/-- Pipes that are handed on as they are. -/
theorem PipeStep.of_perm {size made : Nat} {closed : List Nat} {ps qs : List PipeBuf}
    (h : ps.Perm qs) : PipeStep size ⟨ps, closed, made⟩ ⟨qs, closed, made⟩ :=
  .hand h (refilled_refl qs)

/-- Pipes that stay where they are. -/
theorem PipeStep.of_refilled {size made : Nat} {closed : List Nat} {ps qs : List PipeBuf}
    (h : List.Forall₂ PipeBuf.Refilled ps qs) :
    PipeStep size ⟨ps, closed, made⟩ ⟨qs, closed, made⟩ :=
  .hand (.refl ps) h

/-- Pipes that are handed on as `ms` and refilled on the way. -/
theorem PipeStep.of_hand {size made : Nat} {closed : List Nat} {ps qs : List PipeBuf}
    (ms : List PipeBuf) (hperm : ps.Perm ms) (h : List.Forall₂ PipeBuf.Refilled ms qs) :
    PipeStep size ⟨ps, closed, made⟩ ⟨qs, closed, made⟩ :=
  .hand hperm h

/-- A pipe that is made. -/
theorem PipeStep.of_make {size made : Nat} {closed : List Nat} {ps qs : List PipeBuf}
    (h : qs.Perm (.fresh size made :: ps)) :
    PipeStep size ⟨ps, closed, made⟩ ⟨qs, closed, made + 1⟩ := by
  unfold PipeStep
  exact .make rfl h

section Custody

variable (objs : List Addr) (hand : List PipeBuf) (closed : List Nat)

/-- A pipe leaves the pool, emptied, or is made. -/
theorem custody_newPipe {x : PipeOut} {buf : PipeBuf} {pp : PipePool}
    (hnew : pipeBufNew cfg.cap s.pools.pipes x = .ok (buf, pp)) :
    PipeStep cfg.cap ((⟨s, hand, closed⟩ : Desk).account objs)
      ((⟨s.withPipes pp, hand ++ [buf], closed⟩ : Desk).account objs) := by
  rcases pipeBufNew_cases hnew with ⟨first, rest, hpool, hfirst, _, rfl⟩ | ⟨hpool, rfl, rfl⟩
  · refine .of_hand (rest ++ _ ++ _ ++ _ ++ (_ ++ [first])) ?_ (List.rel_append
      (refilled_refl _) (List.rel_append (refilled_refl _) (.cons hfirst .nil)))
    rw [List.perm_iff_count]
    intro p
    simp only [Desk.inventory, Worker.pipes, Worker.withPipes, hpool, List.count_append,
      List.count_cons, List.count_nil]
    omega
  · apply PipeStep.of_make
    rw [List.perm_iff_count]
    intro p
    simp only [Desk.inventory, Worker.pipes, Worker.withPipes, hpool, List.count_append,
      List.count_cons, List.count_nil]
    omega

/-- The private pipe of a pooled request is emptied. -/
theorem custody_newReq {x : Xfer} {buf first : PipeBuf} {rest : List PipeBuf}
    (hreqs : s.pools.reqs = first :: rest) (hnew : emptied first x = .ok buf) :
    PipeStep cfg.cap ((⟨s, hand, closed⟩ : Desk).account objs)
      ((⟨{ s with pools := { s.pools with reqs := rest } }, hand ++ [buf], closed⟩ : Desk).account
        objs) := by
  have hfirst := ((emptied_refilled first x).of_ok hnew).1
  refine .of_hand (_ ++ rest ++ _ ++ _ ++ (_ ++ [first])) ?_ (List.rel_append
    (refilled_refl _) (List.rel_append (refilled_refl _) (.cons hfirst .nil)))
  rw [List.perm_iff_count]
  intro p
  simp only [Desk.inventory, Worker.pipes, hreqs, List.count_append, List.count_cons,
    List.count_nil]
  omega

/-- A pipe goes back to the pool or is closed. -/
theorem custody_freePipe (s : Worker) (buf : PipeBuf) :
    PipeStep cfg.cap ((⟨s, buf :: hand, closed⟩ : Desk).account objs)
      ((⟨s.withPipes (pipeBufFree cfg.cap buf s.pools.pipes), hand,
        closed ++ pipeBufFreeClosed s.pools.pipes buf⟩ : Desk).account objs) := by
  by_cases hroom : s.pools.pipes.pool.length < pipeBufPoolMax
  · have hfreed : pipeBufFree cfg.cap buf s.pools.pipes =
        { s.pools.pipes with pool := s.pools.pipes.pool ++ [buf] } := if_pos hroom
    have hclosed : closed ++ pipeBufFreeClosed s.pools.pipes buf = closed := by
      rw [pipeBufFreeClosed, if_pos hroom, List.append_nil]
    rw [hfreed, hclosed]
    apply PipeStep.of_perm
    rw [List.perm_iff_count]
    intro p
    simp only [Desk.inventory, Worker.pipes, Worker.withPipes, List.count_append,
      List.count_cons, List.count_nil]
    omega
  · have hfreed : pipeBufFree cfg.cap buf s.pools.pipes =
        { s.pools.pipes with memUsed := s.pools.pipes.memUsed - cfg.cap } := if_neg hroom
    have hclosed : closed ++ pipeBufFreeClosed s.pools.pipes buf = closed ++ [buf.pipe] := by
      rw [pipeBufFreeClosed, if_neg hroom]
    rw [hfreed, hclosed]
    exact .close List.perm_middle

/-- The pipes in hand become those of an object. -/
theorem perm_build {a : Addr} (hnew : a ∉ objs) (s : Worker) (o : Object) (fd : Int) :
    (s.pipes objs ++ o.pipes).Perm ((s.build a o fd).pipes (a :: objs)) := by
  have hothers := flatMap_itemsAt_update Object.pipes s.heap (some o) hnew
  have hself := itemsAt_some Object.pipes (Function.update_self a (some o) s.heap)
  rw [List.perm_iff_count]
  intro p
  simp only [Worker.pipes, Worker.build, List.flatMap_cons, hothers, hself, List.count_append]
  omega

/-- The pipes of an object are left in hand. -/
theorem perm_drop (hlive : s.toBooks.LiveAt objs) (ha : s.heap a = some o) :
    (s.pipes objs ++ hand).Perm ((s.drop a o).pipes (objs.erase a) ++ (o.pipes ++ hand)) := by
  have hmem : a ∈ objs := (hlive.mem_iff a).2 ⟨o, ha⟩
  have hnot : a ∉ objs.erase a := hlive.nodup.not_mem_erase
  have hothers := flatMap_itemsAt_update Object.pipes s.heap none hnot
  have hsplit := (List.perm_cons_erase hmem).flatMap_right (itemsAt Object.pipes s.heap)
  rw [List.flatMap_cons, itemsAt_some Object.pipes ha] at hsplit
  rw [List.perm_iff_count] at hsplit ⊢
  intro p
  have hcount := hsplit p
  simp only [Worker.pipes, Worker.drop, hothers, List.count_append] at hcount ⊢
  omega

/-- The pipe in hand becomes that of a request, refilled. -/
theorem custody_enter (s : Worker) {buf : PipeBuf} {r : CacheReq Addr}
    (hbuf : buf.Refilled r.buf) :
    PipeStep cfg.cap ((⟨s, buf :: hand, closed⟩ : Desk).account objs)
      ((⟨{ s with currReqs := s.currReqs ++ [r] }, hand, closed⟩ : Desk).account objs) := by
  refine .of_hand (s.pools.pipes.pool ++ s.pools.reqs ++
    (s.currReqs.map (fun r => r.buf) ++ [buf]) ++ objs.flatMap (itemsAt Object.pipes s.heap) ++
      hand) ?_ ?_
  · rw [List.perm_iff_count]
    intro p
    simp only [Desk.inventory, Worker.pipes, List.count_append, List.count_cons, List.count_nil]
    omega
  · unfold Desk.inventory Worker.pipes
    rw [List.map_append]
    exact List.rel_append (List.rel_append (List.rel_append (refilled_refl _)
      (List.rel_append (refilled_refl _) (.cons hbuf .nil))) (refilled_refl _)) (refilled_refl _)

/-- The pipe of a request that ended is left in hand. -/
theorem perm_detach {socket : Int} {r : CacheReq Addr}
    (hget : currReqsGet s.currReqs socket = some r) :
    (s.pipes objs ++ hand).Perm
      (Worker.pipes { s with currReqs := s.currReqs.eraseP (fun q => q.socket = socket) } objs ++
        r.buf :: hand) := by
  have hsplit := (perm_currReqs_eraseP hget).map (fun r => r.buf)
  rw [List.perm_iff_count] at hsplit ⊢
  intro p
  have hcount := hsplit p
  simp only [Worker.pipes, List.map_cons, List.count_append, List.count_cons] at hcount ⊢
  omega

end Custody

/-- **Custody.** -/
theorem Desk.Move.custody (h : Desk.Move cfg Q d d') (hlive : d.worker.toBooks.LiveAt objs) :
    ∃ objs', d'.worker.toBooks.LiveAt objs' ∧
      PipeStep cfg.cap (d.account objs) (d'.account objs') := by
  have hsame : ∀ {t : Worker}, t.heap = d.worker.heap → t.toBooks.LiveAt objs := by
    intro t ht
    exact ⟨hlive.nodup, fun b => by rw [ht]; exact hlive.mem_iff b⟩
  cases h with
  | table t => exact ⟨objs, hsame rfl, .of_perm (.refl _)⟩
  | mark ha hf =>
      refine ⟨objs, hlive.update ha rfl, .of_refilled ?_⟩
      refine List.rel_append (List.rel_append (refilled_refl _) ?_) (refilled_refl _)
      exact refilled_itemsAt _ ha hf objs
  | refuse fd => exact ⟨objs, hsame rfl, .of_perm (.refl _)⟩
  | newPipe hnew => exact ⟨objs, hsame rfl, custody_newPipe objs _ _ hnew⟩
  | newReq hreqs hnew => exact ⟨objs, hsame rfl, custody_newReq objs _ _ hreqs hnew⟩
  | freePipe => exact ⟨objs, hsame rfl, custody_freePipe objs _ _ _ _⟩
  | freeReq hroom =>
      refine ⟨objs, hsame rfl, .of_perm ?_⟩
      rw [List.perm_iff_count]
      intro p
      simp only [Desk.inventory, Worker.pipes, List.count_append, List.count_cons, List.count_nil]
      omega
  | @build s closed a o c hfree hQ hbuilt =>
      have hnew : a ∉ objs := by
        rw [hlive.mem_iff, hfree]
        simp
      refine ⟨a :: objs, hlive.build hfree rfl, .of_perm ?_⟩
      unfold Desk.inventory
      rw [List.append_nil]
      exact perm_build objs hnew s o c.fd
  | drop ha => exact ⟨objs.erase _, hlive.drop _ rfl, .of_perm (perm_drop objs _ hlive ha)⟩
  | enter hbuf => exact ⟨objs, hsame rfl, custody_enter objs _ _ _ hbuf⟩
  | send hget hbuf =>
      refine ⟨objs, hsame rfl, .of_refilled ?_⟩
      refine List.rel_append (List.rel_append (List.rel_append (refilled_refl _) ?_)
        (refilled_refl _)) (refilled_refl _)
      exact refilled_currReqsSet hget hbuf
  | detach hget => exact ⟨objs, hsame rfl, .of_perm (perm_detach objs _ hget)⟩

/-! ## Ownership -/

/-- Every pipe that was made is in one place, in hand or closed. -/
structure Desk.Owned (d : Desk) (objs : List Addr) : Prop where
  live : d.worker.toBooks.LiveAt objs
  once : (d.account objs).Conserved PipeBuf.pipe

/-- **Step lemma.** -/
theorem Desk.Owned.move (h : d.Owned objs) (hmove : Desk.Move cfg Q d d') :
    ∃ objs', d'.Owned objs' := by
  obtain ⟨objs', hlive, hstep⟩ := hmove.custody h.live
  refine ⟨objs', hlive, hstep.conserved (fun _ _ hp => hp.pipe) ?_ h.once⟩
  intro n p hp
  rw [hp]
  rfl

/-- `pipe_mem_used` counts the pipes that are not closed. -/
def Desk.Counted (size : Nat) (d : Desk) : Prop :=
  d.worker.pools.pipes.memUsed = size * ((d.worker.pools.pipes.made : Int) - d.closed.length)

theorem Desk.Counted.move (h : d.Counted cfg.cap) (hmove : Desk.Move cfg Q d d') :
    d'.Counted cfg.cap := by
  unfold Desk.Counted at h ⊢
  cases hmove with
  | newPipe hnew =>
      rcases pipeBufNew_cases hnew with ⟨first, rest, _, _, _, rfl⟩ | ⟨_, rfl, rfl⟩
      · exact h
      · dsimp only [Worker.withPipes] at h ⊢
        rw [h]
        push_cast
        ring
  | @freePipe s hand closed buf =>
      dsimp only [Worker.withPipes] at h ⊢
      unfold pipeBufFree pipeBufFreeClosed
      split
      · rw [List.append_nil]
        exact h
      · dsimp only
        rw [h, List.length_append, List.length_singleton]
        push_cast
        ring
  | _ => exact h

/-- The pools are not filled beyond their bounds. -/
def Worker.PoolsBounded (s : Worker) : Prop :=
  s.pools.pipes.pool.length ≤ pipeBufPoolMax ∧ s.pools.reqs.length ≤ cacheReqPoolMax

theorem Desk.Move.poolsBounded (hmove : Desk.Move cfg Q d d') (h : d.worker.PoolsBounded) :
    d'.worker.PoolsBounded := by
  obtain ⟨hpipes, hreqs⟩ := h
  cases hmove with
  | newPipe hnew =>
      rcases pipeBufNew_cases hnew with ⟨first, rest, hpool, _, _, rfl⟩ | ⟨hpool, rfl, rfl⟩
      · dsimp only at hpipes
        rw [hpool, List.length_cons] at hpipes
        exact ⟨Nat.le_of_succ_le hpipes, hreqs⟩
      · exact ⟨hpipes, hreqs⟩
  | newReq hpooled hnew =>
      dsimp only at hreqs
      rw [hpooled, List.length_cons] at hreqs
      exact ⟨hpipes, Nat.le_of_succ_le hreqs⟩
  | @freePipe s hand closed buf =>
      refine ⟨?_, hreqs⟩
      show (pipeBufFree cfg.cap buf s.pools.pipes).pool.length ≤ _
      unfold pipeBufFree
      split
      · rw [List.length_append, List.length_singleton]
        omega
      · exact hpipes
  | freeReq hroom =>
      refine ⟨hpipes, ?_⟩
      simp only [List.length_append, List.length_singleton]
      omega
  | _ => exact ⟨hpipes, hreqs⟩

/-- The start of a worker. -/
theorem Desk.init_owned : (⟨Worker.init, [], []⟩ : Desk).Owned [] where
  live := ⟨List.nodup_nil, by simp [Worker.init]⟩
  once := .refl _

/-- Events whose constructors meet anything. -/
theorem WorkerEvent.creates_any (e : WorkerEvent) : e.Creates (fun _ => True) := by
  cases e with
  | stage30 q out => exact ⟨trivial, trivial⟩
  | _ => trivial

/-- **Ownership and accounting.**  The pipes in the lists of a worker and those
that were closed are the pipes that were made, each once. -/
theorem pipes_owned_once (hrun : Worker.Runs cfg (fun _ => True) Worker.init s) :
    ∃ objs closed, s.toBooks.LiveAt objs ∧
      Desk.Reaches cfg (fun _ => True) ⟨Worker.init, [], []⟩ ⟨s, [], closed⟩ ∧
      ((s.pipes objs).map PipeBuf.pipe ++ closed).Perm (List.range s.pools.pipes.made) ∧
      s.pools.pipes.pool.length ≤ pipeBufPoolMax ∧ s.pools.reqs.length ≤ cacheReqPoolMax ∧
      s.pools.pipes.memUsed = cfg.cap * (s.pipes objs).length := by
  obtain ⟨closed, hreach⟩ := Worker.runs_lead (fun e _ => e.creates_any) hrun []
  have howned : ∃ objs, (⟨s, [], closed⟩ : Desk).Owned objs := by
    apply hreach.invariant (fun d => ∃ objs, d.Owned objs) ⟨[], Desk.init_owned⟩
    intro d d' hd hmove
    obtain ⟨objs, hd⟩ := hd
    exact hd.move hmove
  have hcounted : (⟨s, [], closed⟩ : Desk).Counted cfg.cap := by
    apply hreach.invariant (Desk.Counted cfg.cap) (by simp [Desk.Counted, Worker.init])
    intro d d' hd hmove
    exact hd.move hmove
  have hbounded : s.PoolsBounded := by
    apply hreach.invariant (fun d => d.worker.PoolsBounded) ⟨Nat.zero_le _, Nat.zero_le _⟩
    intro d d' hd hmove
    exact hmove.poolsBounded hd
  obtain ⟨objs, hlive, honce⟩ := howned
  have hlen := honce.length
  unfold Account.Conserved at honce
  simp only [Desk.account, Desk.inventory, List.append_nil] at honce hlen
  have hused : s.pools.pipes.memUsed = cfg.cap * (s.pipes objs).length := by
    unfold Desk.Counted at hcounted
    dsimp only at hcounted
    rw [hcounted, ← hlen]
    push_cast
    ring
  exact ⟨objs, closed, hlive, hreach, honce, hbounded.1, hbounded.2, hused⟩

/-- A request waits for its socket: one pipe for the headers, one for the file
and one for the request. -/
theorem pipes_owned_once_sample :
    ∃ (s : Worker) (objs : List Addr) (closed : List Nat), s.toBooks.LiveAt objs ∧ s.refs 100 = 1 ∧
      ((s.pipes objs).map PipeBuf.pipe ++ closed).Perm (List.range 3) := by
  have hrun : Worker.Runs plainConfig (fun _ => True) Worker.init _ :=
    .of_exec [plainRequest 5 true fileA [] 100 ⟨0, false, 0⟩ .eagain] (fun _ _ _ => trivial) rfl
  obtain ⟨objs, closed, hlive, _, honce, _⟩ := pipes_owned_once hrun
  exact ⟨_, objs, closed, hlive, rfl, honce⟩

/-! ## Contents -/

/-- The pipes of a worker and those in hand count rightly. -/
def Desk.Exact (d : Desk) : Prop :=
  ∃ objs, d.worker.toBooks.LiveAt objs ∧ ∀ p ∈ d.inventory objs, p.Exact

theorem fresh_exact (size pipe : Nat) : (PipeBuf.fresh size pipe).Exact :=
  ⟨rfl, Nat.zero_le size⟩

/-- **Step lemma.** -/
theorem Desk.Exact.move (h : d.Exact) (hmove : Desk.Move cfg Q d d') : d'.Exact := by
  obtain ⟨objs, hlive, hexact⟩ := h
  obtain ⟨objs', hlive', hstep⟩ := hmove.custody hlive
  refine ⟨objs', hlive', hstep.forall_held (fun _ _ hp => hp.keeps) ?_ hexact⟩
  intro n p hp
  rw [hp]
  exact fresh_exact cfg.cap n

theorem Desk.Reaches.exact (h : Desk.Reaches cfg Q d d') (hd : d.Exact) : d'.Exact :=
  h.invariant Desk.Exact hd fun _ _ hd hmove => hd.move hmove

/-- What `pipe_buf_new` hands out is really empty. -/
theorem Desk.Exact.newPipe (h : d.Exact) {x : PipeOut} {p : PipeBuf} {pp : PipePool}
    (hnew : pipeBufNew cfg.cap d.worker.pools.pipes x = .ok (p, pp)) : p.data = [] := by
  obtain ⟨objs, _, hexact⟩ := h
  rcases pipeBufNew_cases hnew with ⟨first, rest, hpool, hfirst, hempty, _⟩ | ⟨_, rfl, _⟩
  · have hmem : first ∈ d.inventory objs := by
      simp [Desk.inventory, Worker.pipes, hpool]
    exact (hfirst.keeps (hexact first hmem)).data_nil hempty
  · rfl

/-- What `cache_req_new` hands out is really empty. -/
theorem Desk.Exact.newReq (h : d.Exact) {x : PipeOut} {p : PipeBuf} {ps : Pools}
    (hnew : cacheReqNew cfg.cap d.worker.pools x = .ok (p, ps)) : p.data = [] := by
  have hall := h
  obtain ⟨objs, _, hexact⟩ := h
  unfold cacheReqNew at hnew
  cases hreqs : d.worker.pools.reqs with
  | cons first rest =>
      rw [hreqs] at hnew
      obtain ⟨buf, hemptied, hnew⟩ := bind_eq_ok.1 hnew
      cases hnew
      have hmem : first ∈ d.inventory objs := by
        simp [Desk.inventory, Worker.pipes, hreqs]
      obtain ⟨hfirst, hempty⟩ := (emptied_refilled first x.flush).of_ok hemptied
      exact (hfirst.keeps (hexact first hmem)).data_nil hempty
  | nil =>
      rw [hreqs] at hnew
      obtain ⟨new, hpipe, hnew⟩ := bind_eq_ok.1 hnew
      split at hnew
      · cases hnew
      · cases hnew
        exact hall.newPipe hpipe

theorem Desk.init_exact : (⟨Worker.init, [], []⟩ : Desk).Exact := by
  refine ⟨[], Desk.init_owned.live, ?_⟩
  intro p hp
  cases hp

/-- **Recycled pipes carry nothing over.**  Between two events every pipe counts
rightly; an event consists of moves, and wherever moves lead, a pipe that is
handed out is empty. -/
theorem recycled_pipes_empty (hrun : Worker.Runs cfg (fun _ => True) Worker.init s) :
    (∃ objs, s.toBooks.LiveAt objs ∧
      ∀ p ∈ s.pipes objs, p.filled = p.data.length ∧ p.filled ≤ p.cap) ∧
    (∀ e out s', s.step cfg e = .ok (out, s') →
      ∃ closed, Desk.Reaches cfg (fun _ => True) ⟨s, [], []⟩ ⟨s', [], closed⟩) ∧
    ∀ d, Desk.Reaches cfg (fun _ => True) ⟨s, [], []⟩ d → d.Exact ∧
      (∀ x p pp, pipeBufNew cfg.cap d.worker.pools.pipes x = .ok (p, pp) → p.data = []) ∧
      ∀ x p ps, cacheReqNew cfg.cap d.worker.pools x = .ok (p, ps) → p.data = [] := by
  obtain ⟨closed, hreach⟩ := Worker.runs_lead (fun e _ => e.creates_any) hrun []
  have hexact : (⟨s, [], []⟩ : Desk).Exact := hreach.exact Desk.init_exact
  refine ⟨?_, ?_, ?_⟩
  · obtain ⟨objs, hlive, hpipes⟩ := hexact
    refine ⟨objs, hlive, ?_⟩
    intro p hp
    have hmem : p ∈ Desk.inventory ⟨s, [], []⟩ objs := List.mem_append_left _ hp
    exact ⟨(hpipes p hmem).filled_eq, (hpipes p hmem).filled_le⟩
  · intro e out s' hstep
    exact (Worker.step_leads s e.creates_any).of_ok hstep []
  · intro d hd
    have hdesk := hd.exact hexact
    exact ⟨hdesk, fun x p pp hnew => hdesk.newPipe hnew, fun x p ps hnew => hdesk.newReq hnew⟩

/-- A client is gone before its socket took anything: its request is pooled with
two bytes in the pipe, which the next request does not find there. -/
theorem recycled_pipes_empty_sample :
    ∃ s : Worker, s.pools.reqs.map PipeBuf.data = [[7, 1]] ∧
      ∀ x p ps, cacheReqNew 4 s.pools x = .ok (p, ps) → p.data = [] := by
  have hrun : Worker.Runs plainConfig (fun _ => True) Worker.init _ :=
    .of_exec [plainRequest 5 true fileA [] 100 ⟨0, false, 0⟩ .eagain, .eventError 5]
      (fun _ _ _ => trivial) rfl
  exact ⟨_, rfl, ((recycled_pipes_empty hrun).2.2 _ .refl).2.2⟩

end MonkeyCache
