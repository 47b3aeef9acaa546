import MonkeyCache.CacheReq
import MonkeyCache.Lib.Transition

/-!
# First requests of several workers

Workers that make the first requests to one file race for its header pipe.  The
one that takes the mutex writes the headers into the pipe, publishes their length
in `filled`, copies some of the file behind them and then adds that to `filled`;
the others look at `filled` without the mutex, and take from the pipe as much as
it says.

The pipe is always ahead of `filled`, and `filled` goes from nothing to the whole
headers in one step.  So a worker that finds it non-zero gets the whole headers
and a prefix of the file, and accounts for both (`headers_whole`).

* `HeaderRace.step` — the atomic steps of a worker, from the test in front of
  `fill_cache_headers` to the end of `serve_cache_headers`.
* `SharedFile.Stage` — what the pipe looks like while a worker is at a line
  behind the mutex.
* `HeaderRace.Inv` — nobody else is there, and who reads has seen enough.
* `alone_fills`, `alone_serves` — a worker on its own does what `fill_cache_headers` and
  `serve_cache_headers` do.
-/

namespace MonkeyCache

open Fallible Transition

/-! ## The machine -/

/-- Where a worker is in `_mkp_stage_30`. -/
inductive RacePhase
  /-- `if (!file->cache_headers->filled)` -/
  | start
  /-- `pthread_mutex_trylock` -/
  | lock
  /-- the same test behind the mutex -/
  | test
  /-- `header_send` into the pipe -/
  | send
  /-- `ioctl(.., FIONREAD, &file->header_len)` -/
  | measure
  /-- `filled = header_len` -/
  | store
  /-- `if (leftover > first_buf->filled)` -/
  | decide
  /-- `tee` of the first chunk -/
  | copy
  /-- `filled += ret` -/
  | count (ret : Nat)
  /-- `mk_bug(filled == 0)` -/
  | check
  /-- `pthread_mutex_unlock` -/
  | unlock
  /-- the test in front of `header_send` and `serve_cache_headers` -/
  | choose
  /-- `serve_cache_headers` reads `filled` -/
  | load
  /-- it tees that much -/
  | tee (len : Nat)
  /-- `mk_bug(ret < header_len)` -/
  | compare (ret : Nat)
  /-- the counters of the request -/
  | adjust (ret : Nat)
  /-- the request is served from the header pipe -/
  | served
  /-- the headers were sent by `header_send` -/
  | direct
  deriving DecidableEq, Repr

/-- The lines behind the mutex. -/
def RacePhase.Locked : RacePhase → Prop
  | .test | .send | .measure | .store | .decide | .copy | .count _ | .check | .unlock => True
  | _ => False

/-- The lines of `serve_cache_headers`. -/
def RacePhase.Reading : RacePhase → Prop
  | .load | .tee _ | .compare _ | .adjust _ => True
  | _ => False

variable {ω : Type}

/-- What the workers share: the file.  `sends` is a ghost: how often the headers
were written into its header pipe. -/
structure SharedFile where
  f : CacheFile
  sends : Nat

/-- The file, and for each worker the line it is at and its request. -/
structure HeaderRace (ω : Type) extends SharedFile where
  phase : ω → RacePhase
  req : ω → CacheReq Unit

/-- A worker takes a step: the `tee` of the first chunk turns out as `x`, and `keep`
says that the connection may be kept alive. -/
structure RaceEvent (ω : Type) where
  worker : ω
  x : Xfer
  keep : Bool

section
variable [DecidableEq ω]

/-- The worker goes on. -/
def HeaderRace.goto (s : HeaderRace ω) (w : ω) (p : RacePhase) : HeaderRace ω :=
  { s with phase := Function.update s.phase w p }

/-- It goes on and has changed the header pipe. -/
def HeaderRace.write (s : HeaderRace ω) (w : ω) (pipe : PipeBuf) (p : RacePhase) : HeaderRace ω :=
  { s.goto w p with f := { s.f with cacheHeaders := pipe } }

theorem HeaderRace.write_phase (s : HeaderRace ω) (w : ω) (pipe : PipeBuf) (p : RacePhase) :
    (s.write w pipe p).phase = Function.update s.phase w p := rfl

/-- One step; a worker that is done stays where it is. -/
def HeaderRace.step (header : List Byte) (s : HeaderRace ω) (e : RaceEvent ω) :
    Except Fault (Unit × HeaderRace ω) :=
  let w := e.worker
  let pipe := s.f.cacheHeaders
  match s.phase w with
  | .start => .ok ((), s.goto w (if pipe.filled = 0 then .lock else .choose))
  | .lock =>
    if pipe.locked then .ok ((), s.goto w .choose)
    else .ok ((), s.write w { pipe with locked := true } .test)
  | .test => .ok ((), s.goto w (if pipe.filled = 0 then .send else .unlock))
  | .send =>
    .ok ((), { s.write w { pipe with data := pipe.data ++ header } .measure with
      sends := s.sends + 1 })
  | .measure =>
    .ok ((), { s.goto w .store with f := { s.f with headerLen := pipe.data.length } })
  | .store => .ok ((), s.write w { pipe with filled := s.f.headerLen } .decide)
  | .decide =>
    match s.f.cache.head? with
    | none => .error .noPipe
    | some first =>
      .ok ((), s.goto w
        (if (first.filled : Int) < (pipe.cap : Int) - pipe.filled ∧ first.filled ≠ 0 then .copy
        else .check))
  | .copy =>
    match s.f.cache.head? with
    | none => .error .noPipe
    | some first =>
      match MonkeyCache.tee e.x first pipe first.filled with
      | .error _ => .error .headersTee
      | .ok (ret, pipe) => .ok ((), s.write w pipe (.count ret))
  | .count ret => .ok ((), s.write w { pipe with filled := pipe.filled + ret } .check)
  | .check => if pipe.filled = 0 then .error .headersEmpty else .ok ((), s.goto w .unlock)
  | .unlock => .ok ((), s.write w { pipe with locked := false } .choose)
  | .choose =>
    .ok ((), s.goto w (if pipe.filled = 0 ∨ e.keep = false then .direct else .load))
  | .load => .ok ((), s.goto w (.tee pipe.filled))
  | .tee len =>
    let r := s.req w
    let got := pipe.data.take len
    if got = [] then .error .headersTee
    else .ok ((), { s.goto w (.compare got.length) with
      req := Function.update s.req w { r with buf := { r.buf with data := r.buf.data ++ got } } })
  | .compare ret =>
    if ret < s.f.headerLen then .error .headersShort else .ok ((), s.goto w (.adjust ret))
  | .adjust ret =>
    let r := s.req w
    .ok ((), { s.goto w .served with
      req := Function.update s.req w { r with
        buf := { r.buf with filled := r.buf.filled + ret }
        bytesOffset := r.bytesOffset - s.f.headerLen
        bytesToSend := r.bytesToSend + s.f.headerLen
        viaCache := true } })
  | .served => .ok ((), s)
  | .direct => .ok ((), s)

end

/-! ## The invariant -/

/-- A request that nothing was done for yet. -/
structure CacheReq.Untouched (r : CacheReq Unit) : Prop where
  data : r.buf.data = []
  filled : r.buf.filled = 0
  offset : r.bytesOffset = 0

/-- Nothing was written into the header pipe. -/
structure SharedFile.Blank (s : SharedFile) : Prop where
  data : s.f.cacheHeaders.data = []
  filled : s.f.cacheHeaders.filled = 0
  sends : s.sends = 0

/-- The headers and `k` bytes of the file were written into the header pipe, and
`filled` is `n`. -/
structure SharedFile.Written (header : List Byte) (s : SharedFile) (k n : Nat) : Prop where
  le : k ≤ s.f.buf.length
  data : s.f.cacheHeaders.data = header ++ s.f.buf.take k
  filled : s.f.cacheHeaders.filled = n
  sends : s.sends = 1

/-- What the header pipe is like when nobody holds its mutex. -/
def SharedFile.Idle (header : List Byte) (s : SharedFile) : Prop :=
  s.Blank ∨ s.f.headerLen = header.length ∧ s.f.cacheHeaders.filled ≠ 0 ∧
    ∃ k, s.Written header k (header.length + k)

/-- What it is like while a worker is at a line behind the mutex. -/
def SharedFile.Stage (header : List Byte) (s : SharedFile) : RacePhase → Prop
  | .send => s.Blank
  | .measure => s.Written header 0 0
  | .store => s.f.headerLen = header.length ∧ s.Written header 0 0
  | .decide | .copy => s.f.headerLen = header.length ∧ s.Written header 0 header.length
  | .count ret => s.f.headerLen = header.length ∧ s.Written header ret header.length
  | .check => s.f.headerLen = header.length ∧ ∃ k, s.Written header k (header.length + k)
  | _ => s.Idle header

/-- What a worker knows at a line, and its request. -/
def SharedFile.Knows (header : List Byte) (s : SharedFile) (r : CacheReq Unit) :
    RacePhase → Prop
  | .load => r.Untouched ∧ s.f.cacheHeaders.filled ≠ 0
  | .tee len => r.Untouched ∧ s.f.cacheHeaders.filled ≠ 0 ∧
      header.length ≤ len ∧ len ≤ s.f.cacheHeaders.data.length ∧ len ≠ 0
  | .compare ret | .adjust ret => s.f.cacheHeaders.filled ≠ 0 ∧ r.buf.filled = 0 ∧
      r.bytesOffset = 0 ∧ ∃ k ≤ s.f.buf.length,
        r.buf.data = header ++ s.f.buf.take k ∧ ret = header.length + k
  | .served => ∃ k ≤ s.f.buf.length, r.buf.data = header ++ s.f.buf.take k ∧ r.off = k
  | _ => r.Untouched

/-- The invariant: at most one worker is behind the mutex, which is held if there is
one; the header pipe is as the line of this worker says; and every worker knows
enough. -/
structure HeaderRace.Inv (header : List Byte) (first : PipeBuf) (s : HeaderRace ω) : Prop where
  head : s.f.cache.head? = some first
  chunk : first.data <+: s.f.buf
  held : ∀ w, (s.phase w).Locked → s.f.cacheHeaders.locked = true ∧
    s.Stage header (s.phase w) ∧ ∀ v, (s.phase v).Locked → v = w
  free : (∀ w, ¬ (s.phase w).Locked) → s.f.cacheHeaders.locked = false ∧ s.Idle header
  knows : ∀ w, s.Knows header (s.req w) (s.phase w)

/-- Before the first request: the header pipe is empty, the first chunk is in its
pipe, and every worker is in front of the first test. -/
structure HeaderRace.Start (first : PipeBuf) (s : HeaderRace ω) : Prop where
  head : s.f.cache.head? = some first
  chunk : first.data <+: s.f.buf
  blank : s.Blank
  free : s.f.cacheHeaders.locked = false
  start : ∀ w, s.phase w = .start
  untouched : ∀ w, (s.req w).Untouched

/-! ## What follows from a stage -/

/-- What everybody knows who has seen `filled` non-zero: the headers are in the pipe
and measured, and `filled` counts no more than the pipe holds. -/
def SharedFile.Seen (header : List Byte) (s : SharedFile) : Prop :=
  s.f.headerLen = header.length ∧ ∃ k ≤ s.f.buf.length,
    s.f.cacheHeaders.data = header ++ s.f.buf.take k ∧
      header.length ≤ s.f.cacheHeaders.filled ∧ s.f.cacheHeaders.filled ≤ header.length + k

section Shared

variable {header : List Byte} {s s' : SharedFile} {r : CacheReq Unit} {p : RacePhase} {k n : Nat}

theorem SharedFile.Written.seen (h : s.Written header k n) (hlen : s.f.headerLen = header.length)
    (hn : header.length ≤ n) (hk : n ≤ header.length + k) : s.Seen header :=
  ⟨hlen, k, h.le, h.data, h.filled ▸ hn, h.filled ▸ hk⟩

theorem SharedFile.Idle.facts (h : s.Idle header) :
    s.sends ≤ 1 ∧ (s.f.cacheHeaders.filled ≠ 0 → s.Seen header) := by
  rcases h with hblank | ⟨hlen, _, k, hwritten⟩
  · exact ⟨hblank.sends.le.trans zero_le_one, fun hne => absurd hblank.filled hne⟩
  · exact ⟨hwritten.sends.le, fun _ => hwritten.seen hlen (by omega) le_rfl⟩

/-- **Each stage** is consistent with what a reader may see. -/
theorem SharedFile.Stage.facts (h : s.Stage header p) :
    s.sends ≤ 1 ∧ (s.f.cacheHeaders.filled ≠ 0 → s.Seen header) := by
  cases p with
  | send =>
      have hblank : s.Blank := h
      exact ⟨hblank.sends.le.trans zero_le_one, fun hne => absurd hblank.filled hne⟩
  | measure =>
      have hwritten : s.Written header 0 0 := h
      exact ⟨hwritten.sends.le, fun hne => absurd hwritten.filled hne⟩
  | store =>
      obtain ⟨_, hwritten⟩ := h
      exact ⟨hwritten.sends.le, fun hne => absurd hwritten.filled hne⟩
  | decide =>
      obtain ⟨hlen, hwritten⟩ := h
      exact ⟨hwritten.sends.le, fun _ => hwritten.seen hlen le_rfl le_rfl⟩
  | copy =>
      obtain ⟨hlen, hwritten⟩ := h
      exact ⟨hwritten.sends.le, fun _ => hwritten.seen hlen le_rfl le_rfl⟩
  | count ret =>
      obtain ⟨hlen, hwritten⟩ := h
      exact ⟨hwritten.sends.le, fun _ => hwritten.seen hlen le_rfl (Nat.le_add_right _ ret)⟩
  | check =>
      obtain ⟨hlen, k, hwritten⟩ := h
      exact ⟨hwritten.sends.le, fun _ => hwritten.seen hlen (Nat.le_add_right _ k) le_rfl⟩
  | _ => exact SharedFile.Idle.facts h

/-! ## What a step leaves alone -/

/-- The header pipe after a step: what was published stays, and more may come. -/
structure SharedFile.Grows (s s' : SharedFile) : Prop where
  buf : s'.f.buf = s.f.buf
  cache : s'.f.cache = s.f.cache
  filled : s.f.cacheHeaders.filled ≠ 0 → s'.f.cacheHeaders.filled ≠ 0
  data : s.f.cacheHeaders.data.length ≤ s'.f.cacheHeaders.data.length

/-- **What a worker knows stays true.** -/
theorem SharedFile.Knows.grows (h : s.Knows header r p) (hgrows : s.Grows s') :
    s'.Knows header r p := by
  cases p with
  | load => exact ⟨h.1, hgrows.filled h.2⟩
  | tee len =>
      obtain ⟨hr, hne, hle, hdata, hlen⟩ := h
      exact ⟨hr, hgrows.filled hne, hle, hdata.trans hgrows.data, hlen⟩
  | compare ret =>
      obtain ⟨hne, hrest⟩ := h
      refine ⟨hgrows.filled hne, ?_⟩
      rw [hgrows.buf]
      exact hrest
  | adjust ret =>
      obtain ⟨hne, hrest⟩ := h
      refine ⟨hgrows.filled hne, ?_⟩
      rw [hgrows.buf]
      exact hrest
  | served =>
      unfold SharedFile.Knows
      rw [hgrows.buf]
      exact h
  | _ => exact h

/-- Behind the mutex nothing has happened to the request. -/
theorem SharedFile.knows_locked (hp : p.Locked) : s.Knows header r p ↔ r.Untouched := by
  cases p with
  | load => exact hp.elim
  | tee len => exact hp.elim
  | compare ret => exact hp.elim
  | adjust ret => exact hp.elim
  | served => exact hp.elim
  | _ => exact Iff.rfl

/-- Only the mutex has changed. -/
structure SharedFile.Relocked (s s' : SharedFile) : Prop where
  buf : s'.f.buf = s.f.buf
  cache : s'.f.cache = s.f.cache
  len : s'.f.headerLen = s.f.headerLen
  filled : s'.f.cacheHeaders.filled = s.f.cacheHeaders.filled
  data : s'.f.cacheHeaders.data = s.f.cacheHeaders.data
  sends : s'.sends = s.sends

theorem SharedFile.Relocked.idle (h : s.Relocked s') (hidle : s.Idle header) :
    s'.Idle header := by
  rcases hidle with hblank | ⟨hlen, hne, k, hwritten⟩
  · exact .inl ⟨h.data.trans hblank.data, h.filled.trans hblank.filled,
      h.sends.trans hblank.sends⟩
  · refine .inr ⟨h.len.trans hlen, h.filled ▸ hne, k, h.buf ▸ hwritten.le, ?_,
      h.filled.trans hwritten.filled, h.sends.trans hwritten.sends⟩
    rw [h.data, h.buf]
    exact hwritten.data

theorem SharedFile.Relocked.grows (h : s.Relocked s') : s.Grows s' :=
  ⟨h.buf, h.cache, fun hne => h.filled ▸ hne, h.data ▸ le_rfl⟩

end Shared

variable {header : List Byte} {first : PipeBuf} {s s' : HeaderRace ω} {r : CacheReq Unit}
  {p : RacePhase} {w : ω}

theorem HeaderRace.Inv.facts (h : s.Inv header first) :
    s.sends ≤ 1 ∧ (s.f.cacheHeaders.filled ≠ 0 → s.Seen header) := by
  by_cases hlocked : ∃ w, (s.phase w).Locked
  · obtain ⟨w, hw⟩ := hlocked
    exact (h.held w hw).2.1.facts
  · exact (h.free fun w hw => hlocked ⟨w, hw⟩).2.facts

/-- What the worker behind the mutex knows of the pipe. -/
theorem HeaderRace.Inv.stage (h : s.Inv header first) (hphase : s.phase w = p) (hp : p.Locked) :
    s.Stage header p := by
  rw [← hphase]
  exact (h.held w (hphase ▸ hp)).2.1

variable [DecidableEq ω]

/-- **A step in front of the mutex or behind it** changes one worker. -/
theorem HeaderRace.Inv.move (h : s.Inv header first) (hfrom : ¬ (s.phase w).Locked)
    (hto : ¬ p.Locked) (hknows : s.Knows header r p) :
    HeaderRace.Inv header first
      { s with phase := Function.update s.phase w p, req := Function.update s.req w r } := by
  have hlocked : ∀ v, (Function.update s.phase w p v).Locked ↔ (s.phase v).Locked := by
    intro v
    by_cases hv : v = w
    · rw [hv, Function.update_self]
      exact iff_of_false hto hfrom
    · rw [Function.update_of_ne hv]
  refine ⟨h.head, h.chunk, ?_, ?_, ?_⟩
  · intro v hv
    have hne : v ≠ w := by
      intro heq
      rw [heq] at hv
      exact hfrom ((hlocked w).1 hv)
    obtain ⟨hmutex, hstage, honly⟩ := h.held v ((hlocked v).1 hv)
    dsimp only
    rw [Function.update_of_ne hne]
    exact ⟨hmutex, hstage, fun u hu => honly u ((hlocked u).1 hu)⟩
  · intro hnone
    exact h.free fun v hv => hnone v ((hlocked v).2 hv)
  · intro v
    dsimp only
    by_cases hv : v = w
    · rw [hv, Function.update_self, Function.update_self]
      exact hknows
    · rw [Function.update_of_ne hv, Function.update_of_ne hv]
      exact h.knows v

/-- **A step of the worker that holds the mutex.** -/
theorem HeaderRace.Inv.hold (h : s.Inv header first) (hfrom : (s.phase w).Locked) (hto : p.Locked)
    (hphase : s'.phase = Function.update s.phase w p) (hreq : s'.req = s.req)
    (hmutex : s'.f.cacheHeaders.locked = s.f.cacheHeaders.locked) (hgrows : s.Grows s'.toSharedFile)
    (hstage : s'.Stage header p) : s'.Inv header first := by
  obtain ⟨hheld, _, honly⟩ := h.held w hfrom
  have hlocked : ∀ v, (s'.phase v).Locked → v = w := by
    intro v hv
    rw [hphase] at hv
    by_contra hne
    rw [Function.update_of_ne hne] at hv
    exact hne (honly v hv)
  have hself : s'.phase w = p := by
    rw [hphase, Function.update_self]
  refine ⟨hgrows.cache ▸ h.head, hgrows.buf ▸ h.chunk, ?_, ?_, ?_⟩
  · intro v hv
    have heq := hlocked v hv
    rw [heq, hself]
    exact ⟨hmutex.trans hheld, hstage, hlocked⟩
  · intro hnone
    exact absurd (hself ▸ hto) (hnone w)
  · intro v
    rw [hreq]
    by_cases hv : v = w
    · rw [hv, hself, SharedFile.knows_locked hto]
      exact (SharedFile.knows_locked hfrom).1 (h.knows w)
    · have hsame : s'.phase v = s.phase v := by
        rw [hphase, Function.update_of_ne hv]
      rw [hsame]
      exact (h.knows v).grows hgrows

/-- **The mutex** changes hands: the worker is the only one behind it afterwards, if
anybody is. -/
theorem HeaderRace.Inv.relock (h : s.Inv header first) {locked : Bool}
    (hidle : s.Idle header) (honly : ∀ v, (s.phase v).Locked → v = w)
    (hto : p.Locked ↔ locked = true)
    (hstage : ∀ s' : SharedFile, s'.Idle header → s'.Stage header p)
    (hknows : s.Knows header (s.req w) p) :
    HeaderRace.Inv header first
      (s.write w { s.f.cacheHeaders with locked := locked } p) := by
  have hshared : s.Relocked (s.write w { s.f.cacheHeaders with locked := locked } p).toSharedFile :=
    ⟨rfl, rfl, rfl, rfl, rfl, rfl⟩
  have hself : (s.write w { s.f.cacheHeaders with locked := locked } p).phase w = p := by
    rw [HeaderRace.write_phase, Function.update_self]
  have hother : ∀ v, v ≠ w →
      (s.write w { s.f.cacheHeaders with locked := locked } p).phase v = s.phase v := by
    intro v hv
    rw [HeaderRace.write_phase, Function.update_of_ne hv]
  have hlast : ∀ v, ((s.write w { s.f.cacheHeaders with locked := locked } p).phase v).Locked →
      v = w := by
    intro v hv
    by_contra hne
    rw [hother v hne] at hv
    exact hne (honly v hv)
  refine ⟨h.head, h.chunk, ?_, ?_, ?_⟩
  · intro v hv
    have heq := hlast v hv
    rw [heq, hself] at hv ⊢
    exact ⟨hto.1 hv, hstage _ (hshared.idle hidle), hlast⟩
  · intro hnone
    have hfree := hnone w
    rw [hself, hto, Bool.not_eq_true] at hfree
    exact ⟨hfree, hshared.idle hidle⟩
  · intro v
    by_cases hv : v = w
    · rw [hv, hself]
      exact hknows.grows hshared.grows
    · rw [hother v hv]
      exact (h.knows v).grows hshared.grows

/-- A worker goes on, and nothing else happens. -/
theorem HeaderRace.Inv.goto (h : s.Inv header first) (hfrom : ¬ (s.phase w).Locked)
    (hto : ¬ p.Locked) (hknows : s.Knows header (s.req w) p) :
    (s.goto w p).Inv header first := by
  have hmove := h.move hfrom hto hknows
  rw [Function.update_eq_self] at hmove
  exact hmove

/-- The worker behind the mutex goes on, and nothing else happens. -/
theorem HeaderRace.Inv.stay (h : s.Inv header first) (hfrom : (s.phase w).Locked) (hto : p.Locked)
    (hstage : s.Stage header p) : (s.goto w p).Inv header first :=
  h.hold hfrom hto rfl rfl rfl ⟨rfl, rfl, id, le_rfl⟩ hstage

/-! ## The steps of the filler -/

/-- **The headers** are written. -/
theorem HeaderRace.Inv.send (h : s.Inv header first) (hphase : s.phase w = .send) :
    HeaderRace.Inv header first { s.write w { s.f.cacheHeaders with
      data := s.f.cacheHeaders.data ++ header } .measure with sends := s.sends + 1 } := by
  have hblank : s.Blank := h.stage hphase trivial
  refine h.hold (p := .measure) (hphase ▸ trivial) trivial rfl rfl rfl ⟨rfl, rfl, id, ?_⟩
    ⟨Nat.zero_le _, ?_, hblank.filled, ?_⟩
  · show _ ≤ (s.f.cacheHeaders.data ++ header).length
    rw [List.length_append]
    exact Nat.le_add_right _ _
  · show s.f.cacheHeaders.data ++ header = header ++ s.f.buf.take 0
    rw [hblank.data, List.take_zero, List.nil_append, List.append_nil]
  · show s.sends + 1 = 1
    rw [hblank.sends]

/-- **Their length** is measured. -/
theorem HeaderRace.Inv.measure (h : s.Inv header first) (hphase : s.phase w = .measure) :
    HeaderRace.Inv header first { s.goto w .store with
      f := { s.f with headerLen := s.f.cacheHeaders.data.length } } := by
  have hwritten : s.Written header 0 0 := h.stage hphase trivial
  have hlen : s.f.cacheHeaders.data.length = header.length := by
    rw [hwritten.data, List.take_zero, List.append_nil]
  exact h.hold (p := .store) (hphase ▸ trivial) trivial rfl rfl rfl ⟨rfl, rfl, id, le_rfl⟩
    ⟨hlen, hwritten.le, hwritten.data, hwritten.filled, hwritten.sends⟩

/-- **They are published**, all at once. -/
theorem HeaderRace.Inv.store (h : s.Inv header first) (hphase : s.phase w = .store) :
    HeaderRace.Inv header first
      (s.write w { s.f.cacheHeaders with filled := s.f.headerLen } .decide) := by
  obtain ⟨hlen, hwritten⟩ : s.f.headerLen = header.length ∧ s.Written header 0 0 :=
    h.stage hphase trivial
  exact h.hold (p := .decide) (hphase ▸ trivial) trivial rfl rfl rfl
    ⟨rfl, rfl, fun hne => absurd hwritten.filled hne, le_rfl⟩
    ⟨hlen, hwritten.le, hwritten.data, hlen, hwritten.sends⟩

/-- **The first chunk** is copied behind them. -/
theorem HeaderRace.Inv.copy (h : s.Inv header first) (hphase : s.phase w = .copy) {x : Xfer}
    {ret : Nat} {pipe : PipeBuf} {len : Nat}
    (htee : MonkeyCache.tee x first s.f.cacheHeaders len = .ok (ret, pipe)) :
    (s.write w pipe (.count ret)).Inv header first := by
  obtain ⟨hlen, hwritten⟩ : s.f.headerLen = header.length ∧ s.Written header 0 header.length :=
    h.stage hphase trivial
  obtain ⟨_, _, hret, _, rfl⟩ := tee_ok htee
  have hchunk : first.data.take ret = s.f.buf.take ret := by
    obtain ⟨rest, hrest⟩ := h.chunk
    rw [← hrest, List.take_append_of_le_length hret]
  have hle : ret ≤ s.f.buf.length := hret.trans h.chunk.length_le
  refine h.hold (p := .count ret) (hphase ▸ trivial) trivial rfl rfl rfl ⟨rfl, rfl, id, ?_⟩
    ⟨hlen, hle, ?_, hwritten.filled, hwritten.sends⟩
  · show _ ≤ (s.f.cacheHeaders.data ++ first.data.take ret).length
    rw [List.length_append]
    exact Nat.le_add_right _ _
  · show s.f.cacheHeaders.data ++ first.data.take ret = header ++ s.f.buf.take ret
    rw [hwritten.data, hchunk, List.take_zero, List.append_nil]

/-- **It is published** as well. -/
theorem HeaderRace.Inv.count (h : s.Inv header first) {ret : Nat}
    (hphase : s.phase w = .count ret) :
    HeaderRace.Inv header first (s.write w { s.f.cacheHeaders with
      filled := s.f.cacheHeaders.filled + ret } .check) := by
  obtain ⟨hlen, hwritten⟩ : s.f.headerLen = header.length ∧ s.Written header ret header.length :=
    h.stage hphase trivial
  refine h.hold (p := .check) (hphase ▸ trivial) trivial rfl rfl rfl ⟨rfl, rfl, ?_, le_rfl⟩
    ⟨hlen, ret, hwritten.le, hwritten.data, ?_, hwritten.sends⟩
  · intro hne
    exact Nat.ne_of_gt (Nat.lt_of_lt_of_le (Nat.pos_of_ne_zero hne) (Nat.le_add_right _ ret))
  · show s.f.cacheHeaders.filled + ret = header.length + ret
    rw [hwritten.filled]

/-! ## The steps of a reader -/

/-- **The header pipe is read**: the headers come whole. -/
theorem HeaderRace.Inv.tee (h : s.Inv header first) {len : Nat} (hphase : s.phase w = .tee len) :
    s.f.cacheHeaders.data.take len ≠ [] ∧
    HeaderRace.Inv header first { s.goto w (.compare (s.f.cacheHeaders.data.take len).length) with
      req := Function.update s.req w { s.req w with buf := { (s.req w).buf with
        data := (s.req w).buf.data ++ s.f.cacheHeaders.data.take len } } } := by
  obtain ⟨huntouched, hne, hheader, hdata, hlen⟩ :
      s.Knows header (s.req w) (.tee len) := hphase ▸ h.knows w
  obtain ⟨_, k, hk, hpipe, _, _⟩ := h.facts.2 hne
  have hgot : (s.f.cacheHeaders.data.take len).length = len := List.length_take_of_le hdata
  have hbuf : (s.f.buf.take k).length = k := List.length_take_of_le hk
  rw [hpipe, List.length_append, hbuf] at hdata
  have htake : s.f.cacheHeaders.data.take len =
      header ++ s.f.buf.take (len - header.length) := by
    rw [hpipe, List.take_append, List.take_of_length_le hheader, List.take_take,
      min_eq_left (by omega)]
  constructor
  · intro hnil
    rw [hnil, List.length_nil] at hgot
    exact hlen hgot.symm
  · refine h.move (hphase ▸ id) id ⟨hne, huntouched.filled, huntouched.offset,
      len - header.length, by omega, ?_, by omega⟩
    show (s.req w).buf.data ++ _ = _
    rw [huntouched.data, List.nil_append]
    exact htake

/-- **The counters** of the request say how much of the file is on its way. -/
theorem HeaderRace.Inv.adjust (h : s.Inv header first) {ret : Nat}
    (hphase : s.phase w = .adjust ret) :
    HeaderRace.Inv header first { s.goto w .served with
      req := Function.update s.req w { s.req w with
        buf := { (s.req w).buf with filled := (s.req w).buf.filled + ret }
        bytesOffset := (s.req w).bytesOffset - s.f.headerLen
        bytesToSend := (s.req w).bytesToSend + s.f.headerLen
        viaCache := true } } := by
  obtain ⟨hne, hfilled, hoffset, k, hk, hdata, hret⟩ :
      s.Knows header (s.req w) (.adjust ret) := hphase ▸ h.knows w
  have hlen := (h.facts.2 hne).1
  refine h.move (hphase ▸ id) id ⟨k, hk, hdata, ?_⟩
  show (s.req w).bytesOffset - s.f.headerLen + ((s.req w).buf.filled + ret : Nat) = (k : Int)
  omega

/-! ## Steps -/

/-- **Step lemma.**  A step keeps the invariant; a worker that reads never fails, and
nobody finds the headers too short. -/
theorem HeaderRace.Inv.step (h : s.Inv header first) (e : RaceEvent ω) :
    Ensures (s.step header e) (fun out => out.2.Inv header first)
      (fun err => ¬ (s.phase e.worker).Reading ∧ err ≠ .headersShort) := by
  obtain ⟨w, x, keep⟩ := e
  have hknows := h.knows w
  unfold HeaderRace.step
  dsimp only
  cases hphase : s.phase w with
  | start =>
      rw [hphase] at hknows
      dsimp only
      split
      · exact h.goto (hphase ▸ id) id hknows
      · exact h.goto (hphase ▸ id) id hknows
  | lock =>
      rw [hphase] at hknows
      dsimp only
      by_cases hmutex : s.f.cacheHeaders.locked = true
      · rw [if_pos hmutex]
        exact h.goto (hphase ▸ id) id hknows
      · rw [if_neg hmutex]
        have hnone : ∀ v, ¬ (s.phase v).Locked := fun v hv => hmutex (h.held v hv).1
        exact h.relock (h.free hnone).2 (fun v hv => absurd hv (hnone v)) (iff_of_true trivial rfl)
          (fun _ hidle => hidle) hknows
  | test =>
      have hidle : s.Idle header := h.stage hphase trivial
      dsimp only
      split
      · rename_i hzero
        refine h.stay (hphase ▸ trivial) trivial ?_
        rcases hidle with hblank | ⟨_, hne, _⟩
        · exact hblank
        · exact absurd hzero hne
      · exact h.stay (hphase ▸ trivial) trivial hidle
  | send => exact h.send hphase
  | measure => exact h.measure hphase
  | store => exact h.store hphase
  | decide =>
      obtain ⟨hlen, hwritten⟩ : s.f.headerLen = header.length ∧ s.Written header 0 header.length :=
        h.stage hphase trivial
      dsimp only
      rw [h.head]
      dsimp only
      split
      · exact h.stay (hphase ▸ trivial) trivial ⟨hlen, hwritten⟩
      · exact h.stay (hphase ▸ trivial) trivial ⟨hlen, 0, hwritten⟩
  | copy =>
      dsimp only
      rw [h.head]
      dsimp only
      cases htee : MonkeyCache.tee x first s.f.cacheHeaders first.filled with
      | error err => exact ⟨id, nofun⟩
      | ok out => exact h.copy hphase htee
  | count ret => exact h.count hphase
  | check =>
      obtain ⟨hlen, hdone⟩ : s.f.headerLen = header.length ∧
          ∃ k, s.Written header k (header.length + k) := h.stage hphase trivial
      dsimp only
      refine Ensures.guard (fun _ => ⟨id, nofun⟩) ?_
      intro hne
      exact h.stay (hphase ▸ trivial) trivial (.inr ⟨hlen, hne, hdone⟩)
  | unlock =>
      rw [hphase] at hknows
      exact h.relock (h.stage hphase trivial) (h.held w (hphase ▸ trivial)).2.2
        (iff_of_false id Bool.false_ne_true) (fun _ hidle => hidle) hknows
  | choose =>
      rw [hphase] at hknows
      dsimp only
      split
      · exact h.goto (hphase ▸ id) id hknows
      · rename_i hsome
        exact h.goto (hphase ▸ id) id ⟨hknows, fun hzero => hsome (.inl hzero)⟩
  | load =>
      rw [hphase] at hknows
      obtain ⟨huntouched, hne⟩ := hknows
      obtain ⟨_, k, hk, hpipe, hle, hmost⟩ := h.facts.2 hne
      refine h.goto (hphase ▸ id) id ⟨huntouched, hne, hle, ?_, hne⟩
      rw [hpipe, List.length_append, List.length_take_of_le hk]
      exact hmost
  | tee len =>
      obtain ⟨hsome, hinv⟩ := h.tee hphase
      dsimp only
      rw [if_neg hsome]
      exact hinv
  | compare ret =>
      rw [hphase] at hknows
      obtain ⟨hne, hfilled, hoffset, k, hk, hdata, hret⟩ := hknows
      have hlen := (h.facts.2 hne).1
      dsimp only
      rw [if_neg (by omega)]
      exact h.goto (hphase ▸ id) id ⟨hne, hfilled, hoffset, k, hk, hdata, hret⟩
  | adjust ret => exact h.adjust hphase
  | served => exact h
  | direct => exact h

/-- No step writes to the file. -/
theorem HeaderRace.step_buf (s : HeaderRace ω) (e : RaceEvent ω) :
    Ensures (s.step header e) (fun out => out.2.f.buf = s.f.buf) (fun _ => True) := by
  unfold HeaderRace.step
  dsimp only
  cases s.phase e.worker with
  | lock =>
      dsimp only
      exact Ensures.ite (fun _ => rfl) (fun _ => rfl)
  | decide =>
      dsimp only
      cases s.f.cache.head? with
      | none => trivial
      | some first => rfl
  | copy =>
      dsimp only
      cases s.f.cache.head? with
      | none => trivial
      | some first =>
          dsimp only
          cases MonkeyCache.tee e.x first s.f.cacheHeaders first.filled with
          | error err => trivial
          | ok out => rfl
  | check => exact Ensures.guard (fun _ => trivial) (fun _ => rfl)
  | tee len => exact Ensures.guard (fun _ => trivial) (fun _ => rfl)
  | compare ret => exact Ensures.guard (fun _ => trivial) (fun _ => rfl)
  | _ => rfl

omit [DecidableEq ω] in
theorem HeaderRace.Start.inv (h : s.Start first) (header : List Byte) : s.Inv header first where
  head := h.head
  chunk := h.chunk
  held w hw := by
    rw [h.start w] at hw
    exact hw.elim
  free _ := ⟨h.free, .inl h.blank⟩
  knows w := by
    rw [h.start w]
    exact h.untouched w

/-- **Whole headers.**  However the steps of the workers are ordered, the headers are
written into the header pipe at most once; a request that was served from it got the
whole headers and a prefix of the file, and its offset is the length of this prefix;
a worker that has found `filled` non-zero never fails, and the headers are never too
short. -/
theorem headers_whole {s₀ : HeaderRace ω} (hstart : s₀.Start first)
    (hrun : Reachable (stepRel (HeaderRace.step header)) s₀ s) :
    s.sends ≤ 1 ∧
    (∀ w, s.phase w = .served → ∃ k ≤ s₀.f.buf.length,
      (s.req w).buf.data = header ++ s₀.f.buf.take k ∧ (s.req w).off = k) ∧
    (∀ e, s.step header e ≠ .error .headersShort) ∧
    ∀ e err, (s.phase e.worker).Reading → s.step header e ≠ .error err := by
  have hinv : s.Inv header first ∧ s.f.buf = s₀.f.buf := by
    refine hrun.invariant (fun s => s.Inv header first ∧ s.f.buf = s₀.f.buf)
      ⟨hstart.inv header, rfl⟩ ?_
    intro s e s' _ hs hstep
    obtain ⟨_, hok⟩ := hstep
    exact ⟨(hs.1.step e).of_ok hok, ((s.step_buf e).of_ok hok).trans hs.2⟩
  obtain ⟨hinv, hbuf⟩ := hinv
  refine ⟨hinv.facts.1, ?_, ?_, ?_⟩
  · intro w hw
    have hknows := hinv.knows w
    rw [hw] at hknows
    rw [← hbuf]
    exact hknows
  · intro e herr
    exact ((hinv.step e).of_error herr).2 rfl
  · intro e err hreading herr
    exact ((hinv.step e).of_error herr).1 hreading

/-- A file of two bytes, which are in its first pipe. -/
def raceFile : CacheFile where
  fd := 3
  buf := [1, 2]
  size := 2
  uri := ['/', 'a']
  cache := [{ pipe := 1, data := [1, 2], filled := 2, cap := 4, locked := false }]
  cacheHeaders := .fresh 4 0
  evictable := true
  lastAccessed := ⟨0, 0⟩
  headerLen := 0
  zombie := false
  pendingReqs := 2

/-- Two workers in front of the first test. -/
def raceStart : HeaderRace Bool where
  f := raceFile
  sends := 0
  phase _ := .start
  req _ := {
    socket := 5
    file := ()
    curr := some 0
    bytesOffset := 0
    bytesToSend := 2
    buf := .fresh 4 2
    sent := []
    viaCache := false }

theorem raceStart_start :
    raceStart.Start { pipe := 1, data := [1, 2], filled := 2, cap := 4, locked := false } where
  head := rfl
  chunk := List.prefix_rfl
  blank := ⟨rfl, rfl, rfl⟩
  free := rfl
  start _ := rfl
  untouched _ := ⟨rfl, rfl, rfl⟩

/-- The second worker reads between the two stores to `filled` and gets the headers
alone; the first one gets the file behind them. -/
theorem headers_whole_sample :
    ∃ s : HeaderRace Bool, s.phase true = .served ∧ (s.req true).buf.data = [9] ∧
      s.phase false = .served ∧ (s.req false).buf.data = [9, 1, 2] ∧ s.sends ≤ 1 := by
  have hrun : Reachable (guarded (fun _ _ => True) (stepRel (HeaderRace.step [9]))) raceStart _ :=
    .of_exec (List.replicate 6 ⟨false, .all, true⟩ ++ List.replicate 6 ⟨true, .all, true⟩ ++
      List.replicate 10 ⟨false, .all, true⟩) (fun _ _ _ => trivial) rfl
  have hplain : Reachable (stepRel (HeaderRace.step [9])) raceStart _ :=
    hrun.mono fun _ _ _ hstep => hstep.2
  exact ⟨_, rfl, rfl, rfl, rfl, (headers_whole raceStart_start hplain).1⟩

/-! ## A worker on its own -/

/-- After `filled = header_len`, with the mutex held since. -/
def HeaderRace.published (header : List Byte) (s : HeaderRace ω) (w : ω) : HeaderRace ω where
  f := { s.f with
    cacheHeaders := { s.f.cacheHeaders with
      locked := true
      data := s.f.cacheHeaders.data ++ header
      filled := (s.f.cacheHeaders.data ++ header).length }
    headerLen := (s.f.cacheHeaders.data ++ header).length }
  sends := s.sends + 1
  phase := Function.update s.phase w .decide
  req := s.req

/-- Six steps from the first test to the length. -/
theorem alone_publishes {e : RaceEvent ω} (hphase : s.phase e.worker = .start)
    (hfree : s.f.cacheHeaders.locked = false) (hzero : s.f.cacheHeaders.filled = 0) :
    exec (HeaderRace.step header) s [e, e, e, e, e, e] = .ok (s.published header e.worker) := by
  simp [exec, HeaderRace.step, HeaderRace.goto, HeaderRace.write, HeaderRace.published, hphase,
    hfree, hzero]

/-- The runs of one worker. -/
def AloneRuns (header : List Byte) (w : ω) (s s' : HeaderRace ω) : Prop :=
  Reachable (guarded (fun _ e => e.worker = w) (stepRel (HeaderRace.step header))) s s'

/-- Three more steps where the first chunk is not copied. -/
theorem alone_skips {e : RaceEvent ω} {first : PipeBuf} (hhead : s.f.cache.head? = some first)
    (hcond : ¬ ((first.filled : Int) < (s.f.cacheHeaders.cap : Int) -
      ((s.f.cacheHeaders.data ++ header).length : Nat) ∧ first.filled ≠ 0))
    (hne : (s.f.cacheHeaders.data ++ header).length ≠ 0) :
    ∃ s', exec (HeaderRace.step header) (s.published header e.worker) [e, e, e] = .ok s' ∧
      s'.f = { s.f with
        cacheHeaders := { s.f.cacheHeaders with
          data := s.f.cacheHeaders.data ++ header
          filled := (s.f.cacheHeaders.data ++ header).length
          locked := false }
        headerLen := (s.f.cacheHeaders.data ++ header).length } ∧
      s'.phase e.worker = .choose := by
  simp only [exec, HeaderRace.step, HeaderRace.goto, HeaderRace.write, HeaderRace.published, hhead,
    Function.update_self, eq_false hcond, ↓reduceIte, if_neg hne]
  exact ⟨_, rfl, rfl, Function.update_self ..⟩

/-- Five more steps where `ret` bytes of it are. -/
theorem alone_copies {e : RaceEvent ω} {first : PipeBuf} {ret : Nat}
    (hhead : s.f.cache.head? = some first)
    (hcond : (first.filled : Int) < (s.f.cacheHeaders.cap : Int) -
      ((s.f.cacheHeaders.data ++ header).length : Nat) ∧ first.filled ≠ 0)
    (hcount : e.x.count (min (min first.filled first.data.length)
      (s.f.cacheHeaders.cap - (s.f.cacheHeaders.data ++ header).length)) = .ok ret)
    (hne : (s.f.cacheHeaders.data ++ header).length + ret ≠ 0) :
    ∃ s', exec (HeaderRace.step header) (s.published header e.worker) [e, e, e, e, e] = .ok s' ∧
      s'.f = { s.f with
        cacheHeaders := { s.f.cacheHeaders with
          data := s.f.cacheHeaders.data ++ header ++ first.data.take ret
          filled := (s.f.cacheHeaders.data ++ header).length + ret
          locked := false }
        headerLen := (s.f.cacheHeaders.data ++ header).length } ∧
      s'.phase e.worker = .choose := by
  simp only [exec, HeaderRace.step, HeaderRace.goto, HeaderRace.write, HeaderRace.published,
    MonkeyCache.tee, hhead, Function.update_self, eq_true hcond, ↓reduceIte, hcount, if_neg hne]
  exact ⟨_, rfl, rfl, Function.update_self ..⟩

/-- **`fill_cache_headers`** is what a worker does from the first test on when nobody
else takes a step. -/
theorem alone_fills {x : Xfer} {f' : CacheFile} (hphase : s.phase w = .start)
    (hfree : s.f.cacheHeaders.locked = false) (hzero : s.f.cacheHeaders.filled = 0)
    (hroom : header.length ≤ s.f.cacheHeaders.cap - s.f.cacheHeaders.data.length)
    (hfill : fillCacheHeaders s.f header x = .ok f') :
    ∃ s', AloneRuns header w s s' ∧ s'.f = f' ∧ s'.phase w = .choose := by
  obtain ⟨e, rfl, rfl⟩ : ∃ e : RaceEvent ω, e.worker = w ∧ e.x = x := ⟨⟨w, x, true⟩, rfl, rfl⟩
  have hpublish : AloneRuns header e.worker s (s.published header e.worker) :=
    .of_exec [e, e, e, e, e, e] (by simp) (alone_publishes hphase hfree hzero)
  unfold fillCacheHeaders fillLeftover at hfill
  rw [if_neg (by simp [hfree, hzero])] at hfill
  dsimp only at hfill
  rw [List.take_of_length_le hroom] at hfill
  cases hhead : s.f.cache.head? with
  | none =>
      rw [hhead] at hfill
      cases hfill
  | some first =>
      rw [hhead] at hfill
      dsimp only at hfill
      by_cases hcond : (first.filled : Int) < (s.f.cacheHeaders.cap : Int) -
          ((s.f.cacheHeaders.data ++ header).length : Nat) ∧ first.filled ≠ 0
      · rw [if_pos hcond] at hfill
        unfold MonkeyCache.tee at hfill
        dsimp only at hfill
        cases hcount : e.x.count (min (min first.filled first.data.length)
            (s.f.cacheHeaders.cap - (s.f.cacheHeaders.data ++ header).length)) with
        | error err =>
            rw [hcount] at hfill
            cases hfill
        | ok ret =>
            rw [hcount] at hfill
            dsimp only [bind, Except.bind] at hfill
            split at hfill
            · cases hfill
            · rename_i hne
              rw [hfree] at hfill
              obtain ⟨s', hexec, hfile, hdone⟩ := alone_copies hhead hcond hcount hne
              exact ⟨s', hpublish.trans (.of_exec [e, e, e, e, e] (by simp) hexec),
                hfile.trans (Except.ok.inj hfill), hdone⟩
      · rw [if_neg hcond] at hfill
        dsimp only [bind, Except.bind] at hfill
        split at hfill
        · cases hfill
        · rename_i hne
          rw [hfree] at hfill
          obtain ⟨s', hexec, hfile, hdone⟩ := alone_skips hhead hcond hne
          exact ⟨s', hpublish.trans (.of_exec [e, e, e] (by simp) hexec),
            hfile.trans (Except.ok.inj hfill), hdone⟩

/-- **`serve_cache_headers`** is what a worker does that reads on its own, where its
private pipe is empty and has room for the header pipe. -/
theorem alone_serves {r' : CacheReq Unit} (hphase : s.phase w = .load)
    (hempty : (s.req w).buf.data = [])
    (hroom : s.f.cacheHeaders.data.length ≤ (s.req w).buf.cap)
    (hserve : serveCacheHeaders s.f (s.req w) .all = .ok r') :
    ∃ s', AloneRuns header w s s' ∧ s'.f = s.f ∧ s'.req w = r' ∧ s'.phase w = .served := by
  obtain ⟨e, rfl⟩ : ∃ e : RaceEvent ω, e.worker = w := ⟨⟨w, .all, true⟩, rfl⟩
  unfold serveCacheHeaders MonkeyCache.tee at hserve
  have hmin : min (min s.f.cacheHeaders.filled s.f.cacheHeaders.data.length)
      ((s.req e.worker).buf.cap - (s.req e.worker).buf.data.length) =
      (s.f.cacheHeaders.data.take s.f.cacheHeaders.filled).length := by
    rw [hempty, List.length_nil, List.length_take]
    omega
  rw [hmin] at hserve
  unfold Xfer.count at hserve
  dsimp only at hserve
  by_cases hnone : (s.f.cacheHeaders.data.take s.f.cacheHeaders.filled).length = 0
  · rw [if_pos hnone] at hserve
    cases hserve
  · have hgot : s.f.cacheHeaders.data.take s.f.cacheHeaders.filled ≠ [] :=
      fun hnil => hnone (List.length_eq_zero_iff.2 hnil)
    have htake : s.f.cacheHeaders.data.take
        (s.f.cacheHeaders.data.take s.f.cacheHeaders.filled).length =
        s.f.cacheHeaders.data.take s.f.cacheHeaders.filled := by
      rw [List.length_take]
      exact List.take_eq_take_min.symm
    rw [if_neg hnone] at hserve
    dsimp only at hserve
    rw [htake] at hserve
    split at hserve
    · cases hserve
    · rename_i hlong
      obtain ⟨s', hexec, hfile, hreq, hdone⟩ : ∃ s',
          exec (HeaderRace.step header) s [e, e, e, e] = .ok s' ∧ s'.f = s.f ∧
            s'.req e.worker = r' ∧ s'.phase e.worker = .served := by
        simp only [exec, HeaderRace.step, HeaderRace.goto, hphase, Function.update_self,
          if_neg hgot, if_neg hlong]
        exact ⟨_, rfl, rfl, (Function.update_self ..).trans (Except.ok.inj hserve),
          Function.update_self ..⟩
      exact ⟨s', .of_exec [e, e, e, e] (by simp) hexec, hfile, hreq, hdone⟩

end MonkeyCache
