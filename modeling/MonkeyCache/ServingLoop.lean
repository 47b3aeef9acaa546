import MonkeyCache.Serving

/-!
# The invariant of the serving loop

`FileOk` and `ReqOk` are what holds of a cached file and of a request whatever
the kernel answers to `tee` and `splice`: the counters are right, the request's
offset stays inside the file, and only requests at offset 0 ever fill the first
pipe of the chain.  `FileExact` and `ReqExact` say which bytes the pipes and the
socket hold; they need a `tee` into an empty pipe to copy everything (`full`).

`socketServeReqSplice_keeps` carries both through a call of
`socket_serve_req_splice`: no check in it fires, the loop ends, and the value it
returns tells whether something is left to send.
-/

namespace MonkeyCache

open Fallible Chunks

variable {ι : Type} {c : Nat} {f f' : CacheFile} {r : CacheReq ι}

/-! ## What holds under any kernel -/

/-- The first pipe of the chain holds all that it can hold. -/
def CacheFile.FirstFull (c : Nat) (f : CacheFile) : Prop :=
  ∃ p, f.cache[0]? = some p ∧ p.filled = min c f.size

/-- A cached file between two calls.  Some of the file may have travelled into
the header pipe; then the file is shorter than one pipe and its only pipe is
filled. -/
structure FileOk (c : Nat) (f : CacheFile) : Prop where
  pos : 0 < f.size
  mapped : f.buf.length = f.size
  chain : f.cache.length = count c f.size
  pipes : ∀ p ∈ f.cache, PipeOk c p
  first : ∀ p, f.cache[0]? = some p → p.filled = 0 ∨ p.filled = min c f.size
  headers : PipeOk c f.cacheHeaders
  headerLen_le : f.headerLen ≤ f.cacheHeaders.filled
  carried : f.headerLen < f.cacheHeaders.filled →
    f.cacheHeaders.filled ≤ f.headerLen + f.size ∧ f.size < c ∧ f.FirstFull c

/-- A cached file has a first pipe. -/
theorem FileOk.exists_first (hf : FileOk c f) (hc : 0 < c) : ∃ p, f.cache[0]? = some p := by
  have hpos := count_pos hc hf.pos
  have hchain := hf.chain
  exact ⟨_, List.getElem?_eq_getElem (by omega)⟩

/-- A request on `f` between two calls. -/
structure ReqOk (c : Nat) (f : CacheFile) (r : CacheReq ι) : Prop where
  sum : r.bytesOffset + r.bytesToSend = f.size
  off_nonneg : 0 ≤ r.off
  off_le : r.off ≤ f.size
  buf : PipeOk c r.buf
  inChain : ∀ i, r.curr = some i → i < f.cache.length
  atFirst : r.curr = some 0 → 0 < r.off → f.size < c ∧ f.FirstFull c

/-- What a request may rely on when others work on its file. -/
structure Grows (c : Nat) (f f' : CacheFile) : Prop where
  size_eq : f'.size = f.size
  length_eq : f'.cache.length = f.cache.length
  first : f.FirstFull c → f'.FirstFull c

/-- A file left alone has grown. -/
theorem Grows.refl (c : Nat) (f : CacheFile) : Grows c f f := ⟨rfl, rfl, id⟩

/-- Growth chains. -/
theorem Grows.trans {f'' : CacheFile} (h : Grows c f f') (h' : Grows c f' f'') :
    Grows c f f'' :=
  ⟨h'.size_eq.trans h.size_eq, h'.length_eq.trans h.length_eq, h'.first ∘ h.first⟩

/-- A request stays well formed while its file grows. -/
theorem ReqOk.grows (hr : ReqOk c f r) (h : Grows c f f') : ReqOk c f' r where
  sum := h.size_eq ▸ hr.sum
  off_nonneg := hr.off_nonneg
  off_le := h.size_eq ▸ hr.off_le
  buf := hr.buf
  inChain i hi := h.length_eq ▸ hr.inChain i hi
  atFirst hcurr hoff := by
    obtain ⟨hlt, hfull⟩ := hr.atFirst hcurr hoff
    exact ⟨h.size_eq ▸ hlt, h.first hfull⟩

/-- A filled first pipe stays filled. -/
theorem CacheFile.FirstFull.afterFill (h : f.FirstFull c) (i a : Nat) :
    (f.afterFill c i a).FirstFull c := by
  obtain ⟨p, hp, hfull⟩ := h
  by_cases hi : i = 0
  · subst hi
    have hwant : ¬ p.filled < want c f.size a := by
      unfold want
      omega
    refine ⟨p, ?_, by simpa using hfull⟩
    rw [f.afterFill_self hp, if_neg hwant]
  · exact ⟨p, by rw [f.afterFill_other hi, hp], by simpa using hfull⟩

/-- A fill of one chunk is growth. -/
theorem grows_afterFill (c : Nat) (f : CacheFile) (i a : Nat) :
    Grows c f (f.afterFill c i a) where
  size_eq := by simp
  length_eq := by simp
  first h := h.afterFill i a

/-- The header pipe is not touched by a fill. -/
theorem afterFill_headers (c : Nat) (f : CacheFile) (i a : Nat) :
    (f.afterFill c i a).cacheHeaders = f.cacheHeaders ∧
      (f.afterFill c i a).headerLen = f.headerLen := by
  unfold CacheFile.afterFill
  split
  · exact ⟨rfl, rfl⟩
  · split <;> exact ⟨rfl, rfl⟩

/-- **Fill step.**  A fill by a request that is in order keeps the file in order. -/
theorem FileOk.afterFill {i a : Nat} (hf : FileOk c f) (hr : ReqOk c f r)
    (hcurr : r.curr = some i) (hoff : r.off = a) : FileOk c (f.afterFill c i a) := by
  have hgrow := grows_afterFill c f i a
  obtain ⟨hheaders, hheaderLen⟩ := afterFill_headers c f i a
  refine
    { pos := by simpa using hf.pos
      mapped := by simpa using hf.mapped
      chain := by simpa using hf.chain
      pipes := CacheFile.afterFill_pipes hf.pipes
      first := ?_
      headers := hheaders ▸ hf.headers
      headerLen_le := by
        rw [hheaders, hheaderLen]
        exact hf.headerLen_le
      carried := ?_ }
  · intro p hp
    rw [hgrow.size_eq]
    by_cases hi : i = 0
    · subst hi
      obtain ⟨q, hq⟩ : ∃ q, f.cache[0]? = some q :=
        ⟨_, List.getElem?_eq_getElem (hr.inChain 0 hcurr)⟩
      have hfirst := hf.first q hq
      cases (f.afterFill_self hq).symm.trans hp
      split
      · rename_i hlt
        -- only a request that has taken nothing yet finds the first pipe unfilled
        have hzero : a = 0 := by
          apply Classical.byContradiction
          intro hne
          obtain ⟨_, q', hq', hfull⟩ := hr.atFirst hcurr (by omega)
          cases hq.symm.trans hq'
          unfold want at hlt
          omega
        subst hzero
        have hmapped := hf.mapped
        right
        simp only [PipeBuf.append_filled, length_slice, want, Nat.sub_zero] at hlt ⊢
        omega
      · exact hfirst
    · rw [f.afterFill_other hi] at hp
      exact hf.first p hp
  · rw [hheaders, hheaderLen, hgrow.size_eq]
    intro hlt
    obtain ⟨hle, hshort, hfull⟩ := hf.carried hlt
    exact ⟨hle, hshort, hgrow.first hfull⟩

/-- The next chunk, if there is one, is the one behind. -/
theorem CacheFile.nextPipe_some {i j : Nat} (h : f.nextPipe i = some j)
    (hi : i < f.cache.length) : j = i + 1 ∧ i + 1 < f.cache.length := by
  unfold nextPipe at h
  split at h
  · cases h
  · cases h
    exact ⟨rfl, by omega⟩

/-- Behind the last chunk there is no next one. -/
theorem CacheFile.nextPipe_none {i : Nat} (h : f.nextPipe i = none) :
    i + 1 = f.cache.length := by
  unfold nextPipe at h
  split at h
  · assumption
  · cases h

/-- A tee moves the offset by what was teed. -/
@[simp] theorem CacheReq.teed_off {p : PipeBuf} {n : Nat} {next : Option Nat}
    (hn : n ≤ p.data.length) : (r.teed p n next).off = r.off + n := by
  simp [teed, off, Nat.min_eq_left hn]
  omega

/-- **First half of a round.**  It keeps the file and the request in order. -/
theorem fillBuffer_keeps {x : Xfer} {out : Bool × CacheFile × CacheReq ι}
    (hf : FileOk c f) (hr : ReqOk c f r) (h : FillBuffer c f r x out) :
    FileOk c out.2.1 ∧ ReqOk c out.2.1 out.2.2 ∧ Grows c f out.2.1 ∧
      out.2.2.bytesToSend = r.bytesToSend := by
  cases h with
  | past hcurr => exact ⟨hf, hr, .refl c f, rfl⟩
  | @stay i a go hcurr hoff _ _ =>
      have hgrow := grows_afterFill c f i a
      exact ⟨hf.afterFill hr hcurr hoff, hr.grows hgrow, hgrow, rfl⟩
  | @copy i a n p hcurr hoff hempty hp hfull hpos hle hall =>
      have hgrow := grows_afterFill c f i a
      have hf' := hf.afterFill hr hcurr hoff
      have hr' := hr.grows hgrow
      have hpipe := hf'.pipes p (List.mem_of_getElem? hp)
      have hn : n ≤ p.data.length := hpipe.filled_eq ▸ hle
      have hwant : want c f.size a ≤ f.size - a := Nat.min_le_right _ _
      have hsize := hgrow.size_eq
      have hle' := hpipe.filled_le
      refine ⟨hf', ⟨hr'.sum, ?_, ?_, ?_, ?_, ?_⟩, hgrow, rfl⟩
      · rw [CacheReq.teed_off hn]
        omega
      · rw [CacheReq.teed_off hn]
        dsimp only
        omega
      · apply hr.buf.append
        simp only [List.length_take]
        omega
      · intro j hj
        have hnext := CacheFile.nextPipe_some hj (hr.inChain i hcurr)
        rw [hgrow.length_eq]
        omega
      · intro hj
        have hnext := CacheFile.nextPipe_some hj (hr.inChain i hcurr)
        omega

/-- The request after a `splice` that moved `n` bytes. -/
def CacheReq.advance (r : CacheReq ι) (n : Nat) : CacheReq ι :=
  { r with
    buf := { r.buf with data := r.buf.data.drop n, filled := r.buf.filled - n }
    bytesToSend := r.bytesToSend - n
    bytesOffset := r.bytesOffset + n
    sent := r.sent ++ r.buf.data.take n }

/-- Sending bytes that are in the buffer leaves the offset in place. -/
theorem CacheReq.advance_off {n : Nat} (hn : n ≤ r.buf.filled) :
    (r.advance n).off = r.off := by
  simp only [advance, off]
  omega

/-- **Second half of a round.**  Sending keeps the request in order. -/
theorem ReqOk.advance {n : Nat} (hr : ReqOk c f r) (hn : n ≤ r.buf.filled) :
    ReqOk c f (r.advance n) := by
  have hsum := hr.sum
  have hlen := hr.buf.filled_eq
  refine ⟨?_, ?_, ?_, ⟨hr.buf.cap_eq, ?_, ?_, hr.buf.unlocked⟩, hr.inChain, ?_⟩
  · simp only [CacheReq.advance]
    omega
  · rw [CacheReq.advance_off hn]
    exact hr.off_nonneg
  · rw [CacheReq.advance_off hn]
    exact hr.off_le
  · simp only [CacheReq.advance, List.length_drop]
    omega
  · have := hr.buf.filled_le
    simp only [CacheReq.advance]
    omega
  · rw [CacheReq.advance_off hn]
    exact hr.atFirst

/-! ## The loop -/

/-- What `socket_serve_req_splice` returns: what is left to send, or -1 while
something is left to send. -/
def Returned (ret : Int) (r : CacheReq ι) : Prop :=
  ret = r.bytesToSend ∨ (ret = -1 ∧ 0 < r.bytesToSend)

/-- `P` is kept by the two halves of a round, where `T` says which answers the
kernel gives to `tee`. -/
structure RoundInvariant (c : Nat) (T : Xfer → Prop)
    (P : CacheFile → CacheReq ι → Prop) : Prop where
  fill : ∀ {f : CacheFile} {r : CacheReq ι} {x : Xfer} {out : Bool × CacheFile × CacheReq ι},
    T x → FileOk c f → ReqOk c f r → P f r → FillBuffer c f r x out → P out.2.1 out.2.2
  send : ∀ {f : CacheFile} {r : CacheReq ι} {n : Nat},
    FileOk c f → ReqOk c f r → P f r → n ≤ r.buf.filled → P f (r.advance n)

/-- A round of a request that is in order: it goes on with less to send, or it
ends the call with a value that `Returned` describes. -/
theorem spliceRound_keeps {T : Xfer → Prop} {P : CacheFile → CacheReq ι → Prop}
    (hP : RoundInvariant c T P) (hc : 0 < c) {o : Nat → RoundOut} {k : Nat}
    (ho : ∀ j, (o k).fill j = .all) (hT : T (o k).tee)
    (hf : FileOk c f) (hr : ReqOk c f r) (hp : P f r) :
    Ensures (spliceRound o k (f, r))
      (Sum.elim
        (fun s => FileOk c s.1 ∧ ReqOk c s.1 s.2 ∧ P s.1 s.2 ∧
          0 ≤ s.2.bytesToSend ∧ s.2.bytesToSend < r.bytesToSend)
        (fun s => FileOk c s.2.1 ∧ ReqOk c s.2.1 s.2.2 ∧ P s.2.1 s.2.2 ∧
          Returned s.1 s.2.2 ∧ s.2.2.bytesToSend = r.bytesToSend))
      (fun _ => False) := by
  have hsum := hr.sum
  have hoffle := hr.off_le
  unfold spliceRound
  dsimp only
  split
  · rename_i hcond
    rw [if_neg (by omega)]
    obtain ⟨a, ha⟩ : ∃ a : Nat, r.off = a := ⟨r.off.toNat, by
      have := hr.off_nonneg
      omega⟩
    have hmore : r.buf.filled = 0 → a < f.size := by
      intro hempty
      unfold CacheReq.off at ha
      omega
    have hfill := fillBuffer_cases hc ho hf.pipes hf.mapped hr.inChain hr.buf ha
      (by omega) hmore
    apply hfill.bind
    intro out hout
    obtain ⟨hf', hr', _, hsend⟩ := fillBuffer_keeps hf hr hout
    have hp' := hP.fill hT hf hr hp hout
    obtain ⟨go, f', r'⟩ := out
    dsimp only at hf' hr' hsend hp' ⊢
    split
    · have hsum' := hr'.sum
      have hoff' := hr'.off_le
      have hmany : (r'.buf.filled : Int) ≤ r'.bytesToSend := by
        unfold CacheReq.off at hoff'
        omega
      apply (sendBuffer_cases hr'.buf hmany).imp_ok
      intro next hnext
      cases hnext with
      | stop hret _ =>
          refine ⟨hf', hr', hp', ?_, hsend⟩
          rcases hret with hret | hret
          · exact .inl hret
          · refine .inr ⟨hret, ?_⟩
            dsimp only
            omega
      | @sent n hpos hle =>
          refine ⟨hf', hr'.advance hle, hP.send hf' hr' hp' hle, ?_, ?_⟩
          · dsimp only
            omega
          · dsimp only
            omega
    · refine ⟨hf', hr', hp', .inr ⟨rfl, ?_⟩, hsend⟩
      dsimp only
      omega
  · exact ⟨hf, hr, hp, .inl rfl, rfl⟩

/-- Any number of rounds that the request cannot use up. -/
theorem spliceLoop_keeps {T : Xfer → Prop} {P : CacheFile → CacheReq ι → Prop}
    (hP : RoundInvariant c T P) (hc : 0 < c) {o : Nat → RoundOut}
    (ho : ∀ k j, (o k).fill j = .all) (hT : ∀ k, T (o k).tee)
    (hf : FileOk c f) (hr : ReqOk c f r) (hp : P f r) {fuel : Nat} (k : Nat)
    (hfuel : r.bytesToSend.toNat < fuel) :
    Ensures (iterate .diverged (spliceRound o) fuel k (f, r))
      (fun out => FileOk c out.2.1 ∧ ReqOk c out.2.1 out.2.2 ∧ P out.2.1 out.2.2 ∧
        Returned out.1 out.2.2 ∧ out.2.2.bytesToSend ≤ r.bytesToSend)
      (fun _ => False) := by
  refine Ensures.iterate
    (I := fun s : CacheFile × CacheReq ι =>
      FileOk c s.1 ∧ ReqOk c s.1 s.2 ∧ P s.1 s.2 ∧ s.2.bytesToSend ≤ r.bytesToSend)
    (m := fun s => s.2.bytesToSend.toNat) ?_ _ k (f, r) ⟨hf, hr, hp, le_refl _⟩ hfuel
  intro k s hs
  obtain ⟨f, r'⟩ := s
  obtain ⟨hf, hr, hp, hle⟩ := hs
  apply (spliceRound_keeps hP hc (ho k) (hT k) hf hr hp).imp_ok
  intro next hround
  cases next with
  | inl s =>
      obtain ⟨hf', hr', hp', hnonneg, hless⟩ := hround
      dsimp only at hle hnonneg hless
      refine ⟨⟨hf', hr', hp', ?_⟩, ?_⟩
      · omega
      · dsimp only
        omega
  | inr out =>
      obtain ⟨hf', hr', hp', hret, heq⟩ := hround
      dsimp only at hle heq
      refine ⟨hf', hr', hp', hret, ?_⟩
      omega

/-- **Rule of the serving loop.**  A call on a request that is in order fires no
check, ends, keeps the file and the request in order with every round invariant,
and never leaves more to send than there was. -/
theorem socketServeReqSplice_keeps {T : Xfer → Prop} {P : CacheFile → CacheReq ι → Prop}
    (hP : RoundInvariant c T P) (hc : 0 < c) {o : Nat → RoundOut}
    (ho : ∀ k j, (o k).fill j = .all) (hT : ∀ k, T (o k).tee)
    (hf : FileOk c f) (hr : ReqOk c f r) (hp : P f r) :
    Ensures (socketServeReqSplice f r o)
      (fun out => FileOk c out.2.1 ∧ ReqOk c out.2.1 out.2.2 ∧ P out.2.1 out.2.2 ∧
        Returned out.1 out.2.2 ∧ out.2.2.bytesToSend ≤ r.bytesToSend)
      (fun _ => False) :=
  spliceLoop_keeps hP hc ho hT hf hr hp 0 (Nat.lt_succ_self _)

end MonkeyCache
