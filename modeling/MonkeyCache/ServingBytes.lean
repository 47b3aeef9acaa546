import MonkeyCache.ServingLoop

/-!
# Which bytes the pipes and the socket hold

`FileExact` and `ReqExact` refine the counters of `FileOk` and `ReqOk` to bytes.
A request's offset is its position in the chain times the pipe capacity, except
for a request whose headers carried a prefix of the file: it stands at the only
pipe of a file shorter than a pipe, and never takes anything from it.  `A` is
the set of prefix lengths that may have been carried.
-/

namespace MonkeyCache

open Fallible Chunks

variable {ι : Type} {c : Nat} {F H : List Byte} {A : Nat → Prop}
  {f : CacheFile} {r : CacheReq ι}

/-- The chain and the header pipe hold the right bytes. -/
structure FileExact (c : Nat) (F H : List Byte) (A : Nat → Prop) (f : CacheFile) : Prop where
  content : f.buf = F
  chunks : ∀ i p, f.cache[i]? = some p →
    (p.filled = 0 ∨ p.filled = want c F.length (i * c)) ∧ p.data = slice F (i * c) p.filled
  header : f.cacheHeaders.filled ≠ 0 → f.headerLen = H.length ∧
    ∃ k, (0 < k → A k) ∧ k ≤ F.length ∧ f.cacheHeaders.data = H ++ F.take k

/-- The part of a request's stream that precedes the file. -/
def CacheReq.headers (r : CacheReq ι) (H : List Byte) : List Byte :=
  if r.viaCache then H else []

/-- Everything a request is meant to send through `socket_serve_req_splice`. -/
def CacheReq.stream (r : CacheReq ι) (F H : List Byte) : List Byte := r.headers H ++ F

/-- What was sent and what waits in the private pipe is the stream up to the
request's offset, and the offset agrees with the position in the chain. -/
structure ReqExact (c : Nat) (F H : List Byte) (A : Nat → Prop) (r : CacheReq ι) : Prop where
  sentLen : (r.sent.length : Int) = r.bytesOffset + (r.headers H).length
  stream : r.sent ++ r.buf.data = r.headers H ++ F.take r.off.toNat
  atEnd : r.curr = none → r.off = F.length
  inStep : ∀ i, r.curr = some i →
    r.off = (i * c : Nat) ∨ (i = 0 ∧ ∃ k : Nat, 0 < k ∧ A k ∧ r.off = k)

theorem FileExact.size_eq (he : FileExact c F H A f) (hf : FileOk c f) :
    f.size = F.length := by
  rw [← hf.mapped, he.content]

/-- A request that finds its pipe short of the chunk it wants stands in step
with the chain. -/
theorem ReqExact.inStep_of_lt (hr : ReqExact c F H A r) (hok : ReqOk c f r)
    {i a : Nat} {p : PipeBuf} (hcurr : r.curr = some i) (hoff : r.off = a)
    (hp : f.cache[i]? = some p) (hlt : p.filled < want c f.size a ∨ p.filled = want c f.size a)
    (hpos : a < f.size ∨ p.filled < want c f.size a) : a = i * c := by
  rcases hr.inStep i hcurr with h | ⟨rfl, k, hk, _, h⟩
  · omega
  · -- the headers carried `k` bytes: the only pipe holds the whole file
    obtain ⟨hshort, q, hq, hfull⟩ := hok.atFirst hcurr (by omega)
    cases hp.symm.trans hq
    unfold want at hlt hpos
    omega

/-- **Fill step.**  The pipe at which the request stands gets the next bytes of
its own chunk. -/
theorem FileExact.afterFill (he : FileExact c F H A f) (hf : FileOk c f)
    (hok : ReqOk c f r) (hr : ReqExact c F H A r) {i a : Nat}
    (hcurr : r.curr = some i) (hoff : r.off = a) :
    FileExact c F H A (f.afterFill c i a) := by
  obtain ⟨hheaders, hheaderLen⟩ := afterFill_headers c f i a
  refine ⟨by simpa using he.content, ?_, ?_⟩
  · intro j p hp
    by_cases hij : i = j
    · subst hij
      obtain ⟨q, hq⟩ : ∃ q, f.cache[i]? = some q :=
        ⟨_, List.getElem?_eq_getElem (hok.inChain i hcurr)⟩
      obtain ⟨hsome, hdata⟩ := he.chunks i q hq
      cases (f.afterFill_self hq).symm.trans hp
      split
      · rename_i hlt
        have hstep := hr.inStep_of_lt hok hcurr hoff hq (.inl hlt) (.inr hlt)
        subst hstep
        have hsize := he.size_eq hf
        have hmapped := hf.mapped
        have hle : want c F.length (i * c) ≤ F.length - i * c := Nat.min_le_right _ _
        have hbytes : q.filled + (want c f.size (i * c) - q.filled) = want c F.length (i * c) := by
          rw [← hsize]
          omega
        have hlen : (slice f.buf (q.filled + i * c) (want c f.size (i * c) - q.filled)).length
            = want c f.size (i * c) - q.filled := by
          rw [length_slice]
          omega
        have hfilled : (q.append (slice f.buf (q.filled + i * c)
            (want c f.size (i * c) - q.filled))).filled = want c F.length (i * c) := by
          rw [PipeBuf.append_filled, hlen, hbytes]
        refine ⟨.inr hfilled, ?_⟩
        rw [hfilled, PipeBuf.append_data, hdata, he.content, Nat.add_comm q.filled,
          slice_append_slice, hbytes]
      · exact ⟨hsome, hdata⟩
    · rw [f.afterFill_other hij] at hp
      exact he.chunks j p hp
  · rw [hheaders, hheaderLen]
    exact he.header

/-- **Copy step.**  The request takes the whole pipe at which it stands, which is
the chunk that follows what it has, and steps to the next pipe. -/
theorem ReqExact.teed (hr : ReqExact c F H A r) (hc : 0 < c) (he : FileExact c F H A f)
    (hf : FileOk c f) (hok : ReqOk c f r) {i a : Nat} {p : PipeBuf} (hcurr : r.curr = some i)
    (hoff : r.off = a) (hempty : r.buf.filled = 0)
    (hp : (f.afterFill c i a).cache[i]? = some p) (hfull : p.filled = want c f.size a)
    (hpos : 0 < p.filled) : ReqExact c F H A (r.teed p p.filled (f.nextPipe i)) := by
  have he' := he.afterFill hf hok hr hcurr hoff
  have hf' := hf.afterFill hok hcurr hoff
  have hgrow := grows_afterFill c f i a
  have hsize := he.size_eq hf
  have hi := hok.inChain i hcurr
  have hchain := hf.chain
  have hpipe := hf'.pipes p (List.mem_of_getElem? hp)
  have hn : p.filled ≤ p.data.length := Nat.le_of_eq hpipe.filled_eq
  have hwant : want c f.size a ≤ f.size - a := Nat.min_le_right _ _
  have hstep : a = i * c := by
    refine hr.inStep_of_lt (hok.grows hgrow) hcurr hoff hp ?_ (.inl ?_)
    · rw [hgrow.size_eq]
      exact .inr hfull
    · rw [hgrow.size_eq]
      omega
  subst hstep
  have hdata := (he'.chunks i p hp).2
  have hbuf : r.buf.data = [] := by
    have := hok.buf.filled_eq
    exact List.length_eq_zero_iff.1 (by omega)
  have hin := mul_lt_of_lt_count hc (hchain ▸ hi)
  have htake : p.data.take p.filled = slice F (i * c) p.filled := by
    rw [hpipe.filled_eq, List.take_length, ← hpipe.filled_eq]
    exact hdata
  refine ⟨hr.sentLen, ?_, ?_, ?_⟩
  · have hstream := hr.stream
    rw [hbuf, List.append_nil, hoff] at hstream
    rw [CacheReq.teed_off hn, hoff]
    simp only [CacheReq.teed, PipeBuf.append_data, hbuf, List.nil_append, htake]
    rw [hstream, CacheReq.headers, List.append_assoc, Int.toNat_natCast, take_append_slice]
    rfl
  · intro hnone
    have hlast := CacheFile.nextPipe_none hnone
    have hend := le_mul_of_count_le hc (Nat.le_of_eq (hchain ▸ hlast).symm)
    rw [CacheReq.teed_off hn, hoff, hfull]
    rw [Nat.succ_mul] at hend
    unfold want at hwant ⊢
    omega
  · intro j hj
    obtain ⟨rfl, hnext⟩ := CacheFile.nextPipe_some hj hi
    have hmore := mul_lt_of_lt_count hc (hchain ▸ hnext)
    left
    rw [CacheReq.teed_off hn, hoff, hfull]
    rw [Nat.succ_mul] at hmore ⊢
    unfold want at hwant ⊢
    omega

/-- **Send step.**  Bytes move from the private pipe to the socket. -/
theorem ReqExact.advance (hr : ReqExact c F H A r) (hok : ReqOk c f r) {n : Nat}
    (hn : n ≤ r.buf.filled) : ReqExact c F H A (r.advance n) := by
  have hlen := hok.buf.filled_eq
  refine ⟨?_, ?_, ?_, ?_⟩
  · have hsent := hr.sentLen
    show ((r.sent ++ r.buf.data.take n).length : Int)
      = r.bytesOffset + n + (r.headers H).length
    rw [List.length_append, List.length_take]
    omega
  · rw [CacheReq.advance_off hn]
    simp only [CacheReq.advance, List.append_assoc, List.take_append_drop]
    exact hr.stream
  · rw [CacheReq.advance_off hn]
    exact hr.atEnd
  · rw [CacheReq.advance_off hn]
    exact hr.inStep

/-- **The exact part is a round invariant** when `tee` copies everything. -/
theorem exact_roundInvariant (hc : 0 < c) :
    RoundInvariant c (fun x => x = .all)
      (fun f (r : CacheReq ι) => FileExact c F H A f ∧ ReqExact c F H A r) where
  fill := by
    rintro f r x out hx hf hok ⟨he, hr⟩ hout
    cases hout with
    | past _ => exact ⟨he, hr⟩
    | stay hcurr hoff _ _ => exact ⟨he.afterFill hf hok hr hcurr hoff, hr⟩
    | copy hcurr hoff hempty hp hfull hpos hle hall =>
        cases hall hx
        exact ⟨he.afterFill hf hok hr hcurr hoff,
          hr.teed hc he hf hok hcurr hoff hempty hp hfull hpos⟩
  send := by
    rintro f r n hf hok ⟨he, hr⟩ hn
    exact ⟨he, hr.advance hok hn⟩

/-! ## Sent bytes and the stream -/

/-- What was sent is a prefix of the stream. -/
theorem ReqExact.sent_initial (hr : ReqExact c F H A r) : r.sent <+: r.stream F H := by
  have hpre : r.sent <+: r.headers H ++ F.take r.off.toNat := ⟨r.buf.data, hr.stream⟩
  have htake : F.take r.off.toNat <+: F := List.take_prefix _ _
  exact hpre.trans ((List.prefix_append_right_inj _).2 htake)

/-- The whole stream is sent exactly when nothing is left to send. -/
theorem ReqExact.done_iff (hr : ReqExact c F H A r) (hok : ReqOk c f r)
    (hsize : f.size = F.length) : r.bytesToSend = 0 ↔ r.sent = r.stream F H := by
  have hlen := hr.sentLen
  have hsum := hok.sum
  constructor
  · intro hzero
    apply hr.sent_initial.eq_of_length
    rw [CacheReq.stream, List.length_append]
    omega
  · intro hall
    rw [hall, CacheReq.stream, List.length_append] at hlen
    omega

/-- What a call returns tells whether the whole stream was sent. -/
theorem ReqExact.returned (hr : ReqExact c F H A r) (hok : ReqOk c f r)
    (hsize : f.size = F.length) {ret : Int} (hret : Returned ret r) :
    ret = 0 ↔ r.sent = r.stream F H := by
  rw [← hr.done_iff hok hsize]
  rcases hret with rfl | ⟨rfl, hpos⟩
  · rfl
  · constructor
    · intro h
      cases h
    · intro h
      omega

end MonkeyCache
