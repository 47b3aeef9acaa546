import MonkeyCache.ServingBytes

/-!
# Setting up a request

`startReq_keeps` carries the invariants of the serving loop through the part of
`_mkp_stage_30` that sets a request up: the early fill of the first pipe, the
headers that the first request of a file leaves in its header pipe, and the copy
of that pipe into the request's own.  `full` says that a `tee` into an empty
pipe copies everything; it is false where nothing is assumed about `tee`.
-/

namespace MonkeyCache

open Fallible Chunks

variable {ι : Type} {c : Nat} {f : CacheFile} {r : CacheReq ι}

/-! ## The header pipe -/

/-- A header pipe that holds the header string `hd` and `k` bytes of the first
pipe `p`; `k` is positive only if the first pipe fits behind the headers. -/
inductive FillLeftover (c : Nat) (p pipe : PipeBuf) (x : Xfer) : PipeBuf → Prop
  | mk {k : Nat}
      (hk : k = 0 ∨ (p.filled + pipe.data.length < c ∧ x.count p.filled = .ok k)) :
      FillLeftover c p pipe x
        { pipe with data := pipe.data ++ p.data.take k, filled := pipe.data.length + k }

theorem fillLeftover_cases {p pipe : PipeBuf} {x : Xfer} (hp : PipeOk c p)
    (hcap : pipe.cap = c) :
    Ensures (fillLeftover p pipe x) (FillLeftover c p pipe x) (fun e => e = .headersTee) := by
  have hlen := hp.filled_eq
  unfold fillLeftover
  dsimp only
  split
  · rename_i hcond
    have hroom : min (min p.filled p.data.length) (pipe.cap - pipe.data.length) = p.filled := by
      omega
    unfold tee
    rw [hroom]
    cases hcount : x.count p.filled with
    | error e => exact rfl
    | ok k => exact .mk (.inr ⟨by omega, hcount⟩)
  · have hnone : FillLeftover c p pipe x
        { pipe with data := pipe.data ++ p.data.take 0, filled := pipe.data.length + 0 } :=
      .mk (.inl rfl)
    simpa using hnone

/-- What `fill_cache_headers` does to a header pipe that is still empty. -/
inductive FillHeaders (c : Nat) (f : CacheFile) (header : List Byte) (x : Xfer) :
    CacheFile → Prop
  | mk {p : PipeBuf} {k : Nat} (hp : f.cache[0]? = some p)
      (hpos : 0 < (header.take c).length + k)
      (hk : k = 0 ∨ (p.filled + (header.take c).length < c ∧ x.count p.filled = .ok k)) :
      FillHeaders c f header x
        { f with
          cacheHeaders := { f.cacheHeaders with
            data := header.take c ++ p.data.take k
            filled := (header.take c).length + k }
          headerLen := (header.take c).length }

/-- **What `fill_cache_headers` does.** -/
theorem fillCacheHeaders_cases (hc : 0 < c) (hf : FileOk c f)
    (hempty : f.cacheHeaders.filled = 0) {header : List Byte} {x : Xfer} :
    Ensures (fillCacheHeaders f header x) (FillHeaders c f header x)
      (fun e => e = .headersTee ∨ e = .headersEmpty) := by
  obtain rfl := hf.headers.cap_eq
  have hlen := hf.headers.filled_eq
  have hdata : f.cacheHeaders.data = [] := List.length_eq_zero_iff.1 (by omega)
  obtain ⟨p, hp⟩ := hf.exists_first hc
  have hpipe := hf.pipes _ (List.mem_of_getElem? hp)
  have hleft : ∀ pipe : PipeBuf, pipe.cap = f.cacheHeaders.cap →
      Ensures (fillLeftover p pipe x) (FillLeftover f.cacheHeaders.cap p pipe x)
        (fun e => e = .headersTee ∨ e = .headersEmpty) :=
    fun pipe hcap => (fillLeftover_cases hpipe hcap).imp_error (fun _ h => Or.inl h)
  unfold fillCacheHeaders
  rw [if_neg (by simp [hf.headers.unlocked, hempty])]
  simp only [hdata, List.nil_append, List.length_nil, Nat.sub_zero,
    List.head?_eq_getElem?, hp]
  apply (hleft _ (by rfl)).bind
  rintro filled ⟨hk⟩
  split
  · exact .inr rfl
  · rename_i hsome
    exact .mk hp (Nat.pos_of_ne_zero hsome) hk

/-- A filled header pipe keeps the file in order. -/
theorem FileOk.fillHeaders (hf : FileOk c f) (hfull : f.FirstFull c)
    {header : List Byte} {x : Xfer} {f' : CacheFile} (h : FillHeaders c f header x f') :
    FileOk c f' ∧ Grows c f f' := by
  obtain @⟨p, k, hp, hpos, hk⟩ := h
  obtain ⟨q, hq, hqfull⟩ := hfull
  cases hp.symm.trans hq
  have hpipe := hf.pipes p (List.mem_of_getElem? hp)
  have hlen := hpipe.filled_eq
  have hhead : (header.take c).length ≤ c := by simp
  have hcount : k ≤ p.filled ∧ (0 < k → p.filled + (header.take c).length < c) := by
    rcases hk with rfl | ⟨hroom, hcount⟩
    · exact ⟨Nat.zero_le _, fun h => absurd h (Nat.lt_irrefl 0)⟩
    · exact ⟨(Xfer.count_ok hcount).2, fun _ => hroom⟩
  refine ⟨⟨hf.pos, hf.mapped, hf.chain, hf.pipes, hf.first,
    ⟨hf.headers.cap_eq, ?_, ?_, hf.headers.unlocked⟩, ?_, ?_⟩, ⟨rfl, rfl, id⟩⟩
  · simp only [List.length_append, List.length_take]
    omega
  · dsimp only
    omega
  · exact Nat.le_add_right _ _
  · intro hlt
    dsimp only at hlt ⊢
    exact ⟨by omega, by omega, p, hp, hqfull⟩

/-- A filled header pipe holds the headers and a prefix of the file. -/
theorem FileExact.fillHeaders {F H : List Byte} {A : Nat → Prop}
    (he : FileExact c F H A f) (hf : FileOk c f) (hfull : f.FirstFull c)
    (hH : H.length < c) {x : Xfer}
    (hA : ∀ k, H.length + F.length < c → x.count F.length = .ok k → A k)
    {f' : CacheFile} (h : FillHeaders c f H x f') : FileExact c F H A f' := by
  obtain @⟨p, k, hp, hpos, hk⟩ := h
  obtain ⟨q, hq, hqfull⟩ := hfull
  cases hp.symm.trans hq
  have hsize := he.size_eq hf
  have htake : H.take c = H := List.take_of_length_le (Nat.le_of_lt hH)
  have hdata := (he.chunks 0 p hp).2
  rw [Nat.zero_mul] at hdata
  have hk' : k ≤ p.filled := by
    rcases hk with rfl | ⟨_, hcount⟩
    · exact Nat.zero_le _
    · exact (Xfer.count_ok hcount).2
  refine ⟨he.content, he.chunks, fun _ => ⟨by rw [htake], k, ?_, by omega, ?_⟩⟩
  · intro hkpos
    rcases hk with rfl | ⟨hroom, hcount⟩
    · exact absurd hkpos (Nat.lt_irrefl 0)
    · rw [htake] at hroom
      have hall : p.filled = F.length := by omega
      exact hA k (by omega) (hall ▸ hcount)
  · rw [htake, hdata, take_slice, Nat.min_eq_left hk']
    simp [slice]

/-- The early fill leaves the first pipe of the chain filled. -/
theorem FileOk.firstFull_afterFill (hf : FileOk c f) (hc : 0 < c) :
    (f.afterFill c 0 0).FirstFull c := by
  obtain ⟨p, hp⟩ := hf.exists_first hc
  have hpos := hf.pos
  have hmapped := hf.mapped
  refine ⟨_, f.afterFill_self hp, ?_⟩
  rw [CacheFile.afterFill_size]
  split
  · rename_i hlt
    rw [PipeBuf.append_filled, length_slice]
    unfold want at hlt ⊢
    omega
  · rename_i hge
    have hfirst := hf.first p hp
    unfold want at hge
    omega

/-! ## Serving from the header pipe -/

/-- What `serve_cache_headers` does to a request with an empty private pipe. -/
inductive ServeHeaders (f : CacheFile) (r : CacheReq ι) (x : Xfer) : CacheReq ι → Prop
  | mk {n : Nat} (hmin : f.headerLen ≤ n) (hmax : n ≤ f.cacheHeaders.filled)
      (hall : x = .all → n = f.cacheHeaders.filled) :
      ServeHeaders f r x
        { r with
          buf := r.buf.append (f.cacheHeaders.data.take n)
          bytesOffset := r.bytesOffset - f.headerLen
          bytesToSend := r.bytesToSend + f.headerLen
          viaCache := true }

/-- **What `serve_cache_headers` does.** -/
theorem serveCacheHeaders_cases (hf : FileOk c f) (hr : PipeOk c r.buf)
    (hempty : r.buf.data = []) {x : Xfer} :
    Ensures (serveCacheHeaders f r x) (ServeHeaders f r x)
      (fun e => e = .headersTee ∨ e = .headersShort) := by
  have hlen := hf.headers.filled_eq
  unfold serveCacheHeaders
  cases htee : tee x f.cacheHeaders r.buf f.cacheHeaders.filled with
  | error e => exact .inl rfl
  | ok out =>
      obtain ⟨n, buf⟩ := out
      obtain ⟨hpos, hle, hdata, hroom, rfl⟩ := tee_ok htee
      dsimp only
      split
      · exact .inr rfl
      · rename_i hmin
        have happend : ({ r.buf with
            data := r.buf.data ++ f.cacheHeaders.data.take n
            filled := r.buf.filled + n } : PipeBuf)
            = r.buf.append (f.cacheHeaders.data.take n) := by
          simp [PipeBuf.append, Nat.min_eq_left hdata]
        rw [ensures_ok, happend]
        refine .mk (by omega) hle ?_
        intro hx
        have hcap := hr.cap_eq
        have hfit := hf.headers.filled_le
        rw [hx, hlen, tee_all (by omega) hempty (by omega)] at htee
        rw [Except.ok.injEq, Prod.mk.injEq] at htee
        exact htee.1.symm.trans hlen.symm

/-- A request served from the header pipe is in order. -/
theorem ReqOk.serveHeaders (hf : FileOk c f) {x : Xfer} {r' : CacheReq ι}
    (hbuf : PipeOk c r.buf) (hempty : r.buf.data = []) (hcurr : r.curr = some 0)
    (hoffset : r.bytesOffset = 0) (hsend : r.bytesToSend = f.size) (hc : 0 < c)
    (h : ServeHeaders f r x r') : ReqOk c f r' := by
  obtain @⟨n, hmin, hmax, hall⟩ := h
  obtain ⟨p, hp⟩ := hf.exists_first hc
  have hlen := hf.headers.filled_eq
  have hle := hf.headers.filled_le
  have hfilled : r.buf.filled = 0 := by
    rw [hbuf.filled_eq, hempty]
    rfl
  have htake : (f.cacheHeaders.data.take n).length = n := by
    rw [List.length_take]
    omega
  have hoff : ∀ r' : CacheReq ι, r'.bytesOffset = r.bytesOffset - f.headerLen →
      r'.buf = r.buf.append (f.cacheHeaders.data.take n) → r'.off = (n : Int) - f.headerLen := by
    intro r' h1 h2
    rw [CacheReq.off, h1, h2, PipeBuf.append_filled, htake, hfilled, hoffset]
    omega
  refine ⟨?_, ?_, ?_, ?_, ?_, ?_⟩
  · dsimp only
    omega
  · rw [hoff _ rfl rfl]
    omega
  · rw [hoff _ rfl rfl]
    by_cases hlt : f.headerLen < f.cacheHeaders.filled
    · have hcarried := (hf.carried hlt).1
      omega
    · omega
  · apply hbuf.append
    rw [htake]
    omega
  · intro i hi
    obtain rfl : i = 0 := by
      rw [hcurr] at hi
      exact (Option.some.inj hi).symm
    exact (List.getElem?_eq_some_iff.1 hp).1
  · intro _ hpos
    rw [hoff _ rfl rfl] at hpos
    exact (hf.carried (by omega)).2

/-- A request served from the header pipe has the headers, and what travelled
with them, in its private pipe. -/
theorem ReqExact.serveHeaders {F H : List Byte} {A : Nat → Prop}
    (hf : FileOk c f) (he : FileExact c F H A f) {r' : CacheReq ι}
    (hbuf : PipeOk c r.buf) (hempty : r.buf.data = []) (hcurr : r.curr = some 0)
    (hoffset : r.bytesOffset = 0) (hsent : r.sent = []) (hsome : f.cacheHeaders.filled ≠ 0)
    (h : ServeHeaders f r .all r') : ReqExact c F H A r' := by
  obtain @⟨n, hmin, hmax, hall⟩ := h
  obtain rfl := hall rfl
  obtain ⟨hheader, k, hk, hkle, hdata⟩ := he.header hsome
  have hlen := hf.headers.filled_eq
  have hfilled : r.buf.filled = 0 := by
    rw [hbuf.filled_eq, hempty]
    rfl
  have hall' : f.cacheHeaders.data.take f.cacheHeaders.filled = H ++ F.take k := by
    rw [hlen, List.take_length, hdata]
  have hcarried : f.cacheHeaders.filled = H.length + k := by
    rw [hlen, hdata, List.length_append, List.length_take]
    omega
  have hoff : ∀ r' : CacheReq ι, r'.bytesOffset = r.bytesOffset - f.headerLen →
      r'.buf = r.buf.append (f.cacheHeaders.data.take f.cacheHeaders.filled) →
      r'.off = k := by
    intro r' h1 h2
    rw [CacheReq.off, h1, h2, PipeBuf.append_filled, hfilled, hoffset, List.length_take]
    omega
  refine ⟨?_, ?_, ?_, ?_⟩
  · simp only [CacheReq.headers, hsent, hoffset, hheader, if_pos, List.length_nil]
    omega
  · rw [hoff _ rfl rfl]
    simp only [CacheReq.headers, hsent, PipeBuf.append_data, hempty, List.nil_append, hall',
      if_pos, Int.toNat_natCast]
  · intro hnone
    dsimp only at hnone
    rw [hcurr] at hnone
    cases hnone
  · intro i hi
    obtain rfl : i = 0 := by
      dsimp only at hi
      rw [hcurr] at hi
      exact (Option.some.inj hi).symm
    rw [hoff _ rfl rfl]
    by_cases hzero : k = 0
    · left
      rw [hzero, Nat.zero_mul]
    · exact .inr ⟨rfl, k, Nat.pos_of_ne_zero hzero, hk (Nat.pos_of_ne_zero hzero), rfl⟩

end MonkeyCache
