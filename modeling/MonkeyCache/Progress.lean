import MonkeyCache.ResponseStream

/-!
# Progress of the responses

A registered request whose socket takes a byte sends one, as long as every
`tee` that puts file data behind the headers copied the whole file.  A request
that stands at the end of a chunk finds the next pipe filled to exactly the
length it wants, so its loop goes on; a request whose headers carried only a
part of the file stands inside the chunk, finds the pipe fuller than what it
wants and never takes anything from it (`response_stuck`).
-/

namespace MonkeyCache

open Fallible Chunks Transition

variable {ι : Type} {c : Nat} {F H : List Byte} {f : CacheFile} {r : CacheReq ι}

/-- The socket would take some bytes of a nonempty pipe. -/
def Xfer.Accepts (x : Xfer) : Prop := x ≠ .eagain ∧ x ≠ .error

/-- A request with an empty private pipe stands at a pipe that will hold exactly
the chunk it wants. -/
def CacheReq.Ready (c : Nat) (f : CacheFile) (r : CacheReq ι) : Prop :=
  r.buf.filled = 0 → ∃ i a, r.curr = some i ∧ r.off = (a : Nat) ∧
    ∀ p, (f.afterFill c i a).cache[i]? = some p → p.filled = want c f.size a

/-- Where the headers carried the whole file or nothing of it, every request
with something left to send is ready. -/
theorem ReqExact.ready (hc : 0 < c) (hf : FileOk c f) (hr : ReqOk c f r)
    (he : FileExact c F H (fun k => k = F.length) f)
    (hexact : ReqExact c F H (fun k => k = F.length) r) (hmore : 0 < r.bytesToSend) :
    r.Ready c f := by
  intro hempty
  have hsum := hr.sum
  have hsize := he.size_eq hf
  have hoff : r.off = r.bytesOffset := by
    unfold CacheReq.off
    omega
  cases hcurr : r.curr with
  | none =>
      have := hexact.atEnd hcurr
      omega
  | some i =>
      have hi := hr.inChain i hcurr
      have hin := mul_lt_of_lt_count hc (hf.chain ▸ hi)
      have hstep : r.off = (i * c : Nat) := by
        rcases hexact.inStep i hcurr with h | ⟨_, k, _, rfl, h⟩
        · exact h
        · omega
      refine ⟨i, i * c, rfl, hstep, ?_⟩
      intro p hp
      have he' := he.afterFill hf hr hexact hcurr hstep
      obtain ⟨q, hq⟩ : ∃ q, f.cache[i]? = some q := ⟨_, List.getElem?_eq_getElem hi⟩
      have hself := f.afterFill_self (c := c) (a := i * c) hq
      have hwant : 0 < want c f.size (i * c) := by
        unfold want
        omega
      rcases (he'.chunks i p hp).1 with hzero | hfull
      · cases hself.symm.trans hp
        split at hzero
        · rename_i hlt
          have hle : want c f.size (i * c) ≤ f.size - i * c := Nat.min_le_right _ _
          have hmapped := hf.mapped
          rw [PipeBuf.append_filled, length_slice] at hzero
          omega
        · omega
      · rw [hfull, hsize]

/-- **First round.**  It ends with bytes on the socket. -/
theorem spliceRound_goesOn (hc : 0 < c) {o : Nat → RoundOut} {k : Nat}
    (hfill : ∀ j, (o k).fill j = .all) (htee : (o k).tee = .all)
    (hsplice : (o k).splice.Accepts) (hf : FileOk c f) (hr : ReqOk c f r)
    (hready : r.Ready c f) (hmore : 0 < r.bytesToSend) :
    Ensures (spliceRound o k (f, r)) (fun next => ∃ s, next = .inl s) (fun _ => False) := by
  have hsum := hr.sum
  have hoffle := hr.off_le
  have hstart : r.curr.isSome ∨ r.buf.filled ≠ 0 := by
    by_cases hempty : r.buf.filled = 0
    · obtain ⟨i, _, hcurr, _⟩ := hready hempty
      exact .inl (by simp [hcurr])
    · exact .inr hempty
  unfold spliceRound
  dsimp only
  rw [if_pos ⟨hmore, hstart⟩, if_neg (by omega)]
  obtain ⟨a, ha⟩ : ∃ a : Nat, r.off = a := ⟨r.off.toNat, by
    have := hr.off_nonneg
    omega⟩
  have hinside : r.buf.filled = 0 → a < f.size := by
    intro hempty
    unfold CacheReq.off at ha
    omega
  refine (fillBuffer_cases hc hfill hf.pipes hf.mapped hr.inChain hr.buf ha (by omega)
    hinside).bind ?_
  intro out hout
  obtain ⟨_, hr', _, hsame⟩ := fillBuffer_keeps hf hr hout
  -- the private pipe holds something, and `tee` did not fail
  have hsome : out.1 = true ∧ out.2.2.buf.filled ≠ 0 := by
    cases hout with
    | past hcurr => exact ⟨rfl, by simpa [hcurr] using hstart⟩
    | @stay i b go hcurr hoff hgo hstay =>
        refine ⟨by simpa [htee] using hgo, ?_⟩
        intro hempty
        obtain ⟨j, b', hj, hb, hfull⟩ := hready hempty
        cases hcurr.symm.trans hj
        obtain rfl : b = b' := by omega
        obtain ⟨q, hq⟩ : ∃ q, f.cache[i]? = some q :=
          ⟨_, List.getElem?_eq_getElem (hr.inChain i hcurr)⟩
        have hp := f.afterFill_self (c := c) (a := b) hq
        exact hstay htee hempty _ hp (hfull _ hp)
    | @copy i b n p hcurr hoff hempty hp hfull hpos hle hall =>
        refine ⟨rfl, ?_⟩
        have hlen := (CacheFile.afterFill_pipes hf.pipes p (List.mem_of_getElem? hp)).filled_eq
        simp only [CacheReq.teed, PipeBuf.append_filled, List.length_take]
        omega
  obtain ⟨go, f', r'⟩ := out
  obtain ⟨rfl, hne⟩ := hsome
  dsimp only at hr' hsame hne ⊢
  rw [if_pos rfl]
  have hsum' := hr'.sum
  have hoff' := hr'.off_le
  have hmany : (r'.buf.filled : Int) ≤ r'.bytesToSend := by
    unfold CacheReq.off at hoff'
    omega
  apply (sendBuffer_cases hr'.buf hmany).imp_ok
  intro next hnext
  cases hnext with
  | stop _ hwhy =>
      rcases hwhy with h | h | h
      · exact absurd h hne
      · exact absurd h hsplice.1
      · exact absurd h hsplice.2
  | sent _ _ => exact ⟨_, rfl⟩

/-- **Progress of one call.** -/
theorem socketServeReqSplice_progress (hc : 0 < c) {o : Nat → RoundOut}
    (hk : ServeKernel True o) (hsplice : (o 0).splice.Accepts) (hf : FileOk c f)
    (hr : ReqOk c f r) (hready : r.Ready c f) (hmore : 0 < r.bytesToSend) :
    Ensures (socketServeReqSplice f r o) (fun out => out.2.2.bytesToSend < r.bytesToSend)
      (fun _ => False) := by
  have hP : RoundInvariant c (fun _ => True) (fun _ (_ : CacheReq ι) => True) :=
    ⟨fun _ _ _ _ _ => trivial, fun _ _ _ _ => trivial⟩
  have hfirst := spliceRound_goesOn hc (hk.fill 0) (hk.tee trivial 0) hsplice hf hr hready hmore
  have hround := spliceRound_keeps hP hc (hk.fill 0) trivial hf hr trivial
  unfold socketServeReqSplice iterate
  cases hnext : spliceRound o 0 (f, r) with
  | error e => exact (hfirst.of_error hnext).elim
  | ok next =>
      obtain ⟨s, rfl⟩ := hfirst.of_ok hnext
      obtain ⟨hf', hr', _, hnonneg, hless⟩ := hround.of_ok hnext
      refine (spliceLoop_keeps hP hc (hk.fill) (fun _ => trivial) hf' hr' trivial 1
        (by omega)).imp_ok ?_
      intro out hout
      obtain ⟨_, _, _, _, hle⟩ := hout
      omega

variable [DecidableEq ι] {site : Site ι} {s₀ s : Serving ι}

/-- The header pipe carries all of a file or nothing of it. -/
def Site.wholeFile (site : Site ι) (i : ι) (k : Nat) : Prop := k = (site.content i).length

/-- **No response gets stuck** in a run whose header pipes carry whole files:
a registered request has something left to send, and its next call sends at
least one byte if its socket takes one. -/
theorem response_progress
    (hsite : ∀ i, (site.header i).length < site.cap) (hstart : site.Start s₀)
    (hrun : site.Runs True site.wholeFile s₀ s) {o : Nat → RoundOut}
    (hk : ServeKernel True o) (hsplice : (o 0).splice.Accepts) :
    ∀ r ∈ s.currReqs, ∃ ret f' r',
      socketServeReqSplice (s.files r.file) r o = .ok (ret, f', r') ∧
        r'.bytesToSend < r.bytesToSend := by
  intro r hr
  have hinv := Serving.inv_of_reachable (fun _ => hsite) hstart hrun
  obtain ⟨hok, hmore⟩ := hinv.reqs r hr
  have hready := (hinv.exactReqs trivial r hr).ready site.cap_pos (hinv.files r.file) hok
    (hinv.exactFiles trivial r.file) hmore
  obtain ⟨⟨ret, f', r'⟩, hcall, hless⟩ :=
    (socketServeReqSplice_progress site.cap_pos hk hsplice (hinv.files r.file) hok hready
      hmore).exists_ok
  exact ⟨ret, f', r', hcall, hless⟩

theorem response_progress_sample :
    ∃ s : Serving Unit, s.currReqs.map (fun r => r.sent) = [[7]] ∧
      ∀ r ∈ s.currReqs, ∃ ret f' r',
        socketServeReqSplice (s.files r.file) r (sampleRounds 3) = .ok (ret, f', r') ∧
          r'.bytesToSend < r.bytesToSend := by
  obtain ⟨s, hrun, hsent⟩ := sampleRun True sampleSite.wholeFile
  exact ⟨s, hsent, response_progress (by decide) sampleStart_start hrun
    (sampleRounds_kernel True 3) ⟨nofun, nofun⟩⟩

/-! ## A `tee` that stops early -/

/-- A file of two bytes that fits behind its header of one. -/
def smallSite : Site Unit :=
  { sampleSite with
    content := fun _ => [1, 2]
    content_pos := by decide
    header := fun _ => [7] }

def smallStart : Serving Unit where
  files _ := { sampleFile with buf := [1, 2], size := 2, cache := [.fresh 4 1] }
  currReqs := []
  pools := { reqs := [], pipes := { pool := [], made := 2, memUsed := 8 } }

/-- The socket takes everything. -/
def openRounds (_ : Nat) : RoundOut := { fill := fun _ => .all, tee := .all, splice := .all }

/-- A request for the file; the `tee` behind the headers stops after one byte. -/
def smallRequest : ServingEvent Unit :=
  .stage30 () 5 ⟨.all, true⟩
    { header := [7], keepAliveLeft := 9, fill := fun _ => .all, headerTee := .short 1
      serveTee := .all, serve := openRounds }

/-- The request is left with one byte to send, and no call ever sends it. -/
theorem response_stuck :
    smallSite.Start smallStart ∧
      ∃ s, smallSite.Runs True anyPrefix smallStart s ∧
        ∃ r ∈ s.currReqs, 0 < r.bytesToSend ∧
          ∃ ret f' r', socketServeReqSplice (s.files r.file) r openRounds = .ok (ret, f', r') ∧
            r'.bytesToSend = r.bytesToSend := by
  refine ⟨⟨fun _ => ⟨rfl, rfl, rfl,
      ⟨⟨[], 0, 0⟩, ⟨[], 1, 4⟩, ⟨.all, true⟩, by simp [PipePool.Ok], rfl⟩,
      ⟨⟨[], 1, 4⟩, ⟨[], 2, 8⟩, fun _ => ⟨.all, true⟩, by simp [PipePool.Ok], rfl⟩⟩,
    rfl, by simp [Pools.Ok, PipePool.Ok, smallStart]⟩, ?_⟩
  refine ⟨_, Reachable.of_exec [smallRequest] ?_ rfl, ?_⟩
  · intro e he s
    rw [List.mem_singleton.1 he]
    exact ⟨⟨fun _ => rfl, fun _ => rfl, ⟨fun _ _ => rfl, fun _ _ => rfl⟩⟩,
      fun _ => ⟨rfl, fun _ _ _ _ => trivial⟩⟩
  · exact ⟨_, .head _, by decide, _, _, _, rfl, rfl⟩

end MonkeyCache
