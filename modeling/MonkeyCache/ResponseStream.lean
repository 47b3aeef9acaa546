import MonkeyCache.ServingRuns

/-!
# What the sockets, the pipes and the server get

The three results about every run of the serving machine whose `vmsplice` takes
everything that fits: each socket gets its response and nothing else, each pipe
of a chain holds its own chunk of the file, and the checks of the serving path
stay silent whatever `tee` and `splice` answer.
-/

namespace MonkeyCache

open Fallible Chunks Transition

variable {ι : Type} [DecidableEq ι] {site : Site ι} {s₀ s : Serving ι}

/-- The header pipe may carry any part of a file. -/
def anyPrefix (_ : ι) (_ : Nat) : Prop := True

/-! ## A worker with one file -/

/-- Pipes of four bytes and a file of six, so that its second pipe stays short. -/
def sampleSite : Site Unit where
  cap := 4
  cap_pos := by decide
  content _ := [1, 2, 3, 4, 5, 6]
  content_pos _ := by decide
  header _ := [7, 8]

/-- The file of `sampleSite` as `cache_file_new` leaves it. -/
def sampleFile : CacheFile where
  fd := 3
  buf := [1, 2, 3, 4, 5, 6]
  size := 6
  uri := ['/', 'a']
  cache := [.fresh 4 1, .fresh 4 2]
  cacheHeaders := .fresh 4 0
  evictable := true
  lastAccessed := ⟨0, 0⟩
  headerLen := 0
  zombie := false
  pendingReqs := 0

def sampleStart : Serving Unit where
  files _ := sampleFile
  currReqs := []
  pools := { reqs := [], pipes := { pool := [], made := 3, memUsed := 12 } }

/-- The sample start is a start: one fresh file, its pipes made, and no request. -/
theorem sampleStart_start : sampleSite.Start sampleStart where
  files _ :=
    { buf_eq := rfl
      size_eq := rfl
      headerLen_eq := rfl
      headers := ⟨⟨[], 0, 0⟩, ⟨[], 1, 4⟩, ⟨.all, true⟩, by simp [PipePool.Ok], rfl⟩
      cache := ⟨⟨[], 1, 4⟩, ⟨[], 3, 12⟩, fun _ => ⟨.all, true⟩, by simp [PipePool.Ok], rfl⟩ }
  idle := rfl
  pools := by simp [Pools.Ok, PipePool.Ok, sampleStart]

/-- The socket takes `n` bytes in the first round and would block in the next. -/
def sampleRounds (n : Nat) : Nat → RoundOut
  | 0 => { fill := fun _ => .all, tee := .all, splice := .short n }
  | _ => { fill := fun _ => .all, tee := .all, splice := .eagain }

/-- A request for the file on socket 5, of which one byte is sent at once. -/
def sampleRequest : ServingEvent Unit :=
  .stage30 () 5 ⟨.all, true⟩
    { header := [7, 8], keepAliveLeft := 9, fill := fun _ => .all, headerTee := .all
      serveTee := .all, serve := sampleRounds 1 }

/-- In the sample rounds every fill and every tee takes all that fits, as the kernel must. -/
theorem sampleRounds_kernel (full : Prop) (n : Nat) : ServeKernel full (sampleRounds n) where
  fill k j := by cases k <;> rfl
  tee _ k := by cases k <;> rfl

/-- In any state the kernel may answer the sample request so: its header fits in the pipe. -/
theorem sampleRequest_kernel (full : Prop) (A : Unit → Nat → Prop) (s : Serving Unit) :
    sampleSite.Kernel full A s sampleRequest :=
  ⟨⟨fun _ => rfl, fun _ => rfl, sampleRounds_kernel full 1⟩,
    fun _ => ⟨rfl, fun _ hfit _ _ => absurd hfit (by decide)⟩⟩

/-- The run that consists of this request. -/
theorem sampleRun (full : Prop) (A : Unit → Nat → Prop) :
    ∃ s, sampleSite.Runs full A sampleStart s ∧
      s.currReqs.map (fun r => r.sent) = [[7]] := by
  refine ⟨_, Reachable.of_exec [sampleRequest] ?_ rfl, rfl⟩
  intro e he s
  rw [List.mem_singleton.1 he]
  exact sampleRequest_kernel full A s

/-! ## Responses -/

/-- **Exact response stream.**  What a registered request has put on its socket
is a prefix of its stream, and so is what a call leaves on the socket; the call
returns 0 exactly when that is the whole stream. -/
theorem response_stream
    (hsite : ∀ i, (site.header i).length < site.cap) (hstart : site.Start s₀)
    (hrun : site.Runs True anyPrefix s₀ s) :
    (∀ r ∈ s.currReqs, r.sent <+: r.stream (site.content r.file) (site.header r.file)) ∧
      ∀ e ret r s', site.Kernel True anyPrefix s e →
        s.step site.cap e = .ok (some (ret, r), s') →
        r.sent <+: r.stream (site.content r.file) (site.header r.file) ∧
          (ret = 0 ↔ r.sent = r.stream (site.content r.file) (site.header r.file)) := by
  have hinv := Serving.inv_of_reachable (fun _ => hsite) hstart hrun
  constructor
  · intro r hr
    exact (hinv.exactReqs trivial r hr).sent_initial
  · intro e ret r s' hk hstep
    obtain ⟨_, hreport⟩ := (Serving.step_keeps (fun _ => hsite) hinv hk).of_ok hstep
    exact hreport (ret, r) rfl trivial

/-- After the sample run the one current request has sent its first byte, a prefix of its
stream. -/
theorem response_stream_sample :
    ∃ s : Serving Unit, s.currReqs.map (fun r => r.sent) = [[7]] ∧
      ∀ r ∈ s.currReqs, r.sent <+: r.stream [1, 2, 3, 4, 5, 6] [7, 8] := by
  obtain ⟨s, hrun, hsent⟩ := sampleRun True anyPrefix
  exact ⟨s, hsent, (response_stream (by decide) sampleStart_start hrun).1⟩

/-! ## The shared pipes -/

/-- **Chunk cache.**  The chain of a file has a pipe for every chunk, and the
`j`-th pipe is empty or holds exactly the `j`-th chunk. -/
theorem chunk_cache
    (hsite : ∀ i, (site.header i).length < site.cap) (hstart : site.Start s₀)
    (hrun : site.Runs True anyPrefix s₀ s) (i : ι) :
    (s.files i).cache.length = count site.cap (site.content i).length ∧
      ∀ j p, (s.files i).cache[j]? = some p →
        p.data = slice (site.content i) (j * site.cap) p.filled ∧
          p.data.length = p.filled ∧
          (p.filled = 0 ∨ p.filled = min site.cap ((site.content i).length - j * site.cap)) := by
  have hinv := Serving.inv_of_reachable (fun _ => hsite) hstart hrun
  have hok := hinv.files i
  refine ⟨hinv.size_eq i ▸ hok.chain, ?_⟩
  intro j p hp
  obtain ⟨hfilled, hdata⟩ := (hinv.exactFiles trivial i).chunks j p hp
  exact ⟨hdata, (hok.pipes p (List.mem_of_getElem? hp)).filled_eq.symm, hfilled⟩

/-- After the sample run the object owns the two pipes of its chunks, the first filled exactly.
-/
theorem chunk_cache_sample :
    ∃ s : Serving Unit, (s.files ()).cache.length = 2 ∧
      ∀ p, (s.files ()).cache[0]? = some p →
        p.data = slice [1, 2, 3, 4, 5, 6] 0 p.filled := by
  obtain ⟨s, hrun, _⟩ := sampleRun True anyPrefix
  obtain ⟨hlen, hpipes⟩ := chunk_cache (by decide) sampleStart_start hrun ()
  exact ⟨s, hlen, fun p hp => (hpipes 0 p hp).1⟩

/-! ## Checks that stay silent -/

/-- **The serving path never aborts the server.**  Whatever `tee` and `splice`
answer, no check of the serving path fires, nothing outside the file is read,
the loops end, and a request that stays registered has something left to send. -/
theorem serving_never_aborts (hstart : site.Start s₀)
    (hrun : site.Runs False anyPrefix s₀ s) :
    (∀ r ∈ s.currReqs, 0 < r.bytesToSend) ∧
      ∀ e fault, site.Kernel False anyPrefix s e → s.step site.cap e = .error fault →
        fault ∉ [Fault.offsetPastEnd, .negativeChunk, .pipeFull, .negativeLen, .readOutside,
          .lengthMismatch, .oversent, .diverged, .deadlock, .noPipe] := by
  have hinv := Serving.inv_of_reachable (fun h => h.elim) hstart hrun
  constructor
  · intro r hr
    exact (hinv.reqs r hr).2
  · intro e fault hk hstep
    have hsetup := (Serving.step_keeps (fun h => h.elim) hinv hk).of_error hstep
    rcases hsetup with rfl | rfl | rfl | rfl | rfl | rfl <;> decide

/-- The sample run reaches a state in which a request is still being served. -/
theorem serving_never_aborts_sample :
    ∃ s : Serving Unit, s.currReqs.map (fun r => r.sent) = [[7]] ∧
      ∀ r ∈ s.currReqs, 0 < r.bytesToSend := by
  obtain ⟨s, hrun, hsent⟩ := sampleRun False anyPrefix
  exact ⟨s, hsent, (serving_never_aborts sampleStart_start hrun).1⟩

end MonkeyCache
