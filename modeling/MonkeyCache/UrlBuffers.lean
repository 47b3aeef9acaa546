import MonkeyCache.ObjectLife

/-!
# The buffers of `_mkp_stage_30`

`_mkp_stage_30` copies what it reads of a request into two arrays on its stack,
`uri` of `MAX_URI_LEN` and `path` of `MAX_PATH_LEN` characters, and writes `path`
again for the calls of the API.  The lengths are cut to those of the arrays, and
the terminator comes behind them.  So a URI or a path that is as long as its array
has its terminator written outside, and nothing else is (`url_buffers`).
-/

namespace MonkeyCache

/-- A character that `_mkp_stage_30` writes, by its index in the array. -/
inductive BufWrite
  | uri (i : Nat)
  | path (i : Nat)
  deriving DecidableEq, Repr

/-- The index lies in the array. -/
def BufWrite.Inside : BufWrite → Prop
  | .uri i => i < maxUriLen
  | .path i => i < maxPathLen

/-- `uri_len` -/
def Request.uriLen (q : Request) : Nat :=
  if maxUriLen < q.uriProcessed.length then maxUriLen else q.uriProcessed.length

/-- `path_len` -/
def Request.pathLen (q : Request) : Nat :=
  if maxPathLen < q.realPath.length then maxPathLen else q.realPath.length

/-- `strncpy` or `memcpy` of `n` characters to `path + start`. -/
def writePath (start n : Nat) : List BufWrite := (List.range n).map fun i => .path (start + i)

/-- The same with a terminator behind it. -/
def putPath (start n : Nat) : List BufWrite := writePath start n ++ [.path (start + n)]

/-- Lines 328 to 330 of `_mkp_stage_30`: two copies and two terminators. -/
def copyWrites (q : Request) : List BufWrite :=
  (List.range q.uriLen).map .uri ++ writePath 0 q.pathLen ++ [.uri q.uriLen, .path q.pathLen]

/-- Lines 336 to 388 of `_mkp_stage_30`, for a request that `cache_file_get` did not
find; `uri_ptr.len` is `uri_len` less what was skipped, and the web UI is refused by
a `mk_bug` before it writes too much. -/
def apiWrites (cfg : Config) (q : Request) : List BufWrite :=
  match apiOf q.uri q.body with
  | .add _ => putPath 0 (q.uriLen - 6 - 4)
  | .reset _ => putPath 0 (q.uriLen - 6 - 6)
  | .webui _ =>
    let len := q.uriLen - 6 - 1
    if maxPathLen ≤ cfg.confDir.length + len then []
    else writePath 0 cfg.confDir.length ++ putPath cfg.confDir.length len
  | _ => []

/-- What `_mkp_stage_30` writes into its arrays, in its order. -/
def stage30Writes (cfg : Config) (s : Worker) (q : Request) (o : RequestOut) : List BufWrite :=
  match currReqsGet s.currReqs q.socket with
  | some _ => []
  | none =>
    match (if q.get then cacheFileGet s q.uri o.now else .ok (none, s)) with
    | .ok (none, _) => copyWrites q ++ apiWrites cfg q
    | _ => copyWrites q

variable {cfg : Config} {s : Worker} {q : Request} {o : RequestOut} {w : BufWrite} {start n : Nat}

theorem writePath_inside (h : start + n ≤ maxPathLen) (hw : w ∈ writePath start n) : w.Inside := by
  obtain ⟨i, hi, rfl⟩ := List.mem_map.1 hw
  have hlt := List.mem_range.1 hi
  show start + i < maxPathLen
  omega

theorem putPath_inside (h : start + n < maxPathLen) (hw : w ∈ putPath start n) : w.Inside := by
  rcases List.mem_append.1 hw with hw | hw
  · exact writePath_inside h.le hw
  · rw [List.mem_singleton.1 hw]
    exact h

/-- **The copies** stay inside if and only if both strings leave room for the
terminator. -/
theorem copyWrites_inside_iff :
    (∀ w ∈ copyWrites q, w.Inside) ↔
      q.uriProcessed.length < maxUriLen ∧ q.realPath.length < maxPathLen := by
  unfold copyWrites
  constructor
  · intro h
    have huri : q.uriLen < maxUriLen := h (.uri q.uriLen) (by simp)
    have hpath : q.pathLen < maxPathLen := h (.path q.pathLen) (by simp)
    unfold Request.uriLen at huri
    unfold Request.pathLen at hpath
    split at huri
    · omega
    · split at hpath
      · omega
      · exact ⟨huri, hpath⟩
  · intro h w hw
    obtain ⟨huri, hpath⟩ := h
    have hurilen : q.uriLen = q.uriProcessed.length := if_neg (by omega)
    have hpathlen : q.pathLen = q.realPath.length := if_neg (by omega)
    rcases List.mem_append.1 hw with hcopy | hend
    · rcases List.mem_append.1 hcopy with hcopy | hcopy
      · obtain ⟨i, hi, rfl⟩ := List.mem_map.1 hcopy
        have hlt := List.mem_range.1 hi
        show i < maxUriLen
        omega
      · exact writePath_inside (by omega) hcopy
    · rw [List.mem_cons, List.mem_singleton] at hend
      rcases hend with rfl | rfl
      · show q.uriLen < maxUriLen
        omega
      · show q.pathLen < maxPathLen
        omega

/-- **The calls of the API** write inside of `path`. -/
theorem apiWrites_inside (hw : w ∈ apiWrites cfg q) : w.Inside := by
  have huri : q.uriLen ≤ maxUriLen := by
    unfold Request.uriLen
    split
    · exact le_rfl
    · omega
  unfold maxUriLen at huri
  have hmax : maxPathLen = 1024 := rfl
  unfold apiWrites at hw
  split at hw
  · exact putPath_inside (by omega) hw
  · exact putPath_inside (by omega) hw
  · dsimp only at hw
    split at hw
    · cases hw
    · rcases List.mem_append.1 hw with hconf | hptr
      · exact writePath_inside (by omega) hconf
      · exact putPath_inside (by omega) hptr
  · cases hw

/-- The copies are made for every request on a free socket. -/
theorem copyWrites_subset (h : currReqsGet s.currReqs q.socket = none) (hw : w ∈ copyWrites q) :
    w ∈ stage30Writes cfg s q o := by
  unfold stage30Writes
  rw [h]
  dsimp only
  split
  · exact List.mem_append_left _ hw
  · exact hw

/-- **Inside the buffers.**  Whatever the route, all writes lie in the arrays if and
only if the socket has a request already, or both strings are shorter than their
arrays. -/
theorem url_buffers (cfg : Config) (s : Worker) (q : Request) (o : RequestOut) :
    (∀ w ∈ stage30Writes cfg s q o, w.Inside) ↔
      currReqsGet s.currReqs q.socket ≠ none ∨
        q.uriProcessed.length < maxUriLen ∧ q.realPath.length < maxPathLen := by
  unfold stage30Writes
  cases currReqsGet s.currReqs q.socket with
  | some r => exact iff_of_true (fun w hw => nomatch hw) (.inl nofun)
  | none =>
      rw [← copyWrites_inside_iff (q := q), or_iff_right (fun h => h rfl)]
      dsimp only
      split
      · constructor
        · intro h w hw
          exact h w (List.mem_append_left _ hw)
        · intro h w hw
          rcases List.mem_append.1 hw with hcopy | hapi
          · exact h w hcopy
          · exact apiWrites_inside hapi
      · exact Iff.rfl

/-- A request for a URI of 512 characters. -/
def longRequest : Request where
  socket := 1
  get := true
  uriProcessed := '/' :: List.replicate 511 'a'
  realPath := ['/']
  body := []

/-- Its terminator is written behind the array. -/
theorem uri_terminator :
    ∃ w ∈ stage30Writes plainConfig .init longRequest (plainOut 100 ⟨0, true, 0⟩ .all),
      w = .uri 512 ∧ ¬ w.Inside := by
  have hlen : longRequest.uriLen = 512 := by
    have hchars : longRequest.uriProcessed.length = 512 := by
      unfold longRequest
      rw [List.length_cons, List.length_replicate]
    unfold Request.uriLen
    rw [hchars]
    rfl
  refine ⟨.uri 512, copyWrites_subset rfl ?_, rfl, Nat.lt_irrefl 512⟩
  unfold copyWrites
  rw [hlen]
  exact List.mem_append_right _ List.mem_cons_self

end MonkeyCache
