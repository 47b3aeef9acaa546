import MonkeyCache.Insertion

/-!
# The URLs of the API

The web UI and the README put `/cache/add` or `/cache/reset` in front of the URI
of a file.  `_mkp_stage_30` keeps the first `MAX_URI_LEN` characters of what
comes in and then takes the prefix off again.  So a URI comes out whole only if
it fits behind the prefix; a longer one is cut (`apiOf_addUrl`,
`apiOf_resetUrl`), and another file is added or reset (`api_addresses`).
-/

namespace MonkeyCache

open Fallible

variable {cfg : Config} {s s' : Worker} {q : Request} {o : RequestOut} {k : Key}

/-- `"/cache/add" ++ k` -/
def addUrl (k : Key) : Key := apiPrefix ++ (['/', 'a', 'd', 'd'] ++ k)

/-- `"/cache/reset" ++ k` -/
def resetUrl (k : Key) : Key := apiPrefix ++ (['/', 'r', 'e', 's', 'e', 't'] ++ k)

/-- A URI as the table can hold it: it starts with a slash and has no NUL. -/
structure Key.Wellformed (k : Key) : Prop where
  head : ['/'] <+: k
  noNul : ∀ ch ∈ k, ch.toNat ≠ 0

theorem Key.Wellformed.take (h : k.Wellformed) {n : Nat} (hn : 0 < n) :
    Key.Wellformed (k.take n) := by
  obtain ⟨rest, rfl⟩ := h.head
  obtain ⟨m, rfl⟩ : ∃ m, n = m + 1 := ⟨n - 1, by omega⟩
  exact ⟨⟨rest.take m, rfl⟩, fun ch hch => h.noNul ch (List.mem_of_mem_take hch)⟩

/-! ## Taking a URL apart -/

/-- A string without NUL is cut at the end only. -/
theorem cString_append (max : Nat) {p : List Char} (hp : ∀ ch ∈ p, ch.toNat ≠ 0)
    (hmax : p.length ≤ max) (hk : ∀ ch ∈ k, ch.toNat ≠ 0) :
    cString max (p ++ k) = p ++ k.take (max - p.length) := by
  have htake : (p ++ k).take max = p ++ k.take (max - p.length) := by
    rw [List.take_append, List.take_of_length_le hmax]
  unfold cString
  rw [htake, List.takeWhile_eq_self_iff]
  intro ch hch
  rw [decide_eq_true_iff]
  rcases List.mem_append.1 hch with hch | hch
  · exact hp ch hch
  · exact hk ch (List.mem_of_mem_take hch)

theorem apiOf_addUrl (h : k.Wellformed) {body : List Byte} (hbody : body ≠ []) :
    apiOf (addUrl k) body = .add k := by
  obtain ⟨rest, rfl⟩ := h.head
  simp [apiOf, addUrl, apiPrefix, addPrefix, hbody]

theorem apiOf_resetUrl (h : k.Wellformed) (body : List Byte) :
    apiOf (resetUrl k) body = .reset k := by
  obtain ⟨rest, rfl⟩ := h.head
  simp [apiOf, resetUrl, apiPrefix, addPrefix, statsPrefix, resetPrefix]

/-- What is left of a key behind `/cache/add`. -/
theorem Request.uri_add (h : k.Wellformed) (hq : q.uriProcessed = addUrl k) :
    q.uri = addUrl (k.take 502) := by
  have hcut := cString_append maxUriLen (p := apiPrefix ++ ['/', 'a', 'd', 'd']) (k := k)
    (by simp [apiPrefix]) (by simp [apiPrefix, maxUriLen]) h.noNul
  have hroom : maxUriLen - (apiPrefix ++ ['/', 'a', 'd', 'd']).length = 502 := by
    simp [maxUriLen, apiPrefix]
  rw [hroom] at hcut
  unfold Request.uri
  rw [hq]
  unfold addUrl
  rw [← List.append_assoc, ← List.append_assoc]
  exact hcut

/-- What is left of a key behind `/cache/reset`. -/
theorem Request.uri_reset (h : k.Wellformed) (hq : q.uriProcessed = resetUrl k) :
    q.uri = resetUrl (k.take 500) := by
  have hcut := cString_append maxUriLen
    (p := apiPrefix ++ ['/', 'r', 'e', 's', 'e', 't']) (k := k)
    (by simp [apiPrefix]) (by simp [apiPrefix, maxUriLen]) h.noNul
  have hroom : maxUriLen - (apiPrefix ++ ['/', 'r', 'e', 's', 'e', 't']).length = 500 := by
    simp [maxUriLen, apiPrefix]
  rw [hroom] at hcut
  unfold Request.uri
  rw [hq]
  unfold resetUrl
  rw [← List.append_assoc, ← List.append_assoc]
  exact hcut

/-! ## The requests -/

/-- No file has a URI of the API. -/
def Books.NoApiKeys (s : Books) : Prop :=
  ∀ j a, s.tableGet j = some a → ¬ apiPrefix ++ ['/'] <+: j

theorem addUrl_api (k : Key) : apiPrefix ++ ['/'] <+: addUrl k :=
  ⟨['a', 'd', 'd'] ++ k, by simp [addUrl]⟩

theorem resetUrl_api (k : Key) : apiPrefix ++ ['/'] <+: resetUrl k :=
  ⟨['r', 'e', 's', 'e', 't'] ++ k, by simp [resetUrl]⟩

/-- A URI of the API is not found in the table. -/
theorem Books.NoApiKeys.free {b : Books} (h : b.NoApiKeys) {j : Key}
    (hj : apiPrefix ++ ['/'] <+: j) : b.tableGet j = none := by
  cases hget : b.tableGet j with
  | none => rfl
  | some a => exact absurd hj (h j a hget)

/-- A request that is not found in the table is a call of the API. -/
theorem findFile_api (hfree : s.tableGet q.uri = none) :
    findFile cfg s q o = callApi cfg s q o := by
  unfold findFile
  cases q.get with
  | false => rfl
  | true =>
      rw [if_pos rfl, cacheFileGet_free hfree]
      rfl

/-- **A request to add.** -/
theorem stage30_add (hfree : s.tableGet q.uri = none) {key : Key}
    (hadd : apiOf q.uri q.body = .add key) (h : stage30 cfg s q o = .ok (.api, s')) :
    ∃ out, cacheFileTmp cfg.cap s key q.body o.create = .ok (out, s') := by
  unfold stage30 at h
  split at h
  · cases h
  · rw [findFile_api hfree] at h
    unfold callApi at h
    rw [hadd] at h
    obtain ⟨found, hfound, h⟩ := bind_eq_ok.1 h
    obtain ⟨made, htmp, hmade⟩ := bind_eq_ok.1 hfound
    cases hmade
    cases h
    exact ⟨made.1, htmp⟩

/-- **A request to reset.** -/
theorem stage30_reset (hidle : currReqsGet s.currReqs q.socket = none)
    (hfree : s.tableGet q.uri = none) {key : Key} (hreset : apiOf q.uri q.body = .reset key)
    (h : fileTableReset cfg.cap s key = .ok s') : stage30 cfg s q o = .ok (.api, s') := by
  unfold stage30
  rw [hidle]
  dsimp only
  rw [findFile_api hfree]
  unfold callApi
  rw [hreset]
  dsimp only
  rw [h]
  rfl

/-- The object made at `block` is what `k` is bound to, and no other key has
changed. -/
structure Worker.Adds (s : Worker) (k : Key) (body : List Byte) (block : Addr) (s' : Worker) :
    Prop where
  bound : s'.tableGet k = some block
  made : ∃ obj, s'.heap block = some obj ∧ obj.serial = s.serials ∧ obj.file.buf = body
  others : ∀ j, j ≠ k → s'.tableGet j = s.tableGet j

/-- `k` is bound to nothing, and no other key has changed. -/
structure Worker.Unbinds (s : Worker) (k : Key) (s' : Worker) : Prop where
  unbound : s'.tableGet k = none
  others : ∀ j, j ≠ k → s'.tableGet j = s.tableGet j

/-- What a reset does to the table. -/
theorem fileTableReset_unbinds {size : Nat} (h : fileTableReset size s k = .ok s') :
    s.Unbinds k s' ∧ s'.serials = s.serials := by
  rcases fileTableReset_cases h with ⟨hnone, rfl⟩ | ⟨a, obj, hretired⟩
  · exact ⟨⟨hnone, fun _ _ => rfl⟩, rfl⟩
  · exact ⟨⟨hretired.self, fun j hj => hretired.other hj⟩, hretired.serials⟩

/-- **Adding** a key that is stored whole, where no system call fails. -/
theorem cacheFileTmp_adds {size : Nat} (hown : s.UnderOwnUri) (hne : k ≠ [])
    (hshort : k.length < maxUriLen) {body : List Byte} {c : CreateOut} (hc : c.Succeeds)
    {out : Option Addr} (h : cacheFileTmp size s k body c = .ok (out, s')) :
    s.Adds k body c.block s' ∧ ∀ j, j ≠ k → s'.tableGet j ≠ some c.block := by
  obtain ⟨s₁, hreset, hgone, ⟨_, _, hwhy⟩ | ⟨_, headers, chain, hstored⟩⟩ := cacheFileTmp_cases h
  · rcases hwhy with hempty | hfailed
    · exact absurd hempty hne
    · exact absurd hc hfailed
  · obtain ⟨hunbinds, hserials⟩ := fileTableReset_unbinds hreset
    have hown₁ : s₁.UnderOwnUri := by
      rcases fileTableReset_cases hreset with ⟨_, rfl⟩ | ⟨a, obj, hretired⟩
      · exact hown
      · exact hretired.underOwnUri hown
    have hkept := kept_uri hshort
    have hother : ∀ j, j ≠ k → s'.tableGet j = s₁.tableGet j := by
      intro j hj
      exact hstored.other fun heq => hj (heq.trans hkept)
    refine ⟨⟨?_, ⟨_, hstored.heap_self, hserials, rfl⟩, ?_⟩, ?_⟩
    · exact (congrArg s'.tableGet hkept).symm.trans hstored.self
    · intro j hj
      rw [hother j hj, hunbinds.others j hj]
    · -- the block was free, so no key led to it
      intro j hj hblock
      rw [hother j hj] at hblock
      obtain ⟨obj, hlive, _⟩ := hown₁ j _ hblock
      cases hlive.symm.trans hstored.free

/-- **Addressing.**  A key is added through its URL exactly when it has at most
502 characters, and reset exactly when it has at most 500, unless neither the key
nor what is cut out of it is bound. -/
theorem api_addresses (hown : s.UnderOwnUri) (hapi : s.NoApiKeys) (hk : k.Wellformed)
    (hlen : k.length < maxUriLen) :
    (∀ {cfg : Config} {q : Request} {o : RequestOut} {s' : Worker}, q.uriProcessed = addUrl k →
      q.body ≠ [] → o.create.Succeeds → stage30 cfg s q o = .ok (.api, s') →
        (s.Adds k q.body o.create.block s' ↔ k.length ≤ 502)) ∧
    ∀ {cfg : Config} {q : Request} (o : RequestOut), q.uriProcessed = resetUrl k →
      currReqsGet s.currReqs q.socket = none → ∃ s', stage30 cfg s q o = .ok (.api, s') ∧
        (s.Unbinds k s' ↔
          k.length ≤ 500 ∨ (s.tableGet k = none ∧ s.tableGet (k.take 500) = none)) := by
  have hcut : ∀ n, n < k.length → k ≠ k.take n := by
    intro n hn heq
    have h := congrArg List.length heq
    rw [List.length_take] at h
    omega
  constructor
  · intro cfg q o s' hq hbody hsucceeds h
    have huri := Request.uri_add hk hq
    have hfree : s.tableGet q.uri = none := by
      rw [huri]
      exact hapi.free (addUrl_api _)
    have hadd : apiOf q.uri q.body = .add (k.take 502) := by
      rw [huri]
      exact apiOf_addUrl (hk.take (by omega)) hbody
    obtain ⟨out, htmp⟩ := stage30_add hfree hadd h
    have hne : k.take 502 ≠ [] := by
      obtain ⟨rest, rfl⟩ := hk.head
      exact List.cons_ne_nil _ _
    have hshort : (k.take 502).length < maxUriLen := (List.length_take_le _ _).trans_lt (by decide)
    obtain ⟨hadds, hfresh⟩ := cacheFileTmp_adds hown hne hshort hsucceeds htmp
    constructor
    · intro hwhole
      by_contra hlong
      exact hfresh k (hcut 502 (by omega)) hwhole.bound
    · intro hfits
      rw [List.take_of_length_le hfits] at hadds
      exact hadds
  · intro cfg q o hq hidle
    have huri := Request.uri_reset hk hq
    have hfree : s.tableGet q.uri = none := by
      rw [huri]
      exact hapi.free (resetUrl_api _)
    have hreset : apiOf q.uri q.body = .reset (k.take 500) := by
      rw [huri]
      exact apiOf_resetUrl (hk.take (by omega)) q.body
    obtain ⟨s', hdone⟩ := fileTableReset_total cfg.cap hown (k.take 500)
    obtain ⟨hunbinds, _⟩ := fileTableReset_unbinds hdone
    refine ⟨s', stage30_reset hidle hfree hreset hdone, ?_⟩
    by_cases hfits : k.length ≤ 500
    · rw [List.take_of_length_le hfits] at hunbinds
      exact ⟨fun _ => .inl hfits, fun _ => hunbinds⟩
    · have hne := hcut 500 (by omega)
      constructor
      · intro hwhole
        right
        constructor
        · rw [← hunbinds.others k hne]
          exact hwhole.unbound
        · rw [← hwhole.others _ hne.symm]
          exact hunbinds.unbound
      · intro hor
        obtain ⟨hnone, hnone'⟩ := hor.resolve_left hfits
        constructor
        · rw [hunbinds.others k hne]
          exact hnone
        · intro j _
          by_cases hj : j = k.take 500
          · rw [hj, hunbinds.unbound, hnone']
          · exact hunbinds.others j hj

/-! ## One file and its URLs -/

/-- A request with one byte of data. -/
def dataRequest (uri : List Char) : Request where
  socket := 5
  get := false
  uriProcessed := uri
  realPath := uri
  body := [1]

theorem oneFile_noApiKeys {uri : Key} (hshort : uri.length < maxUriLen)
    (hno : ¬ apiPrefix ++ ['/'] <+: uri) (last : Timeval) : (oneFile uri last).NoApiKeys := by
  intro j a hj
  rw [(oneFile_bound hj).1, kept_uri hshort]
  exact hno

/-- `/b` is added to a cache that holds `/a`, or `/a` is reset. -/
theorem api_addresses_sample :
    (∃ s', stage30 plainConfig (oneFile fileA ⟨0, 0⟩) (dataRequest (addUrl fileB))
        (plainOut 200 ⟨0, false, 0⟩ .all) = .ok (.api, s') ∧
      (oneFile fileA ⟨0, 0⟩).Adds fileB [1] 200 s') ∧
    ∃ s', stage30 plainConfig (oneFile fileA ⟨0, 0⟩) (dataRequest (resetUrl fileA))
        (plainOut 200 ⟨0, false, 0⟩ .all) = .ok (.api, s') ∧
      (oneFile fileA ⟨0, 0⟩).Unbinds fileA s' := by
  have hown := oneFile_underOwnUri fileA ⟨0, 0⟩
  have hno := oneFile_noApiKeys (by decide : fileA.length < maxUriLen) (by decide) ⟨0, 0⟩
  have hA : fileA.Wellformed := ⟨by decide, by simp [fileA]⟩
  have hB : fileB.Wellformed := ⟨by decide, by simp [fileB]⟩
  have hadds := @(api_addresses hown hno hB (by decide)).1 plainConfig (dataRequest (addUrl fileB))
    (plainOut 200 ⟨0, false, 0⟩ .all) _ rfl (by decide) ⟨rfl, rfl, rfl, rfl⟩ rfl
  obtain ⟨s', hdone, hiff⟩ := @(api_addresses hown hno hA (by decide)).2 plainConfig
    (dataRequest (resetUrl fileA)) (plainOut 200 ⟨0, false, 0⟩ .all) rfl rfl
  exact ⟨⟨_, rfl, hadds.2 (by decide)⟩, s', hdone, hiff.2 (.inl (by decide))⟩

/-- A file with a URI of 501 characters is still there after its reset. -/
theorem long_uri_not_reset :
    ∃ k s s', Key.Wellformed k ∧ k.length = 501 ∧ s.UnderOwnUri ∧ s.NoApiKeys ∧
      s.tableGet k = some 100 ∧
      stage30 plainConfig s (dataRequest (resetUrl k)) (plainOut 200 ⟨0, false, 0⟩ .all) =
        .ok (.api, s') ∧ s'.tableGet k = some 100 := by
  obtain ⟨k, hk, hlen, hno⟩ : ∃ k : Key, k.Wellformed ∧ k.length = 501 ∧
      ¬ apiPrefix ++ ['/'] <+: k := by
    obtain ⟨n, hn⟩ : ∃ n, n = 499 := ⟨_, rfl⟩
    refine ⟨'/' :: 'a' :: List.replicate n 'a', ⟨⟨_, rfl⟩, ?_⟩, ?_, by simp [apiPrefix]⟩
    · intro ch hch
      simp only [List.mem_cons, List.mem_replicate] at hch
      rcases hch with rfl | rfl | ⟨_, rfl⟩ <;> simp
    · rw [List.length_cons, List.length_cons, List.length_replicate]
      omega
  have hshort : k.length < maxUriLen := by
    unfold maxUriLen
    omega
  have hown := oneFile_underOwnUri k ⟨0, 0⟩
  have hnoKeys := oneFile_noApiKeys hshort hno ⟨0, 0⟩
  have hbound : (oneFile k ⟨0, 0⟩).tableGet k = some 100 :=
    (congrArg (oneFile k ⟨0, 0⟩).tableGet (kept_uri hshort)).symm.trans
      (oneFile_stored k ⟨0, 0⟩).self
  -- the reset is about the first 500 characters
  have hother : (oneFile k ⟨0, 0⟩).tableGet (k.take 500) = none := by
    cases hget : (oneFile k ⟨0, 0⟩).tableGet (k.take 500) with
    | none => rfl
    | some a =>
        have heq := congrArg List.length (oneFile_bound hget).1
        rw [kept_uri hshort, List.length_take, hlen] at heq
        omega
  have hreset : fileTableReset plainConfig.cap (oneFile k ⟨0, 0⟩) (k.take 500) =
      .ok (oneFile k ⟨0, 0⟩) := by
    unfold fileTableReset
    rw [hother]
    exact congrArg Except.ok (Worker.tableDel_of_none hother)
  have huri := Request.uri_reset (q := dataRequest (resetUrl k)) hk rfl
  have hfree : (oneFile k ⟨0, 0⟩).tableGet (dataRequest (resetUrl k)).uri = none := by
    rw [huri]
    exact hnoKeys.free (resetUrl_api _)
  have hapi : apiOf (dataRequest (resetUrl k)).uri (dataRequest (resetUrl k)).body =
      .reset (k.take 500) := by
    rw [huri]
    exact apiOf_resetUrl (hk.take (by omega)) _
  exact ⟨k, _, _, hk, hlen, hown, hnoKeys, hbound, stage30_reset rfl hfree hapi hreset, hbound⟩

end MonkeyCache
