import MonkeyCache.ObjectLife

/-!
# An added resource stays until it is reset

`cache_file_tmp` overlays a URL with a resource of its own.  The key is pinned
to the object from then on (`pinnedTo`), and the books keep the pin through every
event that does not name the key: eviction passes it by, a constructor finds it,
and requests with longer URIs store other keys.
-/

namespace MonkeyCache

open Fallible Transition

variable {cfg : Config} {s₀ s₁ s : Worker} {k : Key} {body : List Byte} {o : CreateOut}

/-- The regime after the resource at `a` was added under `k`. -/
def pinnedTo (k : Key) (hk : k.length < maxUriLen - 1) (p : Pin) : Regime :=
  { safeBlocks with
    pin := fun j => if j = k then some p else none
    pin_short := by
      intro j q h
      split at h
      · rename_i hj
        exact hj ▸ hk
      · cases h }

/-- The request is a `/cache/add` or `/cache/reset` for the key. -/
def Request.Names (q : Request) (k : Key) : Prop :=
  let uri := q.uriProcessed.takeWhile (fun ch => ch.toNat ≠ 0)
  (uri = apiPrefix ++ ['/', 'a', 'd', 'd'] ++ k ∧ q.body ≠ []) ∨
    uri = apiPrefix ++ ['/', 'r', 'e', 's', 'e', 't'] ++ k

/-- The event names another key, if any, and an added resource gets a safe
block. -/
def OtherKeys (k : Key) : WorkerEvent → Prop
  | .stage30 q out => ¬ q.Names k ∧
      ∀ key, apiOf q.uri q.body = .add key → out.create.junk.Safe
  | _ => True

/-! ## What a request names -/

theorem apiOf_reset {uri key : Key} {body : List Byte} (h : apiOf uri body = .reset key) :
    uri = apiPrefix ++ ['/', 'r', 'e', 's', 'e', 't'] ++ key := by
  unfold apiOf at h
  split at h
  · rename_i happ
    obtain ⟨ptr, rfl⟩ := happ
    rw [List.drop_left] at h
    dsimp only at h
    split at h
    · cases h
    · split at h
      · cases h
      · split at h
        · rename_i hreset
          obtain ⟨rest, rfl⟩ := hreset
          cases h
          simp [resetPrefix]
        · split at h <;> cases h
  · cases h

/-- A URI that was not cut off is the one that was sent. -/
theorem Request.uri_eq (q : Request) (h : q.uri.length < maxUriLen) :
    q.uri = q.uriProcessed.takeWhile (fun ch => ch.toNat ≠ 0) := by
  have htake : q.uri = (q.uriProcessed.takeWhile (fun ch => ch.toNat ≠ 0)).take maxUriLen := by
    unfold Request.uri cString
    exact List.take_takeWhile.symm
  rw [htake, List.length_take] at h
  rw [htake]
  exact List.take_of_length_le (by omega)

/-- **Truncation names no short key.** -/
theorem OtherKeys.allows (hk : k.length ≤ 499) (p : Pin) {e : WorkerEvent}
    (h : OtherKeys k e) : (pinnedTo k (by unfold maxUriLen; omega) p).Allows e := by
  cases e with
  | stage30 q out =>
      obtain ⟨hnames, hsafe⟩ := h
      refine ⟨q.uri_length, ?_, ?_⟩
      · intro key hadd
        refine ⟨if_neg ?_, hsafe key hadd⟩
        intro heq
        subst heq
        obtain ⟨huri, hbody⟩ := apiOf_add hadd
        have hlen := congrArg List.length huri
        simp only [apiPrefix, List.length_append, List.length_cons, List.length_nil] at hlen
        have hfull := q.uri_eq (by unfold maxUriLen; omega)
        exact hnames (.inl ⟨hfull.symm.trans huri, hbody⟩)
      · intro key hreset
        refine if_neg ?_
        intro heq
        subst heq
        have huri := apiOf_reset hreset
        have hlen := congrArg List.length huri
        simp only [apiPrefix, List.length_append, List.length_cons, List.length_nil] at hlen
        have hfull := q.uri_eq (by unfold maxUriLen; omega)
        exact hnames (.inr (hfull.symm.trans huri))
  | eventWrite _ _ => trivial
  | eventError _ => trivial
  | eventTimeout _ => trivial
  | tick _ => trivial

/-! ## The resource -/

/-- `cache_file_tmp` pins the key, if the block is no zombie or its counter is
positive. -/
theorem cacheFileTmp_pins (h : s₀.Inv safeBlocks) (hk : k.length < maxUriLen - 1)
    (hjunk : o.junk.zombie = false ∨ 0 < o.junk.pendingReqs) {a : Addr}
    (hadd : cacheFileTmp cfg.cap s₀ k body o = .ok (some a, s₁)) :
    s₁.Inv (pinnedTo k hk ⟨a, s₀.serials, body⟩) := by
  have hstored := stored_uri (Nat.le_of_lt hk)
  have hR : safeBlocks.Extends (pinnedTo k hk ⟨o.block, s₀.serials, body⟩) k :=
    ⟨rfl, rfl, rfl, fun j hj => if_neg hj, rfl⟩
  have hself : (pinnedTo k hk ⟨o.block, s₀.serials, body⟩).pin (k.take (maxUriLen - 1)) =
      some ⟨o.block, s₀.serials, body⟩ := by
    rw [hstored]
    exact if_pos rfl
  have hmade := (cacheFileTmp_keeps h hk hR ?_).of_ok hadd
  · rcases hmade with ⟨hnone, _⟩ | ⟨hsome, hs, _⟩
    · cases hnone
    · cases hsome
      exact hs.inv
  · intro headers chain
    exact
      { serial_eq := rfl
        pending_eq := rfl
        out := by
          intro hz
          rcases hjunk with hno | hpos
          · exact absurd (hno.symm.trans hz) nofun
          · exact hpos
        base_nonneg := by
          rcases hjunk with hno | hpos
          · right
            refine ⟨hno, ?_⟩
            show ((pinnedTo k hk _).pin (k.take _)).isSome
            rw [hself]
            rfl
          · exact .inl (Int.le_of_lt hpos)
        of_new := nofun
        of_tmp := by
          intro _
          right
          show ((pinnedTo k hk _).pin (k.take _)).isSome
          rw [hself]
          rfl
        uri_le := by
          show (k.take _).length ≤ maxUriLen
          rw [hstored]
          unfold maxUriLen at hk ⊢
          omega
        uri_short := by
          intro _
          show (k.take _).length < _
          rw [hstored]
          exact hk
        content := trivial
        sized := rfl
        pinned := by
          intro p hp
          cases hself.symm.trans hp
          exact ⟨rfl, ⟨rfl, rfl, rfl, rfl, hjunk⟩⟩ }

/-- **An added resource stays.**  Once `cache_file_tmp` has succeeded,
`cache_file_get` returns its object, with the data that was added, as long as no
`/cache/add` and no `/cache/reset` names the key. -/
theorem added_resource_stays (hk : k.length ≤ 499)
    (hbefore : Worker.Runs cfg safeBlocks.Allows Worker.init s₀)
    (hjunk : o.junk.zombie = false ∨ 0 < o.junk.pendingReqs) {a : Addr}
    (hadd : cacheFileTmp cfg.cap s₀ k body o = .ok (some a, s₁))
    (hrun : Worker.Runs cfg (OtherKeys k) s₁ s) :
    ∃ obj₁ obj, s₁.heap a = some obj₁ ∧ s.heap a = some obj ∧ obj.serial = obj₁.serial ∧
      obj.file.buf = body ∧ obj.file.size = body.length ∧
      ∀ now, ∃ s', cacheFileGet s k now = .ok (some a, s') := by
  have hshort : k.length < maxUriLen - 1 := by
    unfold maxUriLen
    omega
  have hstart : s₀.Inv safeBlocks := Worker.inv_of_runs (Worker.init_inv fun _ => rfl)
    (fun e he => ⟨he, .of_any (fun _ _ => trivial) e⟩) hbefore
  have hpinned := cacheFileTmp_pins hstart hshort hjunk hadd
  have hinv := Worker.inv_of_runs hpinned
    (fun e he => ⟨he.allows hk _, .of_any (fun _ _ => trivial) e⟩) hrun
  obtain ⟨_, obj₁, hobj₁, hpin₁⟩ := hpinned.core.pinned k _ (if_pos rfl)
  obtain ⟨hget, obj, hobj, hpin⟩ := hinv.core.pinned k _ (if_pos rfl)
  refine ⟨obj₁, obj, hobj₁, hobj, hpin.serial.trans hpin₁.serial.symm, hpin.buf, hpin.size, ?_⟩
  intro now
  unfold cacheFileGet
  rw [hget]
  dsimp only
  rw [Books.deref_ok hobj]
  exact ⟨_, rfl⟩

/-- A fresh worker to which one byte was added as `/a`, in a block with `junk`. -/
def addedWorker (junk : Junk) : Worker :=
  match cacheFileTmp plainConfig.cap Worker.init fileA [1] (plainCreate 100 junk) with
  | .ok out => out.2
  | .error _ => Worker.init

/-- A resource whose counter starts at 7 is served once and looked up again. -/
theorem added_resource_stays_sample :
    ∃ s : Worker, s.frees = [] ∧ ∃ obj₁ obj, (addedWorker ⟨0, true, 7⟩).heap 100 = some obj₁ ∧
      s.heap 100 = some obj ∧ obj.serial = obj₁.serial ∧ obj.file.buf = [1] := by
  have hadd : cacheFileTmp plainConfig.cap Worker.init fileA [1] (plainCreate 100 ⟨0, true, 7⟩) =
      .ok (some 100, addedWorker ⟨0, true, 7⟩) := rfl
  have hrun : Worker.Runs plainConfig (OtherKeys fileA) (addedWorker ⟨0, true, 7⟩) _ :=
    .of_exec [plainRequest 5 true fileA [] 200 ⟨0, false, 0⟩ .all]
      (by
        intro e he _
        rw [List.mem_singleton.1 he]
        refine ⟨?_, nofun⟩
        intro hnames
        rcases hnames with ⟨_, hbody⟩ | huri
        · exact hbody rfl
        · exact absurd (congrArg List.length huri) (by decide)) rfl
  obtain ⟨obj₁, obj, h₁, h, hserial, hbuf, _⟩ :=
    added_resource_stays (by decide) .init (.inr (by decide)) hadd hrun
  exact ⟨_, rfl, obj₁, obj, h₁, h, hserial, hbuf⟩

/-- In a block that says zombie, the resource is freed by the end of its first
request, and `cache_file_get` goes on returning it. -/
theorem added_resource_freed :
    cacheFileTmp plainConfig.cap Worker.init fileA [1] (plainCreate 100 ⟨0, true, 0⟩) =
        .ok (some 100, addedWorker ⟨0, true, 0⟩) ∧
      ∃ s, Worker.Runs plainConfig (fun e => ∀ q out, e = .stage30 q out → ¬ q.Names fileA)
          (addedWorker ⟨0, true, 0⟩) s ∧
        s.tableGet fileA = some 100 ∧ s.heap 100 = none := by
  have hrun : Worker.Runs plainConfig
      (fun e => ∀ q out, e = .stage30 q out → ¬ q.Names fileA) (addedWorker ⟨0, true, 0⟩) _ :=
    .of_exec [plainRequest 5 true fileA [] 200 ⟨0, false, 0⟩ .all]
      (by
        intro e he _ q out heq hnames
        rw [List.mem_singleton.1 he] at heq
        cases heq
        rcases hnames with ⟨_, hbody⟩ | huri
        · exact hbody rfl
        · exact absurd (congrArg List.length huri) (by decide)) rfl
  exact ⟨rfl, _, hrun, rfl, rfl⟩

end MonkeyCache
