import MonkeyCache.WorkerRuns

/-!
# Lifetime of the file objects

What the books say in every state a worker reaches.  `cache_file_tmp` leaves
`zombie` and `pending_reqs` as they were in the block it was given.  The results
are about runs in which these blocks do no harm; `added_freed_in_table` and
`new_freed_in_table` show what other blocks do.
-/

namespace MonkeyCache

open Fallible Transition

variable {cfg : Config} {s : Worker}

/-- Runs in which the blocks of the added resources are safe. -/
def safeBlocks : Regime where
  junk := Junk.Safe
  junk_safe _ := id
  uriMax := maxUriLen
  content _ _ := True
  pin _ := none
  pin_short _ _ := nofun

/-- Such runs over URIs that fit into a file object. -/
def shortUris : Regime := { safeBlocks with uriMax := maxUriLen - 2 }

/-- Runs in which the blocks of the added resources happen to be cleared. -/
def clearedBlocks : Regime :=
  { safeBlocks with
    junk := fun j => j.pendingReqs = 0 ∧ j.zombie = false
    junk_safe := fun _ => .inr }

/-! ## Runs to look at -/

/-- Pipes of four bytes. -/
def plainConfig : Config := { cap := 4, confDir := ['/', 'e', '/'] }

/-- A constructor without any trouble. -/
def plainCreate (block : Addr) (junk : Junk) : CreateOut where
  fd := 3
  opened := true
  written := true
  mapped := true
  block := block
  junk := junk
  headers := ⟨.all, true⟩
  pipes _ := ⟨.all, true⟩
  now := ⟨0, 0⟩
  stored := true

/-- A request that gets the block, with `junk` in it, for the object it needs; every
file on the disk is one byte long. -/
def plainOut (block : Addr) (junk : Junk) (x : Xfer) : RequestOut where
  disk _ := some [1]
  now := ⟨0, 0⟩
  create := plainCreate block junk
  retry := plainCreate block junk
  pipe := ⟨.all, true⟩
  start :=
    { header := [7], keepAliveLeft := 9, fill := fun _ => .all, headerTee := .all, serveTee := .all
      serve := fun _ => { fill := fun _ => .all, tee := .all, splice := x } }

def plainRequest (socket : Int) (get : Bool) (uri : Key) (body : List Byte) (block : Addr)
    (junk : Junk) (x : Xfer) : WorkerEvent :=
  .stage30 { socket := socket, get := get, uriProcessed := uri, realPath := uri, body := body }
    (plainOut block junk x)

/-- `/cache/add/a`, `/cache/reset/a` and two files. -/
def addA : Key := apiPrefix ++ ['/', 'a', 'd', 'd', '/', 'a']
def resetA : Key := apiPrefix ++ ['/', 'r', 'e', 's', 'e', 't', '/', 'a']
def fileA : Key := ['/', 'a']
def fileB : Key := ['/', 'b']

/-! ## Files from the disk -/

/-- **Lifetime of a cached file.** -/
theorem file_lifetime (hrun : Worker.Runs cfg shortUris.Allows Worker.init s) :
    (∀ a o, s.heap a = some o → o.maker = .cacheFileNew →
      o.file.pendingReqs = s.refs a ∧ (s.inTable a = true ∨ 0 < s.refs a)) ∧
    (s.currReqs.map (fun r => r.socket)).Nodup ∧
    (∀ x ∈ s.frees, x.maker = .cacheFileNew → x.inTable = false ∧ x.refs = 0) ∧
    (s.frees.map (fun x => x.serial)).Nodup ∧
    ∀ e fault, shortUris.Allows e → s.step cfg e = .error fault → fault ≠ .useAfterFree := by
  have hreads : ∀ e, shortUris.Reads cfg e := .of_any fun _ _ => trivial
  have hinv := Worker.inv_of_runs (Worker.init_inv fun _ => rfl) (fun e he => ⟨he, hreads e⟩) hrun
  refine ⟨?_, hinv.core.sockets, ?_, hinv.core.once, ?_⟩
  · intro a o ha hnew
    have hs := hinv.core.sound a o ha
    have hbase := hs.of_new hnew
    refine ⟨by rw [hs.counted, hbase, Int.zero_add], ?_⟩
    have hshort : o.file.uri.length < maxUriLen - 1 := Nat.lt_of_le_of_lt hs.uri_le (by decide)
    rcases hinv.noLeak a o ha hbase hshort with hget | ⟨_, hpos⟩ | hno
    · exact .inl ((hinv.core.inTable_iff ha).2 hget)
    · exact .inr hpos
    · exact hno.elim
  · intro x hx _
    exact (hinv.core.clean x hx).2
  · intro e fault hallow hstep
    exact (Worker.step_keeps hinv hallow (hreads e)).of_error hstep

/-- A request for a file whose socket takes nothing yet. -/
theorem file_lifetime_sample :
    ∃ s : Worker, s.refs 100 = 1 ∧ ∀ a o, s.heap a = some o → o.maker = .cacheFileNew →
      o.file.pendingReqs = s.refs a ∧ (s.inTable a = true ∨ 0 < s.refs a) := by
  have hrun : Worker.Runs plainConfig shortUris.Allows Worker.init _ :=
    .of_exec [plainRequest 5 true fileA [] 100 ⟨0, true, -7⟩ .eagain]
      (by
        intro e he _
        rw [List.mem_singleton.1 he]
        exact ⟨by decide, nofun, nofun⟩) rfl
  exact ⟨_, rfl, (file_lifetime hrun).1⟩

/-- A resource is added in a block that says zombie, and the end of its first
request frees it.  Its block becomes the object of another file, which a reset
of the first URI frees although it is in the table. -/
theorem new_freed_in_table :
    ∃ s, Worker.Runs plainConfig
        (fun e => ∀ q out, e = .stage30 q out → q.uri.length < maxUriLen - 1) Worker.init s ∧
      ∃ x ∈ s.frees, x.maker = .cacheFileNew ∧ x.inTable = true := by
  have hrun : Worker.Runs plainConfig
      (fun e => ∀ q out, e = .stage30 q out → q.uri.length < maxUriLen - 1) Worker.init _ :=
    .of_exec [plainRequest 5 false addA [1] 100 ⟨0, true, 0⟩ .all,
        plainRequest 5 true fileA [] 200 ⟨0, false, 0⟩ .all,
        plainRequest 5 true fileB [] 100 ⟨0, false, 0⟩ .all,
        plainRequest 5 true resetA [] 300 ⟨0, false, 0⟩ .all]
      (by
        intro e he _ q out heq
        subst heq
        simp only [plainRequest, List.mem_cons, WorkerEvent.stage30.injEq, List.not_mem_nil,
          or_false] at he
        rcases he with ⟨rfl, _⟩ | ⟨rfl, _⟩ | ⟨rfl, _⟩ | ⟨rfl, _⟩ <;> decide) rfl
  exact ⟨_, hrun, ⟨.cacheFileNew, 1, true, 0⟩, List.mem_cons_of_mem _ List.mem_cons_self, rfl,
    rfl⟩

/-! ## Added resources -/

/-- **Reference counting of added resources.** -/
theorem added_lifetime (hrun : Worker.Runs cfg clearedBlocks.Allows Worker.init s) :
    (∀ a o, s.heap a = some o → o.maker = .cacheFileTmp →
      s.inTable a = true ∨ 0 < s.refs a) ∧
    (∀ x ∈ s.frees, x.maker = .cacheFileTmp → x.inTable = false ∧ x.refs = 0) ∧
    (s.frees.map (fun x => x.serial)).Nodup ∧
    ∀ e fault, clearedBlocks.Allows e → s.step cfg e = .error fault →
      fault ≠ .useAfterFree := by
  have hreads : ∀ e, clearedBlocks.Reads cfg e := .of_any fun _ _ => trivial
  have hinv := Worker.inv_of_runs (Worker.init_inv fun _ => rfl) (fun e he => ⟨he, hreads e⟩) hrun
  refine ⟨?_, ?_, hinv.core.once, ?_⟩
  · intro a o ha htmp
    have hs := hinv.core.sound a o ha
    have hbase : o.base = 0 := by
      rcases hs.of_tmp htmp with ⟨j, ⟨hzero, _⟩, hj⟩ | hpin
      · rw [← hj, hzero]
      · cases hpin
    rcases hinv.noLeak a o ha hbase (hs.uri_short htmp) with hget | ⟨_, hpos⟩ | hno
    · exact .inl ((hinv.core.inTable_iff ha).2 hget)
    · exact .inr hpos
    · exact hno.elim
  · intro x hx _
    exact (hinv.core.clean x hx).2
  · intro e fault hallow hstep
    exact (Worker.step_keeps hinv hallow (hreads e)).of_error hstep

/-- An added resource that is reset while a request is served from it. -/
theorem added_lifetime_sample :
    ∃ s : Worker, s.inTable 100 = false ∧ s.refs 100 = 1 ∧ ∀ a o, s.heap a = some o →
      o.maker = .cacheFileTmp → s.inTable a = true ∨ 0 < s.refs a := by
  have hrun : Worker.Runs plainConfig clearedBlocks.Allows Worker.init _ :=
    .of_exec [plainRequest 5 false addA [1] 100 ⟨0, false, 0⟩ .all,
        plainRequest 5 true fileA [] 200 ⟨0, false, 0⟩ .eagain,
        plainRequest 6 true resetA [] 200 ⟨0, false, 0⟩ .all]
      (by
        intro e he _
        simp only [List.mem_cons, List.not_mem_nil, or_false] at he
        rcases he with rfl | rfl | rfl
        · exact ⟨by decide, fun _ _ => ⟨rfl, rfl, rfl⟩, nofun⟩
        · exact ⟨by decide, nofun, nofun⟩
        · exact ⟨by decide, nofun, fun _ _ => rfl⟩) rfl
  exact ⟨_, rfl, rfl, (added_lifetime hrun).1⟩

/-- A resource is added in a block that says zombie: the end of its first request
frees it while it is in the table. -/
theorem added_freed_in_table :
    ∃ s, Worker.Runs plainConfig (fun _ => True) Worker.init s ∧
      ∃ x ∈ s.frees, x.maker = .cacheFileTmp ∧ x.inTable = true := by
  have hrun : Worker.Runs plainConfig (fun _ => True) Worker.init _ :=
    .of_exec [plainRequest 5 false addA [1] 100 ⟨0, true, 0⟩ .all,
        plainRequest 5 true fileA [] 200 ⟨0, false, 0⟩ .all]
      (fun _ _ _ => trivial) rfl
  exact ⟨_, hrun, ⟨.cacheFileTmp, 0, true, 0⟩, List.mem_cons_self, rfl, rfl⟩

end MonkeyCache
