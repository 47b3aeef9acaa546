import MonkeyCache.ObjectLife

/-!
# What the cache serves

Without `/cache/add`, and over a disk that does not change, a request should be
served what it would be served with an empty `file_table` (`directFile`).  The
web UI stores the file of `/cache/webui/x` under the rest of its URI,
`/webui/x`, which has a file of its own: `mixed_webui` is a run in which one is
served for the other.  In runs that request a key in one of the two ways, unless
its two files agree, every key stands for one file (`KeptApart`).
-/

namespace MonkeyCache

open Fallible Transition

variable {cfg : Config} {disk : Key → Option (List Byte)} {real : Key → Key}
variable {lent : Key → Bool} {s t : Worker} {q : Request} {out : RequestOut} {a : Addr} {size : Nat}

/-- The file of the web UI for what is left of a URI. -/
def webuiFile (cfg : Config) (disk : Key → Option (List Byte)) (ptr : Key) : Option (List Byte) :=
  onDisk disk (cfg.confDir ++ ptr.drop 1)

/-- The file of a URI when `file_table` is empty.  `real` gives the path that the
server makes of a URI. -/
def directFile (cfg : Config) (disk : Key → Option (List Byte)) (real : Key → Key) (uri : Key) :
    Option (List Byte) :=
  match apiOf uri [] with
  | .webui ptr => webuiFile cfg disk ptr
  | .file => onDisk disk (real uri)
  | _ => none

/-- Events over an unchanged disk without `/cache/add`. -/
def Undisturbed (disk : Key → Option (List Byte)) (real : Key → Key) : WorkerEvent → Prop
  | .stage30 q out => out.disk = disk ∧ q.path = real q.uri ∧ q.uri.length < maxUriLen - 1 ∧
      ∀ key, apiOf q.uri q.body ≠ .add key
  | _ => True

/-- A key is requested through the web UI if it is `lent`, and otherwise as
itself; in the other way only where this finds no other file. -/
def KeptApart (cfg : Config) (disk : Key → Option (List Byte)) (real : Key → Key)
    (lent : Key → Bool) : WorkerEvent → Prop
  | .stage30 q _ =>
      (∀ ptr content, apiOf q.uri q.body = .webui ptr → lent ptr = false →
        webuiFile cfg disk ptr = some content → onDisk disk (real ptr) = some content) ∧
      (apiOf q.uri q.body = .file → lent q.uri = true →
        onDisk disk (real q.uri) = webuiFile cfg disk q.uri)
  | _ => True

/-- The one file that a key stands for. -/
def keyFile (cfg : Config) (disk : Key → Option (List Byte)) (real : Key → Key)
    (lent : Key → Bool) (uri : Key) : Option (List Byte) :=
  match apiOf uri [] with
  | .webui ptr => webuiFile cfg disk ptr
  | .file => if lent uri then webuiFile cfg disk uri else onDisk disk (real uri)
  | _ => none

/-- Runs in which every key stands for one file. -/
def ownFiles (cfg : Config) (disk : Key → Option (List Byte)) (real : Key → Key)
    (lent : Key → Bool) : Regime :=
  { safeBlocks with
    uriMax := maxUriLen - 2
    content := fun uri body => keyFile cfg disk real lent uri = some body }

/-- `_mkp_stage_30` serves the request from an object with this content. -/
def Serves (cfg : Config) (s : Worker) (q : Request) (out : RequestOut) (content : List Byte) :
    Prop :=
  ∃ a s₁ o, findFile cfg s q out = .ok (.file a, s₁) ∧ s₁.heap a = some o ∧
    o.file.buf = content ∧ o.file.size = content.length

/-! ## The URI of a request -/

/-- Only an added resource is told from a file by the body. -/
theorem apiOf_nil {uri : Key} {body : List Byte} (h : ∀ key, apiOf uri body ≠ .add key) :
    apiOf uri [] = apiOf uri body := by
  unfold apiOf at h ⊢
  split
  · rename_i happ
    rw [if_pos happ] at h
    dsimp only at h ⊢
    by_cases hadd : addPrefix <+: uri.drop apiPrefix.length ∧ body ≠ []
    · rw [if_pos hadd] at h
      exact absurd rfl (h _)
    · have hnil : ¬ (addPrefix <+: uri.drop apiPrefix.length ∧ ([] : List Byte) ≠ []) := fun hn =>
        hn.2 rfl
      rw [if_neg hadd, if_neg hnil]
  · rfl

/-- The rest of the URI of the web UI is the URI of a file. -/
theorem apiOf_rest {ptr : Key} (h : webuiPrefix <+: ptr) : apiOf ptr [] = .file := by
  obtain ⟨rest, rfl⟩ := h
  unfold apiOf
  rw [if_neg]
  simp [apiPrefix, webuiPrefix, List.cons_prefix_cons]

/-- What the route of a request says of the file of its URI. -/
theorem directFile_webui {ptr : Key} (hadd : ∀ key, apiOf q.uri q.body ≠ .add key)
    (hapi : apiOf q.uri q.body = .webui ptr) :
    directFile cfg disk real q.uri = webuiFile cfg disk ptr := by
  unfold directFile
  rw [apiOf_nil hadd, hapi]

theorem directFile_file (hadd : ∀ key, apiOf q.uri q.body ≠ .add key)
    (hapi : apiOf q.uri q.body = .file) :
    directFile cfg disk real q.uri = onDisk disk (real q.uri) := by
  unfold directFile
  rw [apiOf_nil hadd, hapi]

/-! ## Every key stands for one file -/

theorem Undisturbed.allows {e : WorkerEvent} (h : Undisturbed disk real e) :
    (ownFiles cfg disk real lent).Allows e := by
  cases e with
  | stage30 q out =>
      obtain ⟨_, _, hshort, hadd⟩ := h
      refine ⟨?_, ?_, fun _ _ => rfl⟩
      · show q.uri.length ≤ maxUriLen - 2
        unfold maxUriLen at hshort ⊢
        omega
      · intro key hkey
        exact absurd hkey (hadd key)
  | _ => trivial

/-- The file of the web UI is the one that the rest of the URI stands for. -/
theorem KeptApart.rest (h : KeptApart cfg disk real lent (.stage30 q out)) {ptr : Key}
    (hapi : apiOf q.uri q.body = .webui ptr) {content : List Byte}
    (hcontent : webuiFile cfg disk ptr = some content) :
    keyFile cfg disk real lent ptr = some content := by
  unfold keyFile
  rw [apiOf_rest (apiOf_webui hapi).2]
  dsimp only
  cases hlent : lent ptr with
  | true => exact hcontent
  | false => exact h.1 ptr content hapi hlent hcontent

/-- The file of a request is the one that its URI stands for. -/
theorem KeptApart.own (h : KeptApart cfg disk real lent (.stage30 q out))
    (hadd : ∀ key, apiOf q.uri q.body ≠ .add key) :
    keyFile cfg disk real lent q.uri = directFile cfg disk real q.uri := by
  unfold keyFile directFile
  rw [apiOf_nil hadd]
  cases hapi : apiOf q.uri q.body with
  | file =>
      dsimp only
      cases hlent : lent q.uri with
      | true => exact (h.2 hapi hlent).symm
      | false => rfl
  | _ => rfl

/-- What a request stores under a key is the file that the key stands for. -/
theorem Undisturbed.reads {e : WorkerEvent} (h : Undisturbed disk real e)
    (hapart : KeptApart cfg disk real lent e) : (ownFiles cfg disk real lent).Reads cfg e := by
  cases e with
  | stage30 q out =>
      obtain ⟨hdisk, hpath, hshort, hadd⟩ := h
      have huri : q.uri.take (maxUriLen - 1) = q.uri := stored_uri (Nat.le_of_lt hshort)
      cases hapi : apiOf q.uri q.body with
      | add key => exact absurd hapi (hadd key)
      | stats => simp only [Regime.Reads, hapi]
      | reset key => simp only [Regime.Reads, hapi]
      | webui ptr =>
          simp only [Regime.Reads, hapi]
          rw [hdisk, huri]
          intro content hcontent
          have hlen := congrArg List.length (apiOf_webui hapi).1
          rw [List.length_append] at hlen
          have hptr : ptr.take (maxUriLen - 1) = ptr := stored_uri (by omega)
          rw [hptr]
          refine ⟨hapart.rest hapi hcontent, ?_⟩
          show keyFile cfg disk real lent q.uri = some content
          rw [hapart.own hadd, directFile_webui hadd hapi]
          exact hcontent
      | file =>
          simp only [Regime.Reads, hapi]
          rw [hdisk, huri, hpath]
          intro content hcontent
          show keyFile cfg disk real lent q.uri = some content
          rw [hapart.own hadd, directFile_file hadd hapi, hcontent]
  | _ => trivial

/-- An object that was stored for a short URI holds the file the URI stands for. -/
theorem Settled.StoredFor.content (h : s.Inv (ownFiles cfg disk real lent)) {uri : Key}
    (huri : uri.length < maxUriLen - 1) (ha : Settled.StoredFor s uri a) :
    ∃ o, s.heap a = some o ∧ keyFile cfg disk real lent uri = some o.file.buf ∧
      o.file.size = o.file.buf.length := by
  obtain ⟨o, ho, hsame⟩ := ha
  have hsound := h.core.sound a o ho
  have hshort : o.file.uri.length ≤ maxUriLen - 2 := hsound.uri_le
  rw [stored_uri (by omega), stored_uri (by omega)] at hsame
  exact ⟨o, ho, hsame ▸ hsound.content, hsound.sized⟩

/-! ## Serving without a table -/

theorem publish_content {maker : Maker} {uri : Key} {content : List Byte}
    {evictable zombie : Bool} {pendingReqs : Int} {o : CreateOut} :
    Ensures (publish size t maker uri content evictable zombie pendingReqs o)
      (fun made => (made.1 = none → made.2.fileTable = t.fileTable) ∧
        ∀ a, made.1 = some a → ∃ obj, made.2.heap a = some obj ∧ obj.file.buf = content)
      (fun _ => True) := by
  unfold publish
  refine Ensures.guard (fun _ => trivial) fun _ => ?_
  apply (Ensures.mono (pipeBufNew_live _ _ _) (fun _ h => h) (fun _ _ => trivial)).bind
  intro headers _
  apply (Ensures.mono (newChain_live _ _ _ _) (fun _ h => h) (fun _ _ => trivial)).bind
  intro chain _
  dsimp only [Worker.tableAdd]
  split
  · rename_i hstore
    refine (cacheFileFree_eq (Function.update_self o.block _ t.heap)).total.bind ?_
    intro s' hs'
    refine ⟨fun _ => ?_, nofun⟩
    rw [hs']
    rfl
  · rename_i s' hstore
    refine ⟨nofun, ?_⟩
    intro a ha
    cases ha
    split at hstore
    · cases hstore
    · cases hstore
      exact ⟨_, Function.update_self o.block _ t.heap, rfl⟩

theorem cacheFileNew_content (ht : t.fileTable = ∅) (path uri : Key) (o : CreateOut) :
    Ensures (cacheFileNew size t path uri disk o)
      (fun made => (made.1 = none → made.2.fileTable = ∅) ∧
        ∀ a, made.1 = some a → ∃ obj, made.2.heap a = some obj ∧
          onDisk disk path = some obj.file.buf)
      (fun _ => True) := by
  unfold cacheFileNew
  split
  · exact ⟨fun _ => ht, nofun⟩
  · rename_i content hdisk
    refine Ensures.ite (fun _ => ⟨fun _ => ht, nofun⟩) fun hne => ?_
    have hnone : t.tableGet uri = none := by
      unfold Books.tableGet
      rw [ht]
      exact AList.lookup_empty uri
    rw [hnone]
    refine Ensures.ite (fun _ => ⟨fun _ => ht, nofun⟩) fun _ => ?_
    refine Ensures.ite (fun _ => ⟨fun _ => ht, nofun⟩) fun _ => ?_
    apply publish_content.imp_ok
    intro made hmade
    refine ⟨fun h => (hmade.1 h).trans ht, ?_⟩
    intro a ha
    obtain ⟨obj, hobj, hbuf⟩ := hmade.2 a ha
    exact ⟨obj, hobj, hbuf ▸ onDisk_eq_some.2 ⟨hdisk, hne⟩⟩

theorem openFile_content (ht : t.fileTable = ∅) (path uri : Key) (o : CreateOut) :
    Ensures (openFile cfg t path uri disk o)
      (fun found => ∀ a, found.1 = .file a → ∃ obj, found.2.heap a = some obj ∧
        onDisk disk path = some obj.file.buf)
      (fun _ => True) := by
  unfold openFile
  apply (cacheFileNew_content ht path uri o).bind
  intro made hmade
  split
  · nofun
  · rename_i b hb
    intro a ha
    cases ha
    exact hmade.2 b hb

/-- **With an empty table** a request is served `directFile`. -/
theorem findFile_empty (ht : t.fileTable = ∅) (hq : Undisturbed disk real (.stage30 q out)) :
    Ensures (findFile cfg t q out)
      (fun found => ∀ a, found.1 = .file a → ∃ obj, found.2.heap a = some obj ∧
        directFile cfg disk real q.uri = some obj.file.buf)
      (fun _ => True) := by
  obtain ⟨hdisk, hpath, _, hadd⟩ := hq
  have hmiss : cacheFileGet t q.uri out.now = .ok (none, t) := by
    unfold cacheFileGet Books.tableGet
    rw [ht, AList.lookup_empty]
  unfold findFile
  refine Ensures.bind (Q := fun hit => hit = (none, t)) ?_ ?_
  · exact Ensures.ite (fun _ => by rw [hmiss]; rfl) (fun _ => rfl)
  · rintro _ rfl
    dsimp only
    unfold callApi
    cases hapi : apiOf q.uri q.body with
    | add key => exact absurd hapi (hadd key)
    | stats =>
        refine Ensures.bind (Q := fun _ => True) ?_ (fun _ _ => nofun)
        cases statsEach t t.fileTable.entries <;> trivial
    | reset key =>
        refine Ensures.bind (Q := fun _ => True) ?_ (fun _ _ => nofun)
        cases fileTableReset cfg.cap t key <;> trivial
    | webui ptr =>
        dsimp only
        rw [directFile_webui hadd hapi, webuiFile, ← hdisk]
        unfold openWebui
        refine Ensures.guard (fun _ => trivial) fun _ => ?_
        apply (cacheFileNew_content ht _ _ _).bind
        intro made hmade
        split
        · rename_i b hb
          intro a ha
          cases ha
          exact hmade.2 b hb
        · rename_i hnone
          exact openFile_content (hmade.1 hnone) _ _ _
    | file =>
        dsimp only
        rw [directFile_file hadd hapi, ← hdisk, ← hpath]
        exact openFile_content ht _ _ _

/-! ## Transparency -/

/-- What a request is found to be served from holds `directFile`. -/
theorem findFile_own (h : s.Inv (ownFiles cfg disk real lent))
    (hq : Undisturbed disk real (.stage30 q out))
    (hapart : KeptApart cfg disk real lent (.stage30 q out)) :
    Ensures (findFile cfg s q out)
      (fun found => ∀ a, found.1 = .file a → ∃ o, found.2.heap a = some o ∧
        directFile cfg disk real q.uri = some o.file.buf ∧ o.file.size = o.file.buf.length)
      Fault.Live := by
  apply (findFile_keeps h hq.allows (hq.reads hapart)).imp_ok
  intro found hfound a ha
  obtain ⟨hs, hserved⟩ := hfound
  rw [ha] at hserved
  obtain ⟨hdisk, _, hshort, hadd⟩ := hq
  rcases hserved with hstored | ⟨ptr, hapi, hstored, hsome⟩
  · rw [← hapart.own hadd]
    exact hstored.content hs.inv hshort
  · have hlen := congrArg List.length (apiOf_webui hapi).1
    rw [List.length_append] at hlen
    obtain ⟨o, ho, hrest, hsize⟩ := hstored.content hs.inv (by omega)
    refine ⟨o, ho, ?_, hsize⟩
    obtain ⟨content, hcontent⟩ := Option.isSome_iff_exists.1 hsome
    rw [hdisk] at hcontent
    have hsame : content = o.file.buf :=
      Option.some.inj ((hapart.rest hapi hcontent).symm.trans hrest)
    rw [directFile_webui hadd hapi, ← hsame]
    exact hcontent

/-- **Transparency.**  Whatever was served before, a request is served the
content that it is served with an empty table. -/
theorem cache_transparent (lent : Key → Bool)
    (hrun : Worker.Runs cfg (fun e => Undisturbed disk real e ∧ KeptApart cfg disk real lent e)
      Worker.init s)
    (hq : Undisturbed disk real (.stage30 q out))
    (hapart : KeptApart cfg disk real lent (.stage30 q out)) {s' : Worker}
    (hserve : stage30 cfg s q out = .ok (.file a, s')) :
    ∃ content, Serves cfg s q out content ∧ directFile cfg disk real q.uri = some content ∧
      ∀ t out' content', t.fileTable = ∅ → Undisturbed disk real (.stage30 q out') →
        Serves cfg t q out' content' → content' = content := by
  have hinv := Worker.inv_of_runs (Worker.init_inv fun _ => rfl)
    (fun e he => ⟨he.1.allows, he.1.reads he.2⟩) hrun
  have hfound : ∃ s₁, findFile cfg s q out = .ok (.file a, s₁) := by
    unfold stage30 at hserve
    split at hserve
    · cases hserve
    · obtain ⟨found, hfound, hserve⟩ := bind_eq_ok.1 hserve
      split at hserve
      · rename_i b hb
        obtain ⟨s₂, _, hserve⟩ := bind_eq_ok.1 hserve
        cases hserve
        exact ⟨found.2, by rw [hfound, ← hb]⟩
      · rename_i hno
        exact (hno a (congrArg Prod.fst (Except.ok.inj hserve))).elim
  obtain ⟨s₁, hfound⟩ := hfound
  obtain ⟨o, ho, hdirect, hsize⟩ := (findFile_own hinv hq hapart).of_ok hfound a rfl
  refine ⟨o.file.buf, ⟨a, s₁, o, hfound, ho, rfl, hsize⟩, hdirect, ?_⟩
  intro t out' content' ht hq' hserves
  obtain ⟨b, t₁, p, hfound', hp, rfl, _⟩ := hserves
  obtain ⟨p', hp', hdirect'⟩ := (findFile_empty ht hq').of_ok hfound' b rfl
  cases hp.symm.trans hp'
  exact Option.some.inj (hdirect'.symm.trans hdirect)

/-- `/cache/webui/x` and `/webui/x`. -/
def restX : Key := webuiPrefix ++ ['/', 'x']
def webuiX : Key := apiPrefix ++ restX

/-- A file of the web UI in `conf_dir`, and another one at every other path. -/
def mixedDisk (path : Key) : Option (List Byte) :=
  if path = plainConfig.confDir ++ restX.drop 1 then some [1] else some [2]

def getRequest (uri : Key) : Request where
  socket := 5
  get := true
  uriProcessed := uri
  realPath := uri
  body := []

def diskOut (disk : Key → Option (List Byte)) : RequestOut :=
  { plainOut 100 ⟨0, false, 0⟩ .all with disk := disk }

/-- The web UI is served its own file twice. -/
theorem cache_transparent_sample :
    ∃ s content, s.tableGet restX = some 100 ∧
      Serves plainConfig s (getRequest webuiX) (diskOut mixedDisk) content ∧
      directFile plainConfig mixedDisk id webuiX = some content := by
  have hplain : Undisturbed mixedDisk id (.stage30 (getRequest webuiX) (diskOut mixedDisk)) :=
    ⟨rfl, rfl, by decide, nofun⟩
  have hapart : KeptApart plainConfig mixedDisk id (fun _ => true)
      (.stage30 (getRequest webuiX) (diskOut mixedDisk)) := ⟨nofun, nofun⟩
  have hrun : Worker.Runs plainConfig (fun e => Undisturbed mixedDisk id e ∧
      KeptApart plainConfig mixedDisk id (fun _ => true) e) Worker.init _ :=
    .of_exec [.stage30 (getRequest webuiX) (diskOut mixedDisk)]
      (by
        intro e he _
        rw [List.mem_singleton.1 he]
        exact ⟨hplain, hapart⟩) rfl
  obtain ⟨content, hserves, hdirect, _⟩ := cache_transparent _ hrun hplain hapart rfl
  exact ⟨_, content, rfl, hserves, hdirect⟩

/-- The file of the web UI is served for `/webui/x`, which has another one. -/
theorem mixed_webui :
    ∃ s, Worker.Runs plainConfig (Undisturbed mixedDisk id) Worker.init s ∧
      Undisturbed mixedDisk id (.stage30 (getRequest restX) (diskOut mixedDisk)) ∧
      (∃ s', stage30 plainConfig s (getRequest restX) (diskOut mixedDisk) =
        .ok (.file 100, s')) ∧
      Serves plainConfig s (getRequest restX) (diskOut mixedDisk) [1] ∧
      Serves plainConfig Worker.init (getRequest restX) (diskOut mixedDisk) [2] := by
  have hrun : Worker.Runs plainConfig (Undisturbed mixedDisk id) Worker.init _ :=
    .of_exec [.stage30 (getRequest webuiX) (diskOut mixedDisk)]
      (by
        intro e he _
        rw [List.mem_singleton.1 he]
        exact ⟨rfl, rfl, by decide, nofun⟩) rfl
  exact ⟨_, hrun, ⟨rfl, rfl, by decide, nofun⟩, ⟨_, rfl⟩, ⟨100, _, _, rfl, rfl, rfl, rfl⟩,
    ⟨100, _, _, rfl, rfl, rfl, rfl⟩⟩

end MonkeyCache
