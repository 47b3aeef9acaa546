import MonkeyCache.Eviction
import MonkeyCache.ObjectLife

/-!
# Files in use are not evicted

`last_accessed` is meant to be the last time a file was requested.  A file that
`cache_file_get` finds gets the time of the look-up; a file that the second look-up
in `cache_file_new` finds, for another method than GET or for the web UI, keeps the
time it had, and the next tick may evict it while it is in use.

The runs here have a clock that does not go back, and a log of the requests that were
accepted.  As long as no request is answered by that second look-up, `last_accessed`
is the time of the latest request of the file, and no tick evicts a file that was
requested within the last `MAX_FILE_IDLE` milliseconds (`files_in_use`).
-/

namespace MonkeyCache

open Fallible Transition

variable {size : Nat} {cfg : Config} {s s' s'' : Worker} {a : Addr} {o : Object}
  {start stop : Int}

/-! ## Time -/

/-- Microseconds since the epoch. -/
def Timeval.micros (t : Timeval) : Int := t.sec * 1000000 + t.usec

/-- What `gettimeofday` can answer while the clock goes from `start` to `stop`. -/
structure Timeval.ReadIn (t : Timeval) (start stop : Int) : Prop where
  usec : 0 ≤ t.usec ∧ t.usec < 1000000
  after : start ≤ t.micros
  before : t.micros ≤ stop

/-- A file that is due was last accessed more than `MAX_FILE_IDLE` ago. -/
theorem micros_of_due {last now : Timeval} (hlast : 0 ≤ last.usec ∧ last.usec < 1000000)
    (hnow : 0 ≤ now.usec ∧ now.usec < 1000000) (h : maxFileIdle < getTimeDiffMs last now) :
    maxFileIdle * 1000 < now.micros - last.micros := by
  have htdiv : ∀ x : Int, 0 < toInt (x.tdiv 1000) → toInt (x.tdiv 1000) = x / 1000 := by
    intro x hpos
    unfold toInt at hpos ⊢
    split
    · rename_i hfits
      rw [if_pos hfits] at hpos
      have hx : 0 ≤ x := by
        by_contra hneg
        have hflip : x = -(-x) := by omega
        rw [hflip, Int.neg_tdiv, Int.tdiv_eq_ediv_of_nonneg (by omega)] at hpos
        omega
      exact Int.tdiv_eq_ediv_of_nonneg hx
    · rename_i hno
      rw [if_neg hno] at hpos
      omega
  unfold getTimeDiffMs at h
  dsimp only at h
  have hpos : 0 < maxFileIdle := by decide
  rw [htdiv _ (by omega)] at h
  unfold Timeval.micros
  unfold maxFileIdle at h ⊢
  unfold toInt at h
  split at h
  · omega
  · omega

/-- The readings of an event. -/
def WorkerEvent.ReadsIn (start stop : Int) : WorkerEvent → Prop
  | .stage30 _ out => out.now.ReadIn start stop ∧ out.create.now.ReadIn start stop ∧
      out.retry.now.ReadIn start stop
  | .tick now => ∀ i, (now i).ReadIn start stop
  | _ => True

/-! ## Calls that access no file -/

/-- The objects of `s'` are objects of `s`, last accessed at the same times. -/
structure Worker.KeepsTimes (s s' : Worker) : Prop where
  serials : s.serials ≤ s'.serials
  objects : ∀ a o', s'.heap a = some o' → ∃ o, s.heap a = some o ∧ o.serial = o'.serial ∧
    o.file.lastAccessed = o'.file.lastAccessed

/-- A step that leaves the heap leaves the times. -/
theorem Worker.KeepsTimes.of_heap (hserials : s.serials ≤ s'.serials) (hheap : s'.heap = s.heap) :
    s.KeepsTimes s' := by
  refine ⟨hserials, ?_⟩
  intro a o ha
  rw [hheap] at ha
  exact ⟨o, ha, rfl, rfl⟩

/-- A worker left alone keeps its times. -/
theorem Worker.KeepsTimes.refl (s : Worker) : s.KeepsTimes s := .of_heap le_rfl rfl

/-- What two steps keep, both keep. -/
theorem Worker.KeepsTimes.trans (h : s.KeepsTimes s') (h' : s'.KeepsTimes s'') :
    s.KeepsTimes s'' := by
  refine ⟨h.serials.trans h'.serials, ?_⟩
  intro a o'' ha
  obtain ⟨o', ha', hserial', htime'⟩ := h'.objects a o'' ha
  obtain ⟨o, ha, hserial, htime⟩ := h.objects a o' ha'
  exact ⟨o, ha, hserial.trans hserial', htime.trans htime'⟩

/-- One block changes: it is freed, or its object keeps number and time. -/
theorem Worker.KeepsTimes.update (ha : s.heap a = some o) {x : Option Object}
    (hx : ∀ o', x = some o' → o.serial = o'.serial ∧ o.file.lastAccessed = o'.file.lastAccessed)
    (hserials : s'.serials = s.serials) (hheap : s'.heap = Function.update s.heap a x) :
    s.KeepsTimes s' := by
  refine ⟨hserials.ge, ?_⟩
  intro b o' hb
  rw [hheap] at hb
  by_cases hba : b = a
  · subst hba
    rw [Function.update_self] at hb
    exact ⟨o, ha, hx o' hb⟩
  · rw [Function.update_of_ne hba] at hb
    exact ⟨o', hb, rfl, rfl⟩

/-- A write to an object that leaves its serial and its time keeps the times. -/
theorem Worker.KeepsTimes.put (ha : s.heap a = some o) {o' : Object}
    (hserial : o.serial = o'.serial)
    (htime : o.file.lastAccessed = o'.file.lastAccessed) : s.KeepsTimes (s.put a o') := by
  refine .update ha ?_ rfl rfl
  intro p hp
  cases hp
  exact ⟨hserial, htime⟩

/-- Taking an object out of the table keeps the times. -/
theorem Worker.Retired.keepsTimes {k : Key} (h : s.Retired k a o s') : s.KeepsTimes s' := by
  refine .update h.live ?_ h.serials h.heap
  intro o' ho'
  unfold Object.outlived at ho'
  split at ho'
  · cases ho'
  · cases ho'
    exact ⟨rfl, rfl⟩

/-- cache_file_free keeps the times. -/
theorem cacheFileFree_keepsTimes (s : Worker) (a : Addr) :
    Ensures (cacheFileFree size s a) (fun s' => s.KeepsTimes s') (fun _ => True) := by
  unfold cacheFileFree
  apply (s.deref_ensures a).bind
  intro o ha
  refine .update ha ?_ rfl rfl
  intro o' ho'
  cases ho'

/-- file_table_reset keeps the times. -/
theorem fileTableReset_keepsTimes (s : Worker) (uri : Key) :
    Ensures (fileTableReset size s uri) (fun s' => s.KeepsTimes s') (fun _ => True) := by
  cases hreset : fileTableReset size s uri with
  | error e => trivial
  | ok s' =>
      rcases fileTableReset_cases hreset with ⟨_, rfl⟩ | ⟨a, o, hretired⟩
      · exact .refl s'
      · exact hretired.keepsTimes

/-- curr_reqs_del keeps the times. -/
theorem currReqsDel_keepsTimes (s : Worker) (socket : Int) :
    Ensures (currReqsDel cfg s socket) (fun s' => s.KeepsTimes s') (fun _ => True) := by
  unfold currReqsDel
  split
  · exact .refl s
  · rename_i r _
    apply (s.deref_ensures r.file).bind
    intro o ha
    let f := { o.file with pendingReqs := o.file.pendingReqs - 1 }
    let mid := { s.put r.file { o with file := f } with
      currReqs := s.currReqs.eraseP (fun q => q.socket = socket) }
    have hput : s.KeepsTimes (s.put r.file { o with file := f }) := .put ha rfl rfl
    have hmid : s.KeepsTimes mid := hput.trans (.of_heap le_rfl rfl)
    have hfree : Ensures (if f.zombie ∧ f.pendingReqs = 0 then cacheFileFree cfg.cap mid r.file
        else .ok mid) (fun s' => s.KeepsTimes s') (fun _ => True) :=
      Ensures.ite (fun _ => (cacheFileFree_keepsTimes mid r.file).imp_ok (fun _ h => hmid.trans h))
        (fun _ => hmid)
    apply hfree.bind
    intro s' hs'
    exact hs'.trans (.of_heap le_rfl rfl)

/-- The end of a call of the server keeps the times. -/
theorem endCall_keepsTimes (s : Worker) (socket ret : Int) :
    Ensures (endCall cfg s socket ret) (fun s' => s.KeepsTimes s') (fun _ => True) :=
  Ensures.ite (fun _ => currReqsDel_keepsTimes s socket) (fun _ => .refl s)

/-- A call that serves a request does not touch the time. -/
theorem lastAccessed_of_core {f g : CacheFile} (h : f.core = g.core) :
    f.lastAccessed = g.lastAccessed := by
  show f.core.lastAccessed = g.core.lastAccessed
  rw [h]

/-- Registering and serving a file keeps the times. -/
theorem serveFile_keepsTimes (s : Worker) (a : Addr) (socket : Int) (out : RequestOut) :
    Ensures (serveFile cfg s a socket out) (fun s' => s.KeepsTimes s') (fun _ => True) := by
  unfold serveFile
  apply ((cacheReqNew_live cfg.cap s.pools out.pipe).imp_error (fun _ _ => trivial)).bind
  intro new _
  apply (s.deref_ensures a).bind
  intro o ha
  apply ((startReq_kept o.file a socket new.1 out.start).imp_error (fun _ _ => trivial)).bind
  intro call hcall
  apply (endCall_keepsTimes _ socket call.1).imp_ok
  intro s' hs'
  have hput : s.KeepsTimes (s.put a { o with file := call.2.1 }) :=
    .put ha rfl (lastAccessed_of_core hcall.1).symm
  refine Worker.KeepsTimes.trans (hput.trans ?_) hs'
  exact .of_heap le_rfl rfl

/-- A write event keeps the times. -/
theorem eventWrite_keepsTimes (s : Worker) (socket : Int) (out : Nat → RoundOut) :
    Ensures (eventWrite cfg s socket out) (fun s' => s.KeepsTimes s') (fun _ => True) := by
  unfold eventWrite
  split
  · exact .refl s
  · rename_i r _
    refine Ensures.ite (fun _ => .refl s) (fun _ => ?_)
    apply (s.deref_ensures r.file).bind
    intro o ha
    apply ((socketServeReqSplice_kept o.file r out).imp_error (fun _ _ => trivial)).bind
    intro call hcall
    apply (endCall_keepsTimes _ socket call.1).imp_ok
    intro s' hs'
    have hput : s.KeepsTimes (s.put r.file { o with file := call.2.1 }) :=
      .put ha rfl (lastAccessed_of_core hcall.1).symm
    refine Worker.KeepsTimes.trans (hput.trans ?_) hs'
    exact .of_heap le_rfl rfl

/-- **A tick** accesses no file, and a file that leaves the table was due. -/
theorem cacheFileTick_due (hown : s.UnderOwnUri) (now : Nat → Timeval) :
    Ensures (cacheFileTick size now s)
      (fun s' => s.KeepsTimes s' ∧ ∀ k a o, s.tableGet k = some a → s.heap a = some o →
        s'.tableGet k = some a ∨ ∃ i, maxFileIdle < getTimeDiffMs o.file.lastAccessed (now i))
      (fun _ => False) := by
  refine (cacheFileTick_rule ?_ hown ⟨.refl s, fun _ _ _ hk _ => .inl hk⟩).imp_ok
    (fun _ h => h.2)
  intro t t' k b obj i _ ht hretired hdue
  obtain ⟨hkeeps, hleft⟩ := ht
  refine ⟨hkeeps.trans hretired.keepsTimes, ?_⟩
  intro j a o hj ha
  rcases hleft j a o hj ha with hstays | hdue'
  · by_cases hjk : j = k
    · -- the object that leaves is the one `s` had
      subst hjk
      cases hstays.symm.trans hretired.bound
      obtain ⟨o₀, ha₀, _, htime⟩ := hkeeps.objects b obj hretired.live
      cases ha.symm.trans ha₀
      rw [htime]
      exact .inr ⟨i, hdue.1⟩
    · left
      rw [hretired.other hjk]
      exact hstays
  · exact .inr hdue'

/-! ## Finding the file -/

/-- The object that a request is served from. -/
def Reply.addr : Reply → Option Addr
  | .file a => some a
  | _ => none

/-- The object at `used` is accessed between `start` and `stop`; of the other objects
only new ones are. -/
structure Worker.Looked (s : Worker) (start stop : Int) (used : Option Addr) (s' : Worker) :
    Prop where
  serials : s.serials ≤ s'.serials
  accessed : ∀ a o', used = some a → s'.heap a = some o' → o'.file.lastAccessed.ReadIn start stop
  objects : ∀ a o', s'.heap a = some o' →
    (∃ o, s.heap a = some o ∧ o.serial = o'.serial ∧
      o.file.lastAccessed = o'.file.lastAccessed) ∨
    (o'.file.lastAccessed.ReadIn start stop ∧ (used = some a ∨ s.serials ≤ o'.serial))

/-- A step that keeps the times looked nothing up. -/
theorem Worker.KeepsTimes.looked (h : s.KeepsTimes s') : s.Looked start stop none s' := by
  refine ⟨h.serials, ?_, fun a o' ha => .inl (h.objects a o' ha)⟩
  intro a o' hused
  cases hused

/-- A look-up behind a step that keeps the times is a look-up. -/
theorem Worker.Looked.after {used : Option Addr} (h : s'.Looked start stop used s'')
    (hkeeps : s.KeepsTimes s') : s.Looked start stop used s'' := by
  refine ⟨hkeeps.serials.trans h.serials, h.accessed, ?_⟩
  intro a o'' ha
  rcases h.objects a o'' ha with ⟨o', ha', hserial', htime'⟩ | ⟨hread, husedOrNew⟩
  · obtain ⟨o, ho, hserial, htime⟩ := hkeeps.objects a o' ha'
    exact .inl ⟨o, ho, hserial.trans hserial', htime.trans htime'⟩
  · exact .inr ⟨hread, husedOrNew.imp_right hkeeps.serials.trans⟩

/-- A new object is accessed when it is stored, whether a request is served from it or
not. -/
theorem Worker.Stored.looked (h : s.Stored a o s') (htime : o.file.lastAccessed.ReadIn start stop)
    {used : Option Addr} (hused : ∀ b, used = some b → b = a) : s.Looked start stop used s' := by
  refine ⟨by rw [h.serials]; omega, ?_, ?_⟩
  · intro b o' hb hb'
    cases hused b hb
    cases h.heap_self.symm.trans hb'
    exact htime
  · intro b o' hb
    by_cases hba : b = a
    · subst hba
      cases h.heap_self.symm.trans hb
      exact .inr ⟨htime, .inr h.serial.ge⟩
    · rw [h.heap, Function.update_of_ne hba] at hb
      exact .inl ⟨o', hb, rfl, rfl⟩

/-- An unchanged worker keeps its times. -/
theorem Worker.Unchanged.keepsTimes (h : s.Unchanged s') : s.KeepsTimes s' :=
  .of_heap h.serials h.heap

/-- The constructor opens and maps the file and stores the object. -/
def CreateOut.Stores (o : CreateOut) : Prop :=
  o.opened = true ∧ o.mapped = true ∧ o.stored = true

section New

variable {path uri : Key} {disk : Key → Option (List Byte)} {c : CreateOut}

/-- A path that is not a file on the disk gives no object and no change. -/
theorem cacheFileNew_absent (h : onDisk disk path = none) :
    cacheFileNew size s path uri disk c = .ok (none, s) := by
  unfold cacheFileNew
  cases hdisk : disk path with
  | none => rfl
  | some content =>
      by_cases hempty : content = []
      · exact if_pos hempty
      · cases h.symm.trans (onDisk_eq_some.2 ⟨hdisk, hempty⟩)

/-- `cache_file_new` leaves the table alone where it returns nothing. -/
theorem cacheFileNew_none (h : cacheFileNew size s path uri disk c = .ok (none, s')) :
    s.Unchanged s' := by
  rcases cacheFileNew_cases h with ⟨_, hsame⟩ | ⟨a, hsome, _⟩ | ⟨hsome, _⟩
  · exact hsame
  · cases hsome
  · cases hsome

/-- `cache_file_new` refuses a new file only where a system call or the table does. -/
theorem cacheFileNew_refuses (h : cacheFileNew size s path uri disk c = .ok (none, s'))
    (hdisk : (onDisk disk path).isSome = true) (huri : uri ≠ [])
    (hget : s.tableGet uri = none) : ¬ c.Stores := by
  intro hstores
  obtain ⟨content, hcontent⟩ := Option.isSome_iff_exists.1 hdisk
  obtain ⟨hfound, hne⟩ := onDisk_eq_some.1 hcontent
  unfold cacheFileNew at h
  simp only [hfound, hget, if_neg hne, hstores.1, hstores.2.1, not_true, if_false] at h
  rcases publish_cases h with ⟨_, _, hwhy⟩ | ⟨hsome, _⟩
  · rcases hwhy with hempty | hrefused
    · exact huri hempty
    · exact Bool.false_ne_true (hrefused.symm.trans hstores.2.2)
  · cases hsome

/-- **A new file** is accessed, unless the table had it already. -/
theorem cacheFileNew_looked {out : Option Addr} (hnow : c.now.ReadIn start stop)
    (hnew : (onDisk disk path).isSome = true → s.tableGet uri = none)
    (h : cacheFileNew size s path uri disk c = .ok (out, s')) : s.Looked start stop out s' := by
  rcases cacheFileNew_cases h with ⟨rfl, hsame⟩ | ⟨a, rfl, hget, rfl⟩ |
    ⟨rfl, _, content, headers, chain, hstored⟩
  · exact hsame.keepsTimes.looked
  · cases hdisk : onDisk disk path with
    | none =>
        rw [cacheFileNew_absent hdisk] at h
        cases h
    | some content =>
        rw [hnew (by rw [hdisk]; rfl)] at hget
        cases hget
  · refine hstored.looked hnow ?_
    intro b hb
    cases hb
    rfl

/-- An added file is new, and no request is served from it. -/
theorem cacheFileTmp_looked {body : List Byte} {out : Option Addr}
    (hnow : c.now.ReadIn start stop) (h : cacheFileTmp size s uri body c = .ok (out, s')) :
    s.Looked start stop none s' := by
  obtain ⟨s₁, hreset, _, hcases⟩ := cacheFileTmp_cases h
  have hkeeps : s.KeepsTimes s₁ := (fileTableReset_keepsTimes s uri).of_ok hreset
  rcases hcases with ⟨_, hsame, _⟩ | ⟨_, headers, chain, hstored⟩
  · exact (hkeeps.trans hsame.keepsTimes).looked
  · have hlooked : s₁.Looked start stop none s' := by
      refine hstored.looked hnow ?_
      intro b hb
      cases hb
    exact hlooked.after hkeeps

end New

/-- The look-up of a file that is accessed. -/
theorem Worker.Looked.put (s : Worker) (a : Addr) {o' : Object}
    (htime : o'.file.lastAccessed.ReadIn start stop) :
    s.Looked start stop (some a) (s.put a o') := by
  refine ⟨le_rfl, ?_, ?_⟩
  · intro b p hused hb
    cases hused
    cases (s.put_self a o').symm.trans hb
    exact htime
  · intro b p hb
    by_cases hba : b = a
    · subst hba
      cases (s.put_self b o').symm.trans hb
      exact .inr ⟨htime, .inl rfl⟩
    · exact .inl ⟨p, (s.put_other hba o').symm.trans hb, rfl, rfl⟩

/-- `cache_file_new` finds nothing in the table, where `_mkp_stage_30` gets to it. -/
def Worker.Misses (cfg : Config) (s : Worker) (q : Request) (out : RequestOut) : Prop :=
  match apiOf q.uri q.body with
  | .webui ptr => (onDisk out.disk (cfg.confDir ++ ptr.drop 1)).isSome = true →
      s.tableGet ptr = none ∧ (out.create.Stores ∨ s.tableGet q.uri = none)
  | .file => (onDisk out.disk q.path).isSome = true → s.tableGet q.uri = none
  | _ => True

/-- Opening a file sets the time of that file alone, to a time of the event. -/
theorem openFile_looked {found : Reply × Worker} {path uri : Key}
    {disk : Key → Option (List Byte)} {c : CreateOut} (hnow : c.now.ReadIn start stop)
    (hnew : (onDisk disk path).isSome = true → s.tableGet uri = none)
    (h : openFile cfg s path uri disk c = .ok found) :
    s.Looked start stop found.1.addr found.2 := by
  unfold openFile at h
  obtain ⟨made, hmade, h⟩ := bind_eq_ok.1 h
  have hlooked := cacheFileNew_looked hnow hnew hmade
  split at h
  · rename_i hnone
    cases h
    rw [hnone] at hlooked
    exact hlooked
  · rename_i a hsome
    cases h
    rw [hsome] at hlooked
    exact hlooked

/-- The web UI, where the first attempt fails only if the constructor does. -/
theorem openWebui_looked {q : Request} {ptr : Key} {out : RequestOut} {found : Reply × Worker}
    (hreads : WorkerEvent.ReadsIn start stop (.stage30 q out)) (hptr : ptr ≠ [])
    (hmiss : (onDisk out.disk (cfg.confDir ++ ptr.drop 1)).isSome = true →
      s.tableGet ptr = none ∧ (out.create.Stores ∨ s.tableGet q.uri = none))
    (h : openWebui cfg s q ptr out = .ok found) : s.Looked start stop found.1.addr found.2 := by
  obtain ⟨_, hcreate, hretry⟩ := hreads
  unfold openWebui at h
  split at h
  · cases h
  · obtain ⟨made, hmade, h⟩ := bind_eq_ok.1 h
    have hlooked := cacheFileNew_looked hcreate (fun hdisk => (hmiss hdisk).1) hmade
    split at h
    · rename_i a hsome
      cases h
      rw [hsome] at hlooked
      exact hlooked
    · rename_i hnone
      obtain ⟨used, s₁⟩ := made
      cases hnone
      have hsame : s.Unchanged s₁ := cacheFileNew_none hmade
      refine (openFile_looked hretry ?_ h).after hsame.keepsTimes
      intro hdisk
      obtain ⟨hget, hwhy⟩ := hmiss hdisk
      rw [hsame.tableGet_eq]
      exact hwhy.resolve_left (cacheFileNew_refuses hmade hdisk hptr hget)

/-- **The calls of the API.** -/
theorem callApi_looked {q : Request} {out : RequestOut} {found : Reply × Worker}
    (hreads : WorkerEvent.ReadsIn start stop (.stage30 q out)) (hmiss : s.Misses cfg q out)
    (h : callApi cfg s q out = .ok found) : s.Looked start stop found.1.addr found.2 := by
  unfold callApi at h
  unfold Worker.Misses at hmiss
  cases hapi : apiOf q.uri q.body with
  | add key =>
      simp only [hapi] at h
      obtain ⟨made, hmade, h⟩ := bind_eq_ok.1 h
      cases h
      exact cacheFileTmp_looked hreads.2.1 hmade
  | stats =>
      simp only [hapi] at h
      obtain ⟨_, _, h⟩ := bind_eq_ok.1 h
      cases h
      exact (Worker.KeepsTimes.refl s).looked
  | reset key =>
      simp only [hapi] at h
      obtain ⟨s₁, hreset, h⟩ := bind_eq_ok.1 h
      cases h
      exact ((fileTableReset_keepsTimes s key).of_ok hreset).looked
  | webui ptr =>
      simp only [hapi] at h hmiss
      refine openWebui_looked hreads ?_ hmiss h
      intro hempty
      have hprefix := (apiOf_webui hapi).2
      rw [hempty, List.prefix_nil] at hprefix
      cases hprefix
  | file =>
      simp only [hapi] at h hmiss
      exact openFile_looked hreads.2.2 hmiss h

/-- **Finding the file.** -/
theorem findFile_looked {q : Request} {out : RequestOut} {found : Reply × Worker}
    (hreads : WorkerEvent.ReadsIn start stop (.stage30 q out))
    (hfresh : (q.get = true ∧ (s.tableGet q.uri).isSome = true) ∨ s.Misses cfg q out)
    (h : findFile cfg s q out = .ok found) : s.Looked start stop found.1.addr found.2 := by
  unfold findFile at h
  obtain ⟨⟨used, s₁⟩, hhit, hcall⟩ := bind_eq_ok.1 h
  split at hhit
  · rcases cacheFileGet_cases hhit with ⟨rfl, hnone, rfl⟩ | ⟨a, obj, rfl, _, _, rfl⟩
    · refine callApi_looked hreads (hfresh.resolve_left ?_) hcall
      intro hsome
      rw [hnone] at hsome
      cases hsome.2
    · cases hcall
      exact .put s a hreads.1
  · rename_i hget
    cases hhit
    exact callApi_looked hreads (hfresh.resolve_left (fun hboth => hget hboth.1)) hcall

/-! ## Accepted requests -/

/-- The number of the object that `_mkp_stage_30` serves the request of an event
from. -/
def Worker.acceptedBy (cfg : Config) (s : Worker) : WorkerEvent → Option Nat
  | .stage30 q out =>
    match currReqsGet s.currReqs q.socket with
    | some _ => none
    | none =>
      match findFile cfg s q out with
      | .error _ => none
      | .ok found => found.1.addr.bind fun a => (found.2.heap a).map Object.serial
  | _ => none

/-- The object with the number `x` is accessed between `start` and `stop`; of the other
objects only new ones are. -/
structure Worker.Passed (s : Worker) (start stop : Int) (x : Option Nat) (s' : Worker) :
    Prop where
  serials : s.serials ≤ s'.serials
  known : ∀ n, x = some n → n < s'.serials
  accessed : ∀ a o', s'.heap a = some o' → x = some o'.serial →
    o'.file.lastAccessed.ReadIn start stop
  objects : ∀ a o', s'.heap a = some o' → x ≠ some o'.serial →
    (∃ o, s.heap a = some o ∧ o.serial = o'.serial ∧
      o.file.lastAccessed = o'.file.lastAccessed) ∨
    (o'.file.lastAccessed.ReadIn start stop ∧ s.serials ≤ o'.serial)

/-- Numbers tell objects apart, so the object with the number is the one that was looked
up. -/
theorem Worker.Looked.passed {R : Regime} {mid : Worker} {used : Option Addr}
    (h : s.Looked start stop used mid) (hmid : mid.Inv R) (hkeeps : mid.KeepsTimes s') :
    s.Passed start stop (used.bind fun a => (mid.heap a).map Object.serial) s' := by
  refine ⟨h.serials.trans hkeeps.serials, ?_, ?_, ?_⟩
  · intro n hn
    obtain ⟨a, _, hserial⟩ := Option.bind_eq_some_iff.1 hn
    obtain ⟨o, ha, rfl⟩ := Option.map_eq_some_iff.1 hserial
    exact Nat.lt_of_lt_of_le (hmid.core.sound a o ha).serial_lt hkeeps.serials
  · intro b o' hb hn
    obtain ⟨a, hused, hserial⟩ := Option.bind_eq_some_iff.1 hn
    obtain ⟨o, ha, hsame⟩ := Option.map_eq_some_iff.1 hserial
    obtain ⟨p, hp, hp', htime⟩ := hkeeps.objects b o' hb
    have hba : b = a := hmid.core.serials b a p o hp ha (hp'.trans hsame.symm)
    rw [← htime]
    exact h.accessed b p (hba ▸ hused) hp
  · intro b o' hb hn
    obtain ⟨p, hp, hp', htime⟩ := hkeeps.objects b o' hb
    rw [← hp', ← htime]
    rcases h.objects b p hp with hold | ⟨hread, hused | hnew⟩
    · exact .inl hold
    · exact absurd (by rw [hused, Option.bind_some, hp, Option.map_some, hp']) hn
    · exact .inr ⟨hread, hnew⟩

/-- Every request that is accepted accesses its file. -/
def WorkerEvent.Refreshes (cfg : Config) (s : Worker) : WorkerEvent → Prop
  | .stage30 q out => (currReqsGet s.currReqs q.socket).isSome = true ∨
      (q.get = true ∧ (s.tableGet q.uri).isSome = true) ∨ s.Misses cfg q out
  | _ => True

/-- After stage 30 the accepted object, if any, carries a time of the event. -/
theorem stage30_passed (h : s.Inv safeBlocks) {q : Request} {out : RequestOut}
    (hallow : safeBlocks.Allows (.stage30 q out))
    (hreads : WorkerEvent.ReadsIn start stop (.stage30 q out))
    (hfresh : WorkerEvent.Refreshes cfg s (.stage30 q out)) :
    Ensures (stage30 cfg s q out)
      (fun reply => s.Passed start stop (s.acceptedBy cfg (.stage30 q out)) reply.2)
      (fun _ => True) := by
  unfold Worker.acceptedBy stage30
  dsimp only
  cases hget : currReqsGet s.currReqs q.socket with
  | some r => exact (Worker.KeepsTimes.refl s).looked.passed h (.refl s)
  | none =>
      cases hfind : findFile cfg s q out with
      | error e => trivial
      | ok found =>
          have hlooked : s.Looked start stop found.1.addr found.2 := by
            refine findFile_looked hreads (hfresh.resolve_left ?_) hfind
            rw [hget]
            exact Bool.false_ne_true
          have hkeeps := (findFile_keeps h hallow (.of_any (fun _ _ => trivial) _)).of_ok hfind
          have hinv := hkeeps.1.inv
          obtain ⟨reply, mid⟩ := found
          cases reply with
          | file a =>
              exact (serveFile_keepsTimes mid a q.socket out).bind
                (fun _ hs' => hlooked.passed hinv hs')
          | busy => exact hlooked.passed hinv (.refl mid)
          | api => exact hlooked.passed hinv (.refl mid)
          | notMe => exact hlooked.passed hinv (.refl mid)

/-- **Step lemma.** -/
theorem Worker.step_passed (h : s.Inv safeBlocks) {e : WorkerEvent} (hallow : safeBlocks.Allows e)
    (hreads : e.ReadsIn start stop) (hfresh : e.Refreshes cfg s) :
    Ensures (s.step cfg e) (fun out => s.Passed start stop (s.acceptedBy cfg e) out.2)
      (fun _ => True) := by
  have hnone : ∀ s', s.KeepsTimes s' → s.Passed start stop none s' := fun s' hs' =>
    (Worker.KeepsTimes.refl s).looked.passed h hs'
  unfold Worker.step
  cases e with
  | stage30 q out => exact (stage30_passed h hallow hreads hfresh).bind (fun _ hs' => hs')
  | eventWrite socket out =>
      exact (eventWrite_keepsTimes s socket out).bind (fun s' hs' => hnone s' hs')
  | eventError socket =>
      exact (currReqsDel_keepsTimes s socket).bind (fun s' hs' => hnone s' hs')
  | eventTimeout socket =>
      exact (currReqsDel_keepsTimes s socket).bind (fun s' hs' => hnone s' hs')
  | tick now =>
      exact ((cacheFileTick_due h.core.table now).total).bind (fun s' hs' => hnone s' hs'.1)

/-! ## Runs with a clock -/

/-- An event, which begins and ends at these times. -/
structure TimedEvent where
  event : WorkerEvent
  start : Int
  stop : Int

/-- `_mkp_stage_30` accepted a request for the object `serial` between these times. -/
structure Acceptance where
  serial : Nat
  start : Int
  stop : Int
  deriving DecidableEq, Repr

/-- A worker, the time at which its last event ended, and the requests it accepted, the
latest first. -/
structure Timed where
  worker : Worker
  clock : Int
  log : List Acceptance

/-- The log after an event that was accepted for the object `x`, if any. -/
def logAccepted (x : Option Nat) (start stop : Int) (log : List Acceptance) : List Acceptance :=
  match x with
  | none => log
  | some n => ⟨n, start, stop⟩ :: log

def Timed.init (clock : Int) : Timed := { worker := Worker.init, clock := clock, log := [] }

/-- One event; the log is a ghost. -/
def Timed.step (cfg : Config) (t : Timed) (e : TimedEvent) :
    Except Fault (Option Reply × Timed) := do
  let out ← t.worker.step cfg e.event
  .ok (out.1,
    { worker := out.2
      clock := e.stop
      log := logAccepted (t.worker.acceptedBy cfg e.event) e.start e.stop t.log })

/-- The clock does not go back, and every reading during the event is right. -/
structure TimedEvent.OnClock (t : Timed) (e : TimedEvent) : Prop where
  start : t.clock ≤ e.start
  stop : e.start ≤ e.stop
  reads : e.event.ReadsIn e.start e.stop

/-- `last_accessed` is the time of the latest request of a file, and what a tick takes out
of the table was not requested within the last `MAX_FILE_IDLE` milliseconds. -/
structure Timed.Recent (cfg : Config) (t : Timed) : Prop where
  latest : ∀ a o x, t.worker.heap a = some o →
    t.log.find? (fun y => y.serial = o.serial) = some x → o.file.lastAccessed.ReadIn x.start x.stop
  evicted : ∀ now start stop reply s', TimedEvent.OnClock t ⟨.tick now, start, stop⟩ →
    t.worker.step cfg (.tick now) = .ok (reply, s') →
    ∀ k a o, t.worker.tableGet k = some a → s'.tableGet k ≠ some a → t.worker.heap a = some o →
      ∃ i, ∀ x ∈ t.log, x.serial = o.serial → maxFileIdle * 1000 < (now i).micros - x.start

/-- **The invariant.** -/
structure Timed.Inv (t : Timed) : Prop where
  books : t.worker.Inv safeBlocks
  usec : ∀ a o, t.worker.heap a = some o →
    0 ≤ o.file.lastAccessed.usec ∧ o.file.lastAccessed.usec < 1000000
  logged : ∀ x ∈ t.log, x.serial < t.worker.serials ∧ x.start ≤ t.clock
  after : ∀ a o, t.worker.heap a = some o → ∀ x ∈ t.log, x.serial = o.serial →
    x.start ≤ o.file.lastAccessed.micros
  latest : ∀ a o x, t.worker.heap a = some o →
    t.log.find? (fun y => y.serial = o.serial) = some x → o.file.lastAccessed.micros ≤ x.stop

/-- The invariant of timed runs holds at the start. -/
theorem Timed.Inv.init (clock : Int) : (Timed.init clock).Inv where
  books := Worker.init_inv fun _ => rfl
  usec := by
    intro a o ha
    cases ha
  logged := by
    intro x hx
    cases hx
  after := by
    intro a o ha
    cases ha
  latest := by
    intro a o x ha
    cases ha

variable {t t' : Timed} {x : Option Nat} {log : List Acceptance}

/-- An entry of the log is the new acceptance or an old one. -/
theorem mem_logAccepted {y : Acceptance} (h : y ∈ logAccepted x start stop log) :
    (x = some y.serial ∧ y.start = start ∧ y.stop = stop) ∨ y ∈ log := by
  unfold logAccepted at h
  split at h
  · exact .inr h
  · rcases List.mem_cons.1 h with rfl | hold
    · exact .inl ⟨rfl, rfl, rfl⟩
    · exact .inr hold

/-- The log answers with the last acceptance of an object. -/
theorem find_logAccepted (x : Option Nat) (start stop : Int) (log : List Acceptance) (n : Nat) :
    (logAccepted x start stop log).find? (fun y => y.serial = n) =
      if x = some n then some ⟨n, start, stop⟩ else log.find? (fun y => y.serial = n) := by
  unfold logAccepted
  split
  · rfl
  · rename_i m
    by_cases hmn : m = n
    · simp [hmn]
    · simp [hmn]

/-- **Step lemma.** -/
theorem Timed.Inv.step (h : t.Inv) {e : TimedEvent} (hclock : e.OnClock t)
    (hallow : safeBlocks.Allows e.event) (hfresh : e.event.Refreshes cfg t.worker)
    {reply : Option Reply} (hstep : t.step cfg e = .ok (reply, t')) : t'.Inv := by
  obtain ⟨out, hout, heq⟩ := bind_eq_ok.1 hstep
  cases heq
  have hpassed := (Worker.step_passed h.books hallow hclock.reads hfresh).of_ok hout
  have hbooks := (Worker.step_keeps h.books hallow (.of_any (fun _ _ => trivial) _)).of_ok hout
  have hstart := hclock.start
  have hstop := hclock.stop
  generalize t.worker.acceptedBy cfg e.event = x at hpassed
  refine ⟨hbooks, ?_, ?_, ?_, ?_⟩
  · intro a o ha
    by_cases hx : x = some o.serial
    · exact (hpassed.accessed a o ha hx).usec
    · rcases hpassed.objects a o ha hx with ⟨p, hp, _, htime⟩ | ⟨hread, _⟩
      · rw [← htime]
        exact h.usec a p hp
      · exact hread.usec
  · intro y hy
    rcases mem_logAccepted hy with ⟨hx, hy, _⟩ | hold
    · exact ⟨hpassed.known _ hx, hy.trans_le hstop⟩
    · obtain ⟨hserial, hy⟩ := h.logged y hold
      exact ⟨hserial.trans_le hpassed.serials, hy.trans (hstart.trans hstop)⟩
  · intro a o ha y hy hserial
    by_cases hx : x = some o.serial
    · have hread := (hpassed.accessed a o ha hx).after
      rcases mem_logAccepted hy with ⟨_, hy, _⟩ | hold
      · omega
      · have hbefore := (h.logged y hold).2
        omega
    · have hold : y ∈ t.log := by
        rcases mem_logAccepted hy with ⟨hy, _⟩ | hold
        · exact absurd (hserial ▸ hy) hx
        · exact hold
      rcases hpassed.objects a o ha hx with ⟨p, hp, hsame, htime⟩ | ⟨_, hnew⟩
      · rw [← htime]
        exact h.after a p hp y hold (hserial.trans hsame.symm)
      · have hknown := (h.logged y hold).1
        omega
  · intro a o y ha hy
    rw [find_logAccepted] at hy
    split at hy
    · rename_i hx
      cases hy
      exact (hpassed.accessed a o ha hx).before
    · rename_i hx
      rcases hpassed.objects a o ha hx with ⟨p, hp, hsame, htime⟩ | ⟨_, hnew⟩
      · rw [← htime]
        rw [← hsame] at hy
        exact h.latest a p y hp hy
      · have hknown := (h.logged y (List.mem_of_find?_eq_some hy)).1
        have hserial : y.serial = o.serial := by simpa using List.find?_some hy
        omega

/-- The invariant says what a tick may do. -/
theorem Timed.Inv.recent (h : t.Inv) (cfg : Config) : t.Recent cfg := by
  constructor
  · intro a o x ha hx
    have hserial : x.serial = o.serial := by simpa using List.find?_some hx
    exact ⟨h.usec a o ha, h.after a o ha x (List.mem_of_find?_eq_some hx) hserial,
      h.latest a o x ha hx⟩
  · intro now start stop reply s' hclock hstep k a o hk hgone ha
    obtain ⟨s'', htick, heq⟩ := bind_eq_ok.1 hstep
    cases heq
    obtain ⟨_, hdue⟩ := (cacheFileTick_due h.books.core.table now).of_ok htick
    obtain ⟨i, hdue⟩ := (hdue k a o hk ha).resolve_left hgone
    refine ⟨i, ?_⟩
    intro x hx hserial
    have hidle := micros_of_due (h.usec a o ha) (hclock.reads i).usec hdue
    have hafter := h.after a o ha x hx hserial
    omega

/-- The runs whose clock does not go back and whose events satisfy `P`. -/
def Timed.Runs (cfg : Config) (P : Worker → WorkerEvent → Prop) (t₀ t : Timed) : Prop :=
  Reachable (guarded (fun t e => e.OnClock t ∧ P t.worker e.event) (stepRel (Timed.step cfg))) t₀ t

/-- **Files in use.**  Where every request that is accepted accesses its file,
`last_accessed` is the time of the latest of them, and a tick evicts no file that was
requested within the last `MAX_FILE_IDLE` milliseconds. -/
theorem files_in_use {clock : Int} (hrun : Timed.Runs cfg
    (fun s e => safeBlocks.Allows e ∧ e.Refreshes cfg s) (Timed.init clock) t) : t.Recent cfg := by
  have hinv : t.Inv := by
    apply hrun.invariant (fun t => t.Inv) (.init clock)
    intro t e t' _ ht hstep
    obtain ⟨⟨hclock, hallow, hfresh⟩, reply, hstep⟩ := hstep
    exact ht.step hclock hallow hfresh hstep
  exact hinv.recent cfg

/-- A request for `/a` that reads the clock `sec` seconds after the epoch. -/
def requestAt (get : Bool) (sec : Int) : TimedEvent where
  event := .stage30
    { socket := 5, get := get, uriProcessed := fileA, realPath := fileA, body := [] }
    { plainOut 100 ⟨0, false, 0⟩ .all with
      now := ⟨sec, 0⟩
      create := { plainCreate 100 ⟨0, false, 0⟩ with now := ⟨sec, 0⟩ }
      retry := { plainCreate 100 ⟨0, false, 0⟩ with now := ⟨sec, 0⟩ } }
  start := sec * 1000000
  stop := sec * 1000000

/-- A request at a later second is on the clock. -/
theorem requestAt_onClock (get : Bool) {sec : Int} (h : t.clock ≤ sec * 1000000) :
    (requestAt get sec).OnClock t := by
  have hread : Timeval.ReadIn ⟨sec, 0⟩ (sec * 1000000) (sec * 1000000) :=
    ⟨⟨le_rfl, (by decide : (0 : Int) < 1000000)⟩, (Int.add_zero _).ge, (Int.add_zero _).le⟩
  exact ⟨h, le_rfl, hread, hread, hread⟩

/-- Two GET requests for one file. -/
theorem files_in_use_sample :
    ∃ t : Timed, t.log = [⟨0, 4000000, 4000000⟩, ⟨0, 1000000, 1000000⟩] ∧ t.Recent plainConfig := by
  have hrun : Timed.Runs plainConfig (fun s e => safeBlocks.Allows e ∧ e.Refreshes plainConfig s)
      (Timed.init 0) _ :=
    (Reachable.init.step (e := requestAt true 1)
      ⟨⟨requestAt_onClock true (by decide), ⟨by decide, nofun, nofun⟩, .inr (.inr fun _ => rfl)⟩,
        _, rfl⟩).step (e := requestAt true 4)
      ⟨⟨requestAt_onClock true (by decide), ⟨by decide, nofun, nofun⟩, .inr (.inl ⟨rfl, rfl⟩)⟩,
        _, rfl⟩
  exact ⟨_, rfl, files_in_use hrun⟩

/-- A file is requested with GET, and three seconds later with HEAD.  A tick evicts it
three seconds after the second request. -/
theorem evicted_in_use :
    ∃ t, Timed.Runs plainConfig (fun _ e => safeBlocks.Allows e) (Timed.init 0) t ∧
      ¬ t.Recent plainConfig := by
  have hrun : Timed.Runs plainConfig (fun _ e => safeBlocks.Allows e) (Timed.init 0) _ :=
    (Reachable.init.step (e := requestAt true 1)
      ⟨⟨requestAt_onClock true (by decide), by decide, nofun, nofun⟩, _, rfl⟩).step
      (e := requestAt false 4)
      ⟨⟨requestAt_onClock false (by decide), by decide, nofun, nofun⟩, _, rfl⟩
  refine ⟨_, hrun, ?_⟩
  intro h
  have hread : Timeval.ReadIn ⟨7, 0⟩ 7000000 7000000 := ⟨by decide, by decide, by decide⟩
  obtain ⟨_, hidle⟩ := h.evicted (fun _ => ⟨7, 0⟩) 7000000 7000000 none _
    ⟨by decide, le_rfl, fun _ => hread⟩ rfl fileA 100 _ rfl (by decide) rfl
  exact absurd (hidle ⟨0, 4000000, 4000000⟩ (by decide) rfl) (by decide)

end MonkeyCache
