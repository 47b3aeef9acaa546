import MonkeyCache.TableRuns

/-!
# What the functions of `cache_file.c` do to the table and the heap

The effects hold in every state, whatever the counters and the flags of the
files are.  A function that returns has changed at most the bindings and the
objects named here:

* `fileTableReset_cases` — a key loses its binding, and the object behind it
  becomes a zombie, or is freed when it has no request.
* `publish_cases`, `cacheFileTmp_cases`, `cacheFileNew_cases` — a constructor
  stores an object in a free block, or leaves table and heap as they were.

From these follows what a failing constructor leaves behind (`failed_add`): an
added resource has lost its key before anything was built.
-/

namespace MonkeyCache

open Fallible

variable {size : Nat} {s s' : Worker} {uri : Key} {o : CreateOut}

/-! ## Objects in the table -/

/-- Every binding leads to a live object, which is stored under its own URI. -/
def Books.UnderOwnUri (s : Books) : Prop :=
  ∀ k a, s.tableGet k = some a → ∃ obj, s.heap a = some obj ∧ obj.file.uri = k

/-- The object with the number `n` is what `k` is bound to. -/
def Books.Holds (s : Books) (k : Key) (n : Nat) : Prop :=
  ∃ a obj, s.tableGet k = some a ∧ s.heap a = some obj ∧ obj.serial = n

/-- What is left of an object that left the table. -/
def Object.outlived (obj : Object) : Option Object :=
  if obj.file.pendingReqs = 0 then none else some obj.retired

/-- Two keys do not lead to one object. -/
theorem Books.UnderOwnUri.inj {b : Books} (h : b.UnderOwnUri) {j k : Key} {a : Addr}
    (hj : b.tableGet j = some a) (hk : b.tableGet k = some a) : j = k := by
  obtain ⟨obj, ha, huri⟩ := h j a hj
  obtain ⟨obj', ha', huri'⟩ := h k a hk
  cases ha.symm.trans ha'
  exact huri.symm.trans huri'

/-- The object behind a key has left the table. -/
structure Worker.Retired (s : Worker) (k : Key) (a : Addr) (obj : Object) (s' : Worker) :
    Prop where
  bound : s.tableGet k = some a
  live : s.heap a = some obj
  table : s'.fileTable = s.fileTable.erase k
  heap : s'.heap = Function.update s.heap a obj.outlived
  serials : s'.serials = s.serials
  frees : s.frees <+: s'.frees
  freed : obj.outlived = none → ∃ x ∈ s'.frees, x.serial = obj.serial

/-- A block has become the object `obj`, which is stored under its own URI. -/
structure Worker.Stored (s : Worker) (a : Addr) (obj : Object) (s' : Worker) : Prop where
  free : s.heap a = none
  table : s'.fileTable = Buckets.store obj.file.uri a s.fileTable
  heap : s'.heap = Function.update s.heap a (some obj)
  serial : obj.serial = s.serials
  serials : s'.serials = s.serials + 1
  frees : s'.frees = s.frees

/-- Table and heap are as they were; objects may have come and gone. -/
structure Worker.Unchanged (s s' : Worker) : Prop where
  table : s'.fileTable = s.fileTable
  heap : s'.heap = s.heap
  serials : s.serials ≤ s'.serials
  frees : s.frees <+: s'.frees

/-- A worker left alone is unchanged. -/
theorem Worker.Unchanged.refl (s : Worker) : s.Unchanged s :=
  ⟨rfl, rfl, le_rfl, List.prefix_rfl⟩

section Effects

variable {j k : Key} {a b : Addr} {obj : Object}

/-- A retired URI is not found any more. -/
theorem Worker.Retired.self (h : s.Retired k a obj s') : s'.tableGet k = none := by
  unfold Books.tableGet
  rw [h.table]
  exact AList.lookup_erase k s.fileTable

/-- Every other URI is found as before. -/
theorem Worker.Retired.other (h : s.Retired k a obj s') (hj : j ≠ k) :
    s'.tableGet j = s.tableGet j := by
  unfold Books.tableGet
  rw [h.table]
  exact AList.lookup_erase_ne hj

/-- The retired object lives on while requests hold it. -/
theorem Worker.Retired.heap_self (h : s.Retired k a obj s') : s'.heap a = obj.outlived := by
  rw [h.heap, Function.update_self]

/-- No other object is touched. -/
theorem Worker.Retired.heap_other (h : s.Retired k a obj s') (hb : b ≠ a) :
    s'.heap b = s.heap b := by
  rw [h.heap, Function.update_of_ne hb]

/-- The object behind another key is another object, which stays as it is. -/
theorem Worker.Retired.heap_bound (h : s.Retired k a obj s') (hown : s.UnderOwnUri) (hj : j ≠ k)
    (hb : s.tableGet j = some b) : s'.heap b = s.heap b := by
  apply h.heap_other
  intro hba
  exact hj (hown.inj hb (hba ▸ h.bound))

/-- The table still names every object by its own URI. -/
theorem Worker.Retired.underOwnUri (h : s.Retired k a obj s') (hown : s.UnderOwnUri) :
    s'.UnderOwnUri := by
  intro j b hb
  have hj : j ≠ k := by
    intro hj
    rw [hj, h.self] at hb
    cases hb
  rw [h.other hj] at hb
  rw [h.heap_bound hown hj hb]
  exact hown j b hb

/-- A stored object is found under its URI. -/
theorem Worker.Stored.self (h : s.Stored a obj s') : s'.tableGet obj.file.uri = some a := by
  unfold Books.tableGet
  rw [h.table]
  exact Buckets.lookup_store s.fileTable

/-- Every other URI is found as before. -/
theorem Worker.Stored.other (h : s.Stored a obj s') (hj : j ≠ obj.file.uri) :
    s'.tableGet j = s.tableGet j := by
  unfold Books.tableGet
  rw [h.table]
  exact Buckets.lookup_store_ne hj

/-- The stored object is live as it was built. -/
theorem Worker.Stored.heap_self (h : s.Stored a obj s') : s'.heap a = some obj := by
  rw [h.heap, Function.update_self]

/-- The objects that were there stay as they are. -/
theorem Worker.Stored.heap_live (h : s.Stored a obj s') {obj' : Object}
    (hb : s.heap b = some obj') : s'.heap b = some obj' := by
  have hba : b ≠ a := by
    intro hba
    rw [hba, h.free] at hb
    cases hb
  rw [h.heap, Function.update_of_ne hba, hb]

/-- The table still names every object by its own URI. -/
theorem Worker.Stored.underOwnUri (h : s.Stored a obj s') (hown : s.UnderOwnUri) :
    s'.UnderOwnUri := by
  intro j b hb
  by_cases hj : j = obj.file.uri
  · rw [hj, h.self, Option.some.injEq] at hb
    exact ⟨obj, by rw [← hb, h.heap_self], hj.symm⟩
  · rw [h.other hj] at hb
    obtain ⟨obj', hlive, huri⟩ := hown j b hb
    exact ⟨obj', h.heap_live hlive, huri⟩

/-- An unchanged worker finds the same objects. -/
theorem Worker.Unchanged.tableGet_eq (h : s.Unchanged s') (k : Key) :
    s'.tableGet k = s.tableGet k := by
  unfold Books.tableGet
  rw [h.table]

/-- An unchanged worker still names every object by its own URI. -/
theorem Worker.Unchanged.underOwnUri (h : s.Unchanged s') (hown : s.UnderOwnUri) :
    s'.UnderOwnUri := by
  intro k a ha
  rw [h.tableGet_eq] at ha
  rw [h.heap]
  exact hown k a ha

end Effects

/-- No system call of the constructor fails, and the object can be stored. -/
def CreateOut.Succeeds (o : CreateOut) : Prop :=
  o.opened = true ∧ o.written = true ∧ o.mapped = true ∧ o.stored = true

/-! ## Reset -/

/-- **Reset.** -/
theorem fileTableReset_cases (h : fileTableReset size s uri = .ok s') :
    (s.tableGet uri = none ∧ s' = s) ∨ ∃ a obj, s.Retired uri a obj s' := by
  unfold fileTableReset at h
  cases hget : s.tableGet uri with
  | none =>
      rw [hget] at h
      cases h
      exact .inl ⟨rfl, Worker.tableDel_of_none hget⟩
  | some a =>
      rw [hget] at h
      dsimp only [resetFile] at h
      obtain ⟨obj, hderef, h⟩ := bind_eq_ok.1 h
      have ha : s.heap a = some obj := ((s.tableDel uri).deref_ensures a).of_ok hderef
      right
      refine ⟨a, obj, ?_⟩
      split at h
      · rename_i hzero
        -- nobody needs the object
        have hself : ((s.tableDel uri).put a obj.retired).heap a = some obj.retired :=
          Worker.put_self _ a _
        have hbooks := Ensures.of_ok (cacheFileFree_eq hself) h
        rw [Books.free, Books.mk.injEq] at hbooks
        obtain ⟨hheap, htable, _, hserials, hfrees⟩ := hbooks
        refine ⟨hget, ha, htable, ?_, hserials, ?_, ?_⟩
        · rw [hheap]
          unfold Object.outlived
          rw [if_pos hzero]
          exact Function.update_idem _ _ _
        · rw [hfrees]
          exact List.prefix_append _ _
        · intro _
          rw [hfrees]
          exact ⟨_, List.mem_append_right _ (List.mem_singleton.2 rfl), rfl⟩
      · rename_i hpos
        cases h
        have hout : obj.outlived = some obj.retired := if_neg hpos
        refine ⟨hget, ha, rfl, ?_, rfl, List.prefix_rfl, ?_⟩
        · rw [hout]
          rfl
        · intro hnone
          rw [hout] at hnone
          cases hnone

/-- A reset returns where the binding leads to a live object. -/
theorem fileTableReset_total (size : Nat) (h : s.UnderOwnUri) (uri : Key) :
    ∃ s', fileTableReset size s uri = .ok s' := by
  unfold fileTableReset
  cases hget : s.tableGet uri with
  | none => exact ⟨_, rfl⟩
  | some a =>
      obtain ⟨obj, ha, _⟩ := h uri a hget
      have hderef : (s.tableDel uri).deref a = .ok obj := Books.deref_ok ha
      have hself : ((s.tableDel uri).put a obj.retired).heap a = some obj.retired :=
        Worker.put_self _ a _
      dsimp only [resetFile]
      rw [hderef]
      by_cases hzero : obj.file.pendingReqs = 0
      · have hfrees : Ensures (cacheFileFree size ((s.tableDel uri).put a obj.retired) a) _ _ :=
          cacheFileFree_eq hself
        obtain ⟨s', hfree, _⟩ := hfrees.exists_ok
        refine ⟨s', ?_⟩
        show (if obj.file.pendingReqs = 0 then _ else _) = _
        rw [if_pos hzero]
        exact hfree
      · refine ⟨(s.tableDel uri).put a obj.retired, ?_⟩
        show (if obj.file.pendingReqs = 0 then _ else _) = _
        rw [if_neg hzero]
        rfl

/-! ## Look-up -/

/-- The object after `cache_file_get` found it. -/
def Object.accessed (obj : Object) (now : Timeval) : Object :=
  { obj with file := { obj.file with lastAccessed := now } }

/-- **Look-up.** -/
theorem cacheFileGet_cases {now : Timeval} {out : Option Addr}
    (h : cacheFileGet s uri now = .ok (out, s')) :
    (out = none ∧ s.tableGet uri = none ∧ s' = s) ∨
      ∃ a obj, out = some a ∧ s.tableGet uri = some a ∧ s.heap a = some obj ∧
        s' = s.put a (obj.accessed now) := by
  unfold cacheFileGet at h
  cases hget : s.tableGet uri with
  | none =>
      rw [hget] at h
      cases h
      exact .inl ⟨rfl, rfl, rfl⟩
  | some a =>
      rw [hget] at h
      obtain ⟨obj, hderef, h⟩ := bind_eq_ok.1 h
      cases h
      exact .inr ⟨a, obj, rfl, rfl, (s.deref_ensures a).of_ok hderef, rfl⟩

/-- A look-up returns what the key is bound to. -/
theorem cacheFileGet_bound {a : Addr} {obj : Object} (hget : s.tableGet uri = some a)
    (ha : s.heap a = some obj) (now : Timeval) :
    cacheFileGet s uri now = .ok (some a, s.put a (obj.accessed now)) := by
  unfold cacheFileGet
  rw [hget]
  dsimp only
  rw [Books.deref_ok ha]
  rfl

/-- cache_file_get of a URI that is not in the table finds nothing and changes nothing. -/
theorem cacheFileGet_free (hget : s.tableGet uri = none) (now : Timeval) :
    cacheFileGet s uri now = .ok (none, s) := by
  unfold cacheFileGet
  rw [hget]

/-! ## Constructors -/

/-- **Publish.** -/
theorem publish_cases {maker : Maker} {content : List Byte} {evictable zombie : Bool}
    {pendingReqs : Int} {out : Option Addr}
    (h : publish size s maker uri content evictable zombie pendingReqs o = .ok (out, s')) :
    (out = none ∧ s.Unchanged s' ∧ (uri = [] ∨ o.stored = false)) ∨
      (out = some o.block ∧ ∃ headers chain, s.Stored o.block
        ⟨builtFile uri content evictable zombie pendingReqs o headers chain, maker, s.serials,
          pendingReqs⟩ s') := by
  unfold publish at h
  split at h
  · cases h
  · rename_i hblock
    have hnone : s.heap o.block = none := by simpa using hblock
    obtain ⟨headers, _, h⟩ := bind_eq_ok.1 h
    obtain ⟨chain, _, h⟩ := bind_eq_ok.1 h
    dsimp only [Worker.tableAdd] at h
    by_cases hstore : (builtFile uri content evictable zombie pendingReqs o headers.1 chain.1).uri
        = [] ∨ o.stored = false
    · -- the object is freed at once
      rw [if_pos hstore] at h
      obtain ⟨s₁, hfree, h⟩ := bind_eq_ok.1 h
      cases h
      have hbooks := Ensures.of_ok (cacheFileFree_eq (Function.update_self o.block (some _) s.heap))
        hfree
      rw [Books.free, Books.mk.injEq] at hbooks
      obtain ⟨hheap, htable, _, hserials, hfrees⟩ := hbooks
      refine .inl ⟨rfl, ⟨htable, ?_, ?_, ?_⟩, hstore.imp_left ?_⟩
      · rw [hheap]
        dsimp only [Worker.put]
        rw [Function.update_idem, ← hnone, Function.update_eq_self]
      · rw [hserials]
        exact Nat.le_succ _
      · rw [hfrees]
        exact List.prefix_append _ _
      · intro hempty
        have hlen := congrArg List.length hempty
        simp only [builtFile, List.length_take, List.length_nil, maxUriLen] at hlen
        exact List.length_eq_zero_iff.1 (by omega)
    · rw [if_neg hstore] at h
      cases h
      exact .inr ⟨rfl, headers.1, chain.1, hnone, rfl, rfl, rfl, rfl, rfl⟩

/-- **`cache_file_tmp`** resets the key, and then it stores the new object or
leaves table and heap alone. -/
theorem cacheFileTmp_cases {body : List Byte} {out : Option Addr}
    (h : cacheFileTmp size s uri body o = .ok (out, s')) :
    ∃ s₁, fileTableReset size s uri = .ok s₁ ∧ s₁.tableGet uri = none ∧
      ((out = none ∧ s₁.Unchanged s' ∧ (uri = [] ∨ ¬ o.Succeeds)) ∨
        (out = some o.block ∧ ∃ headers chain,
          s₁.Stored o.block ⟨builtFile uri body false o.junk.zombie o.junk.pendingReqs o headers
            chain, .cacheFileTmp, s₁.serials, o.junk.pendingReqs⟩ s')) := by
  unfold cacheFileTmp at h
  obtain ⟨s₁, hreset, h⟩ := bind_eq_ok.1 h
  refine ⟨s₁, hreset, ?_⟩
  split at h
  · cases h
  · rename_i hgone
    refine ⟨by simpa using hgone, ?_⟩
    split at h
    · rename_i hopened
      cases h
      exact .inl ⟨rfl, .refl _, .inr fun hs => hopened hs.1⟩
    · split at h
      · rename_i hfile
        cases h
        exact .inl ⟨rfl, ⟨rfl, rfl, le_rfl, List.prefix_rfl⟩,
          .inr fun hs => hfile ⟨hs.2.1, hs.2.2.1⟩⟩
      · rcases publish_cases h with ⟨hnone, hsame, hwhy⟩ | ⟨hsome, headers, chain, hstored⟩
        · refine .inl ⟨hnone, ⟨hsame.table, hsame.heap, hsame.serials, hsame.frees⟩,
            hwhy.imp_right ?_⟩
          intro hrefused hs
          exact Bool.false_ne_true (hrefused.symm.trans hs.2.2.2)
        · exact .inr ⟨hsome, headers, chain, hstored.free, hstored.table, hstored.heap,
            hstored.serial, hstored.serials, hstored.frees⟩

/-- **`cache_file_new`** finds the object, stores a new one, or leaves table and
heap alone. -/
theorem cacheFileNew_cases {path : Key} {disk : Key → Option (List Byte)} {out : Option Addr}
    (h : cacheFileNew size s path uri disk o = .ok (out, s')) :
    (out = none ∧ s.Unchanged s') ∨
      (∃ a, out = some a ∧ s.tableGet uri = some a ∧ s' = s) ∨
      (out = some o.block ∧ s.tableGet uri = none ∧ ∃ content headers chain,
        s.Stored o.block ⟨builtFile uri content true false 0 o headers chain, .cacheFileNew,
          s.serials, 0⟩ s') := by
  unfold cacheFileNew at h
  split at h
  · cases h
    exact .inl ⟨rfl, .refl _⟩
  · split at h
    · cases h
      exact .inl ⟨rfl, .refl _⟩
    · cases hget : s.tableGet uri with
      | some a =>
          rw [hget] at h
          cases h
          exact .inr (.inl ⟨a, rfl, rfl, rfl⟩)
      | none =>
          rw [hget] at h
          dsimp only at h
          split at h
          · cases h
            exact .inl ⟨rfl, .refl _⟩
          · split at h
            · cases h
              exact .inl ⟨rfl, rfl, rfl, le_rfl, List.prefix_rfl⟩
            · rcases publish_cases h with ⟨hnone, hsame, _⟩ | ⟨hsome, headers, chain, hstored⟩
              · exact .inl ⟨hnone, hsame.table, hsame.heap, hsame.serials, hsame.frees⟩
              · exact .inr (.inr ⟨hsome, rfl, _, headers, chain, hstored.free, hstored.table,
                  hstored.heap, hstored.serial, hstored.serials, hstored.frees⟩)

/-! ## Eviction -/

/-- The callback evicts the object at `now`. -/
def Object.Due (obj : Object) (now : Timeval) : Prop :=
  maxFileIdle < getTimeDiffMs obj.file.lastAccessed now ∧ obj.file.evictable = true

/-- **One visit** of an object under its own URI. -/
theorem cacheFileTickCb_visit (size : Nat) (hown : s.UnderOwnUri) {k : Key} {a : Addr}
    {obj : Object} (hk : s.tableGet k = some a) (ha : s.heap a = some obj) (now : Timeval) :
    ∃ s', cacheFileTickCb size s a now = .ok s' ∧
      ((obj.Due now ∧ s.Retired k a obj s') ∨ (¬ obj.Due now ∧ s' = s)) := by
  obtain ⟨obj', ha', huri⟩ := hown k a hk
  cases ha.symm.trans ha'
  by_cases hdue : obj.Due now
  · obtain ⟨s', hreset⟩ := fileTableReset_total size hown obj.file.uri
    refine ⟨s', ?_, .inl ⟨hdue, ?_⟩⟩
    · unfold cacheFileTickCb
      rw [Books.deref_ok ha]
      exact (if_pos hdue).trans hreset
    · rw [huri] at hreset
      rcases fileTableReset_cases hreset with ⟨hnone, _⟩ | ⟨b, obj', hretired⟩
      · cases hnone.symm.trans hk
      · cases hk.symm.trans hretired.bound
        cases ha.symm.trans hretired.live
        exact hretired
  · refine ⟨s, ?_, .inr ⟨hdue, rfl⟩⟩
    unfold cacheFileTickCb
    rw [Books.deref_ok ha]
    exact if_neg hdue

/-- **Tick rule.**  What every eviction of an idle object keeps is kept by a
tick, which always ends. -/
theorem cacheFileTick_rule {now : Nat → Timeval} {I : Worker → Prop}
    (hI : ∀ t t' k a obj i, t.UnderOwnUri → I t → t.Retired k a obj t' → obj.Due (now i) → I t')
    (hown : s.UnderOwnUri) (h : I s) :
    Ensures (cacheFileTick size now s) (fun s' => s'.UnderOwnUri ∧ I s') (fun _ => False) := by
  apply cacheFileTick_ensures ?_ ⟨hown, h⟩
  intro t k a i ht hk
  obtain ⟨hown, h⟩ := ht
  obtain ⟨obj, ha, _⟩ := hown k a hk
  obtain ⟨t', hcb, hcases⟩ := cacheFileTickCb_visit size hown hk ha (now i)
  rw [hcb]
  rcases hcases with ⟨hdue, hretired⟩ | ⟨_, rfl⟩
  · exact ⟨hretired.underOwnUri hown, hI t t' k a obj i hown h hretired hdue⟩
  · exact ⟨hown, h⟩

end MonkeyCache
