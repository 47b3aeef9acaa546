import MonkeyCache.Lib.Buckets
import MonkeyCache.Frame
import MonkeyCache.Lifetime

/-!
# The functions of `cache_file.c` keep the books

Each function keeps `Books.Inv`, leaves the requests alone, and never uses a
freed object: its faults are all `Fault.Live`.
-/

namespace MonkeyCache

open Fallible

variable {R R' : Regime} {s s' : Worker} {a : Addr} {o : Object} {size : Nat}

/-- What a function of `cache_file.c` leaves behind. -/
structure Settled (R : Regime) (s s' : Worker) : Prop where
  inv : s'.Inv R
  reqs : s'.currReqs = s.currReqs

theorem Settled.refl (h : s.Inv R) : Settled R s s := ⟨h, rfl⟩

/-! ## Freeing and resetting -/

theorem cacheFileFree_eq (ha : s.heap a = some o) :
    Ensures (cacheFileFree size s a) (fun s' => s'.toBooks = s.toBooks.free a o)
      (fun _ => False) := by
  unfold cacheFileFree
  rw [Books.deref_ok ha]
  rfl

/-- **Free.** -/
theorem cacheFileFree_keeps (h : s.Core R) (hleak : s.NoLeak (fun b => b = a))
    (ha : s.heap a = some o) (hout : s.tableGet o.file.uri ≠ some a) (hrefs : s.refs a = 0) :
    Ensures (cacheFileFree size s a) (fun s' => Settled R s s' ∧ s'.fileTable = s.fileTable ∧
      s'.serials = s.serials) (fun _ => False) := by
  apply (cacheFileFree_eq ha).imp_ok
  intro s' hs'
  have hinv : s'.Inv R := hs' ▸ h.free hleak ha hout hrefs
  rw [Books.free, Books.mk.injEq] at hs'
  obtain ⟨_, htable, hreqs, hserials, _⟩ := hs'
  exact ⟨⟨hinv, hreqs⟩, htable, hserials⟩

theorem Worker.tableDel_of_none {uri : Key} (h : s.tableGet uri = none) :
    s.tableDel uri = s := by
  unfold Worker.tableDel
  rw [Buckets.erase_of_lookup h]

/-- **Reset.** -/
theorem fileTableReset_keeps (h : s.Inv R) {uri : Key} (hpin : R.pin uri = none) :
    Ensures (fileTableReset size s uri)
      (fun s' => Settled R s s' ∧ s'.tableGet uri = none ∧ s'.serials = s.serials)
      (fun _ => False) := by
  unfold fileTableReset
  cases hget : s.tableGet uri with
  | none =>
      dsimp only
      rw [Worker.tableDel_of_none hget]
      exact ⟨.refl h, hget, rfl⟩
  | some a =>
      obtain ⟨o, ha, huri⟩ := h.core.table uri a hget
      obtain ⟨hcore, hleak⟩ := h.retire hget ha hpin
      have hcounted := (h.core.sound a o ha).counted
      have hbase := h.core.base_nonneg ha (huri ▸ hpin)
      have hself : (s.toBooks.retire uri a o).heap a = some o.retired :=
        Function.update_self a _ s.heap
      have hnone : (s.toBooks.retire uri a o).tableGet uri = none := Books.erase_self _ uri
      dsimp only [resetFile]
      rw [Books.deref_ok (s := (s.tableDel uri).toBooks) ha]
      refine Ensures.ite ?_ ?_
      · intro hzero
        -- the counter is 0, so no request refers to the object
        have hrefs : s.refs a = 0 := by omega
        have hskip : (s.toBooks.retire uri a o).NoLeak (fun b => b = a) := by
          intro b p hb hzero hshort
          exact (hleak b p hb hzero hshort).imp_right (Or.imp_right And.left)
        have hout : (s.toBooks.retire uri a o).tableGet o.file.uri ≠ some a := by
          rw [huri, hnone]
          nofun
        apply (cacheFileFree_keeps (s := (s.tableDel uri).put a o.retired) hcore hskip hself hout
          hrefs).imp_ok
        intro s' hs'
        obtain ⟨⟨hinv, hreqs⟩, htable, hserials⟩ := hs'
        refine ⟨⟨hinv, hreqs⟩, ?_, hserials⟩
        unfold Books.tableGet
        rw [htable]
        exact hnone
      · intro hpos
        refine ⟨⟨⟨hcore, ?_⟩, rfl⟩, hnone, rfl⟩
        intro b p hb hzero hshort
        rcases hleak b p hb hzero hshort with hin | hz | ⟨rfl, hrefs⟩
        · exact .inl hin
        · exact .inr (.inl hz)
        · -- without a request the counter would be 0
          cases hself.symm.trans hb
          have hsame : o.retired.base = o.base := rfl
          omega

/-! ## Look-up -/

theorem Object.Same.accessed (o : Object) (now : Timeval) :
    o.Same { o with file := { o.file with lastAccessed := now } } :=
  ⟨rfl, rfl, rfl, rfl, rfl, rfl, rfl⟩

/-- An object changes, and the requests do not. -/
theorem Books.Inv.put {s : Books} {o' : Object} (h : s.Inv R) (ha : s.heap a = some o)
    (hsame : o.Same o') (hzombie : o'.file.zombie = o.file.zombie)
    (hpending : o'.file.pendingReqs = o.file.pendingReqs) :
    (s.change a o' s.currReqs).Inv R where
  core := h.core.change ha hsame (.inl hzombie) (hpending.trans (h.core.sound a o ha).counted)
    (fun _ _ => rfl) (fun _ hr => .inr hr) h.core.sockets
  noLeak := h.noLeak.change ha hsame hzombie (fun _ hpos => .inl hpos) (fun _ _ => rfl)

/-- A live object that was stored for `uri`, which it may hold shortened. -/
def Settled.StoredFor (s : Worker) (uri : Key) (a : Addr) : Prop :=
  ∃ o, s.heap a = some o ∧ o.file.uri.take (maxUriLen - 1) = uri.take (maxUriLen - 1)

theorem cacheFileGet_keeps (h : s.Inv R) (uri : Key) (now : Timeval) :
    Ensures (cacheFileGet s uri now)
      (fun out => Settled R s out.2 ∧ ∀ a, out.1 = some a → Settled.StoredFor out.2 uri a)
      (fun _ => False) := by
  unfold cacheFileGet
  cases hget : s.tableGet uri with
  | none => exact ⟨.refl h, nofun⟩
  | some a =>
      obtain ⟨o, ha, huri⟩ := h.core.table uri a hget
      dsimp only
      rw [Books.deref_ok ha]
      refine ⟨⟨h.put ha (.accessed o now) rfl rfl, rfl⟩, ?_⟩
      intro b hb
      cases hb
      refine ⟨_, Function.update_self a _ s.heap, ?_⟩
      dsimp only
      rw [huri]

/-! ## Constructors -/

/-- A constructor either fails and leaves the books in order, or publishes the
object it was asked for. -/
def Published (R R' : Regime) (key : Key) (block : Addr) (s : Worker)
    (out : Option Addr × Worker) : Prop :=
  (out.1 = none ∧ Settled R s out.2) ∨
    (out.1 = some block ∧ Settled R' s out.2 ∧ out.2.tableGet key = some block ∧
      ∃ o, out.2.heap block = some o ∧ o.file.uri = key)

/-- **Publish.** -/
theorem publish_keeps (h : s.Inv R) {maker : Maker} {uri : Key} {content : List Byte}
    {evictable zombie : Bool} {pendingReqs : Int} {o : CreateOut}
    (hR : R.Extends R' (uri.take (maxUriLen - 1)))
    (ho : ∀ headers chain, Object.Fresh R'
      ⟨builtFile uri content evictable zombie pendingReqs o headers chain, maker, s.serials,
        pendingReqs⟩ o.block s.serials)
    (hfree : s.tableGet (uri.take (maxUriLen - 1)) = none ∨
      maxUriLen - 1 ≤ (uri.take (maxUriLen - 1)).length) :
    Ensures (publish size s maker uri content evictable zombie pendingReqs o)
      (Published R R' (uri.take (maxUriLen - 1)) o.block s) Fault.Live := by
  unfold publish
  refine Ensures.guard (fun _ => nofun) ?_
  intro hblock
  have hnone : s.heap o.block = none := by simpa using hblock
  apply (pipeBufNew_live _ _ _).bind
  intro headers _
  apply (newChain_live _ _ _ _).bind
  intro chain _
  dsimp only [Worker.tableAdd]
  by_cases hstore : (uri.take (maxUriLen - 1) = [] ∨ o.stored = false)
  · -- the object is freed at once, and the books are as they were
    have hfile : (builtFile uri content evictable zombie pendingReqs o headers.1 chain.1).uri =
        uri.take (maxUriLen - 1) := rfl
    simp only [hfile, if_pos hstore]
    refine (cacheFileFree_eq (Function.update_self o.block _ s.heap)).total.bind ?_
    intro s' hs'
    refine .inl ⟨rfl, ?_⟩
    have hin := h.core.inTable_free hnone
    have hbooks : s'.toBooks = { s.toBooks with
        serials := s.serials + 1
        frees := s.frees ++ [⟨maker, s.serials, false, 0⟩] } := by
      rw [hs']
      have hrefs := h.core.refs_free hnone
      have hheap : Function.update (Function.update s.heap o.block (some
          (⟨builtFile uri content evictable zombie pendingReqs o headers.1 chain.1, maker,
            s.serials, pendingReqs⟩ : Object))) o.block none = s.heap := by
        rw [Function.update_idem, ← hnone, Function.update_eq_self]
      show Books.mk _ _ _ _ _ = _
      rw [Books.mk.injEq]
      refine ⟨hheap, rfl, rfl, rfl, ?_⟩
      show s.frees ++ [⟨maker, s.serials, s.inTable o.block, s.refs o.block⟩] = _
      rw [hin, hrefs]
    have hinv : s'.Inv R := hbooks ▸ h.discard
    rw [Books.mk.injEq] at hbooks
    exact ⟨hinv, hbooks.2.2.1⟩
  · have hfile : (builtFile uri content evictable zombie pendingReqs o headers.1 chain.1).uri =
        uri.take (maxUriLen - 1) := rfl
    simp only [hfile, if_neg hstore]
    refine .inr ⟨rfl, ⟨?_, rfl⟩, Buckets.lookup_store s.fileTable, _,
      Function.update_self o.block _ s.heap, rfl⟩
    exact h.publish hnone hR (ho headers.1 chain.1) hfree

/-- `uri` as it is stored. -/
theorem stored_uri {uri : Key} (h : uri.length ≤ maxUriLen - 1) :
    uri.take (maxUriLen - 1) = uri :=
  List.take_of_length_le h

/-- The file that `cache_file_new` finds at `path`: one that is not empty. -/
def onDisk (disk : Key → Option (List Byte)) (path : Key) : Option (List Byte) :=
  (disk path).filter (fun content => content ≠ [])

theorem onDisk_eq_some {disk : Key → Option (List Byte)} {path : Key} {content : List Byte} :
    onDisk disk path = some content ↔ disk path = some content ∧ content ≠ [] := by
  unfold onDisk
  simp [Option.filter_eq_some_iff]

/-- A URI that was not found is stored under no bound key, unless it is shortened. -/
theorem Books.stored_free {s : Books} {uri : Key} (hget : s.tableGet uri = none) :
    s.tableGet (uri.take (maxUriLen - 1)) = none ∨
      maxUriLen - 1 ≤ (uri.take (maxUriLen - 1)).length := by
  by_cases hlong : uri.length ≤ maxUriLen - 1
  · exact .inl (by rw [stored_uri hlong, hget])
  · right
    rw [List.length_take]
    omega

/-- A key that is stored shortened is longer than any pinned key. -/
theorem Books.Core.stored_unpinned {s : Books} (h : s.Core R) {uri : Key}
    (hget : s.tableGet uri = none) : R.pin (uri.take (maxUriLen - 1)) = none := by
  cases hp : R.pin (uri.take (maxUriLen - 1)) with
  | none => rfl
  | some p =>
      have hshort := R.pin_short _ p hp
      have hbound := (h.pinned _ p hp).1
      rcases Books.stored_free hget with hnone | hlong
      · rw [hnone] at hbound
        cases hbound
      · omega

/-- What `cache_file_new` makes of a file on the disk. -/
theorem Object.Fresh.of_disk {uri : Key} {content : List Byte} (huri : uri.length ≤ R.uriMax)
    (hpin : R.pin (uri.take (maxUriLen - 1)) = none)
    (hcontent : R.content (uri.take (maxUriLen - 1)) content) (o : CreateOut) (serial : Nat)
    (headers : PipeBuf) (chain : List PipeBuf) :
    Object.Fresh R
      ⟨builtFile uri content true false 0 o headers chain, .cacheFileNew, serial, 0⟩
      o.block serial where
  serial_eq := rfl
  pending_eq := rfl
  out := nofun
  base_nonneg := .inl (le_refl _)
  of_new _ := rfl
  of_tmp := nofun
  uri_le := (List.length_take_le' _ _).trans huri
  uri_short := nofun
  content := hcontent
  sized := rfl
  pinned _ hp := absurd (hpin.symm.trans hp) nofun

/-- **`cache_file_new`** on a URI that is not too long. -/
theorem cacheFileNew_keeps (h : s.Inv R) {path uri : Key} (huri : uri.length ≤ R.uriMax)
    {disk : Key → Option (List Byte)} (o : CreateOut)
    (hreads : ∀ content, onDisk disk path = some content →
      R.content (uri.take (maxUriLen - 1)) content) :
    Ensures (cacheFileNew size s path uri disk o)
      (fun out => Settled R s out.2 ∧ ∀ a, out.1 = some a →
        Settled.StoredFor out.2 uri a ∧ (onDisk disk path).isSome) Fault.Live := by
  unfold cacheFileNew
  split
  · exact ⟨.refl h, nofun⟩
  · rename_i content hdisk
    refine Ensures.ite (fun _ => ⟨.refl h, nofun⟩) fun hne => ?_
    have hcontent : onDisk disk path = some content := onDisk_eq_some.2 ⟨hdisk, hne⟩
    have hsome : (onDisk disk path).isSome := by
      rw [hcontent]
      rfl
    cases hget : s.tableGet uri with
    | some a =>
        obtain ⟨obj, ha, hobj⟩ := h.core.table uri a hget
        refine ⟨.refl h, ?_⟩
        intro b hb
        cases hb
        exact ⟨⟨obj, ha, by rw [hobj]⟩, hsome⟩
    | none =>
        refine Ensures.ite (fun _ => ⟨.refl h, nofun⟩) fun _ => ?_
        refine Ensures.ite (fun _ => ⟨⟨h, rfl⟩, nofun⟩) fun _ => ?_
        have hpin := h.core.stored_unpinned hget
        apply (publish_keeps (s := s.useFd o.fd true) h (.refl hpin)
          (.of_disk huri hpin (hreads content hcontent) o _) (Books.stored_free hget)).imp_ok
        intro out hout
        rcases hout with ⟨hfailed, hs⟩ | ⟨hmade, hs, _, obj, ha, hobj⟩
        · refine ⟨⟨hs.inv, hs.reqs⟩, ?_⟩
          intro a ha
          rw [hfailed] at ha
          cases ha
        · refine ⟨⟨hs.inv, hs.reqs⟩, ?_⟩
          intro b hb
          rw [hmade] at hb
          cases hb
          refine ⟨⟨obj, ha, ?_⟩, hsome⟩
          rw [hobj, List.take_take, Nat.min_self]

/-- **`cache_file_tmp`** on a key that is short enough to be stored as it is. -/
theorem cacheFileTmp_keeps (h : s.Inv R) {key : Key} (hkey : key.length < maxUriLen - 1)
    (hR : R.Extends R' key) {body : List Byte} {o : CreateOut}
    (ho : ∀ headers chain, Object.Fresh R'
      ⟨builtFile key body false o.junk.zombie o.junk.pendingReqs o headers chain,
        .cacheFileTmp, s.serials, o.junk.pendingReqs⟩ o.block s.serials) :
    Ensures (cacheFileTmp size s key body o) (Published R R' key o.block s) Fault.Live := by
  have hstored := stored_uri (Nat.le_of_lt hkey)
  unfold cacheFileTmp
  apply (fileTableReset_keeps h hR.unpinned).total.bind
  intro s₁ hs₁
  obtain ⟨⟨hinv, hreqs⟩, hnone, hserials⟩ := hs₁
  refine Ensures.guard (fun _ => nofun) fun _ => ?_
  refine Ensures.ite (fun _ => .inl ⟨rfl, hinv, hreqs⟩) fun _ => ?_
  refine Ensures.ite (fun _ => .inl ⟨rfl, hinv, hreqs⟩) fun _ => ?_
  have hserial : (s₁.useFd o.fd true).serials = s.serials := hserials
  refine (publish_keeps (s := s₁.useFd o.fd true) hinv (hstored.symm ▸ hR) ?_ ?_).imp_ok ?_
  · intro headers chain
    rw [hserial]
    exact ho headers chain
  · left
    rw [hstored]
    exact hnone
  · intro out hout
    rw [hstored] at hout
    rcases hout with ⟨hfailed, hs⟩ | ⟨hsome, hs, hbound, hlive⟩
    · exact .inl ⟨hfailed, hs.inv, hs.reqs.trans hreqs⟩
    · exact .inr ⟨hsome, ⟨hs.inv, hs.reqs.trans hreqs⟩, hbound, hlive⟩

/-- What `cache_file_tmp` makes of a block the regime allows. -/
theorem Object.Fresh.of_junk {key : Key} {body : List Byte} {o : CreateOut} {serial : Nat}
    (hkey : key.length < maxUriLen - 1) (hmax : key.length ≤ R.uriMax) (hpin : R.pin key = none)
    (hjunk : R.junk o.junk) (hcontent : R.content key body) (headers : PipeBuf)
    (chain : List PipeBuf) :
    Object.Fresh R
      ⟨builtFile key body false o.junk.zombie o.junk.pendingReqs o headers chain,
        .cacheFileTmp, serial, o.junk.pendingReqs⟩ o.block serial := by
  have hstored := stored_uri (Nat.le_of_lt hkey)
  have hsafe := R.junk_safe _ hjunk
  refine
    { serial_eq := rfl
      pending_eq := rfl
      out := ?_
      base_nonneg := .inl ?_
      of_new := nofun
      of_tmp := fun _ => .inl ⟨_, hjunk, rfl⟩
      uri_le := ?_
      uri_short := fun _ => ?_
      content := ?_
      sized := rfl
      pinned := ?_ }
  · intro hz
    rcases hsafe with hpos | ⟨_, hno⟩
    · exact hpos
    · exact absurd (hno.symm.trans hz) nofun
  · rcases hsafe with hpos | ⟨hzero, _⟩
    · exact Int.le_of_lt hpos
    · exact Int.le_of_eq hzero.symm
  · show (key.take _).length ≤ _
    rw [hstored]
    exact hmax
  · show (key.take _).length < _
    rw [hstored]
    exact hkey
  · show R.content (key.take _) body
    rw [hstored]
    exact hcontent
  · intro p hp
    change R.pin (key.take _) = some p at hp
    rw [hstored, hpin] at hp
    cases hp

/-! ## Eviction -/

/-- One call of the callback.  A pinned object is not evictable. -/
theorem cacheFileTickCb_keeps (h : s.Inv R) {k : Key} (hk : s.tableGet k = some a)
    (now : Timeval) :
    Ensures (cacheFileTickCb size s a now) (Settled R s) (fun _ => False) := by
  obtain ⟨o, ha, huri⟩ := h.core.table k a hk
  unfold cacheFileTickCb
  rw [Books.deref_ok ha]
  refine Ensures.ite ?_ (fun _ => .refl h)
  intro hevict
  have hpin : R.pin o.file.uri = none := by
    cases hp : R.pin o.file.uri with
    | none => rfl
    | some p =>
        obtain ⟨hget, q, hq, hpinned⟩ := h.core.pinned _ p hp
        rw [huri, hk, Option.some.injEq] at hget
        rw [← hget, ha, Option.some.injEq] at hq
        rw [hq, hpinned.stays] at hevict
        simp at hevict
  exact (fileTableReset_keeps h hpin).imp_ok (fun _ hs => hs.1)

/-- **Tick.** -/
theorem cacheFileTick_keeps (h : s.Inv R) (now : Nat → Timeval) :
    Ensures (cacheFileTick size now s) (Settled R s) (fun _ => False) := by
  apply cacheFileTick_ensures ?_ (.refl h)
  intro t k a i ht hk
  apply (cacheFileTickCb_keeps ht.inv hk (now i)).imp_ok
  intro t' ht'
  exact ⟨ht'.inv, ht'.reqs.trans ht.reqs⟩

end MonkeyCache
