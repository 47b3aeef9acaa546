import MonkeyCache.FileTable

/-!
# The life of a file object

`Books.Inv` is what a worker's books say of its file objects between two events:
the counter of an object is the number of its requests on top of what the
constructor left in it, an object out of the table is a zombie with requests,
and what was freed was out of the table and had none.  It is kept by the changes
the code makes to the books: an object and its requests change
(`Books.Core.change`), an object is published (`Books.Inv.publish`), leaves the
table (`Books.Inv.retire`) and is freed (`Books.Core.free`).

What is assumed of a run is a `Regime`: which blocks `cache_file_tmp` may be
given, how long the URIs are, what a key may stand for, and which keys are
pinned to an added resource that nobody resets.
-/

namespace MonkeyCache

open Fallible

/-- An added resource that is to stay. -/
structure Pin where
  addr : Addr
  serial : Nat
  body : List Byte

/-- A counter that a block left in a file object can do no harm: it never
reaches 0, or it counts rightly for an object that is not a zombie. -/
def Junk.Safe (j : Junk) : Prop :=
  0 < j.pendingReqs ∨ (j.pendingReqs = 0 ∧ j.zombie = false)

/-- What is assumed of a run. -/
structure Regime where
  junk : Junk → Prop
  junk_safe : ∀ j, junk j → j.Safe
  uriMax : Nat
  /-- what may be stored under a key -/
  content : Key → List Byte → Prop
  pin : Key → Option Pin
  pin_short : ∀ k p, pin k = some p → k.length < maxUriLen - 1

/-! ## The invariant -/

/-- A live object. -/
structure Books.Sound (R : Regime) (s : Books) (a : Addr) (o : Object) : Prop where
  counted : o.file.pendingReqs = o.base + s.refs a
  out : o.file.zombie = true → 0 < o.base ∨ s.tableGet o.file.uri ≠ some a
  base_nonneg : 0 ≤ o.base ∨ (o.file.zombie = false ∧ (R.pin o.file.uri).isSome)
  of_new : o.maker = .cacheFileNew → o.base = 0
  of_tmp : o.maker = .cacheFileTmp →
    (∃ j, R.junk j ∧ j.pendingReqs = o.base) ∨ (R.pin o.file.uri).isSome
  uri_le : o.file.uri.length ≤ R.uriMax
  uri_short : o.maker = .cacheFileTmp → o.file.uri.length < maxUriLen - 1
  content : R.content o.file.uri o.file.buf
  sized : o.file.size = o.file.buf.length
  serial_lt : o.serial < s.serials
  not_freed : ∀ x ∈ s.frees, x.serial ≠ o.serial

/-- The object a pin names, which no tick evicts and no completion frees. -/
structure Object.Pinned (o : Object) (p : Pin) : Prop where
  serial : o.serial = p.serial
  buf : o.file.buf = p.body
  size : o.file.size = p.body.length
  stays : o.file.evictable = false
  safe : o.file.zombie = false ∨ 0 < o.base

/-- Table, requests and objects agree. -/
structure Books.Core (R : Regime) (s : Books) : Prop where
  sound : ∀ a o, s.heap a = some o → s.Sound R a o
  table : ∀ k a, s.tableGet k = some a → ∃ o, s.heap a = some o ∧ o.file.uri = k
  reqs : ∀ r ∈ s.currReqs, ∃ o, s.heap r.file = some o
  sockets : (s.currReqs.map (fun r => r.socket)).Nodup
  serials : ∀ a b o o', s.heap a = some o → s.heap b = some o' → o.serial = o'.serial → a = b
  once : (s.frees.map (fun x => x.serial)).Nodup
  clean : ∀ x ∈ s.frees, x.serial < s.serials ∧ x.inTable = false ∧ x.refs = 0
  pinned : ∀ k p, R.pin k = some p →
    s.tableGet k = some p.addr ∧ ∃ o, s.heap p.addr = some o ∧ o.Pinned p

/-- Every live object is in the table, or it is a zombie that some request still
needs; the ones in `skip` may be left over. -/
def Books.NoLeak (s : Books) (skip : Addr → Prop) : Prop :=
  ∀ a o, s.heap a = some o → o.base = 0 → o.file.uri.length < maxUriLen - 1 →
    s.tableGet o.file.uri = some a ∨ (o.file.zombie = true ∧ 0 < s.refs a) ∨ skip a

/-- **The invariant of the books.** -/
structure Books.Inv (R : Regime) (s : Books) : Prop where
  core : s.Core R
  noLeak : s.NoLeak (fun _ => False)

variable {R : Regime} {s : Books} {a : Addr} {o o' : Object}

/-! ## Facts about the books -/

theorem Books.deref_ok (h : s.heap a = some o) : s.deref a = .ok o := by
  simp [deref, h]

/-- An access that returns finds a live object. -/
theorem Books.deref_ensures (s : Books) (a : Addr) :
    Ensures (s.deref a) (fun o => s.heap a = some o) (fun _ => True) := by
  unfold deref
  split
  · trivial
  · rename_i o ha
    exact ha

/-- An address in the table is the address under the object's own URI. -/
theorem Books.Core.inTable_iff (h : s.Core R) (ha : s.heap a = some o) :
    s.inTable a = true ↔ s.tableGet o.file.uri = some a := by
  unfold inTable tableGet
  rw [List.any_eq_true]
  constructor
  · intro hin
    obtain ⟨⟨k, b⟩, hmem, hb⟩ := hin
    have hlookup : s.tableGet k = some a := by
      simp only [decide_eq_true_eq] at hb
      subst hb
      exact AList.mem_lookup_iff.2 hmem
    obtain ⟨o', ho', huri⟩ := h.table k a hlookup
    cases ha.symm.trans ho'
    rw [huri]
    exact hlookup
  · intro hget
    exact ⟨⟨o.file.uri, a⟩, AList.mem_lookup_iff.1 hget, by simp⟩

/-- Nobody refers to a free block. -/
theorem Books.Core.refs_free (h : s.Core R) (ha : s.heap a = none) : s.refs a = 0 := by
  unfold refs
  rw [List.countP_eq_zero]
  intro r hr hfile
  obtain ⟨o, ho⟩ := h.reqs r hr
  simp only [decide_eq_true_eq] at hfile
  rw [hfile, ha] at ho
  cases ho

/-- No key leads to a free block. -/
theorem Books.Core.inTable_free (h : s.Core R) (ha : s.heap a = none) : s.inTable a = false := by
  rw [Bool.eq_false_iff]
  intro hin
  unfold inTable at hin
  rw [List.any_eq_true] at hin
  obtain ⟨⟨k, b⟩, hmem, hb⟩ := hin
  simp only [decide_eq_true_eq] at hb
  subst hb
  obtain ⟨o, ho, _⟩ := h.table k b (AList.mem_lookup_iff.2 hmem)
  rw [ha] at ho
  cases ho

/-- An object that changes keeps its number, and numbers stay apart. -/
theorem Books.Core.serials_update (h : s.Core R) (ha : s.heap a = some o)
    (hserial : o'.serial = o.serial) :
    ∀ b b' p p', Function.update s.heap a (some o') b = some p →
      Function.update s.heap a (some o') b' = some p' → p.serial = p'.serial → b = b' := by
  have hold : ∀ c q, Function.update s.heap a (some o') c = some q →
      ∃ q', s.heap c = some q' ∧ q'.serial = q.serial := by
    intro c q hc
    by_cases hca : c = a
    · rw [hca, Function.update_self, Option.some.injEq] at hc
      exact ⟨o, hca ▸ ha, by rw [← hc, hserial]⟩
    · rw [Function.update_of_ne hca] at hc
      exact ⟨q, hc, rfl⟩
  intro b b' p p' hb hb' heq
  obtain ⟨q, hq, hqs⟩ := hold b p hb
  obtain ⟨q', hq', hqs'⟩ := hold b' p' hb'
  exact h.serials b b' q q' hq hq' (by rw [hqs, hqs', heq])

/-- Only a pinned object may count from below 0. -/
theorem Books.Core.base_nonneg (h : s.Core R) (ha : s.heap a = some o)
    (hpin : R.pin o.file.uri = none) : 0 ≤ o.base := by
  rcases (h.sound a o ha).base_nonneg with hbase | ⟨_, hsome⟩
  · exact hbase
  · rw [hpin] at hsome
    cases hsome

/-! ## Freeing an object -/

/-- The books after `cache_file_free`. -/
def Books.free (s : Books) (a : Addr) (o : Object) : Books :=
  { s with
    heap := Function.update s.heap a none
    frees := s.frees ++ [⟨o.maker, o.serial, s.inTable a, s.refs a⟩] }

/-- **Free.**  An object that is out of the table and has no requests. -/
theorem Books.Core.free (h : s.Core R) (hleak : s.NoLeak (fun b => b = a))
    (ha : s.heap a = some o) (hout : s.tableGet o.file.uri ≠ some a) (hrefs : s.refs a = 0) :
    (s.free a o).Inv R := by
  have hother : ∀ b o', (s.free a o).heap b = some o' → b ≠ a ∧ s.heap b = some o' := by
    intro b o' hb
    by_cases hba : b = a
    · simp [Books.free, hba] at hb
    · exact ⟨hba, by simpa [Books.free, hba] using hb⟩
  have hlive : ∀ b o', b ≠ a → s.heap b = some o' → (s.free a o).heap b = some o' := by
    intro b o' hba hb
    simpa [Books.free, hba] using hb
  have hin : s.inTable a = false := by
    rw [Bool.eq_false_iff, Ne, h.inTable_iff ha]
    exact hout
  have hnot : ∀ k, s.tableGet k ≠ some a := by
    intro k hk
    obtain ⟨o', ho', huri⟩ := h.table k a hk
    cases ha.symm.trans ho'
    exact hout (huri ▸ hk)
  refine ⟨⟨?_, ?_, ?_, h.sockets, ?_, ?_, ?_, ?_⟩, ?_⟩
  · intro b o' hb
    obtain ⟨hba, hb⟩ := hother b o' hb
    have hs := h.sound b o' hb
    refine { hs with not_freed := ?_ }
    intro x hx
    rcases List.mem_append.1 hx with hx | hx
    · exact hs.not_freed x hx
    · rw [List.mem_singleton.1 hx]
      intro heq
      exact hba (h.serials a b o o' ha hb heq).symm
  · intro k b hk
    obtain ⟨o', hb, huri⟩ := h.table k b hk
    have hba : b ≠ a := fun hba => hnot k (hba ▸ hk)
    exact ⟨o', hlive b o' hba hb, huri⟩
  · intro r hr
    obtain ⟨o', hb⟩ := h.reqs r hr
    have hba : r.file ≠ a := by
      intro hba
      have hnone := (List.countP_eq_zero.1 hrefs) r hr
      simp [hba] at hnone
    exact ⟨o', hlive _ o' hba hb⟩
  · intro b b' o₁ o₂ hb hb' heq
    exact h.serials b b' o₁ o₂ (hother b o₁ hb).2 (hother b' o₂ hb').2 heq
  · show ((s.frees ++ [_]).map _).Nodup
    rw [List.map_append, List.nodup_append]
    refine ⟨h.once, by simp, ?_⟩
    intro x hx y hy
    obtain ⟨z, hz, rfl⟩ := List.mem_map.1 hx
    simp only [List.map_cons, List.map_nil, List.mem_singleton] at hy
    rw [hy]
    exact (h.sound a o ha).not_freed z hz
  · intro x hx
    rcases List.mem_append.1 hx with hx | hx
    · exact h.clean x hx
    · rw [List.mem_singleton.1 hx]
      exact ⟨(h.sound a o ha).serial_lt, hin, hrefs⟩
  · intro k p hp
    obtain ⟨hget, o', ho', hpin⟩ := h.pinned k p hp
    have hpa : p.addr ≠ a := fun hpa => hnot k (hpa ▸ hget)
    exact ⟨hget, o', hlive _ o' hpa ho', hpin⟩
  · intro b o' hb hbase huri
    obtain ⟨hba, hb⟩ := hother b o' hb
    rcases hleak b o' hb hbase huri with hget | hzombie | hskip
    · exact .inl hget
    · exact .inr (.inl hzombie)
    · exact absurd hskip hba

/-! ## An object and its requests change -/

/-- What the code never changes in an object once it is published, the zombie
flag apart. -/
structure Object.Same (o o' : Object) : Prop where
  maker : o'.maker = o.maker
  serial : o'.serial = o.serial
  base : o'.base = o.base
  uri : o'.file.uri = o.file.uri
  buf : o'.file.buf = o.file.buf
  size : o'.file.size = o.file.size
  evictable : o'.file.evictable = o.file.evictable

theorem Object.Pinned.same {p : Pin} (h : o.Pinned p) (hs : o.Same o')
    (hzombie : o'.file.zombie = o.file.zombie) : o'.Pinned p where
  serial := hs.serial.trans h.serial
  buf := hs.buf.trans h.buf
  size := hs.size.trans h.size
  stays := hs.evictable.trans h.stays
  safe := by
    rw [hzombie, hs.base]
    exact h.safe

/-- The books after the object at `a` became `o'` and the requests `reqs`. -/
def Books.change (s : Books) (a : Addr) (o' : Object) (reqs : List (CacheReq Addr)) : Books :=
  { s with heap := Function.update s.heap a (some o'), currReqs := reqs }

theorem Books.change_heap (s : Books) (a b : Addr) (o' : Object)
    (reqs : List (CacheReq Addr)) :
    (s.change a o' reqs).heap b = if b = a then some o' else s.heap b := by
  by_cases hba : b = a
  · simp [change, hba]
  · simp [change, hba]

/-- The zombie flag is as it was, or it is raised on an object that is out of the
table. -/
def Books.ZombieKept (s : Books) (a : Addr) (o o' : Object) : Prop :=
  o'.file.zombie = o.file.zombie ∨ (0 ≤ o.base ∧ s.tableGet o.file.uri ≠ some a)

/-- The changed object, whose counter follows its requests. -/
theorem Books.Sound.change (hs : s.Sound R a o) (hsame : o.Same o')
    (hzombie : s.ZombieKept a o o') {reqs : List (CacheReq Addr)}
    (hcount : o'.file.pendingReqs = o.base + (s.change a o' reqs).refs a) :
    (s.change a o' reqs).Sound R a o' where
  counted := by rw [hcount, hsame.base]
  out := by
    intro hz
    rw [hsame.base, hsame.uri]
    rcases hzombie with hkept | ⟨_, hout⟩
    · exact hs.out (hkept.symm.trans hz)
    · exact .inr hout
  base_nonneg := by
    rw [hsame.base, hsame.uri]
    rcases hzombie with hkept | ⟨hbase, _⟩
    · rw [hkept]
      exact hs.base_nonneg
    · exact .inl hbase
  of_new := by
    rw [hsame.maker, hsame.base]
    exact hs.of_new
  of_tmp := by
    rw [hsame.maker, hsame.base, hsame.uri]
    exact hs.of_tmp
  uri_le := hsame.uri ▸ hs.uri_le
  uri_short := by
    rw [hsame.maker, hsame.uri]
    exact hs.uri_short
  content := by
    rw [hsame.uri, hsame.buf]
    exact hs.content
  sized := by
    rw [hsame.size, hsame.buf]
    exact hs.sized
  serial_lt := hsame.serial ▸ hs.serial_lt
  not_freed := hsame.serial ▸ hs.not_freed

/-- **Change.**  The other objects keep their requests. -/
theorem Books.Core.change (h : s.Core R) (ha : s.heap a = some o) (hsame : o.Same o')
    (hzombie : s.ZombieKept a o o') {reqs : List (CacheReq Addr)}
    (hcount : o'.file.pendingReqs = o.base + (s.change a o' reqs).refs a)
    (hother : ∀ b, b ≠ a → (s.change a o' reqs).refs b = s.refs b)
    (hlive : ∀ r ∈ reqs, r.file = a ∨ r ∈ s.currReqs)
    (hsockets : (reqs.map (fun r => r.socket)).Nodup) : (s.change a o' reqs).Core R := by
  refine ⟨?_, ?_, ?_, hsockets, ?_, h.once, h.clean, ?_⟩
  · intro b p hb
    rw [Books.change_heap] at hb
    by_cases hba : b = a
    · rw [if_pos hba, Option.some.injEq] at hb
      subst hba hb
      exact (h.sound b o ha).change hsame hzombie hcount
    · rw [if_neg hba] at hb
      have hp := h.sound b p hb
      exact { hp with counted := by rw [hother b hba, hp.counted] }
  · intro k b hk
    obtain ⟨p, hp, huri⟩ := h.table k b hk
    rw [Books.change_heap]
    by_cases hba : b = a
    · subst hba
      cases ha.symm.trans hp
      exact ⟨o', if_pos rfl, hsame.uri.trans huri⟩
    · exact ⟨p, by rw [if_neg hba, hp], huri⟩
  · intro r hr
    rw [Books.change_heap]
    by_cases hra : r.file = a
    · exact ⟨o', if_pos hra⟩
    · rcases hlive r hr with hra' | hold
      · exact absurd hra' hra
      · rw [if_neg hra]
        exact h.reqs r hold
  · exact h.serials_update ha hsame.serial
  · intro k p hp
    obtain ⟨hget, q, hq, hpin⟩ := h.pinned k p hp
    refine ⟨hget, ?_⟩
    rw [Books.change_heap]
    by_cases hpa : p.addr = a
    · rw [hpa, ha, Option.some.injEq] at hq
      subst hq
      -- a pinned object is in the table
      have hkept : o'.file.zombie = o.file.zombie := by
        rcases hzombie with hkept | ⟨_, hout⟩
        · exact hkept
        · obtain ⟨q, hq, huri⟩ := h.table k p.addr hget
          rw [hpa, ha, Option.some.injEq] at hq
          rw [← hpa, hq, huri] at hout
          exact absurd hget hout
      exact ⟨o', if_pos hpa, hpin.same hsame hkept⟩
    · exact ⟨q, by rw [if_neg hpa, hq], hpin⟩

/-- A zombie that keeps a request is not left over. -/
theorem Books.NoLeak.change (h : s.NoLeak (fun _ => False)) (ha : s.heap a = some o)
    (hsame : o.Same o') (hzombie : o'.file.zombie = o.file.zombie)
    {reqs : List (CacheReq Addr)} {skip : Addr → Prop}
    (hself : o.file.zombie = true → 0 < s.refs a →
      0 < (s.change a o' reqs).refs a ∨ skip a)
    (hother : ∀ b, b ≠ a → (s.change a o' reqs).refs b = s.refs b) :
    (s.change a o' reqs).NoLeak skip := by
  intro b p hb hbase huri
  rw [Books.change_heap] at hb
  by_cases hba : b = a
  · rw [if_pos hba, Option.some.injEq] at hb
    subst hba hb
    rcases h b o ha (hsame.base ▸ hbase) (hsame.uri ▸ huri) with hget | ⟨hz, hpos⟩ | hno
    · exact .inl (by rw [hsame.uri]; exact hget)
    · rcases hself hz hpos with hpos' | hskip
      · exact .inr (.inl ⟨by rw [hzombie, hz], hpos'⟩)
      · exact .inr (.inr hskip)
    · exact hno.elim
  · rw [if_neg hba] at hb
    rw [hother b hba]
    rcases h b p hb hbase huri with hget | hz | hno
    · exact .inl hget
    · exact .inr (.inl hz)
    · exact hno.elim

/-! ## An object leaves the table -/

/-- The books after `table_del(k)`. -/
def Books.erase (s : Books) (k : Key) : Books := { s with fileTable := s.fileTable.erase k }

theorem Books.erase_self (s : Books) (k : Key) : (s.erase k).tableGet k = none :=
  AList.lookup_erase k s.fileTable

theorem Books.erase_other {j k : Key} (h : j ≠ k) : (s.erase k).tableGet j = s.tableGet j :=
  AList.lookup_erase_ne h

/-- What is bound after `table_del` was bound before. -/
theorem Books.erase_some {j k : Key} (h : (s.erase k).tableGet j = some a) :
    j ≠ k ∧ s.tableGet j = some a := by
  have hjk : j ≠ k := by
    intro heq
    rw [heq, Books.erase_self] at h
    cases h
  exact ⟨hjk, (Books.erase_other hjk).symm.trans h⟩

/-- Objects may be out of the table. -/
theorem Books.Core.erase (h : s.Core R) {k : Key} (hpin : R.pin k = none) :
    (s.erase k).Core R where
  sound b p hb := by
    have hp := h.sound b p hb
    refine { hp with out := ?_ }
    intro hz
    exact (hp.out hz).imp_right fun hout hin => hout (Books.erase_some hin).2
  table j b hj := h.table j b (Books.erase_some hj).2
  reqs := h.reqs
  sockets := h.sockets
  serials := h.serials
  once := h.once
  clean := h.clean
  pinned j p hp := by
    obtain ⟨hget, q, hq, hpinned⟩ := h.pinned j p hp
    have hjk : j ≠ k := by
      intro heq
      rw [heq, hpin] at hp
      cases hp
    exact ⟨(Books.erase_other hjk).trans hget, q, hq, hpinned⟩

/-- The object that left the table, as a zombie. -/
def Object.retired (o : Object) : Object := { o with file := { o.file with zombie := true } }

/-- The books after `table_del(k)` returned the object at `a`, which became a
zombie. -/
def Books.retire (s : Books) (k : Key) (a : Addr) (o : Object) : Books :=
  (s.erase k).change a o.retired s.currReqs

/-- **Reset.**  Only the retired object may be left over, if it has no request. -/
theorem Books.Inv.retire (h : s.Inv R) {k : Key} (hk : s.tableGet k = some a)
    (ha : s.heap a = some o) (hpin : R.pin k = none) :
    (s.retire k a o).Core R ∧ (s.retire k a o).NoLeak (fun b => b = a ∧ s.refs a = 0) := by
  have huri : o.file.uri = k := by
    obtain ⟨o', ho', huri⟩ := h.core.table k a hk
    cases ha.symm.trans ho'
    exact huri
  have hbase := h.core.base_nonneg ha (huri ▸ hpin)
  have hout : (s.erase k).tableGet o.file.uri ≠ some a := by
    rw [huri, Books.erase_self]
    nofun
  have hsame : o.Same o.retired := ⟨rfl, rfl, rfl, rfl, rfl, rfl, rfl⟩
  constructor
  · exact (h.core.erase hpin).change ha hsame (.inr ⟨hbase, hout⟩)
      (h.core.sound a o ha).counted (fun _ _ => rfl) (fun _ hr => .inr hr) h.core.sockets
  · intro b p hb hzero hshort
    change ((s.erase k).change a _ _).heap b = _ at hb
    rw [Books.change_heap] at hb
    by_cases hba : b = a
    · subst hba
      rw [if_pos rfl, Option.some.injEq] at hb
      subst hb
      by_cases hrefs : s.refs b = 0
      · exact .inr (.inr ⟨rfl, hrefs⟩)
      · exact .inr (.inl ⟨rfl, Nat.pos_of_ne_zero hrefs⟩)
    · rw [if_neg hba] at hb
      rcases h.noLeak b p hb hzero hshort with hin | hz | hno
      · -- another object that is in the table has another key
        have hne : p.file.uri ≠ k := by
          intro heq
          rw [heq, hk, Option.some.injEq] at hin
          exact hba hin.symm
        exact .inl ((Books.erase_other hne).trans hin)
      · exact .inr (.inl hz)
      · exact hno.elim

/-! ## An object is published -/

/-- `R'` is `R`, with a pin on `key` perhaps, which has none in `R`. -/
structure Regime.Extends (R R' : Regime) (key : Key) : Prop where
  junk_eq : R'.junk = R.junk
  uriMax_eq : R'.uriMax = R.uriMax
  content_eq : R'.content = R.content
  pin_eq : ∀ k, k ≠ key → R'.pin k = R.pin k
  unpinned : R.pin key = none

theorem Regime.Extends.refl {key : Key} (h : R.pin key = none) : R.Extends R key :=
  ⟨rfl, rfl, rfl, fun _ _ => rfl, h⟩

/-- The books after a block became the object `o` and was put into the table. -/
def Books.publish (s : Books) (a : Addr) (o : Object) : Books :=
  { s with
    heap := Function.update s.heap a (some o)
    fileTable := Buckets.store o.file.uri a s.fileTable
    serials := s.serials + 1 }

/-- What a constructor must have made of the block at `a`. -/
structure Object.Fresh (R : Regime) (o : Object) (a : Addr) (serial : Nat) : Prop where
  serial_eq : o.serial = serial
  pending_eq : o.file.pendingReqs = o.base
  out : o.file.zombie = true → 0 < o.base
  base_nonneg : 0 ≤ o.base ∨ (o.file.zombie = false ∧ (R.pin o.file.uri).isSome)
  of_new : o.maker = .cacheFileNew → o.base = 0
  of_tmp : o.maker = .cacheFileTmp →
    (∃ j, R.junk j ∧ j.pendingReqs = o.base) ∨ (R.pin o.file.uri).isSome
  uri_le : o.file.uri.length ≤ R.uriMax
  uri_short : o.maker = .cacheFileTmp → o.file.uri.length < maxUriLen - 1
  content : R.content o.file.uri o.file.buf
  sized : o.file.size = o.file.buf.length
  pinned : ∀ p, R.pin o.file.uri = some p → p.addr = a ∧ o.Pinned p

theorem Books.publish_self (s : Books) (a : Addr) (o : Object) :
    (s.publish a o).tableGet o.file.uri = some a :=
  Buckets.lookup_store s.fileTable

theorem Books.publish_other {k : Key} (h : k ≠ o.file.uri) :
    (s.publish a o).tableGet k = s.tableGet k :=
  Buckets.lookup_store_ne h

theorem Books.publish_heap (s : Books) (a b : Addr) (o : Object) :
    (s.publish a o).heap b = if b = a then some o else s.heap b := by
  by_cases hba : b = a
  · simp [publish, hba]
  · simp [publish, hba]

/-- The objects that were there are still there. -/
theorem Books.publish_live (ha : s.heap a = none) {b : Addr} {p : Object}
    (hb : s.heap b = some p) : (s.publish a o).heap b = some p := by
  have hba : b ≠ a := by
    intro hba
    rw [hba, ha] at hb
    cases hb
  rw [Books.publish_heap, if_neg hba, hb]

/-- A pin on another key stays. -/
theorem Regime.Extends.isSome {R' : Regime} {key k : Key} (hR : R.Extends R' key)
    (h : (R.pin k).isSome) : (R'.pin k).isSome := by
  have hk : k ≠ key := by
    intro hk
    rw [hk, hR.unpinned] at h
    cases h
  rw [hR.pin_eq k hk]
  exact h

/-- The object that was published. -/
theorem Books.Core.publish_new {R' : Regime} (h : s.Core R) (ha : s.heap a = none)
    (ho : o.Fresh R' a s.serials) : (s.publish a o).Sound R' a o where
  counted := by
    show o.file.pendingReqs = o.base + s.refs a
    rw [h.refs_free ha, ho.pending_eq]
    simp
  out hz := .inl (ho.out hz)
  base_nonneg := ho.base_nonneg
  of_new := ho.of_new
  of_tmp := ho.of_tmp
  uri_le := ho.uri_le
  uri_short := ho.uri_short
  content := ho.content
  sized := ho.sized
  serial_lt := by
    show o.serial < s.serials + 1
    rw [ho.serial_eq]
    exact Nat.lt_succ_self _
  not_freed := by
    intro x hx heq
    have hlt := (h.clean x hx).1
    rw [heq, ho.serial_eq] at hlt
    exact Nat.lt_irrefl _ hlt

/-- The objects that were there before. -/
theorem Books.Sound.publish_old {R' : Regime} {b : Addr} {p : Object} (hp : s.Sound R b p)
    (hR : R.Extends R' o.file.uri) (hba : b ≠ a) : (s.publish a o).Sound R' b p where
  counted := hp.counted
  out := by
    intro hz
    refine (hp.out hz).imp_right ?_
    intro hout
    by_cases heq : p.file.uri = o.file.uri
    · rw [heq, Books.publish_self, Ne, Option.some.injEq]
      exact fun hab => hba hab.symm
    · rw [Books.publish_other heq]
      exact hout
  base_nonneg := hp.base_nonneg.imp_right fun hz => ⟨hz.1, hR.isSome hz.2⟩
  of_new := hp.of_new
  of_tmp hm := (hp.of_tmp hm).imp (fun hj => hR.junk_eq ▸ hj) hR.isSome
  uri_le := hR.uriMax_eq ▸ hp.uri_le
  uri_short := hp.uri_short
  content := hR.content_eq ▸ hp.content
  sized := hp.sized
  serial_lt := Nat.lt_succ_of_lt hp.serial_lt
  not_freed := hp.not_freed

/-- The number of the new object is new. -/
theorem Books.Core.publish_serials (h : s.Core R) (hserial : o.serial = s.serials) :
    ∀ b b' p p', (s.publish a o).heap b = some p → (s.publish a o).heap b' = some p' →
      p.serial = p'.serial → b = b' := by
  have hnew : ∀ b p, s.heap b = some p → p.serial ≠ o.serial := by
    intro b p hb heq
    have hlt := (h.sound b p hb).serial_lt
    rw [heq, hserial] at hlt
    exact Nat.lt_irrefl _ hlt
  intro b b' p p' hb hb' heq
  rw [Books.publish_heap] at hb hb'
  by_cases hba : b = a
  · by_cases hba' : b' = a
    · rw [hba, hba']
    · rw [if_pos hba, Option.some.injEq] at hb
      rw [if_neg hba'] at hb'
      exact absurd (heq.symm.trans (hb ▸ rfl)) (hnew b' p' hb')
  · rw [if_neg hba] at hb
    by_cases hba' : b' = a
    · rw [if_pos hba', Option.some.injEq] at hb'
      exact absurd (heq.trans (hb' ▸ rfl)) (hnew b p hb)
    · rw [if_neg hba'] at hb'
      exact h.serials b b' p p' hb hb' heq

/-- A binding that is replaced has a key of the greatest length. -/
theorem Books.NoLeak.publish (h : s.NoLeak (fun _ => False))
    (hfree : s.tableGet o.file.uri = none ∨ maxUriLen - 1 ≤ o.file.uri.length) :
    (s.publish a o).NoLeak (fun _ => False) := by
  intro b p hb hzero hshort
  rw [Books.publish_heap] at hb
  by_cases hba : b = a
  · rw [if_pos hba, Option.some.injEq] at hb
    subst hba hb
    exact .inl (Books.publish_self s b o)
  · rw [if_neg hba] at hb
    rcases h b p hb hzero hshort with hget | hz | hno
    · left
      have hne : p.file.uri ≠ o.file.uri := by
        intro heq
        rcases hfree with hnone | hlong
        · rw [heq, hnone] at hget
          cases hget
        · rw [heq] at hshort
          omega
      rw [Books.publish_other hne, hget]
    · exact .inr (.inl hz)
    · exact hno.elim

/-- **Publish.** -/
theorem Books.Inv.publish {R' : Regime} (h : s.Inv R) (ha : s.heap a = none)
    (hR : R.Extends R' o.file.uri) (ho : o.Fresh R' a s.serials)
    (hfree : s.tableGet o.file.uri = none ∨ maxUriLen - 1 ≤ o.file.uri.length) :
    (s.publish a o).Inv R' := by
  refine ⟨⟨?_, ?_, ?_, h.core.sockets, h.core.publish_serials ho.serial_eq, h.core.once, ?_, ?_⟩,
    h.noLeak.publish hfree⟩
  · intro b p hb
    rw [Books.publish_heap] at hb
    by_cases hba : b = a
    · rw [if_pos hba, Option.some.injEq] at hb
      subst hba hb
      exact h.core.publish_new ha ho
    · rw [if_neg hba] at hb
      exact (h.core.sound b p hb).publish_old hR hba
  · intro k b hk
    by_cases heq : k = o.file.uri
    · subst heq
      rw [Books.publish_self, Option.some.injEq] at hk
      exact ⟨o, by rw [Books.publish_heap, if_pos hk.symm], rfl⟩
    · rw [Books.publish_other heq] at hk
      obtain ⟨p, hp, huri⟩ := h.core.table k b hk
      exact ⟨p, Books.publish_live ha hp, huri⟩
  · intro r hr
    obtain ⟨p, hp⟩ := h.core.reqs r hr
    exact ⟨p, Books.publish_live ha hp⟩
  · intro x hx
    obtain ⟨hlt, hin, hno⟩ := h.core.clean x hx
    exact ⟨Nat.lt_succ_of_lt hlt, hin, hno⟩
  · intro k p hp
    by_cases heq : k = o.file.uri
    · subst heq
      obtain ⟨rfl, hpinned⟩ := ho.pinned p hp
      exact ⟨Books.publish_self s p.addr o, o, by rw [Books.publish_heap, if_pos rfl], hpinned⟩
    · rw [hR.pin_eq k heq] at hp
      obtain ⟨hget, q, hq, hpinned⟩ := h.core.pinned k p hp
      exact ⟨by rw [Books.publish_other heq, hget], q, Books.publish_live ha hq, hpinned⟩

/-- A constructor that could not store its object has freed it again. -/
theorem Books.Inv.discard (h : s.Inv R) {maker : Maker} :
    Books.Inv R { s with
      serials := s.serials + 1
      frees := s.frees ++ [⟨maker, s.serials, false, 0⟩] } := by
  refine ⟨⟨?_, h.core.table, h.core.reqs, h.core.sockets, h.core.serials, ?_, ?_,
    h.core.pinned⟩, h.noLeak⟩
  · intro a o ha
    have hs := h.core.sound a o ha
    refine { hs with serial_lt := Nat.lt_succ_of_lt hs.serial_lt, not_freed := ?_ }
    intro x hx
    rcases List.mem_append.1 hx with hx | hx
    · exact hs.not_freed x hx
    · rw [List.mem_singleton.1 hx]
      exact Nat.ne_of_gt hs.serial_lt
  · rw [List.map_append, List.nodup_append]
    refine ⟨h.core.once, by simp, ?_⟩
    intro x hx y hy
    obtain ⟨z, hz, rfl⟩ := List.mem_map.1 hx
    simp only [List.map_cons, List.map_nil, List.mem_singleton] at hy
    rw [hy]
    exact Nat.ne_of_lt (h.core.clean z hz).1
  · intro x hx
    rcases List.mem_append.1 hx with hx | hx
    · obtain ⟨hlt, hin, hno⟩ := h.core.clean x hx
      exact ⟨Nat.lt_succ_of_lt hlt, hin, hno⟩
    · rw [List.mem_singleton.1 hx]
      exact ⟨Nat.lt_succ_self _, rfl, rfl⟩

end MonkeyCache
