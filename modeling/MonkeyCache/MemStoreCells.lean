import MonkeyCache.MemStoreLists

/-!
# What the engine holds

A `MemCell` is a record as its user sees it, a key and its data, together with the
two blocks it takes.  `Holds e cells` says that the engine holds these cells, the
newest one first: both lists are right, and a block is in use just when it belongs
to a cell.  Each function of the engine is specified by what it does to the cells.

* `memHashGetEntry_ok` — the cell with a key is found.
* `memHashReplace_ok` — a key gets new data, or there is a new cell in front.
* `memHashUnlinkRecord_ok` — one cell less, and its two blocks are given back.
-/

namespace MonkeyCache

open Linked Fallible

/-- A key and its data, and the blocks they are in. -/
structure MemCell where
  addr : Ptr
  key : Bytes
  blob : Ptr
  data : Bytes
  deriving DecidableEq, Repr

/-- The blocks of the engine hold the cells, and there are no others. -/
structure Filled (records : Heap MemHashRecord) (blobs : Heap Bytes) (cells : List MemCell) :
    Prop where
  record : ∀ c ∈ cells, (records c.addr).map MemHashRecord.body =
    some (memHashFunc c.key, c.key, c.blob, c.data.length)
  data : ∀ c ∈ cells, blobs c.blob = some c.data
  live : ∀ a, (records a).isSome ↔ a ∈ cells.map MemCell.addr
  used : ∀ p, (blobs p).isSome ↔ p ∈ cells.map MemCell.blob
  addrs : (cells.map MemCell.addr).Nodup
  own : (cells.map MemCell.blob).Nodup
  short : ∀ c ∈ cells, c.data.length ≤ sxu32High

/-- The engine holds the cells. -/
structure MemHashEngine.Holds (e : MemHashEngine) (cells : List MemCell) : Prop where
  filled : Filled e.records e.blobs cells
  keys : (cells.map MemCell.key).Nodup
  ordered : Ordered e.records e.pFirst e.pLast (cells.map MemCell.addr)
  bucketed : ∃ bs, Bucketed e.records e.apBucket bs (cells.map MemCell.addr)
  size : e.apBucket.length = e.nBucket
  power : ∃ k ≤ 15, e.nBucket = 2 ^ k
  count : e.nRecord = cells.length
  few : cells.length < 2 ^ 32

variable {e : MemHashEngine} {cells xs ys : List MemCell} {c d : MemCell} {key data : Bytes}
  {A : MemBackend} {records records' : Heap MemHashRecord} {blobs : Heap Bytes} {p : Ptr}

/-- Links are no matter to what the blocks hold. -/
theorem Filled.keeps (hf : Filled records blobs cells)
    (hk : Keeps MemHashRecord.body records records') : Filled records' blobs cells where
  record c hc := (hk c.addr).trans (hf.record c hc)
  data := hf.data
  live a := by rw [hk.isSome, hf.live]
  used := hf.used
  addrs := hf.addrs
  own := hf.own
  short := hf.short

theorem Filled.exists_record (hf : Filled records blobs cells) (hc : c ∈ cells) :
    ∃ r, records c.addr = some r ∧ r.nHash = memHashFunc c.key ∧ r.key = c.key ∧
      r.pData = c.blob ∧ r.nDataLen = c.data.length := by
  obtain ⟨r, hr, hbody⟩ := Option.map_eq_some_iff.1 (hf.record c hc)
  unfold MemHashRecord.body at hbody
  simp only [Prod.mk.injEq] at hbody
  exact ⟨r, hr, hbody⟩

theorem Filled.live_mem (hf : Filled records blobs cells) :
    ∀ a ∈ cells.map MemCell.addr, (records a).isSome :=
  fun a ha => (hf.live a).2 ha

/-- The engine is empty at first. -/
theorem memHashInit_holds : memHashInit.Holds [] where
  filled := {
    record := by simp
    data := by simp
    live := by simp [memHashInit]
    used := by simp [memHashInit]
    addrs := by simp
    own := by simp
    short := by simp }
  keys := by simp
  ordered := ⟨trivial, rfl, rfl⟩
  bucketed := by
    refine ⟨fun _ => [], ?_, fun _ => trivial, fun _ => List.nodup_nil, by simp⟩
    intro i hi
    have hlen : i < memHashBucketSize := by simpa [memHashInit] using hi
    simp [memHashInit, hlen]
  size := by simp [memHashInit]
  power := ⟨6, by omega, rfl⟩
  count := rfl
  few := by simp

/-! ## Looking for a key -/

/-- The record at an address has the key. -/
def hit (records : Heap MemHashRecord) (nHash : Nat) (key : Bytes) (a : Ptr) : Bool :=
  match records a with
  | some r => decide (r.nHash = nHash ∧ r.key = key)
  | none => false

/-- The loop finds the first hit. -/
theorem getEntryFrom_ok {nHash : Nat} {prev : Ptr → Option Ptr} :
    ∀ (as : List Ptr) (q : Option Ptr) (fuel : Nat),
      Chain (linkOf MemHashRecord.pNextHash records) prev q as none →
      (∀ a ∈ as, (records a).isSome) → as.length < fuel →
      getEntryFrom records nHash key fuel as.head? = .ok (as.find? (hit records nHash key)) := by
  intro as
  induction as with
  | nil =>
      intro q fuel _ _ hfuel
      cases fuel with
      | zero => exact absurd hfuel (Nat.not_lt_zero _)
      | succ fuel => rfl
  | cons a as ih =>
      intro q fuel hchain hlive hfuel
      cases fuel with
      | zero => exact absurd hfuel (Nat.not_lt_zero _)
      | succ fuel =>
          obtain ⟨-, hnext, htail⟩ := hchain
          obtain ⟨r, hr⟩ := Option.isSome_iff_exists.1 (hlive a (by simp))
          have hrnext : r.pNextHash = as.head? := by
            rw [Option.or_none] at hnext
            simpa [linkOf, hr] using hnext
          have hhit : hit records nHash key a = decide (r.nHash = nHash ∧ r.key = key) := by
            unfold hit
            rw [hr]
          rw [List.head?_cons, List.find?_cons, hhit]
          unfold getEntryFrom
          rw [Heap.read_ok hr, ok_bind]
          by_cases hkey : r.nHash = nHash ∧ r.key = key
          · rw [if_pos hkey, decide_eq_true hkey]
          · rw [if_neg hkey, decide_eq_false hkey, hrnext]
            exact ih (some a) fuel htail (fun b hb => hlive b (by simp [hb]))
              (by simpa using hfuel)

theorem MemHashEngine.Holds.hit_iff (hh : e.Holds cells) (hc : c ∈ cells) :
    hit e.records (memHashFunc key) key c.addr = true ↔ c.key = key := by
  obtain ⟨r, hr, hhash, hkey, -⟩ := hh.filled.exists_record hc
  unfold hit
  rw [hr]
  simp only [decide_eq_true_eq, hhash, hkey]
  constructor
  · intro h
    exact h.2
  · intro h
    exact ⟨by rw [h], h⟩

/-- There is one cell with a key. -/
theorem MemHashEngine.Holds.key_inj (hh : e.Holds cells) (hc : c ∈ cells) (hd : d ∈ cells)
    (hkey : c.key = d.key) : c = d :=
  List.inj_on_of_nodup_map hh.keys hc hd hkey

/-- The cell with a key. -/
def cellOf (cells : List MemCell) (key : Bytes) : Option MemCell :=
  cells.find? (fun c => c.key = key)

theorem cellOf_eq_none : cellOf cells key = none ↔ key ∉ cells.map MemCell.key := by
  unfold cellOf
  simp [List.find?_eq_none]

theorem cellOf_some (hc : cellOf cells key = some c) : c ∈ cells ∧ c.key = key := by
  unfold cellOf at hc
  exact ⟨List.mem_of_find?_eq_some hc, by simpa using List.find?_some hc⟩

/-- **The cell with the key is found.** -/
theorem memHashGetEntry_ok (hh : e.Holds cells) (key : Bytes) :
    memHashGetEntry e key = .ok ((cellOf cells key).map MemCell.addr) := by
  obtain ⟨bs, hb⟩ := hh.bucketed
  obtain ⟨k, -, hk⟩ := hh.power
  have hi : bucketOf e.nBucket (memHashFunc key) < e.apBucket.length := by
    rw [hh.size, hk]
    exact bucketOf_lt _
  generalize hidx : bucketOf e.nBucket (memHashFunc key) = i at hi
  have hlen : (bs i).length ≤ e.nRecord := by
    have hsub : bs i ⊆ cells.map MemCell.addr := fun a ha => hb.mem_xs ha
    have hle := (List.subperm_of_subset (hb.nodup i) hsub).length_le
    rw [hh.count]
    simpa using hle
  have hfind : (bs i).find? (hit e.records (memHashFunc key) key) =
      (cellOf cells key).map MemCell.addr := by
    cases hcell : cellOf cells key with
    | none =>
        rw [Option.map_none, List.find?_eq_none]
        intro a ha hhit
        obtain ⟨c, hc, hca⟩ := List.mem_map.1 (hb.mem_xs ha)
        subst hca
        have hkey : key ∈ cells.map MemCell.key :=
          List.mem_map.2 ⟨c, hc, (hh.hit_iff hc).1 hhit⟩
        exact cellOf_eq_none.1 hcell hkey
    | some c =>
        obtain ⟨hc, hckey⟩ := cellOf_some hcell
        obtain ⟨r, hr, hhash, -⟩ := hh.filled.exists_record hc
        have hmem : c.addr ∈ bs i := by
          rw [hb.mem]
          refine ⟨List.mem_map_of_mem hc, ?_⟩
          simp [bucketAt, hr, hhash, hckey, hh.size, hidx]
        have hhit : hit e.records (memHashFunc key) key c.addr = true :=
          (hh.hit_iff hc).2 hckey
        obtain ⟨a, ha⟩ : ∃ a, (bs i).find? (hit e.records (memHashFunc key) key) = some a := by
          rw [← Option.isSome_iff_exists, List.find?_isSome]
          exact ⟨c.addr, hmem, hhit⟩
        obtain ⟨d, hd, hda⟩ := List.mem_map.1 (hb.mem_xs (List.mem_of_find?_eq_some ha))
        have hdkey : d.key = key := by
          rw [← hh.hit_iff hd, hda]
          exact List.find?_some ha
        have hdc : d = c := hh.key_inj hd hc (hdkey.trans hckey.symm)
        rw [ha, ← hda, hdc]
        rfl
  unfold memHashGetEntry
  dsimp only
  rw [hidx, bucketHead_ok (hb.heads i hi), ok_bind, getEntryFrom_ok (bs i) none _ (hb.links i)
    (fun a ha => hh.filled.live_mem a (hb.mem_xs ha)) (by omega), hfind]

/-! ## A new cell -/

/-- The allocator has no block for a record, or none for its data. -/
def MemBackend.Refuses (A : MemBackend) (e : MemHashEngine) : Prop :=
  A.record.pick e.records = none ∨ A.blob.pick e.blobs = none

/-- The engine with one more record, which is in no list yet. -/
def MemHashEngine.loose (e : MemHashEngine) (c : MemCell) : MemHashEngine :=
  { e with
    records := Function.update e.records c.addr
      (some ⟨memHashFunc c.key, c.key, c.blob, c.data.length, none, none, none, none⟩)
    blobs := Function.update e.blobs c.blob (some c.data) }

@[simp] theorem MemHashEngine.loose_records (e : MemHashEngine) (c : MemCell) :
    (e.loose c).records = Function.update e.records c.addr
      (some ⟨memHashFunc c.key, c.key, c.blob, c.data.length, none, none, none, none⟩) := rfl

@[simp] theorem MemHashEngine.loose_blobs (e : MemHashEngine) (c : MemCell) :
    (e.loose c).blobs = Function.update e.blobs c.blob (some c.data) := rfl

/-- **A record and its data** are allocated both or not at all. -/
theorem memHashNewRecord_ok (A : MemBackend) (e : MemHashEngine) (key : Bytes)
    (hlen : data.length ≤ sxu32High) :
    (memHashNewRecord A e key data (memHashFunc key) = .ok (none, e) ∧ A.Refuses e) ∨
    ∃ p b, e.records p = none ∧ e.blobs b = none ∧
      memHashNewRecord A e key data (memHashFunc key) = .ok (some p, e.loose ⟨p, key, b, data⟩) := by
  have hsxu : sxu32 data.length = data.length := by
    unfold sxu32
    unfold sxu32High at hlen
    omega
  unfold memHashNewRecord
  cases hp : A.record.pick e.records with
  | none => exact .inl ⟨rfl, .inl hp⟩
  | some p =>
      have hfree := A.record.fresh _ _ hp
      dsimp only
      cases hb : A.blob.pick e.blobs with
      | none =>
          refine .inl ⟨?_, .inr hb⟩
          dsimp only
          rw [Heap.free_ok (Function.update_self ..), ok_bind, Function.update_idem,
            ← hfree, Function.update_eq_self]
      | some b =>
          refine .inr ⟨p, b, hfree, A.blob.fresh _ _ hb, ?_⟩
          dsimp only
          rw [Heap.modify_ok (Function.update_self ..), ok_bind, Function.update_idem, hsxu]
          rfl

theorem MemHashEngine.Holds.addr_free (hh : e.Holds cells) (hp : e.records p = none) :
    p ∉ cells.map MemCell.addr := by
  intro hmem
  have hsome := (hh.filled.live p).2 hmem
  rw [hp] at hsome
  cases hsome

theorem MemHashEngine.Holds.blob_free (hh : e.Holds cells) (hp : e.blobs p = none) :
    p ∉ cells.map MemCell.blob := by
  intro hmem
  have hsome := (hh.filled.used p).2 hmem
  rw [hp] at hsome
  cases hsome

/-- The two blocks of a new cell. -/
theorem MemHashEngine.Holds.loose_filled (hh : e.Holds cells) (hp : e.records c.addr = none)
    (hb : e.blobs c.blob = none) (hlen : c.data.length ≤ sxu32High) :
    Filled (e.loose c).records (e.loose c).blobs (c :: cells) := by
  have hpx := hh.addr_free hp
  have hbx := hh.blob_free hb
  have hapart : ∀ d ∈ cells, d.addr ≠ c.addr ∧ d.blob ≠ c.blob := by
    intro d hd
    refine ⟨fun heq => hpx (heq ▸ List.mem_map_of_mem hd), fun heq => hbx ?_⟩
    rw [← heq]
    exact List.mem_map_of_mem hd
  constructor
  · intro d hd
    rcases List.mem_cons.1 hd with heq | hd
    · subst heq
      simp [MemHashRecord.body]
    · rw [MemHashEngine.loose_records, Function.update_of_ne (hapart d hd).1]
      exact hh.filled.record d hd
  · intro d hd
    rcases List.mem_cons.1 hd with heq | hd
    · subst heq
      simp
    · rw [MemHashEngine.loose_blobs, Function.update_of_ne (hapart d hd).2]
      exact hh.filled.data d hd
  · intro a
    rw [MemHashEngine.loose_records]
    by_cases ha : a = c.addr
    · subst ha
      simp
    · rw [Function.update_of_ne ha, hh.filled.live]
      simp [ha]
  · intro q
    rw [MemHashEngine.loose_blobs]
    by_cases hq : q = c.blob
    · subst hq
      simp
    · rw [Function.update_of_ne hq, hh.filled.used]
      simp [hq]
  · exact List.nodup_cons.2 ⟨hpx, hh.filled.addrs⟩
  · exact List.nodup_cons.2 ⟨hbx, hh.filled.own⟩
  · intro d hd
    rcases List.mem_cons.1 hd with heq | hd
    · subst heq
      exact hlen
    · exact hh.filled.short d hd

/-- **A new record is linked** into both lists. -/
theorem memHashLinkRecord_ok (hh : e.Holds cells) (hkey : c.key ∉ cells.map MemCell.key)
    (hp : e.records c.addr = none) (hb : e.blobs c.blob = none)
    (hlen : c.data.length ≤ sxu32High) (hfew : cells.length + 1 < 2 ^ 32) :
    ∃ e', memHashLinkRecord (e.loose c) c.addr = .ok e' ∧ e'.Holds (c :: cells) ∧
      e'.nBucket = e.nBucket := by
  have hpx := hh.addr_free hp
  have hfilled := hh.loose_filled hp hb hlen
  have hsame : ∀ a ∈ cells.map MemCell.addr, (e.loose c).records a = e.records a := by
    intro a ha
    have hne : a ≠ c.addr := fun heq => hpx (heq ▸ ha)
    rw [MemHashEngine.loose_records, Function.update_of_ne hne]
  have hrec : (e.loose c).records c.addr =
      some ⟨memHashFunc c.key, c.key, c.blob, c.data.length, none, none, none, none⟩ :=
    Function.update_self ..
  obtain ⟨bs, hbucketed⟩ := hh.bucketed
  obtain ⟨k, hk15, hk⟩ := hh.power
  have hpow : e.apBucket.length = 2 ^ k := hh.size.trans hk
  have hb₀ : Bucketed (e.loose c).records e.apBucket bs (cells.map MemCell.addr) :=
    hbucketed.keeps (fun a ha => by rw [hsame a ha]) (fun a ha => by rw [hsame a ha])
  have ho₀ : Ordered (e.loose c).records e.pFirst e.pLast (cells.map MemCell.addr) :=
    hh.ordered.keeps (fun a ha => by rw [hsame a ha])
  have hlive₀ : ∀ a ∈ cells.map MemCell.addr, ((e.loose c).records a).isSome := by
    intro a ha
    rw [hsame a ha]
    exact hh.filled.live_mem a ha
  obtain ⟨h₁, ap₁, bs₁, hinstall, hlen₁, horder₁, hbody₁, hb₁⟩ :=
    installRecord_ok hb₀ hlive₀ hrec hpx rfl (by rw [hpow]; exact bucketOf_lt _)
  obtain ⟨r₁, hr₁, hr₁n, hr₁p⟩ : ∃ r₁, h₁ c.addr = some r₁ ∧ r₁.pNext = none ∧
      r₁.pPrev = none := by
    have hmap := horder₁ c.addr
    rw [hrec] at hmap
    obtain ⟨r₁, hr₁, hord⟩ := Option.map_eq_some_iff.1 hmap
    unfold MemHashRecord.order at hord
    simp only [Prod.mk.injEq] at hord
    exact ⟨r₁, hr₁, hord.1, hord.2⟩
  obtain ⟨h₂, pFirst, pLast, hpush, hcol₂, hbody₂, ho₂⟩ :=
    pushRecord_ok (ho₀.keeps (fun a _ => horder₁ a)) hh.filled.addrs
      (fun a ha => by rw [hbody₁.isSome]; exact hlive₀ a ha) hr₁ hpx hr₁n hr₁p
  have hb₂ : Bucketed h₂ ap₁ bs₁ (c.addr :: cells.map MemCell.addr) :=
    hb₁.keeps (fun a _ => hcol₂ a) (fun a _ => hbody₂.hash a)
  refine ⟨{ e.loose c with
    records := h₂
    apBucket := ap₁
    pFirst := pFirst
    pLast := pLast
    nRecord := sxu32 ((e.loose c).nRecord + 1) }, ?_, ?_, rfl⟩
  · unfold memHashLinkRecord
    have hfields : (e.loose c).apBucket = e.apBucket ∧ (e.loose c).nBucket = e.nBucket ∧
        (e.loose c).pFirst = e.pFirst ∧ (e.loose c).pLast = e.pLast := ⟨rfl, rfl, rfl, rfl⟩
    obtain ⟨hap, hnb, hpf, hpl⟩ := hfields
    rw [hh.size] at hinstall
    rw [hap, hnb, hpf, hpl, hinstall, ok_bind]
    dsimp only
    rw [hpush]
    rfl
  · exact {
      filled := hfilled.keeps (hbody₁.trans hbody₂)
      keys := List.nodup_cons.2 ⟨hkey, hh.keys⟩
      ordered := ho₂
      bucketed := ⟨bs₁, hb₂⟩
      size := hlen₁.trans hh.size
      power := ⟨k, hk15, hk⟩
      count := by
        have hcount : (e.loose c).nRecord = cells.length := hh.count
        dsimp only
        rw [hcount, List.length_cons]
        exact Nat.mod_eq_of_lt hfew
      few := hfew }

/-- **Growing** changes neither the cells nor their order. -/
theorem memHashGrowTable_ok (hh : e.Holds cells) (hroom : e.nBucket * 4 < 100000) :
    ∃ e', memHashGrowTable A e = .ok e' ∧ e'.Holds cells ∧
      e'.nBucket = if A.table (2 * e.nBucket) then 2 * e.nBucket else e.nBucket := by
  obtain ⟨k, hk15, hk⟩ := hh.power
  have hsize : sxu32 (e.nBucket * 2) = 2 ^ (k + 1) := by
    have hlt : e.nBucket * 2 < 2 ^ 32 := by omega
    unfold sxu32
    rw [Nat.mod_eq_of_lt hlt, hk, pow_succ]
  have hdouble : 2 * e.nBucket = 2 ^ (k + 1) := by rw [hk, pow_succ, Nat.mul_comm]
  unfold memHashGrowTable
  dsimp only
  rw [hsize, hdouble]
  cases htable : A.table (2 ^ (k + 1)) with
  | false => exact ⟨e, by simp, hh, by simp⟩
  | true =>
      have hempty : Bucketed e.records (List.replicate (2 ^ (k + 1)) none) (fun _ => [])
          [] := by
        refine ⟨?_, fun _ => trivial, fun _ => List.nodup_nil, by simp⟩
        intro i hi
        have hlt : i < 2 ^ (k + 1) := by simpa using hi
        simp [hlt]
      obtain ⟨h', ap', bs', hrehash, hlen', horder, hbody, hb'⟩ :=
        rehashFrom_ok (k := k + 1) (cells.map MemCell.addr) [] none e.records _ _
          hh.ordered.links (fun a ha => hh.filled.live_mem a (by simpa using ha))
          (by simpa using hh.filled.addrs) (by simp) hempty
      rw [List.length_map, ← hh.count, ← hh.ordered.last] at hrehash
      rw [List.nil_append] at hb'
      refine ⟨{ e with records := h', apBucket := ap', nBucket := 2 ^ (k + 1) }, ?_, ?_, by simp⟩
      · rw [if_pos rfl, hrehash]
        rfl
      · exact {
          filled := hh.filled.keeps hbody
          keys := hh.keys
          ordered := hh.ordered.keeps (fun a _ => horder a)
          bucketed := ⟨bs', hb'⟩
          size := hlen'
          power := by
            refine ⟨k + 1, ?_, rfl⟩
            -- 2 ^ 16 buckets are never reached, as growing stops before
            by_contra hgt
            have hlast : k = 15 := by omega
            subst hlast
            rw [hk] at hroom
            norm_num at hroom
          count := hh.count
          few := hh.few }

/-! ## New data for a cell -/

/-- The cells apart from one of them. -/
theorem Filled.apart (hf : Filled records blobs (xs ++ c :: ys)) (hd : d ∈ xs ++ ys) :
    d ∈ xs ++ c :: ys ∧ d.addr ≠ c.addr ∧ d.blob ≠ c.blob := by
  have haddrs := hf.addrs
  have hown := hf.own
  rw [List.map_append, List.map_cons] at haddrs hown
  have haddr := (List.nodup_cons.1 (List.nodup_middle.1 haddrs)).1
  have hblob := (List.nodup_cons.1 (List.nodup_middle.1 hown)).1
  rw [← List.map_append] at haddr hblob
  refine ⟨?_, fun heq => haddr ?_, fun heq => hblob ?_⟩
  · rcases List.mem_append.1 hd with hx | hy
    · simp [hx]
    · simp [hy]
  · rw [← heq]
    exact List.mem_map_of_mem hd
  · rw [← heq]
    exact List.mem_map_of_mem hd

/-- A record gets new data, in a block `b` that is its own already or was free. -/
theorem Filled.replace {blobs' : Heap Bytes} {b : Ptr}
    (hf : Filled records blobs (xs ++ c :: ys))
    (hlen : data.length ≤ sxu32High)
    (hrec : (records' c.addr).map MemHashRecord.body =
      some (memHashFunc c.key, c.key, b, data.length))
    (hrecs : ∀ a, a ≠ c.addr → records' a = records a)
    (hb : blobs' b = some data)
    (hblobs : ∀ q, q ≠ b → q ≠ c.blob → blobs' q = blobs q)
    (hfree : b ≠ c.blob → blobs b = none ∧ blobs' c.blob = none) :
    Filled records' blobs' (xs ++ { c with blob := b, data := data } :: ys) := by
  have hbd : ∀ d ∈ xs ++ ys, d.blob ≠ b := by
    intro d hd heq
    by_cases hbc : b = c.blob
    · exact (hf.apart hd).2.2 (heq.trans hbc)
    · have hsome := hf.data d (hf.apart hd).1
      rw [heq, (hfree hbc).1] at hsome
      cases hsome
  have hrest : ∀ d ∈ xs ++ { c with blob := b, data := data } :: ys,
      d = { c with blob := b, data := data } ∨ d ∈ xs ++ ys := by
    intro d hd
    rw [List.mem_append, List.mem_cons] at hd
    rw [List.mem_append]
    tauto
  constructor
  · intro d hd
    rcases hrest d hd with heq | hd
    · subst heq
      exact hrec
    · obtain ⟨hmem, hne, -⟩ := hf.apart hd
      rw [hrecs d.addr hne]
      exact hf.record d hmem
  · intro d hd
    rcases hrest d hd with heq | hd
    · subst heq
      exact hb
    · obtain ⟨hmem, -, hne⟩ := hf.apart hd
      rw [hblobs d.blob (hbd d hd) hne]
      exact hf.data d hmem
  · intro a
    rw [List.map_append, List.map_cons]
    have hlive := hf.live a
    rw [List.map_append, List.map_cons] at hlive
    rw [← hlive]
    by_cases ha : a = c.addr
    · subst ha
      have hsome := congrArg Option.isSome hrec
      have hmem := hf.live_mem c.addr (by simp)
      simp only [Option.isSome_map, Option.isSome_some] at hsome
      simp [hsome, hmem]
    · rw [hrecs a ha]
  · intro q
    have hused := hf.used q
    simp only [List.map_append, List.map_cons, List.mem_append, List.mem_cons] at hused ⊢
    by_cases hqb : q = b
    · subst hqb
      simp [hb]
    · by_cases hqc : q = c.blob
      · subst hqc
        have hcx : c.blob ∉ (xs ++ ys).map MemCell.blob := by
          intro hmem
          obtain ⟨d, hd, hdc⟩ := List.mem_map.1 hmem
          exact (hf.apart hd).2.2 hdc
        simp only [List.map_append, List.mem_append, not_or] at hcx
        simp [(hfree (Ne.symm hqb)).2, hqb, hcx.1, hcx.2]
      · rw [hblobs q hqb hqc, hused]
        simp [hqb, hqc]
  · have haddrs := hf.addrs
    rwa [List.map_append, List.map_cons] at haddrs ⊢
  · have hown := hf.own
    rw [List.map_append, List.map_cons] at hown ⊢
    refine List.nodup_middle.2 (List.nodup_cons.2 ⟨?_, ?_⟩)
    · rw [← List.map_append]
      intro hmem
      obtain ⟨d, hd, hdb⟩ := List.mem_map.1 hmem
      exact hbd d hd hdb
    · exact (List.nodup_cons.1 (List.nodup_middle.1 hown)).2
  · intro d hd
    rcases hrest d hd with heq | hd
    · subst heq
      exact hlen
    · exact hf.short d (hf.apart hd).1

/-- The cells may change as long as their addresses and keys do not, and the links do
not either. -/
theorem MemHashEngine.Holds.relabel {e' : MemHashEngine} {cells' : List MemCell}
    (hh : e.Holds cells) (hf : Filled e'.records e'.blobs cells')
    (haddrs : cells'.map MemCell.addr = cells.map MemCell.addr)
    (hkeys : cells'.map MemCell.key = cells.map MemCell.key)
    (horder : Keeps MemHashRecord.order e.records e'.records)
    (hcol : Keeps MemHashRecord.collision e.records e'.records)
    (hhash : Keeps MemHashRecord.nHash e.records e'.records)
    (hrest : e'.apBucket = e.apBucket ∧ e'.nBucket = e.nBucket ∧ e'.pFirst = e.pFirst ∧
      e'.pLast = e.pLast ∧ e'.nRecord = e.nRecord) : e'.Holds cells' := by
  obtain ⟨hap, hnb, hpf, hpl, hnr⟩ := hrest
  have hlen : cells'.length = cells.length := by
    have h := congrArg List.length haddrs
    simpa using h
  obtain ⟨bs, hb⟩ := hh.bucketed
  constructor
  · exact hf
  · rw [hkeys]
    exact hh.keys
  · rw [hpf, hpl, haddrs]
    exact hh.ordered.keeps (fun a _ => horder a)
  · refine ⟨bs, ?_⟩
    rw [hap, haddrs]
    exact hb.keeps (fun a _ => hcol a) (fun a _ => hhash a)
  · rw [hap, hnb]
    exact hh.size
  · rw [hnb]
    exact hh.power
  · rw [hnr, hlen]
    exact hh.count
  · rw [hlen]
    exact hh.few

/-- **The data of a record is replaced**, or there is no block for it. -/
theorem replaceData_ok (hh : e.Holds (xs ++ c :: ys)) (hlen : data.length ≤ sxu32High) :
    (replaceData A e c.addr data = .ok (.nomem, e) ∧ A.Refuses e) ∨
    ∃ b e', replaceData A e c.addr data = .ok (.ok, e') ∧
      e'.Holds (xs ++ { c with blob := b, data := data } :: ys) ∧ e'.nBucket = e.nBucket := by
  have hf := hh.filled
  obtain ⟨r, hr, hhash, hkey, hpData, hlenr⟩ := hf.exists_record (c := c) (by simp)
  have hdata := hf.data c (by simp)
  have hsxu : sxu32 data.length = data.length := by
    unfold sxu32
    unfold sxu32High at hlen
    omega
  unfold replaceData
  rw [Heap.read_ok hr, ok_bind]
  dsimp only
  rw [hsxu, hpData, hlenr]
  split
  · next heq =>
      refine .inr ⟨c.blob, { e with blobs := Function.update e.blobs c.blob (some data) }, ?_,
        ?_, rfl⟩
      · rw [Heap.modify_ok hdata, ok_bind]
      · refine hh.relabel ?_ (by simp) (by simp) (Keeps.refl _ _) (Keeps.refl _ _)
          (Keeps.refl _ _) ⟨rfl, rfl, rfl, rfl, rfl⟩
        refine hf.replace hlen ?_ (fun _ _ => rfl) (Function.update_self ..) ?_ ?_
        · rw [heq]
          exact hf.record c (by simp)
        · intro q hq _
          exact Function.update_of_ne hq _ _
        · intro hne
          exact absurd rfl hne
  · cases hb : A.blob.pick e.blobs with
    | none => exact .inl ⟨rfl, .inr hb⟩
    | some b =>
        have hfree := A.blob.fresh _ _ hb
        have hbc : b ≠ c.blob := by
          intro heq
          rw [heq, hdata] at hfree
          cases hfree
        have hold : Function.update e.blobs b (some data) c.blob = some c.data := by
          rw [Function.update_of_ne (Ne.symm hbc), hdata]
        refine .inr ⟨b, { e with
          records := Function.update e.records c.addr
            (some { r with nDataLen := data.length, pData := b })
          blobs := Function.update (Function.update e.blobs b (some data)) c.blob none },
          ?_, ?_, rfl⟩
        · dsimp only
          rw [Heap.free_ok hold, ok_bind, Heap.modify_ok hr, ok_bind]
        · refine hh.relabel ?_ (by simp) (by simp) (keeps_update hr rfl) (keeps_update hr rfl)
            (keeps_update hr rfl) ⟨rfl, rfl, rfl, rfl, rfl⟩
          refine hf.replace hlen ?_ ?_ ?_ ?_ ?_
          · simp [MemHashRecord.body, hhash, hkey]
          · intro a ha
            exact Function.update_of_ne ha _ _
          · dsimp only
            rw [Function.update_of_ne hbc, Function.update_self]
          · intro q hqb hqc
            dsimp only
            rw [Function.update_of_ne hqc, Function.update_of_ne hqb]
          · intro _
            exact ⟨hfree, Function.update_self ..⟩

/-! ## One cell less -/

/-- The two blocks of a cell are given back. -/
theorem Filled.remove {blobs' : Heap Bytes} (hf : Filled records blobs (xs ++ c :: ys))
    (hrec : records' c.addr = none) (hrecs : ∀ a, a ≠ c.addr → records' a = records a)
    (hblob : blobs' c.blob = none) (hblobs : ∀ q, q ≠ c.blob → blobs' q = blobs q) :
    Filled records' blobs' (xs ++ ys) := by
  have hsub : (xs ++ ys).Sublist (xs ++ c :: ys) :=
    (List.sublist_cons_self c ys).append_left xs
  have haddrs := hf.addrs.sublist (hsub.map MemCell.addr)
  have hown := hf.own.sublist (hsub.map MemCell.blob)
  constructor
  · intro d hd
    obtain ⟨hmem, hne, -⟩ := hf.apart hd
    rw [hrecs d.addr hne]
    exact hf.record d hmem
  · intro d hd
    obtain ⟨hmem, -, hne⟩ := hf.apart hd
    rw [hblobs d.blob hne]
    exact hf.data d hmem
  · intro a
    by_cases ha : a = c.addr
    · subst ha
      have hnot : c.addr ∉ (xs ++ ys).map MemCell.addr := by
        intro hmem
        obtain ⟨d, hd, hdc⟩ := List.mem_map.1 hmem
        exact (hf.apart hd).2.1 hdc
      rw [hrec]
      exact iff_of_false (by simp) hnot
    · rw [hrecs a ha, hf.live]
      simp [ha]
  · intro q
    by_cases hq : q = c.blob
    · subst hq
      have hnot : c.blob ∉ (xs ++ ys).map MemCell.blob := by
        intro hmem
        obtain ⟨d, hd, hdc⟩ := List.mem_map.1 hmem
        exact (hf.apart hd).2.2 hdc
      rw [hblob]
      exact iff_of_false (by simp) hnot
    · rw [hblobs q hq, hf.used]
      simp [hq]
  · exact haddrs
  · exact hown
  · intro d hd
    exact hf.short d (hf.apart hd).1

/-- **A record is unlinked** from both lists, and its blocks are given back. -/
theorem memHashUnlinkRecord_ok (hh : e.Holds (xs ++ c :: ys)) :
    ∃ e', memHashUnlinkRecord e c.addr = .ok e' ∧ e'.Holds (xs ++ ys) ∧
      e'.nBucket = e.nBucket := by
  have hf := hh.filled
  obtain ⟨r, hr, hhash, hkey, hpData, hlenr⟩ := hf.exists_record (c := c) (by simp)
  obtain ⟨bs, hb⟩ := hh.bucketed
  obtain ⟨k, hk15, hk⟩ := hh.power
  have haddrs := hf.addrs
  have hordered := hh.ordered
  rw [List.map_append, List.map_cons] at haddrs hordered
  have hys : ∀ a, a ∈ (xs ++ ys).map MemCell.addr ↔
      a ∈ (xs ++ c :: ys).map MemCell.addr ∧ a ≠ c.addr := by
    intro a
    have hnot := (List.nodup_cons.1 (List.nodup_middle.1 haddrs)).1
    rw [← List.map_append] at hnot
    have hmiddle : a ∈ (xs ++ c :: ys).map MemCell.addr ↔
        a = c.addr ∨ a ∈ (xs ++ ys).map MemCell.addr := by
      simp only [List.map_append, List.map_cons, List.mem_append, List.mem_cons]
      tauto
    rw [hmiddle]
    constructor
    · intro ha
      exact ⟨.inr ha, fun heq => hnot (heq ▸ ha)⟩
    · intro ha
      exact ha.1.resolve_left ha.2
  obtain ⟨h₁, ap₁, bs₁, hun, hlen₁, horder₁, hbody₁, hb₁⟩ :=
    uninstallRecord_ok hb hf.live_mem hr (by simp)
      (by rw [hh.size, hk]; exact bucketOf_lt _) hys
  have hlive₁ : ∀ a ∈ xs.map MemCell.addr ++ c.addr :: ys.map MemCell.addr, (h₁ a).isSome := by
    intro a ha
    rw [hbody₁.isSome]
    exact hf.live_mem a (by simpa using ha)
  obtain ⟨h₂, pFirst, pLast, hrem, hcol₂, hbody₂, ho₂⟩ :=
    removeRecord_ok (hordered.keeps (fun a _ => horder₁ a)) haddrs hlive₁
  have hbody : Keeps MemHashRecord.body e.records h₂ := hbody₁.trans hbody₂
  obtain ⟨r₂, hr₂, hr₂p⟩ : ∃ r₂, h₂ c.addr = some r₂ ∧ r₂.pData = c.blob := by
    have hmap := (hbody c.addr).trans (hf.record c (by simp))
    obtain ⟨r₂, hr₂, hbody₂⟩ := Option.map_eq_some_iff.1 hmap
    unfold MemHashRecord.body at hbody₂
    simp only [Prod.mk.injEq] at hbody₂
    exact ⟨r₂, hr₂, hbody₂.2.2.1⟩
  have hother : ∀ a ∈ (xs ++ ys).map MemCell.addr,
      Function.update h₂ c.addr none a = h₂ a := by
    intro a ha
    exact Function.update_of_ne ((hys a).1 ha).2 _ _
  refine ⟨{ e with
    records := Function.update h₂ c.addr none
    blobs := Function.update e.blobs c.blob none
    apBucket := ap₁
    pFirst := pFirst
    pLast := pLast
    nRecord := sxu32 (e.nRecord + (2 ^ 32 - 1)) }, ?_, ?_, rfl⟩
  · rw [hh.size] at hun
    unfold memHashUnlinkRecord
    rw [hun, ok_bind]
    dsimp only
    rw [hrem, ok_bind]
    dsimp only
    rw [Heap.read_ok hr₂, ok_bind, hr₂p, Heap.free_ok (hf.data c (by simp)), ok_bind,
      Heap.free_ok hr₂, ok_bind]
  · constructor
    · refine (hf.keeps hbody).remove (Function.update_self ..) ?_ (Function.update_self ..) ?_
      · intro a ha
        exact Function.update_of_ne ha _ _
      · intro q hq
        exact Function.update_of_ne hq _ _
    · exact hh.keys.sublist (((List.sublist_cons_self c ys).append_left xs).map MemCell.key)
    · rw [← List.map_append] at ho₂
      exact ho₂.keeps (fun a ha => congrArg (Option.map _) (hother a ha))
    · refine ⟨bs₁, ?_⟩
      have hb₂ : Bucketed h₂ ap₁ bs₁ ((xs ++ ys).map MemCell.addr) :=
        hb₁.keeps (fun a _ => hcol₂ a) (fun a _ => hbody₂.hash a)
      exact hb₂.keeps (fun a ha => congrArg (Option.map _) (hother a ha))
        (fun a ha => congrArg (Option.map _) (hother a ha))
    · exact hlen₁.trans hh.size
    · exact ⟨k, hk15, hk⟩
    · have hcount := hh.count
      have hfew := hh.few
      simp only [List.length_append, List.length_cons] at hcount hfew ⊢
      unfold sxu32
      omega
    · have hfew := hh.few
      simp only [List.length_append, List.length_cons] at hfew ⊢
      omega

/-! ## Storing -/

/-- What a successful `MemHashReplace` does to the cells. -/
inductive Replaced (key data : Bytes) : List MemCell → List MemCell → Prop
  /-- the key is new, and so is the record -/
  | fresh (cells : List MemCell) (p b : Ptr) :
      key ∉ cells.map MemCell.key → Replaced key data cells (⟨p, key, b, data⟩ :: cells)
  /-- the record keeps its address and its place -/
  | again (xs ys : List MemCell) (c : MemCell) (b : Ptr) :
      c.key = key →
      Replaced key data (xs ++ c :: ys) (xs ++ { c with blob := b, data := data } :: ys)

/-- There are fewer than four records for each bucket, or as many buckets as there
can be. -/
def MemHashEngine.Spread (e : MemHashEngine) : Prop :=
  e.nRecord < 4 * e.nBucket ∨ e.nBucket = 2 ^ 15

/-- **Storing** succeeds, or leaves everything as it was: the data is too long, or
the allocator refused a block. -/
theorem memHashReplace_ok (A : MemBackend) (hh : e.Holds cells)
    (hfew : cells.length + 1 < 2 ^ 32) (key data : Bytes) :
    (memHashReplace A e key data = .ok (.limit, e) ∧ sxu32High < data.length) ∨
    (memHashReplace A e key data = .ok (.nomem, e) ∧ A.Refuses e) ∨
    ∃ e' cells', memHashReplace A e key data = .ok (.ok, e') ∧ e'.Holds cells' ∧
      Replaced key data cells cells' ∧ ((∀ n, A.table n = true) → e.Spread → e'.Spread) := by
  unfold memHashReplace
  by_cases hlen : data.length > sxu32High
  · exact .inl ⟨if_pos hlen, hlen⟩
  rw [if_neg hlen, memHashGetEntry_ok hh, ok_bind]
  have hlen' : data.length ≤ sxu32High := Nat.le_of_not_gt hlen
  refine .inr ?_
  cases hcell : cellOf cells key with
  | some c =>
      obtain ⟨hc, hckey⟩ := cellOf_some hcell
      obtain ⟨xs, ys, hsplit⟩ := List.append_of_mem hc
      subst hsplit
      dsimp only [Option.map_some]
      rcases replaceData_ok (A := A) hh hlen' with hno | ⟨b, e', hok, hh', hnb⟩
      · exact .inl hno
      · refine .inr ⟨e', _, hok, hh', .again xs ys c b hckey, fun _ hspread => ?_⟩
        have hcount := hh.count
        have hcount' := hh'.count
        simp only [List.length_append, List.length_cons] at hcount hcount'
        unfold MemHashEngine.Spread at hspread ⊢
        rw [hnb]
        omega
  | none =>
      have hkey := cellOf_eq_none.1 hcell
      dsimp only [Option.map_none]
      rcases memHashNewRecord_ok A e key hlen' with
        ⟨hnone, hrefuses⟩ | ⟨p, b, hp, hb, hnew⟩
      · rw [hnone, ok_bind]
        exact .inl ⟨rfl, hrefuses⟩
      · obtain ⟨e₁, hlink, hh₁, hnb₁⟩ :=
          memHashLinkRecord_ok (c := ⟨p, key, b, data⟩) hh hkey hp hb hlen' hfew
        rw [hnew, ok_bind]
        dsimp only
        dsimp only at hlink
        rw [hlink, ok_bind]
        refine .inr ?_
        have hcount := hh.count
        have hcount₁ := hh₁.count
        rw [List.length_cons] at hcount₁
        obtain ⟨k, hk15, hk⟩ := hh.power
        have hnb15 : e.nBucket ≤ 2 ^ 15 := by
          rw [hk]
          exact Nat.pow_le_pow_right (by omega) hk15
        have hfill : sxu32 (e₁.nBucket * memHashFillFactor) = 4 * e.nBucket := by
          unfold sxu32 memHashFillFactor
          rw [hnb₁]
          omega
        rw [hfill]
        by_cases hgrow : e₁.nRecord ≥ 4 * e.nBucket ∧ e₁.nRecord < 100000
        · obtain ⟨e₂, hgrown, hh₂, hnb₂⟩ := memHashGrowTable_ok (A := A) hh₁ (by omega)
          rw [if_pos hgrow, hgrown, ok_bind]
          refine ⟨e₂, _, rfl, hh₂, .fresh cells p b hkey, fun hroom hspread => ?_⟩
          rw [if_pos (hroom _)] at hnb₂
          have hcount₂ := hh₂.count
          rw [List.length_cons] at hcount₂
          unfold MemHashEngine.Spread at hspread ⊢
          omega
        · rw [if_neg hgrow]
          refine ⟨e₁, _, rfl, hh₁, .fresh cells p b hkey, fun _ hspread => ?_⟩
          unfold MemHashEngine.Spread at hspread ⊢
          rw [hnb₁]
          by_cases hmany : e₁.nRecord < 4 * e.nBucket
          · exact .inl hmany
          · -- there are 100000 records, and no smaller power of two is enough for them
            refine .inr ?_
            by_contra hne
            have hk14 : k ≤ 14 := by
              rcases Nat.lt_or_ge k 15 with hlt | hge
              · omega
              · have hk' : k = 15 := by omega
                exact absurd (hk.trans (by rw [hk'])) hne
            have hnb14 : e.nBucket ≤ 2 ^ 14 := by
              rw [hk]
              exact Nat.pow_le_pow_right (by omega) hk14
            omega

end MonkeyCache
