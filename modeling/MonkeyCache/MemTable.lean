import MonkeyCache.MemStoreCells
import MonkeyCache.TableImpls

/-!
# `unqlite_ht.c` on the engine

`KvTable` takes the store behind `unqlite_ht.c` for an exact map.  Here the table
runs on the engine itself: `unqlite_kv_store`, `unqlite_kv_fetch` and
`unqlite_kv_delete`, with the one cursor the library keeps for all of them, and
`table_each` with a cursor of its own.

What the engine is for is a list of bindings, the newest one first, in which a key
that is stored again keeps its place (`Bindings`).  Every run of the table is a run
of that list, whatever the allocator refuses (`memTable_refines`); where it refuses
nothing, the answers are those of `KvTable` (`memTable_agrees`).
-/

namespace MonkeyCache

open Linked Fallible Simulation Memory

variable {ν : Type}

/-! ## The store -/

/-- `struct unqlite`: the engine, and where `sDB.pCursor` stands. -/
structure Unqlite where
  pEngine : MemHashEngine
  pCursor : Option Ptr

/-- `unqlite_open` of `:mem:` -/
def unqliteOpen : Unqlite where
  pEngine := memHashInit
  pCursor := none

/-- `unqlite_kv_store` -/
def unqliteKvStore (A : MemBackend) (db : Unqlite) (key data : Bytes) :
    Except HeapFault (UnqliteRc × Unqlite) :=
  if key = [] then .ok (.empty, db)
  else do
    let (rc, e) ← memHashReplace A db.pEngine key data
    .ok (rc, { db with pEngine := e })

/-- `unqlite_kv_fetch` into a buffer of `pBufLen` bytes: what is copied there. -/
def unqliteKvFetch (db : Unqlite) (key : Bytes) (pBufLen : Nat) :
    Except HeapFault (UnqliteRc × Bytes × Unqlite) :=
  if key = [] then .ok (.empty, [], db)
  else do
    let (rc, pCur) ← memHashCursorSeek db.pEngine key
    let db := { db with pCursor := pCur }
    if rc = .ok then do
      let (rc, data) ← memHashCursorData db.pEngine pCur
      .ok (rc, data.take pBufLen, db)
    else .ok (rc, [], db)

/-- `unqlite_kv_delete` -/
def unqliteKvDelete (db : Unqlite) (key : Bytes) : Except HeapFault (UnqliteRc × Unqlite) :=
  if key = [] then .ok (.empty, db)
  else do
    let (rc, pCur) ← memHashCursorSeek db.pEngine key
    if rc = .ok then do
      let (rc, pCur, e) ← memHashCursorDelete db.pEngine pCur
      .ok (rc, { db with pEngine := e, pCursor := pCur })
    else .ok (rc, { db with pCursor := pCur })

/-! ## The table -/

/-- `sizeof(struct node_t)` -/
def nodeSize : Nat := 16

/-- How a `struct node_t` is laid out. -/
structure NodeRep (ν : Type) where
  bytes : ν → Bytes
  value : Bytes → ν
  size : ∀ v, (bytes v).length = nodeSize
  value_bytes : ∀ v, value (bytes v) = v

/-- The lowest `n` bytes of a number, the lowest one first. -/
def littleEndian : Nat → Nat → Bytes
  | 0, _ => []
  | n + 1, v => UInt8.ofNat v :: littleEndian n (v / 256)

/-- The number that the bytes are. -/
def ofLittleEndian : Bytes → Nat
  | [] => 0
  | c :: cs => c.toNat + 256 * ofLittleEndian cs

theorem ofLittleEndian_littleEndian (n : Nat) :
    ∀ v < 256 ^ n, ofLittleEndian (littleEndian n v) = v := by
  induction n with
  | zero =>
      intro v hv
      simp only [pow_zero] at hv
      simp [littleEndian, ofLittleEndian]
      omega
  | succ n ih =>
      intro v hv
      have hq : v / 256 < 256 ^ n := by
        rw [pow_succ] at hv
        omega
      unfold littleEndian ofLittleEndian
      rw [ih _ hq]
      simp only [UInt8.toNat_ofNat']
      omega

theorem length_littleEndian (n v : Nat) : (littleEndian n v).length = n := by
  induction n generalizing v with
  | zero => rfl
  | succ n ih =>
      unfold littleEndian
      rw [List.length_cons, ih]

/-- A node whose value is a pointer of 64 bits; `len` and the padding are zero. -/
def pointerRep : NodeRep (Fin (2 ^ 64)) where
  bytes v := littleEndian 8 v ++ List.replicate 8 0
  value bs := Fin.ofNat (2 ^ 64) (ofLittleEndian (bs.take 8))
  size v := by
    rw [List.length_append, length_littleEndian, List.length_replicate]
    rfl
  value_bytes v := by
    have hlen : (littleEndian 8 v).length = 8 := length_littleEndian 8 v
    rw [List.take_append_of_le_length (le_of_eq hlen.symm), List.take_of_length_le (le_of_eq hlen),
      ofLittleEndian_littleEndian 8 v (lt_of_lt_of_eq v.isLt (by norm_num))]
    exact Fin.ofNat_val_eq_self v

/-- `table_get` -/
def memTableGet (N : NodeRep ν) (db : Unqlite) (key : CStr) :
    Except HeapFault (Option ν × Unqlite) := do
  let (rc, node, db) ← unqliteKvFetch db key.str nodeSize
  if rc = .ok then .ok (some (N.value node), db) else .ok (none, db)

/-- `table_add` -/
def memTableAdd (N : NodeRep ν) (A : MemBackend) (db : Unqlite) (key : CStr) (val : ν) :
    Except HeapFault (Int × Unqlite) := do
  let (rc, db) ← unqliteKvStore A db key.str (N.bytes val)
  .ok (if rc = .ok then 0 else -1, db)

/-- `table_del` -/
def memTableDel (N : NodeRep ν) (db : Unqlite) (key : CStr) :
    Except HeapFault (Option ν × Unqlite) := do
  let (data, db) ← memTableGet N db key
  let (_, db) ← unqliteKvDelete db key.str
  .ok (data, db)

/-- The loop of `table_each`; the cursor moves on before the callback is called,
which may use the table. -/
def memEachFrom {σ : Type} (N : NodeRep ν) (cb : Bytes → ν → Unqlite → σ →
    Except HeapFault (Unqlite × σ)) :
    Nat → Option Ptr → Bytes → Nat → Unqlite → σ → Except HeapFault (Unqlite × σ)
  | 0, _, _, _, _, _ => .error .timeout
  | _ + 1, none, _, _, db, state => .ok (db, state)
  | fuel + 1, some p, key, len, db, state => do
    let (_, k) ← memHashCursorKey db.pEngine (some p)
    let out := cursorKey k key len
    let (_, data) ← memHashCursorData db.pEngine (some p)
    let (_, pCur) ← memHashCursorNext db.pEngine (some p)
    let (db, state) ← cb (cstr 0 out.1) (N.value (data.take nodeSize)) db state
    memEachFrom N cb fuel pCur out.1 out.2 db state

/-- `table_each`; `key` is what its buffer holds before anything was written.  As
long as the callback adds nothing, there are no more rounds than records. -/
def memTableEach {σ : Type} (N : NodeRep ν) (db : Unqlite) (key : Bytes)
    (cb : Bytes → ν → Unqlite → σ → Except HeapFault (Unqlite × σ)) (state : σ) :
    Except HeapFault (Unqlite × σ) :=
  memEachFrom N cb (db.pEngine.nRecord + 1) (memHashCursorFirst db.pEngine) key keyBufLen db state

/-- One call of the table, and what the allocator answers meanwhile. -/
def memTableCall (N : NodeRep ν) (db : Unqlite) (c : MemBackend × TableCall ν) :
    Except HeapFault (TableAnswer ν × Unqlite) :=
  match c.2 with
  | .get key => do
    let (val, db) ← memTableGet N db key
    .ok (.val val, db)
  | .add key val => do
    let (ret, db) ← memTableAdd N c.1 db key val
    .ok (.status ret, db)
  | .del key => do
    let (val, db) ← memTableDel N db key
    .ok (.val val, db)

/-! ## Bindings -/

/-- Keys and values, the newest key first. -/
abbrev Bindings (ν : Type) := List (Bytes × ν)

/-- A key that is there keeps its place. -/
def Bindings.set (b : Bindings ν) (key : Bytes) (val : ν) : Bindings ν :=
  if key ∈ b.map Prod.fst then b.map (fun e => if e.1 = key then (key, val) else e)
  else (key, val) :: b

def Bindings.remove (b : Bindings ν) (key : Bytes) : Bindings ν :=
  b.filter (fun e => e.1 ≠ key)

def Bindings.get (b : Bindings ν) (key : Bytes) : Option ν :=
  (b.find? (fun e => e.1 = key)).map Prod.snd

/-- One call on the bindings.  An addition may be refused. -/
inductive Bindings.Step : Bindings ν → TableCall ν → TableAnswer ν → Bindings ν → Prop
  | get (b : Bindings ν) (key : CStr) : Step b (.get key) (.val (b.get key.str)) b
  | add (b : Bindings ν) (key : CStr) (val : ν) :
      key.str ≠ [] → Step b (.add key val) (.status 0) (b.set key.str val)
  | refused (b : Bindings ν) (key : CStr) (val : ν) : Step b (.add key val) (.status (-1)) b
  | del (b : Bindings ν) (key : CStr) :
      Step b (.del key) (.val (b.get key.str)) (b.remove key.str)

/-- A list of calls on the bindings. -/
inductive Bindings.Run : Bindings ν → List (TableCall ν) → List (TableAnswer ν) → Bindings ν → Prop
  | nil (b : Bindings ν) : Run b [] [] b
  | cons {b b' b'' : Bindings ν} {c : TableCall ν} {cs : List (TableCall ν)}
      {out : TableAnswer ν} {outs : List (TableAnswer ν)} :
      Step b c out b' → Run b' cs outs b'' → Run b (c :: cs) (out :: outs) b''

/-- One call on the bindings, where nothing is refused but the empty key. -/
def Bindings.call (b : Bindings ν) : TableCall ν → TableAnswer ν × Bindings ν
  | .get key => (.val (b.get key.str), b)
  | .add key val =>
    if key.str = [] then (.status (-1), b) else (.status 0, b.set key.str val)
  | .del key => (.val (b.get key.str), b.remove key.str)

section Laws

variable {b : Bindings ν} {k k' : Bytes} {v : ν}

@[simp] theorem Bindings.get_nil : Bindings.get ([] : Bindings ν) k = none := rfl

theorem Bindings.get_cons {e : Bytes × ν} :
    Bindings.get (e :: b) k = if e.1 = k then some e.2 else Bindings.get b k := by
  unfold Bindings.get
  rw [List.find?_cons]
  by_cases hk : e.1 = k
  · simp [hk]
  · simp [hk]

theorem Bindings.get_eq_none : b.get k = none ↔ k ∉ b.map Prod.fst := by
  unfold Bindings.get
  rw [Option.map_eq_none_iff, List.find?_eq_none, List.mem_map]
  constructor
  · intro h hmem
    obtain ⟨e, he, hek⟩ := hmem
    exact h e he (by simpa using hek)
  · intro h e he hek
    exact h ⟨e, he, by simpa using hek⟩

/-- Where the keys are distinct, a binding is what its key gives. -/
theorem Bindings.mem_iff (hb : (b.map Prod.fst).Nodup) : (k, v) ∈ b ↔ b.get k = some v := by
  induction b with
  | nil => simp
  | cons e b ih =>
      rw [List.map_cons, List.nodup_cons] at hb
      rw [Bindings.get_cons, List.mem_cons, ih hb.2]
      by_cases hk : e.1 = k
      · subst hk
        have hnone : Bindings.get b e.1 = none := Bindings.get_eq_none.2 hb.1
        rw [if_pos rfl, hnone]
        constructor
        · intro h
          rcases h with heq | h
          · rw [← heq]
          · cases h
        · intro h
          rw [← Option.some.inj h]
          exact .inl rfl
      · rw [if_neg hk]
        constructor
        · intro h
          rcases h with heq | h
          · rw [← heq] at hk
            exact absurd rfl hk
          · exact h
        · exact .inr

theorem Bindings.get_map_set (hmem : k ∈ b.map Prod.fst) :
    Bindings.get (b.map (fun e => if e.1 = k then (k, v) else e)) k' =
      if k' = k then some v else b.get k' := by
  induction b with
  | nil => simp at hmem
  | cons e b ih =>
      rw [List.map_cons, Bindings.get_cons, Bindings.get_cons]
      by_cases hek : e.1 = k
      · rw [if_pos hek]
        by_cases hk' : k' = k
        · rw [if_pos hk', if_pos hk'.symm]
        · rw [if_neg (Ne.symm hk'), if_neg hk', if_neg (by rw [hek]; exact Ne.symm hk')]
          by_cases hb : k ∈ b.map Prod.fst
          · rw [ih hb, if_neg hk']
          · -- nothing is replaced in the rest
            refine congrArg (fun b => Bindings.get b k') ?_
            refine (List.map_congr_left (fun d hd => ?_)).trans (List.map_id b)
            have hne : d.1 ≠ k := by
              intro heq
              rw [← heq] at hb
              exact hb (List.mem_map_of_mem hd)
            rw [if_neg hne]
            rfl
      · have hb : k ∈ b.map Prod.fst := by
          rw [List.map_cons, List.mem_cons] at hmem
          exact hmem.resolve_left (Ne.symm hek)
        rw [if_neg hek, ih hb]
        by_cases hek' : e.1 = k'
        · rw [if_pos hek', if_pos hek', if_neg]
          intro heq
          exact hek (hek'.trans heq)
        · rw [if_neg hek', if_neg hek']

/-- **Look-up after storing.** -/
theorem Bindings.get_set : (b.set k v).get k' = if k' = k then some v else b.get k' := by
  unfold Bindings.set
  split
  · next hmem => exact Bindings.get_map_set hmem
  · rw [Bindings.get_cons]
    by_cases hk : k' = k
    · rw [if_pos hk, if_pos hk.symm]
    · rw [if_neg (Ne.symm hk), if_neg hk]

/-- **Look-up after deleting.** -/
theorem Bindings.get_remove : (b.remove k).get k' = if k' = k then none else b.get k' := by
  unfold Bindings.remove
  induction b with
  | nil => simp
  | cons e b ih =>
      rw [List.filter_cons, Bindings.get_cons]
      by_cases hek : e.1 = k
      · rw [if_neg (by simp [hek]), ih]
        by_cases hk' : k' = k
        · rw [if_pos hk', if_pos hk']
        · rw [if_neg hk', if_neg hk', if_neg]
          rw [hek]
          exact Ne.symm hk'
      · rw [if_pos (by simp [hek]), Bindings.get_cons, ih]
        by_cases hk' : k' = k
        · rw [if_pos hk', if_pos hk', if_neg]
          rw [hk']
          exact hek
        · rw [if_neg hk', if_neg hk']

theorem Bindings.nodup_set (hb : (b.map Prod.fst).Nodup) : ((b.set k v).map Prod.fst).Nodup := by
  unfold Bindings.set
  split
  · have hkeys : (b.map (fun e => if e.1 = k then (k, v) else e)).map Prod.fst =
        b.map Prod.fst := by
      rw [List.map_map]
      refine List.map_congr_left (fun e _ => ?_)
      rw [Function.comp_apply]
      split
      · next hek => exact hek.symm
      · rfl
    rw [hkeys]
    exact hb
  · next hmem => exact List.nodup_cons.2 ⟨hmem, hb⟩

theorem Bindings.nodup_remove (hb : (b.map Prod.fst).Nodup) :
    ((b.remove k).map Prod.fst).Nodup :=
  hb.sublist ((List.filter_sublist (p := fun e => decide (e.1 ≠ k))).map Prod.fst)

end Laws

/-! ## The engine holds the bindings -/

/-- The table stands for the bindings `b`, in the cells `cells` of the engine. -/
structure Unqlite.Rep (N : NodeRep ν) (db : Unqlite) (cells : List MemCell) (b : Bindings ν) :
    Prop where
  holds : db.pEngine.Holds cells
  entries : cells.map (fun c => (c.key, c.data)) = b.map (fun e => (e.1, N.bytes e.2))
  nonempty : ∀ c ∈ cells, c.key ≠ []

variable {N : NodeRep ν} {A : MemBackend} {db db' : Unqlite} {cells cells' : List MemCell}
  {b : Bindings ν} {key : CStr} {val : ν}

theorem unqliteOpen_rep : unqliteOpen.Rep N [] [] where
  holds := memHashInit_holds
  entries := rfl
  nonempty := by simp

theorem Unqlite.Rep.keys_eq (h : db.Rep N cells b) :
    cells.map MemCell.key = b.map Prod.fst := by
  have hkeys := congrArg (List.map Prod.fst) h.entries
  simpa [List.map_map, Function.comp_def] using hkeys

theorem Unqlite.Rep.length_eq (h : db.Rep N cells b) : cells.length = b.length := by
  have hlen := congrArg List.length h.entries
  simpa using hlen

/-- Where the library's own cursor stands is no matter. -/
theorem Unqlite.Rep.cursor (h : db.Rep N cells b) (heq : db'.pEngine = db.pEngine) :
    db'.Rep N cells b where
  holds := by rw [heq]; exact h.holds
  entries := h.entries
  nonempty := h.nonempty

/-- The cell with a key has the data of its binding. -/
theorem cellOf_data {k : Bytes} :
    ∀ {cells : List MemCell} {b : Bindings ν},
      cells.map (fun c => (c.key, c.data)) = b.map (fun e => (e.1, N.bytes e.2)) →
      (cellOf cells k).map MemCell.data = (b.get k).map N.bytes := by
  intro cells
  induction cells with
  | nil =>
      intro b h
      have hb : b = [] := by simpa using h.symm
      subst hb
      rfl
  | cons c cells ih =>
      intro b h
      cases b with
      | nil => cases h
      | cons e b =>
          rw [List.map_cons, List.map_cons, List.cons.injEq, Prod.mk.injEq] at h
          obtain ⟨⟨hkey, hdata⟩, htail⟩ := h
          have hrest := ih htail
          unfold cellOf Bindings.get at hrest ⊢
          rw [List.find?_cons, List.find?_cons, hkey]
          by_cases hk : e.1 = k
          · simp [hk, hdata]
          · simpa [hk] using hrest

/-- **Fetching** a key gives the data of its cell, cut to the buffer. -/
theorem unqliteKvFetch_ok (hh : db.pEngine.Holds cells) (k : Bytes) (hk : k ≠ []) (n : Nat) :
    ∃ db', db'.pEngine = db.pEngine ∧ unqliteKvFetch db k n =
      match cellOf cells k with
      | some c => .ok (.ok, c.data.take n, db')
      | none => .ok (.notfound, [], db') := by
  unfold unqliteKvFetch memHashCursorSeek
  rw [if_neg hk, memHashGetEntry_ok hh, ok_bind]
  cases hcell : cellOf cells k with
  | none => exact ⟨{ db with pCursor := none }, rfl, rfl⟩
  | some c =>
      obtain ⟨hc, -⟩ := cellOf_some hcell
      obtain ⟨r, hr, -, -, hpData, hlen⟩ := hh.filled.exists_record hc
      refine ⟨{ db with pCursor := some c.addr }, rfl, ?_⟩
      dsimp only [Option.map_some]
      rw [ok_bind, if_pos rfl]
      unfold memHashCursorData
      dsimp only
      rw [Heap.read_ok hr, ok_bind, hpData, Heap.read_ok (hh.filled.data c hc), ok_bind, hlen,
        if_pos (le_refl _), List.take_length, ok_bind]

/-- **Look-up.** -/
theorem memTableGet_ok (h : db.Rep N cells b) (key : CStr) :
    ∃ db', memTableGet N db key = .ok (b.get key.str, db') ∧ db'.pEngine = db.pEngine := by
  unfold memTableGet
  by_cases hk : key.str = []
  · have hnone : b.get key.str = none := by
      unfold Bindings.get
      rw [hk, Option.map_eq_none_iff, List.find?_eq_none]
      intro e he heq
      have hmem : ([] : Bytes) ∈ cells.map MemCell.key := by
        rw [h.keys_eq]
        exact List.mem_map.2 ⟨e, he, by simpa using heq⟩
      obtain ⟨c, hc, hcnil⟩ := List.mem_map.1 hmem
      exact h.nonempty c hc hcnil
    refine ⟨db, ?_, rfl⟩
    unfold unqliteKvFetch
    rw [if_pos hk, ok_bind, hnone]
    rfl
  · obtain ⟨db', heq, hfetch⟩ := unqliteKvFetch_ok h.holds key.str hk nodeSize
    have hdata := cellOf_data (k := key.str) h.entries
    refine ⟨db', ?_, heq⟩
    rw [hfetch]
    cases hcell : cellOf cells key.str with
    | none =>
        rw [hcell] at hdata
        have hnone : b.get key.str = none := by simpa using hdata.symm
        rw [hnone]
        rfl
    | some c =>
        rw [hcell, Option.map_some] at hdata
        obtain ⟨v, hv, hvc⟩ := Option.map_eq_some_iff.1 hdata.symm
        have hvalue : N.value (c.data.take nodeSize) = v := by
          rw [← hvc, List.take_of_length_le (le_of_eq (N.size v)), N.value_bytes]
        rw [hv]
        dsimp only
        rw [ok_bind, if_pos rfl, hvalue]

/-- What storing does to the cells is what `set` does to the bindings. -/
theorem Replaced.entries {k : Bytes} (hr : Replaced k (N.bytes val) cells cells')
    (hkeys : (cells.map MemCell.key).Nodup)
    (hb : cells.map (fun c => (c.key, c.data)) = b.map (fun e => (e.1, N.bytes e.2))) :
    cells'.map (fun c => (c.key, c.data)) = (b.set k val).map (fun e => (e.1, N.bytes e.2)) := by
  have hbkeys : cells.map MemCell.key = b.map Prod.fst := by
    have h := congrArg (List.map Prod.fst) hb
    simpa [List.map_map, Function.comp_def] using h
  unfold Bindings.set
  cases hr with
  | fresh _ p q hk =>
      rw [if_neg (by rw [← hbkeys]; exact hk), List.map_cons, List.map_cons, hb]
  | again xs ys c q hck =>
      have hmem : k ∈ b.map Prod.fst := by
        rw [← hbkeys, ← hck]
        simp
      rw [if_pos hmem]
      -- the other cells have other keys
      rw [List.map_append, List.map_cons] at hkeys
      have hnot := (List.nodup_cons.1 (List.nodup_middle.1 hkeys)).1
      rw [List.mem_append, not_or, hck] at hnot
      rw [List.map_append, List.map_cons] at hb
      obtain ⟨bx, brest, rfl, hbx, hbrest⟩ := List.append_eq_map_iff.1 hb
      obtain ⟨e, bys, rfl, hbe, hbys⟩ := List.map_eq_cons_iff.1 hbrest
      have hkeep : ∀ {ds : List MemCell} {bd : Bindings ν}, k ∉ ds.map MemCell.key →
          bd.map (fun e => (e.1, N.bytes e.2)) = ds.map (fun c => (c.key, c.data)) →
          bd.map (fun e => if e.1 = k then (k, val) else e) = bd := by
        intro ds bd hnot hbd
        have hbd₁ : bd.map Prod.fst = ds.map MemCell.key := by
          have h := congrArg (List.map Prod.fst) hbd
          simpa [List.map_map, Function.comp_def] using h
        rw [← hbd₁] at hnot
        refine (List.map_congr_left (fun e he => ?_)).trans (List.map_id bd)
        have hne : e.1 ≠ k := by
          intro heq
          rw [← heq] at hnot
          exact hnot (List.mem_map_of_mem he)
        rw [if_neg hne]
        rfl
      have hek : e.1 = k := by
        rw [Prod.mk.injEq] at hbe
        rw [hbe.1, hck]
      have hset : (bx ++ e :: bys).map (fun e => if e.1 = k then (k, val) else e) =
          bx ++ (k, val) :: bys := by
        rw [List.map_append, List.map_cons, hkeep hnot.1 hbx, hkeep hnot.2 hbys, if_pos hek]
      rw [hset]
      simp [hbx, hbys, hck]

/-- **Adding** succeeds where the key is not empty and the allocator has blocks, and
otherwise changes nothing. -/
theorem memTableAdd_ok (h : db.Rep N cells b) (hfew : cells.length + 1 < 2 ^ 32) (key : CStr)
    (val : ν) :
    (∃ db', memTableAdd N A db key val = .ok (-1, db') ∧ db'.Rep N cells b ∧
      db'.pEngine = db.pEngine ∧ (key.str = [] ∨ A.Refuses db.pEngine)) ∨
    (∃ db' cells', memTableAdd N A db key val = .ok (0, db') ∧ key.str ≠ [] ∧
      db'.Rep N cells' (b.set key.str val) ∧ cells'.length ≤ cells.length + 1 ∧
      ((∀ n, A.table n = true) → db.pEngine.Spread → db'.pEngine.Spread)) := by
  unfold memTableAdd unqliteKvStore
  by_cases hk : key.str = []
  · refine .inl ⟨db, ?_, h, rfl, .inl hk⟩
    rw [if_pos hk]
    rfl
  rw [if_neg hk]
  have hshort : (N.bytes val).length ≤ sxu32High := by
    rw [N.size]
    decide
  rcases memHashReplace_ok A h.holds hfew key.str (N.bytes val) with
    ⟨-, hlong⟩ | ⟨hno, hrefuses⟩ | ⟨e', cells', hok, hh', hrep, hspread⟩
  · omega
  · refine .inl ⟨db, ?_, h, rfl, .inr hrefuses⟩
    rw [hno]
    rfl
  · have hentries := hrep.entries h.holds.keys h.entries
    refine .inr ⟨{ db with pEngine := e' }, cells', ?_, hk, ⟨hh', hentries, ?_⟩, ?_, hspread⟩
    · rw [hok]
      rfl
    · intro c hc
      cases hrep with
      | fresh _ p q hnew =>
          rcases List.mem_cons.1 hc with heq | hc
          · subst heq
            exact hk
          · exact h.nonempty c hc
      | again xs ys d q hd =>
          rw [List.mem_append, List.mem_cons] at hc
          rcases hc with hx | heq | hy
          · exact h.nonempty c (by simp [hx])
          · subst heq
            dsimp only
            rw [hd]
            exact hk
          · exact h.nonempty c (by simp [hy])
    · cases hrep with
      | fresh _ p q hnew => simp
      | again xs ys d q hd => simp

/-- Without its cell, a key is gone from the bindings. -/
theorem entries_remove {k : Bytes} {xs ys : List MemCell} {c : MemCell}
    (hkeys : ((xs ++ c :: ys).map MemCell.key).Nodup) (hck : c.key = k)
    (hb : (xs ++ c :: ys).map (fun c => (c.key, c.data)) = b.map (fun e => (e.1, N.bytes e.2))) :
    (xs ++ ys).map (fun c => (c.key, c.data)) =
      (b.remove k).map (fun e => (e.1, N.bytes e.2)) := by
  rw [List.map_append, List.map_cons] at hkeys
  have hnot := (List.nodup_cons.1 (List.nodup_middle.1 hkeys)).1
  rw [List.mem_append, not_or, hck] at hnot
  have hfilter : ∀ {ds : List MemCell}, k ∉ ds.map MemCell.key →
      ds.filter (fun c => c.key ≠ k) = ds := by
    intro ds hnot
    refine List.filter_eq_self.2 (fun d hd => ?_)
    rw [decide_eq_true_iff]
    intro heq
    rw [← heq] at hnot
    exact hnot (List.mem_map_of_mem hd)
  have hcells : (xs ++ c :: ys).filter (fun c => c.key ≠ k) = xs ++ ys := by
    rw [List.filter_append, List.filter_cons, hfilter hnot.1, hfilter hnot.2]
    simp [hck]
  have hmaps := congrArg (List.filter (fun e : Bytes × Bytes => e.1 ≠ k)) hb
  rw [List.filter_map, List.filter_map] at hmaps
  unfold Bindings.remove
  rw [← hcells]
  exact hmaps

/-- **Deleting** a key that is there gives its cell back; the other cells stay where
they are. -/
theorem memTableDel_present {xs ys : List MemCell} {c : MemCell} (h : db.Rep N (xs ++ c :: ys) b)
    (key : CStr) (hck : c.key = key.str) :
    ∃ db', memTableDel N db key = .ok (b.get key.str, db') ∧
      db'.Rep N (xs ++ ys) (b.remove key.str) ∧ db'.pEngine.nBucket = db.pEngine.nBucket := by
  obtain ⟨db₁, hget, heq₁⟩ := memTableGet_ok h key
  have h₁ := h.cursor heq₁
  have hc : c ∈ xs ++ c :: ys := by simp
  have hk : key.str ≠ [] := by
    rw [← hck]
    exact h.nonempty c hc
  have hcell : cellOf (xs ++ c :: ys) key.str = some c := by
    cases hcell : cellOf (xs ++ c :: ys) key.str with
    | none =>
        have hmem : key.str ∈ (xs ++ c :: ys).map MemCell.key :=
          List.mem_map.2 ⟨c, hc, hck⟩
        exact absurd hmem (cellOf_eq_none.1 hcell)
    | some d =>
        obtain ⟨hd, hdkey⟩ := cellOf_some hcell
        rw [h.holds.key_inj hd hc (hdkey.trans hck.symm)]
  obtain ⟨r, hr, -⟩ := h₁.holds.filled.exists_record hc
  obtain ⟨e', hunlink, hh', hnb⟩ := memHashUnlinkRecord_ok h₁.holds
  refine ⟨{ db₁ with pEngine := e', pCursor := r.pPrev }, ?_, ⟨hh', ?_, ?_⟩, ?_⟩
  · unfold memTableDel
    rw [hget, ok_bind]
    dsimp only
    unfold unqliteKvDelete memHashCursorSeek
    rw [if_neg hk, memHashGetEntry_ok h₁.holds, ok_bind, hcell]
    dsimp only [Option.map_some]
    rw [ok_bind, if_pos rfl]
    unfold memHashCursorDelete
    dsimp only
    rw [Heap.read_ok hr, ok_bind, hunlink, ok_bind]
    rfl
  · exact entries_remove h.holds.keys hck h.entries
  · intro d hd
    refine h.nonempty d ?_
    rcases List.mem_append.1 hd with hx | hy
    · simp [hx]
    · simp [hy]
  · dsimp only
    rw [hnb, heq₁]

/-- Deleting a key that is not there changes nothing. -/
theorem memTableDel_absent (h : db.Rep N cells b) (key : CStr)
    (hnot : key.str ∉ cells.map MemCell.key) :
    ∃ db', memTableDel N db key = .ok (b.get key.str, db') ∧ b.remove key.str = b ∧
      db'.pEngine = db.pEngine := by
  obtain ⟨db₁, hget, heq₁⟩ := memTableGet_ok h key
  have h₁ := h.cursor heq₁
  have hremove : b.remove key.str = b := by
    rw [h.keys_eq] at hnot
    refine List.filter_eq_self.2 (fun e he => ?_)
    rw [decide_eq_true_iff]
    intro heq
    rw [← heq] at hnot
    exact hnot (List.mem_map_of_mem he)
  unfold memTableDel
  rw [hget, ok_bind]
  dsimp only
  unfold unqliteKvDelete
  by_cases hk : key.str = []
  · rw [if_pos hk]
    exact ⟨db₁, rfl, hremove, heq₁⟩
  · unfold memHashCursorSeek
    rw [if_neg hk, memHashGetEntry_ok h₁.holds, ok_bind, cellOf_eq_none.2 hnot]
    exact ⟨{ db₁ with pCursor := none }, rfl, hremove, heq₁⟩

/-! ## An allocator -/

/-- An allocator with room for `n` records. -/
def MemBackend.pool (n : Nat) : MemBackend where
  record := .pool _ n
  blob := .pool _ n
  table _ := true

/-- It refuses nothing before it is exhausted. -/
theorem MemHashEngine.Holds.not_refuses {e : MemHashEngine} (hh : e.Holds cells) {n : Nat}
    (hlen : cells.length < n) : ¬ (MemBackend.pool n).Refuses e := by
  intro h
  rcases h with h | h
  · have hpick := Backend.pool_isSome (fun a => (hh.filled.live a).1) (by simpa using hlen)
    exact Option.isSome_iff_ne_none.1 hpick h
  · have hpick := Backend.pool_isSome (fun a => (hh.filled.used a).1) (by simpa using hlen)
    exact Option.isSome_iff_ne_none.1 hpick h

/-! ## Runs -/

/-- **One call** is a step of the bindings, and the step that nothing is refused in if
the allocator refuses nothing. -/
theorem memTableCall_ok (h : db.Rep N cells b) (hfew : cells.length + 1 < 2 ^ 32)
    (c : MemBackend × TableCall ν) :
    ∃ out db' cells' b', memTableCall N db c = .ok (out, db') ∧ db'.Rep N cells' b' ∧
      b.Step c.2 out b' ∧ cells'.length ≤ cells.length + 1 ∧
      (¬ c.1.Refuses db.pEngine → b.call c.2 = (out, b')) ∧
      ((∀ n, c.1.table n = true) → db.pEngine.Spread → db'.pEngine.Spread) := by
  obtain ⟨A, c⟩ := c
  unfold memTableCall
  cases c with
  | get key =>
      obtain ⟨db', hget, heq⟩ := memTableGet_ok h key
      refine ⟨_, db', cells, b, ?_, h.cursor heq, .get b key, by omega, fun _ => rfl, ?_⟩
      · dsimp only
        rw [hget, ok_bind]
      · intro _
        rw [heq]
        exact id
  | add key val =>
      rcases memTableAdd_ok (A := A) h hfew key val with
        ⟨db', hadd, hrep, heq, hwhy⟩ | ⟨db', cells', hadd, hk, hrep, hlen, hspread⟩
      · refine ⟨_, db', cells, b, ?_, hrep, .refused b key val, by omega, ?_, ?_⟩
        · dsimp only
          rw [hadd, ok_bind]
        · intro hgrants
          exact if_pos (hwhy.resolve_right hgrants)
        · intro _
          rw [heq]
          exact id
      · refine ⟨_, db', cells', _, ?_, hrep, .add b key val hk, hlen, ?_, hspread⟩
        · dsimp only
          rw [hadd, ok_bind]
        · intro _
          exact if_neg hk
  | del key =>
      by_cases hmem : key.str ∈ cells.map MemCell.key
      · obtain ⟨d, hd, hdkey⟩ := List.mem_map.1 hmem
        obtain ⟨xs, ys, hsplit⟩ := List.append_of_mem hd
        subst hsplit
        obtain ⟨db', hdel, hrep, hnb⟩ := memTableDel_present h key hdkey
        refine ⟨.val (b.get key.str), db', xs ++ ys, b.remove key.str, ?_, hrep, .del b key, ?_,
          fun _ => rfl, fun _ hs => ?_⟩
        · dsimp only
          rw [hdel, ok_bind]
        · simp only [List.length_append, List.length_cons]
          omega
        · have hcount := h.holds.count
          have hcount' := hrep.holds.count
          simp only [List.length_append, List.length_cons] at hcount hcount'
          unfold MemHashEngine.Spread at hs ⊢
          rw [hnb]
          omega
      · obtain ⟨db', hdel, hsame, heq⟩ := memTableDel_absent h key hmem
        refine ⟨.val (b.get key.str), db', cells, b, ?_, h.cursor heq, ?_, by omega, fun _ => ?_,
          fun _ => ?_⟩
        · dsimp only
          rw [hdel, ok_bind]
        · have hstep := Bindings.Step.del b key
          rwa [hsame] at hstep
        · unfold Bindings.call
          dsimp only
          rw [hsame]
        · rw [heq]
          exact id

/-- Every list of calls is a run of the bindings. -/
theorem memTable_run :
    ∀ (calls : List (MemBackend × TableCall ν)) (db : Unqlite) (cells : List MemCell)
      (b : Bindings ν), db.Rep N cells b → cells.length + calls.length < 2 ^ 32 →
      ∃ outs db' cells' b', run (memTableCall N) db calls = .ok (outs, db') ∧
        db'.Rep N cells' b' ∧ b.Run (calls.map Prod.snd) outs b' ∧
        (Meets (fun db c => ¬ c.1.Refuses db.pEngine) (memTableCall N) db calls →
          answers Bindings.call b (calls.map Prod.snd) = (outs, b')) ∧
        ((∀ c ∈ calls, ∀ n, c.1.table n = true) → db.pEngine.Spread → db'.pEngine.Spread) := by
  intro calls
  induction calls with
  | nil =>
      intro db cells b h _
      exact ⟨[], db, cells, b, rfl, h, .nil b, fun _ => rfl, fun _ hs => hs⟩
  | cons c calls ih =>
      intro db cells b h hfew
      rw [List.length_cons] at hfew
      obtain ⟨out, db₁, cells₁, b₁, hcall, hrep₁, hstep, hlen, hgrant, hspread⟩ :=
        memTableCall_ok h (by omega) c
      obtain ⟨outs, db₂, cells₂, b₂, hrun, hrep₂, hruns, hgrants, hspreads⟩ :=
        ih db₁ cells₁ b₁ hrep₁ (by omega)
      refine ⟨out :: outs, db₂, cells₂, b₂, ?_, hrep₂, .cons hstep hruns, ?_, ?_⟩
      · unfold run
        rw [hcall]
        dsimp only
        rw [hrun]
      · intro hmeets
        obtain ⟨hfirst, hrest⟩ := hmeets
        rw [List.map_cons]
        unfold answers
        dsimp only
        rw [hgrant hfirst, hgrants (hrest _ _ hcall)]
      · intro hroom hs
        exact hspreads (fun d hd => hroom d (List.mem_cons_of_mem c hd))
          (hspread (hroom c List.mem_cons_self) hs)

/-- The table stands for the bindings. -/
def Unqlite.Stands (N : NodeRep ν) (db : Unqlite) (b : Bindings ν) : Prop :=
  ∃ cells, db.Rep N cells b

/-- **Refinement.**  From `table_alloc` on, no call goes through a dangling pointer or
out of a bound, whatever the allocator answers; and the answers are those of a list of
bindings. -/
theorem memTable_refines (N : NodeRep ν) (calls : List (MemBackend × TableCall ν))
    (hfew : calls.length < 2 ^ 32) :
    ∃ outs db b, run (memTableCall N) unqliteOpen calls = .ok (outs, db) ∧
      Bindings.Run [] (calls.map Prod.snd) outs b ∧ db.Stands N b := by
  obtain ⟨outs, db, cells, b, hrun, hrep, hruns, -, -⟩ :=
    memTable_run (N := N) calls unqliteOpen [] [] unqliteOpen_rep (by simpa using hfew)
  exact ⟨outs, db, b, hrun, hruns, cells, hrep⟩

/-- A key that is refused, stored, stored again and deleted. -/
theorem memTable_refines_sample :
    ∃ outs db b, run (memTableCall pointerRep) unqliteOpen
        [(.pool 0, .add (stringA 1) 7), (.pool 2, .add (stringA 2) 8),
          (.pool 2, .add (stringA 3) 9), (.pool 2, .del (stringA 4))] = .ok (outs, db) ∧
      Bindings.Run []
        [.add (stringA 1) 7, .add (stringA 2) 8, .add (stringA 3) 9, .del (stringA 4)] outs b ∧
      db.Stands pointerRep b :=
  memTable_refines pointerRep
    [(.pool 0, .add (stringA 1) 7), (.pool 2, .add (stringA 2) 8),
      (.pool 2, .add (stringA 3) 9), (.pool 2, .del (stringA 4))] (by decide)

/-! ## The engine and the exact map -/

theorem memTable_pool (N : NodeRep ν) {n : Nat} :
    ∀ (cs : List (TableCall ν)) (db : Unqlite) (cells : List MemCell) (b : Bindings ν),
      db.Rep N cells b → cells.length + cs.length ≤ n → n < 2 ^ 32 →
      Meets (fun db c => ¬ c.1.Refuses db.pEngine) (memTableCall N) db
        (cs.map (fun c => (MemBackend.pool n, c))) := by
  intro cs
  induction cs with
  | nil =>
      intro db cells b _ _ _
      trivial
  | cons c cs ih =>
      intro db cells b h hlen hn
      rw [List.length_cons] at hlen
      obtain ⟨out, db₁, cells₁, b₁, hcall, hrep₁, -, hlen₁, -, -⟩ :=
        memTableCall_ok h (by omega) (MemBackend.pool n, c)
      refine ⟨h.holds.not_refuses (by omega), ?_⟩
      intro out' db' hcall'
      rw [hcall] at hcall'
      cases hcall'
      exact ih db₁ cells₁ b₁ hrep₁ (by omega) hn

/-- The records, the oldest one first, as the cursor visits them. -/
def Bindings.records (b : Bindings ν) : List (Σ _ : Bytes, ν) := b.reverse.map (fun e => ⟨e.1, e.2⟩)

/-- The bindings are those of the map, in its order. -/
def Bindings.Same (b : Bindings ν) (t : KvTable ν) : Prop := t.db.entries = b.records

/-- The keys of the map, in the order of the bindings. -/
theorem Bindings.Same.keys_eq {t : KvTable ν} (h : b.Same t) :
    t.db.entries.keys = (b.map Prod.fst).reverse := by
  rw [h, Bindings.records, List.keys, List.map_map, ← List.map_reverse]
  rfl

/-- No key has two bindings. -/
theorem Bindings.Same.nodup {t : KvTable ν} (h : b.Same t) : (b.map Prod.fst).Nodup := by
  have hkeys : t.db.entries.keys.Nodup := t.db.nodupKeys
  rw [h.keys_eq] at hkeys
  exact List.nodup_reverse.1 hkeys

/-- A key has the binding that the map has for it. -/
theorem Bindings.Same.get {t : KvTable ν} (h : b.Same t) (k : Bytes) :
    b.get k = t.db.lookup k := by
  ext v
  have hentry : (⟨k, v⟩ : Σ _ : Bytes, ν) ∈ t.db.entries ↔ (k, v) ∈ b := by
    rw [h, Bindings.records, List.mem_map]
    constructor
    · rintro ⟨e, he, heq⟩
      cases heq
      exact List.mem_reverse.1 he
    · exact fun he => ⟨(k, v), List.mem_reverse.2 he, rfl⟩
  rw [← Option.mem_def (a := v) (b := t.db.lookup k), AList.mem_lookup_iff, hentry,
    Bindings.mem_iff h.nodup]

/-- **One call** keeps them the same, in one order. -/
theorem Bindings.call_same {t : KvTable ν} (h : b.Same t) (c : TableCall ν) :
    (b.call c).1 = (t.call c).1 ∧ (b.call c).2.Same (t.call c).2 := by
  cases c with
  | get key => exact ⟨congrArg TableAnswer.val (h.get key.str), h⟩
  | add key val =>
      unfold Bindings.call KvTable.call KvTable.tableAdd
      dsimp only
      by_cases hk : key.str = []
      · rw [if_pos hk, if_pos hk]
        exact ⟨rfl, h⟩
      · rw [if_neg hk, if_neg hk]
        refine ⟨rfl, ?_⟩
        have hmem : key.str ∈ t.db.entries.keys ↔ key.str ∈ b.map Prod.fst := by
          rw [h.keys_eq, List.mem_reverse]
        show Buckets.storeEntry key.str val t.db.entries = (b.set key.str val).records
        unfold Bindings.set
        split
        · next hold =>
            -- the key keeps its place
            rw [Buckets.storeEntry_of_mem (hmem.2 hold) t.db.nodupKeys, h, Bindings.records,
              Bindings.records, ← List.map_reverse, List.map_map, List.map_map]
            refine List.map_congr_left (fun e _ => ?_)
            dsimp only [Function.comp_apply]
            split <;> rfl
        · next hnew =>
            -- the new key goes behind all others
            have hnone : t.db.lookup key.str = none :=
              AList.lookup_eq_none.2 (fun hin => hnew (hmem.1 hin))
            have hlast := Buckets.entries_store (v := val) hnone
            rw [Bindings.records, List.reverse_cons, List.map_append, ← Bindings.records, ← h]
            exact hlast
  | del key =>
      refine ⟨congrArg TableAnswer.val (h.get key.str), ?_⟩
      show t.db.entries.kerase key.str = (b.remove key.str).records
      rw [Buckets.kerase_eq_filter t.db.nodupKeys, h, Bindings.records, Bindings.records,
        Bindings.remove, ← List.filter_reverse, List.filter_map]
      rfl

theorem Bindings.answers_same :
    ∀ (cs : List (TableCall ν)) (b : Bindings ν) (t : KvTable ν), b.Same t →
      (answers Bindings.call b cs).1 = (answers KvTable.call t cs).1 ∧
      (answers Bindings.call b cs).2.Same (answers KvTable.call t cs).2 := by
  intro cs
  induction cs with
  | nil =>
      intro b t h
      exact ⟨rfl, h⟩
  | cons c cs ih =>
      intro b t h
      obtain ⟨hout, hsame⟩ := Bindings.call_same h c
      obtain ⟨houts, hsames⟩ := ih _ _ hsame
      unfold answers
      dsimp only
      rw [hout, houts]
      exact ⟨rfl, hsames⟩

theorem Bindings.nil_same : Bindings.Same ([] : Bindings ν) .tableAlloc := rfl

/-- The map is visited in the order of the cursor. -/
theorem Bindings.Same.visited {t : KvTable ν} (h : b.Same t) (key : Bytes) :
    t.visited key = b.reverse.map Prod.snd := by
  rw [KvTable.visited_eq, h, Bindings.records, List.map_map]
  rfl

/-- **The engine is an exact map** as long as the allocator refuses nothing, and `table_each`
goes over both in one order. -/
theorem memTable_agrees (N : NodeRep ν) (calls : List (MemBackend × TableCall ν))
    (hfew : calls.length < 2 ^ 32)
    (hgrants : Meets (fun db c => ¬ c.1.Refuses db.pEngine) (memTableCall N) unqliteOpen calls) :
    ∃ db b, run (memTableCall N) unqliteOpen calls =
        .ok ((answers KvTable.call .tableAlloc (calls.map Prod.snd)).1, db) ∧
      db.Stands N b ∧ ∀ key,
        (answers KvTable.call .tableAlloc (calls.map Prod.snd)).2.visited key =
          b.reverse.map Prod.snd := by
  obtain ⟨outs, db, cells, b, hrun, hrep, -, hexact, -⟩ :=
    memTable_run (N := N) calls unqliteOpen [] [] unqliteOpen_rep (by simpa using hfew)
  obtain ⟨hanswers, hsame⟩ := Bindings.answers_same (calls.map Prod.snd) [] _ Bindings.nil_same
  rw [hexact hgrants] at hanswers hsame
  refine ⟨db, b, ?_, ⟨cells, hrep⟩, fun key => ?_⟩
  · rw [← hanswers]
    exact hrun
  · exact hsame.visited key

/-- Two keys; the older one is looked up and the newer one deleted. -/
theorem memTable_agrees_sample :
    ∃ db b, run (memTableCall pointerRep) unqliteOpen
        ([.add (stringA 1) 7, .add (stringB 2) 8, .get (stringA 3), .del (stringB 4)].map
          (fun c => (MemBackend.pool 4, c))) =
        .ok ([.status 0, .status 0, .val (some 7), .val (some 8)], db) ∧
      db.Stands pointerRep b ∧ [7] = b.reverse.map Prod.snd := by
  obtain ⟨db, b, hrun, hstands, hvisited⟩ := memTable_agrees pointerRep
    ([.add (stringA 1) 7, .add (stringB 2) 8, .get (stringA 3), .del (stringB 4)].map
      (fun c => (MemBackend.pool 4, c))) (by decide)
    (memTable_pool pointerRep _ _ [] [] unqliteOpen_rep (by decide) (by decide))
  exact ⟨db, b, hrun, hstands, hvisited []⟩

/-! ## Memory -/

/-- **Nothing is leaked.**  The blocks in use are one record and one block of data for
each binding. -/
theorem memTable_blocks (N : NodeRep ν) (calls : List (MemBackend × TableCall ν))
    (hfew : calls.length < 2 ^ 32) :
    ∃ outs db b, run (memTableCall N) unqliteOpen calls = .ok (outs, db) ∧
      Bindings.Run [] (calls.map Prod.snd) outs b ∧
      {a | (db.pEngine.records a).isSome}.ncard = b.length ∧
      {a | (db.pEngine.blobs a).isSome}.ncard = b.length := by
  obtain ⟨outs, db, cells, b, hrun, hrep, hruns, -, -⟩ :=
    memTable_run (N := N) calls unqliteOpen [] [] unqliteOpen_rep (by simpa using hfew)
  have hf := hrep.holds.filled
  have hcard : ∀ {β : Type} {h : Heap β} {as : List Ptr}, as.Nodup →
      (∀ a, (h a).isSome ↔ a ∈ as) → {a | (h a).isSome}.ncard = as.length := by
    intro β h as hnd hmem
    have hset : {a | (h a).isSome} = (as.toFinset : Set Ptr) := by
      ext a
      simp [hmem]
    rw [hset, Set.ncard_coe_finset, List.toFinset_card_of_nodup hnd]
  refine ⟨outs, db, b, hrun, hruns, ?_, ?_⟩
  · rw [hcard hf.addrs hf.live, List.length_map, hrep.length_eq]
  · rw [hcard hf.own hf.used, List.length_map, hrep.length_eq]

theorem memTable_blocks_sample :
    ∃ outs db b, run (memTableCall pointerRep) unqliteOpen
        [(.pool 1, .add (stringA 1) 7), (.pool 1, .add (stringB 2) 8),
          (.pool 1, .del (stringA 3))] = .ok (outs, db) ∧
      Bindings.Run [] [.add (stringA 1) 7, .add (stringB 2) 8, .del (stringA 3)] outs b ∧
      {a | (db.pEngine.records a).isSome}.ncard = b.length ∧
      {a | (db.pEngine.blobs a).isSome}.ncard = b.length :=
  memTable_blocks pointerRep
    [(.pool 1, .add (stringA 1) 7), (.pool 1, .add (stringB 2) 8), (.pool 1, .del (stringA 3))]
    (by decide)

/-- **The chains stay short.**  Where there is room for the arrays of buckets, there are
fewer than four records for each bucket, up to `2 ^ 17` records. -/
theorem memTable_spread (N : NodeRep ν) (calls : List (MemBackend × TableCall ν))
    (hfew : calls.length < 2 ^ 32) (hroom : ∀ c ∈ calls, ∀ n, c.1.table n = true) :
    ∃ outs db b, run (memTableCall N) unqliteOpen calls = .ok (outs, db) ∧
      Bindings.Run [] (calls.map Prod.snd) outs b ∧
      (b.length < 2 ^ 17 → b.length < 4 * db.pEngine.apBucket.length) := by
  obtain ⟨outs, db, cells, b, hrun, hrep, hruns, -, hspread⟩ :=
    memTable_run (N := N) calls unqliteOpen [] [] unqliteOpen_rep (by simpa using hfew)
  have hs : db.pEngine.Spread := hspread hroom (.inl (by decide))
  refine ⟨outs, db, b, hrun, hruns, fun hlt => ?_⟩
  have hcount := hrep.holds.count
  have hlen := hrep.length_eq
  have hsize := hrep.holds.size
  unfold MemHashEngine.Spread at hs
  rw [hsize]
  omega

theorem memTable_spread_sample :
    ∃ outs db b, run (memTableCall pointerRep) unqliteOpen
        [(.pool 2, .add (stringA 1) 7), (.pool 2, .add (stringB 2) 8)] = .ok (outs, db) ∧
      Bindings.Run [] [.add (stringA 1) 7, .add (stringB 2) 8] outs b ∧
      (b.length < 2 ^ 17 → b.length < 4 * db.pEngine.apBucket.length) :=
  memTable_spread pointerRep [(.pool 2, .add (stringA 1) 7), (.pool 2, .add (stringB 2) 8)]
    (by decide) (by
      intro c hc n
      rcases List.mem_cons.1 hc with heq | hc
      · subst heq
        rfl
      · rw [List.mem_singleton.1 hc]
        rfl)

end MonkeyCache
