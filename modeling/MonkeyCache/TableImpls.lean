import MonkeyCache.HashTable
import MonkeyCache.Lib.Memory

/-!
# `ht.c` and `unqlite_ht.c`

Both files implement `ht.h`.  The second one keeps its bindings in a key-value
store; `unqlite_kv_store`, `unqlite_kv_fetch` and `unqlite_kv_delete` are taken
to be insert-or-replace, look-up and remove on an exact map, and the cursor to
visit every record once, the oldest one first.  What its callback gets for a key
is another matter.

A key that is added twice has two nodes in `ht.c`, and the older one comes back
when the newer one is deleted; so the two differ there, and where `table_del`
does not fit (`HashTable.Fits`).  Everywhere else they cannot be told apart
(`tables_agree`).
-/

namespace MonkeyCache

open Buckets Simulation Memory

variable {ν : Type}

/-! ## `unqlite_ht.c` -/

/-- `struct table_t` of `unqlite_ht.c`: the store behind `db`, in the order of its cursor. -/
structure KvTable (ν : Type) where
  db : AList (fun _ : Bytes => ν)

/-- `table_alloc` -/
def KvTable.tableAlloc : KvTable ν where
  db := ∅

/-- `table_get` -/
def KvTable.tableGet (t : KvTable ν) (key : CStr) : Option ν := t.db.lookup key.str

/-- `table_add`; the store refuses the empty key. -/
def KvTable.tableAdd (t : KvTable ν) (key : CStr) (val : ν) : Int × KvTable ν :=
  if key.str = [] then (-1, t) else (0, { db := Buckets.store key.str val t.db })

/-- `table_del`: the value is looked up first. -/
def KvTable.tableDel (t : KvTable ν) (key : CStr) : Option ν × KvTable ν :=
  let data := t.tableGet key
  (data, { db := t.db.erase key.str })

/-- The length of `char key[len]` in `table_each`. -/
def keyBufLen : Nat := 1024

/-- `unqlite_kv_cursor_key(cursor, buf, &len)`: at most `len` bytes of the key are
copied, without a terminator, and their number is stored in `len`. -/
def cursorKey (key buf : Bytes) (len : Nat) : Bytes × Nat :=
  (overwrite buf 0 (key.take len), min key.length len)

/-- The loop of `table_each` over the records that the cursor has yet to visit;
`key` and `len` are its variables, which all rounds share.  The callback gets the
string that `key` holds. -/
def eachRecord {σ : Type} (cb : Bytes → ν → σ → σ) :
    List (Σ _ : Bytes, ν) → Bytes → Nat → σ → σ
  | [], _, _, state => state
  | node :: es, key, len, state =>
    let out := cursorKey node.1 key len
    eachRecord cb es out.1 out.2 (cb (cstr 0 out.1) node.2 state)

/-- `table_each`; `key` is what its buffer holds before anything was written. -/
def KvTable.tableEach {σ : Type} (t : KvTable ν) (key : Bytes) (cb : Bytes → ν → σ → σ)
    (state : σ) : σ :=
  eachRecord cb t.db.entries key keyBufLen state

/-- One call on `unqlite_ht.c`. -/
def KvTable.call (t : KvTable ν) : TableCall ν → TableAnswer ν × KvTable ν
  | .get key => (.val (t.tableGet key), t)
  | .add key val => (.status (t.tableAdd key val).1, (t.tableAdd key val).2)
  | .del key => (.val (t.tableDel key).1, (t.tableDel key).2)

/-! ## The values that `table_each` visits -/

/-- The callback that collects the values. -/
def collect (_ : Bytes) (val : ν) (seen : List ν) : List ν := seen ++ [val]

/-- The values `table_each` of `ht.c` visits. -/
def HashTable.visited (t : HashTable ν) : List ν := t.tableEach collect []

/-- The values `table_each` of `unqlite_ht.c` visits. -/
def KvTable.visited (t : KvTable ν) (key : Bytes) : List ν := t.tableEach key collect []

/-- A walk over a list collects what it meets. -/
theorem foldl_collect {α : Type} (key : α → Bytes) (val : α → ν) (xs : List α) (seen : List ν) :
    xs.foldl (fun seen x => collect (key x) (val x) seen) seen = seen ++ xs.map val := by
  induction xs generalizing seen with
  | nil => simp
  | cons x xs ih =>
      rw [List.foldl_cons, ih]
      simp [collect]

theorem HashTable.visited_eq (t : HashTable ν) :
    t.visited = (contents t.size t.store).map HtNode.val := by
  have hwalk : ∀ (is : List Nat) (seen : List ν),
      is.foldl (fun state i =>
        (t.store i).foldl (fun state node => collect node.key.str node.val state) state) seen =
        seen ++ (is.flatMap t.store).map HtNode.val := by
    intro is
    induction is with
    | nil => simp
    | cons i is ih =>
        intro seen
        rw [List.foldl_cons, foldl_collect (fun node : HtNode ν => node.key.str) HtNode.val, ih]
        simp
  exact hwalk _ []

/-- Whatever the keys look like, every value is visited once. -/
theorem eachRecord_collect (es : List (Σ _ : Bytes, ν)) (key : Bytes) (len : Nat) (seen : List ν) :
    eachRecord collect es key len seen = seen ++ es.map (fun node => node.2) := by
  induction es generalizing key len seen with
  | nil => simp [eachRecord]
  | cons node es ih =>
      unfold eachRecord
      dsimp only
      rw [ih]
      simp [collect]

theorem KvTable.visited_eq (t : KvTable ν) (key : Bytes) :
    t.visited key = t.db.entries.map (fun node => node.2) :=
  eachRecord_collect t.db.entries key keyBufLen []

/-- A table visits what the bindings it stands for hold. -/
theorem HashTable.Represents.visited {t : HashTable ν} {t' : KvTable ν} (h : t.Represents t'.db)
    (key : Bytes) : t.visited.Perm (t'.visited key) := by
  have hvals := h.bindings.map (fun node : Σ _ : Bytes, ν => node.2)
  rw [HashTable.visited_eq, KvTable.visited_eq]
  unfold HashTable.bindings at hvals
  rw [List.map_map] at hvals
  exact hvals

/-! ## The two of them -/

/-- **One call.** -/
theorem HashTable.call_agrees :
    Simulates (fun (t : HashTable ν) c => c.key.str ≠ [] ∧ t.Proper c ∧ t.Fits c)
      call KvTable.call (fun t t' => t.Represents t'.db) := by
  intro t t' c hrep hcall
  obtain ⟨hne, hproper, hfits⟩ := hcall
  cases c with
  | get key =>
      refine ⟨t, ?_, hrep⟩
      unfold call KvTable.call
      dsimp only
      rw [tableGet_eq hrep hproper]
      rfl
  | add key val =>
      obtain ⟨hkey, hnone⟩ := hproper
      rw [tableGet_eq hrep hkey] at hnone
      obtain ⟨s, hadd, hrep'⟩ := tableAdd_represents hrep hnone val
      have hstored : t'.tableAdd key val = (0, { db := Buckets.store key.str val t'.db }) := if_neg hne
      refine ⟨s, ?_, ?_⟩
      · unfold call KvTable.call
        dsimp only
        rw [hadd, hstored]
      · unfold KvTable.call
        dsimp only
        rw [hstored]
        exact hrep'
  | del key =>
      obtain ⟨s, hdel, hrep'⟩ := tableDel_represents hrep hproper hfits
      refine ⟨s, ?_, hrep'⟩
      unfold call KvTable.call
      dsimp only
      rw [hdel]
      rfl

/-- **Interchangeable tables.** -/
theorem tables_agree {calls : List (TableCall ν)}
    (h : Meets (fun t c => c.key.str ≠ [] ∧ t.Proper c ∧ t.Fits c) HashTable.call .tableAlloc
      calls) :
    ∃ t, run HashTable.call .tableAlloc calls =
        .ok ((answers KvTable.call .tableAlloc calls).1, t) ∧
      ∀ key, t.visited.Perm ((answers KvTable.call .tableAlloc calls).2.visited key) := by
  obtain ⟨t, hrun, hrep⟩ :=
    HashTable.call_agrees.run calls _ _ HashTable.tableAlloc_represents h
  exact ⟨t, hrun, hrep.visited⟩

/-- Two keys of one chain; the newer one is deleted. -/
theorem tables_agree_sample :
    ∃ t, run HashTable.call .tableAlloc
      [.add (stringA 1) 7, .add (stringB 2) 8, .get (stringB 3), .del (stringB 4)] =
        .ok ([.status 0, .status 0, .val (some 8), .val (some 8)], t) ∧ t.visited.Perm [7] := by
  have halloc : ∀ key, (HashTable.tableAlloc : HashTable Nat).SameStrings key :=
    HashTable.tableAlloc_sameStrings
  have hmeets : Meets (fun t c => c.key.str ≠ [] ∧ t.Proper c ∧ t.Fits c) HashTable.call
      (.tableAlloc : HashTable Nat)
      [.add (stringA 1) 7, .add (stringB 2) 8, .get (stringB 3), .del (stringB 4)] := by
    refine ⟨⟨by decide, ⟨halloc _, rfl⟩, trivial⟩, ?_⟩
    intro _ _ heq
    cases heq
    refine ⟨⟨by decide, ⟨(halloc _).tableAdd (by decide) rfl, rfl⟩, trivial⟩, ?_⟩
    intro _ _ heq
    cases heq
    refine ⟨⟨by decide, ((halloc _).tableAdd (by decide) rfl).tableAdd (by decide) rfl, trivial⟩,
      ?_⟩
    intro _ _ heq
    cases heq
    refine ⟨⟨by decide, ((halloc _).tableAdd (by decide) rfl).tableAdd (by decide) rfl, .inl rfl⟩,
      ?_⟩
    intro _ _ heq
    cases heq
    trivial
  obtain ⟨t, hrun, hvisited⟩ := tables_agree hmeets
  exact ⟨t, hrun, hvisited []⟩

/-- A key that is added twice comes back, and the second node of a chain is not
found by its own string. -/
theorem tables_differ :
    (run HashTable.call .tableAlloc
        [.add (stringA 1) 7, .add (stringA 2) 8, .del (stringA 3), .get (stringA 3)]).map Prod.fst ≠
      .ok (answers KvTable.call .tableAlloc
        [.add (stringA 1) 7, .add (stringA 2) 8, .del (stringA 3), .get (stringA 3)]).1 ∧
    (run HashTable.call .tableAlloc
        [.add (stringA 1) 7, .add (stringB 2) 8, .del (stringA 3)]).map Prod.fst ≠
      .ok (answers KvTable.call .tableAlloc
        [.add (stringA 1) 7, .add (stringB 2) 8, .del (stringA 3)]).1 := by
  constructor
  · have hback : (run HashTable.call .tableAlloc
        [.add (stringA 1) 7, .add (stringA 2) 8, .del (stringA 3), .get (stringA 3)]).map Prod.fst =
          .ok [.status 0, .status 0, .val (some 8), .val (some 7)] := rfl
    rw [hback]
    intro h
    cases h
  · have hnull : (run HashTable.call .tableAlloc
        [.add (stringA 1) 7, .add (stringB 2) 8, .del (stringA 3)]).map Prod.fst =
          .ok [.status 0, .status 0, .val none] := rfl
    rw [hnull]
    intro h
    cases h

end MonkeyCache
