import MonkeyCache.Kernel
import MonkeyCache.Lib.Buckets
import MonkeyCache.Lib.Simulation

/-!
# The hash table of `ht.c`

A table of chains.  A key is a pointer to a string; the table keeps the pointer,
and its caller keeps the string as it is until `table_del`.  So a node holds the
address and the string behind it.

`table_del` has one piece of code for the head of a chain and one for the rest.
The second one looks for a node whose string *differs*: it lacks the `== 0` of
the first.  And where the chain is empty, it returns with the mutex locked.
`Fits` says of a call that it does not run into either, and then the table is a
finite map (`ht_finite_map`).

* `HashTable.Represents` — a table and the bindings it stands for.
* `tableGet_eq`, `tableAdd_represents`, `tableDel_represents` — one call each.
* `ht_finite_map` — every list of calls that fit is answered as by a finite map.
-/

namespace MonkeyCache

open Buckets Simulation

variable {ν : Type}

/-! ## The code -/

/-- The bytes of a string, without its terminator. -/
abbrev Bytes := List Byte

/-- A `const char *` and the string it points to. -/
structure CStr where
  addr : Nat
  str : Bytes
  deriving DecidableEq, Repr

/-- `struct node_t` of `ht.c`; `next` is the rest of the chain. -/
structure HtNode (ν : Type) where
  key : CStr
  val : ν

/-- `struct table_t` of `ht.c`, with `table_mutex`. -/
structure HashTable (ν : Type) where
  store : Nat → List (HtNode ν)
  size : Nat
  /-- `table_mutex` is held -/
  locked : Bool

/-- `HT_MIN_SIZE` -/
def htMinSize : Nat := 8192

/-- `key_hash`; `h` is an `unsigned int`. -/
def keyHash (key : Bytes) (max : Nat) : Nat :=
  (key.foldl (fun h p => 37 * h + p.toUInt32) (0 : UInt32)).toNat % max

/-- `table_alloc` -/
def HashTable.tableAlloc : HashTable ν where
  store _ := []
  size := htMinSize
  locked := false

/-- `node->key == key || strcmp(node->key, key) == 0` -/
def HtNode.matches (node : HtNode ν) (key : CStr) : Bool :=
  node.key.addr = key.addr ∨ node.key.str = key.str

/-- `table_get` -/
def HashTable.tableGet (t : HashTable ν) (key : CStr) : Option ν :=
  ((t.store (keyHash key.str t.size)).find? (fun node => node.matches key)).map HtNode.val

/-- `table_add`: the new node becomes the head of its chain. -/
def HashTable.tableAdd (t : HashTable ν) (key : CStr) (val : ν) :
    Except Fault (Int × HashTable ν) :=
  if t.locked then .error .deadlock
  else
    let hash := keyHash key.str t.size
    .ok (0, { t with store := Function.update t.store hash (⟨key, val⟩ :: t.store hash) })

/-- The loop of `table_del` over the chain behind its head: what was deleted and
the chain without it.  The test is
`node->key == key || strcmp(node->key, key)`. -/
def delRest (key : CStr) : List (HtNode ν) → Option ν × List (HtNode ν)
  | [] => (none, [])
  | node :: rest =>
    if node.key.addr = key.addr ∨ node.key.str ≠ key.str then (some node.val, rest)
    else
      let out := delRest key rest
      (out.1, node :: out.2)

/-- `table_del`; an empty chain is left with the mutex locked. -/
def HashTable.tableDel (t : HashTable ν) (key : CStr) : Except Fault (Option ν × HashTable ν) :=
  if t.locked then .error .deadlock
  else
    let hash := keyHash key.str t.size
    match t.store hash with
    | [] => .ok (none, { t with locked := true })
    | node :: rest =>
      if node.matches key then
        .ok (some node.val, { t with store := Function.update t.store hash rest })
      else
        let out := delRest key rest
        .ok (out.1, { t with store := Function.update t.store hash (node :: out.2) })

/-- `table_each`: the callback gets the key, the value and its state. -/
def HashTable.tableEach {σ : Type} (t : HashTable ν) (cb : Bytes → ν → σ → σ) (state : σ) : σ :=
  (List.range t.size).foldl (fun state i =>
    (t.store i).foldl (fun state node => cb node.key.str node.val state) state) state

/-! ## Calls -/

/-- A call of `ht.h`. -/
inductive TableCall (ν : Type)
  | get (key : CStr)
  | add (key : CStr) (val : ν)
  | del (key : CStr)
  deriving DecidableEq

/-- What a call returns: a value, `NULL` being `none`, or a status. -/
inductive TableAnswer (ν : Type)
  | val (v : Option ν)
  | status (ret : Int)
  deriving DecidableEq

/-- One call on `ht.c`. -/
def HashTable.call (t : HashTable ν) :
    TableCall ν → Except Fault (TableAnswer ν × HashTable ν)
  | .get key => .ok (.val (t.tableGet key), t)
  | .add key val =>
    match t.tableAdd key val with
    | .error e => .error e
    | .ok (ret, t) => .ok (.status ret, t)
  | .del key =>
    match t.tableDel key with
    | .error e => .error e
    | .ok (val, t) => .ok (.val val, t)

/-- One call on a finite map. -/
def mapCall (m : Bytes → Option ν) : TableCall ν → TableAnswer ν × (Bytes → Option ν)
  | .get key => (.val (m key.str), m)
  | .add key val => (.status 0, Function.update m key.str (some val))
  | .del key => (.val (m key.str), Function.update m key.str none)

/-- The key of a call. -/
def TableCall.key : TableCall ν → CStr
  | .get key => key
  | .add key _ => key
  | .del key => key

/-- What `ht.h` asks of its callers: a node still has the string it was added
with, so the same pointer is the same string. -/
def HashTable.SameStrings (t : HashTable ν) (key : CStr) : Prop :=
  ∀ i, ∀ node ∈ t.store i, node.key.addr = key.addr → node.key.str = key.str

/-- A call as the constructors of files make it: a key is added only when it is
absent. -/
def HashTable.Proper (t : HashTable ν) : TableCall ν → Prop
  | .get key => t.SameStrings key
  | .add key _ => t.SameStrings key ∧ t.tableGet key = none
  | .del key => t.SameStrings key

/-- **When `table_del` is right.**  The chain is not empty, and its head has the
key, or there is no other node, or the second node has the very pointer. -/
def HashTable.Fits (t : HashTable ν) : TableCall ν → Prop
  | .del key =>
    match t.store (keyHash key.str t.size) with
    | [] => False
    | node :: rest =>
      node.matches key ∨
        match rest with
        | [] => True
        | second :: _ => second.key.addr = key.addr
  | _ => True

/-! ## A table and its bindings -/

/-- The bindings that the nodes of the table are. -/
def HashTable.bindings (t : HashTable ν) : List (Σ _ : Bytes, ν) :=
  (contents t.size t.store).map (fun node => ⟨node.key.str, node.val⟩)

/-- The table stands for the bindings `l`: every node is in the chain of its key,
and the nodes are these bindings in some order. -/
structure HashTable.Represents (t : HashTable ν) (l : AList (fun _ : Bytes => ν)) : Prop where
  unlocked : t.locked = false
  size_pos : 0 < t.size
  hashed : ∀ i, ∀ node ∈ t.store i, keyHash node.key.str t.size = i
  bindings : t.bindings.Perm l.entries

theorem keyHash_lt {t : HashTable ν} (h : 0 < t.size) (key : Bytes) : keyHash key t.size < t.size :=
  Nat.mod_lt _ h

theorem HashTable.tableAlloc_represents : (tableAlloc : HashTable ν).Represents ∅ where
  unlocked := rfl
  size_pos := show 0 < htMinSize by decide
  hashed i node hnode := by simp [tableAlloc] at hnode
  bindings := by simp [HashTable.bindings, tableAlloc, contents]

theorem HashTable.tableAlloc_sameStrings (key : CStr) :
    (tableAlloc : HashTable ν).SameStrings key := by
  intro i node hnode
  cases hnode

variable {t : HashTable ν} {l : AList (fun _ : Bytes => ν)} {key : CStr}

/-- A binding is a node in the chain of its key. -/
theorem HashTable.Represents.mem_iff (h : t.Represents l) {k : Bytes} {v : ν} :
    l.lookup k = some v ↔
      ∃ node ∈ t.store (keyHash k t.size), node.key.str = k ∧ node.val = v := by
  rw [← Option.mem_def, AList.mem_lookup_iff, ← h.bindings.mem_iff]
  unfold HashTable.bindings
  rw [List.mem_map]
  constructor
  · intro hmem
    obtain ⟨node, hnode, heq⟩ := hmem
    obtain ⟨i, hi, hmem⟩ := mem_contents.1 hnode
    cases heq
    exact ⟨node, by rw [h.hashed i node hmem]; exact hmem, rfl, rfl⟩
  · intro hnode
    obtain ⟨node, hnode, rfl, rfl⟩ := hnode
    exact ⟨node, mem_contents.2 ⟨_, keyHash_lt h.size_pos _, hnode⟩, rfl⟩

/-- Where pointers tell the truth, a node matches by its string. -/
theorem HashTable.SameStrings.matches_iff (h : t.SameStrings key) {i : Nat} {node : HtNode ν}
    (hnode : node ∈ t.store i) : node.matches key = true ↔ node.key.str = key.str := by
  unfold HtNode.matches
  rw [decide_eq_true_iff]
  exact ⟨fun hor => hor.elim (h i node hnode) id, .inr⟩

/-! ## The calls -/

/-- **Look-up.** -/
theorem HashTable.tableGet_eq (h : t.Represents l) (hkey : t.SameStrings key) :
    t.tableGet key = l.lookup key.str := by
  unfold tableGet
  cases hfind : (t.store (keyHash key.str t.size)).find? (fun node => node.matches key) with
  | some node =>
      have hmem := List.mem_of_find?_eq_some hfind
      have hmatch : node.matches key = true :=
        List.find?_some (p := fun node : HtNode ν => node.matches key) hfind
      have hstr := (hkey.matches_iff hmem).1 hmatch
      exact (h.mem_iff.2 ⟨node, hmem, hstr, rfl⟩).symm
  | none =>
      cases hlook : l.lookup key.str with
      | none => rfl
      | some v =>
          obtain ⟨node, hmem, hstr, _⟩ := h.mem_iff.1 hlook
          have hno := List.find?_eq_none.1 hfind node hmem
          exact absurd ((hkey.matches_iff hmem).2 hstr) hno

/-- **Adding** a key that is absent. -/
theorem HashTable.tableAdd_represents (h : t.Represents l) (hnone : l.lookup key.str = none)
    (val : ν) :
    ∃ t', t.tableAdd key val = .ok (0, t') ∧ t'.Represents (Buckets.store key.str val l) := by
  obtain ⟨chain, hchain⟩ : ∃ chain, chain = t.store (keyHash key.str t.size) := ⟨_, rfl⟩
  refine ⟨{ t with
      store := Function.update t.store (keyHash key.str t.size) (⟨key, val⟩ :: chain) },
    ?_, h.unlocked, h.size_pos, ?_, ?_⟩
  · simp [tableAdd, h.unlocked, hchain]
  · intro i node hnode
    dsimp only at hnode ⊢
    by_cases hi : i = keyHash key.str t.size
    · subst hi
      rw [Function.update_self, hchain] at hnode
      rcases List.mem_cons.1 hnode with rfl | hnode
      · rfl
      · exact h.hashed _ node hnode
    · rw [Function.update_of_ne hi] at hnode
      exact h.hashed i node hnode
  · have hpush := (contents_push (keyHash_lt h.size_pos key.str) t.store ⟨key, val⟩).map
      (fun node : HtNode ν => (⟨node.key.str, node.val⟩ : Σ _ : Bytes, ν))
    rw [entries_store hnone, hchain]
    exact (hpush.trans (h.bindings.cons _)).trans (List.perm_append_singleton _ _).symm

/-- A node leaves its chain, and its binding goes. -/
theorem HashTable.Represents.remove (h : t.Represents l) {i : Nat} {node : HtNode ν}
    {rest : List (HtNode ν)} (hi : i < t.size) (hrest : (t.store i).Perm (node :: rest)) :
    l.lookup node.key.str = some node.val ∧
      HashTable.Represents { t with store := Function.update t.store i rest }
        (l.erase node.key.str) := by
  have hmem : node ∈ t.store i := hrest.mem_iff.2 List.mem_cons_self
  have hlook : l.lookup node.key.str = some node.val :=
    h.mem_iff.2 ⟨node, by rw [h.hashed i node hmem]; exact hmem, rfl, rfl⟩
  refine ⟨hlook, h.unlocked, h.size_pos, ?_, ?_⟩
  · intro j other hother
    dsimp only at hother ⊢
    by_cases hj : j = i
    · subst hj
      rw [Function.update_self] at hother
      exact h.hashed j other (hrest.mem_iff.2 (List.mem_cons_of_mem node hother))
    · rw [Function.update_of_ne hj] at hother
      exact h.hashed j other hother
  · have hlost := (contents_update hi hrest).map
      (fun node : HtNode ν => (⟨node.key.str, node.val⟩ : Σ _ : Bytes, ν))
    have hsame := (hlost.symm.trans h.bindings).trans (entries_erase hlook)
    exact List.Perm.cons_inv hsame

/-- **Deleting**, where the call fits. -/
theorem HashTable.tableDel_represents (h : t.Represents l) (hkey : t.SameStrings key)
    (hfits : t.Fits (.del key)) :
    ∃ t', t.tableDel key = .ok (l.lookup key.str, t') ∧ t'.Represents (l.erase key.str) := by
  have hlt := keyHash_lt h.size_pos key.str
  unfold Fits at hfits
  dsimp only at hfits
  unfold tableDel
  rw [if_neg (by simp [h.unlocked])]
  dsimp only
  cases hchain : t.store (keyHash key.str t.size) with
  | nil =>
      rw [hchain] at hfits
      exact hfits.elim
  | cons node rest =>
      rw [hchain] at hfits
      dsimp only at hfits ⊢
      have hmem : node ∈ t.store (keyHash key.str t.size) := by
        rw [hchain]
        exact List.mem_cons_self
      by_cases hhead : node.matches key = true
      · -- the head has the key
        have hstr := (hkey.matches_iff hmem).1 hhead
        obtain ⟨hlook, hrep⟩ := h.remove hlt (.of_eq hchain)
        rw [if_pos hhead, ← hstr, hlook]
        rw [← hstr] at hrep
        exact ⟨_, rfl, hrep⟩
      · rw [if_neg hhead]
        cases rest with
        | nil =>
            -- there is no other node, so the key is absent
            have hnone : l.lookup key.str = none := by
              rw [← HashTable.tableGet_eq h hkey]
              simp [tableGet, hchain, hhead]
            have hsame : Function.update t.store (keyHash key.str t.size) [node] = t.store := by
              rw [← hchain, Function.update_eq_self]
            refine ⟨t, ?_, ?_⟩
            · simp [delRest, hsame, hnone]
            · rw [erase_of_lookup hnone]
              exact h
        | cons second more =>
            -- the second node has the pointer
            have haddr : second.key.addr = key.addr := hfits.resolve_left hhead
            have hstr : second.key.str = key.str :=
              hkey _ second (by rw [hchain]; simp) haddr
            obtain ⟨hlook, hrep⟩ := h.remove hlt
              ((List.Perm.of_eq hchain).trans (List.Perm.swap second node more))
            rw [hstr] at hlook hrep
            refine ⟨_, ?_, hrep⟩
            simp [delRest, haddr, hlook]

/-! ## Lists of calls -/

/-- The table stands for the bindings of the map `m`. -/
def HashTable.Maps (t : HashTable ν) (m : Bytes → Option ν) : Prop :=
  ∃ l : AList (fun _ : Bytes => ν), t.Represents l ∧ ∀ k, m k = l.lookup k

/-- **One call.** -/
theorem HashTable.call_simulates :
    Simulates (fun (t : HashTable ν) c => t.Proper c ∧ t.Fits c) call mapCall Maps := by
  intro t m c hmaps hcall
  obtain ⟨l, hrep, hm⟩ := hmaps
  obtain ⟨hproper, hfits⟩ := hcall
  cases c with
  | get key =>
      refine ⟨t, ?_, l, hrep, hm⟩
      unfold call mapCall
      dsimp only
      rw [hm, tableGet_eq hrep hproper]
  | add key val =>
      obtain ⟨hkey, hnone⟩ := hproper
      rw [tableGet_eq hrep hkey] at hnone
      obtain ⟨t', hadd, hrep'⟩ := tableAdd_represents hrep hnone val
      refine ⟨t', ?_, _, hrep', ?_⟩
      · unfold call
        dsimp only
        rw [hadd]
        rfl
      · intro k
        by_cases hk : k = key.str
        · subst hk
          simp [mapCall, lookup_store]
        · simp only [mapCall, Function.update_of_ne hk, hm]
          exact (lookup_store_ne hk).symm
  | del key =>
      obtain ⟨t', hdel, hrep'⟩ := tableDel_represents hrep hproper hfits
      refine ⟨t', ?_, _, hrep', ?_⟩
      · unfold call mapCall
        dsimp only
        rw [hdel, hm]
      · intro k
        by_cases hk : k = key.str
        · subst hk
          simp [mapCall]
        · simp only [mapCall, Function.update_of_ne hk, hm]
          exact (AList.lookup_erase_ne hk).symm

/-- **A finite map.**  Calls that fit are answered as by a finite map, which the
table stands for after them. -/
theorem ht_finite_map {calls : List (TableCall ν)}
    (h : Meets (fun t c => t.Proper c ∧ t.Fits c) HashTable.call .tableAlloc calls) :
    ∃ t, run HashTable.call .tableAlloc calls =
        .ok ((answers mapCall (fun _ => none) calls).1, t) ∧
      ∀ key, t.SameStrings key →
        t.tableGet key = (answers mapCall (fun _ => none) calls).2 key.str := by
  have hinit : (HashTable.tableAlloc : HashTable ν).Maps (fun _ => none) :=
    ⟨∅, HashTable.tableAlloc_represents, fun _ => rfl⟩
  obtain ⟨t, hrun, l, hrep, hm⟩ := HashTable.call_simulates.run calls _ _ hinit h
  refine ⟨t, hrun, ?_⟩
  intro key hkey
  rw [HashTable.tableGet_eq hrep hkey, hm]

/-! ## Two strings of one chain -/

/-- `"aU"` and `"b0"`, which have the same hash, at the address `addr`. -/
def stringA (addr : Nat) : CStr := ⟨addr, [97, 85]⟩
def stringB (addr : Nat) : CStr := ⟨addr, [98, 48]⟩

theorem HashTable.SameStrings.tableAdd {key' : CStr} {val : ν} (h : t.SameStrings key)
    (hnew : key'.addr = key.addr → key'.str = key.str) {ret : Int} {t' : HashTable ν}
    (hadd : t.tableAdd key' val = .ok (ret, t')) : t'.SameStrings key := by
  unfold HashTable.tableAdd at hadd
  split at hadd
  · cases hadd
  · cases hadd
    intro i node hnode
    dsimp only at hnode
    by_cases hi : i = keyHash key'.str t.size
    · rw [hi, Function.update_self] at hnode
      rcases List.mem_cons.1 hnode with rfl | hnode
      · exact hnew
      · exact h _ node hnode
    · rw [Function.update_of_ne hi] at hnode
      exact h i node hnode

/-- A key that is added, found and deleted through different pointers. -/
theorem ht_finite_map_sample :
    ∃ t, run HashTable.call .tableAlloc
      [.add (stringA 1) 7, .add (stringB 2) 8, .get (stringA 3), .del (stringB 4)] =
        .ok ([.status 0, .status 0, .val (some 7), .val (some 8)], t) := by
  have halloc : ∀ key, (HashTable.tableAlloc : HashTable Nat).SameStrings key :=
    HashTable.tableAlloc_sameStrings
  have hmeets : Meets (fun t c => t.Proper c ∧ t.Fits c) HashTable.call .tableAlloc
      [.add (stringA 1) 7, .add (stringB 2) 8, .get (stringA 3), .del (stringB 4)] := by
    refine ⟨⟨⟨halloc _, rfl⟩, trivial⟩, ?_⟩
    intro _ _ heq
    cases heq
    refine ⟨⟨⟨(halloc _).tableAdd (by decide) rfl, rfl⟩, trivial⟩, ?_⟩
    intro _ _ heq
    cases heq
    refine ⟨⟨((halloc _).tableAdd (by decide) rfl).tableAdd (by decide) rfl, trivial⟩, ?_⟩
    intro _ _ heq
    cases heq
    refine ⟨⟨((halloc _).tableAdd (by decide) rfl).tableAdd (by decide) rfl, .inl rfl⟩, ?_⟩
    intro _ _ heq
    cases heq
    trivial
  obtain ⟨t, hrun, _⟩ := ht_finite_map hmeets
  exact ⟨t, hrun⟩

/-- The node behind the head is not found by its own string. -/
theorem second_node_kept :
    ∃ calls : List (TableCall Nat),
      Meets HashTable.Proper HashTable.call .tableAlloc calls ∧
        ∀ t, run HashTable.call .tableAlloc calls ≠
          .ok ((answers mapCall (fun _ => none) calls).1, t) := by
  have halloc : ∀ key, (HashTable.tableAlloc : HashTable Nat).SameStrings key :=
    HashTable.tableAlloc_sameStrings
  refine ⟨[.add (stringA 1) 7, .add (stringB 2) 8, .del (stringA 3)], ?_, ?_⟩
  · refine ⟨⟨halloc _, rfl⟩, ?_⟩
    intro _ _ heq
    cases heq
    refine ⟨⟨(halloc _).tableAdd (by decide) rfl, rfl⟩, ?_⟩
    intro _ _ heq
    cases heq
    refine ⟨((halloc _).tableAdd (by decide) rfl).tableAdd (by decide) rfl, ?_⟩
    intro _ _ heq
    cases heq
    trivial
  · intro t hrun
    have hnull : (run HashTable.call .tableAlloc
        [.add (stringA 1) 7, .add (stringB 2) 8, .del (stringA 3)]).map Prod.fst =
          .ok [.status 0, .status 0, .val none] := rfl
    rw [hrun] at hnull
    cases hnull

end MonkeyCache
