import MonkeyCache.HashTable

/-!
# The nodes of the hash table

`table_del` may unlink a node that its caller did not mean, but whatever it
unlinks it returns.  So the table of `ht.c` loses and invents no node, for any
calls, keys that are added twice included (`nodes_kept`): each node stays in the
chain of its key, what `table_each` visits is what was added less what was
returned, and a look-up finds the newest node of its key.

The calls are made with `table_mutex` free (`callUnlocked`), whatever the last
one did to it.
-/

namespace MonkeyCache

open Buckets Simulation
open scoped List

variable {ν : Type} {t t' : HashTable ν} {key : CStr}

/-- One call; the mutex is free before it. -/
def HashTable.callUnlocked (t : HashTable ν) (c : TableCall ν) :
    Except Fault (TableAnswer ν × HashTable ν) :=
  HashTable.call { t with locked := false } c

/-- The callback that collects keys and values. -/
def collectEntry (key : Bytes) (val : ν) (seen : List (Bytes × ν)) : List (Bytes × ν) :=
  seen ++ [(key, val)]

/-- What `table_each` visits, in its order. -/
def HashTable.entries (t : HashTable ν) : List (Bytes × ν) := t.tableEach collectEntry []

/-- The values among `es` that are under `k`. -/
def valuesUnder (k : Bytes) (es : List (Bytes × ν)) : List ν :=
  (es.filter (fun e => e.1 = k)).map Prod.snd

/-- The keys and values that were added, the oldest first. -/
def addedEntries (calls : List (TableCall ν)) : List (Bytes × ν) :=
  calls.filterMap fun
    | .add key val => some (key.str, val)
    | _ => none

/-- The values other than `NULL` that `table_del` returned. -/
def deletedValues : List (TableCall ν) → List (TableAnswer ν) → List ν
  | .del _ :: cs, .val (some v) :: outs => v :: deletedValues cs outs
  | _ :: cs, _ :: outs => deletedValues cs outs
  | _, _ => []

/-- Every node is in the chain of its key. -/
def HashTable.Hashed (t : HashTable ν) : Prop :=
  ∀ i, ∀ node ∈ t.store i, i < t.size ∧ keyHash node.key.str t.size = i

/-! ## What is visited -/

theorem foldl_collectEntry (xs : List (HtNode ν)) (seen : List (Bytes × ν)) :
    xs.foldl (fun seen node => collectEntry node.key.str node.val seen) seen =
      seen ++ xs.map (fun node => (node.key.str, node.val)) := by
  induction xs generalizing seen with
  | nil => simp
  | cons x xs ih =>
      rw [List.foldl_cons, ih]
      simp [collectEntry]

theorem HashTable.entries_eq (t : HashTable ν) :
    t.entries = (contents t.size t.store).map (fun node => (node.key.str, node.val)) := by
  have hwalk : ∀ (is : List Nat) (seen : List (Bytes × ν)),
      is.foldl (fun state i => (t.store i).foldl
        (fun state node => collectEntry node.key.str node.val state) state) seen =
        seen ++ (is.flatMap t.store).map (fun node => (node.key.str, node.val)) := by
    intro is
    induction is with
    | nil => simp
    | cons i is ih =>
        intro seen
        rw [List.foldl_cons, foldl_collectEntry, ih]
        simp
  exact hwalk _ []

/-- The values under a key, in the order of its chain. -/
theorem HashTable.Hashed.valuesUnder_eq (h : t.Hashed) (hpos : 0 < t.size) (k : Bytes) :
    valuesUnder k t.entries =
      ((t.store (keyHash k t.size)).filter (fun node => node.key.str = k)).map HtNode.val := by
  have hone : (contents t.size t.store).filter (fun node => node.key.str = k) =
      (t.store (keyHash k t.size)).filter (fun node => node.key.str = k) := by
    apply filter_contents (keyHash_lt hpos k)
    intro j node hnode hk
    rw [← (h j node hnode).2, of_decide_eq_true hk]
  unfold valuesUnder
  rw [HashTable.entries_eq, List.filter_map, List.map_map, ← hone]
  rfl

/-- **Look-up.**  The first value under the key. -/
theorem HashTable.Hashed.tableGet_eq (h : t.Hashed) (hpos : 0 < t.size)
    (hkey : t.SameStrings key) : t.tableGet key = (valuesUnder key.str t.entries).head? := by
  have hfind : (t.store (keyHash key.str t.size)).find? (fun node => node.matches key) =
      (t.store (keyHash key.str t.size)).find? (fun node => node.key.str = key.str) := by
    apply List.find?_congr
    intro node hnode
    rw [Bool.eq_iff_iff, hkey.matches_iff hnode, decide_eq_true_iff]
  unfold tableGet
  rw [hfind, h.valuesUnder_eq hpos, List.head?_map, List.head?_filter]

/-! ## What a call changes -/

/-- `t'` is `t` after the entries `ins`, the newest first, came in and the values
`outs` went out. -/
structure HashTable.Changed (t t' : HashTable ν) (ins : List (Bytes × ν)) (outs : List ν) :
    Prop where
  size : t'.size = t.size
  hashed : t'.Hashed
  values : (t'.entries.map Prod.snd ++ outs).Perm (t.entries.map Prod.snd ++ ins.map Prod.snd)
  order : ∀ k, (valuesUnder k t'.entries).Sublist (valuesUnder k ins ++ valuesUnder k t.entries)

theorem HashTable.Changed.refl (h : t.Hashed) : t.Changed t [] [] :=
  ⟨rfl, h, .refl _, fun _ => .refl _⟩

theorem HashTable.Changed.trans {t'' : HashTable ν} {ins ins' : List (Bytes × ν)}
    {outs outs' : List ν} (h : t.Changed t' ins outs) (h' : t'.Changed t'' ins' outs') :
    t.Changed t'' (ins' ++ ins) (outs ++ outs') where
  size := h'.size.trans h.size
  hashed := h'.hashed
  values := by
    have hfirst := h.values.append_right (ins'.map Prod.snd)
    have hnext := h'.values.append_right outs
    rw [List.map_append]
    calc t''.entries.map Prod.snd ++ (outs ++ outs')
        ~ t''.entries.map Prod.snd ++ outs' ++ outs := by
          rw [List.append_assoc]
          exact List.perm_append_comm.append_left _
      _ ~ t'.entries.map Prod.snd ++ outs ++ ins'.map Prod.snd := by
          refine hnext.trans ?_
          rw [List.append_assoc, List.append_assoc]
          exact List.perm_append_comm.append_left _
      _ ~ t.entries.map Prod.snd ++ (ins'.map Prod.snd ++ ins.map Prod.snd) := by
          refine hfirst.trans ?_
          rw [List.append_assoc]
          exact List.perm_append_comm.append_left _
  order k := by
    have hsub := (h'.order k).trans ((List.Sublist.refl (valuesUnder k ins')).append (h.order k))
    unfold valuesUnder at hsub ⊢
    rw [List.filter_append, List.map_append, List.append_assoc]
    exact hsub

/-- One chain changes: the table `t'` has the chain `chain` at `i`. -/
theorem HashTable.Hashed.update (h : t.Hashed) {i : Nat} (hi : i < t.size)
    (chain : List (HtNode ν)) (hchain : ∀ node ∈ chain, keyHash node.key.str t.size = i)
    (locked : Bool) :
    HashTable.Hashed { t with store := Function.update t.store i chain, locked := locked } := by
  intro j node hnode
  dsimp only at hnode ⊢
  by_cases hj : j = i
  · rw [hj, Function.update_self] at hnode
    rw [hj]
    exact ⟨hi, hchain node hnode⟩
  · rw [Function.update_of_ne hj] at hnode
    exact h j node hnode

/-- **A node is added.** -/
theorem HashTable.Hashed.push (h : t.Hashed) (hpos : 0 < t.size) (key : CStr) (val : ν) :
    t.Changed { t with
      store := Function.update t.store (keyHash key.str t.size)
        (⟨key, val⟩ :: t.store (keyHash key.str t.size))
      locked := false } [(key.str, val)] [] := by
  have hlt := keyHash_lt hpos key.str
  have hchain : ∀ node ∈ (⟨key, val⟩ : HtNode ν) :: t.store (keyHash key.str t.size),
      keyHash node.key.str t.size = keyHash key.str t.size := by
    intro node hnode
    rcases List.mem_cons.1 hnode with rfl | hnode
    · rfl
    · exact (h _ node hnode).2
  have hhashed := h.update hlt _ hchain false
  refine ⟨rfl, hhashed, ?_, ?_⟩
  · have hpush := (contents_push hlt t.store ⟨key, val⟩).map
      (fun node : HtNode ν => (node.key.str, node.val))
    rw [List.append_nil, HashTable.entries_eq, HashTable.entries_eq]
    exact (hpush.map Prod.snd).trans (List.perm_append_singleton _ _).symm
  · intro k
    rw [hhashed.valuesUnder_eq hpos, h.valuesUnder_eq hpos]
    dsimp only
    by_cases hk : keyHash k t.size = keyHash key.str t.size
    · rw [hk, Function.update_self]
      by_cases heq : key.str = k
      · simp [valuesUnder, heq]
      · simp [valuesUnder, heq]
    · have heq : key.str ≠ k := fun heq => hk (heq ▸ rfl)
      rw [Function.update_of_ne hk]
      simp [valuesUnder, heq]

/-- **A node is unlinked.** -/
theorem HashTable.Hashed.unlink (h : t.Hashed) {i : Nat} (hi : i < t.size)
    (pre : List (HtNode ν)) {post : List (HtNode ν)} {node : HtNode ν}
    (hchain : t.store i = pre ++ node :: post) :
    t.Changed { t with store := Function.update t.store i (pre ++ post), locked := false } []
      [node.val] := by
  have hsub : (pre ++ post).Sublist (t.store i) := by
    rw [hchain]
    exact (List.Sublist.refl pre).append (List.sublist_cons_self node post)
  have hpos : 0 < t.size := Nat.zero_lt_of_lt hi
  have hhashed := h.update hi (pre ++ post)
    (fun other hother => (h i other (hsub.subset hother)).2) false
  refine ⟨rfl, hhashed, ?_, ?_⟩
  · have hlost := (contents_update hi ((List.Perm.of_eq hchain).trans List.perm_middle)).map
      (fun node : HtNode ν => (node.key.str, node.val))
    rw [List.map_nil, List.append_nil, HashTable.entries_eq, HashTable.entries_eq]
    exact (List.perm_append_singleton _ _).trans (hlost.map Prod.snd).symm
  · intro k
    rw [hhashed.valuesUnder_eq hpos, h.valuesUnder_eq hpos]
    dsimp only
    by_cases hk : keyHash k t.size = i
    · rw [hk, Function.update_self]
      exact (hsub.filter _).map _
    · rw [Function.update_of_ne hk]
      exact .refl _

/-! ## Calls -/

/-- The loop behind the head of a chain unlinks the node whose value it returns. -/
theorem delRest_cases (key : CStr) (chain : List (HtNode ν)) :
    delRest key chain = (none, chain) ∨
      ∃ pre node post, chain = pre ++ node :: post ∧
        delRest key chain = (some node.val, pre ++ post) := by
  induction chain with
  | nil => exact .inl rfl
  | cons node rest ih =>
      unfold delRest
      split
      · exact .inr ⟨[], node, rest, rfl, rfl⟩
      · rcases ih with hnone | ⟨pre, other, post, hrest, hdel⟩
        · left
          rw [hnone]
        · right
          exact ⟨node :: pre, other, post, by rw [hrest]; rfl, by rw [hdel]; rfl⟩

/-- Locking and unlocking change no node. -/
theorem HashTable.Hashed.relock (h : t.Hashed) (locked : Bool) :
    t.Changed { t with locked := locked } [] [] :=
  ⟨rfl, h, .refl _, fun _ => .refl _⟩

/-- **`table_del`.** -/
theorem HashTable.Hashed.tableDel (h : t.Hashed) (hpos : 0 < t.size) (key : CStr) :
    ∃ val t', HashTable.tableDel { t with locked := false } key = .ok (val, t') ∧
      t.Changed t' [] val.toList := by
  have hlt := keyHash_lt hpos key.str
  unfold HashTable.tableDel
  rw [if_neg Bool.false_ne_true]
  dsimp only
  cases hchain : t.store (keyHash key.str t.size) with
  | nil => exact ⟨none, _, rfl, h.relock true⟩
  | cons node rest =>
      dsimp only
      by_cases hhead : node.matches key = true
      · rw [if_pos hhead]
        exact ⟨some node.val, _, rfl, h.unlink hlt [] hchain⟩
      · rw [if_neg hhead]
        rcases delRest_cases key rest with hnone | ⟨pre, other, post, hrest, hdel⟩
        · have hsame : Function.update t.store (keyHash key.str t.size) (node :: rest) =
              t.store := by
            rw [← hchain, Function.update_eq_self]
          rw [hnone, hsame]
          exact ⟨none, _, rfl, h.relock false⟩
        · rw [hdel]
          rw [hrest] at hchain
          exact ⟨some other.val, _, rfl, h.unlink hlt (node :: pre) hchain⟩

/-- **One call.** -/
theorem HashTable.Hashed.call (h : t.Hashed) (hpos : 0 < t.size) (c : TableCall ν) :
    ∃ out t', t.callUnlocked c = .ok (out, t') ∧
      t.Changed t' (addedEntries [c]) (deletedValues [c] [out]) := by
  unfold HashTable.callUnlocked HashTable.call
  cases c with
  | get key => exact ⟨_, _, rfl, h.relock false⟩
  | add key val => exact ⟨_, _, rfl, h.push hpos key val⟩
  | del key =>
      obtain ⟨val, t', hdel, hchanged⟩ := h.tableDel hpos key
      dsimp only
      rw [hdel]
      refine ⟨_, t', rfl, ?_⟩
      cases val with
      | none => exact hchanged
      | some v => exact hchanged

theorem addedEntries_cons (c : TableCall ν) (cs : List (TableCall ν)) :
    (addedEntries (c :: cs)).reverse = (addedEntries cs).reverse ++ addedEntries [c] := by
  unfold addedEntries
  cases c with
  | get key => simp
  | add key val => simp
  | del key => simp

theorem deletedValues_cons (c : TableCall ν) (cs : List (TableCall ν)) (out : TableAnswer ν)
    (outs : List (TableAnswer ν)) :
    deletedValues (c :: cs) (out :: outs) = deletedValues [c] [out] ++ deletedValues cs outs := by
  cases c with
  | get key => rfl
  | add key val => rfl
  | del key =>
      cases out with
      | status ret => rfl
      | val v =>
          cases v with
          | none => rfl
          | some v => rfl

/-- **Calls.** -/
theorem HashTable.Hashed.run (calls : List (TableCall ν)) :
    ∀ t : HashTable ν, t.Hashed → 0 < t.size →
      ∃ outs t', Simulation.run HashTable.callUnlocked t calls = .ok (outs, t') ∧
        t.Changed t' (addedEntries calls).reverse (deletedValues calls outs) := by
  induction calls with
  | nil =>
      intro t h _
      exact ⟨[], t, rfl, .refl h⟩
  | cons c cs ih =>
      intro t h hpos
      obtain ⟨out, t₁, hcall, hfirst⟩ := h.call hpos c
      obtain ⟨outs, t₂, hrun, hrest⟩ := ih t₁ hfirst.hashed (hfirst.size ▸ hpos)
      refine ⟨out :: outs, t₂, ?_, ?_⟩
      · unfold Simulation.run
        rw [hcall]
        dsimp only
        rw [hrun]
      · rw [addedEntries_cons, deletedValues_cons]
        exact hfirst.trans hrest

/-- **No node is lost or invented.**  After any calls the nodes are in the chains
of their keys, the values that `table_each` visits are those that were added
without those that `table_del` returned, and a look-up returns the first value
visited under its key, where the newest come first. -/
theorem nodes_kept (calls : List (TableCall ν)) :
    ∃ outs t, run HashTable.callUnlocked .tableAlloc calls = .ok (outs, t) ∧
      t.Hashed ∧
      (t.entries.map Prod.snd ++ deletedValues calls outs).Perm
        ((addedEntries calls).map Prod.snd) ∧
      ∀ key, t.SameStrings key →
        ((t.tableGet key).isSome ↔ ∃ e ∈ t.entries, e.1 = key.str) ∧
        t.tableGet key = (valuesUnder key.str t.entries).head? ∧
        (valuesUnder key.str t.entries).Sublist
          (valuesUnder key.str (addedEntries calls).reverse) := by
  have hpos : 0 < (HashTable.tableAlloc : HashTable ν).size := show 0 < htMinSize by decide
  have halloc : (HashTable.tableAlloc : HashTable ν).Hashed := by
    intro i node hnode
    cases hnode
  have hempty : (HashTable.tableAlloc : HashTable ν).entries = [] := by
    rw [HashTable.entries_eq]
    simp [HashTable.tableAlloc, contents]
  obtain ⟨outs, t, hrun, hchanged⟩ := HashTable.Hashed.run calls _ halloc hpos
  have hvalues := hchanged.values
  rw [hempty, List.map_nil, List.nil_append, List.map_reverse] at hvalues
  refine ⟨outs, t, hrun, hchanged.hashed, hvalues.trans (List.reverse_perm _), ?_⟩
  intro key hkey
  have hget := hchanged.hashed.tableGet_eq (hchanged.size ▸ hpos) hkey
  refine ⟨?_, hget, ?_⟩
  · rw [hget, List.isSome_head?]
    unfold valuesUnder
    simp [List.filter_eq_nil_iff]
  · have horder := hchanged.order key.str
    rw [hempty] at horder
    simpa [valuesUnder] using horder

/-- A key that is added twice and deleted once: what is left is the older value. -/
theorem nodes_kept_sample :
    ∃ outs t, run HashTable.callUnlocked .tableAlloc
        [.add (stringA 1) 6, .add (stringA 2) 7, .del (stringA 2)] = .ok (outs, t) ∧
      outs = [.status 0, .status 0, .val (some 7)] ∧
      (t.entries.map Prod.snd ++ [7]).Perm [6, 7] ∧
      t.tableGet (stringA 3) = some 6 ∧ (valuesUnder (stringA 3).str t.entries).head? = some 6 := by
  obtain ⟨outs, t, hrun, _, hvalues, hkeys⟩ :=
    nodes_kept [.add (stringA 1) 6, .add (stringA 2) 7, .del (stringA 2)]
  cases hrun
  have hfound := hkeys (stringA 3) (by
    -- the node that is left has this string
    intro i node hnode _
    by_cases hi : i = keyHash (stringA 1).str htMinSize
    · subst hi
      have hone : node ∈ [HtNode.mk (stringA 1) 6] := hnode
      rw [List.mem_singleton.1 hone]
      rfl
    · have hother : ∀ (store : Nat → List (HtNode Nat)) (chain : List (HtNode Nat)),
          Function.update store (keyHash (stringA 1).str htMinSize) chain i = store i :=
        fun store chain => Function.update_of_ne hi chain store
      have hnone : ∀ chain : List (HtNode Nat), chain = [] → node ∉ chain := by
        rintro chain rfl
        exact List.not_mem_nil
      refine absurd hnode (hnone _ ?_)
      exact (hother _ _).trans ((hother _ _).trans (hother _ _)))
  exact ⟨_, _, rfl, rfl, hvalues, rfl, hfound.2.1.symm.trans rfl⟩

end MonkeyCache
