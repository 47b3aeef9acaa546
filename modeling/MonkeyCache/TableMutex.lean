import MonkeyCache.HashTable

/-!
# The mutex of the hash tables

`table_mutex` of `ht.c` is one mutex for all tables.  `table_add` and `table_del`
take it; `table_get` and `table_each` do not.  `table_del` returns early where
the chain of the key is empty, and then nobody unlocks it: every call returns
with the mutex free if and only if no `table_del` finds an empty chain
(`mutex_released`).
-/

namespace MonkeyCache

open Fallible Simulation

variable {ν σ : Type}

/-- The tables of a process. -/
structure HashTables (ν : Type) where
  tables : List (HashTable ν)
  /-- `table_mutex` is held -/
  mutex : Bool

/-- A call of `ht.h` on one of the tables.  What a callback calls itself is a
call of its own. -/
inductive HtCall (ν σ : Type)
  | alloc
  | call (i : Nat) (c : TableCall ν)
  | each (i : Nat) (cb : Bytes → ν → σ → σ) (state : σ)

/-- What a call returns. -/
inductive HtAnswer (ν σ : Type)
  | table (i : Nat)
  | answer (out : TableAnswer ν)
  | state (state : σ)
  /-- there is no such table, and there was no call -/
  | noTable

/-- Before the first `table_alloc`. -/
def HashTables.init : HashTables ν where
  tables := []
  mutex := false

/-- One call; a table takes the mutex into it and out of it. -/
def HashTables.call (s : HashTables ν) :
    HtCall ν σ → Except Fault (HtAnswer ν σ × HashTables ν)
  | .alloc => .ok (.table s.tables.length, { s with tables := s.tables ++ [.tableAlloc] })
  | .call i c =>
    match s.tables[i]? with
    | none => .ok (.noTable, s)
    | some t => do
      let out ← HashTable.call { t with locked := s.mutex } c
      .ok (.answer out.1, { tables := s.tables.set i out.2, mutex := out.2.locked })
  | .each i cb state =>
    match s.tables[i]? with
    | none => .ok (.noTable, s)
    | some t => .ok (.state (t.tableEach cb state), s)

/-- A `table_del` finds a node in the chain of its key. -/
def HashTables.FindsChain (s : HashTables ν) : HtCall ν σ → Prop
  | .call i c => ∀ key t, c = .del key → s.tables[i]? = some t →
      t.store (keyHash key.str t.size) ≠ []
  | _ => True

/-- **`table_del`** unlocks what it locked unless the chain is empty. -/
theorem HashTable.tableDel_unlocks {t : HashTable ν} (h : t.locked = false) (key : CStr) :
    ∃ val t', t.tableDel key = .ok (val, t') ∧
      (t'.locked = false ↔ t.store (keyHash key.str t.size) ≠ []) := by
  unfold HashTable.tableDel
  rw [if_neg (by simp [h])]
  dsimp only
  cases hchain : t.store (keyHash key.str t.size) with
  | nil => exact ⟨_, _, rfl, by simp⟩
  | cons node rest =>
      dsimp only
      split
      · exact ⟨_, _, rfl, by simp [h]⟩
      · exact ⟨_, _, rfl, by simp [h]⟩

theorem HashTable.tableAdd_unlocks {t : HashTable ν} (h : t.locked = false) (key : CStr) (val : ν) :
    ∃ t', t.tableAdd key val = .ok (0, t') ∧ t'.locked = false := by
  unfold HashTable.tableAdd
  rw [if_neg (by simp [h])]
  exact ⟨_, rfl, h⟩

/-- **One call of `ht.h`** leaves the mutex free unless it deletes from an empty chain. -/
theorem HashTable.call_unlocks {t : HashTable ν} (h : t.locked = false) (c : TableCall ν) :
    ∃ out t', t.call c = .ok (out, t') ∧
      (t'.locked = false ↔ ∀ key, c = .del key → t.store (keyHash key.str t.size) ≠ []) := by
  unfold HashTable.call
  cases c with
  | get key => exact ⟨_, _, rfl, iff_of_true h nofun⟩
  | add key val =>
      obtain ⟨t', hadd, hfree⟩ := HashTable.tableAdd_unlocks h key val
      dsimp only
      rw [hadd]
      exact ⟨_, _, rfl, iff_of_true hfree nofun⟩
  | del key =>
      obtain ⟨val, t', hdel, hfree⟩ := HashTable.tableDel_unlocks h key
      dsimp only
      rw [hdel]
      refine ⟨_, _, rfl, hfree.trans ?_⟩
      constructor
      · intro hchain key' heq
        cases heq
        exact hchain
      · intro hchain
        exact hchain key rfl

/-- **One call.** -/
theorem HashTables.call_releases {s : HashTables ν} (h : s.mutex = false) (c : HtCall ν σ) :
    (∃ out s', s.call c = .ok (out, s') ∧ s'.mutex = false) ↔ s.FindsChain c := by
  cases c with
  | alloc => exact iff_of_true ⟨_, _, rfl, h⟩ trivial
  | each i cb state =>
      refine iff_of_true ?_ trivial
      cases hget : s.tables[i]? with
      | none => exact ⟨.noTable, s, by simp [HashTables.call, hget], h⟩
      | some t => exact ⟨.state (t.tableEach cb state), s, by simp [HashTables.call, hget], h⟩
  | call i c =>
      cases hget : s.tables[i]? with
      | none =>
          refine iff_of_true ⟨.noTable, s, by simp [HashTables.call, hget], h⟩ ?_
          intro key t _ ht
          cases hget.symm.trans ht
      | some t =>
          obtain ⟨out, t', hcall, hfree⟩ :=
            HashTable.call_unlocks (t := { t with locked := s.mutex }) h c
          have hcalled : HashTables.call (σ := σ) s (.call i c) =
              .ok (.answer out, { tables := s.tables.set i t', mutex := t'.locked }) := by
            simp only [HashTables.call, hget, hcall]
            rfl
          rw [hcalled]
          constructor
          · intro hreleases key t₁ hdel ht₁
            obtain ⟨_, _, hok, hmutex⟩ := hreleases
            cases hok
            cases hget.symm.trans ht₁
            exact hfree.1 hmutex key hdel
          · intro hchain
            exact ⟨_, _, rfl, hfree.2 fun key hdel => hchain key t hdel hget⟩

/-- **Released.**  Every call returns and leaves the mutex free if and only if
every `table_del` finds a chain that is not empty. -/
theorem mutex_released (calls : List (HtCall ν σ)) :
    Returns (fun s : HashTables ν => s.mutex = false) HashTables.call .init calls ↔
      Meets HashTables.FindsChain HashTables.call .init calls :=
  returns_iff_meets (fun _ c h => HashTables.call_releases h c) calls .init rfl

/-- A key is deleted from an empty table, and the next `table_add` blocks for
ever. -/
theorem mutex_kept :
    ∃ calls : List (HtCall Nat Unit),
      ¬ Returns (fun s : HashTables Nat => s.mutex = false) HashTables.call .init calls ∧
        run HashTables.call .init calls = .error .deadlock := by
  refine ⟨[.alloc, .call 0 (.del (stringA 1)), .call 0 (.add (stringB 2) 7)], ?_, rfl⟩
  intro hreturns
  obtain ⟨_, _, halloc, _, _, _, hdel, hfree, _⟩ := hreturns
  cases halloc
  cases hdel
  cases hfree

end MonkeyCache
