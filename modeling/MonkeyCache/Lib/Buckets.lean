import Mathlib

/-!
# Contents of a table of buckets and of an association list

A table of `n` buckets is a function from bucket numbers to lists.  `contents`
is everything in it, bucket after bucket, which is the order in which such a
table is walked.  Where one bucket changes, the contents change by what that
bucket lost or gained, up to order; and so do the entries of an association
list where one key is erased.

`store` is insert-or-replace on an association list that keeps its entries in
the order of their first insertion: a new key goes behind all others, and a key
that is there keeps its place.
-/

namespace Buckets

variable {α : Type*}

/-- Everything in the buckets below `n`. -/
def contents (n : Nat) (store : Nat → List α) : List α := (List.range n).flatMap store

theorem mem_contents {n : Nat} {store : Nat → List α} {x : α} :
    x ∈ contents n store ↔ ∃ i, i < n ∧ x ∈ store i := by
  simp [contents]

/-- Only the buckets below `n` count. -/
theorem contents_congr {n : Nat} {store store' : Nat → List α}
    (h : ∀ i, i < n → store i = store' i) : contents n store = contents n store' := by
  apply List.flatMap_congr
  intro i hi
  exact h i (List.mem_range.1 hi)

/-- **One bucket changes.**  A bucket that loses `x` takes it from the contents. -/
theorem contents_update {n i : Nat} (hi : i < n) {store : Nat → List α} {x : α} {xs : List α}
    (hx : (store i).Perm (x :: xs)) :
    (contents n store).Perm (x :: contents n (Function.update store i xs)) := by
  induction n with
  | zero => omega
  | succ n ih =>
      have hlast : ∀ st : Nat → List α, contents (n + 1) st = contents n st ++ st n := by
        intro st
        simp [contents, List.range_succ]
      rw [hlast, hlast]
      by_cases hin : i = n
      · -- the last bucket is the one that changes
        have hsame : contents n (Function.update store i xs) = contents n store := by
          apply contents_congr
          intro j hj
          rw [Function.update_of_ne (by omega)]
        rw [hsame, ← hin, Function.update_self]
        exact (List.Perm.append_left _ hx).trans List.perm_middle
      · rw [Function.update_of_ne (Ne.symm hin)]
        exact (ih (by omega)).append_right _

/-- A bucket that gains `x` adds it to the contents. -/
theorem contents_push {n i : Nat} (hi : i < n) (store : Nat → List α) (x : α) :
    (contents n (Function.update store i (x :: store i))).Perm (x :: contents n store) := by
  have hself : (Function.update store i (x :: store i) i).Perm (x :: store i) := by
    rw [Function.update_self]
  have h := contents_update hi hself
  rwa [Function.update_idem, Function.update_eq_self] at h

/-- What satisfies `p` is in one bucket, so that bucket alone decides about it. -/
theorem filter_contents {n i : Nat} (hi : i < n) {store : Nat → List α} {p : α → Bool}
    (hp : ∀ j, ∀ x ∈ store j, p x = true → j = i) :
    (contents n store).filter p = (store i).filter p := by
  have hother : ∀ j, j ≠ i → (store j).filter p = [] := by
    intro j hj
    rw [List.filter_eq_nil_iff]
    intro x hx hpx
    exact hj (hp j x hx hpx)
  induction n with
  | zero => omega
  | succ n ih =>
      have hlast : contents (n + 1) store = contents n store ++ store n := by
        simp [contents, List.range_succ]
      rw [hlast, List.filter_append]
      by_cases hin : i = n
      · have hbelow : (contents n store).filter p = [] := by
          rw [List.filter_eq_nil_iff]
          intro x hx hpx
          obtain ⟨j, hj, hmem⟩ := mem_contents.1 hx
          have hji := hp j x hmem hpx
          omega
        rw [hbelow, List.nil_append, hin]
      · rw [ih (by omega), hother n (Ne.symm hin), List.append_nil]

/-- Erasing a key takes its binding from the entries. -/
theorem entries_erase {κ : Type*} {β : κ → Type*} [DecidableEq κ] {l : AList β} {k : κ} {v : β k}
    (h : l.lookup k = some v) : l.entries.Perm (⟨k, v⟩ :: (l.erase k).entries) := by
  have hmem : (⟨k, v⟩ : Sigma β) ∈ l.entries := AList.mem_lookup_iff.1 h
  obtain ⟨w, l₁, l₂, _, hl, herase⟩ := List.exists_of_kerase (List.mem_keys_of_mem hmem)
  have hw : l.lookup k = some w := AList.mem_lookup_iff.2 (by rw [hl]; simp)
  have hvw : v = w := Option.some.inj (h.symm.trans hw)
  show l.entries.Perm (⟨k, v⟩ :: List.kerase k l.entries)
  rw [herase, hl, hvw]
  exact List.perm_middle

/-- Erasing a key without a binding changes nothing. -/
theorem erase_of_lookup {κ : Type*} {β : κ → Type*} [DecidableEq κ] {l : AList β} {k : κ}
    (h : l.lookup k = none) : l.erase k = l :=
  AList.ext (List.kerase_of_notMem_keys (AList.lookup_eq_none.1 h))

/-! ## Insert or replace -/

section Store

variable {κ : Type*} {β : κ → Type*} [DecidableEq κ]

/-- The first entry with the key `k` gets the value `v`, or a new one goes to the end. -/
def storeEntry (k : κ) (v : β k) : List (Sigma β) → List (Sigma β)
  | [] => [⟨k, v⟩]
  | e :: es => if e.1 = k then ⟨k, v⟩ :: es else e :: storeEntry k v es

/-- The keys stay in their order. -/
theorem keys_storeEntry (k : κ) (v : β k) (es : List (Sigma β)) :
    (storeEntry k v es).keys = if k ∈ es.keys then es.keys else es.keys ++ [k] := by
  induction es with
  | nil => simp [storeEntry]
  | cons e es ih =>
      unfold storeEntry
      by_cases hk : e.1 = k
      · simp [hk]
      · by_cases hmem : k ∈ es.keys
        · simp [hk, ih, hmem]
        · simp [hk, Ne.symm hk, ih, hmem]

/-- The binding of `k` becomes `v`. -/
def store (k : κ) (v : β k) (l : AList β) : AList β where
  entries := storeEntry k v l.entries
  nodupKeys := by
    unfold List.NodupKeys
    rw [keys_storeEntry]
    split
    · exact l.nodupKeys
    · rename_i hk
      exact List.Nodup.append l.nodupKeys (List.nodup_singleton k) (by simpa using hk)

/-- The entries after `store`: the new one, and old ones. -/
theorem mem_storeEntry {k : κ} {v : β k} {es : List (Sigma β)} {e : Sigma β}
    (h : e ∈ storeEntry k v es) : e = ⟨k, v⟩ ∨ e ∈ es := by
  induction es with
  | nil => exact .inl (List.mem_singleton.1 h)
  | cons e' es ih =>
      unfold storeEntry at h
      split at h
      · rcases List.mem_cons.1 h with rfl | h
        · exact .inl rfl
        · exact .inr (List.mem_cons_of_mem e' h)
      · rcases List.mem_cons.1 h with rfl | h
        · exact .inr List.mem_cons_self
        · exact (ih h).imp_right (List.mem_cons_of_mem e')

/-- What was stored is found. -/
theorem lookup_store {k : κ} {v : β k} (l : AList β) : (store k v l).lookup k = some v := by
  have hlist : ∀ es : List (Sigma β), (storeEntry k v es).dlookup k = some v := by
    intro es
    induction es with
    | nil => simp [storeEntry]
    | cons e es ih =>
        unfold storeEntry
        by_cases hk : e.1 = k
        · simp [hk]
        · obtain ⟨k', v'⟩ := e
          simp only [if_neg hk]
          rw [List.dlookup_cons_ne _ _ (Ne.symm hk), ih]
  exact hlist l.entries

/-- Other keys keep their bindings. -/
theorem lookup_store_ne {k k' : κ} {v : β k} {l : AList β} (h : k' ≠ k) :
    (store k v l).lookup k' = l.lookup k' := by
  have hlist : ∀ es : List (Sigma β), (storeEntry k v es).dlookup k' = es.dlookup k' := by
    intro es
    induction es with
    | nil => simp [storeEntry, List.dlookup, Ne.symm h]
    | cons e es ih =>
        obtain ⟨k₁, v₁⟩ := e
        unfold storeEntry
        by_cases hk : k₁ = k
        · subst hk
          rw [if_pos rfl, List.dlookup_cons_ne _ _ h, List.dlookup_cons_ne _ _ h]
        · rw [if_neg hk]
          by_cases hk' : k' = k₁
          · subst hk'
            simp
          · rw [List.dlookup_cons_ne _ _ hk', List.dlookup_cons_ne _ _ hk', ih]
  exact hlist l.entries

/-- A new key goes behind all others. -/
theorem entries_store {k : κ} {v : β k} {l : AList β} (h : l.lookup k = none) :
    (store k v l).entries = l.entries ++ [⟨k, v⟩] := by
  have hlist : ∀ es : List (Sigma β), k ∉ es.keys → storeEntry k v es = es ++ [⟨k, v⟩] := by
    intro es
    induction es with
    | nil => exact fun _ => rfl
    | cons e es ih =>
        intro hk
        rw [List.keys_cons, List.mem_cons, not_or] at hk
        rw [storeEntry, if_neg (Ne.symm hk.1), ih hk.2, List.cons_append]
  exact hlist l.entries (AList.lookup_eq_none.1 h)

/-- A key that is there keeps its place. -/
theorem storeEntry_of_mem {k : κ} {v : β k} {es : List (Sigma β)} (hk : k ∈ es.keys)
    (hnd : es.NodupKeys) :
    storeEntry k v es = es.map (fun e => if e.1 = k then ⟨k, v⟩ else e) := by
  induction es with
  | nil => exact absurd hk List.not_mem_nil
  | cons e es ih =>
      obtain ⟨hnot, hnd⟩ := List.nodupKeys_cons.1 hnd
      unfold storeEntry
      by_cases he : e.1 = k
      · have hrest : es.map (fun e => if e.1 = k then ⟨k, v⟩ else e) = es.map id := by
          refine List.map_congr_left (fun e' he' => ?_)
          have hne : e'.1 ≠ k := by
            rintro rfl
            exact hnot (he ▸ List.mem_keys_of_mem he')
          rw [if_neg hne, id]
        rw [List.map_cons, if_pos he, if_pos he, hrest, List.map_id]
      · rw [List.keys_cons, List.mem_cons] at hk
        rw [List.map_cons, if_neg he, if_neg he, ih (hk.resolve_left (Ne.symm he)) hnd]

/-- The other entries keep their order where a key is erased. -/
theorem kerase_eq_filter {k : κ} {es : List (Sigma β)} (hnd : es.NodupKeys) :
    es.kerase k = es.filter (fun e => e.1 ≠ k) := by
  induction es with
  | nil => rfl
  | cons e es ih =>
      obtain ⟨hnot, hnd⟩ := List.nodupKeys_cons.1 hnd
      by_cases he : e.1 = k
      · subst he
        have hall : es.filter (fun e' => e'.1 ≠ e.1) = es := by
          refine List.filter_eq_self.2 (fun e' he' => ?_)
          rw [decide_eq_true_iff]
          intro heq
          exact hnot (heq ▸ List.mem_keys_of_mem he')
        rw [List.kerase_cons_eq rfl, List.filter_cons, if_neg (by simp), hall]
      · rw [List.kerase_cons_ne (Ne.symm he), ih hnd, List.filter_cons, if_pos (by simp [he])]

end Store

end Buckets
