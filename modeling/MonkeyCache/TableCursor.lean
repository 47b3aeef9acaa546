import MonkeyCache.TableImpls
import MonkeyCache.TableNodes

/-!
# The keys that `table_each` reports

`table_each` of `unqlite_ht.c` has one buffer and one length for all rounds of
its loop.  `unqlite_kv_cursor_key` copies at most that many bytes, writes no
terminator and leaves its count in the length.  So the buffer only ever holds
the start of it afresh, what follows is left from earlier rounds or from the
stack, and the length never grows again.

Every entry is reported once.  They are all reported under their own keys if and
only if the keys have one length, and the byte of the buffer behind it happened
to be NUL (`each_reports`).
-/

namespace MonkeyCache

open Simulation Chunks Memory

variable {ν : Type} {es : List (Σ _ : Bytes, ν)} {key k : Bytes} {n : Nat}

/-- An entry as the callback should see it. -/
def entryOf (node : Σ _ : Bytes, ν) : Bytes × ν := (node.1, node.2)

/-- A string as `char *` can hold it, and short enough for `key`. -/
def FitsKeyBuf (k : Bytes) : Prop := 0 ∉ k ∧ k.length < keyBufLen

/-! ## The rounds of the loop -/

/-- What the loop reports from `key` and `len` on. -/
def reports : List (Σ _ : Bytes, ν) → Bytes → Nat → List (Bytes × ν)
  | [], _, _ => []
  | node :: es, key, len =>
    let out := cursorKey node.1 key len
    (cstr 0 out.1, node.2) :: reports es out.1 out.2

theorem eachRecord_reports (es : List (Σ _ : Bytes, ν)) (key : Bytes) (len : Nat)
    (seen : List (Bytes × ν)) :
    eachRecord collectEntry es key len seen = seen ++ reports es key len := by
  induction es generalizing key len seen with
  | nil => simp [eachRecord, reports]
  | cons node es ih =>
      unfold eachRecord reports
      dsimp only
      rw [ih]
      simp [collectEntry]

/-- Every value is reported once, in the order of the cursor. -/
theorem reports_values (es : List (Σ _ : Bytes, ν)) (key : Bytes) (len : Nat) :
    (reports es key len).map Prod.snd = es.map (fun node => node.2) := by
  induction es generalizing key len with
  | nil => rfl
  | cons node es ih =>
      unfold reports
      dsimp only
      rw [List.map_cons, List.map_cons, ih]

/-- A key that is copied whole is read back where NUL follows it. -/
theorem cursorKey_whole (hk : 0 ∉ k) (hlen : k.length < key.length) (hn : k.length ≤ n) :
    cstr 0 (cursorKey k key n).1 = k ↔ key[k.length]? = some 0 := by
  have hcopy : (cursorKey k key n).1 = k ++ key.drop k.length := by
    simp [cursorKey, overwrite, List.take_of_length_le hn]
  rw [hcopy, cstr_eq_iff hk (by rw [List.length_append, List.length_drop]; omega)]
  have hnext : (k ++ key.drop k.length)[k.length]? = key[k.length]? := by
    rw [List.getElem?_append_right le_rfl, Nat.sub_self, List.getElem?_drop, Nat.add_zero]
  rw [hnext]
  exact and_iff_right (List.prefix_append k _)

/-- The buffer holds a string of length `n`. -/
structure Holding (key : Bytes) (n : Nat) : Prop where
  clean : 0 ∉ key.take n
  nul : key[n]? = some 0

/-- **One round** after a key of length `n`: a key is reported rightly if and
only if it has this length, and then the next round is as this one. -/
theorem Holding.round (h : Holding key n) (hk : 0 ∉ k) :
    (cstr 0 (cursorKey k key n).1 = k ↔ k.length = n) ∧
      (k.length = n → Holding (cursorKey k key n).1 n ∧ (cursorKey k key n).2 = n) := by
  have hn : n < key.length := (List.getElem?_eq_some_iff.1 h.nul).1
  have hself : k.length = n → (cursorKey k key n).1 = k ++ key.drop n := by
    intro heq
    simp [cursorKey, overwrite, List.take_of_length_le heq.le, heq]
  constructor
  · constructor
    · intro hread
      rcases Nat.lt_trichotomy k.length n with hlt | heq | hgt
      · -- a shorter key is followed by what an earlier one left
        have hnul := (cursorKey_whole hk (by omega) hlt.le).1 hread
        have hmem : (0 : Byte) ∈ key.take n :=
          List.mem_of_getElem? ((List.getElem?_take_of_lt hlt).trans hnul)
        exact absurd hmem h.clean
      · exact heq
      · -- a longer key is cut off
        have hcopy : (cursorKey k key n).1 = k.take n ++ key.drop n := by
          simp [cursorKey, overwrite, min_eq_left hgt.le]
        obtain ⟨rest, hrest⟩ : ∃ rest, key.drop n = 0 :: rest := by
          refine ⟨key.drop (n + 1), ?_⟩
          rw [List.drop_eq_getElem_cons hn, (List.getElem?_eq_some_iff.1 h.nul).2]
        have hcut : cstr 0 (cursorKey k key n).1 = k.take n := by
          rw [hcopy, hrest]
          exact cstr_eq_of_nul (fun hmem => hk (List.mem_of_mem_take hmem)) rest
        have hlen := congrArg List.length (hcut.symm.trans hread)
        rw [List.length_take] at hlen
        omega
    · intro heq
      exact (cursorKey_whole hk (by omega) heq.le).2 (heq ▸ h.nul)
  · intro heq
    refine ⟨⟨?_, ?_⟩, ?_⟩
    · rw [hself heq, List.take_append_of_le_length heq.ge, List.take_of_length_le heq.le]
      exact hk
    · rw [hself heq, List.getElem?_append_right heq.le, heq, Nat.sub_self, List.getElem?_drop,
        Nat.add_zero]
      exact h.nul
    · show min k.length n = n
      omega

/-- **The rounds** after a key of length `n`. -/
theorem Holding.reports (h : Holding key n) (hes : ∀ node ∈ es, 0 ∉ node.1) :
    MonkeyCache.reports es key n = es.map entryOf ↔ ∀ node ∈ es, node.1.length = n := by
  induction es generalizing key with
  | nil => simp [MonkeyCache.reports]
  | cons node es ih =>
      rw [List.forall_mem_cons] at hes ⊢
      obtain ⟨hread, hnext⟩ := h.round hes.1
      unfold MonkeyCache.reports entryOf
      dsimp only
      rw [List.map_cons, List.cons.injEq, Prod.mk.injEq, and_iff_left rfl, hread]
      apply and_congr_right
      intro heq
      obtain ⟨hholding, hlen⟩ := hnext heq
      rw [hlen]
      exact ih hholding hes.2

/-- **The first round** copies the whole key. -/
theorem first_round (hk : FitsKeyBuf k) (hkey : key.length = keyBufLen) :
    (cstr 0 (cursorKey k key keyBufLen).1 = k ↔ key[k.length]? = some 0) ∧
      (key[k.length]? = some 0 →
        Holding (cursorKey k key keyBufLen).1 k.length ∧
          (cursorKey k key keyBufLen).2 = k.length) := by
  obtain ⟨hclean, hlt⟩ := hk
  refine ⟨cursorKey_whole hclean (hkey ▸ hlt) hlt.le, ?_⟩
  intro hnul
  have hself : (cursorKey k key keyBufLen).1 = k ++ key.drop k.length := by
    simp [cursorKey, overwrite, List.take_of_length_le hlt.le]
  refine ⟨⟨?_, ?_⟩, min_eq_left hlt.le⟩
  · rw [hself, List.take_left]
    exact hclean
  · rw [hself, List.getElem?_append_right le_rfl, Nat.sub_self, List.getElem?_drop, Nat.add_zero]
    exact hnul

/-- **All rounds.** -/
theorem reports_keyBuf (hes : ∀ node ∈ es, FitsKeyBuf node.1) (hkey : key.length = keyBufLen) :
    reports es key keyBufLen = es.map entryOf ↔
      ∃ n, (∀ node ∈ es, node.1.length = n) ∧ (es ≠ [] → key[n]? = some 0) := by
  cases es with
  | nil => exact iff_of_true rfl ⟨0, by simp, by simp⟩
  | cons node es =>
      rw [List.forall_mem_cons] at hes
      obtain ⟨hread, hnext⟩ := first_round hes.1 hkey
      have hclean : ∀ node ∈ es, 0 ∉ node.1 := fun node hnode => (hes.2 node hnode).1
      unfold reports entryOf
      dsimp only
      rw [List.map_cons, List.cons.injEq, Prod.mk.injEq, and_iff_left rfl, hread]
      constructor
      · intro h
        obtain ⟨hnul, hrest⟩ := h
        obtain ⟨hholding, hlen⟩ := hnext hnul
        rw [hlen] at hrest
        refine ⟨node.1.length, ?_, fun _ => hnul⟩
        rw [List.forall_mem_cons]
        exact ⟨rfl, (hholding.reports hclean).1 hrest⟩
      · intro h
        obtain ⟨n, hlens, hnul⟩ := h
        rw [List.forall_mem_cons] at hlens
        obtain ⟨rfl, hlens⟩ := hlens
        have hnul := hnul (List.cons_ne_nil node es)
        obtain ⟨hholding, hlen⟩ := hnext hnul
        rw [hlen]
        exact ⟨hnul, (hholding.reports hclean).2 hlens⟩

/-! ## The entries of a table -/

/-- **One call** brings in what it adds. -/
theorem KvTable.call_entries (t : KvTable ν) (c : TableCall ν) {node : Σ _ : Bytes, ν}
    (h : node ∈ (t.call c).2.db.entries) :
    node ∈ t.db.entries ∨ entryOf node ∈ addedEntries [c] := by
  cases c with
  | get key => exact .inl h
  | add key val =>
      unfold KvTable.call KvTable.tableAdd at h
      dsimp only at h
      split at h
      · exact .inl h
      · dsimp only at h
        rcases Buckets.mem_storeEntry h with rfl | hold
        · exact .inr (by simp [entryOf, addedEntries])
        · exact .inl hold
  | del key => exact .inl ((List.kerase_sublist key.str t.db.entries).subset h)

/-- **Calls.**  An entry of a table was added to it. -/
theorem KvTable.answers_entries (calls : List (TableCall ν)) :
    ∀ t : KvTable ν, ∀ node ∈ (answers KvTable.call t calls).2.db.entries,
      node ∈ t.db.entries ∨ entryOf node ∈ addedEntries calls := by
  induction calls with
  | nil =>
      intro t node hnode
      exact .inl hnode
  | cons c cs ih =>
      intro t node hnode
      have hsplit : addedEntries (c :: cs) = addedEntries [c] ++ addedEntries cs :=
        List.filterMap_append (l := [c])
      rw [hsplit, List.mem_append]
      rcases ih (t.call c).2 node hnode with hcall | hrest
      · exact (t.call_entries c hcall).imp_right .inl
      · exact .inr (.inr hrest)

/-- **The reported keys.**  For a table that calls with short keys led to, and any
order of the cursor, every entry is one that was added and is reported once.  All
of them are reported under their own keys if and only if the keys have one
length, and the byte that the buffer held behind it was NUL. -/
theorem each_reports {calls : List (TableCall ν)}
    (hcalls : ∀ e ∈ addedEntries calls, FitsKeyBuf e.1)
    {t : KvTable ν} (ht : t.db.entries.Perm (answers KvTable.call .tableAlloc calls).2.db.entries)
    (hkey : key.length = keyBufLen) :
    (∀ node ∈ t.db.entries, entryOf node ∈ addedEntries calls) ∧
    (t.tableEach key collectEntry []).map Prod.snd = t.db.entries.map (fun node => node.2) ∧
    (t.tableEach key collectEntry [] = t.db.entries.map entryOf ↔
      ∃ n, (∀ node ∈ t.db.entries, node.1.length = n) ∧
        (t.db.entries ≠ [] → key[n]? = some 0)) := by
  have hadded : ∀ node ∈ t.db.entries, entryOf node ∈ addedEntries calls := by
    intro node hnode
    rcases KvTable.answers_entries calls .tableAlloc node (ht.mem_iff.1 hnode) with hnone | hadd
    · cases hnone
    · exact hadd
  have heach : t.tableEach key collectEntry [] = reports t.db.entries key keyBufLen :=
    eachRecord_reports t.db.entries key keyBufLen []
  rw [heach]
  refine ⟨hadded, reports_values t.db.entries key keyBufLen, ?_⟩
  exact reports_keyBuf (fun node hnode => hcalls _ (hadded node hnode)) hkey

/-- Two keys of one length, in a buffer that was all NUL. -/
theorem each_reports_sample :
    (answers KvTable.call .tableAlloc
        [.add (stringA 1) 7, .add (stringB 2) 8]).2.tableEach (List.replicate keyBufLen 0)
          collectEntry [] = [((stringA 1).str, 7), ((stringB 2).str, 8)] := by
  have hcalls : ∀ e ∈ addedEntries [.add (stringA 1) 7, .add (stringB 2) 8], FitsKeyBuf e.1 := by
    intro e he
    fin_cases he
    · exact ⟨by decide, by decide⟩
    · exact ⟨by decide, by decide⟩
  refine (each_reports hcalls (.refl _) List.length_replicate).2.2.2 ⟨2, ?_, ?_⟩
  · intro node hnode
    fin_cases hnode
    · rfl
    · rfl
  · intro _
    rw [List.getElem?_replicate]
    rfl

/-- `"ab"` and `"abc"`. -/
def stringAB : CStr := ⟨1, [97, 98]⟩
def stringABC : CStr := ⟨2, [97, 98, 99]⟩

/-- The longer key is cut off behind the shorter one. -/
theorem each_cuts :
    ∃ (calls : List (TableCall Nat)) (t : KvTable Nat),
      (∀ e ∈ addedEntries calls, FitsKeyBuf e.1) ∧
      t.db.entries.Perm (answers KvTable.call .tableAlloc calls).2.db.entries ∧
      (stringABC.str, 7) ∈ t.db.entries.map entryOf ∧
      ∀ key : Bytes, key.length = keyBufLen →
        t.tableEach key collectEntry [] ≠ t.db.entries.map entryOf := by
  refine ⟨[.add stringAB 8, .add stringABC 7],
    (answers KvTable.call .tableAlloc [.add stringAB 8, .add stringABC 7]).2, ?_, .refl _, ?_, ?_⟩
  · intro e he
    fin_cases he
    · exact ⟨by decide, by decide⟩
    · exact ⟨by decide, by decide⟩
  · exact List.mem_of_getElem? (i := 1) rfl
  · intro key hkey heq
    have hfits : ∀ node ∈ [(⟨stringAB.str, 8⟩ : Σ _ : Bytes, Nat), ⟨stringABC.str, 7⟩],
        FitsKeyBuf node.1 := by
      intro node hnode
      fin_cases hnode
      · exact ⟨by decide, by decide⟩
      · exact ⟨by decide, by decide⟩
    have hreads := (eachRecord_reports _ key keyBufLen []).symm.trans heq
    obtain ⟨n, hlens, _⟩ := (reports_keyBuf hfits hkey).1 hreads
    have hshort := hlens ⟨stringAB.str, 8⟩ (by simp)
    have hlong := hlens ⟨stringABC.str, 7⟩ (by simp)
    rw [← hshort] at hlong
    cases hlong

end MonkeyCache
