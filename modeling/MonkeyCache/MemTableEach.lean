import MonkeyCache.MemTable

/-!
# `table_each` on the engine

The cursor of `table_each` stands on a record of the engine.  It goes from the
oldest record to the newest one, and it has moved on before the callback is called:
so the callback may delete the record it is called for, as `cache_file_tick_cb` does,
and the cursor does not stand on a record that was freed.

`memEachFrom_ok` is the rule for callbacks of this kind.  Then every binding is
visited once, in the order in which the keys were first stored
(`memTableEach_ok`), and what the callback deletes is gone in the end.
-/

namespace MonkeyCache

open Linked Fallible Simulation Memory

variable {ν σ : Type} {N : NodeRep ν} {db db' : Unqlite} {cells : List MemCell} {b : Bindings ν}

/-- The callback `cb` changes its state by `f`, and it deletes the binding it is called
for or, where `keep` says so, lets it be.  This is asked for bindings with `P` only. -/
def Drops (N : NodeRep ν) (P : Bytes × ν → Prop) (keep : Bytes × ν → Bool) (f : ν → σ → σ)
    (cb : Bytes → ν → Unqlite → σ → Except HeapFault (Unqlite × σ)) : Prop :=
  ∀ (key : Bytes) (db : Unqlite) (xs ys : List MemCell) (c : MemCell) (bx bys : Bindings ν)
    (e : Bytes × ν) (state : σ), P e → xs.length = bx.length →
    db.Rep N (xs ++ c :: ys) (bx ++ e :: bys) →
    ∃ db', cb key e.2 db state = .ok (db', f e.2 state) ∧
      db'.Rep N (xs ++ if keep e then c :: ys else ys) (bx ++ if keep e then e :: bys else bys)

/-- The cell in the middle is that of the binding in the middle. -/
theorem Unqlite.Rep.middle {xs ys : List MemCell} {c : MemCell} {bx bys : Bindings ν}
    {e : Bytes × ν} (h : db.Rep N (xs ++ c :: ys) (bx ++ e :: bys)) (hlen : xs.length = bx.length) :
    c.key = e.1 ∧ c.data = N.bytes e.2 := by
  have hentries := h.entries
  rw [List.map_append, List.map_append, List.map_cons, List.map_cons] at hentries
  have htail := (List.append_inj hentries (by simpa using hlen)).2
  rw [List.cons.injEq, Prod.mk.injEq] at htail
  exact htail.1

/-- What the cursor reads on a record, and where it goes from there. -/
theorem MemHashEngine.Holds.cursor {e : MemHashEngine} {us ws : List MemCell} {c : MemCell}
    (hh : e.Holds ((c :: us).reverse ++ ws)) :
    memHashCursorKey e (some c.addr) = .ok (.ok, c.key) ∧
    memHashCursorData e (some c.addr) = .ok (.ok, c.data) ∧
    memHashCursorNext e (some c.addr) = .ok (.ok, us.head?.map MemCell.addr) := by
  have hc : c ∈ (c :: us).reverse ++ ws := by simp
  obtain ⟨r, hr, -, hkey, hpData, hlen⟩ := hh.filled.exists_record hc
  have hlinks := hh.ordered.links
  rw [List.reverse_cons, List.append_assoc, List.map_append, List.singleton_append,
    List.map_cons] at hlinks
  have hprev := hlinks.middle.1
  rw [Option.or_none, ← List.map_reverse.symm, List.getLast?_reverse] at hprev
  have hrprev : r.pPrev = us.head?.map MemCell.addr := by
    rw [← List.head?_map]
    simpa [linkOf, hr] using hprev
  refine ⟨?_, ?_, ?_⟩
  · unfold memHashCursorKey
    dsimp only
    rw [Heap.read_ok hr, ok_bind, hkey]
  · unfold memHashCursorData
    dsimp only
    rw [Heap.read_ok hr, ok_bind, hpData, Heap.read_ok (hh.filled.data c hc), ok_bind, hlen,
      if_pos (le_refl _), List.take_length]
  · unfold memHashCursorNext
    dsimp only
    rw [Heap.read_ok hr, ok_bind, hrprev]

/-- **Loop rule.**  The cursor has yet to visit the bindings `bu`, the first of them
next; those of `bw` are done. -/
theorem memEachFrom_ok {P : Bytes × ν → Prop} {keep : Bytes × ν → Bool} {f : ν → σ → σ}
    {cb : Bytes → ν → Unqlite → σ → Except HeapFault (Unqlite × σ)}
    (hcb : Drops N P keep f cb) :
    ∀ (us : List MemCell) (bu : Bindings ν) (ws : List MemCell) (bw : Bindings ν) (db : Unqlite)
      (key : Bytes) (len : Nat) (state : σ) (fuel : Nat), (∀ e ∈ bu, P e) →
      us.length = bu.length → us.length < fuel →
      db.Rep N (us.reverse ++ ws) (bu.reverse ++ bw) →
      ∃ db' cells', memEachFrom N cb fuel (us.head?.map MemCell.addr) key len db state =
          .ok (db', bu.foldl (fun s e => f e.2 s) state) ∧
        db'.Rep N cells' ((bu.filter keep).reverse ++ bw) := by
  intro us
  induction us with
  | nil =>
      intro bu ws bw db key len state fuel _ hlen hfuel h
      have hbu : bu = [] := List.eq_nil_of_length_eq_zero hlen.symm
      subst hbu
      obtain ⟨fuel, rfl⟩ : ∃ n, fuel = n + 1 := ⟨fuel - 1, by omega⟩
      exact ⟨db, ws, rfl, h⟩
  | cons c us ih =>
      intro bu ws bw db key len state fuel hP hlen hfuel h
      obtain ⟨fuel, rfl⟩ : ∃ n, fuel = n + 1 := ⟨fuel - 1, by omega⟩
      obtain ⟨e, bu, rfl⟩ : ∃ e bu', bu = e :: bu' := by
        cases bu with
        | nil => simp at hlen
        | cons e bu => exact ⟨e, bu, rfl⟩
      have hlen' : us.length = bu.length := by simpa using hlen
      have h' := h
      rw [List.reverse_cons, List.reverse_cons, List.append_assoc, List.append_assoc,
        List.singleton_append, List.singleton_append] at h'
      have hrev : us.reverse.length = bu.reverse.length := by simpa using hlen'
      obtain ⟨hckey, hcdata⟩ := h'.middle hrev
      obtain ⟨hkey, hdata, hnext⟩ := h.holds.cursor
      have hvalue : N.value (c.data.take nodeSize) = e.2 := by
        rw [hcdata, List.take_of_length_le (le_of_eq (N.size e.2)), N.value_bytes]
      obtain ⟨db₁, hcall, hrep₁⟩ := hcb (cstr 0 (cursorKey c.key key len).1) db us.reverse ws c
        bu.reverse bw e state (hP e List.mem_cons_self) hrev h'
      obtain ⟨db₂, cells₂, hrest, hrep₂⟩ := ih bu _ _ db₁ (cursorKey c.key key len).1
        (cursorKey c.key key len).2 (f e.2 state) fuel
        (fun d hd => hP d (List.mem_cons_of_mem e hd)) hlen' (by simpa using hfuel) hrep₁
      refine ⟨db₂, cells₂, ?_, ?_⟩
      · rw [List.head?_cons, Option.map_some, List.foldl_cons]
        unfold memEachFrom
        rw [hkey, ok_bind]
        dsimp only
        rw [hdata, ok_bind]
        dsimp only
        rw [hnext, ok_bind]
        dsimp only
        rw [hvalue, hcall, ok_bind]
        exact hrest
      · rw [List.filter_cons]
        by_cases hk : keep e = true
        · rw [if_pos hk] at hrep₂ ⊢
          rwa [List.reverse_cons, List.append_assoc, List.singleton_append]
        · rw [if_neg hk] at hrep₂ ⊢
          exact hrep₂

/-- **The cursor visits every binding once**, the oldest one first, whatever of them the
callback deletes on its way. -/
theorem memTableEach_ok {P : Bytes × ν → Prop} {keep : Bytes × ν → Bool} {f : ν → σ → σ}
    {cb : Bytes → ν → Unqlite → σ → Except HeapFault (Unqlite × σ)}
    (hcb : Drops N P keep f cb) (h : db.Stands N b) (hP : ∀ e ∈ b, P e) (key : Bytes)
    (state : σ) :
    ∃ db', memTableEach N db key cb state =
        .ok (db', b.reverse.foldl (fun s e => f e.2 s) state) ∧
      db'.Stands N (b.filter keep) := by
  obtain ⟨cells, hrep⟩ := h
  have hrep' : db.Rep N (cells.reverse.reverse ++ []) (b.reverse.reverse ++ []) := by
    simpa using hrep
  have hfirst : memHashCursorFirst db.pEngine = cells.reverse.head?.map MemCell.addr := by
    unfold memHashCursorFirst
    rw [hrep.holds.ordered.first, List.head?_reverse, List.getLast?_map]
  obtain ⟨db', cells', heach, hrep''⟩ := memEachFrom_ok hcb cells.reverse b.reverse [] [] db key
    keyBufLen state (db.pEngine.nRecord + 1) (fun e he => hP e (by simpa using he))
    (by simpa using hrep.length_eq) (by rw [hrep.holds.count]; simp) hrep'
  refine ⟨db', ?_, cells', ?_⟩
  · unfold memTableEach
    rw [hfirst]
    exact heach
  · rw [List.append_nil, List.filter_reverse, List.reverse_reverse] at hrep''
    exact hrep''

/-! ## A callback that deletes -/

/-- A callback like `cache_file_tick_cb`: it remembers the value, and deletes the key
that `uri` reads in it if `due` says so.  It does not read the key it is called with. -/
def dropCb (N : NodeRep ν) (uri : ν → CStr) (due : ν → Bool) (_ : Bytes) (val : ν) (db : Unqlite)
    (seen : List ν) : Except HeapFault (Unqlite × List ν) :=
  if due val then do
    let (_, db) ← memTableDel N db (uri val)
    .ok (db, seen ++ [val])
  else .ok (db, seen ++ [val])

theorem Bindings.remove_middle {bx bys : Bindings ν} {e : Bytes × ν}
    (hkeys : ((bx ++ e :: bys).map Prod.fst).Nodup) :
    Bindings.remove (bx ++ e :: bys) e.1 = bx ++ bys := by
  rw [List.map_append, List.map_cons] at hkeys
  have hnot := (List.nodup_cons.1 (List.nodup_middle.1 hkeys)).1
  rw [List.mem_append, not_or] at hnot
  have hkeep : ∀ {bd : Bindings ν}, e.1 ∉ bd.map Prod.fst →
      bd.filter (fun d => decide (d.1 ≠ e.1)) = bd := by
    intro bd hnot
    refine List.filter_eq_self.2 (fun d hd => ?_)
    rw [decide_eq_true_iff]
    intro heq
    rw [← heq] at hnot
    exact hnot (List.mem_map_of_mem hd)
  unfold Bindings.remove
  rw [List.filter_append, List.filter_cons, hkeep hnot.1, hkeep hnot.2]
  simp

theorem dropCb_drops (N : NodeRep ν) (uri : ν → CStr) (due : ν → Bool) :
    Drops N (fun e => (uri e.2).str = e.1) (fun e => !due e.2) (fun v seen => seen ++ [v])
      (dropCb N uri due) := by
  intro key db xs ys c bx bys e state hown hlen h
  unfold dropCb
  by_cases hdue : due e.2 = true
  · obtain ⟨hckey, -⟩ := h.middle hlen
    obtain ⟨db', hdel, hrep, -⟩ := memTableDel_present h (uri e.2) (hckey.trans hown.symm)
    have hnodup : ((bx ++ e :: bys).map Prod.fst).Nodup := by
      rw [← h.keys_eq]
      exact h.holds.keys
    rw [hown, Bindings.remove_middle hnodup] at hrep
    refine ⟨db', ?_, ?_⟩
    · rw [if_pos hdue, hdel, ok_bind]
    · simpa [hdue] using hrep
  · refine ⟨db, if_neg hdue, ?_⟩
    simpa [hdue] using h

/-- **A sweep over the table.**  Every value is visited once, in the order in which the
keys were stored, no pointer dangles, and just the bindings that are due are gone. -/
theorem memTableEach_sweeps (N : NodeRep ν) (uri : ν → CStr) (due : ν → Bool)
    (h : db.Stands N b) (hown : ∀ e ∈ b, (uri e.2).str = e.1) (key : Bytes) :
    ∃ db', memTableEach N db key (dropCb N uri due) [] = .ok (db', b.reverse.map Prod.snd) ∧
      db'.Stands N (b.filter (fun e => !due e.2)) := by
  obtain ⟨db', heach, hstands⟩ := memTableEach_ok (dropCb_drops N uri due) h hown key []
  have hcollect : ∀ (es : Bindings ν) (seen : List ν),
      es.foldl (fun s e => s ++ [e.2]) seen = seen ++ es.map Prod.snd := by
    intro es
    induction es with
    | nil => simp
    | cons e es ih =>
        intro seen
        rw [List.foldl_cons, ih, List.map_cons, List.append_assoc, List.singleton_append]
  rw [hcollect, List.nil_append] at heach
  exact ⟨db', heach, hstands⟩

/-- Two keys, of which the older one is due. -/
theorem memTableEach_sweeps_sample :
    ∃ db db', run (memTableCall pointerRep) unqliteOpen
        ([.add (stringA 1) 7, .add (stringB 2) 8].map (fun c => (MemBackend.pool 2, c))) =
        .ok ([.status 0, .status 0], db) ∧
      memTableEach pointerRep db []
        (dropCb pointerRep (fun v => if v = 7 then stringA 3 else stringB 4)
          (fun v => decide (v = 7))) [] = .ok (db', [7, 8]) ∧
      db'.Stands pointerRep [((stringB 4).str, 8)] := by
  obtain ⟨outs, db, cells, b, hrun, hrep, -, hexact, -⟩ := memTable_run (N := pointerRep)
    ([.add (stringA 1) 7, .add (stringB 2) 8].map (fun c => (MemBackend.pool 2, c)))
    unqliteOpen [] [] unqliteOpen_rep (by decide)
  have hanswers := hexact
    (memTable_pool pointerRep _ _ [] [] unqliteOpen_rep (by decide) (by decide))
  have hcomputed : answers Bindings.call ([] : Bindings (Fin (2 ^ 64)))
      [.add (stringA 1) 7, .add (stringB 2) 8] =
        ([.status 0, .status 0], [((stringB 4).str, 8), ((stringA 3).str, 7)]) := by rfl
  obtain ⟨houts, hb⟩ := Prod.mk.injEq .. ▸ hanswers.symm.trans hcomputed
  subst houts hb
  obtain ⟨db', heach, hstands⟩ := memTableEach_sweeps pointerRep
    (fun v => if v = 7 then stringA 3 else stringB 4) (fun v => decide (v = 7)) ⟨cells, hrep⟩
    (by decide) []
  exact ⟨db, db', hrun, heach, hstands⟩

end MonkeyCache
