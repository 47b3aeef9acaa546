import MonkeyCache.Insertion

/-!
# What one tick evicts

A tick visits every entry of the table once, in any order of its cursor
(`tickEach_visits`): an eviction deletes the entry the cursor has just left, and
no other.

The age of a file is computed in an `int`, and the seconds are converted on
their own, before the negative microseconds can bring them back into the range
(`getTimeDiffMs_overflow`).  Where that does not happen the age is the whole
number of milliseconds (`getTimeDiffMs_eq`), and a tick evicts exactly the files
that are idle for too long (`tick_evicts`).
-/

namespace MonkeyCache

open Fallible

variable {size : Nat} {s s' : Worker} {now : Timeval}

/-! ## The age of a file -/

/-- The whole milliseconds between two times. -/
def idleMs (last now : Timeval) : Int :=
  ((now.sec - last.sec) * 1000000 + (now.usec - last.usec)) / 1000

/-- `now` is a time not before `last`, and less than `2 ^ 31` milliseconds later. -/
structure Timeval.Within (last now : Timeval) : Prop where
  last_usec : 0 ≤ last.usec ∧ last.usec < 1000000
  now_usec : 0 ≤ now.usec ∧ now.usec < 1000000
  after : 0 ≤ (now.sec - last.sec) * 1000000 + (now.usec - last.usec)
  near : (now.sec - last.sec) * 1000000 + (now.usec - last.usec) < 2 ^ 31 * 1000

theorem toInt_of_fits {x : Int} (h : -2 ^ 31 ≤ x) (h' : x < 2 ^ 31) : toInt x = x :=
  if_pos ⟨h, h'⟩

/-- **Exact age.** -/
theorem getTimeDiffMs_eq {last : Timeval} (h : last.Within now)
    (hsec : now.sec - last.sec ≤ 2147483) : getTimeDiffMs last now = idleMs last now := by
  have hlast := h.last_usec
  have hnow := h.now_usec
  have hafter := h.after
  have hnear := h.near
  unfold getTimeDiffMs idleMs
  have hms : toInt ((now.sec - last.sec) * 1000) = (now.sec - last.sec) * 1000 :=
    toInt_of_fits (by omega) (by omega)
  dsimp only
  rw [hms, show (now.sec - last.sec) * 1000 * 1000 = (now.sec - last.sec) * 1000000 by omega,
    Int.tdiv_eq_ediv_of_nonneg hafter]
  exact toInt_of_fits (by omega) (by omega)

/-- **Overflow.**  The seconds alone do not fit, and the file looks young. -/
theorem getTimeDiffMs_overflow {last : Timeval} (h : last.Within now)
    (hsec : 2147483 < now.sec - last.sec) :
    getTimeDiffMs last now ≤ maxFileIdle ∧ maxFileIdle < idleMs last now := by
  have hlast := h.last_usec
  have hnow := h.now_usec
  constructor
  · have hms : toInt ((now.sec - last.sec) * 1000) = -2 ^ 31 := if_neg (by omega)
    unfold getTimeDiffMs
    dsimp only
    rw [hms]
    have hneg : (-2 ^ 31 * 1000 + (now.usec - last.usec)).tdiv 1000 ≤ 0 := by
      have hflip : (-2 ^ 31 * 1000 + (now.usec - last.usec)) =
          -(2 ^ 31 * 1000 - (now.usec - last.usec)) := by omega
      rw [hflip, Int.neg_tdiv, Int.tdiv_eq_ediv_of_nonneg (by omega)]
      omega
    unfold toInt maxFileIdle
    split <;> omega
  · unfold idleMs maxFileIdle
    omega

/-! ## The cursor -/

/-- The entries under `ks` were visited: the files that were due have left the
table, and the rest is as it was. -/
structure Worker.Visited (s : Worker) (now : Timeval) (ks : List Key) (s' : Worker) : Prop where
  due : ∀ k a obj, s.tableGet k = some a → s.heap a = some obj → k ∈ ks → obj.Due now →
    s'.tableGet k = none ∧ s'.heap a = obj.outlived
  young : ∀ k a obj, s.tableGet k = some a → s.heap a = some obj → k ∉ ks ∨ ¬ obj.Due now →
    s'.tableGet k = some a ∧ s'.heap a = some obj
  free : ∀ k, s.tableGet k = none → s'.tableGet k = none
  heap : ∀ b, (∀ k, s.tableGet k ≠ some b) → s'.heap b = s.heap b

theorem Worker.Visited.nil (s : Worker) (now : Timeval) : s.Visited now [] s where
  due _ _ _ _ _ hmem := absurd hmem List.not_mem_nil
  young _ _ _ hk ha _ := ⟨hk, ha⟩
  free _ hk := hk
  heap _ _ := rfl

/-- An entry that is still there is as it was. -/
theorem Worker.Visited.bound {ks : List Key} (h : s.Visited now ks s') (hown : s.UnderOwnUri)
    {k : Key} {a : Addr} (hk : s'.tableGet k = some a) :
    s.tableGet k = some a ∧ s'.heap a = s.heap a := by
  cases hget : s.tableGet k with
  | none =>
      rw [h.free k hget] at hk
      cases hk
  | some b =>
      obtain ⟨obj, hb, _⟩ := hown k b hget
      by_cases hleft : k ∈ ks ∧ obj.Due now
      · rw [(h.due k b obj hget hb hleft.1 hleft.2).1] at hk
        cases hk
      · obtain ⟨hk', hb'⟩ := h.young k b obj hget hb (not_and_or.1 hleft)
        cases hk.symm.trans hk'
        exact ⟨rfl, hb'.trans hb.symm⟩

theorem Worker.Visited.underOwnUri {ks : List Key} (h : s.Visited now ks s')
    (hown : s.UnderOwnUri) : s'.UnderOwnUri := by
  intro k a hk
  obtain ⟨hget, hheap⟩ := h.bound hown hk
  rw [hheap]
  exact hown k a hget

/-- What was visited first is not touched by the visits after it. -/
theorem Worker.Visited.append {t : Worker} {ks ks' : List Key} (h : s.Visited now ks t)
    (h' : t.Visited now ks' s') (hown : s.UnderOwnUri) : s.Visited now (ks ++ ks') s' := by
  refine ⟨?_, ?_, ?_, ?_⟩
  · intro k a obj hk ha hmem hdue
    by_cases hfirst : k ∈ ks
    · obtain ⟨hgone, hout⟩ := h.due k a obj hk ha hfirst hdue
      refine ⟨h'.free k hgone, ?_⟩
      rw [h'.heap, hout]
      intro j hj
      have hjk : j = k := hown.inj (h.bound hown hj).1 hk
      rw [hjk, hgone] at hj
      cases hj
    · obtain ⟨hk', ha'⟩ := h.young k a obj hk ha (.inl hfirst)
      exact h'.due k a obj hk' ha' ((List.mem_append.1 hmem).resolve_left hfirst) hdue
  · intro k a obj hk ha hor
    have hout : k ∉ ks ∨ ¬ obj.Due now := by
      apply hor.imp_left
      intro hnot hmem
      exact hnot (List.mem_append_left ks' hmem)
    have hout' : k ∉ ks' ∨ ¬ obj.Due now := by
      apply hor.imp_left
      intro hnot hmem
      exact hnot (List.mem_append_right ks hmem)
    obtain ⟨hk', ha'⟩ := h.young k a obj hk ha hout
    exact h'.young k a obj hk' ha' hout'
  · intro k hk
    exact h'.free k (h.free k hk)
  · intro b hb
    rw [h'.heap, h.heap b hb]
    intro j hj
    exact hb j (h.bound hown hj).1

/-- **One visit.** -/
theorem cacheFileTickCb_visited (size : Nat) (hown : s.UnderOwnUri) {k : Key} {a : Addr}
    (hk : s.tableGet k = some a) (now : Timeval) :
    ∃ s', cacheFileTickCb size s a now = .ok s' ∧ s.Visited now [k] s' := by
  obtain ⟨obj, ha, _⟩ := hown k a hk
  obtain ⟨s', hcb, hcases⟩ := cacheFileTickCb_visit size hown hk ha now
  refine ⟨s', hcb, ?_⟩
  rcases hcases with ⟨hdue, hretired⟩ | ⟨hyoung, rfl⟩
  · refine ⟨?_, ?_, ?_, ?_⟩
    · intro j b obj' hj hb hmem _
      rw [List.mem_singleton.1 hmem] at hj ⊢
      cases hk.symm.trans hj
      cases ha.symm.trans hb
      exact ⟨hretired.self, hretired.heap_self⟩
    · intro j b obj' hj hb hor
      have hjk : j ≠ k := by
        intro hjk
        subst hjk
        cases hk.symm.trans hj
        cases ha.symm.trans hb
        rcases hor with hnot | hyoung
        · exact hnot List.mem_cons_self
        · exact hyoung hdue
      exact ⟨(hretired.other hjk).trans hj, (hretired.heap_bound hown hjk hj).trans hb⟩
    · intro j hj
      by_cases hjk : j = k
      · rw [hjk, hretired.self]
      · rw [hretired.other hjk, hj]
    · intro b hb
      apply hretired.heap_other
      intro hba
      exact hb k (hba ▸ hk)
  · refine ⟨?_, fun _ _ _ hj hb _ => ⟨hj, hb⟩, fun _ hj => hj, fun _ _ => rfl⟩
    intro j b obj' hj hb hmem hdue
    rw [List.mem_singleton.1 hmem] at hj
    cases hk.symm.trans hj
    cases ha.symm.trans hb
    exact absurd hdue hyoung

/-- **Every entry is visited once.**  The cursor runs the callback on each of the
entries it was to visit. -/
theorem tickEach_visits (size : Nat) (now : Timeval) :
    ∀ (es : List (Σ _ : Key, Addr)) (i : Nat) (s : Worker), s.UnderOwnUri → es.NodupKeys →
      (∀ e ∈ es, s.tableGet e.1 = some e.2) →
      ∃ s', tickEach size (fun _ => now) es i s = .ok s' ∧
        es.foldlM (fun t e => cacheFileTickCb size t e.2 now) s = .ok s' ∧
        s.Visited now es.keys s' := by
  intro es
  induction es with
  | nil =>
      intro i s _ _ _
      exact ⟨s, rfl, rfl, .nil s now⟩
  | cons e es ih =>
      intro i s hown hnodup hbound
      have hself := hbound e List.mem_cons_self
      obtain ⟨hnot, hnodup'⟩ := List.nodupKeys_cons.1 hnodup
      obtain ⟨t, hcb, hvisited⟩ := cacheFileTickCb_visited size hown hself now
      -- the entries still to be visited are untouched by this visit
      have hrest : ∀ e' ∈ es, t.tableGet e'.1 = some e'.2 := by
        intro e' he'
        have hget := hbound e' (List.mem_cons_of_mem e he')
        obtain ⟨obj, ha, _⟩ := hown e'.1 e'.2 hget
        have hother : e'.1 ∉ [e.1] := by
          intro hmem
          exact hnot (List.mem_singleton.1 hmem ▸ List.mem_keys_of_mem he')
        exact (hvisited.young e'.1 e'.2 obj hget ha (.inl hother)).1
      obtain ⟨s', htick, hfold, hlater⟩ :=
        ih (i + 1) t (hvisited.underOwnUri hown) hnodup' hrest
      refine ⟨s', ?_, ?_, ?_⟩
      · unfold tickEach
        rw [if_pos hself, hcb]
        exact htick
      · rw [List.foldlM_cons, hcb]
        exact hfold
      · rw [List.keys_cons]
        exact hvisited.append hlater hown

/-! ## One tick -/

/-- The file is evictable and idle for more than `MAX_FILE_IDLE` at `now`. -/
def Object.Idle (obj : Object) (now : Timeval) : Prop :=
  obj.file.evictable = true ∧ maxFileIdle < idleMs obj.file.lastAccessed now

/-- The idle files, and no others, have left the table; what left was freed, or
is a zombie if requests are pending. -/
structure Worker.Swept (s : Worker) (now : Timeval) (s' : Worker) : Prop where
  kept : ∀ k a, s'.tableGet k = some a ↔
    s.tableGet k = some a ∧ ∀ obj, s.heap a = some obj → ¬ obj.Idle now
  removed : ∀ k a obj, s.tableGet k = some a → s.heap a = some obj → s'.tableGet k = none →
    if obj.file.pendingReqs = 0 then s'.heap a = none
    else ∃ obj', s'.heap a = some obj' ∧ obj'.serial = obj.serial ∧ obj'.file.zombie = true

/-- Every file was last accessed before `now`, and not too long before. -/
def Worker.Clocked (s : Worker) (now : Timeval) : Prop :=
  ∀ k a obj, s.tableGet k = some a → s.heap a = some obj → obj.file.lastAccessed.Within now

/-- The callback is right about a file unless its seconds overflow. -/
theorem Object.due_iff {obj : Object} (h : obj.file.lastAccessed.Within now) :
    (obj.Due now ↔ obj.Idle now) ↔
      (obj.file.evictable = true → now.sec - obj.file.lastAccessed.sec ≤ 2147483) := by
  unfold Due Idle
  by_cases hsec : now.sec - obj.file.lastAccessed.sec ≤ 2147483
  · rw [getTimeDiffMs_eq h hsec]
    exact ⟨fun _ _ => hsec, fun _ => and_comm⟩
  · obtain ⟨hyoung, hidle⟩ := getTimeDiffMs_overflow h (by omega)
    constructor
    · intro hiff hevictable
      have hdue := (hiff.2 ⟨hevictable, hidle⟩).1
      omega
    · intro hok
      constructor
      · intro hdue
        omega
      · intro hidle
        exact absurd (hok hidle.1) hsec

/-- Where the callback is right about every file, a visit of all entries sweeps. -/
theorem Worker.Visited.swept {ks : List Key} (h : s.Visited now ks s') (hown : s.UnderOwnUri)
    (hall : ∀ k a, s.tableGet k = some a → k ∈ ks)
    (hdue : ∀ k a obj, s.tableGet k = some a → s.heap a = some obj →
      (obj.Due now ↔ obj.Idle now)) : s.Swept now s' := by
  constructor
  · intro k a
    constructor
    · intro hstays
      have hk := (h.bound hown hstays).1
      refine ⟨hk, ?_⟩
      intro obj ha hidle
      have hgone := h.due k a obj hk ha (hall k a hk) ((hdue k a obj hk ha).2 hidle)
      cases hgone.1.symm.trans hstays
    · intro hboth
      obtain ⟨hk, hyoung⟩ := hboth
      obtain ⟨obj, ha, _⟩ := hown k a hk
      have hnot : ¬ obj.Due now := by
        intro hold
        exact hyoung obj ha ((hdue k a obj hk ha).1 hold)
      exact (h.young k a obj hk ha (.inr hnot)).1
  · intro k a obj hk ha hgone
    have hold : obj.Due now := by
      by_contra hyoung
      cases hgone.symm.trans (h.young k a obj hk ha (.inr hyoung)).1
    have hleft := (h.due k a obj hk ha (hall k a hk) hold).2
    unfold Object.outlived at hleft
    split
    · rename_i hzero
      rw [if_pos hzero] at hleft
      exact hleft
    · rename_i hpos
      rw [if_neg hpos] at hleft
      exact ⟨obj.retired, hleft, rfl, rfl⟩

/-- A visit of all entries sweeps only where the callback is right about each. -/
theorem Worker.Visited.due_of_swept {ks : List Key} (h : s.Visited now ks s')
    (hall : ∀ k a, s.tableGet k = some a → k ∈ ks) (hswept : s.Swept now s') {k : Key} {a : Addr}
    {obj : Object} (hk : s.tableGet k = some a) (ha : s.heap a = some obj) :
    obj.Due now ↔ obj.Idle now := by
  constructor
  · intro hdue
    have hgone := (h.due k a obj hk ha (hall k a hk) hdue).1
    by_contra hidle
    have hstays := (hswept.kept k a).2
      ⟨hk, fun obj' ha' => by cases ha.symm.trans ha'; exact hidle⟩
    cases hgone.symm.trans hstays
  · intro hidle
    by_contra hyoung
    have hstays := (h.young k a obj hk ha (.inr hyoung)).1
    exact ((hswept.kept k a).1 hstays).2 obj ha hidle

/-- **One tick.**  In whatever order the cursor walks the table, the callback
sees every entry once; and the tick evicts exactly the idle files if and only if
no evictable file is idle for more than `2147483` seconds. -/
theorem tick_evicts (hown : s.UnderOwnUri) (hclock : s.Clocked now)
    {es : List (Σ _ : Key, Addr)} (hes : es.Perm s.fileTable.entries) :
    ∃ s', tickEach size (fun _ => now) es 0 s = .ok s' ∧
      es.foldlM (fun t e => cacheFileTickCb size t e.2 now) s = .ok s' ∧
      (s.Swept now s' ↔ ∀ k a obj, s.tableGet k = some a → s.heap a = some obj →
        obj.file.evictable = true → now.sec - obj.file.lastAccessed.sec ≤ 2147483) := by
  have hnodup : es.NodupKeys := (List.perm_nodupKeys hes).2 s.fileTable.nodupKeys
  have hbound : ∀ e ∈ es, s.tableGet e.1 = some e.2 := by
    intro e he
    exact AList.mem_lookup_iff.2 (hes.mem_iff.1 he)
  have hall : ∀ k a, s.tableGet k = some a → k ∈ es.keys := by
    intro k a hk
    have hmem : (⟨k, a⟩ : Σ _ : Key, Addr) ∈ es := hes.mem_iff.2 (AList.mem_lookup_iff.1 hk)
    exact List.mem_keys_of_mem hmem
  obtain ⟨s', htick, hfold, hvisited⟩ := tickEach_visits size now es 0 s hown hnodup hbound
  refine ⟨s', htick, hfold, ?_⟩
  constructor
  · intro hswept k a obj hk ha
    exact (Object.due_iff (hclock k a obj hk ha)).1 (hvisited.due_of_swept hall hswept hk ha)
  · intro hsec
    apply hvisited.swept hown hall
    intro k a obj hk ha
    exact (Object.due_iff (hclock k a obj hk ha)).2 (hsec k a obj hk ha)

/-! ## One file -/

theorem oneFile_clocked {uri : Key} {last : Timeval} (h : last.Within now) :
    (oneFile uri last).Clocked now := by
  intro k a obj hk ha
  rw [(oneFile_bound hk).2, (oneFile_stored uri last).heap_self, Option.some.injEq] at ha
  rw [← ha]
  exact h

/-- Two files, of which one was not accessed for six seconds and the other one for one. -/
theorem tick_evicts_sample :
    ∃ s', cacheFileTick 4 (fun _ => ⟨6, 0⟩) (twoFiles fileA ⟨0, 0⟩ fileB ⟨5, 0⟩) = .ok s' ∧
      (twoFiles fileA ⟨0, 0⟩ fileB ⟨5, 0⟩).Swept ⟨6, 0⟩ s' ∧
      s'.tableGet fileA = none ∧ s'.tableGet fileB = some 200 := by
  have hclock : (twoFiles fileA ⟨0, 0⟩ fileB ⟨5, 0⟩).Clocked ⟨6, 0⟩ := by
    intro k a obj hk ha
    rcases twoFiles_heap ha with ⟨-, rfl⟩ | ⟨-, rfl⟩
    · exact ⟨by decide, by decide, by decide, by decide⟩
    · exact ⟨by decide, by decide, by decide, by decide⟩
  obtain ⟨s', htick, _, hiff⟩ :=
    @tick_evicts 4 _ _ (twoFiles_underOwnUri fileA ⟨0, 0⟩ fileB ⟨5, 0⟩) hclock _ (.refl _)
  have hswept : (twoFiles fileA ⟨0, 0⟩ fileB ⟨5, 0⟩).Swept ⟨6, 0⟩ s' := by
    refine hiff.2 ?_
    intro k a obj hk ha _
    rcases twoFiles_heap ha with ⟨-, rfl⟩ | ⟨-, rfl⟩
    · decide
    · decide
  refine ⟨s', htick, hswept, ?_, ?_⟩
  · cases hget : s'.tableGet fileA with
    | none => rfl
    | some a =>
        obtain ⟨hbound, hfresh⟩ := (hswept.kept fileA a).1 hget
        rcases twoFiles_bound hbound with ⟨huri, -⟩ | ⟨-, rfl⟩
        · exact absurd huri (by decide)
        · exact absurd ⟨rfl, by decide⟩ (hfresh (lastUsed fileA ⟨0, 0⟩) rfl)
  · refine (hswept.kept fileB 200).2 ⟨(twoFiles_stored fileA ⟨0, 0⟩ fileB ⟨5, 0⟩).self, ?_⟩
    rintro obj ha ⟨-, hidle⟩
    cases (twoFiles_stored fileA ⟨0, 0⟩ fileB ⟨5, 0⟩).heap_self.symm.trans ha
    exact absurd hidle (by decide)

/-- A file that was not accessed for 24 days and 20 hours stays. -/
theorem tick_keeps_old :
    (oneFile fileA ⟨0, 999999⟩).UnderOwnUri ∧ (oneFile fileA ⟨0, 999999⟩).Clocked ⟨2147484, 0⟩ ∧
      cacheFileTick 4 (fun _ => ⟨2147484, 0⟩) (oneFile fileA ⟨0, 999999⟩) =
        .ok (oneFile fileA ⟨0, 999999⟩) ∧
      ¬ (oneFile fileA ⟨0, 999999⟩).Swept ⟨2147484, 0⟩ (oneFile fileA ⟨0, 999999⟩) := by
  have hstored := oneFile_stored fileA ⟨0, 999999⟩
  refine ⟨oneFile_underOwnUri _ _,
    oneFile_clocked ⟨by decide, by decide, by decide, by decide⟩, rfl, ?_⟩
  intro hswept
  exact ((hswept.kept fileA 100).1 hstored.self).2 _ hstored.heap_self ⟨rfl, by decide⟩

end MonkeyCache
