import MonkeyCache.ObjectLife
import MonkeyCache.TableEffects

/-!
# Adding files and finding them again

The functions of `cache_file.c` in any order, without requests.  `uri` is
truncated twice: `_mkp_stage_30` passes on up to `MAX_URI_LEN` characters, and
a file object keeps one less.  The table is searched for the URI itself, and the
object is stored under what it keeps.

* `failed_add` — a constructor that fails leaves table and objects alone, but
  `cache_file_tmp` has reset its key before.
* `inserted_found` — with URIs that are kept whole, a file is found under its
  URI, and none leaves the table without becoming a zombie.
* `long_uri_lost` — a file whose URI has `MAX_URI_LEN` characters is not found.
-/

namespace MonkeyCache

open Fallible Transition

variable {size : Nat} {s s' : Worker}

/-! ## A constructor that fails -/

/-- Every key leads to the same live object as before. -/
def Worker.SameFiles (s s' : Worker) : Prop :=
  ∀ k, s'.tableGet k = s.tableGet k ∧ ∀ a, s.tableGet k = some a → s'.heap a = s.heap a

/-- An unchanged worker has the same files. -/
theorem Worker.Unchanged.sameFiles (h : s.Unchanged s') : s.SameFiles s' := by
  intro k
  exact ⟨h.tableGet_eq k, fun a _ => by rw [h.heap]⟩

/-- **A failing add.**  `cache_file_tmp` leaves the cache as it was exactly when
the key was free; `cache_file_new` always does. -/
theorem failed_add {size : Nat} {s s' : Worker} {uri : Key} {o : CreateOut} :
    (∀ {body : List Byte}, cacheFileTmp size s uri body o = .ok (none, s') →
      (s.SameFiles s' ↔ s.tableGet uri = none)) ∧
    ∀ {path : Key} {disk : Key → Option (List Byte)},
      cacheFileNew size s path uri disk o = .ok (none, s') → s.SameFiles s' := by
  constructor
  · intro body h
    obtain ⟨s₁, hreset, hgone, hfail | hmade⟩ := cacheFileTmp_cases h
    · obtain ⟨_, hsame, _⟩ := hfail
      constructor
      · intro hfiles
        rw [← (hfiles uri).1, hsame.tableGet_eq, hgone]
      · intro hnone
        rcases fileTableReset_cases hreset with ⟨_, rfl⟩ | ⟨a, obj, hretired⟩
        · exact hsame.sameFiles
        · exact absurd (hretired.bound.symm.trans hnone) (Option.some_ne_none a)
    · exact absurd hmade.1.symm (Option.some_ne_none _)
  · intro path disk h
    rcases cacheFileNew_cases h with ⟨_, hsame⟩ | ⟨a, hsome, _⟩ | ⟨hsome, _⟩
    · exact hsame.sameFiles
    · cases hsome
    · cases hsome

/-- A constructor for which no temporary file can be opened. -/
def noFile : CreateOut := { plainCreate 100 ⟨0, false, 0⟩ with opened := false }

/-- Both constructors fail on a free key, in a table that holds another file. -/
theorem failed_add_sample :
    ∃ s s₁ s₂, cacheFileTmp 4 Worker.init fileB [1] (plainCreate 100 ⟨0, false, 0⟩) =
        .ok (some 100, s) ∧
      cacheFileTmp 4 s fileA [1] noFile = .ok (none, s₁) ∧
      cacheFileNew 4 s fileA fileA (fun _ => some [1]) noFile = .ok (none, s₂) ∧
      s.tableGet fileB = some 100 ∧ (s.SameFiles s₁ ↔ s.tableGet fileA = none) ∧
      s.SameFiles s₂ := by
  refine ⟨_, _, _, rfl, rfl, rfl, rfl, ?_, ?_⟩
  · exact failed_add.1 (show cacheFileTmp 4 _ fileA [1] noFile = .ok (none, _) from rfl)
  · exact failed_add.2
      (show cacheFileNew 4 _ fileA fileA (fun _ => some [1]) noFile = .ok (none, _) from rfl)

/-- A resource that is to replace an added one: the temporary file cannot be
opened, and the old resource is gone. -/
theorem failed_add_loses :
    ∃ s s', cacheFileTmp 4 Worker.init fileA [1] (plainCreate 100 ⟨0, false, 0⟩) =
        .ok (some 100, s) ∧
      cacheFileTmp 4 s fileA [2] noFile = .ok (none, s') ∧ ¬ s.SameFiles s' := by
  refine ⟨_, _, rfl, rfl, ?_⟩
  intro h
  exact absurd (h fileA).1.symm (Option.some_ne_none 100)

/-! ## The functions as a machine -/

/-- A call of `cache_file.c`. -/
inductive TableEvent
  | get (uri : Key) (now : Timeval)
  | new (path uri : Key) (disk : Key → Option (List Byte)) (o : CreateOut)
  | tmp (uri : Key) (body : List Byte) (o : CreateOut)
  | reset (uri : Key)
  | tick (now : Nat → Timeval)

/-- One call; what it returns is reported. -/
def Worker.tableStep (size : Nat) (s : Worker) :
    TableEvent → Except Fault (Option Addr × Worker)
  | .get uri now => cacheFileGet s uri now
  | .new path uri disk o => cacheFileNew size s path uri disk o
  | .tmp uri body o => cacheFileTmp size s uri body o
  | .reset uri => do
    let s ← fileTableReset size s uri
    .ok (none, s)
  | .tick now => do
    let s ← cacheFileTick size now s
    .ok (none, s)

/-- A file object keeps the URIs of its constructor whole. -/
def TableEvent.Short : TableEvent → Prop
  | .new _ uri _ _ => uri.length < maxUriLen
  | .tmp uri _ _ => uri.length < maxUriLen
  | _ => True

/-- The event neither resets `uri` nor adds a resource for it, and no tick finds
its object idle. -/
def Worker.Spares (s : Worker) (uri : Key) : TableEvent → Prop
  | .tmp key _ _ => key ≠ uri
  | .reset key => key ≠ uri
  | .tick now => ∀ a obj i, s.tableGet uri = some a → s.heap a = some obj → ¬ obj.Due (now i)
  | _ => True

/-- The runs of calls that all satisfy `P`. -/
def Worker.TableRuns (size : Nat) (P : Worker → TableEvent → Prop) (s₀ s : Worker) : Prop :=
  Reachable (guarded P (stepRel (Worker.tableStep size))) s₀ s

/-! ## Leaving the table -/

/-- The object with the number `n` is a zombie, or it was freed. -/
def Books.Gone (s : Books) (n : Nat) : Prop :=
  (∃ a obj, s.heap a = some obj ∧ obj.serial = n ∧ obj.file.zombie = true) ∨
    ∃ x ∈ s.frees, x.serial = n

/-- No object has left the table unless it is a zombie or was freed. -/
structure Worker.Accounted (s s' : Worker) : Prop where
  holds : ∀ k n, s.Holds k n → s'.Holds k n ∨ s'.Gone n
  gone : ∀ n, s.Gone n → s'.Gone n

variable {k uri : Key} {a : Addr} {obj : Object}

/-- A worker left alone loses no object. -/
theorem Worker.Accounted.refl (s : Worker) : s.Accounted s :=
  ⟨fun _ _ h => .inl h, fun _ h => h⟩

/-- Two steps that lose no object lose none together. -/
theorem Worker.Accounted.trans {s'' : Worker} (h : s.Accounted s') (h' : s'.Accounted s'') :
    s.Accounted s'' where
  holds k n hn := (h.holds k n hn).elim (h'.holds k n) (fun hgone => .inr (h'.gone n hgone))
  gone n hn := h'.gone n (h.gone n hn)

/-- An unchanged worker has lost no object. -/
theorem Worker.Unchanged.accounted (h : s.Unchanged s') : s.Accounted s' := by
  constructor
  · intro k n hn
    obtain ⟨a, obj, hget, ha, hserial⟩ := hn
    exact .inl ⟨a, obj, by rw [h.tableGet_eq, hget], by rw [h.heap, ha], hserial⟩
  · intro n hn
    rcases hn with hzombie | ⟨x, hx, hserial⟩
    · left
      rw [h.heap]
      exact hzombie
    · exact .inr ⟨x, h.frees.mem hx, hserial⟩

/-- The object that leaves becomes a zombie, and may be freed at once. -/
theorem Worker.Retired.accounted (h : s.Retired k a obj s') (hown : s.UnderOwnUri) :
    s.Accounted s' := by
  have hself : s'.Gone obj.serial := by
    cases hout : obj.outlived with
    | none => exact .inr (h.freed hout)
    | some obj' =>
        unfold Object.outlived at hout
        split at hout
        · cases hout
        · rename_i hpos
          refine .inl ⟨a, obj.retired, ?_, rfl, rfl⟩
          rw [h.heap_self]
          exact if_neg hpos
  constructor
  · intro j n hn
    obtain ⟨b, obj', hget, hb, rfl⟩ := hn
    by_cases hj : j = k
    · subst hj
      cases hget.symm.trans h.bound
      cases hb.symm.trans h.live
      exact .inr hself
    · exact .inl ⟨b, obj', by rw [h.other hj, hget],
        by rw [h.heap_bound hown hj hget, hb], rfl⟩
  · intro n hn
    rcases hn with ⟨b, obj', hb, rfl, hzombie⟩ | ⟨x, hx, hserial⟩
    · by_cases hba : b = a
      · subst hba
        cases hb.symm.trans h.live
        exact hself
      · exact .inl ⟨b, obj', by rw [h.heap_other hba, hb], rfl, hzombie⟩
    · exact .inr ⟨x, h.frees.mem hx, hserial⟩

/-- A new object under a free key. -/
theorem Worker.Stored.accounted (h : s.Stored a obj s') (hfree : s.tableGet obj.file.uri = none) :
    s.Accounted s' := by
  constructor
  · intro j n hn
    obtain ⟨b, obj', hget, hb, hserial⟩ := hn
    have hj : j ≠ obj.file.uri := by
      intro hj
      rw [hj, hfree] at hget
      cases hget
    exact .inl ⟨b, obj', by rw [h.other hj, hget], h.heap_live hb, hserial⟩
  · intro n hn
    rcases hn with ⟨b, obj', hb, hserial, hzombie⟩ | ⟨x, hx, hserial⟩
    · exact .inl ⟨b, obj', h.heap_live hb, hserial, hzombie⟩
    · exact .inr ⟨x, by rw [h.frees]; exact hx, hserial⟩

/-- The time of the last access says nothing about where an object is. -/
theorem Worker.accessed_heap (ha : s.heap a = some obj) (now : Timeval) (b : Addr) :
    (s.put a (obj.accessed now)).heap b = some (obj.accessed now) ∧ b = a ∨
      (s.put a (obj.accessed now)).heap b = s.heap b ∧ b ≠ a := by
  by_cases hba : b = a
  · subst hba
    exact .inl ⟨Function.update_self _ _ _, rfl⟩
  · exact .inr ⟨Function.update_of_ne hba _ _, hba⟩

/-- An access leaves every object live under its serial and its URI. -/
theorem Worker.accessed_live (ha : s.heap a = some obj) (now : Timeval) {b : Addr} {obj' : Object}
    (hb : s.heap b = some obj') : ∃ obj'', (s.put a (obj.accessed now)).heap b = some obj'' ∧
      obj''.serial = obj'.serial ∧ obj''.file.uri = obj'.file.uri ∧
      obj''.file.zombie = obj'.file.zombie := by
  rcases Worker.accessed_heap ha now b with ⟨hheap, rfl⟩ | ⟨hheap, _⟩
  · cases ha.symm.trans hb
    exact ⟨_, hheap, rfl, rfl, rfl⟩
  · exact ⟨obj', hheap.trans hb, rfl, rfl, rfl⟩

/-- An access loses no object. -/
theorem Worker.accessed_accounted (ha : s.heap a = some obj) (now : Timeval) :
    s.Accounted (s.put a (obj.accessed now)) := by
  constructor
  · intro k n hn
    obtain ⟨b, obj', hget, hb, rfl⟩ := hn
    obtain ⟨obj'', hb', hserial, _⟩ := Worker.accessed_live ha now hb
    exact .inl ⟨b, obj'', hget, hb', hserial⟩
  · intro n hn
    rcases hn with ⟨b, obj', hb, rfl, hzombie⟩ | hfreed
    · obtain ⟨obj'', hb', hserial, _, hz⟩ := Worker.accessed_live ha now hb
      exact .inl ⟨b, obj'', hb', hserial, hz.trans hzombie⟩
    · exact .inr hfreed

/-- An access moves no URI. -/
theorem Worker.accessed_underOwnUri (hown : s.UnderOwnUri) (ha : s.heap a = some obj)
    (now : Timeval) : (s.put a (obj.accessed now)).UnderOwnUri := by
  intro k b hb
  obtain ⟨obj', hlive, huri⟩ := hown k b hb
  obtain ⟨obj'', hb', _, huri', _⟩ := Worker.accessed_live ha now hlive
  exact ⟨obj'', hb', huri'.trans huri⟩

/-- A URI that is kept whole. -/
theorem kept_uri (h : uri.length < maxUriLen) : uri.take (maxUriLen - 1) = uri :=
  stored_uri (by omega)

/-- **One call.**  No object leaves the table unless it is a zombie or was freed. -/
theorem Worker.tableStep_accounted (hown : s.UnderOwnUri) {e : TableEvent} (hshort : e.Short)
    {out : Option Addr} (h : s.tableStep size e = .ok (out, s')) :
    s'.UnderOwnUri ∧ s.Accounted s' := by
  cases e with
  | get key now =>
      rcases cacheFileGet_cases h with ⟨_, _, rfl⟩ | ⟨a, obj, _, _, ha, rfl⟩
      · exact ⟨hown, .refl _⟩
      · exact ⟨accessed_underOwnUri hown ha now, accessed_accounted ha now⟩
  | new path key disk o =>
      rcases cacheFileNew_cases h with ⟨_, hsame⟩ | ⟨a, _, _, rfl⟩ | ⟨_, hfree, _, _, _, hstored⟩
      · exact ⟨hsame.underOwnUri hown, hsame.accounted⟩
      · exact ⟨hown, .refl _⟩
      · refine ⟨hstored.underOwnUri hown, hstored.accounted ?_⟩
        exact (congrArg s.tableGet (kept_uri hshort)).trans hfree
  | tmp key body o =>
      obtain ⟨s₁, hreset, hgone, hmade⟩ := cacheFileTmp_cases h
      have hfirst : s₁.UnderOwnUri ∧ s.Accounted s₁ := by
        rcases fileTableReset_cases hreset with ⟨_, rfl⟩ | ⟨a, obj, hretired⟩
        · exact ⟨hown, .refl _⟩
        · exact ⟨hretired.underOwnUri hown, hretired.accounted hown⟩
      rcases hmade with ⟨_, hsame, _⟩ | ⟨_, _, _, hstored⟩
      · exact ⟨hsame.underOwnUri hfirst.1, hfirst.2.trans hsame.accounted⟩
      · refine ⟨hstored.underOwnUri hfirst.1, hfirst.2.trans (hstored.accounted ?_)⟩
        exact (congrArg s₁.tableGet (kept_uri hshort)).trans hgone
  | reset key =>
      obtain ⟨s₁, hreset, h⟩ := bind_eq_ok.1 h
      cases h
      rcases fileTableReset_cases hreset with ⟨_, rfl⟩ | ⟨a, obj, hretired⟩
      · exact ⟨hown, .refl _⟩
      · exact ⟨hretired.underOwnUri hown, hretired.accounted hown⟩
  | tick now =>
      obtain ⟨s₁, htick, h⟩ := bind_eq_ok.1 h
      cases h
      have hrule : Ensures (cacheFileTick size now s)
          (fun s' => s'.UnderOwnUri ∧ s.Accounted s') (fun _ => False) := by
        apply cacheFileTick_rule ?_ hown (.refl s)
        intro t t' k a obj _ hown ht hretired _
        exact ht.trans (hretired.accounted hown)
      exact hrule.of_ok htick

/-! ## Staying in the table -/

/-- The object with the number `n` is at `a`, and `k` is bound to it. -/
def Books.HoldsAt (s : Books) (k : Key) (a : Addr) (n : Nat) : Prop :=
  s.tableGet k = some a ∧ ∃ obj, s.heap a = some obj ∧ obj.serial = n

variable {n : Nat}

/-- An unchanged worker holds the object where it was. -/
theorem Worker.Unchanged.holdsAt (h : s.Unchanged s') (hn : s.HoldsAt uri a n) :
    s'.HoldsAt uri a n :=
  ⟨by rw [h.tableGet_eq, hn.1], by rw [h.heap]; exact hn.2⟩

/-- Retiring another URI leaves the object where it was. -/
theorem Worker.Retired.holdsAt {b : Addr} (h : s.Retired k b obj s') (hown : s.UnderOwnUri)
    (hk : k ≠ uri) (hn : s.HoldsAt uri a n) : s'.HoldsAt uri a n :=
  ⟨by rw [h.other hk.symm, hn.1], by rw [h.heap_bound hown hk.symm hn.1]; exact hn.2⟩

/-- Storing under another URI leaves the object where it was. -/
theorem Worker.Stored.holdsAt {b : Addr} (h : s.Stored b obj s') (hk : obj.file.uri ≠ uri)
    (hn : s.HoldsAt uri a n) : s'.HoldsAt uri a n := by
  obtain ⟨hget, obj', ha, hserial⟩ := hn
  exact ⟨by rw [h.other hk.symm, hget], obj', h.heap_live ha, hserial⟩

/-- **One call** that spares `uri`. -/
theorem Worker.tableStep_holdsAt (hown : s.UnderOwnUri) {e : TableEvent} (hshort : e.Short)
    (hspares : s.Spares uri e) {out : Option Addr} (h : s.tableStep size e = .ok (out, s'))
    (hn : s.HoldsAt uri a n) : s'.HoldsAt uri a n := by
  cases e with
  | get key now =>
      rcases cacheFileGet_cases h with ⟨_, _, rfl⟩ | ⟨b, obj, _, _, hb, rfl⟩
      · exact hn
      · obtain ⟨hget, obj', ha, hserial⟩ := hn
        obtain ⟨obj'', ha', hserial', _⟩ := Worker.accessed_live hb now ha
        exact ⟨hget, obj'', ha', hserial'.trans hserial⟩
  | new path key disk o =>
      rcases cacheFileNew_cases h with ⟨_, hsame⟩ | ⟨b, _, _, rfl⟩ | ⟨_, hfree, _, _, _, hstored⟩
      · exact hsame.holdsAt hn
      · exact hn
      · refine hstored.holdsAt ?_ hn
        intro heq
        rw [← heq] at hn
        have hnone := (congrArg s.tableGet (kept_uri hshort)).trans hfree
        cases hn.1.symm.trans hnone
  | tmp key body o =>
      obtain ⟨s₁, hreset, hgone, hmade⟩ := cacheFileTmp_cases h
      have hfirst : s₁.HoldsAt uri a n := by
        rcases fileTableReset_cases hreset with ⟨_, rfl⟩ | ⟨b, obj, hretired⟩
        · exact hn
        · exact hretired.holdsAt hown hspares hn
      rcases hmade with ⟨_, hsame, _⟩ | ⟨_, _, _, hstored⟩
      · exact hsame.holdsAt hfirst
      · exact hstored.holdsAt (fun heq => hspares ((kept_uri hshort).symm.trans heq)) hfirst
  | reset key =>
      obtain ⟨s₁, hreset, h⟩ := bind_eq_ok.1 h
      cases h
      rcases fileTableReset_cases hreset with ⟨_, rfl⟩ | ⟨b, obj, hretired⟩
      · exact hn
      · exact hretired.holdsAt hown hspares hn
  | tick now =>
      obtain ⟨s₁, htick, h⟩ := bind_eq_ok.1 h
      cases h
      obtain ⟨hget, obj, ha, hserial⟩ := hn
      -- until its own visit the object is the one the tick started with
      have hrule : Ensures (cacheFileTick size now s)
          (fun s' => s'.UnderOwnUri ∧ (s'.tableGet uri = some a ∧ s'.heap a = some obj))
          (fun _ => False) := by
        apply cacheFileTick_rule ?_ hown ⟨hget, ha⟩
        intro t t' k b obj' i hown ht hretired hdue
        have hk : uri ≠ k := by
          intro hk
          rw [← hk] at hretired
          cases ht.1.symm.trans hretired.bound
          cases ht.2.symm.trans hretired.live
          exact hspares a obj i hget ha hdue
        exact ⟨by rw [hretired.other hk, ht.1], by rw [hretired.heap_bound hown hk ht.1, ht.2]⟩
      have hend := hrule.of_ok htick
      exact ⟨hend.2.1, obj, hend.2.2, hserial⟩

/-! ## What is inserted is found -/

/-- The empty table names nothing by another URI. -/
theorem Worker.init_underOwnUri : Worker.init.UnderOwnUri := by
  intro k a h
  simp [Worker.init, Books.tableGet] at h

/-- **Run lemma.** -/
theorem Worker.underOwnUri_of_runs {s₀ : Worker} (h : s₀.UnderOwnUri)
    {P : Worker → TableEvent → Prop} (hP : ∀ s e, P s e → e.Short)
    (hrun : Worker.TableRuns size P s₀ s) : s.UnderOwnUri := by
  apply hrun.invariant (fun s => s.UnderOwnUri) h
  intro t e t' _ hown hstep
  obtain ⟨he, _, hstep⟩ := hstep
  exact (Worker.tableStep_accounted hown (hP t e he) hstep).1

/-- An object stays under its URI as long as the calls spare it. -/
theorem Worker.holdsAt_of_runs {s₀ : Worker} (h : s₀.UnderOwnUri) (hn : s₀.HoldsAt uri a n)
    (hrun : Worker.TableRuns size (fun t e => e.Short ∧ t.Spares uri e) s₀ s) :
    s.HoldsAt uri a n := by
  have hboth : s.UnderOwnUri ∧ s.HoldsAt uri a n := by
    apply hrun.invariant (fun s => s.UnderOwnUri ∧ s.HoldsAt uri a n) ⟨h, hn⟩
    intro t e t' _ ht hstep
    obtain ⟨he, _, hstep⟩ := hstep
    exact ⟨(Worker.tableStep_accounted ht.1 he.1 hstep).1,
      Worker.tableStep_holdsAt ht.1 he.1 he.2 hstep ht.2⟩
  exact hboth.2

/-- A look-up finds the same file in two states that agree on it. -/
theorem cacheFileGet_agrees (hown : s.UnderOwnUri) (hget : s'.tableGet k = s.tableGet k)
    (hheap : ∀ a, s.tableGet k = some a → s'.heap a = s.heap a) (now : Timeval) :
    (cacheFileGet s' k now).map Prod.fst = (cacheFileGet s k now).map Prod.fst := by
  cases hk : s.tableGet k with
  | none =>
      rw [hk] at hget
      rw [cacheFileGet_free hk, cacheFileGet_free hget]
      rfl
  | some a =>
      obtain ⟨obj, ha, _⟩ := hown k a hk
      rw [hk] at hget
      rw [cacheFileGet_bound hk ha, cacheFileGet_bound hget ((hheap a hk).trans ha)]
      rfl

/-- **Inserted and found.**  In every state that calls with short URIs reach, a
file that `cache_file_new` returns is found under its URI until it is reset,
replaced or evicted, the other URIs lead where they did, and no call takes an
object out of the table without making it a zombie. -/
theorem inserted_found (hrun : Worker.TableRuns size (fun _ e => e.Short) Worker.init s) :
    (∀ {path uri : Key} {disk : Key → Option (List Byte)} {o : CreateOut} {a : Addr} {s' : Worker},
      uri.length < maxUriLen → cacheFileNew size s path uri disk o = .ok (some a, s') →
        (∀ k now, k ≠ uri →
          (cacheFileGet s' k now).map Prod.fst = (cacheFileGet s k now).map Prod.fst) ∧
        ∃ n, ∀ t, Worker.TableRuns size (fun t e => e.Short ∧ t.Spares uri e) s' t →
          t.HoldsAt uri a n ∧ ∀ now, ∃ t', cacheFileGet t uri now = .ok (some a, t')) ∧
    ∀ {e : TableEvent} {out : Option Addr} {s' : Worker}, e.Short →
      s.tableStep size e = .ok (out, s') → ∀ k n, s.Holds k n → s'.Holds k n ∨ s'.Gone n := by
  have hown := Worker.underOwnUri_of_runs Worker.init_underOwnUri (fun _ _ he => he) hrun
  constructor
  · intro path uri disk o a s' huri hnew
    have hown' : s'.UnderOwnUri := (Worker.tableStep_accounted (e := .new path uri disk o) hown
      huri hnew).1
    have hmade : (∀ k, k ≠ uri → s'.tableGet k = s.tableGet k ∧
        ∀ b, s.tableGet k = some b → s'.heap b = s.heap b) ∧ ∃ n, s'.HoldsAt uri a n := by
      rcases cacheFileNew_cases hnew with
        ⟨hnone, _⟩ | ⟨b, hsome, hget, rfl⟩ | ⟨hsome, _, _, _, _, hstored⟩
      · cases hnone
      · cases hsome
        obtain ⟨obj, ha, _⟩ := hown uri a hget
        exact ⟨fun k _ => ⟨rfl, fun _ _ => rfl⟩, obj.serial, hget, obj, ha, rfl⟩
      · cases hsome
        have hself := hstored.self
        refine ⟨?_, _, (congrArg s'.tableGet (kept_uri huri)).symm.trans hself, _,
          hstored.heap_self, rfl⟩
        intro k hk
        refine ⟨hstored.other fun heq => hk (heq.trans (kept_uri huri)), ?_⟩
        intro b hb
        obtain ⟨obj, hlive, _⟩ := hown k b hb
        rw [hstored.heap_live hlive, hlive]
    obtain ⟨hothers, n, hn⟩ := hmade
    refine ⟨fun k now hk => cacheFileGet_agrees hown (hothers k hk).1 (hothers k hk).2 now, n, ?_⟩
    intro t hlater
    have ht := Worker.holdsAt_of_runs hown' hn hlater
    refine ⟨ht, ?_⟩
    intro now
    obtain ⟨hget, obj, ha, _⟩ := ht
    exact ⟨_, cacheFileGet_bound hget ha now⟩
  · intro e out s' hshort hstep
    exact (Worker.tableStep_accounted hown hshort hstep).2.holds

/-- A file next to an added resource, which is then reset. -/
theorem inserted_found_sample :
    ∃ s s' t n, cacheFileTmp 4 Worker.init fileB [1] (plainCreate 100 ⟨0, false, 0⟩) =
        .ok (some 100, s) ∧
      cacheFileNew 4 s fileA fileA (fun _ => some [1]) (plainCreate 200 ⟨0, false, 0⟩) =
        .ok (some 200, s') ∧ s'.HoldsAt fileA 200 n ∧
      fileTableReset 4 s fileB = .ok t ∧ (t.Holds fileB 0 ∨ t.Gone 0) := by
  have hrun : Worker.TableRuns 4 (fun _ e => e.Short) Worker.init _ :=
    .of_exec [.tmp fileB [1] (plainCreate 100 ⟨0, false, 0⟩)]
      (by
        intro e he _
        rw [List.mem_singleton.1 he]
        show fileB.length < maxUriLen
        decide) rfl
  have hfound := inserted_found hrun
  have hshort : fileA.length < maxUriLen := by decide
  have hnew := @hfound.1 fileA fileA (fun _ => some [1]) (plainCreate 200 ⟨0, false, 0⟩) _ _
    hshort rfl
  obtain ⟨_, n, hn⟩ := hnew
  have hreset := hfound.2 (e := .reset fileB) trivial rfl fileB 0 ⟨100, _, rfl, rfl, rfl⟩
  exact ⟨_, _, _, n, rfl, rfl, (hn _ .init).1, rfl, hreset⟩

/-- A file whose URI has `MAX_URI_LEN` characters is returned, and not found. -/
theorem long_uri_lost :
    ∃ uri s', uri.length = maxUriLen ∧
      cacheFileNew 4 Worker.init uri uri (fun _ => some [1]) (plainCreate 100 ⟨0, false, 0⟩) =
        .ok (some 100, s') ∧ ∀ now, cacheFileGet s' uri now = .ok (none, s') := by
  obtain ⟨uri, hlen, s', hnew⟩ : ∃ uri : Key, uri.length = maxUriLen ∧ ∃ s',
      cacheFileNew 4 Worker.init uri uri (fun _ => some [1]) (plainCreate 100 ⟨0, false, 0⟩) =
        .ok (some 100, s') :=
    ⟨List.replicate maxUriLen 'a', List.length_replicate, _, rfl⟩
  refine ⟨uri, s', hlen, hnew, ?_⟩
  intro now
  apply cacheFileGet_free
  rcases cacheFileNew_cases hnew with ⟨hnone, _⟩ | ⟨a, _, hget, _⟩ | ⟨_, hfree, _, _, _, hstored⟩
  · cases hnone
  · cases hget
  · rw [hstored.other, hfree]
    -- the object keeps one character less
    intro heq
    have hcut := congrArg List.length heq
    simp only [builtFile, List.length_take, hlen, maxUriLen] at hcut
    omega

/-! ## A table to look at -/

/-- A file that was last accessed at `last`. -/
def lastUsed (uri : Key) (last : Timeval) : Object where
  file := builtFile uri [1] true false 0 { plainCreate 100 ⟨0, false, 0⟩ with now := last }
    (.fresh 4 0) [.fresh 4 1]
  maker := .cacheFileNew
  serial := 0
  base := 0

/-- A worker with this file. -/
def oneFile (uri : Key) (last : Timeval) : Worker :=
  { Worker.init with
    heap := Function.update Worker.init.heap 100 (some (lastUsed uri last))
    fileTable := Buckets.store (lastUsed uri last).file.uri 100 Worker.init.fileTable
    serials := 1 }

/-- The worker with one file has stored it in the empty table. -/
theorem oneFile_stored (uri : Key) (last : Timeval) :
    Worker.init.Stored 100 (lastUsed uri last) (oneFile uri last) :=
  ⟨rfl, rfl, rfl, rfl, rfl, rfl⟩

/-- The worker with one file names it by its own URI. -/
theorem oneFile_underOwnUri (uri : Key) (last : Timeval) : (oneFile uri last).UnderOwnUri :=
  (oneFile_stored uri last).underOwnUri Worker.init_underOwnUri

/-- There is no other file in its table. -/
theorem oneFile_bound {uri : Key} {last : Timeval} (h : (oneFile uri last).tableGet k = some a) :
    k = uri.take (maxUriLen - 1) ∧ a = 100 := by
  by_cases hk : k = uri.take (maxUriLen - 1)
  · subst hk
    have hself : some 100 = some a := (oneFile_stored uri last).self.symm.trans h
    exact ⟨rfl, (Option.some.inj hself).symm⟩
  · have hnone : (oneFile uri last).tableGet k = none := (oneFile_stored uri last).other hk
    cases hnone.symm.trans h

/-- The same worker with another file, behind the first one. -/
def twoFiles (uri : Key) (last : Timeval) (uri' : Key) (last' : Timeval) : Worker :=
  { oneFile uri last with
    heap := Function.update (oneFile uri last).heap 200
      (some { lastUsed uri' last' with serial := 1 })
    fileTable := Buckets.store (lastUsed uri' last').file.uri 200 (oneFile uri last).fileTable
    serials := 2 }

section TwoFiles

variable {uri uri' : Key} {last last' : Timeval}

/-- The worker with two files has stored the second behind the first. -/
theorem twoFiles_stored (uri : Key) (last : Timeval) (uri' : Key) (last' : Timeval) :
    (oneFile uri last).Stored 200 { lastUsed uri' last' with serial := 1 }
      (twoFiles uri last uri' last') :=
  ⟨rfl, rfl, rfl, rfl, rfl, rfl⟩

/-- The worker with two files names both by their own URIs. -/
theorem twoFiles_underOwnUri (uri : Key) (last : Timeval) (uri' : Key) (last' : Timeval) :
    (twoFiles uri last uri' last').UnderOwnUri :=
  (twoFiles_stored uri last uri' last').underOwnUri (oneFile_underOwnUri uri last)

/-- Both files are in its table, and no other. -/
theorem twoFiles_bound (h : (twoFiles uri last uri' last').tableGet k = some a) :
    k = uri'.take (maxUriLen - 1) ∧ a = 200 ∨ k = uri.take (maxUriLen - 1) ∧ a = 100 := by
  by_cases hk : k = uri'.take (maxUriLen - 1)
  · subst hk
    have hself : some 200 = some a := (twoFiles_stored uri last uri' last').self.symm.trans h
    exact .inl ⟨rfl, (Option.some.inj hself).symm⟩
  · have hother : (twoFiles uri last uri' last').tableGet k = (oneFile uri last).tableGet k :=
      (twoFiles_stored uri last uri' last').other hk
    exact .inr (oneFile_bound (hother.symm.trans h))

/-- The two objects. -/
theorem twoFiles_heap {obj : Object} (h : (twoFiles uri last uri' last').heap a = some obj) :
    a = 200 ∧ obj = { lastUsed uri' last' with serial := 1 } ∨ a = 100 ∧ obj = lastUsed uri last := by
  simp only [twoFiles, oneFile, Function.update_apply] at h
  split at h
  · exact .inl ⟨‹_›, (Option.some.inj h).symm⟩
  · split at h
    · exact .inr ⟨‹_›, (Option.some.inj h).symm⟩
    · cases h

end TwoFiles

end MonkeyCache
