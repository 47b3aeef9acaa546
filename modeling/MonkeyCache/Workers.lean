import MonkeyCache.Lib.Transition

/-!
# Reference counting across workers (`cache.c`, `cache_req.c`, `cache_file.c`)

Any number of workers serve requests on one file object and reset it.  What one
worker does to the object is cut into atomic steps, and a run is any order of
the steps of all workers.  `_mkp_stage_30` finds the object in the table
(`tableGet`) and then raises its counter (`addPending`); `cache_req_del` lowers
the counter (`subPending`) and then frees a zombie whose counter is 0
(`testZombie`); `file_table_reset` takes the object out of the table
(`tableDel`), makes it a zombie (`setZombie`) and frees it if its counter is 0
(`testPending`).

The counter is right in every state, but the decision to free is taken on a
counter that says nothing about the workers between two of their steps.  The
object is safe exactly as long as a worker frees it while all the others are
between two calls (`Workers.Alone`).
-/

namespace MonkeyCache

open Transition

/-- Where a worker is in the code that touches the object. -/
inductive Pc
  /-- between two calls -/
  | idle
  /-- `_mkp_stage_30` after the look-up, before the counter is raised -/
  | found
  /-- `cache_req_del` after the counter was lowered, before the test -/
  | lowered
  /-- `file_table_reset` after `table_del` -/
  | deleted
  /-- `file_table_reset` after `zombie = 1` -/
  | marked
  deriving DecidableEq, Repr

/-- One atomic step. -/
inductive WorkerAct
  | tableGet
  | addPending
  | subPending
  | testZombie
  | tableDel
  | setZombie
  | testPending
  deriving DecidableEq, Repr

/-- The file object, how often `cache_file_free` was applied to it, and for each
worker its position and the number of its requests on the object. -/
structure Workers (ω : Type) where
  inTable : Bool
  zombie : Bool
  pendingReqs : Int
  frees : Nat
  pc : ω → Pc
  reqs : ω → Nat

variable {ω : Type} [DecidableEq ω]

/-- The worker moves on to another position. -/
def Workers.at (s : Workers ω) (w : ω) (p : Pc) : Workers ω :=
  { s with pc := Function.update s.pc w p }

/-- `cache_file_free` -/
def Workers.free (s : Workers ω) : Workers ω := { s with frees := s.frees + 1 }

/-- A step of worker `w`; there is none where the worker is not at that point of
the code. -/
def Workers.step (s : Workers ω) (w : ω) : WorkerAct → Option (Workers ω)
  | .tableGet =>
    if s.pc w = .idle ∧ s.inTable then some (s.at w .found) else none
  | .addPending =>
    if s.pc w = .found then
      some { s.at w .idle with
        pendingReqs := s.pendingReqs + 1
        reqs := Function.update s.reqs w (s.reqs w + 1) }
    else none
  | .subPending =>
    if s.pc w = .idle ∧ 0 < s.reqs w then
      some { s.at w .lowered with
        pendingReqs := s.pendingReqs - 1
        reqs := Function.update s.reqs w (s.reqs w - 1) }
    else none
  | .testZombie =>
    if s.pc w = .lowered then
      some (if s.zombie ∧ s.pendingReqs = 0 then (s.at w .idle).free else s.at w .idle)
    else none
  | .tableDel =>
    if s.pc w = .idle ∧ s.inTable then some { s.at w .deleted with inTable := false }
    else none
  | .setZombie =>
    if s.pc w = .deleted then some { s.at w .marked with zombie := true } else none
  | .testPending =>
    if s.pc w = .marked then
      some (if s.pendingReqs = 0 then (s.at w .idle).free else s.at w .idle)
    else none

/-- The steps of all workers. -/
def Workers.Steps (s : Workers ω) (e : ω × WorkerAct) (s' : Workers ω) : Prop :=
  s.step e.1 e.2 = some s'

/-- A file object that a constructor has just put into the table. -/
def Workers.start : Workers ω where
  inTable := true
  zombie := false
  pendingReqs := 0
  frees := 0
  pc _ := .idle
  reqs _ := 0

/-- A worker has a pointer to the object: one of its requests refers to it, or it
is between two steps of a call. -/
def Workers.Holds (s : Workers ω) (w : ω) : Prop := s.pc w ≠ .idle ∨ 0 < s.reqs w

/-- The object is freed once at most, and nobody has a pointer to a freed object. -/
def Workers.Safe (s : Workers ω) : Prop :=
  s.frees ≤ 1 ∧ (0 < s.frees → ∀ w, ¬ s.Holds w)

/-- The step is one that frees the object. -/
def Workers.Frees (s : Workers ω) : ω × WorkerAct → Prop
  | (w, .testZombie) => s.pc w = .lowered ∧ s.zombie ∧ s.pendingReqs = 0
  | (w, .testPending) => s.pc w = .marked ∧ s.pendingReqs = 0
  | _ => False

/-- A step that frees the object is taken while all other workers are between
two calls. -/
def Workers.Alone (s : Workers ω) (e : ω × WorkerAct) : Prop :=
  s.Frees e → ∀ v, v ≠ e.1 → s.pc v = .idle

/-! ## The invariant -/

/-- The counter is the number of requests, the object is not in the table any
more once a reset has taken it, and a freed object is out of everybody's reach. -/
structure Workers.Inv [Fintype ω] (s : Workers ω) : Prop where
  counter : s.pendingReqs = ((∑ w, s.reqs w : Nat) : Int)
  zombie_out : s.zombie = true → s.inTable = false
  reset_out : ∀ w, s.pc w = .deleted ∨ s.pc w = .marked → s.inTable = false
  once : s.frees ≤ 1
  gone : 0 < s.frees → s.inTable = false ∧ ∀ w, s.pc w = .idle ∧ s.reqs w = 0

omit [DecidableEq ω] in
theorem Workers.Inv.safe [Fintype ω] {s : Workers ω} (h : s.Inv) : s.Safe := by
  refine ⟨h.once, ?_⟩
  intro hfreed w hw
  obtain ⟨_, hall⟩ := h.gone hfreed
  obtain ⟨hidle, hnone⟩ := hall w
  rcases hw with hpc | hreqs
  · exact hpc hidle
  · omega

/-- One worker's share of the counter changes. -/
theorem sum_update [Fintype ω] (f : ω → Nat) (w : ω) (n : Nat) :
    (∑ v, Function.update f w n v) + f w = (∑ v, f v) + n := by
  have hnew : ∑ v, Function.update f w n v = n + ∑ v ∈ Finset.univ \ {w}, f v :=
    Finset.sum_update_of_mem (Finset.mem_univ w) f n
  have hold : ∑ v, f v = f w + ∑ v ∈ Finset.univ \ {w}, f v := by
    have h := Finset.sum_update_of_mem (Finset.mem_univ w) f (f w)
    rwa [Function.update_eq_self] at h
  omega

variable [Fintype ω] {s s' : Workers ω} {w : ω}

omit [DecidableEq ω] in
/-- A worker that is not between two calls sees an object that was not freed. -/
theorem Workers.Inv.not_freed (h : s.Inv) (hw : s.Holds w) : s.frees = 0 := by
  by_cases hfreed : 0 < s.frees
  · exact absurd hw (h.safe.2 hfreed w)
  · omega

omit [DecidableEq ω] in
theorem Workers.Inv.not_freed_of_inTable (h : s.Inv) (hin : s.inTable = true) :
    s.frees = 0 := by
  by_cases hfreed : 0 < s.frees
  · simp [(h.gone hfreed).1] at hin
  · omega

/-- A worker moves on, and nothing else happens. -/
theorem Workers.Inv.at (h : s.Inv) (hw : s.frees = 0) {p : Pc}
    (hp : p = .deleted ∨ p = .marked → s.inTable = false) : (s.at w p).Inv where
  counter := h.counter
  zombie_out := h.zombie_out
  reset_out v hv := by
    by_cases hvw : v = w
    · subst hvw
      exact hp (by simpa [Workers.at] using hv)
    · exact h.reset_out v (by simpa [Workers.at, hvw] using hv)
  once := h.once
  gone hfreed := by
    have : 0 < s.frees := hfreed
    omega

omit [DecidableEq ω] in
/-- The last worker that is not idle frees the object when nobody has a request. -/
theorem Workers.Inv.free (h : s.Inv) (hw : s.frees = 0) (hout : s.inTable = false)
    (hzero : s.pendingReqs = 0) (hidle : ∀ v, s.pc v = .idle) : s.free.Inv where
  counter := h.counter
  zombie_out _ := hout
  reset_out v _ := hout
  once := by simp [Workers.free, hw]
  gone _ := by
    refine ⟨hout, ?_⟩
    intro v
    have hsum : ∑ v, s.reqs v = 0 := by
      have := h.counter
      omega
    exact ⟨hidle v, (Finset.sum_eq_zero_iff.1 hsum) v (Finset.mem_univ v)⟩

/-- The test at the end of a call. -/
theorem Workers.Inv.test (h : s.Inv) (hw : s.frees = 0) {c : Prop} [Decidable c]
    (hfree : c → s.inTable = false ∧ s.pendingReqs = 0 ∧ ∀ v, v ≠ w → s.pc v = .idle) :
    (if c then (s.at w .idle).free else s.at w .idle).Inv := by
  have hat : (s.at w .idle).Inv := h.at hw (by simp)
  split
  · rename_i hc
    obtain ⟨hout, hzero, halone⟩ := hfree hc
    refine hat.free hw hout hzero ?_
    intro v
    by_cases hv : v = w
    · simp [Workers.at, hv]
    · simpa [Workers.at, hv] using halone v hv
  · exact hat

/-- **Step lemma.** -/
theorem Workers.Inv.step (h : s.Inv) {e : ω × WorkerAct} (halone : s.Alone e)
    (hstep : s.Steps e s') : s'.Inv := by
  obtain ⟨w, a⟩ := e
  unfold Workers.Steps at hstep
  cases a with
  | tableGet =>
      obtain ⟨⟨hpc, hin⟩, rfl⟩ := Option.ite_some_none_eq_some.1 hstep
      have hw : s.frees = 0 := h.not_freed_of_inTable hin
      exact h.at hw (by simp)
  | addPending =>
      obtain ⟨hpc, rfl⟩ := Option.ite_some_none_eq_some.1 hstep
      have hw : s.frees = 0 := h.not_freed (w := w) (.inl (by simp [hpc]))
      have hat : (s.at w .idle).Inv := h.at hw (by simp)
      refine { hat with counter := ?_, gone := ?_ }
      · have hsum := sum_update s.reqs w (s.reqs w + 1)
        have hcounter := h.counter
        dsimp only
        omega
      · intro hfreed
        exact absurd hfreed (by simp [Workers.at, hw])
  | subPending =>
      obtain ⟨⟨hpc, hpos⟩, rfl⟩ := Option.ite_some_none_eq_some.1 hstep
      have hw : s.frees = 0 := h.not_freed (w := w) (.inr hpos)
      have hat : (s.at w .lowered).Inv := h.at hw (by simp)
      refine { hat with counter := ?_, gone := ?_ }
      · have hsum := sum_update s.reqs w (s.reqs w - 1)
        have hcounter := h.counter
        dsimp only at hpos ⊢
        omega
      · intro hfreed
        exact absurd hfreed (by simp [Workers.at, hw])
  | testZombie =>
      obtain ⟨hpc, rfl⟩ := Option.ite_some_none_eq_some.1 hstep
      refine h.test (h.not_freed (w := w) (.inl (by simp [hpc]))) ?_
      intro hc
      exact ⟨h.zombie_out hc.1, hc.2, halone ⟨hpc, hc.1, hc.2⟩⟩
  | tableDel =>
      obtain ⟨⟨hpc, hin⟩, rfl⟩ := Option.ite_some_none_eq_some.1 hstep
      have hw : s.frees = 0 := h.not_freed_of_inTable hin
      exact
        { counter := h.counter
          zombie_out := fun _ => rfl
          reset_out := fun _ _ => rfl
          once := h.once
          gone := fun hfreed => absurd hfreed (by simp [Workers.at, hw]) }
  | setZombie =>
      obtain ⟨hpc, rfl⟩ := Option.ite_some_none_eq_some.1 hstep
      have hw : s.frees = 0 := h.not_freed (w := w) (.inl (by simp [hpc]))
      have hout := h.reset_out w (.inl hpc)
      have hat : (s.at w .marked).Inv := h.at hw (fun _ => hout)
      exact { hat with zombie_out := fun _ => hout }
  | testPending =>
      obtain ⟨hpc, rfl⟩ := Option.ite_some_none_eq_some.1 hstep
      refine h.test (h.not_freed (w := w) (.inl (by simp [hpc]))) ?_
      intro hc
      exact ⟨h.reset_out w (.inr hpc), hc, halone ⟨hpc, hc⟩⟩

omit [DecidableEq ω] in
theorem Workers.start_inv : (Workers.start : Workers ω).Inv where
  counter := by simp [Workers.start]
  zombie_out h := by simp [Workers.start] at h
  reset_out v h := by simp [Workers.start] at h
  once := by simp [Workers.start]
  gone h := by simp [Workers.start] at h

/-- **Run lemma.** -/
theorem Workers.inv_of_reachable
    (h : Reachable (guarded Workers.Alone Workers.Steps) Workers.start s) : s.Inv := by
  refine h.invariant Workers.Inv Workers.start_inv ?_
  intro s e s' _ hs hstep
  exact hs.step hstep.1 hstep.2

omit [Fintype ω] in
/-- A step that frees the object leaves the positions of the other workers. -/
theorem Workers.Frees.result {e : ω × WorkerAct} (h : s.Frees e) (hstep : s.Steps e s') :
    s' = (s.at e.1 .idle).free := by
  obtain ⟨w, a⟩ := e
  unfold Workers.Steps at hstep
  cases a with
  | testZombie =>
      obtain ⟨hpc, hzombie, hzero⟩ := h
      simp only [Workers.step, hpc, hzombie, hzero] at hstep
      simpa using hstep.symm
  | testPending =>
      obtain ⟨hpc, hzero⟩ := h
      simp only [Workers.step, hpc, hzero] at hstep
      simpa using hstep.symm
  | tableGet => exact h.elim
  | addPending => exact h.elim
  | subPending => exact h.elim
  | tableDel => exact h.elim
  | setZombie => exact h.elim

/-- **Reference counting across workers.**  Along runs in which a worker frees
the object only while all others are between two calls, the object is freed at
most once and nobody keeps a pointer to it; the first free that is not so leaves
some worker with a pointer to the freed object. -/
theorem workers_safe_iff
    (h : Reachable (guarded Workers.Alone Workers.Steps) Workers.start s) :
    s.Safe ∧ ∀ e s', s.Steps e s' → (s'.Safe ↔ s.Alone e) := by
  have hinv := Workers.inv_of_reachable h
  refine ⟨hinv.safe, ?_⟩
  intro e s' hstep
  constructor
  · intro hsafe hfrees v hv
    have hs' := hfrees.result hstep
    subst hs'
    have hpc : (s.at e.1 .idle).pc v = .idle := by
      by_contra hne
      exact hsafe.2 (by simp [Workers.free]) v (.inl hne)
    simpa [Workers.at, hv] using hpc
  · intro halone
    exact (hinv.step halone hstep).safe

/-- Two workers, of which the first has one request.  The second resets the
object while the first is about to test whether it was the last user. -/
theorem workers_safe_iff_reset :
    ∃ s : Workers Bool, s.pc false = .lowered ∧ s.pc true = .marked ∧ s.Safe := by
  have hrun : Reachable (guarded Workers.Alone Workers.Steps) Workers.start _ :=
    ((((((Reachable.init
      ).step (e := (false, .tableGet)) ⟨nofun, rfl⟩
      ).step (e := (false, .addPending)) ⟨nofun, rfl⟩
      ).step (e := (true, .tableDel)) ⟨nofun, rfl⟩
      ).step (e := (true, .setZombie)) ⟨nofun, rfl⟩
      ).step (e := (false, .subPending)) ⟨nofun, rfl⟩)
  exact ⟨_, rfl, rfl, (workers_safe_iff hrun).1⟩

/-- From there both workers find the counter at 0, and both free the object. -/
theorem workers_double_free :
    ∃ s : Workers Bool, Reachable Workers.Steps Workers.start s ∧ s.frees = 2 := by
  have h₀ : Reachable Workers.Steps (Workers.start : Workers Bool) _ := .init
  have h₁ := h₀.step (e := (false, WorkerAct.tableGet)) rfl
  have h₂ := h₁.step (e := (false, WorkerAct.addPending)) rfl
  have h₃ := h₂.step (e := (true, WorkerAct.tableDel)) rfl
  have h₄ := h₃.step (e := (true, WorkerAct.setZombie)) rfl
  have h₅ := h₄.step (e := (false, WorkerAct.subPending)) rfl
  have h₆ := h₅.step (e := (true, WorkerAct.testPending)) rfl
  have h₇ := h₆.step (e := (false, WorkerAct.testZombie)) rfl
  exact ⟨_, h₇, rfl⟩

end MonkeyCache
