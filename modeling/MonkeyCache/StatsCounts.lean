import MonkeyCache.CacheStats

/-!
# What the counters of the workers are worth

* `StatsRace.Exact` — every request is in the counter of its slot or was reported, as
  long as no increment of a counter overlaps with a reset of it.
* `slots_and_rates` — in every interleaving each worker has a slot of its own, and no
  number exceeds the requests that were counted.
* `counts_are_exact` — where nothing overlaps, no request is lost or counted twice.
-/

namespace MonkeyCache

open Fallible Tickets Transition

variable {ω : Type}

/-! ## When the counts are exact -/

/-- The slot belongs to the worker, and is filled in. -/
def StatsPhase.Used (p : StatsPhase) (j : Nat) : Prop := p.slot = some j ∧ ¬ p.Naming

/-- The worker has read the counter of a slot, and will clear it. -/
def StatsPhase.Resetting (j : Nat) : StatsPhase → Prop
  | .store _ k _ _ | .reset _ k _ => k = j
  | _ => False

/-- The worker is not at a counter. -/
def StatsPhase.Quiet : StatsPhase → Prop
  | .count _ _ | .store _ _ _ _ | .reset _ _ _ => False
  | _ => True

theorem StatsPhase.Quiet.not_resetting {p : StatsPhase} (h : p.Quiet) (j : Nat) :
    ¬ p.Resetting j := by
  cases p with
  | store i k sum r => exact h.elim
  | reset i k sum => exact h.elim
  | _ => exact id

theorem StatsPhase.Quiet.ne_count {p : StatsPhase} (h : p.Quiet) (j : Nat) (x : Int) :
    p ≠ .count j x := by
  rintro rfl
  exact h

/-- No increment of a counter overlaps with a reset of it, and no two resets do. -/
def StatsRace.Apart (s : StatsRace ω) (e : StatsEvent ω) : Prop :=
  match s.phase e.worker with
  | .idle i => e.timer = false → ∀ v, ¬ (s.phase v).Resetting i
  | .measure _ j _ _ =>
    (∀ v, ¬ (s.phase v).Resetting j) ∧ ∀ v seen, s.phase v ≠ .count j seen
  | _ => True

/-- Every request is in the counter of its slot or was reported, and not in both. -/
structure StatsRace.Exact (s : StatsRace ω) : Prop where
  used : ∀ j, s.served j ≠ 0 → ∃ w, (s.phase w).Used j
  during : ∀ v j, (s.phase v).Resetting j → s.reported j = s.served j
  between : ∀ j, (∀ v, ¬ (s.phase v).Resetting j) →
    s.reported j + (s.threadStats j).reqsServed = s.served j
  seen : ∀ v j x, s.phase v = .count j x →
    x = (s.threadStats j).reqsServed ∧ ∀ u, ¬ (s.phase u).Resetting j

section Exact

variable [DecidableEq ω] {s : StatsRace ω} {t : SharedStats} {w : ω} {q : StatsPhase}

/-- Whoever is at a counter that the worker does not come to, or leave, stays there. -/
theorem resetting_update {phase : ω → StatsPhase} {j : Nat}
    (hsame : q.Resetting j ↔ (phase w).Resetting j) (v : ω) :
    (Function.update phase w q v).Resetting j ↔ (phase v).Resetting j := by
  by_cases hv : v = w
  · rw [hv, Function.update_self]
    exact hsame
  · rw [Function.update_of_ne hv]

/-- A slot that is filled in stays so. -/
theorem used_update {phase : ω → StatsPhase} {j : Nat} (hused : (phase w).Used j → q.Used j)
    (h : ∃ v, (phase v).Used j) : ∃ v, (Function.update phase w q v).Used j := by
  obtain ⟨v, hown⟩ := h
  refine ⟨v, ?_⟩
  by_cases hv : v = w
  · rw [hv, Function.update_self]
    exact hused (hv ▸ hown)
  · rw [Function.update_of_ne hv]
    exact hown

/-- **A step that touches no counter.** -/
theorem StatsRace.Exact.move (h : s.Exact) (hserved : t.served = s.served)
    (hreported : t.reported = s.reported)
    (hcount : ∀ j, (t.threadStats j).reqsServed = (s.threadStats j).reqsServed)
    (hused : ∀ j, (s.phase w).Used j → q.Used j)
    (hreset : ∀ j, q.Resetting j ↔ (s.phase w).Resetting j)
    (hseen : ∀ j x, q = .count j x →
      x = (s.threadStats j).reqsServed ∧ ∀ u, ¬ (s.phase u).Resetting j) :
    StatsRace.Exact ⟨t, Function.update s.phase w q⟩ := by
  constructor
  · intro j hj
    rw [hserved] at hj
    exact used_update (hused j) (h.used j hj)
  · intro v j hj
    rw [hserved, hreported]
    exact h.during v j ((resetting_update (hreset j) v).1 hj)
  · intro j hnone
    rw [hserved, hreported, hcount]
    exact h.between j fun v hj => hnone v ((resetting_update (hreset j) v).2 hj)
  · intro v j x hx
    dsimp only at hx ⊢
    rw [hcount]
    have hold : x = (s.threadStats j).reqsServed ∧ ∀ u, ¬ (s.phase u).Resetting j := by
      by_cases hv : v = w
      · subst hv
        rw [Function.update_self] at hx
        exact hseen j x hx
      · rw [Function.update_of_ne hv] at hx
        exact h.seen v j x hx
    exact ⟨hold.1, fun u hu => hold.2 u ((resetting_update (hreset j) u).1 hu)⟩

/-- **A request is counted**, and nobody is at the counter. -/
theorem StatsRace.Exact.count (h : s.Exact) {i : Nat} {seen : Int}
    (hp : s.phase w = .count i seen) (hown : ∀ v x, s.phase v = .count i x → v = w) :
    StatsRace.Exact ⟨s.count i seen, Function.update s.phase w (.idle i)⟩ := by
  obtain ⟨hseen, hfree⟩ := h.seen w i seen hp
  have hself : (s.count i seen).served i = s.served i + 1 := Function.update_self ..
  have hother : ∀ j, j ≠ i → (s.count i seen).served j = s.served j :=
    fun j hne => Function.update_of_ne hne ..
  have hsame : ∀ v j, (Function.update s.phase w (.idle i) v).Resetting j ↔
      (s.phase v).Resetting j := by
    intro v j
    refine resetting_update ?_ v
    rw [hp]
    exact Iff.rfl
  constructor
  · intro j hj
    by_cases hji : j = i
    · refine ⟨w, ?_⟩
      dsimp only
      rw [Function.update_self, hji]
      exact ⟨rfl, id⟩
    · dsimp only at hj
      rw [hother j hji] at hj
      refine used_update ?_ (h.used j hj)
      rw [hp]
      exact id
  · intro v j hj
    have hreset := (hsame v j).1 hj
    have hji : j ≠ i := by
      rintro rfl
      exact hfree v hreset
    dsimp only
    rw [hother j hji]
    exact h.during v j hreset
  · intro j hnone
    have hbetween := h.between j fun v hj => hnone v ((hsame v j).2 hj)
    dsimp only
    by_cases hji : j = i
    · subst hji
      rw [hself, SharedStats.count_self]
      show s.reported j + (seen + 1) = _
      rw [hseen]
      push_cast
      omega
    · rw [hother j hji, SharedStats.count_of_ne _ hji]
      exact hbetween
  · intro v j x hx
    dsimp only at hx ⊢
    have hv : v ≠ w := by
      rintro rfl
      rw [Function.update_self] at hx
      cases hx
    rw [Function.update_of_ne hv] at hx
    have hji : j ≠ i := by
      rintro rfl
      exact hv (hown v x hx)
    obtain ⟨hx', hnone⟩ := h.seen v j x hx
    rw [SharedStats.count_of_ne _ hji]
    exact ⟨hx', fun u hu => hnone u ((hsame u j).1 hu)⟩

/-- **A counter is read** to be reported, and nobody else is at it. -/
theorem StatsRace.Exact.measure (h : s.Exact) {i j : Nat} {sum ms r : Int}
    (hp : s.phase w = .measure i j sum ms) (hfree : ∀ v, ¬ (s.phase v).Resetting j)
    (hnone : ∀ v seen, s.phase v ≠ .count j seen) :
    StatsRace.Exact ⟨{ s.toSharedStats with
      reported := Function.update s.reported j (s.reported j + (s.threadStats j).reqsServed) },
      Function.update s.phase w (.store i j sum r)⟩ := by
  have hsame : ∀ v k, k ≠ j → ((Function.update s.phase w (.store i j sum r) v).Resetting k ↔
      (s.phase v).Resetting k) := by
    intro v k hkj
    refine resetting_update ?_ v
    rw [hp]
    exact iff_of_false (fun hk => hkj (Eq.symm hk)) id
  constructor
  · intro k hk
    refine used_update ?_ (h.used k hk)
    rw [hp]
    exact id
  · intro v k hk
    dsimp only
    by_cases hkj : k = j
    · rw [hkj, Function.update_self]
      exact h.between j hfree
    · rw [Function.update_of_ne hkj]
      exact h.during v k ((hsame v k hkj).1 hk)
  · intro k hclear
    have hkj : k ≠ j := by
      rintro rfl
      refine hclear w ?_
      dsimp only
      rw [Function.update_self]
      rfl
    dsimp only
    rw [Function.update_of_ne hkj]
    exact h.between k fun v hk => hclear v ((hsame v k hkj).2 hk)
  · intro v k x hx
    dsimp only at hx ⊢
    have hv : v ≠ w := by
      rintro rfl
      rw [Function.update_self] at hx
      cases hx
    rw [Function.update_of_ne hv] at hx
    have hkj : k ≠ j := by
      rintro rfl
      exact hnone v x hx
    obtain ⟨hx', hclear⟩ := h.seen v k x hx
    exact ⟨hx', fun u hu => hclear u ((hsame u k hkj).1 hu)⟩

/-- **A counter is cleared** that was reported. -/
theorem StatsRace.Exact.reset (h : s.Exact) {i j : Nat} {sum : Int}
    (hp : s.phase w = .reset i j sum) :
    StatsRace.Exact ⟨s.set j (fun t => { t with reqsServed := 0 }),
      Function.update s.phase w (.add i j sum)⟩ := by
  have hmine : (s.phase w).Resetting j := by
    rw [hp]
    rfl
  have hsame : ∀ v k, k ≠ j → ((Function.update s.phase w (.add i j sum) v).Resetting k ↔
      (s.phase v).Resetting k) := by
    intro v k hkj
    refine resetting_update ?_ v
    rw [hp]
    exact iff_of_false id (fun hk => hkj (Eq.symm hk))
  constructor
  · intro k hk
    refine used_update ?_ (h.used k hk)
    rw [hp]
    exact id
  · intro v k hk
    by_cases hkj : k = j
    · rw [hkj]
      exact h.during w j hmine
    · exact h.during v k ((hsame v k hkj).1 hk)
  · intro k hclear
    dsimp only
    by_cases hkj : k = j
    · rw [hkj, SharedStats.set_self]
      exact (add_zero _).trans (h.during w j hmine)
    · rw [SharedStats.set_of_ne _ hkj]
      exact h.between k fun v hk => hclear v ((hsame v k hkj).2 hk)
  · intro v k x hx
    dsimp only at hx ⊢
    have hv : v ≠ w := by
      rintro rfl
      rw [Function.update_self] at hx
      cases hx
    rw [Function.update_of_ne hv] at hx
    obtain ⟨hx', hclear⟩ := h.seen v k x hx
    have hkj : k ≠ j := by
      rintro rfl
      exact hclear w hmine
    rw [SharedStats.set_of_ne _ hkj]
    exact ⟨hx', fun u hu => hclear u ((hsame u k hkj).1 hu)⟩

/-- **Step lemma for the counts.** -/
theorem StatsRace.Exact.act (h : s.Exact) {n : Nat} (hslots : s.Slots n) (hbounded : s.Bounded)
    {e : StatsEvent ω} (hapart : s.Apart e) (rate : Int → Int → Int) :
    Ensures (s.act rate e.now e.timer (s.phase e.worker))
      (fun out => StatsRace.Exact ⟨out.1, Function.update s.phase e.worker out.2⟩)
      (fun _ => True) := by
  obtain ⟨w, now, timer⟩ := e
  unfold StatsRace.Apart at hapart
  dsimp only at hapart ⊢
  have hmove : ∀ (t : SharedStats) (p q : StatsPhase), s.phase w = p → p.Quiet → q.Quiet →
      (∀ j, p.Used j → q.Used j) → t.served = s.served → t.reported = s.reported →
      (∀ j, (t.threadStats j).reqsServed = (s.threadStats j).reqsServed) →
      StatsRace.Exact ⟨t, Function.update s.phase w q⟩ := by
    intro t p q hp hquiet hq hused hserved hreported hcount
    subst hp
    exact h.move hserved hreported hcount hused
      (fun j => iff_of_false (hq.not_resetting j) (hquiet.not_resetting j))
      fun j x hx => absurd hx (hq.ne_count j x)
  have hset : ∀ (i : Nat) (f : StatsSlot → StatsSlot),
      (f (s.threadStats i)).reqsServed = (s.threadStats i).reqsServed →
      ∀ j, ((s.set i f).threadStats j).reqsServed = (s.threadStats j).reqsServed := by
    intro i f hf j
    by_cases hj : j = i
    · rw [hj, SharedStats.set_self]
      exact hf
    · rw [SharedStats.set_of_ne _ hj]
  cases hp : s.phase w with
  | lock =>
      simp only [SharedStats.act]
      by_cases hlocked : s.locked = true
      · rw [if_pos hlocked]
        exact hmove _ _ _ hp trivial trivial (fun _ => id) rfl rfl (fun _ => rfl)
      · rw [if_neg hlocked]
        exact hmove _ _ _ hp trivial trivial (fun _ => id) rfl rfl (fun _ => rfl)
  | check =>
      simp only [SharedStats.act]
      by_cases hroom : s.threadNum ≤ s.wid
      · rw [if_pos hroom]
        trivial
      · rw [if_neg hroom]
        exact hmove _ _ _ hp trivial trivial (fun _ hj => by cases hj.1) rfl rfl (fun _ => rfl)
  | number i =>
      simp only [SharedStats.act, ensures_ok]
      exact hmove _ _ _ hp trivial trivial (fun _ hj => absurd trivial hj.2) rfl rfl (hset i _ rfl)
  | clearRate i =>
      simp only [SharedStats.act, ensures_ok]
      exact hmove _ _ _ hp trivial trivial (fun _ hj => absurd trivial hj.2) rfl rfl (hset i _ rfl)
  | clearServed i =>
      -- nothing was counted in the slot yet
      have hzero : s.served i = 0 := by
        by_contra hne
        obtain ⟨v, hslot, hnot⟩ := h.used i hne
        have heq := hslots.handed.distinct v w i hslot (by rw [hp]; rfl)
        rw [heq, hp] at hnot
        exact hnot trivial
      have hcount : (s.threadStats i).reqsServed = 0 := by
        obtain ⟨hpos, hle⟩ := hbounded.counts i
        omega
      simp only [SharedStats.act, ensures_ok]
      exact hmove _ _ _ hp trivial trivial (fun _ hj => absurd trivial hj.2) rfl rfl
        (hset i _ hcount.symm)
  | stamp i =>
      simp only [SharedStats.act, ensures_ok]
      exact hmove _ _ _ hp trivial trivial (fun _ hj => absurd trivial hj.2) rfl rfl (hset i _ rfl)
  | next i =>
      simp only [SharedStats.act, ensures_ok]
      exact hmove _ _ _ hp trivial trivial (fun _ hj => absurd trivial hj.2) rfl rfl (fun _ => rfl)
  | unlock i =>
      simp only [SharedStats.act, ensures_ok]
      exact hmove _ _ _ hp trivial trivial (fun _ => id) rfl rfl (fun _ => rfl)
  | idle i =>
      rw [hp] at hapart
      simp only [SharedStats.act, ensures_ok]
      cases timer with
      | true =>
          exact hmove _ _ _ hp trivial trivial (fun _ => id) rfl rfl (fun _ => rfl)
      | false =>
          refine h.move rfl rfl (fun _ => rfl) (fun j hj => by rw [hp] at hj; exact hj)
            (fun j => iff_of_false id (hp ▸ id)) ?_
          intro j x hx
          obtain ⟨rfl, rfl⟩ : i = j ∧ (s.threadStats i).reqsServed = x := by
            injection hx with hi hx
            exact ⟨hi, hx⟩
          exact ⟨rfl, hapart rfl⟩
  | count i seen =>
      apply Ensures.guard (fun _ => trivial)
      intro _
      refine h.count hp fun v x hv => ?_
      exact hslots.handed.distinct v w i (by rw [hv]; rfl) (by rw [hp]; rfl)
  | tick i j sum =>
      simp only [SharedStats.act]
      by_cases hlt : j < s.threadNum
      · rw [if_pos hlt, ensures_ok]
        by_cases hms : 1000 < getTimeDiffMs (s.threadStats j).start now
        · rw [if_pos hms]
          exact hmove _ _ _ hp trivial trivial (fun _ => id) rfl rfl (fun _ => rfl)
        · rw [if_neg hms]
          exact hmove _ _ _ hp trivial trivial (fun _ => id) rfl rfl (fun _ => rfl)
      · rw [if_neg hlt]
        exact hmove _ _ _ hp trivial trivial (fun _ => id) rfl rfl (fun _ => rfl)
  | restart i j sum tmp ms =>
      simp only [SharedStats.act, ensures_ok]
      exact hmove _ _ _ hp trivial trivial (fun _ => id) rfl rfl (hset j _ rfl)
  | measure i j sum ms =>
      rw [hp] at hapart
      exact h.measure hp hapart.1 hapart.2
  | store i j sum r =>
      simp only [SharedStats.act, ensures_ok]
      refine h.move rfl rfl (hset j _ rfl) (fun j hj => by rw [hp] at hj; exact hj) (fun k => ?_)
        fun k x hx => StatsPhase.noConfusion hx
      rw [hp]
      exact Iff.rfl
  | reset i j sum => exact h.reset hp
  | add i j sum =>
      apply Ensures.guard (fun _ => trivial)
      intro _
      exact hmove _ _ _ hp trivial trivial (fun _ => id) rfl rfl (fun _ => rfl)

end Exact

/-! ## Runs -/

/-- The invariant of the machine. -/
structure StatsRace.Inv (threadNum : Nat) (s : StatsRace ω) : Prop where
  num : s.threadNum = threadNum
  bounded : s.Bounded
  knows : ∀ w, s.Knows (s.phase w)
  slots : ∃ n, s.Slots n

/-- At most `n` requests a second, when `n` requests took more than one. -/
def RateUpto (rate : Int → Int → Int) : Prop :=
  ∀ n ms, 0 ≤ n → 1000 < ms → Upto (rate n ms) n

section Runs

variable [DecidableEq ω] [Fintype ω] {s : StatsRace ω} {rate : Int → Int → Int} {threadNum : Nat}

omit [DecidableEq ω] [Fintype ω] in
theorem StatsRace.Inv.init : (StatsRace.init threadNum : StatsRace ω).Inv threadNum := by
  refine ⟨rfl, ⟨fun _ => ⟨le_rfl, le_rfl⟩, fun _ => ⟨le_rfl, le_rfl⟩, le_rfl, ?_⟩,
    fun _ => trivial, 0, .zero, Nat.zero_le _, fun _ h => h.elim, fun _ _ h => h.elim,
    fun _ h => h.elim, fun _ => rfl, fun _ _ h => by cases h⟩
  show 0 ≤ totalServed (fun _ => 0) threadNum
  induction threadNum with
  | zero => exact le_rfl
  | succ n ih =>
      unfold totalServed
      exact Int.add_nonneg ih le_rfl

omit [DecidableEq ω] [Fintype ω] in
theorem StatsRace.Exact.init : (StatsRace.init threadNum : StatsRace ω).Exact := by
  constructor
  · intro j hj
    exact absurd rfl hj
  · intro v j hj
    exact hj.elim
  · intro j _
    rfl
  · intro v j x hx
    cases hx

/-- **Step lemma.**  A step keeps the invariant.  `mk_bug` finds nothing, and an `int`
overflows only after as many requests. -/
theorem StatsRace.Inv.step (hrate : RateUpto rate) (hworkers : Fintype.card ω ≤ threadNum)
    (h : s.Inv threadNum) (e : StatsEvent ω) :
    Ensures (s.step rate e) (fun out => out.2.Inv threadNum)
      (fun err => err = .overflow ∧ intMax ≤ totalServed s.served threadNum) := by
  obtain ⟨n, hslots⟩ := h.slots
  have hnumbers := SharedStats.act_bounded hrate h.bounded (h.knows e.worker) e.now e.timer
  have hact := hslots.act (h.num ▸ hworkers) rate e.now e.timer e.worker
  unfold StatsRace.step
  cases hout : s.act rate e.now e.timer (s.phase e.worker) with
  | error err =>
      have heq : err = .overflow := hact.of_error hout
      refine ⟨heq, ?_⟩
      rcases hnumbers.of_error hout heq with ⟨i, hi, hmax⟩ | hmax
      · have hlt : i < threadNum := by
          have hbelow := hslots.handed.below e.worker i hi
          have hroom := hslots.room
          rw [h.num] at hroom
          omega
        exact hmax.trans (served_le_total s.served hlt)
      · rwa [h.num] at hmax
  | ok out =>
      obtain ⟨hbounded, hknows, hgrows⟩ := hnumbers.of_ok hout
      refine ⟨hgrows.threadNum.trans h.num, hbounded, fun v => ?_, hact.of_ok hout⟩
      show out.1.Knows (Function.update s.phase e.worker out.2 v)
      by_cases hv : v = e.worker
      · rw [hv, Function.update_self]
        exact hknows
      · rw [Function.update_of_ne hv]
        exact (h.knows v).grows hgrows

/-- **Run lemma.** -/
theorem StatsRace.Inv.run (hrate : RateUpto rate) (hworkers : Fintype.card ω ≤ threadNum)
    (h : Reachable (stepRel (StatsRace.step rate)) (StatsRace.init threadNum) s) :
    s.Inv threadNum := by
  refine h.invariant (StatsRace.Inv threadNum) .init ?_
  rintro a e b _ ih ⟨o, ho⟩
  exact (ih.step hrate hworkers e).of_ok ho

/-- A rate in whole numbers. -/
def wholeRate (n ms : Int) : Int := n * 1000 / ms

omit [DecidableEq ω] [Fintype ω] in
theorem wholeRate_upto : RateUpto wholeRate := by
  intro n ms hn hms
  unfold wholeRate
  refine ⟨Int.ediv_nonneg (by omega) (by omega), Int.ediv_le_of_le_mul (by omega) ?_⟩
  exact mul_le_mul_of_nonneg_left hms.le hn

/-- **The slots and the rates.**  With at least as many slots as workers `mk_bug` never
stops one, and each has a slot of its own; and however the increments and the resets
overlap, no counter and no rate exceeds the requests that were counted.  So no `int`
overflows before there were as many requests. -/
theorem slots_and_rates (hrate : RateUpto rate) (hworkers : Fintype.card ω ≤ threadNum)
    (h : Reachable (stepRel (StatsRace.step rate)) (StatsRace.init threadNum) s) :
    (∀ e, (∃ s', s.step rate e = .ok ((), s')) ∨
      s.step rate e = .error .overflow ∧ intMax ≤ totalServed s.served threadNum) ∧
    (∀ w i, (s.phase w).slot = some i →
      i < threadNum ∧ (s.phase w ≠ .number i → (s.threadStats i).index = i) ∧
      ∀ v, (s.phase v).slot = some i → v = w) ∧
    (∀ j, Upto (s.threadStats j).reqsServed (s.served j) ∧
      Upto (s.threadStats j).reqsPerSec (s.served j)) ∧
    Upto s.reqsPerSec (totalServed s.served threadNum) := by
  have hinv := StatsRace.Inv.run hrate hworkers h
  obtain ⟨n, hslots⟩ := hinv.slots
  refine ⟨fun e => ?_, fun w i hi => ⟨?_, hslots.index w i hi, fun v hv => ?_⟩, fun j => ?_, ?_⟩
  · have hstep := hinv.step hrate hworkers e
    cases hout : s.step rate e with
    | ok out => exact .inl ⟨out.2, rfl⟩
    | error err =>
        obtain ⟨rfl, hmax⟩ := hstep.of_error hout
        exact .inr ⟨rfl, hmax⟩
  · have hlt := hslots.handed.below w i hi
    have hroom := hslots.room
    rw [hinv.num] at hroom
    omega
  · exact hslots.handed.distinct v w i hv hi
  · exact ⟨hinv.bounded.counts j, hinv.bounded.rates j⟩
  · have hpublished := hinv.bounded.published
    rwa [hinv.num] at hpublished

/-- A worker starts and counts two requests; another one starts, and reads the timer two
seconds later. -/
theorem slots_and_rates_sample : ∃ s : StatsRace Bool,
    exec (StatsRace.step wholeRate) (StatsRace.init 2)
      (.replicate 12 ⟨false, ⟨0, 0⟩, false⟩ ++ .replicate 8 ⟨true, ⟨0, 0⟩, false⟩ ++
        ⟨true, ⟨2, 0⟩, true⟩ :: .replicate 13 ⟨true, ⟨2, 0⟩, false⟩) = .ok s ∧
      s.reqsPerSec = 1 ∧ Upto s.reqsPerSec (totalServed s.served 2) := by
  obtain ⟨s, hs, hone⟩ : ∃ s : StatsRace Bool, exec (StatsRace.step wholeRate) (StatsRace.init 2)
      (.replicate 12 ⟨false, ⟨0, 0⟩, false⟩ ++ .replicate 8 ⟨true, ⟨0, 0⟩, false⟩ ++
        ⟨true, ⟨2, 0⟩, true⟩ :: .replicate 13 ⟨true, ⟨2, 0⟩, false⟩) = .ok s ∧
      s.reqsPerSec = 1 := ⟨_, rfl, rfl⟩
  have hrun : Reachable (stepRel (StatsRace.step wholeRate)) (StatsRace.init 2) s :=
    (Reachable.of_exec (P := fun _ _ => True) _ (fun _ _ _ => trivial) hs).mono
      fun _ _ _ hstep => hstep.2
  exact ⟨s, hs, hone, (slots_and_rates wholeRate_upto le_rfl hrun).2.2.2⟩

/-- **The counts are exact** in every run in which no increment of a counter overlaps
with a reset of it: what was reported of a slot and what is still in it are the requests
that were counted there. -/
theorem counts_are_exact (hrate : RateUpto rate) (hworkers : Fintype.card ω ≤ threadNum)
    (h : Reachable (guarded StatsRace.Apart (stepRel (StatsRace.step rate)))
      (StatsRace.init threadNum) s)
    {j : Nat} (hnone : ∀ v, ¬ (s.phase v).Resetting j) :
    s.reported j + (s.threadStats j).reqsServed = s.served j := by
  have hboth : s.Inv threadNum ∧ s.Exact := by
    refine h.invariant (fun s => s.Inv threadNum ∧ s.Exact) ⟨.init, .init⟩ ?_
    rintro a e b _ ⟨hinv, hexact⟩ ⟨hapart, o, ho⟩
    refine ⟨(hinv.step hrate hworkers e).of_ok ho, ?_⟩
    obtain ⟨n, hslots⟩ := hinv.slots
    obtain ⟨out, hout, heq⟩ := bind_eq_ok.1 ho
    cases heq
    exact (hexact.act hslots hinv.bounded hapart rate).of_ok hout
  exact hboth.2.between j hnone

omit [DecidableEq ω] [Fintype ω] in
/-- A worker on its own is never at a counter twice. -/
theorem StatsRace.apart_of_subsingleton [Subsingleton ω] (s : StatsRace ω) (e : StatsEvent ω) :
    s.Apart e := by
  unfold StatsRace.Apart
  cases hp : s.phase e.worker with
  | idle i =>
      intro _ v hv
      rw [Subsingleton.elim v e.worker, hp] at hv
      exact hv
  | measure i j sum ms =>
      refine ⟨fun v hv => ?_, fun v seen hv => ?_⟩
      · rw [Subsingleton.elim v e.worker, hp] at hv
        exact hv
      · rw [Subsingleton.elim v e.worker, hp] at hv
        cases hv
  | _ => trivial

omit [DecidableEq ω] [Fintype ω] in
/-- A worker counts two requests, and reads the timer two seconds later. -/
theorem counts_are_exact_sample : ∃ s : StatsRace Unit,
    exec (StatsRace.step wholeRate) (StatsRace.init 1)
      (.replicate 12 ⟨(), ⟨0, 0⟩, false⟩ ++
        ⟨(), ⟨2, 0⟩, true⟩ :: .replicate 7 ⟨(), ⟨2, 0⟩, false⟩) = .ok s ∧
      s.reported 0 = 2 ∧ s.reported 0 + (s.threadStats 0).reqsServed = s.served 0 := by
  obtain ⟨s, hs, htwo, hidle⟩ : ∃ s : StatsRace Unit,
      exec (StatsRace.step wholeRate) (StatsRace.init 1)
        (.replicate 12 ⟨(), ⟨0, 0⟩, false⟩ ++
          ⟨(), ⟨2, 0⟩, true⟩ :: .replicate 7 ⟨(), ⟨2, 0⟩, false⟩) = .ok s ∧
      s.reported 0 = 2 ∧ s.phase () = .idle 0 := ⟨_, rfl, rfl, rfl⟩
  have hrun : Reachable (guarded StatsRace.Apart (stepRel (StatsRace.step wholeRate)))
      (StatsRace.init 1) s :=
    Reachable.of_exec _ (fun e _ s => s.apart_of_subsingleton e) hs
  refine ⟨s, hs, htwo, counts_are_exact wholeRate_upto le_rfl hrun fun v => ?_⟩
  rw [hidle]
  exact id

/-- A reset between the two steps of an increment: two requests are counted three times. -/
example : (exec (StatsRace.step wholeRate) (StatsRace.init 2 : StatsRace Bool)
    (.replicate 11 ⟨false, ⟨0, 0⟩, false⟩ ++ .replicate 8 ⟨true, ⟨0, 0⟩, false⟩ ++
      ⟨true, ⟨2, 0⟩, true⟩ :: .replicate 5 ⟨true, ⟨2, 0⟩, false⟩ ++
      [⟨false, ⟨2, 0⟩, false⟩])).map (fun s =>
        (s.served 0, s.reported 0 + (s.threadStats 0).reqsServed)) = .ok (2, 3) := rfl

end Runs

end MonkeyCache
