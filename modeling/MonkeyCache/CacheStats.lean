import MonkeyCache.FileTable
import MonkeyCache.Lib.Tickets
import MonkeyCache.Lib.Transition

/-!
# Counting requests in several workers (`cache_stats.c`)

Every worker counts its requests in a slot of `thread_stats`.  The worker that reads the
timer goes through all the slots: a slot that is older than a second gets a rate, and its
counter starts again.  Nothing protects the counters, so an increment may come between
the two steps of a reset, or a reset between the two steps of an increment.  Only the
slots themselves are handed out behind a mutex.

* `StatsRace.step` — the atomic steps of a worker, from `cache_stats_thread_init` on.
* `SharedStats.Bounded` — how large the numbers can be.
* `StatsRace.Slots` — who has which slot.
-/

namespace MonkeyCache

open Fallible Tickets Transition

/-! ## The machine -/

/-- `struct cache_stats_thread` -/
structure StatsSlot where
  index : Int
  reqsPerSec : Int
  start : Timeval
  reqsServed : Int
  deriving DecidableEq, Repr

/-- What `calloc` leaves in a slot. -/
def StatsSlot.zero : StatsSlot := ⟨0, 0, ⟨0, 0⟩, 0⟩

/-- Where a worker is; `i` is its slot, and `j` the slot that its tick has come to. -/
inductive StatsPhase
  /-- `pthread_mutex_lock` -/
  | lock
  /-- `mk_bug(wid >= thread_num)` and `stats = &thread_stats[wid]` -/
  | check
  /-- `stats->index = wid` -/
  | number (i : Nat)
  /-- `stats->reqs_per_sec = 0` -/
  | clearRate (i : Nat)
  /-- `stats->reqs_served = 0` -/
  | clearServed (i : Nat)
  /-- `gettimeofday(&stats->start, NULL)` -/
  | stamp (i : Nat)
  /-- `pthread_setspecific` and `wid++` -/
  | next (i : Nat)
  /-- `pthread_mutex_unlock` -/
  | unlock (i : Nat)
  /-- between two calls -/
  | idle (i : Nat)
  /-- `stats->reqs_served++` has read `seen` -/
  | count (i : Nat) (seen : Int)
  /-- the head of the loop of `cache_stats_tick`; below `thread_num` the time is taken
  and compared -/
  | tick (i j : Nat) (sum : Int)
  /-- `stats->start = tmp` -/
  | restart (i j : Nat) (sum : Int) (now : Timeval) (ms : Int)
  /-- `stats->reqs_served / (ms / 1000.0)` -/
  | measure (i j : Nat) (sum ms : Int)
  /-- `stats->reqs_per_sec =` -/
  | store (i j : Nat) (sum rate : Int)
  /-- `stats->reqs_served = 0` -/
  | reset (i j : Nat) (sum : Int)
  /-- `reqs_per_sec += thread_stats[i].reqs_per_sec` -/
  | add (i j : Nat) (sum : Int)
  deriving DecidableEq, Repr

/-- How a step ends that is none. -/
inductive StatsBug
  /-- `mk_bug(wid >= thread_num)` -/
  | tooManyWorkers
  /-- an `int` leaves its range -/
  | overflow
  deriving DecidableEq, Repr

variable {ω : Type}

/-- What the workers share.  `served` and `reported` are ghosts: how many requests were
counted in each slot, and how many of them its rates were made of. -/
structure SharedStats where
  threadStats : Nat → StatsSlot
  threadNum : Nat
  wid : Nat
  locked : Bool
  /-- `cache_stats.reqs_per_sec` -/
  reqsPerSec : Int
  served : Nat → Nat
  reported : Nat → Int

/-- The slots, and for each worker where it is. -/
structure StatsRace (ω : Type) extends SharedStats where
  phase : ω → StatsPhase

/-- A worker takes a step: the clock says `now`, and a worker that is idle reads the
timer if `timer` is set, and has a request otherwise. -/
structure StatsEvent (ω : Type) where
  worker : ω
  now : Timeval
  timer : Bool

/-- A slot is changed. -/
def SharedStats.set (s : SharedStats) (i : Nat) (f : StatsSlot → StatsSlot) : SharedStats :=
  { s with threadStats := Function.update s.threadStats i (f (s.threadStats i)) }

/-- The slot that is written has the new value. -/
theorem SharedStats.set_self (s : SharedStats) (i : Nat) (f : StatsSlot → StatsSlot) :
    (s.set i f).threadStats i = f (s.threadStats i) := Function.update_self ..

/-- Every other slot is as before. -/
theorem SharedStats.set_of_ne (s : SharedStats) {i j : Nat} (hj : j ≠ i)
    (f : StatsSlot → StatsSlot) : (s.set i f).threadStats j = s.threadStats j :=
  Function.update_of_ne hj ..

/-- A request is counted: the counter becomes one more than what was seen of it. -/
def SharedStats.count (s : SharedStats) (i : Nat) (seen : Int) : SharedStats :=
  { s.set i (fun t => { t with reqsServed := seen + 1 }) with
    served := Function.update s.served i (s.served i + 1) }

/-- A step at a phase: what becomes of the slots, and where the worker goes.  `rate n ms`
is `n / (ms / 1000.0)`, cut to an `int`; the other numbers are `int`s, which may overflow. -/
def SharedStats.act (rate : Int → Int → Int) (s : SharedStats) (now : Timeval) (timer : Bool) :
    StatsPhase → Except StatsBug (SharedStats × StatsPhase)
  | .lock => .ok (if s.locked then (s, .lock) else ({ s with locked := true }, .check))
  | .check => if s.threadNum ≤ s.wid then .error .tooManyWorkers else .ok (s, .number s.wid)
  | .number i => .ok (s.set i (fun t => { t with index := s.wid }), .clearRate i)
  | .clearRate i => .ok (s.set i (fun t => { t with reqsPerSec := 0 }), .clearServed i)
  | .clearServed i => .ok (s.set i (fun t => { t with reqsServed := 0 }), .stamp i)
  | .stamp i => .ok (s.set i (fun t => { t with start := now }), .next i)
  | .next i => .ok ({ s with wid := s.wid + 1 }, .unlock i)
  | .unlock i => .ok ({ s with locked := false }, .idle i)
  | .idle i => .ok (s, if timer then .tick i 0 0 else .count i (s.threadStats i).reqsServed)
  | .count i seen => if intMax ≤ seen then .error .overflow else .ok (s.count i seen, .idle i)
  | .tick i j sum =>
    if j < s.threadNum then
      let ms := getTimeDiffMs (s.threadStats j).start now
      .ok (s, if 1000 < ms then .restart i j sum now ms else .add i j sum)
    else .ok ({ s with reqsPerSec := sum }, .idle i)
  | .restart i j sum tmp ms => .ok (s.set j (fun t => { t with start := tmp }), .measure i j sum ms)
  | .measure i j sum ms =>
    let seen := (s.threadStats j).reqsServed
    .ok ({ s with reported := Function.update s.reported j (s.reported j + seen) },
      .store i j sum (rate seen ms))
  | .store i j sum r => .ok (s.set j (fun t => { t with reqsPerSec := r }), .reset i j sum)
  | .reset i j sum => .ok (s.set j (fun t => { t with reqsServed := 0 }), .add i j sum)
  | .add i j sum =>
    let sum := sum + (s.threadStats j).reqsPerSec
    if intMax < sum then .error .overflow else .ok (s, .tick i (j + 1) sum)

/-- One step of one worker. -/
def StatsRace.step [DecidableEq ω] (rate : Int → Int → Int) (s : StatsRace ω)
    (e : StatsEvent ω) : Except StatsBug (Unit × StatsRace ω) := do
  let out ← s.act rate e.now e.timer (s.phase e.worker)
  .ok ((), ⟨out.1, Function.update s.phase e.worker out.2⟩)

/-- After `cache_stats_process_init`. -/
def StatsRace.init (threadNum : Nat) : StatsRace ω where
  threadStats _ := .zero
  threadNum := threadNum
  wid := 0
  locked := false
  reqsPerSec := 0
  served _ := 0
  reported _ := 0
  phase _ := .lock

/-- The slot that a worker was given. -/
def StatsPhase.slot : StatsPhase → Option Nat
  | .lock | .check => none
  | .number i | .clearRate i | .clearServed i | .stamp i | .next i | .unlock i | .idle i
  | .count i _ | .tick i _ _ | .restart i _ _ _ _ | .measure i _ _ _ | .store i _ _ _
  | .reset i _ _ | .add i _ _ => some i

/-! ## How large the numbers are -/

/-- `x` counts some of `n` requests. -/
def Upto (x n : Int) : Prop := 0 ≤ x ∧ x ≤ n

/-- What is up to `m` is up to every larger bound. -/
theorem Upto.mono {x m n : Int} (h : Upto x m) (hle : m ≤ n) : Upto x n :=
  ⟨h.1, h.2.trans hle⟩

/-- The bounds of a sum are the sums of the bounds. -/
theorem Upto.add {x y m n : Int} (hx : Upto x m) (hy : Upto y n) : Upto (x + y) (m + n) :=
  ⟨add_nonneg hx.1 hy.1, add_le_add hx.2 hy.2⟩

/-- The requests counted in the first slots. -/
def totalServed (served : Nat → Nat) : Nat → Int
  | 0 => 0
  | n + 1 => totalServed served n + served n

/-- What a worker knows at a phase. -/
def SharedStats.Knows (s : SharedStats) : StatsPhase → Prop
  | .count i seen => Upto seen (s.served i)
  | .tick _ j sum => Upto sum (totalServed s.served j) ∧ j ≤ s.threadNum
  | .restart _ j sum _ ms | .measure _ j sum ms =>
    Upto sum (totalServed s.served j) ∧ j < s.threadNum ∧ 1000 < ms
  | .store _ j sum r => Upto sum (totalServed s.served j) ∧ j < s.threadNum ∧ Upto r (s.served j)
  | .reset _ j sum | .add _ j sum => Upto sum (totalServed s.served j) ∧ j < s.threadNum
  | _ => True

/-- The numbers in the slots, and the published one. -/
structure SharedStats.Bounded (s : SharedStats) : Prop where
  counts : ∀ j, Upto (s.threadStats j).reqsServed (s.served j)
  rates : ∀ j, Upto (s.threadStats j).reqsPerSec (s.served j)
  published : Upto s.reqsPerSec (totalServed s.served s.threadNum)

/-- More requests were counted, and the slots are still as many. -/
structure SharedStats.Grows (s s' : SharedStats) : Prop where
  served : ∀ j, s.served j ≤ s'.served j
  threadNum : s'.threadNum = s.threadNum

section Numbers

variable {s s' : SharedStats} {p : StatsPhase} {i : Nat}

/-- More slots have more requests. -/
theorem totalServed_mono (served : Nat → Nat) {m n : Nat} (hle : m ≤ n) :
    totalServed served m ≤ totalServed served n := by
  induction hle with
  | refl => exact le_rfl
  | @step n _ ih =>
      have hsucc : totalServed served n.succ = totalServed served n + served n := rfl
      omega

/-- One slot has no more requests than all of them. -/
theorem served_le_total (served : Nat → Nat) {i n : Nat} (hlt : i < n) :
    (served i : Int) ≤ totalServed served n := by
  have hzero : 0 ≤ totalServed served i := totalServed_mono served i.zero_le
  have hsucc : totalServed served i.succ = totalServed served i + served i := rfl
  have hmono := totalServed_mono served (Nat.succ_le_of_lt hlt)
  omega

/-- The sum over the slots only grows. -/
theorem SharedStats.Grows.total (h : s.Grows s') (n : Nat) :
    totalServed s.served n ≤ totalServed s'.served n := by
  induction n with
  | zero => exact le_rfl
  | succ n ih =>
      have hn := h.served n
      unfold totalServed
      omega

/-- **What a worker knows stays true** when others count. -/
theorem SharedStats.Knows.grows (h : s.Knows p) (hgrows : s.Grows s') : s'.Knows p := by
  have hserved : ∀ j, (s.served j : Int) ≤ s'.served j := fun j => by
    exact_mod_cast hgrows.served j
  cases p with
  | count i seen => exact h.mono (hserved i)
  | tick i j sum =>
      obtain ⟨hsum, hj⟩ := h
      exact ⟨hsum.mono (hgrows.total j), hgrows.threadNum ▸ hj⟩
  | restart i j sum now ms =>
      obtain ⟨hsum, hj, hms⟩ := h
      exact ⟨hsum.mono (hgrows.total j), hgrows.threadNum ▸ hj, hms⟩
  | measure i j sum ms =>
      obtain ⟨hsum, hj, hms⟩ := h
      exact ⟨hsum.mono (hgrows.total j), hgrows.threadNum ▸ hj, hms⟩
  | store i j sum r =>
      obtain ⟨hsum, hj, hr⟩ := h
      exact ⟨hsum.mono (hgrows.total j), hgrows.threadNum ▸ hj, hr.mono (hserved j)⟩
  | reset i j sum =>
      obtain ⟨hsum, hj⟩ := h
      exact ⟨hsum.mono (hgrows.total j), hgrows.threadNum ▸ hj⟩
  | add i j sum =>
      obtain ⟨hsum, hj⟩ := h
      exact ⟨hsum.mono (hgrows.total j), hgrows.threadNum ▸ hj⟩
  | _ => trivial

/-- **A slot is changed** to numbers that are small enough. -/
theorem SharedStats.Bounded.set (h : s.Bounded) {f : StatsSlot → StatsSlot}
    (hcount : Upto (f (s.threadStats i)).reqsServed (s.served i))
    (hrate : Upto (f (s.threadStats i)).reqsPerSec (s.served i)) : (s.set i f).Bounded := by
  refine ⟨fun j => ?_, fun j => ?_, h.published⟩
  · by_cases hj : j = i
    · rw [hj, SharedStats.set_self]
      exact hcount
    · rw [SharedStats.set_of_ne s hj]
      exact h.counts j
  · by_cases hj : j = i
    · rw [hj, SharedStats.set_self]
      exact hrate
    · rw [SharedStats.set_of_ne s hj]
      exact h.rates j

/-- Counting takes from no slot. -/
theorem SharedStats.count_served_le (s : SharedStats) (i : Nat) (seen : Int) (j : Nat) :
    s.served j ≤ (s.count i seen).served j := by
  unfold SharedStats.count
  dsimp only
  by_cases hj : j = i
  · subst hj
    rw [Function.update_self]
    omega
  · rw [Function.update_of_ne hj]

/-- Counting is growing. -/
theorem SharedStats.count_grows (s : SharedStats) (i : Nat) (seen : Int) :
    s.Grows (s.count i seen) :=
  ⟨s.count_served_le i seen, rfl⟩

/-- The slot that counts is one ahead of what was seen. -/
theorem SharedStats.count_self (s : SharedStats) (i : Nat) (seen : Int) :
    (s.count i seen).threadStats i = { s.threadStats i with reqsServed := seen + 1 } :=
  s.set_self i (fun t => { t with reqsServed := seen + 1 })

/-- Counting in one slot leaves the others as they are. -/
theorem SharedStats.count_of_ne (s : SharedStats) {i j : Nat} (hj : j ≠ i) (seen : Int) :
    (s.count i seen).threadStats j = s.threadStats j :=
  s.set_of_ne hj (fun t => { t with reqsServed := seen + 1 })

/-- **A request is counted.** -/
theorem SharedStats.Bounded.count (h : s.Bounded) {seen : Int}
    (hseen : Upto seen (s.served i)) : (s.count i seen).Bounded := by
  have hle : ∀ j, (s.served j : Int) ≤ (s.count i seen).served j := fun j => by
    exact_mod_cast s.count_served_le i seen j
  have hself : (s.count i seen).served i = s.served i + 1 := Function.update_self ..
  refine ⟨fun j => ?_, fun j => ?_, h.published.mono ((s.count_grows i seen).total _)⟩
  · by_cases hj : j = i
    · obtain ⟨hpos, hmax⟩ := hseen
      rw [hj, hself, SharedStats.count_self]
      constructor
      · exact Int.add_nonneg hpos Int.one_nonneg
      · push_cast
        omega
    · rw [SharedStats.count_of_ne s hj]
      exact (h.counts j).mono (hle j)
  · by_cases hj : j = i
    · rw [hj, SharedStats.count_self]
      exact (h.rates i).mono (hle i)
    · rw [SharedStats.count_of_ne s hj]
      exact (h.rates j).mono (hle j)

/-- Nothing was counted. -/
theorem SharedStats.grows_of_served (hserved : s'.served = s.served)
    (hnum : s'.threadNum = s.threadNum) : s.Grows s' :=
  ⟨fun j => (congrFun hserved j).ge, hnum⟩

/-- An `int` overflows in the step: a counter of the worker's own slot, or a sum of rates. -/
def SharedStats.Overflows (s : SharedStats) (p : StatsPhase) : Prop :=
  (∃ i, p.slot = some i ∧ intMax ≤ s.served i) ∨ intMax ≤ totalServed s.served s.threadNum

/-- **Step lemma for the numbers.**  They overflow after that many requests only. -/
theorem SharedStats.act_bounded {rate : Int → Int → Int}
    (hrate : ∀ n ms, 0 ≤ n → 1000 < ms → Upto (rate n ms) n) (h : s.Bounded) (hp : s.Knows p)
    (now : Timeval) (timer : Bool) :
    Ensures (s.act rate now timer p) (fun out => out.1.Bounded ∧ out.1.Knows out.2 ∧ s.Grows out.1)
      (fun e => e = .overflow → s.Overflows p) := by
  have hzero : ∀ j, Upto 0 (s.served j) := fun j => ⟨le_rfl, Int.natCast_nonneg _⟩
  have hsame : ∀ t : SharedStats, t.served = s.served → t.threadNum = s.threadNum → s.Grows t :=
    fun t hserved hnum => SharedStats.grows_of_served hserved hnum
  cases p with
  | lock =>
      unfold SharedStats.act
      by_cases hlocked : s.locked
      · rw [if_pos hlocked]
        exact ⟨h, trivial, hsame _ rfl rfl⟩
      · rw [if_neg hlocked]
        exact ⟨⟨h.counts, h.rates, h.published⟩, trivial, hsame _ rfl rfl⟩
  | check =>
      unfold SharedStats.act
      by_cases hroom : s.threadNum ≤ s.wid
      · rw [if_pos hroom]
        exact fun heq => by cases heq
      · rw [if_neg hroom]
        exact ⟨h, trivial, hsame _ rfl rfl⟩
  | number i =>
      simp only [SharedStats.act, ensures_ok]
      exact ⟨h.set (h.counts i) (h.rates i), trivial, hsame _ rfl rfl⟩
  | clearRate i =>
      simp only [SharedStats.act, ensures_ok]
      exact ⟨h.set (h.counts i) (hzero i), trivial, hsame _ rfl rfl⟩
  | clearServed i =>
      simp only [SharedStats.act, ensures_ok]
      exact ⟨h.set (hzero i) (h.rates i), trivial, hsame _ rfl rfl⟩
  | stamp i =>
      simp only [SharedStats.act, ensures_ok]
      exact ⟨h.set (h.counts i) (h.rates i), trivial, hsame _ rfl rfl⟩
  | next i =>
      simp only [SharedStats.act, ensures_ok]
      exact ⟨⟨h.counts, h.rates, h.published⟩, trivial, hsame _ rfl rfl⟩
  | unlock i =>
      simp only [SharedStats.act, ensures_ok]
      exact ⟨⟨h.counts, h.rates, h.published⟩, trivial, hsame _ rfl rfl⟩
  | idle i =>
      unfold SharedStats.act
      refine ⟨h, ?_, hsame _ rfl rfl⟩
      cases timer with
      | true => exact ⟨⟨le_rfl, le_rfl⟩, Nat.zero_le _⟩
      | false => exact h.counts i
  | count i seen =>
      simp only [SharedStats.act]
      by_cases hmax : intMax ≤ seen
      · rw [if_pos hmax]
        exact fun _ => .inl ⟨i, rfl, hmax.trans hp.2⟩
      · rw [if_neg hmax]
        exact ⟨h.count hp, trivial, s.count_grows i seen⟩
  | tick i j sum =>
      obtain ⟨hsum, hj⟩ := hp
      simp only [SharedStats.act]
      by_cases hlt : j < s.threadNum
      · rw [if_pos hlt]
        refine ⟨h, ?_, hsame _ rfl rfl⟩
        dsimp only
        by_cases hms : 1000 < getTimeDiffMs (s.threadStats j).start now
        · rw [if_pos hms]
          exact ⟨hsum, hlt, hms⟩
        · rw [if_neg hms]
          exact ⟨hsum, hlt⟩
      · -- all the slots were added up
        have heq : j = s.threadNum := by omega
        rw [if_neg hlt]
        exact ⟨⟨h.counts, h.rates, heq ▸ hsum⟩, trivial, hsame _ rfl rfl⟩
  | restart i j sum tmp ms =>
      simp only [SharedStats.act, ensures_ok]
      exact ⟨h.set (h.counts j) (h.rates j), hp, hsame _ rfl rfl⟩
  | measure i j sum ms =>
      obtain ⟨hsum, hj, hms⟩ := hp
      have hcount := h.counts j
      have hr := (hrate (s.threadStats j).reqsServed ms hcount.1 hms).mono hcount.2
      simp only [SharedStats.act, ensures_ok]
      exact ⟨⟨h.counts, h.rates, h.published⟩, ⟨hsum, hj, hr⟩, hsame _ rfl rfl⟩
  | store i j sum r =>
      obtain ⟨hsum, hj, hr⟩ := hp
      simp only [SharedStats.act, ensures_ok]
      exact ⟨h.set (h.counts j) hr, ⟨hsum, hj⟩, hsame _ rfl rfl⟩
  | reset i j sum =>
      simp only [SharedStats.act, ensures_ok]
      exact ⟨h.set (hzero j) (h.rates j), hp, hsame _ rfl rfl⟩
  | add i j sum =>
      obtain ⟨hsum, hj⟩ := hp
      have hmore : Upto (sum + (s.threadStats j).reqsPerSec) (totalServed s.served (j + 1)) :=
        hsum.add (h.rates j)
      simp only [SharedStats.act]
      by_cases hmax : intMax < sum + (s.threadStats j).reqsPerSec
      · rw [if_pos hmax]
        have hall := totalServed_mono s.served (Nat.succ_le_of_lt hj)
        exact fun _ => .inr ((hmax.le.trans hmore.2).trans hall)
      · rw [if_neg hmax]
        exact ⟨h, ⟨hmore, hj⟩, hsame _ rfl rfl⟩

end Numbers

/-! ## Who has which slot -/

/-- The phases behind the mutex. -/
def StatsPhase.Locked : StatsPhase → Prop
  | .check | .number _ | .clearRate _ | .clearServed _ | .stamp _ | .next _ | .unlock _ => True
  | _ => False

/-- The phases in which `wid` is still the number of the worker's own slot. -/
def StatsPhase.Naming : StatsPhase → Prop
  | .number _ | .clearRate _ | .clearServed _ | .stamp _ | .next _ => True
  | _ => False

/-- A worker that takes its name holds the mutex. -/
theorem StatsPhase.Naming.locked {p : StatsPhase} (h : p.Naming) : p.Locked := by
  cases p with
  | number i => trivial
  | clearRate i => trivial
  | clearServed i => trivial
  | stamp i => trivial
  | next i => trivial
  | _ => exact h.elim

/-- `n` slots were handed out: `wid`, or one more while a worker fills in its own. -/
structure StatsRace.Slots (s : StatsRace ω) (n : Nat) : Prop where
  handed : Handed n (fun w => (s.phase w).slot)
  room : n ≤ s.threadNum
  mutex : ∀ w, (s.phase w).Locked → s.locked = true
  alone : ∀ v w, (s.phase v).Locked → (s.phase w).Locked → v = w
  naming : ∀ w, (s.phase w).Naming → (s.phase w).slot = some s.wid ∧ n = s.wid + 1
  settled : (∀ w, ¬ (s.phase w).Naming) → n = s.wid
  index : ∀ w i, (s.phase w).slot = some i → s.phase w ≠ .number i →
    (s.threadStats i).index = i

/-- A write that keeps the index of its slot keeps them all. -/
theorem SharedStats.set_index {f : StatsSlot → StatsSlot} (s : SharedStats) (i : Nat)
    (hf : ∀ t, (f t).index = t.index) (j : Nat) :
    ((s.set i f).threadStats j).index = (s.threadStats j).index := by
  by_cases hj : j = i
  · rw [hj, SharedStats.set_self]
    exact hf _
  · rw [SharedStats.set_of_ne s hj]

section Slots

variable [DecidableEq ω] {s : StatsRace ω} {t : SharedStats} {w : ω} {q : StatsPhase} {n n' : Nat}

/-- A worker in another phase changes its own slot alone. -/
theorem slot_update (phase : ω → StatsPhase) (w : ω) (q : StatsPhase) :
    (fun v => (Function.update phase w q v).slot) =
      Function.update (fun v => (phase v).slot) w q.slot := by
  funext v
  by_cases hv : v = w
  · rw [hv, Function.update_self, Function.update_self]
  · rw [Function.update_of_ne hv, Function.update_of_ne hv]

/-- **A step of the worker that has the mutex**, gets it or gives it back: the others are
not behind it. -/
theorem StatsRace.Slots.hold (h : s.Slots n) (honly : ∀ v, (s.phase v).Locked → v = w)
    (hhanded : Handed n' (Function.update (fun v => (s.phase v).slot) w q.slot))
    (hroom : n' ≤ t.threadNum) (hmutex : q.Locked → t.locked = true)
    (hnaming : q.Naming → q.slot = some t.wid ∧ n' = t.wid + 1)
    (hsettled : ¬ q.Naming → n' = t.wid)
    (hself : ∀ i, q.slot = some i → q ≠ .number i → (t.threadStats i).index = i)
    (hothers : ∀ i, q.slot ≠ some i → (t.threadStats i).index = (s.threadStats i).index) :
    StatsRace.Slots ⟨t, Function.update s.phase w q⟩ n' := by
  rw [← slot_update] at hhanded
  have hw : Function.update s.phase w q w = q := Function.update_self ..
  have hv : ∀ v, v ≠ w → Function.update s.phase w q v = s.phase v :=
    fun v hne => Function.update_of_ne hne ..
  have hlast : ∀ v, (Function.update s.phase w q v).Locked → v = w := by
    intro v hlocked
    by_contra hne
    rw [hv v hne] at hlocked
    exact hne (honly v hlocked)
  refine ⟨hhanded, hroom, ?_, ?_, ?_, ?_, ?_⟩
  · intro v hlocked
    have heq := hlast v hlocked
    subst heq
    exact hmutex (hw ▸ hlocked)
  · intro u v hu hv'
    rw [hlast u hu, hlast v hv']
  · intro v hname
    have heq := hlast v hname.locked
    subst heq
    dsimp only at hname ⊢
    rw [hw] at hname ⊢
    exact hnaming hname
  · intro hnone
    have hnot := hnone w
    dsimp only at hnot
    rw [hw] at hnot
    exact hsettled hnot
  · intro v i hslot hne
    dsimp only at hslot hne
    by_cases heq : v = w
    · subst heq
      rw [hw] at hslot hne
      exact hself i hslot hne
    · have hother : q.slot ≠ some i := by
        intro hq
        exact heq (hhanded.distinct v w i hslot (by rw [hw]; exact hq))
      rw [hv v heq] at hslot hne
      exact (hothers i hother).trans (h.index v i hslot hne)

/-- **A step outside the mutex** leaves the slots to their owners. -/
theorem StatsRace.Slots.move (h : s.Slots n) (hp : ¬ (s.phase w).Locked) (hq : ¬ q.Locked)
    (hslot : q.slot = (s.phase w).slot) (hwid : t.wid = s.wid) (hnum : t.threadNum = s.threadNum)
    (hlocked : t.locked = s.locked)
    (hindex : ∀ i, (t.threadStats i).index = (s.threadStats i).index) :
    StatsRace.Slots ⟨t, Function.update s.phase w q⟩ n := by
  have hsame : ∀ v, (Function.update s.phase w q v).Locked → v ≠ w := by
    intro v hv heq
    rw [heq, Function.update_self] at hv
    exact hq hv
  have hv : ∀ v, v ≠ w → Function.update s.phase w q v = s.phase v :=
    fun v hne => Function.update_of_ne hne ..
  have hkept : ∀ v, (Function.update s.phase w q v).Locked → (s.phase v).Locked := by
    intro v hlock
    rwa [hv v (hsame v hlock)] at hlock
  refine ⟨?_, hnum ▸ h.room, ?_, ?_, ?_, ?_, ?_⟩
  · show Handed n (fun v => (Function.update s.phase w q v).slot)
    rw [slot_update, hslot, Function.update_eq_self]
    exact h.handed
  · intro v hlock
    exact hlocked.trans (h.mutex v (hkept v hlock))
  · intro u v hu hlock
    exact h.alone u v (hkept u hu) (hkept v hlock)
  · intro v hname
    have hne := hsame v hname.locked
    dsimp only at hname ⊢
    rw [hv v hne] at hname ⊢
    rw [hwid]
    exact h.naming v hname
  · intro hnone
    rw [hwid]
    refine h.settled fun v hname => ?_
    have hne : v ≠ w := by
      intro heq
      rw [heq] at hname
      exact hp hname.locked
    refine hnone v ?_
    dsimp only
    rwa [hv v hne]
  · intro v i hi hne
    dsimp only at hi hne ⊢
    rw [hindex]
    by_cases heq : v = w
    · subst heq
      rw [Function.update_self] at hi
      refine h.index v i (hslot ▸ hi) fun hnumber => hp ?_
      rw [hnumber]
      trivial
    · rw [hv v heq] at hi hne
      exact h.index v i hi hne

/-- The worker keeps its slot, or still has none. -/
theorem StatsRace.Slots.keep (h : s.Slots n) (hslot : q.slot = (s.phase w).slot) :
    Handed n (Function.update (fun v => (s.phase v).slot) w q.slot) := by
  rw [hslot, Function.update_eq_self]
  exact h.handed

omit [DecidableEq ω] in
/-- While a worker is behind the mutex, only it can be filling in a slot. -/
theorem StatsRace.Slots.none_naming (h : s.Slots n) (hp : (s.phase w).Locked)
    (hnot : ¬ (s.phase w).Naming) (v : ω) : ¬ (s.phase v).Naming := by
  intro hname
  have heq := h.alone v w hname.locked hp
  subst heq
  exact hnot hname

/-- **A field of the new slot** is filled in. -/
theorem StatsRace.Slots.fill (h : s.Slots n) (hp : (s.phase w).Naming) (hq : q.Naming)
    (hslot : q.slot = (s.phase w).slot) (hwid : t.wid = s.wid) (hnum : t.threadNum = s.threadNum)
    (hlocked : t.locked = s.locked)
    (hself : ∀ i, q.slot = some i → q ≠ .number i → (t.threadStats i).index = i)
    (hothers : ∀ i, q.slot ≠ some i → (t.threadStats i).index = (s.threadStats i).index) :
    StatsRace.Slots ⟨t, Function.update s.phase w q⟩ n := by
  obtain ⟨hown, hn⟩ := h.naming w hp
  refine h.hold (fun v hv => h.alone v w hv hp.locked) (h.keep hslot) (hnum ▸ h.room) ?_ ?_ ?_
    hself hothers
  · intro _
    exact hlocked.trans (h.mutex w hp.locked)
  · intro _
    rw [hslot, hwid]
    exact ⟨hown, hn⟩
  · intro hnot
    exact absurd hq hnot

/-- **Step lemma for the slots.**  As there are not more workers than slots, `mk_bug` finds
nothing; what may stop a step is an overflow. -/
theorem StatsRace.Slots.act [Fintype ω] (h : s.Slots n) (hworkers : Fintype.card ω ≤ s.threadNum)
    (rate : Int → Int → Int) (now : Timeval) (timer : Bool) (w : ω) :
    Ensures (s.act rate now timer (s.phase w))
      (fun out => ∃ n', StatsRace.Slots ⟨out.1, Function.update s.phase w out.2⟩ n')
      (fun e => e = .overflow) := by
  -- a step outside the mutex that leaves the indices alone
  have hmove : ∀ (t : SharedStats) (q : StatsPhase), ¬ (s.phase w).Locked → ¬ q.Locked →
      q.slot = (s.phase w).slot → t.wid = s.wid → t.threadNum = s.threadNum →
      t.locked = s.locked → (∀ i, (t.threadStats i).index = (s.threadStats i).index) →
      ∃ n', StatsRace.Slots ⟨t, Function.update s.phase w q⟩ n' :=
    fun t q hp hq hslot hwid hnum hlocked hindex =>
      ⟨n, h.move hp hq hslot hwid hnum hlocked hindex⟩
  have hset : ∀ (j : Nat) (f : StatsSlot → StatsSlot) (q : StatsPhase), ¬ (s.phase w).Locked →
      ¬ q.Locked → q.slot = (s.phase w).slot → (∀ x, (f x).index = x.index) →
      ∃ n', StatsRace.Slots ⟨s.set j f, Function.update s.phase w q⟩ n' :=
    fun j f q hp hq hslot hf =>
      hmove (s.set j f) q hp hq hslot rfl rfl rfl (SharedStats.set_index _ j hf)
  -- a step that fills in something else than the index
  have hfill : ∀ (i : Nat) (f : StatsSlot → StatsSlot) (q : StatsPhase), (s.phase w).Naming →
      s.phase w ≠ .number i → q.Naming → q.slot = some i → (s.phase w).slot = some i →
      (∀ x, (f x).index = x.index) →
      ∃ n', StatsRace.Slots ⟨s.set i f, Function.update s.phase w q⟩ n' := by
    intro i f q hp hne hq hslot hown hf
    refine ⟨n, h.fill hp hq (hslot.trans hown.symm) rfl rfl rfl ?_ ?_⟩
    · intro j hj _
      have heq : i = j := Option.some.inj (hslot.symm.trans hj)
      subst heq
      rw [SharedStats.set_index _ _ hf]
      exact h.index w i hown hne
    · intro j _
      exact SharedStats.set_index _ _ hf j
  cases hp : s.phase w with
  | lock =>
      simp only [SharedStats.act]
      by_cases hlocked : s.locked = true
      · rw [if_pos hlocked]
        exact hmove _ _ (hp ▸ id) id (by rw [hp]) rfl rfl rfl (fun _ => rfl)
      · rw [if_neg hlocked]
        have hnone : ∀ v, ¬ (s.phase v).Locked := fun v hv => hlocked (h.mutex v hv)
        refine ⟨n, h.hold (fun v hv => absurd hv (hnone v)) (h.keep (by rw [hp]; rfl)) h.room
          (fun _ => rfl) (fun hname => hname.elim) (fun _ => ?_) (fun i hi => ?_) (fun _ _ => rfl)⟩
        · exact h.settled fun v hv => hnone v hv.locked
        · cases hi
  | check =>
      have hlock : (s.phase w).Locked := hp ▸ trivial
      have hslot : (s.phase w).slot = none := by rw [hp]; rfl
      have hwid : n = s.wid := h.settled (h.none_naming hlock (hp ▸ id))
      have hroom : s.wid < s.threadNum := by
        have hlt := h.handed.lt_card hslot
        omega
      simp only [SharedStats.act]
      rw [if_neg (by omega)]
      have hgive := h.handed.give hslot
      rw [hwid] at hgive
      refine ⟨s.wid + 1, h.hold (fun v hv => h.alone v w hv hlock) hgive hroom ?_ ?_ ?_ ?_ ?_⟩
      · intro _
        exact h.mutex w hlock
      · intro _
        exact ⟨rfl, rfl⟩
      · intro hnot
        exact absurd trivial hnot
      · intro i hi hne
        exact absurd (congrArg StatsPhase.number (Option.some.inj hi)) hne
      · intro i _
        rfl
  | number i =>
      obtain ⟨hown, hn⟩ := h.naming w (hp ▸ trivial)
      have hi : i = s.wid := by
        rw [hp] at hown
        exact Option.some.inj hown
      simp only [SharedStats.act, ensures_ok]
      refine ⟨n, h.fill (hp ▸ trivial) trivial (by rw [hp]; rfl) rfl rfl rfl ?_ ?_⟩
      · intro j hj _
        have heq : i = j := Option.some.inj hj
        rw [← heq, SharedStats.set_self, hi]
      · intro j hj
        have hne : j ≠ i := fun heq => hj (congrArg some heq.symm)
        rw [SharedStats.set_of_ne _ hne]
  | clearRate i =>
      simp only [SharedStats.act, ensures_ok]
      exact hfill i _ _ (hp ▸ trivial) (by rw [hp]; exact StatsPhase.noConfusion) trivial rfl
        (by rw [hp]; rfl) (fun _ => rfl)
  | clearServed i =>
      simp only [SharedStats.act, ensures_ok]
      exact hfill i _ _ (hp ▸ trivial) (by rw [hp]; exact StatsPhase.noConfusion) trivial rfl
        (by rw [hp]; rfl) (fun _ => rfl)
  | stamp i =>
      simp only [SharedStats.act, ensures_ok]
      exact hfill i _ _ (hp ▸ trivial) (by rw [hp]; exact StatsPhase.noConfusion) trivial rfl
        (by rw [hp]; rfl) (fun _ => rfl)
  | next i =>
      obtain ⟨hown, hn⟩ := h.naming w (hp ▸ trivial)
      have hlock : (s.phase w).Locked := hp ▸ trivial
      simp only [SharedStats.act, ensures_ok]
      refine ⟨n, h.hold (fun v hv => h.alone v w hv hlock) (h.keep (by rw [hp]; rfl)) h.room
        (fun _ => h.mutex w hlock) (fun hname => hname.elim) (fun _ => hn) ?_ (fun _ _ => rfl)⟩
      intro j hj _
      exact h.index w j (by rw [hp]; exact hj) (by rw [hp]; exact StatsPhase.noConfusion)
  | unlock i =>
      have hlock : (s.phase w).Locked := hp ▸ trivial
      have hwid : n = s.wid := h.settled (h.none_naming hlock (hp ▸ id))
      simp only [SharedStats.act, ensures_ok]
      refine ⟨n, h.hold (fun v hv => h.alone v w hv hlock) (h.keep (by rw [hp]; rfl)) h.room
        (fun hname => hname.elim) (fun hname => hname.elim) (fun _ => hwid) ?_ (fun _ _ => rfl)⟩
      intro j hj _
      exact h.index w j (by rw [hp]; exact hj) (by rw [hp]; exact StatsPhase.noConfusion)
  | idle i =>
      simp only [SharedStats.act, ensures_ok]
      cases timer with
      | true => exact hmove _ _ (hp ▸ id) id (by rw [hp]; rfl) rfl rfl rfl (fun _ => rfl)
      | false => exact hmove _ _ (hp ▸ id) id (by rw [hp]; rfl) rfl rfl rfl (fun _ => rfl)
  | count i seen =>
      refine Ensures.guard (fun _ => rfl) (fun _ => ?_)
      exact hmove _ _ (hp ▸ id) id (by rw [hp]; rfl) rfl rfl rfl
        (SharedStats.set_index s.toSharedStats i (f := fun t => { t with reqsServed := seen + 1 })
          (fun _ => rfl))
  | tick i j sum =>
      simp only [SharedStats.act]
      by_cases hlt : j < s.threadNum
      · rw [if_pos hlt, ensures_ok]
        by_cases hms : 1000 < getTimeDiffMs (s.threadStats j).start now
        · rw [if_pos hms]
          exact hmove _ _ (hp ▸ id) id (by rw [hp]; rfl) rfl rfl rfl (fun _ => rfl)
        · rw [if_neg hms]
          exact hmove _ _ (hp ▸ id) id (by rw [hp]; rfl) rfl rfl rfl (fun _ => rfl)
      · rw [if_neg hlt]
        exact hmove _ _ (hp ▸ id) id (by rw [hp]; rfl) rfl rfl rfl (fun _ => rfl)
  | restart i j sum tmp ms =>
      simp only [SharedStats.act, ensures_ok]
      exact hset j _ _ (hp ▸ id) id (by rw [hp]; rfl) (fun _ => rfl)
  | measure i j sum ms =>
      exact hmove _ _ (hp ▸ id) id (by rw [hp]; rfl) rfl rfl rfl (fun _ => rfl)
  | store i j sum r =>
      simp only [SharedStats.act, ensures_ok]
      exact hset j _ _ (hp ▸ id) id (by rw [hp]; rfl) (fun _ => rfl)
  | reset i j sum =>
      simp only [SharedStats.act, ensures_ok]
      exact hset j _ _ (hp ▸ id) id (by rw [hp]; rfl) (fun _ => rfl)
  | add i j sum =>
      refine Ensures.guard (fun _ => rfl) (fun _ => ?_)
      exact hmove _ _ (hp ▸ id) id (by rw [hp]; rfl) rfl rfl rfl (fun _ => rfl)

end Slots

end MonkeyCache
