import MonkeyCache.Lib.Custody
import MonkeyCache.Moves
import MonkeyCache.ObjectLife

/-!
# The ledger of the descriptors

A constructor opens a descriptor for its file, and `cache_file_free` closes
`file->fd`.  Neither constructor stores the descriptor there, so what is closed
is what the block from `mem_alloc` happened to hold.  `Ledger` is the log of the
descriptors as it should be.  It is kept in runs in which the blocks hold the
right descriptor (`descriptors_closed_once`); `foreign_descriptor_closed` is a
run that closes the socket of a client.
-/

namespace MonkeyCache

open Fallible Transition Custody

/-- **The ledger.**  `us` is the log of the descriptors, `n` the number of
objects that were built, `held` the objects that are live, by their numbers, with
the descriptors that were opened for them, and `freed` the objects that were
freed. -/
inductive Ledger : List FdUse → Nat → List (Nat × Int) → List Nat → Prop
  | start : Ledger [] 0 [] []
  /-- a constructor returns `NULL` before there is an object -/
  | refused {us : List FdUse} {n : Nat} {held : List (Nat × Int)} {freed : List Nat} (fd : Int)
      (h : Ledger us n held freed) : Ledger (us ++ [.opened fd, .closed fd]) n held freed
  /-- a constructor builds the next object -/
  | built {us : List FdUse} {n : Nat} {held : List (Nat × Int)} {freed : List Nat} (fd : Int)
      (h : Ledger us n held freed) : Ledger (us ++ [.opened fd]) (n + 1) ((n, fd) :: held) freed
  /-- an object is freed, and the descriptor that was opened for it is closed -/
  | closed {us : List FdUse} {n : Nat} {held held' : List (Nat × Int)} {freed : List Nat} {k : Nat}
      {fd : Int} (h : Ledger us n held freed) (hheld : held.Perm ((k, fd) :: held')) :
      Ledger (us ++ [.closed fd]) n held' (freed ++ [k])

variable {cfg : Config} {s : Worker} {d d' : Desk} {objs : List Addr} {us : List FdUse} {n : Nat}
  {held : List (Nat × Int)} {freed : List Nat}

/-! ## What a ledger says -/

/-- The descriptors that were opened and those that were closed. -/
def FdUse.openedFd : FdUse → Option Int
  | .opened fd => some fd
  | .closed _ => none

def FdUse.closedFd : FdUse → Option Int
  | .opened _ => none
  | .closed fd => some fd

/-- Every descriptor that was opened is closed once or held by a live object. -/
theorem Ledger.balance (h : Ledger us n held freed) :
    (us.filterMap FdUse.openedFd).Perm (us.filterMap FdUse.closedFd ++ held.map Prod.snd) := by
  induction h with
  | start => exact .nil
  | refused fd h ih =>
      rw [List.perm_iff_count] at ih ⊢
      intro x
      have hx := ih x
      simp only [List.filterMap_append, List.filterMap_cons, List.filterMap_nil, FdUse.openedFd,
        FdUse.closedFd, List.count_append, List.count_cons, List.count_nil] at hx ⊢
      omega
  | built fd h ih =>
      rw [List.perm_iff_count] at ih ⊢
      intro x
      have hx := ih x
      simp only [List.filterMap_append, List.filterMap_cons, List.filterMap_nil, FdUse.openedFd,
        FdUse.closedFd, List.map_cons, List.count_append, List.count_cons, List.count_nil] at hx ⊢
      omega
  | closed h hheld ih =>
      have hmap := hheld.map Prod.snd
      rw [List.perm_iff_count] at ih hmap ⊢
      intro x
      have hx := ih x
      have hm := hmap x
      simp only [List.filterMap_append, List.filterMap_cons, List.filterMap_nil, FdUse.openedFd,
        FdUse.closedFd, List.map_cons, List.count_append, List.count_cons, List.count_nil]
        at hx hm ⊢
      omega

/-- A step of the objects, which are numbered as they are built. -/
def ObjectStep : Account (Nat × Int) → Account (Nat × Int) → Prop :=
  Step Prod.fst Eq fun n x => x.1 = n

theorem ObjectStep.conserved {acc acc' : Account (Nat × Int)} (h : ObjectStep acc acc')
    (hacc : acc.Conserved Prod.fst) : acc'.Conserved Prod.fst :=
  Step.conserved h (fun _ _ hxy => hxy ▸ rfl) (fun _ _ hx => hx) hacc

/-- Every object that was built is freed once or live. -/
theorem Ledger.objects (h : Ledger us n held freed) :
    Account.Conserved Prod.fst ⟨held, freed, n⟩ := by
  induction h with
  | start => exact .nil
  | refused fd h ih => exact ih
  | built fd h ih => exact ObjectStep.conserved (.make rfl (.refl _)) ih
  | closed h hheld ih => exact ObjectStep.conserved (.close hheld) ih

/-! ## Runs that keep the ledger -/

/-- The block that a constructor gets holds the descriptor that the constructor
opened. -/
def CreateOut.OwnsFd (c : CreateOut) : Prop :=
  c.opened = true → 0 ≤ c.fd ∧ c.junk.fd = c.fd

/-- An object by its number, with `file->fd`. -/
def Object.fdItem (o : Object) : List (Nat × Int) := [(o.serial, o.file.fd)]

/-- The log of the worker is a ledger of its live objects. -/
structure Worker.Ledgered (s : Worker) (objs : List Addr) : Prop where
  live : s.toBooks.LiveAt objs
  ledger : Ledger s.fds s.serials (objs.flatMap (itemsAt Object.fdItem s.heap))
    (s.frees.map (fun x => x.serial))
  valid : ∀ a o, s.heap a = some o → 0 ≤ o.file.fd

/-- An object that changes keeps `file->fd`. -/
theorem fdItems_update (heap : Addr → Option Object) {a : Addr} {o o' : Object}
    (ha : heap a = some o) (ho : o'.fdItem = o.fdItem) (objs : List Addr) :
    objs.flatMap (itemsAt Object.fdItem (Function.update heap a (some o'))) =
      objs.flatMap (itemsAt Object.fdItem heap) := by
  apply List.flatMap_congr
  intro b _
  by_cases hba : b = a
  · rw [hba, itemsAt_some Object.fdItem ha,
      itemsAt_some Object.fdItem (Function.update_self a (some o') heap), ho]
  · unfold itemsAt
    rw [Function.update_of_ne hba]

/-- The block at `a` changes, and `file->fd` is still a descriptor everywhere. -/
theorem valid_update {heap : Addr → Option Object} {a : Addr} {x : Option Object}
    (h : ∀ b p, heap b = some p → 0 ≤ p.file.fd) (hx : ∀ p, x = some p → 0 ≤ p.file.fd) :
    ∀ b p, Function.update heap a x b = some p → 0 ≤ p.file.fd := by
  intro b p hb
  by_cases hba : b = a
  · rw [hba, Function.update_self] at hb
    exact hx p hb
  · rw [Function.update_of_ne hba] at hb
    exact h b p hb

/-- **Step lemma.** -/
theorem Worker.Ledgered.move (h : d.worker.Ledgered objs)
    (hmove : Desk.Move cfg CreateOut.OwnsFd d d') : ∃ objs', d'.worker.Ledgered objs' := by
  obtain ⟨hlive, hledger, hvalid⟩ := h
  cases hmove with
  | @mark s hand closed a o f ha hf =>
      have hitem : Object.fdItem { o with file := f } = o.fdItem := by
        unfold Object.fdItem
        rw [hf.fd]
      refine ⟨objs, hlive.update ha rfl, ?_, ?_⟩
      · show Ledger s.fds s.serials (objs.flatMap (itemsAt Object.fdItem
          (Function.update s.heap a (some _)))) _
        rw [fdItems_update s.heap ha hitem]
        exact hledger
      · apply valid_update hvalid
        intro p hp
        rw [← Option.some.inj hp]
        show 0 ≤ f.fd
        rw [hf.fd]
        exact hvalid a o ha
  | refuse fd => exact ⟨objs, ⟨hlive.nodup, hlive.mem_iff⟩, .refused fd hledger, hvalid⟩
  | @build s closed a o c hfree hQ hbuilt =>
      have hnew : a ∉ objs := by
        rw [hlive.mem_iff, hfree]
        simp
      obtain ⟨hpos, hjunk⟩ := hQ hbuilt.opened
      have hfd : o.file.fd = c.fd := hbuilt.fd.trans hjunk
      refine ⟨a :: objs, hlive.build hfree rfl, ?_, ?_⟩
      · have hitems : (a :: objs).flatMap (itemsAt Object.fdItem (s.build a o c.fd).heap) =
            (s.serials, c.fd) :: objs.flatMap (itemsAt Object.fdItem s.heap) := by
          rw [List.flatMap_cons]
          show itemsAt Object.fdItem (Function.update s.heap a (some o)) a ++
            objs.flatMap (itemsAt Object.fdItem (Function.update s.heap a (some o))) = _
          rw [flatMap_itemsAt_update Object.fdItem s.heap (some o) hnew,
            itemsAt_some Object.fdItem (Function.update_self a (some o) s.heap), Object.fdItem,
            hbuilt.serial, hfd, List.singleton_append]
        rw [hitems]
        exact .built c.fd hledger
      · apply valid_update hvalid
        intro p hp
        rw [← Option.some.inj hp, hfd]
        exact hpos
  | @drop s hand closed a o ha =>
      have hmem : a ∈ objs := (hlive.mem_iff a).2 ⟨o, ha⟩
      have hnot : a ∉ objs.erase a := hlive.nodup.not_mem_erase
      have hne : o.file.fd ≠ -1 := by
        have hpos := hvalid a o ha
        omega
      refine ⟨objs.erase a, hlive.drop a rfl, ?_, ?_⟩
      · have hsplit := (List.perm_cons_erase hmem).flatMap_right (itemsAt Object.fdItem s.heap)
        rw [List.flatMap_cons, itemsAt_some Object.fdItem ha, Object.fdItem,
          List.singleton_append] at hsplit
        have hclosed := Ledger.closed hledger hsplit
        rw [← flatMap_itemsAt_update Object.fdItem s.heap none hnot] at hclosed
        show Ledger (if o.file.fd ≠ -1 then s.fds ++ [.closed o.file.fd] else s.fds) s.serials _
          ((s.frees ++ [_]).map _)
        rw [if_pos hne, List.map_append]
        exact hclosed
      · apply valid_update hvalid
        intro p hp
        cases hp
  | _ => exact ⟨objs, ⟨hlive.nodup, hlive.mem_iff⟩, hledger, hvalid⟩

/-- **Descriptor ledger.**  Where the blocks hold the right descriptor, each one
is closed by the constructor that opened it or with the object it was opened
for; and where their counters are safe as well, no object is used after that. -/
theorem descriptors_closed_once
    (hrun : Worker.Runs cfg (fun e => e.Creates CreateOut.OwnsFd) Worker.init s) :
    (∃ objs, s.Ledgered objs ∧
      (s.fds.filterMap FdUse.openedFd).Perm
        (s.fds.filterMap FdUse.closedFd ++
          (objs.flatMap (itemsAt Object.fdItem s.heap)).map Prod.snd)) ∧
    (s.frees.map (fun x => x.serial)).Nodup ∧
    (Worker.Runs cfg safeBlocks.Allows Worker.init s →
      ∀ e fault, safeBlocks.Allows e → s.step cfg e = .error fault → fault ≠ .useAfterFree) := by
  obtain ⟨closed, hreach⟩ := Worker.runs_lead (fun e he => he) hrun []
  have hledgered : ∃ objs, s.Ledgered objs := by
    apply hreach.invariant (fun d => ∃ objs, d.worker.Ledgered objs)
    · exact ⟨[], ⟨List.nodup_nil, by simp [Worker.init]⟩, .start, by simp [Worker.init]⟩
    · intro d d' hd hmove
      obtain ⟨objs, hd⟩ := hd
      exact hd.move hmove
  obtain ⟨objs, hledgered⟩ := hledgered
  refine ⟨⟨objs, hledgered, hledgered.ledger.balance⟩, ?_, ?_⟩
  · exact (List.nodup_append.1 hledgered.ledger.objects.nodup).2.1
  · intro hsafe e fault hallow hstep
    have hreads : ∀ e, safeBlocks.Reads cfg e := .of_any fun _ _ => trivial
    have hinv := Worker.inv_of_runs (Worker.init_inv fun _ => rfl) (fun e he => ⟨he, hreads e⟩)
      hsafe
    exact (Worker.step_keeps hinv hallow (hreads e)).of_error hstep

/-- A file is served and reset; its block held the descriptor 3. -/
theorem descriptors_closed_once_sample :
    ∃ s : Worker, s.fds = [.opened 3, .closed 3] ∧ ∃ objs, s.Ledgered objs := by
  have hrun : Worker.Runs plainConfig (fun e => e.Creates CreateOut.OwnsFd) Worker.init _ :=
    .of_exec [plainRequest 5 true fileA [] 100 ⟨3, false, 0⟩ .all,
        plainRequest 6 true resetA [] 200 ⟨3, false, 0⟩ .all]
      (by
        intro e he _
        simp only [List.mem_cons, List.not_mem_nil, or_false] at he
        rcases he with rfl | rfl
        · exact ⟨fun _ => ⟨by decide, rfl⟩, fun _ => ⟨by decide, rfl⟩⟩
        · exact ⟨fun _ => ⟨by decide, rfl⟩, fun _ => ⟨by decide, rfl⟩⟩) rfl
  obtain ⟨objs, hledgered, _⟩ := (descriptors_closed_once hrun).1
  exact ⟨_, rfl, objs, hledgered⟩

/-- A file is served to the client on socket 5 and reset; its block held a 5.  The
client's socket is closed, and the descriptor of the file is not. -/
theorem foreign_descriptor_closed :
    ∃ s, Worker.Runs plainConfig safeBlocks.Allows Worker.init s ∧
      s.serials = 1 ∧ s.frees.map (fun x => x.serial) = [0] ∧ s.fds = [.opened 3, .closed 5] ∧
      ∀ n held freed, ¬ Ledger s.fds n held freed := by
  have hrun : Worker.Runs plainConfig safeBlocks.Allows Worker.init _ :=
    .of_exec [plainRequest 5 true fileA [] 100 ⟨5, false, 0⟩ .all,
        plainRequest 6 true resetA [] 200 ⟨0, false, 0⟩ .all]
      (by
        intro e he _
        simp only [List.mem_cons, List.not_mem_nil, or_false] at he
        rcases he with rfl | rfl
        · exact ⟨by decide, nofun, nofun⟩
        · exact ⟨by decide, nofun, fun _ _ => rfl⟩) rfl
  refine ⟨_, hrun, rfl, rfl, rfl, ?_⟩
  intro n held freed hledger
  -- 5 was closed, so it would have been opened
  have hbalance := hledger.balance
  have hmem : (5 : Int) ∈ [(3 : Int)] :=
    hbalance.mem_iff.2 (List.mem_append_left _ (List.mem_singleton.2 rfl))
  simp at hmem

end MonkeyCache
