import MonkeyCache.PipeBuf

/-!
# What `pipe_buf_vmsplice` appends

The iovec of the loop is not advanced: every call of `vmsplice` is offered the
memory from its start again.  So the pipe gets one prefix of the memory for each
call that moves something (`vmsplice_loop`), and these prefixes make up a prefix
of the memory only when each of them happens to continue it where the one before
ended (`Continues`), as they do when at most one call moves anything.

* `continues_iff` — prefixes put one after the other against one prefix.
* `appended_iff` — the call does what its callers rely on exactly then.
* `repeated_prefix` — a short count and a call that takes the rest.
-/

namespace MonkeyCache

open Fallible

/-! ## Prefixes that continue each other -/

/-- The prefixes of `mem` with lengths `ns`, the first of which is to stand for
the bytes of `mem` from `pos` on. -/
def Continues (mem : List Byte) : Nat → List Nat → Prop
  | _, [] => True
  | pos, n :: ns => mem.take n <+: mem.drop pos ∧ Continues mem (pos + n) ns

/-- Prefixes that continue each other are the memory itself. -/
theorem continues_iff {mem : List Byte} {ns : List Nat} (hns : ∀ n ∈ ns, n ≤ mem.length) :
    ∀ pos, pos ≤ mem.length →
      (Continues mem pos ns ↔
        pos + ns.sum ≤ mem.length ∧
          (ns.map mem.take).flatten = (mem.drop pos).take ns.sum) := by
  induction ns with
  | nil =>
      intro pos hpos
      simp [Continues, hpos]
  | cons n ns ih =>
      intro pos hpos
      have hn : n ≤ mem.length := hns n (by simp)
      have hlen : (mem.take n).length = n := by
        rw [List.length_take]
        omega
      have hrest := ih fun m hm => hns m (by simp [hm])
      have hsplit : (mem.drop pos).take (n + ns.sum)
          = (mem.drop pos).take n ++ (mem.drop (pos + n)).take ns.sum := by
        rw [List.take_add, List.drop_drop]
      simp only [Continues, List.sum_cons, List.map_cons, List.flatten_cons, hsplit]
      constructor
      · intro h
        obtain ⟨hpre, hcont⟩ := h
        have hle : n ≤ mem.length - pos := by
          have h := hpre.length_le
          rw [hlen, List.length_drop] at h
          exact h
        obtain ⟨hsum, hflat⟩ := (hrest (pos + n) (by omega)).1 hcont
        have hfirst : mem.take n = (mem.drop pos).take n := by
          have h := List.prefix_iff_eq_take.1 hpre
          rw [hlen] at h
          exact h
        exact ⟨by omega, by rw [← hfirst, hflat]⟩
      · intro h
        obtain ⟨hsum, hflat⟩ := h
        have hsame : (mem.take n).length = ((mem.drop pos).take n).length := by
          rw [hlen, List.length_take, List.length_drop]
          omega
        obtain ⟨hfirst, hrestEq⟩ := List.append_inj hflat hsame
        refine ⟨?_, (hrest (pos + n) (by omega)).2 ⟨by omega, hrestEq⟩⟩
        rw [hfirst]
        exact List.take_prefix _ _

/-! ## The loop -/

/-- What the calls of `vmsplice` return, from the `k`-th on, until one fails or
`len` bytes are counted; `cnt` is what was counted before and `room` is what the
pipe can still take. -/
def vmspliceCounts (o : Nat → Xfer) (len : Nat) : Nat → Nat → Nat → Nat → List Nat
  | 0, _, _, _ => []
  | fuel + 1, k, cnt, room =>
    if cnt < len then
      match (o k).count (min len room) with
      | .error _ => []
      | .ok n => n :: vmspliceCounts o len fuel (k + 1) (cnt + n) (room - n)
    else []

/-- Every count is a nonempty part of the memory. -/
theorem vmspliceCounts_le {o : Nat → Xfer} {len : Nat} :
    ∀ fuel k cnt room, ∀ n ∈ vmspliceCounts o len fuel k cnt room, n ≤ len := by
  intro fuel
  induction fuel with
  | zero => simp [vmspliceCounts]
  | succ fuel ih =>
      intro k cnt room n hn
      unfold vmspliceCounts at hn
      split at hn
      · split at hn
        · cases hn
        · rename_i m hcount
          have hm := Xfer.count_ok hcount
          rcases List.mem_cons.1 hn with rfl | hn
          · omega
          · exact ih _ _ _ n hn
      · cases hn

/-- **The loop.**  It ends, having appended one prefix of the memory for each
call that moved something; it returns what it counted, or a call that was still
to be made failed hard. -/
theorem vmsplice_loop (mem : List Byte) (o : Nat → Xfer) :
    ∀ (fuel k cnt : Nat) (buf : PipeBuf), mem.length ≤ cnt + fuel →
      ∃ ns, ns = vmspliceCounts o mem.length (fuel + 1) k cnt (buf.cap - buf.data.length) ∧
        ∃ ret buf', iterate Fault.diverged (vmspliceRound mem o) (fuel + 1) k (cnt, buf) =
            .ok (ret, buf') ∧
          buf'.data = buf.data ++ (ns.map mem.take).flatten ∧
          buf'.filled = buf.filled + ns.sum ∧
          (ret = (cnt + ns.sum : Nat) ∨
            (cnt + ns.sum < mem.length ∧ o (k + ns.length) = .error)) := by
  intro fuel
  induction fuel with
  | zero =>
      intro k cnt buf hfuel
      have hend : ¬ cnt < mem.length := by omega
      refine ⟨[], by simp [vmspliceCounts, hend], cnt, { buf with locked := false }, ?_⟩
      simp [iterate, vmspliceRound, hend]
  | succ fuel ih =>
      intro k cnt buf hfuel
      by_cases hmore : cnt < mem.length
      · -- one more call
        cases hcount : (o k).count (min mem.length (buf.cap - buf.data.length)) with
        | error e =>
            refine ⟨[], by simp [vmspliceCounts, hmore, hcount], ?_⟩
            cases e with
            | eagain =>
                refine ⟨cnt, buf, ?_⟩
                simp [iterate, vmspliceRound, hmore, vmsplice, hcount]
            | other =>
                have hround : vmspliceRound mem o k (cnt, buf) = .ok (.inr (-1, buf)) := by
                  simp [vmspliceRound, hmore, vmsplice, hcount]
                refine ⟨-1, buf, ?_, by simp, by simp, .inr ⟨by simpa using hmore, ?_⟩⟩
                · unfold iterate
                  rw [hround]
                · exact Xfer.count_other hcount
        | ok n =>
            have hn := Xfer.count_ok hcount
            let next : PipeBuf :=
              { buf with data := buf.data ++ mem.take n, filled := buf.filled + n }
            have hround : vmspliceRound mem o k (cnt, buf) = .ok (.inl (cnt + n, next)) := by
              simp [vmspliceRound, hmore, vmsplice, hcount, next]
            have hroom : buf.cap - buf.data.length - n = next.cap - next.data.length := by
              simp only [next, List.length_append, List.length_take]
              omega
            obtain ⟨ns, hns, ret, buf', hrun, hdata, hfilled, hret⟩ :=
              ih (k + 1) (cnt + n) next (by omega)
            refine ⟨n :: ns, ?_, ret, buf', ?_, ?_, ?_, ?_⟩
            · rw [hns, ← hroom]
              conv_rhs => unfold vmspliceCounts
              simp [hmore, hcount]
            · unfold iterate
              rw [hround]
              exact hrun
            · rw [hdata]
              simp [next]
            · rw [hfilled]
              simp only [next, List.sum_cons]
              omega
            · rw [List.sum_cons, List.length_cons]
              rcases hret with hret | ⟨hlt, hfail⟩
              · exact .inl (by rw [hret, Nat.add_assoc])
              · refine .inr ⟨by omega, ?_⟩
                rw [← hfail]
                congr 1
                omega
      · refine ⟨[], by simp [vmspliceCounts, hmore], cnt, { buf with locked := false }, ?_⟩
        simp [iterate, vmspliceRound, hmore]

/-! ## The call -/

/-- What the calls of `vmsplice` move for `pipe_buf_vmsplice(buf, mem, len)`. -/
def PipeBuf.counts (buf : PipeBuf) (mem : List Byte) (o : Nat → Xfer) : List Nat :=
  vmspliceCounts o mem.length (mem.length + 1) 0 0 (buf.cap - buf.data.length)

/-- What the callers of `pipe_buf_vmsplice` rely on when it returns `ret` and
leaves `buf'`: the pipe got the first `c` bytes of the memory, `c` is what was
counted, and it is returned unless `failed`. -/
def PipeBuf.Appended (buf : PipeBuf) (mem : List Byte) (failed : Nat → Prop) (ret : Int)
    (buf' : PipeBuf) : Prop :=
  ∃ c, buf'.filled = buf.filled + c ∧ c ≤ mem.length ∧
    buf'.data = buf.data ++ mem.take c ∧ (ret = c ∨ failed c)

/-- After `c` bytes another call was due, and it failed with an `errno` other than
`EAGAIN`. -/
def PipeBuf.failedAfter (buf : PipeBuf) (mem : List Byte) (o : Nat → Xfer) (c : Nat) : Prop :=
  c < mem.length ∧ o (buf.counts mem o).length = .error

/-- **Appending.**  `pipe_buf_vmsplice` returns, and it has appended a prefix of
the memory exactly when what its calls move continues the memory. -/
theorem appended_iff {buf : PipeBuf} {mem : List Byte} {o : Nat → Xfer}
    (hlock : buf.locked = false) (hroom : buf.filled + mem.length ≤ buf.cap) :
    ∃ ret buf', pipeBufVmsplice buf mem mem.length o = .ok (ret, buf') ∧
      (buf.Appended mem (buf.failedAfter mem o) ret buf' ↔
        Continues mem 0 (buf.counts mem o)) := by
  obtain ⟨ns, hns, ret, buf', hrun, hdata, hfilled, hret⟩ :=
    vmsplice_loop mem o mem.length 0 0 { buf with locked := true } (by omega)
  have hcounts : ns = buf.counts mem o := hns
  refine ⟨ret, buf', ?_, ?_⟩
  · unfold pipeBufVmsplice
    rw [if_neg (by simp [hlock]), if_neg (by omega), if_neg (by omega)]
    rw [Int.toNat_natCast, List.take_length]
    exact hrun
  · have hle : ∀ n ∈ ns, n ≤ mem.length := by
      rw [hns]
      exact vmspliceCounts_le _ _ _ _
    rw [← hcounts, continues_iff hle 0 (Nat.zero_le _)]
    simp only [Nat.zero_add, List.drop_zero] at hret ⊢
    constructor
    · intro happended
      obtain ⟨c, hc, hclen, happ, _⟩ := happended
      have hsum : c = ns.sum := by
        dsimp only at hfilled
        omega
      subst hsum
      rw [hdata] at happ
      exact ⟨hclen, List.append_cancel_left happ⟩
    · intro h
      obtain ⟨hsum, hflat⟩ := h
      refine ⟨ns.sum, hfilled, hsum, by rw [hdata, hflat], hret.imp_right ?_⟩
      intro hfailed
      obtain ⟨hlt, hfail⟩ := hfailed
      exact ⟨hlt, hcounts ▸ hfail⟩

/-- A short count, and then `x` for ever. -/
def shortThen (n : Nat) (x : Xfer) (k : Nat) : Xfer := if k = 0 then .short n else x

/-- A region that repeats itself after two bytes, which are moved twice. -/
theorem appended_iff_sample :
    ∃ ret buf', pipeBufVmsplice (.fresh 8 0) [1, 2, 1, 2] 4 (shortThen 2 (.short 2)) =
        .ok (ret, buf') ∧
      (PipeBuf.Appended (.fresh 8 0) [1, 2, 1, 2]
          (PipeBuf.failedAfter (.fresh 8 0) [1, 2, 1, 2] (shortThen 2 (.short 2))) ret buf' ↔
        Continues [1, 2, 1, 2] 0 (PipeBuf.counts (.fresh 8 0) [1, 2, 1, 2]
          (shortThen 2 (.short 2)))) :=
  appended_iff rfl (by decide)

/-- A short count, and a call that takes everything: the first byte is in the
pipe twice and one byte too many is counted. -/
theorem repeated_prefix :
    ∃ ret buf', pipeBufVmsplice (.fresh 4 0) [1, 2] 2 (shortThen 1 .all) = .ok (ret, buf') ∧
      buf'.data = [1, 1, 2] ∧
      ¬ PipeBuf.Appended (.fresh 4 0) [1, 2]
        (PipeBuf.failedAfter (.fresh 4 0) [1, 2] (shortThen 1 .all)) ret buf' := by
  refine ⟨3, { PipeBuf.fresh 4 0 with data := [1, 1, 2], filled := 3 }, by rfl, rfl, ?_⟩
  intro happended
  obtain ⟨c, hc, hle, _⟩ := happended
  simp only [PipeBuf.fresh, List.length_cons, List.length_nil] at hc hle
  omega

end MonkeyCache
