import MonkeyCache.MemStore

/-!
# The two lists of the engine

`Ordered` says that the list of all records is linked, and `Bucketed` that every
record is in the collision list of its bucket and nowhere else.  The first one
reads nothing but `MemHashRecord.order`, the second one the hash and
`MemHashRecord.collision`.  So what one list does to its links is no matter to
the other one.
-/

namespace MonkeyCache

open Linked Fallible

/-! ## What is read of a record -/

/-- The links of the list of all records. -/
def MemHashRecord.order (r : MemHashRecord) : Option Ptr × Option Ptr := (r.pNext, r.pPrev)

/-- The links of the collision list. -/
def MemHashRecord.collision (r : MemHashRecord) : Option Ptr × Option Ptr :=
  (r.pNextHash, r.pPrevHash)

/-- The key, its hash, and where the data is. -/
def MemHashRecord.body (r : MemHashRecord) : Nat × Bytes × Ptr × Nat :=
  (r.nHash, r.key, r.pData, r.nDataLen)

/-- A link, by address. -/
def linkOf (f : MemHashRecord → Option Ptr) (h : Heap MemHashRecord) (a : Ptr) : Option Ptr :=
  (h a).bind f

/-- The bucket of the record at an address. -/
def bucketAt (h : Heap MemHashRecord) (nBucket : Nat) (a : Ptr) : Option Nat :=
  (h a).map (fun r => bucketOf nBucket r.nHash)

/-- The list of all records. -/
structure Ordered (h : Heap MemHashRecord) (pFirst pLast : Option Ptr) (xs : List Ptr) :
    Prop where
  links : Chain (linkOf MemHashRecord.pNext h) (linkOf MemHashRecord.pPrev h) none xs none
  first : pFirst = xs.getLast?
  last : pLast = xs.head?

/-- The collision lists; `bs i` is the one of bucket `i`. -/
structure Bucketed (h : Heap MemHashRecord) (apBucket : List (Option Ptr))
    (bs : Nat → List Ptr) (xs : List Ptr) : Prop where
  heads : ∀ i < apBucket.length, apBucket[i]? = some (bs i).head?
  links : ∀ i, Chain (linkOf MemHashRecord.pNextHash h) (linkOf MemHashRecord.pPrevHash h) none
    (bs i) none
  nodup : ∀ i, (bs i).Nodup
  mem : ∀ i a, a ∈ bs i ↔ a ∈ xs ∧ bucketAt h apBucket.length a = some i

variable {h h' : Heap MemHashRecord} {pFirst pLast : Option Ptr} {apBucket : List (Option Ptr)}
  {bs : Nat → List Ptr} {xs ys : List Ptr} {p a : Ptr} {r : MemHashRecord}

/-! ## Changes that do not matter -/

/-- `g` reads the same everywhere. -/
def Keeps {γ : Type} (g : MemHashRecord → γ) (h h' : Heap MemHashRecord) : Prop :=
  ∀ a, (h' a).map g = (h a).map g

/-- A heap keeps what it holds. -/
theorem Keeps.refl {γ : Type} (g : MemHashRecord → γ) (h : Heap MemHashRecord) : Keeps g h h :=
  fun _ => rfl

/-- What two steps keep, both keep. -/
theorem Keeps.trans {γ : Type} {g : MemHashRecord → γ} {h'' : Heap MemHashRecord}
    (h₁ : Keeps g h h') (h₂ : Keeps g h' h'') : Keeps g h h'' :=
  fun a => (h₂ a).trans (h₁ a)

/-- A step that keeps a part of the records neither makes nor frees one. -/
theorem Keeps.isSome {γ : Type} {g : MemHashRecord → γ} (hk : Keeps g h h') (a : Ptr) :
    (h' a).isSome = (h a).isSome := by
  have hmap := congrArg Option.isSome (hk a)
  simpa using hmap

/-- What is computed from `g` alone reads the same. -/
theorem Keeps.of {γ δ : Type} {g : MemHashRecord → γ} {f : MemHashRecord → δ} (hk : Keeps g h h')
    (k : γ → δ) (hf : ∀ r, f r = k (g r)) : Keeps f h h' := by
  intro a
  have hmap := congrArg (Option.map k) (hk a)
  have hcomp : k ∘ g = f := funext fun r => (hf r).symm
  rwa [Option.map_map, Option.map_map, hcomp] at hmap

/-- A step that keeps a link leaves it where it led. -/
theorem Keeps.linkOf_eq {f : MemHashRecord → Option Ptr} (hk : Keeps f h h') (a : Ptr) :
    linkOf f h' a = linkOf f h a := by
  have hmap := hk a
  unfold linkOf
  revert hmap
  cases h a <;> cases h' a <;> simp

/-- The hash is part of the body. -/
theorem Keeps.hash (hk : Keeps MemHashRecord.body h h') : Keeps MemHashRecord.nHash h h' :=
  hk.of Prod.fst (fun _ => rfl)

/-- A record whose body is kept stays in its bucket. -/
theorem Keeps.bucketAt_eq (hk : Keeps MemHashRecord.body h h') (nBucket : Nat) (a : Ptr) :
    bucketAt h' nBucket a = bucketAt h nBucket a :=
  hk.of (fun b => bucketOf nBucket b.1) (fun _ => rfl) a

/-- A write that leaves a part of one record keeps that part of all. -/
theorem keeps_update {γ : Type} {g : MemHashRecord → γ} (hp : h p = some r) {r' : MemHashRecord}
    (hg : g r' = g r) : Keeps g h (Function.update h p (some r')) := by
  intro a
  by_cases ha : a = p
  · subst ha
    simp [hp, hg]
  · rw [Function.update_of_ne ha]

/-- A write behind a pointer, NULL or not, keeps what it does not touch. -/
theorem keeps_modify? {γ : Type} {g : MemHashRecord → γ} {f : MemHashRecord → MemHashRecord}
    {q : Option Ptr} (hh : ∀ a, h' a = if q = some a then (h a).map f else h a)
    (hf : ∀ r, g (f r) = g r) : Keeps g h h' := by
  intro a
  rw [hh a]
  split
  · rw [Option.map_map]
    exact congrArg (fun k => (h a).map k) (funext hf)
  · rfl

/-- After a write the link of the record is the new one, and the others stay. -/
theorem linkOf_update {f : MemHashRecord → Option Ptr} :
    linkOf f (Function.update h p (some r)) a = if a = p then f r else linkOf f h a := by
  unfold linkOf
  by_cases ha : a = p
  · subst ha
    simp
  · rw [Function.update_of_ne ha, if_neg ha]

/-- A link that is written through a pointer. -/
theorem linkOf_write {f : MemHashRecord → Option Ptr} {g : MemHashRecord → MemHashRecord}
    {q v : Option Ptr} (hh : ∀ a, h' a = if q = some a then (h a).map g else h a)
    (hg : ∀ r, f (g r) = v) (ha : (h a).isSome) :
    linkOf f h' a = if q = some a then v else linkOf f h a := by
  obtain ⟨r, hr⟩ := Option.isSome_iff_exists.1 ha
  unfold linkOf
  rw [hh a]
  split
  · simp [hr, hg]
  · rfl

/-- A link that is not written. -/
theorem linkOf_other {f : MemHashRecord → Option Ptr} {g : MemHashRecord → MemHashRecord}
    {q : Option Ptr} (hh : ∀ a, h' a = if q = some a then (h a).map g else h a)
    (hg : ∀ r, f (g r) = f r) : linkOf f h' a = linkOf f h a :=
  (keeps_modify? hh hg).linkOf_eq a

/-- A link is read off any part of the record that holds it. -/
theorem linkOf_congr {γ : Type} {g : MemHashRecord → γ} (f : γ → Option Ptr)
    (hmap : (h' a).map g = (h a).map g) :
    linkOf (fun r => f (g r)) h' a = linkOf (fun r => f (g r)) h a := by
  unfold linkOf
  revert hmap
  cases h a <;> cases h' a <;> simp +contextual

/-- Only the records of the list matter, and of these only their links. -/
theorem Ordered.keeps (ho : Ordered h pFirst pLast xs)
    (hk : ∀ a ∈ xs, (h' a).map MemHashRecord.order = (h a).map MemHashRecord.order) :
    Ordered h' pFirst pLast xs where
  links := ho.links.congr
    (fun y hy => linkOf_congr (g := MemHashRecord.order) Prod.fst (hk y hy))
    (fun y hy => linkOf_congr (g := MemHashRecord.order) Prod.snd (hk y hy))
  first := ho.first
  last := ho.last

/-- The buckets stand in every heap that keeps the chains and the hashes. -/
theorem Bucketed.keeps (hb : Bucketed h apBucket bs xs)
    (hk : ∀ a ∈ xs, (h' a).map MemHashRecord.collision = (h a).map MemHashRecord.collision)
    (hhash : ∀ a ∈ xs, (h' a).map MemHashRecord.nHash = (h a).map MemHashRecord.nHash) :
    Bucketed h' apBucket bs xs where
  heads := hb.heads
  links i := (hb.links i).congr
    (fun y hy => linkOf_congr (g := MemHashRecord.collision) Prod.fst
      (hk y ((hb.mem i y).1 hy).1))
    (fun y hy => linkOf_congr (g := MemHashRecord.collision) Prod.snd
      (hk y ((hb.mem i y).1 hy).1))
  nodup := hb.nodup
  mem i a := by
    rw [hb.mem]
    refine and_congr_right (fun ha => ?_)
    have hmap := congrArg (Option.map (bucketOf apBucket.length)) (hhash a ha)
    rw [Option.map_map, Option.map_map] at hmap
    unfold bucketAt
    exact ⟨fun h => hmap.trans h, fun h => hmap.symm.trans h⟩

/-- Which records there are matters, not in which order they are named. -/
theorem Bucketed.congr_mem (hb : Bucketed h apBucket bs xs) (hxs : ∀ a, a ∈ ys ↔ a ∈ xs) :
    Bucketed h apBucket bs ys where
  heads := hb.heads
  links := hb.links
  nodup := hb.nodup
  mem i a := by rw [hb.mem, hxs]

/-! ## The collision lists -/

/-- A record of a bucket is a record of the table. -/
theorem Bucketed.mem_xs (hb : Bucketed h apBucket bs xs) {i : Nat} (ha : a ∈ bs i) : a ∈ xs :=
  ((hb.mem i a).1 ha).1

/-- A record is in one collision list. -/
theorem Bucketed.apart (hb : Bucketed h apBucket bs xs) {i j : Nat} (hi : a ∈ bs i)
    (hj : a ∈ bs j) : i = j := by
  have hat := ((hb.mem i a).1 hi).2.symm.trans ((hb.mem j a).1 hj).2
  simpa using hat

/-- The head of a bucket inside the array is read. -/
theorem bucketHead_ok {i : Nat} {head : Option Ptr} (hi : apBucket[i]? = some head) :
    bucketHead apBucket i = .ok head := by
  unfold bucketHead
  rw [hi]

/-- **A new head** of a collision list. -/
theorem installRecord_ok (hb : Bucketed h apBucket bs xs) (hlive : ∀ a ∈ xs, (h a).isSome)
    (hp : h p = some r) (hpx : p ∉ xs) (hprev : r.pPrevHash = none)
    (hi : bucketOf apBucket.length r.nHash < apBucket.length) :
    ∃ h' apBucket' bs', installRecord h apBucket apBucket.length p = .ok (h', apBucket') ∧
      apBucket'.length = apBucket.length ∧ Keeps MemHashRecord.order h h' ∧
      Keeps MemHashRecord.body h h' ∧ Bucketed h' apBucket' bs' (p :: xs) := by
  generalize hidx : bucketOf apBucket.length r.nHash = i at hi
  obtain ⟨h₁, hh₁⟩ : ∃ h₁, Function.update h p (some { r with pNextHash := (bs i).head? }) = h₁ :=
    ⟨_, rfl⟩
  have hkeep₁ : ∀ {γ : Type} {g : MemHashRecord → γ},
      g { r with pNextHash := (bs i).head? } = g r → Keeps g h h₁ := by
    intro γ g hg
    rw [← hh₁]
    exact keeps_update hp hg
  have hbody₁ : Keeps MemHashRecord.body h h₁ := hkeep₁ rfl
  obtain ⟨h₂, hmod, hh₂⟩ := Heap.modify?_ok (h := h₁) (p := (bs i).head?) (fun a ha => by
    rw [hbody₁.isSome]
    exact hlive a (hb.mem_xs (List.mem_of_mem_head? ha)))
    (fun r : MemHashRecord => { r with pPrevHash := some p })
  have hbody : Keeps MemHashRecord.body h h₂ := hbody₁.trans (keeps_modify? hh₂ (fun _ => rfl))
  have hnext : ∀ a, linkOf MemHashRecord.pNextHash h₂ a =
      if a = p then (bs i).head? else linkOf MemHashRecord.pNextHash h a := by
    intro a
    rw [linkOf_other hh₂ (fun _ => rfl), ← hh₁, linkOf_update]
  have hprev₂ : ∀ a, (h a).isSome → linkOf MemHashRecord.pPrevHash h₂ a =
      if (bs i).head? = some a then some p else linkOf MemHashRecord.pPrevHash h a := by
    intro a ha
    rw [linkOf_write hh₂ (fun _ => rfl) (by rw [hbody₁.isSome]; exact ha),
      (hkeep₁ (g := MemHashRecord.pPrevHash) rfl).linkOf_eq]
  refine ⟨h₂, apBucket.set i (some p), Function.update bs i (p :: bs i), ?_, by simp,
    (hkeep₁ rfl).trans (keeps_modify? hh₂ (fun _ => rfl)), hbody, ?_⟩
  · unfold installRecord
    rw [Heap.read_ok hp, ok_bind]
    dsimp only
    rw [hidx, bucketHead_ok (hb.heads i hi), ok_bind, Heap.modify_ok hp, ok_bind, hh₁, hmod,
      ok_bind]
  · constructor
    · intro j hj
      rw [List.length_set] at hj
      by_cases hji : j = i
      · subst hji
        simp [hj]
      · rw [Function.update_of_ne hji, List.getElem?_set_ne (Ne.symm hji)]
        exact hb.heads j hj
    · intro j
      by_cases hji : j = i
      · subst hji
        rw [Function.update_self]
        refine (hb.links j).push (hb.nodup j) ?_ ?_ ?_ ?_
        · rw [hnext p, if_pos rfl, Option.or_none]
        · have hne : (bs j).head? ≠ some p := by
            intro heq
            exact hpx (hb.mem_xs (List.mem_of_mem_head? heq))
          rw [hprev₂ p (by simp [hp]), if_neg hne]
          simp [linkOf, hp, hprev]
        · intro y hy
          have hyp : y ≠ p := fun heq => hpx (heq ▸ hb.mem_xs hy)
          rw [hnext y, if_neg hyp]
        · intro y hy
          exact hprev₂ y (hlive y (hb.mem_xs hy))
      · rw [Function.update_of_ne hji]
        refine (hb.links j).congr ?_ ?_
        · intro y hy
          have hyp : y ≠ p := fun heq => hpx (heq ▸ hb.mem_xs hy)
          rw [hnext y, if_neg hyp]
        · intro y hy
          have hne : (bs i).head? ≠ some y := by
            intro heq
            exact hji (hb.apart hy (List.mem_of_mem_head? heq))
          rw [hprev₂ y (hlive y (hb.mem_xs hy)), if_neg hne]
    · intro j
      by_cases hji : j = i
      · subst hji
        rw [Function.update_self]
        exact List.nodup_cons.2 ⟨fun hmem => hpx (hb.mem_xs hmem), hb.nodup j⟩
      · rw [Function.update_of_ne hji]
        exact hb.nodup j
    · intro j a
      have hpi : bucketAt h apBucket.length p = some i := by
        simp [bucketAt, hp, hidx]
      rw [List.length_set, hbody.bucketAt_eq]
      by_cases hji : j = i
      · subst hji
        rw [Function.update_self, List.mem_cons, List.mem_cons, hb.mem]
        constructor
        · intro hmem
          rcases hmem with heq | hmem
          · subst heq
            exact ⟨.inl rfl, hpi⟩
          · exact ⟨.inr hmem.1, hmem.2⟩
        · intro hmem
          obtain ⟨heq | hax, hat⟩ := hmem
          · exact .inl heq
          · exact .inr ⟨hax, hat⟩
      · rw [Function.update_of_ne hji, hb.mem, List.mem_cons]
        constructor
        · intro hmem
          exact ⟨.inr hmem.1, hmem.2⟩
        · intro hmem
          obtain ⟨heq | hax, hat⟩ := hmem
          · subst heq
            rw [hpi] at hat
            exact absurd (Option.some.inj hat).symm hji
          · exact ⟨hax, hat⟩

/-- **A record is taken out** of its collision list. -/
theorem uninstallRecord_ok (hb : Bucketed h apBucket bs xs) (hlive : ∀ a ∈ xs, (h a).isSome)
    (hp : h p = some r) (hpx : p ∈ xs)
    (hi : bucketOf apBucket.length r.nHash < apBucket.length)
    (hys : ∀ a, a ∈ ys ↔ a ∈ xs ∧ a ≠ p) :
    ∃ h' apBucket' bs', uninstallRecord h apBucket apBucket.length p = .ok (h', apBucket') ∧
      apBucket'.length = apBucket.length ∧ Keeps MemHashRecord.order h h' ∧
      Keeps MemHashRecord.body h h' ∧ Bucketed h' apBucket' bs' ys := by
  have hpi : bucketAt h apBucket.length p = some (bucketOf apBucket.length r.nHash) := by
    simp [bucketAt, hp]
  generalize hidx : bucketOf apBucket.length r.nHash = i at hi hpi
  obtain ⟨us, vs, hsplit⟩ := List.append_of_mem ((hb.mem i p).2 ⟨hpx, hpi⟩)
  have hlinks := hb.links i
  have hnd := hb.nodup i
  rw [hsplit] at hlinks hnd
  obtain ⟨hprevHash, hnextHash⟩ := hlinks.middle
  rw [Option.or_none] at hprevHash hnextHash
  have hrprev : r.pPrevHash = us.getLast? := by simpa [linkOf, hp] using hprevHash
  have hrnext : r.pNextHash = vs.head? := by simpa [linkOf, hp] using hnextHash
  have hbs : ∀ {a}, a ∈ us ++ vs → a ∈ bs i ∧ a ≠ p := by
    intro a ha
    rw [hsplit]
    refine ⟨?_, ?_⟩
    · rcases List.mem_append.1 ha with hu | hv
      · simp [hu]
      · simp [hv]
    · intro heq
      subst heq
      have hcount := List.nodup_middle.1 hnd
      exact (List.nodup_cons.1 hcount).1 ha
  obtain ⟨h₁, hmod₁, hh₁⟩ := Heap.modify?_ok (h := h) (p := us.getLast?) (fun a ha =>
    hlive a (hb.mem_xs (hbs (List.mem_append_left vs (List.mem_of_getLast? ha))).1))
    (fun q : MemHashRecord => { q with pNextHash := vs.head? })
  have hbody₁ : Keeps MemHashRecord.body h h₁ := keeps_modify? hh₁ (fun _ => rfl)
  obtain ⟨h₂, hmod₂, hh₂⟩ := Heap.modify?_ok (h := h₁) (p := vs.head?) (fun a ha => by
    rw [hbody₁.isSome]
    exact hlive a (hb.mem_xs (hbs (List.mem_append_right us (List.mem_of_mem_head? ha))).1))
    (fun q : MemHashRecord => { q with pPrevHash := us.getLast? })
  have hbody : Keeps MemHashRecord.body h h₂ := hbody₁.trans (keeps_modify? hh₂ (fun _ => rfl))
  have hnext : ∀ a, (h a).isSome → linkOf MemHashRecord.pNextHash h₂ a =
      if us.getLast? = some a then vs.head? else linkOf MemHashRecord.pNextHash h a := by
    intro a ha
    rw [linkOf_other hh₂ (fun _ => rfl), linkOf_write (v := vs.head?) hh₁ (fun _ => rfl) ha]
  have hprev : ∀ a, (h a).isSome → linkOf MemHashRecord.pPrevHash h₂ a =
      if vs.head? = some a then us.getLast? else linkOf MemHashRecord.pPrevHash h a := by
    intro a ha
    rw [linkOf_write (v := us.getLast?) hh₂ (fun _ => rfl) (by rw [hbody₁.isSome]; exact ha),
      linkOf_other hh₁ (fun _ => rfl)]
  refine ⟨h₂, if us = [] then apBucket.set i vs.head? else apBucket,
    Function.update bs i (us ++ vs), ?_, by split <;> simp,
    (keeps_modify? hh₁ (fun _ => rfl)).trans (keeps_modify? hh₂ (fun _ => rfl)), hbody, ?_⟩
  · unfold uninstallRecord
    rw [Heap.read_ok hp, ok_bind]
    dsimp only
    rw [hrprev, hrnext, hmod₁, ok_bind, hmod₂, ok_bind]
    cases us with
    | nil =>
        dsimp only [List.getLast?_nil]
        rw [hidx, bucketHead_ok (hb.heads i hi), ok_bind, if_pos rfl]
    | cons u us =>
        rw [List.getLast?_cons, if_neg (by simp)]
  · constructor
    · intro j hj
      have hlen : (if us = [] then apBucket.set i vs.head? else apBucket).length =
          apBucket.length := by split <;> simp
      rw [hlen] at hj
      by_cases hji : j = i
      · subst hji
        rw [Function.update_self]
        cases us with
        | nil => simp [hj]
        | cons u us =>
            rw [if_neg (by simp), hb.heads j hj, hsplit]
            rfl
      · rw [Function.update_of_ne hji, ← hb.heads j hj]
        split
        · exact List.getElem?_set_ne (Ne.symm hji)
        · rfl
    · intro j
      by_cases hji : j = i
      · subst hji
        rw [Function.update_self]
        refine hlinks.remove hnd ?_ ?_
        · intro y hy
          rw [hnext y (hlive y (hb.mem_xs (hbs hy).1)), Option.or_none]
        · intro y hy
          rw [hprev y (hlive y (hb.mem_xs (hbs hy).1)), Option.or_none]
      · rw [Function.update_of_ne hji]
        refine (hb.links j).congr ?_ ?_
        · intro y hy
          rw [hnext y (hlive y (hb.mem_xs hy)), if_neg]
          intro heq
          have hyu : y ∈ us ++ vs := List.mem_append_left vs (List.mem_of_getLast? heq)
          exact hji (hb.apart hy (hbs hyu).1)
        · intro y hy
          rw [hprev y (hlive y (hb.mem_xs hy)), if_neg]
          intro heq
          have hyv : y ∈ us ++ vs := List.mem_append_right us (List.mem_of_mem_head? heq)
          exact hji (hb.apart hy (hbs hyv).1)
    · intro j
      by_cases hji : j = i
      · subst hji
        rw [Function.update_self]
        exact (List.nodup_cons.1 (List.nodup_middle.1 hnd)).2
      · rw [Function.update_of_ne hji]
        exact hb.nodup j
    · intro j a
      have hlen : (if us = [] then apBucket.set i vs.head? else apBucket).length =
          apBucket.length := by split <;> simp
      rw [hlen, hbody.bucketAt_eq, hys]
      by_cases hji : j = i
      · subst hji
        rw [Function.update_self]
        constructor
        · intro ha
          obtain ⟨hmem, hne⟩ := hbs ha
          obtain ⟨hax, hat⟩ := (hb.mem j a).1 hmem
          exact ⟨⟨hax, hne⟩, hat⟩
        · intro ha
          obtain ⟨⟨hax, hne⟩, hat⟩ := ha
          have hmem := (hb.mem j a).2 ⟨hax, hat⟩
          rw [hsplit] at hmem
          simpa [hne] using hmem
      · rw [Function.update_of_ne hji, hb.mem]
        constructor
        · intro ha
          refine ⟨⟨ha.1, ?_⟩, ha.2⟩
          intro heq
          subst heq
          rw [hpi] at ha
          exact hji (Option.some.inj ha.2).symm
        · intro ha
          exact ⟨ha.1.1, ha.2⟩

/-- The number of buckets is a power of two, so the mask is a remainder. -/
theorem bucketOf_lt {k : Nat} (nHash : Nat) : bucketOf (2 ^ k) nHash < 2 ^ k := by
  unfold bucketOf
  rw [Nat.and_two_pow_sub_one_eq_mod]
  exact Nat.mod_lt _ (Nat.two_pow_pos k)

/-- **Rehashing**: the records that are left come to the ones that are done. -/
theorem rehashFrom_ok {k : Nat} : ∀ (ys done : List Ptr) (q : Option Ptr)
    (h : Heap MemHashRecord) (apNew : List (Option Ptr)) (bs : Nat → List Ptr),
    Chain (linkOf MemHashRecord.pNext h) (linkOf MemHashRecord.pPrev h) q ys none →
    (∀ a ∈ done ++ ys, (h a).isSome) → (done ++ ys).Nodup → apNew.length = 2 ^ k →
    Bucketed h apNew bs done →
    ∃ h' apNew' bs', rehashFrom (2 ^ k) ys.length ys.head? (h, apNew) = .ok (h', apNew') ∧
      apNew'.length = 2 ^ k ∧ Keeps MemHashRecord.order h h' ∧ Keeps MemHashRecord.body h h' ∧
      Bucketed h' apNew' bs' (done ++ ys) := by
  intro ys
  induction ys with
  | nil =>
      intro done q h apNew bs _ _ _ hlen hb
      refine ⟨h, apNew, bs, rfl, hlen, Keeps.refl _ h, Keeps.refl _ h, ?_⟩
      rwa [List.append_nil]
  | cons y ys ih =>
      intro done q h apNew bs hchain hlive hnd hlen hb
      have hyd : y ∉ done := by
        intro hmem
        exact (List.nodup_cons.1 (List.nodup_middle.1 hnd)).1 (List.mem_append_left ys hmem)
      obtain ⟨r, hr⟩ := Option.isSome_iff_exists.1 (hlive y (by simp))
      -- the entry forgets its collision list
      obtain ⟨h₁, hh₁⟩ : ∃ h₁, Function.update h y
          (some { r with pNextHash := none, pPrevHash := none }) = h₁ := ⟨_, rfl⟩
      have hy₁ : h₁ y = some { r with pNextHash := none, pPrevHash := none } := by
        rw [← hh₁, Function.update_self]
      have horder₁ : Keeps MemHashRecord.order h h₁ := by
        rw [← hh₁]
        exact keeps_update hr rfl
      have hbody₁ : Keeps MemHashRecord.body h h₁ := by
        rw [← hh₁]
        exact keeps_update hr rfl
      have hb₁ : Bucketed h₁ apNew bs done := by
        refine hb.keeps ?_ (fun a _ => hbody₁.hash a)
        intro a ha
        have hay : a ≠ y := fun heq => hyd (heq ▸ ha)
        rw [← hh₁, Function.update_of_ne hay]
      have hlive₁ : ∀ a ∈ done, (h₁ a).isSome := by
        intro a ha
        rw [hbody₁.isSome]
        exact hlive a (List.mem_append_left _ ha)
      obtain ⟨h₂, ap₂, bs₂, hinstall, hlen₂, horder₂, hbody₂, hb₂⟩ :=
        installRecord_ok hb₁ hlive₁ hy₁ hyd rfl (by rw [hlen]; exact bucketOf_lt _)
      have horder : Keeps MemHashRecord.order h h₂ := horder₁.trans horder₂
      have hbody : Keeps MemHashRecord.body h h₂ := hbody₁.trans hbody₂
      have hnext : ∀ a, linkOf MemHashRecord.pNext h₂ a = linkOf MemHashRecord.pNext h a :=
        (horder.of (f := MemHashRecord.pNext) Prod.fst (fun _ => rfl)).linkOf_eq
      have hprev : ∀ a, linkOf MemHashRecord.pPrev h₂ a = linkOf MemHashRecord.pPrev h a :=
        (horder.of (f := MemHashRecord.pPrev) Prod.snd (fun _ => rfl)).linkOf_eq
      obtain ⟨-, hyn, htail⟩ := hchain
      obtain ⟨r₂, hr₂⟩ : ∃ r₂, h₂ y = some r₂ := by
        rw [← Option.isSome_iff_exists, hbody.isSome, hr]
        rfl
      have hr₂n : r₂.pNext = ys.head? := by
        rw [Option.or_none, ← hnext y] at hyn
        simpa [linkOf, hr₂] using hyn
      have hperm : (y :: done ++ ys).Perm (done ++ y :: ys) := List.perm_middle.symm
      obtain ⟨h', ap', bs', hrest, hlen', horder', hbody', hb'⟩ :=
        ih (y :: done) (some y) h₂ ap₂ bs₂
          (htail.congr (fun a _ => hnext a) (fun a _ => hprev a))
          (fun a ha => by rw [hbody.isSome]; exact hlive a (hperm.mem_iff.1 ha))
          (hperm.nodup_iff.2 hnd) (hlen₂.trans hlen) hb₂
      refine ⟨h', ap', bs', ?_, hlen', horder.trans horder', hbody.trans hbody',
        hb'.congr_mem (fun a => hperm.mem_iff.symm)⟩
      rw [hlen] at hinstall
      rw [List.length_cons, List.head?_cons]
      unfold rehashFrom
      rw [Heap.modify_ok hr, ok_bind, hh₁, hinstall, ok_bind]
      dsimp only
      rw [Heap.read_ok hr₂, ok_bind, hr₂n]
      exact hrest

/-! ## The list of all records -/

/-- **A new record** comes first. -/
theorem pushRecord_ok (ho : Ordered h pFirst pLast xs) (hnd : xs.Nodup)
    (hlive : ∀ a ∈ xs, (h a).isSome) (hp : h p = some r) (hpx : p ∉ xs) (hnext : r.pNext = none)
    (hprev : r.pPrev = none) :
    ∃ h' pFirst' pLast', pushRecord h pFirst pLast p = .ok (h', pFirst', pLast') ∧
      Keeps MemHashRecord.collision h h' ∧ Keeps MemHashRecord.body h h' ∧
      Ordered h' pFirst' pLast' (p :: xs) := by
  cases xs with
  | nil =>
      have hfirst : pFirst = none := ho.first
      subst hfirst
      refine ⟨h, some p, some p, rfl, Keeps.refl _ h, Keeps.refl _ h, ⟨?_, ?_, trivial⟩, rfl, rfl⟩
      · simp [linkOf, hp, hprev]
      · simp [linkOf, hp, hnext]
  | cons x xs =>
      have hlast : pLast = some x := ho.last
      obtain ⟨f, hf⟩ : ∃ f, pFirst = some f :=
        ⟨_, ho.first.trans (List.getLast?_eq_getLast_of_ne_nil (List.cons_ne_nil x xs))⟩
      subst hlast hf
      have hxp : x ≠ p := fun heq => hpx (by simp [heq])
      obtain ⟨q, hq⟩ := Option.isSome_iff_exists.1 (hlive x (by simp))
      have hq₁ : Function.update h p (some { r with pNext := some x }) x = some q := by
        rw [Function.update_of_ne hxp, hq]
      have hkeep : ∀ {γ : Type} {g : MemHashRecord → γ}, g { r with pNext := some x } = g r →
          g { q with pPrev := some p } = g q → Keeps g h (Function.update
            (Function.update h p (some { r with pNext := some x })) x
            (some { q with pPrev := some p })) := by
        intro γ g hg hg'
        exact (keeps_update hp hg).trans (keeps_update hq₁ hg')
      refine ⟨_, some f, some p, ?_, hkeep rfl rfl, hkeep rfl rfl, ?_, ?_, rfl⟩
      · unfold pushRecord
        dsimp only
        rw [Heap.modify_ok hp, ok_bind, Heap.modify_ok hq₁, ok_bind]
      · refine ho.links.push hnd ?_ ?_ ?_ ?_
        · rw [linkOf_update, if_neg (Ne.symm hxp), linkOf_update, if_pos rfl]
          rfl
        · rw [linkOf_update, if_neg (Ne.symm hxp), linkOf_update, if_pos rfl]
          exact hprev
        · intro y hy
          have hyp : y ≠ p := fun heq => hpx (heq ▸ hy)
          rw [linkOf_update, linkOf_update, if_neg hyp]
          split
          · next hyx =>
              subst hyx
              simp [linkOf, hq]
          · rfl
        · intro y hy
          have hyp : y ≠ p := fun heq => hpx (heq ▸ hy)
          rw [linkOf_update, linkOf_update, if_neg hyp]
          simp only [List.head?_cons, Option.some.injEq]
          by_cases hyx : y = x
          · subst hyx
            simp
          · rw [if_neg hyx, if_neg (Ne.symm hyx)]
      · rw [ho.first]
        simp [List.getLast?_cons_cons]

/-- **A record is taken out** of the list of all records. -/
theorem removeRecord_ok (ho : Ordered h pFirst pLast (xs ++ p :: ys))
    (hnd : (xs ++ p :: ys).Nodup) (hlive : ∀ a ∈ xs ++ p :: ys, (h a).isSome) :
    ∃ h' pFirst' pLast', removeRecord h pFirst pLast p = .ok (h', pFirst', pLast') ∧
      Keeps MemHashRecord.collision h h' ∧ Keeps MemHashRecord.body h h' ∧
      Ordered h' pFirst' pLast' (xs ++ ys) := by
  obtain ⟨r, hp⟩ := Option.isSome_iff_exists.1 (hlive p (by simp))
  have hmem : ∀ {a}, a ∈ xs ++ ys → a ∈ xs ++ p :: ys := by
    intro a ha
    rcases List.mem_append.1 ha with hx | hy
    · simp [hx]
    · simp [hy]
  obtain ⟨hpprev, hpnext⟩ := ho.links.middle
  rw [Option.or_none] at hpprev hpnext
  have hrprev : r.pPrev = xs.getLast? := by simpa [linkOf, hp] using hpprev
  have hrnext : r.pNext = ys.head? := by simpa [linkOf, hp] using hpnext
  obtain ⟨h₁, hmod₁, hh₁⟩ := Heap.modify?_ok (h := h) (p := xs.getLast?) (fun a ha =>
    hlive a (hmem (List.mem_append_left ys (List.mem_of_getLast? ha))))
    (fun q : MemHashRecord => { q with pNext := ys.head? })
  have hbody₁ : Keeps MemHashRecord.body h h₁ := keeps_modify? hh₁ (fun _ => rfl)
  obtain ⟨h₂, hmod₂, hh₂⟩ := Heap.modify?_ok (h := h₁) (p := ys.head?) (fun a ha => by
    rw [hbody₁.isSome]
    exact hlive a (hmem (List.mem_append_right xs (List.mem_of_mem_head? ha))))
    (fun q : MemHashRecord => { q with pPrev := xs.getLast? })
  refine ⟨h₂, if pFirst = some p then xs.getLast? else pFirst,
    if pLast = some p then ys.head? else pLast, ?_,
    (keeps_modify? hh₁ (fun _ => rfl)).trans (keeps_modify? hh₂ (fun _ => rfl)),
    hbody₁.trans (keeps_modify? hh₂ (fun _ => rfl)), ?_, ?_, ?_⟩
  · unfold removeRecord
    rw [Heap.read_ok hp, ok_bind, hrprev, hrnext, hmod₁, ok_bind, hmod₂, ok_bind]
  · refine ho.links.remove hnd ?_ ?_
    · intro y hy
      rw [linkOf_other hh₂ (fun _ => rfl), linkOf_write (v := ys.head?) hh₁ (fun _ => rfl)
        (hlive y (hmem hy)), Option.or_none]
    · intro y hy
      rw [linkOf_write (v := xs.getLast?) hh₂ (fun _ => rfl)
        (by rw [hbody₁.isSome]; exact hlive y (hmem hy)), linkOf_other hh₁ (fun _ => rfl),
        Option.or_none]
  · -- the first record is the last one of the list
    rw [ho.first]
    cases ys with
    | nil => simp
    | cons y ys =>
        have hlast : (xs ++ p :: y :: ys).getLast? = (xs ++ y :: ys).getLast? := by
          simp [List.getLast?_append, List.getLast?_cons_cons]
        rw [hlast, if_neg]
        intro heq
        have hpy : p ∈ xs ++ y :: ys := List.mem_of_getLast? heq
        exact (List.nodup_cons.1 (List.nodup_middle.1 hnd)).1 hpy
  · rw [ho.last]
    cases xs with
    | nil => simp
    | cons x xs =>
        have hxp : x ≠ p := by
          intro heq
          have hpx : p ∈ (x :: xs) ++ ys := by simp [heq]
          exact (List.nodup_cons.1 (List.nodup_middle.1 hnd)).1 hpx
        simp [hxp]

end MonkeyCache
