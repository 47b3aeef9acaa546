import MonkeyCache.JsonHeap

/-!
# Building trees in `cJSON.c`

A tree grows from its root: an item is created in blocks of its own, and then a call
hangs it into the tree.  Between the two there is an item that belongs to no tree, and
`cJSON_AddItemToObject` copies one more string before it hangs the item in.

`Grown m₀ m P` says that the heap `m` is the heap `m₀` with the blocks of the tree `P`
added.

* `cJSONAddItemToObject_ok`, `cJSONAddItemToArray_grown` — the tree grows by the item.
* `Grown.delete` — deleting the tree leads back to `m₀`.

The allocator may refuse every block; `Room` is an allocator that does not, as long as
the tree has fewer items than agreed.
-/

namespace MonkeyCache

open Linked Fallible

variable {D : Type}

namespace Placed

/-! ## The blocks of a tree that grows -/

variable {β : Type} {P Q x : Placed D} {t : Ptr}

/-- What `g` finds in the items of a chain. -/
def gather (g : ItemCell D → List β) : Placed D → List β
  | nil => []
  | cons cell child next => g cell ++ (child.gather g ++ next.gather g)

/-- The addresses of a placed tree are gathered cell by cell. -/
theorem addrs_eq (P : Placed D) : P.addrs = P.gather (fun cell => [cell.addr]) := by
  induction P with
  | nil => rfl
  | cons cell child next ihc ihn => simp [addrs, gather, ihc, ihn]

/-- The strings of a placed tree are gathered cell by cell. -/
theorem texts_eq (P : Placed D) : P.texts = P.gather ItemCell.texts := by
  induction P with
  | nil => rfl
  | cons cell child next ihc ihn => simp [texts, gather, ihc, ihn]

/-- What two appended chains gather is what the one gathers, then what the other does. -/
theorem append_gather (g : ItemCell D → List β) (P x : Placed D) :
    (P.append x).gather g = P.gather g ++ x.gather g := by
  induction P with
  | nil => rfl
  | cons cell child next ihc ihn => simp [append, gather, ihn]

/-- The addresses of appended chains, one after the other. -/
theorem append_addrs (P x : Placed D) : (P.append x).addrs = P.addrs ++ x.addrs := by
  rw [addrs_eq, append_gather, ← addrs_eq, ← addrs_eq]

/-- The tree and the item hold what the larger tree holds. -/
theorem graft_gather (g : ItemCell D → List β) (ht : t ∈ P.addrs) (hnd : P.addrs.Nodup) :
    ((graft t x P).gather g).Perm (P.gather g ++ x.gather g) := by
  induction P with
  | nil => cases ht
  | cons cell child next ihc ihn =>
    simp only [addrs, List.nodup_cons, List.nodup_append] at hnd
    obtain ⟨-, hndc, hndn, hdisj⟩ := hnd
    rw [graft]
    split
    · simp only [gather, append_gather, List.append_assoc]
      exact (List.perm_append_comm.append_left _).append_left _
    · rename_i hother
      simp only [addrs, List.mem_cons, List.mem_append] at ht
      rcases ht with rfl | ht | ht
      · exact absurd rfl hother
      · have hnot : t ∉ next.addrs := fun hin => hdisj t ht t hin rfl
        rw [graft_of_notMem hnot]
        simp only [gather, List.append_assoc]
        have hchild := (ihc ht hndc).append_right (next.gather g)
        rw [List.append_assoc] at hchild
        exact (hchild.trans (List.perm_append_comm.append_left _)).append_left _
      · have hnot : t ∉ child.addrs := fun hin => hdisj t hin t ht rfl
        rw [graft_of_notMem hnot]
        simp only [gather, List.append_assoc]
        exact ((ihn ht hndn).append_left _).append_left _

/-- A graft adds just the addresses of the grafted chain. -/
theorem graft_addrs (ht : t ∈ P.addrs) (hnd : P.addrs.Nodup) :
    ((graft t x P).addrs).Perm (P.addrs ++ x.addrs) := by
  rw [addrs_eq, addrs_eq, addrs_eq]
  exact graft_gather _ ht hnd

/-- A graft adds just the strings of the grafted chain. -/
theorem graft_texts (ht : t ∈ P.addrs) (hnd : P.addrs.Nodup) :
    ((graft t x P).texts).Perm (P.texts ++ x.texts) := by
  rw [texts_eq, texts_eq, texts_eq]
  exact graft_gather _ ht hnd

/-- An item has at most two strings. -/
theorem texts_length (P : Placed D) : P.texts.length ≤ 2 * P.addrs.length := by
  induction P with
  | nil => simp [texts, addrs]
  | cons cell child next ihc ihn =>
    have hcell : cell.texts.length ≤ 2 := by
      have hv : cell.valuestring.toList.length ≤ 1 := by cases cell.valuestring <;> simp
      have hs : cell.string.toList.length ≤ 1 := by cases cell.string <;> simp
      simp only [ItemCell.texts, List.length_append]
      omega
    simp only [texts, addrs, List.length_append, List.length_cons]
    omega

/-! ## Where the tree grows -/

/-- At its own address a graft lengthens the list of children. -/
theorem graft_here (cell : ItemCell D) (child next x : Placed D) :
    graft cell.addr x (cons cell child next) = cons cell (child.append x) next := by
  rw [graft, if_pos rfl]

/-- A graft below a cell stays below it. -/
theorem graft_child {cell : ItemCell D} {child next : Placed D} (ht : t ∈ child.addrs)
    (hnd : (cons cell child next).addrs.Nodup) :
    graft t x (cons cell child next) = cons cell (graft t x child) next := by
  simp only [addrs, List.nodup_cons, List.mem_append, not_or, List.nodup_append] at hnd
  obtain ⟨⟨hcell, -⟩, -, -, hdisj⟩ := hnd
  have hother : ¬ cell.addr = t := by
    rintro rfl
    exact hcell ht
  have hnot : t ∉ next.addrs := fun hin => hdisj t ht t hin rfl
  rw [graft, if_neg hother, graft_of_notMem hnot]

/-- A graft in the second of two appended chains leaves the first alone. -/
theorem graft_append (ht : t ∈ Q.addrs) (hnd : (P.append Q).addrs.Nodup) :
    graft t x (P.append Q) = P.append (graft t x Q) := by
  induction P with
  | nil => rfl
  | cons cell child next ihc ihn =>
    rw [append, addrs, append_addrs, List.nodup_cons, List.nodup_append] at hnd
    obtain ⟨hcell, -, hndn, hdisj⟩ := hnd
    simp only [List.mem_append, not_or] at hcell
    have hother : ¬ cell.addr = t := by
      rintro rfl
      exact hcell.2.2 ht
    have hnot : t ∉ child.addrs := fun hin => hdisj t hin t (List.mem_append_right _ ht) rfl
    rw [append, append, graft, if_neg hother, graft_of_notMem hnot,
      ihn (by rw [append_addrs]; exact hndn)]

/-- The tree grows below the last child of its root. -/
theorem graft_last {root : ItemCell D} {front Q : Placed D} (ht : t ∈ Q.addrs)
    (hnd : (cons root (front.append Q) nil).addrs.Nodup) :
    graft t x (cons root (front.append Q) nil) = cons root (front.append (graft t x Q)) nil := by
  have hin : t ∈ (front.append Q).addrs := by
    rw [append_addrs]
    exact List.mem_append_right _ ht
  have hndq : (front.append Q).addrs.Nodup := by
    simp only [addrs, List.append_nil, List.nodup_cons] at hnd
    exact hnd.2
  rw [graft_child hin hnd, graft_append ht hndq]

variable {m m' : JsonMem D} {prev : Option Ptr}

/-- Every string of the chain is in use. -/
theorem Rep.text {a : Ptr} (h : P.Rep m prev) (ha : a ∈ P.texts.map Prod.fst) :
    ∃ s, m.texts a = some s := by
  induction P generalizing prev with
  | nil => cases ha
  | cons cell child next ihc ihn =>
    obtain ⟨-, hstrings, hchild, hnext⟩ := h
    simp only [texts, List.map_append, List.mem_append] at ha
    rcases ha with ha | ha | ha
    · obtain ⟨t, ht, rfl⟩ := List.mem_map.mp ha
      exact ⟨_, hstrings t ht⟩
    · exact ihc hchild ha
    · exact ihn hnext ha

end Placed

open Placed

/-! ## A heap with one tree more -/

/-- `m` is `m₀` and the tree `P`. -/
structure Grown (m₀ m : JsonMem D) (P : Placed D) : Prop where
  rep : P.Rep m none
  addrs : P.addrs.Nodup
  texts : (P.texts.map Prod.fst).Nodup
  freshItems : ∀ a ∈ P.addrs, m₀.items a = none
  freshTexts : ∀ a ∈ P.texts.map Prod.fst, m₀.texts a = none
  sameItems : ∀ a, a ∉ P.addrs → m.items a = m₀.items a
  sameTexts : ∀ a, a ∉ P.texts.map Prod.fst → m.texts a = m₀.texts a

section Grown

variable {m₀ m m₁ : JsonMem D} {P x : Placed D} {cell : ItemCell D} {child : Placed D}
  {A : JsonBackend D} {F : CDouble D} {fuel : Nat} {a : Ptr}

/-- A memory left alone has grown by no tree. -/
theorem Grown.refl (m : JsonMem D) : Grown m m .nil where
  rep := trivial
  addrs := List.nodup_nil
  texts := List.nodup_nil
  freshItems _ ha := absurd ha List.not_mem_nil
  freshTexts _ ha := absurd ha List.not_mem_nil
  sameItems _ _ := rfl
  sameTexts _ _ := rfl

/-- **Deleting the tree** leads back. -/
theorem Grown.delete (h : Grown m₀ m P) (hfuel : P.addrs.length ≤ fuel) :
    cJSONDelete fuel P.first m = .ok m₀ := by
  obtain ⟨m', hdel, hitems, htexts⟩ := cJSONDelete_ok h.rep h.addrs h.texts hfuel
  have hi : m'.items = m₀.items := by
    funext a
    rw [hitems]
    split
    · rename_i ha
      exact (h.freshItems a ha).symm
    · rename_i ha
      exact h.sameItems a ha
  have ht : m'.texts = m₀.texts := by
    funext a
    rw [htexts]
    split
    · rename_i ha
      exact (h.freshTexts a ha).symm
    · rename_i ha
      exact h.sameTexts a ha
  cases m'
  cases m₀
  cases hi
  cases ht
  exact hdel

/-- The blocks of a further tree are none of the first. -/
theorem Grown.apart (h : Grown m₀ m P) (hx : Grown m m₁ x) :
    (∀ a ∈ P.addrs, a ∉ x.addrs) ∧ ∀ a ∈ P.texts.map Prod.fst, a ∉ x.texts.map Prod.fst := by
  constructor
  · intro a ha hin
    obtain ⟨node, hnode⟩ := h.rep.item ha
    rw [hx.freshItems a hin] at hnode
    cases hnode
  · intro a ha hin
    obtain ⟨s, hs⟩ := h.rep.text ha
    rw [hx.freshTexts a hin] at hs
    cases hs

/-- The first tree is still there. -/
theorem Grown.still (h : Grown m₀ m P) (hx : Grown m m₁ x) : P.Rep m₁ none := by
  obtain ⟨hitems, htexts⟩ := h.apart hx
  apply h.rep.congr
  · intro a ha
    exact hx.sameItems a (hitems a ha)
  · intro t ht
    exact hx.sameTexts t.1 (htexts t.1 (List.mem_map_of_mem ht))

/-- **An item is hung into the tree.** -/
theorem cJSONAddItemToArray_grown (h : Grown m₀ m P) (hx : Grown m m₁ (.cons cell child .nil))
    (ha : a ∈ P.addrs) (hfuel : P.addrs.length ≤ fuel) :
    ∃ m₂, cJSONAddItemToArray fuel m₁ (some a) (some cell.addr) = .ok m₂ ∧
      Grown m₀ m₂ (graft a (.cons cell child .nil) P) := by
  obtain ⟨hitems, htexts⟩ := h.apart hx
  have hnd : (P.addrs ++ (Placed.cons cell child .nil).addrs).Nodup :=
    List.nodup_append.mpr ⟨h.addrs, hx.addrs, fun a ha b hb heq => hitems a ha (heq ▸ hb)⟩
  have hndt : ((P.texts ++ (Placed.cons cell child .nil).texts).map Prod.fst).Nodup := by
    rw [List.map_append]
    exact List.nodup_append.mpr ⟨h.texts, hx.texts, fun a ha b hb heq => htexts a ha (heq ▸ hb)⟩
  obtain ⟨m₂, hcall, hrep, hadds⟩ := cJSONAddItemToArray_ok (h.still hx) hx.rep hnd ha hfuel
  have hpa : ((graft a (.cons cell child .nil) P).addrs).Perm _ := graft_addrs ha h.addrs
  have hpt : ((graft a (.cons cell child .nil) P).texts).Perm _ := graft_texts ha h.addrs
  refine ⟨m₂, hcall, hrep, hpa.nodup_iff.mpr hnd, (hpt.map _).nodup_iff.mpr hndt, ?_, ?_, ?_, ?_⟩
  · intro b hb
    rcases List.mem_append.mp (hpa.mem_iff.mp hb) with hb | hb
    · exact h.freshItems b hb
    · rw [← h.sameItems b (fun hin => hitems b hin hb), hx.freshItems b hb]
  · intro b hb
    have hb' := (hpt.map Prod.fst).mem_iff.mp hb
    rw [List.map_append] at hb'
    rcases List.mem_append.mp hb' with hb | hb
    · exact h.freshTexts b hb
    · rw [← h.sameTexts b (fun hin => htexts b hin hb), hx.freshTexts b hb]
  · intro b hb
    rw [hpa.mem_iff, List.mem_append, not_or] at hb
    have hne : b ≠ cell.addr := by
      rintro rfl
      exact hb.2 List.mem_cons_self
    rw [hadds.same b hb.1 hne, hx.sameItems b hb.2, h.sameItems b hb.1]
  · intro b hb
    rw [(hpt.map Prod.fst).mem_iff, List.map_append, List.mem_append, not_or] at hb
    rw [hadds.texts, hx.sameTexts b hb.2, h.sameTexts b hb.1]

/-! ## Creating items -/

/-- A string was copied to a new block, or was refused one. -/
structure Copied (A : JsonBackend D) (m m' : JsonMem D) (str : CText)
    (v : Option (Ptr × CText)) : Prop where
  items : m'.items = m.items
  text : ∀ t ∈ v, t.2 = str ∧ m.texts t.1 = none ∧ m'.texts t.1 = some str
  same : ∀ a, a ∉ v.map Prod.fst → m'.texts a = m.texts a
  refused : v = none → A.text.pick m.texts = none

/-- cJSON_strdup never faults: it gives a fresh copy of the string or NULL. -/
theorem cJSONStrdup_ok (A : JsonBackend D) (m : JsonMem D) (str : CText) :
    ∃ v m', cJSONStrdup A m str = (v.map Prod.fst, m') ∧ Copied A m m' str v := by
  cases hpick : A.text.pick m.texts with
  | none => exact ⟨none, m, by simp [cJSONStrdup, hpick], rfl, by simp, by simp, fun _ => hpick⟩
  | some p =>
    refine ⟨some (p, str), { m with texts := Function.update m.texts p (some str) },
      by simp [cJSONStrdup, hpick], rfl, ?_, ?_, ?_⟩
    · rintro t ht
      obtain rfl : (p, str) = t := Option.some.inj ht
      exact ⟨rfl, A.text.fresh _ _ hpick, Function.update_self ..⟩
    · intro a ha
      have hne : a ≠ p := by
        rintro rfl
        exact ha rfl
      exact Function.update_of_ne hne _ _
    · intro hv
      cases hv

/-- An item that is in no tree, without a name. -/
def leaf (a : Ptr) (type : JsonType) (v : Option (Ptr × CText)) (d : D) : Placed D :=
  .cons ⟨a, type, v, d, none⟩ .nil .nil

/-- What `cJSON_New_Item` leaves in the block. -/
def blank (F : CDouble D) : CJson D := ⟨none, none, none, .false, none, F.zero, none⟩

/-- A fresh item, once written, is grown as a leaf without text and name. -/
theorem leaf_grown (hpick : A.item.pick m.items = some a) (type : JsonType) (d : D) :
    Grown m { m with
      items := Function.update m.items a
        (some { blank F with type := type, valuedouble := d }) } (leaf a type none d) := by
  refine ⟨⟨Function.update_self .., by simp [ItemCell.texts], trivial, trivial⟩,
    ?_, ?_, ?_, ?_, ?_, ?_⟩
  · exact List.nodup_singleton a
  · exact List.nodup_nil
  · rintro b hb
    obtain rfl := List.mem_singleton.mp hb
    exact A.item.fresh _ _ hpick
  · exact fun b hb => absurd hb List.not_mem_nil
  · intro b hb
    exact Function.update_of_ne (fun heq => hb (List.mem_singleton.mpr heq)) _ _
  · exact fun _ _ => rfl

/-- A write to an item just allocated replaces the whole item. -/
theorem modify_new (items : Heap (CJson D)) (a : Ptr) (node : CJson D)
    (fill : CJson D → CJson D) :
    Heap.modify (Function.update items a (some node)) a fill =
      .ok (Function.update items a (some (fill node))) := by
  rw [Heap.modify_ok (Function.update_self ..), Function.update_idem]

/-- **A new item**, or none. -/
theorem cJSONCreate_cases {fill : CJson D → CJson D} {type : JsonType} {d : D}
    (hfill : fill (blank F) = { blank F with type := type, valuedouble := d }) (m : JsonMem D) :
    (A.item.pick m.items = none ∧ cJSONCreate A F fill m = .ok (none, m)) ∨
      ∃ a m₁, cJSONCreate A F fill m = .ok (some a, m₁) ∧ Grown m m₁ (leaf a type none d) := by
  cases hpick : A.item.pick m.items with
  | none => exact .inl ⟨rfl, by simp [cJSONCreate, cJSONNewItem, hpick]⟩
  | some a =>
    refine .inr ⟨a, _, ?_, leaf_grown (F := F) hpick type d⟩
    simp only [cJSONCreate, cJSONNewItem, hpick]
    rw [← blank, modify_new, hfill, ok_bind]

/-- A string of an item that is in no tree yet. -/
theorem Copied.grown {str : CText} {v : Option (Ptr × CText)} {m' m₂ : JsonMem D}
    {cell' : ItemCell D} (hx : Grown m m₁ (.cons cell .nil .nil)) (hv : Copied A m₁ m' str v)
    (haddr : cell'.addr = cell.addr) (htexts : (cell'.texts).Perm (cell.texts ++ v.toList))
    (hself : m₂.items cell.addr = some (cell'.node none none none))
    (hitems : ∀ a, a ≠ cell.addr → m₂.items a = m₁.items a) (hm : m₂.texts = m'.texts) :
    Grown m m₂ (.cons cell' .nil .nil) := by
  have hall : (Placed.cons cell' .nil .nil).texts = cell'.texts := by simp [texts]
  have hold : (Placed.cons cell .nil .nil).texts = cell.texts := by simp [texts]
  have hadd : (Placed.cons cell' .nil .nil).addrs = (Placed.cons cell .nil .nil).addrs := by
    simp [addrs, haddr]
  have hnew : ∀ t ∈ v, t.1 ∉ cell.texts.map Prod.fst := by
    intro t ht hin
    obtain ⟨s, hs⟩ := hx.rep.text (by rw [hold]; exact hin)
    rw [(hv.text t ht).2.1] at hs
    cases hs
  have hmem : ∀ a, a ∈ cell'.texts.map Prod.fst ↔
      a ∈ cell.texts.map Prod.fst ∨ a ∈ v.map Prod.fst := by
    intro a
    rw [(htexts.map Prod.fst).mem_iff, List.map_append, List.mem_append]
    cases v <;> simp [eq_comm]
  refine ⟨⟨by rw [haddr]; exact hself, ?_, trivial, trivial⟩, hadd ▸ hx.addrs, ?_, ?_, ?_, ?_, ?_⟩
  · intro t ht
    rw [hm]
    rcases List.mem_append.mp (htexts.mem_iff.mp ht) with ht | ht
    · have hne : t.1 ∉ v.map Prod.fst := by
        intro hin
        obtain ⟨t', ht', heq⟩ := Option.map_eq_some_iff.mp hin
        exact hnew t' ht' (heq ▸ List.mem_map_of_mem ht)
      rw [hv.same t.1 hne, hx.rep.2.1 t ht]
    · obtain ⟨hstr, -, hin⟩ := hv.text t (Option.mem_toList.mp ht)
      rw [hin, hstr]
  · rw [hall, (htexts.map Prod.fst).nodup_iff, List.map_append]
    refine List.nodup_append.mpr ⟨?_, ?_, ?_⟩
    · rw [← hold]
      exact hx.texts
    · cases v <;> simp
    · rintro b hb c hc rfl
      obtain ⟨t, ht, rfl⟩ := List.mem_map.mp hc
      exact hnew t (Option.mem_toList.mp ht) hb
  · exact hadd ▸ hx.freshItems
  · intro b hb
    rw [hall] at hb
    rcases (hmem b).mp hb with hb | hb
    · exact hx.freshTexts b (by rw [hold]; exact hb)
    · obtain ⟨t, ht, rfl⟩ := Option.map_eq_some_iff.mp hb
      have hout := hnew t ht
      rw [← hold] at hout
      rw [← hx.sameTexts t.1 hout, (hv.text t ht).2.1]
  · intro b hb
    have hne : b ≠ cell.addr := by
      rintro rfl
      exact hb (by simp [addrs, haddr])
    rw [hitems b hne, hx.sameItems b (hadd ▸ hb)]
  · intro b hb
    rw [hall, hmem, not_or] at hb
    rw [hm, hv.same b hb.2, hx.sameTexts b (by rw [hold]; exact hb.1)]

/-- **A new string item**, or none. -/
theorem cJSONCreateString_cases (A : JsonBackend D) (F : CDouble D) (str : CText)
    (m : JsonMem D) :
    (A.item.pick m.items = none ∧ cJSONCreateString A F str m = .ok (none, m)) ∨
      ∃ a v m₁, cJSONCreateString A F str m = .ok (some a, m₁) ∧ (∀ t ∈ v, t.2 = str) ∧
        (v = none → A.text.pick m.texts = none) ∧ Grown m m₁ (leaf a .string v F.zero) := by
  cases hpick : A.item.pick m.items with
  | none => exact .inl ⟨rfl, by simp [cJSONCreateString, cJSONNewItem, hpick]⟩
  | some a =>
    have hleaf := leaf_grown (F := F) hpick .string F.zero
    obtain ⟨v, m', hdup, hv⟩ := cJSONStrdup_ok A { m with
      items := Function.update m.items a (some { blank F with type := .string }) } str
    refine .inr ⟨a, v, { m' with
      items := Function.update m.items a
        (some { blank F with type := .string, valuestring := v.map Prod.fst }) }, ?_,
      fun t ht => (hv.text t ht).1, hv.refused, ?_⟩
    · simp only [cJSONCreateString, cJSONNewItem, hpick]
      rw [← blank, modify_new, ok_bind, hdup]
      simp only [hv.items, modify_new, ok_bind]
    · refine Copied.grown hleaf hv rfl (by simp [ItemCell.texts]) (Function.update_self ..) ?_ rfl
      intro b hb
      dsimp only
      rw [Function.update_of_ne hb, Function.update_of_ne hb]

/-- An item gets its name, and what is left to do is to hang it in. -/
theorem cJSONAddItemToObject_named (fuel : Nat) (hx : Grown m m₁ (.cons cell .nil .nil))
    (hname : cell.string = none) (object : Option Ptr) (string : CText) :
    ∃ v m', cJSONAddItemToObject A fuel m₁ object string (some cell.addr) =
        cJSONAddItemToArray fuel m' object (some cell.addr) ∧
      (∀ t ∈ v, t.2 = string) ∧ (v = none → A.text.pick m₁.texts = none) ∧
      Grown m m' (.cons { cell with string := v } .nil .nil) := by
  obtain ⟨v, m', hdup, hv⟩ := cJSONStrdup_ok A m₁ string
  have hnode := hx.rep.1
  have hnode' : m'.items cell.addr = some (cell.node none none none) := by
    rw [hv.items]
    exact hnode
  have hnamed : Grown m { m' with
      items := Function.update m'.items cell.addr
        (some { cell.node none none none with string := v.map Prod.fst }) }
      (.cons { cell with string := v } .nil .nil) := by
    refine Copied.grown hx hv rfl ?_ (Function.update_self ..) ?_ rfl
    · simp [ItemCell.texts, hname]
    · intro b hb
      dsimp only
      rw [Function.update_of_ne hb, hv.items]
  refine ⟨v, _, ?_, fun t ht => (hv.text t ht).1, hv.refused, hnamed⟩
  have hfree : freeText m₁ (cell.node none none none : CJson D).string = .ok m₁ := by
    simp [ItemCell.node, hname, freeText]
  simp only [cJSONAddItemToObject]
  rw [Heap.read_ok hnode, ok_bind]
  simp only [first]
  rw [hfree, ok_bind, hdup]
  simp only [Heap.modify_ok hnode', ok_bind]

/-- **An item gets its name and is hung into the tree.** -/
theorem cJSONAddItemToObject_grown (h : Grown m₀ m P) (hx : Grown m m₁ (.cons cell .nil .nil))
    (hname : cell.string = none) (ha : a ∈ P.addrs) (hfuel : P.addrs.length ≤ fuel)
    (string : CText) :
    ∃ v m₂, cJSONAddItemToObject A fuel m₁ (some a) string (some cell.addr) = .ok m₂ ∧
      (∀ t ∈ v, t.2 = string) ∧ (v = none → A.text.pick m₁.texts = none) ∧
      Grown m₀ m₂ (graft a (.cons { cell with string := v } .nil .nil) P) := by
  obtain ⟨v, m', heq, hstr, hrefused, hnamed⟩ :=
    cJSONAddItemToObject_named (A := A) fuel hx hname (some a) string
  obtain ⟨m₂, hcall, hgrown⟩ := cJSONAddItemToArray_grown h hnamed ha hfuel
  exact ⟨v, m₂, heq.trans hcall, hstr, hrefused, hgrown⟩

end Grown

/-! ## An allocator with room -/

/-- No block is refused while fewer than `n` items, and as many strings as they can have,
are in use beside `m₀`. -/
structure JsonBackend.Room (A : JsonBackend D) (m₀ : JsonMem D) (n : Nat) : Prop where
  item : ∀ (items : Heap (CJson D)) (xs : List Ptr), xs.length < n →
    (∀ a, a ∉ xs → items a = m₀.items a) → (A.item.pick items).isSome
  text : ∀ (texts : Heap CText) (xs : List Ptr), xs.length < 2 * n →
    (∀ a, a ∉ xs → texts a = m₀.texts a) → (A.text.pick texts).isSome

namespace JsonBackend.Room

variable {A : JsonBackend D} {F : CDouble D} {m₀ m m₁ : JsonMem D} {P : Placed D}
  {cell : ItemCell D} {n fuel : Nat} {a : Ptr}

/-- Where there is room, a cJSON_Create function gives a fresh leaf. -/
theorem create (hroom : A.Room m₀ n) (h : Grown m₀ m P) (hn : P.addrs.length < n)
    (fill : CJson D → CJson D) {type : JsonType} {d : D}
    (hfill : fill (blank F) = { blank F with type := type, valuedouble := d }) :
    ∃ b m₁, cJSONCreate A F fill m = .ok (some b, m₁) ∧ Grown m m₁ (leaf b type none d) := by
  rcases cJSONCreate_cases hfill m with ⟨hnone, -⟩ | hsome
  · have hpick := hroom.item m.items P.addrs hn h.sameItems
    rw [hnone] at hpick
    cases hpick
  · exact hsome

/-- Where there is room, cJSON_CreateString gives a fresh leaf that owns a copy of the string.
-/
theorem createString (hroom : A.Room m₀ n) (h : Grown m₀ m P) (hn : P.addrs.length < n)
    (str : CText) :
    ∃ b p m₁, cJSONCreateString A F str m = .ok (some b, m₁) ∧
      Grown m m₁ (leaf b .string (some (p, str)) F.zero) := by
  rcases cJSONCreateString_cases A F str m with ⟨hnone, -⟩ | ⟨b, v, m₁, hcall, hstr, hrefused, hx⟩
  · have hpick := hroom.item m.items P.addrs hn h.sameItems
    rw [hnone] at hpick
    cases hpick
  · cases v with
    | none =>
      have htexts := texts_length P
      have hpick := hroom.text m.texts (P.texts.map Prod.fst) (by simp; omega) h.sameTexts
      rw [hrefused rfl] at hpick
      cases hpick
    | some t =>
      obtain rfl := hstr t rfl
      exact ⟨b, t.1, m₁, hcall, hx⟩

/-- A detached item is named and hung into the tree. -/
theorem add (hroom : A.Room m₀ n) (h : Grown m₀ m P) (hx : Grown m m₁ (.cons cell .nil .nil))
    (hname : cell.string = none) (ha : a ∈ P.addrs) (hn : P.addrs.length < n) (hfuel : n ≤ fuel)
    (string : CText) :
    ∃ p m₂, cJSONAddItemToObject A fuel m₁ (some a) string (some cell.addr) = .ok m₂ ∧
      Grown m₀ m₂ (graft a (.cons { cell with string := some (p, string) } .nil .nil) P) := by
  obtain ⟨v, m₂, hcall, hstr, hrefused, hgrown⟩ :=
    cJSONAddItemToObject_grown (A := A) h hx hname ha (show P.addrs.length ≤ fuel by omega) string
  cases v with
  | none =>
    have htexts := texts_length P
    have hcell : cell.texts.length ≤ 1 := by
      rw [ItemCell.texts, hname]
      cases cell.valuestring <;> simp
    have hpick := hroom.text m₁.texts (P.texts.map Prod.fst ++ cell.texts.map Prod.fst)
      (by simp; omega) (by
        intro b hb
        rw [List.mem_append, not_or] at hb
        rw [hx.sameTexts b (by simpa [texts] using hb.2), h.sameTexts b hb.1])
    rw [hrefused rfl] at hpick
    cases hpick
  | some t =>
    obtain rfl := hstr t rfl
    exact ⟨t.1, m₂, hcall, hgrown⟩

/-- Where there is room, adding a number grafts one named number under the object. -/
theorem addNumber (hroom : A.Room m₀ n) (h : Grown m₀ m P) (ha : a ∈ P.addrs)
    (hn : P.addrs.length < n) (hfuel : n ≤ fuel) (name : CText) (d : D) :
    ∃ b p m₂, cJSONAddNumberToObject A F fuel m (some a) name d = .ok m₂ ∧
      Grown m₀ m₂ (graft a (.cons ⟨b, .number, none, d, some (p, name)⟩ .nil .nil) P) := by
  obtain ⟨b, m₁, hcreate, hx⟩ := hroom.create (F := F) h hn
    (fun item => { item with type := .number, valuedouble := d }) rfl
  obtain ⟨p, m₂, hadd, hgrown⟩ := hroom.add h hx rfl ha hn hfuel name
  refine ⟨b, p, m₂, ?_, hgrown⟩
  rw [cJSONAddNumberToObject, cJSONCreateNumber, hcreate]
  exact hadd

/-- Where there is room, adding a string grafts one named string under the object. -/
theorem addString (hroom : A.Room m₀ n) (h : Grown m₀ m P) (ha : a ∈ P.addrs)
    (hn : P.addrs.length < n) (hfuel : n ≤ fuel) (name str : CText) :
    ∃ b q p m₂, cJSONAddStringToObject A F fuel m (some a) name str = .ok m₂ ∧
      Grown m₀ m₂
        (graft a (.cons ⟨b, .string, some (q, str), F.zero, some (p, name)⟩ .nil .nil) P) := by
  obtain ⟨b, q, m₁, hcreate, hx⟩ := hroom.createString (F := F) h hn str
  obtain ⟨p, m₂, hadd, hgrown⟩ := hroom.add h hx rfl ha hn hfuel name
  refine ⟨b, q, p, m₂, ?_, hgrown⟩
  rw [cJSONAddStringToObject, hcreate]
  exact hadd

end JsonBackend.Room

/-! ## An allocator that refuses -/

/-- An item that is in no tree yet, or that was refused. -/
def Detached (m m₁ : JsonMem D) (item : Option Ptr) : Prop :=
  (item = none ∧ m₁ = m) ∨
    ∃ cell : ItemCell D, item = some cell.addr ∧ cell.string = none ∧
      Grown m m₁ (.cons cell .nil .nil)

/-- `m` is `m₀` and a tree of at most `k` items, which has the root `root` and the items
`hs`. -/
def Held (m₀ m : JsonMem D) (root : Option Ptr) (k : Nat) (hs : List Ptr) : Prop :=
  ∃ P, Grown m₀ m P ∧ P.first = root ∧ P.addrs.length ≤ k ∧ ∀ a ∈ hs, a ∈ P.addrs

section Refusing

variable {A : JsonBackend D} {F : CDouble D} {m₀ m m₁ : JsonMem D} {root object item : Option Ptr}
  {k fuel : Nat} {hs : List Ptr} {cell : ItemCell D}

/-- What is held stays held of fewer handles and for a larger count of items. -/
theorem Held.mono {k' : Nat} {hs' : List Ptr} (h : Held m₀ m root k hs) (hk : k ≤ k')
    (hsub : ∀ a ∈ hs', a ∈ hs) : Held m₀ m root k' hs' := by
  obtain ⟨P, hP, hroot, hlen, hin⟩ := h
  exact ⟨P, hP, hroot, hlen.trans hk, fun a ha => hin a (hsub a ha)⟩

/-- A cJSON_Create function gives a detached leaf or NULL, and never faults. -/
theorem cJSONCreate_detached {fill : CJson D → CJson D} {type : JsonType} {d : D}
    (hfill : fill (blank F) = { blank F with type := type, valuedouble := d }) :
    Ensures (cJSONCreate A F fill m) (fun out => Detached m out.2 out.1) (fun _ => False) := by
  rcases cJSONCreate_cases (A := A) hfill m with ⟨-, hcall⟩ | ⟨a, m₁, hcall, hx⟩
  · rw [hcall]
    exact .inl ⟨rfl, rfl⟩
  · rw [hcall]
    exact .inr ⟨_, rfl, rfl, hx⟩

/-- cJSON_CreateString gives a detached leaf or NULL, and never faults. -/
theorem cJSONCreateString_detached (str : CText) :
    Ensures (cJSONCreateString A F str m) (fun out => Detached m out.2 out.1)
      (fun _ => False) := by
  rcases cJSONCreateString_cases A F str m with ⟨-, hcall⟩ | ⟨a, v, m₁, hcall, -, -, hx⟩
  · rw [hcall]
    exact .inl ⟨rfl, rfl⟩
  · rw [hcall]
    exact .inr ⟨_, rfl, rfl, hx⟩

/-- The first item of a tree. -/
theorem Detached.held (hx : Detached m₀ m item) : Held m₀ m item 1 item.toList := by
  rcases hx with ⟨rfl, rfl⟩ | ⟨cell, rfl, -, hx⟩
  · exact ⟨.nil, .refl _, rfl, by simp [addrs], by simp⟩
  · exact ⟨_, hx, rfl, by simp [addrs], by simp [addrs]⟩

/-- An item is hung into the tree, or its parent is `NULL`. -/
theorem Held.hang (h : Held m₀ m root k hs) (hx : Grown m m₁ (.cons cell .nil .nil))
    (hobject : ∀ a ∈ object, a ∈ hs) (hk : k ≤ fuel) :
    Ensures (cJSONAddItemToArray fuel m₁ object (some cell.addr))
      (fun m₂ => Held m₀ m₂ root (k + 1) (cell.addr :: hs)) (fun e => e = .null) := by
  obtain ⟨P, hP, hroot, hlen, hin⟩ := h
  cases object with
  | none => exact rfl
  | some a =>
    have ha : a ∈ P.addrs := hin a (hobject a rfl)
    obtain ⟨m₂, hcall, hgrown⟩ :=
      cJSONAddItemToArray_grown hP hx ha (show P.addrs.length ≤ fuel by omega)
    have hperm : ((graft a (.cons cell .nil .nil) P).addrs).Perm _ := graft_addrs ha hP.addrs
    rw [hcall]
    refine ⟨_, hgrown, by rw [graft_first, hroot], ?_, ?_⟩
    · rw [hperm.length_eq]
      simp [addrs]
      omega
    · intro b hb
      rw [hperm.mem_iff, List.mem_append]
      rcases List.mem_cons.mp hb with rfl | hb
      · exact .inr List.mem_cons_self
      · exact .inl (hin b hb)

/-- Adding under a name keeps the tree held, one item larger, unless it follows a NULL. -/
theorem Held.addToObject (h : Held m₀ m root k hs) (hx : Detached m m₁ item)
    (hobject : ∀ a ∈ object, a ∈ hs) (hk : k ≤ fuel) (name : CText) :
    Ensures (cJSONAddItemToObject A fuel m₁ object name item)
      (fun m₂ => Held m₀ m₂ root (k + 1) (item.toList ++ hs)) (fun e => e = .null) := by
  rcases hx with ⟨rfl, rfl⟩ | ⟨cell, rfl, hname, hx⟩
  · exact h.mono (Nat.le_succ k) (fun _ ha => ha)
  · obtain ⟨v, m', heq, -, -, hnamed⟩ :=
      cJSONAddItemToObject_named (A := A) fuel hx hname object name
    have hhung := h.hang hnamed hobject hk
    rw [heq]
    exact hhung

/-- Adding a number keeps the tree held, one item larger, unless it follows a NULL. -/
theorem Held.addNumber (h : Held m₀ m root k hs) (hobject : ∀ a ∈ object, a ∈ hs) (hk : k ≤ fuel)
    (name : CText) (d : D) :
    Ensures (cJSONAddNumberToObject A F fuel m object name d)
      (fun m₂ => Held m₀ m₂ root (k + 1) hs) (fun e => e = .null) := by
  have hcreate : Ensures (cJSONCreateNumber A F d m) (fun out => Detached m out.2 out.1)
      (fun _ => False) := cJSONCreate_detached (d := d) rfl
  rw [cJSONAddNumberToObject]
  apply hcreate.total.bind
  intro out hx
  exact (h.addToObject hx hobject hk name).imp_ok
    (fun m₂ h₂ => h₂.mono le_rfl (fun a ha => List.mem_append_right _ ha))

/-- Adding a string keeps the tree held, one item larger, unless it follows a NULL. -/
theorem Held.addString (h : Held m₀ m root k hs) (hobject : ∀ a ∈ object, a ∈ hs) (hk : k ≤ fuel)
    (name str : CText) :
    Ensures (cJSONAddStringToObject A F fuel m object name str)
      (fun m₂ => Held m₀ m₂ root (k + 1) hs) (fun e => e = .null) := by
  rw [cJSONAddStringToObject]
  apply (cJSONCreateString_detached str).total.bind
  intro out hx
  exact (h.addToObject hx hobject hk name).imp_ok
    (fun m₂ h₂ => h₂.mono le_rfl (fun a ha => List.mem_append_right _ ha))

end Refusing

end MonkeyCache
