import MonkeyCache.Json
import MonkeyCache.Lib.Linked

/-!
# The trees of `cJSON.c` on the heap

A tree is made of one block for every item and one for every string.  An item is linked
to its siblings in both directions and to its first child, and it may be filled after it
was hung into its parent.  So a call that adds an item walks through blocks of a tree
that is larger than the list it adds to.

`Placed` is a chain of items with the addresses of their blocks, and `Rep` says that the
heap holds it.

* `cJSONAddItemToArray_ok` — the item becomes the last child of its parent, wherever in
  the tree this is, and no other block changes (`graft`).
* `cJSONDelete_ok` — the blocks of the tree are given back, each one once.
* `chainAt_ok` — what the printing functions read is the tree.
-/

namespace MonkeyCache

open Linked Fallible

variable {D : Type}

/-! ## Data -/

/-- The `type` of an item. -/
inductive JsonType
  | false
  | true
  | null
  | number
  | string
  | array
  | object
  deriving DecidableEq, Repr

/-- `struct cJSON`; `valueint` is `(int) valuedouble`. -/
structure CJson (D : Type) where
  next : Option Ptr
  prev : Option Ptr
  child : Option Ptr
  type : JsonType
  valuestring : Option Ptr
  valuedouble : D
  string : Option Ptr

/-- The blocks of `cJSON_malloc`: items and strings. -/
structure JsonMem (D : Type) where
  items : Heap (CJson D)
  texts : Heap CText

/-- What `cJSON_malloc` answers. -/
structure JsonBackend (D : Type) where
  item : Backend (CJson D)
  text : Backend CText

/-! ## The code -/

/-- A pointer that is followed. -/
def notNull (p : Option Ptr) : Except HeapFault Ptr :=
  match p with
  | some p => .ok p
  | none => .error .null

/-- `cJSON_New_Item` -/
def cJSONNewItem (A : JsonBackend D) (F : CDouble D) (m : JsonMem D) :
    Option Ptr × JsonMem D :=
  match A.item.pick m.items with
  | none => (none, m)
  | some item => (some item, { m with
      items := Function.update m.items item
        (some ⟨none, none, none, .false, none, F.zero, none⟩) })

/-- `cJSON_strdup` -/
def cJSONStrdup (A : JsonBackend D) (m : JsonMem D) (str : CText) : Option Ptr × JsonMem D :=
  match A.text.pick m.texts with
  | none => (none, m)
  | some copy => (some copy, { m with texts := Function.update m.texts copy (some str) })

/-- `cJSON_New_Item`, and the fields that the constructor sets where there is one. -/
def cJSONCreate (A : JsonBackend D) (F : CDouble D) (fill : CJson D → CJson D) (m : JsonMem D) :
    Except HeapFault (Option Ptr × JsonMem D) :=
  match cJSONNewItem A F m with
  | (none, m) => .ok (none, m)
  | (some item, m) => do
    let items ← m.items.modify item fill
    .ok (some item, { m with items := items })

/-- `cJSON_CreateObject` -/
def cJSONCreateObject (A : JsonBackend D) (F : CDouble D) :=
  cJSONCreate A F (fun item => { item with type := .object })

/-- `cJSON_CreateArray` -/
def cJSONCreateArray (A : JsonBackend D) (F : CDouble D) :=
  cJSONCreate A F (fun item => { item with type := .array })

/-- `cJSON_CreateNumber` -/
def cJSONCreateNumber (A : JsonBackend D) (F : CDouble D) (num : D) :=
  cJSONCreate A F (fun item => { item with type := .number, valuedouble := num })

/-- `cJSON_CreateString` -/
def cJSONCreateString (A : JsonBackend D) (F : CDouble D) (str : CText) (m : JsonMem D) :
    Except HeapFault (Option Ptr × JsonMem D) :=
  match cJSONNewItem A F m with
  | (none, m) => .ok (none, m)
  | (some item, m) => do
    let items ← m.items.modify item (fun item => { item with type := .string })
    let (copy, m) := cJSONStrdup A { m with items := items } str
    let items ← m.items.modify item (fun item => { item with valuestring := copy })
    .ok (some item, { m with items := items })

/-- `while (c && c->next) c=c->next` -/
def lastItem (m : JsonMem D) : Nat → Ptr → Except HeapFault Ptr
  | 0, _ => .error .timeout
  | fuel + 1, c => do
    let node ← m.items.read c
    match node.next with
    | none => .ok c
    | some next => lastItem m fuel next

/-- `suffix_object` -/
def suffixObject (items : Heap (CJson D)) (prev item : Ptr) :
    Except HeapFault (Heap (CJson D)) := do
  let items ← items.modify prev (fun node => { node with next := some item })
  items.modify item (fun node => { node with prev := some prev })

/-- `cJSON_AddItemToArray` -/
def cJSONAddItemToArray (fuel : Nat) (m : JsonMem D) (array item : Option Ptr) :
    Except HeapFault (JsonMem D) := do
  let array ← notNull array
  let node ← m.items.read array
  match item with
  | none => .ok m
  | some item =>
    match node.child with
    | none => do
      let items ← m.items.modify array (fun node => { node with child := some item })
      .ok { m with items := items }
    | some c => do
      let last ← lastItem m fuel c
      let items ← suffixObject m.items last item
      .ok { m with items := items }

/-- `if (p) cJSON_free(p)`, for a string. -/
def freeText (m : JsonMem D) (p : Option Ptr) : Except HeapFault (JsonMem D) :=
  match p with
  | none => .ok m
  | some p => do
    let texts ← m.texts.free p
    .ok { m with texts := texts }

/-- `cJSON_AddItemToObject` -/
def cJSONAddItemToObject (A : JsonBackend D) (fuel : Nat) (m : JsonMem D) (object : Option Ptr)
    (string : CText) (item : Option Ptr) : Except HeapFault (JsonMem D) :=
  match item with
  | none => .ok m
  | some item => do
    let node ← m.items.read item
    let m ← freeText m node.string
    let (copy, m) := cJSONStrdup A m string
    let items ← m.items.modify item (fun node => { node with string := copy })
    cJSONAddItemToArray fuel { m with items := items } object (some item)

/-- `cJSON_AddNumberToObject` -/
def cJSONAddNumberToObject (A : JsonBackend D) (F : CDouble D) (fuel : Nat) (m : JsonMem D)
    (object : Option Ptr) (name : CText) (n : D) : Except HeapFault (JsonMem D) := do
  let (item, m) ← cJSONCreateNumber A F n m
  cJSONAddItemToObject A fuel m object name item

/-- `cJSON_AddStringToObject` -/
def cJSONAddStringToObject (A : JsonBackend D) (F : CDouble D) (fuel : Nat) (m : JsonMem D)
    (object : Option Ptr) (name str : CText) : Except HeapFault (JsonMem D) := do
  let (item, m) ← cJSONCreateString A F str m
  cJSONAddItemToObject A fuel m object name item

/-- `cJSON_Delete`, for an item that is no reference. -/
def cJSONDelete : Nat → Option Ptr → JsonMem D → Except HeapFault (JsonMem D)
  | _, none, m => .ok m
  | 0, some _, _ => .error .timeout
  | fuel + 1, some c, m => do
    let node ← m.items.read c
    let m ← cJSONDelete fuel node.child m
    let m ← freeText m node.valuestring
    let m ← freeText m node.string
    let items ← m.items.free c
    cJSONDelete fuel node.next { m with items := items }

/-- A string that may be `NULL`. -/
def textAt (m : JsonMem D) (p : Option Ptr) : Except HeapFault (Option CText) :=
  match p with
  | none => .ok none
  | some p => do
    let text ← m.texts.read p
    .ok (some text)

/-- The type of an item with its value. -/
def JsonType.kind (type : JsonType) (valuestring : Option CText) (valuedouble : D) :
    JsonKind D :=
  match type with
  | .false => .false
  | .true => .true
  | .null => .null
  | .number => .number valuedouble
  | .string => .string valuestring
  | .array => .array
  | .object => .object

/-- The type has a `valuestring`. -/
def JsonType.hasText (type : JsonType) : Bool := type = .string

/-- The type has children. -/
def JsonType.nested (type : JsonType) : Bool := type = .array ∨ type = .object

/-- What `print_value` reads of a chain: of an item the name only in an object, the
string only of a `cJSON_String`, and the children only of an array or an object. -/
def chainAt (m : JsonMem D) : Nat → Bool → Option Ptr → Except HeapFault (Items D)
  | _, _, none => .ok .nil
  | 0, _, some _ => .error .timeout
  | fuel + 1, named, some c => do
    let node ← m.items.read c
    let string ← textAt m (if named then node.string else none)
    let valuestring ← textAt m (if node.type.hasText then node.valuestring else none)
    let child ← chainAt m fuel (node.type = .object) (if node.type.nested then node.child else none)
    let next ← chainAt m fuel named node.next
    .ok (.cons string (node.type.kind valuestring node.valuedouble) child next)

/-- What `cJSON_Print` reads of its item; what is behind the item is not looked at. -/
def itemAt (m : JsonMem D) (fuel : Nat) (item : Option Ptr) : Except HeapFault (Item D) := do
  let c ← notNull item
  let node ← m.items.read c
  let valuestring ← textAt m (if node.type.hasText then node.valuestring else none)
  let child ← chainAt m fuel (node.type = .object) (if node.type.nested then node.child else none)
  .ok (node.type.kind valuestring node.valuedouble, child)

/-! ## Trees with addresses -/

/-- An item and the addresses of its blocks. -/
structure ItemCell (D : Type) where
  addr : Ptr
  type : JsonType
  valuestring : Option (Ptr × CText)
  valuedouble : D
  string : Option (Ptr × CText)

/-- A chain of items, each with its chain of children. -/
inductive Placed (D : Type)
  | nil
  | cons (cell : ItemCell D) (child next : Placed D)

/-- The block of an item. -/
def ItemCell.node (cell : ItemCell D) (prev child next : Option Ptr) : CJson D :=
  ⟨next, prev, child, cell.type, cell.valuestring.map Prod.fst, cell.valuedouble,
    cell.string.map Prod.fst⟩

/-- The blocks of its strings. -/
def ItemCell.texts (cell : ItemCell D) : List (Ptr × CText) :=
  cell.valuestring.toList ++ cell.string.toList

/-- The name of a cell is one of its strings. -/
theorem ItemCell.mem_string {cell : ItemCell D} {t : Ptr × CText} (h : t ∈ cell.string) :
    t ∈ cell.texts :=
  List.mem_append_right _ (Option.mem_toList.mpr h)

/-- The text of a cell is one of its strings. -/
theorem ItemCell.mem_valuestring {cell : ItemCell D} {t : Ptr × CText} (h : t ∈ cell.valuestring) :
    t ∈ cell.texts :=
  List.mem_append_left _ (Option.mem_toList.mpr h)

namespace Placed

/-- Where a chain begins. -/
def first : Placed D → Option Ptr
  | nil => none
  | cons cell _ _ => some cell.addr

/-- The addresses of the items. -/
def addrs : Placed D → List Ptr
  | nil => []
  | cons cell child next => cell.addr :: (child.addrs ++ next.addrs)

/-- The strings and their addresses. -/
def texts : Placed D → List (Ptr × CText)
  | nil => []
  | cons cell child next => cell.texts ++ (child.texts ++ next.texts)

/-- The heap holds the chain; `prev` is before it. -/
def Rep (m : JsonMem D) : Option Ptr → Placed D → Prop
  | _, nil => True
  | prev, cons cell child next =>
    m.items cell.addr = some (cell.node prev child.first next.first) ∧
      (∀ t ∈ cell.texts, m.texts t.1 = some t.2) ∧ child.Rep m none ∧
      next.Rep m (some cell.addr)

/-- The chain that is printed. -/
def toItems : Bool → Placed D → Items D
  | _, nil => .nil
  | named, cons cell child next =>
    .cons (if named then cell.string.map Prod.snd else none)
      (cell.type.kind (cell.valuestring.map Prod.snd) cell.valuedouble)
      (if cell.type.nested then child.toItems (cell.type = .object) else .nil)
      (next.toItems named)

/-- Two chains, one behind the other. -/
def append : Placed D → Placed D → Placed D
  | nil, x => x
  | cons cell child next, x => cons cell child (next.append x)

/-- `x` becomes the end of the children of the item at `array`. -/
def graft (array : Ptr) (x : Placed D) : Placed D → Placed D
  | nil => nil
  | cons cell child next =>
    if cell.addr = array then cons cell (child.append x) next
    else cons cell (graft array x child) (graft array x next)

/-- The addresses below the child belong to the tree. -/
theorem mem_child {cell : ItemCell D} {child next : Placed D} {a : Ptr} (h : a ∈ child.addrs) :
    a ∈ (cons cell child next).addrs :=
  List.mem_cons_of_mem _ (List.mem_append_left _ h)

/-- The addresses behind the cell belong to the tree. -/
theorem mem_next {cell : ItemCell D} {child next : Placed D} {a : Ptr} (h : a ∈ next.addrs) :
    a ∈ (cons cell child next).addrs :=
  List.mem_cons_of_mem _ (List.mem_append_right _ h)

variable {m m' : JsonMem D} {prev : Option Ptr} {P x : Placed D}

/-- A tree stands in every memory that agrees on its addresses. -/
theorem Rep.congr (h : P.Rep m prev) (hitems : ∀ a ∈ P.addrs, m'.items a = m.items a)
    (htexts : ∀ t ∈ P.texts, m'.texts t.1 = m.texts t.1) : P.Rep m' prev := by
  induction P generalizing prev with
  | nil => trivial
  | cons cell child next ihc ihn =>
    obtain ⟨hcell, hstrings, hchild, hnext⟩ := h
    refine ⟨?_, ?_, ihc hchild ?_ ?_, ihn hnext ?_ ?_⟩
    · rw [hitems cell.addr (by simp [addrs]), hcell]
    · intro t ht
      rw [htexts t (by simp [texts, ht]), hstrings t ht]
    · exact fun a ha => hitems a (by simp [addrs, ha])
    · exact fun t ht => htexts t (by simp [texts, ht])
    · exact fun a ha => hitems a (by simp [addrs, ha])
    · exact fun t ht => htexts t (by simp [texts, ht])

/-- Every address of the chain is that of an item. -/
theorem Rep.item {a : Ptr} (h : P.Rep m prev) (ha : a ∈ P.addrs) :
    ∃ node, m.items a = some node := by
  induction P generalizing prev with
  | nil => cases ha
  | cons cell child next ihc ihn =>
    obtain ⟨hcell, -, hchild, hnext⟩ := h
    simp only [addrs, List.mem_cons, List.mem_append] at ha
    rcases ha with rfl | ha | ha
    · exact ⟨_, hcell⟩
    · exact ihc hchild ha
    · exact ihn hnext ha

/-- The last item of a chain. -/
def last : Placed D → Option Ptr
  | nil => none
  | cons cell _ next => next.last.or (some cell.addr)

/-- The last cell of a chain is one of its cells. -/
theorem last_mem {l : Ptr} (h : P.last = some l) : l ∈ P.addrs := by
  induction P with
  | nil => cases h
  | cons cell child next ihc ihn =>
    cases hnext : next.last with
    | none =>
      obtain rfl : cell.addr = l := by simpa [last, hnext] using h
      simp [addrs]
    | some l' =>
      obtain rfl : l' = l := by simpa [last, hnext] using h
      simp [addrs, ihn hnext]

/-- A chain with a cell has a last one. -/
theorem last_isSome (cell : ItemCell D) (child next : Placed D) :
    ((cons cell child next).last).isSome := by
  simp [last]

/-- The loop that looks for the last item. -/
theorem lastItem_ok {cell : ItemCell D} {child next : Placed D} {l : Ptr}
    (h : (cons cell child next).Rep m prev) (hl : (cons cell child next).last = some l)
    {fuel : Nat} (hfuel : (cons cell child next).addrs.length ≤ fuel) :
    lastItem m fuel cell.addr = .ok l := by
  induction next generalizing cell child prev fuel with
  | nil =>
    obtain ⟨hcell, -⟩ := h
    obtain rfl : cell.addr = l := by simpa [last] using hl
    cases fuel with
    | zero => simp [addrs] at hfuel
    | succ fuel =>
      rw [lastItem, Heap.read_ok hcell, ok_bind]
      rfl
  | cons cell' child' next' ihc ihn =>
    obtain ⟨hcell, -, -, hnext⟩ := h
    cases fuel with
    | zero => simp [addrs] at hfuel
    | succ fuel =>
      have hl' : (cons cell' child' next').last = some l := by
        obtain ⟨l', hl'⟩ := Option.isSome_iff_exists.mp (last_isSome cell' child' next')
        rw [last, hl'] at hl
        rw [hl', ← hl]
        rfl
      rw [lastItem, Heap.read_ok hcell, ok_bind]
      exact ihn hnext hl' (by simp [addrs] at hfuel ⊢; omega)

/-- A graft leaves the head of the chain in place. -/
theorem graft_first (array : Ptr) : (graft array x P).first = P.first := by
  cases P with
  | nil => rfl
  | cons cell child next =>
    rw [graft]
    split <;> rfl

/-- A graft at an address outside the tree does nothing. -/
theorem graft_of_notMem {array : Ptr} (h : array ∉ P.addrs) : graft array x P = P := by
  induction P with
  | nil => rfl
  | cons cell child next ihc ihn =>
    simp only [addrs, List.mem_cons, List.mem_append, not_or] at h
    rw [graft, if_neg (fun hc => h.1 hc.symm), ihc h.2.1, ihn h.2.2]

/-- Another item behind the last one. -/
theorem Rep.append {cell : ItemCell D} {child : Placed D} {l : Ptr} (hP : P.Rep m prev)
    (hx : (cons cell child nil).Rep m none) (hl : P.last = some l)
    (hnd : (P.addrs ++ (cons cell child nil).addrs).Nodup)
    (hlast : ∀ node, m.items l = some node →
      m'.items l = some { node with next := some cell.addr })
    (hitem : ∀ node, m.items cell.addr = some node →
      m'.items cell.addr = some { node with prev := some l })
    (hsame : ∀ a, a ≠ l → a ≠ cell.addr → m'.items a = m.items a) (htexts : m'.texts = m.texts) :
    (P.append (cons cell child nil)).Rep m' prev := by
  obtain ⟨hndP, hndx, hapart⟩ := List.nodup_append.mp hnd
  have hmem := last_mem hl
  simp only [addrs, List.append_nil, List.nodup_cons] at hndx
  have hcell : cell.addr ∉ P.addrs := fun hc => hapart _ hc _ (by simp [addrs]) rfl
  obtain ⟨hnode, hstrings, hchild, -⟩ := hx
  have hnew : (cons cell child nil).Rep m' (some l) := by
    refine ⟨hitem _ hnode, by rw [htexts]; exact hstrings, ?_, trivial⟩
    refine hchild.congr (fun a ha => hsame a ?_ ?_) (fun t _ => by rw [htexts])
    · rintro rfl
      exact hapart a hmem a (by simp [addrs, ha]) rfl
    · rintro rfl
      exact hndx.1 ha
  clear hnd hapart hndx hitem hnode hstrings hchild
  induction P generalizing prev with
  | nil => cases hl
  | cons c ch next ihc ihn =>
    obtain ⟨hc, hcstrings, hch, hnext⟩ := hP
    simp only [addrs, List.nodup_cons, List.mem_append, not_or, List.nodup_append] at hndP
    simp only [addrs, List.mem_cons, List.mem_append, not_or] at hcell
    have hframe : ∀ Q : Placed D, l ∉ Q.addrs → cell.addr ∉ Q.addrs → ∀ {q : Option Ptr},
        Q.Rep m q → Q.Rep m' q := by
      intro Q hlQ hcQ q hQ
      refine hQ.congr (fun a ha => hsame a ?_ ?_) (fun t _ => by rw [htexts])
      · rintro rfl
        exact hlQ ha
      · rintro rfl
        exact hcQ ha
    cases next with
    | nil =>
      obtain rfl : c.addr = l := by simpa [last] using hl
      refine ⟨hlast _ hc, by rw [htexts]; exact hcstrings, hframe ch hndP.1.1 hcell.2.1 hch, hnew⟩
    | cons c' ch' next' =>
      obtain ⟨l', hl'⟩ := Option.isSome_iff_exists.mp (last_isSome c' ch' next')
      obtain rfl : l' = l := by
        rw [last, hl'] at hl
        exact Option.some.inj hl
      have hmem' := last_mem hl'
      have hne : c.addr ≠ l' := by
        rintro rfl
        exact hndP.1.2 hmem'
      have hlch : l' ∉ ch.addrs := fun hin => hndP.2.2.2 l' hin l' hmem' rfl
      refine ⟨?_, by rw [htexts]; exact hcstrings, hframe ch hlch hcell.2.1 hch,
        ihn hnext hl' hndP.2.2.1 hmem' hcell.2.2⟩
      rw [hsame c.addr hne (Ne.symm hcell.1), hc]
      rfl

/-- What an item is added to keeps its blocks, and so do the strings. -/
structure Adds (m m' : JsonMem D) (P : Placed D) (item : Ptr) : Prop where
  texts : m'.texts = m.texts
  same : ∀ a, a ∉ P.addrs → a ≠ item → m'.items a = m.items a

/-- A tree apart from the one that is added to stands as before. -/
theorem Adds.frame {item : Ptr} (h : Adds m m' P item) {Q : Placed D}
    (hapart : ∀ a ∈ Q.addrs, a ∉ P.addrs) (hitem : item ∉ Q.addrs) (hQ : Q.Rep m prev) :
    Q.Rep m' prev := by
  refine hQ.congr (fun a ha => h.same a (hapart a ha) ?_) (fun t _ => by rw [h.texts])
  rintro rfl
  exact hitem ha

end Placed

open Placed

section Calls

variable {m : JsonMem D} {fuel : Nat} {array item c l : Ptr} {node nl ni : CJson D}

/-- An item becomes the first child, seen block by block. -/
theorem addItem_first (fuel : Nat) (item : Ptr) (harray : m.items array = some node)
    (hnone : node.child = none) :
    ∃ m', cJSONAddItemToArray fuel m (some array) (some item) = .ok m' ∧ m'.texts = m.texts ∧
      m'.items array = some { node with child := some item } ∧
      ∀ a, a ≠ array → m'.items a = m.items a := by
  refine ⟨{ m with items := Function.update m.items array _ }, ?_, rfl,
    Function.update_self .., fun a ha => Function.update_of_ne ha _ _⟩
  simp only [cJSONAddItemToArray, notNull, ok_bind, Heap.read_ok harray, hnone,
    Heap.modify_ok harray]

/-- An item comes behind the last child, seen block by block. -/
theorem addItem_behind (harray : m.items array = some node) (hchild : node.child = some c)
    (hlast : lastItem m fuel c = .ok l) (hl : m.items l = some nl) (hitem : m.items item = some ni)
    (hne : item ≠ l) :
    ∃ m', cJSONAddItemToArray fuel m (some array) (some item) = .ok m' ∧ m'.texts = m.texts ∧
      m'.items l = some { nl with next := some item } ∧
      m'.items item = some { ni with prev := some l } ∧
      ∀ a, a ≠ l → a ≠ item → m'.items a = m.items a := by
  obtain ⟨items, hitems⟩ : ∃ items,
      Function.update m.items l (some { nl with next := some item }) = items := ⟨_, rfl⟩
  have hitem' : items item = some ni := by
    rw [← hitems, Function.update_of_ne hne, hitem]
  refine ⟨{ m with items := Function.update items item (some { ni with prev := some l }) }, ?_,
    rfl, ?_, Function.update_self .., ?_⟩
  · simp only [cJSONAddItemToArray, notNull, ok_bind, Heap.read_ok harray, hchild, hlast,
      suffixObject, Heap.modify_ok hl, hitems, Heap.modify_ok hitem']
  · dsimp only
    rw [Function.update_of_ne hne.symm, ← hitems, Function.update_self]
  · intro a hal hai
    dsimp only
    rw [Function.update_of_ne hai, ← hitems, Function.update_of_ne hal]

end Calls

/-- **The item becomes the last child of its parent**, wherever this is in the tree. -/
theorem cJSONAddItemToArray_ok {m : JsonMem D} {prev : Option Ptr} {P : Placed D} {array : Ptr}
    {cell : ItemCell D} {child : Placed D} {fuel : Nat} (hP : P.Rep m prev)
    (hx : (Placed.cons cell child .nil).Rep m none)
    (hnd : (P.addrs ++ (Placed.cons cell child .nil).addrs).Nodup) (ha : array ∈ P.addrs)
    (hfuel : P.addrs.length ≤ fuel) :
    ∃ m', cJSONAddItemToArray fuel m (some array) (some cell.addr) = .ok m' ∧
      (graft array (.cons cell child .nil) P).Rep m' prev ∧ Adds m m' P cell.addr := by
  induction P generalizing prev with
  | nil => cases ha
  | cons c ch next ihc ihn =>
    obtain ⟨hc, hstrings, hch, hnext⟩ := hP
    obtain ⟨hndP, hndx, hapart⟩ := List.nodup_append.mp hnd
    have hcell : cell.addr ∉ (Placed.cons c ch next).addrs :=
      fun hin => hapart _ hin _ (by simp [addrs]) rfl
    simp only [addrs, List.nodup_cons, List.mem_append, not_or, List.nodup_append] at hndP
    simp only [addrs, List.mem_cons, List.mem_append, not_or] at hcell
    simp only [addrs, List.length_cons, List.length_append] at hfuel
    obtain ⟨⟨hcch, hcnext⟩, hndch, hndnext, hdisj⟩ := hndP
    by_cases hhere : c.addr = array
    · subst hhere
      rw [graft, if_pos rfl]
      cases ch with
      | nil =>
        obtain ⟨m', hcall, htexts, harray, hsame⟩ := addItem_first fuel cell.addr hc rfl
        have hframe : ∀ Q : Placed D, c.addr ∉ Q.addrs → ∀ {q : Option Ptr}, Q.Rep m q →
            Q.Rep m' q := by
          intro Q hQc q hQ
          refine hQ.congr (fun a ha => hsame a ?_) (fun t _ => by rw [htexts])
          rintro rfl
          exact hQc ha
        have hxc : c.addr ∉ (Placed.cons cell child .nil).addrs :=
          fun hin => hapart c.addr (by simp [addrs]) _ hin rfl
        refine ⟨m', hcall, ⟨harray, ?_, hframe _ hxc hx, hframe _ hcnext hnext⟩, htexts, ?_⟩
        · rw [htexts]
          exact hstrings
        · intro a ha _
          refine hsame a ?_
          rintro rfl
          exact ha (by simp [addrs])
      | cons c' ch' next' =>
        obtain ⟨l, hl⟩ := Option.isSome_iff_exists.mp (last_isSome c' ch' next')
        have hmem := last_mem hl
        have hfound : lastItem m fuel c'.addr = .ok l := lastItem_ok hch hl (by omega)
        obtain ⟨nl, hnl⟩ := hch.item hmem
        have hne : cell.addr ≠ l := by
          rintro rfl
          exact hcell.2.1 hmem
        obtain ⟨m', hcall, htexts, hlast, hitem, hsame⟩ :=
          addItem_behind hc rfl hfound hnl hx.1 hne
        have hndch' : ((Placed.cons c' ch' next').addrs ++
            (Placed.cons cell child .nil).addrs).Nodup := by
          refine List.nodup_append.mpr ⟨hndch, hndx, ?_⟩
          intro a ha b hb
          exact hapart a (mem_child ha) b hb
        have hrep := Rep.append hch hx hl hndch'
          (fun node hnode => by rw [hlast]; rw [hnl] at hnode; rw [Option.some.inj hnode])
          (fun node hnode => by rw [hitem]; rw [hx.1] at hnode; rw [Option.some.inj hnode])
          hsame htexts
        refine ⟨m', hcall, ⟨?_, ?_, hrep, ?_⟩, htexts, ?_⟩
        · rw [hsame c.addr (fun h => hcch (h ▸ hmem)) (Ne.symm hcell.1), hc]
          rfl
        · rw [htexts]
          exact hstrings
        · refine hnext.congr (fun a ha => hsame a ?_ ?_) (fun t _ => by rw [htexts])
          · rintro rfl
            exact hdisj a hmem a ha rfl
          · rintro rfl
            exact hcell.2.2 ha
        · intro a ha hac
          refine hsame a ?_ hac
          rintro rfl
          exact ha (mem_child hmem)
    · rw [graft, if_neg hhere]
      simp only [addrs, List.mem_cons, List.mem_append] at ha
      rcases ha with ha | ha | ha
      · exact absurd ha.symm hhere
      · have hnd' : (ch.addrs ++ (Placed.cons cell child .nil).addrs).Nodup := by
          refine List.nodup_append.mpr ⟨hndch, hndx, ?_⟩
          intro a hin b hb
          exact hapart a (mem_child hin) b hb
        obtain ⟨m', hcall, hrep, hadds⟩ := ihc hch hnd' ha (by omega)
        have hnot : array ∉ next.addrs := fun hin => hdisj array ha array hin rfl
        refine ⟨m', hcall, ⟨?_, ?_, hrep, ?_⟩, hadds.texts, ?_⟩
        · rw [hadds.same c.addr hcch (Ne.symm hcell.1), hc, graft_first, graft_of_notMem hnot]
        · rw [hadds.texts]
          exact hstrings
        · rw [graft_of_notMem hnot]
          exact hadds.frame (fun a hin hin' => hdisj a hin' a hin rfl) hcell.2.2 hnext
        · intro a hin hac
          exact hadds.same a (fun h => hin (mem_child h)) hac
      · have hnd' : (next.addrs ++ (Placed.cons cell child .nil).addrs).Nodup := by
          refine List.nodup_append.mpr ⟨hndnext, hndx, ?_⟩
          intro a hin b hb
          exact hapart a (mem_next hin) b hb
        obtain ⟨m', hcall, hrep, hadds⟩ := ihn hnext hnd' ha (by omega)
        have hnot : array ∉ ch.addrs := fun hin => hdisj array hin array ha rfl
        refine ⟨m', hcall, ⟨?_, ?_, ?_, hrep⟩, hadds.texts, ?_⟩
        · rw [hadds.same c.addr hcnext (Ne.symm hcell.1), hc, graft_of_notMem hnot, graft_first]
        · rw [hadds.texts]
          exact hstrings
        · rw [graft_of_notMem hnot]
          exact hadds.frame (fun a hin hin' => hdisj a hin a hin' rfl) hcell.2.1 hch
        · intro a hin hac
          exact hadds.same a (fun h => hin (mem_next h)) hac

/-! ## Reading and deleting -/

/-- The string of a cell is read where the cell says. -/
theorem textAt_ok {m : JsonMem D} {o : Option (Ptr × CText)}
    (h : ∀ t ∈ o, m.texts t.1 = some t.2) : textAt m (o.map Prod.fst) = .ok (o.map Prod.snd) := by
  cases o with
  | none => rfl
  | some t =>
    have ht := h t rfl
    simp only [Option.map_some, textAt, Heap.read_ok ht, ok_bind]

section Reading

variable {m : JsonMem D} {prev : Option Ptr} {cell : ItemCell D} {child next : Placed D}
  {fuel : Nat}

/-- The value of an item. -/
theorem valueAt_ok (h : (Placed.cons cell child next).Rep m prev) :
    ∃ value, textAt m (if (cell.node prev child.first next.first).type.hasText
      then (cell.node prev child.first next.first).valuestring else none) = .ok value ∧
      cell.type.kind value cell.valuedouble =
        cell.type.kind (cell.valuestring.map Prod.snd) cell.valuedouble := by
  by_cases hs : cell.type.hasText
  · have htype : (cell.node prev child.first next.first).type.hasText = true := hs
    refine ⟨_, ?_, rfl⟩
    rw [if_pos htype]
    exact textAt_ok (fun t ht => h.2.1 t (ItemCell.mem_valuestring ht))
  · have htype : ¬ (cell.node prev child.first next.first).type.hasText = true := hs
    refine ⟨none, by rw [if_neg htype]; rfl, ?_⟩
    cases hkind : cell.type <;> simp [JsonType.kind, JsonType.hasText, hkind] at hs ⊢

/-- The children of an item, if they are read. -/
theorem childAt_ok
    (hchild : ∀ named, chainAt m fuel named child.first = .ok (child.toItems named)) :
    chainAt m fuel ((cell.node prev child.first next.first).type = .object)
      (if (cell.node prev child.first next.first).type.nested then
        (cell.node prev child.first next.first).child else none) =
      .ok (if cell.type.nested then child.toItems (cell.type = .object) else .nil) := by
  by_cases hn : cell.type.nested
  · have htype : (cell.node prev child.first next.first).type.nested = true := hn
    rw [if_pos htype, if_pos hn]
    exact hchild _
  · have htype : ¬ (cell.node prev child.first next.first).type.nested = true := hn
    rw [if_neg htype, if_neg hn]
    cases fuel <;> rfl

/-- What is read is the tree. -/
theorem chainAt_ok {P : Placed D} (hP : P.Rep m prev) (hfuel : P.addrs.length ≤ fuel)
    (named : Bool) : chainAt m fuel named P.first = .ok (P.toItems named) := by
  induction P generalizing prev fuel named with
  | nil => simp [first, toItems, chainAt]
  | cons cell child next ihc ihn =>
    obtain ⟨value, hread, hkind⟩ := valueAt_ok hP
    obtain ⟨hcell, hstrings, hchild, hnext⟩ := hP
    simp only [addrs, List.length_cons, List.length_append] at hfuel
    cases fuel with
    | zero => omega
    | succ fuel =>
      have hname : textAt m (if named then (cell.node prev child.first next.first).string
          else none) = .ok (if named then cell.string.map Prod.snd else none) := by
        cases named with
        | false => rfl
        | true => exact textAt_ok (fun t ht => hstrings t (ItemCell.mem_string ht))
      have hrest : chainAt m fuel named (cell.node prev child.first next.first).next =
          .ok (next.toItems named) := ihn hnext (by omega) named
      have hfirst : (Placed.cons cell child next).first = some cell.addr := rfl
      rw [hfirst, chainAt, Heap.read_ok hcell, ok_bind, hname, ok_bind, hread, ok_bind,
        childAt_ok (fun named => ihc hchild (by omega) named), ok_bind, hrest, ok_bind, toItems,
        ← hkind]
      rfl

/-- What is read of a root is its tree. -/
theorem itemAt_ok (h : (Placed.cons cell child next).Rep m prev)
    (hfuel : child.addrs.length ≤ fuel) :
    itemAt m fuel (some cell.addr) =
      .ok (cell.type.kind (cell.valuestring.map Prod.snd) cell.valuedouble,
        if cell.type.nested then child.toItems (cell.type = .object) else .nil) := by
  obtain ⟨value, hread, hkind⟩ := valueAt_ok h
  obtain ⟨hcell, -, hchild, -⟩ := h
  rw [itemAt, notNull, ok_bind, Heap.read_ok hcell, ok_bind, hread, ok_bind,
    childAt_ok (fun named => chainAt_ok hchild hfuel named), ok_bind, ← hkind]
  rfl

end Reading

/-- Freeing the string of a cell clears this one block. -/
theorem freeText_ok {m : JsonMem D} {o : Option (Ptr × CText)}
    (h : ∀ t ∈ o, m.texts t.1 = some t.2) :
    ∃ m', freeText m (o.map Prod.fst) = .ok m' ∧ m'.items = m.items ∧
      ∀ a, m'.texts a = if o.map Prod.fst = some a then none else m.texts a := by
  cases o with
  | none => exact ⟨m, rfl, rfl, fun a => by simp⟩
  | some t =>
    have ht := h t rfl
    refine ⟨{ m with texts := Function.update m.texts t.1 none }, ?_, rfl, fun a => ?_⟩
    · simp only [Option.map_some, freeText, Heap.free_ok ht, ok_bind]
    · by_cases ha : t.1 = a
      · subst ha
        simp
      · rw [Option.map_some, if_neg (by simpa using ha)]
        exact Function.update_of_ne (Ne.symm ha) _ _

/-- Two lists without a common address have none of their own twice. -/
theorem nodup_append_map {xs ys : List (Ptr × CText)} (h : ((xs ++ ys).map Prod.fst).Nodup) :
    (xs.map Prod.fst).Nodup ∧ (ys.map Prod.fst).Nodup ∧
      ∀ t ∈ xs, t.1 ∉ ys.map Prod.fst := by
  rw [List.map_append, List.nodup_append] at h
  exact ⟨h.1, h.2.1, fun t ht hin => h.2.2 t.1 (List.mem_map_of_mem ht) t.1 hin rfl⟩

/-- **The blocks of a tree are given back**, each one once, and no other block is. -/
theorem cJSONDelete_ok {m : JsonMem D} {prev : Option Ptr} {P : Placed D} (hP : P.Rep m prev)
    (hnd : P.addrs.Nodup) (htexts : (P.texts.map Prod.fst).Nodup) {fuel : Nat}
    (hfuel : P.addrs.length ≤ fuel) :
    ∃ m', cJSONDelete fuel P.first m = .ok m' ∧
      (∀ a, m'.items a = if a ∈ P.addrs then none else m.items a) ∧
      ∀ a, m'.texts a = if a ∈ P.texts.map Prod.fst then none else m.texts a := by
  induction P generalizing m prev fuel with
  | nil => exact ⟨m, by simp [first, cJSONDelete], by simp [addrs], by simp [texts]⟩
  | cons cell child next ihc ihn =>
    obtain ⟨hcell, hstrings, hchild, hnext⟩ := hP
    simp only [addrs, List.length_cons, List.length_append] at hfuel
    cases fuel with
    | zero => omega
    | succ fuel =>
      simp only [addrs, List.nodup_cons, List.mem_append, not_or, List.nodup_append] at hnd
      obtain ⟨⟨hcc, hcn⟩, hndc, hndn, hdisj⟩ := hnd
      have hfirst : (Placed.cons cell child next).first = some cell.addr := rfl
      obtain ⟨hcelltexts, hrest, hcelldisj⟩ := nodup_append_map htexts
      obtain ⟨hchildtexts, hnexttexts, htextdisj⟩ := nodup_append_map hrest
      obtain ⟨hvaluetexts, hnametexts, hstringdisj⟩ := nodup_append_map hcelltexts
      -- the children
      obtain ⟨m₁, hdel₁, hitems₁, htexts₁⟩ :=
        ihc hchild hndc hchildtexts (show child.addrs.length ≤ fuel by omega)
      have hown : ∀ t ∈ cell.texts, m₁.texts t.1 = some t.2 := by
        intro t ht
        have hout : t.1 ∉ child.texts.map Prod.fst :=
          fun hin => hcelldisj t ht (by rw [List.map_append]; exact List.mem_append_left _ hin)
        rw [htexts₁, if_neg hout, hstrings t ht]
      -- its strings
      obtain ⟨m₂, hdel₂, hitems₂, htexts₂⟩ := freeText_ok
        (fun t ht => hown t (ItemCell.mem_valuestring ht))
      obtain ⟨m₃, hdel₃, hitems₃, htexts₃⟩ : ∃ m₃, freeText m₂ (cell.string.map Prod.fst) = .ok m₃ ∧
          m₃.items = m₂.items ∧ ∀ a, m₃.texts a =
            if cell.string.map Prod.fst = some a then none else m₂.texts a := by
        apply freeText_ok
        intro t ht
        have hother : ¬ cell.valuestring.map Prod.fst = some t.1 := by
          intro hsame
          obtain ⟨v, hv, hvt⟩ := Option.map_eq_some_iff.mp hsame
          refine hstringdisj v (Option.mem_toList.mpr hv) ?_
          rw [hvt]
          exact List.mem_map_of_mem (Option.mem_toList.mpr ht)
        rw [htexts₂, if_neg hother, hown t (ItemCell.mem_string ht)]
      -- the item itself
      have hcell₃ : m₃.items cell.addr = some (cell.node prev child.first next.first) := by
        rw [hitems₃, hitems₂, hitems₁, if_neg hcc, hcell]
      -- and what is behind it
      obtain ⟨m₄, hdel₄, hitems₄, htexts₄⟩ : ∃ m₄, cJSONDelete fuel next.first
          { m₃ with items := Function.update m₃.items cell.addr none } = .ok m₄ ∧
          (∀ a, m₄.items a = if a ∈ next.addrs then none
            else Function.update m₃.items cell.addr none a) ∧
          ∀ a, m₄.texts a = if a ∈ next.texts.map Prod.fst then none else m₃.texts a := by
        refine ihn (hnext.congr ?_ ?_) hndn hnexttexts (by omega)
        · intro a ha
          have hne : a ≠ cell.addr := by
            rintro rfl
            exact hcn ha
          have hout : a ∉ child.addrs := fun hin => hdisj a hin a ha rfl
          dsimp only
          rw [Function.update_of_ne hne, hitems₃, hitems₂, hitems₁, if_neg hout]
        · intro t ht
          have hin := List.mem_map_of_mem (f := Prod.fst) ht
          have hout : t.1 ∉ child.texts.map Prod.fst := by
            intro hc
            obtain ⟨t', ht', hsame⟩ := List.mem_map.mp hc
            exact htextdisj t' ht' (hsame ▸ hin)
          have hcell : ∀ t' ∈ cell.texts, t'.1 ≠ t.1 := by
            intro t' ht' hsame
            refine hcelldisj t' ht' ?_
            rw [List.map_append, hsame]
            exact List.mem_append_right _ hin
          have hname : ¬ cell.string.map Prod.fst = some t.1 := by
            intro hsame
            obtain ⟨v, hv, hvt⟩ := Option.map_eq_some_iff.mp hsame
            exact hcell v (ItemCell.mem_string hv) hvt
          have hvalue : ¬ cell.valuestring.map Prod.fst = some t.1 := by
            intro hsame
            obtain ⟨v, hv, hvt⟩ := Option.map_eq_some_iff.mp hsame
            exact hcell v (ItemCell.mem_valuestring hv) hvt
          dsimp only
          rw [htexts₃, if_neg hname, htexts₂, if_neg hvalue, htexts₁, if_neg hout]
      refine ⟨m₄, ?_, ?_, ?_⟩
      · rw [hfirst, cJSONDelete, Heap.read_ok hcell, ok_bind]
        simp only [ItemCell.node, hdel₁, hdel₂, hdel₃, ok_bind, Heap.free_ok hcell₃, hdel₄]
      · intro a
        rw [hitems₄, hitems₃, hitems₂]
        by_cases hn : a ∈ next.addrs
        · rw [if_pos hn, if_pos (mem_next hn)]
        · rw [if_neg hn]
          by_cases hc : a = cell.addr
          · subst hc
            rw [Function.update_self, if_pos (by simp [addrs])]
          · rw [Function.update_of_ne hc, hitems₁]
            simp only [addrs, List.mem_cons, List.mem_append, hc, hn, false_or, or_false]
      · intro a
        have hopt : ∀ o : Option (Ptr × CText),
            a ∈ o.toList.map Prod.fst ↔ o.map Prod.fst = some a := by
          intro o
          cases o with
          | none => simp
          | some t => simp [eq_comm]
        rw [htexts₄, htexts₃, htexts₂, htexts₁]
        simp only [texts, ItemCell.texts, List.map_append, List.mem_append, hopt]
        split_ifs <;> tauto

end MonkeyCache
