import MonkeyCache.Json

/-!
# The text of a tree

`render` is the text of a tree as a function of the tree, without blocks and lengths.
`cJSONPrint_fits` says when the code returns this text.  Nothing checks that a text fits
into its block, and there are two ways in which it does not.  `print_number` takes 64
bytes where the number is not an `int`, and the digits of a large `double` are more than
that (`FitsBlock`).  And the lengths are `int`s: beyond `INT_MAX` the block of a string is
of no defined size, and that of an array or an object is too small or has a negative one.
`Item.Fits` excludes just these.

* `Writes`, `Fills` — what is written into a block, and a block that is returned.
* `Yields` — a block, with the size it is asked for.
* `printItems_yields` — a chain, by induction on it.
* `fits_of_short` — a text of up to 10^9 bytes has no length that is too large.
-/

namespace MonkeyCache

open Fallible

variable {D : Type}

/-! ## Texts -/

/-- One character of a string. -/
def escapeChar (token : Byte) : Bytes :=
  if 31 < token ∧ token ≠ Chr.quote ∧ token ≠ Chr.backslash then [token]
  else Chr.backslash :: if hasShortEscape token then [shortEscape token] else hexEscape token

/-- A string between its quotes. -/
def quoted (str : CText) : Bytes := Chr.quote :: (str.1.flatMap escapeChar ++ [Chr.quote])

/-- A name or a string, or nothing for `NULL`. -/
def nameText : Option CText → Bytes
  | none => []
  | some str => quoted str

/-- A number. -/
def numberText (F : CDouble D) (d : D) : Bytes :=
  if F.isInt d then decimal (F.toInt d) else F.sprintf d

/-- The entries of an array. -/
def arrayBody (fmt : Bool) : List Bytes → Bytes
  | [] => []
  | entry :: entries =>
    entry ++ (if entries = [] then [] else Chr.comma :: if fmt then [Chr.space] else []) ++
      arrayBody fmt entries

/-- An array. -/
def arrayText (fmt : Bool) (entries : List Bytes) : Bytes :=
  Chr.openBracket :: (arrayBody fmt entries ++ [Chr.closeBracket])

/-- The entries of an object. -/
def objectBody (fmt : Bool) (depth : Nat) : List (Bytes × Bytes) → Bytes
  | [] => []
  | e :: entries =>
    (if fmt then List.replicate depth Chr.tab else []) ++ e.1 ++
      (Chr.colon :: if fmt then [Chr.tab] else []) ++ e.2 ++
      (if entries ≠ [] then [Chr.comma] else []) ++ (if fmt then [Chr.newline] else []) ++
      objectBody fmt depth entries

/-- An object. -/
def objectText (fmt : Bool) (depth : Nat) (entries : List (Bytes × Bytes)) : Bytes :=
  (Chr.openBrace :: if fmt then [Chr.newline] else []) ++ objectBody fmt depth entries ++
    (if fmt then List.replicate (depth - 1) Chr.tab else []) ++ [Chr.closeBrace]

/-- An item; `children` are the names and the values below it. -/
def valueText (F : CDouble D) (fmt : Bool) (depth : Nat) (kind : JsonKind D)
    (children : Bool → List (Bytes × Bytes)) : Bytes :=
  match kind with
  | .null => ascii "null"
  | .false => ascii "false"
  | .true => ascii "true"
  | .number d => numberText F d
  | .string s => nameText s
  | .array => arrayText fmt ((children false).map Prod.snd)
  | .object => objectText fmt (depth + 1) (children true)

/-- The names and the values of a chain. -/
def render (F : CDouble D) (fmt : Bool) : Bool → Nat → Items D → List (Bytes × Bytes)
  | _, _, .nil => []
  | named, depth, .cons string kind child next =>
    (nameText (if named then string else none),
      valueText F fmt depth kind (fun named => render F fmt named (depth + 1) child)) ::
    render F fmt named depth next

/-- The text of a tree. -/
def treeText (F : CDouble D) (fmt : Bool) (item : Item D) : Bytes :=
  valueText F fmt 0 item.1 (fun named => render F fmt named 1 item.2)

/-- The number's text and its terminator fit into the block of `print_number`. -/
def FitsBlock (F : CDouble D) (d : D) : Prop := F.isInt d ∨ (F.sprintf d).length < 64

/-- An item whose number satisfies `P`, or whose children do. -/
def JsonKind.Every (P : D → Prop) (kind : JsonKind D) (child : Prop) : Prop :=
  match kind with
  | .number d => P d
  | .array => child
  | .object => child
  | _ => True

/-- Every number of a chain that is printed satisfies `P`. -/
def Items.Every (P : D → Prop) : Items D → Prop
  | .nil => True
  | .cons _ kind child next => kind.Every P (child.Every P) ∧ next.Every P

/-- The same for a tree. -/
def Item.Every (P : D → Prop) (item : Item D) : Prop := item.1.Every P (item.2.Every P)

section Every

variable {P Q : D → Prop}

/-- A weaker condition on the numbers of an item. -/
theorem JsonKind.Every.mono {kind : JsonKind D} {child child' : Prop} (h : kind.Every P child)
    (hPQ : ∀ d, P d → Q d) (hchild : child → child') : kind.Every Q child' := by
  cases kind with
  | number d => exact hPQ d h
  | array => exact hchild h
  | object => exact hchild h
  | _ => trivial

/-- A weaker condition on the numbers of a chain. -/
theorem Items.Every.mono {items : Items D} (h : items.Every P) (hPQ : ∀ d, P d → Q d) :
    items.Every Q := by
  induction items with
  | nil => trivial
  | cons string kind child next ihc ihn => exact ⟨h.1.mono hPQ ihc, ihn h.2⟩

/-- A weaker condition on the numbers of a tree. -/
theorem Item.Every.mono {item : Item D} (h : Item.Every P item) (hPQ : ∀ d, P d → Q d) :
    Item.Every Q item :=
  JsonKind.Every.mono h hPQ (fun hc => hc.mono hPQ)

end Every

/-! ## Lengths -/

/-- What the entries of an array add to `len`. -/
def arraySize (fmt : Bool) (entries : List Bytes) : Nat :=
  (entries.map (fun e => e.length + 2 + if fmt then 1 else 0)).sum

/-- What the names and the entries of an object add to `len`. -/
def objectSize (fmt : Bool) (depth : Nat) (entries : List (Bytes × Bytes)) : Nat :=
  (entries.map (fun e => e.2.length + e.1.length + 2 + if fmt then 2 + depth else 0)).sum

/-- What `len` is in `print_object` before the entries. -/
def objectFrame (fmt : Bool) (depth : Nat) : Nat := 7 + if fmt then depth + 1 else 0

/-- An item at `depth` whose own length is an `int`; `texts` and `fits` are the names and the
values below it, and whether these fit. -/
def JsonKind.Fits (F : CDouble D) (fmt : Bool) (depth : Nat) (kind : JsonKind D)
    (texts : Bool → List (Bytes × Bytes)) (fits : Bool → Prop) : Prop :=
  match kind with
  | .number d => FitsBlock F d
  | .string s => ((nameText s).length : Int) < intMax
  | .array => fits .false ∧ ((5 + arraySize fmt ((texts .false).map Prod.snd) : Nat) : Int) ≤ intMax
  | .object => fits .true ∧
      ((objectFrame fmt depth + objectSize fmt (depth + 1) (texts .true) : Nat) : Int) ≤ intMax
  | _ => True

/-- A chain, in an object or in an array, in which every text has a block of its size. -/
def Items.Fits (F : CDouble D) (fmt : Bool) : Bool → Nat → Items D → Prop
  | _, _, .nil => True
  | named, depth, .cons string kind child next =>
    ((nameText (if named then string else none)).length : Int) < intMax ∧
      kind.Fits F fmt depth (fun named => render F fmt named (depth + 1) child)
        (fun named => child.Fits F fmt named (depth + 1)) ∧
      next.Fits F fmt named depth

/-- **Every text of the tree has a block of its size**: no number is longer than the 64 bytes,
and no length is beyond `INT_MAX`. -/
def Item.Fits (F : CDouble D) (fmt : Bool) (item : Item D) : Prop :=
  item.1.Fits F fmt 0 (fun named => render F fmt named 1 item.2)
    (fun named => item.2.Fits F fmt named 1)

/-! ## Writing into a block -/

/-- A step writes `s` behind the text of `b`; it writes outside only where this is as long as
the block. -/
def Writes (b : OutBuf) (s : Bytes) (x : Except JsonStop OutBuf) : Prop :=
  Ensures x (fun b' => b' = ⟨b.cap, b.text ++ s⟩)
    (fun e => e = .overflow ∧ b.cap ≤ b.text.length + s.length)

/-- The rest of a function writes `t` and returns the whole text; it writes outside just where
there is no place for the text and its terminator. -/
def Fills (b : OutBuf) (t : Bytes) (x : Except JsonStop Bytes) : Prop :=
  Ensures x (fun r => r = b.text ++ t ∧ b.text.length + t.length < b.cap)
    (fun e => e = .overflow ∧ b.cap ≤ b.text.length + t.length)

section Writes

variable {b : OutBuf} {s t : Bytes} {x : Except JsonStop OutBuf}

/-- One step after another. -/
theorem Writes.bind {f : OutBuf → Except JsonStop OutBuf} (hx : Writes b s x)
    (hf : Writes ⟨b.cap, b.text ++ s⟩ t (f ⟨b.cap, b.text ++ s⟩)) :
    Writes b (s ++ t) (x >>= f) := by
  cases x with
  | ok b' =>
    obtain rfl : b' = _ := hx
    simpa only [Writes, ok_bind, List.append_assoc, List.length_append, Nat.add_assoc] using hf
  | error e => exact ⟨hx.1, by have := hx.2; rw [List.length_append]; omega⟩

/-- A step, and then the rest of the function. -/
theorem Writes.fills {f : OutBuf → Except JsonStop Bytes} (hx : Writes b s x)
    (hf : Fills ⟨b.cap, b.text ++ s⟩ t (f ⟨b.cap, b.text ++ s⟩)) :
    Fills b (s ++ t) (x >>= f) := by
  cases x with
  | ok b' =>
    obtain rfl : b' = _ := hx
    simpa only [Fills, ok_bind, List.append_assoc, List.length_append, Nat.add_assoc] using hf
  | error e => exact ⟨hx.1, by have := hx.2; rw [List.length_append]; omega⟩

/-- Nothing is written. -/
theorem writes_ok : Writes b [] (.ok b) := by
  simp [Writes]

/-- `*ptr++=c` -/
theorem put_writes (c : Byte) : Writes b [c] (b.put c) :=
  Ensures.ite (fun _ => rfl) (fun h => ⟨rfl, by rw [List.length_singleton]; omega⟩)

/-- `if (cond) *ptr++=c` -/
theorem putIf_writes (cond : Bool) (c : Byte) :
    Writes b (if cond then [c] else []) (b.putIf cond c) := by
  cases cond with
  | false => exact writes_ok
  | true => exact put_writes c

/-- `strcpy` -/
theorem strcpy_writes (s : Bytes) : Writes b s (b.strcpy s) :=
  Ensures.ite (fun _ => rfl) (fun h => ⟨rfl, by omega⟩)

/-- `*ptr=0` -/
theorem term_writes : Writes b [] b.term :=
  Ensures.ite (fun _ => by simp) (fun h => ⟨rfl, by rw [List.length_nil]; omega⟩)

/-- The same character, again and again. -/
theorem puts_writes (c : Byte) (n : Nat) : Writes b (List.replicate n c) (OutBuf.puts c n b) := by
  induction n generalizing b with
  | zero => exact writes_ok
  | succ n ih => exact (put_writes c).bind ih

/-- Indentation. -/
theorem putsIf_writes (cond : Bool) (n : Nat) (c : Byte) :
    Writes b (if cond then List.replicate n c else []) (b.putsIf cond n c) := by
  cases cond with
  | false => exact writes_ok
  | true => exact puts_writes c n

/-- `*ptr++=0;return out` -/
theorem finish_fills : Fills b [] b.finish :=
  Ensures.ite (fun h => ⟨(List.append_nil _).symm, h⟩)
    (fun h => ⟨rfl, by rw [List.length_nil]; omega⟩)

/-- A text is copied and returned. -/
theorem strcpy_fills (s : Bytes) : Fills b s (do let b ← b.strcpy s; .ok b.text) := by
  unfold OutBuf.strcpy
  split
  · rename_i hlt
    exact ⟨rfl, hlt⟩
  · rename_i hge
    exact ⟨rfl, not_lt.mp hge⟩

end Writes

/-! ## Taking a block -/

/-- A call yields `a` just where `fits` holds, and `0` where a block is refused (`refused`);
where it does not hold, something goes wrong. -/
def Yields {α : Type} (refused : Prop) (x : Except JsonStop α) (a : α) (fits : Prop) : Prop :=
  Ensures x (fun r => r = a ∧ fits)
    (fun e => e = .memory ∧ refused ∨ ¬ fits ∧ e ∈ [.memory, .overflow, .range])

section Yields

variable {α β γ : Type} {R p q r : Prop} {a : α} {b : β} {c : γ} {x : Except JsonStop α}
  {f : α → Except JsonStop β}

/-- One call after another; the second one matters where the first one fits. -/
theorem Yields.bind (hx : Yields R x a p) (hf : p → Yields R (f a) b q) :
    Yields R (x >>= f) b (p ∧ q) := by
  cases x with
  | ok r =>
    obtain ⟨rfl, hp⟩ := hx
    exact (hf hp).mono (fun _ hr => ⟨hr.1, hp, hr.2⟩)
      (fun _ he => he.imp_right (fun h => ⟨fun hpq => h.1 hpq.2, h.2⟩))
  | error e => exact Or.imp_right (fun h => ⟨fun hpq => h.1 hpq.1, h.2⟩) hx

/-- The same condition in other words. -/
theorem Yields.congr (hx : Yields R x a p) (h : p ↔ q) : Yields R x a q := by
  rw [← propext h]
  exact hx

/-- A call that fits gives its result. -/
theorem Yields.gives {g : Grants} (hx : Yields g.Refuses x a p) (hp : p) : Gives g x a :=
  hx.mono (fun _ hr => hr.1) (fun _ he => he.resolve_right (fun h => h.1 hp))

/-- A call that does not fit gives nothing. -/
theorem Yields.fails (hx : Yields R x a p) (hp : ¬ p) :
    ∃ e, x = .error e ∧ e ∈ [JsonStop.memory, .overflow, .range] := by
  cases x with
  | ok r => exact absurd hx.2 hp
  | error e =>
    refine ⟨e, rfl, ?_⟩
    rcases hx with ⟨rfl, -⟩ | ⟨-, he⟩
    · decide
    · exact he

/-- A call whose `NULL` is looked at later. -/
theorem Yields.nullable (hx : Yields R x a p) :
    Ensures (orNull x) (fun o => o = some a ∧ p ∨ o = none ∧ (R ∨ ¬ p))
      (fun e => ¬ p ∧ e ∈ [JsonStop.memory, .overflow, .range]) := by
  cases x with
  | ok r =>
    obtain ⟨rfl, hp⟩ := hx
    exact .inl ⟨rfl, hp⟩
  | error e =>
    rcases hx with ⟨rfl, hR⟩ | ⟨hp, he⟩
    · exact .inr ⟨rfl, .inl hR⟩
    · cases e with
      | memory => exact .inr ⟨rfl, .inr hp⟩
      | _ => exact ⟨hp, he⟩

/-- **A block and what is written into it.**  It fits if its size is more than the text. -/
theorem Yields.block {granted : Bool} {size : Int} {t : Bytes} {f : OutBuf → Except JsonStop Bytes}
    (hR : granted = false → R) (hf : Fills ⟨size.toNat, []⟩ t (f ⟨size.toNat, []⟩)) :
    Yields R (cJSONMalloc granted size >>= f) t ((t.length : Int) < size) := by
  unfold cJSONMalloc
  split
  · rename_i hok
    refine Ensures.mono hf (fun r hr => ⟨hr.1, ?_⟩) (fun e he => .inr ⟨?_, by rw [he.1]; decide⟩)
    · have hlt := hr.2
      simp only [List.length_nil] at hlt
      omega
    · have hge := he.2
      simp only [List.length_nil] at hge
      omega
  · rename_i hno
    by_cases hg : granted
    · exact .inr ⟨by have := not_and.mp hno hg; omega, by decide⟩
    · exact .inl ⟨rfl, hR (by simpa using hg)⟩

end Yields

variable {F : CDouble D} {R : Prop} {granted fmt : Bool}

/-- `cJSON_strdup` -/
theorem dupText_yields (hR : granted = false → R) (s : Bytes) :
    Yields R (dupText granted s) s True :=
  (Yields.block hR (strcpy_fills s)).congr (iff_true_intro (by omega))

/-! ## Strings -/

/-- What `print_string_ptr` counts for a character is what it writes for it. -/
theorem escapeChar_length (token : Byte) : (escapeChar token).length =
    1 + if hasShortEscape token then 1 else if token < 32 then 5 else 0 := by
  by_cases hp : 31 < token ∧ token ≠ Chr.quote ∧ token ≠ Chr.backslash
  · have hshort : hasShortEscape token = false := by
      simp [hasShortEscape]
      grind
    have hlow : ¬ token < 32 := by grind
    simp [escapeChar, hp, hshort, hlow]
  · by_cases hshort : hasShortEscape token
    · simp [escapeChar, hp, hshort]
    · have hlow : token < 32 := by
        simp [hasShortEscape] at hshort
        grind
      simp [escapeChar, hp, hshort, hlow, hexEscape]

/-- The sum of two `int`s, where it is one. -/
theorem addInt_yields (a b : Int) : Yields R (addInt a b) (a + b) (a + b ≤ intMax) := by
  unfold addInt
  split
  · exact .inr ⟨by omega, by decide⟩
  · exact ⟨rfl, by omega⟩

/-- The length of a string. -/
theorem escapedLen_yields (str : Bytes) {len : Int} (hlen : len ≤ intMax) :
    Yields R (escapedLen str len) (len + (str.flatMap escapeChar).length)
      (len + (str.flatMap escapeChar).length ≤ intMax) := by
  induction str generalizing len with
  | nil => exact ⟨by simp, by simpa using hlen⟩
  | cons token str ih =>
    have hone := escapeChar_length token
    have hsum : len + 1 +
        ((if hasShortEscape token then 1 else if token < 32 then 5 else 0 : Int)) +
        (str.flatMap escapeChar).length = len + ((token :: str).flatMap escapeChar).length := by
      rw [List.flatMap_cons, List.length_append, hone]
      push_cast
      omega
    rw [escapedLen, ← hsum]
    refine Yields.congr (Yields.bind (addInt_yields len 1) (fun _ =>
      Yields.bind (addInt_yields (len + 1) _) (fun h => ih h))) ?_
    refine ⟨fun h => h.2.2, fun h => ⟨?_, ?_, h⟩⟩
    all_goals
      split_ifs at h ⊢ <;> omega

/-- The loop of `print_string_ptr` that writes. -/
theorem printEscaped_writes (str : Bytes) {b : OutBuf} :
    Writes b (str.flatMap escapeChar) (printEscaped str b) := by
  induction str generalizing b with
  | nil => exact writes_ok
  | cons token str ih =>
    rw [printEscaped, List.flatMap_cons]
    by_cases hp : 31 < token ∧ token ≠ Chr.quote ∧ token ≠ Chr.backslash
    · have hone : escapeChar token = [token] := by simp [escapeChar, hp]
      rw [if_pos hp, hone]
      exact (put_writes token).bind ih
    · rw [if_neg hp]
      by_cases hshort : hasShortEscape token
      · have hone : escapeChar token = [Chr.backslash] ++ [shortEscape token] := by
          simp [escapeChar, hp, hshort]
        rw [hone, List.append_assoc]
        simp only [if_pos hshort]
        exact (put_writes _).bind ((put_writes _).bind ih)
      · have hone : escapeChar token = [Chr.backslash] ++ hexEscape token := by
          simp [escapeChar, hp, hshort]
        rw [hone, List.append_assoc]
        simp only [if_neg hshort]
        exact (put_writes _).bind ((strcpy_writes _).bind ih)

/-- `print_string_ptr` -/
theorem printStringPtr_yields (hR : granted = false → R) (str : Option CText) :
    Yields R (printStringPtr granted str) (nameText str)
      (((nameText str).length : Int) < intMax) := by
  cases str with
  | none => exact (dupText_yields hR []).congr (iff_of_true trivial (by decide))
  | some str =>
    have hfills : ∀ b : OutBuf, Fills b (quoted str) (do
        let b ← b.put Chr.quote
        let b ← printEscaped str.1 b
        let b ← b.put Chr.quote
        b.finish) :=
      fun b => (put_writes _).fills
        ((printEscaped_writes str.1).fills ((put_writes _).fills finish_fills))
    have hlen : ((nameText (some str)).length : Int) = (str.1.flatMap escapeChar).length + 2 := by
      simp [nameText, quoted]
      omega
    rw [printStringPtr]
    refine Yields.congr (Yields.bind (escapedLen_yields str.1 (by decide)) (fun _ =>
      Yields.bind (addInt_yields _ 3) (fun _ => Yields.block hR (hfills _)))) ?_
    rw [hlen]
    omega

/-! ## Numbers -/

/-- A number below `10 ^ k` has `k` digits at most. -/
theorem decimalNat_length {n k : Nat} (hk : 0 < k) (h : n < 10 ^ k) :
    (decimalNat n).length ≤ k := by
  unfold decimalNat
  split
  · exact hk
  · have hlen := (Nat.digits_length_le_iff (b := 10) (k := k) (by decide) n).mpr h
    simpa using hlen

/-- An `int` and its sign take eleven characters at most. -/
theorem decimal_length (i : CInt) : (decimal i).length ≤ 11 := by
  have hbounds := i.2
  simp only [intMin, intMax] at hbounds
  have hnat : (decimalNat i.1.natAbs).length ≤ 10 :=
    decimalNat_length (by decide) (by omega)
  unfold decimal
  split
  · simp only [List.length_cons]
    omega
  · omega

/-- `print_number` -/
theorem printNumber_yields (hR : granted = false → R) (d : D) :
    Yields R (printNumber F granted d) (numberText F d) (FitsBlock F d) := by
  unfold printNumber numberText FitsBlock
  by_cases hi : F.isInt d
  · have hdec := decimal_length (F.toInt d)
    simp only [if_pos hi]
    exact (Yields.block hR (strcpy_fills _)).congr (iff_of_true (by omega) (.inl hi))
  · simp only [if_neg hi]
    exact (Yields.block hR (strcpy_fills _)).congr (by simp [hi])

/-! ## Arrays and objects -/

/-- A length that was cut to an `int` is still more than its text only where it was not cut. -/
theorem bmod_fits {size len : Nat} (hlt : len < size) (hle : size ≤ 2 * len + 7) :
    (len : Int) < (size : Int).bmod (2 ^ 32) ↔ (size : Int) ≤ intMax := by
  rw [Int.bmod_def]
  unfold intMax
  constructor
  · intro h
    split at h <;> omega
  · intro h
    rw [if_pos (by omega)]
    omega

/-- `print_array` adds up what the entries need. -/
theorem arrayLen_eq (fmt : Bool) (entries : List Bytes) (len : Int) :
    arrayLen fmt entries (len.bmod (2 ^ 32)) = (len + arraySize fmt entries).bmod (2 ^ 32) := by
  induction entries generalizing len with
  | nil => simp [arrayLen, arraySize]
  | cons e entries ih =>
    have hcons : arraySize fmt (e :: entries) =
        (e.length + 2 + if fmt then 1 else 0) + arraySize fmt entries := by simp [arraySize]
    rw [arrayLen, addSize, Int.bmod_add_bmod, ih, hcons]
    simp only [Nat.cast_add, add_assoc]

/-- `print_object` does. -/
theorem objectLen_eq (fmt : Bool) (depth : Nat) (entries : List (Bytes × Bytes)) (len : Int) :
    objectLen fmt depth entries (len.bmod (2 ^ 32)) =
      (len + objectSize fmt depth entries).bmod (2 ^ 32) := by
  induction entries generalizing len with
  | nil => simp [objectLen, objectSize]
  | cons e entries ih =>
    have hcons : objectSize fmt depth (e :: entries) =
        (e.2.length + e.1.length + 2 + if fmt then 2 + depth else 0) +
          objectSize fmt depth entries := by simp [objectSize]
    rw [objectLen, addSize, Int.bmod_add_bmod, ih, hcons]
    simp only [Nat.cast_add, add_assoc]

/-- The entries and their separators are counted, and twice as much is not. -/
theorem arrayBody_length (fmt : Bool) (entries : List Bytes) :
    (arrayBody fmt entries).length ≤ arraySize fmt entries ∧
      arraySize fmt entries ≤ 2 * (arrayBody fmt entries).length + 3 := by
  induction entries with
  | nil => simp [arrayBody, arraySize]
  | cons entry entries ih =>
    have hsize : arraySize fmt (entry :: entries) =
        (entry.length + 2 + if fmt then 1 else 0) + arraySize fmt entries := by simp [arraySize]
    have hbody : (arrayBody fmt (entry :: entries)).length = entry.length +
        (if entries = [] then 0 else 1 + if fmt then 1 else 0) +
          (arrayBody fmt entries).length := by
      cases fmt <;> by_cases hlast : entries = [] <;> simp [arrayBody, hlast] <;> omega
    by_cases hlast : entries = []
    · subst hlast
      simp [arraySize, arrayBody] at hsize hbody ⊢
      split <;> omega
    · rw [hsize, hbody, if_neg hlast]
      cases fmt <;> simp only [Bool.false_eq_true, if_false, if_true] <;> omega

/-- The loop of `print_array`. -/
theorem composeArray_writes (fmt : Bool) (entries : List Bytes) {b : OutBuf} :
    Writes b (arrayBody fmt entries) (composeArray fmt entries b) := by
  induction entries generalizing b with
  | nil => exact writes_ok
  | cons entry entries ih =>
    rw [composeArray, arrayBody, List.append_assoc]
    refine (strcpy_writes entry).bind ?_
    by_cases hlast : entries = []
    · subst hlast
      exact writes_ok
    · simp only [if_neg hlast]
      exact (put_writes Chr.comma).bind ((putIf_writes fmt Chr.space).bind
        (term_writes.bind ih))

/-- `print_array` -/
theorem printArray_yields (hR : granted = false → R) (fmt : Bool) (entries : List Bytes) :
    Yields R (printArray granted fmt entries) (arrayText fmt entries)
      (((5 + arraySize fmt entries : Nat) : Int) ≤ intMax) := by
  have hbody := arrayBody_length fmt entries
  have htext : (arrayText fmt entries).length = (arrayBody fmt entries).length + 2 := by
    simp [arrayText]
  have hlen : arrayLen fmt entries 5 = ((5 + arraySize fmt entries : Nat) : Int).bmod (2 ^ 32) := by
    have hsum := arrayLen_eq fmt entries 5
    rw [Nat.cast_add]
    exact hsum
  have hfills : ∀ b : OutBuf, Fills b (arrayText fmt entries) (do
      let b ← b.put Chr.openBracket
      let b ← b.term
      let b ← composeArray fmt entries b
      let b ← b.put Chr.closeBracket
      b.finish) :=
    fun b => (put_writes _).fills (term_writes.fills
      ((composeArray_writes fmt entries).fills ((put_writes _).fills finish_fills)))
  rw [printArray, hlen]
  exact (Yields.block hR (hfills _)).congr (bmod_fits (by omega) (by omega))

/-- What one entry of an object takes. -/
theorem objectEntry_length (fmt : Bool) (depth : Nat) (e : Bytes × Bytes)
    (entries : List (Bytes × Bytes)) :
    (objectBody fmt depth (e :: entries)).length = (if fmt then depth + 2 else 0) + e.1.length +
      e.2.length + 1 + (if entries = [] then 0 else 1) + (objectBody fmt depth entries).length := by
  cases fmt with
  | false =>
    by_cases hlast : entries = [] <;> simp [objectBody, hlast] <;> omega
  | true =>
    by_cases hlast : entries = [] <;> simp [objectBody, hlast] <;> omega

/-- The names, the entries and what stands between them are counted, and twice as much is
not. -/
theorem objectBody_length (fmt : Bool) (depth : Nat) (entries : List (Bytes × Bytes)) :
    (objectBody fmt depth entries).length ≤ objectSize fmt depth entries ∧
      objectSize fmt depth entries ≤ 2 * (objectBody fmt depth entries).length := by
  induction entries with
  | nil => simp [objectBody, objectSize]
  | cons e entries ih =>
    have hsize : objectSize fmt depth (e :: entries) =
        (e.2.length + e.1.length + 2 + if fmt then 2 + depth else 0) +
          objectSize fmt depth entries := by simp [objectSize]
    rw [hsize, objectEntry_length]
    cases fmt <;> simp only [Bool.false_eq_true, if_false, if_true] <;> split <;> omega

/-- The loop of `print_object`. -/
theorem composeObject_writes (fmt : Bool) (depth : Nat) (entries : List (Bytes × Bytes))
    {b : OutBuf} :
    Writes b (objectBody fmt depth entries) (composeObject fmt depth entries b) := by
  induction entries generalizing b with
  | nil => exact writes_ok
  | cons e entries ih =>
    have hcolon : (Chr.colon :: if fmt then [Chr.tab] else []) =
        [Chr.colon] ++ if fmt then [Chr.tab] else [] := rfl
    have hcomma : (if decide (entries ≠ []) then [Chr.comma] else []) =
        if entries ≠ [] then [Chr.comma] else [] := by
      simp
    rw [composeObject, objectBody, hcolon, ← hcomma]
    simp only [List.append_assoc]
    exact (putsIf_writes fmt depth Chr.tab).bind ((strcpy_writes e.1).bind
      ((put_writes Chr.colon).bind ((putIf_writes fmt Chr.tab).bind ((strcpy_writes e.2).bind
        ((putIf_writes _ Chr.comma).bind ((putIf_writes fmt Chr.newline).bind
          (term_writes.bind ih)))))))

/-- `print_object`, with the length that it has before the entries. -/
theorem printObject_yields (hR : granted = false → R) (fmt : Bool) (depth : Nat)
    (entries : List (Bytes × Bytes)) (hframe : (objectFrame fmt depth : Int) ≤ intMax) :
    Yields R (printObject granted fmt (depth + 1) (objectFrame fmt depth) entries)
      (objectText fmt (depth + 1) entries)
      (((objectFrame fmt depth + objectSize fmt (depth + 1) entries : Nat) : Int) ≤ intMax) := by
  have hbody := objectBody_length fmt (depth + 1) entries
  have htext : (objectText fmt (depth + 1) entries).length =
      (objectBody fmt (depth + 1) entries).length + 2 + if fmt then depth + 1 else 0 := by
    cases fmt <;> simp [objectText]
    omega
  have hlen : objectLen fmt (depth + 1) entries (objectFrame fmt depth) =
      ((objectFrame fmt depth + objectSize fmt (depth + 1) entries : Nat) : Int).bmod (2 ^ 32) := by
    have hself : ((objectFrame fmt depth : Nat) : Int).bmod (2 ^ 32) =
        (objectFrame fmt depth : Nat) := by
      unfold intMax at hframe
      exact Int.bmod_eq_of_le_mul_two (by omega) (by omega)
    rw [Nat.cast_add, ← objectLen_eq, hself]
  have hfills : ∀ b : OutBuf, Fills b (objectText fmt (depth + 1) entries) (do
      let b ← b.put Chr.openBrace
      let b ← b.putIf fmt Chr.newline
      let b ← b.term
      let b ← composeObject fmt (depth + 1) entries b
      let b ← b.putsIf fmt (depth + 1 - 1) Chr.tab
      let b ← b.put Chr.closeBrace
      b.finish) := by
    intro b
    have hopen : (Chr.openBrace :: if fmt then [Chr.newline] else []) =
        [Chr.openBrace] ++ if fmt then [Chr.newline] else [] := rfl
    rw [objectText, hopen]
    simp only [List.append_assoc]
    exact (put_writes _).fills ((putIf_writes fmt _).fills (term_writes.fills
      ((composeObject_writes fmt (depth + 1) entries).fills
        ((putsIf_writes fmt _ _).fills ((put_writes _).fills finish_fills)))))
  rw [printObject, hlen]
  unfold objectFrame at hbody ⊢
  refine (Yields.block hR (hfills _)).congr (bmod_fits ?_ ?_)
  all_goals
    rw [htext]
    split <;> omega

/-! ## Trees -/

/-- No name is short. -/
theorem nameText_none : ((nameText none).length : Int) < intMax := by decide

/-- The number of items of a chain. -/
def Items.count : Items D → Nat
  | .nil => 0
  | .cons _ _ _ next => next.count + 1

/-- An entry for each item. -/
theorem render_length (F : CDouble D) (fmt named : Bool) (depth : Nat) (items : Items D) :
    (render F fmt named depth items).length = items.count := by
  induction items with
  | nil => rfl
  | cons string kind child next ihc ihn => rw [render, List.length_cons, ihn, Items.count]

/-- The chain is counted. -/
theorem numentries_yields (child : Items D) {n : Int} (hn : n ≤ intMax) :
    Yields R (numentries child n) (n + child.count) (n + child.count ≤ intMax) := by
  induction child generalizing n with
  | nil => exact ⟨by simp [Items.count], by simpa [Items.count] using hn⟩
  | cons string kind child next ihc ihn =>
    have hsum : n + 1 + next.count = n + (Items.cons string kind child next).count := by
      simp [Items.count]
      omega
    rw [numentries, ← hsum]
    exact Yields.congr (Yields.bind (addInt_yields n 1) (fun h => ihn h))
      ⟨fun h => h.2, fun h => ⟨by omega, h⟩⟩

/-- The pointers of the entries take a block of their own. -/
theorem mallocEntries_yields (hR : granted = false → R) (child : Items D) :
    Yields R (mallocEntries granted child) () ((child.count : Int) ≤ intMax) := by
  have hblock : ∀ size : Int, 0 ≤ size →
      Yields R (do let _ ← cJSONMalloc granted size; .ok ()) () True := by
    intro size hsize
    unfold cJSONMalloc
    split
    · exact ⟨rfl, trivial⟩
    · rename_i hno
      exact .inl ⟨rfl, hR (by simpa [hsize] using hno)⟩
  rw [mallocEntries]
  exact Yields.congr (Yields.bind (numentries_yields child (by decide))
    (fun _ => hblock _ (by omega))) (by simp)

/-- Every entry of an array adds to its length. -/
theorem length_le_arraySize (fmt : Bool) (entries : List Bytes) :
    entries.length ≤ arraySize fmt entries := by
  have hone : ∀ n ∈ entries.map (fun e => e.length + 2 + if fmt then 1 else 0), 1 ≤ n := by
    simp only [List.mem_map]
    rintro n ⟨e, -, rfl⟩
    omega
  have hsum := List.length_le_sum_of_one_le _ hone
  rwa [List.length_map] at hsum

/-- Every entry of an object adds to its length. -/
theorem length_le_objectSize (fmt : Bool) (depth : Nat) (entries : List (Bytes × Bytes)) :
    entries.length ≤ objectSize fmt depth entries := by
  have hone : ∀ n ∈ entries.map (fun e => e.2.length + e.1.length + 2 +
      if fmt then 2 + depth else 0), 1 ≤ n := by
    simp only [List.mem_map]
    rintro n ⟨e, -, rfl⟩
    omega
  have hsum := List.length_le_sum_of_one_le _ hone
  rwa [List.length_map] at hsum

/-- A part of a call is refused further on. -/
theorem Yields.below {α : Type} {g : Grants} {i : Nat} {x : Except JsonStop α} {a : α} {p : Prop}
    (h : Yields (g.below i).Refuses x a p) : Yields g.Refuses x a p :=
  h.imp_error (fun _ he => he.imp_left (fun h => ⟨h.1, h.2.of_below⟩))

/-- **An item**, if its children are printed. -/
theorem printValue_yields (F : CDouble D) (fmt : Bool) (g : Grants) (depth : Nat)
    (kind : JsonKind D) {child : Items D} {texts : Bool → List (Bytes × Bytes)} {fits : Bool → Prop}
    {children : Grants → Bool → Except JsonStop (List (Bytes × Bytes))}
    (hcount : ∀ named, (texts named).length = child.count)
    (hchild : ∀ g named, Yields g.Refuses (children g named) (texts named) (fits named)) :
    Yields g.Refuses (printValue F g fmt depth kind child children)
      (valueText F fmt depth kind texts) (kind.Fits F fmt depth texts fits) := by
  have hR : ∀ place, g place = false → g.Refuses := fun place h => ⟨place, h⟩
  cases kind with
  | null => exact dupText_yields (hR _) _
  | false => exact dupText_yields (hR _) _
  | true => exact dupText_yields (hR _) _
  | number d => exact printNumber_yields (hR _) d
  | string s => exact printStringPtr_yields (hR _) s
  | array =>
    refine Yields.congr (Yields.bind (mallocEntries_yields (hR _) child) (fun _ =>
      Yields.bind (hchild (g.below 1) false).below (fun _ => printArray_yields (hR _) fmt _))) ?_
    have hlen := length_le_arraySize fmt ((texts false).map Prod.snd)
    rw [List.length_map, hcount] at hlen
    exact ⟨fun h => h.2, fun h => ⟨by have := h.2; omega, h⟩⟩
  | object =>
    have hframe : (7 : Int) + (if fmt then (depth : Int) + 1 else 0) =
        (objectFrame fmt depth : Nat) := by
      cases fmt <;> simp [objectFrame]
    have hlen := length_le_objectSize fmt (depth + 1) (texts true)
    rw [hcount] at hlen
    have hlast := fun h => printObject_yields (R := g.Refuses) (hR [2]) fmt depth (texts true) h
    rw [← hframe] at hlast
    refine Yields.congr (Yields.bind (mallocEntries_yields (hR _) child) (fun _ =>
      Yields.bind (mallocEntries_yields (hR _) child) (fun _ =>
        Yields.bind (addInt_yields 7 _) (fun h =>
          Yields.bind (hchild (g.below 1) true).below (fun _ => hlast h))))) ?_
    rw [hframe]
    exact ⟨fun h => h.2.2.2, fun h => by
      have hsum := h.2
      exact ⟨by omega, by omega, by omega, h⟩⟩

/-- `print_object` goes on behind a name or an entry that is `NULL`. -/
theorem Yields.entry {x y : Except JsonStop Bytes} {z : Except JsonStop (List (Bytes × Bytes))}
    {name value : Bytes} {entries : List (Bytes × Bytes)} {p q r : Prop}
    (hx : Yields R x name p) (hy : Yields R y value q) (hz : Yields R z entries r) :
    Yields R (do
      let str ← orNull x
      let ret ← orNull y
      let rest ← orNull z
      match str, ret, rest with
      | some str, some ret, some rest => .ok ((str, ret) :: rest)
      | _, _, _ => .error .memory) ((name, value) :: entries) (p ∧ q ∧ r) := by
  apply (hx.nullable.imp_error (fun e he => Or.inr ⟨fun h => he.1 h.1, he.2⟩)).bind
  intro str hstr
  apply (hy.nullable.imp_error (fun e he => Or.inr ⟨fun h => he.1 h.2.1, he.2⟩)).bind
  intro ret hret
  apply (hz.nullable.imp_error (fun e he => Or.inr ⟨fun h => he.1 h.2.2, he.2⟩)).bind
  intro rest hrest
  have hnull : ∀ {t : Prop}, (p ∧ q ∧ r → t) → R ∨ ¬ t →
      JsonStop.memory = .memory ∧ R ∨
        ¬ (p ∧ q ∧ r) ∧ JsonStop.memory ∈ [.memory, .overflow, JsonStop.range] :=
    fun ht h => h.elim (fun hR => .inl ⟨rfl, hR⟩)
      (fun h => .inr ⟨fun hpqr => h (ht hpqr), by decide⟩)
  rcases hstr with ⟨rfl, hp⟩ | ⟨rfl, hnone⟩
  · rcases hret with ⟨rfl, hq⟩ | ⟨rfl, hnone⟩
    · rcases hrest with ⟨rfl, hr⟩ | ⟨rfl, hnone⟩
      · exact ⟨rfl, hp, hq, hr⟩
      · exact hnull (fun h => h.2.2) hnone
    · exact hnull (fun h => h.2.1) hnone
  · exact hnull (fun h => h.1) hnone

/-- **A chain**, of an object or of an array. -/
theorem printItems_yields (F : CDouble D) (fmt : Bool) (g : Grants) (named : Bool) (depth : Nat)
    (items : Items D) :
    Yields g.Refuses (printItems F fmt g named depth items) (render F fmt named depth items)
      (items.Fits F fmt named depth) := by
  induction items generalizing g named depth with
  | nil => exact ⟨rfl, trivial⟩
  | cons string kind child next ihc ihn =>
    have hvalue := (printValue_yields F fmt (g.below 1) depth kind
      (fun named => render_length F fmt named (depth + 1) child)
      (fun g named => ihc g named (depth + 1))).below
    have hnext := (ihn (g.below 2) named depth).below
    cases named with
    | false =>
      refine Yields.congr (Yields.bind hvalue (fun _ =>
        Yields.bind hnext (fun _ => ⟨rfl, trivial⟩))) ?_
      exact ⟨fun h => ⟨nameText_none, h.1, h.2.1⟩, fun h => ⟨h.2.1, h.2.2, trivial⟩⟩
    | true =>
      have hname := printStringPtr_yields (R := g.Refuses) (fun h => ⟨[0], h⟩) string
      exact hname.entry hvalue hnext

/-- A tree. -/
theorem cJSONPrint_yields (F : CDouble D) (g : Grants) (fmt : Bool) (item : Item D) :
    Yields g.Refuses (cJSONPrint F g fmt item) (treeText F fmt item) (Item.Fits F fmt item) :=
  printValue_yields F fmt g 0 item.1 (fun named => render_length F fmt named 1 item.2)
    (fun g named => printItems_yields F fmt g named 1 item.2)

/-- **Printing gives the text of a tree just where every text has a block of its size**, or
`0` where a block is refused.  Otherwise it returns no text: a length is negative, a text is
written behind its block, or an `int` leaves its range. -/
theorem cJSONPrint_fits (F : CDouble D) (g : Grants) (fmt : Bool) (item : Item D) :
    (Item.Fits F fmt item → Gives g (cJSONPrint F g fmt item) (treeText F fmt item)) ∧
    (¬ Item.Fits F fmt item →
      ∃ e, cJSONPrint F g fmt item = .error e ∧ e ∈ [JsonStop.memory, .overflow, .range]) := by
  have hprint := cJSONPrint_yields F g fmt item
  exact ⟨hprint.gives, hprint.fails⟩

/-- A list of two numbers, and a number of 64 digits. -/
theorem cJSONPrint_fits_sample :
    Gives .all (cJSONPrint wholeDouble .all true (.array, .cons none (.number 7) .nil
        (.cons none (.number (-40)) .nil .nil))) (ascii "[7, -40]") ∧
      ∃ e, cJSONPrint wholeDouble .all true (.number (10 ^ 63), .nil) = .error e ∧
        e ∈ [JsonStop.memory, .overflow, .range] := by
  constructor
  · refine (cJSONPrint_fits wholeDouble .all true _).1 ⟨⟨by decide, Or.inl (by decide), ?_⟩, ?_⟩
    · exact ⟨by decide, Or.inl (by decide), trivial⟩
    · decide
  · refine (cJSONPrint_fits wholeDouble .all true _).2 ?_
    rintro (hint | hlen)
    · exact absurd hint (by decide)
    · exact absurd hlen (by decide +kernel)

/-! ## Short texts -/

section Short

variable {n : Nat}

/-- The entries of an array are parts of its text. -/
theorem arrayBody_entry (fmt : Bool) {entries : List Bytes} {e : Bytes} (he : e ∈ entries) :
    e.length ≤ (arrayBody fmt entries).length := by
  induction entries with
  | nil => exact absurd he List.not_mem_nil
  | cons e' entries ih =>
    simp only [arrayBody, List.length_append]
    rcases List.mem_cons.mp he with rfl | he
    · omega
    · have := ih he
      omega

/-- The names and the entries of an object are parts of its text. -/
theorem objectBody_entry (fmt : Bool) (depth : Nat) {entries : List (Bytes × Bytes)}
    {e : Bytes × Bytes} (he : e ∈ entries) : e.1.length ≤ (objectBody fmt depth entries).length ∧
      e.2.length ≤ (objectBody fmt depth entries).length := by
  induction entries with
  | nil => exact absurd he List.not_mem_nil
  | cons e' entries ih =>
    rw [objectEntry_length]
    rcases List.mem_cons.mp he with rfl | he
    · omega
    · have := ih he
      omega

/-- An item with a short text, if its children fit where theirs are short. -/
theorem valueText_short {depth : Nat} {kind : JsonKind D} {texts : Bool → List (Bytes × Bytes)}
    {nums : Prop} {fits : Bool → Prop} (hn : n ≤ 10 ^ 9)
    (hshort : (valueText F fmt depth kind texts).length ≤ n) (hnum : kind.Every (FitsBlock F) nums)
    (hchild : ∀ named, nums → (∀ e ∈ texts named, (named → e.1.length ≤ n) ∧ e.2.length ≤ n) →
      fits named) : kind.Fits F fmt depth texts fits := by
  cases kind with
  | null => trivial
  | false => trivial
  | true => trivial
  | number d => exact hnum
  | string s =>
    have hname : (nameText s).length ≤ n := hshort
    show ((nameText s).length : Int) < intMax
    unfold intMax
    omega
  | array =>
    have hbody := (arrayBody_length fmt ((texts false).map Prod.snd)).2
    have htext : (arrayBody fmt ((texts false).map Prod.snd)).length + 2 ≤ n := by
      simp [valueText, arrayText] at hshort
      omega
    constructor
    · refine hchild false hnum (fun e he => ⟨fun h => absurd h (by decide), ?_⟩)
      have := arrayBody_entry fmt (List.mem_map_of_mem (f := Prod.snd) he)
      omega
    · unfold intMax
      omega
  | object =>
    have hbody := (objectBody_length fmt (depth + 1) (texts true)).2
    have htext : (objectBody fmt (depth + 1) (texts true)).length + 2 +
        (if fmt then depth + 1 else 0) ≤ n := by
      cases fmt <;> simp [valueText, objectText] at hshort ⊢ <;> omega
    constructor
    · refine hchild true hnum (fun e he => ?_)
      have := objectBody_entry fmt (depth + 1) he
      exact ⟨fun _ => by omega, by omega⟩
    · unfold intMax objectFrame
      split at htext <;> split <;> simp_all <;> omega

/-- A chain of short texts. -/
theorem render_short (hn : n ≤ 10 ^ 9) {named : Bool} {depth : Nat} {items : Items D}
    (hnum : items.Every (FitsBlock F))
    (hshort : ∀ e ∈ render F fmt named depth items, (named → e.1.length ≤ n) ∧ e.2.length ≤ n) :
    items.Fits F fmt named depth := by
  induction items generalizing named depth with
  | nil => trivial
  | cons string kind child next ihc ihn =>
    obtain ⟨hname, hvalue⟩ := hshort _ List.mem_cons_self
    refine ⟨?_, valueText_short hn hvalue hnum.1 (fun named hc hin => ihc hc hin), ?_⟩
    · cases named with
      | false => exact nameText_none
      | true =>
        have hlen : (nameText string).length ≤ n := hname rfl
        show ((nameText string).length : Int) < intMax
        unfold intMax
        omega
    · exact ihn hnum.2 (fun e he => hshort e (List.mem_cons_of_mem _ he))

/-- **A short text is printed**: up to 10^9 bytes, only the numbers can be too long. -/
theorem fits_of_short {item : Item D} (hnum : Item.Every (FitsBlock F) item)
    (hshort : (treeText F fmt item).length ≤ 10 ^ 9) : Item.Fits F fmt item :=
  valueText_short le_rfl hshort hnum (fun _ hc hin => render_short le_rfl hc hin)

end Short

end MonkeyCache
