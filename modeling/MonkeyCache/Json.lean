import MonkeyCache.HashTable
import MonkeyCache.Lib.Fallible

/-!
# Printing in `cJSON.c`

`cJSON_Print` renders a tree from its leaves up.  Every string is built in a block
whose length `len` was computed beforehand, by a formula of its own; nothing checks
the formula against what is then written.  So the code here writes into an `OutBuf`,
where a write outside of the block is a fault.  The lengths are `int`s, and every
block may be refused (`Grants`).

A `struct cJSON` has a `child` and a `next`, and so have `Items`: a chain of siblings,
each with the chain of its children.  The file's arithmetic of `double` and the texts
that `sprintf` gives to one are a parameter (`CDouble`).
-/

namespace MonkeyCache

open Fallible

/-! ## Characters -/

/-- The characters of a literal. -/
def ascii (s : String) : Bytes := s.toList.map (fun c => UInt8.ofNat c.toNat)

/-- A C string, without its terminator. -/
abbrev CText := {s : Bytes // (0 : Byte) ∉ s}

namespace Chr

abbrev backspace : Byte := 8
abbrev tab : Byte := 9
abbrev newline : Byte := 10
abbrev formfeed : Byte := 12
abbrev return' : Byte := 13
abbrev space : Byte := 32
abbrev quote : Byte := 34
abbrev comma : Byte := 44
abbrev minus : Byte := 45
abbrev dot : Byte := 46
abbrev zero : Byte := 48
abbrev colon : Byte := 58
abbrev backslash : Byte := 92
abbrev openBracket : Byte := 91
abbrev closeBracket : Byte := 93
abbrev openBrace : Byte := 123
abbrev closeBrace : Byte := 125

end Chr

/-! ## Numbers -/

/-- The digits of a number, as `%u` prints them. -/
def decimalNat (n : Nat) : Bytes :=
  if n = 0 then [Chr.zero] else (Nat.digits 10 n).reverse.map (fun d => UInt8.ofNat (48 + d))

/-- `%d` -/
def decimal (i : Int) : Bytes :=
  if i < 0 then Chr.minus :: decimalNat i.natAbs else decimalNat i.natAbs

/-- An `int`. -/
abbrev CInt := {i : Int // intMin ≤ i ∧ i ≤ intMax}

/-- What `cJSON.c` asks of `double` and of the C library. -/
structure CDouble (D : Type) where
  /-- `(double) i` -/
  ofInt : Int → D
  /-- `(int) d` -/
  toInt : D → CInt
  /-- `fabs(a - b) <= DBL_EPSILON` -/
  near : D → D → Bool
  /-- `a <= b` -/
  le : D → D → Bool
  floor : D → D
  /-- `fabs(d) < 1.0e-6 || fabs(d) > 1.0e9` -/
  extreme : D → Bool
  /-- `%.0f` -/
  sprintf0f : D → Bytes
  /-- `%e` -/
  sprintfE : D → Bytes
  /-- `%f` -/
  sprintfF : D → Bytes
  /-- `0` -/
  zero : D
  /-- `n * 10.0 + k` -/
  digit : D → Int → D
  /-- `sign * n * pow(10.0, e)`, with `sign` -1 where the flag is set -/
  scaled : Bool → D → Int → D

/-- `fabs(((double)item->valueint)-d)<=DBL_EPSILON && d<=INT_MAX && d>=INT_MIN`; a
number's `valueint` is `(int) d` from its creation on. -/
def CDouble.isInt {D : Type} (F : CDouble D) (d : D) : Bool :=
  F.near (F.ofInt (F.toInt d).1) d && F.le d (F.ofInt intMax) && F.le (F.ofInt intMin) d

/-- The format that `print_number` chooses for other numbers. -/
def CDouble.sprintf {D : Type} (F : CDouble D) (d : D) : Bytes :=
  if F.near (F.floor d) d then F.sprintf0f d
  else if F.extreme d then F.sprintfE d else F.sprintfF d

/-- The whole numbers among the doubles; they never need `%e` or `%f`. -/
def wholeDouble : CDouble Int where
  ofInt i := i
  toInt d := if h : intMin ≤ d ∧ d ≤ intMax then ⟨d, h⟩ else ⟨intMin, by decide⟩
  near a b := a = b
  le a b := a ≤ b
  floor d := d
  extreme d := d = 0 ∨ 10 ^ 9 < d.natAbs
  sprintf0f d := decimal d
  sprintfE d := decimal d
  sprintfF d := decimal d
  zero := 0
  digit n k := n * 10 + k
  scaled sign n e := (if sign then -n else n) * 10 ^ e.toNat / 10 ^ (-e).toNat

/-! ## Trees -/

/-- The `type` of an item, with its value; `valuestring` may be `NULL`. -/
inductive JsonKind (D : Type)
  | null
  | false
  | true
  | number (valuedouble : D)
  | string (valuestring : Option CText)
  | array
  | object

/-- A chain of `struct cJSON`, linked by `next`. -/
inductive Items (D : Type)
  | nil
  | cons (string : Option CText) (kind : JsonKind D) (child next : Items D)

/-- The root of a tree: its kind and its children. -/
abbrev Item (D : Type) := JsonKind D × Items D

variable {D : Type}

/-! ## Blocks -/

/-- How a call ends that returns nothing. -/
inductive JsonStop
  /-- a write behind the end of a block -/
  | overflow
  /-- a read behind the terminator of the text -/
  | overread
  /-- a variable is read that was never set -/
  | unset
  /-- an `int` leaves its range -/
  | range
  /-- `0` is returned, as a block was refused; `ep` is `0` -/
  | memory
  /-- `0` is returned, with `ep` where the text goes on like this -/
  | malformed (ep : Bytes)
  | timeout
  deriving DecidableEq, Repr

/-- The answers of `cJSON_malloc` during a call.  Each request has a place, which is the
way that leads to it through the tree; so whatever an allocator refuses, its answers are
such a function. -/
abbrev Grants := List Nat → Bool

/-- The answers further on. -/
def Grants.below (g : Grants) (i : Nat) : Grants := fun place => g (i :: place)

/-- Nothing is refused. -/
def Grants.all : Grants := fun _ => true

/-- Some request is refused. -/
def Grants.Refuses (g : Grants) : Prop := ∃ place, g place = false

/-- A refusal below one branch is a refusal. -/
theorem Grants.Refuses.of_below {g : Grants} {i : Nat} (h : (g.below i).Refuses) : g.Refuses := by
  obtain ⟨place, hplace⟩ := h
  exact ⟨i :: place, hplace⟩

/-- A call gives `a`, or `0` where a block is refused. -/
def Gives {α : Type} (g : Grants) (x : Except JsonStop α) (a : α) : Prop :=
  Ensures x (fun r => r = a) (fun e => e = .memory ∧ g.Refuses)

/-- Where nothing is refused, the call gives `a`. -/
theorem Gives.all {α : Type} {x : Except JsonStop α} {a : α} (h : Gives .all x a) : x = .ok a := by
  cases x with
  | ok r =>
    obtain rfl : r = a := h
    rfl
  | error e =>
    obtain ⟨-, place, hplace⟩ := h
    cases hplace

/-- A computation that succeeds gives its value. -/
theorem Gives.of_eq {α : Type} {g : Grants} {x : Except JsonStop α} {a : α} (h : x = .ok a) :
    Gives g x a := by
  rw [h]
  exact rfl

/-- The first part of a call gives `a`, and the rest goes on from there. -/
theorem Gives.bind {α β : Type} {g g' : Grants} {x : Except JsonStop α} {a : α}
    {f : α → Except JsonStop β} {b : β} (hx : Gives g' x a) (hg : g'.Refuses → g.Refuses)
    (hf : Gives g (f a) b) : Gives g (x >>= f) b := by
  cases x with
  | ok r =>
    obtain rfl : r = a := hx
    exact hf
  | error e => exact ⟨hx.1, hg hx.2⟩

/-- The sum of two `int`s that are not negative. -/
def addInt (a b : Int) : Except JsonStop Int :=
  if intMax < a + b then .error .range else .ok (a + b)

/-- `len += n`, where `n` is a `size_t`: the sum is cut to an `int`. -/
def addSize (len : Int) (n : Nat) : Int := (len + n).bmod (2 ^ 32)

/-- A block of `cap` bytes, written up to where `ptr` stands. -/
structure OutBuf where
  cap : Nat
  text : Bytes
  deriving DecidableEq, Repr

/-- `cJSON_malloc(size)`; a negative `int` is a `size_t` that no allocator has. -/
def cJSONMalloc (granted : Bool) (size : Int) : Except JsonStop OutBuf :=
  if granted ∧ 0 ≤ size then .ok ⟨size.toNat, []⟩ else .error .memory

/-- A block that is granted. -/
theorem cJSONMalloc_gives (g : Grants) (place : List Nat) {size : Int} (h : 0 ≤ size) :
    Gives g (cJSONMalloc (g place) size) ⟨size.toNat, []⟩ := by
  unfold cJSONMalloc
  split
  · exact rfl
  · rename_i hno
    refine ⟨rfl, place, ?_⟩
    simpa [h] using hno

/-- What is `NULL` where a block was refused. -/
def orNull {α : Type} (x : Except JsonStop α) : Except JsonStop (Option α) :=
  match x with
  | .ok a => .ok (some a)
  | .error .memory => .ok none
  | .error e => .error e

/-- `*ptr++=c` -/
def OutBuf.put (b : OutBuf) (c : Byte) : Except JsonStop OutBuf :=
  if b.text.length < b.cap then .ok { b with text := b.text ++ [c] } else .error .overflow

/-- `if (cond) *ptr++=c` -/
def OutBuf.putIf (b : OutBuf) (cond : Bool) (c : Byte) : Except JsonStop OutBuf :=
  if cond then b.put c else .ok b

/-- `strcpy(ptr,s);ptr+=strlen(s)`, with the terminator behind it. -/
def OutBuf.strcpy (b : OutBuf) (s : Bytes) : Except JsonStop OutBuf :=
  if b.text.length + s.length < b.cap then .ok { b with text := b.text ++ s } else .error .overflow

/-- `*ptr=0` -/
def OutBuf.term (b : OutBuf) : Except JsonStop OutBuf :=
  if b.text.length < b.cap then .ok b else .error .overflow

/-- `*ptr++=0;return out` -/
def OutBuf.finish (b : OutBuf) : Except JsonStop Bytes :=
  if b.text.length < b.cap then .ok b.text else .error .overflow

/-- `*ptr++=c`, `n` times. -/
def OutBuf.puts (c : Byte) : Nat → OutBuf → Except JsonStop OutBuf
  | 0, b => .ok b
  | n + 1, b => do
    let b ← b.put c
    OutBuf.puts c n b

/-- `if (cond) for (j=0;j<n;j++) *ptr++=c` -/
def OutBuf.putsIf (b : OutBuf) (cond : Bool) (n : Nat) (c : Byte) : Except JsonStop OutBuf :=
  if cond then OutBuf.puts c n b else .ok b

/-- `cJSON_strdup` of a text that is returned. -/
def dupText (granted : Bool) (str : Bytes) : Except JsonStop Bytes := do
  let b ← cJSONMalloc granted (str.length + 1)
  let b ← b.strcpy str
  .ok b.text

/-! ## Printing -/

/-- `strchr("\"\\\b\f\n\r\t",token)` -/
def hasShortEscape (token : Byte) : Bool :=
  token ∈ [Chr.quote, Chr.backslash, Chr.backspace, Chr.formfeed, Chr.newline, Chr.return',
    Chr.tab]

/-- The letter behind the backslash. -/
def shortEscape (token : Byte) : Byte :=
  if token = Chr.backspace then 98
  else if token = Chr.formfeed then 102
  else if token = Chr.newline then 110
  else if token = Chr.return' then 114
  else if token = Chr.tab then 116
  else token

/-- A digit of `%x`. -/
def hexDigit (n : Nat) : Byte := if n < 10 then UInt8.ofNat (48 + n) else UInt8.ofNat (87 + n)

/-- `u%04x` -/
def hexEscape (token : Byte) : Bytes :=
  [117, hexDigit (token.toNat / 4096 % 16), hexDigit (token.toNat / 256 % 16),
    hexDigit (token.toNat / 16 % 16), hexDigit (token.toNat % 16)]

/-- The loop of `print_string_ptr` that computes `len`. -/
def escapedLen : Bytes → Int → Except JsonStop Int
  | [], len => .ok len
  | token :: str, len => do
    let len ← addInt len 1
    let len ← addInt len (if hasShortEscape token then 1 else if token < 32 then 5 else 0)
    escapedLen str len

/-- The loop of `print_string_ptr` that writes. -/
def printEscaped : Bytes → OutBuf → Except JsonStop OutBuf
  | [], b => .ok b
  | token :: str, b => do
    if 31 < token ∧ token ≠ Chr.quote ∧ token ≠ Chr.backslash then
      let b ← b.put token
      printEscaped str b
    else
      let b ← b.put Chr.backslash
      if hasShortEscape token then
        let b ← b.put (shortEscape token)
        printEscaped str b
      else
        let b ← b.strcpy (hexEscape token)
        printEscaped str b

/-- `print_string_ptr`; a `NULL` is printed as nothing. -/
def printStringPtr (granted : Bool) (str : Option CText) : Except JsonStop Bytes :=
  match str with
  | none => dupText granted []
  | some str => do
    let len ← escapedLen str.1 0
    let size ← addInt len 3
    let b ← cJSONMalloc granted size
    let b ← b.put Chr.quote
    let b ← printEscaped str.1 b
    let b ← b.put Chr.quote
    b.finish

/-- `print_number` -/
def printNumber (F : CDouble D) (granted : Bool) (d : D) : Except JsonStop Bytes := do
  let valueint := F.toInt d
  if F.isInt d then
    let b ← cJSONMalloc granted 21
    let b ← b.strcpy (decimal valueint)
    .ok b.text
  else
    let b ← cJSONMalloc granted 64
    let b ← b.strcpy (F.sprintf d)
    .ok b.text

/-- `while (child) numentries++,child=child->next` -/
def numentries : Items D → Int → Except JsonStop Int
  | .nil, n => .ok n
  | .cons _ _ _ next, n => do
    let n ← addInt n 1
    numentries next n

/-- An array with a `char *` for each entry. -/
def mallocEntries (granted : Bool) (child : Items D) : Except JsonStop Unit := do
  let n ← numentries child 0
  let _ ← cJSONMalloc granted (8 * n)
  .ok ()

/-- The length that `print_array` computes. -/
def arrayLen (fmt : Bool) : List Bytes → Int → Int
  | [], len => len
  | ret :: entries, len =>
    arrayLen fmt entries (addSize len (ret.length + 2 + if fmt then 1 else 0))

/-- The loop of `print_array` that writes. -/
def composeArray (fmt : Bool) : List Bytes → OutBuf → Except JsonStop OutBuf
  | [], b => .ok b
  | entry :: entries, b => do
    let b ← b.strcpy entry
    if entries = [] then composeArray fmt entries b
    else
      let b ← b.put Chr.comma
      let b ← b.putIf fmt Chr.space
      let b ← b.term
      composeArray fmt entries b

/-- `print_array`, once the entries are printed. -/
def printArray (granted fmt : Bool) (entries : List Bytes) : Except JsonStop Bytes := do
  let b ← cJSONMalloc granted (arrayLen fmt entries 5)
  let b ← b.put Chr.openBracket
  let b ← b.term
  let b ← composeArray fmt entries b
  let b ← b.put Chr.closeBracket
  b.finish

/-- The length that `print_object` computes. -/
def objectLen (fmt : Bool) (depth : Nat) : List (Bytes × Bytes) → Int → Int
  | [], len => len
  | e :: entries, len => objectLen fmt depth entries
      (addSize len (e.2.length + e.1.length + 2 + if fmt then 2 + depth else 0))

/-- The loop of `print_object` that writes. -/
def composeObject (fmt : Bool) (depth : Nat) : List (Bytes × Bytes) → OutBuf →
    Except JsonStop OutBuf
  | [], b => .ok b
  | e :: entries, b => do
    let b ← b.putsIf fmt depth Chr.tab
    let b ← b.strcpy e.1
    let b ← b.put Chr.colon
    let b ← b.putIf fmt Chr.tab
    let b ← b.strcpy e.2
    let b ← b.putIf (entries ≠ []) Chr.comma
    let b ← b.putIf fmt Chr.newline
    let b ← b.term
    composeObject fmt depth entries b

/-- `print_object`, once the names and the entries are printed; `len` is what it was
before. -/
def printObject (granted fmt : Bool) (depth : Nat) (len : Int) (entries : List (Bytes × Bytes)) :
    Except JsonStop Bytes := do
  let b ← cJSONMalloc granted (objectLen fmt depth entries len)
  let b ← b.put Chr.openBrace
  let b ← b.putIf fmt Chr.newline
  let b ← b.term
  let b ← composeObject fmt depth entries b
  let b ← b.putsIf fmt (depth - 1) Chr.tab
  let b ← b.put Chr.closeBrace
  b.finish

/-- `print_value` for an item at `depth`; `children` prints its chain `child` of children,
with their names or without. -/
def printValue (F : CDouble D) (g : Grants) (fmt : Bool) (depth : Nat) (kind : JsonKind D)
    (child : Items D) (children : Grants → Bool → Except JsonStop (List (Bytes × Bytes))) :
    Except JsonStop Bytes :=
  match kind with
  | .null => dupText (g []) (ascii "null")
  | .false => dupText (g []) (ascii "false")
  | .true => dupText (g []) (ascii "true")
  | .number d => printNumber F (g []) d
  | .string s => printStringPtr (g []) s
  | .array => do
    mallocEntries (g [0]) child
    let entries ← children (g.below 1) false
    printArray (g [2]) fmt (entries.map Prod.snd)
  | .object => do
    mallocEntries (g [0]) child
    mallocEntries (g [3]) child
    let len ← addInt 7 (if fmt then depth + 1 else 0)
    let entries ← children (g.below 1) true
    printObject (g [2]) fmt (depth + 1) len entries

/-- The items of a chain at `depth`, printed one after another: the names, where the chain
is that of an object, and the values.  `print_array` stops at the first entry that is
`NULL`, and `print_object` when it has been through all of them. -/
def printItems (F : CDouble D) (fmt : Bool) : Grants → Bool → Nat → Items D →
    Except JsonStop (List (Bytes × Bytes))
  | _, _, _, .nil => .ok []
  | g, named, depth, .cons string kind child next =>
    if named then do
      let str ← orNull (printStringPtr (g [0]) string)
      let ret ← orNull (printValue F (g.below 1) fmt depth kind child
        (fun g named => printItems F fmt g named (depth + 1) child))
      let rest ← orNull (printItems F fmt (g.below 2) named depth next)
      match str, ret, rest with
      | some str, some ret, some rest => .ok ((str, ret) :: rest)
      | _, _, _ => .error .memory
    else do
      let ret ← printValue F (g.below 1) fmt depth kind child
        (fun g named => printItems F fmt g named (depth + 1) child)
      let rest ← printItems F fmt (g.below 2) named depth next
      .ok (([], ret) :: rest)

/-- `print_value(item,0,fmt)`: `cJSON_Print` formats, `cJSON_PrintUnformatted` does
not. -/
def cJSONPrint (F : CDouble D) (g : Grants) (fmt : Bool) (item : Item D) : Except JsonStop Bytes :=
  printValue F g fmt 0 item.1 item.2 (fun g named => printItems F fmt g named 1 item.2)

end MonkeyCache
