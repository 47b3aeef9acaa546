import MonkeyCache.Json

/-!
# Parsing in `cJSON.c`

A `const char *` into the text is what the text still holds from there on; at the
terminator it is `[]`.  `cJSON_Parse` trusts its text.  A backslash before the
terminator, a point before it and a short `\u` are each stepped over without a look,
and the next read is behind the text (`overread`).  `%4x` may read nothing, and then
`uc` is what the last `\u` left in it, or was never set.  The length of a string is an
`int`, and every block may be refused; then `0` is returned with `ep` still `0`.

Where the text is in order, none of this happens.  Where it is not, a call still ends:

* `parseItems_ends` — a chain is read, or `ep` is set to a place of the text, or the
  read is one of those above; it is never for ever.
* `cJSONParse_ends` — the same for a text; and a tree that is returned is well formed.
-/

namespace MonkeyCache

open Fallible

variable {D : Type}

/-! ## The code -/

/-- `skip`: `(unsigned char)*in<=32` -/
def skip (value : Bytes) : Bytes := value.dropWhile (· ≤ 32)

/-- The string that a block holds. -/
def cText (s : Bytes) : CText :=
  ⟨s.takeWhile (· ≠ 0), fun h => by simpa using List.mem_takeWhile_imp h⟩

/-- `*num>='0' && *num<='9'` -/
def isDigit (c : Byte) : Bool := 48 ≤ c ∧ c ≤ 57

/-- `*num>='1' && *num<='9'` -/
def isFirstDigit (c : Byte) : Bool := 49 ≤ c ∧ c ≤ 57

/-- `*num - '0'`; a `char` has a sign. -/
def charDigit (c : Byte) : Int := c.toInt8.toInt - 48

/-- `while (*num>='0' && *num<='9') n=(n*10.0)+(*num++ -'0')`, with the number of rounds. -/
def parseDigits (F : CDouble D) : Bytes → D → D × Nat × Bytes
  | [], n => (n, 0, [])
  | c :: num, n =>
    if isDigit c then
      let (n, rounds, num) := parseDigits F num (F.digit n (charDigit c))
      (n, rounds + 1, num)
    else (n, 0, c :: num)

/-- `if (*num>='1' && *num<='9') do … while (*num>='0' && *num<='9')` -/
def parseWhole (F : CDouble D) (num : Bytes) : D × Bytes :=
  if num.head?.any isFirstDigit then
    let (n, _, num) := parseDigits F num F.zero
    (n, num)
  else (F.zero, num)

/-- The part behind a point; its loop tests only after its first round. -/
def parseFraction (F : CDouble D) (num : Bytes) (n : D) : Except JsonStop (D × Nat × Bytes) :=
  if num.head? = some Chr.dot then
    match num.tail with
    | [] => .error .overread
    | c :: num =>
      let (n, rounds, num) := parseDigits F num (F.digit n (charDigit c))
      .ok (n, rounds + 1, num)
  else .ok (n, 0, num)

/-- `while (*num>='0' && *num<='9') subscale=(subscale*10)+(*num++ - '0')` -/
def parseSubscale : Bytes → Int → Except JsonStop (Int × Bytes)
  | [], subscale => .ok (subscale, [])
  | c :: num, subscale =>
    if isDigit c then
      if intMax < subscale * 10 + charDigit c then .error .range
      else parseSubscale num (subscale * 10 + charDigit c)
    else .ok (subscale, c :: num)

/-- The exponent, `subscale*signsubscale`. -/
def parseExponent (num : Bytes) : Except JsonStop (Int × Bytes) :=
  if num.head? = some 101 ∨ num.head? = some 69 then
    if num.tail.head? = some 43 then parseSubscale num.tail.tail 0
    else if num.tail.head? = some Chr.minus then do
      let (subscale, num) ← parseSubscale num.tail.tail 0
      .ok (-subscale, num)
    else parseSubscale num.tail 0
  else .ok (0, num)

/-- `if (*num==c) num++` -/
def passIf (c : Byte) (num : Bytes) : Bytes := if num.head? = some c then num.tail else num

/-- `parse_number` -/
def parseNumber (F : CDouble D) (num : Bytes) : Except JsonStop (D × Bytes) := do
  let sign := num.head? = some Chr.minus
  let (n, num) := parseWhole F (passIf Chr.zero (passIf Chr.minus num))
  let (n, places, num) ← parseFraction F num n
  let (subscale, num) ← parseExponent num
  .ok (F.scaled sign n (subscale - places), num)

/-- `isspace` -/
def isSpace (c : Byte) : Bool :=
  c ∈ [Chr.space, Chr.tab, Chr.newline, 11, Chr.formfeed, Chr.return']

/-- The value of a hexadecimal digit. -/
def hexValue (c : Byte) : Option Nat :=
  if 48 ≤ c ∧ c ≤ 57 then some (c.toNat - 48)
  else if 97 ≤ c ∧ c ≤ 102 then some (c.toNat - 87)
  else if 65 ≤ c ∧ c ≤ 70 then some (c.toNat - 55)
  else none

/-- At most `width` hexadecimal digits. -/
def hexRun : Nat → Bytes → List Nat
  | 0, _ => []
  | _, [] => []
  | width + 1, c :: s =>
    match hexValue c with
    | none => []
    | some digit => digit :: hexRun width s

/-- The number that digits are. -/
def hexNumber (digits : List Nat) : Nat := digits.foldl (fun n digit => n * 16 + digit) 0

/-- The digits of `%x` may have `0x` before them; alone, that is not a number. -/
def scanHex (width : Nat) (s : Bytes) : Option Nat :=
  let digits :=
    if s.head? = some Chr.zero ∧ (s.tail.head? = some 120 ∨ s.tail.head? = some 88) then
      hexRun (width - 2) s.tail.tail
    else hexRun width s
  if digits = [] then none else some (hexNumber digits)

/-- `sscanf(s,"%4x",&uc)`: white space, a sign and digits, four characters without the
white space; `none` where nothing is stored. -/
def sscanf4x (s : Bytes) : Option Nat :=
  let s := s.dropWhile isSpace
  if s.head? = some Chr.minus then (scanHex 3 s.tail).map (fun uc => (2 ^ 32 - uc) % 2 ^ 32)
  else if s.head? = some 43 then scanHex 3 s.tail
  else scanHex 4 s

/-- `len=3;if (uc<0x80) len=1;else if (uc<0x800) len=2` -/
def utf8Len (uc : Nat) : Nat := if uc < 0x80 then 1 else if uc < 0x800 then 2 else 3

/-- `*--ptr2 =((uc | 0x80) & 0xBF)` -/
def utf8Tail (uc : Nat) : Byte := UInt8.ofNat ((uc ||| 0x80) &&& 0xBF)

/-- What the `switch (len)` writes, in the order of the text. -/
def utf8Bytes (uc : Nat) : Bytes :=
  if utf8Len uc = 1 then [UInt8.ofNat uc]
  else if utf8Len uc = 2 then [UInt8.ofNat ((uc >>> 6) ||| 0xC0), utf8Tail uc]
  else [UInt8.ofNat ((uc >>> 6 >>> 6) ||| 0xE0), utf8Tail (uc >>> 6), utf8Tail uc]

/-- What it leaves in `uc`. -/
def utf8Rest (uc : Nat) : Nat :=
  if utf8Len uc = 1 then uc else if utf8Len uc = 2 then uc >>> 6 else uc >>> 6 >>> 6

/-- The characters are written one by one, without a terminator. -/
def OutBuf.write (b : OutBuf) (s : Bytes) : Except JsonStop OutBuf :=
  if b.text.length + s.length ≤ b.cap then .ok { b with text := b.text ++ s } else .error .overflow

/-- The character that a letter behind a backslash stands for. -/
def unescapeLetter (c : Byte) : Byte :=
  if c = 98 then Chr.backspace
  else if c = 102 then Chr.formfeed
  else if c = 110 then Chr.newline
  else if c = 114 then Chr.return'
  else if c = 116 then Chr.tab
  else c

/-- The first loop of `parse_string`, from `len` on. -/
def stringLen : Bytes → Int → Except JsonStop Int
  | [], len => .ok len
  | c :: ptr, len =>
    if c = Chr.quote then .ok len
    else do
      let len ← addInt len 1
      if c = Chr.backslash then
        match ptr with
        | [] => .error .overread
        | _ :: ptr => stringLen ptr len
      else stringLen ptr len

/-- The second loop of `parse_string`; `uc` is `none` until it is set. -/
def unescape : Bytes → Option Nat → OutBuf → Except JsonStop (OutBuf × Bytes)
  | [], _, b => .ok (b, [])
  | c :: ptr, uc, b =>
    if c = Chr.quote then .ok (b, c :: ptr)
    else if c = Chr.backslash then
      match ptr with
      | [] => .error .overread
      | e :: ptr =>
        if e = 117 then
          match (sscanf4x ptr).or uc with
          | none => .error .unset
          | some uc => do
            let b ← b.write (utf8Bytes uc)
            match ptr with
            | _ :: _ :: _ :: _ :: ptr => unescape ptr (some (utf8Rest uc)) b
            | _ => .error .overread
        else do
          let b ← b.put (unescapeLetter e)
          unescape ptr uc b
    else do
      let b ← b.put c
      unescape ptr uc b

/-- `parse_string` -/
def parseString (granted : Bool) (str : Bytes) : Except JsonStop (CText × Bytes) :=
  if str.head? = some Chr.quote then do
    let len ← stringLen str.tail 0
    let size ← addInt len 1
    let b ← cJSONMalloc granted size
    let (b, ptr) ← unescape str.tail none b
    let b ← b.term
    .ok (cText b.text, if ptr.head? = some Chr.quote then ptr.tail else ptr)
  else .error (.malformed str)

/-- `parse_array` and `parse_object`, behind the opening bracket; `items` reads a chain. -/
def parseBlock (closing : Byte) (kind : JsonKind D)
    (items : Bytes → Except JsonStop (Items D × Bytes)) (value : Bytes) :
    Except JsonStop (Item D × Bytes) :=
  let value := skip value
  if value.head? = some closing then .ok ((kind, .nil), value.tail)
  else do
    let (child, value) ← items value
    if value.head? = some closing then .ok ((kind, child), value.tail)
    else .error (.malformed value)

/-- `parse_array` -/
def parseArray (items : Bool → Bytes → Except JsonStop (Items D × Bytes)) (value : Bytes) :
    Except JsonStop (Item D × Bytes) :=
  if value.head? ≠ some Chr.openBracket then .error (.malformed value)
  else parseBlock Chr.closeBracket .array (items false) value.tail

/-- `parse_object` -/
def parseObject (items : Bool → Bytes → Except JsonStop (Items D × Bytes)) (value : Bytes) :
    Except JsonStop (Item D × Bytes) :=
  if value.head? ≠ some Chr.openBrace then .error (.malformed value)
  else parseBlock Chr.closeBrace .object (items true) value.tail

/-- `parse_value`; `items` reads the children, with names or without, and `granted` is the
answer for the block of a string. -/
def parseValue (F : CDouble D) (granted : Bool)
    (items : Bool → Bytes → Except JsonStop (Items D × Bytes)) (value : Bytes) :
    Except JsonStop (Item D × Bytes) :=
  if value.take 4 = ascii "null" then .ok ((.null, .nil), value.drop 4)
  else if value.take 5 = ascii "false" then .ok ((.false, .nil), value.drop 5)
  else if value.take 4 = ascii "true" then .ok ((.true, .nil), value.drop 4)
  else if value.head? = some Chr.quote then do
    let (s, value) ← parseString granted value
    .ok ((.string (some s), .nil), value)
  else if value.head? = some Chr.minus ∨ (value.head?.any isDigit) then do
    let (d, value) ← parseNumber F value
    .ok ((.number d, .nil), value)
  else if value.head? = some Chr.openBracket then parseArray items value
  else if value.head? = some Chr.openBrace then parseObject items value
  else .error (.malformed value)

/-- The name of an entry of an object, and its colon. -/
def parseName (granted named : Bool) (value : Bytes) : Except JsonStop (Option CText × Bytes) :=
  if named then do
    let (string, value) ← parseString granted value
    let value := skip value
    if value.head? = some Chr.colon then .ok (some string, skip value.tail)
    else .error (.malformed value)
  else .ok (none, value)

/-- `cJSON_New_Item` -/
def newItem (granted : Bool) : Except JsonStop Unit :=
  if granted then .ok () else .error .memory

/-- The loops of `parse_array` and `parse_object`: a chain of items up to what is no
comma, with names or without. -/
def parseItems (F : CDouble D) : Nat → Grants → Bool → Bytes → Except JsonStop (Items D × Bytes)
  | 0, _, _, _ => .error .timeout
  | fuel + 1, g, named, value => do
    newItem (g [0])
    let (string, value) ← parseName (g [1]) named (skip value)
    let ((kind, child), value) ← parseValue F (g [2]) (parseItems F fuel (g.below 3)) value
    let value := skip value
    if value.head? = some Chr.comma then do
      let (next, value) ← parseItems F fuel (g.below 4) named value.tail
      .ok (.cons string kind child next, value)
    else .ok (.cons string kind child .nil, value)

/-- `cJSON_Parse`; what is behind the item is not looked at. -/
def cJSONParse (F : CDouble D) (g : Grants) (value : CText) : Except JsonStop (Item D) := do
  newItem (g [0])
  let (item, _) ← parseValue F (g [2]) (parseItems F (value.1.length + 1) (g.below 3))
    (skip value.1)
  .ok item

/-! ## Well-formed trees -/

/-- An array and an object have children, with names in an object only; nothing else has
any, and a string has its text. -/
def JsonKind.Wf (kind : JsonKind D) (child : Items D) (nested : Bool → Prop) : Prop :=
  match kind with
  | .array => nested Bool.false
  | .object => nested Bool.true
  | .string s => s.isSome ∧ child = .nil
  | _ => child = .nil

/-- A chain in which every item is well formed. -/
def Items.Wf : Bool → Items D → Prop
  | _, .nil => True
  | named, .cons string kind child next =>
    string.isSome = named ∧ kind.Wf child (fun named => child.Wf named) ∧ next.Wf named

/-- A well-formed tree. -/
def Item.Wf (item : Item D) : Prop := item.1.Wf item.2 (fun named => item.2.Wf named)

/-! ## Where a parse ends -/

/-- How a parse may fail: not for want of time, with `ep` inside of the text, and for want of
memory only where a block is refused. -/
def Stops (refused : Prop) (value : Bytes) : JsonStop → Prop
  | .timeout => False
  | .malformed ep => ep <:+ value
  | .memory => refused
  | _ => True

/-- `rest` is further on in the text. -/
def Behind (value rest : Bytes) : Prop := rest <:+ value ∧ rest.length < value.length

section Ends

variable {R : Prop} {granted : Bool}

/-- What stops in a part of the text stops in the text. -/
theorem Stops.of_suffix {value value' : Bytes} {e : JsonStop} (h : Stops R value e)
    (hs : value <:+ value') : Stops R value' e := by
  cases e with
  | malformed ep => exact List.IsSuffix.trans h hs
  | timeout => exact h
  | memory => exact h
  | _ => trivial

/-- What is further on in a part of the text is further on in the text. -/
theorem Behind.of_suffix {value value' rest : Bytes} (h : Behind value rest)
    (hs : value <:+ value') : Behind value' rest :=
  ⟨h.1.trans hs, lt_of_lt_of_le h.2 hs.length_le⟩

/-- What comes behind is further on, too. -/
theorem Behind.suffix {value rest rest' : Bytes} (h : Behind value rest)
    (hs : rest' <:+ rest) : Behind value rest' :=
  ⟨hs.trans h.1, lt_of_le_of_lt hs.length_le h.2⟩

/-- A character is passed. -/
theorem behind_tail {value : Bytes} {c : Byte} (h : value.head? = some c) :
    Behind value value.tail := by
  cases value with
  | nil => cases h
  | cons c value => exact ⟨List.suffix_cons c value, by simp⟩

/-- Space is passed. -/
theorem skip_suffix (value : Bytes) : skip value <:+ value := List.dropWhile_suffix _

/-! ### Numbers -/

/-- Digits are passed. -/
theorem parseDigits_suffix (F : CDouble D) (num : Bytes) (n : D) :
    (parseDigits F num n).2.2 <:+ num := by
  induction num generalizing n with
  | nil => exact List.suffix_rfl
  | cons c num ih =>
    rw [parseDigits]
    split
    · exact (ih _).trans (List.suffix_cons c num)
    · exact List.suffix_rfl

/-- The digits before the point are passed. -/
theorem parseWhole_suffix (F : CDouble D) (num : Bytes) : (parseWhole F num).2 <:+ num := by
  unfold parseWhole
  split
  · exact parseDigits_suffix F num F.zero
  · exact List.suffix_rfl

/-- A digit that is not `0` is passed. -/
theorem parseWhole_behind (F : CDouble D) {num : Bytes} {c : Byte} (hc : num.head? = some c)
    (hd : isDigit c) (hz : c ≠ Chr.zero) : Behind num (parseWhole F num).2 := by
  cases num with
  | nil => cases hc
  | cons c' num =>
    obtain rfl : c' = c := by simpa using hc
    have hfirst : isFirstDigit c' := by
      simp only [isDigit, isFirstDigit, decide_eq_true_eq] at hd ⊢
      grind
    have hdigits : (parseWhole F (c' :: num)).2 =
        (parseDigits F num (F.digit F.zero (charDigit c'))).2.2 := by
      simp [parseWhole, hfirst, parseDigits, hd]
    rw [hdigits]
    exact (behind_tail rfl).suffix (parseDigits_suffix F num _)

/-- A fraction is passed, or there is nothing behind the point. -/
theorem parseFraction_ends (F : CDouble D) (num : Bytes) (n : D) :
    Ensures (parseFraction F num n) (fun r => r.2.2 <:+ num) (Stops R num) := by
  unfold parseFraction
  refine Ensures.ite (fun hdot => ?_) (fun _ => List.suffix_rfl)
  cases num with
  | nil => cases hdot
  | cons dot num =>
    cases num with
    | nil => trivial
    | cons c num =>
      exact (parseDigits_suffix F num _).trans
        ((List.suffix_cons c num).trans (List.suffix_cons dot _))

/-- What ends in a part of the text ends in the text. -/
theorem ends_of_suffix {α : Type} {x : Except JsonStop (α × Bytes)} {value value' : Bytes}
    (h : Ensures x (fun r => r.2 <:+ value) (Stops R value)) (hs : value <:+ value') :
    Ensures x (fun r => r.2 <:+ value') (Stops R value') :=
  h.mono (fun _ hr => hr.trans hs) (fun _ he => he.of_suffix hs)

/-- The digits of the exponent are passed, as far as they are an `int`. -/
theorem parseSubscale_ends (num : Bytes) (subscale : Int) :
    Ensures (parseSubscale num subscale) (fun r => r.2 <:+ num) (Stops R num) := by
  induction num generalizing subscale with
  | nil => exact List.suffix_rfl
  | cons c num ih =>
    rw [parseSubscale]
    refine Ensures.ite (fun _ => ?_) (fun _ => List.suffix_rfl)
    refine Ensures.guard (fun _ => trivial) (fun _ => ?_)
    exact ends_of_suffix (ih _) (List.suffix_cons c num)

/-- An exponent is passed, with its sign. -/
theorem parseExponent_ends (num : Bytes) :
    Ensures (parseExponent num) (fun r => r.2 <:+ num) (Stops R num) := by
  have hsub : ∀ num' : Bytes, num' <:+ num →
      Ensures (parseSubscale num' 0) (fun r => r.2 <:+ num) (Stops R num) := by
    intro num' hs
    exact ends_of_suffix (parseSubscale_ends num' 0) hs
  have htail := List.tail_suffix num
  have htail' := (List.tail_suffix num.tail).trans htail
  unfold parseExponent
  refine Ensures.ite (fun _ => ?_) (fun _ => List.suffix_rfl)
  refine Ensures.ite (fun _ => hsub _ htail') (fun _ => ?_)
  refine Ensures.ite (fun _ => ?_) (fun _ => hsub _ htail)
  exact (hsub _ htail').bind (fun r hr => hr)

/-- One character at most is passed. -/
theorem passIf_suffix (c : Byte) (num : Bytes) : passIf c num <:+ num := by
  unfold passIf
  split
  · exact List.tail_suffix num
  · exact List.suffix_rfl

/-- The character is passed where it is there. -/
theorem passIf_behind {c : Byte} {num : Bytes} (h : num.head? = some c) :
    Behind num (passIf c num) := by
  rw [passIf, if_pos h]
  exact behind_tail h

/-- `parse_number` passes the character that it was called for. -/
theorem parseNumber_ends (F : CDouble D) {num : Bytes} {c : Byte} (hc : num.head? = some c)
    (hd : c = Chr.minus ∨ isDigit c) :
    Ensures (parseNumber F num) (fun r => Behind num r.2) (Stops R num) := by
  have hwhole : Behind num (parseWhole F (passIf Chr.zero (passIf Chr.minus num))).2 := by
    have hzero := passIf_suffix Chr.zero (passIf Chr.minus num)
    have hdigits := parseWhole_suffix F (passIf Chr.zero (passIf Chr.minus num))
    by_cases hm : c = Chr.minus
    · exact ((passIf_behind (hm ▸ hc)).suffix hzero).suffix hdigits
    · have hnosign : passIf Chr.minus num = num := by
        rw [passIf, if_neg]
        rw [hc]
        simpa using hm
      rw [hnosign] at hdigits ⊢
      by_cases hz : c = Chr.zero
      · exact (passIf_behind (hz ▸ hc)).suffix hdigits
      · have hnozero : passIf Chr.zero num = num := by
          rw [passIf, if_neg]
          rw [hc]
          simpa using hz
        rw [hnozero]
        exact parseWhole_behind F hc (hd.resolve_left hm) hz
  unfold parseNumber
  refine ((parseFraction_ends F _ _).imp_error (fun e he => he.of_suffix hwhole.1)).bind ?_
  rintro ⟨n, places, num₁⟩ h₁
  have hnum₁ := hwhole.suffix h₁
  refine ((parseExponent_ends num₁).imp_error (fun e he => he.of_suffix hnum₁.1)).bind ?_
  rintro ⟨subscale, num₂⟩ h₂
  exact hnum₁.suffix h₂

/-! ### Strings -/

/-- The sum of two `int`s. -/
theorem addInt_ends (a b : Int) (ptr : Bytes) :
    Ensures (addInt a b) (fun sum => sum = a + b ∧ a + b ≤ intMax) (Stops R ptr) :=
  Ensures.guard (fun _ => trivial) (fun h => ⟨rfl, not_lt.mp h⟩)

/-- A string is as long as an `int` can say, or the text ends behind a backslash. -/
theorem stringLen_ends (ptr : Bytes) {len : Int} (hlen : 0 ≤ len) :
    Ensures (stringLen ptr len) (fun len' => 0 ≤ len') (Stops R ptr) := by
  fun_induction stringLen ptr len with
  | case1 => exact hlen
  | case2 => exact hlen
  | case3 c ptr len hq ih₁ ih₂ =>
    apply (addInt_ends len 1 (c :: ptr)).bind
    rintro len' ⟨rfl, -⟩
    split
    · cases ptr with
      | nil => trivial
      | cons e ptr =>
        have hs : ptr <:+ c :: e :: ptr := (List.suffix_cons e ptr).trans (List.suffix_cons c _)
        exact (ih₁ (len + 1) (by omega)).imp_error (fun e he => he.of_suffix hs)
    · exact (ih₂ (len + 1) (by omega)).imp_error (fun e he => he.of_suffix (List.suffix_cons c ptr))

/-- A block is granted, or refused. -/
theorem cJSONMalloc_ends (hR : granted = false → R) {size : Int} (hsize : 0 ≤ size) (ptr : Bytes) :
    Ensures (cJSONMalloc granted size) (fun _ => True) (Stops R ptr) := by
  unfold cJSONMalloc
  split
  · trivial
  · rename_i hno
    exact hR (by simpa [hsize] using hno)

/-- A character is written, or there is no place for it. -/
theorem OutBuf.put_ends (b : OutBuf) (c : Byte) (ptr : Bytes) :
    Ensures (b.put c) (fun _ => True) (Stops R ptr) :=
  Ensures.ite (fun _ => trivial) (fun _ => trivial)

/-- Characters are written, or there is no place for them. -/
theorem OutBuf.write_ends (b : OutBuf) (s ptr : Bytes) :
    Ensures (b.write s) (fun _ => True) (Stops R ptr) :=
  Ensures.ite (fun _ => trivial) (fun _ => trivial)

/-- The second loop stays in the text, or reads behind it. -/
theorem unescape_ends (ptr : Bytes) (uc : Option Nat) (b : OutBuf) :
    Ensures (unescape ptr uc b) (fun r => r.2 <:+ ptr) (Stops R ptr) := by
  fun_induction unescape ptr uc b with
  | case1 => exact List.suffix_rfl
  | case2 => exact List.suffix_rfl
  | case3 => trivial
  | case4 => trivial
  | case5 uc b ptr code hcode hq ih =>
    refine (OutBuf.write_ends b _ _).bind (fun b' _ => ?_)
    have hstep := ih b'
    rcases ptr with _ | ⟨h₁, _ | ⟨h₂, _ | ⟨h₃, _ | ⟨h₄, ptr⟩⟩⟩⟩
    · trivial
    · trivial
    · trivial
    · trivial
    · exact ends_of_suffix hstep ⟨[Chr.backslash, 117, h₁, h₂, h₃, h₄], rfl⟩
  | case6 uc b e ptr he hq ih =>
    refine (OutBuf.put_ends b _ _).bind (fun b' _ => ?_)
    exact ends_of_suffix (ih b') ⟨[Chr.backslash, e], rfl⟩
  | case7 c ptr uc b hq hb ih =>
    refine (OutBuf.put_ends b _ _).bind (fun b' _ => ?_)
    exact ends_of_suffix (ih b') (List.suffix_cons c ptr)

/-- A string is passed, with its quotes. -/
theorem parseString_ends (hR : granted = false → R) (str : Bytes) :
    Ensures (parseString granted str) (fun r => Behind str r.2) (Stops R str) := by
  unfold parseString
  refine Ensures.ite (fun hq => ?_) (fun _ => List.suffix_rfl)
  have htail := List.tail_suffix str
  apply ((stringLen_ends str.tail le_rfl).imp_error (fun e he => he.of_suffix htail)).bind
  intro len hlen
  apply (addInt_ends len 1 str).bind
  rintro size ⟨rfl, -⟩
  apply (cJSONMalloc_ends hR (show 0 ≤ len + 1 by omega) str).bind
  intro b _
  apply ((unescape_ends str.tail none b).imp_error (fun e he => he.of_suffix htail)).bind
  rintro ⟨b, ptr⟩ hptr
  refine Ensures.bind (Q := fun _ => True)
    (Ensures.ite (fun _ => trivial) (fun _ => trivial)) (fun b' _ => ?_)
  refine ((behind_tail hq).suffix hptr).suffix ?_
  split
  · exact List.tail_suffix ptr
  · exact List.suffix_rfl

/-! ### Trees -/

/-- A new item, or no memory for it. -/
theorem newItem_ends (hR : granted = false → R) (value : Bytes) :
    Ensures (newItem granted) (fun _ => True) (Stops R value) :=
  Ensures.ite (fun _ => trivial) (fun h => hR (by simpa using h))

/-- A name is passed where there has to be one. -/
theorem parseName_ends (hR : granted = false → R) (named : Bool) (value : Bytes) :
    Ensures (parseName granted named value) (fun r => r.2 <:+ value ∧ r.1.isSome = named)
      (Stops R value) := by
  unfold parseName
  split
  · rename_i hnamed
    refine (parseString_ends hR value).bind ?_
    rintro ⟨string, rest⟩ hrest
    have hskip : skip rest <:+ value := (skip_suffix rest).trans hrest.1
    refine Ensures.ite (fun _ => ?_) (fun _ => hskip)
    exact ⟨(skip_suffix _).trans ((List.tail_suffix _).trans hskip), by simp [hnamed]⟩
  · exact ⟨List.suffix_rfl, by simp_all⟩

/-- What a reader of chains owes, on a text of which less than `fuel` is left. -/
def ReadsItems (R : Prop) (fuel : Nat)
    (items : Bool → Bytes → Except JsonStop (Items D × Bytes)) : Prop :=
  ∀ named value, value.length < fuel →
    Ensures (items named value) (fun r => r.2 <:+ value ∧ r.1.Wf named) (Stops R value)

section Values

variable {fuel : Nat} {items : Bool → Bytes → Except JsonStop (Items D × Bytes)}

/-- An array or an object is passed, with its brackets. -/
theorem parseBlock_ends (hitems : ReadsItems R fuel items) {kind : JsonKind D} {named : Bool}
    (hkind : ∀ child : Items D, child.Wf named → Item.Wf (kind, child))
    (closing : Byte) {value : Bytes} (hfuel : value.length < fuel) :
    Ensures (parseBlock closing kind (items named) value)
      (fun r => r.2 <:+ value ∧ Item.Wf r.1) (Stops R value) := by
  have hskip := skip_suffix value
  unfold parseBlock
  refine Ensures.ite (fun _ => ?_) (fun _ => ?_)
  · exact ⟨(List.tail_suffix _).trans hskip, hkind .nil trivial⟩
  · refine ((hitems named _ (lt_of_le_of_lt hskip.length_le hfuel)).imp_error
      (fun e he => he.of_suffix hskip)).bind ?_
    rintro ⟨child, rest⟩ ⟨hrest, hwf⟩
    refine Ensures.ite (fun _ => ?_) (fun _ => hrest.trans hskip)
    exact ⟨(List.tail_suffix _).trans (hrest.trans hskip), hkind child hwf⟩

/-- An item is passed. -/
theorem parseValue_ends (F : CDouble D) (hR : granted = false → R)
    (hitems : ReadsItems R fuel items) {value : Bytes}
    (hfuel : value.length ≤ fuel) :
    Ensures (parseValue F granted items value)
      (fun r => Behind value r.2 ∧ Item.Wf r.1) (Stops R value) := by
  have hdrop : ∀ n, 0 < n → value.take n ≠ [] → Behind value (value.drop n) := by
    intro n hn hne
    have hlen : value.length ≠ 0 := by
      rintro h0
      rw [List.length_eq_zero_iff.mp h0] at hne
      exact hne (List.take_nil)
    exact ⟨List.drop_suffix n value, by rw [List.length_drop]; omega⟩
  have hblock : ∀ (opening closing : Byte) (kind : JsonKind D) (named : Bool),
      (∀ child : Items D, child.Wf named → Item.Wf (kind, child)) →
      value.head? = some opening →
      Ensures (if value.head? ≠ some opening then .error (.malformed value)
          else parseBlock closing kind (items named) value.tail)
        (fun r => Behind value r.2 ∧ Item.Wf r.1) (Stops R value) := by
    intro opening closing kind named hkind hopen
    have htail := behind_tail hopen
    rw [if_neg (not_not.mpr hopen)]
    exact (parseBlock_ends hitems hkind closing (lt_of_lt_of_le htail.2 hfuel)).mono
      (fun r hr => ⟨htail.suffix hr.1, hr.2⟩) (fun e he => he.of_suffix htail.1)
  unfold parseValue
  refine Ensures.ite (fun h => ?_) (fun _ => ?_)
  · exact ⟨hdrop 4 (by omega) (by rw [h]; decide), rfl⟩
  refine Ensures.ite (fun h => ?_) (fun _ => ?_)
  · exact ⟨hdrop 5 (by omega) (by rw [h]; decide), rfl⟩
  refine Ensures.ite (fun h => ?_) (fun _ => ?_)
  · exact ⟨hdrop 4 (by omega) (by rw [h]; decide), rfl⟩
  refine Ensures.ite (fun _ => ?_) (fun _ => ?_)
  · refine (parseString_ends hR value).bind ?_
    rintro ⟨s, rest⟩ hrest
    exact ⟨hrest, rfl, rfl⟩
  refine Ensures.ite (fun h => ?_) (fun _ => ?_)
  · obtain ⟨c, hc, hd⟩ : ∃ c, value.head? = some c ∧ (c = Chr.minus ∨ isDigit c) := by
      cases hhead : value.head? with
      | none => simp [hhead] at h
      | some c => exact ⟨c, rfl, by simpa [hhead] using h⟩
    refine (parseNumber_ends F hc hd).bind ?_
    rintro ⟨d, rest⟩ hrest
    exact ⟨hrest, rfl⟩
  refine Ensures.ite (fun h => ?_) (fun _ => ?_)
  · exact hblock _ _ .array false (fun _ hchild => hchild) h
  refine Ensures.ite (fun h => ?_) (fun _ => List.suffix_rfl)
  exact hblock _ _ .object true (fun _ hchild => hchild) h

end Values

/-- A chain is read or refused in as many rounds as the text has characters. -/
theorem parseItems_ends (F : CDouble D) (fuel : Nat) (g : Grants) (hR : g.Refuses → R) :
    ReadsItems R fuel (parseItems F fuel g) := by
  induction fuel generalizing g with
  | zero =>
    intro named value hlen
    exact absurd hlen (Nat.not_lt_zero _)
  | succ fuel ih =>
    intro named value hlen
    have hplace : ∀ place, g place = false → R := fun place h => hR ⟨place, h⟩
    have hskip := skip_suffix value
    rw [parseItems]
    apply (newItem_ends (hplace _) value).bind
    intro _ _
    refine ((parseName_ends (hplace _) named (skip value)).imp_error
      (fun e he => he.of_suffix hskip)).bind ?_
    rintro ⟨string, value₁⟩ ⟨h₁, hstring⟩
    have hvalue₁ := h₁.trans hskip
    have hfuel : value₁.length ≤ fuel := by
      have hle : value₁.length ≤ value.length := hvalue₁.length_le
      omega
    refine ((parseValue_ends F (hplace _) (ih (g.below 3) (fun h => hR h.of_below)) hfuel).imp_error
      (fun e he => he.of_suffix hvalue₁)).bind ?_
    rintro ⟨⟨kind, child⟩, value₂⟩ ⟨h₂, hkind⟩
    have hvalue₂ := (h₂.suffix (skip_suffix value₂)).of_suffix hvalue₁
    refine Ensures.ite (fun hcomma => ?_) (fun _ => ?_)
    · have hvalue₃ := hvalue₂.suffix (List.tail_suffix _)
      refine ((ih (g.below 4) (fun h => hR h.of_below) named (skip value₂).tail
        (by have := hvalue₃.2; omega)).imp_error (fun e he => he.of_suffix hvalue₃.1)).bind ?_
      rintro ⟨next, value₄⟩ ⟨h₄, hnext⟩
      exact ⟨h₄.trans hvalue₃.1, hstring, hkind, hnext⟩
    · exact ⟨hvalue₂.1, hstring, hkind, trivial⟩

end Ends

/-- **A parse ends, whatever the text and the allocator.**  A tree it returns is well formed:
names are in objects and in no array, and only these have children.  Where it returns `0`,
`ep` is a place of the text, or a block was refused.  It is never out of rounds, so what is
left are the reads and the writes that the text misleads it to, and an `int` out of its
range. -/
theorem cJSONParse_ends (F : CDouble D) (g : Grants) (value : CText) :
    match cJSONParse F g value with
    | .ok item => Item.Wf item
    | .error (.malformed ep) => ep <:+ value.1
    | .error .memory => g.Refuses
    | .error stop => stop ≠ .timeout := by
  have hplace : ∀ place, g place = false → g.Refuses := fun place h => ⟨place, h⟩
  have hskip := skip_suffix value.1
  have hfuel : (skip value.1).length ≤ value.1.length + 1 := by
    have := hskip.length_le
    omega
  have hvalue := (parseValue_ends F (hplace [2])
    (parseItems_ends F (value.1.length + 1) (g.below 3) (fun h => h.of_below)) hfuel).imp_error
    (fun e he => he.of_suffix hskip)
  have hparse : Ensures (cJSONParse F g value) Item.Wf (Stops g.Refuses value.1) := by
    apply (newItem_ends (hplace [0]) value.1).bind
    intro _ _
    refine hvalue.bind ?_
    rintro ⟨item, rest⟩ ⟨-, hwf⟩
    exact hwf
  cases hres : cJSONParse F g value with
  | ok item => exact hparse.of_ok hres
  | error stop =>
    have hstop := hparse.of_error hres
    cases stop with
    | malformed ep => exact hstop
    | memory => exact hstop
    | timeout => exact hstop.elim
    | _ => simp

end MonkeyCache
