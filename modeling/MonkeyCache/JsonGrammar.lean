import MonkeyCache.JsonParse
import MonkeyCache.JsonPrint

/-!
# The texts of a tree, and what the parser makes of them

The grammar does not know the parser.  It goes along the tree and says which texts spell
it: `Spells` for a chain, `SpellsValue` for an item, `StringBody` and `Numeral` for what
has no children.  Space may stand wherever JSON allows it, a string may write any
character in any of its ways, and a number may have a fraction and an exponent.

`cJSONParse_grammar` says that the parser reads back the tree from each of its texts, if no
block is refused and the lengths are `int`s.  So a text that follows the grammar runs into
none of the reads and writes that `cJSONParse_ends` leaves open.

* `parseNumber_spelled`, `parseString_spelled` — numbers and strings.
* `parseItems_spelled` — a chain, by induction on it.
-/

namespace MonkeyCache

open Fallible

variable {D : Type}

/-! ## The grammar -/

/-- White space, as `skip` has it. -/
def Blank (w : Bytes) : Prop := ∀ c ∈ w, c ≤ 32

/-- What stands between quotes, and the bytes that it means.  A character of `\u` is in
UTF-8; half of a surrogate pair is like any other. -/
inductive StringBody : Bytes → Bytes → Prop
  | nil : StringBody [] []
  | plain {c : Byte} {s v : Bytes} : c ≠ Chr.quote → c ≠ Chr.backslash → StringBody s v →
      StringBody (c :: s) (c :: v)
  | letter {e : Byte} {s v : Bytes} : e ≠ 117 → StringBody s v →
      StringBody (Chr.backslash :: e :: s) (unescapeLetter e :: v)
  | unicode {h₁ h₂ h₃ h₄ : Byte} {d₁ d₂ d₃ d₄ : Nat} {s v : Bytes} :
      hexValue h₁ = some d₁ → hexValue h₂ = some d₂ → hexValue h₃ = some d₃ →
      hexValue h₄ = some d₄ → StringBody s v →
      StringBody (Chr.backslash :: 117 :: h₁ :: h₂ :: h₃ :: h₄ :: s)
        (utf8Bytes (hexNumber [d₁, d₂, d₃, d₄]) ++ v)

/-- A digit, as a character. -/
def digitChar (d : Fin 10) : Byte := UInt8.ofNat (48 + d.1)

/-- Digits, as characters. -/
def digitsText (ds : List (Fin 10)) : Bytes := ds.map digitChar

/-- Digits, as a number. -/
def digitsNat (n : Nat) (ds : List (Fin 10)) : Nat := ds.foldl (fun n d => n * 10 + d.1) n

/-- Digits, as `parse_number` adds them up. -/
def digitsDouble (F : CDouble D) (n : D) (ds : List (Fin 10)) : D :=
  ds.foldl (fun n d => F.digit n d.1) n

/-- An exponent that an `int` can hold. -/
structure Exponent where
  upper : Bool
  /-- `some true` for `-`, `some false` for `+` -/
  sign : Option Bool
  digits : List (Fin 10)
  fits : (digitsNat 0 digits : Int) ≤ intMax

/-- A number of JSON.  There is no point where there are no digits behind it. -/
structure Numeral where
  neg : Bool
  whole : List (Fin 10)
  frac : List (Fin 10)
  exp : Option Exponent
  whole_ok : whole.map Fin.val = [0] ∨ ∃ d ds, whole = d :: ds ∧ d.val ≠ 0

/-- The digits in front of the point are a lone zero or begin with another digit. -/
theorem Numeral.whole_cases (num : Numeral) :
    num.whole = [0] ∨ ∃ d ds, num.whole = d :: ds ∧ d ≠ 0 := by
  rcases num.whole_ok with hzero | ⟨d, ds, hwhole, hd⟩
  · obtain ⟨d, hwhole, hd⟩ := List.map_eq_singleton_iff.mp hzero
    obtain rfl : d = 0 := Fin.ext hd
    exact Or.inl hwhole
  · refine Or.inr ⟨d, ds, hwhole, ?_⟩
    rintro rfl
    exact hd rfl

def Exponent.signText (e : Exponent) : Bytes :=
  match e.sign with
  | none => []
  | some true => [Chr.minus]
  | some false => [43]

def Exponent.text (e : Exponent) : Bytes :=
  (if e.upper then 69 else 101) :: (e.signText ++ digitsText e.digits)

def Exponent.value (e : Exponent) : Int :=
  if e.sign = some true then -(digitsNat 0 e.digits : Int) else digitsNat 0 e.digits

def Numeral.text (num : Numeral) : Bytes :=
  (if num.neg then [Chr.minus] else []) ++ (digitsText num.whole ++
    ((if num.frac = [] then [] else Chr.dot :: digitsText num.frac) ++
      (num.exp.elim [] Exponent.text)))

/-- The digits before the point; a lone `0` is not added up. -/
def Numeral.wholeValue (F : CDouble D) (num : Numeral) : D :=
  if num.whole = [0] then F.zero else digitsDouble F F.zero num.whole

def Numeral.value (F : CDouble D) (num : Numeral) : D :=
  F.scaled num.neg (digitsDouble F (num.wholeValue F) num.frac)
    (num.exp.elim 0 Exponent.value - num.frac.length)

/-- The name of an entry and its colon; nothing in an array. -/
def SpellsName (named : Bool) (string : Option CText) (t : Bytes) : Prop :=
  if named then
    ∃ body v w w', StringBody body v ∧ Blank w ∧ Blank w' ∧ string = some (cText v) ∧
      t = Chr.quote :: (body ++ Chr.quote :: (w ++ Chr.colon :: w'))
  else string = none ∧ t = []

/-- An item; `nested` spells its children. -/
def SpellsValue (F : CDouble D) (kind : JsonKind D) (child : Items D)
    (nested : Bool → Bytes → Prop) (t : Bytes) : Prop :=
  match kind with
  | .null => child = .nil ∧ t = ascii "null"
  | .false => child = .nil ∧ t = ascii "false"
  | .true => child = .nil ∧ t = ascii "true"
  | .number d => child = .nil ∧ ∃ num : Numeral, num.value F = d ∧ t = num.text
  | .string s =>
    child = .nil ∧ ∃ body v, StringBody body v ∧ s = some (cText v) ∧
      t = Chr.quote :: (body ++ [Chr.quote])
  | .array =>
    ∃ t', t = Chr.openBracket :: (t' ++ [Chr.closeBracket]) ∧
      (child = .nil ∧ Blank t' ∨ nested false t')
  | .object =>
    ∃ t', t = Chr.openBrace :: (t' ++ [Chr.closeBrace]) ∧
      (child = .nil ∧ Blank t' ∨ nested true t')

/-- The items of a chain, and the commas between them. -/
def Items.Spells (F : CDouble D) : Bool → Items D → Bytes → Prop
  | _, .nil, _ => False
  | named, .cons string kind child next, t =>
    ∃ w name value w' rest, t = w ++ (name ++ (value ++ (w' ++ rest))) ∧ Blank w ∧ Blank w' ∧
      SpellsName named string name ∧
      SpellsValue F kind child (fun named t => child.Spells F named t) value ∧
      (next = .nil ∧ rest = [] ∨ ∃ t', rest = Chr.comma :: t' ∧ next.Spells F named t')

/-- A tree. -/
def Item.Spells (F : CDouble D) (item : Item D) (t : Bytes) : Prop :=
  SpellsValue F item.1 item.2 (fun named t => item.2.Spells F named t) t

/-- What may come behind an item: the end, white space, a comma or a closing bracket. -/
def Follow (rest : Bytes) : Prop :=
  ∀ c, rest.head? = some c →
    c ≤ 32 ∨ c = Chr.comma ∨ c = Chr.closeBracket ∨ c = Chr.closeBrace

/-! ## White space -/

/-- A run of one blank character is blank. -/
theorem blank_replicate {c : Byte} (n : Nat) (hc : c ≤ 32) : Blank (List.replicate n c) := by
  intro c' hc'
  rw [List.eq_of_mem_replicate hc']
  exact hc

/-- skip goes over any blank text. -/
theorem skip_blank {w : Bytes} (hw : Blank w) (t : Bytes) : skip (w ++ t) = skip t := by
  induction w with
  | nil => rfl
  | cons c w ih =>
    have hc : c ≤ 32 := hw c List.mem_cons_self
    have hrest := ih (fun c' hc' => hw c' (List.mem_cons_of_mem c hc'))
    rw [← hrest]
    simp [skip, hc]

/-- skip stops at a character that is not blank. -/
theorem skip_cons {c : Byte} (hc : 32 < c) (t : Bytes) : skip (c :: t) = c :: t := by
  have hnot : ¬ c ≤ 32 := UInt8.not_le.mpr hc
  simp [skip, hnot]

/-- Skipping twice is skipping once. -/
theorem skip_skip (value : Bytes) : skip (skip value) = skip value := by
  unfold skip
  exact List.dropWhile_idempotent _ value

/-- The items of a list are read behind any blanks in front of them. -/
theorem parseItems_skip (F : CDouble D) (fuel : Nat) (g : Grants) (named : Bool) (value : Bytes) :
    parseItems F fuel g named (skip value) = parseItems F fuel g named value := by
  cases fuel with
  | zero => rfl
  | succ fuel => rw [parseItems, parseItems, skip_skip]

/-! ## Numbers -/

/-- The character of a digit is a digit. -/
theorem isDigit_digitChar (d : Fin 10) : isDigit (digitChar d) = true := by
  revert d
  decide

/-- The character of a digit has the value of the digit. -/
theorem charDigit_digitChar (d : Fin 10) : charDigit (digitChar d) = d.1 := by
  revert d
  decide

/-- A character that cannot follow a value does not follow one. -/
theorem Follow.ne {rest : Bytes} (h : Follow rest) {c : Byte}
    (hc : ¬ (c ≤ 32 ∨ c = Chr.comma ∨ c = Chr.closeBracket ∨ c = Chr.closeBrace)) :
    rest.head? ≠ some c :=
  fun hhead => hc (h c hhead)

/-- The text does not go on with a digit. -/
def NoDigit (rest : Bytes) : Prop := ∀ c, rest.head? = some c → isDigit c = false

/-- No digit follows a value. -/
theorem Follow.noDigit {rest : Bytes} (h : Follow rest) : NoDigit rest := by
  intro c hc
  have hfollow := h c hc
  simp only [isDigit, decide_eq_false_iff_not]
  grind

/-- A spelled run of digits is read to its end, each digit once. -/
theorem parseDigits_spelled (F : CDouble D) (ds : List (Fin 10)) {rest : Bytes}
    (h : NoDigit rest) (n : D) :
    parseDigits F (digitsText ds ++ rest) n = (digitsDouble F n ds, ds.length, rest) := by
  induction ds generalizing n with
  | nil =>
    cases rest with
    | nil => rfl
    | cons c rest => simp [digitsText, parseDigits, h c rfl, digitsDouble]
  | cons d ds ih =>
    have hrest := ih (F.digit n d.1)
    simp only [digitsText, List.map_cons, List.cons_append] at hrest ⊢
    rw [parseDigits, if_pos (isDigit_digitChar d), charDigit_digitChar, hrest]
    rfl

/-- A number only grows as digits are read into it. -/
theorem digitsNat_le (ds : List (Fin 10)) (n : Nat) : n ≤ digitsNat n ds := by
  induction ds generalizing n with
  | nil => exact le_rfl
  | cons d ds ih =>
    have hrest := ih (n * 10 + d.1)
    simp only [digitsNat, List.foldl_cons] at hrest ⊢
    omega

/-- A spelled exponent is read as its value while that fits an int. -/
theorem parseSubscale_spelled {ds : List (Fin 10)} {rest : Bytes} (h : NoDigit rest) (n : Nat)
    (hfits : (digitsNat n ds : Int) ≤ intMax) :
    parseSubscale (digitsText ds ++ rest) n = .ok ((digitsNat n ds : Int), rest) := by
  induction ds generalizing n with
  | nil =>
    cases rest with
    | nil => rfl
    | cons c rest => simp [digitsText, parseSubscale, h c rfl, digitsNat]
  | cons d ds ih =>
    have hle := digitsNat_le ds (n * 10 + d.1)
    have hrest := ih (n * 10 + d.1) hfits
    have hlater : digitsNat n (d :: ds) = digitsNat (n * 10 + d.1) ds := rfl
    simp only [digitsText, List.map_cons, List.cons_append] at hrest ⊢
    rw [hlater] at hfits ⊢
    rw [parseSubscale, if_pos (isDigit_digitChar d), charDigit_digitChar, if_neg (by omega)]
    exact_mod_cast hrest

/-- An exponent, or none. -/
def expText (exp : Option Exponent) : Bytes := exp.elim [] Exponent.text

/-- No digit begins what follows the fraction of a number. -/
theorem expText_noDigit (exp : Option Exponent) {rest : Bytes} (h : Follow rest) :
    NoDigit (expText exp ++ rest) := by
  cases exp with
  | none => exact h.noDigit
  | some e =>
    intro c hc
    cases hu : e.upper <;> simp [expText, Exponent.text, hu] at hc <;> subst hc <;> rfl

/-- The exponent of a spelled number is read as its signed value. -/
theorem parseExponent_spelled (exp : Option Exponent) {rest : Bytes} (h : Follow rest) :
    parseExponent (expText exp ++ rest) = .ok (exp.elim 0 Exponent.value, rest) := by
  cases exp with
  | none =>
    have he := h.ne (c := 101) (by decide)
    have hE := h.ne (c := 69) (by decide)
    simp [expText, parseExponent, he, hE]
  | some e =>
    have hdigits := parseSubscale_spelled h.noDigit 0 e.fits
    have hletter : (expText (some e) ++ rest).head? = some 101 ∨
        (expText (some e) ++ rest).head? = some 69 := by
      cases hu : e.upper <;> simp [expText, Exponent.text, hu]
    rw [parseExponent, if_pos hletter]
    cases hsign : e.sign with
    | none =>
      -- the digits themselves follow, or the end
      have hhead : ∀ c : Byte, isDigit c = false →
          ¬ (c ≤ 32 ∨ c = Chr.comma ∨ c = Chr.closeBracket ∨ c = Chr.closeBrace) →
          (digitsText e.digits ++ rest).head? ≠ some c := by
        intro c hc hnot
        cases hd : e.digits with
        | nil => exact h.ne hnot
        | cons d ds =>
          intro hcontra
          have hsame : digitChar d = c := by simpa [digitsText] using hcontra
          rw [← hsame, isDigit_digitChar] at hc
          cases hc
      have htail : (expText (some e) ++ rest).tail = digitsText e.digits ++ rest := by
        simp [expText, Exponent.text, Exponent.signText, hsign]
      rw [htail, if_neg (hhead 43 (by decide) (by decide)),
        if_neg (hhead Chr.minus (by decide) (by decide))]
      simpa [Exponent.value, hsign] using hdigits
    | some minus =>
      cases minus with
      | false =>
        have htail : (expText (some e) ++ rest).tail = 43 :: (digitsText e.digits ++ rest) := by
          simp [expText, Exponent.text, Exponent.signText, hsign]
        rw [htail, List.head?_cons, if_pos rfl]
        simpa [Exponent.value, hsign] using hdigits
      | true =>
        have htail : (expText (some e) ++ rest).tail =
            Chr.minus :: (digitsText e.digits ++ rest) := by
          simp [expText, Exponent.text, Exponent.signText, hsign]
        rw [htail, List.head?_cons, if_neg (by decide), if_pos rfl, List.tail_cons]
        have hcast : ((0 : Nat) : Int) = 0 := rfl
        rw [hcast] at hdigits
        rw [hdigits, ok_bind]
        simp [Exponent.value, hsign]

/-- A fraction, or none. -/
def fracText (frac : List (Fin 10)) : Bytes :=
  if frac = [] then [] else Chr.dot :: digitsText frac

/-- No digit begins what follows the whole part of a number. -/
theorem fracText_noDigit (frac : List (Fin 10)) {rest : Bytes} (h : NoDigit rest) :
    NoDigit (fracText frac ++ rest) := by
  unfold fracText
  split
  · exact h
  · intro c hc
    obtain rfl : Chr.dot = c := by simpa using hc
    rfl

/-- The fraction of a spelled number is read to its end, and its digits are counted. -/
theorem parseFraction_spelled (F : CDouble D) (frac : List (Fin 10)) {rest : Bytes}
    (h : NoDigit rest) (hdot : rest.head? ≠ some Chr.dot) (n : D) :
    parseFraction F (fracText frac ++ rest) n =
      .ok (digitsDouble F n frac, frac.length, rest) := by
  cases frac with
  | nil => simp [fracText, parseFraction, hdot, digitsDouble]
  | cons d ds =>
    have hdigits := parseDigits_spelled F ds h (F.digit n d.1)
    have htext : fracText (d :: ds) ++ rest =
        Chr.dot :: digitChar d :: (digitsText ds ++ rest) := by
      simp [fracText, digitsText]
    rw [htext, parseFraction, List.head?_cons, if_pos rfl]
    simp only [List.tail_cons, charDigit_digitChar, hdigits]
    rfl

/-- The whole part of a spelled number is read to its end, behind a first zero or not. -/
theorem parseWhole_spelled (F : CDouble D) (num : Numeral) {rest : Bytes} (h : NoDigit rest) :
    parseWhole F (passIf Chr.zero (digitsText num.whole ++ rest)) =
      (num.wholeValue F, rest) := by
  rcases num.whole_cases with hzero | ⟨d, ds, hwhole, hd⟩
  · have hpass : passIf Chr.zero (digitsText num.whole ++ rest) = rest := by
      rw [hzero]
      rfl
    have hstop : rest.head?.any isFirstDigit = false := by
      cases rest with
      | nil => rfl
      | cons c rest =>
        have hc := h c rfl
        simp only [isDigit, decide_eq_false_iff_not] at hc
        simp only [List.head?_cons, Option.any_some, isFirstDigit, decide_eq_false_iff_not]
        grind
    rw [hpass, parseWhole, if_neg (by simp [hstop]), Numeral.wholeValue, if_pos hzero]
  · have hone : ∀ d : Fin 10, d ≠ 0 → digitChar d ≠ Chr.zero ∧ isFirstDigit (digitChar d) := by
      decide
    obtain ⟨hne, hfirst⟩ := hone d hd
    have hpass : passIf Chr.zero (digitsText num.whole ++ rest) =
        digitsText num.whole ++ rest := by
      simp [passIf, hwhole, digitsText, hne]
    have hmany : num.whole ≠ [0] := by
      rw [hwhole]
      simp [hd]
    have hdigits := parseDigits_spelled F num.whole h F.zero
    have hgo : (digitsText num.whole ++ rest).head?.any isFirstDigit = true := by
      simp [hwhole, digitsText, hfirst]
    rw [hpass, parseWhole, if_pos hgo, hdigits, Numeral.wholeValue, if_neg hmany]

/-- `parse_number` reads a number of JSON, however it goes on. -/
theorem parseNumber_spelled (F : CDouble D) (num : Numeral) {rest : Bytes} (h : Follow rest) :
    parseNumber F (num.text ++ rest) = .ok (num.value F, rest) := by
  have hexp := expText_noDigit num.exp h
  have hdot : (expText num.exp ++ rest).head? ≠ some Chr.dot := by
    cases hnum : num.exp with
    | none => exact h.ne (by decide)
    | some e =>
      cases hu : e.upper <;> simp [expText, Exponent.text, hu] <;> decide
  have hfrac := fracText_noDigit num.frac hexp
  have hhead : ∀ t : Bytes, (digitsText num.whole ++ t).head? ≠ some Chr.minus := by
    intro t
    have hany : ∀ d : Fin 10, digitChar d ≠ Chr.minus := by decide
    rcases num.whole_cases with hzero | ⟨d, ds, hwhole, -⟩
    · rw [hzero]
      exact fun hc => hany 0 (Option.some.inj hc)
    · rw [hwhole]
      exact fun hc => hany d (Option.some.inj hc)
  have htext : num.text ++ rest = (if num.neg then [Chr.minus] else []) ++
      (digitsText num.whole ++ (fracText num.frac ++ (expText num.exp ++ rest))) := by
    simp only [Numeral.text, fracText, expText, List.append_assoc]
  have hsign : ((num.text ++ rest).head? = some Chr.minus ↔ num.neg = true) ∧
      passIf Chr.minus (num.text ++ rest) =
        digitsText num.whole ++ (fracText num.frac ++ (expText num.exp ++ rest)) := by
    rw [htext]
    cases num.neg with
    | false =>
      have hnot := hhead (fracText num.frac ++ (expText num.exp ++ rest))
      simp only [Bool.false_eq_true, if_false, List.nil_append]
      exact ⟨iff_of_false hnot (by simp), by rw [passIf, if_neg hnot]⟩
    | true => exact ⟨by simp, rfl⟩
  simp only [parseNumber]
  rw [hsign.2, parseWhole_spelled F num hfrac, parseFraction_spelled F num.frac hexp hdot,
    ok_bind]
  simp only [parseExponent_spelled num.exp h, ok_bind, Numeral.value]
  simp only [hsign.1, Bool.decide_eq_true]

/-! ## Strings -/

/-- A hexadecimal digit lengthens the run that sscanf reads by one. -/
theorem hexValue_hexRun {h : Byte} {d width : Nat} {s : Bytes} (hd : hexValue h = some d) :
    hexRun (width + 1) (h :: s) = d :: hexRun width s := by
  rw [hexRun, hd]

/-- A hexadecimal digit is no white space, no sign and no `x`. -/
theorem hexValue_plain {h : Byte} {d : Nat} (hd : hexValue h = some d) :
    isSpace h = false ∧ h ≠ Chr.minus ∧ h ≠ 43 ∧ h ≠ 120 ∧ h ≠ 88 := by
  refine ⟨?_, ?_, ?_, ?_, ?_⟩
  · simp only [isSpace, decide_eq_false_iff_not]
    intro hmem
    fin_cases hmem <;> cases hd
  all_goals
    rintro rfl
    cases hd

/-- Four digits are what `%4x` reads. -/
theorem sscanf4x_digits {h₁ h₂ h₃ h₄ : Byte} {d₁ d₂ d₃ d₄ : Nat} (hd₁ : hexValue h₁ = some d₁)
    (hd₂ : hexValue h₂ = some d₂) (hd₃ : hexValue h₃ = some d₃) (hd₄ : hexValue h₄ = some d₄)
    (s : Bytes) :
    sscanf4x (h₁ :: h₂ :: h₃ :: h₄ :: s) = some (hexNumber [d₁, d₂, d₃, d₄]) := by
  obtain ⟨hspace, hminus, hplus, -, -⟩ := hexValue_plain hd₁
  obtain ⟨-, -, -, hx, hX⟩ := hexValue_plain hd₂
  have hrun : hexRun 4 (h₁ :: h₂ :: h₃ :: h₄ :: s) = [d₁, d₂, d₃, d₄] := by
    rw [hexValue_hexRun hd₁, hexValue_hexRun hd₂, hexValue_hexRun hd₃, hexValue_hexRun hd₄, hexRun]
  simp [sscanf4x, scanHex, hspace, hminus, hplus, hx, hX, hrun]

section Loops

variable {c : Byte} {ptr : Bytes} {len : Int} {uc : Option Nat} {b : OutBuf}

/-- The measure of a string stops at its quote. -/
theorem stringLen_quote : stringLen (Chr.quote :: ptr) len = .ok len := by
  rw [stringLen.eq_def]
  simp

/-- A plain character counts one, while the int can hold it. -/
theorem stringLen_plain (hq : c ≠ Chr.quote) (hb : c ≠ Chr.backslash) (hlen : len + 1 ≤ intMax) :
    stringLen (c :: ptr) len = stringLen ptr (len + 1) := by
  rw [stringLen.eq_def]
  simp [hq, hb, addInt, not_lt.mpr hlen]

/-- An escape counts one for its two characters. -/
theorem stringLen_escape (hlen : len + 1 ≤ intMax) :
    stringLen (Chr.backslash :: c :: ptr) len = stringLen ptr (len + 1) := by
  have hne : Chr.backslash ≠ Chr.quote := by decide
  rw [stringLen.eq_def]
  simp [hne, addInt, not_lt.mpr hlen]

/-- The copy of a string stops at its quote. -/
theorem unescape_quote : unescape (Chr.quote :: ptr) uc b = .ok (b, Chr.quote :: ptr) := by
  rw [unescape.eq_def]
  simp

/-- A plain character is copied as it is. -/
theorem unescape_plain (hq : c ≠ Chr.quote) (hb : c ≠ Chr.backslash) :
    unescape (c :: ptr) uc b = (do let b ← b.put c; unescape ptr uc b) := by
  rw [unescape.eq_def]
  simp [hq, hb]

/-- An escaped letter is copied as the character it stands for. -/
theorem unescape_letter (he : c ≠ 117) :
    unescape (Chr.backslash :: c :: ptr) uc b =
      (do let b ← b.put (unescapeLetter c); unescape ptr uc b) := by
  have hne : Chr.backslash ≠ Chr.quote := by decide
  rw [unescape.eq_def]
  simp [hne, he]

/-- A \u escape is copied as the UTF-8 bytes of its code. -/
theorem unescape_unicode {h₁ h₂ h₃ h₄ : Byte} {code : Nat}
    (hcode : sscanf4x (h₁ :: h₂ :: h₃ :: h₄ :: ptr) = some code) :
    unescape (Chr.backslash :: 117 :: h₁ :: h₂ :: h₃ :: h₄ :: ptr) uc b =
      (do let b ← b.write (utf8Bytes code); unescape ptr (some (utf8Rest code)) b) := by
  have hne : Chr.backslash ≠ Chr.quote := by decide
  rw [unescape.eq_def]
  simp [hne, hcode]

end Loops

/-- A character in UTF-8 takes no more than its four digits. -/
theorem utf8Bytes_length (uc : Nat) : (utf8Bytes uc).length ≤ 3 := by
  unfold utf8Bytes
  split
  · simp
  · split <;> simp

/-- The length that the first loop finds is enough for the second one. -/
theorem stringLen_spelled {body v : Bytes} (h : StringBody body v) (rest : Bytes) {len : Int}
    (hlen : len + body.length ≤ intMax) :
    ∃ len', stringLen (body ++ Chr.quote :: rest) len = .ok len' ∧ len + v.length ≤ len' ∧
      len' ≤ len + body.length := by
  induction h generalizing len with
  | nil => exact ⟨len, stringLen_quote, by simp, by simp⟩
  | @plain c s v hq hb hs ih =>
    simp only [List.length_cons] at hlen ⊢
    obtain ⟨len', hlen', hle, hmax⟩ := ih (show len + 1 + s.length ≤ intMax by omega)
    have hstep : stringLen (c :: (s ++ Chr.quote :: rest)) len = .ok len' := by
      rw [stringLen_plain hq hb (by omega), hlen']
    exact ⟨len', hstep, by omega, by omega⟩
  | @letter e s v he hs ih =>
    simp only [List.length_cons] at hlen ⊢
    obtain ⟨len', hlen', hle, hmax⟩ := ih (show len + 1 + s.length ≤ intMax by omega)
    have hstep : stringLen (Chr.backslash :: e :: (s ++ Chr.quote :: rest)) len = .ok len' := by
      rw [stringLen_escape (by omega), hlen']
    exact ⟨len', hstep, by omega, by omega⟩
  | @unicode h₁ h₂ h₃ h₄ d₁ d₂ d₃ d₄ s v hd₁ hd₂ hd₃ hd₄ hs ih =>
    simp only [List.length_cons] at hlen ⊢
    obtain ⟨len', hlen', hle, hmax⟩ :=
      ih (show len + 1 + 1 + 1 + 1 + 1 + s.length ≤ intMax by omega)
    have hplain : ∀ {h : Byte} {d : Nat}, hexValue h = some d →
        h ≠ Chr.quote ∧ h ≠ Chr.backslash := by
      intro h d hd
      constructor <;> rintro rfl <;> cases hd
    have hdigit : ∀ {h : Byte} {d : Nat} {l : Int} {t : Bytes}, hexValue h = some d →
        l + 1 ≤ intMax → stringLen (h :: t) l = stringLen t (l + 1) := by
      intro h d l t hd hl
      obtain ⟨hq, hb⟩ := hplain hd
      exact stringLen_plain hq hb hl
    have hstep : stringLen (Chr.backslash :: 117 :: h₁ :: h₂ :: h₃ :: h₄ ::
        (s ++ Chr.quote :: rest)) len = .ok len' := by
      rw [stringLen_escape (by omega), hdigit hd₁ (by omega), hdigit hd₂ (by omega),
        hdigit hd₃ (by omega), hdigit hd₄ (by omega), hlen']
    have hthree := utf8Bytes_length (hexNumber [d₁, d₂, d₃, d₄])
    rw [List.length_append]
    exact ⟨len', hstep, by push_cast; omega, by omega⟩

/-- A byte that fits in the block is written. -/
theorem OutBuf.put_ok {b : OutBuf} {c : Byte} (h : b.text.length < b.cap) :
    b.put c = .ok ⟨b.cap, b.text ++ [c]⟩ := by
  simp [OutBuf.put, h]

/-- A terminator that fits in the block is written. -/
theorem OutBuf.term_ok {b : OutBuf} (h : b.text.length < b.cap) : b.term = .ok b := by
  simp [OutBuf.term, h]

/-- Bytes that fit in the block are written. -/
theorem OutBuf.write_ok {b : OutBuf} {s : Bytes} (h : b.text.length + s.length ≤ b.cap) :
    b.write s = .ok ⟨b.cap, b.text ++ s⟩ := by
  simp [OutBuf.write, h]

/-- The second loop, in a block that is large enough. -/
theorem unescape_spelled {body v : Bytes} (h : StringBody body v) (rest : Bytes)
    {uc : Option Nat} {b : OutBuf} (hb : b.text.length + v.length < b.cap) :
    unescape (body ++ Chr.quote :: rest) uc b =
      .ok (⟨b.cap, b.text ++ v⟩, Chr.quote :: rest) := by
  induction h generalizing uc b with
  | nil => simp [unescape_quote]
  | plain hq hbs hs ih =>
    rw [List.length_cons] at hb
    rw [List.cons_append, unescape_plain hq hbs, OutBuf.put_ok (by omega), ok_bind,
      ih (by simp; omega)]
    simp
  | letter he hs ih =>
    rw [List.length_cons] at hb
    rw [List.cons_append, List.cons_append, unescape_letter he, OutBuf.put_ok (by omega), ok_bind,
      ih (by simp; omega)]
    simp
  | unicode hd₁ hd₂ hd₃ hd₄ hs ih =>
    rw [List.length_append] at hb
    simp only [List.cons_append]
    rw [unescape_unicode (sscanf4x_digits hd₁ hd₂ hd₃ hd₄ _), OutBuf.write_ok (by omega), ok_bind,
      ih (by simp; omega)]
    simp

/-- `parse_string` -/
theorem parseString_spelled {g : Grants} {place : List Nat} {body v : Bytes} (h : StringBody body v)
    (rest : Bytes) (hlen : (body.length : Int) < intMax) :
    Gives g (parseString (g place) (Chr.quote :: (body ++ Chr.quote :: rest))) (cText v, rest) := by
  obtain ⟨len, hcount, hle, hmax⟩ :=
    stringLen_spelled h rest (show 0 + (body.length : Int) ≤ intMax by omega)
  have hsize : addInt len 1 = .ok (len + 1) := by
    rw [addInt, if_neg (by omega)]
  have hbody : unescape (body ++ Chr.quote :: rest) none ⟨(len + 1).toNat, []⟩ = .ok _ :=
    unescape_spelled h rest (by simp; omega)
  have hterm : (OutBuf.mk (len + 1).toNat ([] ++ v)).term = .ok ⟨(len + 1).toNat, [] ++ v⟩ :=
    OutBuf.term_ok (by simp; omega)
  simp only [parseString, List.head?_cons, if_true, List.tail_cons, hcount, ok_bind, hsize]
  refine Gives.bind (cJSONMalloc_gives g place (by omega)) (fun h => h) ?_
  simp only [hbody, ok_bind, hterm]
  exact Gives.of_eq (by simp)

/-! ## Items -/

/-- A name and its colon are read, or nothing. -/
theorem parseName_spelled {g : Grants} {place : List Nat} {named : Bool} {string : Option CText}
    {t rest : Bytes} (h : SpellsName named string t) (hlen : (t.length : Int) ≤ intMax)
    (hrest : ∃ c s, rest = c :: s ∧ 32 < c) :
    Gives g (parseName (g place) named (t ++ rest)) (string, rest) := by
  unfold SpellsName at h
  unfold parseName
  split
  · rename_i hnamed
    rw [if_pos hnamed] at h
    obtain ⟨body, v, w, w', hbody, hw, hw', rfl, rfl⟩ := h
    obtain ⟨c, s, rfl, hc⟩ := hrest
    simp only [List.length_cons, List.length_append] at hlen
    have htext : Chr.quote :: (body ++ Chr.quote :: (w ++ Chr.colon :: w')) ++ c :: s =
        Chr.quote :: (body ++ Chr.quote :: (w ++ Chr.colon :: (w' ++ c :: s))) := by
      simp
    have hcolon : skip (w ++ Chr.colon :: (w' ++ c :: s)) = Chr.colon :: (w' ++ c :: s) := by
      rw [skip_blank hw, skip_cons (by decide)]
    have hvalue : skip (w' ++ c :: s) = c :: s := by
      rw [skip_blank hw', skip_cons hc]
    rw [htext]
    refine (parseString_spelled hbody _ (by omega)).bind (fun h => h) ?_
    simp only [hcolon, List.head?_cons, if_true, List.tail_cons, hvalue]
    exact rfl
  · rename_i hnamed
    rw [if_neg hnamed] at h
    obtain ⟨rfl, rfl⟩ := h
    exact rfl

/-- A new item, or no memory for it. -/
theorem newItem_gives {g : Grants} {place : List Nat} : Gives g (newItem (g place)) () := by
  unfold newItem
  split
  · exact rfl
  · rename_i hno
    exact ⟨rfl, place, by simpa using hno⟩

/-- A number begins with its sign or with a digit. -/
theorem Numeral.text_head (num : Numeral) :
    ∃ c s, num.text = c :: s ∧ (c = Chr.minus ∨ isDigit c) := by
  cases hneg : num.neg with
  | true => exact ⟨Chr.minus, _, by simp [Numeral.text, hneg]; rfl, Or.inl rfl⟩
  | false =>
    rcases num.whole_cases with hzero | ⟨d, ds, hwhole, -⟩
    · exact ⟨digitChar 0, _, by simp [Numeral.text, hneg, hzero, digitsText]; rfl,
        Or.inr (isDigit_digitChar 0)⟩
    · exact ⟨digitChar d, _, by simp [Numeral.text, hneg, hwhole, digitsText]; rfl,
        Or.inr (isDigit_digitChar d)⟩

section Values

variable {F : CDouble D} {g g' : Grants} {granted : Bool} {kind : JsonKind D} {child : Items D}
  {nested : Bool → Bytes → Prop} {value rest : Bytes}
  {items : Bool → Bytes → Except JsonStop (Items D × Bytes)}

/-- An item begins with a character that is neither space nor a closing bracket. -/
theorem SpellsValue.head (h : SpellsValue F kind child nested value) :
    ∃ c s, value = c :: s ∧ 32 < c ∧ c ≠ Chr.closeBracket ∧ c ≠ Chr.closeBrace := by
  cases kind with
  | null => exact ⟨_, _, h.2, by decide⟩
  | false => exact ⟨_, _, h.2, by decide⟩
  | true => exact ⟨_, _, h.2, by decide⟩
  | number d =>
    obtain ⟨-, num, -, rfl⟩ := h
    obtain ⟨c, s, hcs, hc⟩ := num.text_head
    refine ⟨c, s, hcs, ?_⟩
    rcases hc with rfl | hd
    · decide
    · simp only [isDigit, decide_eq_true_eq] at hd
      grind
  | string s =>
    obtain ⟨-, body, v, -, -, rfl⟩ := h
    exact ⟨_, _, rfl, by decide⟩
  | array =>
    obtain ⟨t, rfl, -⟩ := h
    exact ⟨_, _, rfl, by decide⟩
  | object =>
    obtain ⟨t, rfl, -⟩ := h
    exact ⟨_, _, rfl, by decide⟩

/-- An array or an object, behind its opening bracket. -/
theorem parseBlock_spelled {closing : Byte} {items : Bytes → Except JsonStop (Items D × Bytes)}
    {t : Bytes} {inner : Prop} (hclosing : 32 < closing)
    (ht : child = .nil ∧ Blank t ∨ inner)
    (hg : g'.Refuses → g.Refuses)
    (hitems : inner → (skip (t ++ closing :: rest)).head? ≠ some closing ∧
      Gives g' (items (skip (t ++ closing :: rest))) (child, closing :: rest)) :
    Gives g (parseBlock closing kind items (t ++ closing :: rest)) ((kind, child), rest) := by
  rcases ht with ⟨rfl, hblank⟩ | hinner
  · have hskip : skip (t ++ closing :: rest) = closing :: rest := by
      rw [skip_blank hblank, skip_cons hclosing]
    exact Gives.of_eq (by simp [parseBlock, hskip])
  · obtain ⟨hhead, hread⟩ := hitems hinner
    simp only [parseBlock, if_neg hhead]
    refine hread.bind hg ?_
    exact Gives.of_eq (by simp)

/-- A text with another first character does not begin with the word. -/
theorem take_ne {c : Byte} {s word : Bytes} {n : Nat} (h : word.head? ≠ some c) :
    (c :: s).take (n + 1) ≠ word := by
  rintro rfl
  exact h rfl

/-- A character that is not the first of a word decides what `parse_value` calls. -/
theorem parseValue_dispatch {c : Byte} {s : Bytes} (hn : c ≠ 110) (hf : c ≠ 102) (ht : c ≠ 116) :
    parseValue F granted items (c :: s) =
      if c = Chr.quote then do
        let (str, value) ← parseString granted (c :: s)
        .ok ((.string (some str), .nil), value)
      else if c = Chr.minus ∨ isDigit c then do
        let (d, value) ← parseNumber F (c :: s)
        .ok ((.number d, .nil), value)
      else if c = Chr.openBracket then parseArray items (c :: s)
      else if c = Chr.openBrace then parseObject items (c :: s)
      else .error (.malformed (c :: s)) := by
  have hnull : (ascii "null").head? ≠ some c := fun h => hn (Option.some.inj h).symm
  have hfalse : (ascii "false").head? ≠ some c := fun h => hf (Option.some.inj h).symm
  have htrue : (ascii "true").head? ≠ some c := fun h => ht (Option.some.inj h).symm
  rw [parseValue, if_neg (take_ne hnull), if_neg (take_ne hfalse), if_neg (take_ne htrue)]
  simp only [List.head?_cons, Option.some.injEq, Option.any_some]

/-- The children of an item with the text `value` are read by `items`. -/
def ChildrenRead (g : Grants) (child : Items D) (nested : Bool → Bytes → Prop) (value : Bytes)
    (items : Bool → Bytes → Except JsonStop (Items D × Bytes)) : Prop :=
  ∀ named t closing rest, nested named t →
    value = (if named then Chr.openBrace else Chr.openBracket) :: (t ++ [closing]) →
    closing = (if named then Chr.closeBrace else Chr.closeBracket) →
    (skip (t ++ closing :: rest)).head? ≠ some closing ∧
      Gives g (items named (skip (t ++ closing :: rest))) (child, closing :: rest)

/-- `parse_value` reads an item, if its children are read. -/
theorem parseValue_spelled {place : List Nat} (h : SpellsValue F kind child nested value)
    (hrest : Follow rest) (hlen : (value.length : Int) ≤ intMax) (hg : g'.Refuses → g.Refuses)
    (hitems : ChildrenRead g' child nested value items) :
    Gives g (parseValue F (g place) items (value ++ rest)) ((kind, child), rest) := by
  cases kind with
  | null =>
    obtain ⟨rfl, rfl⟩ := h
    exact rfl
  | false =>
    obtain ⟨rfl, rfl⟩ := h
    exact rfl
  | true =>
    obtain ⟨rfl, rfl⟩ := h
    exact rfl
  | number d =>
    obtain ⟨rfl, num, rfl, rfl⟩ := h
    obtain ⟨c, s, hcs, hc⟩ := num.text_head
    have hread := parseNumber_spelled F num hrest
    have hother : ∀ c : Byte, c = Chr.minus ∨ isDigit c → c ≠ 110 ∧ c ≠ 102 ∧ c ≠ 116 ∧
        c ≠ Chr.quote := by
      rintro c (rfl | hd)
      · decide
      · simp only [isDigit, decide_eq_true_eq] at hd
        grind
    obtain ⟨hn, hf, ht, hq⟩ := hother c hc
    rw [hcs, List.cons_append] at hread ⊢
    rw [parseValue_dispatch hn hf ht, if_neg hq, if_pos hc, hread, ok_bind]
    exact rfl
  | string s =>
    obtain ⟨rfl, body, v, hbody, rfl, rfl⟩ := h
    have htext : Chr.quote :: (body ++ [Chr.quote]) ++ rest =
        Chr.quote :: (body ++ Chr.quote :: rest) := by
      simp
    rw [htext, parseValue_dispatch (by decide) (by decide) (by decide), if_pos rfl]
    simp only [List.length_cons, List.length_append] at hlen
    exact (parseString_spelled hbody rest (by omega)).bind (fun h => h) rfl
  | array =>
    obtain ⟨t, rfl, ht⟩ := h
    have htext : Chr.openBracket :: (t ++ [Chr.closeBracket]) ++ rest =
        Chr.openBracket :: (t ++ Chr.closeBracket :: rest) := by
      simp
    rw [htext, parseValue_dispatch (by decide) (by decide) (by decide), if_neg (by decide),
      if_neg (by decide), if_pos rfl, parseArray, if_neg (by simp)]
    exact parseBlock_spelled (by decide) ht hg (fun hin => hitems false t _ rest hin rfl rfl)
  | object =>
    obtain ⟨t, rfl, ht⟩ := h
    have htext : Chr.openBrace :: (t ++ [Chr.closeBrace]) ++ rest =
        Chr.openBrace :: (t ++ Chr.closeBrace :: rest) := by
      simp
    rw [htext, parseValue_dispatch (by decide) (by decide) (by decide), if_neg (by decide),
      if_neg (by decide), if_neg (by decide), if_pos rfl, parseObject, if_neg (by simp)]
    exact parseBlock_spelled (by decide) ht hg (fun hin => hitems true t _ rest hin rfl rfl)

end Values

/-- An item and its name begin with no space and no closing bracket. -/
theorem item_head {F : CDouble D} {named : Bool} {string : Option CText} {kind : JsonKind D}
    {child : Items D} {nested : Bool → Bytes → Prop} {name value : Bytes}
    (hname : SpellsName named string name) (hvalue : SpellsValue F kind child nested value)
    (rest : Bytes) :
    ∃ c s, name ++ (value ++ rest) = c :: s ∧ 32 < c ∧ c ≠ Chr.closeBracket ∧
      c ≠ Chr.closeBrace := by
  unfold SpellsName at hname
  split at hname
  · obtain ⟨body, v, w, w', -, -, -, -, rfl⟩ := hname
    exact ⟨Chr.quote, _, rfl, by decide, by decide, by decide⟩
  · obtain ⟨-, rfl⟩ := hname
    obtain ⟨c, s, rfl, hc⟩ := hvalue.head
    exact ⟨c, _, rfl, hc⟩

/-- A chain begins, behind its white space, with no closing bracket. -/
theorem Items.Spells.head {F : CDouble D} {named : Bool} {items : Items D} {t : Bytes}
    (h : items.Spells F named t) (rest : Bytes) :
    ∃ c s, skip (t ++ rest) = c :: s ∧ c ≠ Chr.closeBracket ∧ c ≠ Chr.closeBrace := by
  cases items with
  | nil => exact h.elim
  | cons string kind child next =>
    obtain ⟨w, name, value, w', tail, rfl, hw, -, hname, hvalue, -⟩ := h
    obtain ⟨c, s, hcs, hc, hclose⟩ := item_head hname hvalue (w' ++ (tail ++ rest))
    have htext : w ++ (name ++ (value ++ (w' ++ tail))) ++ rest =
        w ++ (name ++ (value ++ (w' ++ (tail ++ rest)))) := by
      simp only [List.append_assoc]
    refine ⟨c, s, ?_, hclose⟩
    rw [htext, skip_blank hw, hcs, skip_cons hc]

/-- What comes behind an item of a chain. -/
theorem follow_item {w t : Bytes} (hw : Blank w)
    (ht : ∃ c s, t = c :: s ∧ (c = Chr.comma ∨ c = Chr.closeBracket ∨ c = Chr.closeBrace)) :
    Follow (w ++ t) := by
  obtain ⟨c, s, rfl, hc⟩ := ht
  intro c' hhead
  cases w with
  | nil =>
    obtain rfl : c = c' := Option.some.inj hhead
    exact Or.inr hc
  | cons c₁ w =>
    obtain rfl : c₁ = c' := Option.some.inj hhead
    exact Or.inl (hw c₁ List.mem_cons_self)

/-- The chain of children is shorter than the text of the item. -/
theorem children_read (F : CDouble D) (fuel : Nat) (g : Grants) (value : Bytes) {child : Items D}
    (hread : ∀ {named : Bool} {t : Bytes}, child.Spells F named t → t.length < fuel →
      (t.length : Int) ≤ intMax →
      ∀ closing : Byte, closing = Chr.closeBracket ∨ closing = Chr.closeBrace →
      ∀ rest, Gives g (parseItems F fuel g named (t ++ closing :: rest)) (child, closing :: rest))
    (hfuel : value.length ≤ fuel) (hlen : (value.length : Int) ≤ intMax) :
    ChildrenRead g child (fun named t => child.Spells F named t) value (parseItems F fuel g) := by
  intro named t closing rest ht hval hclose
  have hclosing : closing = Chr.closeBracket ∨ closing = Chr.closeBrace := by
    rw [hclose]
    cases named <;> simp
  have hlenval := congrArg List.length hval
  simp only [List.length_cons, List.length_append, List.length_nil] at hlenval
  obtain ⟨c, s, hcs, hbracket, hbrace⟩ := ht.head (closing :: rest)
  constructor
  · rw [hcs]
    intro hsame
    obtain rfl : c = closing := Option.some.inj hsame
    exact hclosing.elim hbracket hbrace
  · rw [parseItems_skip]
    exact hread ht (by omega) (by omega) closing hclosing rest

/-- **A chain is read** up to its closing bracket. -/
theorem parseItems_spelled {F : CDouble D} {g : Grants} {named : Bool} {items : Items D} {t : Bytes}
    (h : items.Spells F named t) {fuel : Nat} (hfuel : t.length < fuel)
    (hlen : (t.length : Int) ≤ intMax) {closing : Byte}
    (hclosing : closing = Chr.closeBracket ∨ closing = Chr.closeBrace) (rest : Bytes) :
    Gives g (parseItems F fuel g named (t ++ closing :: rest)) (items, closing :: rest) := by
  induction items generalizing g named t fuel closing rest with
  | nil => exact h.elim
  | cons string kind child next ihc ihn =>
    obtain ⟨w, name, value, w', tail, rfl, hw, hw', hname, hvalue, htail⟩ := h
    cases fuel with
    | zero => exact absurd hfuel (Nat.not_lt_zero _)
    | succ fuel =>
      simp only [List.length_append] at hfuel hlen
      have hafter : ∃ c s, tail ++ closing :: rest = c :: s ∧
          (c = Chr.comma ∨ c = Chr.closeBracket ∨ c = Chr.closeBrace) := by
        rcases htail with ⟨-, rfl⟩ | ⟨t', rfl, -⟩
        · exact ⟨closing, rest, rfl, Or.inr hclosing⟩
        · exact ⟨Chr.comma, _, rfl, Or.inl rfl⟩
      have htext : w ++ (name ++ (value ++ (w' ++ tail))) ++ closing :: rest =
          w ++ (name ++ (value ++ (w' ++ (tail ++ closing :: rest)))) := by
        simp only [List.append_assoc]
      have hchild := children_read F fuel (g.below 3) value
        (fun ht hfuel hlen _ hclose rest => ihc ht hfuel hlen hclose rest) (by omega) (by omega)
      obtain ⟨c, s, hcs, hc, -⟩ := item_head hname hvalue (w' ++ (tail ++ closing :: rest))
      obtain ⟨cv, sv, hcv, hcv32, -⟩ := hvalue.head
      have hread : Gives g (parseValue F (g [2]) (parseItems F fuel (g.below 3))
          (value ++ (w' ++ (tail ++ closing :: rest)))) _ :=
        parseValue_spelled hvalue (follow_item hw' hafter) (by omega) Grants.Refuses.of_below hchild
      have hstop : skip (tail ++ closing :: rest) = tail ++ closing :: rest := by
        obtain ⟨c, s, hcs, hc⟩ := hafter
        rw [hcs]
        refine skip_cons ?_ s
        rcases hc with rfl | rfl | rfl <;> decide
      rw [htext, parseItems, skip_blank hw, hcs, skip_cons hc, ← hcs]
      refine newItem_gives.bind (fun h => h) ?_
      refine (parseName_spelled hname (by omega) ⟨cv, _, by rw [hcv]; rfl, hcv32⟩).bind
        (fun h => h) ?_
      refine hread.bind (fun h => h) ?_
      simp only [skip_blank hw', hstop]
      rcases htail with ⟨rfl, rfl⟩ | ⟨t', rfl, ht'⟩
      · have hnocomma : closing ≠ Chr.comma := by
          rcases hclosing with rfl | rfl <;> decide
        exact Gives.of_eq (by simp [hnocomma])
      · simp only [List.length_cons] at hfuel hlen
        have hnext : Gives (g.below 4) _ _ := ihn ht' (show t'.length < fuel by omega) (by omega)
          hclosing rest
        rw [List.cons_append, List.head?_cons, if_pos rfl, List.tail_cons]
        exact hnext.bind Grants.Refuses.of_below rfl

/-- A text of a tree is read as this tree, with white space before it. -/
theorem parse_spelled {F : CDouble D} (g : Grants) {item : Item D} {w value rest : Bytes}
    (hw : Blank w) (hvalue : Item.Spells F item value) (hrest : Follow rest)
    (hlen : (value.length : Int) ≤ intMax) {text : CText} (htext : text.1 = w ++ (value ++ rest)) :
    Gives g (cJSONParse F g text) item := by
  obtain ⟨c, s, hcs, hc, -⟩ := hvalue.head
  have hskip : skip (w ++ (value ++ rest)) = value ++ rest := by
    rw [skip_blank hw, hcs, List.cons_append, skip_cons hc]
  have hchild : ChildrenRead (g.below 3) item.2 _ value
      (parseItems F ((w ++ (value ++ rest)).length + 1) (g.below 3)) :=
    children_read F _ (g.below 3) value
      (fun ht hfuel hlen _ hclose rest => parseItems_spelled ht hfuel hlen hclose rest)
      (by simp only [List.length_append]; omega) hlen
  have hread : Gives g (parseValue F (g [2]) _ (value ++ rest)) _ :=
    parseValue_spelled hvalue hrest hlen Grants.Refuses.of_below hchild
  rw [cJSONParse, htext, hskip]
  refine newItem_gives.bind (fun h => h) ?_
  exact hread.bind (fun h => h) rfl

/-- **Every text of a tree is read as this tree**, or `0` is returned as a block is refused;
white space may stand before the text, and behind it anything that does not go on with a
number.  It is a text of no other tree. -/
theorem cJSONParse_grammar {F : CDouble D} {item : Item D} {w value rest : Bytes}
    (hw : Blank w) (hvalue : Item.Spells F item value) (hrest : Follow rest)
    (hlen : (value.length : Int) ≤ intMax) {text : CText} (htext : text.1 = w ++ (value ++ rest)) :
    (∀ g, Gives g (cJSONParse F g text) item) ∧
      ∀ item', Item.Spells F item' value → item' = item := by
  refine ⟨fun g => parse_spelled g hw hvalue hrest hlen htext, fun item' hother => ?_⟩
  have hread := (parse_spelled .all hw hvalue hrest hlen htext).all
  have hsame := (parse_spelled .all hw hother hrest hlen htext).all
  exact Except.ok.inj (hsame.symm.trans hread)

/-- A name, an array of a number and of a character in its longer form. -/
theorem cJSONParse_grammar_sample :
    let item : Item Int := (.object, .cons (some (cText [107])) .array
      (.cons none (.number 12) .nil (.cons none (.string (some (cText [65]))) .nil .nil)) .nil)
    (∀ g, Gives g (cJSONParse wholeDouble g
        ⟨ascii " \x7b\"k\" :[12,\"\\u0041\"]\n\x7d ]", by decide⟩) item) ∧
      ∀ item', Item.Spells wholeDouble item' (ascii "\x7b\"k\" :[12,\"\\u0041\"]\n\x7d") →
        item' = item := by
  intro item
  have hspace : Blank [32] := blank_replicate 1 (by decide)
  have hline : Blank [10] := blank_replicate 1 (by decide)
  have hnone : Blank [] := fun c hc => (nomatch hc)
  have hkey : StringBody [107] [107] := .plain (by decide) (by decide) .nil
  have hchar : StringBody (ascii "\\u0041") [65] :=
    .unicode (rfl : hexValue 48 = some 0) (rfl : hexValue 48 = some 0)
      (rfl : hexValue 52 = some 4) (rfl : hexValue 49 = some 1) .nil
  let num : Numeral := ⟨false, [1, 2], [], none, Or.inr ⟨1, [2], rfl, by decide⟩⟩
  have hvalue : Item.Spells wholeDouble item (ascii "\x7b\"k\" :[12,\"\\u0041\"]\n\x7d") := by
    refine ⟨ascii "\"k\" :[12,\"\\u0041\"]\n", by decide, Or.inr ?_⟩
    refine ⟨[], ascii "\"k\" :", ascii "[12,\"\\u0041\"]", [10], [], by decide, hnone, hline,
      ?_, ?_, Or.inl ⟨rfl, rfl⟩⟩
    · exact ⟨[107], [107], [32], [], hkey, hspace, hnone, rfl, by decide⟩
    · refine ⟨ascii "12,\"\\u0041\"", by decide, Or.inr ?_⟩
      refine ⟨[], [], ascii "12", [], ascii ",\"\\u0041\"", by decide, hnone, hnone, ⟨rfl, rfl⟩,
        ⟨rfl, num, by decide, by decide⟩, Or.inr ⟨_, rfl, ?_⟩⟩
      exact ⟨[], [], ascii "\"\\u0041\"", [], [], by decide, hnone, hnone, ⟨rfl, rfl⟩,
        ⟨rfl, _, _, hchar, rfl, by decide⟩, Or.inl ⟨rfl, rfl⟩⟩
  have hfollow : Follow (ascii " ]") := by
    intro c hc
    obtain rfl : 32 = c := Option.some.inj hc
    exact Or.inl (by decide)
  exact cJSONParse_grammar (w := [32]) hspace hvalue hfollow (by decide) (by decide)

end MonkeyCache
