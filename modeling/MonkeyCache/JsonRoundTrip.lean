import MonkeyCache.JsonGrammar
import MonkeyCache.JsonPrint

/-!
# A printed tree is read back

`treeText` follows the grammar, with or without the formatting, so `cJSON_Parse` gives
back what `cJSON_Print` printed (`cJSONParse_print`).  The strings come back as they
were, whatever bytes are in them.  A number comes back as its text says (`reread`):
`%f` keeps six places, and `print_number` takes a double near an `int` for the `int`.
The text of an infinity is not a number of JSON, so it is excluded (`Prints`); and so are
texts of more than 10^9 bytes, whose lengths may be beyond `INT_MAX`.

* `escape_spelled`, `decimalNumeral` — strings and the `int`s.
* `render_spelled` — a chain, by induction on it.
* `reread_int` — an `int` comes back as it was.
-/

namespace MonkeyCache

open Fallible

variable {D : Type}

/-! ## Strings -/

/-- A hexadecimal digit is read as what it was printed for. -/
theorem hexValue_hexDigit {n : Nat} (h : n < 16) : hexValue (hexDigit n) = some n := by
  interval_cases n <;> rfl

/-- What `print_string_ptr` writes for a character means this character. -/
theorem escapeChar_spelled (token : Byte) {s v : Bytes} (h : StringBody s v) :
    StringBody (escapeChar token ++ s) (token :: v) := by
  unfold escapeChar
  split
  · rename_i hplain
    exact .plain hplain.2.1 hplain.2.2 h
  · rename_i hplain
    split
    · rename_i hshort
      have hletter : shortEscape token ≠ 117 ∧ unescapeLetter (shortEscape token) = token := by
        simp only [hasShortEscape, decide_eq_true_eq] at hshort
        fin_cases hshort <;> decide
      have hspelled := StringBody.letter hletter.1 h
      rwa [hletter.2] at hspelled
    · rename_i hshort
      have hlow : token.toNat < 32 := by
        simp only [hasShortEscape, decide_eq_true_eq] at hshort
        have h31 : ¬ 31 < token := by grind
        have hle := UInt8.le_iff_toNat_le.mp (UInt8.not_lt.mp h31)
        have h31nat : (31 : Byte).toNat = 31 := rfl
        omega
      have hspelled := StringBody.unicode
        (hexValue_hexDigit (n := token.toNat / 4096 % 16) (by omega))
        (hexValue_hexDigit (n := token.toNat / 256 % 16) (by omega))
        (hexValue_hexDigit (n := token.toNat / 16 % 16) (by omega))
        (hexValue_hexDigit (n := token.toNat % 16) (by omega)) h
      have hnumber : hexNumber [token.toNat / 4096 % 16, token.toNat / 256 % 16,
          token.toNat / 16 % 16, token.toNat % 16] = token.toNat := by
        simp only [hexNumber, List.foldl_cons, List.foldl_nil]
        omega
      have hutf8 : utf8Bytes token.toNat = [token] := by
        have hlen : utf8Len token.toNat = 1 := by
          rw [utf8Len, if_pos (by omega)]
        simp [utf8Bytes, hlen]
      rw [hnumber, hutf8] at hspelled
      exact hspelled

/-- What `print_string_ptr` writes for a string means this string. -/
theorem escape_spelled (str : Bytes) : StringBody (str.flatMap escapeChar) str := by
  induction str with
  | nil => exact .nil
  | cons token str ih => exact escapeChar_spelled token ih

/-- A C string ends at its terminator and nowhere before. -/
theorem cText_text (s : CText) : cText s.1 = s := by
  apply Subtype.ext
  show s.1.takeWhile (· ≠ 0) = s.1
  rw [List.takeWhile_eq_self_iff]
  intro c hc
  have hne : c ≠ 0 := fun h => s.2 (h ▸ hc)
  simpa using hne

/-! ## Numbers -/

/-- The last digit of a number. -/
def lastDigit (n : Nat) : Fin 10 := ⟨n % 10, Nat.mod_lt n (by decide)⟩

/-- The digits of a number, the first one first. -/
def decimalDigits (n : Nat) : List (Fin 10) :=
  if n = 0 then [lastDigit 0] else (Nat.digits 10 n).reverse.map lastDigit

/-- The digits are those that `%u` prints. -/
theorem decimalDigits_text (n : Nat) : digitsText (decimalDigits n) = decimalNat n := by
  unfold decimalDigits decimalNat digitsText
  split
  · rfl
  · rw [List.map_map]
    apply List.map_congr_left
    intro d hd
    have hlt : d < 10 := Nat.digits_lt_base (by decide) (List.mem_reverse.mp hd)
    simp [digitChar, lastDigit, Nat.mod_eq_of_lt hlt]

/-- Digits from the first one on, and from the last one on. -/
theorem digitsNat_ofDigits (ds : List Nat) (h : ∀ d ∈ ds, d < 10) :
    digitsNat 0 (ds.reverse.map lastDigit) = Nat.ofDigits 10 ds := by
  induction ds with
  | nil => rfl
  | cons d ds ih =>
    have hd : d % 10 = d := Nat.mod_eq_of_lt (h d List.mem_cons_self)
    have hds := ih (fun d' hd' => h d' (List.mem_cons_of_mem d hd'))
    simp only [digitsNat, List.reverse_cons, List.map_append, List.foldl_append] at hds ⊢
    rw [hds, Nat.ofDigits_cons]
    simp [lastDigit, hd]
    omega

/-- The digits of a number make up this number. -/
theorem decimalDigits_value (n : Nat) : digitsNat 0 (decimalDigits n) = n := by
  unfold decimalDigits
  split
  · rename_i hzero
    exact hzero.symm
  · rw [digitsNat_ofDigits _ (fun d hd => Nat.digits_lt_base (by decide) hd), Nat.ofDigits_digits]

/-- No leading zero. -/
theorem decimalDigits_ok (n : Nat) :
    (decimalDigits n).map Fin.val = [0] ∨ ∃ d ds, decimalDigits n = d :: ds ∧ d.val ≠ 0 := by
  by_cases hzero : n = 0
  · exact Or.inl (by simp [decimalDigits, hzero, lastDigit])
  · have hlast := Nat.getLast_digit_ne_zero 10 hzero
    have hne : Nat.digits 10 n ≠ [] := Nat.digits_ne_nil_iff_ne_zero.mpr hzero
    have hlt : (Nat.digits 10 n).getLast hne < 10 :=
      Nat.digits_lt_base (by decide) (List.getLast_mem hne)
    refine Or.inr ⟨lastDigit ((Nat.digits 10 n).getLast hne),
      ((Nat.digits 10 n).dropLast.reverse).map lastDigit, ?_, ?_⟩
    · rw [decimalDigits, if_neg hzero, ← List.map_cons, ← List.reverse_concat,
        List.dropLast_append_getLast hne]
    · intro hcontra
      simp only [lastDigit, Nat.mod_eq_of_lt hlt] at hcontra
      exact hlast hcontra

/-- What `%d` prints, as a number of JSON. -/
def decimalNumeral (i : Int) : Numeral where
  neg := i < 0
  whole := decimalDigits i.natAbs
  frac := []
  exp := none
  whole_ok := decimalDigits_ok i.natAbs

/-- The text of this number of JSON is that of `%d`. -/
theorem decimalNumeral_text (i : Int) : (decimalNumeral i).text = decimal i := by
  by_cases hneg : i < 0
  · simp [Numeral.text, decimalNumeral, decimal, hneg, decimalDigits_text]
  · simp [Numeral.text, decimalNumeral, decimal, hneg, decimalDigits_text]

/-- The text of a number is one that JSON has. -/
def IsNumeral (F : CDouble D) (d : D) : Prop := ∃ num : Numeral, num.text = numberText F d

/-- A number can be printed, and its text is a number. -/
def Prints (F : CDouble D) (d : D) : Prop := FitsBlock F d ∧ IsNumeral F d

/-- What the text of a number says. -/
def reread (F : CDouble D) (d : D) : D :=
  match parseNumber F (numberText F d) with
  | .ok (d', _) => d'
  | .error _ => d

/-- A text may end behind a number. -/
theorem follow_nil : Follow [] := fun _ h => nomatch h

/-- A number of JSON with this text has the value that is read. -/
theorem reread_spelled {F : CDouble D} {d : D} {num : Numeral} (h : num.text = numberText F d) :
    num.value F = reread F d := by
  have hread := parseNumber_spelled F num follow_nil
  rw [List.append_nil, h] at hread
  rw [reread, hread]

/-- Every `int` can be printed. -/
theorem prints_int {F : CDouble D} {d : D} (h : F.isInt d) : Prints F d := by
  refine ⟨Or.inl h, decimalNumeral (F.toInt d), ?_⟩
  rw [decimalNumeral_text, numberText, if_pos h]

/-! ## Trees -/

/-- The kind of an item, with its number changed. -/
def JsonKind.map (f : D → D) : JsonKind D → JsonKind D
  | .number d => .number (f d)
  | kind => kind

/-- A chain with its numbers changed. -/
def Items.map (f : D → D) : Items D → Items D
  | .nil => .nil
  | .cons string kind child next => .cons string (kind.map f) (child.map f) (next.map f)

/-- A tree with its numbers changed. -/
def Item.map (f : D → D) (item : Item D) : Item D := (item.1.map f, item.2.map f)

/-- The text of a chain, between its brackets. -/
def bodyText (fmt named : Bool) (depth : Nat) (entries : List (Bytes × Bytes)) : Bytes :=
  if named then objectBody fmt depth entries else arrayBody fmt (entries.map Prod.snd)

/-- Formatting is white space, or nothing. -/
theorem blank_if {fmt : Bool} {w : Bytes} (hw : Blank w) : Blank (if fmt then w else []) := by
  cases fmt with
  | false => exact fun c hc => absurd hc List.not_mem_nil
  | true => exact hw

section Spelled

variable {F : CDouble D} {named : Bool} {items : Items D} {w t : Bytes}

/-- White space may stand before a chain. -/
theorem Items.Spells.blank_left (h : items.Spells F named t) (hw : Blank w) :
    items.Spells F named (w ++ t) := by
  cases items with
  | nil => exact h.elim
  | cons string kind child next =>
    obtain ⟨w₁, name, value, w₂, rest, rfl, hw₁, hw₂, htail⟩ := h
    have hblank : Blank (w ++ w₁) := by
      intro c hc
      exact (List.mem_append.mp hc).elim (hw c) (hw₁ c)
    exact ⟨w ++ w₁, name, value, w₂, rest, by simp, hblank, hw₂, htail⟩

/-- White space may stand behind a chain. -/
theorem Items.Spells.blank_right (h : items.Spells F named t) (hw : Blank w) :
    items.Spells F named (t ++ w) := by
  induction items generalizing t with
  | nil => exact h.elim
  | cons string kind child next ihc ihn =>
    obtain ⟨w₁, name, value, w₂, rest, rfl, hw₁, hw₂, hname, hvalue, htail⟩ := h
    rcases htail with ⟨hnil, rfl⟩ | ⟨t', rfl, ht'⟩
    · have hblank : Blank (w₂ ++ w) := by
        intro c hc
        exact (List.mem_append.mp hc).elim (hw₂ c) (hw c)
      exact ⟨w₁, name, value, w₂ ++ w, [], by simp, hw₁, hblank, hname, hvalue,
        Or.inl ⟨hnil, rfl⟩⟩
    · exact ⟨w₁, name, value, w₂, Chr.comma :: (t' ++ w), by simp, hw₁, hw₂, hname, hvalue,
        Or.inr ⟨t' ++ w, rfl, ihn ht'⟩⟩

/-- An item, once its children are spelled. -/
theorem valueText_spelled {fmt : Bool} {depth : Nat} {kind : JsonKind D} {child : Items D}
    (hwf : Item.Wf (kind, child)) (hnum : kind.Every (Prints F) (child.Every (Prints F)))
    (hchild : ∀ named, child.Wf named → child.Every (Prints F) → child ≠ .nil →
      (child.map (reread F)).Spells F named
        (bodyText fmt named (depth + 1) (render F fmt named (depth + 1) child))) :
    Item.Spells F (kind.map (reread F), child.map (reread F))
      (valueText F fmt depth kind (fun named => render F fmt named (depth + 1) child)) := by
  cases kind with
  | null =>
    obtain rfl : child = .nil := hwf
    exact ⟨rfl, rfl⟩
  | false =>
    obtain rfl : child = .nil := hwf
    exact ⟨rfl, rfl⟩
  | true =>
    obtain rfl : child = .nil := hwf
    exact ⟨rfl, rfl⟩
  | number d =>
    obtain rfl : child = .nil := hwf
    obtain ⟨num, htext⟩ := hnum.2
    exact ⟨rfl, num, reread_spelled htext, htext.symm⟩
  | string s =>
    obtain ⟨hsome, rfl⟩ : s.isSome ∧ child = .nil := hwf
    obtain ⟨str, rfl⟩ := Option.isSome_iff_exists.mp hsome
    exact ⟨rfl, str.1.flatMap escapeChar, str.1, escape_spelled str.1, by rw [cText_text], rfl⟩
  | array =>
    refine ⟨arrayBody fmt ((render F fmt false (depth + 1) child).map Prod.snd), rfl, ?_⟩
    by_cases hnil : child = .nil
    · subst hnil
      exact Or.inl ⟨rfl, by simp [render, arrayBody, Blank]⟩
    · exact Or.inr (hchild false hwf hnum hnil)
  | object =>
    have hline : Blank (if fmt then [Chr.newline] else []) :=
      blank_if (blank_replicate 1 (by decide))
    have htabs : Blank (if fmt then List.replicate depth Chr.tab else []) :=
      blank_if (blank_replicate depth (by decide))
    refine ⟨(if fmt then [Chr.newline] else []) ++
      (objectBody fmt (depth + 1) (render F fmt true (depth + 1) child) ++
        (if fmt then List.replicate depth Chr.tab else [])), ?_, ?_⟩
    · simp [valueText, objectText]
    · by_cases hnil : child = .nil
      · subst hnil
        refine Or.inl ⟨rfl, ?_⟩
        intro c hc
        simp only [render, objectBody, List.nil_append] at hc
        exact (List.mem_append.mp hc).elim (hline c) (htabs c)
      · have hbody := hchild true hwf hnum hnil
        exact Or.inr ((hbody.blank_right htabs).blank_left hline)

/-- Only the empty chain has no texts. -/
theorem render_eq_nil {fmt : Bool} {depth : Nat} :
    render F fmt named depth items = [] ↔ items = .nil := by
  cases items with
  | nil => exact ⟨fun _ => rfl, fun _ => rfl⟩
  | cons string kind child next => simp [render]

/-- A printed chain follows the grammar. -/
theorem render_spelled (fmt : Bool) (depth : Nat) (hwf : items.Wf named)
    (hnum : items.Every (Prints F)) (hne : items ≠ .nil) :
    (items.map (reread F)).Spells F named
      (bodyText fmt named depth (render F fmt named depth items)) := by
  induction items generalizing named depth with
  | nil => exact absurd rfl hne
  | cons string kind child next ihc ihn =>
    obtain ⟨hstring, hkind, hnext⟩ := hwf
    have hvalue : Item.Spells F (kind.map (reread F), child.map (reread F)) (valueText F fmt depth
        kind (fun named => render F fmt named (depth + 1) child)) :=
      valueText_spelled hkind hnum.1 (fun named hwf hnum hne => ihc (depth + 1) hwf hnum hne)
    have hline : Blank (if fmt then [Chr.newline] else []) :=
      blank_if (blank_replicate 1 (by decide))
    have hspace : Blank (if fmt then [Chr.space] else []) :=
      blank_if (blank_replicate 1 (by decide))
    have htab : Blank (if fmt then [Chr.tab] else []) := blank_if (blank_replicate 1 (by decide))
    have htabs : Blank (if fmt then List.replicate depth Chr.tab else []) :=
      blank_if (blank_replicate depth (by decide))
    have hnone : Blank [] := fun c hc => absurd hc List.not_mem_nil
    cases named with
    | false =>
      obtain rfl : string = none := by simpa using hstring
      by_cases hlast : next = .nil
      · subst hlast
        exact ⟨[], [], _, [], [], by simp [bodyText, render, arrayBody], hnone, hnone, ⟨rfl, rfl⟩,
          hvalue, Or.inl ⟨rfl, rfl⟩⟩
      · have hmore : (render F fmt false depth next).map Prod.snd ≠ [] := by
          simpa [render_eq_nil] using hlast
        exact ⟨[], [], _, [], _, by simp [bodyText, render, arrayBody, hmore], hnone, hnone,
          ⟨rfl, rfl⟩, hvalue, Or.inr ⟨_, rfl, (ihn depth hnext hnum.2 hlast).blank_left hspace⟩⟩
    | true =>
      obtain ⟨s, rfl⟩ := Option.isSome_iff_exists.mp hstring
      have hname : SpellsName true (some s)
          (quoted s ++ (Chr.colon :: if fmt then [Chr.tab] else [])) :=
        ⟨s.1.flatMap escapeChar, s.1, [], _, escape_spelled s.1, hnone, htab, by rw [cText_text],
          by simp [quoted]⟩
      by_cases hlast : next = .nil
      · subst hlast
        exact ⟨_, _, _, _, [], by simp [bodyText, render, objectBody, nameText], htabs, hline,
          hname, hvalue, Or.inl ⟨rfl, rfl⟩⟩
      · have hmore : render F fmt true depth next ≠ [] := by
          simpa [render_eq_nil] using hlast
        exact ⟨_, _, _, [], _, by simp [bodyText, render, objectBody, nameText, hmore], htabs,
          hnone, hname, hvalue,
          Or.inr ⟨_, rfl, (ihn depth hnext hnum.2 hlast).blank_left hline⟩⟩

end Spelled

/-! ## The text is a string -/

/-- A printed string has no terminator inside. -/
theorem quoted_noNul (s : CText) : (0 : Byte) ∉ quoted s := by
  have hdigit : ∀ n < 16, hexDigit n ≠ 0 := by
    intro n hn
    interval_cases n <;> decide
  have hone : ∀ token : Byte, token ≠ 0 → (0 : Byte) ∉ escapeChar token := by
    intro token hne
    unfold escapeChar
    split
    · simpa using hne.symm
    · split
      · rename_i hshort
        simp only [hasShortEscape, decide_eq_true_eq] at hshort
        fin_cases hshort <;> decide
      · have h₁ := hdigit (token.toNat / 4096 % 16) (by omega)
        have h₂ := hdigit (token.toNat / 256 % 16) (by omega)
        have h₃ := hdigit (token.toNat / 16 % 16) (by omega)
        have h₄ := hdigit (token.toNat % 16) (by omega)
        simp only [hexEscape, List.mem_cons, not_or, List.not_mem_nil, not_false_eq_true]
        exact ⟨by decide, by decide, h₁.symm, h₂.symm, h₃.symm, h₄.symm, trivial⟩
  intro hmem
  simp only [quoted, List.mem_cons, List.mem_append, List.mem_flatMap, List.not_mem_nil,
    or_false] at hmem
  rcases hmem with hq | ⟨token, htoken, hin⟩ | hq
  · exact absurd hq (by decide)
  · have hne : token ≠ 0 := fun h => s.2 (h ▸ htoken)
    exact hone token hne hin
  · exact absurd hq (by decide)

/-- No name has a terminator inside. -/
theorem nameText_noNul (s : Option CText) : (0 : Byte) ∉ nameText s := by
  cases s with
  | none => exact List.not_mem_nil
  | some s => exact quoted_noNul s

/-- Digits have none. -/
theorem digitsText_noNul (ds : List (Fin 10)) : (0 : Byte) ∉ digitsText ds := by
  have hone : ∀ d : Fin 10, digitChar d ≠ 0 := by decide
  intro hmem
  obtain ⟨d, -, hd⟩ := List.mem_map.mp hmem
  exact hone d hd

/-- A number of JSON has none. -/
theorem Numeral.text_noNul (num : Numeral) : (0 : Byte) ∉ num.text := by
  have hexp : (0 : Byte) ∉ expText num.exp := by
    cases hnum : num.exp with
    | none => exact List.not_mem_nil
    | some e =>
      have hdigits := digitsText_noNul e.digits
      have hletter : (0 : Byte) ≠ if e.upper then 69 else 101 := by
        cases e.upper <;> decide
      have hsign : (0 : Byte) ∉ e.signText := by
        unfold Exponent.signText
        split <;> decide
      simp only [expText, Option.elim_some, Exponent.text, List.mem_cons, List.mem_append, not_or]
      exact ⟨hletter, hsign, hdigits⟩
  have hfrac : (0 : Byte) ∉ fracText num.frac := by
    unfold fracText
    split
    · exact List.not_mem_nil
    · have hdigits := digitsText_noNul num.frac
      simp only [List.mem_cons, not_or]
      exact ⟨by decide, hdigits⟩
  have hwhole := digitsText_noNul num.whole
  have hsign : (0 : Byte) ∉ (if num.neg then [Chr.minus] else []) := by
    cases num.neg <;> decide
  simp only [Numeral.text, List.mem_append, not_or]
  exact ⟨hsign, hwhole, hfrac, hexp⟩

/-- The entries of an array have none, if each of them has none. -/
theorem arrayBody_noNul {fmt : Bool} {entries : List Bytes} (h : ∀ e ∈ entries, (0 : Byte) ∉ e) :
    (0 : Byte) ∉ arrayBody fmt entries := by
  induction entries with
  | nil => exact List.not_mem_nil
  | cons entry entries ih =>
    have hsep : (0 : Byte) ∉ (if entries = [] then []
        else Chr.comma :: if fmt then [Chr.space] else []) := by
      split
      · exact List.not_mem_nil
      · cases fmt <;> decide
    simp only [arrayBody, List.mem_append, not_or]
    exact ⟨⟨h entry List.mem_cons_self, hsep⟩, ih (fun e he => h e (List.mem_cons_of_mem _ he))⟩

/-- Indentation has none. -/
theorem tabs_noNul {fmt : Bool} {n : Nat} :
    (0 : Byte) ∉ (if fmt then List.replicate n Chr.tab else []) := by
  cases fmt with
  | false => exact List.not_mem_nil
  | true =>
    intro h
    exact absurd (List.eq_of_mem_replicate h) (by decide)

/-- The entries of an object have none, if names and values have none. -/
theorem objectBody_noNul {fmt : Bool} {depth : Nat} {entries : List (Bytes × Bytes)}
    (h : ∀ e ∈ entries, (0 : Byte) ∉ e.1 ∧ (0 : Byte) ∉ e.2) :
    (0 : Byte) ∉ objectBody fmt depth entries := by
  induction entries with
  | nil => exact List.not_mem_nil
  | cons e entries ih =>
    obtain ⟨hname, hvalue⟩ := h e List.mem_cons_self
    have hcolon : (0 : Byte) ∉ Chr.colon :: if fmt then [Chr.tab] else [] := by
      cases fmt <;> decide
    have hcomma : (0 : Byte) ∉ (if entries ≠ [] then [Chr.comma] else []) := by
      split <;> decide
    have hline : (0 : Byte) ∉ (if fmt then [Chr.newline] else []) := by
      cases fmt <;> decide
    have hrest := ih (fun e he => h e (List.mem_cons_of_mem _ he))
    simp only [objectBody, List.mem_append, not_or]
    exact ⟨⟨⟨⟨⟨⟨tabs_noNul, hname⟩, hcolon⟩, hvalue⟩, hcomma⟩, hline⟩, hrest⟩

section Texts

variable {F : CDouble D}

/-- An item has none, if its children have none. -/
theorem valueText_noNul {fmt : Bool} {depth : Nat} {kind : JsonKind D} {child : Prop}
    {texts : Bool → List (Bytes × Bytes)} (hnum : kind.Every (Prints F) child)
    (htexts : child → ∀ named, ∀ e ∈ texts named, (0 : Byte) ∉ e.1 ∧ (0 : Byte) ∉ e.2) :
    (0 : Byte) ∉ valueText F fmt depth kind texts := by
  cases kind with
  | null => exact (by decide : (0 : Byte) ∉ ascii "null")
  | false => exact (by decide : (0 : Byte) ∉ ascii "false")
  | true => exact (by decide : (0 : Byte) ∉ ascii "true")
  | number d =>
    obtain ⟨num, htext⟩ := hnum.2
    show (0 : Byte) ∉ numberText F d
    rw [← htext]
    exact num.text_noNul
  | string s => exact nameText_noNul s
  | array =>
    have hbody : (0 : Byte) ∉ arrayBody fmt ((texts false).map Prod.snd) := by
      apply arrayBody_noNul
      intro t ht
      obtain ⟨e, he, rfl⟩ := List.mem_map.mp ht
      exact (htexts hnum false e he).2
    simp only [valueText, arrayText, List.mem_cons, List.mem_append, not_or]
    exact ⟨by decide, hbody, by decide, List.not_mem_nil⟩
  | object =>
    have hbody : (0 : Byte) ∉ objectBody fmt (depth + 1) (texts true) :=
      objectBody_noNul (htexts hnum true)
    have hopen : (0 : Byte) ∉ Chr.openBrace :: if fmt then [Chr.newline] else [] := by
      cases fmt <;> decide
    simp only [valueText, objectText, List.mem_append, not_or]
    exact ⟨⟨⟨hopen, hbody⟩, tabs_noNul⟩, by decide⟩

/-- A printed chain has none. -/
theorem render_noNul (fmt named : Bool) (depth : Nat) {items : Items D}
    (hnum : items.Every (Prints F)) :
    ∀ e ∈ render F fmt named depth items, (0 : Byte) ∉ e.1 ∧ (0 : Byte) ∉ e.2 := by
  induction items generalizing named depth with
  | nil => exact fun e he => absurd he List.not_mem_nil
  | cons string kind child next ihc ihn =>
    intro e he
    rcases List.mem_cons.mp he with rfl | he
    · constructor
      · exact nameText_noNul _
      · exact valueText_noNul hnum.1 (fun hc named => ihc named (depth + 1) hc)
    · exact ihn named depth hnum.2 e he

/-- The text of a tree, as a string. -/
def printed (F : CDouble D) (fmt : Bool) (item : Item D) (hnum : Item.Every (Prints F) item) :
    CText :=
  ⟨treeText F fmt item, valueText_noNul hnum (fun hc named => render_noNul fmt named 1 hc)⟩

/-- A printed tree is read back, its numbers as their texts say. -/
theorem printed_parse (g : Grants) {fmt : Bool} {item : Item D} (hwf : Item.Wf item)
    (hnum : Item.Every (Prints F) item) (hshort : (treeText F fmt item).length ≤ 10 ^ 9) :
    Gives g (cJSONParse F g (printed F fmt item hnum)) (Item.map (reread F) item) := by
  have hspelled : Item.Spells F (Item.map (reread F) item) (treeText F fmt item) :=
    valueText_spelled hwf hnum (fun named hwf hnum hne => render_spelled fmt 1 hwf hnum hne)
  have hlen : ((treeText F fmt item).length : Int) ≤ intMax := by
    unfold intMax
    omega
  exact parse_spelled g (w := []) (fun c hc => absurd hc List.not_mem_nil) hspelled follow_nil hlen
    (by simp [printed])

/-- A tree with a short text is printed. -/
theorem printed_print (g : Grants) {fmt : Bool} {item : Item D} (hnum : Item.Every (Prints F) item)
    (hshort : (treeText F fmt item).length ≤ 10 ^ 9) :
    Gives g (cJSONPrint F g fmt item) (printed F fmt item hnum).1 :=
  (cJSONPrint_yields F g fmt item).gives
    (fits_of_short (hnum.mono (fun _ hd => hd.1)) hshort)

/-- **What is printed can be read back**, with the formatting or without it: the tree
comes back, and of each number what its text says.  Either call returns `0` instead only
where a block is refused. -/
theorem cJSONParse_print {fmt : Bool} {item : Item D} (hwf : Item.Wf item)
    (hnum : Item.Every (Prints F) item) (hshort : (treeText F fmt item).length ≤ 10 ^ 9) :
    ∃ text : CText, (∀ g, Gives g (cJSONPrint F g fmt item) text.1) ∧
      ∀ g, Gives g (cJSONParse F g text) (Item.map (reread F) item) :=
  ⟨printed F fmt item hnum, fun g => printed_print g hnum hshort,
    fun g => printed_parse g hwf hnum hshort⟩

/-- An object with a name that needs escapes, and a list in it. -/
theorem cJSONParse_print_sample :
    let item : Item Int := (.object, .cons (some (cText [34, 10])) .array
      (.cons none (.number (-12)) .nil (.cons none .true .nil .nil)) .nil)
    ∃ text : CText, (∀ g, Gives g (cJSONPrint wholeDouble g true item) text.1) ∧
      ∀ g, Gives g (cJSONParse wholeDouble g text) (Item.map (reread wholeDouble) item) :=
  cJSONParse_print ⟨rfl, ⟨rfl, rfl, rfl, rfl, trivial⟩, trivial⟩
    ⟨⟨prints_int rfl, trivial, trivial⟩, trivial⟩ (by decide)

end Texts

/-! ## Whole numbers -/

/-- What holds of the doubles that are whole numbers, as far as `double` has all of
them. -/
structure CDouble.Whole (F : CDouble D) : Prop where
  toInt : ∀ i : CInt, F.toInt (F.ofInt i.1) = i
  near : ∀ i : Int, i.natAbs ≤ 2 ^ 53 → F.near (F.ofInt i) (F.ofInt i)
  le : ∀ i j : Int, i.natAbs ≤ 2 ^ 53 → j.natAbs ≤ 2 ^ 53 →
    (F.le (F.ofInt i) (F.ofInt j) ↔ i ≤ j)
  floor : ∀ i : Int, i.natAbs ≤ 2 ^ 53 → F.floor (F.ofInt i) = F.ofInt i
  sprintf0f : ∀ i : Int, i.natAbs ≤ 2 ^ 53 → F.sprintf0f (F.ofInt i) = decimal i
  zero : F.zero = F.ofInt 0
  digit : ∀ (n : Nat) (d : Fin 10), n * 10 + d.1 ≤ 2 ^ 53 →
    F.digit (F.ofInt n) d.1 = F.ofInt (n * 10 + d.1 : Nat)
  positive : ∀ n : Nat, n ≤ 2 ^ 53 → F.scaled false (F.ofInt n) 0 = F.ofInt n
  negative : ∀ n : Nat, 0 < n → n ≤ 2 ^ 53 → F.scaled true (F.ofInt n) 0 = F.ofInt (-n)

section Whole

variable {F : CDouble D} {i : Int}

/-- The format of `print_number`. -/
theorem CDouble.Whole.sprintf (h : F.Whole) (hi : i.natAbs ≤ 2 ^ 53) :
    F.sprintf (F.ofInt i) = decimal i := by
  have hnear : F.near (F.floor (F.ofInt i)) (F.ofInt i) := by
    rw [h.floor i hi]
    exact h.near i hi
  rw [CDouble.sprintf, if_pos hnear, h.sprintf0f i hi]

/-- It is printed with its digits, as an `int` or as another number. -/
theorem CDouble.Whole.text (h : F.Whole) (hi : i.natAbs ≤ 2 ^ 53) :
    numberText F (F.ofInt i) = decimal i := by
  rw [numberText]
  split
  · rename_i hint
    have hmax : intMax.natAbs ≤ 2 ^ 53 := by decide
    have hmin : intMin.natAbs ≤ 2 ^ 53 := by decide
    simp only [CDouble.isInt, Bool.and_eq_true, h.le _ _ hi hmax, h.le _ _ hmin hi] at hint
    have hto := h.toInt ⟨i, hint.2, hint.1.2⟩
    rw [hto]
  · exact h.sprintf hi

/-- A whole number can be printed. -/
theorem CDouble.Whole.prints (h : F.Whole) (hi : i.natAbs ≤ 2 ^ 53) : Prints F (F.ofInt i) := by
  refine ⟨Or.inr ?_, decimalNumeral i, by rw [decimalNumeral_text, h.text hi]⟩
  have hlen : (decimalNat i.natAbs).length ≤ 16 := decimalNat_length (by decide) (by omega)
  rw [h.sprintf hi, decimal]
  split
  · rw [List.length_cons]
    omega
  · omega

/-- Its digits are added up without rounding. -/
theorem CDouble.Whole.digits (h : F.Whole) (ds : List (Fin 10)) (n : Nat)
    (hle : digitsNat n ds ≤ 2 ^ 53) : digitsDouble F (F.ofInt n) ds = F.ofInt (digitsNat n ds) := by
  induction ds generalizing n with
  | nil => rfl
  | cons d ds ih =>
    have hlater : digitsNat n (d :: ds) = digitsNat (n * 10 + d.1) ds := rfl
    have hfirst := digitsNat_le ds (n * 10 + d.1)
    rw [hlater] at hle ⊢
    rw [digitsDouble, List.foldl_cons, h.digit n d (by omega)]
    exact ih _ hle

/-- It comes back as it was. -/
theorem CDouble.Whole.reread_eq (h : F.Whole) (hi : i.natAbs ≤ 2 ^ 53) :
    reread F (F.ofInt i) = F.ofInt i := by
  have htext : (decimalNumeral i).text = numberText F (F.ofInt i) := by
    rw [decimalNumeral_text, h.text hi]
  have hwhole : (decimalNumeral i).wholeValue F = F.ofInt i.natAbs := by
    have hvalue := decimalDigits_value i.natAbs
    unfold Numeral.wholeValue
    split
    · rename_i hzero
      have hdigits : decimalDigits i.natAbs = [0] := hzero
      rw [hdigits] at hvalue
      rw [← hvalue]
      exact h.zero
    · rw [h.zero]
      have hsum := h.digits (decimalDigits i.natAbs) 0 (by rw [hvalue]; exact hi)
      rw [hvalue] at hsum
      exact hsum
  rw [← reread_spelled htext, Numeral.value, hwhole]
  by_cases hneg : i < 0
  · have hneg' : (decimalNumeral i).neg = true := by simp [decimalNumeral, hneg]
    have habs : -(i.natAbs : Int) = i := by omega
    rw [hneg']
    exact (h.negative _ (by omega) hi).trans (by rw [habs])
  · have hpos : (decimalNumeral i).neg = false := by simp [decimalNumeral, hneg]
    have habs : (i.natAbs : Int) = i := by omega
    rw [hpos]
    exact (h.positive _ hi).trans (by rw [habs])

end Whole

end MonkeyCache
