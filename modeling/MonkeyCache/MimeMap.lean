import MonkeyCache.Buf
import MonkeyCache.HashTable

/-!
# The MIME types

`mime_map_init` copies the entries of the section `MIMETYPES` into a growable
buffer, and `mime_map_get` looks for the text behind the last dot of a path.  The
two fields of an entry are cut off in two ways: `strncpy` leaves a key of 128
characters or more without its terminator, so that it is read on into the type,
and `snprintf` drops what does not fit, the line end first.

* `mimeType` — the type that the configuration gives to a path.
* `Followed` — when the text behind the dot is looked up as it should be.
* `mime_followed` — a path gets its type if and only if the section is not too
  long for the buffer, and the text behind its last dot is `Followed`.
-/

namespace MonkeyCache

open Fallible Memory

/-! ## The code -/

/-- An entry of a section of the configuration. -/
structure ConfigEntry where
  key : Bytes
  val : Bytes
  deriving DecidableEq, Repr

/-- `MIME_MAX_LEN` -/
def mimeMaxLen : Nat := 128

/-- `"\r\n"` -/
def crlf : Bytes := [13, 10]

/-- `"text/plain"` -/
def textPlain : Bytes := [116, 101, 120, 116, 47, 112, 108, 97, 105, 110]

/-- The dot -/
def dot : Byte := 46

/-- The cells of a string. -/
def cells (s : Bytes) : List Cell := s.map some

/-- The cells that `strncpy(dst, src, n)` writes: it fills up with NUL. -/
def strncpy (src : Bytes) (n : Nat) : List Cell :=
  cells (src.take n) ++ List.replicate (n - src.length) (some 0)

/-- The cells that `snprintf(dst, n, "%s", src)` writes. -/
def snprintf (src : Bytes) (n : Nat) : List Cell := cells (src.take (n - 1)) ++ [some 0]

/-- The variable `tmp` of `mime_map_init` after one entry was put into it; `mime`
comes right behind `ext`. -/
def mimeTmp (tmp : List Cell) (entry : ConfigEntry) : List Cell :=
  overwrite (overwrite tmp 0 (strncpy entry.key mimeMaxLen)) mimeMaxLen
    (snprintf (entry.val ++ crlf) mimeMaxLen)

/-- The loop of `mime_map_init`. -/
def mimeLoad : Buf → List Cell → List ConfigEntry → Except BufFault Buf
  | map, _, [] => .ok map
  | map, tmp, entry :: entries => do
    let map ← bufPush map (mimeTmp tmp entry)
    mimeLoad map (mimeTmp tmp entry) entries

/-- `mime_map_init`; `tmp` is what its variable holds before anything was written. -/
def mimeMapInit (tmp : List Cell) (entries : List ConfigEntry) : Except BufFault Buf := do
  let map ← bufInit (2 * mimeMaxLen) 16
  mimeLoad map tmp entries

/-- The inner loop of `mime_map_get`: `n` items from `i` on are still to be compared
with `text`. -/
def mimeSearch (map : Buf) (text : Bytes) : Nat → Nat → Except BufFault (Option (List Cell))
  | 0, _ => .ok none
  | n + 1, i => do
    let m ← bufGet map i
    if cstr (some 0) m = cells text then .ok (some (cstr (some 0) (m.drop mimeMaxLen)))
    else mimeSearch map text n (i + 1)

/-- The outer loop: `path + j` behind the last dot in front of `j`. -/
def mimeExt (path : Bytes) : Nat → Option Bytes
  | 0 => none
  | j + 1 => if path[j]? = some dot then some (path.drop (j + 1)) else mimeExt path j

/-- `mime_map_get`: the string that its result points to. -/
def mimeMapGet (map : Buf) (path : Bytes) : Except BufFault (List Cell) :=
  match mimeExt path path.length with
  | none => .ok (cells (textPlain ++ crlf))
  | some text => do
    let found ← mimeSearch map text map.size 0
    .ok (found.getD (cells (textPlain ++ crlf)))

/-! ## The type of a path -/

/-- The text behind the last dot. -/
def afterDot : Bytes → Option Bytes
  | [] => none
  | ch :: rest =>
    match afterDot rest with
    | some text => some text
    | none => if ch = dot then some rest else none

/-- The type for the text behind the dot: that of the first entry with this key. -/
def textType (entries : List ConfigEntry) (text : Bytes) : Bytes :=
  ((entries.find? (fun e => e.key = text)).map ConfigEntry.val).getD textPlain ++ crlf

/-- The type that the configuration gives to a path. -/
def mimeType (entries : List ConfigEntry) (path : Bytes) : Bytes :=
  match afterDot path with
  | none => textPlain ++ crlf
  | some text => textType entries text

/-- The string in the field `mime` of an entry. -/
def ConfigEntry.mimeField (e : ConfigEntry) : Bytes := (e.val ++ crlf).take (mimeMaxLen - 1)

/-- The string at the field `ext` of an entry. -/
def ConfigEntry.extField (e : ConfigEntry) : Bytes :=
  if e.key.length < mimeMaxLen then e.key else e.key.take mimeMaxLen ++ e.mimeField

/-- **When a text is looked up as it should be.**  A short one: if its type and the
line end fit.  A long one: if no field reads like it and no key is it; or else what
happens to be found is what the configuration says. -/
def Followed (entries : List ConfigEntry) (text : Bytes) : Prop :=
  if text.length < mimeMaxLen then
    ∀ e, entries.find? (fun e => e.key = text) = some e → e.val.length ≤ mimeMaxLen - 3
  else if ∃ e ∈ entries, e.extField = text then textType entries text = text.drop mimeMaxLen
  else ∀ e, entries.find? (fun e => e.key = text) = some e → e.val = textPlain

variable {entries : List ConfigEntry} {e : ConfigEntry} {text path : Bytes} {tmp : List Cell}
  {items : List (List Cell)} {map map' : Buf}

theorem mimeType_crlf (entries : List ConfigEntry) (path : Bytes) :
    crlf <:+ mimeType entries path := by
  unfold mimeType
  cases afterDot path with
  | none => exact List.suffix_append textPlain crlf
  | some text => exact List.suffix_append _ crlf

/-! ## The loops of `mime_map_get` -/

theorem mimeExt_cons (ch : Byte) (rest : Bytes) (j : Nat) :
    mimeExt (ch :: rest) (j + 1) =
      match mimeExt rest j with
      | some text => some text
      | none => if ch = dot then some rest else none := by
  induction j with
  | zero => simp [mimeExt]
  | succ j ih =>
      unfold mimeExt
      rw [List.getElem?_cons_succ, List.drop_succ_cons, ih]
      by_cases hdot : rest[j]? = some dot
      · rw [if_pos hdot, if_pos hdot]
      · rw [if_neg hdot, if_neg hdot]

/-- **The outer loop** finds the last dot. -/
theorem mimeExt_eq (path : Bytes) : mimeExt path path.length = afterDot path := by
  induction path with
  | nil => rfl
  | cons ch rest ih =>
      rw [List.length_cons, mimeExt_cons, ih]
      rfl

/-- An item holds the fields of an entry. -/
structure Stores (item : List Cell) (e : ConfigEntry) : Prop where
  ext : cstr (some 0) item = cells e.extField
  mime : cstr (some 0) (item.drop mimeMaxLen) = cells e.mimeField

theorem cells_inj {s t : Bytes} : cells s = cells t ↔ s = t :=
  List.map_inj_right (fun _ _ h => Option.some.inj h)

/-- **The inner loop** returns the type of the first entry whose field reads like
the text. -/
theorem mimeSearch_eq (hstores : List.Forall₂ Stores items entries) :
    ∀ i, (∀ k item, items[k]? = some item → bufGet map (i + k) = .ok item) →
      mimeSearch map text entries.length i =
        .ok ((entries.find? (fun e => e.extField = text)).map fun e => cells e.mimeField) := by
  induction hstores with
  | nil =>
      intro i _
      rfl
  | @cons item e items entries hitem _ ih =>
      intro i hget
      have hfirst : bufGet map i = .ok item := hget 0 item rfl
      have hrest := ih (i + 1) fun k other hother => by
        rw [Nat.add_assoc, Nat.add_comm 1 k]
        exact hget (k + 1) other hother
      rw [List.length_cons]
      unfold mimeSearch
      rw [hfirst]
      dsimp only [bind, Except.bind]
      rw [hitem.ext, hitem.mime, hrest, List.find?_cons]
      by_cases hext : e.extField = text
      · simp [hext]
      · rw [if_neg (fun h => hext (cells_inj.1 h)), decide_eq_false hext]

/-! ## The fields -/

/-- A field that reads like a long text belongs to a long key, and its type is the
rest of the text. -/
theorem ConfigEntry.extField_long (h : e.extField = text) (hlong : mimeMaxLen ≤ text.length) :
    e.mimeField = text.drop mimeMaxLen := by
  unfold ConfigEntry.extField at h
  split at h
  · rename_i hshort
    rw [h] at hshort
    omega
  · rename_i hkey
    have hlen : (e.key.take mimeMaxLen).length = mimeMaxLen :=
      List.length_take_of_le (Nat.le_of_not_lt hkey)
    rw [← h, List.drop_append_of_le_length hlen.ge, List.drop_of_length_le hlen.le,
      List.nil_append]

/-- Short texts are compared with whole keys. -/
theorem ConfigEntry.extField_short (hshort : text.length < mimeMaxLen) :
    e.extField = text ↔ e.key = text := by
  unfold ConfigEntry.extField
  split
  · exact Iff.rfl
  · rename_i hkey
    constructor
    · intro h
      have hlen := congrArg List.length h
      rw [List.length_append, List.length_take_of_le (Nat.le_of_not_lt hkey)] at hlen
      omega
    · intro h
      rw [h] at hkey
      exact absurd hshort hkey

/-- The type and its line end fit into the field. -/
theorem ConfigEntry.mimeField_eq_iff :
    e.mimeField = e.val ++ crlf ↔ e.val.length ≤ mimeMaxLen - 3 := by
  unfold ConfigEntry.mimeField
  rw [List.take_eq_self_iff, List.length_append]
  show e.val.length + 2 ≤ 128 - 1 ↔ e.val.length ≤ 128 - 3
  omega

/-- The type that `mime_map_get` finds for a text. -/
def foundType (entries : List ConfigEntry) (text : Bytes) : Bytes :=
  ((entries.find? (fun e => e.extField = text)).map ConfigEntry.mimeField).getD (textPlain ++ crlf)

/-- **The look-up** of one text. -/
theorem foundType_eq_iff : foundType entries text = textType entries text ↔
    Followed entries text := by
  unfold foundType textType Followed
  by_cases hshort : text.length < mimeMaxLen
  · rw [if_pos hshort]
    have hfind : entries.find? (fun e => e.extField = text) =
        entries.find? (fun e => e.key = text) := by
      congr 1
      funext e
      exact decide_eq_decide.2 (ConfigEntry.extField_short hshort)
    rw [hfind]
    cases entries.find? (fun e => e.key = text) with
    | none => simp
    | some e => simpa using ConfigEntry.mimeField_eq_iff
  · rw [if_neg hshort]
    by_cases hext : ∃ e ∈ entries, e.extField = text
    · rw [if_pos hext]
      obtain ⟨e, hfind⟩ : ∃ e, entries.find? (fun e => e.extField = text) = some e := by
        rw [← Option.isSome_iff_exists, List.find?_isSome]
        simpa using hext
      have hfield : e.extField = text := by
        have hfound := List.find?_some hfind
        exact of_decide_eq_true hfound
      rw [hfind, Option.map_some, Option.getD_some,
        ConfigEntry.extField_long hfield (Nat.le_of_not_lt hshort)]
      exact eq_comm
    · rw [if_neg hext]
      have hnone : entries.find? (fun e => e.extField = text) = none := by
        rw [List.find?_eq_none]
        intro e he hfield
        exact hext ⟨e, he, of_decide_eq_true hfield⟩
      rw [hnone, Option.map_none, Option.getD_none, List.append_cancel_right_eq]
      cases entries.find? (fun e => e.key = text) with
      | none => simp
      | some e => simpa using eq_comm

/-! ## Loading -/

/-- A string of the configuration has no NUL in it. -/
def ConfigEntry.Clean (e : ConfigEntry) : Prop := 0 ∉ e.key ∧ 0 ∉ e.val

theorem nul_notMem_cells {s : Bytes} (h : 0 ∉ s) : some 0 ∉ cells s := by
  unfold cells
  simpa using h

theorem length_strncpy (src : Bytes) (n : Nat) : (strncpy src n).length = n := by
  unfold strncpy cells
  rw [List.length_append, List.length_map, List.length_take, List.length_replicate]
  omega

/-- What `tmp` looks like: both fields, the second one with its terminator. -/
theorem mimeTmp_eq (tmp : List Cell) (e : ConfigEntry) :
    ∃ rest, mimeTmp tmp e =
      strncpy e.key mimeMaxLen ++ (cells e.mimeField ++ some 0 :: rest) := by
  have hlen := length_strncpy e.key mimeMaxLen
  have hext : (overwrite tmp 0 (strncpy e.key mimeMaxLen)).take mimeMaxLen =
      strncpy e.key mimeMaxLen := by
    unfold overwrite
    rw [List.take_zero, List.nil_append, List.take_append_of_le_length hlen.ge,
      List.take_of_length_le hlen.le]
  refine ⟨(overwrite tmp 0 (strncpy e.key mimeMaxLen)).drop
    (mimeMaxLen + (snprintf (e.val ++ crlf) mimeMaxLen).length), ?_⟩
  unfold mimeTmp
  rw [overwrite, hext, List.append_assoc]
  unfold snprintf
  rw [List.append_assoc]
  rfl

theorem mimeField_clean (h : e.Clean) : 0 ∉ e.mimeField := by
  unfold ConfigEntry.mimeField crlf
  intro hmem
  have hmem := List.mem_of_mem_take hmem
  rw [List.mem_append] at hmem
  rcases hmem with hval | hend
  · exact h.2 hval
  · simp at hend

/-- **One entry** is stored in its two fields. -/
theorem mimeTmp_stores (tmp : List Cell) (h : e.Clean) : Stores (mimeTmp tmp e) e := by
  obtain ⟨rest, htmp⟩ := mimeTmp_eq tmp e
  have hlen := length_strncpy e.key mimeMaxLen
  have hmime : cstr (some 0) (cells e.mimeField ++ some 0 :: rest) = cells e.mimeField :=
    cstr_eq_of_nul (nul_notMem_cells (mimeField_clean h)) rest
  rw [htmp]
  constructor
  · unfold ConfigEntry.extField
    split
    · -- the rest of the field is NUL
      rename_i hshort
      obtain ⟨n, hn⟩ : ∃ n, mimeMaxLen - e.key.length = n + 1 :=
        ⟨mimeMaxLen - e.key.length - 1, by omega⟩
      unfold strncpy
      rw [List.take_of_length_le hshort.le, hn, List.replicate_succ, List.append_assoc,
        List.cons_append]
      exact cstr_eq_of_nul (nul_notMem_cells h.1) _
    · -- there is no NUL in the field
      rename_i hlong
      have hnone : mimeMaxLen - e.key.length = 0 := by omega
      have hclean : 0 ∉ e.key.take mimeMaxLen := fun hmem => h.1 (List.mem_of_mem_take hmem)
      unfold strncpy
      rw [hnone, List.replicate_zero, List.append_nil, cstr_append (nul_notMem_cells hclean), hmime]
      unfold cells
      rw [List.map_append]
  · rw [List.drop_append_of_le_length hlen.ge, List.drop_of_length_le hlen.le, List.nil_append]
    exact hmime

theorem length_mimeTmp (htmp : tmp.length = 2 * mimeMaxLen) (e : ConfigEntry) :
    (mimeTmp tmp e).length = 2 * mimeMaxLen := by
  have hlen := length_strncpy e.key mimeMaxLen
  have hmime : (snprintf (e.val ++ crlf) mimeMaxLen).length ≤ mimeMaxLen := by
    unfold snprintf cells
    rw [List.length_append, List.length_map, List.length_take, List.length_singleton]
    unfold mimeMaxLen
    omega
  unfold mimeTmp
  rw [length_overwrite, length_overwrite]
  · exact htmp
  · omega
  · rw [length_overwrite (by omega)]
    omega

/-- The items that `mime_map_init` pushes. -/
def mimeItems : List Cell → List ConfigEntry → List (List Cell)
  | _, [] => []
  | tmp, e :: entries => mimeTmp tmp e :: mimeItems (mimeTmp tmp e) entries

theorem length_mimeItems (tmp : List Cell) (entries : List ConfigEntry) :
    (mimeItems tmp entries).length = entries.length := by
  induction entries generalizing tmp with
  | nil => rfl
  | cons e entries ih =>
      unfold mimeItems
      rw [List.length_cons, List.length_cons, ih]

theorem mimeItems_stores (tmp : List Cell) (h : ∀ e ∈ entries, e.Clean) :
    List.Forall₂ Stores (mimeItems tmp entries) entries := by
  induction entries generalizing tmp with
  | nil => exact .nil
  | cons e entries ih =>
      rw [List.forall_mem_cons] at h
      exact .cons (mimeTmp_stores tmp h.1) (ih (mimeTmp tmp e) h.2)

/-- The buffer during `mime_map_init`: it was only pushed to, from 16 on. -/
structure Loaded (map : Buf) (items : List (List Cell)) : Prop extends map.Holds items where
  valueSize : map.valueSize = 2 * mimeMaxLen
  cap : ∃ k, map.cap = 2 ^ k

/-- The most entries whose size is an `int`. -/
def mimeMost : Nat := 2 ^ 22

theorem Loaded.length_le (h : Loaded map items) : items.length ≤ map.cap ∧ map.cap ≤ mimeMost := by
  obtain ⟨k, hk⟩ := h.cap
  have hfits := h.fits
  have hsize := h.size
  have hle := h.size_le
  refine ⟨by omega, ?_⟩
  rw [h.valueSize, hk, mimeMaxLen] at hfits
  have hpow : 2 ^ k < 2 ^ 23 := by omega
  have hlt : k < 23 := (Nat.pow_lt_pow_iff_right (by decide)).1 hpow
  rw [hk, mimeMost]
  exact Nat.pow_le_pow_right (by decide) (by omega)

/-- **A push that returns.** -/
theorem Loaded.push {item : List Cell} (h : Loaded map items) (hitem : item.length = 2 * mimeMaxLen)
    (hpush : bufPush map item = .ok map') : Loaded map' (items ++ [item]) := by
  obtain ⟨hvs, hcap⟩ := bufPush_cap hpush
  obtain ⟨k, hk⟩ := h.cap
  have hsize := h.size_le
  refine ⟨h.toHolds.push (hitem.trans h.valueSize.symm) hpush, hvs.trans h.valueSize, ?_⟩
  by_cases hfull : map.size ≥ map.cap
  · rw [if_pos hfull] at hcap
    refine ⟨k + 1, ?_⟩
    rw [hcap, Nat.le_antisymm hsize hfull, hk, Nat.pow_succ, Nat.mul_comm]
  · rw [if_neg hfull] at hcap
    exact ⟨k, hcap.trans hk⟩

/-- **A push returns** as long as the sizes are `int`s. -/
theorem Loaded.push_returns {item : List Cell} (h : Loaded map items)
    (hitem : item.length = 2 * mimeMaxLen) (hlt : items.length < mimeMost) :
    ∃ map', bufPush map item = .ok map' := by
  have hroom : map.HasRoom (.push item) := by
    obtain ⟨k, hk⟩ := h.cap
    have hpos : 0 < map.cap := hk ▸ Nat.two_pow_pos k
    have hsize := h.size
    by_cases hspace : map.size < map.cap
    · exact .inl hspace
    · refine .inr ⟨by omega, ?_⟩
      rw [h.valueSize]
      unfold mimeMost at hlt
      unfold mimeMaxLen
      omega
  have hsame : item.length = map.valueSize := hitem.trans h.valueSize.symm
  obtain ⟨map', hpush, _⟩ := h.toHolds.push_returns hroom hsame
  exact ⟨map', hpush⟩

/-- **The loop that returns.** -/
theorem mimeLoad_loaded (h : Loaded map items) (htmp : tmp.length = 2 * mimeMaxLen)
    (hload : mimeLoad map tmp entries = .ok map') :
    Loaded map' (items ++ mimeItems tmp entries) := by
  induction entries generalizing map tmp items with
  | nil =>
      cases hload
      unfold mimeItems
      rw [List.append_nil]
      exact h
  | cons e entries ih =>
      have hitem := length_mimeTmp htmp e
      obtain ⟨pushed, hpush, hrest⟩ := bind_eq_ok.1 hload
      have hloaded := ih (h.push hitem hpush) hitem hrest
      rw [List.append_assoc] at hloaded
      exact hloaded

/-- **The loop returns** as long as the sizes are `int`s. -/
theorem mimeLoad_returns (h : Loaded map items) (htmp : tmp.length = 2 * mimeMaxLen)
    (hlen : items.length + entries.length ≤ mimeMost) :
    ∃ map', mimeLoad map tmp entries = .ok map' := by
  induction entries generalizing map tmp items with
  | nil => exact ⟨map, rfl⟩
  | cons e entries ih =>
      have hitem := length_mimeTmp htmp e
      rw [List.length_cons] at hlen
      obtain ⟨pushed, hpush⟩ := h.push_returns hitem (by omega)
      obtain ⟨map', hload⟩ := ih (h.push hitem hpush) hitem
        (by rw [List.length_append, List.length_singleton]; omega)
      refine ⟨map', ?_⟩
      unfold mimeLoad
      rw [hpush]
      exact hload

/-- The buffer that `mime_map_init` starts with. -/
theorem mimeInit_loaded : ∃ map, bufInit (2 * mimeMaxLen) 16 = .ok map ∧ Loaded map [] := by
  have hfits : 2 * mimeMaxLen * 16 < 2 ^ 31 := by decide
  obtain ⟨map, hinit, hholds⟩ := bufInit_holds (by decide) hfits
  refine ⟨map, hinit, hholds, ?_, 4, ?_⟩
  · cases hinit
    rfl
  · cases hinit
    rfl

/-- **`mime_map_init`** returns if and only if the section is not too long. -/
theorem mimeMapInit_returns (htmp : tmp.length = 2 * mimeMaxLen) (entries : List ConfigEntry) :
    (∃ map, mimeMapInit tmp entries = .ok map) ↔ entries.length ≤ mimeMost := by
  obtain ⟨start, hinit, hloaded⟩ := mimeInit_loaded
  have hunfold : mimeMapInit tmp entries = mimeLoad start tmp entries := by
    unfold mimeMapInit
    rw [hinit]
    rfl
  rw [hunfold]
  constructor
  · intro h
    obtain ⟨map, hload⟩ := h
    obtain ⟨hlen, hcap⟩ := (mimeLoad_loaded hloaded htmp hload).length_le
    rw [List.nil_append, length_mimeItems] at hlen
    exact hlen.trans hcap
  · intro h
    exact mimeLoad_returns hloaded htmp (by rw [List.length_nil]; omega)

/-- **`mime_map_get`** after `mime_map_init`. -/
theorem mimeMapGet_eq (hclean : ∀ e ∈ entries, e.Clean) (htmp : tmp.length = 2 * mimeMaxLen)
    (hmap : mimeMapInit tmp entries = .ok map) (path : Bytes) :
    mimeMapGet map path = .ok (cells (match afterDot path with
      | none => textPlain ++ crlf
      | some text => foundType entries text)) := by
  obtain ⟨start, hinit, hloaded⟩ := mimeInit_loaded
  have hload : mimeLoad start tmp entries = .ok map := by
    unfold mimeMapInit at hmap
    rw [hinit] at hmap
    exact hmap
  have hfinal := mimeLoad_loaded hloaded htmp hload
  rw [List.nil_append] at hfinal
  have hstores := mimeItems_stores tmp hclean
  unfold mimeMapGet
  rw [mimeExt_eq]
  cases afterDot path with
  | none => rfl
  | some text =>
      have hget : ∀ k item, (mimeItems tmp entries)[k]? = some item →
          bufGet map (0 + k) = .ok item := by
        intro k item hitem
        rw [Nat.zero_add]
        exact hfinal.get k item hitem
      have hsearch : mimeSearch map text entries.length 0 = _ := mimeSearch_eq hstores 0 hget
      dsimp only
      rw [hfinal.size, hstores.length_eq, hsearch]
      unfold foundType
      cases entries.find? (fun e => e.extField = text) with
      | none => rfl
      | some e => rfl

/-- **The configuration is followed.**  Every type of the configuration ends its
line, and a path gets its type if and only if the section is not too long and the
text behind the last dot is looked up as it should be. -/
theorem mime_followed (hclean : ∀ e ∈ entries, e.Clean) (htmp : tmp.length = 2 * mimeMaxLen)
    (path : Bytes) :
    crlf <:+ mimeType entries path ∧
    ((∃ map, mimeMapInit tmp entries = .ok map ∧
        mimeMapGet map path = .ok (cells (mimeType entries path))) ↔
      entries.length ≤ mimeMost ∧
        ∀ text, afterDot path = some text → Followed entries text) := by
  refine ⟨mimeType_crlf entries path, ?_⟩
  have hlookup : ∀ map, mimeMapInit tmp entries = .ok map →
      (mimeMapGet map path = .ok (cells (mimeType entries path)) ↔
        ∀ text, afterDot path = some text → Followed entries text) := by
    intro map hmap
    rw [mimeMapGet_eq hclean htmp hmap, Except.ok.injEq, cells_inj]
    unfold mimeType
    cases afterDot path with
    | none => simp
    | some text => simpa using foundType_eq_iff
  constructor
  · intro h
    obtain ⟨map, hmap, hget⟩ := h
    exact ⟨(mimeMapInit_returns htmp entries).1 ⟨map, hmap⟩, (hlookup map hmap).1 hget⟩
  · intro h
    obtain ⟨hlen, htext⟩ := h
    obtain ⟨map, hmap⟩ := (mimeMapInit_returns htmp entries).2 hlen
    exact ⟨map, hmap, (hlookup map hmap).2 htext⟩

/-- The type of `"/a.css"` is `"text/css"`. -/
theorem mime_followed_sample :
    ∃ map, mimeMapInit (malloc (2 * mimeMaxLen))
        [⟨[99, 115, 115], [116, 101, 120, 116, 47, 99, 115, 115]⟩] = .ok map ∧
      mimeMapGet map [47, 97, 46, 99, 115, 115] =
        .ok (cells ([116, 101, 120, 116, 47, 99, 115, 115] ++ crlf)) := by
  have hclean : ∀ e ∈ [(⟨[99, 115, 115], [116, 101, 120, 116, 47, 99, 115, 115]⟩ : ConfigEntry)],
      e.Clean := by
    intro e he
    rw [List.mem_singleton.1 he]
    exact ⟨by decide, by decide⟩
  refine (mime_followed hclean List.length_replicate [47, 97, 46, 99, 115, 115]).2.2 ⟨by decide, ?_⟩
  intro text htext
  cases htext
  intro e he
  cases he
  decide

/-- A type of 126 characters loses its line feed. -/
theorem line_feed_lost :
    ∃ (entries : List ConfigEntry) (path : Bytes), (∀ e ∈ entries, e.Clean) ∧
      ∀ tmp : List Cell, tmp.length = 2 * mimeMaxLen →
        ∃ map, mimeMapInit tmp entries = .ok map ∧
          mimeMapGet map path ≠ .ok (cells (mimeType entries path)) ∧
          ∃ found, mimeMapGet map path = .ok (cells found) ∧ ¬ crlf <:+ found := by
  have hclean : ∀ e ∈ [(⟨[120], List.replicate 126 97⟩ : ConfigEntry)], e.Clean := by
    intro e he
    rw [List.mem_singleton.1 he]
    exact ⟨by decide, by simp⟩
  refine ⟨[⟨[120], List.replicate 126 97⟩], [97, 46, 120], hclean, ?_⟩
  intro tmp htmp
  obtain ⟨map, hmap⟩ := (mimeMapInit_returns htmp [⟨[120], List.replicate 126 97⟩]).2 (by decide)
  have hget := mimeMapGet_eq hclean htmp hmap [97, 46, 120]
  refine ⟨map, hmap, ?_, _, hget, by decide⟩
  rw [hget, Ne, Except.ok.injEq, cells_inj]
  decide

end MonkeyCache
