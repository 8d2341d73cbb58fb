import CosmeticFilter.Json.Layout
import CosmeticFilter.Proofs.Numerals
import Mathlib.Data.List.Nodup

/-!
# Reading JSON text

`Json.decode?` reads JSON texts of every spelling: any white space between the tokens, every escape, surrogate pairs
as one character, and numbers without fraction and exponent. An object is a mapping, so a name that stands in it again
takes its last value. `Json.decode?_layout` says that reading inverts the layout for every width, for values
whose objects have no name twice. The string is read back character by character (`readUnits_escapeChar`), and the
value by induction on what it is made of (`readsBack_of_distinct`).
-/

namespace CosmeticFilter

namespace Json

/-! ### White space -/

def isSpace (c : Char) : Bool := c = ' ' || c = '\t' || c = '\n' || c = '\r'

def skipSpace (t : Text) : Text := t.dropWhile isSpace

/-! ### Strings -/

/-- The value of a hexadecimal digit, in lower or upper case. -/
def hexDigit? (c : Char) : Option Nat :=
  if '0' ≤ c ∧ c ≤ '9' then some (c.toNat - 0x30)
  else if 'a' ≤ c ∧ c ≤ 'f' then some (c.toNat - 0x57)
  else if 'A' ≤ c ∧ c ≤ 'F' then some (c.toNat - 0x37)
  else none

/-- The code unit with the given hexadecimal digits. -/
def codeUnit? (a b c d : Char) : Option Nat := do
  return (((← hexDigit? a) * 16 + (← hexDigit? b)) * 16 + (← hexDigit? c)) * 16 + (← hexDigit? d)

/-- The code point of the character that a backslash and a letter stand for. -/
def shortEscape? : Char → Option Nat
  | '\x22' => some 0x22
  | '\\' => some 0x5C
  | '/' => some 0x2F
  | 'b' => some 0x08
  | 'f' => some 0x0C
  | 'n' => some 0x0A
  | 'r' => some 0x0D
  | 't' => some 0x09
  | _ => none

/-- The code points and code units of a string up to its closing quotation mark, and the text after it. -/
def readUnits : Text → Option (List Nat × Text)
  | [] => none
  | c :: rest =>
    if c = '\x22' then some ([], rest)
    else if c = '\\' then
      match rest with
      | 'u' :: a :: b :: c :: d :: rest => do
        let unit ← codeUnit? a b c d
        let (units, rest) ← readUnits rest
        some (unit :: units, rest)
      | e :: rest => do
        let unit ← shortEscape? e
        let (units, rest) ← readUnits rest
        some (unit :: units, rest)
      | [] => none
    else if c.toNat < 0x20 then none
    else do
      let (units, rest) ← readUnits rest
      some (c.toNat :: units, rest)

def isHigh (unit : Nat) : Bool := 0xD800 ≤ unit && unit < 0xDC00

def isLow (unit : Nat) : Bool := 0xDC00 ≤ unit && unit < 0xE000

def char? (point : Nat) : Option Char := if point.isValidChar then some (Char.ofNat point) else none

/-- The characters of code points and code units. A high and a low surrogate stand for one character; a surrogate that
is alone stands for none. -/
def joinUnits : List Nat → Option Text
  | [] => some []
  | [unit] => (char? unit).map fun c => [c]
  | unit :: next :: units =>
    if isHigh unit && isLow next then do
      let c ← char? (0x10000 + (unit - 0xD800) * 0x400 + (next - 0xDC00))
      return c :: (← joinUnits units)
    else do
      let c ← char? unit
      return c :: (← joinUnits (next :: units))

/-- Reads a string after its opening quotation mark. -/
def readString (t : Text) : Option (Text × Text) := do
  let (units, rest) ← readUnits t
  return (← joinUnits units, rest)

/-! ### Numbers and words -/

/-- Whether a number goes on with the character, as one that is no integer. -/
def startsFraction (c : Char) : Bool := c = '.' || c = 'e' || c = 'E'

/-- Reads decimal digits. The first of several is not zero. -/
def readDigits (t : Text) : Option (Nat × Text) :=
  let digits := t.takeWhile Char.isDigit
  let rest := t.dropWhile Char.isDigit
  if digits = [] ∨ 1 < digits.length ∧ digits.head? = some '0' ∨ rest.head?.any startsFraction then none
  else some (Nat.ofDigitChars 10 digits 0, rest)

def readNumber : Text → Option (Json × Text)
  | '-' :: t => (readDigits t).map fun (n, rest) => (.int (-n), rest)
  | t => (readDigits t).map fun (n, rest) => (.int n, rest)

def readWord : Text → Option (Json × Text)
  | 'n' :: 'u' :: 'l' :: 'l' :: rest => some (.null, rest)
  | 't' :: 'r' :: 'u' :: 'e' :: rest => some (.bool true, rest)
  | 'f' :: 'a' :: 'l' :: 's' :: 'e' :: rest => some (.bool false, rest)
  | _ => none

/-! ### Values -/

/-- Sets a field: a name that is there keeps its place, and another one is added at the end. -/
def putField (field : Text × Json) : List (Text × Json) → List (Text × Json)
  | [] => [field]
  | known :: rest => if known.1 = field.1 then field :: rest else known :: putField field rest

/-- The object with the given fields; of several of one name, the last one counts. -/
def ofFields (fields : List (Text × Json)) : Json := .obj (fields.foldl (fun known field => putField field known) [])

/-- Reads the name of a field and the colon after it. -/
def readName (t : Text) : Option (Text × Text) :=
  match skipSpace t with
  | '\x22' :: rest => do
    let (name, rest) ← readString rest
    match skipSpace rest with
    | ':' :: rest => some (name, rest)
    | _ => none
  | _ => none

mutual

/-- Reads a value, with the white space before it. -/
def readValue : (fuel : Nat) → Text → Option (Json × Text)
  | 0, _ => none
  | fuel + 1, t =>
    match skipSpace t with
    | [] => none
    | c :: rest =>
      if c = '-' ∨ c.isDigit then readNumber (c :: rest)
      else if c = '\x22' then (readString rest).map fun (s, rest) => (.str s, rest)
      else if c = '[' then
        match skipSpace rest with
        | ']' :: rest => some (.arr [], rest)
        | _ => (readItems fuel rest).map fun (items, rest) => (.arr items, rest)
      else if c = '\x7b' then
        match skipSpace rest with
        | '\x7d' :: rest => some (.obj [], rest)
        | _ => (readFields fuel rest).map fun (fields, rest) => (ofFields fields, rest)
      else readWord (c :: rest)

/-- Reads the items of an array and the bracket after them. -/
def readItems : (fuel : Nat) → Text → Option (List Json × Text)
  | 0, _ => none
  | fuel + 1, t => do
    let (item, rest) ← readValue fuel t
    match skipSpace rest with
    | ',' :: rest => do
      let (items, rest) ← readItems fuel rest
      some (item :: items, rest)
    | ']' :: rest => some ([item], rest)
    | _ => none

/-- Reads the fields of an object and the brace after them. -/
def readFields : (fuel : Nat) → Text → Option (List (Text × Json) × Text)
  | 0, _ => none
  | fuel + 1, t => do
    let (name, rest) ← readName t
    let (value, rest) ← readValue fuel rest
    match skipSpace rest with
    | ',' :: rest => do
      let (fields, rest) ← readFields fuel rest
      some ((name, value) :: fields, rest)
    | '\x7d' :: rest => some ([(name, value)], rest)
    | _ => none

end

/-- The value of a JSON text. Of any two nested calls one reads a character, so the fuel lasts. -/
def decode? (t : Text) : Option Json :=
  match readValue (2 * t.length + 1) t with
  | some (j, rest) => if (skipSpace rest).isEmpty then some j else none
  | none => none

/-! ### What is printed is read back -/

section

variable {c : Char} {s t rest : Text} {width depth fuel : Nat} {j item value : Json}

theorem skipSpace_cons (h : isSpace c = false) : skipSpace (c :: t) = c :: t := List.dropWhile_cons_of_neg (by simp [h])

theorem skipSpace_of_all (h : ∀ c ∈ s, isSpace c = true) : skipSpace (s ++ t) = skipSpace t :=
  List.dropWhile_append_of_pos h

theorem skipSpace_lineBreak : skipSpace (lineBreak width depth ++ t) = skipSpace t := by
  refine skipSpace_of_all fun c hc => ?_
  rcases List.mem_cons.1 hc with rfl | hc
  · rfl
  · rw [List.eq_of_mem_replicate hc]
    rfl

/-! #### Strings -/

theorem hexDigit?_digitChar : ∀ n < 16, hexDigit? (Nat.digitChar n) = some n := by decide

/-- The escape of a control character. -/
theorem hex_control : ∀ n < 0x20, Text.hex 4 n = ['0', '0', Nat.digitChar (n / 16), Nat.digitChar (n % 16)] := by decide

theorem codeUnit?_control {n : Nat} (h : n < 0x20) :
    codeUnit? '0' '0' (Nat.digitChar (n / 16)) (Nat.digitChar (n % 16)) = some n := by
  have hzero : hexDigit? '0' = some 0 := rfl
  have hhigh := hexDigit?_digitChar (n / 16) (by omega)
  have hlow := hexDigit?_digitChar (n % 16) (by omega)
  rw [codeUnit?, hzero, hhigh, hlow]
  show some _ = some n
  congr 1
  omega

theorem readUnits_escapeChar (c : Char) (t : Text) : readUnits (escapeChar c ++ t) = (do
    let (units, rest) ← readUnits t
    some (c.toNat :: units, rest)) := by
  unfold escapeChar
  split
  · next h =>
    rcases h with rfl | rfl
    · rfl
    · rfl
  · next hplain =>
    push Not at hplain
    split_ifs with hn hr ht hb hf hcontrol
    · subst hn; rfl
    · subst hr; rfl
    · subst ht; rfl
    · subst hb; rfl
    · subst hf; rfl
    · rw [hex_control c.toNat hcontrol]
      show (codeUnit? _ _ _ _ >>= _) = _
      rw [codeUnit?_control hcontrol]
      rfl
    · rw [List.singleton_append, readUnits.eq_def]
      dsimp only
      rw [if_neg hplain.1, if_neg hplain.2, if_neg hcontrol]

theorem readUnits_flatMap (s : Text) (t : Text) :
    readUnits (s.flatMap escapeChar ++ '\x22' :: t) = some (s.map Char.toNat, t) := by
  induction s with
  | nil =>
    rw [List.flatMap_nil, List.nil_append, readUnits.eq_def]
    rfl
  | cons c s ih =>
    rw [List.flatMap_cons, List.append_assoc, readUnits_escapeChar, ih]
    rfl

/-- A code point is no surrogate. -/
theorem not_isHigh_toNat (c : Char) : isHigh c.toNat = false := by
  have hvalid : c.toNat < 0xD800 ∨ 0xDFFF < c.toNat ∧ c.toNat < 0x110000 := c.valid
  simp only [isHigh, Bool.and_eq_false_iff, decide_eq_false_iff_not]
  omega

theorem char?_toNat (c : Char) : char? c.toNat = some c := by
  have hvalid : c.toNat.isValidChar := c.valid
  rw [char?, if_pos hvalid, Char.ofNat_toNat]

theorem joinUnits_map_toNat (s : Text) : joinUnits (s.map Char.toNat) = some s := by
  induction s with
  | nil => rfl
  | cons c s ih =>
    cases s with
    | nil => rw [List.map_singleton, joinUnits, char?_toNat, Option.map_some]
    | cons d s =>
      rw [List.map_cons, List.map_cons, joinUnits, not_isHigh_toNat, char?_toNat]
      rw [List.map_cons] at ih
      rw [ih]
      rfl

/-- Reading a string from its second quotation mark gives it back. -/
theorem readString_stringText (s t : Text) :
    ∃ body, stringText s = '\x22' :: body ∧ readString (body ++ t) = some (s, t) := by
  refine ⟨s.flatMap escapeChar ++ ['\x22'], rfl, ?_⟩
  rw [List.append_assoc, List.singleton_append, readString, readUnits_flatMap]
  show (joinUnits _ >>= _) = _
  rw [joinUnits_map_toNat]
  rfl

/-! #### Numbers -/

/-- A number that stands before the text ends there. -/
def Stops (t : Text) : Prop := t.head?.any (fun c => c.isDigit || startsFraction c) = false

theorem stops_lineBreak : Stops (lineBreak width depth ++ t) := rfl

theorem head?_toDigits {n : Nat} (h : n ≠ 0) : (Nat.toDigits 10 n).head? ≠ some '0' := by
  induction n using Nat.strongRecOn with
  | ind n ih =>
    by_cases hlt : n < 10
    · rw [Nat.toDigits_of_lt_base hlt, List.head?_cons]
      simp [h]
    · have hne : Nat.toDigits 10 (n / 10) ≠ [] := Nat.toDigits_ne_nil
      rw [Nat.toDigits_of_base_le (by decide) (by omega), List.head?_append_of_ne_nil _ hne]
      exact ih (n / 10) (by omega) (by omega)

theorem readDigits_ofNat (n : Nat) (h : Stops t) : readDigits (Text.ofNat n ++ t) = some (n, t) := by
  have hdigits : ∀ c ∈ Text.ofNat n, c.isDigit = true := fun c => Text.isDigit_of_mem_ofNat
  have hstop : t.takeWhile Char.isDigit = [] ∧ t.dropWhile Char.isDigit = t := by
    cases t with
    | nil => exact ⟨rfl, rfl⟩
    | cons c t =>
      have hc : c.isDigit = false := (Bool.or_eq_false_iff.1 h).1
      simp [hc]
  have hfraction : t.head?.any startsFraction = false := by
    cases t with
    | nil => rfl
    | cons c t => exact (Bool.or_eq_false_iff.1 h).2
  have hlead : ¬(1 < (Text.ofNat n).length ∧ (Text.ofNat n).head? = some '0') := by
    rintro ⟨hlength, hzero⟩
    by_cases hn : n = 0
    · subst hn
      exact absurd hlength (by decide)
    · exact head?_toDigits hn hzero
  have hne : Text.ofNat n ≠ [] := Nat.toDigits_ne_nil
  have hvalue : Nat.ofDigitChars 10 (Text.ofNat n) 0 = n := Nat.ofDigitChars_ten_toDigits
  rw [readDigits, List.takeWhile_append_of_pos hdigits, List.dropWhile_append_of_pos hdigits, hstop.1, hstop.2,
    List.append_nil, if_neg, hvalue]
  simp [hne, hlead, hfraction]

theorem readNumber_ofInt (n : Int) (h : Stops t) : readNumber (Text.ofInt n ++ t) = some (.int n, t) := by
  cases n with
  | ofNat n =>
    have hne : ∀ rest, Text.ofNat n ++ t ≠ '-' :: rest := by
      intro rest heq
      obtain ⟨c, digits, hdigits, hdigit⟩ := Text.exists_ofNat n
      rw [hdigits] at heq
      cases heq
      cases hdigit
    rw [Text.ofInt, readNumber.eq_2 _ hne, readDigits_ofNat n h]
    rfl
  | negSucc n =>
    show (readDigits (Text.ofNat (n + 1) ++ t)).map _ = _
    rw [readDigits_ofNat _ h]
    rfl

/-! #### Values -/

/-- In no object of the value a name stands twice. -/
inductive Distinct : Json → Prop
  | null : Distinct .null
  | bool (b : Bool) : Distinct (.bool b)
  | int (n : Int) : Distinct (.int n)
  | str (s : Text) : Distinct (.str s)
  | arr {items : List Json} (h : ∀ item ∈ items, Distinct item) : Distinct (.arr items)
  | obj {fields : List (Text × Json)} (hnames : (fields.map Prod.fst).Nodup)
      (h : ∀ field ∈ fields, Distinct field.2) : Distinct (.obj fields)

theorem putField_of_not_mem {field : Text × Json} {known : List (Text × Json)} (h : field.1 ∉ known.map Prod.fst) :
    putField field known = known ++ [field] := by
  induction known with
  | nil => rfl
  | cons other known ih =>
    rw [List.map_cons, List.mem_cons, not_or] at h
    rw [putField, if_neg (Ne.symm h.1), ih h.2]
    rfl

theorem ofFields_of_nodup {fields : List (Text × Json)} (h : (fields.map Prod.fst).Nodup) :
    ofFields fields = .obj fields := by
  have hput : ∀ known, ((known ++ fields).map Prod.fst).Nodup →
      fields.foldl (fun known field => putField field known) known = known ++ fields := by
    induction fields with
    | nil => simp
    | cons field fields ih =>
      intro known hnodup
      have hnew : field.1 ∉ known.map Prod.fst := by
        rw [List.map_append, List.map_cons] at hnodup
        exact fun hmem => (List.nodup_append.1 hnodup).2.2 _ hmem _ List.mem_cons_self rfl
      rw [List.foldl_cons, putField_of_not_mem hnew, ih (List.nodup_cons.1 h).2 _ (by simpa using hnodup)]
      simp
  rw [ofFields, hput [] h, List.nil_append]

theorem readValue_skip (h : skipSpace t = skipSpace s) : readValue fuel t = readValue fuel s := by
  cases fuel with
  | zero => rfl
  | succ fuel => rw [readValue, readValue, h]

theorem isSpace_of_number (h : c = '-' ∨ c.isDigit = true) : isSpace c = false := by
  rw [← Bool.not_eq_true]
  intro hspace
  simp only [isSpace, Bool.or_eq_true, decide_eq_true_eq] at hspace
  rcases hspace with ((rfl | rfl) | rfl) | rfl
  all_goals revert h; decide

theorem readValue_number (h : c = '-' ∨ c.isDigit = true) :
    readValue (fuel + 1) (c :: t) = readNumber (c :: t) := by
  rw [readValue, skipSpace_cons (isSpace_of_number h)]
  dsimp only
  rw [if_pos h]

theorem readValue_str : readValue (fuel + 1) ('\x22' :: t) = (readString t).map fun (s, rest) => (.str s, rest) := by
  rw [readValue]
  rfl

theorem readValue_arr (h : ∀ rest, skipSpace t ≠ ']' :: rest) : readValue (fuel + 1) ('[' :: t) =
    (readItems fuel t).map fun (items, rest) => (arr items, rest) := by
  rw [readValue]
  show (match skipSpace t with
    | ']' :: rest => some (arr [], rest)
    | _ => (readItems fuel t).map fun (items, rest) => (arr items, rest)) = _
  split
  · next rest heq => exact absurd heq (h rest)
  · rfl

theorem readValue_obj (h : ∀ rest, skipSpace t ≠ '\x7d' :: rest) : readValue (fuel + 1) ('\x7b' :: t) =
    (readFields fuel t).map fun (fields, rest) => (ofFields fields, rest) := by
  rw [readValue]
  show (match skipSpace t with
    | '\x7d' :: rest => some (obj [], rest)
    | _ => (readFields fuel t).map fun (fields, rest) => (ofFields fields, rest)) = _
  split
  · next rest heq => exact absurd heq (h rest)
  · rfl

theorem exists_ofInt (n : Int) : ∃ c rest, Text.ofInt n = c :: rest ∧ (c = '-' ∨ c.isDigit = true) := by
  cases n with
  | ofNat n =>
    obtain ⟨c, rest, h, hdigit⟩ := Text.exists_ofNat n
    exact ⟨c, rest, h, .inr hdigit⟩
  | negSucc n => exact ⟨'-', _, rfl, .inl rfl⟩

/-- A value that is laid out starts with a character that is no white space and no closing bracket. -/
theorem exists_layoutAt (width depth : Nat) (j : Json) :
    ∃ c rest, layoutAt width depth j = c :: rest ∧ isSpace c = false ∧ c ≠ ']' := by
  cases j with
  | int n =>
    obtain ⟨c, rest, h, hc⟩ := exists_ofInt n
    refine ⟨c, rest, h, isSpace_of_number hc, ?_⟩
    rintro rfl
    revert hc
    decide
  | null => exact ⟨_, _, rfl, rfl, by decide⟩
  | bool b => cases b with
    | true => exact ⟨_, _, rfl, rfl, by decide⟩
    | false => exact ⟨_, _, rfl, rfl, by decide⟩
  | str s => exact ⟨_, _, rfl, rfl, by decide⟩
  | arr items => cases items with
    | nil => exact ⟨_, _, rfl, rfl, by decide⟩
    | cons item items => exact ⟨_, _, rfl, rfl, by decide⟩
  | obj fields => cases fields with
    | nil => exact ⟨_, _, rfl, rfl, by decide⟩
    | cons field fields => exact ⟨_, _, rfl, rfl, by decide⟩

/-- The value is read back wherever it stands, before a text that does not go on with a number. -/
def ReadsBack (j : Json) : Prop := ∀ width depth fuel t, (layoutAt width depth j).length < fuel → Stops t →
  readValue fuel (layoutAt width depth j ++ t) = some (j, t)

theorem readsBack_of_succ (h : ∀ width depth fuel t, (layoutAt width depth j).length ≤ fuel → Stops t →
    readValue (fuel + 1) (layoutAt width depth j ++ t) = some (j, t)) : ReadsBack j := by
  intro width depth fuel t hfuel ht
  cases fuel with
  | zero => exact absurd hfuel (Nat.not_lt_zero _)
  | succ fuel => exact h width depth fuel t (Nat.le_of_lt_succ hfuel) ht

/-! ##### Arrays -/

theorem readItems_last (hitem : readValue fuel t = some (item, s)) (hend : skipSpace s = ']' :: rest) :
    readItems (fuel + 1) t = some ([item], rest) := by
  rw [readItems, hitem]
  dsimp only [Option.bind_eq_bind, Option.bind_some]
  rw [hend]
  rfl

theorem readItems_more {items : List Json} {u : Text} (hitem : readValue fuel t = some (item, s))
    (hcomma : skipSpace s = ',' :: u) (hitems : readItems fuel u = some (items, rest)) :
    readItems (fuel + 1) t = some (item :: items, rest) := by
  rw [readItems, hitem]
  dsimp only [Option.bind_eq_bind, Option.bind_some]
  rw [hcomma]
  show (readItems fuel u).bind _ = _
  rw [hitems]
  rfl

/-- The items of an array between its brackets; each of them is read by a call in the one before. -/
theorem readItems_layout {items : List Json} (hitem : ReadsBack item) (hitems : ∀ item ∈ items, ReadsBack item)
    (hfuel : (layoutAt width (depth + 1) item).length + (layoutItems width (depth + 1) items).length + 1 < fuel) :
    readItems fuel (lineBreak width (depth + 1) ++ (layoutAt width (depth + 1) item ++
      (layoutItems width (depth + 1) items ++ (lineBreak width depth ++ ']' :: t)))) = some (item :: items, t) := by
  induction items generalizing item fuel with
  | nil =>
    obtain ⟨fuel, rfl⟩ : ∃ n, fuel = n + 1 := ⟨fuel - 1, by omega⟩
    refine readItems_last ((readValue_skip skipSpace_lineBreak).trans (hitem _ _ _ _ (by omega) ?_)) skipSpace_lineBreak
    exact stops_lineBreak
  | cons next items ih =>
    obtain ⟨fuel, rfl⟩ : ∃ n, fuel = n + 1 := ⟨fuel - 1, by omega⟩
    rw [layoutItems] at hfuel ⊢
    simp only [List.cons_append, List.append_assoc, List.length_cons, List.length_append] at hfuel ⊢
    refine readItems_more ((readValue_skip skipSpace_lineBreak).trans (hitem _ _ _ _ (by omega) rfl))
      (skipSpace_cons rfl) ?_
    exact ih (hitems next List.mem_cons_self) (fun i hi => hitems i (List.mem_cons_of_mem _ hi)) (by omega)

/-! ##### Objects -/

theorem readName_layout (name : Text) : readName (lineBreak width depth ++ (stringText name ++ ':' :: t)) =
    some (name, t) := by
  obtain ⟨body, hbody, hread⟩ := readString_stringText name (':' :: t)
  rw [readName, skipSpace_lineBreak, hbody, List.cons_append, skipSpace_cons rfl]
  show (readString (body ++ ':' :: t)).bind _ = _
  rw [hread]
  rfl

theorem readFields_last {name u : Text} (hname : readName t = some (name, u))
    (hvalue : readValue fuel u = some (value, s)) (hend : skipSpace s = '\x7d' :: rest) :
    readFields (fuel + 1) t = some ([(name, value)], rest) := by
  rw [readFields, hname]
  dsimp only [Option.bind_eq_bind, Option.bind_some]
  rw [hvalue]
  dsimp only [Option.bind_some]
  rw [hend]
  rfl

theorem readFields_more {fields : List (Text × Json)} {name u v : Text} (hname : readName t = some (name, u))
    (hvalue : readValue fuel u = some (value, s)) (hcomma : skipSpace s = ',' :: v)
    (hfields : readFields fuel v = some (fields, rest)) :
    readFields (fuel + 1) t = some ((name, value) :: fields, rest) := by
  rw [readFields, hname]
  dsimp only [Option.bind_eq_bind, Option.bind_some]
  rw [hvalue]
  dsimp only [Option.bind_some]
  rw [hcomma]
  show (readFields fuel v).bind _ = _
  rw [hfields]
  rfl

/-- The fields of an object between its braces; each of them is read by a call in the one before. -/
theorem readFields_layout {name : Text} {fields : List (Text × Json)} (hvalue : ReadsBack value)
    (hfields : ∀ field ∈ fields, ReadsBack field.2)
    (hfuel : (layoutAt width (depth + 1) value).length + (layoutFields width (depth + 1) fields).length + 1 < fuel) :
    readFields fuel (lineBreak width (depth + 1) ++ (stringText name ++ ':' :: ' ' ::
      (layoutAt width (depth + 1) value ++ (layoutFields width (depth + 1) fields ++
        (lineBreak width depth ++ '\x7d' :: t))))) = some ((name, value) :: fields, t) := by
  have hspace : ∀ u, skipSpace (' ' :: u) = skipSpace u := fun _ => rfl
  induction fields generalizing name value fuel with
  | nil =>
    obtain ⟨fuel, rfl⟩ : ∃ n, fuel = n + 1 := ⟨fuel - 1, by omega⟩
    refine readFields_last (readName_layout name) ((readValue_skip (hspace _)).trans (hvalue _ _ _ _ (by omega) ?_))
      skipSpace_lineBreak
    exact stops_lineBreak
  | cons next fields ih =>
    obtain ⟨fuel, rfl⟩ : ∃ n, fuel = n + 1 := ⟨fuel - 1, by omega⟩
    obtain ⟨name', value'⟩ := next
    rw [layoutFields] at hfuel ⊢
    simp only [List.cons_append, List.append_assoc, List.length_cons, List.length_append, List.nil_append] at hfuel ⊢
    refine readFields_more (readName_layout name) ((readValue_skip (hspace _)).trans (hvalue _ _ _ _ (by omega) rfl))
      (skipSpace_cons rfl) ?_
    exact ih (hfields (name', value') List.mem_cons_self) (fun f hf => hfields f (List.mem_cons_of_mem _ hf)) (by omega)

/-- By induction on what the value is made of. -/
theorem readsBack_of_distinct (h : Distinct j) : ReadsBack j := by
  induction h with
  | null =>
    refine readsBack_of_succ fun width depth fuel t hfuel ht => ?_
    rw [readValue]
    rfl
  | bool b =>
    refine readsBack_of_succ fun width depth fuel t hfuel ht => ?_
    rw [readValue]
    cases b <;> rfl
  | int n =>
    refine readsBack_of_succ fun width depth fuel t hfuel ht => ?_
    obtain ⟨c, rest, heq, hc⟩ := exists_ofInt n
    rw [layoutAt, ← readNumber_ofInt n ht, heq, List.cons_append, readValue_number hc]
  | str s =>
    refine readsBack_of_succ fun width depth fuel t hfuel ht => ?_
    obtain ⟨body, hbody, hread⟩ := readString_stringText s t
    rw [layoutAt, hbody, List.cons_append, readValue_str, hread]
    rfl
  | @arr items h ih =>
    refine readsBack_of_succ fun width depth fuel t hfuel ht => ?_
    cases items with
    | nil =>
      rw [readValue]
      rfl
    | cons item items =>
      obtain ⟨c, rest, hstart, hc, hopen⟩ := exists_layoutAt width (depth + 1) item
      have hfirst : ∀ u rest, skipSpace (lineBreak width (depth + 1) ++ (layoutAt width (depth + 1) item ++ u)) ≠
          ']' :: rest := by
        intro u rest heq
        rw [skipSpace_lineBreak, hstart, List.cons_append, skipSpace_cons hc] at heq
        exact hopen (List.cons.inj heq).1
      rw [layoutAt] at hfuel ⊢
      simp only [List.cons_append, List.append_assoc, List.length_cons, List.length_append, List.nil_append] at hfuel ⊢
      rw [readValue_arr (hfirst _), readItems_layout (ih item List.mem_cons_self)
        (fun i hi => ih i (List.mem_cons_of_mem _ hi)) (by omega)]
      rfl
  | @obj fields hnames h ih =>
    refine readsBack_of_succ fun width depth fuel t hfuel ht => ?_
    cases fields with
    | nil =>
      rw [readValue]
      rfl
    | cons field fields =>
      obtain ⟨name, value⟩ := field
      have hfirst : ∀ u rest, skipSpace (lineBreak width (depth + 1) ++ (stringText name ++ u)) ≠ '\x7d' :: rest := by
        intro u rest heq
        rw [skipSpace_lineBreak, stringText, List.cons_append, List.cons_append, skipSpace_cons rfl] at heq
        cases heq
      have hvalue : ReadsBack value := ih (name, value) List.mem_cons_self
      rw [layoutAt] at hfuel ⊢
      simp only [List.cons_append, List.append_assoc, List.length_cons, List.length_append, List.nil_append] at hfuel ⊢
      rw [readValue_obj (hfirst _),
        readFields_layout hvalue (fun f hf => ih f (List.mem_cons_of_mem _ hf)) (by omega)]
      show some (ofFields _, t) = _
      rw [ofFields_of_nodup hnames]

/-- What is printed is read back, with the line feed after it. -/
theorem decode?_layout {indent : Int} {line : Text} (h : Distinct j) (hline : layout? indent j = some line) :
    decode? (line ++ ['\n']) = some j := by
  rw [layout?, Option.ite_none_right_eq_some] at hline
  obtain ⟨-, hline⟩ := hline
  cases hline
  have hfuel : (layoutAt indent.toNat 0 j).length < 2 * (layoutAt indent.toNat 0 j ++ ['\n']).length + 1 := by
    rw [List.length_append]
    omega
  rw [decode?, readsBack_of_distinct h indent.toNat 0 _ ['\n'] hfuel rfl]
  rfl

example : decode? "\x7b\"a\": \"\\ud83d\\uDE00\\/\", \"b\":[ -1,true ], \"a\" : \x7b\x7d\x7d".toList =
    some (.obj [(['a'], .obj []), (['b'], .arr [.int (-1), .bool true])]) := by
  cbv

end

end Json

end CosmeticFilter
