import Mathlib.Data.List.Basic
import Mathlib.Data.List.TakeWhile
import Mathlib.Data.Nat.Digits.Defs

/-!
# JSON

`Json.text` writes a value without white space, in `Json.size` bytes (`utf8_text`), and
`Json.parse` reads any JSON text : white space between the tokens, every escape, fractions
and exponents. What was written is read back (`parse_text`).

A text that is read ends like a value (`ends_of_parse`) : with a quote, a closing bracket, the
end of a number or of `true`, `false` and `null`, and what stands before a closing square
bracket is one of these again, white space or the opening bracket. A text that was cut and
continued in words does not.
-/

/-! ## Values -/

namespace Json

def isDigits (s : List Char) : Bool := s ≠ [] && s.all Char.isDigit

/-- The exponent of a number, if there is one. -/
def isExponent : List Char → Bool
  | [] => true
  | e :: s =>
    let digits := if s.head? = some '-' || s.head? = some '+' then s.tail else s
    (e = 'e' || e = 'E') && isDigits digits

/-- What may follow the whole part of a number. -/
def isFraction (s : List Char) : Bool :=
  if s.head? = some '.' then
    isDigits (s.tail.takeWhile Char.isDigit) && isExponent (s.tail.dropWhile Char.isDigit)
  else isExponent s

/-- A whole part that starts with a zero is a zero. -/
def isWhole (s : List Char) : Bool := isDigits s && (s = ['0'] || s.head? ≠ some '0')

def isNumber (s : List Char) : Bool :=
  let body := if s.head? = some '-' then s.tail else s
  isWhole (body.takeWhile Char.isDigit) && isFraction (body.dropWhile Char.isDigit)

/-- A number, as it is written. -/
structure Number where
  text : List Char
  wf : isNumber text = true
deriving DecidableEq

/-! ### Whole numbers -/

/-- Only zero is written with a zero in front. -/
theorem head?_toDigits {n : ℕ} (hn : 0 < n) : (Nat.toDigits 10 n).head? ≠ some '0' := by
  induction n using Nat.strong_induction_on with
  | _ n ih =>
    by_cases hlt : n < 10
    · have hall : ∀ n < 10, 0 < n → n.digitChar ≠ '0' := by decide
      rw [Nat.toDigits_of_lt_base hlt, List.head?_cons]
      exact fun h => hall n hlt hn (Option.some.inj h)
    · rw [Nat.toDigits_of_base_le (by decide) (Nat.not_lt.mp hlt),
        List.head?_append_of_ne_nil _ Nat.toDigits_ne_nil]
      exact ih (n / 10) (by omega) (by omega)

theorem isWhole_toDigits (n : ℕ) : isWhole (Nat.toDigits 10 n) = true := by
  have hdigits : isDigits (Nat.toDigits 10 n) = true := by
    simp only [isDigits, Bool.and_eq_true, decide_eq_true_eq, List.all_eq_true]
    exact ⟨Nat.toDigits_ne_nil, fun c hc => Nat.isDigit_of_mem_toDigits (by decide) le_rfl hc⟩
  rw [isWhole, hdigits, Bool.true_and]
  rcases Nat.eq_zero_or_pos n with rfl | hn
  · rfl
  · simp only [head?_toDigits hn, ne_eq, not_false_eq_true, decide_true, Bool.or_true]

theorem isNumber_toDigits (n : ℕ) : isNumber (Nat.toDigits 10 n) = true ∧
    isNumber ('-' :: Nat.toDigits 10 n) = true := by
  have hdigit : ∀ c ∈ Nat.toDigits 10 n, c.isDigit = true := fun c hc =>
    Nat.isDigit_of_mem_toDigits (by decide) le_rfl hc
  have hbody : (isWhole ((Nat.toDigits 10 n).takeWhile Char.isDigit) &&
      isFraction ((Nat.toDigits 10 n).dropWhile Char.isDigit)) = true := by
    rw [List.takeWhile_eq_self_iff.mpr hdigit, List.dropWhile_eq_nil_iff.mpr hdigit,
      isWhole_toDigits]
    rfl
  have hsign : (Nat.toDigits 10 n).head? ≠ some '-' := fun h =>
    absurd (hdigit '-' (List.mem_of_mem_head? h)) (by decide)
  refine ⟨?_, hbody⟩
  simp only [isNumber, if_neg hsign]
  exact hbody

theorem isNumber_toString : ∀ z : ℤ, isNumber (toString z).toList = true
  | .ofNat n => by
    change isNumber n.repr.toList = true
    rw [Nat.toList_repr]
    exact (isNumber_toDigits n).1
  | .negSucc n => by
    change isNumber ("-" ++ (n + 1).repr).toList = true
    rw [String.toList_append, Nat.toList_repr]
    exact (isNumber_toDigits (n + 1)).2

def Number.ofInt (z : ℤ) : Number := ⟨(toString z).toList, isNumber_toString z⟩

end Json

/-- A JSON value; an object is the list of its fields, in their order. -/
inductive Json where
  | null
  | bool (b : Bool)
  | num (n : Json.Number)
  | str (s : List Char)
  | arr (items : List Json)
  | obj (fields : List (List Char × Json))

namespace Json

/-! ## Writing -/

/-- The four hexadecimal digits of a code unit. -/
def hexText (n : ℕ) : List Char :=
  [(n / 4096 % 16).digitChar, (n / 256 % 16).digitChar, (n / 16 % 16).digitChar,
    (n % 16).digitChar]

/-- A character of a string, with an escape where it needs one. -/
def quoteChar (c : Char) : List Char :=
  if c = '"' then "\\\"".toList
  else if c = '\\' then "\\\\".toList
  else if c = '\n' then "\\n".toList
  else if c = '\r' then "\\r".toList
  else if c = '\t' then "\\t".toList
  else if c < ' ' then '\\' :: 'u' :: hexText c.toNat
  else [c]

def quote (s : List Char) : List Char := '"' :: s.flatMap quoteChar ++ ['"']

mutual

/-- The text of a value, without white space. -/
def text : Json → List Char
  | null => "null".toList
  | bool true => "true".toList
  | bool false => "false".toList
  | num n => n.text
  | str s => quote s
  | arr items => '[' :: [','].intercalate (itemTexts items) ++ [']']
  | obj fields => '{' :: [','].intercalate (fieldTexts fields) ++ ['}']

def itemTexts : List Json → List (List Char)
  | [] => []
  | v :: items => text v :: itemTexts items

def fieldTexts : List (List Char × Json) → List (List Char)
  | [] => []
  | (key, v) :: fields => (quote key ++ ':' :: text v) :: fieldTexts fields

end

/-- A field as it is written. -/
def fieldText (f : List Char × Json) : List Char := quote f.1 ++ ':' :: f.2.text

theorem itemTexts_eq : ∀ items : List Json, itemTexts items = items.map text
  | [] => by simp only [itemTexts, List.map_nil]
  | v :: items => by rw [itemTexts, itemTexts_eq items, List.map_cons]

theorem fieldTexts_eq : ∀ fields : List (List Char × Json),
    fieldTexts fields = fields.map fieldText
  | [] => by simp only [fieldTexts, List.map_nil]
  | (key, v) :: fields => by rw [fieldTexts, fieldTexts_eq fields, List.map_cons, fieldText]

theorem text_arr (items : List Json) :
    (arr items).text = '[' :: [','].intercalate (items.map text) ++ [']'] := by
  rw [text, itemTexts_eq]

theorem text_obj (fields : List (List Char × Json)) :
    (obj fields).text = '{' :: [','].intercalate (fields.map fieldText) ++ ['}'] := by
  rw [text, fieldTexts_eq]

theorem intercalate_append_singleton {sep s : List Char} : ∀ {texts : List (List Char)},
    texts ≠ [] → sep.intercalate (texts ++ [s]) = sep.intercalate texts ++ (sep ++ s)
  | [], h => absurd rfl h
  | [t], _ => by
    rw [List.singleton_append, List.intercalate_cons_cons, List.intercalate_singleton,
      List.intercalate_singleton, List.append_assoc]
  | t :: u :: texts, _ => by
    have ih := @intercalate_append_singleton sep s _ (List.cons_ne_nil u texts)
    rw [List.cons_append, List.cons_append, List.intercalate_cons_cons, ← List.cons_append, ih,
      List.intercalate_cons_cons]
    simp only [List.append_assoc]

/-- A field behind the others stands before the closing brace. -/
theorem text_obj_append (fields : List (List Char × Json)) (h : fields ≠ [])
    (f : List Char × Json) :
    (obj (fields ++ [f])).text = (obj fields).text.dropLast ++ (',' :: fieldText f ++ ['}']) := by
  rw [text_obj, text_obj, List.map_append, List.map_singleton,
    intercalate_append_singleton (by simpa using h), List.dropLast_concat]
  simp only [List.cons_append, List.append_assoc, List.nil_append]

theorem getLast?_text_obj (fields : List (List Char × Json)) :
    (obj fields).text.getLast? = some '}' := by
  rw [text_obj, List.getLast?_concat]

/-! ### The size -/

/-- The bytes a character of a string takes up. -/
def charSize (c : Char) : ℕ :=
  if c = '"' ∨ c = '\\' ∨ c = '\n' ∨ c = '\r' ∨ c = '\t' then 2
  else if c < ' ' then 6
  else c.utf8Size

def quotedSize (s : List Char) : ℕ := (s.map charSize).sum + 2

mutual

/-- The bytes a value takes up : brackets, commas and colons are one each. -/
def size : Json → ℕ
  | null => 4
  | bool true => 4
  | bool false => 5
  | num n => n.text.length
  | str s => quotedSize s
  | arr items => itemsSize items + (items.length - 1) + 2
  | obj fields => fieldsSize fields + (fields.length - 1) + 2

def itemsSize : List Json → ℕ
  | [] => 0
  | v :: items => size v + itemsSize items

def fieldsSize : List (List Char × Json) → ℕ
  | [] => 0
  | (key, v) :: fields => quotedSize key + 1 + size v + fieldsSize fields

end

theorem length_le_quotedSize (s : List Char) : s.length ≤ quotedSize s := by
  have hpos : ∀ c, 1 ≤ charSize c := fun c => by
    unfold charSize
    split_ifs
    · decide
    · decide
    · exact c.utf8Size_pos
  have hs : s.length ≤ (s.map charSize).sum := by
    induction s with
    | nil => exact le_rfl
    | cons c s ih =>
      have := hpos c
      rw [List.length_cons, List.map_cons, List.sum_cons]
      omega
  exact hs.trans (Nat.le_add_right _ _)

/-- A field takes up no more than its object. -/
theorem size_le_of_mem {fields : List (List Char × Json)} {f : List Char × Json}
    (h : f ∈ fields) : f.2.size ≤ (obj fields).size := by
  have hfields : f.2.size ≤ fieldsSize fields := by
    induction fields with
    | nil => exact absurd h List.not_mem_nil
    | cons g fields ih =>
      obtain ⟨key, v⟩ := g
      rw [fieldsSize]
      rcases List.mem_cons.mp h with rfl | hf
      · dsimp only
        omega
      · have := ih hf
        omega
  rw [size]
  omega

/-! ## Reading -/

/-- Read a value from the front of a text. -/
abbrev Reader (α : Type) := List Char → Option (α × List Char)

def isSpace (c : Char) : Bool := c = ' ' || c = '\n' || c = '\r' || c = '\t'

def skip (s : List Char) : List Char := s.dropWhile isSpace

/-- The rest behind a character that has to come next. -/
def expect (c : Char) : List Char → Option (List Char)
  | [] => none
  | d :: s => if d = c then some s else none

def hexDigit (c : Char) : Option ℕ :=
  if c.isDigit then some (c.toNat - '0'.toNat)
  else if 'a' ≤ c ∧ c ≤ 'f' then some (c.toNat - 'a'.toNat + 10)
  else if 'A' ≤ c ∧ c ≤ 'F' then some (c.toNat - 'A'.toNat + 10)
  else none

def hexUnit (a b c d : Char) : Option ℕ := do
  let a ← hexDigit a
  let b ← hexDigit b
  let c ← hexDigit c
  let d ← hexDigit d
  return ((a * 16 + b) * 16 + c) * 16 + d

/-- The character an escape other than `\u` stands for. -/
def escape (c : Char) : Option ℕ :=
  if c = '"' || c = '\\' || c = '/' then some c.toNat
  else if c = 'b' then some 8
  else if c = 'f' then some 12
  else if c = 'n' then some 10
  else if c = 'r' then some 13
  else if c = 't' then some 9
  else none

/-- One code unit of a string : a character, or an escape. -/
def readUnit : Reader ℕ
  | [] => none
  | c :: s =>
    if c = '\\' then
      match s with
      | [] => none
      | e :: s =>
        if e = 'u' then
          match s with
          | a :: b :: c :: d :: s => (hexUnit a b c d).map fun n => (n, s)
          | _ => none
        else (escape e).map fun n => (n, s)
    else if c.toNat < 32 then none
    else some (c.toNat, s)

/-- At most `fuel` code units, up to the closing quote. -/
def readUnits : ℕ → Reader (List ℕ)
  | 0, _ => none
  | fuel + 1, s =>
    match expect '"' s with
    | some s => some ([], s)
    | none => do
      let (n, s) ← readUnit s
      let (ns, s) ← readUnits fuel s
      return (n :: ns, s)

/-- A code unit that stands for a character by itself. -/
def unitChar (n : ℕ) : Char := if n.isValidChar then Char.ofNat n else '\uFFFD'

/-- Two code units that stand for one character. -/
def isPair (n m : ℕ) : Bool := 0xD800 ≤ n && n < 0xDC00 && 0xDC00 ≤ m && m < 0xE000

/-- The characters of a string. -/
def decodeUnits : List ℕ → List Char
  | [] => []
  | [n] => [unitChar n]
  | n :: m :: ns =>
    if isPair n m then
      Char.ofNat (0x10000 + (n - 0xD800) * 0x400 + (m - 0xDC00)) :: decodeUnits ns
    else unitChar n :: decodeUnits (m :: ns)

def readString : Reader (List Char) := fun s => do
  let (units, s) ← readUnits (s.length + 1) s
  return (decodeUnits units, s)

/-- A character of a number. -/
def isNumeric (c : Char) : Bool :=
  c.isDigit || c = '-' || c = '+' || c = '.' || c = 'e' || c = 'E'

/-- A character of a number or of a name. -/
def isWord (c : Char) : Bool := c.isAlphanum || c = '-' || c = '+' || c = '.'

/-- A number, `true`, `false` or `null`. -/
def wordValue (word : List Char) : Option Json :=
  if word = "null".toList then some .null
  else if word = "true".toList then some (.bool true)
  else if word = "false".toList then some (.bool false)
  else if h : isNumber word then some (.num ⟨word, h⟩)
  else none

def readWord : Reader Json := fun s => do
  let v ← wordValue (s.takeWhile isWord)
  return (v, s.dropWhile isWord)

/-- One or more items with commas between them, up to the closing bracket. -/
def readMany {α : Type} (item : Reader α) (close : Char) : ℕ → Reader (List α)
  | 0, _ => none
  | fuel + 1, s => do
    let (a, s) ← item s
    match skip s with
    | [] => none
    | c :: s =>
      if c = close then return ([a], s)
      else if c = ',' then do
        let (as, s) ← readMany item close fuel s
        return (a :: as, s)
      else none

/-- Any number of items, behind the opening bracket. -/
def readBracketed {α : Type} (item : Reader α) (close : Char) (fuel : ℕ) : Reader (List α) :=
  fun s =>
    match expect close (skip s) with
    | some s => some ([], s)
    | none => readMany item close fuel s

def readField (value : Reader Json) : Reader (List Char × Json) := fun s => do
  let s ← expect '"' (skip s)
  let (key, s) ← readString s
  let s ← expect ':' (skip s)
  let (v, s) ← value s
  return ((key, v), s)

/-- A value, nested at most `fuel` deep. -/
def readValue : ℕ → Reader Json
  | 0, _ => none
  | fuel + 1, s =>
    match skip s with
    | [] => none
    | c :: s =>
      if c = '"' then (readString s).map fun (s, rest) => (.str s, rest)
      else if c = '[' then
        (readBracketed (readValue fuel) ']' fuel s).map fun (items, rest) => (.arr items, rest)
      else if c = '{' then
        (readBracketed (readField (readValue fuel)) '}' fuel s).map fun (fields, rest) =>
          (.obj fields, rest)
      else readWord (c :: s)

/-- The value of a JSON text. A text nests less deep than it is long. -/
def parse (s : List Char) : Option Json := do
  let (v, rest) ← readValue (s.length + 1) s
  if skip rest = [] then some v else none

/-! ## What was written is read back -/

/-- The reader takes exactly `used` for the value, if no word goes on behind it. -/
def Reads {α : Type} (read : Reader α) (used : List Char) (a : α) : Prop :=
  ∀ more, (∀ c ∈ more.head?, isWord c = false) → read (used ++ more) = some (a, more)

theorem skip_cons {c : Char} (h : isSpace c = false) (s : List Char) : skip (c :: s) = c :: s := by
  rw [skip, List.dropWhile_cons_of_neg (by simp [h])]

theorem expect_cons (c : Char) (s : List Char) : expect c (c :: s) = some s := if_pos rfl

/-! ### Strings -/

theorem hexUnit_hexText (c : Char) (h : c < ' ') :
    ∃ a b d e, hexText c.toNat = [a, b, d, e] ∧ hexUnit a b d e = some c.toNat := by
  have hall : ∀ n < 32, hexUnit (n / 4096 % 16).digitChar (n / 256 % 16).digitChar
      (n / 16 % 16).digitChar (n % 16).digitChar = some n := by decide
  exact ⟨_, _, _, _, rfl, hall _ h⟩

theorem readUnit_quoteChar (c : Char) (s : List Char) :
    expect '"' (quoteChar c ++ s) = none ∧ readUnit (quoteChar c ++ s) = some (c.toNat, s) := by
  unfold quoteChar
  split_ifs with hq hb hn hr ht hc
  · subst hq; exact ⟨rfl, rfl⟩
  · subst hb; exact ⟨rfl, rfl⟩
  · subst hn; exact ⟨rfl, rfl⟩
  · subst hr; exact ⟨rfl, rfl⟩
  · subst ht; exact ⟨rfl, rfl⟩
  · obtain ⟨a, b, d, e, htext, hunit⟩ := hexUnit_hexText c hc
    have hread : readUnit ('\\' :: 'u' :: a :: b :: d :: e :: s) =
        (hexUnit a b d e).map fun n => (n, s) := rfl
    rw [htext]
    exact ⟨rfl, hread.trans (by rw [hunit, Option.map_some])⟩
  · have hlow : ¬ c.toNat < 32 := hc
    exact ⟨if_neg hq, (if_neg hb).trans (if_neg hlow)⟩

theorem readUnits_quote (more : List Char) : ∀ (s : List Char) (fuel : ℕ), s.length < fuel →
    readUnits fuel (s.flatMap quoteChar ++ '"' :: more) = some (s.map Char.toNat, more)
  | [], fuel + 1, _ => rfl
  | c :: s, fuel + 1, h => by
    obtain ⟨hquote, hunit⟩ := readUnit_quoteChar c (s.flatMap quoteChar ++ '"' :: more)
    have ih := readUnits_quote more s fuel (by simpa using h)
    rw [List.flatMap_cons, List.append_assoc, readUnits, hquote]
    simp only [hunit, ih, Option.bind_eq_bind, Option.bind_some]
    rfl

/-- No character is half of a pair. -/
theorem not_isPair (c : Char) (m : ℕ) : isPair c.toNat m = false := by
  have hv : c.toNat.isValidChar := c.valid
  simp only [Nat.isValidChar] at hv
  simp only [isPair, Bool.and_eq_false_iff, decide_eq_false_iff_not]
  omega

theorem unitChar_toNat (c : Char) : unitChar c.toNat = c := by
  have hv : c.toNat.isValidChar := c.valid
  rw [unitChar, if_pos hv, Char.ofNat_toNat]

theorem decodeUnits_map : ∀ s : List Char, decodeUnits (s.map Char.toNat) = s
  | [] => rfl
  | [c] => by rw [List.map_singleton, decodeUnits, unitChar_toNat]
  | c :: d :: s => by
    have ih := decodeUnits_map (d :: s)
    rw [List.map_cons] at ih
    rw [List.map_cons, List.map_cons, decodeUnits, not_isPair, if_neg Bool.false_ne_true, ih,
      unitChar_toNat]

theorem length_le_flatMap_quoteChar (s : List Char) : s.length ≤ (s.flatMap quoteChar).length := by
  have hpos : ∀ c, 1 ≤ (quoteChar c).length := fun c => by
    unfold quoteChar
    split_ifs <;> simp
  induction s with
  | nil => simp
  | cons c s ih =>
    have := hpos c
    simp only [List.flatMap_cons, List.length_cons, List.length_append]
    omega

theorem readString_quote (s more : List Char) :
    readString (s.flatMap quoteChar ++ '"' :: more) = some (s, more) := by
  have hlen := length_le_flatMap_quoteChar s
  have hread := readUnits_quote more s ((s.flatMap quoteChar ++ '"' :: more).length + 1)
    (by simp only [List.length_append, List.length_cons]; omega)
  simp only [readString, hread, Option.bind_eq_bind, Option.bind_some, decodeUnits_map]
  rfl

/-! ### Numbers and names -/

theorem isNumeric_of_isDigits {s : List Char} (h : isDigits s = true) :
    ∀ c ∈ s, isNumeric c = true := by
  simp only [isDigits, Bool.and_eq_true, List.all_eq_true] at h
  intro c hc
  simp only [isNumeric, h.2 c hc, Bool.true_or]

/-- A sign in front is a character of a number too. -/
theorem isNumeric_of_tail {p : Prop} [Decidable p] {s : List Char}
    (hp : p → ∀ c ∈ s.head?, isNumeric c = true)
    (h : ∀ c ∈ (if p then s.tail else s), isNumeric c = true) :
    ∀ c ∈ s, isNumeric c = true := by
  split_ifs at h with hif
  · cases s with
    | nil => simp
    | cons d s =>
      rintro c (_ | ⟨_, hc⟩)
      · exact hp hif d rfl
      · exact h c hc
  · exact h

theorem isNumeric_of_isExponent {s : List Char} (h : isExponent s = true) :
    ∀ c ∈ s, isNumeric c = true := by
  cases s with
  | nil => simp
  | cons e s =>
    simp only [isExponent, Bool.and_eq_true, Bool.or_eq_true, decide_eq_true_eq] at h
    rintro c (_ | ⟨_, hc⟩)
    · rcases h.1 with rfl | rfl <;> decide
    · refine isNumeric_of_tail (fun hp d hd => ?_) (isNumeric_of_isDigits h.2) c hc
      rw [Option.mem_def] at hd
      simp only [hd, Option.some.injEq] at hp
      rcases hp with rfl | rfl <;> decide

theorem isNumeric_of_isFraction {s : List Char} (h : isFraction s = true) :
    ∀ c ∈ s, isNumeric c = true := by
  unfold isFraction at h
  split_ifs at h with hdot
  · obtain ⟨t, rfl⟩ := List.head?_eq_some_iff.mp hdot
    simp only [Bool.and_eq_true, List.tail_cons] at h
    intro c hc
    rcases List.mem_cons.mp hc with rfl | hc
    · decide
    · rw [← List.takeWhile_append_dropWhile (p := Char.isDigit) (l := t), List.mem_append] at hc
      exact hc.elim (isNumeric_of_isDigits h.1 c) (isNumeric_of_isExponent h.2 c)
  · exact isNumeric_of_isExponent h

theorem isNumeric_of_isNumber {s : List Char} (h : isNumber s = true) :
    ∀ c ∈ s, isNumeric c = true := by
  simp only [isNumber, isWhole, Bool.and_eq_true] at h
  refine isNumeric_of_tail (p := s.head? = some '-') (fun hp d hd => ?_) fun c hc => ?_
  · rw [Option.mem_def, hp] at hd
    rw [← Option.some.inj hd]
    decide
  · rw [← List.takeWhile_append_dropWhile (p := Char.isDigit)
      (l := if s.head? = some '-' then s.tail else s), List.mem_append] at hc
    exact hc.elim (isNumeric_of_isDigits h.1.1 c) (isNumeric_of_isFraction h.2 c)

theorem isWord_of_isNumeric {c : Char} (h : isNumeric c = true) : isWord c = true := by
  simp only [isNumeric, Bool.or_eq_true, decide_eq_true_eq] at h
  simp only [isWord, Char.isAlphanum, Bool.or_eq_true, decide_eq_true_eq]
  rcases h with ((((h | h) | h) | h) | rfl) | rfl <;> first | decide | tauto

theorem takeWhile_append_word {word more : List Char} (hw : ∀ c ∈ word, isWord c = true)
    (hmore : ∀ c ∈ more.head?, isWord c = false) : (word ++ more).takeWhile isWord = word := by
  rw [List.takeWhile_append_of_pos hw]
  cases more with
  | nil => simp
  | cons c more => simp [hmore c rfl]

theorem reads_readWord {word : List Char} {v : Json} (hw : ∀ c ∈ word, isWord c = true)
    (hv : wordValue word = some v) : Reads readWord word v := by
  intro more hmore
  have htake := takeWhile_append_word hw hmore
  have hdrop : (word ++ more).dropWhile isWord = more := by
    rw [List.dropWhile_append_of_pos hw]
    cases more with
    | nil => simp
    | cons c more => simp [hmore c rfl]
  simp only [readWord, htake, hdrop, hv, Option.bind_eq_bind, Option.bind_some]
  rfl

theorem wordValue_number (n : Number) : wordValue n.text = some (.num n) := by
  have hne : ∀ s, isNumber s = false → n.text ≠ s := fun s hs h => by
    have hwf := n.wf
    rw [h, hs] at hwf
    exact Bool.false_ne_true hwf
  rw [wordValue, if_neg (hne _ (by decide)), if_neg (hne _ (by decide)),
    if_neg (hne _ (by decide)), dif_pos n.wf]

/-! ### Values -/

/-- Nothing that closes or parts values goes on a word, nor does the end. -/
theorem not_isWord_cons {c : Char} (h : isWord c = false) (s : List Char) :
    ∀ d ∈ (c :: s).head?, isWord d = false := by
  rintro d hd
  rw [← Option.some.inj hd]
  exact h

section Items

variable {α : Type} {item : Reader α} {write : α → List Char} {close : Char}

theorem reads_readMany (hword : isWord close = false) (hspace : isSpace close = false)
    (hcomma : close ≠ ',') (a : α) (as : List α) :
    ∀ fuel, as.length < fuel → (∀ b ∈ a :: as, Reads item (write b) b) →
      Reads (readMany item close fuel)
        ([','].intercalate ((a :: as).map write) ++ [close]) (a :: as) := by
  induction as generalizing a with
  | nil =>
    rintro (_ | fuel) hfuel h more hmore
    · exact absurd hfuel (Nat.not_lt_zero _)
    · have ha := h a (by simp) (close :: more) (not_isWord_cons hword more)
      rw [List.map_singleton, List.intercalate_singleton, List.append_assoc,
        List.singleton_append, readMany]
      simp only [ha, Option.bind_eq_bind, Option.bind_some, skip_cons hspace, if_true]
      rfl
  | cons b as ih =>
    rintro (_ | fuel) hfuel h more hmore
    · exact absurd hfuel (Nat.not_lt_zero _)
    · have has := ih b fuel (by simpa using hfuel) (fun d hd => h d (List.mem_cons_of_mem _ hd))
        more hmore
      have ha := h a (by simp) (',' :: ([','].intercalate ((b :: as).map write) ++ [close] ++ more))
        (not_isWord_cons (by decide) _)
      have htext : [','].intercalate ((a :: b :: as).map write) ++ [close] ++ more =
          write a ++ ',' :: ([','].intercalate ((b :: as).map write) ++ [close] ++ more) := by
        rw [List.map_cons, List.map_cons, List.intercalate_cons_cons]
        simp only [List.append_assoc, List.cons_append, List.nil_append]
      rw [htext, readMany]
      simp only [ha, has, Option.bind_eq_bind, Option.bind_some, skip_cons (c := ',') (by decide),
        if_neg hcomma.symm, if_true]
      rfl

/-- The items between brackets are read back, if none of them starts with the closing one. -/
theorem reads_readBracketed (hword : isWord close = false) (hspace : isSpace close = false)
    (hcomma : close ≠ ',') {as : List α} {fuel : ℕ} (hfuel : as.length ≤ fuel)
    (h : ∀ a ∈ as, Reads item (write a) a)
    (hne : ∀ a ∈ as, ∀ more, expect close (skip (write a ++ more)) = none) :
    Reads (readBracketed item close fuel)
      ([','].intercalate (as.map write) ++ [close]) as := by
  intro more hmore
  unfold readBracketed
  cases as with
  | nil =>
    rw [List.map_nil, List.intercalate_nil, List.nil_append, List.singleton_append,
      skip_cons hspace, expect_cons]
  | cons a as =>
    have hfirst : ∃ rest, [','].intercalate ((a :: as).map write) = write a ++ rest := by
      cases as with
      | nil => exact ⟨[], by simp⟩
      | cons b as => exact ⟨_, by rw [List.map_cons, List.map_cons, List.intercalate_cons_cons,
          List.append_assoc]⟩
    obtain ⟨rest, hrest⟩ := hfirst
    have hexp := hne a (by simp) (rest ++ [close] ++ more)
    rw [← List.append_assoc, ← List.append_assoc, ← hrest] at hexp
    simp only [hexp]
    exact reads_readMany hword hspace hcomma a as fuel hfuel h more hmore

end Items

theorem reads_readField {value : Reader Json} {f : List Char × Json}
    (h : Reads value f.2.text f.2) : Reads (readField value) (fieldText f) f := by
  intro more hmore
  have hkey : quote f.1 ++ ':' :: f.2.text ++ more =
      '"' :: (f.1.flatMap quoteChar ++ '"' :: ':' :: (f.2.text ++ more)) := by
    simp [quote]
  simp only [readField, fieldText, hkey, skip_cons (c := '"') (by decide), expect_cons,
    readString_quote, skip_cons (c := ':') (by decide), h more hmore, Option.bind_eq_bind,
    Option.bind_some]
  rfl

/-- The first character of a value. -/
theorem text_eq_cons (v : Json) : ∃ c s, v.text = c :: s ∧ isSpace c = false ∧ c ≠ ']' := by
  cases v with
  | null => exact ⟨_, _, rfl, by decide, by decide⟩
  | bool b => cases b <;> exact ⟨_, _, rfl, by decide, by decide⟩
  | str s => exact ⟨_, _, rfl, by decide, by decide⟩
  | arr items => exact ⟨_, _, rfl, by decide, by decide⟩
  | obj fields => exact ⟨_, _, rfl, by decide, by decide⟩
  | num n =>
    cases ht : n.text with
    | nil => exact absurd n.wf (by rw [ht]; decide)
    | cons c s =>
      have hc := isNumeric_of_isNumber n.wf c (by simp [ht])
      refine ⟨c, s, ht, ?_, ?_⟩
      · simp only [isSpace, Bool.or_eq_false_iff, decide_eq_false_iff_not]
        refine ⟨⟨⟨?_, ?_⟩, ?_⟩, ?_⟩ <;> rintro rfl <;> exact absurd hc (by decide)
      · rintro rfl
        exact absurd hc (by decide)

/-- A text that starts with a word is read by that. -/
theorem readValue_word {word more : List Char} {fuel : ℕ} (hne : word ≠ [])
    (hw : ∀ c ∈ word, isWord c = true) :
    readValue (fuel + 1) (word ++ more) = readWord (word ++ more) := by
  cases word with
  | nil => exact absurd rfl hne
  | cons c s =>
    have hc := hw c (by simp)
    have hspace : isSpace c = false := by
      simp only [isSpace, Bool.or_eq_false_iff, decide_eq_false_iff_not]
      refine ⟨⟨⟨?_, ?_⟩, ?_⟩, ?_⟩ <;> rintro rfl <;> exact absurd hc (by decide)
    have hopen : ∀ d, isWord d = false → c ≠ d := fun d hd h => by
      rw [h, hd] at hc
      exact Bool.false_ne_true hc
    rw [List.cons_append, readValue, skip_cons hspace]
    simp only [if_neg (hopen '"' (by decide)), if_neg (hopen '[' (by decide)),
      if_neg (hopen '{' (by decide))]

theorem reads_readValue_word {word : List Char} {v : Json} {fuel : ℕ} (hne : word ≠ [])
    (hw : ∀ c ∈ word, isWord c = true) (hv : wordValue word = some v) :
    Reads (readValue (fuel + 1)) word v := by
  intro more hmore
  rw [readValue_word hne hw]
  exact reads_readWord hw hv more hmore

theorem length_intercalate {α : Type} {write : α → List Char} (hne : ∀ a, write a ≠ []) :
    ∀ as : List α, as.length ≤ ([','].intercalate (as.map write)).length ∧
      ∀ a ∈ as, (write a).length ≤ ([','].intercalate (as.map write)).length
  | [] => by simp
  | [a] => by
    have := List.length_pos_iff.mpr (hne a)
    simp only [List.map_singleton, List.intercalate_singleton, List.length_singleton,
      List.mem_singleton, forall_eq, le_refl, and_true]
    omega
  | a :: b :: as => by
    obtain ⟨hlen, hmem⟩ := length_intercalate hne (b :: as)
    rw [List.map_cons, List.map_cons, List.intercalate_cons_cons, ← List.map_cons]
    simp only [List.length_append, List.length_cons] at hlen ⊢
    refine ⟨by omega, fun d hd => ?_⟩
    rcases List.mem_cons.mp hd with rfl | hd
    · omega
    · have := hmem d hd
      omega

theorem reads_readValue : ∀ (fuel : ℕ) (v : Json), v.text.length ≤ fuel →
    Reads (readValue fuel) v.text v
  | 0, v, h => by
    obtain ⟨c, s, hv, -⟩ := text_eq_cons v
    rw [hv] at h
    exact absurd h (Nat.not_succ_le_zero _)
  | fuel + 1, .null, _ => reads_readValue_word (by decide) (List.all_eq_true.mp (by decide)) rfl
  | fuel + 1, .bool true, _ => reads_readValue_word (by decide) (List.all_eq_true.mp (by decide)) rfl
  | fuel + 1, .bool false, _ => reads_readValue_word (by decide) (List.all_eq_true.mp (by decide)) rfl
  | fuel + 1, .num n, _ => by
    refine reads_readValue_word (fun h => ?_)
      (fun c hc => isWord_of_isNumeric (isNumeric_of_isNumber n.wf c hc)) (wordValue_number n)
    have hwf := n.wf
    rw [show n.text = [] from h] at hwf
    exact absurd hwf (by decide)
  | fuel + 1, .str s, _ => by
    intro more _
    have htext : (Json.str s).text ++ more = '"' :: (s.flatMap quoteChar ++ '"' :: more) := by
      simp [text, quote]
    rw [htext, readValue, skip_cons (by decide)]
    simp only [if_true, readString_quote, Option.map_some]
  | fuel + 1, .arr items, h => by
    intro more hmore
    have hne : ∀ v : Json, v.text ≠ [] := fun v => by
      obtain ⟨c, s, hv, -⟩ := text_eq_cons v
      simp [hv]
    obtain ⟨hlen, hmem⟩ := length_intercalate hne items
    simp only [text, itemTexts_eq, List.length_cons, List.length_append, List.length_nil,
      zero_add] at h
    have hread : Reads (readBracketed (readValue fuel) ']' fuel)
        ([','].intercalate (items.map text) ++ [']']) items :=
      reads_readBracketed (by decide) (by decide) (by decide) (by omega)
        (fun v hv => reads_readValue fuel v (by have := hmem v hv; omega))
        (fun v _ more => by
          obtain ⟨c, s, hv, hspace, hc⟩ := text_eq_cons v
          rw [hv, List.cons_append, skip_cons hspace, expect, if_neg hc])
    rw [text, itemTexts_eq, List.cons_append, List.cons_append, readValue, skip_cons (by decide)]
    simp only [hread more hmore, if_neg (show ('[' : Char) ≠ '"' by decide), if_true,
      Option.map_some]
  | fuel + 1, .obj fields, h => by
    intro more hmore
    have hne : ∀ f, fieldText f ≠ [] := fun f => by simp [fieldText, quote]
    obtain ⟨hlen, hmem⟩ := length_intercalate hne fields
    simp only [text, fieldTexts_eq, List.length_cons, List.length_append, List.length_nil,
      zero_add] at h
    have hread : Reads (readBracketed (readField (readValue fuel)) '}' fuel)
        ([','].intercalate (fields.map fieldText) ++ ['}']) fields :=
      reads_readBracketed (by decide) (by decide) (by decide) (by omega)
        (fun f hf => reads_readField (reads_readValue fuel f.2 (by
          have := hmem f hf
          simp only [fieldText, List.length_append, List.length_cons] at this
          omega)))
        (fun f _ more => by
          rw [fieldText, quote, List.cons_append, List.cons_append, List.cons_append,
            skip_cons (by decide), expect, if_neg (by decide)])
    rw [text, fieldTexts_eq, List.cons_append, List.cons_append, readValue, skip_cons (by decide)]
    simp only [hread more hmore, if_neg (show ('{' : Char) ≠ '"' by decide),
      if_neg (show ('{' : Char) ≠ '[' by decide), if_true, Option.map_some]

/-- What was written for a value is read back as the value. -/
theorem parse_text (v : Json) : parse v.text = some v := by
  have h := reads_readValue (v.text.length + 1) v (Nat.le_succ _) [] (by simp)
  rw [List.append_nil] at h
  simp only [parse, h, Option.bind_eq_bind, Option.bind_some]
  rfl

/-! ## The size of what was written -/

/-- The bytes of a text in UTF-8. -/
def bytes (s : List Char) : ℕ := (s.map Char.utf8Size).sum

theorem bytes_append (s t : List Char) : bytes (s ++ t) = bytes s + bytes t := by
  rw [bytes, List.map_append, List.sum_append]
  rfl

theorem bytes_cons (c : Char) (s : List Char) : bytes (c :: s) = c.utf8Size + bytes s := rfl

theorem bytes_quoteChar (c : Char) : bytes (quoteChar c) = charSize c := by
  have hhex : ∀ n < 16, n.digitChar.utf8Size = 1 := by decide
  have hmod : ∀ n : ℕ, (n % 16).digitChar.utf8Size = 1 := fun n =>
    hhex _ (Nat.mod_lt _ (by decide))
  unfold quoteChar charSize
  by_cases hescape : c = '"' ∨ c = '\\' ∨ c = '\n' ∨ c = '\r' ∨ c = '\t'
  · rw [if_pos hescape]
    rcases hescape with rfl | rfl | rfl | rfl | rfl <;> rfl
  · simp only [not_or] at hescape
    obtain ⟨hq, hb, hn, hr, ht⟩ := hescape
    simp only [hq, hb, hn, hr, ht, or_self, if_false]
    split_ifs
    · simp only [hexText, bytes_cons, hmod]
      rfl
    · rfl

theorem bytes_quote (s : List Char) : bytes (quote s) = quotedSize s := by
  have hs : bytes (s.flatMap quoteChar) = (s.map charSize).sum := by
    induction s with
    | nil => rfl
    | cons c s ih => rw [List.flatMap_cons, bytes_append, ih, bytes_quoteChar]; rfl
  rw [quote, List.cons_append, bytes_cons, bytes_append, hs, quotedSize]
  change 1 + (_ + 1) = _
  omega

theorem bytes_number (n : Number) : bytes n.text = n.text.length := by
  have hone : ∀ c, isNumeric c = true → c.utf8Size = 1 := fun c hc => by
    simp only [isNumeric, Char.isDigit, Bool.or_eq_true, Bool.and_eq_true, decide_eq_true_eq] at hc
    rw [Char.utf8Size_eq_one_iff]
    rcases hc with ((((h | rfl) | rfl) | rfl) | rfl) | rfl
    · exact UInt32.le_trans h.2 (by decide)
    all_goals decide
  have hall := isNumeric_of_isNumber n.wf
  generalize n.text = s at hall
  induction s with
  | nil => rfl
  | cons c s ih =>
    rw [bytes_cons, hone c (hall c (by simp)), ih fun d hd => hall d (List.mem_cons_of_mem _ hd),
      List.length_cons, Nat.add_comm]

theorem bytes_intercalate : ∀ texts : List (List Char),
    bytes ([','].intercalate texts) = (texts.map bytes).sum + (texts.length - 1)
  | [] => rfl
  | [s] => by simp
  | s :: t :: texts => by
    have ih := bytes_intercalate (t :: texts)
    rw [List.intercalate_cons_cons, bytes_append, bytes_append, ih]
    simp only [List.map_cons, List.sum_cons, List.length_cons]
    change _ + 1 + _ = _
    omega

theorem length_itemTexts (items : List Json) : (itemTexts items).length = items.length := by
  rw [itemTexts_eq, List.length_map]

theorem length_fieldTexts (fields : List (List Char × Json)) :
    (fieldTexts fields).length = fields.length := by
  rw [fieldTexts_eq, List.length_map]

mutual

/-- A value takes up its size. -/
theorem bytes_text : ∀ v : Json, bytes v.text = v.size
  | .null => rfl
  | .bool true => rfl
  | .bool false => rfl
  | .num n => bytes_number n
  | .str s => bytes_quote s
  | .arr items => by
    rw [text, size, List.cons_append, bytes_cons, bytes_append, bytes_intercalate,
      bytes_itemTexts items, length_itemTexts]
    change 1 + (_ + 1) = _
    omega
  | .obj fields => by
    rw [text, size, List.cons_append, bytes_cons, bytes_append, bytes_intercalate,
      bytes_fieldTexts fields, length_fieldTexts]
    change 1 + (_ + 1) = _
    omega

theorem bytes_itemTexts : ∀ items : List Json,
    ((itemTexts items).map bytes).sum = itemsSize items
  | [] => rfl
  | v :: items => by
    rw [itemTexts, itemsSize, List.map_cons, List.sum_cons, bytes_text v, bytes_itemTexts items]

theorem bytes_fieldTexts : ∀ fields : List (List Char × Json),
    ((fieldTexts fields).map bytes).sum = fieldsSize fields
  | [] => rfl
  | (key, v) :: fields => by
    rw [fieldTexts, fieldsSize, List.map_cons, List.sum_cons, bytes_append, bytes_cons,
      bytes_quote, bytes_text v, bytes_fieldTexts fields]
    change _ + (1 + _) + _ = _
    omega

end

/-! ## How a text that is read ends -/

/-- A character a value may end with. -/
def isEnd (c : Char) : Bool := c = '"' || c = '}' || c = ']' || c = 'l' || isNumeric c

/-- The text ends like a value. Before a closing square bracket stands the end of a value,
white space or the opening bracket. -/
def Ends (s : List Char) : Prop :=
  ∃ front c, s = front ++ [c] ∧ isEnd c = true ∧
    (c = ']' → ∃ front' d, front = front' ++ [d] ∧ (isEnd d || isSpace d || d = '[') = true)

theorem Ends.append {t : List Char} (h : Ends t) (s : List Char) : Ends (s ++ t) := by
  obtain ⟨front, c, rfl, hc, hbracket⟩ := h
  refine ⟨s ++ front, c, by rw [List.append_assoc], hc, fun h => ?_⟩
  obtain ⟨front', d, rfl, hd⟩ := hbracket h
  exact ⟨s ++ front', d, by rw [List.append_assoc], hd⟩

/-- A reader that takes away a text with the end of a value. -/
def Takes {α : Type} (read : Reader α) : Prop :=
  ∀ s a rest, read s = some (a, rest) → ∃ used, s = used ++ rest ∧ Ends used

theorem exists_skip (s : List Char) :
    ∃ spaces, s = spaces ++ skip s ∧ ∀ c ∈ spaces, isSpace c = true :=
  ⟨s.takeWhile isSpace, (List.takeWhile_append_dropWhile).symm,
    fun _ hc => List.mem_takeWhile_imp hc⟩

theorem eq_cons_of_expect {c : Char} {s rest : List Char} (h : expect c s = some rest) :
    s = c :: rest := by
  cases s with
  | nil => exact absurd h nofun
  | cons d s =>
    simp only [expect] at h
    split_ifs at h with hd
    rw [hd, Option.some.inj h]

theorem suffix_of_readUnit {s rest : List Char} {n : ℕ} (h : readUnit s = some (n, rest)) :
    ∃ used, s = used ++ rest := by
  unfold readUnit at h
  split at h
  · exact absurd h nofun
  · next c s =>
    split_ifs at h
    · split at h
      · exact absurd h nofun
      · next e s =>
        split_ifs at h
        · split at h
          · next a b c d s =>
            obtain ⟨_, -, heq⟩ := Option.map_eq_some_iff.mp h
            rw [← (Prod.mk.inj heq).2]
            exact ⟨[_, _, a, b, c, d], rfl⟩
          · exact absurd h nofun
        · obtain ⟨_, -, heq⟩ := Option.map_eq_some_iff.mp h
          rw [← (Prod.mk.inj heq).2]
          exact ⟨[_, _], rfl⟩
    · rw [← (Prod.mk.inj (Option.some.inj h)).2]
      exact ⟨[c], rfl⟩

theorem eq_append_of_readUnits : ∀ {fuel : ℕ} {s rest : List Char} {ns : List ℕ},
    readUnits fuel s = some (ns, rest) → ∃ front, s = front ++ '"' :: rest
  | 0, _, _, _, h => absurd h nofun
  | fuel + 1, s, rest, ns, h => by
    rw [readUnits] at h
    split at h
    · next t ht =>
      rw [← (Prod.mk.inj (Option.some.inj h)).2]
      exact ⟨[], eq_cons_of_expect ht⟩
    · simp only [Option.bind_eq_bind, Option.bind_eq_some_iff, Prod.exists] at h
      obtain ⟨n, t, hunit, ms, u, hunits, heq⟩ := h
      obtain ⟨used, rfl⟩ := suffix_of_readUnit hunit
      obtain ⟨front, rfl⟩ := eq_append_of_readUnits hunits
      rw [← (Prod.mk.inj (Option.some.inj heq)).2]
      exact ⟨used ++ front, by rw [List.append_assoc]⟩

theorem eq_append_of_readString {s rest text : List Char} (h : readString s = some (text, rest)) :
    ∃ front, s = front ++ '"' :: rest := by
  simp only [readString, Option.bind_eq_bind, Option.bind_eq_some_iff, Prod.exists] at h
  obtain ⟨ns, t, hunits, heq⟩ := h
  rw [← (Prod.mk.inj (Option.some.inj heq)).2]
  exact eq_append_of_readUnits hunits

theorem ends_of_wordValue {word : List Char} {v : Json} (h : wordValue word = some v) :
    Ends word := by
  unfold wordValue at h
  split_ifs at h with hnull htrue hfalse hnum
  · exact ⟨"nul".toList, 'l', hnull, rfl, fun h => absurd h (by decide)⟩
  · exact ⟨"tru".toList, 'e', htrue, rfl, fun h => absurd h (by decide)⟩
  · exact ⟨"fals".toList, 'e', hfalse, rfl, fun h => absurd h (by decide)⟩
  · have hne : word ≠ [] := fun h => by
      rw [h] at hnum
      exact absurd hnum (by decide)
    have hlast := isNumeric_of_isNumber hnum _ (List.getLast_mem hne)
    refine ⟨word.dropLast, word.getLast hne, (List.dropLast_append_getLast hne).symm, ?_, ?_⟩
    · rw [isEnd, hlast, Bool.or_true]
    · intro h
      rw [h] at hlast
      exact absurd hlast (by decide)

theorem takes_readWord : Takes readWord := by
  intro s v rest h
  simp only [readWord, Option.bind_eq_bind, Option.bind_eq_some_iff] at h
  obtain ⟨w, hw, heq⟩ := h
  obtain ⟨rfl, rfl⟩ := Prod.mk.inj (Option.some.inj heq)
  exact ⟨_, (List.takeWhile_append_dropWhile).symm, ends_of_wordValue hw⟩

/-- White space behind the end of a value. -/
theorem Ends.append_spaces {used spaces : List Char} (h : Ends used)
    (hs : ∀ c ∈ spaces, isSpace c = true) :
    ∃ front d, used ++ spaces = front ++ [d] ∧ (isEnd d || isSpace d) = true := by
  rcases List.eq_nil_or_concat' spaces with rfl | ⟨t, d, rfl⟩
  · obtain ⟨front, c, rfl, hc, -⟩ := h
    exact ⟨front, c, List.append_nil _, by rw [hc, Bool.true_or]⟩
  · exact ⟨used ++ t, d, by rw [List.append_assoc], by rw [hs d (by simp), Bool.or_true]⟩

section Items

variable {α : Type} {item : Reader α} {close : Char}

theorem takes_readMany (h : Takes item) : ∀ {fuel : ℕ} {s rest : List Char} {as : List α},
    readMany item close fuel s = some (as, rest) →
      ∃ front d, s = front ++ d :: close :: rest ∧ (isEnd d || isSpace d) = true
  | 0, _, _, _, hread => absurd hread nofun
  | fuel + 1, s, rest, as, hread => by
    simp only [readMany, Option.bind_eq_bind, Option.bind_eq_some_iff, Prod.exists] at hread
    obtain ⟨a, t, hitem, hread⟩ := hread
    obtain ⟨used, rfl, hends⟩ := h _ _ _ hitem
    obtain ⟨spaces, ht, hspaces⟩ := exists_skip t
    split at hread
    · exact absurd hread nofun
    · next c u hskip =>
      rw [hskip] at ht
      split_ifs at hread with hclose hcomma
      · obtain ⟨front, d, heq, hd⟩ := hends.append_spaces hspaces
        rw [ht, hclose, ← (Prod.mk.inj (Option.some.inj hread)).2, ← List.append_assoc, heq]
        exact ⟨front, d, by simp, hd⟩
      · simp only [Option.bind_eq_some_iff, Prod.exists] at hread
        obtain ⟨bs, w, hmany, heq⟩ := hread
        obtain ⟨front, d, hu, hd⟩ := takes_readMany h hmany
        rw [ht, hu, ← (Prod.mk.inj (Option.some.inj heq)).2]
        exact ⟨used ++ spaces ++ c :: front, d, by simp, hd⟩

theorem takes_readBracketed (h : Takes item) {fuel : ℕ} {s rest : List Char} {as : List α}
    (hread : readBracketed item close fuel s = some (as, rest)) (c : Char) :
    ∃ front d, c :: s = front ++ d :: close :: rest ∧
      (isEnd d || isSpace d || d = c) = true := by
  unfold readBracketed at hread
  split at hread
  · next t ht =>
    obtain ⟨spaces, hs, hspaces⟩ := exists_skip s
    rw [hs, eq_cons_of_expect ht, ← (Prod.mk.inj (Option.some.inj hread)).2]
    rcases List.eq_nil_or_concat' spaces with rfl | ⟨u, d, rfl⟩
    · exact ⟨[], c, rfl, by simp⟩
    · exact ⟨c :: u, d, by simp, by rw [hspaces d (by simp), Bool.or_true, Bool.true_or]⟩
  · obtain ⟨front, d, rfl, hd⟩ := takes_readMany h hread
    exact ⟨c :: front, d, rfl, by rw [hd, Bool.true_or]⟩

end Items

theorem takes_readField {value : Reader Json} (h : Takes value) : Takes (readField value) := by
  intro s f rest hread
  simp only [readField, Option.bind_eq_bind, Option.bind_eq_some_iff, Prod.exists] at hread
  obtain ⟨s₁, hquote, key, s₂, hkey, s₃, hcolon, v, s₄, hvalue, heq⟩ := hread
  obtain ⟨spaces, hs, -⟩ := exists_skip s
  obtain ⟨front, rfl⟩ := eq_append_of_readString hkey
  obtain ⟨spaces', hs', -⟩ := exists_skip s₂
  obtain ⟨used, rfl, hends⟩ := h _ _ _ hvalue
  rw [hs, eq_cons_of_expect hquote, hs', eq_cons_of_expect hcolon,
    ← (Prod.mk.inj (Option.some.inj heq)).2]
  exact ⟨spaces ++ '"' :: front ++ '"' :: spaces' ++ [':'] ++ used, by simp, hends.append _⟩

theorem takes_readValue : ∀ fuel : ℕ, Takes (readValue fuel)
  | 0 => fun _ _ _ h => absurd h nofun
  | fuel + 1 => by
    intro s v rest h
    obtain ⟨spaces, hs, -⟩ := exists_skip s
    rw [readValue] at h
    split at h
    · exact absurd h nofun
    · next c t hskip =>
      rw [hs, hskip]
      suffices hused : ∃ used, c :: t = used ++ rest ∧ Ends used by
        obtain ⟨used, heq, hends⟩ := hused
        exact ⟨spaces ++ used, by rw [heq, List.append_assoc], hends.append spaces⟩
      split_ifs at h with hquote hbracket hbrace
      · obtain ⟨⟨text, u⟩, hread, heq⟩ := Option.map_eq_some_iff.mp h
        obtain ⟨front, rfl⟩ := eq_append_of_readString hread
        rw [← (Prod.mk.inj heq).2]
        exact ⟨c :: front ++ ['"'], by simp, c :: front, '"', rfl, rfl,
          fun h => absurd h (by decide)⟩
      · obtain ⟨⟨items, u⟩, hread, heq⟩ := Option.map_eq_some_iff.mp h
        obtain ⟨front, d, hct, hd⟩ := takes_readBracketed (takes_readValue fuel) hread c
        rw [hct, ← (Prod.mk.inj heq).2]
        exact ⟨front ++ [d] ++ [']'], by simp, front ++ [d], ']', rfl, rfl,
          fun _ => ⟨front, d, rfl, by rw [← hbracket, hd]⟩⟩
      · obtain ⟨⟨fields, u⟩, hread, heq⟩ := Option.map_eq_some_iff.mp h
        obtain ⟨front, d, hct, -⟩ := takes_readBracketed (takes_readField (takes_readValue fuel))
          hread c
        rw [hct, ← (Prod.mk.inj heq).2]
        exact ⟨front ++ [d] ++ ['}'], by simp, front ++ [d], '}', rfl, rfl,
          fun h => absurd h (by decide)⟩
      · exact takes_readWord _ _ _ h

/-- A JSON text ends like a value, but for white space. -/
theorem ends_of_parse {s : List Char} {v : Json} (h : parse s = some v) :
    ∃ used spaces, s = used ++ spaces ∧ Ends used ∧ ∀ c ∈ spaces, isSpace c = true := by
  simp only [parse, Option.bind_eq_bind, Option.bind_eq_some_iff, Prod.exists] at h
  obtain ⟨w, rest, hread, hrest⟩ := h
  split_ifs at hrest with hskip
  obtain ⟨used, hs, hends⟩ := takes_readValue _ _ _ _ hread
  refine ⟨used, rest, hs, hends, fun c hc => ?_⟩
  rw [skip, List.dropWhile_eq_nil_iff] at hskip
  exact hskip c hc

/-- A text that ends in a square bracket behind a letter is no JSON text, unless the letter
ends a value. -/
theorem parse_append_bracket (s : List Char) {c : Char}
    (hc : (isEnd c || isSpace c || c = '[') = false) : parse (s ++ [c, ']']) = none := by
  rw [Option.eq_none_iff_forall_ne_some]
  intro v h
  obtain ⟨used, spaces, hs, ⟨front, d, rfl, -, hd⟩, hspaces⟩ := ends_of_parse h
  have hs' : (s ++ [c]) ++ [']'] = front ++ [d] ++ spaces := by rw [← hs, List.append_assoc]; rfl
  rcases List.eq_nil_or_concat' spaces with rfl | ⟨u, e, rfl⟩
  · rw [List.append_nil] at hs'
    obtain ⟨hfront, hlast⟩ := List.append_inj' hs' rfl
    obtain ⟨front', b, rfl, hb⟩ := hd (List.singleton_inj.mp hlast).symm
    obtain ⟨-, hcb⟩ := List.append_inj' hfront rfl
    rw [← List.singleton_inj.mp hcb, hc] at hb
    exact Bool.false_ne_true hb
  · rw [← List.append_assoc] at hs'
    have he := List.singleton_inj.mp (List.append_inj' hs' rfl).2
    have hspace := hspaces e (by simp)
    rw [← he] at hspace
    exact absurd hspace (by decide)

/-- A text that starts with a word that is neither a number nor a name is no JSON text. -/
theorem parse_append_word {word s : List Char} (hne : word ≠ [])
    (hw : ∀ c ∈ word, isWord c = true) (hs : ∀ c ∈ s.head?, isWord c = false)
    (hv : wordValue word = none) : parse (word ++ s) = none := by
  have htake : (word ++ s).takeWhile isWord = word := takeWhile_append_word hw hs
  have hread : ∀ fuel, readValue (fuel + 1) (word ++ s) = none := fun fuel => by
    rw [readValue_word hne hw]
    simp only [readWord, htake, hv, Option.bind_eq_bind, Option.bind_none]
  simp only [parse, hread, Option.bind_eq_bind, Option.bind_none]

end Json
