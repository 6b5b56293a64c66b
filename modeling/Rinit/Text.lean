import Mathlib.Algebra.GroupWithZero.Nat
import Mathlib.Data.List.DropRight
import Mathlib.Data.List.Sort

/-!
# Text

The string functions the parser and the unit names are written with, on lists of
characters : the source's `str` methods keep their names (`trim`, `split_once`,
`strip_suffix`, `lines`, `parse::<u64>`). `isWhitespace` is the `White_Space`
property those methods use, not the ASCII one.
-/

namespace Rinit

/-- The `White_Space` property of a character. -/
def isWhitespace (c : Char) : Bool :=
  let n := c.toNat
  (9 ≤ n && n ≤ 13) || n == 0x20 || n == 0x85 || n == 0xA0 || n == 0x1680 ||
    (0x2000 ≤ n && n ≤ 0x200A) || n == 0x2028 || n == 0x2029 || n == 0x202F || n == 0x205F ||
    n == 0x3000

def trimStart (s : List Char) : List Char :=
  s.dropWhile isWhitespace

def trimEnd (s : List Char) : List Char :=
  (s.reverse.dropWhile isWhitespace).reverse

def trim (s : List Char) : List Char :=
  trimEnd (trimStart s)

theorem dropWhile_isWhitespace_eq_self {s : List Char} (h : ∀ c ∈ s, isWhitespace c = false) :
    s.dropWhile isWhitespace = s := by
  cases s with
  | nil => rfl
  | cons c s => simp [h c (by simp)]

theorem trim_eq_self {s : List Char} (h : ∀ c ∈ s, isWhitespace c = false) : trim s = s := by
  unfold trim trimEnd trimStart
  rw [dropWhile_isWhitespace_eq_self h,
    dropWhile_isWhitespace_eq_self fun c hc => h c (List.mem_reverse.mp hc), List.reverse_reverse]

theorem trim_subset (s : List Char) : trim s ⊆ s := by
  intro c hc
  have hend := List.mem_reverse.mp ((List.dropWhile_sublist _).subset (List.mem_reverse.mp hc))
  exact (List.dropWhile_sublist _).subset hend

theorem trimEnd_concat {s : List Char} {c : Char} (h : isWhitespace c = false) :
    trimEnd (s ++ [c]) = s ++ [c] := by
  simp [trimEnd, h]

theorem trim_eq_self_of_ends {s : List Char} {c d : Char} (hc : s.head? = some c)
    (hd : s.getLast? = some d) (hwc : isWhitespace c = false) (hwd : isWhitespace d = false) :
    trim s = s := by
  have hend : trimEnd s = s := by
    obtain ⟨front, rfl⟩ := List.getLast?_eq_some_iff.mp hd
    exact trimEnd_concat hwd
  obtain ⟨rest, rfl⟩ := List.head?_eq_some_iff.mp hc
  rw [trim, trimStart, List.dropWhile_cons_of_neg (by simp [hwc]), hend]

theorem trimStart_trim (s : List Char) : trimStart (trim s) = trim s := by
  rw [trim, trimEnd]
  set t := trimStart s
  have hidem : trimStart t = t := List.dropWhile_idempotent _ _
  cases hr : (t.reverse.dropWhile isWhitespace).reverse with
  | nil => rfl
  | cons c rest =>
    -- what is left begins as the text that was trimmed at its start
    have hprefix : (c :: rest) <+: t := by
      rw [← hr, ← List.reverse_suffix, List.reverse_reverse]
      exact List.dropWhile_suffix _
    obtain ⟨more, hmore⟩ := hprefix
    rw [← hmore, trimStart, List.cons_append] at hidem
    have hc : isWhitespace c = false := by
      by_contra hc
      rw [Bool.not_eq_false] at hc
      rw [List.dropWhile_cons_of_pos hc] at hidem
      have hlen := congrArg List.length hidem
      have := (List.dropWhile_sublist isWhitespace (l := rest ++ more)).length_le
      rw [List.length_cons] at hlen
      omega
    exact List.dropWhile_cons_of_neg (by rw [hc]; exact Bool.false_ne_true)

theorem trim_trim (s : List Char) : trim (trim s) = trim s := by
  conv_lhs => rw [trim, trimStart_trim]
  rw [trim, trimEnd, trimEnd, List.reverse_reverse, List.dropWhile_idempotent]

/-- The parts before and after the first `c`. -/
def splitOnce (c : Char) : List Char → Option (List Char × List Char)
  | [] => none
  | x :: s => if x = c then some ([], s) else (splitOnce c s).map fun p => (x :: p.1, p.2)

/-- `s` without the ending `suffix`, if it has it. -/
def stripSuffix (suffix s : List Char) : Option (List Char) :=
  if suffix.isSuffixOf s then some (s.take (s.length - suffix.length)) else none

theorem stripSuffix_append (suffix s : List Char) :
    stripSuffix suffix (s ++ suffix) = some s := by
  simp [stripSuffix]

theorem eq_append_of_stripSuffix {suffix s stem : List Char}
    (h : stripSuffix suffix s = some stem) : s = stem ++ suffix := by
  unfold stripSuffix at h
  split_ifs at h with hs
  obtain ⟨t, rfl⟩ := List.isSuffixOf_iff_suffix.mp hs
  obtain rfl : t = stem := by simpa using h
  rfl

/-- One line without its line feed, and without the carriage return before it. -/
def stripLineEnd (line : List Char) : List Char :=
  match stripSuffix ['\n'] line with
  | none => line
  | some l => (stripSuffix ['\r'] l).getD l

/-- The pieces of `s`, each ending in its line feed; no piece is empty. -/
def splitInclusive : List Char → List (List Char)
  | [] => []
  | c :: s =>
    if c = '\n' then [c] :: splitInclusive s
    else
      match splitInclusive s with
      | [] => [[c]]
      | l :: ls => (c :: l) :: ls

def lines (s : List Char) : List (List Char) :=
  (splitInclusive s).map stripLineEnd

/-- The bytes of the UTF-8 encoding. -/
def utf8Len (s : List Char) : ℕ :=
  (s.map Char.utf8Size).sum

theorem utf8Len_append (s t : List Char) : utf8Len (s ++ t) = utf8Len s + utf8Len t := by
  rw [utf8Len, utf8Len, utf8Len, List.map_append, List.sum_append]

/-- The value of decimal digits, most significant first. -/
def digitsValue (s : List Char) : ℕ :=
  s.foldl (fun acc c => acc * 10 + (c.toNat - '0'.toNat)) 0

/-- `parse::<uN>` for an unsigned type with `2 ^ bits` values : an optional `+`, then at
least one digit, and no overflow. -/
def parseUnsigned (bits : ℕ) (s : List Char) : Option ℕ :=
  let digits := match s with
    | '+' :: rest => rest
    | _ => s
  if digits.isEmpty || !digits.all Char.isDigit then none
  else
    let n := digitsValue digits
    if n < 2 ^ bits then some n else none

/-- `parse::<i32>` : an optional sign, then at least one digit, and no overflow. -/
def parsePid (s : List Char) : Option Int :=
  match s with
  | '-' :: rest =>
    if rest.isEmpty || !rest.all Char.isDigit then none
    else
      let n := digitsValue rest
      if n ≤ 2 ^ 31 then some (-(n : Int)) else none
  | _ => (parseUnsigned 31 s).map Int.ofNat

/-- What `Debug` writes as a number : controls, spaces other than the plain one, format and
private use characters, and the marks of the combining blocks. The code points that stand for
nothing yet, and the marks of single scripts, are not in the list. -/
def debugNumbered : List (ℕ × ℕ) :=
  [(0x01, 0x1F), (0x7F, 0xA0), (0xAD, 0xAD), (0x300, 0x36F), (0x483, 0x489), (0x600, 0x605),
    (0x61C, 0x61C), (0x6DD, 0x6DD), (0x70F, 0x70F), (0x890, 0x891), (0x8E2, 0x8E2),
    (0x1680, 0x1680), (0x180B, 0x180F), (0x1AB0, 0x1ACE), (0x1DC0, 0x1DFF), (0x2000, 0x200F),
    (0x2028, 0x202F), (0x205F, 0x206F), (0x20D0, 0x20F0), (0x3000, 0x3000), (0xE000, 0xF8FF),
    (0xFE00, 0xFE0F), (0xFE20, 0xFE2F), (0xFEFF, 0xFEFF), (0xFFF9, 0xFFFB), (0xE0000, 0x10FFFF)]

/-- A character inside the quotes of a `Debug` string. -/
def escapeDebug (c : Char) : List Char :=
  if c = '"' then ['\\', '"']
  else if c = '\\' then ['\\', '\\']
  else if c = '\n' then ['\\', 'n']
  else if c = '\r' then ['\\', 'r']
  else if c = '\t' then ['\\', 't']
  else if c.toNat = 0 then ['\\', '0']
  else if debugNumbered.any fun range => range.1 ≤ c.toNat && c.toNat ≤ range.2 then
    ['\\', 'u', '{'] ++ Nat.toDigits 16 c.toNat ++ ['}']
  else [c]

/-- The `Debug` form of a string : quoted, with its escapes. -/
def debugStr (s : List Char) : String :=
  String.ofList (['"'] ++ s.flatMap escapeDebug ++ ['"'])

end Rinit
