import Mathlib.Data.List.Induction
import Mathlib.Data.List.TakeWhile
import Rinit.Parser

/-!
# Continued lines and comments

`logicalLines` cuts the comment off a physical line, joins the line with the next one if what
is left ends in a backslash, and forgets everything else about it. The tokenizer reads the
joined text from left to right, with its quotes and its escapes. The two disagree in two ways.

A backslash at the end of a line joins the next one even if it is the second half of an escape,
or only stands before blanks. The lines are joined as the escapes say exactly if no line but
the last ends so (`joins_iff_escape`).

Quotes do not reach over the end of a physical line when comments are cut. The comments are
those of the joined text exactly if no physical line has an unescaped `#` while a quote from a
line before is open (`comments_iff`). The joined text is `pendingText` of the lines before
(`logicalLines_take`), and its comment starts where the tokenizer stops to read
(`tokenize_go_reads`).
-/

namespace Rinit

/-! ## Text that ends in a backslash -/

theorem trimEnd_append_blanks {s blanks : List Char} (h : ∀ c ∈ blanks, isWhitespace c = true) :
    trimEnd (s ++ blanks) = trimEnd s := by
  unfold trimEnd
  rw [List.reverse_append, List.dropWhile_append_of_pos fun c hc => h c (List.mem_reverse.mp hc)]

/-- What `trimEnd` takes away is blank. -/
theorem eq_trimEnd_append (s : List Char) :
    ∃ blanks, s = trimEnd s ++ blanks ∧ ∀ c ∈ blanks, isWhitespace c = true := by
  refine ⟨(s.reverse.takeWhile isWhitespace).reverse, ?_, fun c hc => ?_⟩
  · rw [trimEnd, ← List.reverse_append, List.takeWhile_append_dropWhile, List.reverse_reverse]
  · exact List.mem_takeWhile_imp (List.mem_reverse.mp hc)

theorem stripSuffix_eq_some {suffix s stem : List Char} :
    stripSuffix suffix s = some stem ↔ s = stem ++ suffix := by
  refine ⟨eq_append_of_stripSuffix, fun h => ?_⟩
  rw [h, stripSuffix_append]

/-- What is left of a line that is continued : its text up to the last backslash. -/
def continuedHead (line : List Char) : Option (List Char) :=
  stripSuffix ['\\'] (trimEnd (commentPrefix line))

/-- A line is continued if only blanks follow a backslash. -/
theorem continuedHead_eq_some {line head : List Char} : continuedHead line = some head ↔
    ∃ blanks, commentPrefix line = head ++ '\\' :: blanks ∧
      ∀ c ∈ blanks, isWhitespace c = true := by
  rw [continuedHead, stripSuffix_eq_some]
  constructor
  · intro h
    obtain ⟨blanks, hs, hb⟩ := eq_trimEnd_append (commentPrefix line)
    exact ⟨blanks, by rw [hs, h]; simp, hb⟩
  · rintro ⟨blanks, hs, hb⟩
    rw [hs, List.append_cons, trimEnd_append_blanks hb, trimEnd_concat (by decide)]

/-! ## Physical lines -/

/-- A carriage return that `lines` left at the end of a line goes too. -/
def lineText (raw : List Char) : List Char := (stripSuffix ['\r'] raw).getD raw

/-- The lines of a file, without their line ends. -/
def physicalLines (input : List Char) : List (List Char) := (lines input).map lineText

/-- What a line adds to a statement that is not complete yet. -/
def joinLine (current line : List Char) : List Char :=
  match continuedHead line with
  | some head => current ++ head ++ [' ']
  | none => []

/-- The statement that is not complete after some lines, joined so far. -/
def pendingText (lines : List (List Char)) : List Char := lines.foldl joinLine []

section Go

variable {start n : ℕ} {current raw : List Char} {raws : List (List Char)}

theorem logicalLines_go_cons_some {head : List Char}
    (h : continuedHead (lineText raw) = some head) :
    logicalLines.go start current n (raw :: raws) =
      logicalLines.go (if current.isEmpty then n else start) (current ++ head ++ [' ']) (n + 1)
        raws := by
  unfold continuedHead lineText at h
  rw [logicalLines.go]
  simp only [h]

theorem logicalLines_go_cons_none (h : continuedHead (lineText raw) = none) :
    logicalLines.go start current n (raw :: raws) =
      (if current.isEmpty then n else start,
        current ++ commentPrefix (lineText raw)) ::
        logicalLines.go (if current.isEmpty then n else start) [] (n + 1) raws := by
  unfold continuedHead lineText at h
  rw [logicalLines.go, lineText]
  simp only [h]

/-- Some lines are joined on their own : the ones after them only see the text that is not
complete. -/
theorem logicalLines_go_append (start : ℕ) (current : List Char) (n : ℕ) (a : List (List Char)) :
    ∃ done start', ∀ b, logicalLines.go start current n (a ++ b) =
      done ++ logicalLines.go start' ((a.map lineText).foldl joinLine current) (n + a.length)
        b := by
  induction a generalizing start current n with
  | nil => exact ⟨[], start, fun b => rfl⟩
  | cons raw a ih =>
    have hlength : n + (raw :: a).length = n + 1 + a.length := by
      rw [List.length_cons]
      omega
    rw [List.map_cons, List.foldl_cons, hlength, joinLine]
    cases hc : continuedHead (lineText raw) with
    | some head =>
      obtain ⟨done, start', h⟩ := ih (if current.isEmpty then n else start)
        (current ++ head ++ [' ']) (n + 1)
      refine ⟨done, start', fun b => ?_⟩
      rw [List.cons_append, logicalLines_go_cons_some hc, h]
    | none =>
      obtain ⟨done, start', h⟩ := ih (if current.isEmpty then n else start) [] (n + 1)
      refine ⟨(if current.isEmpty then n else start, current ++ commentPrefix (lineText raw)) ::
        done, start', fun b => ?_⟩
      rw [List.cons_append, logicalLines_go_cons_none hc, h]
      rfl

/-- Line `m` comes right after a complete one of the lines from `n` on. -/
def StartsAfter (n : ℕ) (raws : List (List Char)) (m : ℕ) : Prop :=
  ∃ i raw, raws[i]? = some raw ∧ i + 1 < raws.length ∧ m = n + i + 1 ∧
    continuedHead (lineText raw) = none

theorem startsAfter_cons {m : ℕ} : StartsAfter n (raw :: raws) m ↔
    (raws ≠ [] ∧ m = n + 1 ∧ continuedHead (lineText raw) = none) ∨
      StartsAfter (n + 1) raws m := by
  constructor
  · rintro ⟨i, raw', hi, hl, hm, hc⟩
    cases i with
    | zero =>
      obtain rfl : raw = raw' := by simpa using hi
      refine Or.inl ⟨?_, hm, hc⟩
      rintro rfl
      simp at hl
    | succ i => exact Or.inr ⟨i, raw', by simpa using hi, by simpa using hl, by omega, hc⟩
  · rintro (⟨hne, hm, hc⟩ | ⟨i, raw', hi, hl, hm, hc⟩)
    · have hpos := List.length_pos_iff.mpr hne
      exact ⟨0, raw, rfl, by simpa using hpos, hm, hc⟩
    · exact ⟨i + 1, raw', by simpa using hi, by simpa using hl, by omega, hc⟩

/-- Where the statements start : where one was begun before, or on a line whose line before it
is complete. -/
theorem mem_starts {m : ℕ} : m ∈ (logicalLines.go start current n raws).map Prod.fst ↔
    (current ≠ [] ∧ m = start) ∨ (current = [] ∧ raws ≠ [] ∧ m = n) ∨ StartsAfter n raws m := by
  induction raws generalizing start current n with
  | nil => cases current <;> simp [logicalLines.go, StartsAfter]
  | cons raw raws ih =>
    have hstart : m = (if current.isEmpty then n else start) ↔
        (current ≠ [] ∧ m = start) ∨ (current = [] ∧ m = n) := by
      cases current <;> simp
    rw [startsAfter_cons]
    cases hc : continuedHead (lineText raw) with
    | some head =>
      have hne : current ++ head ++ [' '] ≠ [] := by simp
      rw [logicalLines_go_cons_some hc, ih, hstart]
      simp only [hne, ne_eq, not_false_eq_true, true_and, false_and, false_or, reduceCtorEq,
        and_false]
      rw [or_assoc]
    | none =>
      rw [logicalLines_go_cons_none hc, List.map_cons, List.mem_cons, ih, hstart]
      simp only [ne_eq, not_true_eq_false, false_and, true_and, false_or, reduceCtorEq,
        not_false_eq_true, and_true]
      rw [or_assoc]

end Go

/-- The statement a line belongs to starts with `pendingText` of the lines before it. -/
theorem logicalLines_take (input : List Char) (i : ℕ) (hi : i ≤ (lines input).length) :
    ∃ done start, logicalLines input = done ++ logicalLines.go start
      (pendingText ((physicalLines input).take i)) (i + 1) ((lines input).drop i) := by
  obtain ⟨done, start, h⟩ := logicalLines_go_append 0 [] 1 ((lines input).take i)
  have h' := h ((lines input).drop i)
  rw [List.take_append_drop, List.length_take, Nat.min_eq_left hi, Nat.add_comm 1 i,
    List.map_take] at h'
  exact ⟨done, start, h'⟩

/-! ## Which lines are joined -/

/-- Line `i`, counted from 0, is joined with the next : no statement starts there. -/
def JoinsNext (input : List Char) (i : ℕ) : Prop :=
  i + 2 ∉ (logicalLines input).map Prod.fst

/-- Quotes and escapes from left to right : whether the text is quoted, and whether a
backslash waits for the character it escapes. -/
def lexChar (state : Bool × Bool) (c : Char) : Bool × Bool :=
  if state.2 then (state.1, false)
  else if c = '\\' then (state.1, true)
  else if c = '"' then (!state.1, false)
  else (state.1, false)

def lexText (state : Bool × Bool) (s : List Char) : Bool × Bool := s.foldl lexChar state

theorem lexText_append (state : Bool × Bool) (s t : List Char) :
    lexText state (s ++ t) = lexText (lexText state s) t :=
  List.foldl_append

/-- A text ends in a backslash that is not the second half of an escape. -/
def endsInEscape (s : List Char) : Bool := (lexText (false, false) s).2

theorem lexChar_snd (state : Bool × Bool) (c : Char) :
    (lexChar state c).2 = (!state.2 && c = '\\') := by
  obtain ⟨quoted, escaped⟩ := state
  unfold lexChar
  cases escaped <;> by_cases h : c = '\\' <;> simp [h]
  split <;> rfl

theorem endsInEscape_concat (s : List Char) (c : Char) :
    endsInEscape (s ++ [c]) = (!endsInEscape s && c = '\\') := by
  rw [endsInEscape, lexText_append]
  exact lexChar_snd _ c

/-- A line whose last backslash is escaped, or stands before blanks. -/
def EndsMisleading (code : List Char) : Prop :=
  ∃ head blanks, code = head ++ '\\' :: blanks ∧ (∀ c ∈ blanks, isWhitespace c = true) ∧
    (blanks ≠ [] ∨ endsInEscape head = true)

theorem endsInEscape_iff {code head blanks : List Char} (h : code = head ++ '\\' :: blanks)
    (hb : ∀ c ∈ blanks, isWhitespace c = true) :
    endsInEscape code = true ↔ blanks = [] ∧ endsInEscape head = false := by
  subst h
  rcases List.eq_nil_or_concat blanks with rfl | ⟨front, c, rfl⟩
  · rw [endsInEscape_concat]
    simp
  · -- a blank at the end is no backslash
    have hc : c ≠ '\\' := by
      rintro rfl
      exact absurd (hb '\\' (by simp)) (by decide)
    rw [List.concat_eq_append, ← List.cons_append, ← List.append_assoc, endsInEscape_concat]
    simp [hc]

theorem length_physicalLines (input : List Char) :
    (physicalLines input).length = (lines input).length :=
  List.length_map _

/-- A line is joined with the next exactly if it is continued. -/
theorem joinsNext_iff {input : List Char} {i : ℕ} (hi : i + 1 < (physicalLines input).length) :
    JoinsNext input i ↔ ∃ head, continuedHead ((physicalLines input).getD i []) = some head := by
  rw [length_physicalLines] at hi
  have hget : (lines input)[i]? = some (lines input)[i] := List.getElem?_eq_getElem (by omega)
  have hline : (physicalLines input).getD i [] =
      lineText (lines input)[i] := by
    simp [physicalLines, hget]
  rw [JoinsNext, logicalLines, mem_starts, hline, ← Option.ne_none_iff_exists']
  refine not_congr ?_
  constructor
  · rintro (⟨h, -⟩ | ⟨-, -, h⟩ | ⟨j, raw, hj, -, hm, hc⟩)
    · exact absurd rfl h
    · omega
    · obtain rfl : j = i := by omega
      obtain rfl := Option.some.inj (hj.symm.trans hget)
      exact hc
  · intro hc
    exact Or.inr (Or.inr ⟨i, _, hget, hi, by omega, hc⟩)

/-- The lines of a file are joined at the backslashes that are not escaped and end a line, and
only there, exactly if no line but the last ends in a backslash that is escaped or stands
before blanks. -/
theorem joins_iff_escape (input : List Char) :
    (∀ i, i + 1 < (physicalLines input).length → (JoinsNext input i ↔
      endsInEscape (commentPrefix ((physicalLines input).getD i [])) = true)) ↔
    ∀ i, i + 1 < (physicalLines input).length →
      ¬EndsMisleading (commentPrefix ((physicalLines input).getD i [])) := by
  refine forall_congr' fun i => forall_congr' fun hi => ?_
  rw [joinsNext_iff hi]
  simp only [continuedHead_eq_some]
  constructor
  · rintro hjoin ⟨head, blanks, hcode, hb, hbad⟩
    have hend := (endsInEscape_iff hcode hb).mp (hjoin.mp ⟨head, blanks, hcode, hb⟩)
    rcases hbad with hne | hesc
    · exact hne hend.1
    · simp [hend.2] at hesc
  · intro hgood
    constructor
    · rintro ⟨head, blanks, hcode, hb⟩
      refine (endsInEscape_iff hcode hb).mpr ⟨?_, ?_⟩
      · by_contra hne
        exact hgood ⟨head, blanks, hcode, hb, Or.inl hne⟩
      · by_contra hesc
        exact hgood ⟨head, blanks, hcode, hb, Or.inr (by simpa using hesc)⟩
    · intro hend
      rcases List.eq_nil_or_concat (commentPrefix ((physicalLines input).getD i [])) with
        hnil | ⟨head, c, hcode⟩
      · rw [hnil] at hend
        simp [endsInEscape, lexText] at hend
      · rw [List.concat_eq_append] at hcode
        rw [hcode, endsInEscape_concat, Bool.and_eq_true, decide_eq_true_eq] at hend
        exact ⟨head, [], by rw [hcode, hend.2], by simp⟩

/-- A value that ends in an escaped backslash, and a directive after it. -/
def escapedEnd : List Char :=
  "[Service]\nExecStart=/bin/a\nEnvironment=DIR=C:\\\\\nUser=app\n".toList

/-- The directive on the next line is swallowed. -/
theorem joins_escapedEnd : ¬∀ i, i + 1 < (physicalLines escapedEnd).length →
    (JoinsNext escapedEnd i ↔
      endsInEscape (commentPrefix ((physicalLines escapedEnd).getD i [])) = true) := by
  intro h
  have hjoin : JoinsNext escapedEnd 2 := by
    unfold JoinsNext
    decide
  exact absurd ((h 2 (by decide)).mp hjoin) (by decide)

/-! ## What the tokenizer reads -/

/-- The part of a value the tokenizer looks at : it stops at a `#` outside quotes. -/
def tokenizerReads (quoted : Bool) : List Char → List Char
  | [] => []
  | ['\\'] => ['\\']
  | '\\' :: c :: s => '\\' :: c :: tokenizerReads quoted s
  | c :: s =>
    if quoted then
      if c = '"' then c :: tokenizerReads false s else c :: tokenizerReads true s
    else if c = '#' then []
    else if c = '"' then c :: tokenizerReads true s
    else c :: tokenizerReads false s

/-- Text as the tokenizer takes it apart : an escape is two characters. -/
@[elab_as_elim]
theorem escape_induction {motive : List Char → Prop} (nil : motive []) (last : motive ['\\'])
    (escape : ∀ c s, motive s → motive ('\\' :: c :: s))
    (char : ∀ c s, c ≠ '\\' → motive s → motive (c :: s)) (s : List Char) : motive s := by
  -- one more character in front, for the escapes
  suffices h : motive s ∧ ∀ c, motive (c :: s) from h.1
  induction s with
  | nil =>
    refine ⟨nil, fun c => ?_⟩
    by_cases hc : c = '\\'
    · rw [hc]
      exact last
    · exact char c [] hc nil
  | cons a s ih =>
    refine ⟨ih.2 a, fun c => ?_⟩
    by_cases hc : c = '\\'
    · rw [hc]
      exact escape a s ih.1
    · exact char c (a :: s) hc (ih.2 a)

theorem tokenize_go_cons {line : ℕ} {quoted started : Bool} {cur s : List Char} {c : Char}
    (h : c ≠ '\\') : tokenize.go line quoted cur started (c :: s) =
      if quoted then
        if c = '"' then tokenize.go line false cur true s
        else tokenize.go line true (cur ++ [c]) true s
      else if c = ' ' ∨ c = '\t' then
        if started then (tokenize.go line false [] false s).map (String.ofList cur :: ·)
        else tokenize.go line false cur false s
      else if c = '#' then .ok (if started then [String.ofList cur] else [])
      else if c = '"' then tokenize.go line true cur true s
      else tokenize.go line false (cur ++ [c]) true s := by
  rw [tokenize.go]
  · exact fun hc => absurd hc h
  · exact fun _ _ hc => absurd hc h

theorem tokenizerReads_cons {quoted : Bool} {s : List Char} {c : Char} (h : c ≠ '\\') :
    tokenizerReads quoted (c :: s) =
      if quoted then
        if c = '"' then c :: tokenizerReads false s else c :: tokenizerReads true s
      else if c = '#' then []
      else if c = '"' then c :: tokenizerReads true s
      else c :: tokenizerReads false s := by
  rw [tokenizerReads]
  · exact fun hc => absurd hc h
  · exact fun _ _ hc => absurd hc h

/-- The comment the tokenizer does not read makes no difference to it. -/
theorem tokenize_go_reads (line : ℕ) (quoted : Bool) (cur : List Char) (started : Bool)
    (s : List Char) : tokenize.go line quoted cur started (tokenizerReads quoted s) =
      tokenize.go line quoted cur started s := by
  induction s using escape_induction generalizing quoted cur started with
  | nil => rfl
  | last => rfl
  | escape c s ih => rw [tokenizerReads, tokenize.go, tokenize.go, ih]
  | char c s hc ih =>
    rw [tokenizerReads_cons hc, tokenize_go_cons hc]
    cases quoted with
    | true =>
      by_cases hq : c = '"'
      · simp only [hq, if_true]
        rw [tokenize_go_cons (by decide)]
        simp [ih]
      · simp only [hq, if_true, if_false]
        rw [tokenize_go_cons hc]
        simp [hq, ih]
    | false =>
      by_cases hh : c = '#'
      · simp [hh, tokenize.go]
      · by_cases hq : c = '"'
        · subst hq
          simp [tokenize_go_cons, ih]
        · simp [hh, hq, tokenize_go_cons hc, ih]

/-- One character of the scan for a comment. -/
theorem commentPrefix_go_cons (state : Bool × Bool) (c : Char) (s : List Char) :
    commentPrefix.go state.1 state.2 (c :: s) =
      if c = '#' ∧ state = (false, false) then []
      else c :: commentPrefix.go (lexChar state c).1 (lexChar state c).2 s := by
  obtain ⟨quoted, escaped⟩ := state
  unfold lexChar
  rw [commentPrefix.go]
  by_cases hb : c = '\\'
  · subst hb
    cases escaped <;> simp
  · by_cases hq : c = '"'
    · subst hq
      cases escaped <;> simp
    · cases escaped <;> simp [hb, hq]

/-- The tokenizer and the scan for a comment stop at the same place if they start alike. -/
theorem tokenizerReads_eq (quoted : Bool) (s : List Char) :
    tokenizerReads quoted s = commentPrefix.go quoted false s := by
  induction s using escape_induction generalizing quoted with
  | nil => rfl
  | last => rfl
  | escape c s ih => simp [tokenizerReads, commentPrefix.go, ih]
  | char c s hc ih =>
    rw [tokenizerReads_cons hc, commentPrefix.go]
    by_cases hq : c = '"' <;> cases quoted <;> simp [hq, hc, ih]

/-! ## Comments in joined text -/

/-- The scan for a comment, from a state of the quotes and escapes on. -/
def uncommented (state : Bool × Bool) (s : List Char) : List Char :=
  commentPrefix.go state.1 state.2 s

theorem uncommented_append {state : Bool × Bool} {s t : List Char} (h : uncommented state s = s) :
    uncommented state (s ++ t) = s ++ uncommented (lexText state s) t := by
  induction s generalizing state with
  | nil => rfl
  | cons c s ih =>
    rw [uncommented, commentPrefix_go_cons] at h
    rw [List.cons_append, uncommented, commentPrefix_go_cons]
    by_cases hc : c = '#' ∧ state = (false, false)
    · rw [if_pos hc] at h
      cases h
    · rw [if_neg hc] at h ⊢
      exact congrArg (c :: ·) (ih (List.cons.inj h).2)

/-- A comment in the first part hides the second. -/
theorem uncommented_eq_self_of_append {state : Bool × Bool} {s t r : List Char}
    (h : uncommented state (s ++ t) = s ++ r) : uncommented state s = s := by
  induction s generalizing state with
  | nil => rfl
  | cons c s ih =>
    rw [List.cons_append, uncommented, commentPrefix_go_cons] at h
    rw [uncommented, commentPrefix_go_cons]
    by_cases hc : c = '#' ∧ state = (false, false)
    · rw [if_pos hc] at h
      cases h
    · rw [if_neg hc] at h ⊢
      exact congrArg (c :: ·) (ih (List.cons.inj h).2)

/-- What was read has no comment in it. -/
theorem uncommented_uncommented (state : Bool × Bool) (s : List Char) :
    uncommented state (uncommented state s) = uncommented state s := by
  induction s generalizing state with
  | nil => rfl
  | cons c s ih =>
    rw [uncommented, uncommented, commentPrefix_go_cons]
    by_cases hc : c = '#' ∧ state = (false, false)
    · rw [if_pos hc, commentPrefix.go]
    · rw [if_neg hc, commentPrefix_go_cons, if_neg hc]
      exact congrArg (c :: ·) (ih (lexChar state c))

/-- An unescaped `#`, quoted or not. -/
def bareHash (escaped : Bool) : List Char → Bool
  | [] => false
  | c :: s => (!escaped && c = '#') || bareHash (!escaped && c = '\\') s

/-- A quote that is open at the start makes no difference to a text only if there is no `#`
in it. -/
theorem uncommented_quoted_iff (quoted escaped : Bool) (s : List Char) :
    uncommented (quoted, escaped) s = uncommented (!quoted, escaped) s ↔
      bareHash escaped s = false := by
  induction s generalizing quoted escaped with
  | nil => simp [uncommented, commentPrefix.go, bareHash]
  | cons c s ih =>
    rw [uncommented, commentPrefix_go_cons, uncommented, commentPrefix_go_cons, bareHash]
    have hfst : (lexChar (!quoted, escaped) c) =
        (!(lexChar (quoted, escaped) c).1, (lexChar (quoted, escaped) c).2) := by
      unfold lexChar
      cases escaped <;> by_cases hb : c = '\\' <;> by_cases hq : c = '"' <;> simp [hb, hq]
    by_cases hc : escaped = false ∧ c = '#'
    · obtain ⟨rfl, rfl⟩ := hc
      cases quoted <;> simp
    · have hstop (q : Bool) : ¬(c = '#' ∧ (q, escaped) = (false, false)) := by
        rintro ⟨hh, he⟩
        exact hc ⟨(Prod.mk.inj he).2, hh⟩
      rw [if_neg (hstop quoted), if_neg (hstop !quoted), hfst, List.cons_inj_right]
      refine (ih (lexChar (quoted, escaped) c).1 (lexChar (quoted, escaped) c).2).trans ?_
      rw [lexChar_snd]
      cases escaped <;> simp_all

/-- The quotes after a line : open only if the line is continued. -/
def quoteStep (quoted : Bool) (line : List Char) : Bool :=
  match continuedHead line with
  | some head => (lexText (quoted, false) head).1
  | none => false

/-- Some quote is open after these lines, on a statement that is not complete. -/
def openAfter (lines : List (List Char)) : Bool := lines.foldl quoteStep false

theorem lexText_joinLine {current line : List Char} {quoted : Bool}
    (h : lexText (false, false) current = (quoted, false)) :
    lexText (false, false) (joinLine current line) = (quoteStep quoted line, false) := by
  unfold joinLine quoteStep
  cases continuedHead line with
  | none => rfl
  | some head =>
    simp only
    rw [lexText_append, lexText_append, h]
    obtain ⟨q, e⟩ := lexText (quoted, false) head
    cases e <;> rfl

/-- The quotes of the text joined so far, read from left to right. -/
theorem lexText_pendingText (lines : List (List Char)) :
    lexText (false, false) (pendingText lines) = (openAfter lines, false) := by
  induction lines using List.reverseRecOn with
  | nil => rfl
  | append_singleton lines line ih =>
    rw [pendingText, openAfter, List.foldl_append, List.foldl_append]
    exact lexText_joinLine ih

/-- The comment cut off a line is the one the tokenizer would see after the lines joined with
it, and the backslash that continues the line is not in that comment. -/
def CommentsAgree (before : List (List Char)) (line : List Char) : Prop :=
  tokenizerReads false (pendingText before ++ line) = pendingText before ++ commentPrefix line ∧
    ∀ head, continuedHead line = some head →
      pendingText before ++ head ++ ['\\'] <+: tokenizerReads false (pendingText before ++ line)

section Agree

variable {before : List (List Char)} {line : List Char}

theorem tokenizerReads_eq_uncommented (s : List Char) :
    tokenizerReads false s = uncommented (false, false) s :=
  tokenizerReads_eq false s

theorem commentsAgree_iff
    (h : uncommented (false, false) (pendingText before) = pendingText before) :
    CommentsAgree before line ↔ (openAfter before = true → bareHash false line = false) := by
  have hreads : tokenizerReads false (pendingText before ++ line) =
      pendingText before ++ uncommented (openAfter before, false) line := by
    rw [tokenizerReads_eq_uncommented, uncommented_append h, lexText_pendingText]
  have hplain : uncommented (openAfter before, false) line = commentPrefix line ↔
      (openAfter before = true → bareHash false line = false) := by
    cases openAfter before with
    | false => simp [uncommented, commentPrefix]
    | true =>
      simp only [true_imp_iff]
      exact uncommented_quoted_iff true false line
  rw [CommentsAgree, hreads, List.append_cancel_left_eq, hplain, and_iff_left_iff_imp]
  intro hcond head hhead
  obtain ⟨blanks, hcode, -⟩ := continuedHead_eq_some.mp hhead
  rw [hplain.mpr hcond, hcode]
  exact ⟨blanks, by simp⟩

theorem CommentsAgree.uncommented_pendingText (h : CommentsAgree before line) :
    uncommented (false, false) (pendingText before) = pendingText before := by
  have hread := h.1
  rw [tokenizerReads_eq_uncommented] at hread
  exact uncommented_eq_self_of_append hread

/-- No comment is left in the text joined so far if the lines before agree. -/
theorem CommentsAgree.uncommented_concat (h : CommentsAgree before line) :
    uncommented (false, false) (pendingText (before ++ [line])) =
      pendingText (before ++ [line]) := by
  rw [pendingText, List.foldl_append]
  change uncommented _ (joinLine (pendingText before) line) = joinLine (pendingText before) line
  unfold joinLine
  cases hhead : continuedHead line with
  | none => rfl
  | some head =>
    obtain ⟨more, hmore⟩ := h.2 head hhead
    rw [tokenizerReads_eq_uncommented] at hmore
    have hread := uncommented_uncommented (false, false) (pendingText before ++ line)
    rw [← hmore, List.append_assoc] at hread
    have hclean := uncommented_eq_self_of_append hread
    rw [uncommented_append hclean]
    obtain ⟨quoted, escaped⟩ := lexText (false, false) (pendingText before ++ head)
    cases quoted <;> cases escaped <;> rfl

end Agree

/-- The comments of a file are those of the joined text exactly if no line has an unescaped `#`
while a quote from a line before it is open. -/
theorem comments_iff (input : List Char) :
    (∀ i, i < (physicalLines input).length →
      CommentsAgree ((physicalLines input).take i) ((physicalLines input).getD i [])) ↔
    ∀ i, i < (physicalLines input).length → openAfter ((physicalLines input).take i) = true →
      bareHash false ((physicalLines input).getD i []) = false := by
  generalize physicalLines input = lines
  constructor
  · intro h i hi
    exact (commentsAgree_iff (h i hi).uncommented_pendingText).mp (h i hi)
  · intro h
    -- nothing is left to cut in what the lines before are joined to
    have hclean : ∀ i, i ≤ lines.length →
        uncommented (false, false) (pendingText (lines.take i)) = pendingText (lines.take i) := by
      intro i
      induction i with
      | zero => exact fun _ => rfl
      | succ i ih =>
        intro hi
        have hagree := (commentsAgree_iff (ih (by omega))).mpr (h i hi)
        have htake : lines.take (i + 1) = lines.take i ++ [lines.getD i []] := by
          rw [List.take_add_one, List.getD_eq_getElem?_getD, List.getElem?_eq_getElem hi]
          rfl
        rw [htake]
        exact hagree.uncommented_concat
    intro i hi
    exact (commentsAgree_iff (hclean i hi.le)).mpr (h i hi)

/-- A quoted value that is continued, with a `#` on its second line. -/
def quotedOver : List Char :=
  "[Service]\nExecStart=/bin/echo \"a\\\n # b\"\n".toList

/-- The rest of the quoted value is cut off as a comment. -/
theorem not_comments_quotedOver : ¬∀ i, i < (physicalLines quotedOver).length →
    CommentsAgree ((physicalLines quotedOver).take i) ((physicalLines quotedOver).getD i []) := by
  intro h
  exact absurd (h 2 (by decide)).1 (by decide)

end Rinit
