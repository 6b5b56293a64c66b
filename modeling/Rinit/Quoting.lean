import Rinit.Continuations
import Rinit.Lines

/-!
# Quoted commands

`quoteAll` writes an argument vector as the value of a directive : every argument in double
quotes, with a backslash, a double quote or a line feed in it escaped. `Written` says what the
parser needs of a value that stands on one line : the scan for comments, the scan for
continuations and the two trims leave it alone, and it lexes to the given tokens. Every
argument vector is written so by its quoted form (`written_quoteAll`).

A file that is accepted with a plain command on some line is accepted with a quoted one there,
and only the command is another (`parse_quoted`).
-/

namespace Rinit

/-! ## The quoted form -/

def quoteChar (c : Char) : List Char :=
  if c = '\\' then ['\\', '\\']
  else if c = '"' then ['\\', '"']
  else if c = '\n' then ['\\', 'n']
  else [c]

def quoteArg (arg : String) : List Char :=
  '"' :: arg.toList.flatMap quoteChar ++ ['"']

/-- The arguments in quotes, with a space between them. -/
def quoteAll : List String → List Char
  | [] => []
  | [arg] => quoteArg arg
  | arg :: argv => quoteArg arg ++ ' ' :: quoteAll argv

theorem quoteAll_cons {arg : String} {argv : List String} (h : argv ≠ []) :
    quoteAll (arg :: argv) = quoteArg arg ++ ' ' :: quoteAll argv := by
  cases argv with
  | nil => exact absurd rfl h
  | cons next argv => rfl

/-! ## The tokenizer -/

section Tokenizer

variable {line : ℕ}

/-- Inside quotes, a quoted character is read as the character. -/
theorem tokenize_quoteChar (cur rest : List Char) (started : Bool) (c : Char) :
    tokenize.go line true cur started (quoteChar c ++ rest) =
      tokenize.go line true (cur ++ [c]) true rest := by
  unfold quoteChar
  by_cases hb : c = '\\'
  · rw [if_pos hb, hb]
    simp [tokenize.go, unescape]
  · by_cases hq : c = '"'
    · rw [if_neg hb, if_pos hq, hq]
      simp [tokenize.go, unescape]
    · by_cases hn : c = '\n'
      · rw [if_neg hb, if_neg hq, if_pos hn, hn]
        simp [tokenize.go, unescape]
      · rw [if_neg hb, if_neg hq, if_neg hn, List.singleton_append, tokenize_go_cons hb]
        simp [hq]

theorem tokenize_quoteChars (cur rest arg : List Char) (started : Bool) :
    tokenize.go line true cur started (arg.flatMap quoteChar ++ '"' :: rest) =
      tokenize.go line false (cur ++ arg) true rest := by
  induction arg generalizing cur started with
  | nil =>
    rw [List.flatMap_nil, List.nil_append, tokenize_go_cons (by decide)]
    simp
  | cons c arg ih =>
    rw [List.flatMap_cons, List.append_assoc, tokenize_quoteChar, ih, List.append_assoc]
    rfl

/-- A quoted argument is one token so far. -/
theorem tokenize_quoteArg (rest : List Char) (arg : String) :
    tokenize.go line false [] false (quoteArg arg ++ rest) =
      tokenize.go line false arg.toList true rest := by
  rw [quoteArg, List.cons_append, List.cons_append, tokenize_go_cons (by decide)]
  simp [tokenize_quoteChars]

theorem tokenize_quoteAll (argv : List String) : tokenize line (quoteAll argv) = .ok argv := by
  unfold tokenize
  induction argv with
  | nil => rfl
  | cons arg argv ih =>
    by_cases hnil : argv = []
    · subst hnil
      rw [quoteAll, ← List.append_nil (quoteArg arg), tokenize_quoteArg]
      simp [tokenize.go]
    · rw [quoteAll_cons hnil, tokenize_quoteArg, tokenize_go_cons (by decide), ih]
      simp [Except.map]

end Tokenizer

/-! ## The scan for comments -/

/-- Text without a comment, and the quotes and escapes after it. -/
structure Passes (state : Bool × Bool) (s : List Char) (state' : Bool × Bool) : Prop where
  uncommented : uncommented state s = s
  lexText : lexText state s = state'

theorem Passes.append {state state' state'' : Bool × Bool} {s t : List Char}
    (h : Passes state s state') (h' : Passes state' t state'') : Passes state (s ++ t) state'' where
  uncommented := by rw [uncommented_append h.uncommented, h.lexText, h'.uncommented]
  lexText := by rw [lexText_append, h.lexText, h'.lexText]

theorem passes_quoteChar (c : Char) : Passes (true, false) (quoteChar c) (true, false) := by
  unfold quoteChar
  by_cases hb : c = '\\'
  · rw [if_pos hb]
    exact ⟨by decide, by decide⟩
  · by_cases hq : c = '"'
    · rw [if_neg hb, if_pos hq]
      exact ⟨by decide, by decide⟩
    · by_cases hn : c = '\n'
      · rw [if_neg hb, if_neg hq, if_pos hn]
        exact ⟨by decide, by decide⟩
      · rw [if_neg hb, if_neg hq, if_neg hn]
        exact ⟨by simp [Rinit.uncommented, commentPrefix.go, hb, hq],
          by simp [Rinit.lexText, lexChar, hb, hq]⟩

theorem passes_quoteArg (arg : String) : Passes (false, false) (quoteArg arg) (false, false) := by
  have hquote (quoted : Bool) : Passes (quoted, false) ['"'] (!quoted, false) := by
    cases quoted <;> exact ⟨by decide, by decide⟩
  have hchars : ∀ s : List Char, Passes (true, false) (s.flatMap quoteChar) (true, false) := by
    intro s
    induction s with
    | nil => exact ⟨rfl, rfl⟩
    | cons c s ih =>
      rw [List.flatMap_cons]
      exact (passes_quoteChar c).append ih
  exact ((hquote false).append (hchars arg.toList)).append (hquote true)

theorem passes_quoteAll (argv : List String) :
    Passes (false, false) (quoteAll argv) (false, false) := by
  induction argv with
  | nil => exact ⟨rfl, rfl⟩
  | cons arg argv ih =>
    by_cases hnil : argv = []
    · subst hnil
      exact passes_quoteArg arg
    · have hspace : Passes (false, false) [' '] (false, false) := ⟨by decide, by decide⟩
      rw [quoteAll_cons hnil]
      exact (passes_quoteArg arg).append (hspace.append ih)

/-! ## A value on a line of its own -/

/-- A value that nothing is cut off from, and the tokens it lexes to. -/
structure Written (value : List Char) (tokens : List String) : Prop where
  newline : '\n' ∉ value
  passes : Passes (false, false) value (false, false)
  first : ∃ c, value.head? = some c ∧ isWhitespace c = false
  last : ∃ c, value.getLast? = some c ∧ isWhitespace c = false ∧ c ≠ '\\'
  tokenize : ∀ line, tokenize line value = .ok tokens

theorem newline_quoteArg (arg : String) : '\n' ∉ quoteArg arg := by
  have hchar (c : Char) : '\n' ∉ quoteChar c := by
    unfold quoteChar
    by_cases hb : c = '\\'
    · simp [hb]
    · by_cases hq : c = '"'
      · simp [hq]
      · by_cases hn : c = '\n'
        · simp [hn]
        · simpa [hb, hq, hn] using Ne.symm hn
  simp [quoteArg, hchar]

theorem newline_quoteAll (argv : List String) : '\n' ∉ quoteAll argv := by
  induction argv with
  | nil => exact List.not_mem_nil
  | cons arg argv ih =>
    by_cases hnil : argv = []
    · subst hnil
      exact newline_quoteArg arg
    · rw [quoteAll_cons hnil]
      simp [newline_quoteArg, ih]

theorem head?_quoteAll (arg : String) (argv : List String) :
    (quoteAll (arg :: argv)).head? = some '"' := by
  cases argv <;> rfl

theorem getLast?_quoteAll {argv : List String} (h : argv ≠ []) :
    (quoteAll argv).getLast? = some '"' := by
  induction argv with
  | nil => exact absurd rfl h
  | cons arg argv ih =>
    by_cases hnil : argv = []
    · subst hnil
      rw [quoteAll, quoteArg, List.getLast?_append]
      rfl
    · rw [quoteAll_cons hnil, List.getLast?_append, List.getLast?_cons, ih hnil]
      rfl

theorem written_quoteAll {argv : List String} (h : argv ≠ []) : Written (quoteAll argv) argv where
  newline := newline_quoteAll argv
  passes := passes_quoteAll argv
  first := by
    obtain ⟨arg, rest, rfl⟩ := List.exists_cons_of_ne_nil h
    exact ⟨'"', head?_quoteAll arg rest, by decide⟩
  last := ⟨'"', getLast?_quoteAll h, by decide, by decide⟩
  tokenize _ := tokenize_quoteAll argv

theorem written_binTrue : Written "/bin/true".toList ["/bin/true"] where
  newline := by decide
  passes := ⟨by decide, by decide⟩
  first := ⟨'/', rfl, by decide⟩
  last := ⟨'e', rfl, by decide, by decide⟩
  tokenize _ := rfl

/-! ## A line of a file -/

/-- The lines of a file with a line between two parts of it. -/
theorem lines_between {before line : List Char} (after : List Char)
    (hbefore : before = [] ∨ before.getLast? = some '\n') (hline : '\n' ∉ line) :
    lines (before ++ line ++ '\n' :: after) = lines before ++ lineText line :: lines after := by
  have hrest : lines (line ++ '\n' :: after) = lineText line :: lines after := by
    rw [lines, splitInclusive_append, splitInclusive_concat hline, List.map_append]
    simp [stripLineEnd, stripSuffix_append, lineText, lines]
  rw [List.append_assoc]
  rcases hbefore with rfl | hlast
  · exact hrest
  · obtain ⟨front, rfl⟩ := List.getLast?_eq_some_iff.mp hlast
    rw [← hrest, List.append_assoc, List.singleton_append, lines, splitInclusive_append,
      List.map_append]
    rfl

/-- `ExecStart=` with a value, as a line. -/
def execStartLine (value : List Char) : List Char := "ExecStart=".toList ++ value

theorem execStartLine_eq (value : List Char) : execStartLine value =
    ['E', 'x', 'e', 'c', 'S', 't', 'a', 'r', 't', '='] ++ value := by
  unfold execStartLine
  simp only [String.reduceToList]

section Line

variable {value : List Char} {tokens : List String}

theorem getLast?_execStartLine {c : Char} (h : value.getLast? = some c) :
    (execStartLine value).getLast? = some c := by
  rw [execStartLine_eq, List.getLast?_append, h]
  rfl

theorem Written.newline_line (h : Written value tokens) : '\n' ∉ execStartLine value := by
  rw [execStartLine_eq, List.mem_append, not_or]
  exact ⟨by decide, h.newline⟩

theorem Written.commentPrefix_line (h : Written value tokens) :
    commentPrefix (execStartLine value) = execStartLine value := by
  rw [execStartLine_eq]
  have hkey : Passes (false, false) ['E', 'x', 'e', 'c', 'S', 't', 'a', 'r', 't', '=']
    (false, false) := ⟨by decide, by decide⟩
  exact (hkey.append h.passes).uncommented

theorem Written.trim_line (h : Written value tokens) :
    trim (execStartLine value) = execStartLine value := by
  obtain ⟨c, hlast, hblank, -⟩ := h.last
  refine trim_eq_self_of_ends (c := 'E') ?_ (getLast?_execStartLine hlast) (by decide) hblank
  rw [execStartLine_eq]
  rfl

theorem Written.continuedHead_line (h : Written value tokens) :
    continuedHead (execStartLine value) = none := by
  obtain ⟨c, hlast, hblank, hc⟩ := h.last
  obtain ⟨front, hfront⟩ := List.getLast?_eq_some_iff.mp (getLast?_execStartLine hlast)
  rw [continuedHead, h.commentPrefix_line, hfront, trimEnd_concat hblank,
    Option.eq_none_iff_forall_ne_some]
  intro head hhead
  have hend := congrArg List.getLast? (stripSuffix_eq_some.mp hhead)
  simp only [List.getLast?_concat, Option.some.injEq] at hend
  exact hc hend

theorem Written.lineText_line (h : Written value tokens) :
    lineText (execStartLine value) = execStartLine value := by
  obtain ⟨c, hlast, hblank, -⟩ := h.last
  obtain ⟨front, hfront⟩ := List.getLast?_eq_some_iff.mp (getLast?_execStartLine hlast)
  have hreturn : stripSuffix ['\r'] (front ++ [c]) = none := by
    rw [Option.eq_none_iff_forall_ne_some]
    intro head hhead
    have hend := congrArg List.getLast? (stripSuffix_eq_some.mp hhead)
    simp only [List.getLast?_concat, Option.some.injEq] at hend
    rw [hend] at hblank
    exact absurd hblank (by decide)
  rw [lineText, hfront, hreturn, Option.getD_none]

theorem Written.splitEntry_line (h : Written value tokens) :
    splitEntry (execStartLine value) = some ("ExecStart".toList, value) := by
  obtain ⟨c, hfirst, hc⟩ := h.first
  obtain ⟨d, hlast, hd, -⟩ := h.last
  have hsplit : splitOnce '=' (execStartLine value) =
      some (['E', 'x', 'e', 'c', 'S', 't', 'a', 'r', 't'], value) := by
    rw [execStartLine_eq]
    rfl
  have hkey : trim ['E', 'x', 'e', 'c', 'S', 't', 'a', 'r', 't'] =
      ['E', 'x', 'e', 'c', 'S', 't', 'a', 'r', 't'] := by decide
  have hvalue : trim value = value := trim_eq_self_of_ends hfirst hlast hc hd
  unfold splitEntry
  simp only [hsplit, hkey, hvalue]
  rfl

end Line

/-- A file with an `ExecStart=` line in it : the text before it, the value and the text after. -/
def withExecStart (before value after : List Char) : List Char :=
  before ++ execStartLine value ++ '\n' :: after

/-- The line is a statement of its own if the lines before it are complete. -/
theorem logicalLines_withExecStart {before : List Char} (after : List Char)
    (hbefore : before = [] ∨ before.getLast? = some '\n')
    (hcomplete : pendingText (physicalLines before) = []) :
    ∃ done n rest, ∀ value tokens, Written value tokens →
      logicalLines (withExecStart before value after) =
        done ++ (n, execStartLine value) :: rest := by
  obtain ⟨done, start, hdone⟩ := logicalLines_go_append 0 [] 1 (lines before)
  refine ⟨done, 1 + (lines before).length, logicalLines.go (1 + (lines before).length) []
    (1 + (lines before).length + 1) (lines after), fun value tokens hw => ?_⟩
  have hhead : continuedHead (lineText (execStartLine value)) = none := by
    rw [hw.lineText_line, hw.continuedHead_line]
  rw [pendingText, physicalLines] at hcomplete
  rw [logicalLines, withExecStart, lines_between after hbefore hw.newline_line, hdone, hcomplete,
    hw.lineText_line, logicalLines_go_cons_none hhead, hw.lineText_line, hw.commentPrefix_line]
  rfl

/-! ## Another command -/

namespace Parser

/-- The same configuration with another command. -/
def setStart (e : ExecCommand) (cfg : UnitConfig) : UnitConfig := { cfg with execStart := e }

section Directives

variable {e : ExecCommand} {cfg : UnitConfig} {line : ℕ} {key : String} {tokens : List String}

theorem bind_setStart {α : Type} {x : Except ParseError α}
    {f g : α → Except ParseError UnitConfig} (h : ∀ a, g a = (f a).map (setStart e)) :
    (x >>= g) = (x >>= f).map (setStart e) := by
  cases x with
  | error _ => rfl
  | ok a => exact h a

theorem path_setStart {set set' : String → UnitConfig} (h : ∀ p, set' p = setStart e (set p)) :
    path line key tokens (setStart e cfg) set' =
      (path line key tokens cfg set).map (setStart e) := by
  unfold path
  split
  · rfl
  · exact bind_setStart fun _ => congrArg Except.ok (h _)

theorem unitDirective_setStart : unitDirective (setStart e cfg) line key tokens =
    (unitDirective cfg line key tokens).map (setStart e) := by
  unfold unitDirective
  split <;> first | rfl | exact bind_setStart fun _ => rfl

/-- Every directive but one leaves the command alone. -/
theorem serviceDirective_setStart (hkey : key ≠ "ExecStart") :
    serviceDirective (setStart e cfg) line key tokens =
      (serviceDirective cfg line key tokens).map (setStart e) := by
  unfold serviceDirective
  dsimp only
  split
  -- `StartLimitBurst=` is the one directive with checks after the number is read.
  case h_9 =>
    refine bind_setStart fun value => ?_
    split
    · rfl
    · split <;> rfl
  all_goals try with_reducible refine bind_setStart fun _ => ?_
  all_goals first
    | exact path_setStart fun _ => rfl
    | rfl
    | contradiction
    | (split <;> rfl)

end Directives

/-- The same state of the parser with another command. -/
def withStart (e : ExecCommand) (p : Parser) : Parser := { p with cfg := setStart e p.cfg }

section WithStart

variable {e : ExecCommand} {p p' : Parser} {sec : Section} {line : ℕ} {key : String}
  {tokens : List String}

theorem noteSeen_withStart :
    (p.withStart e).noteSeen sec key = (p.noteSeen sec key).withStart e := by
  unfold noteSeen
  split <;> rfl

theorem noteLine_withStart :
    (p.withStart e).noteLine line key = (p.noteLine line key).withStart e := by
  unfold noteLine
  split
  · rfl
  · split <;> rfl

theorem dispatch_withStart (hkey : (sec, key) ≠ (.service, "ExecStart"))
    (h : p.dispatch sec line key tokens = .ok p') :
    (p.withStart e).dispatch sec line key tokens = .ok (p'.withStart e) := by
  cases sec with
  | unit =>
    rw [dispatch_unit]
    obtain ⟨hk, declared, hdecl, rfl⟩ | ⟨hk, cfg, hcfg, rfl⟩ := dispatch_unit.mp h
    · exact Or.inl ⟨hk, declared, hdecl, rfl⟩
    · refine Or.inr ⟨hk, setStart e cfg, ?_, rfl⟩
      rw [withStart, unitDirective_setStart, hcfg]
      rfl
  | service =>
    rw [dispatch_service]
    obtain ⟨cfg, hcfg, rfl⟩ := dispatch_service.mp h
    refine ⟨setStart e cfg, ?_, ?_⟩
    · have hk : key ≠ "ExecStart" := fun hk => hkey (by rw [hk])
      rw [withStart, serviceDirective_setStart hk, hcfg]
      rfl
    · rw [noteLine_withStart]
      rfl

theorem subset_seen_statement {l : ℕ × List Char} (h : p.statement l = .ok p') :
    p.seen ⊆ p'.seen := by
  obtain ⟨-, rfl⟩ | ⟨-, ⟨sec, -, rfl⟩ | ⟨-, sec, -, hentry⟩⟩ := statement_eq_ok.mp h
  · exact List.Subset.refl _
  · exact List.Subset.refl _
  · obtain ⟨keyChars, value, tokens, -, -, -, hdispatch⟩ := entry_eq_ok.mp hentry
    rw [(dispatch_frame hdispatch).2.1]
    unfold noteSeen
    split
    · exact List.Subset.refl _
    · exact List.subset_append_left _ _

/-- Once the command is given, the lines after it do not depend on it. -/
theorem statement_withStart {l : ℕ × List Char} (hseen : (.service, "ExecStart") ∈ p.seen)
    (h : p.statement l = .ok p') : (p.withStart e).statement l = .ok (p'.withStart e) := by
  rw [statement_eq_ok]
  obtain ⟨hskip, rfl⟩ | ⟨hskip, ⟨sec, hsec, rfl⟩ | ⟨hsec, sec, hcur, hentry⟩⟩ :=
    statement_eq_ok.mp h
  · exact Or.inl ⟨hskip, rfl⟩
  · exact Or.inr ⟨hskip, Or.inl ⟨sec, hsec, rfl⟩⟩
  · refine Or.inr ⟨hskip, Or.inr ⟨hsec, sec, hcur, ?_⟩⟩
    obtain ⟨keyChars, value, tokens, hsplit, hnew, htokens, hdispatch⟩ := entry_eq_ok.mp hentry
    refine entry_eq_ok.mpr ⟨keyChars, value, tokens, hsplit, hnew, htokens, ?_⟩
    rw [noteSeen_withStart]
    refine dispatch_withStart ?_ hdispatch
    intro hkey
    rw [(Prod.mk.inj hkey).1, (Prod.mk.inj hkey).2] at hnew
    rcases hnew with hrep | hfresh
    · exact absurd hrep (by decide)
    · exact hfresh hseen

theorem foldlM_withStart {l : List (ℕ × List Char)} (hseen : (.service, "ExecStart") ∈ p.seen)
    (h : l.foldlM statement p = .ok p') :
    l.foldlM statement (p.withStart e) = .ok (p'.withStart e) := by
  induction l generalizing p with
  | nil =>
    obtain rfl := Except.ok.inj h
    rfl
  | cons x l ih =>
    rw [List.foldlM_cons] at h ⊢
    obtain ⟨p1, h1, h⟩ := Runs.bind_eq_ok.mp h
    exact Runs.bind_eq_ok.mpr ⟨p1.withStart e, statement_withStart hseen h1,
      ih (subset_seen_statement h1 hseen) h⟩

/-- Any command but an empty one does for the checks at the end. -/
theorem finish_withStart {cfg : UnitConfig} (he : e.isEmpty = false) (h : p.finish = .ok cfg) :
    (p.withStart e).finish = .ok (setStart e cfg) := by
  obtain ⟨hdeclared, -, hrestart, rfl⟩ := finish_iff.mp h
  exact finish_iff.mpr ⟨hdeclared, Or.inr he, hrestart, rfl⟩

/-- The line sets the command, in a `[Service]` section that has none yet. -/
theorem statement_execStart {value : List Char} {n : ℕ} (hw : Written value tokens) :
    p.statement (n, execStartLine value) = .ok p' ↔
      p.currentSection = some .service ∧ (.service, "ExecStart") ∉ p.seen ∧
        (withStart (command tokens) { p with seen := p.seen ++ [(.service, "ExecStart")] }) =
          p' := by
  have hskip : ((trim (execStartLine value)).isEmpty ||
      (trim (execStartLine value)).head? == some '#') = false := by
    rw [hw.trim_line, execStartLine_eq]
    rfl
  have hheader : sectionHeader (trim (execStartLine value)) n = .ok none := by
    rw [hw.trim_line, execStartLine_eq]
    rfl
  have hkey : String.ofList "ExecStart".toList = "ExecStart" := String.ofList_toList
  have hrep : repeatable.contains "ExecStart" = false := by decide
  have hnote : p.noteSeen .service "ExecStart" =
      { p with seen := p.seen ++ [(.service, "ExecStart")] } := by
    rw [noteSeen, hrep]
    rfl
  rw [statement_eq_ok]
  constructor
  · rintro (⟨h, -⟩ | ⟨-, ⟨sec, h, -⟩ | ⟨-, sec, hcur, hentry⟩⟩)
    · rw [hskip] at h
      cases h
    · rw [hheader] at h
      cases h
    · rw [hw.trim_line] at hentry
      obtain ⟨keyChars, value', tokens', hsplit, hnew, htokens, hdispatch⟩ := entry_eq_ok.mp hentry
      rw [hw.splitEntry_line] at hsplit
      obtain ⟨rfl, rfl⟩ := Prod.mk.inj (Option.some.inj hsplit)
      obtain rfl := Except.ok.inj ((hw.tokenize n).symm.trans htokens)
      rw [hkey] at hnew hdispatch
      rw [hrep] at hnew
      cases sec with
      | unit =>
        obtain ⟨h, -⟩ | ⟨-, cfg, h, -⟩ := dispatch_unit.mp hdispatch
        · exact absurd h (by decide)
        · cases h
      | service =>
        obtain ⟨cfg, hcfg, rfl⟩ := dispatch_service.mp hdispatch
        obtain rfl := Except.ok.inj hcfg
        refine ⟨hcur, by simpa using hnew, ?_⟩
        rw [hnote]
        rfl
  · rintro ⟨hcur, hnew, rfl⟩
    refine Or.inr ⟨hskip, Or.inr ⟨hheader, .service, hcur, ?_⟩⟩
    rw [hw.trim_line]
    refine entry_eq_ok.mpr ⟨_, value, tokens, hw.splitEntry_line, ?_, hw.tokenize n, ?_⟩
    · rw [hkey]
      exact Or.inr hnew
    · rw [hkey, hnote]
      exact dispatch_service.mpr ⟨_, rfl, rfl⟩

end WithStart

end Parser

theorem command_eq {argv : List String} (h : ∃ arg ∈ argv, arg ≠ "") : command argv = ⟨argv⟩ := by
  have hall : argv.all (· = "") = false := by simpa using h
  rw [command, hall]
  rfl

/-- A command can be exchanged for another on a line of its own. -/
theorem parse_withExecStart {name : UnitName} {before after value value' : List Char}
    {tokens tokens' : List String} {cfg : UnitConfig} (hw : Written value tokens)
    (hw' : Written value' tokens') (hne : ∃ token ∈ tokens', token ≠ "")
    (hbefore : before = [] ∨ before.getLast? = some '\n')
    (hcomplete : pendingText (physicalLines before) = [])
    (h : parse name (String.ofList (withExecStart before value after)) = .ok cfg) :
    parse name (String.ofList (withExecStart before value' after)) =
      .ok { cfg with execStart := ⟨tokens'⟩ } := by
  obtain ⟨done, n, rest, hlines⟩ := logicalLines_withExecStart after hbefore hcomplete
  rw [parse_iff, String.toList_ofList, hlines value tokens hw] at h
  obtain ⟨p, hp, hfinish⟩ := h
  rw [List.foldlM_append, Runs.bind_eq_ok] at hp
  obtain ⟨p1, h1, hp⟩ := hp
  rw [List.foldlM_cons, Runs.bind_eq_ok] at hp
  obtain ⟨p2, h2, h3⟩ := hp
  obtain ⟨hcur, hnew, rfl⟩ := (Parser.statement_execStart hw).mp h2
  have hstart : ExecCommand.isEmpty ⟨tokens'⟩ = false := by
    obtain ⟨token, hmem, -⟩ := hne
    simpa [ExecCommand.isEmpty] using List.ne_nil_of_mem hmem
  rw [parse_iff, String.toList_ofList, hlines value' tokens' hw']
  refine ⟨p.withStart ⟨tokens'⟩, ?_, Parser.finish_withStart hstart hfinish⟩
  rw [List.foldlM_append, Runs.bind_eq_ok]
  refine ⟨p1, h1, ?_⟩
  rw [List.foldlM_cons, Runs.bind_eq_ok]
  refine ⟨_, (Parser.statement_execStart hw').mpr ⟨hcur, hnew, rfl⟩, ?_⟩
  have hrest := Parser.foldlM_withStart (e := ⟨tokens'⟩) ?_ h3
  · rw [command_eq hne]
    exact hrest
  · simp [Parser.withStart]

/-- Every argument vector that is not all empty is read back from its quoted form, between any
lines that are accepted around a plain command. -/
theorem parse_quoted {name : UnitName} {before after : List Char} {cfg : UnitConfig}
    {argv : List String} (hargv : ∃ arg ∈ argv, arg ≠ "")
    (hbefore : before = [] ∨ before.getLast? = some '\n')
    (hcomplete : pendingText (physicalLines before) = [])
    (hvalid : parse name (String.ofList (withExecStart before "/bin/true".toList after)) =
      .ok cfg) :
    parse name (String.ofList (withExecStart before (quoteAll argv) after)) =
      .ok { cfg with execStart := ⟨argv⟩ } := by
  have hne : argv ≠ [] := by
    obtain ⟨arg, hmem, -⟩ := hargv
    exact List.ne_nil_of_mem hmem
  exact parse_withExecStart written_binTrue (written_quoteAll hne) hargv hbefore hcomplete hvalid

/-- An argument of every kind of character the scanners look at. -/
def oddArgv : List String := ["/bin/echo", "", "a # \"b\" \\", "[x]=\n\t"]

theorem parse_quoted_oddArgv :
    parse serviceA (String.ofList (withExecStart "[Service]\n".toList (quoteAll oddArgv)
      "User=app\n".toList)) =
    .ok { UnitConfig.new serviceA with user := "app", execStart := ⟨oddArgv⟩ } := by
  have hvalid : parse serviceA (String.ofList (withExecStart "[Service]\n".toList
      "/bin/true".toList "User=app\n".toList)) =
      .ok { UnitConfig.new serviceA with user := "app", execStart := ⟨["/bin/true"]⟩ } := by decide
  have hargv : ∃ arg ∈ oddArgv, arg ≠ "" := ⟨"/bin/echo", by decide, by decide⟩
  exact parse_quoted hargv (Or.inr (by decide)) (by decide) hvalid

end Rinit
