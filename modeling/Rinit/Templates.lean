import Mathlib.Data.List.Induction
import Rinit.Holes
import Rinit.Lines

/-!
# Templates through the parser

The text of a template is expanded before it is lexed, so the words that stand for its specifiers
pass through every scanner of the parser : the comments, the joining of lines, the section headers,
the keys and the tokens with their escapes. With inert words a text with holes has the same
statements whatever it is filled with (`exists_logicalLines`), and the same tokens, of which only
the text changes where there is a hole (`exists_tokenize`). A statement with its holes behind the
`=` has one `Shape` (`exists_shape`).
-/

namespace Rinit

variable {σ : Type} {w : σ → List Char}

/-! ## Comments and statements -/

theorem commentPrefix_go_word {v : List Char} (hv : ∀ c ∈ v, isInert c = true) (quoted : Bool)
    (s : List Char) : commentPrefix.go quoted false (v ++ s) =
      v ++ commentPrefix.go quoted false s := by
  induction v with
  | nil => rfl
  | cons c v ih =>
    have hc (d : Char) (hd : isInert d = false) : c ≠ d := ne_of_isInert (hv c (by simp)) hd
    rw [List.cons_append, commentPrefix.go, if_neg Bool.false_ne_true,
      if_neg (hc '\\' (by decide)), if_neg (hc '"' (by decide)),
      if_neg fun h => hc '#' (by decide) h.1, ih fun d hd => hv d (List.mem_cons_of_mem c hd)]
    rfl

/-- A word ends an escape and is no comment. -/
theorem commentPrefix_go_hole (hw : Inert w) (a : σ) (quoted escaped : Bool) (s : List Char) :
    commentPrefix.go quoted escaped (w a ++ s) = w a ++ commentPrefix.go quoted false s := by
  cases escaped with
  | false => exact commentPrefix_go_word (hw a).2 quoted s
  | true =>
    obtain ⟨hne, hin⟩ := hw a
    cases hv : w a with
    | nil => exact absurd hv hne
    | cons c v =>
      rw [List.cons_append, commentPrefix.go, if_pos rfl,
        commentPrefix_go_word fun d hd => hin d (by simp [hv, hd])]
      rfl

theorem exists_commentPrefix_go (quoted escaped : Bool) (p : List (Piece σ)) :
    ∃ q ⊆ p, ∀ w, Inert w → commentPrefix.go quoted escaped (fill w p) = fill w q := by
  induction p generalizing quoted escaped with
  | nil => exact ⟨[], fun _ => id, fun w _ => rfl⟩
  | cons x p ih =>
    -- what is kept of the rest, behind the part
    have keep (quoted' escaped' : Bool) (hgo : ∀ w, Inert w → commentPrefix.go quoted escaped
        (fill w (x :: p)) = x.text w ++ commentPrefix.go quoted' escaped' (fill w p)) :
        ∃ q ⊆ x :: p, ∀ w, Inert w →
          commentPrefix.go quoted escaped (fill w (x :: p)) = fill w q := by
      obtain ⟨q, hq, hfill⟩ := ih quoted' escaped'
      exact ⟨x :: q, List.cons_subset_cons x hq, fun w hw => by rw [hgo w hw, hfill w hw]; rfl⟩
    cases x with
    | hole a => exact keep quoted false fun w hw => commentPrefix_go_hole hw a quoted escaped _
    | char c =>
      cases escaped with
      | true => exact keep quoted false fun w _ => rfl
      | false =>
        by_cases hb : c = '\\'
        · exact keep quoted true fun w _ => by
            rw [fill_char, commentPrefix.go, if_neg Bool.false_ne_true, if_pos hb]
            rfl
        by_cases hq : c = '"'
        · exact keep (!quoted) false fun w _ => by
            rw [fill_char, commentPrefix.go, if_neg Bool.false_ne_true, if_neg hb, if_pos hq]
            rfl
        by_cases hc : c = '#' ∧ quoted = false
        · refine ⟨[], List.nil_subset _, fun w _ => ?_⟩
          rw [fill_char, commentPrefix.go, if_neg Bool.false_ne_true, if_neg hb, if_neg hq,
            if_pos hc]
          rfl
        · exact keep quoted false fun w _ => by
            rw [fill_char, commentPrefix.go, if_neg Bool.false_ne_true, if_neg hb, if_neg hq,
              if_neg hc]
            rfl

/-- The code of a line, and its text up to the backslash that continues it. -/
theorem exists_continuedHead (p : List (Piece σ)) : ∃ code ⊆ p, ∃ head : Option (List (Piece σ)),
    (∀ q ∈ head, q ⊆ p) ∧ ∀ w, Inert w →
      commentPrefix (lineText (fill w p)) = fill w code ∧
      continuedHead (lineText (fill w p)) = head.map (fill w) := by
  obtain ⟨line, hline, hfill⟩ := exists_lineText p
  obtain ⟨code, hcode, hfill'⟩ := exists_commentPrefix_go false false line
  obtain ⟨head, hhead, hfill''⟩ := exists_stripSuffix (c := '\\') (by decide)
    (code.reverse.dropWhile (Piece.test isWhitespace)).reverse
  refine ⟨code, fun _ hx => hline (hcode hx), head, fun q hq x hx => ?_, fun w hw => ?_⟩
  · have hx := List.mem_reverse.mp (hhead q hq hx)
    exact hline (hcode (List.mem_reverse.mp ((List.dropWhile_sublist _).subset hx)))
  · have hcomment : commentPrefix (lineText (fill w p)) = fill w code := by
      rw [hfill w hw]
      exact hfill' w hw
    exact ⟨hcomment, by rw [continuedHead, hcomment, fill_trimEnd hw, hfill'' w hw]⟩

theorem exists_logicalLines_go (start : ℕ) (current : List (Piece σ)) (n : ℕ)
    (L : List (List (Piece σ))) : ∃ S : List (ℕ × List (Piece σ)),
      (∀ s ∈ S, ∀ x ∈ s.2, x = .char ' ' ∨ x ∈ current ∨ ∃ l ∈ L, x ∈ l) ∧ ∀ w, Inert w →
        logicalLines.go start (fill w current) n (L.map (fill w)) =
          S.map fun s => (s.1, fill w s.2) := by
  induction L generalizing start current n with
  | nil =>
    by_cases hc : current.isEmpty
    · refine ⟨[], nofun, fun w hw => ?_⟩
      rw [List.map_nil, logicalLines.go, fill_isEmpty hw, if_pos hc]
      rfl
    · refine ⟨[(start, current)], fun s hs x hx => ?_, fun w hw => ?_⟩
      · rw [List.mem_singleton.mp hs] at hx
        exact .inr (.inl hx)
      · rw [List.map_nil, logicalLines.go, fill_isEmpty hw, if_neg hc]
        rfl
  | cons l L ih =>
    obtain ⟨code, hcode, head, hhead, hline⟩ := exists_continuedHead l
    cases head with
    | some head =>
      obtain ⟨S, hS, hfill⟩ := ih (if current.isEmpty then n else start)
        (current ++ head ++ [.char ' ']) (n + 1)
      refine ⟨S, fun s hs x hx => ?_, fun w hw => ?_⟩
      · rcases hS s hs x hx with hx | hx | ⟨l', hl', hx⟩
        · exact .inl hx
        · rcases List.mem_append.mp hx with hx | hx
          · rcases List.mem_append.mp hx with hx | hx
            · exact .inr (.inl hx)
            · exact .inr (.inr ⟨l, List.mem_cons_self, hhead head rfl hx⟩)
          · exact .inl (List.mem_singleton.mp hx)
        · exact .inr (.inr ⟨l', List.mem_cons_of_mem l hl', hx⟩)
      · rw [List.map_cons, logicalLines_go_cons_some (hline w hw).2, fill_isEmpty hw, ← hfill w hw]
        simp
    | none =>
      obtain ⟨S, hS, hfill⟩ := ih (if current.isEmpty then n else start) [] (n + 1)
      refine ⟨(if current.isEmpty then n else start, current ++ code) :: S,
        fun s hs x hx => ?_, fun w hw => ?_⟩
      · rcases List.mem_cons.mp hs with rfl | hs
        · rcases List.mem_append.mp hx with hx | hx
          · exact .inr (.inl hx)
          · exact .inr (.inr ⟨l, List.mem_cons_self, hcode hx⟩)
        · rcases hS s hs x hx with hx | hx | ⟨l', hl', hx⟩
          · exact .inl hx
          · cases hx
          · exact .inr (.inr ⟨l', List.mem_cons_of_mem l hl', hx⟩)
      · rw [List.map_cons, logicalLines_go_cons_none (hline w hw).2, fill_isEmpty hw,
          (hline w hw).1, List.map_cons, ← hfill w hw]
        simp

/-- The statements of a text with holes. -/
theorem exists_logicalLines (p : List (Piece σ)) : ∃ S : List (ℕ × List (Piece σ)),
    (∀ s ∈ S, ∀ x ∈ s.2, x = .char ' ' ∨ x ∈ p) ∧ ∀ w, Inert w →
      logicalLines (fill w p) = S.map fun s => (s.1, fill w s.2) := by
  obtain ⟨L, hL, hlines⟩ := exists_lines p
  obtain ⟨S, hS, hfill⟩ := exists_logicalLines_go 0 [] 1 L
  refine ⟨S, fun s hs x hx => ?_, fun w hw => ?_⟩
  · rcases hS s hs x hx with hx | hx | ⟨l, hl, hx⟩
    · exact .inl hx
    · cases hx
    · exact .inr (hL l hl hx)
  · rw [logicalLines, hlines w hw]
    exact hfill w hw

/-! ## Tokens -/

/-- The words of a token : an escape before a hole changes the first character of the word. -/
def escapedWord (w : σ → List Char) : σ × Bool → List Char
  | (a, false) => w a
  | (a, true) =>
    match w a with
    | [] => []
    | c :: s => unescape c :: s

theorem tokenize_go_word {v : List Char} (hv : ∀ c ∈ v, isInert c = true) (hne : v ≠ [])
    (line : ℕ) (quoted : Bool) (cur : List Char) (started : Bool) (s : List Char) :
    tokenize.go line quoted cur started (v ++ s) = tokenize.go line quoted (cur ++ v) true s := by
  induction v generalizing cur started with
  | nil => exact absurd rfl hne
  | cons c v ih =>
    have hc (d : Char) (hd : isInert d = false) : c ≠ d := ne_of_isInert (hv c (by simp)) hd
    have hblank : ¬(c = ' ' ∨ c = '\t') := not_or.mpr ⟨hc ' ' (by decide), hc '\t' (by decide)⟩
    have hstep : tokenize.go line quoted cur started (c :: (v ++ s)) =
        tokenize.go line quoted (cur ++ [c]) true (v ++ s) := by
      rw [tokenize_go_cons (hc '\\' (by decide)), if_neg (hc '"' (by decide)), if_neg hblank,
        if_neg (hc '#' (by decide)), if_neg (hc '"' (by decide))]
      cases quoted <;> rfl
    rw [List.cons_append, hstep]
    by_cases hv0 : v = []
    · subst hv0
      rfl
    · rw [ih (fun d hd => hv d (List.mem_cons_of_mem c hd)) hv0, List.append_assoc]
      rfl

/-- The tokens of a text with holes, or why there are none. -/
abbrev HoledTokens (σ : Type) := Except ParseError (List (List (Piece (σ × Bool))))

/-- The tokens, once the holes are filled. -/
def HoledTokens.fill (w : σ → List Char) (r : HoledTokens σ) : Except ParseError (List String) :=
  r.map (List.map fun t => String.ofList (Rinit.fill (escapedWord w) t))

/-- The rest `p` of a value has the same tokens for all words, whatever was read before. -/
def Tokenizes (line : ℕ) (p : List (Piece σ)) : Prop :=
  ∀ quoted cur started, ∃ r : HoledTokens σ, ∀ w, Inert w →
    tokenize.go line quoted (fill (escapedWord w) cur) started (fill w p) = r.fill w

theorem tokenizes_nil (line : ℕ) : Tokenizes line ([] : List (Piece σ)) := by
  intro quoted cur started
  cases quoted with
  | true => exact ⟨.error (.unterminatedQuote line), fun w _ => rfl⟩
  | false =>
    cases started with
    | true => exact ⟨.ok [cur], fun w _ => rfl⟩
    | false => exact ⟨.ok [], fun w _ => rfl⟩

/-- A part that begins no escape is read on its own. -/
theorem Tokenizes.cons {line : ℕ} {p : List (Piece σ)} (h : Tokenizes line p) {x : Piece σ}
    (hx : x ≠ .char '\\') : Tokenizes line (x :: p) := by
  intro quoted cur started
  cases x with
  | hole a =>
    obtain ⟨r, hr⟩ := h quoted (cur ++ [.hole (a, false)]) true
    refine ⟨r, fun w hw => ?_⟩
    rw [fill_hole, tokenize_go_word (hw a).2 (hw a).1, ← hr w hw]
    simp [escapedWord]
  | char c =>
    have hc : c ≠ '\\' := fun he => hx (congrArg Piece.char he)
    simp only [fill_char, tokenize_go_cons hc]
    have append (quoted : Bool) : ∃ r : HoledTokens σ, ∀ w, Inert w →
        tokenize.go line quoted (fill (escapedWord w) cur ++ [c]) true (fill w p) = r.fill w := by
      obtain ⟨r, hr⟩ := h quoted (cur ++ [.char c]) true
      exact ⟨r, fun w hw => by rw [← hr w hw]; simp⟩
    cases quoted with
    | true =>
      simp only [if_true]
      split
      · exact h false cur true
      · exact append true
    | false =>
      simp only [Bool.false_eq_true, if_false]
      split
      · cases started with
        | false => exact h false cur false
        | true =>
          obtain ⟨r, hr⟩ := h false [] false
          refine ⟨r.map (cur :: ·), fun w hw => ?_⟩
          rw [if_pos rfl]
          change (tokenize.go line false (fill (escapedWord w) []) false (fill w p)).map _ = _
          rw [hr w hw]
          cases r <;> rfl
      · split
        · cases started with
          | true => exact ⟨.ok [cur], fun w _ => rfl⟩
          | false => exact ⟨.ok [], fun w _ => rfl⟩
        · split
          · exact h true cur true
          · exact append false

/-- An escape is read with the part behind it. -/
theorem Tokenizes.escape {line : ℕ} {p : List (Piece σ)} (h : Tokenizes line p) (x : Piece σ) :
    Tokenizes line (.char '\\' :: x :: p) := by
  intro quoted cur started
  cases x with
  | char c =>
    obtain ⟨r, hr⟩ := h quoted (cur ++ [.char (unescape c)]) true
    refine ⟨r, fun w hw => ?_⟩
    rw [fill_char, fill_char, tokenize.go, ← hr w hw]
    simp
  | hole a =>
    obtain ⟨r, hr⟩ := h quoted (cur ++ [.hole (a, true)]) true
    refine ⟨r, fun w hw => ?_⟩
    obtain ⟨hne, hin⟩ := hw a
    rw [fill_char, fill_hole, ← hr w hw, fill_append, fill_hole, fill_nil, List.append_nil]
    cases hv : w a with
    | nil => exact absurd hv hne
    | cons c v =>
      rw [List.cons_append, tokenize.go]
      by_cases hv0 : v = []
      · simp [hv0, escapedWord, hv]
      · rw [tokenize_go_word (fun d hd => hin d (by simp [hv, hd])) hv0]
        simp [escapedWord, hv]

theorem tokenizes (line : ℕ) (p : List (Piece σ)) : Tokenizes line p := by
  induction p using List.twoStepInduction with
  | nil => exact tokenizes_nil line
  | singleton x =>
    by_cases hx : x = .char '\\'
    · subst hx
      intro quoted cur started
      cases quoted with
      | true => exact ⟨.error (.unterminatedQuote line), fun w _ => rfl⟩
      | false =>
        refine ⟨.ok [cur ++ [.char '\\']], fun w _ => ?_⟩
        rw [fill_char, fill_nil, tokenize.go, if_neg Bool.false_ne_true]
        simp [HoledTokens.fill, Except.map]
    · exact (tokenizes_nil line).cons hx
  | cons_cons x y p ih ih' =>
    by_cases hx : x = .char '\\'
    · subst hx
      exact ih.escape y
    · exact (ih' y).cons hx

/-- A value has the same tokens for all words, but for the words. -/
theorem exists_tokenize (line : ℕ) (p : List (Piece σ)) :
    ∃ r : HoledTokens σ, ∀ w, Inert w → tokenize line (fill w p) = r.fill w :=
  tokenizes line p false [] false

/-! ## Keys and headers -/

/-- The key of an entry depends on what is before the `=` only. -/
theorem exists_splitEntry {s : List Char} (h : '=' ∉ s) : ∃ key : Option (List Char),
    ∀ v, splitEntry (s ++ '=' :: v) = key.map fun k => (k, trim v) := by
  cases hk : trim s with
  | nil =>
    refine ⟨none, fun v => ?_⟩
    rw [splitEntry, splitOnce_append h]
    simp only [hk]
    rfl
  | cons c k =>
    by_cases hc : (c.isAlpha && k.all Char.isAlphanum) = true
    · refine ⟨some (c :: k), fun v => ?_⟩
      rw [splitEntry, splitOnce_append h]
      simp only [hk]
      exact if_pos hc
    · refine ⟨none, fun v => ?_⟩
      rw [splitEntry, splitOnce_append h]
      simp only [hk]
      exact if_neg hc

theorem mem_trim {c : Char} {s : List Char} (hc : isWhitespace c = false) (h : c ∈ s) :
    c ∈ trim s := by
  have hdrop {l : List Char} (hl : c ∈ l) : c ∈ l.dropWhile isWhitespace := by
    rw [← List.takeWhile_append_dropWhile (p := isWhitespace) (l := l), List.mem_append] at hl
    refine hl.resolve_left fun ht => ?_
    exact Bool.false_ne_true (hc.symm.trans (List.mem_takeWhile_imp ht))
  unfold trim trimEnd trimStart
  exact List.mem_reverse.mpr (hdrop (List.mem_reverse.mpr (hdrop h)))

/-- A line with an `=` is no section header. -/
theorem sectionHeader_of_mem {rest : List Char} (h : '=' ∈ rest) (n : ℕ) :
    (sectionHeader ('[' :: rest) n).toOption = none := by
  rw [sectionHeader]
  cases hs : splitOnce ']' rest with
  | none => rfl
  | some q =>
    obtain ⟨name, tail⟩ := q
    simp only
    have hmem : '=' ∈ name ∨ '=' ∈ tail := by
      rw [eq_append_of_splitOnce hs] at h
      simpa using h
    split
    · rfl
    · next htail =>
      have hname : '=' ∈ name := by
        refine hmem.resolve_right fun ht => htail ?_
        have hin := mem_trim (by decide) ht
        cases htrim : trim tail with
        | nil => simp [htrim] at hin
        | cons => rfl
      rw [if_neg (by rintro rfl; exact absurd hname (by decide)),
        if_neg (by rintro rfl; exact absurd hname (by decide))]
      rfl

theorem exists_sectionHeader (s : List Char) : ∃ header : Option (Option Section),
    ∀ v n, (sectionHeader (s ++ '=' :: v) n).toOption = header := by
  cases s with
  | nil => exact ⟨some none, fun v n => rfl⟩
  | cons c s =>
    by_cases hc : c = '['
    · subst hc
      exact ⟨none, fun v n => sectionHeader_of_mem (by simp) n⟩
    · refine ⟨some none, fun v n => ?_⟩
      rw [List.cons_append, sectionHeader]
      · rfl
      · simp [hc]

/-! ## Shapes -/

/-- What a statement comes to, whatever the holes in its value are filled with. -/
structure Shape (σ : Type) where
  line : ℕ
  header : Option (Option Section)
  key : Option (List Char)
  tokens : HoledTokens σ

/-- The statement has the shape : its line, its section header or that it is none, its key, and the
tokens of its value or why there are none. -/
structure Shape.Shows (shape : Shape σ) (w : σ → List Char) (l : ℕ × List Char) : Prop where
  line : l.1 = shape.line
  header : (sectionHeader (trim l.2) l.1).toOption = shape.header
  key : (splitEntry (trim l.2)).map Prod.fst = shape.key
  tokens : ∀ k v, splitEntry (trim l.2) = some (k, v) → tokenize l.1 v = shape.tokens.fill w

/-- What stands before the first `=`. -/
def beforeEq (p : List (Piece σ)) : List (Piece σ) := p.takeWhile fun x => !x.test (· == '=')

theorem beforeEq_trim_subset (p : List (Piece σ)) : beforeEq (trimPieces p) ⊆ beforeEq p := by
  -- the blanks that are cut off in front stand before the `=`
  have hfront : beforeEq p = p.takeWhile (Piece.test isWhitespace) ++
      beforeEq (p.dropWhile (Piece.test isWhitespace)) := by
    conv_lhs => rw [beforeEq, ← List.takeWhile_append_dropWhile (p := Piece.test isWhitespace)
      (l := p)]
    refine List.takeWhile_append_of_pos fun x hx => ?_
    have hblank := List.mem_takeWhile_imp hx
    cases x with
    | hole => rfl
    | char c =>
      have hne : c ≠ '=' := by
        rintro rfl
        exact absurd (show isWhitespace '=' = true from hblank) (by decide)
      simp [Piece.test, hne]
  have hback : trimPieces p <+: p.dropWhile (Piece.test isWhitespace) := by
    rw [trimPieces, ← List.reverse_suffix, List.reverse_reverse]
    exact List.dropWhile_suffix _
  obtain ⟨blanks, hblanks⟩ := hback
  rw [hfront, ← hblanks]
  intro x hx
  refine List.mem_append_right _ ?_
  unfold beforeEq at hx ⊢
  rw [List.takeWhile_append]
  split
  · exact List.mem_append_left _ ((List.takeWhile_sublist _).subset hx)
  · exact hx

/-- A text without holes is the same for all words. -/
theorem exists_fill {p : List (Piece σ)} (h : ∀ a, .hole a ∉ p) :
    ∃ s, ∀ w : σ → List Char, fill w p = s := by
  induction p with
  | nil => exact ⟨[], fun w => rfl⟩
  | cons x p ih =>
    obtain ⟨s, hs⟩ := ih fun a ha => h a (List.mem_cons_of_mem x ha)
    cases x with
    | char c => exact ⟨c :: s, fun w => by rw [fill_char, hs]⟩
    | hole a => exact absurd List.mem_cons_self (h a)

/-- What is left from the first `=` on. -/
theorem dropWhile_eq (p : List (Piece σ)) : p.dropWhile (fun x => !x.test (· == '=')) = [] ∨
    ∃ v, p.dropWhile (fun x => !x.test (· == '=')) = .char '=' :: v := by
  cases hd : p.dropWhile (fun x => !x.test (· == '=')) with
  | nil => exact .inl rfl
  | cons x v =>
    have hx := List.head?_dropWhile_not (fun x : Piece σ => !x.test (· == '=')) p
    rw [hd] at hx
    cases x with
    | hole a => simp [Piece.test] at hx
    | char c =>
      refine .inr ⟨v, ?_⟩
      have hc : c = '=' := by simpa [Piece.test] using hx
      rw [hc]

/-- A statement with its holes behind the `=` has the same shape whatever they are filled with. -/
theorem exists_shape (n : ℕ) {p : List (Piece σ)} (h : ∀ a, .hole a ∉ beforeEq p) :
    ∃ shape : Shape σ, ∀ w, Inert w → shape.Shows w (n, fill w p) := by
  obtain ⟨front, hfront⟩ := exists_fill fun a ha => h a (beforeEq_trim_subset p ha)
  have hinert (c : Char) (hc : isInert c = true) : (c == '=') = false :=
    beq_false_of_ne (ne_of_isInert hc (by decide))
  have htrim (w : σ → List Char) (hw : Inert w) : '=' ∉ front ∧ trim (fill w p) = front ++
      fill w ((trimPieces p).dropWhile fun x => !x.test (· == '=')) := by
    have htake := fill_takeWhile hw hinert (trimPieces p)
    rw [show (trimPieces p).takeWhile (fun x => !x.test (· == '=')) = beforeEq (trimPieces p) from
      rfl, hfront w] at htake
    constructor
    · intro hin
      rw [← htake] at hin
      simpa using List.mem_takeWhile_imp hin
    · rw [fill_trim hw, ← hfront w, ← fill_append]
      exact congrArg (fill w) (List.takeWhile_append_dropWhile).symm
  rcases dropWhile_eq (trimPieces p) with hrest | ⟨v, hrest⟩
  · -- no `=` : the statement is the same for all words
    refine ⟨⟨n, (sectionHeader front n).toOption, none, .ok []⟩, fun w hw => ?_⟩
    obtain ⟨hnot, htext⟩ := htrim w hw
    rw [hrest, fill_nil, List.append_nil] at htext
    have hentry : splitEntry front = none := by
      rw [splitEntry, splitOnce_eq_none hnot]
    refine ⟨rfl, by rw [htext], by rw [htext, hentry]; rfl, fun k v hv => ?_⟩
    rw [htext, hentry] at hv
    cases hv
  · obtain ⟨r, hr⟩ := exists_tokenize n (trimPieces v)
    by_cases hnot : '=' ∉ front
    · obtain ⟨key, hkey⟩ := exists_splitEntry hnot
      obtain ⟨header, hheader⟩ := exists_sectionHeader front
      refine ⟨⟨n, header, key, r⟩, fun w hw => ?_⟩
      have htext := (htrim w hw).2
      rw [hrest, fill_char] at htext
      refine ⟨rfl, by rw [htext, hheader], by rw [htext, hkey]; cases key <;> rfl,
        fun k v' hv => ?_⟩
      rw [htext, hkey] at hv
      obtain ⟨_, -, he⟩ := Option.map_eq_some_iff.mp hv
      rw [← (Prod.mk.inj he).2, fill_trim hw]
      exact hr w hw
    · exact ⟨⟨n, none, none, .ok []⟩, fun w hw => absurd (htrim w hw).1 hnot⟩

theorem exists_shapes {S : List (ℕ × List (Piece σ))}
    (h : ∀ s ∈ S, ∀ a, .hole a ∉ beforeEq s.2) : ∃ shapes : List (Shape σ), ∀ w, Inert w →
      List.Forall₂ (fun shape l => shape.Shows w l) shapes (S.map fun s => (s.1, fill w s.2)) := by
  induction S with
  | nil => exact ⟨[], fun w _ => .nil⟩
  | cons s S ih =>
    obtain ⟨shape, hshape⟩ := exists_shape s.1 (h s List.mem_cons_self)
    obtain ⟨shapes, hshapes⟩ := ih fun s' hs' => h s' (List.mem_cons_of_mem s hs')
    exact ⟨shape :: shapes, fun w hw => .cons (hshape w hw) (hshapes w hw)⟩

end Rinit
