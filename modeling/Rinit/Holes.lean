import Rinit.Continuations
import Rinit.Lines

/-!
# Texts with holes

A text with holes (`Piece`) is filled with a word for each hole. What the scanners of `Rinit.Text`
make of the filled text does not depend on the words, as long as no word is empty and none has a
character that a scanner looks at (`Inert`) : they cut, split and trim the text with its holes, and
the result is filled (`fill_trim`, `exists_lines`, `exists_splitOnce`).
-/

namespace Rinit

variable {σ : Type}

/-- A part of a text with holes. -/
inductive Piece (σ : Type) where
  | char (c : Char)
  | hole (a : σ)
deriving DecidableEq, Repr

/-- The text of a part, with a word for each hole. -/
def Piece.text (w : σ → List Char) : Piece σ → List Char
  | char c => [c]
  | hole a => w a

/-- The text with its holes filled. -/
def fill (w : σ → List Char) (p : List (Piece σ)) : List Char := p.flatMap (Piece.text w)

/-- No scanner of unit files looks at the character. -/
def isInert (c : Char) : Bool :=
  !isWhitespace c && c != '\\' && c != '"' && c != '#' && c != '=' && c != '[' && c != ']'

/-- The words are not empty and have inert characters only. -/
def Inert (w : σ → List Char) : Prop := ∀ a, w a ≠ [] ∧ ∀ c ∈ w a, isInert c = true

/-- What a scanner sees of a part : a hole is not what it looks for. -/
def Piece.test (q : Char → Bool) : Piece σ → Bool
  | char c => q c
  | hole _ => false

section Fill

variable (w : σ → List Char) (p q : List (Piece σ)) (c : Char) (a : σ)

@[simp]
theorem fill_nil : fill w [] = [] := rfl

@[simp]
theorem fill_char : fill w (.char c :: p) = c :: fill w p := rfl

@[simp]
theorem fill_hole : fill w (.hole a :: p) = w a ++ fill w p := rfl

@[simp]
theorem fill_append : fill w (p ++ q) = fill w p ++ fill w q := List.flatMap_append

theorem fill_reverse : (fill w p).reverse = fill (fun a => (w a).reverse) p.reverse := by
  induction p with
  | nil => rfl
  | cons x p ih =>
    cases x with
    | char c => simp [ih]
    | hole a => simp [ih]

end Fill

variable {w : σ → List Char} {p : List (Piece σ)}

theorem Inert.reverse (hw : Inert w) : Inert fun a => (w a).reverse :=
  fun a => ⟨by simpa using (hw a).1, fun c hc => (hw a).2 c (List.mem_reverse.mp hc)⟩

theorem ne_of_isInert {c d : Char} (hc : isInert c = true) (hd : isInert d = false) : c ≠ d := by
  rintro rfl
  exact Bool.false_ne_true (hd.symm.trans hc)

theorem isWhitespace_of_isInert {c : Char} (h : isInert c = true) : isWhitespace c = false := by
  simp only [isInert, Bool.and_eq_true] at h
  simpa using h.1.1.1.1.1.1

theorem Inert.not_mem (hw : Inert w) {c : Char} (hc : isInert c = false) (a : σ) : c ∉ w a :=
  fun hm => Bool.false_ne_true (hc.symm.trans ((hw a).2 c hm))

theorem fill_isEmpty (hw : Inert w) (p : List (Piece σ)) : (fill w p).isEmpty = p.isEmpty := by
  cases p with
  | nil => rfl
  | cons x p =>
    cases x with
    | char c => rfl
    | hole a => simp [(hw a).1]

/-! ## Trimming -/

theorem fill_dropWhile (hw : Inert w) {q : Char → Bool} (hq : ∀ c, isInert c = true → q c = false)
    (p : List (Piece σ)) : (fill w p).dropWhile q = fill w (p.dropWhile (Piece.test q)) := by
  induction p with
  | nil => rfl
  | cons x p ih =>
    cases x with
    | char c =>
      rw [fill_char, List.dropWhile_cons, List.dropWhile_cons]
      by_cases hc : q c = true
      · rw [if_pos hc, if_pos (show Piece.test q (.char c) = true from hc), ih]
      · rw [if_neg hc, if_neg (show ¬Piece.test q (.char c) = true from hc), fill_char]
    | hole a =>
      rw [List.dropWhile_cons, if_neg (show ¬Piece.test q (.hole a) = true from nofun)]
      obtain ⟨hne, hin⟩ := hw a
      cases hv : w a with
      | nil => exact absurd hv hne
      | cons c v =>
        have hc : q c = false := hq c (hin c (by simp [hv]))
        rw [fill_hole, hv, List.cons_append, List.dropWhile_cons, if_neg (by simp [hc])]

theorem fill_takeWhile (hw : Inert w) {q : Char → Bool} (hq : ∀ c, isInert c = true → q c = false)
    (p : List (Piece σ)) : (fill w p).takeWhile (fun c => !q c) =
      fill w (p.takeWhile fun x => !x.test q) := by
  induction p with
  | nil => rfl
  | cons x p ih =>
    cases x with
    | char c =>
      rw [fill_char, List.takeWhile_cons, List.takeWhile_cons]
      change (if (!q c) = true then _ else _) = fill w (if (!q c) = true then _ else _)
      split
      · rw [ih, fill_char]
      · rfl
    | hole a =>
      rw [List.takeWhile_cons, if_pos (show (!Piece.test q (.hole a)) = true from rfl), fill_hole,
        fill_hole, List.takeWhile_append_of_pos fun c hc => by simp [hq c ((hw a).2 c hc)], ih]

/-- `trim` of a text with holes. -/
def trimPieces (p : List (Piece σ)) : List (Piece σ) :=
  ((p.dropWhile (Piece.test isWhitespace)).reverse.dropWhile (Piece.test isWhitespace)).reverse

theorem fill_trimEnd (hw : Inert w) (p : List (Piece σ)) : trimEnd (fill w p) =
    fill w (p.reverse.dropWhile (Piece.test isWhitespace)).reverse := by
  rw [trimEnd, fill_reverse, fill_dropWhile hw.reverse fun c => isWhitespace_of_isInert,
    fill_reverse]
  simp

theorem fill_trim (hw : Inert w) (p : List (Piece σ)) :
    trim (fill w p) = fill w (trimPieces p) := by
  rw [trim, trimStart, fill_dropWhile hw fun c => isWhitespace_of_isInert, fill_trimEnd hw]
  rfl

/-! ## Line ends -/

theorem stripSuffix_concat (s : List Char) (c d : Char) :
    stripSuffix [c] (s ++ [d]) = if d = c then some s else none := by
  by_cases hd : d = c
  · rw [if_pos hd, hd, stripSuffix_append]
  · rw [if_neg hd, Option.eq_none_iff_forall_ne_some]
    intro stem hs
    exact hd (by simpa using (List.append_inj' (stripSuffix_eq_some.mp hs) rfl).2)

theorem exists_stripSuffix {c : Char} (hc : isInert c = false) (p : List (Piece σ)) :
    ∃ r : Option (List (Piece σ)), (∀ q ∈ r, q ⊆ p) ∧
      ∀ w, Inert w → stripSuffix [c] (fill w p) = r.map (fill w) := by
  rcases List.eq_nil_or_concat' p with rfl | ⟨p, x, rfl⟩
  · refine ⟨none, nofun, fun w _ => ?_⟩
    unfold stripSuffix
    exact if_neg (by simp)
  · cases x with
    | char d =>
      by_cases hd : d = c
      · refine ⟨some p, fun q hq => ?_, fun w _ => ?_⟩
        · obtain rfl := Option.mem_some.mp hq
          exact List.subset_append_left p [.char d]
        · rw [fill_append]
          exact (stripSuffix_concat (fill w p) c d).trans (if_pos hd)
      · refine ⟨none, nofun, fun w _ => ?_⟩
        rw [fill_append]
        exact (stripSuffix_concat (fill w p) c d).trans (if_neg hd)
    | hole a =>
      refine ⟨none, nofun, fun w hw => ?_⟩
      obtain ⟨v, d, hv⟩ := (List.eq_nil_or_concat' (w a)).resolve_left (hw a).1
      have hd : d ≠ c := ne_of_isInert ((hw a).2 d (by simp [hv])) hc
      have htext : fill w (p ++ [.hole a]) = (fill w p ++ v) ++ [d] := by simp [hv]
      rw [htext, stripSuffix_concat, if_neg hd, Option.map_none]

theorem exists_lineText (p : List (Piece σ)) :
    ∃ q ⊆ p, ∀ w, Inert w → lineText (fill w p) = fill w q := by
  obtain ⟨r, hr, hfill⟩ := exists_stripSuffix (c := '\r') (by decide) p
  cases r with
  | none =>
    refine ⟨p, fun _ => id, fun w hw => ?_⟩
    rw [lineText, hfill w hw]
    rfl
  | some q =>
    refine ⟨q, hr q rfl, fun w hw => ?_⟩
    rw [lineText, hfill w hw]
    rfl

theorem exists_stripLineEnd (p : List (Piece σ)) :
    ∃ q ⊆ p, ∀ w, Inert w → stripLineEnd (fill w p) = fill w q := by
  obtain ⟨r, hr, hfill⟩ := exists_stripSuffix (c := '\n') (by decide) p
  cases r with
  | none =>
    refine ⟨p, fun _ => id, fun w hw => ?_⟩
    rw [stripLineEnd, hfill w hw]
    rfl
  | some q =>
    obtain ⟨q', hq', hfill'⟩ := exists_lineText q
    refine ⟨q', fun _ hx => hr q rfl (hq' hx), fun w hw => ?_⟩
    rw [stripLineEnd, hfill w hw]
    exact hfill' w hw

/-! ## Lines -/

theorem exists_splitInclusive (p : List (Piece σ)) : ∃ L : List (List (Piece σ)),
    (∀ l ∈ L, l ⊆ p) ∧ ∀ w, Inert w → splitInclusive (fill w p) = L.map (fill w) := by
  induction p with
  | nil => exact ⟨[], nofun, fun w _ => rfl⟩
  | cons x p ih =>
    obtain ⟨L, hsub, hfill⟩ := ih
    have hcons (l : List (Piece σ)) (hl : l ∈ L) : l ⊆ x :: p :=
      fun y hy => List.mem_cons_of_mem x (hsub l hl hy)
    by_cases hx : x = .char '\n'
    · subst hx
      refine ⟨[.char '\n'] :: L, ?_, fun w hw => ?_⟩
      · intro l hl
        rcases List.mem_cons.mp hl with rfl | hl
        · simp
        · exact hcons l hl
      · rw [fill_char, splitInclusive, if_pos rfl, hfill w hw]
        rfl
    · -- the part goes to the first of the lines that follow, if there is one
      have hword (w : σ → List Char) (hw : Inert w) :
          x.text w ≠ [] ∧ '\n' ∉ x.text w := by
        cases x with
        | char c => exact ⟨List.cons_ne_nil c [], fun h => hx (by rw [List.mem_singleton.mp h])⟩
        | hole a => exact ⟨(hw a).1, hw.not_mem (by decide) a⟩
      cases L with
      | nil =>
        refine ⟨[[x]], by simp, fun w hw => ?_⟩
        change splitInclusive (x.text w ++ fill w p) = _
        rw [splitInclusive_append_of_not_mem (hword w hw).1 (hword w hw).2, hfill w hw]
        simp [fill, joinFirst]
      | cons l ls =>
        refine ⟨(x :: l) :: ls, ?_, fun w hw => ?_⟩
        · intro l' hl
          rcases List.mem_cons.mp hl with rfl | hl
          · exact List.cons_subset_cons x (hsub l List.mem_cons_self)
          · exact hcons l' (List.mem_cons_of_mem l hl)
        · change splitInclusive (x.text w ++ fill w p) = _
          rw [splitInclusive_append_of_not_mem (hword w hw).1 (hword w hw).2, hfill w hw]
          rfl

/-- The lines of a text with holes. -/
theorem exists_lines (p : List (Piece σ)) : ∃ L : List (List (Piece σ)),
    (∀ l ∈ L, l ⊆ p) ∧ ∀ w, Inert w → lines (fill w p) = L.map (fill w) := by
  obtain ⟨L, hsub, hfill⟩ := exists_splitInclusive p
  choose strip hstrip hline using exists_stripLineEnd (σ := σ)
  refine ⟨L.map strip, ?_, fun w hw => ?_⟩
  · intro l hl
    obtain ⟨l', hl', rfl⟩ := List.mem_map.mp hl
    exact fun x hx => hsub l' hl' (hstrip l' hx)
  · rw [lines, hfill w hw, List.map_map, List.map_map]
    exact List.map_congr_left fun l _ => hline l w hw

end Rinit
