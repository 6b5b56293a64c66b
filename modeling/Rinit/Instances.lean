import Rinit.NameLaws
import Rinit.Templates

/-!
# Instances of a template

A template is expanded by filling its specifiers with the words of an instance
(`substituteChars_eq`), and the words of a unit name are inert for the parser. `expansions_alike` :
if the specifiers stand in values, all instances of a template have the same statements, with the
same headers and keys, and their values the same tokens, but for the text of the tokens with a
specifier.

The statements are those of the text of the template. They are the statements of its expansions too,
unless the template has no prefix : then `%p` is empty, and what was around it comes together
(`not_expansions_alike_bare`).
-/

namespace Rinit

/-! ## Specifiers -/

/-- What a `%` of a template stands for. -/
inductive Specifier where
  | inst
  | name
  | pre
  | percent
deriving DecidableEq, Repr

/-- A specifier as it is written. -/
def Specifier.written : Specifier → List Char
  | inst => ['%', 'i']
  | name => ['%', 'n']
  | pre => ['%', 'p']
  | percent => ['%', '%']

/-- What the specifiers expand to. -/
def Specifier.word (inst full pre : List Char) : Specifier → List Char
  | .inst => inst
  | .name => full
  | .pre => pre
  | .percent => ['%']

/-- The text of a template with its specifiers as holes. -/
def pieces : List Char → Option (List (Piece Specifier))
  | [] => some []
  | '%' :: 'i' :: s => (pieces s).map (.hole .inst :: ·)
  | '%' :: 'n' :: s => (pieces s).map (.hole .name :: ·)
  | '%' :: 'p' :: s => (pieces s).map (.hole .pre :: ·)
  | '%' :: '%' :: s => (pieces s).map (.hole .percent :: ·)
  | '%' :: _ => none
  | c :: s => (pieces s).map (.char c :: ·)

/-- Whether a specifier other than `%%` is in the text. -/
def hasSpecifier : List Char → Bool
  | [] => false
  | '%' :: '%' :: s => hasSpecifier s
  | '%' :: _ => true
  | _ :: s => hasSpecifier s

/-- The text without its `%p`. -/
def withoutPrefix : List Char → List Char
  | [] => []
  | '%' :: 'p' :: s => withoutPrefix s
  | '%' :: c :: s => '%' :: c :: withoutPrefix s
  | c :: s => c :: withoutPrefix s

section Specifiers

variable {inst full pre s : List Char} {p : List (Piece Specifier)}

theorem substituteChars_char {c : Char} (hc : c ≠ '%') : substituteChars inst full pre (c :: s) =
    (substituteChars inst full pre s).map (c :: ·) := by
  rw [substituteChars] <;> simp [hc]

theorem withoutPrefix_char {c : Char} (hc : c ≠ '%') :
    withoutPrefix (c :: s) = c :: withoutPrefix s := by
  rw [withoutPrefix] <;> simp [hc]

theorem hasSpecifier_char {c : Char} (hc : c ≠ '%') :
    hasSpecifier (c :: s) = hasSpecifier s := by
  rw [hasSpecifier] <;> simp [hc]

/-- A template is expanded by filling its holes. -/
theorem substituteChars_eq (inst full pre s : List Char) : substituteChars inst full pre s =
    (pieces s).map (fill (Specifier.word inst full pre)) := by
  fun_induction pieces s with
  | case1 => rfl
  | case2 s ih | case3 s ih | case4 s ih | case5 s ih =>
    rw [substituteChars, ih, Option.map_map, Option.map_map]
    rfl
  | case6 => rw [substituteChars] <;> first | rfl | assumption
  | case7 c s _ _ _ _ hc ih =>
    rw [substituteChars_char hc, ih, Option.map_map, Option.map_map]
    rfl

theorem fill_written (h : pieces s = some p) :
    fill Specifier.written p = s ∧ ∀ c, Piece.char c ∈ p → c ≠ '%' := by
  fun_induction pieces s generalizing p with
  | case1 =>
    obtain rfl := Option.some.inj h
    exact ⟨rfl, nofun⟩
  | case2 s ih | case3 s ih | case4 s ih | case5 s ih =>
    obtain ⟨q, hq, rfl⟩ := Option.map_eq_some_iff.mp h
    obtain ⟨hfill, hchar⟩ := ih hq
    refine ⟨by rw [fill_hole, hfill]; rfl, fun c hc => hchar c ?_⟩
    simpa using hc
  | case6 => cases h
  | case7 c s _ _ _ _ hc ih =>
    obtain ⟨q, hq, rfl⟩ := Option.map_eq_some_iff.mp h
    obtain ⟨hfill, hchar⟩ := ih hq
    refine ⟨by rw [fill_char, hfill], fun d hd => ?_⟩
    rcases List.mem_cons.mp hd with he | hd
    · exact (Piece.char.inj he) ▸ hc
    · exact hchar d hd

/-- The holes that are not for `%p`. -/
def keepsPrefix : Piece Specifier → Bool
  | .hole .pre => false
  | _ => true

theorem fill_withoutPrefix (h : pieces s = some p) :
    fill Specifier.written (p.filter keepsPrefix) = withoutPrefix s := by
  fun_induction pieces s generalizing p with
  | case1 =>
    obtain rfl := Option.some.inj h
    rfl
  | case2 s ih | case3 s ih | case4 s ih | case5 s ih =>
    obtain ⟨q, hq, rfl⟩ := Option.map_eq_some_iff.mp h
    rw [withoutPrefix, ← ih hq]
    · rfl
    all_goals simp
  | case6 => cases h
  | case7 c s _ _ _ _ hc ih =>
    obtain ⟨q, hq, rfl⟩ := Option.map_eq_some_iff.mp h
    rw [withoutPrefix_char hc, ← ih hq]
    rfl

/-- A written text without specifiers has holes for `%%` only. -/
theorem eq_percent_of_hasSpecifier (hp : ∀ c, Piece.char c ∈ p → c ≠ '%')
    (h : hasSpecifier (fill Specifier.written p) = false) {a : Specifier} (ha : .hole a ∈ p) :
    a = .percent := by
  induction p with
  | nil => cases ha
  | cons x p ih =>
    have hp' (c : Char) (hc : Piece.char c ∈ p) := hp c (List.mem_cons_of_mem x hc)
    cases x with
    | char c =>
      rw [fill_char, hasSpecifier_char (hp c List.mem_cons_self)] at h
      exact ih hp' h (by simpa using ha)
    | hole b =>
      cases b with
      | percent =>
        rcases List.mem_cons.mp ha with he | ha
        · exact Piece.hole.inj he
        · exact ih hp' h ha
      | inst | name | pre => cases h

end Specifiers

/-! ## Names -/

namespace UnitName

variable {u t : UnitName}

theorem stemPrefix_subset (u : UnitName) : u.stemPrefix ⊆ u.canonical.toList := by
  intro c hc
  rw [stem_eq]
  refine List.mem_append_left _ ?_
  unfold stemPrefix at hc
  cases hs : splitOnce '@' u.stem with
  | none => simpa [hs] using hc
  | some q =>
    rw [hs] at hc
    rw [eq_append_of_splitOnce hs]
    exact List.mem_append_left _ hc

/-- An instance has the prefix of its template, and a name of its own behind the `@`. -/
theorem instance_of_template (h : u.template = some t) :
    u.stemPrefix = t.stemPrefix ∧ ∃ inst, u.instanceName = some inst ∧ inst ≠ [] ∧
      ∀ c ∈ inst, c ∈ u.canonical.toList := by
  cases hname : u.instanceName with
  | none =>
    rw [template_eq_none hname] at h
    cases h
  | some inst =>
    obtain ⟨⟨t', ht', -, hpre, -⟩, hcanonical⟩ := template_of_instance hname
    obtain rfl : t = t' := Option.some.inj (h.symm.trans ht')
    refine ⟨hpre.symm, inst, rfl, (instanceName_eq_some_iff.mp hname).1, fun c hc => ?_⟩
    rw [hcanonical]
    exact List.mem_append_left _ (List.mem_append_right _ hc)

end UnitName

/-! ## Expansions -/

/-- The specifiers that each instance has its own words for. -/
inductive Varying where
  | inst
  | name
deriving DecidableEq, Repr

/-- The words of an instance. -/
def Varying.word (u : UnitName) : Varying → List Char
  | inst => u.instanceName.getD []
  | name => u.canonical.toList

/-- A part of a template once its prefix is known. -/
def resolve (pre : List Char) : Piece Specifier → List (Piece Varying)
  | .char c => [.char c]
  | .hole .inst => [.hole .inst]
  | .hole .name => [.hole .name]
  | .hole .pre => pre.map .char
  | .hole .percent => [.char '%']

/-- The specifiers stand to the right of the first `=` of their statement. -/
def SpecifiersInValues (text : List Char) : Prop :=
  ∀ l ∈ logicalLines text, hasSpecifier (l.2.takeWhile fun c => !(c == '=')) = false

instance decidableSpecifiersInValues (text : List Char) : Decidable (SpecifiersInValues text) :=
  inferInstanceAs (Decidable (∀ l ∈ logicalLines text,
    hasSpecifier (l.2.takeWhile fun c => !(c == '=')) = false))

/-- The text whose statements count : in a template without a prefix, `%p` stands for nothing. -/
def UnitName.statementText (t : UnitName) (text : List Char) : List Char :=
  if t.stemPrefix = [] then withoutPrefix text else text

theorem isInert_of_isUnitNameChar {c : Char} (h : isUnitNameChar c = true) : isInert c = true := by
  have hne (d : Char) (hd : isUnitNameChar d = false) : c ≠ d := by
    rintro rfl
    exact Bool.false_ne_true (hd.symm.trans h)
  have hblank : isWhitespace c = false := UnitName.isWhitespace_of_isUnitNameChar h
  simp only [isInert, hblank, Bool.not_false, Bool.true_and, Bool.and_eq_true, bne_iff_ne]
  exact ⟨⟨⟨⟨⟨hne _ (by decide), hne _ (by decide)⟩, hne _ (by decide)⟩, hne _ (by decide)⟩,
    hne _ (by decide)⟩, hne _ (by decide)⟩

theorem inert_word {inst full pre : List Char} (hi : inst ≠ []) (hi' : inst.all isUnitNameChar)
    (hf : full ≠ []) (hf' : full.all isUnitNameChar) (hp : pre ≠ [])
    (hp' : pre.all isUnitNameChar) : Inert (Specifier.word inst full pre) := by
  have hinert {l : List Char} (h : l.all isUnitNameChar) : ∀ c ∈ l, isInert c = true :=
    fun c hc => isInert_of_isUnitNameChar (List.all_eq_true.mp h c hc)
  intro a
  cases a with
  | inst => exact ⟨hi, hinert hi'⟩
  | name => exact ⟨hf, hinert hf'⟩
  | pre => exact ⟨hp, hinert hp'⟩
  | percent => exact ⟨List.cons_ne_nil _ _, List.all_eq_true.mp (show ['%'].all isInert = true by decide)⟩

theorem inert_written : Inert Specifier.written := by
  intro a
  cases a <;> exact ⟨by decide, List.all_eq_true.mp (by decide)⟩

theorem fill_resolve {inst full : List Char} {u : UnitName} (hi : u.instanceName = some inst)
    (hf : u.canonical.toList = full) (pre : List Char) (p : List (Piece Specifier)) :
    fill (Varying.word u) (p.flatMap (resolve pre)) = fill (Specifier.word inst full pre) p := by
  have hpre (l : List Char) : fill (Varying.word u) (l.map .char) = l := by
    induction l with
    | nil => rfl
    | cons c l ih => rw [List.map_cons, fill_char, ih]
  induction p with
  | nil => rfl
  | cons x p ih =>
    rw [List.flatMap_cons, fill_append, ih]
    cases x with
    | char c => rfl
    | hole a =>
      cases a with
      | inst => simp [resolve, Varying.word, Specifier.word, hi]
      | name => simp [resolve, Varying.word, Specifier.word, hf]
      | pre => rw [resolve, hpre, fill_hole, Specifier.word]
      | percent => rfl

/-- Without a prefix, the holes for it may be left out. -/
theorem fill_keepsPrefix (inst full pre : List Char) (p : List (Piece Specifier)) :
    fill (Specifier.word inst full []) p =
      fill (Specifier.word inst full pre) (p.filter keepsPrefix) := by
  induction p with
  | nil => rfl
  | cons x p ih =>
    cases x with
    | char c => rw [List.filter_cons_of_pos rfl, fill_char, fill_char, ih]
    | hole a =>
      cases a with
      | pre =>
        rw [List.filter_cons_of_neg (by decide), ← ih]
        rfl
      | inst | name | percent => rw [List.filter_cons_of_pos rfl, fill_hole, fill_hole, ih]; rfl

theorem beforeEq_flatMap_resolve {pre : List Char} (hpre : pre.all isUnitNameChar)
    (p : List (Piece Specifier)) :
    beforeEq (p.flatMap (resolve pre)) = (beforeEq p).flatMap (resolve pre) := by
  have hpass {x : Piece Specifier} (hx : x ≠ .char '=') :
      ∀ y ∈ resolve pre x, (!Piece.test (· == '=') y) = true := by
    intro y hy
    cases x with
    | char c =>
      have hc : c ≠ '=' := fun he => hx (congrArg Piece.char he)
      rw [List.mem_singleton.mp hy]
      simp [Piece.test, hc]
    | hole a =>
      cases a with
      | pre =>
        obtain ⟨c, hc, rfl⟩ := List.mem_map.mp hy
        have hne : c ≠ '=' := ne_of_isInert
          (isInert_of_isUnitNameChar (List.all_eq_true.mp hpre c hc)) (by decide)
        simp [Piece.test, hne]
      | inst | name | percent =>
        rw [List.mem_singleton.mp hy]
        rfl
  induction p with
  | nil => rfl
  | cons x p ih =>
    unfold beforeEq at ih ⊢
    by_cases hx : x = .char '='
    · subst hx
      rfl
    · rw [List.flatMap_cons, List.takeWhile_append_of_pos (hpass hx), ih, List.takeWhile_cons,
        if_pos, List.flatMap_cons]
      cases x with
      | hole => rfl
      | char c =>
        have hc : c ≠ '=' := fun he => hx (congrArg Piece.char he)
        simp [Piece.test, hc]

/-- The holes of a statement are behind its `=` when its specifiers are. -/
theorem beforeEq_resolve {pre : List Char} (hpre : pre.all isUnitNameChar)
    {p : List (Piece Specifier)} (hp : ∀ c, Piece.char c ∈ p → c ≠ '%')
    (h : hasSpecifier ((fill Specifier.written p).takeWhile fun c => !(c == '=')) = false)
    (a : Varying) : .hole a ∉ beforeEq (p.flatMap (resolve pre)) := by
  have hinert (c : Char) (hc : isInert c = true) : (c == '=') = false :=
    beq_false_of_ne (ne_of_isInert hc (by decide))
  rw [fill_takeWhile inert_written hinert] at h
  change hasSpecifier (fill Specifier.written (beforeEq p)) = false at h
  rw [beforeEq_flatMap_resolve hpre]
  intro ha
  obtain ⟨x, hx, ha⟩ := List.mem_flatMap.mp ha
  have hp' (c : Char) (hc : Piece.char c ∈ beforeEq p) : c ≠ '%' :=
    hp c ((List.takeWhile_sublist _).subset hc)
  cases x with
  | char c => cases List.mem_singleton.mp ha
  | hole b =>
    obtain rfl := eq_percent_of_hasSpecifier hp' h hx
    cases List.mem_singleton.mp ha

/-- The text of a template once its prefix is known : the pieces, and the prefix to fill in for the
ones that are left. -/
theorem exists_pieces {t : UnitName} {text : List Char} {p : List (Piece Specifier)}
    (h : pieces text = some p) : ∃ q pre, pre ≠ [] ∧ pre.all isUnitNameChar ∧
      fill Specifier.written q = t.statementText text ∧ (∀ c, Piece.char c ∈ q → c ≠ '%') ∧
      ∀ inst full, fill (Specifier.word inst full t.stemPrefix) p =
        fill (Specifier.word inst full pre) q := by
  obtain ⟨hfill, hchar⟩ := fill_written h
  unfold UnitName.statementText
  by_cases hpre : t.stemPrefix = []
  · refine ⟨p.filter keepsPrefix, ['p'], by simp, by decide, ?_, fun c hc => ?_,
      fun inst full => ?_⟩
    · rw [if_pos hpre, fill_withoutPrefix h]
    · exact hchar c (List.mem_filter.mp hc).1
    · rw [hpre, fill_keepsPrefix inst full ['p']]
  · refine ⟨p, t.stemPrefix, hpre, ?_, ?_, hchar, fun _ _ => rfl⟩
    · exact List.all_eq_true.mpr fun c hc =>
        t.isUnitNameChar_canonical.2 c (t.stemPrefix_subset hc)
    · rw [if_neg hpre, hfill]

/-- The expansions of a template for its instances have the same statements, with the same section
headers and keys, and their values have the same tokens, or none for the same reason : the name of
the instance makes a difference to the text of tokens with `%i` or `%n` in them, and to nothing
else. -/
theorem expansions_alike {t : UnitName} {text : String}
    (h : SpecifiersInValues (t.statementText text.toList)) :
    (∀ u, u.template = some t → substitute text u = none) ∨
    ∃ shapes : List (Shape Varying), ∀ u, u.template = some t → ∃ expanded,
      substitute text u = some expanded ∧
      List.Forall₂ (fun shape l => shape.Shows (Varying.word u) l) shapes
        (logicalLines expanded.toList) := by
  cases hp : pieces text.toList with
  | none =>
    refine .inl fun u hu => ?_
    obtain ⟨-, inst, hinst, -⟩ := UnitName.instance_of_template hu
    rw [substitute, hinst, Option.bind_some, substituteChars_eq, hp]
    rfl
  | some p =>
    obtain ⟨q, pre, hpre, hpre', hwritten, hchar, hfill⟩ := exists_pieces (t := t) hp
    obtain ⟨S, hS, hlines⟩ := exists_logicalLines q
    have hvalues (s : ℕ × List (Piece Specifier)) (hs : s ∈ S) (a : Varying) :
        .hole a ∉ beforeEq (s.2.flatMap (resolve pre)) := by
      refine beforeEq_resolve hpre' (fun c hc => ?_) ?_ a
      · rcases hS s hs _ hc with he | hc
        · rw [Piece.char.inj he]
          decide
        · exact hchar c hc
      · refine h (s.1, fill Specifier.written s.2) ?_
        rw [← hwritten, hlines _ inert_written]
        exact List.mem_map_of_mem hs
    obtain ⟨shapes, hshapes⟩ := exists_shapes
      (S := S.map fun s => (s.1, s.2.flatMap (resolve pre))) (by
        intro s hs
        obtain ⟨s', hs', rfl⟩ := List.mem_map.mp hs
        exact hvalues s' hs')
    refine .inr ⟨shapes, fun u hu => ?_⟩
    obtain ⟨hstem, inst, hinst, hne, hsub⟩ := UnitName.instance_of_template hu
    obtain ⟨hname, hname'⟩ := u.isUnitNameChar_canonical
    have hinst' : inst.all isUnitNameChar :=
      List.all_eq_true.mpr fun c hc => hname' c (hsub c hc)
    have hinert : Inert (Specifier.word inst u.canonical.toList pre) :=
      inert_word hne hinst' hname (List.all_eq_true.mpr hname') hpre hpre'
    refine ⟨String.ofList (fill (Specifier.word inst u.canonical.toList pre) q), ?_, ?_⟩
    · rw [substitute, hinst, Option.bind_some, substituteChars_eq, hp, hstem, ← hfill]
      rfl
    · rw [String.toList_ofList, hlines _ hinert]
      have hshown := hshapes (Varying.word u) ?_
      · rw [List.map_map] at hshown
        convert hshown using 2
        exact funext fun s => Prod.ext rfl (fill_resolve hinst rfl pre s.2).symm
      · intro a
        cases a with
        | inst =>
          rw [Varying.word, hinst]
          exact hinert .inst
        | name => exact hinert .name

/-- A template with a specifier behind a backslash, and two names of which the second begins like an
escape. -/
def echoTemplate : String := "[Service]\nExecStart=/bin/echo \\%i \"of %n\" # %p\n"

theorem expansions_alike_echo : SpecifiersInValues (templateT.statementText echoTemplate.toList) ∧
    ((∀ u, u.template = some templateT → substitute echoTemplate u = none) ∨
    ∃ shapes : List (Shape Varying), ∀ u, u.template = some templateT → ∃ expanded,
      substitute echoTemplate u = some expanded ∧
      List.Forall₂ (fun shape l => shape.Shows (Varying.word u) l) shapes
        (logicalLines expanded.toList)) := by
  have hvalues : SpecifiersInValues (templateT.statementText echoTemplate.toList) := by
    decide +kernel
  exact ⟨hvalues, expansions_alike hvalues⟩

/-! ### A template without a prefix -/

/-- A template whose name begins with the `@`, and two instances of it. -/
def bareTemplate : UnitName := ⟨"@.service", .service, by decide⟩

def bareB : UnitName := ⟨"@b.service", .service, by decide⟩

def bareC : UnitName := ⟨"@c.service", .service, by decide⟩

/-- In this text the `%p` stands between a backslash and a quote, which opens. -/
def escapedPrefix : String := "Key=\\%p\" # \\\n%i=x\n"

/-- The keys of the statements of an expansion. -/
def expandedKeys (text : String) (u : UnitName) : Option (List (Option String)) :=
  (substitute text u).map fun expanded => (logicalLines expanded.toList).map fun l =>
    (splitEntry (trim l.2)).map fun entry => String.ofList entry.1

/-- Without a prefix the backslash is for the quote, the comment begins and the second line is an
entry of its own : its key is the instance. -/
theorem not_expansions_alike_bare :
    SpecifiersInValues escapedPrefix.toList ∧
    bareB.template = some bareTemplate ∧ bareC.template = some bareTemplate ∧
    expandedKeys escapedPrefix bareB = some [some "Key", some "b"] ∧
    expandedKeys escapedPrefix bareC = some [some "Key", some "c"] := by
  decide +kernel

end Rinit
