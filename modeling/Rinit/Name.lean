import Mathlib.Data.Prod.Lex
import Mathlib.Data.String.Basic
import Rinit.Text

/-!
# Unit names

A unit name is its canonical, always suffixed text and the type the suffix gives.
`UnitName.parse` is the only way the program makes one, so the structure carries what
`parse` checks (`isCanonical`) : the permitted characters, a stem before the suffix, at
most `maxUnitNameBytes` bytes. Names are ordered by text, then type, which is the order
every map and every schedule of the program iterates in.

A name with an `@` is a template (`worker@.service`) or an instance of one
(`worker@1.service`); `substitute` expands a template's text for an instance.
-/

namespace Rinit

/-- Errors of the platform-independent logic that a unit name can raise. -/
inductive CoreError where
  | invalidUnitName (name : String)
deriving DecidableEq, Repr

/-- The text an error is shown with. -/
def CoreError.display : CoreError → String
  | .invalidUnitName name => "invalid unit name: " ++ debugStr name.toList

inductive UnitType where
  | service
  | target
deriving DecidableEq, Repr

/-- The canonical file name suffix of a unit type. -/
def UnitType.suffix : UnitType → List Char
  | .service => ".service".toList
  | .target => ".target".toList

/-- The declaration order, `service` first. -/
def UnitType.toFin : UnitType → Fin 2
  | .service => 0
  | .target => 1

theorem UnitType.toFin_injective : Function.Injective UnitType.toFin := by
  intro a b h
  cases a <;> cases b <;> simp_all [UnitType.toFin]

/-- The characters of `[A-Za-z0-9:_.@-]`. -/
def isUnitNameChar (c : Char) : Bool :=
  c.isAlphanum || c == ':' || c == '_' || c == '.' || c == '@' || c == '-'

def isValidUnitName (name : List Char) : Bool :=
  !name.isEmpty && name.all isUnitNameChar

/-- The longest unit name the control protocol can carry. -/
def maxUnitNameBytes : ℕ := 255

/-- What `UnitName.parse` guarantees of a canonical name. -/
def isCanonical (name : List Char) (ty : UnitType) : Bool :=
  isValidUnitName name && (stripSuffix ty.suffix name).any (fun stem => !stem.isEmpty) &&
    decide (utf8Len name ≤ maxUnitNameBytes)

/-- A validated unit name with its resolved type. -/
structure UnitName where
  canonical : String
  ty : UnitType
  wf : isCanonical canonical.toList ty = true
deriving DecidableEq

namespace UnitName

theorem ext' {a b : UnitName} (h : a.canonical = b.canonical) (ht : a.ty = b.ty) : a = b := by
  cases a
  cases b
  simp_all

instance : LinearOrder UnitName :=
  LinearOrder.lift' (fun u => toLex (u.canonical, u.ty.toFin)) fun a b h => by
    simp only [toLex_inj, Prod.mk.injEq] at h
    exact ext' h.1 (UnitType.toFin_injective h.2)

instance : Std.TransCmp (compare : UnitName → UnitName → Ordering) := inferInstance

instance : Std.LawfulEqCmp (compare : UnitName → UnitName → Ordering) where
  eq_of_compare h := compare_eq_iff_eq.mp h

instance : Repr UnitName where
  reprPrec u _ := repr u.canonical

/-- The canonical text as a unit name, unless it is too long. -/
def ofCanonical (canonical : List Char) (ty : UnitType) (hv : isValidUnitName canonical = true)
    (hs : (stripSuffix ty.suffix canonical).any (fun stem => !stem.isEmpty) = true) :
    Except CoreError UnitName :=
  if h : utf8Len canonical ≤ maxUnitNameBytes then
    .ok ⟨String.ofList canonical, ty, by simp [isCanonical, hv, hs, h]⟩
  else .error (.invalidUnitName (String.ofList canonical))

theorem isValidUnitName_append_suffix {name : List Char} (ty : UnitType)
    (h : isValidUnitName name = true) : isValidUnitName (name ++ ty.suffix) = true := by
  have hs : ty.suffix.all isUnitNameChar = true := by cases ty <;> decide
  simp only [isValidUnitName, Bool.and_eq_true, List.all_append] at h ⊢
  refine ⟨?_, h.2, hs⟩
  cases name <;> simp_all

/-- Parse and validate a unit name. A name ending in `.service` or `.target` keeps that
suffix, any other name gets `.service`. -/
def parse (name : String) : Except CoreError UnitName :=
  let name := trim name.toList
  if hv : isValidUnitName name = true then
    match hs : stripSuffix UnitType.service.suffix name with
    | some stem =>
      if he : stem.isEmpty then .error (.invalidUnitName (String.ofList name))
      else ofCanonical name .service hv (by simpa [hs] using he)
    | none =>
      match ht : stripSuffix UnitType.target.suffix name with
      | some stem =>
        if he : stem.isEmpty then .error (.invalidUnitName (String.ofList name))
        else ofCanonical name .target hv (by simpa [ht] using he)
      | none =>
        ofCanonical (name ++ UnitType.service.suffix) .service
          (isValidUnitName_append_suffix .service hv) (by
            rw [stripSuffix_append]
            simp only [isValidUnitName, Bool.and_eq_true] at hv
            simpa using hv.1)
  else .error (.invalidUnitName (String.ofList name))

/-- The canonical name without its type suffix. -/
def stem (u : UnitName) : List Char :=
  (stripSuffix u.ty.suffix u.canonical.toList).getD u.canonical.toList

/-- The part after the first `@` of the stem, if it is not empty. -/
def instanceName (u : UnitName) : Option (List Char) :=
  (splitOnce '@' u.stem).bind fun p => if p.2.isEmpty then none else some p.2

/-- A name with an `@` and no instance. -/
def isTemplate (u : UnitName) : Bool :=
  u.stem.contains '@' && u.instanceName.isNone

/-- The template an instance came from : `worker@1.service` gives `worker@.service`. -/
def template (u : UnitName) : Option UnitName :=
  match splitOnce '@' u.stem with
  | none => none
  | some (pre, inst) =>
    if inst.isEmpty then none
    else (parse (String.ofList (pre ++ ['@'] ++ u.ty.suffix))).toOption

/-- The part before the `@`, or the whole stem. -/
def stemPrefix (u : UnitName) : List Char :=
  ((splitOnce '@' u.stem).map Prod.fst).getD u.stem

/-! ## The text of a name -/

theorem getLast?_suffix (ty : UnitType) :
    ty.suffix.getLast? = some (if ty = .service then 'e' else 't') := by
  cases ty <;> decide

theorem getLast?_canonical (u : UnitName) :
    u.canonical.toList.getLast? = some (if u.ty = .service then 'e' else 't') := by
  have hwf := u.wf
  simp only [isCanonical, Bool.and_eq_true] at hwf
  obtain ⟨stem, hstem, -⟩ := (Option.any_eq_true _ _).mp hwf.1.2
  rw [eq_append_of_stripSuffix hstem, List.getLast?_append, getLast?_suffix, Option.some_or]

/-- The text of a name says its type, so it says which unit it is. -/
theorem canonical_injective : Function.Injective canonical := by
  intro a b h
  have hlast := a.getLast?_canonical
  rw [h, b.getLast?_canonical] at hlast
  refine ext' h ?_
  cases ha : a.ty <;> cases hb : b.ty <;> simp [ha, hb] at hlast ⊢

theorem isUnitNameChar_canonical (u : UnitName) : u.canonical.toList ≠ [] ∧
    ∀ c ∈ u.canonical.toList, isUnitNameChar c = true := by
  have hwf := u.wf
  simp only [isCanonical, isValidUnitName, Bool.and_eq_true, List.all_eq_true] at hwf
  exact ⟨by simpa using hwf.1.1.1, hwf.1.1.2⟩

theorem isWhitespace_of_isUnitNameChar {c : Char} (h : isUnitNameChar c = true) :
    isWhitespace c = false := by
  have hc : 45 ≤ c.toNat ∧ c.toNat < 128 := by
    delta isUnitNameChar Char.isAlphanum Char.isAlpha Char.isUpper Char.isLower Char.isDigit at h
    simp only [Bool.or_eq_true, beq_iff_eq, Bool.and_eq_true, decide_eq_true_eq, ge_iff_le,
      UInt32.le_iff_toNat_le] at h
    have e : c.toNat = c.val.toNat := rfl
    rw [e]
    rcases h with ((((((h | h) | h) | rfl) | rfl) | rfl) | rfl) | rfl
    all_goals first | decide | (simp at h; omega)
  simp only [isWhitespace]
  grind

theorem ofCanonical_eq_ok {u : UnitName} {name : List Char} {ty : UnitType}
    (hn : u.canonical.toList = name) (h : u.ty = ty) (hv : isValidUnitName name = true)
    (hs : (stripSuffix ty.suffix name).any (fun stem => !stem.isEmpty) = true) :
    ofCanonical name ty hv hs = .ok u := by
  subst hn
  have hl := u.wf
  simp only [isCanonical, Bool.and_eq_true, decide_eq_true_eq] at hl
  rw [ofCanonical, dif_pos hl.2]
  exact congrArg Except.ok (ext' String.ofList_toList h.symm)

/-- A canonical name is parsed to itself, also with space around it. -/
theorem parse_of_trim {u : UnitName} {name : String}
    (htrim : trim name.toList = u.canonical.toList) : parse name = .ok u := by
  have hwf := u.wf
  simp only [isCanonical, Bool.and_eq_true] at hwf
  obtain ⟨⟨hv, hs⟩, -⟩ := hwf
  -- a name of one type does not end in the suffix of the other
  have hty : ∀ ty stem, stripSuffix ty.suffix (trim name.toList) = some stem →
      u.ty = ty ∧ stem.isEmpty = false := by
    intro ty stem hstem
    rw [htrim] at hstem
    have hlast := u.getLast?_canonical
    rw [eq_append_of_stripSuffix hstem, List.getLast?_append, getLast?_suffix] at hlast
    have hu : u.ty = ty := by cases ha : u.ty <;> cases ty <;> simp [ha] at hlast ⊢
    rw [hu, hstem] at hs
    exact ⟨hu, by simpa using hs⟩
  have hv' : isValidUnitName (trim name.toList) = true := by rw [htrim, hv]
  unfold parse
  dsimp only
  rw [dif_pos hv']
  split
  · next stem hstem =>
    obtain ⟨hu, he⟩ := hty .service stem hstem
    rw [dif_neg (by simp [he])]
    exact ofCanonical_eq_ok htrim.symm hu hv' _
  · next hservice =>
    split
    · next stem hstem =>
      obtain ⟨hu, he⟩ := hty .target stem hstem
      rw [dif_neg (by simp [he])]
      exact ofCanonical_eq_ok htrim.symm hu hv' _
    · next htarget =>
      -- the name ends in the suffix of its type
      rw [htrim] at hservice htarget
      cases hu : u.ty <;> simp [hu, hservice, htarget] at hs

theorem trim_canonical (u : UnitName) : trim u.canonical.toList = u.canonical.toList :=
  trim_eq_self fun _ hc => isWhitespace_of_isUnitNameChar (u.isUnitNameChar_canonical.2 _ hc)

theorem parse_canonical (u : UnitName) : parse u.canonical = .ok u := parse_of_trim u.trim_canonical

end UnitName

/-- Expand `%i`, `%n`, `%p` and `%%`; any other `%` is an error. -/
def substituteChars (inst full pre : List Char) : List Char → Option (List Char)
  | [] => some []
  | '%' :: 'i' :: s => (substituteChars inst full pre s).map (inst ++ ·)
  | '%' :: 'n' :: s => (substituteChars inst full pre s).map (full ++ ·)
  | '%' :: 'p' :: s => (substituteChars inst full pre s).map (pre ++ ·)
  | '%' :: '%' :: s => (substituteChars inst full pre s).map ('%' :: ·)
  | '%' :: _ => none
  | c :: s => (substituteChars inst full pre s).map (c :: ·)

/-- The template text `text` expanded for the instance `name`. -/
def substitute (text : String) (name : UnitName) : Option String :=
  name.instanceName.bind fun inst =>
    (substituteChars inst name.canonical.toList name.stemPrefix text.toList).map String.ofList

/-! ## Names for concrete runs -/

def serviceA : UnitName := ⟨"a.service", .service, by decide⟩

def serviceB : UnitName := ⟨"b.service", .service, by decide⟩

def serviceC : UnitName := ⟨"c.service", .service, by decide⟩

def instanceT : UnitName := ⟨"t@1.service", .service, by decide⟩

def templateT : UnitName := ⟨"t@.service", .service, by decide⟩

def targetD : UnitName := ⟨"d.target", .target, by decide⟩

end Rinit
