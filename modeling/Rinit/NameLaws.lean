import Rinit.Lines
import Rinit.Name

/-!
# What a unit name says

A name is its stem and the suffix of its type (`stem_eq`), and the first `@` of the stem, if there
is one, cuts it into a prefix and an instance. A template is a name whose instance is empty. The
template of an instance is parsed again from its text, and that never fails : the text is a name
that is no longer, with the same suffix (`exists_template`).

`unit_name_laws` : what is parsed fits the wire, is parsed to itself again and is of one of three
kinds, and an instance is told by its template and the word behind the `@` (`NameLaws`,
`eq_of_template_eq`).
-/

namespace Rinit

namespace UnitName

variable {u t : UnitName}

theorem stem_eq (u : UnitName) : u.canonical.toList = u.stem ++ u.ty.suffix := by
  have hwf := u.wf
  simp only [isCanonical, Bool.and_eq_true] at hwf
  obtain ⟨stem, hstem, -⟩ := (Option.any_eq_true _ _).mp hwf.1.2
  rw [UnitName.stem, hstem]
  exact eq_append_of_stripSuffix hstem

/-- The text of a name says its type and its stem. -/
theorem ty_stem_of_canonical {stem : List Char} {ty : UnitType}
    (h : t.canonical.toList = stem ++ ty.suffix) : t.ty = ty ∧ t.stem = stem := by
  have hlast := t.getLast?_canonical
  rw [h, List.getLast?_append, getLast?_suffix] at hlast
  have hty : t.ty = ty := by cases ht : t.ty <;> cases ty <;> simp [ht] at hlast ⊢
  refine ⟨hty, ?_⟩
  rw [stem_eq, hty] at h
  exact List.append_cancel_right h

theorem stemPrefix_of_splitOnce {pre inst : List Char}
    (h : splitOnce '@' u.stem = some (pre, inst)) : u.stemPrefix = pre := by
  rw [stemPrefix, h]
  rfl

theorem instanceName_of_splitOnce {pre inst : List Char}
    (h : splitOnce '@' u.stem = some (pre, inst)) :
    u.instanceName = if inst.isEmpty then none else some inst := by
  rw [instanceName, h]
  rfl

/-- An instance is a name with an `@` and something behind it. -/
theorem instanceName_eq_some_iff {inst : List Char} : u.instanceName = some inst ↔
    inst ≠ [] ∧ splitOnce '@' u.stem = some (u.stemPrefix, inst) := by
  cases hsplit : splitOnce '@' u.stem with
  | none => simp [instanceName, hsplit]
  | some q =>
    obtain ⟨pre, inst'⟩ := q
    rw [instanceName_of_splitOnce hsplit, stemPrefix_of_splitOnce hsplit]
    cases inst' with
    | nil => simp [eq_comm]
    | cons c inst' =>
      simp only [List.isEmpty_cons, Bool.false_eq_true, if_false, Option.some.injEq,
        Prod.mk.injEq, true_and]
      exact ⟨fun h => ⟨h ▸ List.cons_ne_nil c inst', h⟩, And.right⟩

theorem utf8Len_canonical_le (u : UnitName) : utf8Len u.canonical.toList ≤ maxUnitNameBytes := by
  have hwf := u.wf
  simp only [isCanonical, Bool.and_eq_true, decide_eq_true_eq] at hwf
  exact hwf.2

/-- The template of an instance has its type, its prefix and nothing behind the `@`. -/
theorem exists_template {pre inst : List Char} (hsplit : splitOnce '@' u.stem = some (pre, inst))
    (hinst : inst ≠ []) :
    ∃ t, u.template = some t ∧ t.ty = u.ty ∧ splitOnce '@' t.stem = some (pre, []) := by
  have htext : u.canonical.toList = pre ++ ['@'] ++ inst ++ u.ty.suffix := by
    rw [stem_eq, eq_append_of_splitOnce hsplit]
    simp
  have hvalid : isValidUnitName (pre ++ ['@'] ++ u.ty.suffix) = true := by
    have hchars := u.isUnitNameChar_canonical.2
    rw [htext] at hchars
    rw [isValidUnitName, Bool.and_eq_true, List.all_eq_true]
    refine ⟨by simp, fun c hc => hchars c ?_⟩
    rcases List.mem_append.mp hc with hc | hc
    · exact List.mem_append_left _ (List.mem_append_left _ hc)
    · exact List.mem_append_right _ hc
  have hlen : utf8Len (pre ++ ['@'] ++ u.ty.suffix) ≤ maxUnitNameBytes := by
    have hle := u.utf8Len_canonical_le
    rw [htext, utf8Len_append, utf8Len_append (pre ++ ['@'])] at hle
    rw [utf8Len_append]
    omega
  have hwf : isCanonical (String.ofList (pre ++ ['@'] ++ u.ty.suffix)).toList u.ty = true := by
    rw [String.toList_ofList, isCanonical, hvalid, stripSuffix_append, decide_eq_true hlen]
    simp
  let t : UnitName := ⟨String.ofList (pre ++ ['@'] ++ u.ty.suffix), u.ty, hwf⟩
  have hcanonical : t.canonical.toList = pre ++ ['@'] ++ u.ty.suffix := String.toList_ofList
  refine ⟨t, ?_, rfl, ?_⟩
  · rw [template, hsplit]
    dsimp only
    rw [if_neg (by simpa using hinst)]
    exact congrArg Except.toOption t.parse_canonical
  · rw [(ty_stem_of_canonical hcanonical).2]
    exact splitOnce_append (not_mem_of_splitOnce hsplit) []

theorem isTemplate_of_splitOnce {pre inst : List Char}
    (h : splitOnce '@' u.stem = some (pre, inst)) : u.isTemplate = inst.isEmpty := by
  have hmem : '@' ∈ u.stem := by
    rw [eq_append_of_splitOnce h]
    exact List.mem_append_right _ List.mem_cons_self
  rw [isTemplate, List.contains_iff_mem.mpr hmem, instanceName_of_splitOnce h]
  cases inst <;> rfl

/-- The first `@` of the stem decides of which kind a name is. -/
theorem kind_cases (u : UnitName) :
    '@' ∉ u.stem ∧ u.isTemplate = false ∧ u.instanceName = none ∨
      '@' ∈ u.stem ∧ u.isTemplate = true ∧ u.instanceName = none ∨
      '@' ∈ u.stem ∧ u.isTemplate = false ∧ u.instanceName ≠ none := by
  cases hsplit : splitOnce '@' u.stem with
  | none =>
    have hnot : '@' ∉ u.stem := not_mem_of_splitOnce_eq_none hsplit
    have hname : u.instanceName = none := by rw [instanceName, hsplit]; rfl
    refine .inl ⟨hnot, ?_, hname⟩
    rw [isTemplate, Bool.and_eq_false_iff, ← Bool.not_eq_true]
    exact .inl (mt List.contains_iff_mem.mp hnot)
  | some q =>
    obtain ⟨pre, inst⟩ := q
    have hmem : '@' ∈ u.stem := by
      rw [eq_append_of_splitOnce hsplit]
      exact List.mem_append_right _ List.mem_cons_self
    rw [isTemplate_of_splitOnce hsplit, instanceName_of_splitOnce hsplit]
    cases inst with
    | nil => exact .inr (.inl ⟨hmem, rfl, rfl⟩)
    | cons c inst => exact .inr (.inr ⟨hmem, rfl, Option.some_ne_none _⟩)

/-- The template of an instance, and the text of the instance. -/
theorem template_of_instance {inst : List Char} (h : u.instanceName = some inst) :
    (∃ t, u.template = some t ∧ t.isTemplate = true ∧ t.stemPrefix = u.stemPrefix ∧
      t.ty = u.ty) ∧ u.canonical.toList = u.stemPrefix ++ ['@'] ++ inst ++ u.ty.suffix := by
  obtain ⟨hinst, hsplit⟩ := instanceName_eq_some_iff.mp h
  obtain ⟨t, htemplate, hty, htsplit⟩ := exists_template hsplit hinst
  refine ⟨⟨t, htemplate, isTemplate_of_splitOnce htsplit, stemPrefix_of_splitOnce htsplit, hty⟩,
    ?_⟩
  rw [stem_eq, eq_append_of_splitOnce hsplit]
  simp

/-- What is no instance has no template. -/
theorem template_eq_none (h : u.instanceName = none) : u.template = none := by
  rw [template]
  cases hsplit : splitOnce '@' u.stem with
  | none => rfl
  | some q =>
    rw [instanceName_of_splitOnce hsplit] at h
    exact if_pos (by_contra fun hinst => Option.some_ne_none _ ((if_neg hinst).symm.trans h))

/-- Two instances of a template with the same word behind the `@` are one. -/
theorem eq_of_template_eq {v : UnitName} {inst : List Char} (hu : u.instanceName = some inst)
    (hv : v.instanceName = some inst) (h : u.template = v.template) : u = v := by
  obtain ⟨⟨t, ht, -, hpre, hty⟩, hcanonical⟩ := template_of_instance hu
  obtain ⟨⟨t', ht', -, hpre', hty'⟩, hcanonical'⟩ := template_of_instance hv
  obtain rfl : t = t' := Option.some.inj (ht.symm.trans (h.trans ht'))
  refine canonical_injective (String.toList_inj.mp ?_)
  rw [hcanonical, hcanonical', ← hpre, ← hpre', ← hty, ← hty']

end UnitName

/-- What holds of every name that `parse` makes. -/
structure NameLaws (n : UnitName) : Prop where
  length_le : utf8Len n.canonical.toList ≤ maxUnitNameBytes
  parse_canonical : UnitName.parse n.canonical = .ok n
  /-- It has no `@`, is a template or is an instance. -/
  kind : '@' ∉ n.stem ∧ n.isTemplate = false ∧ n.instanceName = none ∨
    '@' ∈ n.stem ∧ n.isTemplate = true ∧ n.instanceName = none ∨
    '@' ∈ n.stem ∧ n.isTemplate = false ∧ n.instanceName ≠ none
  template : ∀ inst, n.instanceName = some inst → ∃ t, n.template = some t ∧
    t.isTemplate = true ∧ t.stemPrefix = n.stemPrefix ∧ t.ty = n.ty
  canonical_eq : ∀ inst, n.instanceName = some inst →
    n.canonical.toList = n.stemPrefix ++ ['@'] ++ inst ++ n.ty.suffix

/-- The laws of the names that texts are parsed to, and of any two instances among them. -/
theorem unit_name_laws : ∀ s n, UnitName.parse s = .ok n → NameLaws n ∧
    ∀ s' n' inst, UnitName.parse s' = .ok n' → n.instanceName = some inst →
      n'.instanceName = some inst → n.template = n'.template → n = n' :=
  fun _ n _ => ⟨⟨n.utf8Len_canonical_le, n.parse_canonical, n.kind_cases,
    fun _ h => (UnitName.template_of_instance h).1,
    fun _ h => (UnitName.template_of_instance h).2⟩,
    fun _ _ _ _ hn hn' htemplate => UnitName.eq_of_template_eq hn hn' htemplate⟩

theorem unit_name_laws_instance : UnitName.parse "t@1.service" = .ok instanceT ∧
    instanceT.instanceName = some ['1'] ∧ NameLaws instanceT :=
  ⟨UnitName.parse_canonical instanceT, by decide,
    (unit_name_laws "t@1.service" instanceT (UnitName.parse_canonical instanceT)).1⟩

end Rinit
