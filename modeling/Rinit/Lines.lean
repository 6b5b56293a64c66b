import Rinit.Text

/-!
# Splitting texts

What `splitInclusive` makes of a text : its pieces are the text again (`flatten_splitInclusive`),
none is empty, and only the last may lack its line feed. `splitOnce` cuts at the first of a
character, so what it returns in front does not have it (`not_mem_of_splitOnce`).
-/

namespace Rinit

theorem splitInclusive_ne_nil {s : List Char} (h : s ≠ []) : splitInclusive s ≠ [] := by
  cases s with
  | nil => exact absurd rfl h
  | cons c s =>
    rw [splitInclusive]
    split
    · simp
    · cases splitInclusive s <;> simp

/-- The pieces before and after a line feed. -/
theorem splitInclusive_append (a b : List Char) :
    splitInclusive (a ++ '\n' :: b) = splitInclusive (a ++ ['\n']) ++ splitInclusive b := by
  induction a with
  | nil => rfl
  | cons c a ih =>
    rw [List.cons_append, List.cons_append, splitInclusive, splitInclusive, ih]
    by_cases hc : c = '\n'
    · simp [hc]
    · have hne : splitInclusive (a ++ ['\n']) ≠ [] := splitInclusive_ne_nil (by simp)
      cases hs : splitInclusive (a ++ ['\n']) with
      | nil => exact absurd hs hne
      | cons l ls => simp [hc]

theorem splitInclusive_concat {a : List Char} (h : '\n' ∉ a) :
    splitInclusive (a ++ ['\n']) = [a ++ ['\n']] := by
  induction a with
  | nil => rfl
  | cons c a ih =>
    obtain ⟨hc, ha⟩ : c ≠ '\n' ∧ '\n' ∉ a := by simpa [eq_comm] using h
    rw [List.cons_append, splitInclusive, ih ha, if_neg hc]

theorem flatten_splitInclusive (s : List Char) : (splitInclusive s).flatten = s := by
  induction s with
  | nil => rfl
  | cons c s ih =>
    rw [splitInclusive]
    split
    · rw [List.flatten_cons, ih]
      rfl
    · cases hs : splitInclusive s with
      | nil =>
        rw [hs, List.flatten_nil] at ih
        rw [← ih]
        rfl
      | cons l ls =>
        rw [← ih, hs]
        rfl

theorem ne_nil_of_mem_splitInclusive {s l : List Char} (h : l ∈ splitInclusive s) : l ≠ [] := by
  induction s generalizing l with
  | nil => cases h
  | cons c s ih =>
    rw [splitInclusive] at h
    split at h
    · rcases List.mem_cons.mp h with rfl | h
      · exact List.cons_ne_nil _ _
      · exact ih h
    · cases hs : splitInclusive s with
      | nil =>
        rw [hs] at h
        rw [List.mem_singleton.mp h]
        exact List.cons_ne_nil _ _
      | cons l' ls =>
        rw [hs] at h ih
        rcases List.mem_cons.mp h with rfl | h
        · exact List.cons_ne_nil _ _
        · exact ih (List.mem_cons_of_mem _ h)

/-- The pieces of a text behind whole lines. -/
theorem splitInclusive_append_of_ends {a : List Char} (h : a = [] ∨ a.getLast? = some '\n')
    (b : List Char) : splitInclusive (a ++ b) = splitInclusive a ++ splitInclusive b := by
  rcases h with rfl | h
  · rfl
  · obtain ⟨front, rfl⟩ := List.getLast?_eq_some_iff.mp h
    rw [List.append_assoc]
    exact splitInclusive_append front b

/-- Text in front of the first piece. -/
def joinFirst {α : Type*} (a : List α) : List (List α) → List (List α)
  | [] => [a]
  | l :: ls => (a ++ l) :: ls

/-- Text without a line feed is the front of one piece. -/
theorem splitInclusive_append_of_not_mem {a : List Char} (hne : a ≠ []) (h : '\n' ∉ a)
    (b : List Char) : splitInclusive (a ++ b) = joinFirst a (splitInclusive b) := by
  induction a with
  | nil => exact absurd rfl hne
  | cons c a ih =>
    obtain ⟨hc, ha⟩ : c ≠ '\n' ∧ '\n' ∉ a := by simpa [eq_comm] using h
    rw [List.cons_append, splitInclusive, if_neg hc]
    by_cases hnil : a = []
    · subst hnil
      rw [List.nil_append]
      cases splitInclusive b <;> rfl
    · rw [ih hnil ha]
      cases splitInclusive b <;> rfl

theorem exists_splitInclusive_append {a : List Char} (hne : a ≠ []) (h : '\n' ∉ a)
    (b : List Char) : ∃ l ls, splitInclusive (a ++ b) = (a ++ l) :: ls := by
  rw [splitInclusive_append_of_not_mem hne h]
  cases splitInclusive b with
  | nil => exact ⟨[], [], by rw [List.append_nil]; rfl⟩
  | cons l ls => exact ⟨l, ls, rfl⟩

theorem splitInclusive_of_not_mem {a : List Char} (hne : a ≠ []) (h : '\n' ∉ a) :
    splitInclusive a = [a] := by
  have hsplit := splitInclusive_append_of_not_mem hne h []
  rwa [List.append_nil] at hsplit

/-! ## Splitting at a character -/

theorem splitOnce_eq_none {c : Char} {s : List Char} (h : c ∉ s) : splitOnce c s = none := by
  induction s with
  | nil => rfl
  | cons d s ih =>
    obtain ⟨hd, hs⟩ : d ≠ c ∧ c ∉ s := by simpa [eq_comm] using h
    rw [splitOnce, if_neg hd, ih hs]
    rfl

theorem not_mem_of_splitOnce_eq_none {c : Char} {s : List Char} (h : splitOnce c s = none) :
    c ∉ s := by
  induction s with
  | nil => exact List.not_mem_nil
  | cons d s ih =>
    rw [splitOnce] at h
    split at h
    · cases h
    · next hd =>
      have hs := ih (Option.map_eq_none_iff.mp h)
      simpa [eq_comm, hs] using hd

theorem splitOnce_append {c : Char} {s : List Char} (h : c ∉ s) (v : List Char) :
    splitOnce c (s ++ c :: v) = some (s, v) := by
  induction s with
  | nil => exact if_pos rfl
  | cons d s ih =>
    obtain ⟨hd, hs⟩ : d ≠ c ∧ c ∉ s := by simpa [eq_comm] using h
    rw [List.cons_append, splitOnce, if_neg hd, ih hs]
    rfl

theorem eq_append_of_splitOnce {c : Char} {s a b : List Char} (h : splitOnce c s = some (a, b)) :
    s = a ++ c :: b := by
  induction s generalizing a with
  | nil => cases h
  | cons d s ih =>
    rw [splitOnce] at h
    split at h
    · next hd =>
      obtain ⟨rfl, rfl⟩ := Prod.mk.inj (Option.some.inj h)
      rw [hd]
      rfl
    · obtain ⟨q, hq, hqa⟩ := Option.map_eq_some_iff.mp h
      obtain ⟨rfl, rfl⟩ := Prod.mk.inj hqa
      rw [ih hq]
      rfl

theorem not_mem_of_splitOnce {c : Char} {s a b : List Char} (h : splitOnce c s = some (a, b)) :
    c ∉ a := by
  induction s generalizing a with
  | nil => cases h
  | cons d s ih =>
    rw [splitOnce] at h
    split at h
    · obtain ⟨rfl, -⟩ := Prod.mk.inj (Option.some.inj h)
      exact List.not_mem_nil
    · next hd =>
      obtain ⟨q, hq, hqa⟩ := Option.map_eq_some_iff.mp h
      obtain ⟨rfl, rfl⟩ := Prod.mk.inj hqa
      rw [List.mem_cons, not_or]
      exact ⟨Ne.symm hd, ih hq⟩

end Rinit
