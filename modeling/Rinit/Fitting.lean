import Mathlib.Algebra.Order.BigOperators.Group.List
import Mathlib.Algebra.Order.Ring.Nat
import Mathlib.Data.List.Infix

/-!
# The longest suffix that fits

Many buffers keep the newest of what they were given, as much as a bound allows. Every item
has a cost, and `IsLongestFit cost max all held` says that `held` is the longest suffix of
`all` that costs `max` at most. There is one such suffix (`IsLongestFit.unique`), it can be
kept up item by item (`IsLongestFit.push`), and dropping items from the front until the rest
fits finds it (`isLongestFit_dropUntil`).
-/

namespace Fitting

variable {α : Type} {cost : α → ℕ} {max : ℕ} {all held held' s t : List α}

/-- What the items cost together. -/
def total (cost : α → ℕ) (items : List α) : ℕ := (items.map cost).sum

@[simp] theorem total_nil : total cost [] = 0 := rfl

@[simp] theorem total_cons (a : α) (items : List α) :
    total cost (a :: items) = cost a + total cost items := rfl

@[simp] theorem total_append (s t : List α) :
    total cost (s ++ t) = total cost s + total cost t := by
  rw [total, List.map_append, List.sum_append]
  rfl

theorem total_le_of_sublist (h : s.Sublist t) : total cost s ≤ total cost t :=
  (h.map cost).sum_le_sum fun _ _ => Nat.zero_le _

/-- `held` is the longest suffix of `all` that costs `max` at most. -/
structure IsLongestFit (cost : α → ℕ) (max : ℕ) (all held : List α) : Prop where
  suffix : held <:+ all
  fits : total cost held ≤ max
  longest : ∀ s, s <:+ all → total cost s ≤ max → s <:+ held

theorem IsLongestFit.unique (h : IsLongestFit cost max all held)
    (h' : IsLongestFit cost max all held') : held = held' :=
  (h'.longest held h.suffix h.fits).eq_of_length_le (h.longest held' h'.suffix h'.fits).length_le

/-- Everything is kept if it fits. -/
theorem isLongestFit_self (h : total cost all ≤ max) : IsLongestFit cost max all all :=
  ⟨List.suffix_rfl, h, fun _ hs _ => hs⟩

/-- An item in front that does not fit leaves the rest to be kept. -/
theorem IsLongestFit.cons {a : α} (h : IsLongestFit cost max all held)
    (ha : max < total cost (a :: all)) : IsLongestFit cost max (a :: all) held where
  suffix := h.suffix.trans (List.suffix_cons a all)
  fits := h.fits
  longest := fun s hs hfit => by
    rcases List.suffix_cons_iff.mp hs with rfl | hs
    · exact absurd hfit (Nat.not_le.mpr ha)
    · exact h.longest s hs hfit

/-- What was dropped before does not come back with a new item : only what is held has to be
looked at. -/
theorem IsLongestFit.push {a : α} (h : IsLongestFit cost max all held)
    (h' : IsLongestFit cost max (held ++ [a]) held') :
    IsLongestFit cost max (all ++ [a]) held' where
  suffix := by
    obtain ⟨front, rfl⟩ := h.suffix
    rw [List.append_assoc]
    exact h'.suffix.trans (List.suffix_append front _)
  fits := h'.fits
  longest := fun s hs hfit => by
    refine h'.longest s ?_ hfit
    rcases List.eq_nil_or_concat' s with rfl | ⟨t, b, rfl⟩
    · exact List.nil_suffix
    · obtain ⟨front, hfront⟩ := hs
      rw [← List.append_assoc] at hfront
      obtain ⟨hall, hb⟩ := List.append_inj' hfront rfl
      have ht := h.longest t ⟨front, hall⟩
        ((total_le_of_sublist (List.sublist_append_left t [b])).trans hfit)
      obtain ⟨front', rfl⟩ := ht
      exact ⟨front', by rw [← hb, List.append_assoc]⟩

/-- As long as the new item fits alone, it is held. -/
theorem IsLongestFit.getLast? {a : α} (h : IsLongestFit cost max (all ++ [a]) held)
    (ha : cost a ≤ max) : held.getLast? = some a := by
  obtain ⟨front, rfl⟩ := h.longest [a] (List.suffix_append all [a]) (by simpa using ha)
  rw [List.getLast?_append, List.getLast?_singleton]
  rfl

/-- Drop items from the front until the rest fits. -/
def dropUntil (cost : α → ℕ) (max : ℕ) : List α → List α
  | [] => []
  | a :: items => if max < total cost (a :: items) then dropUntil cost max items else a :: items

theorem isLongestFit_dropUntil (cost : α → ℕ) (max : ℕ) :
    ∀ items : List α, IsLongestFit cost max items (dropUntil cost max items)
  | [] => isLongestFit_self (Nat.zero_le _)
  | a :: items => by
    rw [dropUntil]
    split_ifs with h
    · exact (isLongestFit_dropUntil cost max items).cons h
    · exact isLongestFit_self (Nat.not_lt.mp h)

end Fitting
