import Mathlib.Logic.Relation

/-!
# Rules for loops and runs

Loops that may fail are folds in `Except`. `foldlM_induction` carries a property of the
items done so far and the state through a fold that succeeded, `foldlM_ok` shows that a
fold succeeds when each of its steps does, and `foldlM_error` that it fails when one does.

A fold that cannot fail is a run of steps, with the rule `foldl_induction`.
-/

namespace Runs

universe u

variable {ε : Type*} {σ β : Type*}

theorem bind_eq_ok {α γ : Type u} {x : Except ε α} {f : α → Except ε γ} {b : γ} :
    x >>= f = .ok b ↔ ∃ a, x = .ok a ∧ f a = .ok b := by
  cases x <;> simp [bind, Except.bind]

theorem eq_ok_of_toOption {α : Type*} {x : Except ε α} {a : α} (h : x.toOption = some a) :
    x = .ok a := by
  cases x with
  | error e => cases h
  | ok b => rw [Option.some.inj h]

/-- A property of the items done and the state, kept by every step of a fold that ends. -/
theorem foldlM_induction {f : σ → β → Except ε σ} {P : List β → σ → Prop} {l : List β}
    {s s' : σ} (h : l.foldlM f s = .ok s') (h0 : P [] s)
    (step : ∀ done x rest s s', l = done ++ x :: rest → P done s → f s x = .ok s' →
      P (done ++ [x]) s') : P l s' := by
  suffices H : ∀ (todo done : List β) (s : σ), l = done ++ todo → P done s →
      todo.foldlM f s = .ok s' → P l s' from H l [] s rfl h0 h
  intro todo
  induction todo with
  | nil =>
    intro done s hl hP hf
    simp only [List.foldlM_nil, pure, Except.pure, Except.ok.injEq] at hf
    rw [hl, List.append_nil, ← hf]
    exact hP
  | cons x rest ih =>
    intro done s hl hP hf
    rw [List.foldlM_cons] at hf
    obtain ⟨s1, h1, hf⟩ := bind_eq_ok.mp hf
    exact ih (done ++ [x]) s1 (by simpa using hl) (step done x rest s s1 hl hP h1) hf

/-- A fold ends if each step does, from a state with the property. -/
theorem foldlM_ok {f : σ → β → Except ε σ} {P : List β → σ → Prop} {l : List β} {s : σ}
    (h0 : P [] s) (step : ∀ done x rest s, l = done ++ x :: rest → P done s →
      ∃ s', f s x = .ok s' ∧ P (done ++ [x]) s') : ∃ s', l.foldlM f s = .ok s' ∧ P l s' := by
  suffices H : ∀ (todo done : List β) (s : σ), l = done ++ todo → P done s →
      ∃ s', todo.foldlM f s = .ok s' ∧ P l s' from H l [] s rfl h0
  intro todo
  induction todo with
  | nil =>
    intro done s hl hP
    exact ⟨s, rfl, by simpa [hl] using hP⟩
  | cons x rest ih =>
    intro done s hl hP
    obtain ⟨s1, h1, hP1⟩ := step done x rest s hl hP
    obtain ⟨s', hs', hP'⟩ := ih (done ++ [x]) s1 (by simpa using hl) hP1
    exact ⟨s', by rw [List.foldlM_cons, h1]; exact hs', hP'⟩

/-- A fold fails with the error of one of its steps. -/
theorem foldlM_error {f : σ → β → Except ε σ} : ∀ {l : List β} {s : σ} {e : ε},
    l.foldlM f s = .error e → ∃ x ∈ l, ∃ s', f s' x = .error e
  | [], s, e, h => nomatch h
  | x :: l, s, e, h => by
    rw [List.foldlM_cons] at h
    cases hx : f s x with
    | error e' =>
      rw [hx] at h
      cases h
      exact ⟨x, List.mem_cons_self, s, hx⟩
    | ok s' =>
      rw [hx] at h
      obtain ⟨y, hy, s'', hs''⟩ := foldlM_error (l := l) h
      exact ⟨y, List.mem_cons_of_mem x hy, s'', hs''⟩

/-- A property of the items done and the state, kept by every step of a fold. -/
theorem foldl_induction {f : σ → β → σ} {P : List β → σ → Prop} {l : List β} {s : σ}
    (h0 : P [] s) (step : ∀ done x rest s, l = done ++ x :: rest → P done s →
      P (done ++ [x]) (f s x)) : P l (l.foldl f s) := by
  suffices H : ∀ (todo done : List β) (s : σ), l = done ++ todo → P done s →
      P l (todo.foldl f s) from H l [] s rfl h0
  intro todo
  induction todo with
  | nil =>
    intro done s hl hP
    simpa [hl] using hP
  | cons x rest ih =>
    intro done s hl hP
    exact ih (done ++ [x]) (f s x) (by simpa using hl) (step done x rest s hl hP)

end Runs
