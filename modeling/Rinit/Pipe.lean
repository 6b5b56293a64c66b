import Mathlib.Data.List.Basic

/-!
# Reading a stream in pieces

A reader asks for so many bytes and is given some of the bytes that come next, as the other
side happens to have written them; or it is told that there are none yet; or it gives up. What
the other side writes before it closes its end is a list, and a schedule of `Turn`s says how the
attempts to read go, so a reader is a function of the two (`fill`). The schedule decides whether
and when the reader has what it asked for, but never what it gets : `fill_eq` says that this is
the front of the list. A reader that is not told to give up gets it once it has been ready often
enough (`fill_of_ready`). `readExact` takes an end that comes too early for an error.
-/

namespace Pipe

variable {ε α : Type*}

/-- One attempt to read : `ready n` has `n + 1` bytes at hand, unless the stream has ended. -/
inductive Turn (ε : Type*) where
  | ready (n : ℕ)
  | again
  | stop (error : ε)
deriving DecidableEq, Repr

/-- What a reader has when it is done : the bytes it read, and the bytes and turns that are left. -/
structure Filled (ε α : Type*) where
  read : List α
  rest : List α
  turns : List (Turn ε)
deriving DecidableEq, Repr

/-- Read until there are `room` bytes or the stream ends; `none` while the turns are not enough. -/
def fill : List (Turn ε) → ℕ → List α → Option (Except ε (Filled ε α))
  | turns, 0, stream => some (.ok ⟨[], stream, turns⟩)
  | [], _ + 1, _ => none
  | .again :: turns, room + 1, stream => fill turns (room + 1) stream
  | .stop e :: _, _ + 1, _ => some (.error e)
  | .ready n :: turns, room + 1, stream =>
    if stream.isEmpty then some (.ok ⟨[], [], turns⟩)
    else
      (fill turns (room + 1 - min (n + 1) (room + 1))
        (stream.drop (min (n + 1) (room + 1)))).map fun r =>
          r.map fun f => { f with read := stream.take (min (n + 1) (room + 1)) ++ f.read }

/-- The front of the stream is read, whatever the turns. -/
theorem fill_eq : ∀ {turns : List (Turn ε)} {room : ℕ} {stream : List α} {f : Filled ε α},
    fill turns room stream = some (.ok f) → f.read = stream.take room ∧ f.rest = stream.drop room
  | turns, 0, stream, f, h => by
    rw [fill.eq_1] at h
    cases h
    simp
  | [], room + 1, stream, f, h => by
    rw [fill.eq_2] at h
    cases h
  | .again :: turns, room + 1, stream, f, h => by
    rw [fill.eq_3] at h
    exact fill_eq h
  | .stop e :: turns, room + 1, stream, f, h => by
    rw [fill.eq_4] at h
    cases h
  | .ready n :: turns, room + 1, stream, f, h => by
    rw [fill.eq_5] at h
    split at h
    · next he =>
      cases h
      simp [List.isEmpty_iff.mp he]
    · generalize hc : min (n + 1) (room + 1) = c at h
      have hle : c ≤ room + 1 := hc ▸ Nat.min_le_right _ _
      obtain ⟨r, hr, hmap⟩ := Option.map_eq_some_iff.mp h
      cases r with
      | error e => cases hmap
      | ok g =>
        cases hmap
        obtain ⟨hread, hrest⟩ := fill_eq hr
        refine ⟨?_, ?_⟩
        · change stream.take c ++ g.read = _
          rw [hread, ← List.take_add, Nat.add_sub_cancel' hle]
        · change g.rest = _
          rw [hrest, List.drop_drop, Nat.add_sub_cancel' hle]

/-- A reader gives up only when it is told to. -/
theorem fill_error : ∀ {turns : List (Turn ε)} {room : ℕ} {stream : List α} {e : ε},
    fill turns room stream = some (.error e) → .stop e ∈ turns
  | turns, 0, stream, e, h => by
    rw [fill.eq_1] at h
    cases h
  | [], room + 1, stream, e, h => by
    rw [fill.eq_2] at h
    cases h
  | .again :: turns, room + 1, stream, e, h => by
    rw [fill.eq_3] at h
    exact List.mem_cons_of_mem _ (fill_error h)
  | .stop e' :: turns, room + 1, stream, e, h => by
    rw [fill.eq_4] at h
    cases h
    exact List.mem_cons_self
  | .ready n :: turns, room + 1, stream, e, h => by
    rw [fill.eq_5] at h
    split at h
    · cases h
    · obtain ⟨r, hr, hmap⟩ := Option.map_eq_some_iff.mp h
      cases r with
      | error e' =>
        cases hmap
        exact List.mem_cons_of_mem _ (fill_error hr)
      | ok g => cases hmap

/-- How often the turns are ready. -/
def readies (turns : List (Turn ε)) : ℕ :=
  (turns.filter fun t => match t with | .ready _ => true | _ => false).length

/-- A reader that is ready often enough and is not told to give up is done, and every byte cost
it at most one turn. -/
theorem fill_of_ready : ∀ {turns : List (Turn ε)} {room : ℕ} (stream : List α),
    (∀ e, .stop e ∉ turns) → room ≤ readies turns →
      ∃ f, fill turns room stream = some (.ok f) ∧ (∀ e, .stop e ∉ f.turns) ∧
        readies turns ≤ readies f.turns + room
  | turns, 0, stream, hs, _ => ⟨⟨[], stream, turns⟩, fill.eq_1 .., hs, Nat.le_refl _⟩
  | [], room + 1, stream, _, hr => by cases hr
  | .again :: turns, room + 1, stream, hs, hr => by
    have hstop : ∀ e, .stop e ∉ turns := fun e he => hs e (List.mem_cons_of_mem _ he)
    obtain ⟨f, hf, hstop', hleft⟩ := fill_of_ready stream hstop hr
    exact ⟨f, hf, hstop', hleft⟩
  | .stop e :: turns, room + 1, stream, hs, _ => absurd List.mem_cons_self (hs e)
  | .ready n :: turns, room + 1, stream, hs, hr => by
    have hstop : ∀ e, .stop e ∉ turns := fun e he => hs e (List.mem_cons_of_mem _ he)
    have hcount : readies (.ready n :: turns) = readies turns + 1 := by simp [readies]
    rw [hcount] at hr ⊢
    rw [fill.eq_5]
    split
    · exact ⟨_, rfl, hstop, by simp⟩
    · generalize hc : min (n + 1) (room + 1) = c
      have hpos : 1 ≤ c := by omega
      have hroom : room + 1 - c ≤ readies turns := by omega
      obtain ⟨f, hf, hstop', hleft⟩ := fill_of_ready (stream.drop c) hstop hroom
      exact ⟨{ f with read := stream.take c ++ f.read }, by rw [hf]; rfl, hstop', by
        change readies turns + 1 ≤ readies f.turns + (room + 1)
        omega⟩

/-! ## Reads that have to be complete -/

variable {δ : Type*} {eof : δ} {err : ε → δ} {turns : List (Turn ε)} {room : ℕ} {stream : List α}
  {f : Filled ε α}

/-- Read `room` bytes, or fail with `eof` if the stream ends before. -/
def readExact (eof : δ) (err : ε → δ) (turns : List (Turn ε)) (room : ℕ) (stream : List α) :
    Option (Except δ (Filled ε α)) :=
  (fill turns room stream).map fun
    | .error e => .error (err e)
    | .ok f => if f.read.length < room then .error eof else .ok f

theorem readExact_eq_ok (h : readExact eof err turns room stream = some (.ok f)) :
    room ≤ stream.length ∧ f.read = stream.take room ∧ f.rest = stream.drop room := by
  obtain ⟨r, hr, hmap⟩ := Option.map_eq_some_iff.mp h
  cases r with
  | error e => cases hmap
  | ok g =>
    dsimp only at hmap
    split at hmap
    · cases hmap
    · next hlen =>
      obtain rfl := Except.ok.inj hmap
      obtain ⟨hread, hrest⟩ := fill_eq hr
      rw [hread, List.length_take] at hlen
      exact ⟨by omega, hread, hrest⟩

theorem readExact_of_ready (eof : δ) (err : ε → δ) (stream : List α)
    (hs : ∀ e, .stop e ∉ turns) (hr : room ≤ readies turns) :
    (stream.length < room ∧ readExact eof err turns room stream = some (.error eof)) ∨
    ∃ f, readExact eof err turns room stream = some (.ok f) ∧ (∀ e, .stop e ∉ f.turns) ∧
      readies turns ≤ readies f.turns + room := by
  obtain ⟨f, hf, hs', hleft⟩ := fill_of_ready stream hs hr
  have hread := (fill_eq hf).1
  unfold readExact
  rw [hf, Option.map_some]
  by_cases hlen : f.read.length < room
  · refine .inl ⟨?_, congrArg some (if_pos hlen)⟩
    rw [hread, List.length_take] at hlen
    omega
  · exact .inr ⟨f, congrArg some (if_neg hlen), hs', hleft⟩

end Pipe
