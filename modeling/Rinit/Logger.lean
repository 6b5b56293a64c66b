import Rinit.Fitting
import Rinit.Protocol

/-!
# The log ring

The captured output of all services goes into one bounded ring (`LogBuffer`). A new line is cut
so that it fits (`truncate`), and the oldest lines are evicted until the bound is kept. The
bytes are counted as lines come and go, and the subtraction is checked here : `push` would be
`none` where the code would count below zero.

`push_history` : whatever is pushed, the ring holds the longest suffix of the cut lines that
fits, the count is exact, and `tail` and `tailFor` are its newest lines.
-/

namespace Rinit

open Codec Fitting

/-- One captured line, tagged with the unit that wrote it. -/
structure LogLine where
  unit : UnitName
  text : String
deriving DecidableEq

/-- What one line costs beyond its text and its unit name. The size of a line is that of its
type on the target : 56 where a pointer has 64 bits, 28 where it has 32. -/
def lineOverhead (sizeOfLine : ℕ) : ℕ := 2 * sizeOfLine

def lineCost (sizeOfLine : ℕ) (line : LogLine) : ℕ :=
  utf8Len line.text.toList + utf8Len line.unit.canonical.toList + lineOverhead sizeOfLine

/-- The longest prefix of `text` that is at most `max` bytes and ends on a character
boundary. -/
def truncate (text : String) (max : ℕ) : String :=
  let bytes := utf8Bytes text.toList
  if bytes.length ≤ max then text
  else
    -- cut at a boundary, the bytes are text again
    String.ofList ((fromUtf8 (bytes.take (floorBoundary bytes max))).getD [])

theorem truncate_spec (text : String) (max : ℕ) :
    Protocol.IsLongestKept text.toList (truncate text max).toList max := by
  unfold truncate
  dsimp only
  split_ifs with h
  · exact ⟨List.prefix_rfl, h, fun _ hp _ => hp⟩
  · obtain ⟨kept, hkept, htake⟩ := Protocol.take_floorBoundary text.toList max
    rw [min_eq_right (Nat.le_of_not_le h)] at htake
    rw [htake, fromUtf8_utf8Bytes, Option.getD_some, String.toList_ofList]
    exact hkept

/-- A bounded, oldest-first log ring shared by every unit, on a target where a line has the
given size. -/
structure LogBuffer where
  sizeOfLine : ℕ
  lines : List LogLine
  bytes : ℕ
  maxBytes : ℕ
  maxLineBytes : ℕ

namespace LogBuffer

def new (sizeOfLine maxBytes maxLineBytes : ℕ) : LogBuffer :=
  ⟨sizeOfLine, [], 0, maxBytes, maxLineBytes⟩

/-- An empty buffer with the defaults. -/
def withDefaults (sizeOfLine : ℕ) : LogBuffer := new sizeOfLine (256 * 1024) 1024

/-- Evict the oldest lines until the count is within the bound; `none` if the count would go
below zero. -/
def evict (sizeOfLine maxBytes : ℕ) : List LogLine → ℕ → Option (List LogLine × ℕ)
  | [], bytes => some ([], bytes)
  | dropped :: lines, bytes =>
    if maxBytes < bytes then
      if lineCost sizeOfLine dropped ≤ bytes then
        evict sizeOfLine maxBytes lines (bytes - lineCost sizeOfLine dropped)
      else none
    else some (dropped :: lines, bytes)

/-- A line as it is stored : its text takes up the line bound at most, and what the budget
leaves for it. -/
def stored (b : LogBuffer) (unit : UnitName) (text : String) : LogLine :=
  let room := b.maxBytes - (utf8Len unit.canonical.toList + lineOverhead b.sizeOfLine)
  ⟨unit, truncate text (min b.maxLineBytes room)⟩

/-- Append one line, evicting the oldest until the buffer fits again. -/
def push (b : LogBuffer) (unit : UnitName) (text : String) : Option LogBuffer :=
  if b.maxBytes = 0 then some b
  else
    let line := b.stored unit text
    (evict b.sizeOfLine b.maxBytes (b.lines ++ [line])
      (b.bytes + lineCost b.sizeOfLine line)).map fun (lines, bytes) =>
        { b with lines := lines, bytes := bytes }

/-- The most recent `count` lines from every unit, oldest first. -/
def tail (b : LogBuffer) (count : ℕ) : List LogLine := b.lines.drop (b.lines.length - count)

/-- The most recent `count` lines from `unit`, oldest first. -/
def tailFor (b : LogBuffer) (unit : UnitName) (count : ℕ) : List LogLine :=
  ((b.lines.filter fun line => line.unit = unit).reverse.take count).reverse

/-- The bytes that are accounted for. -/
def accountedBytes (b : LogBuffer) : ℕ := b.bytes

/-- Push one line after the other. -/
def run (b : LogBuffer) : List (UnitName × String) → Option LogBuffer
  | [] => some b
  | (unit, text) :: pushes => (b.push unit text).bind fun b => b.run pushes

/-! ## Histories -/

/-- The count starts right and is right after each eviction, so it never goes below zero. -/
theorem evict_eq (sizeOfLine maxBytes : ℕ) : ∀ lines : List LogLine,
    evict sizeOfLine maxBytes lines (total (lineCost sizeOfLine) lines) =
      some (dropUntil (lineCost sizeOfLine) maxBytes lines,
        total (lineCost sizeOfLine) (dropUntil (lineCost sizeOfLine) maxBytes lines))
  | [] => rfl
  | dropped :: lines => by
    rw [evict, dropUntil]
    split_ifs with h hle
    · rw [total_cons, Nat.add_sub_cancel_left]
      exact evict_eq sizeOfLine maxBytes lines
    · exact absurd (Nat.le_add_right _ _) hle
    · rfl

/-- The ring after `pushed` lines : it holds the longest suffix that fits, and its count is
exact. -/
structure Holds (b : LogBuffer) (pushed : List LogLine) : Prop where
  longest : IsLongestFit (lineCost b.sizeOfLine) b.maxBytes pushed b.lines
  exact : b.bytes = total (lineCost b.sizeOfLine) b.lines

theorem holds_new (sizeOfLine maxBytes maxLineBytes : ℕ) :
    (new sizeOfLine maxBytes maxLineBytes).Holds [] :=
  ⟨isLongestFit_self (Nat.zero_le _), rfl⟩

/-- One push. -/
theorem Holds.push {b : LogBuffer} {pushed : List LogLine} (h : b.Holds pushed)
    (hmax : 1 ≤ b.maxBytes) (unit : UnitName) (text : String) :
    ∃ b', b.push unit text = some b' ∧ b'.Holds (pushed ++ [b.stored unit text]) ∧
      b'.maxBytes = b.maxBytes ∧ b'.maxLineBytes = b.maxLineBytes ∧
      b'.sizeOfLine = b.sizeOfLine := by
  have hbytes : b.bytes + lineCost b.sizeOfLine (b.stored unit text) =
      total (lineCost b.sizeOfLine) (b.lines ++ [b.stored unit text]) := by
    rw [h.exact, total_append, total_cons, total_nil, Nat.add_zero]
  unfold LogBuffer.push
  rw [if_neg (Nat.one_le_iff_ne_zero.mp hmax)]
  dsimp only
  rw [hbytes, evict_eq, Option.map_some]
  exact ⟨_, rfl, ⟨h.longest.push (isLongestFit_dropUntil _ _ _), rfl⟩, rfl, rfl, rfl⟩

/-- Any number of pushes. -/
theorem Holds.run {b : LogBuffer} {pushed : List LogLine} (h : b.Holds pushed)
    (hmax : 1 ≤ b.maxBytes) (pushes : List (UnitName × String)) :
    ∃ b', b.run pushes = some b' ∧
      b'.Holds (pushed ++ pushes.map fun p => b.stored p.1 p.2) ∧
      b'.maxBytes = b.maxBytes ∧ b'.sizeOfLine = b.sizeOfLine := by
  induction pushes generalizing b pushed with
  | nil => exact ⟨b, rfl, by simpa using h, rfl, rfl⟩
  | cons p pushes ih =>
    obtain ⟨unit, text⟩ := p
    obtain ⟨b₁, hpush, h₁, hmax₁, hline₁, hsize₁⟩ := h.push hmax unit text
    obtain ⟨b₂, hrun, h₂, hmax₂, hsize₂⟩ := ih h₁ (hmax₁ ▸ hmax)
    have hstored : (fun p : UnitName × String => b₁.stored p.1 p.2) =
        fun p => b.stored p.1 p.2 := by
      funext p
      rw [stored, stored, hmax₁, hline₁, hsize₁]
    refine ⟨b₂, ?_, ?_, hmax₂.trans hmax₁, hsize₂.trans hsize₁⟩
    · rw [LogBuffer.run, hpush]
      exact hrun
    · rw [hstored, List.append_assoc] at h₂
      exact h₂

end LogBuffer

/-! ## The newest lines -/

/-- `newest` is the last `count` items of `items`, or all of them. -/
def IsNewest {α : Type} (items : List α) (count : ℕ) (newest : List α) : Prop :=
  newest <:+ items ∧ newest.length = min count items.length

namespace LogBuffer

theorem isNewest_tail (b : LogBuffer) (count : ℕ) : IsNewest b.lines count (b.tail count) := by
  refine ⟨List.drop_suffix _ _, ?_⟩
  rw [tail, List.length_drop]
  omega

theorem isNewest_tailFor (b : LogBuffer) (unit : UnitName) (count : ℕ) :
    IsNewest (b.lines.filter fun line => line.unit = unit) count (b.tailFor unit count) := by
  refine ⟨?_, ?_⟩
  · rw [tailFor, ← List.reverse_prefix, List.reverse_reverse]
    exact List.take_prefix _ _
  · rw [tailFor, List.length_reverse, List.length_take, List.length_reverse]

/-- A line that is cut fits alone, if its name does. -/
theorem lineCost_stored_le {b : LogBuffer} {unit : UnitName} {text : String}
    (h : utf8Len (b.stored unit text).unit.canonical.toList + lineOverhead b.sizeOfLine ≤
      b.maxBytes) :
    lineCost b.sizeOfLine (b.stored unit text) ≤ b.maxBytes := by
  have hkept := (truncate_spec text (min b.maxLineBytes
    (b.maxBytes - (utf8Len unit.canonical.toList + lineOverhead b.sizeOfLine)))).fits
  rw [Protocol.length_utf8Bytes] at hkept
  simp only [stored, lineCost] at h ⊢
  omega

/-- Whatever is pushed, and whatever the size of a line on the target : no count goes below
zero, the ring holds the longest suffix of the cut lines that fits into its bound, the count is
what these lines cost, and the newest line is held if the bound is at least its name and the
overhead. The lines are cut no shorter than they have to be, and the tails are the newest
lines. -/
theorem push_history (sizeOfLine : ℕ) {maxBytes : ℕ} (hmax : 1 ≤ maxBytes) (maxLineBytes : ℕ)
    (pushes : List (UnitName × String)) :
    let ring := new sizeOfLine maxBytes maxLineBytes
    let cut := pushes.map fun p => ring.stored p.1 p.2
    (∀ unit text, (ring.stored unit text).unit = unit ∧
      Protocol.IsLongestKept text.toList (ring.stored unit text).text.toList
        (min maxLineBytes
          (maxBytes - (utf8Len unit.canonical.toList + lineOverhead sizeOfLine)))) ∧
    ∃ b, ring.run pushes = some b ∧
      IsLongestFit (lineCost sizeOfLine) maxBytes cut b.lines ∧
      b.accountedBytes = total (lineCost sizeOfLine) b.lines ∧
      (∀ line ∈ cut.getLast?,
        utf8Len line.unit.canonical.toList + lineOverhead sizeOfLine ≤ maxBytes →
          b.lines.getLast? = some line) ∧
      (∀ count, IsNewest b.lines count (b.tail count)) ∧
      ∀ unit count, IsNewest (b.lines.filter fun line => line.unit = unit) count
        (b.tailFor unit count) := by
  intro ring cut
  refine ⟨fun unit text => ⟨rfl, truncate_spec text _⟩, ?_⟩
  obtain ⟨b, hrun, hholds, hb, hsize⟩ :=
    (holds_new sizeOfLine maxBytes maxLineBytes).run hmax pushes
  have hsize : b.sizeOfLine = sizeOfLine := hsize
  have hlongest : IsLongestFit (lineCost sizeOfLine) maxBytes cut b.lines := by
    have h := hholds.longest
    rw [hb, hsize] at h
    exact h
  have hexact : b.bytes = total (lineCost sizeOfLine) b.lines := by
    rw [hholds.exact, hsize]
  refine ⟨b, hrun, hlongest, hexact, fun line hline hfits => ?_, b.isNewest_tail,
    b.isNewest_tailFor⟩
  obtain ⟨front, hfront⟩ := List.getLast?_eq_some_iff.mp hline
  have hmem : line ∈ cut := List.mem_of_getLast? hline
  obtain ⟨p, -, hp⟩ := List.mem_map.mp hmem
  have hcost : lineCost sizeOfLine line ≤ maxBytes :=
    hp ▸ lineCost_stored_le (b := ring) (hp ▸ hfits)
  rw [hfront] at hlongest
  exact hlongest.getLast? hcost

/-- Two lines in a ring of 240 bytes : the older one is evicted where a line has 56 bytes and
costs 124, and both are held where it has 28. -/
theorem push_history_two :
    (∃ b, (new 56 240 1024).run [(serviceA, "one"), (serviceB, "two")] = some b ∧
      IsLongestFit (lineCost 56) 240 [⟨serviceA, "one"⟩, ⟨serviceB, "two"⟩] b.lines ∧
      b.lines = [⟨serviceB, "two"⟩] ∧ b.lines.getLast? = some ⟨serviceB, "two"⟩) ∧
    ∃ b, (new 28 240 1024).run [(serviceA, "one"), (serviceB, "two")] = some b ∧
      IsLongestFit (lineCost 28) 240 [⟨serviceA, "one"⟩, ⟨serviceB, "two"⟩] b.lines ∧
      b.lines = [⟨serviceA, "one"⟩, ⟨serviceB, "two"⟩] ∧
      b.lines.getLast? = some ⟨serviceB, "two"⟩ := by
  have hcut : ∀ sizeOfLine ∈ [56, 28],
      [(serviceA, "one"), (serviceB, "two")].map (fun p : UnitName × String =>
        (new sizeOfLine 240 1024).stored p.1 p.2) =
          [⟨serviceA, "one"⟩, ⟨serviceB, "two"⟩] := by decide
  have hheld : ∀ sizeOfLine b held,
      (new sizeOfLine 240 1024).run [(serviceA, "one"), (serviceB, "two")] = some b →
      ((new sizeOfLine 240 1024).run [(serviceA, "one"), (serviceB, "two")]).map lines =
        some held → b.lines = held := fun _ _ _ hb h => by
    rw [hb] at h
    exact Option.some.inj h
  refine ⟨?_, ?_⟩
  · obtain ⟨-, b, hrun, hlongest, -, hlast, -⟩ := push_history 56 (show 1 ≤ 240 by decide) 1024
      [(serviceA, "one"), (serviceB, "two")]
    rw [hcut 56 (by decide)] at hlongest hlast
    exact ⟨b, hrun, hlongest, hheld _ _ _ hrun (by decide), hlast _ rfl (by decide)⟩
  · obtain ⟨-, b, hrun, hlongest, -, hlast, -⟩ := push_history 28 (show 1 ≤ 240 by decide) 1024
      [(serviceA, "one"), (serviceB, "two")]
    rw [hcut 28 (by decide)] at hlongest hlast
    exact ⟨b, hrun, hlongest, hheld _ _ _ hrun (by decide), hlast _ rfl (by decide)⟩

end LogBuffer

end Rinit
