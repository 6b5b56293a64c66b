import Rinit.Render

/-!
# The reply to `rctl log`

Two limits meet in a log reply : the budget the lines are selected with, newest first, and the
frame the reply is encoded into, which is cut at its end, where the newest lines are. The budget
leaves room for the line that says that older lines were omitted, so the second limit is never
reached. `log_reply` : the reply has the newest lines that fit into the budget, whole, and says
so exactly when there are more.
-/

namespace Rinit

open Codec Fitting

/-- What a line of a reply takes up, with its line feed. -/
def lineSize (line : LogLine) : ℕ := utf8Len (logText line).toList + 1

/-- The reply to `rctl log`. -/
def controlLog (logs : LogBuffer) (unit : Option UnitName) (tail : UInt32) :
    Protocol.Status × String :=
  (.ok, renderLogs logs unit tail)

theorem selectLines_cons (budget : ℕ) (line : LogLine) (older : List LogLine) (used : ℕ) :
    selectLines budget (line :: older) used =
      if budget < used + lineSize line then ([], true)
      else (logText line :: (selectLines budget older (used + lineSize line)).1,
        (selectLines budget older (used + lineSize line)).2) :=
  rfl

/-- The selection ends where the next line does not fit, and takes no notice of what is older. -/
theorem selectLines_spec (budget : ℕ) : ∀ (lines : List LogLine) (used : ℕ), used ≤ budget →
    ∃ k ≤ lines.length, selectLines budget lines used =
        ((lines.take k).map logText, decide (k < lines.length)) ∧
      used + total lineSize (lines.take k) ≤ budget ∧
      (k < lines.length → budget < used + total lineSize (lines.take (k + 1)))
  | [], used, hused => ⟨0, le_rfl, rfl, by simpa using hused, fun h => absurd h (lt_irrefl 0)⟩
  | line :: older, used, hused => by
    by_cases hfits : used + lineSize line ≤ budget
    · obtain ⟨k, hk, hselect, hsum, hnext⟩ := selectLines_spec budget older _ hfits
      refine ⟨k + 1, Nat.succ_le_succ hk, ?_, ?_, fun hlt => ?_⟩
      · rw [selectLines_cons, if_neg (Nat.not_lt.mpr hfits), hselect, List.take_succ_cons]
        simp only [List.map_cons, List.length_cons, Nat.add_lt_add_iff_right]
      · rw [List.take_succ_cons, total_cons]
        omega
      · have h := hnext (Nat.lt_of_succ_lt_succ hlt)
        rw [List.take_succ_cons, total_cons]
        omega
    · refine ⟨0, Nat.zero_le _, ?_, by simpa using hused, fun _ => ?_⟩
      · rw [selectLines_cons, if_pos (Nat.not_le.mp hfits)]
        simp
      · simpa using hfits

/-- The selected lines are the longest suffix that fits. -/
theorem exists_selectLines (budget : ℕ) (lines : List LogLine) : ∃ shown,
    IsLongestFit lineSize budget lines shown ∧ selectLines budget lines.reverse 0 =
      ((shown.map logText).reverse, decide (shown.length < lines.length)) := by
  obtain ⟨k, hk, hselect, hsum, hnext⟩ :=
    selectLines_spec budget lines.reverse 0 (Nat.zero_le _)
  rw [List.length_reverse] at hk hselect hnext
  have htotal : ∀ items : List LogLine, total lineSize items.reverse = total lineSize items :=
    fun items => by rw [total, List.map_reverse, List.sum_reverse, total]
  refine ⟨(lines.reverse.take k).reverse, ⟨?_, ?_, fun s hs hfit => ?_⟩, ?_⟩
  · rw [← List.reverse_prefix, List.reverse_reverse]
    exact List.take_prefix _ _
  · rw [htotal]
    omega
  · have hprefix : s.reverse <+: lines.reverse := List.reverse_prefix.mpr hs
    rw [← List.reverse_prefix, List.reverse_reverse]
    have hle : s.reverse.length ≤ k := by
      by_contra hlt
      -- a longer suffix has one more line than fits
      have hk' : k < lines.length := by
        have hle := hprefix.length_le
        rw [lines.length_reverse] at hle
        omega
      have hsub : (lines.reverse.take (k + 1)).Sublist s.reverse := by
        rw [List.prefix_iff_eq_take.mp hprefix]
        exact List.take_sublist_take_left (Nat.not_le.mp hlt)
      have hsize : total lineSize (lines.reverse.take (k + 1)) ≤ total lineSize s.reverse :=
        total_le_of_sublist hsub
      have hover := hnext hk'
      rw [htotal] at hsize
      omega
    rw [List.prefix_iff_eq_take.mp hprefix]
    exact List.take_prefix_take_left hle
  · rw [hselect, List.map_reverse, List.reverse_reverse, List.length_reverse, List.length_take,
      List.length_reverse, min_eq_left hk]

theorem renderLogs_spec (logs : LogBuffer) (unit : Option UnitName) (tail : UInt32) :
    ∃ shown, IsLongestFit lineSize logBudget (logs.tailOf unit tail.toNat) shown ∧
      renderLogs logs unit tail =
        (if shown.length < (logs.tailOf unit tail.toNat).length then omissionMarker else "") ++
          "\n".intercalate (shown.map logText) := by
  obtain ⟨shown, hshown, hselect⟩ :=
    exists_selectLines logBudget (logs.tailOf unit tail.toNat)
  refine ⟨shown, hshown, ?_⟩
  have hrender : renderLogs logs unit tail = renderLogsWithBudget logs unit tail logBudget := rfl
  simp only [hrender, renderLogsWithBudget, hselect, decide_eq_true_eq, omissionMarker,
    List.reverse_reverse]

/-- The lines with a line feed between them take up less than with one behind each. -/
theorem utf8Len_intercalate_le : ∀ lines : List LogLine,
    utf8Len ("\n".intercalate (lines.map logText)).toList ≤ total lineSize lines := by
  have hjoin : ∀ lines : List LogLine,
      utf8Len (['\n'].intercalate ((lines.map logText).map String.toList)) ≤
        total lineSize lines := by
    intro lines
    induction lines with
    | nil => exact le_rfl
    | cons line lines ih =>
      cases lines with
      | nil =>
        simp only [List.map_cons, List.map_nil, List.intercalate_singleton, total_cons, total_nil,
          lineSize]
        omega
      | cons next lines =>
        rw [List.map_cons, List.map_cons, List.map_cons, List.map_cons,
          List.intercalate_cons_cons, total_cons, lineSize]
        simp only [List.map_cons] at ih
        simp only [utf8Len, List.map_append, List.sum_append, List.map_singleton,
          List.sum_singleton] at ih ⊢
        have hfeed : '\n'.utf8Size = 1 := rfl
        omega
  intro lines
  rw [String.toList_intercalate]
  exact hjoin lines

/-- The reply to `rctl log` is read as it was rendered : the newest of the selected lines that
fit into the budget, oldest first, and in front of them the marker exactly if there are more. -/
theorem log_reply (logs : LogBuffer) (unit : Option UnitName) (tail : UInt32) :
    let selected := logs.tailOf unit tail.toNat
    IsNewest (unit.elim logs.lines fun unit => logs.lines.filter fun line => line.unit = unit)
      (if tail.toNat = 0 then 2 ^ 64 - 1 else tail.toNat) selected ∧
    ∃ shown, IsLongestFit lineSize logBudget selected shown ∧
      Protocol.decodeResponse (Protocol.encodeResponse (controlLog logs unit tail).1
        (controlLog logs unit tail).2.toList) = .ok (.ok,
          ((if shown.length < selected.length then omissionMarker else "") ++
            "\n".intercalate (shown.map logText)).toList) := by
  intro selected
  refine ⟨?_, ?_⟩
  · cases unit with
    | some unit => exact logs.isNewest_tailFor unit _
    | none => exact logs.isNewest_tail _
  · obtain ⟨shown, hshown, hrender⟩ := renderLogs_spec logs unit tail
    refine ⟨shown, hshown, ?_⟩
    have hroom : utf8Len omissionMarker.toList + logBudget ≤ Protocol.maxFrameBytes - 1 := by
      decide
    have hlines := (utf8Len_intercalate_le shown).trans hshown.fits
    have happend : ∀ s t : List Char, utf8Len (s ++ t) = utf8Len s + utf8Len t := fun s t => by
      simp [utf8Len]
    have hfits : (utf8Bytes (renderLogs logs unit tail).toList).length ≤
        Protocol.maxFrameBytes - 1 := by
      rw [Protocol.length_utf8Bytes, hrender, String.toList_append, happend]
      split_ifs
      · omega
      · have hempty : utf8Len "".toList = 0 := rfl
        omega
    rw [controlLog, Protocol.encodeResponse_of_fits hfits, Protocol.decodeResponse_utf8Bytes,
      hrender]

end Rinit
