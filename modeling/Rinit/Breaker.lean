import Mathlib.Data.List.Induction
import Mathlib.Data.List.TakeWhile
import Rinit.Restart

/-!
# The start-limit breaker

`BackoffState` keeps part of the failures it was told of : it expires them from the front
of the window, trims the window to the burst and clears it after a stable run. Here the
breaker is run over a whole history of calls (`runCalls`) and compared with the failures
since the last reset (`failuresSinceReset`). `Remembers` is the invariant : what left the
window is out of the interval, or the window is already full. The two economies are
switches of `onFailureWith`, and the invariant holds for either setting
(`runCallsWith_remembers`), so that they change no decision (`onFailure_none_iff`).

The interval is a `Duration`. The breaker counts it in whole milliseconds up to the 64-bit
maximum, so that a failure inside the last fraction of a millisecond is already out
(`not_counts_fraction`).
-/

namespace Rinit

/-! ### Durations -/

/-- A span of time, in seconds and nanoseconds. -/
structure Duration where
  secs : ℕ
  nanos : ℕ
  secs_lt : secs < 2 ^ 64
  nanos_lt : nanos < 10 ^ 9

namespace Duration

def toNanos (d : Duration) : ℕ := d.secs * 10 ^ 9 + d.nanos

/-- The whole milliseconds of the span. -/
def wholeMillis (d : Duration) : ℕ := d.secs * 1000 + d.nanos / 10 ^ 6

/-- The whole milliseconds as the program counts them, saturating at 64 bits. -/
def asMillis (d : Duration) : ℕ := saturate (saturate (d.secs * 1000) + d.nanos / 10 ^ 6)

theorem asMillis_eq (d : Duration) : d.asMillis = saturate d.wholeMillis := by
  unfold asMillis wholeMillis saturate
  omega

end Duration

theorem saturate_eq_zero {n : ℕ} : saturate n = 0 ↔ n = 0 := by
  unfold saturate u64Max
  omega

/-! ### Calls -/

/-- What the unit manager tells the bookkeeping of a unit. -/
inductive BackoffCall where
  | onActive (now : ℕ)
  | onFailure (now : ℕ)
  | reset
deriving DecidableEq, Repr

/-- The time of the call. Forgetting the failures has none. -/
def BackoffCall.time? : BackoffCall → Option ℕ
  | .onActive now => some now
  | .onFailure now => some now
  | .reset => none

/-- The calls come at times that never go back. -/
def Ordered (calls : List BackoffCall) : Prop :=
  (calls.filterMap BackoffCall.time?).Pairwise (· ≤ ·)

instance (calls : List BackoffCall) : Decidable (Ordered calls) :=
  inferInstanceAs (Decidable (List.Pairwise _ _))

/-- The failures since the last reset, oldest first. -/
def failuresSinceReset (calls : List BackoffCall) : List ℕ :=
  calls.foldl (fun failures call =>
    match call with
    | .onActive _ => failures
    | .onFailure now => failures ++ [now]
    | .reset => []) []

namespace BackoffState

/-- The bookkeeping of a policy given in durations. An interval below one millisecond acts
as a zero one : every unit that was active counts as stable, and no window is kept. -/
def ofDurations (base : Duration) (burst : ℕ) (interval : Duration) (seed : UInt64) :
    BackoffState :=
  new base.wholeMillis burst interval.wholeMillis seed

/-- The window after a failure, trimmed to the burst or not. -/
def slideWith (trims : Bool) (b : BackoffState) (now : ℕ) : List ℕ :=
  let window := (b.window ++ [now]).dropWhile fun front => saturate b.interval ≤ now - front
  if trims then window.drop (window.length - b.burst) else window

/-- `countFailure`, where a stable run clears the window or only the count. -/
def countFailureWith (clears : Bool) (b : BackoffState) (now : ℕ) : BackoffState :=
  let b :=
    if b.hasBeenStableSince now then
      { b with consecutive := 0, window := if clears then [] else b.window }
    else b
  { b with becameActiveAt := none, consecutive := min (b.consecutive + 1) (2 ^ 32 - 1) }

/-- `onFailure`, with the clearing and the trimming of the window as switches. -/
def onFailureWith (clears trims : Bool) (b : BackoffState) (now : ℕ) :
    BackoffState × Option ℕ :=
  let b := b.countFailureWith clears now
  if saturate b.interval = 0 then
    let r := b.nextDelay
    (r.1, some r.2)
  else
    let b := { b with window := b.slideWith trims now }
    if b.burst ≤ b.window.length then (b, none)
    else
      let r := b.nextDelay
      (r.1, some r.2)

theorem onFailureWith_true (b : BackoffState) (now : ℕ) :
    b.onFailureWith true true now = b.onFailure now := rfl

/-- One call. -/
def callWith (clears trims : Bool) (b : BackoffState) : BackoffCall → BackoffState
  | .onActive now => b.onActive now
  | .onFailure now => (b.onFailureWith clears trims now).1
  | .reset => b.reset

def runCallsWith (clears trims : Bool) (b : BackoffState) (calls : List BackoffCall) :
    BackoffState :=
  calls.foldl (callWith clears trims) b

/-- One call, as the program has it. -/
def call (b : BackoffState) : BackoffCall → BackoffState
  | .onActive now => b.onActive now
  | .onFailure now => (b.onFailure now).1
  | .reset => b.reset

def runCalls (b : BackoffState) (calls : List BackoffCall) : BackoffState := calls.foldl call b

theorem runCallsWith_true (b : BackoffState) (calls : List BackoffCall) :
    b.runCallsWith true true calls = b.runCalls calls := by
  have : callWith true true = call := by
    funext b c
    cases c <;> rfl
  rw [runCallsWith, runCalls, this]

@[simp]
theorem runCalls_append_singleton (b : BackoffState) (calls : List BackoffCall)
    (c : BackoffCall) : b.runCalls (calls ++ [c]) = (b.runCalls calls).call c := by
  simp [runCalls]

@[simp]
theorem runCallsWith_append_singleton (clears trims : Bool) (b : BackoffState)
    (calls : List BackoffCall) (c : BackoffCall) :
    b.runCallsWith clears trims (calls ++ [c]) =
      (b.runCallsWith clears trims calls).callWith clears trims c := by
  simp [runCallsWith]

/-! ### What a call leaves alone -/

section frame

variable (clears trims : Bool) (b : BackoffState) (now : ℕ) (c : BackoffCall)

@[simp]
theorem nextDelay_fst_window : b.nextDelay.1.window = b.window := rfl

@[simp]
theorem nextDelay_fst_becameActiveAt : b.nextDelay.1.becameActiveAt = b.becameActiveAt := rfl

@[simp]
theorem countFailureWith_interval : (b.countFailureWith clears now).interval = b.interval := by
  unfold countFailureWith
  split <;> rfl

@[simp]
theorem countFailureWith_burst : (b.countFailureWith clears now).burst = b.burst := by
  unfold countFailureWith
  split <;> rfl

@[simp]
theorem countFailureWith_becameActiveAt :
    (b.countFailureWith clears now).becameActiveAt = none := rfl

/-- The policy is the same after a failure, and the unit is not active any more. -/
theorem onFailureWith_frame :
    (b.onFailureWith clears trims now).1.interval = b.interval ∧
    (b.onFailureWith clears trims now).1.burst = b.burst ∧
    (b.onFailureWith clears trims now).1.base = b.base ∧
    (b.onFailureWith clears trims now).1.becameActiveAt = none := by
  have hbase : (b.countFailureWith clears now).base = b.base := by
    unfold countFailureWith
    split <;> rfl
  unfold onFailureWith
  dsimp only
  split
  · exact ⟨countFailureWith_interval clears b now, countFailureWith_burst clears b now, hbase, rfl⟩
  · split <;>
      exact ⟨countFailureWith_interval clears b now, countFailureWith_burst clears b now, hbase,
        rfl⟩

/-- The policy is fixed along a run. -/
theorem runCallsWith_policy (calls : List BackoffCall) :
    (b.runCallsWith clears trims calls).interval = b.interval ∧
    (b.runCallsWith clears trims calls).burst = b.burst ∧
    (b.runCallsWith clears trims calls).base = b.base := by
  induction calls using List.reverseRecOn with
  | nil => exact ⟨rfl, rfl, rfl⟩
  | append_singleton calls c ih =>
    rw [runCallsWith_append_singleton]
    cases c with
    | onActive now => exact ih
    | onFailure now =>
      obtain ⟨h1, h2, h3, -⟩ := onFailureWith_frame clears trims
        (b.runCallsWith clears trims calls) now
      exact ⟨h1.trans ih.1, h2.trans ih.2.1, h3.trans ih.2.2⟩
    | reset => exact ih

theorem runCalls_policy (b : BackoffState) (calls : List BackoffCall) :
    (b.runCalls calls).interval = b.interval ∧ (b.runCalls calls).burst = b.burst ∧
      (b.runCalls calls).base = b.base := by
  have h := runCallsWith_policy true true b calls
  rwa [runCallsWith_true] at h

end frame

/-- With a window, a failure trips the breaker exactly when the window is full. -/
theorem onFailureWith_counted {clears trims : Bool} {b : BackoffState} (now : ℕ)
    (hw : saturate b.interval ≠ 0) :
    (b.onFailureWith clears trims now).1.window =
      (b.countFailureWith clears now).slideWith trims now ∧
    ((b.onFailureWith clears trims now).2 = none ↔
      b.burst ≤ ((b.countFailureWith clears now).slideWith trims now).length) := by
  unfold onFailureWith
  dsimp only
  rw [if_neg (by simpa using hw)]
  split
  · rename_i h
    exact ⟨rfl, by simpa using h⟩
  · rename_i h
    exact ⟨rfl, by simpa using h⟩

/-- Without a window, no failure trips the breaker. -/
theorem onFailure_uncounted {b : BackoffState} (now : ℕ) (hw : saturate b.interval = 0) :
    (b.onFailure now).1.window = (b.countFailure now).window ∧ (b.onFailure now).2 ≠ none := by
  rw [← onFailureWith_true]
  unfold onFailureWith
  dsimp only
  rw [if_pos (by simpa using hw)]
  exact ⟨rfl, by simp⟩

end BackoffState

/-! ### The window against the whole history -/

/-- A history `failures` of which the front has left the window : the front is out of the
interval at `now`, or the window is full without it. -/
def Remembers (width burst now : ℕ) (window failures : List ℕ) : Prop :=
  ∃ left, failures = left ++ window ∧
    (burst ≤ window.length ∨ ∀ t ∈ left, width ≤ now - t)

theorem Remembers.mono {width burst now now' : ℕ} {window failures : List ℕ} (hn : now ≤ now')
    (h : Remembers width burst now window failures) :
    Remembers width burst now' window failures := by
  obtain ⟨left, heq, h⟩ := h
  refine ⟨left, heq, h.imp_right fun h t ht => ?_⟩
  have := h t ht
  omega

/-- All of a sorted list stays behind its first element that has not expired. -/
theorem lt_of_mem_dropWhile_expired {width now : ℕ} {ts : List ℕ} (hs : ts.Pairwise (· ≤ ·))
    {t : ℕ} (ht : t ∈ ts.dropWhile fun front => width ≤ now - front) : now - t < width := by
  induction ts with
  | nil => simp at ht
  | cons a ts ih =>
    obtain ⟨ha, hs⟩ := List.pairwise_cons.mp hs
    by_cases hexp : width ≤ now - a
    · rw [List.dropWhile_cons_of_pos (by simpa using hexp)] at ht
      exact ih hs ht
    · rw [List.dropWhile_cons_of_neg (by simpa using hexp)] at ht
      rcases List.mem_cons.mp ht with rfl | ht
      · omega
      · have := ha t ht
        omega

/-- Expiring from the front keeps the history remembered : once an element of the window
has expired, so has everything that left before it. -/
theorem Remembers.expire {width burst now : ℕ} {window failures : List ℕ}
    (h : Remembers width burst now window failures) (hs : (failures ++ [now]).Pairwise (· ≤ ·)) :
    Remembers width burst now
      ((window ++ [now]).dropWhile fun front => width ≤ now - front) (failures ++ [now]) := by
  obtain ⟨left, rfl, hleft⟩ := h
  set gone := (window ++ [now]).takeWhile fun front => width ≤ now - front with hgone
  set rest := (window ++ [now]).dropWhile fun front => width ≤ now - front with hrest
  have hsplit : gone ++ rest = window ++ [now] := List.takeWhile_append_dropWhile
  have hexpired : ∀ t ∈ gone, width ≤ now - t := by
    intro t ht
    simpa using List.mem_takeWhile_imp ht
  refine ⟨left ++ gone, by simp [List.append_assoc, hsplit], ?_⟩
  cases hg : gone with
  | nil =>
    rw [hg, List.nil_append] at hsplit
    refine hleft.imp (fun h => ?_) (fun h t ht => h t (by simpa using ht))
    rw [hsplit, List.length_append]
    omega
  | cons x gone' =>
    right
    intro t ht
    rw [← hg, List.mem_append] at ht
    rcases ht with ht | ht
    · have hx : x ∈ window ++ [now] := by
        rw [← hsplit, hg]
        simp
      have htx : t ≤ x := by
        rw [List.append_assoc, List.pairwise_append] at hs
        exact hs.2.2 t ht x hx
      have := hexpired x (by simp [hg])
      omega
    · exact hexpired t ht

/-- Trimming to the burst keeps the history remembered : what is trimmed leaves a full
window behind. -/
theorem Remembers.trim {width burst now : ℕ} {window failures : List ℕ}
    (h : Remembers width burst now window failures) :
    Remembers width burst now (window.drop (window.length - burst)) failures := by
  by_cases hlen : window.length ≤ burst
  · rwa [Nat.sub_eq_zero_of_le hlen, List.drop_zero]
  obtain ⟨left, rfl, -⟩ := h
  refine ⟨left ++ window.take (window.length - burst), by simp, .inl ?_⟩
  rw [List.length_drop]
  omega

/-- A remembered history has as many failures inside the interval as the breaker needs
exactly when the window does. -/
theorem Remembers.le_countP_iff {width burst now : ℕ} {window failures : List ℕ}
    (h : Remembers width burst now window failures) (hin : ∀ t ∈ window, now - t < width) :
    burst ≤ failures.countP (fun t => now - t < width) ↔ burst ≤ window.length := by
  obtain ⟨left, rfl, hleft⟩ := h
  have hwindow : window.countP (fun t => now - t < width) = window.length :=
    List.countP_eq_length.mpr fun t ht => by simpa using hin t ht
  rw [List.countP_append, hwindow]
  rcases hleft with hfull | hout
  · exact ⟨fun _ => hfull, fun _ => by omega⟩
  · have hnone : left.countP (fun t => now - t < width) = 0 :=
      List.countP_eq_zero.mpr fun t ht => by simpa using hout t ht
    rw [hnone, Nat.zero_add]

/-! ### Histories -/

@[simp]
theorem failuresSinceReset_onFailure (calls : List BackoffCall) (now : ℕ) :
    failuresSinceReset (calls ++ [.onFailure now]) = failuresSinceReset calls ++ [now] := by
  simp [failuresSinceReset]

@[simp]
theorem failuresSinceReset_onActive (calls : List BackoffCall) (now : ℕ) :
    failuresSinceReset (calls ++ [.onActive now]) = failuresSinceReset calls := by
  simp [failuresSinceReset]

@[simp]
theorem failuresSinceReset_reset (calls : List BackoffCall) :
    failuresSinceReset (calls ++ [.reset]) = [] := by
  simp [failuresSinceReset]

/-- The failures since the last reset are among the calls, in order. -/
theorem failuresSinceReset_sublist (calls : List BackoffCall) :
    (failuresSinceReset calls).Sublist (calls.filterMap BackoffCall.time?) := by
  induction calls using List.reverseRecOn with
  | nil => exact List.Sublist.slnil
  | append_singleton calls c ih =>
    rw [List.filterMap_append]
    cases c with
    | onActive now =>
      rw [failuresSinceReset_onActive]
      exact ih.trans (List.sublist_append_left _ _)
    | onFailure now =>
      rw [failuresSinceReset_onFailure]
      exact ih.append (List.Sublist.refl [now])
    | reset =>
      rw [failuresSinceReset_reset]
      exact List.nil_sublist _

theorem Ordered.failures {calls : List BackoffCall} (h : Ordered calls) :
    (failuresSinceReset calls).Pairwise (· ≤ ·) :=
  List.Pairwise.sublist (failuresSinceReset_sublist calls) h

theorem Ordered.of_append {calls : List BackoffCall} {c : BackoffCall}
    (h : Ordered (calls ++ [c])) :
    Ordered calls ∧
      ∀ now, c.time? = some now → ∀ t ∈ calls.filterMap BackoffCall.time?, t ≤ now := by
  unfold Ordered at h
  rw [List.filterMap_append, List.pairwise_append] at h
  refine ⟨h.1, fun now hc t ht => h.2.2 t ht now ?_⟩
  simp [hc]

/-- The bookkeeping against a history at a time no call is later than : the history is
remembered, and a unit that is active became so after every failure. -/
structure Recorded (b : BackoffState) (failures : List ℕ) (now : ℕ) : Prop where
  remembers : Remembers (saturate b.interval) b.burst now b.window failures
  active : ∀ since, b.becameActiveAt = some since → since ≤ now ∧ ∀ t ∈ failures, t ≤ since

theorem Recorded.mono {b : BackoffState} {failures : List ℕ} {now now' : ℕ} (hn : now ≤ now')
    (h : Recorded b failures now) : Recorded b failures now' where
  remembers := h.remembers.mono hn
  active := fun since hs => ⟨(h.active since hs).1.trans hn, (h.active since hs).2⟩

/-- After a stable run every earlier failure has left the interval, so that nothing is
lost when the window is cleared. -/
theorem Recorded.countFailureWith {b : BackoffState} {failures : List ℕ} {now : ℕ}
    (h : Recorded b failures now) (clears : Bool) :
    Remembers (saturate b.interval) b.burst now (b.countFailureWith clears now).window
      failures := by
  unfold BackoffState.countFailureWith
  split
  · rename_i hstable
    cases clears with
    | false => exact h.remembers
    | true =>
      refine ⟨failures, by simp, .inr fun t ht => ?_⟩
      unfold BackoffState.hasBeenStableSince at hstable
      cases hb : b.becameActiveAt with
      | none => simp [hb] at hstable
      | some since =>
        have hle := (h.active since hb).2 t ht
        simp only [hb, Bool.or_eq_true, decide_eq_true_eq] at hstable
        rcases hstable with hzero | hlong
        · rw [hzero]
          exact Nat.zero_le _
        · omega
  · exact h.remembers

/-- A failure with a window : the history with the failure is remembered by the new
window, which holds failures inside the interval only. -/
theorem Recorded.slideWith {b : BackoffState} {failures : List ℕ} {now : ℕ}
    (h : Recorded b failures now) (hs : (failures ++ [now]).Pairwise (· ≤ ·))
    (clears trims : Bool) :
    Remembers (saturate b.interval) b.burst now
      ((b.countFailureWith clears now).slideWith trims now) (failures ++ [now]) ∧
    ∀ t ∈ (b.countFailureWith clears now).slideWith trims now, now - t < saturate b.interval := by
  have hcount := h.countFailureWith clears
  have hsorted : ((b.countFailureWith clears now).window ++ [now]).Pairwise (· ≤ ·) := by
    obtain ⟨left, heq, -⟩ := hcount
    rw [heq, List.append_assoc] at hs
    exact (List.pairwise_append.mp hs).2.1
  have hexp := hcount.expire hs
  have hin : ∀ t ∈ ((b.countFailureWith clears now).window ++ [now]).dropWhile
      (fun front => saturate b.interval ≤ now - front), now - t < saturate b.interval :=
    fun t ht => lt_of_mem_dropWhile_expired hsorted ht
  unfold BackoffState.slideWith
  simp only [BackoffState.countFailureWith_interval, BackoffState.countFailureWith_burst]
  cases trims with
  | false => exact ⟨hexp, hin⟩
  | true => exact ⟨hexp.trim, fun t ht => hin t (List.mem_of_mem_drop ht)⟩

theorem Recorded.onFailureWith {b : BackoffState} {failures : List ℕ} {now : ℕ}
    (h : Recorded b failures now) (hs : (failures ++ [now]).Pairwise (· ≤ ·))
    (hw : saturate b.interval ≠ 0) (clears trims : Bool) :
    Recorded (b.onFailureWith clears trims now).1 (failures ++ [now]) now := by
  obtain ⟨hi, hb, -, hna⟩ := BackoffState.onFailureWith_frame clears trims b now
  refine ⟨?_, by simp [hna]⟩
  rw [hi, hb, (BackoffState.onFailureWith_counted now hw).1]
  exact (h.slideWith hs clears trims).1

/-- Along every run the history is remembered, whether or not the window is cleared and
trimmed. -/
theorem runCallsWith_recorded (clears trims : Bool) {b : BackoffState} (hb : b.window = [])
    (ha : b.becameActiveAt = none) (hw : saturate b.interval ≠ 0) (calls : List BackoffCall) :
    Ordered calls → ∀ now, (∀ t ∈ calls.filterMap BackoffCall.time?, t ≤ now) →
      Recorded (b.runCallsWith clears trims calls) (failuresSinceReset calls) now := by
  induction calls using List.reverseRecOn with
  | nil =>
    intro _ now _
    refine ⟨⟨[], by simp [BackoffState.runCallsWith, failuresSinceReset, hb], .inr (by simp)⟩, ?_⟩
    simp [BackoffState.runCallsWith, ha]
  | append_singleton calls c ih =>
    intro ho now hle
    obtain ⟨ho', hbefore⟩ := ho.of_append
    have hpre : ∀ t ∈ calls.filterMap BackoffCall.time?, t ≤ now :=
      fun t ht => hle t (by rw [List.filterMap_append]; exact List.mem_append_left _ ht)
    rw [BackoffState.runCallsWith_append_singleton]
    cases c with
    | onActive since =>
      have hin := ih ho' now hpre
      rw [failuresSinceReset_onActive]
      refine ⟨hin.remembers, fun s hs => ?_⟩
      obtain rfl : since = s := by simpa [BackoffState.callWith, BackoffState.onActive] using hs
      exact ⟨hle since (by simp [List.filterMap_append, BackoffCall.time?]), fun t ht =>
        hbefore since rfl t ((failuresSinceReset_sublist calls).mem ht)⟩
    | onFailure last =>
      have hlast : last ≤ now := hle last (by simp [List.filterMap_append, BackoffCall.time?])
      have hin := ih ho' last (hbefore last rfl)
      have hs := ho.failures
      rw [failuresSinceReset_onFailure] at hs ⊢
      refine (hin.onFailureWith hs ?_ clears trims).mono hlast
      rwa [(BackoffState.runCallsWith_policy clears trims b calls).1]
    | reset =>
      rw [failuresSinceReset_reset]
      exact ⟨⟨[], rfl, .inr (by simp)⟩, by simp [BackoffState.callWith, BackoffState.reset]⟩

/-! ### Decisions -/

/-- Along a run a failure trips the breaker exactly when enough failures since the last
reset are inside the interval, whether or not the window is cleared and trimmed. -/
theorem onFailureWith_none_iff (clears trims : Bool) {b : BackoffState} (hb : b.window = [])
    (ha : b.becameActiveAt = none) (hw : saturate b.interval ≠ 0) {calls : List BackoffCall}
    {now : ℕ} (ho : Ordered (calls ++ [.onFailure now])) :
    ((b.runCallsWith clears trims calls).onFailureWith clears trims now).2 = none ↔
      b.burst ≤ (failuresSinceReset (calls ++ [.onFailure now])).countP
        (fun t => now - t < saturate b.interval) := by
  obtain ⟨ho', hbefore⟩ := ho.of_append
  have hrec := runCallsWith_recorded clears trims hb ha hw calls ho' now (hbefore now rfl)
  obtain ⟨hi, hburst, -⟩ := BackoffState.runCallsWith_policy clears trims b calls
  have hs := ho.failures
  rw [failuresSinceReset_onFailure] at hs ⊢
  obtain ⟨hrem, hin⟩ := hrec.slideWith hs clears trims
  rw [(BackoffState.onFailureWith_counted now (by rwa [hi])).2]
  rw [hi, hburst] at hrem
  rw [hi] at hin
  rw [hburst]
  exact (hrem.le_countP_iff hin).symm

theorem length_countFailure_window_le (b : BackoffState) (now : ℕ) :
    (b.countFailure now).window.length ≤ b.window.length := by
  unfold BackoffState.countFailure
  split
  · exact Nat.zero_le _
  · exact le_rfl

/-- The window never holds more than the burst. -/
theorem length_onFailure_window_le {b : BackoffState} (h : b.window.length ≤ b.burst) (now : ℕ) :
    (b.onFailure now).1.window.length ≤ b.burst := by
  by_cases hw : saturate b.interval = 0
  · rw [(BackoffState.onFailure_uncounted now hw).1]
    exact (length_countFailure_window_le b now).trans h
  · rw [← BackoffState.onFailureWith_true, (BackoffState.onFailureWith_counted now hw).1]
    simp only [BackoffState.slideWith, BackoffState.countFailureWith_burst, if_true,
      List.length_drop]
    omega

theorem length_runCalls_window_le {b : BackoffState} (h : b.window.length ≤ b.burst)
    (calls : List BackoffCall) : (b.runCalls calls).window.length ≤ b.burst := by
  induction calls using List.reverseRecOn with
  | nil => exact h
  | append_singleton calls c ih =>
    have hburst := (b.runCalls_policy calls).2.1
    rw [BackoffState.runCalls_append_singleton]
    cases c with
    | onActive now => exact ih
    | onFailure now =>
      rw [← hburst] at ih ⊢
      exact length_onFailure_window_le ih now
    | reset => exact Nat.zero_le _

/-- With no interval the window stays empty. -/
theorem runCalls_window_eq_nil {b : BackoffState} (hb : b.window = [])
    (hw : saturate b.interval = 0) (calls : List BackoffCall) :
    (b.runCalls calls).window = [] := by
  induction calls using List.reverseRecOn with
  | nil => exact hb
  | append_singleton calls c ih =>
    have hi := (b.runCalls_policy calls).1
    rw [BackoffState.runCalls_append_singleton]
    cases c with
    | onActive now => exact ih
    | onFailure now =>
      have hlen := length_countFailure_window_le (b.runCalls calls) now
      rw [ih] at hlen
      refine (BackoffState.onFailure_uncounted now (by rwa [hi])).1.trans ?_
      exact List.length_eq_zero_iff.mp (Nat.le_zero.mp hlen)
    | reset => rfl

/-- The breaker counts exactly. For every history of calls in order, a failure trips it if and
only if at least `burst` failures since the last reset, this one included, are less than the
interval ago, counted in whole milliseconds up to the 64-bit maximum. Whether a stable run
clears the window and whether the window is trimmed make no difference to that, and the
window never holds more than the burst. With an interval of zero no failure trips it and
the window stays empty. -/
theorem onFailure_none_iff (base interval : Duration) (burst : ℕ) (seed : UInt64)
    (calls : List BackoffCall) (now : ℕ) :
    let start := BackoffState.ofDurations base burst interval seed
    (0 < interval.wholeMillis → Ordered (calls ++ [.onFailure now]) →
      (((start.runCalls calls).onFailure now).2 = none ↔
        start.burst ≤ (failuresSinceReset (calls ++ [.onFailure now])).countP
          (fun t => now - t < interval.asMillis)) ∧
      ∀ clears trims,
        (((start.runCallsWith clears trims calls).onFailureWith clears trims now).2 = none ↔
          ((start.runCalls calls).onFailure now).2 = none)) ∧
    (start.runCalls calls).window.length ≤ start.burst ∧
    (interval.wholeMillis = 0 →
      ((start.runCalls calls).onFailure now).2 ≠ none ∧ (start.runCalls calls).window = []) := by
  intro start
  refine ⟨fun hpos ho => ?_, length_runCalls_window_le (Nat.zero_le _) calls, fun hzero => ?_⟩
  · have hw : saturate start.interval ≠ 0 := by
      rw [Ne, saturate_eq_zero]
      exact hpos.ne'
    have hiff (clears trims : Bool) := onFailureWith_none_iff clears trims
      (b := start) rfl rfl hw ho
    have hcode := hiff true true
    rw [BackoffState.runCallsWith_true, BackoffState.onFailureWith_true] at hcode
    rw [Duration.asMillis_eq]
    exact ⟨hcode, fun clears trims => (hiff clears trims).trans hcode.symm⟩
  · have hw : saturate start.interval = 0 := saturate_eq_zero.mpr hzero
    have hi := (start.runCalls_policy calls).1
    exact ⟨(BackoffState.onFailure_uncounted now (by rwa [hi])).2,
      runCalls_window_eq_nil rfl hw calls⟩

/-- Ten seconds. -/
def tenSeconds : Duration := ⟨10, 0, by decide, by decide⟩

/-- A millisecond and a half. -/
def oneAndAHalfMillis : Duration := ⟨0, 1500000, by decide, by decide⟩

/-- The third failure within ten seconds trips a breaker of burst three, also when the second
one found the unit active. -/
theorem onFailure_none_third :
    (((BackoffState.ofDurations tenSeconds 3 tenSeconds 1).runCalls
      [.onFailure 0, .onActive 500, .onFailure 4000]).onFailure 9999).2 = none :=
  (((onFailure_none_iff tenSeconds tenSeconds 3 1
    [.onFailure 0, .onActive 500, .onFailure 4000] 9999).1 (by decide) (by decide)).1).mpr
    (by decide)

/-- With an interval of one and a half milliseconds, a failure one millisecond ago is less than
the interval ago and is not counted. -/
theorem not_counts_fraction :
    ¬ ((((BackoffState.ofDurations tenSeconds 2 oneAndAHalfMillis 1).runCalls
        [.onFailure 0]).onFailure 1).2 = none ↔
      2 ≤ (failuresSinceReset [.onFailure 0, .onFailure 1]).countP
        (fun t => (1 - t) * 10 ^ 6 < oneAndAHalfMillis.toNanos)) := by
  decide

end Rinit
