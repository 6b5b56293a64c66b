import Rinit.Fitting
import Rinit.Text

/-!
# The queue in front of the log file

Captured lines wait in a bounded queue for the file (`FileQueue`). Lines that do not fit are
dropped from the front, the end `drain` takes its batch from, and the next batch starts with a
line that says how many were dropped.

`run_accounts` : in every run, the lines that were enqueued are, in their order, what was
handed to the file with each gap as long as the batch says, then what was dropped since, then
what is queued.
-/

namespace Rinit

open Fitting

def logQueueMaxLines : ℕ := 4096

def logQueueMaxBytes : ℕ := 256 * 1024

def logDrainMaxLines : ℕ := 256

def logDrainMaxBytes : ℕ := 32 * 1024

/-- The bytes of a queued line. -/
def lineBytes (line : String) : ℕ := utf8Len line.toList

/-- Lines waiting for the file, and how many were dropped since the last batch. -/
structure QueueState where
  lines : List String := []
  bytes : ℕ := 0
  dropped : ℕ := 0
deriving DecidableEq

/-- What one drain hands to the file. -/
structure Handed where
  dropped : ℕ
  batch : List String
deriving DecidableEq

def droppedWarning (count : ℕ) : String :=
  "rinit: warning: dropped " ++ toString count ++ " queued log line(s)\n"

/-- The text of a batch, behind the warning for what was dropped. -/
def Handed.text (handed : Handed) : String :=
  (if 0 < handed.dropped then droppedWarning handed.dropped else "") ++ String.join handed.batch

namespace QueueState

/-- Drop the oldest lines until both bounds are kept. -/
def shed : List String → ℕ → ℕ → QueueState
  | [], bytes, dropped => ⟨[], bytes, dropped⟩
  | oldest :: lines, bytes, dropped =>
    if logQueueMaxLines < (oldest :: lines).length ∨ logQueueMaxBytes < bytes then
      shed lines (bytes - lineBytes oldest) (dropped + 1)
    else ⟨oldest :: lines, bytes, dropped⟩

def enqueue (s : QueueState) (text : String) : QueueState :=
  shed (s.lines ++ [text]) (s.bytes + lineBytes text) s.dropped

/-- Move lines from the front into the batch : the batch, and what is left with its bytes. -/
def fill (maxBatch : ℕ) (batch : List String) (batchBytes : ℕ) :
    List String → ℕ → List String × List String × ℕ
  | [], bytes => (batch, [], bytes)
  | next :: lines, bytes =>
    if logDrainMaxLines ≤ batch.length then (batch, next :: lines, bytes)
    else if batch ≠ [] ∧ maxBatch < batchBytes + lineBytes next then (batch, next :: lines, bytes)
    else fill maxBatch (batch ++ [next]) (batchBytes + lineBytes next) lines
      (bytes - lineBytes next)

/-- Take one bounded batch. -/
def drain (maxBatch : ℕ) (s : QueueState) : QueueState × Handed :=
  let (batch, lines, bytes) := fill maxBatch [] 0 s.lines s.bytes
  (⟨lines, bytes, 0⟩, ⟨s.dropped, batch⟩)

end QueueState

/-- The largest batch worth assembling for a file of `maxBytes`. -/
def maxBatchOf (maxBytes : ℕ) : ℕ := max (min maxBytes logDrainMaxBytes) 1

/-- A call to the queue. -/
inductive QueueCall where
  | enqueue (text : String)
  | drain
deriving DecidableEq

/-- The queue with everything that was handed to the file so far. -/
structure QueueRun where
  state : QueueState := {}
  handed : List Handed := []

namespace QueueRun

def step (maxBatch : ℕ) (r : QueueRun) : QueueCall → QueueRun
  | .enqueue text => { r with state := r.state.enqueue text }
  | .drain =>
    let (state, handed) := r.state.drain maxBatch
    ⟨state, r.handed ++ [handed]⟩

def run (maxBatch : ℕ) (calls : List QueueCall) : QueueRun := calls.foldl (step maxBatch) {}

end QueueRun

/-! ## What became of each line -/

/-- The lines that were enqueued. -/
def enqueued (calls : List QueueCall) : List String :=
  calls.filterMap fun call => match call with
    | .enqueue text => some text
    | .drain => none

/-- A line in the file, or a gap where lines are missing. -/
inductive FileItem where
  | line (text : String)
  | gap (count : ℕ)
deriving DecidableEq

def FileItem.text : FileItem → String
  | .line text => text
  | .gap count => droppedWarning count

/-- How many enqueued lines an item stands for. -/
def FileItem.count : FileItem → ℕ
  | .line _ => 1
  | .gap count => count

def Handed.items (handed : Handed) : List FileItem :=
  (if 0 < handed.dropped then [.gap handed.dropped] else []) ++ handed.batch.map .line

/-- What the file is given are the texts of the items. -/
theorem Handed.text_eq (handed : Handed) :
    handed.text = String.join (handed.items.map FileItem.text) := by
  have hlines : (handed.batch.map FileItem.line).map FileItem.text = handed.batch := by
    rw [List.map_map]
    exact List.map_id _
  rw [Handed.text, Handed.items, List.map_append, hlines]
  split_ifs <;> simp [FileItem.text]

/-- `lines` is what the items stand for : a gap stands for as many lines as it says. -/
inductive StandsFor : List FileItem → List String → Prop where
  | nil : StandsFor [] []
  | line {items lines} (text : String) : StandsFor items lines →
    StandsFor (items ++ [.line text]) (lines ++ [text])
  | gap {items lines} (missing : List String) : missing ≠ [] → StandsFor items lines →
    StandsFor (items ++ [.gap missing.length]) (lines ++ missing)

namespace StandsFor

variable {items items' : List FileItem} {lines lines' : List String}

theorem append (h : StandsFor items lines) (h' : StandsFor items' lines') :
    StandsFor (items ++ items') (lines ++ lines') := by
  induction h' with
  | nil => simpa using h
  | line text _ ih =>
    rw [← List.append_assoc, ← List.append_assoc]
    exact .line text ih
  | gap missing hne _ ih =>
    rw [← List.append_assoc, ← List.append_assoc]
    exact .gap missing hne ih

theorem map_line (lines : List String) : StandsFor (lines.map .line) lines := by
  induction lines using List.reverseRecOn with
  | nil => exact .nil
  | append_singleton lines text ih =>
    rw [List.map_append]
    exact .line text ih

/-- A gap for what was dropped, if anything was. -/
theorem gap_of_length {missing : List String} {dropped : ℕ} (h : dropped = missing.length) :
    StandsFor (if 0 < dropped then [.gap dropped] else []) missing := by
  cases missing with
  | nil => rw [h, List.length_nil, if_neg (Nat.lt_irrefl 0)]; exact .nil
  | cons line missing =>
    rw [h, if_pos (by simp)]
    exact .gap (line :: missing) (List.cons_ne_nil _ _) .nil

theorem length_eq (h : StandsFor items lines) :
    lines.length = (items.map FileItem.count).sum := by
  induction h with
  | nil => rfl
  | line text _ ih => simp [ih, FileItem.count]
  | gap missing _ _ ih => simp [ih, FileItem.count]

end StandsFor

theorem Handed.count_items (handed : Handed) :
    (handed.items.map FileItem.count).sum = handed.dropped + handed.batch.length := by
  have hbatch : ((handed.batch.map FileItem.line).map FileItem.count).sum =
      handed.batch.length := by
    induction handed.batch with
    | nil => rfl
    | cons line batch ih =>
      rw [List.map_cons, List.map_cons, List.sum_cons, ih, List.length_cons, Nat.add_comm]
      rfl
  rw [Handed.items, List.map_append, List.sum_append, hbatch]
  split_ifs with h
  · simp [FileItem.count]
  · simp [Nat.eq_zero_of_not_pos h]

/-! ## Accounting -/

namespace QueueState

/-- Only lines from the front are dropped, and they are counted. -/
theorem shed_spec : ∀ (lines : List String) (dropped : ℕ), ∃ gone kept, lines = gone ++ kept ∧
    shed lines (total lineBytes lines) dropped =
      ⟨kept, total lineBytes kept, dropped + gone.length⟩ ∧
    kept.length ≤ logQueueMaxLines ∧ total lineBytes kept ≤ logQueueMaxBytes
  | [], dropped => ⟨[], [], rfl, rfl, Nat.zero_le _, Nat.zero_le _⟩
  | oldest :: lines, dropped => by
    rw [shed]
    split_ifs with h
    · obtain ⟨gone, kept, hlines, hshed, hlen, hbytes⟩ := shed_spec lines (dropped + 1)
      refine ⟨oldest :: gone, kept, by rw [hlines, List.cons_append], ?_, hlen, hbytes⟩
      rw [total_cons, Nat.add_sub_cancel_left, hshed, List.length_cons]
      congr 1
      omega
    · rw [not_or, Nat.not_lt, Nat.not_lt] at h
      exact ⟨[], oldest :: lines, rfl, rfl, h.1, h.2⟩

/-- What a batch may be. -/
def IsBatch (maxBatch : ℕ) (batch : List String) : Prop :=
  batch.length ≤ logDrainMaxLines ∧ (2 ≤ batch.length → total lineBytes batch ≤ maxBatch)

/-- Only lines from the front go into the batch. -/
theorem fill_spec (maxBatch : ℕ) : ∀ lines batch : List String, IsBatch maxBatch batch →
    ∃ more rest, lines = more ++ rest ∧
      fill maxBatch batch (total lineBytes batch) lines (total lineBytes lines) =
        (batch ++ more, rest, total lineBytes rest) ∧ IsBatch maxBatch (batch ++ more)
  | [], batch, hbatch =>
    ⟨[], [], rfl, by rw [List.append_nil]; rfl, by rw [List.append_nil]; exact hbatch⟩
  | next :: lines, batch, hbatch => by
    rw [fill]
    split_ifs with hfull hover
    · exact ⟨[], next :: lines, rfl, by rw [List.append_nil], by rw [List.append_nil]; exact hbatch⟩
    · exact ⟨[], next :: lines, rfl, by rw [List.append_nil], by rw [List.append_nil]; exact hbatch⟩
    · have hnext : IsBatch maxBatch (batch ++ [next]) := by
        refine ⟨by rw [List.length_append]; exact Nat.lt_of_not_le hfull, fun hlen => ?_⟩
        have hne : batch ≠ [] := by
          rintro rfl
          simp at hlen
        rw [total_append, total_cons, total_nil, Nat.add_zero]
        exact Nat.not_lt.mp fun h => hover ⟨hne, h⟩
      obtain ⟨more, rest, hlines, hfill, hmore⟩ := fill_spec maxBatch lines (batch ++ [next]) hnext
      rw [List.append_assoc, List.singleton_append] at hfill hmore
      refine ⟨next :: more, rest, by rw [hlines, List.cons_append], ?_, hmore⟩
      rw [total_append, total_cons, total_nil, Nat.add_zero] at hfill
      rw [total_cons, Nat.add_sub_cancel_left, hfill]

end QueueState

/-- The books of a run : what the file was given stands for the first lines, then come the
lines that were dropped since, then the queue. -/
structure Accounts (maxBatch : ℕ) (calls : List QueueCall) (r : QueueRun) : Prop where
  bytes_eq : r.state.bytes = total lineBytes r.state.lines
  bytes_le : r.state.bytes ≤ logQueueMaxBytes
  length_le : r.state.lines.length ≤ logQueueMaxLines
  batches : ∀ handed ∈ r.handed, QueueState.IsBatch maxBatch handed.batch
  lines : ∃ written unreported, StandsFor (r.handed.flatMap Handed.items) written ∧
    r.state.dropped = unreported.length ∧
    enqueued calls = written ++ unreported ++ r.state.lines

theorem accounts_new (maxBatch : ℕ) : Accounts maxBatch [] {} where
  bytes_eq := rfl
  bytes_le := Nat.zero_le _
  length_le := Nat.zero_le _
  batches := fun _ h => absurd h List.not_mem_nil
  lines := ⟨[], [], .nil, rfl, rfl⟩

/-- One call. -/
theorem Accounts.step {maxBatch : ℕ} {calls : List QueueCall} {r : QueueRun}
    (h : Accounts maxBatch calls r) (call : QueueCall) :
    Accounts maxBatch (calls ++ [call]) (r.step maxBatch call) := by
  obtain ⟨written, unreported, hstands, hdropped, hlines⟩ := h.lines
  cases call with
  | enqueue text =>
    obtain ⟨gone, kept, hsplit, hshed, hlen, hbytes⟩ :=
      QueueState.shed_spec (r.state.lines ++ [text]) r.state.dropped
    have hstep : r.step maxBatch (.enqueue text) =
        { r with state := ⟨kept, total lineBytes kept, r.state.dropped + gone.length⟩ } := by
      rw [QueueRun.step, QueueState.enqueue, h.bytes_eq, ← hshed, total_append, total_cons,
        total_nil, Nat.add_zero]
    rw [hstep]
    refine ⟨rfl, hbytes, hlen, h.batches, written, unreported ++ gone, hstands, ?_, ?_⟩
    · rw [List.length_append, hdropped]
    · have hcalls : enqueued (calls ++ [.enqueue text]) = enqueued calls ++ [text] := by
        simp [enqueued]
      rw [hcalls, hlines, List.append_assoc _ r.state.lines, hsplit]
      simp only [List.append_assoc]
  | drain =>
    obtain ⟨more, rest, hsplit, hfill, hbatch⟩ := QueueState.fill_spec maxBatch r.state.lines []
      ⟨Nat.zero_le _, fun h => absurd h (by decide)⟩
    have hstep : r.step maxBatch .drain =
        ⟨⟨rest, total lineBytes rest, 0⟩, r.handed ++ [⟨r.state.dropped, more⟩]⟩ := by
      rw [total_nil, List.nil_append] at hfill
      rw [QueueRun.step, QueueState.drain, h.bytes_eq, hfill]
    have hrest : rest.length ≤ r.state.lines.length ∧
        total lineBytes rest ≤ total lineBytes r.state.lines := by
      rw [hsplit, List.length_append, total_append]
      exact ⟨Nat.le_add_left _ _, Nat.le_add_left _ _⟩
    have hbytes := h.bytes_le
    rw [h.bytes_eq] at hbytes
    rw [hstep]
    refine ⟨rfl, hrest.2.trans hbytes, hrest.1.trans h.length_le, fun handed hmem => ?_,
      written ++ (unreported ++ more), [], ?_, rfl, ?_⟩
    · rcases List.mem_append.mp hmem with hmem | hmem
      · exact h.batches handed hmem
      · rw [List.mem_singleton.mp hmem]
        exact hbatch
    · rw [List.flatMap_append, List.flatMap_singleton]
      exact hstands.append ((StandsFor.gap_of_length hdropped).append (.map_line more))
    · have hcalls : enqueued (calls ++ [.drain]) = enqueued calls := by simp [enqueued]
      rw [hcalls, hlines, hsplit]
      simp only [List.append_assoc, List.nil_append]

theorem Accounts.run (maxBatch : ℕ) (calls : List QueueCall) :
    Accounts maxBatch calls (QueueRun.run maxBatch calls) := by
  induction calls using List.reverseRecOn with
  | nil => exact accounts_new _
  | append_singleton calls call ih =>
    rw [QueueRun.run, List.foldl_append]
    exact ih.step call

/-- Every enqueued line was handed to the file, was reported as dropped, was dropped since, or
is queued. -/
theorem Accounts.length_eq {maxBatch : ℕ} {calls : List QueueCall} {r : QueueRun}
    (h : Accounts maxBatch calls r) : (enqueued calls).length =
      (r.handed.map fun handed => handed.dropped + handed.batch.length).sum + r.state.dropped +
        r.state.lines.length := by
  obtain ⟨written, unreported, hstands, hdropped, hlines⟩ := h.lines
  have hwritten : written.length =
      (r.handed.map fun handed => handed.dropped + handed.batch.length).sum := by
    rw [hstands.length_eq, List.flatMap_def, List.map_flatten, List.sum_flatten, List.map_map,
      List.map_map]
    exact congrArg List.sum (List.map_congr_left fun handed _ => handed.count_items)
  rw [hlines, List.length_append, List.length_append, hdropped, hwritten]

/-- In every run of calls, with every bound of the file : the books are right, the bytes are
those of the queued lines, and both bounds are kept. One drain takes no more than its lines and,
if it takes more than one, than its bytes. What the file is given is the text of the items. -/
theorem run_accounts (maxBytes : ℕ) (calls : List QueueCall) :
    let r := QueueRun.run (maxBatchOf maxBytes) calls
    Accounts (maxBatchOf maxBytes) calls r ∧
    (enqueued calls).length =
      (r.handed.map fun handed => handed.dropped + handed.batch.length).sum + r.state.dropped +
        r.state.lines.length ∧
    (r.handed.map Handed.text) =
      r.handed.map fun handed => String.join (handed.items.map FileItem.text) :=
  ⟨.run _ _, (Accounts.run _ _).length_eq, List.map_congr_left fun handed _ => handed.text_eq⟩

end Rinit
