import Mathlib.Data.List.Sort
import Rinit.State

/-!
# The job queue

A job asks for a target state. The queue keeps, for each unit, the request that holds its
target : the higher source wins, and within one source the later request. `reconcile` says
what the difference between target and actual state asks for right now.
-/

namespace Rinit

/-- Where a request came from, weakest first. -/
inductive RequestSource where
  | dependency
  | userStart
  | userStop
  | shutdownStop
deriving DecidableEq, Repr

/-- The declaration order, which is the precedence. -/
def RequestSource.rank : RequestSource → ℕ
  | .dependency => 0
  | .userStart => 1
  | .userStop => 2
  | .shutdownStop => 3

/-- What a unit is asked to become. -/
inductive JobTarget where
  | started
  | stopped
deriving DecidableEq, Repr

/-- One requested change of a target state. -/
structure Job where
  unit : UnitName
  target : JobTarget
  source : RequestSource
  time : ℕ
deriving DecidableEq, Repr

/-- Whether a job replaces `other` for the same unit : by source, then by time. -/
def Job.supersedes (job other : Job) : Bool :=
  decide (other.source.rank < job.source.rank) ||
    (job.source = other.source && decide (other.time < job.time))

/-- The request that holds a unit's target. -/
structure MergedTarget where
  target : JobTarget
  source : RequestSource
  time : ℕ
deriving DecidableEq, Repr

/-- The merged target of every unit that has one. -/
structure JobQueue where
  merged : List (UnitName × MergedTarget) := []
deriving DecidableEq, Repr

namespace JobQueue

/-- Whether a request takes the target over from the one that holds it. -/
def outranks (new current : MergedTarget) : Bool :=
  decide (current.source.rank < new.source.rank) ||
    (new.source = current.source && decide (current.time < new.time))

/-- Offer a request to the entry that holds the unit's target, if there is one. -/
def offer (unit : UnitName) (new : MergedTarget) :
    List (UnitName × MergedTarget) → List (UnitName × MergedTarget) × Bool
  | [] => ([(unit, new)], true)
  | (candidate, current) :: rest =>
    if candidate = unit then
      if outranks new current then ((candidate, new) :: rest, true)
      else ((candidate, current) :: rest, false)
    else
      let r := offer unit new rest
      ((candidate, current) :: r.1, r.2)

/-- Submit a job; whether it now holds the unit's target. -/
def submit (q : JobQueue) (job : Job) : JobQueue × Bool :=
  let r := offer job.unit ⟨job.target, job.source, job.time⟩ q.merged
  (⟨r.1⟩, r.2)

def targetOf (q : JobQueue) (unit : UnitName) : Option MergedTarget :=
  (q.merged.find? fun e => e.1 = unit).map Prod.snd

/-- Every merged target, by unit. -/
def targets (q : JobQueue) : List (UnitName × MergedTarget) :=
  q.merged.insertionSort (fun a b => a.1 ≤ b.1)

/-- Drop the target of `unit`. -/
def forget (q : JobQueue) (unit : UnitName) : JobQueue :=
  ⟨q.merged.filter fun e => e.1 ≠ unit⟩

/-- What a target asks for in a state; `none` when the request has to wait. -/
def action : JobTarget → UnitState → Option Effect
  | .started, .active | .started, .activeExited => some .none
  | .started, .restartWait => some .cancelBackoffAndStart
  | .started, .failed _ => some .clearStartLimitAndStart
  | .started, .deactivating => none
  | .started, .inactive => some .spawnProcess
  | .started, .starting => some .none
  | .stopped, .inactive | .stopped, .activeExited | .stopped, .failed _ => some .none
  | .stopped, .restartWait => some .cancelBackoffAndStop
  | .stopped, .active | .stopped, .starting => some .sendStopSignal
  | .stopped, .deactivating => none

/-- What to do about `unit`, given where it is; `none` without a target. -/
def reconcile (q : JobQueue) (unit : UnitName) (actual : UnitState) : Option Effect :=
  (q.targetOf unit).bind fun merged => action merged.target actual

/-! ## The target after an operation -/

/-- The request that holds the target after `new` was offered. -/
def winner (new : MergedTarget) : Option MergedTarget → MergedTarget
  | none => new
  | some current => if outranks new current then new else current

theorem find?_offer (unit : UnitName) (new : MergedTarget) (l : List (UnitName × MergedTarget)) :
    ((offer unit new l).1.find? fun e => e.1 = unit).map Prod.snd =
      some (winner new ((l.find? fun e => e.1 = unit).map Prod.snd)) := by
  induction l with
  | nil => simp [offer, winner]
  | cons e l ih =>
    obtain ⟨candidate, current⟩ := e
    unfold offer
    by_cases hc : candidate = unit
    · subst hc
      simp only [if_true, winner, List.find?_cons, decide_true, Option.map_some]
      split <;> simp
    · simp [hc, ih]

theorem find?_offer_of_ne {unit other : UnitName} (h : other ≠ unit) (new : MergedTarget)
    (l : List (UnitName × MergedTarget)) :
    (offer unit new l).1.find? (fun e => e.1 = other) = l.find? fun e => e.1 = other := by
  induction l with
  | nil => simp [offer, h.symm]
  | cons e l ih =>
    obtain ⟨candidate, current⟩ := e
    unfold offer
    by_cases hc : candidate = unit
    · subst hc
      simp only [if_true]
      split <;> simp [h.symm]
    · rw [if_neg hc]
      by_cases ho : candidate = other
      · simp [ho]
      · simp [ho, ih]

theorem targetOf_submit (q : JobQueue) (job : Job) : (q.submit job).1.targetOf job.unit =
    some (winner ⟨job.target, job.source, job.time⟩ (q.targetOf job.unit)) :=
  find?_offer job.unit _ q.merged

theorem targetOf_submit_of_ne (q : JobQueue) (job : Job) {other : UnitName}
    (h : other ≠ job.unit) : (q.submit job).1.targetOf other = q.targetOf other :=
  congrArg (Option.map Prod.snd) (find?_offer_of_ne h _ q.merged)

theorem targetOf_forget (q : JobQueue) (unit other : UnitName) :
    (q.forget unit).targetOf other = if other = unit then none else q.targetOf other := by
  unfold targetOf forget
  by_cases h : other = unit
  · subst h
    simp [List.find?_filter]
  · rw [if_neg h, List.find?_filter]
    congr 2
    funext e
    by_cases he : e.1 = other
    · simp [he, h]
    · simp [he]

end JobQueue

end Rinit
