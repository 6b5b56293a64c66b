import Rinit.Config

/-!
# Unit states and the transition table

`UnitState` is where a unit is, `transition` the only table that says where an event takes
it. A pair that makes no sense is an error rather than a silent no-op, so an exit of a
unit that has no process is seen.
-/

namespace Rinit

/-- Why a unit is in `failed`. -/
inductive FailedReason where
  | startFailure
  | startLimitHit
deriving DecidableEq, Repr

/-- The actual state of a unit. `activeExited` is a `oneshot` that ran to completion : it
has no process and still satisfies its dependents. -/
inductive UnitState where
  | inactive
  | starting
  | active
  | activeExited
  | deactivating
  | restartWait
  | failed (reason : FailedReason)
deriving DecidableEq, Repr

namespace UnitState

/-- Whether the unit counts as up for its dependents. -/
def isSatisfied (s : UnitState) : Bool := s = .active || s = .activeExited

def isFailed : UnitState → Bool
  | .failed _ => true
  | _ => false

@[simp] theorem isFailed_failed (reason : FailedReason) : (failed reason).isFailed = true := rfl

theorem isFailed_iff {s : UnitState} : s.isFailed = true ↔ ∃ reason, s = .failed reason := by
  cases s <;> simp [isFailed]

/-- The short form `rctl status` shows. -/
def asStr : UnitState → String
  | .inactive => "inactive"
  | .starting => "starting"
  | .active => "active"
  | .activeExited => "active (exited)"
  | .deactivating => "deactivating"
  | .restartWait => "restart-wait"
  | .failed .startFailure => "failed"
  | .failed .startLimitHit => "failed (start-limit)"

end UnitState

/-- How a process ended. -/
inductive ExitOutcome where
  | success
  | failure (code : ℤ)
  | signalled (signal : ℤ)
  | timedOut
deriving DecidableEq, Repr

def ExitOutcome.isFailure (o : ExitOutcome) : Bool := o ≠ .success

/-- A signal or a timeout; a plain non-zero exit is not abnormal. -/
def ExitOutcome.isAbnormal : ExitOutcome → Bool
  | .signalled _ | .timedOut => true
  | _ => false

/-- Whether the policy restarts after `outcome`. -/
def RestartPolicy.wantsRestart (p : RestartPolicy) (outcome : ExitOutcome) : Bool :=
  match p with
  | .no => false
  | .always => true
  | .onSuccess => outcome = .success
  | .onFailure => outcome.isFailure
  | .onAbnormal => outcome.isAbnormal

/-- Something that happened to a unit. -/
inductive Event where
  | start
  | startUpComplete
  | startUpFailed
  | exit (outcome : ExitOutcome)
  | stop
  | stopComplete
  | backoffElapsed
  | startLimitTripped
  | resetFailed
deriving DecidableEq, Repr

/-- What the caller must do as a result of a transition or of a request. -/
inductive Effect where
  | none
  | spawnProcess
  | sendStopSignal
  | scheduleBackoff (delay : ℕ)
  | cancelBackoffAndStart
  | cancelBackoffAndStop
  | clearStartLimitAndStart
deriving DecidableEq, Repr

/-- A state change plus its side effect. -/
structure Transition where
  source : UnitState
  target : UnitState
  effect : Effect
deriving DecidableEq, Repr

/-- The event does not apply to the state. -/
structure TransitionError where
  state : UnitState
  event : Event
deriving DecidableEq, Repr

/-- Where an event leads, `none` where it is not allowed. -/
def transitionTable (policy : RestartPolicy) (kind : ServiceKind) :
    UnitState → Event → Option (UnitState × Effect)
  | .inactive, .start => some (.starting, .spawnProcess)
  | .inactive, .stop => some (.inactive, .none)
  | .starting, .start => some (.starting, .none)
  | .active, .start => some (.active, .none)
  | .activeExited, .start => some (.activeExited, .none)
  | .starting, .startUpComplete =>
    match kind with
    | .oneshot => some (.activeExited, .none)
    | .simple | .notify | .forking => some (.active, .none)
  | .starting, .startUpFailed => some (.failed .startFailure, .none)
  | .active, .exit outcome =>
    if policy.wantsRestart outcome then some (.restartWait, .scheduleBackoff 0)
    else if outcome = .success then some (.inactive, .none)
    else some (.failed .startFailure, .none)
  | .active, .stop => some (.deactivating, .sendStopSignal)
  | .activeExited, .stop => some (.inactive, .none)
  | .starting, .stop => some (.deactivating, .sendStopSignal)
  | .deactivating, .stopComplete => some (.inactive, .none)
  | .restartWait, .backoffElapsed => some (.starting, .spawnProcess)
  | .restartWait, .startLimitTripped => some (.failed .startLimitHit, .none)
  | .restartWait, .start => some (.starting, .cancelBackoffAndStart)
  | .restartWait, .stop => some (.deactivating, .cancelBackoffAndStop)
  | .failed _, .start => some (.starting, .clearStartLimitAndStart)
  | .failed _, .resetFailed => some (.inactive, .none)
  | .failed _, .stop => some (.inactive, .none)
  | _, _ => none

/-- Apply an event to a state, given the unit's restart policy and `Type=`. -/
def transition (state : UnitState) (event : Event) (policy : RestartPolicy) (kind : ServiceKind) :
    Except TransitionError Transition :=
  match transitionTable policy kind state event with
  | some (target, effect) => .ok ⟨state, target, effect⟩
  | none => .error ⟨state, event⟩

end Rinit
