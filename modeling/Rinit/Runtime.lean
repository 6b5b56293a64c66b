import Rinit.Job
import Rinit.Kernel
import Rinit.Restart

/-!
# One unit at run time

`UnitRuntime` is everything the manager knows about one unit. The operations of the
manager change it through the functions here, one for each thing that can happen to a
unit : a definition is replaced, a process is registered, signalled, reaped, a timer
fires. Each is a function of the runtime and of what the kernel answers.
-/

namespace Rinit

/-- Everything known about one unit. Times are milliseconds on the manager's clock. -/
structure UnitRuntime where
  config : UnitConfig
  state : UnitState := .inactive
  backoff : BackoffState
  pid : Option Pid := none
  group : Option Pid := none
  restartAt : Option ℕ := none
  startDeadline : Option ℕ := none
  killAt : Option ℕ := none
  healthAt : Option ℕ := none
  probePid : Option Pid := none
  probeDeadline : Option ℕ := none
  healthy : Option Bool := none
  restartAfterStop : Bool := false
  execStopPid : Option Pid := none
  status : Option String := none
  lastOutcome : Option ExitOutcome := none
  idleAt : Option ℕ := none
  oomKillsAtStart : Option ℕ := none
  pendingConfig : Option UnitConfig := none
  retired : Bool := false
deriving DecidableEq, Repr

/-- The hash that seeds a unit's jitter; a unit name is ASCII, so its characters are its
bytes. -/
def fnv1a (name : List Char) : UInt64 :=
  name.foldl (fun hash c => (hash ^^^ c.toNat.toUInt64) * 0x100000001b3) 0xcbf29ce484222325

/-- What registering a definition did. -/
inductive ConfigChange where
  | added
  | applied
  | deferred
  | unchanged
deriving DecidableEq, Repr

namespace UnitRuntime

def new (config : UnitConfig) : UnitRuntime where
  config := config
  backoff := BackoffState.new config.restartDelay config.startLimitBurst
    (config.startLimitIntervalSec * 1000) (fnv1a config.name.canonical.toList)

/-- Whether the unit gets a process at all. -/
def spawns (rt : UnitRuntime) : Bool := spawnsProcess rt.config

/-- Whether the unit has a process, or is on its way to not having one. -/
def isUp (rt : UnitRuntime) : Bool := rt.pid.isSome || rt.state = .deactivating

def policy (rt : UnitRuntime) : RestartPolicy := rt.config.restart

/-! ## Definitions -/

def applyConfig (config : UnitConfig) (rt : UnitRuntime) : UnitRuntime :=
  { rt with
    config := config
    backoff := rt.backoff.reconfigure config.restartDelay config.startLimitBurst
      (config.startLimitIntervalSec * 1000) }

/-- Take a definition a reload deferred, unless the unit is up. -/
def adoptPendingConfig (rt : UnitRuntime) : UnitRuntime :=
  if rt.isUp then rt
  else
    match rt.pendingConfig with
    | some config => applyConfig config { rt with pendingConfig := none }
    | none => rt

/-- Update the definition of a known unit, which has its file again. A unit that is up or
being started keeps the one it has until its next start. -/
def redefine (config : UnitConfig) (inFlight : Bool) (rt : UnitRuntime) :
    UnitRuntime × ConfigChange :=
  let rt := { rt with retired := false }
  if rt.config = config then ({ rt with pendingConfig := none }, .unchanged)
  else if rt.isUp || inFlight then ({ rt with pendingConfig := some config }, .deferred)
  else ({ rt.applyConfig config with pendingConfig := none }, .applied)

/-- Tombstone a unit whose file is gone : no timer may bring it back. -/
def retire (k : Kernel) (rt : UnitRuntime) : Traced UnitRuntime := do
  k.killAny rt.probePid sigKill
  return { rt with
    retired := true
    restartAt := none
    healthAt := none
    probeDeadline := none
    idleAt := none
    restartAfterStop := false
    probePid := none }

/-- Whether a tombstone may be dropped. -/
def prunable (rt : UnitRuntime) : Bool :=
  rt.retired && !rt.isUp && rt.execStopPid.isNone && rt.probePid.isNone

/-! ## Requests -/

/-- Where a satisfied request leaves a unit without any side effect. -/
def settle (target : JobTarget) (rt : UnitRuntime) : UnitRuntime :=
  match target, rt.state with
  | .stopped, .inactive | .stopped, .activeExited | .stopped, .failed _ =>
    { rt with state := .inactive }
  | _, _ => rt

theorem settle_started (rt : UnitRuntime) : rt.settle .started = rt := by
  unfold settle
  split <;> first | rfl | contradiction

/-- Clear a failure and the breaker. -/
def resetFailed (rt : UnitRuntime) : UnitRuntime :=
  { rt with
    backoff := rt.backoff.reset
    state := if rt.state.isFailed then .inactive else rt.state }

def clearStartLimit (rt : UnitRuntime) : UnitRuntime := { rt with backoff := rt.backoff.reset }

/-- Cap `TimeoutStopSec=`. -/
def compressStopTimeout (secs : ℕ) (rt : UnitRuntime) : UnitRuntime :=
  { rt with config := { rt.config with timeoutStopSec := min rt.config.timeoutStopSec secs } }

/-! ## Health probes -/

/-- Arm the next probe, if the unit has any. -/
def scheduleHealth (k : Kernel) (rt : UnitRuntime) : UnitRuntime :=
  { rt with healthAt :=
      if rt.config.healthCheck.isEmpty || rt.config.healthIntervalSec = 0 then none
      else some (k.afterSecs rt.config.healthIntervalSec) }

/-- Start the probe of a unit when it is due; whether one was started. -/
def healthProbe (k : Kernel) (unit : UnitName) (rt : UnitRuntime) : Traced (UnitRuntime × Bool) :=
  if rt.state ≠ .active then pure ({ rt with healthAt := none }, false)
  else if rt.probePid.isSome then pure (rt, false)
  else if !rt.healthAt.any (· ≤ k.now) then pure (rt, false)
  else do
    let rt := { rt with healthAt := none }
    match ← k.runDetached unit rt.config rt.config.healthCheck with
    | .ok pid =>
      return ({ rt with
        probePid := some pid
        probeDeadline := k.deadline rt.config.healthTimeoutSec }, true)
    | .error _ => return (rt.scheduleHealth k, false)

/-- Kill a probe that ran too long; whether one was killed. -/
def probeTimeout (k : Kernel) (rt : UnitRuntime) : Traced (UnitRuntime × Bool) :=
  if rt.probeDeadline.any (· ≤ k.now) then do
    let rt := { rt with probeDeadline := none }
    match rt.probePid with
    | some pid =>
      let _ ← k.killProcessGroup pid sigKill
      return (rt, true)
    | none => return (rt, false)
  else pure (rt, false)

/-- Arm the second stage of a stop, or carry it out when there is no time for one. -/
def escalate (k : Kernel) (cg : Cgroup) (unit : UnitName) (pid : Pid) (rt : UnitRuntime) :
    Traced UnitRuntime :=
  if rt.config.timeoutStopSec = 0 then do
    k.signalMembers cg unit sigKill
    k.killAny rt.execStopPid sigKill
    let _ ← k.killProcessGroup pid sigKill
    return { rt with execStopPid := none }
  else pure { rt with killAt := some (k.afterSecs rt.config.timeoutStopSec) }

/-- A failed probe stops the unit to restart it. A process that is already gone is
taken for a stopped one. -/
def unhealthy (k : Kernel) (cg : Cgroup) (unit : UnitName) (pid : Pid) (rt : UnitRuntime) :
    Traced UnitRuntime := do
  match ← k.killProcessGroup pid sigTerm with
  | .ok _ =>
    let rt := { rt with state := .deactivating, restartAfterStop := true }
    if rt.config.timeoutStopSec = 0 then
      k.signalMembers cg unit sigKill
      let _ ← k.killProcessGroup pid sigKill
      return rt
    else return { rt with killAt := some (k.afterSecs rt.config.timeoutStopSec) }
  | .error e =>
    if e = eSrch then return { rt with state := .inactive, pid := none }
    else return rt.scheduleHealth k

/-- Record a finished probe and act on the verdict. -/
def finishProbe (k : Kernel) (cg : Cgroup) (unit : UnitName) (outcome : ExitOutcome)
    (rt : UnitRuntime) : Traced UnitRuntime :=
  let rt := { rt with
    probePid := none
    probeDeadline := none
    healthy := some (decide (outcome = ExitOutcome.success)) }
  if outcome = .success then pure (rt.scheduleHealth k)
  else
    match rt.config.healthRestartOnFailure, rt.pid with
    | true, some pid => rt.unhealthy k cg unit pid
    | _, _ => pure (rt.scheduleHealth k)

/-! ## Stopping -/

/-- A stop cancels every timer of the unit, and its probe. -/
def quiesce (k : Kernel) (rt : UnitRuntime) : Traced UnitRuntime := do
  k.killAny rt.probePid sigKill
  return { rt with
    restartAt := none
    startDeadline := none
    killAt := none
    healthAt := none
    probeDeadline := none
    restartAfterStop := false
    probePid := none }

/-- The stop of a unit without a process : what is left in its cgroup is signalled. -/
def stopLeftovers (k : Kernel) (cg : Cgroup) (unit : UnitName) (rt : UnitRuntime) :
    Traced UnitRuntime :=
  if ((k.members cg unit).getD []).isEmpty then
    pure { rt with state := .inactive, group := none }
  else do
    k.signalMembers cg unit sigTerm
    let rt := { rt with state := .deactivating }
    if rt.config.timeoutStopSec = 0 then
      k.signalMembers cg unit sigKill
      return { rt with killAt := some k.now }
    else return { rt with killAt := some (k.afterSecs rt.config.timeoutStopSec) }

/-- What a stop signal did : it was delivered, or the process is gone, or it was refused
and the unit stays as it was. -/
def afterStopSignal (k : Kernel) (cg : Cgroup) (unit : UnitName) (pid : Pid) (rt : UnitRuntime) :
    Except Errno Unit → Traced UnitRuntime
  | .ok _ => escalate k cg unit pid { rt with state := .deactivating }
  | .error e => if e = eSrch then pure { rt with pid := none, state := .inactive } else pure rt

/-- The stop of a unit with a process : its `ExecStop=` command, or `SIGTERM`. -/
def stopProcess (k : Kernel) (cg : Cgroup) (unit : UnitName) (pid : Pid) (rt : UnitRuntime) :
    Traced UnitRuntime :=
  if rt.config.execStop.isEmpty then do
    k.signalMembers cg unit sigTerm
    let sent ← k.signalProcess pid sigTerm
    rt.afterStopSignal k cg unit pid sent
  else do
    match ← k.runDetached unit rt.config rt.config.execStop with
    | .ok stopPid =>
      escalate k cg unit pid { rt with execStopPid := some stopPid, state := .deactivating }
    | .error _ =>
      k.signalMembers cg unit sigTerm
      let sent ← k.killProcessGroup pid sigTerm
      rt.afterStopSignal k cg unit pid sent

/-- Stop a unit; a stop that is already under way is left alone. -/
def stop (k : Kernel) (cg : Cgroup) (unit : UnitName) (rt : UnitRuntime) : Traced UnitRuntime :=
  if rt.state = .deactivating then pure rt
  else do
    let rt ← rt.quiesce k
    match rt.pid with
    | none => rt.stopLeftovers k cg unit
    | some pid => rt.stopProcess k cg unit pid

/-- Send the start timeout's `SIGTERM`; whether the start timed out. -/
def startTimeout (k : Kernel) (cg : Cgroup) (unit : UnitName) (rt : UnitRuntime) :
    Traced (UnitRuntime × Bool) :=
  if rt.state ≠ .starting then pure ({ rt with startDeadline := none }, false)
  else if rt.startDeadline.any (· ≤ k.now) then do
    let signal := if rt.config.timeoutStopSec = 0 then sigKill else sigTerm
    k.signalMembers cg unit signal
    k.signalAny rt.pid signal
    return ({ rt with
      startDeadline := none
      killAt := k.deadline rt.config.timeoutStopSec }, true)
  else pure (rt, false)

/-- Send the `SIGKILL` of a stop that took too long; whether the unit was reached. -/
def kill (k : Kernel) (cg : Cgroup) (unit : UnitName) (rt : UnitRuntime) :
    Traced (UnitRuntime × Bool) :=
  if rt.killAt.any (· ≤ k.now) then do
    k.killAny rt.execStopPid sigKill
    let rt := { rt with killAt := none, execStopPid := none }
    k.signalMembers cg unit sigKill
    match rt.pid with
    | some pid =>
      let sent ← k.signalProcess pid sigKill
      return (rt, sent.isOk)
    | none =>
      return if rt.state = .deactivating then ({ rt with group := none, state := .inactive }, true)
        else (rt, false)
  else pure (rt, false)

/-! ## Starting -/

/-- What preparing a spawn decided. -/
inductive SpawnBegin where
  | spawn (pending : Bool)
  | noProcess
  | alreadyRunning
deriving DecidableEq, Repr

/-- Kill what an earlier instance left behind : its group, its probe, its stop command. -/
def clearLeftovers (k : Kernel) (rt : UnitRuntime) : Traced UnitRuntime :=
  if rt.pid.isSome then pure rt
  else do
    k.killAnyGroup (rt.group.filter k.groupAlive) sigKill
    k.killAny rt.probePid sigKill
    k.killAny rt.execStopPid sigKill
    return { rt with
      group := rt.group.filter fun group => !k.groupAlive group
      probeDeadline := if rt.probePid.isSome then none else rt.probeDeadline
      probePid := none
      execStopPid := none }

/-- The idle timeout of a socket activated unit, 0 for none. -/
def idleSecs (rt : UnitRuntime) : ℕ :=
  if rt.config.socketActivate.isSome then rt.config.idleTimeoutSec else 0

/-- Register a new process. A `simple` unit is up as soon as it is spawned. -/
def registerSpawn (k : Kernel) (pid : Pid) (oomKills : Option ℕ) (rt : UnitRuntime) :
    UnitRuntime :=
  let rt := { rt with
    pid := some pid
    group := (k.getpgid pid).toOption.filter (· = pid)
    state := .starting
    restartAt := none
    killAt := none
    execStopPid := none
    oomKillsAtStart := oomKills
    idleAt := k.deadline rt.idleSecs }
  match rt.config.serviceKind with
  | .simple => scheduleHealth k { rt with state := .active, backoff := rt.backoff.onActive k.now }
  | .oneshot | .notify | .forking =>
    { rt with startDeadline := k.deadline rt.config.timeoutStartSec }

/-- Fork the main process in its cgroup and on its terminal. -/
def spawnProcess (k : Kernel) (cg : Cgroup) (unit : UnitName) (rt : UnitRuntime) :
    Traced (UnitRuntime × Except String SpawnBegin) :=
  match k.resolve rt.config with
  | .error e => pure (rt, .error e)
  | .ok _ =>
    let limits := CgroupLimits.fromConfig rt.config
    match if cg.isSome && !limits.isEmpty then k.cgroupSetup unit limits else .ok none with
    | .error e => pure (rt, .error e)
    | .ok procs =>
      let oomKills := if procs.isSome then k.oomKills cg unit else none
      if rt.config.ttyPath.any (·.contains '\x00') then
        pure (rt, .error "TTYPath failed: Invalid argument (os error 22) (errno 22)")
      else
        match k.spawn unit with
        | .error e => pure (rt, .error e)
        | .ok (pid, pending) =>
          ⟨(rt.registerSpawn k pid oomKills, .ok (.spawn pending)), [.spawn unit pid]⟩

/-- Prepare a start and fork the process; a target has none. -/
def beginSpawn (k : Kernel) (cg : Cgroup) (unit : UnitName) (rt : UnitRuntime) :
    Traced (UnitRuntime × Except String SpawnBegin) := do
  let rt ← rt.clearLeftovers k
  if rt.pid.isSome then return (rt, .ok .alreadyRunning)
  else if !rt.spawns then return ({ rt with state := .active }, .ok .noProcess)
  else rt.spawnProcess k cg unit

/-- Make the readiness deadline no later than the start's own. -/
def capStartDeadline (deadline : ℕ) (rt : UnitRuntime) : UnitRuntime :=
  { rt with startDeadline := rt.startDeadline.map (min · deadline) }

/-- A connection starts the idle clock again. -/
def noteConnection (k : Kernel) (rt : UnitRuntime) : UnitRuntime :=
  { rt with idleAt := k.deadline rt.config.idleTimeoutSec }

/-- Become active with `daemon` as the unit's process. -/
def markDaemonStarted (k : Kernel) (daemon : Pid) (rt : UnitRuntime) : UnitRuntime :=
  scheduleHealth k { rt with
    pid := some daemon
    group := (k.getpgid daemon).toOption.filter fun group => group = daemon || some group = rt.group
    state := .active
    startDeadline := none
    idleAt := k.deadline rt.idleSecs
    backoff := rt.backoff.onActive k.now }

/-- A notify message. -/
structure NotifyMessage where
  ready : Bool
  status : Option String
deriving DecidableEq, Repr

/-- Record a notify message; whether the unit became ready. -/
def onNotify (k : Kernel) (message : NotifyMessage) (rt : UnitRuntime) : UnitRuntime × Bool :=
  let rt := { rt with status := message.status.or rt.status }
  if !message.ready || rt.state ≠ .starting then (rt, false)
  else
    match transition rt.state .startUpComplete rt.policy rt.config.serviceKind with
    | .ok t =>
      (scheduleHealth k { rt with
        state := t.target
        startDeadline := none
        backoff := rt.backoff.onActive k.now }, true)
    | .error _ => (rt, false)

/-! ## Exits and timers -/

/-- A failed start is terminal : the process is killed and no timer survives. -/
def failOwn (k : Kernel) (cg : Cgroup) (unit : UnitName) (rt : UnitRuntime) :
    Traced UnitRuntime := do
  k.killAnyGroup (rt.pid.bind fun _ => rt.group) sigKill
  k.signalAny rt.pid sigKill
  k.signalMembers (rt.pid.bind fun _ => cg) unit sigKill
  let rt := { rt with restartAt := none, startDeadline := none, killAt := none }
  return if rt.state.isFailed then rt
    else { rt with pid := none, group := none, state := .failed .startFailure }

/-- Take the exited main process and what belonged to it off the unit. -/
def reapMain (k : Kernel) (pid : Pid) (outcome : ExitOutcome) (rt : UnitRuntime) :
    Traced UnitRuntime := do
  k.killAny rt.probePid sigKill
  k.killAnyGroup (rt.group.filter fun group => k.groupHasOtherMembers group pid) sigKill
  return { rt with
    oomKillsAtStart := none
    pid := none
    startDeadline := none
    probePid := none
    group := none
    killAt := none
    healthAt := none
    probeDeadline := none
    lastOutcome := some outcome }

/-- What an exit led to; `fails` when the unit's dependents fail with it. -/
inductive Verdict where
  | exited (state : UnitState) (fails : Bool)
  | restartScheduled (delay : ℕ)
  | startLimitTripped (failures : ℕ) (fails : Bool)
deriving DecidableEq, Repr

def Verdict.fails : Verdict → Bool
  | .exited _ fails => fails
  | .restartScheduled _ => false
  | .startLimitTripped _ fails => fails

/-- Arm the backoff, unless the breaker forbids it. -/
def scheduleRestart (k : Kernel) (fails : Bool) (rt : UnitRuntime) : UnitRuntime × Verdict :=
  match rt.backoff.onFailure k.now with
  | (backoff, some delay) =>
    ({ rt with backoff := backoff, state := .restartWait, restartAt := some (k.after delay) },
      .restartScheduled delay)
  | (backoff, none) =>
    ({ rt with backoff := backoff, state := .failed .startLimitHit },
      .startLimitTripped backoff.failuresInWindow fails)

/-- The event an exit is for a unit that is not being stopped. -/
def exitEvent (outcome : ExitOutcome) (rt : UnitRuntime) : Event :=
  if rt.state = .starting then
    if rt.config.serviceKind = .oneshot ∧ outcome = .success then .startUpComplete
    else .startUpFailed
  else .exit outcome

/-- Where an exit takes the unit : a stop or a start it completes, or a crash that
`Restart=` decides about. -/
def settleExit (k : Kernel) (boot : Bool) (outcome : ExitOutcome) (rt : UnitRuntime) :
    UnitRuntime × Verdict :=
  if rt.state = .deactivating then
    if rt.restartAfterStop then scheduleRestart k false { rt with restartAfterStop := false }
    else ({ rt with state := .inactive }, .exited .inactive false)
  else
    let starting := decide (rt.state = .starting)
    match transition rt.state (rt.exitEvent outcome) rt.policy rt.config.serviceKind with
    | .error _ => ({ rt with state := .inactive }, .exited .inactive false)
    | .ok t =>
      let rt := { rt with state := t.target }
      if starting && rt.config.serviceKind = .oneshot && outcome = .success then
        (rt, .exited .activeExited false)
      else if starting && boot then (rt, .exited rt.state rt.state.isFailed)
      else if !rt.policy.wantsRestart outcome then (rt, .exited rt.state rt.state.isFailed)
      else scheduleRestart k true rt

/-- The exit of the main process. -/
def mainExit (k : Kernel) (boot : Bool) (pid : Pid) (outcome : ExitOutcome) (rt : UnitRuntime) :
    Traced (UnitRuntime × Verdict) := do
  let rt ← rt.reapMain k pid outcome
  return rt.settleExit k boot outcome

/-- The exit of the stop command; a failed one falls back to `SIGTERM`. -/
def execStopExit (k : Kernel) (cg : Cgroup) (unit : UnitName) (outcome : ExitOutcome)
    (rt : UnitRuntime) : Traced UnitRuntime := do
  if outcome ≠ .success then
    k.signalMembers cg unit sigTerm
    k.signalAny rt.pid sigTerm
  return { rt with execStopPid := none }

/-- Fire a restart whose backoff elapsed; a tombstone only loses its timer. -/
def dueRestart (k : Kernel) (rt : UnitRuntime) : UnitRuntime × Bool :=
  if rt.retired then ({ rt with restartAt := none }, false)
  else if rt.restartAt.any (· ≤ k.now) then ({ rt with restartAt := none }, true)
  else (rt, false)

/-- Fire an idle deadline. -/
def dueIdle (k : Kernel) (rt : UnitRuntime) : UnitRuntime × Bool :=
  if rt.idleAt.any (· ≤ k.now) then ({ rt with idleAt := none }, true) else (rt, false)

end UnitRuntime

end Rinit
