import Rinit.Manager

/-!
# Start flows

A start is a flow that waits for sockets, stops what conflicts, runs `ExecStartPre=`, spawns
`ExecStart=`, waits until the unit is ready and runs `ExecStartPost=`. `StartFlow.advance`
does what is ready and returns. A control start (`ControlStart`) brings up the dependency
closure of its target in order, one flow at a time, and answers when the target is up or
cannot be brought up.

The clock stands still during one `advance`, so a deadline that has not passed at its
beginning does not pass within it.
-/

namespace Rinit

/-- The status of a control reply. -/
inductive Status where
  | ok
  | error
  | noSuchUnit
  | conflict
deriving DecidableEq, Repr

abbrev Reply := Status × String

/-- The wait for one conflicting unit. -/
structure ConflictWait where
  unit : UnitName
  deadline : ℕ
  escalated : Bool := false
  done : Bool := false
deriving DecidableEq, Repr

/-- A running auxiliary command. -/
structure AuxRun where
  pid : Pid
  deadline : ℕ
deriving DecidableEq, Repr

inductive StartStage where
  | sockets (paths : List String)
  | conflicts (waits : Option (List ConflictWait))
  | pre (commands : List ExecCommand) (next : ℕ) (running : Option AuxRun)
  | spawn
  | spawnWait
  | waitReady
  | post (commands : List ExecCommand) (next : ℕ) (running : Option AuxRun)
  | done
deriving DecidableEq, Repr

/-- One start in flight. -/
structure StartFlow where
  unit : UnitName
  stage : StartStage
  deadline : ℕ
  spawned : Bool := false
deriving DecidableEq, Repr

/-- The exits of auxiliary commands that a flow waits for. -/
abbrev AuxExits := Std.ExtTreeMap Pid ExitOutcome compare

/-- A deadline in seconds; 0 is as far as a deadline goes. -/
def startDeadline (k : Kernel) (secs : ℕ) : ℕ :=
  if secs = 0 then k.after Kernel.maxTimeout else k.afterSecs secs

def ExitOutcome.describe : ExitOutcome → String
  | .success => "exit code 0"
  | .failure code => "exit code " ++ toString code
  | .signalled signal => "killed by signal " ++ toString signal
  | .timedOut => "timed out"

def ExecCommand.text (c : ExecCommand) : String := " ".intercalate c.argv

/-- The command line for a message, empty for a step that is not there. -/
def commandText (commands : List ExecCommand) (index : ℕ) : String :=
  (commands[index]?.map ExecCommand.text).getD ""

/-- `unit`'s `ExecStart=` for a message. -/
def execStartOf (m : UnitManager) (unit : UnitName) : String :=
  ((m.get unit).map fun rt => rt.config.execStart.text).getD ""

/-- Whether a flow waits for sockets, which has its own message for a missed deadline. -/
def StartStage.isSockets : StartStage → Bool
  | .sockets _ => true
  | _ => false

namespace StartFlow

/-- The state one `advance` works on : the flow, the manager, the auxiliary exits, and the
result once there is one. -/
structure Turn where
  flow : StartFlow
  manager : UnitManager
  aux : AuxExits
  done : Option (Except String Bool) := none

/-- Begin a start : a deferred definition takes over now. -/
def new (k : Kernel) (m : UnitManager) (unit : UnitName) : UnitManager × Except String StartFlow :=
  let m := m.adoptPendingConfig unit
  match m.get unit with
  | none => (m, .error (unit.canonical ++ " is not registered"))
  | some rt =>
    if rt.retired then (m, .error (unit.canonical ++ " was removed by a reload"))
    else
      (m, .ok
        { unit := unit
          stage := if rt.config.needsSocket.isEmpty then .conflicts none
            else .sockets rt.config.needsSocket
          deadline := startDeadline k rt.config.timeoutStartSec })

/-- The auxiliary command the flow waits for. -/
def runningAuxPid (flow : StartFlow) : Option Pid :=
  match flow.stage with
  | .pre _ _ (some run) | .post _ _ (some run) => some run.pid
  | _ => none

/-- End the flow with a failure of its unit. -/
def fail (k : Kernel) (t : Turn) (reason : String) : Turn :=
  { t with
    manager := (t.manager.failStart k t.flow.unit).1
    done := some (.error reason) }

/-- End the flow without touching its unit. -/
def cancel (t : Turn) (reason : String) : Turn := { t with done := some (.error reason) }

/-- Wait in a stage. -/
def waitIn (t : Turn) (stage : StartStage) : Turn :=
  { t with flow := { t.flow with stage := stage } }

/-- Fork an auxiliary command under the unit's identity, with its time limit. -/
def spawnAux (k : Kernel) (m : UnitManager) (unit : UnitName) (cmd : ExecCommand) :
    UnitManager × Except String (Pid × ℕ) :=
  match m.get unit with
  | none => (m, .error (unit.canonical ++ " is not registered"))
  | some rt =>
    let r := k.runDetached unit rt.config cmd
    let m := { m with calls := m.calls ++ r.calls }
    match r.val with
    | .error e => (m, .error (unit.canonical ++ ": cannot start '" ++ cmd.text ++ "': " ++ e))
    | .ok pid => (m, .ok (pid, rt.config.timeoutStartSec))

/-- Run the `ExecStartPost=` commands from `next` on; one that fails is passed over. -/
def runPost (k : Kernel) (commands : List ExecCommand) : List ExecCommand → ℕ → Turn → Turn
  | [], _, t => { t with done := some (.ok t.flow.spawned) }
  | cmd :: rest, next, t =>
    match spawnAux k t.manager t.flow.unit cmd with
    | (m, .ok (pid, secs)) =>
      waitIn { t with manager := m }
        (.post commands next (some ⟨pid, min (startDeadline k secs) t.flow.deadline⟩))
    | (m, .error _) => runPost k commands rest (next + 1) { t with manager := m }

/-- Wait for the running `ExecStartPost=` command, then go on. -/
def waitPost (k : Kernel) (commands : List ExecCommand) (next : ℕ) (running : Option AuxRun)
    (t : Turn) : Turn :=
  match running with
  | none => runPost k commands (commands.drop next) next t
  | some run =>
    match t.aux[run.pid]? with
    | some _ =>
      runPost k commands (commands.drop (next + 1)) (next + 1)
        { t with aux := t.aux.erase run.pid }
    | none =>
      if run.deadline ≤ k.now then
        let r := k.killProcessGroup run.pid sigKill
        runPost k commands (commands.drop (next + 1)) (next + 1)
          { t with manager := { t.manager with calls := t.manager.calls ++ r.calls } }
      else waitIn t (.post commands next (some run))

/-- The `ExecStartPost=` commands of the unit as it is defined now. -/
def postCommands (t : Turn) : List ExecCommand :=
  ((t.manager.get t.flow.unit).map (·.config.execStartPost)).getD []

/-- Wait until a unit that is not ready at once is ready. -/
def waitReady (k : Kernel) (t : Turn) : Turn :=
  match t.manager.get t.flow.unit with
  | none => cancel t (t.flow.unit.canonical ++ " is no longer registered")
  | some rt =>
    match rt.state with
    | .active | .activeExited =>
      runPost k rt.config.execStartPost rt.config.execStartPost 0 t
    | .starting =>
      if t.flow.deadline ≤ k.now then fail k t (t.flow.unit.canonical ++ ": readiness timed out")
      else waitIn t .waitReady
    | .failed _ | .restartWait | .inactive | .deactivating =>
      cancel t (t.flow.unit.canonical ++ " failed to start")

/-- The main process has been made : cap its readiness deadline and go on. -/
def afterSpawn (k : Kernel) (t : Turn) : Turn :=
  let t := { t with
    flow := { t.flow with spawned := true }
    manager := t.manager.capStartDeadline t.flow.unit t.flow.deadline }
  let kind : ServiceKind := ((t.manager.get t.flow.unit).map (·.config.serviceKind)).getD .simple
  if kind = .oneshot ∨ kind = .forking then waitReady k t
  else runPost k (postCommands t) (postCommands t) 0 t

/-- Arm the notify socket, if the unit has one, and spawn. -/
def beginSpawn (k : Kernel) (m : UnitManager) (unit : UnitName) :
    UnitManager × Except String UnitRuntime.SpawnBegin :=
  if (m.get unit).any fun rt => rt.config.serviceKind = .notify then
    match k.armNotify unit with
    | .error e => (m, .error e)
    | .ok _ => m.beginSpawnUnit k unit
  else m.beginSpawnUnit k unit

def cannotStart (t : Turn) (e : String) : String :=
  t.flow.unit.canonical ++ ": cannot start '" ++ execStartOf t.manager t.flow.unit ++ "': " ++ e

/-- Spawn `ExecStart=`. -/
def runSpawn (k : Kernel) (t : Turn) : Turn :=
  match beginSpawn k t.manager t.flow.unit with
  | (m, .ok (.spawn true)) => waitIn { t with manager := m } .spawnWait
  | (m, .ok (.spawn false)) => afterSpawn k { t with manager := m }
  | (m, .ok .noProcess) | (m, .ok .alreadyRunning) =>
    runPost k [] [] 0 { t with manager := m, flow := { t.flow with spawned := false } }
  | (m, .error e) => fail k { t with manager := m } (cannotStart { t with manager := m } e)

/-- Wait for the exec to be confirmed. -/
def waitSpawn (k : Kernel) (t : Turn) : Turn :=
  match k.spawnReport t.flow.unit with
  | .started => afterSpawn k t
  | .failed e => fail k t (cannotStart t e)
  | .empty => waitIn t .spawnWait
  | .closed => fail k t (t.flow.unit.canonical ++ ": spawn task ended without a result")

/-- Run the `ExecStartPre=` command at `next`, or spawn when they are done. -/
def runPre (k : Kernel) (commands : List ExecCommand) (next : ℕ) (t : Turn) : Turn :=
  match commands[next]? with
  | none => runSpawn k t
  | some cmd =>
    match spawnAux k t.manager t.flow.unit cmd with
    | (m, .ok (pid, secs)) =>
      waitIn { t with manager := m }
        (.pre commands next (some ⟨pid, min (startDeadline k secs) t.flow.deadline⟩))
    | (m, .error reason) => fail k { t with manager := m } reason

/-- Wait for the running `ExecStartPre=` command; one that fails ends the start. -/
def waitPre (k : Kernel) (commands : List ExecCommand) (next : ℕ) (running : Option AuxRun)
    (t : Turn) : Turn :=
  match running with
  | none => runPre k commands next t
  | some run =>
    let what := t.flow.unit.canonical ++ ": ExecStartPre '" ++ commandText commands next ++ "'"
    match t.aux[run.pid]? with
    | some .success => runPre k commands (next + 1) { t with aux := t.aux.erase run.pid }
    | some outcome =>
      fail k { t with aux := t.aux.erase run.pid } (what ++ " failed (" ++ outcome.describe ++ ")")
    | none =>
      if run.deadline ≤ k.now then
        let r := k.killProcessGroup run.pid sigKill
        fail k { t with manager := { t.manager with calls := t.manager.calls ++ r.calls } }
          (what ++ " timed out")
      else waitIn t (.pre commands next (some run))

/-- Look at one conflicting unit : it is gone, still has time, is killed, or is given up
on. -/
def pollConflict (k : Kernel) (deadline : ℕ) (m : UnitManager) (wait : ConflictWait) :
    Traced ConflictWait :=
  if wait.done then pure wait
  else
    match (m.get wait.unit).bind (·.pid) with
    | none => pure { wait with done := true }
    | some pid =>
      if k.now < wait.deadline then pure wait
      else if !wait.escalated then do
        let _ ← k.killProcessGroup pid sigKill
        return { wait with escalated := true, deadline := min (k.afterSecs 5) deadline }
      else pure { wait with done := true }

/-- Wait until every conflicting unit is gone, then prepare the start. -/
def waitConflicts (k : Kernel) (waits : List ConflictWait) (t : Turn) : Turn :=
  let polled := waits.map (pollConflict k t.flow.deadline t.manager)
  let t := { t with manager := { t.manager with
    calls := t.manager.calls ++ polled.flatMap Traced.calls } }
  let waits := polled.map Traced.val
  if waits.any fun wait => !wait.done then waitIn t (.conflicts (some waits))
  else
    let pre := ((t.manager.get t.flow.unit).map (·.config.execStartPre)).getD []
    runPre k pre 0 t

/-- Stop the conflicting units, the first time round. -/
def runConflicts (k : Kernel) (waits : Option (List ConflictWait)) (t : Turn) : Turn :=
  match waits with
  | some waits => waitConflicts k waits t
  | none =>
    let r := t.manager.stopConflicts k t.flow.unit
    let waits := r.2.map fun other =>
      let secs := ((r.1.get other).map fun rt => max rt.config.timeoutStopSec 1).getD 1
      { unit := other, deadline := min (k.afterSecs secs) t.flow.deadline }
    waitConflicts k waits { t with manager := r.1 }

def timedOut (t : Turn) : String := t.flow.unit.canonical ++ ": start timed out"

/-- Wait for the `NeedsSocket=` paths. -/
def runSockets (k : Kernel) (paths : List String) (t : Turn) : Turn :=
  match paths.find? fun path => !k.pathExists path with
  | some missing =>
    if k.now < t.flow.deadline then waitIn t (.sockets paths)
    else
      fail k t (t.flow.unit.canonical ++ ": NeedsSocket=" ++ missing ++ " did not appear in time")
  | none =>
    if t.flow.deadline ≤ k.now then fail k t (timedOut t) else runConflicts k none t

/-- Do what is ready in a stage; the stage that follows is set by the ones that wait. -/
def runStage (k : Kernel) (stage : StartStage) (t : Turn) : Turn :=
  match stage with
  | .sockets paths => runSockets k paths t
  | .conflicts waits => runConflicts k waits t
  | .pre commands next running => waitPre k commands next running t
  | .spawn => runSpawn k t
  | .spawnWait => waitSpawn k t
  | .waitReady => waitReady k t
  | .post commands next running => waitPost k commands next running t
  | .done => { t with done := some (.ok t.flow.spawned) }

/-- Advance a flow. It ends at once when its unit was asked to stop or has failed. -/
def advance (k : Kernel) (t : Turn) : Turn :=
  let unit := t.flow.unit
  if t.manager.targetOf unit = some .stopped then
    cancel t (unit.canonical ++ " start cancelled by a stop")
  else if t.flow.spawned && t.manager.isDeactivating unit then
    cancel t (unit.canonical ++ " start cancelled by a stop")
  else if t.manager.isFailed unit && t.flow.stage ≠ .spawnWait then
    cancel t (unit.canonical ++ " failed before its start completed")
  else if t.flow.deadline ≤ k.now && !t.flow.stage.isSockets then fail k t (timedOut t)
  else runStage k t.flow.stage (waitIn t .done)

end StartFlow

abbrev Flows := Std.ExtTreeMap UnitName StartFlow compare

/-- Make the flow a start effect asks for, unless there is one. -/
def beginFlow (k : Kernel) (m : UnitManager) (flows : Flows) (unit : UnitName) :
    UnitManager × Flows × Except String Unit :=
  if flows.contains unit then (m, flows, .ok ())
  else
    match StartFlow.new k m unit with
    | (m, .error e) => (m, flows, .error e)
    | (m, .ok flow) => (m, flows.insert unit flow, .ok ())

/-- Turn a start effect into a flow. -/
def applyStartEffect (k : Kernel) (m : UnitManager) (flows : Flows) (unit : UnitName) :
    Effect → UnitManager × Flows × Except String Unit
  | .spawnProcess | .cancelBackoffAndStart => beginFlow k m flows unit
  | .clearStartLimitAndStart => beginFlow k (m.clearStartLimit unit) flows unit
  | .none => (m, flows, .ok ())
  | .sendStopSignal | .cancelBackoffAndStop =>
    (m.stopUnit k unit, flows,
      .error (unit.canonical ++ " was asked to stop while starting"))
  | .scheduleBackoff _ => (m, flows, .error ("unexpected start effect for " ++ unit.canonical))

/-- Carry out the effect of a stop; a start effect does not belong here. -/
def applyEffect (k : Kernel) (m : UnitManager) (unit : UnitName) :
    Option Effect → UnitManager × Except String Bool
  | none | some .none => (m, .ok false)
  | some .spawnProcess | some .cancelBackoffAndStart | some .clearStartLimitAndStart =>
    (m, .error ("start effect failed: " ++ unit.canonical ++
      " was asked to start outside the start coordinator"))
  | some .sendStopSignal | some .cancelBackoffAndStop => (m.stopUnit k unit, .ok false)
  | some (.scheduleBackoff _) => (m, .ok false)

/-! ## Control starts -/

/-- Whether the client of a control start still waits for its reply. -/
inductive ReplySlot where
  | quiet
  | waiting
  | closed
deriving DecidableEq, Repr

/-- A start of a unit and of what it depends on. -/
structure ControlStart where
  target : UnitName
  order : List UnitName
  required : List UnitName
  index : ℕ := 0
  waiting : Option UnitName := none
  reply : ReplySlot := .quiet
  targetWasActive : Bool
  deadline : ℕ
deriving DecidableEq, Repr

def failureText (failed target : UnitName) : String :=
  if failed = target then target.canonical ++ " failed to start"
  else "required dependency " ++ failed.canonical ++ " failed to start"

namespace ControlStart

/-- Resolve the dependencies of a start. -/
def new (k : Kernel) (m : UnitManager) (unit : UnitName) :
    UnitManager × Except String ControlStart :=
  match m.startOrder unit with
  | (m, .error e) => (m, .error e)
  | (m, .ok deps) =>
    let order := deps ++ [unit]
    let secs := order.filterMap fun name => (m.get name).map (·.config.timeoutStartSec)
    let unlimited := order.any fun name =>
      ((m.get name).map fun rt => decide (rt.config.timeoutStartSec = 0)).getD true
    (m, .ok
      { target := unit
        order := order
        required := m.requiredClosure unit
        targetWasActive := (m.get unit).any (·.state.isSatisfied)
        deadline := if unlimited then startDeadline k 0
          else k.afterSecs (max (saturate (saturate secs.sum + 5)) 1) })

/-- The state one `advance` works on. -/
structure Turn where
  job : ControlStart
  manager : UnitManager
  flows : Flows
  aux : AuxExits
  done : Option Reply := none

/-- Look at the unit the job waits for : go on, wait, or give up. -/
def pollWaiting (t : Turn) (waiting : UnitName) : Turn × Bool :=
  let goOn := { t with job := { t.job with waiting := none } }
  let giveUp := { t with done := some (.error, failureText waiting t.job.target) }
  let needed := waiting = t.job.target || t.job.required.contains waiting
  if t.flows.contains waiting then (t, true)
  else
    match t.manager.get waiting with
    | none => ({ t with done := some (.noSuchUnit, "no such unit: " ++ waiting.canonical) }, true)
    | some rt =>
      match rt.state with
      | .active | .activeExited => (goOn, false)
      | .starting => (t, true)
      | .failed _ | .restartWait | .inactive | .deactivating =>
        if needed then (giveUp, true) else (goOn, false)

/-- Make the flow of a start and advance it once. -/
def startUnit (k : Kernel) (t : Turn) (unit : UnitName) (effect : Effect) : Turn :=
  let r := applyStartEffect k t.manager t.flows unit effect
  let t := { t with manager := r.1, flows := r.2.1 }
  match r.2.2 with
  | .error reason =>
    { t with done := some (.error, if unit = t.job.target then
        "cannot start " ++ unit.canonical ++ ": " ++ reason
      else "cannot start dependency " ++ unit.canonical ++ ": " ++ reason) }
  | .ok _ =>
    let t := match t.flows[unit]? with
      | none => t
      | some flow =>
        let a := StartFlow.advance k { flow := flow, manager := t.manager, aux := t.aux }
        { t with
          manager := a.manager
          aux := a.aux
          flows := if a.done.isSome then t.flows.erase unit else t.flows.insert unit a.flow }
    { t with job := { t.job with waiting := some unit } }

/-- Ask for one unit of the order. -/
def requestUnit (k : Kernel) (t : Turn) (unit : UnitName) : Turn :=
  if unit ≠ t.job.target && t.manager.isFailed unit then
    if t.job.required.contains unit then
      { t with done := some (.error, failureText unit t.job.target) }
    else t
  else if (t.manager.get unit).any (·.state.isSatisfied) then t
  else if t.flows.contains unit then { t with job := { t.job with waiting := some unit } }
  else
    let source := if unit = t.job.target then RequestSource.userStart else .dependency
    let r := t.manager.requestStart k unit source
    let t := { t with manager := r.1 }
    match r.2 with
    | some .none => { t with job := { t.job with waiting := some unit } }
    | none =>
      if unit = t.job.target then
        { t with done := some (.ok, unit.canonical ++ " is stopping; it will start afterwards") }
      else { t with done := some (.error, "dependency " ++ unit.canonical ++ " is still stopping") }
    | some effect => startUnit k t unit effect

/-- Poll what the job waits for; whether the job stops here. -/
def poll (t : Turn) : Turn × Bool :=
  match t.job.waiting with
  | none => (t, false)
  | some waiting => pollWaiting t waiting

/-- Work through the rest of the order. -/
def runOrder (k : Kernel) : List UnitName → Turn → Turn
  | [], t =>
    match poll t with
    | (t, true) => t
    | (t, false) =>
      { t with done := some (.ok, if t.job.targetWasActive then
          t.job.target.canonical ++ " is already active"
        else "started " ++ t.job.target.canonical) }
  | unit :: rest, t =>
    match poll t with
    | (t, true) => t
    | (t, false) =>
      let t := requestUnit k { t with job := { t.job with index := t.job.index + 1 } } unit
      if t.done.isSome then t else runOrder k rest t

/-- Advance a control start until it waits or is done. -/
def advance (k : Kernel) (t : Turn) : Turn :=
  if t.job.deadline ≤ k.now then
    { t with done := some (.error, t.job.target.canonical ++
        ": start did not finish within its timeout budget") }
  else runOrder k (t.job.order.drop t.job.index) t

end ControlStart

end Rinit
