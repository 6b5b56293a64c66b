import Rinit.Control

/-!
# The boot and the supervisor loop

`Supervisor.step` is one thing the main loop does : it reaps children, advances the starts
and the boot, fires one of the timer passes, answers a request or takes a connection. The
loop does them in a fixed order between two waits, and a run here is any order of them.
Each step has its own kernel answers.
-/

namespace Rinit

/-! ## Boot -/

/-- The boot schedule : the level being started and what of it has not settled. -/
structure Boot where
  plan : BootPlan
  level : ℕ := 0
  active : Bool := false
  pending : Std.ExtTreeSet UnitName compare := ∅
  targets : List UnitName := []
  complete : Bool := false

namespace Boot

/-- Ask for one service of a level; whether the level waits for it. -/
def startService (k : Kernel) (s : UnitManager × StartCoordinator) (name : UnitName) :
    (UnitManager × StartCoordinator) × Bool :=
  if s.1.isFailed name then (s, false)
  else if s.1.listenFds.contains name then (s, false)
  else
    match s.1.requestStart k name .dependency with
    | (m, none) => ((m, s.2), true)
    | (m, some effect) =>
      match s.2.beginEffect k m name effect with
      | (m, starts, .ok _) => ((m, starts), true)
      | (m, starts, .error _) => ((m, starts), false)

/-- Queue the services of a level. -/
def startServices (k : Kernel) : List UnitName → UnitManager × StartCoordinator →
    (UnitManager × StartCoordinator) × List UnitName
  | [], s => (s, [])
  | name :: rest, s =>
    let r := startService k s name
    let q := startServices k rest r.1
    (q.1, if r.2 then name :: q.2 else q.2)

/-- Whether a service of the level is done with, after its failure was recorded. -/
def settleService (k : Kernel) (plan : BootPlan) (starts : StartCoordinator) (m : UnitManager)
    (unit : UnitName) : UnitManager × Bool :=
  if starts.flows.contains unit then (m, false)
  else
    match ((plan.configOf unit).map (·.serviceKind)).getD .simple with
    | .simple => (if m.isFailed unit then (m.failStart k unit).1 else m, true)
    | .oneshot | .forking | .notify =>
      match (m.get unit).map UnitRuntime.state with
      | some .active | some .activeExited => (m, true)
      | some .starting => (m, false)
      | some .restartWait | some .deactivating => (m, true)
      | some .inactive | some (.failed _) | none => ((m.failStart k unit).1, true)

/-- Settle the services of a level; the ones that are still starting. -/
def settlePending (k : Kernel) (plan : BootPlan) (starts : StartCoordinator) :
    List UnitName → UnitManager → UnitManager × List UnitName
  | [], m => (m, [])
  | unit :: rest, m =>
    let r := settleService k plan starts m unit
    let q := settlePending k plan starts rest r.1
    (q.1, if r.2 then q.2 else unit :: q.2)

/-- Complete the targets of a level. -/
def settleTargets (k : Kernel) (targets : List UnitName) (m : UnitManager) : UnitManager :=
  targets.foldl (fun m name => (m.reachTarget k name).1) m

/-- Begin the current level, if it was not. -/
def beginLevel (k : Kernel) (b : Boot) (level : List UnitName) (s : UnitManager × StartCoordinator) :
    Boot × UnitManager × StartCoordinator :=
  if b.active then (b, s)
  else
    let r := startServices k (b.plan.commandsInLevel level) s
    ({ b with
        active := true
        pending := Std.ExtTreeSet.ofList r.2
        targets := level.filter fun name => (b.plan.configOf name).any UnitConfig.isTarget },
      r.1)

/-- Walk the levels until one has to wait. -/
def walk (k : Kernel) : List (List UnitName) → Boot → UnitManager × StartCoordinator →
    Boot × UnitManager × StartCoordinator
  | [], b, s => ({ b with complete := true }, s)
  | level :: rest, b, s =>
    let (b, m, starts) := beginLevel k b level s
    match settlePending k b.plan starts b.pending.toList m with
    | (m, []) =>
      walk k rest { b with pending := ∅, level := b.level + 1, active := false }
        (settleTargets k b.targets m, starts)
    | (m, pending) => ({ b with pending := Std.ExtTreeSet.ofList pending }, m, starts)

/-- Queue the next level, or settle the current one. -/
def advance (k : Kernel) (b : Boot) (s : UnitManager × StartCoordinator) :
    Boot × UnitManager × StartCoordinator :=
  if b.complete then (b, s) else walk k (b.plan.levels.drop b.level) b s

end Boot

/-! ## The loop -/

/-- What the main loop keeps between two wake-ups. -/
structure Supervisor where
  manager : UnitManager
  starts : StartCoordinator := {}
  activation : Activated := ∅
  socketActivations : Std.ExtTreeMap UnitName ℕ compare := ∅
  pendingSocketWakes : Std.ExtTreeSet UnitName compare := ∅
  boot : Option Boot := none
  replies : List Reply := []

/-- A control request that changes something. -/
inductive Request where
  | start (unit : UnitName)
  | stop (unit : UnitName)
  | restart (unit : UnitName)
  | resetFailed (unit : UnitName)
  | reload (files : List UnitFile) (warnings : List String) (defaultTarget : String)

/-- One thing the loop does. -/
inductive Input where
  | reap (exits : List (Pid × ExitOutcome))
  | advance
  | boot
  | wakeSockets
  | restarts
  | queuedStarts
  | startTimeouts
  | kills
  | healthProbes
  | probeTimeouts
  | idle
  | notify (unit : UnitName) (message : UnitRuntime.NotifyMessage)
  | control (request : Request)
  | connection (unit : UnitName)

/-- How long after an activation a connection starts nothing, in milliseconds. -/
def socketActivationCooldown : ℕ := 1000

/-- Register the units of a plan and bind their sockets; a socket that cannot be bound is a
failed unit. -/
def prepareUnits (k : Kernel) (plan : BootPlan) (cgroup : Cgroup) : UnitManager × Activated :=
  let m : UnitManager := { bootInProgress := true, cgroup := cgroup }
  let m := plan.configs.foldl (fun m config => (m.add config).1) m
  let m := { m with templates := plan.templates }
  let r := plan.configs.foldl
    (fun s config =>
      match config.socketActivate with
      | none => s
      | some path =>
        match Activated.bind k s.2 config.name path with
        | .error _ => ((s.1.failStart k config.name).1, s.2)
        | .ok activation =>
          (match activation[config.name]? with
            | some bound =>
              { s.1 with listenFds := s.1.listenFds.insert config.name bound.2 }
            | none => s.1,
            activation))
    (m, (∅ : Activated))
  ({ r.1 with shutdownOrder := plan.levels.flatten }, r.2)

namespace Supervisor

/-- The loop at its start. -/
def init (k : Kernel) (plan : BootPlan) (cgroup : Cgroup) : Supervisor :=
  let r := prepareUnits k plan cgroup
  { manager := r.1, activation := r.2, boot := some { plan := plan } }

/-- Feed one reaped child in; one the manager does not own may be an auxiliary command. -/
def reapOne (k : Kernel) (s : Supervisor) (exit : Pid × ExitOutcome) : Supervisor :=
  match s.manager.onChildExit k exit.1 exit.2 with
  | (m, some _) => { s with manager := m }
  | (m, none) =>
    { s with
      manager := m
      starts := if s.manager.ownsChild exit.1 then s.starts else s.starts.takeAux exit.1 exit.2 }

/-- Begin the starts a timer pass found due. -/
def beginAll (k : Kernel) (s : Supervisor) (units : List UnitName) : Supervisor :=
  units.foldl
    (fun s unit =>
      let r := s.starts.begin_ k s.manager unit
      { s with manager := r.1, starts := r.2 })
    s

/-- Drop the start of a unit. -/
def cancelFlow (k : Kernel) (s : Supervisor) (unit : UnitName) : Supervisor :=
  let r := s.starts.removeFlow k s.manager unit
  { s with manager := r.1, starts := r.2 }

/-- Stop a unit nobody has connected to. -/
def stopIdle (k : Kernel) (s : Supervisor) (unit : UnitName) : Supervisor :=
  let s := s.cancelFlow k unit
  let r := s.manager.requestStop k unit .userStop
  { s with manager := (applyEffect k r.1 unit r.2).1 }

/-- Start a socket activated unit if no other reason says not to. -/
def tryStartSocket (k : Kernel) (s : Supervisor) (unit : UnitName) : Supervisor :=
  let s := { s with manager := s.manager.noteConnection k unit }
  let coolingDown := (s.socketActivations[unit]?).any fun at_ =>
    k.now - at_ < socketActivationCooldown
  if s.manager.isRunning unit then
    { s with socketActivations := s.socketActivations.insert unit k.now }
  else if s.starts.flows.contains unit || s.manager.isFailed unit || coolingDown then s
  else if (s.manager.requiredClosure unit).any s.manager.isFailed then s
  else
    match s.starts.startAsync k s.manager unit with
    | (m, starts, .ok _) =>
      { s with
        manager := m
        starts := starts
        socketActivations := s.socketActivations.insert unit k.now }
    | (m, starts, .error _) => { s with manager := m, starts := starts }

/-- Advance the boot schedule, which ends when its last level has settled. -/
def advanceBoot (k : Kernel) (s : Supervisor) : Supervisor :=
  match s.boot with
  | none => s
  | some boot =>
    let (boot, m, starts) := boot.advance k (s.manager, s.starts)
    if boot.complete then
      { s with manager := { m with bootInProgress := false }, starts := starts, boot := none }
    else { s with manager := m, starts := starts, boot := some boot }

/-- Start what was connected to during the boot. -/
def wakeSockets (k : Kernel) (s : Supervisor) : Supervisor :=
  if s.boot.isSome then s
  else s.pendingSocketWakes.toList.foldl (tryStartSocket k) { s with pendingSocketWakes := ∅ }

/-- A connection on a bound socket. -/
def connection (k : Kernel) (s : Supervisor) (unit : UnitName) : Supervisor :=
  if !s.manager.unitExists unit || !s.activation.contains unit then s
  else if s.boot.isSome then
    { s with pendingSocketWakes := s.pendingSocketWakes.insert unit }
  else s.tryStartSocket k unit

/-- Keep an answer, or the start that will give one. -/
def answer (s : Supervisor) : ControlAction → Supervisor
  | .reply status text => { s with replies := s.replies ++ [(status, text)] }
  | .start job =>
    { s with starts :=
        { s.starts with controls := s.starts.controls ++ [{ job with reply := .waiting }] } }

/-- The reply to a reload. -/
def reloadReply : Except String Report → Reply
  | .ok report => (.ok, "\n".intercalate (report.lines ++ [report.summary]))
  | .error e => (.error, "reload rejected, the running configuration is unchanged: " ++ e)

/-- Carry out a control request. -/
def handle (k : Kernel) (s : Supervisor) : Request → Supervisor
  | .start unit =>
    let r := controlStart k s.manager unit
    answer { s with manager := r.1 } r.2
  | .stop unit =>
    let s := s.cancelFlow k unit
    let r := controlStop k s.manager unit
    answer { s with manager := r.1 } (.reply r.2.1 r.2.2)
  | .restart unit =>
    let r := controlRestart k s.manager unit
    answer { s with manager := r.1 } r.2
  | .resetFailed unit =>
    if s.manager.unitExists unit then
      answer { s with manager := s.manager.resetFailed unit }
        (.reply .ok (unit.canonical ++ ": cleared"))
    else answer s (.reply .noSuchUnit (noSuchUnit unit).2)
  | .reload files warnings defaultTarget =>
    let r := ReloadState.reload k files warnings defaultTarget
      { manager := s.manager, starts := s.starts, activation := s.activation }
    let a := r.1.starts.afterReload k r.1.manager
    { s with
      manager := a.1
      starts := a.2.1
      activation := r.1.activation
      replies := s.replies ++ a.2.2 ++ [reloadReply r.2] }

/-- A request that comes before the boot is over is turned away. -/
def control (k : Kernel) (s : Supervisor) (request : Request) : Supervisor :=
  if s.boot.isSome then
    answer s (.reply .conflict "boot is still in progress; retry after boot completes")
  else s.handle k request

/-- One thing the loop does. -/
def step (k : Kernel) (s : Supervisor) : Input → Supervisor
  | .reap exits => exits.foldl (reapOne k) s
  | .advance =>
    let r := s.starts.advance k s.manager
    { s with manager := r.1, starts := r.2.1, replies := s.replies ++ r.2.2 }
  | .boot => s.advanceBoot k
  | .wakeSockets => s.wakeSockets k
  | .restarts =>
    let r := s.manager.dueRestarts k
    beginAll k { s with manager := r.1 } r.2
  | .queuedStarts =>
    let r := s.manager.dueQueuedStarts k
    beginAll k { s with manager := r.1 } r.2
  | .startTimeouts => { s with manager := (s.manager.dueStartTimeouts k).1 }
  | .kills => { s with manager := (s.manager.dueKills k).1 }
  | .healthProbes => { s with manager := (s.manager.dueHealthProbes k).1 }
  | .probeTimeouts => { s with manager := (s.manager.dueProbeTimeouts k).1 }
  | .idle =>
    let r := s.manager.dueIdleUnits k
    r.2.foldl (stopIdle k) { s with manager := r.1 }
  | .notify unit message => { s with manager := (s.manager.onNotify k unit message).1 }
  | .control request => s.control k request
  | .connection unit => s.connection k unit

end Supervisor

end Rinit
