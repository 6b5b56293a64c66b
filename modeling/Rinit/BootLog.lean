import Rinit.Observed
import Rinit.Requires

/-!
# The log of a boot

The boot asks for the services of a level once everything before it has settled, while children
exit, messages arrive, timers fire and flows are advanced. `Supervisor.log` is what one step of
the loop does to the units meanwhile : each exit, each turn of a flow, each unit that is asked
for or settled, with the units before and after it. `Booted` is a run of the loop up to the end
of its boot, with the log of the whole run.

`Safe` says of a log what a unit can rely on. When it is asked for, every unit of an earlier
level has settled, and what it requires has not failed and is up (`AsksSafely`). When it is
spawned, nothing it requires has failed before without failing it as well (`SpawnsSafely`).
-/

namespace Rinit

open Relation

namespace Boot

/-- What happens to the units while a boot runs. A `pass` is that of a timer. -/
inductive Incident where
  | exit (pid : Pid) (outcome : ExitOutcome)
  | notify (unit : UnitName) (message : UnitRuntime.NotifyMessage)
  | turn (unit : UnitName)
  | pass
  | ask (unit : UnitName)
  | settle (unit : UnitName)
deriving DecidableEq

/-- One thing that happened, with the answers of the kernel and the units before and after. -/
structure Logged where
  kernel : Kernel
  before : UnitManager
  incident : Incident
  after : UnitManager

/-! ## Logs -/

/-- The services of a level that are asked for. -/
def askLog (k : Kernel) : List UnitName → UnitManager × StartCoordinator → List Logged
  | [], _ => []
  | name :: rest, s =>
    let r := (startService k s name).1
    if s.1.isFailed name || s.1.listenFds.contains name then askLog k rest r
    else ⟨k, s.1, .ask name, r.1⟩ :: askLog k rest r

/-- The services of a level that are looked at. -/
def settleLog (k : Kernel) (plan : BootPlan) (starts : StartCoordinator) :
    List UnitName → UnitManager → List Logged
  | [], _ => []
  | unit :: rest, m =>
    let r := (settleService k plan starts m unit).1
    ⟨k, m, .settle unit, r⟩ :: settleLog k plan starts rest r

/-- The targets of a level. -/
def targetLog (k : Kernel) : List UnitName → UnitManager → List Logged
  | [], _ => []
  | name :: rest, m =>
    let r := (m.reachTarget k name).1
    ⟨k, m, .settle name, r⟩ :: targetLog k rest r

/-- The beginning of a level. -/
def beginLog (k : Kernel) (b : Boot) (level : List UnitName) (s : UnitManager × StartCoordinator) :
    List Logged :=
  if b.active then [] else askLog k (b.plan.commandsInLevel level) s

/-- The levels that are walked. -/
def walkLog (k : Kernel) : List (List UnitName) → Boot → UnitManager × StartCoordinator →
    List Logged
  | [], _, _ => []
  | level :: rest, b, s =>
    beginLog k b level s ++
      let (b, m, starts) := beginLevel k b level s
      settleLog k b.plan starts b.pending.toList m ++
        match settlePending k b.plan starts b.pending.toList m with
        | (m, []) =>
          targetLog k b.targets m ++
            walkLog k rest { b with pending := ∅, level := b.level + 1, active := false }
              (settleTargets k b.targets m, starts)
        | (_, _ :: _) => []

/-- What the boot does when it is advanced. -/
def log (k : Kernel) (b : Boot) (s : UnitManager × StartCoordinator) : List Logged :=
  if b.complete then [] else walkLog k (b.plan.levels.drop b.level) b s

end Boot

namespace Supervisor

open Boot

/-- The children that are reaped. -/
def exitLog (k : Kernel) : List (Pid × ExitOutcome) → Supervisor → List Logged
  | [], _ => []
  | exit :: rest, s =>
    let r := reapOne k s exit
    ⟨k, s.manager, .exit exit.1 exit.2, r.manager⟩ :: exitLog k rest r

/-- The flows that are advanced. -/
def turnLog (k : Kernel) : List UnitName → UnitManager × StartCoordinator → List Logged
  | [], _ => []
  | unit :: rest, s =>
    let r := StartCoordinator.advanceFlow k s unit
    ⟨k, s.1, .turn unit, r.1⟩ :: turnLog k rest r

/-- What a step of the loop does to the units while the boot runs. Requests are turned away, and
connections wait. -/
def log (k : Kernel) (s : Supervisor) : Input → List Logged
  | .reap exits => exitLog k exits s
  | .advance => turnLog k s.starts.flows.keys (s.manager, s.starts)
  | .boot => (s.boot.toList.map fun b => b.log k (s.manager, s.starts)).flatten
  | .notify unit message =>
    [⟨k, s.manager, .notify unit message, (s.step k (.notify unit message)).manager⟩]
  | .restarts => [⟨k, s.manager, .pass, (s.step k .restarts).manager⟩]
  | .queuedStarts => [⟨k, s.manager, .pass, (s.step k .queuedStarts).manager⟩]
  | .startTimeouts => [⟨k, s.manager, .pass, (s.step k .startTimeouts).manager⟩]
  | .kills => [⟨k, s.manager, .pass, (s.step k .kills).manager⟩]
  | .healthProbes => [⟨k, s.manager, .pass, (s.step k .healthProbes).manager⟩]
  | .probeTimeouts => [⟨k, s.manager, .pass, (s.step k .probeTimeouts).manager⟩]
  | .idle => [⟨k, s.manager, .pass, (s.step k .idle).manager⟩]
  | .wakeSockets | .control _ | .connection _ => []

/-- A run of the loop while the boot of a plan runs, and its log. -/
inductive Booted (plan : BootPlan) : Supervisor → List Logged → Prop
  | init (k : Kernel) (cgroup : Cgroup) : Booted plan (init k plan cgroup) []
  | step {s : Supervisor} {log : List Logged} (k : Kernel) (input : Input) (h : Booted plan s log)
    (hb : s.boot.isSome = true) : Booted plan (s.step k input) (log ++ s.log k input)

end Supervisor

namespace Boot

/-! ## What happened to a unit -/

/-- The main process of `u` was made. -/
def Logged.Spawns (e : Logged) (u : UnitName) : Prop :=
  e.incident = .turn u ∧ (e.before.get u).any (·.pid.isNone) = true ∧
    (e.after.get u).any (·.pid.isSome) = true

/-- A service of this type got to its readiness point : it was spawned, it exited with 0, it
said `READY=1`, or its daemon was found. -/
def Logged.Readies (e : Logged) (kind : ServiceKind) (u : UnitName) : Prop :=
  match kind with
  | .simple => e.Spawns u
  | .oneshot => ∃ pid, e.incident = .exit pid .success ∧ e.before.ExitsMain pid u ∧
      (e.before.get u).any (·.state = .starting) = true
  | .notify => ∃ message, e.incident = .notify u message ∧ message.ready = true ∧
      (e.before.get u).any (·.state = .starting) = true
  | .forking => ∃ pid, e.incident = .exit pid .success ∧ e.before.ExitsMain pid u ∧
      (e.before.get u).any fun rt => (e.before.forkedDaemon e.kernel u rt .success).isSome

/-- `r` failed. -/
def Logged.FailsUnit (e : Logged) (r : UnitName) : Prop :=
  e.before.isFailed r = false ∧ e.after.isFailed r = true

/-- The breaker of a unit that is stopped to be restarted does not trip. -/
def Logged.Calm (e : Logged) : Prop :=
  ∀ pid outcome u, e.incident = .exit pid outcome → e.before.ExitsMain pid u →
    (e.before.get u).any (·.tripsAfterStop e.kernel) = false

/-- A message comes from a notify unit, for only such a unit is given a socket. -/
def Logged.Addressed (e : Logged) : Prop :=
  ∀ u message rt, e.incident = .notify u message → e.before.get u = some rt →
    rt.config.serviceKind = .notify

variable (plan : BootPlan) (log : List Logged) (m : UnitManager)

/-- The unit has been spawned. -/
def Spawned (u : UnitName) : Prop := ∃ e ∈ log, e.Spawns u

/-- The service has been at its readiness point. -/
def Ready (u : UnitName) : Prop :=
  ∃ c, plan.configOf u = some c ∧ ∃ e ∈ log, e.Readies c.serviceKind u

/-- The service has been ready, the target has been reached and is still up. -/
def Up (u : UnitName) : Prop :=
  match u.ty with
  | .service => Ready plan log u
  | .target => (m.get u).any (·.state = .active) = true

/-- The boot is done with the unit. -/
def Settled (u : UnitName) : Prop := m.isFailed u = true ∨ Up plan log m u

/-- `v` stands on an earlier level than `u`. -/
def Earlier (v u : UnitName) : Prop :=
  ∃ before level after, plan.levels = before ++ level :: after ∧ v ∈ before.flatten ∧ u ∈ level

/-- When `u` is asked for, every unit of an earlier level has settled, and what `u` requires has
not failed and is up. -/
structure AsksSafely (u : UnitName) : Prop where
  earlier : ∀ v, Earlier plan v u → Settled plan log m v
  required : ∀ r, RequiresUnit plan.configs u r → m.isFailed r = false ∧ Up plan log m r

/-- When `u` is spawned, nothing has failed before that would have to fail `u` : a unit that `u`
requires, also through units that had no process then. No unit is spawned for the first time
while one that it names in `Requires=` is failed. -/
structure SpawnsSafely (u : UnitName) : Prop where
  first : ¬Spawned log u → ∀ r, RequiresUnit plan.configs u r → m.isFailed r = false
  undoomed : ∀ e ∈ log, ∀ r, e.FailsUnit r → ¬Fails e.after.units r u

/-- What was asked for was asked for safely, and what was spawned was spawned safely. -/
def Safe : Prop := ∀ before e after, log = before ++ e :: after →
  (∀ u, e.incident = .ask u → AsksSafely plan before e.before u) ∧
    ∀ u, e.Spawns u → SpawnsSafely plan before e.before u

end Boot

end Rinit
