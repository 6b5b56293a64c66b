import Rinit.Name

/-!
# The unit file data model

Every field of a parsed unit file, with the defaults of `UnitConfig.new`. Zero is
meaningful in the timeouts (`TimeoutStartSec=0` waits for ever, `TimeoutStopSec=0` kills
at once), and unset differs from empty in the capability sets, so those are options.
-/

namespace Rinit

/-- How a service is considered started. -/
inductive ServiceKind where
  | simple
  | oneshot
  | notify
  | forking
deriving DecidableEq, Repr

/-- When a service is restarted after it exits. -/
inductive RestartPolicy where
  | no
  | always
  | onSuccess
  | onFailure
  | onAbnormal
deriving DecidableEq, Repr

/-- A command split into `argv`; empty when unset. -/
structure ExecCommand where
  argv : List String
deriving DecidableEq, Repr

def ExecCommand.empty : ExecCommand := ⟨[]⟩

def ExecCommand.isEmpty (c : ExecCommand) : Bool := c.argv.isEmpty

/-- A byte size. -/
structure SizeBytes where
  bytes : ℕ
deriving DecidableEq, Repr

inductive CpuQuota where
  | percent (p : ℕ)
  | quotaPeriod (quota period : ℕ)
deriving DecidableEq, Repr

/-- A capability name, lower case and without the `cap_` prefix. -/
structure Cap where
  name : String
deriving DecidableEq, Repr

/-- Dependency declarations of one unit. -/
structure Dependencies where
  requires : List UnitName := []
  wants : List UnitName := []
  after : List UnitName := []
  before : List UnitName := []
  conflicts : List UnitName := []
deriving DecidableEq, Repr

/-- A fully parsed unit file. -/
structure UnitConfig where
  name : UnitName
  kind : UnitType
  description : String := ""
  documentation : String := ""
  deps : Dependencies := {}
  serviceKind : ServiceKind := .simple
  execStart : ExecCommand := .empty
  execStartPre : List ExecCommand := []
  execStartPost : List ExecCommand := []
  execStop : ExecCommand := .empty
  restart : RestartPolicy := .no
  restartSec : ℕ := 2
  startLimitBurst : ℕ := 5
  startLimitIntervalSec : ℕ := 10
  timeoutStartSec : ℕ := 30
  timeoutStopSec : ℕ := 10
  user : String := ""
  group : String := ""
  noNewPrivileges : Bool := false
  capabilityBoundingSet : Option (List Cap) := none
  ambientCapabilities : Option (List Cap) := none
  environment : List (String × String) := []
  environmentFile : String := ""
  workingDirectory : String := "/"
  ttyPath : Option String := none
  ttyReset : Bool := true
  pidFile : Option String := none
  socketActivate : Option String := none
  idleTimeoutSec : ℕ := 0
  sockets : List String := []
  needsSocket : List String := []
  healthCheck : ExecCommand := .empty
  healthIntervalSec : ℕ := 30
  healthTimeoutSec : ℕ := 10
  healthRestartOnFailure : Bool := false
  cgroupMemoryMax : Option SizeBytes := none
  cgroupMemoryHigh : Option SizeBytes := none
  cgroupCpuMax : Option CpuQuota := none
  cgroupTasksMax : Option ℕ := none
deriving DecidableEq, Repr

namespace UnitConfig

/-- A configuration with every default applied and no dependencies. -/
def new (name : UnitName) : UnitConfig := { name := name, kind := name.ty }

def isTarget (c : UnitConfig) : Bool := c.kind = .target

/-- The `RestartSec=` backoff, in milliseconds. -/
def restartDelay (c : UnitConfig) : ℕ := c.restartSec * 1000

end UnitConfig

/-- Whether a unit spawns a process. -/
def spawnsProcess (config : UnitConfig) : Bool := config.kind = .service

/-- The limits a unit asks its cgroup for. -/
structure CgroupLimits where
  cpuMax : Option CpuQuota
  memoryMax : Option SizeBytes
  memoryHigh : Option SizeBytes
  tasksMax : Option ℕ
deriving DecidableEq, Repr

def CgroupLimits.fromConfig (c : UnitConfig) : CgroupLimits where
  cpuMax := c.cgroupCpuMax
  memoryMax := c.cgroupMemoryMax
  memoryHigh := c.cgroupMemoryHigh
  tasksMax := c.cgroupTasksMax

/-- A unit without limits is given no cgroup of its own. -/
def CgroupLimits.isEmpty (l : CgroupLimits) : Bool :=
  l.cpuMax.isNone && l.memoryMax.isNone && l.memoryHigh.isNone && l.tasksMax.isNone

end Rinit
