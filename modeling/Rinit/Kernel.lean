import Rinit.State

/-!
# What the kernel answers

`Kernel` holds the answers of the system calls the manager makes during one operation :
the clock, `kill(2)` and `getpgid(2)`, the cgroup files, the unit's own files and the
spawns. Nothing is assumed about them. `Traced` is a computation that notes the signals it
sends and the processes it makes, in order.

The process helpers follow the program's own : `killProcessGroup` addresses the group only
when the pid leads it, and none of them signals init or a reserved pid.
-/

namespace Rinit

abbrev Pid := ℤ

abbrev Errno := ℕ

def ePerm : Errno := 1

def eNoEnt : Errno := 2

def eSrch : Errno := 3

def eInval : Errno := 22

def sigKill : ℕ := 9

def sigTerm : ℕ := 15

/-- What the task that waits for an exec has reported to the start flow. -/
inductive SpawnReport where
  | empty
  | closed
  | started
  | failed (error : String)
deriving DecidableEq, Repr

/-- The answers of the system during one operation. Times are milliseconds since the
manager was made; a negative `kill` target is a process group. -/
structure Kernel where
  now : ℕ
  getpid : Pid
  geteuid : ℕ
  getpgid : Pid → Except Errno Pid
  kill : ℤ → ℕ → Except Errno Unit
  groupHasOtherMembers : Pid → Pid → Bool
  processUid : Pid → Option ℕ
  readUnitFile : String → ℕ → Except String String
  /-- `sandbox::resolve` : the uid a unit runs as. -/
  resolve : UnitConfig → Except String ℕ
  /-- The pids in a unit's cgroup, if the directory can be read. -/
  cgroupProcesses : UnitName → Option (List Pid)
  cgroupSetup : UnitName → CgroupLimits → Except String (Option String)
  cgroupOomKills : UnitName → Option ℕ
  /-- Fork the main process : its pid, and whether the exec is still to be confirmed. -/
  spawn : UnitName → Except String (Pid × Bool)
  /-- Fork a health probe, a stop command or an auxiliary command of a unit. -/
  spawnDetached : UnitName → ExecCommand → Except String Pid
  pathExists : String → Bool
  armNotify : UnitName → Except String Unit
  spawnReport : UnitName → SpawnReport
  /-- Bind a listening socket : its descriptor. -/
  bindSocket : UnitName → String → Except String ℤ

/-- A system call that reached out. -/
inductive Call where
  | kill (target : ℤ) (signal : ℕ) (ok : Bool)
  | spawn (unit : UnitName) (pid : Pid)
  | command (unit : UnitName) (pid : Pid)
deriving DecidableEq, Repr

/-- A value and the calls that were made for it. -/
structure Traced (α : Type*) where
  val : α
  calls : List Call := []

namespace Traced

variable {α β : Type*}

instance : Monad Traced where
  pure a := ⟨a, []⟩
  bind x f := ⟨(f x.val).val, x.calls ++ (f x.val).calls⟩

@[simp] theorem pure_val (a : α) : (pure a : Traced α).val = a := rfl

@[simp] theorem pure_calls (a : α) : (pure a : Traced α).calls = [] := rfl

@[simp] theorem bind_val {α β : Type} (x : Traced α) (f : α → Traced β) :
    (x >>= f).val = (f x.val).val := rfl

@[simp] theorem bind_calls {α β : Type} (x : Traced α) (f : α → Traced β) :
    (x >>= f).calls = x.calls ++ (f x.val).calls := rfl

end Traced

/-- Where units' cgroups live, `none` when cgroups are off. -/
abbrev Cgroup := Option String

namespace Kernel

/-- `kill(2)`, noted. -/
def send (k : Kernel) (target : ℤ) (signal : ℕ) : Traced (Except Errno Unit) :=
  ⟨k.kill target signal, [.kill target signal (k.kill target signal).isOk]⟩

/-- Signal the process group `pid` leads, or the pid itself when it leads none. -/
def killProcessGroup (k : Kernel) (pid : Pid) (signal : ℕ) : Traced (Except Errno Unit) :=
  if pid ≤ 1 then pure (.error eInval)
  else
    match k.getpgid pid with
    | .error e => pure (.error e)
    | .ok group => k.send (if group = pid then -pid else pid) signal

/-- Signal a process group by its id. -/
def killGroup (k : Kernel) (pgid : Pid) (signal : ℕ) : Traced (Except Errno Unit) :=
  if pgid ≤ 1 then pure (.error eInval) else k.send (-pgid) signal

/-- Whether any process still belongs to a group. -/
def groupAlive (k : Kernel) (pgid : Pid) : Bool :=
  if pgid ≤ 1 then false else (k.kill (-pgid) 0).isOk

/-- Signal a unit's process, never init or rinit itself. -/
def signalProcess (k : Kernel) (pid : Pid) (signal : ℕ) : Traced (Except Errno Unit) :=
  if pid ≤ 1 ∨ pid = k.getpid then pure (.error eInval) else k.killProcessGroup pid signal

/-- Signal the process group of a process, if there is one. -/
def killAny (k : Kernel) (pid : Option Pid) (signal : ℕ) : Traced Unit :=
  match pid with
  | some pid => do let _ ← k.killProcessGroup pid signal
  | none => pure ()

/-- Signal a unit's process, if it has one. -/
def signalAny (k : Kernel) (pid : Option Pid) (signal : ℕ) : Traced Unit :=
  match pid with
  | some pid => do let _ ← k.signalProcess pid signal
  | none => pure ()

/-- Signal a process group, if there is one. -/
def killAnyGroup (k : Kernel) (pgid : Option Pid) (signal : ℕ) : Traced Unit :=
  match pgid with
  | some pgid => do let _ ← k.killGroup pgid signal
  | none => pure ()

/-- The processes of a unit's own cgroup. -/
def members (k : Kernel) (cg : Cgroup) (unit : UnitName) : Option (List Pid) :=
  cg.bind fun _ => k.cgroupProcesses unit

/-- Signal everything in a unit's cgroup. -/
def signalMembers (k : Kernel) (cg : Cgroup) (unit : UnitName) (signal : ℕ) : Traced Unit :=
  ((k.members cg unit).getD []).foldlM
    (fun _ pid => if pid ≤ 1 then pure () else do let _ ← k.send pid signal) ()

def oomKills (k : Kernel) (cg : Cgroup) (unit : UnitName) : Option ℕ :=
  cg.bind fun _ => k.cgroupOomKills unit

/-- The longest deadline, 2 ^ 40 seconds. -/
def maxTimeout : ℕ := 2 ^ 40 * 1000

/-- A deadline `timeout` milliseconds from now. -/
def after (k : Kernel) (timeout : ℕ) : ℕ := k.now + min timeout maxTimeout

def afterSecs (k : Kernel) (secs : ℕ) : ℕ := k.after (secs * 1000)

/-- A deadline in seconds, 0 for none. -/
def deadline (k : Kernel) (secs : ℕ) : Option ℕ := if secs = 0 then none else some (k.afterSecs secs)

/-- Fork a command of a unit under the unit's own identity. -/
def runDetached (k : Kernel) (unit : UnitName) (config : UnitConfig) (command : ExecCommand) :
    Traced (Except String Pid) :=
  match k.resolve config with
  | .error e => pure (.error e)
  | .ok _ =>
    match k.spawnDetached unit command with
    | .error e => pure (.error e)
    | .ok pid => ⟨.ok pid, [.command unit pid]⟩

/-- A kernel that grants everything, for concrete runs : every process leads its group, every
signal is delivered, and a fork gives `pid`. -/
def granting (now : ℕ) (pid : Pid) : Kernel where
  now := now
  getpid := 1
  geteuid := 0
  getpgid := .ok
  kill _ _ := .ok ()
  groupHasOtherMembers _ _ := false
  processUid _ := some 0
  readUnitFile _ _ := .ok ""
  resolve _ := .ok 0
  cgroupProcesses _ := none
  cgroupSetup _ _ := .ok none
  cgroupOomKills _ := none
  spawn _ := .ok (pid, false)
  spawnDetached _ _ := .ok (pid + 1)
  pathExists _ := true
  armNotify _ := .ok ()
  spawnReport _ := .started
  bindSocket _ _ := .ok 3

end Kernel

end Rinit
