import Mathlib.Data.List.Sort
import Rinit.Graph
import Rinit.Parser
import Rinit.Runtime

/-!
# The unit manager

`UnitManager` holds every unit with the requests, the templates and the cached dependency
graph. Its operations are the ones the supervisor calls : definitions come and go, starts
and stops are requested, processes are spawned, signalled and reaped, and the timer passes
run over all units at one instant.

`calls` is the trace of the signals that were sent and the processes that were made.
-/

namespace Rinit

abbrev Units := Std.ExtTreeMap UnitName UnitRuntime compare

/-- Tracks every unit. -/
structure UnitManager where
  units : Units := ∅
  jobs : JobQueue := {}
  queuedStarts : Std.ExtTreeMap UnitName RequestSource compare := ∅
  shutdownOrder : List UnitName := []
  cgroup : Cgroup := none
  listenFds : Std.ExtTreeMap UnitName ℤ compare := ∅
  templates : Std.ExtTreeMap String String compare := ∅
  bootInProgress : Bool := false
  graphCache : Option (UInt64 × DependencyGraph) := none
  graphRevision : UInt64 := 0
  calls : List Call := []

/-- How a restart request was carried out. -/
inductive RestartPlan where
  | stopping
  | start
  | notApplicable
deriving DecidableEq, Repr

/-- What happened to a unit when a child was reaped. -/
inductive Outcome where
  | forked (unit : UnitName) (daemon : Pid)
  | exited (unit : UnitName) (state : UnitState)
  | restartScheduled (unit : UnitName) (delay : ℕ)
  | startLimitTripped (unit : UnitName) (failures : ℕ)
deriving DecidableEq, Repr

namespace UnitManager

/-! ## Entries -/

/-- Read a unit. -/
def get (m : UnitManager) (unit : UnitName) : Option UnitRuntime := m.units[unit]?

/-- Write a unit, noting the calls that were made for it. -/
def put (m : UnitManager) (unit : UnitName) (rt : Traced UnitRuntime) : UnitManager :=
  { m with units := m.units.insert unit rt.val, calls := m.calls ++ rt.calls }

/-- Change a known unit. -/
def update (m : UnitManager) (unit : UnitName) (f : UnitRuntime → Traced UnitRuntime) :
    UnitManager :=
  match m.get unit with
  | some rt => m.put unit (f rt)
  | none => m

/-- Change a known unit without reaching out. -/
def modify (m : UnitManager) (unit : UnitName) (f : UnitRuntime → UnitRuntime) : UnitManager :=
  m.update unit fun rt => pure (f rt)

/-- Run over every unit in name order; the units that reported. -/
def pass (m : UnitManager) (f : UnitName → UnitRuntime → Traced (UnitRuntime × Bool)) :
    UnitManager × List UnitName :=
  ({ m with
      units := m.units.map fun name rt => (f name rt).val.1
      calls := m.calls ++ m.units.toList.flatMap fun e => (f e.1 e.2).calls },
    (m.units.toList.filter fun e => (f e.1 e.2).val.2).map Prod.fst)

section Entries

variable (m : UnitManager) (u v : UnitName)

@[simp] theorem get_put (rt : Traced UnitRuntime) :
    (m.put u rt).get v = if u = v then some rt.val else m.get v := by
  simp [put, get, Std.ExtTreeMap.getElem?_insert]

@[simp] theorem get_update (f : UnitRuntime → Traced UnitRuntime) :
    (m.update u f).get v = if u = v then (m.get u).map fun rt => (f rt).val else m.get v := by
  unfold update
  cases h : m.get u with
  | none =>
    by_cases huv : u = v
    · subst huv
      simp [h]
    · simp [huv]
  | some rt => simp

@[simp] theorem get_modify (f : UnitRuntime → UnitRuntime) :
    (m.modify u f).get v = if u = v then (m.get u).map f else m.get v :=
  get_update m u v _

@[simp] theorem get_pass (f : UnitName → UnitRuntime → Traced (UnitRuntime × Bool)) :
    (m.pass f).1.get v = (m.get v).map fun rt => (f v rt).val.1 := by
  simp [pass, get, Std.ExtTreeMap.getElem?_map]

theorem mem_pass {f : UnitName → UnitRuntime → Traced (UnitRuntime × Bool)} :
    u ∈ (m.pass f).2 ↔ ∃ rt, m.get u = some rt ∧ (f u rt).val.2 = true := by
  simp [pass, get, Std.ExtTreeMap.mem_toList_iff_getElem?_eq_some]

end Entries

/-- Whether a unit is known and still has a unit file. -/
def unitExists (m : UnitManager) (unit : UnitName) : Bool := (m.get unit).any fun rt => !rt.retired

/-- Every known unit, tombstones included. -/
def names (m : UnitManager) : List UnitName := m.units.keys

def isUp (m : UnitManager) (unit : UnitName) : Bool := (m.get unit).any UnitRuntime.isUp

def isFailed (m : UnitManager) (unit : UnitName) : Bool := (m.get unit).any (·.state.isFailed)

def isRunning (m : UnitManager) (unit : UnitName) : Bool := (m.get unit).any (·.pid.isSome)

def isDeactivating (m : UnitManager) (unit : UnitName) : Bool :=
  (m.get unit).any fun rt => rt.state = .deactivating

/-! ## Definitions -/

/-- Note that a definition changed, so the cached graph is out of date. -/
def invalidateGraph (m : UnitManager) : UnitManager :=
  { m with graphRevision := m.graphRevision + 1 }

/-- Whether a name is a template, which cannot be started itself. -/
def isTemplate (m : UnitManager) (unit : UnitName) : Bool :=
  unit.isTemplate && m.templates.contains unit.canonical

/-- The definition of a template instance. -/
def expand (m : UnitManager) (unit : UnitName) : Except String UnitConfig :=
  match unit.template with
  | none => .error (unit.canonical ++ " is not a template instance")
  | some template =>
    match m.templates[template.canonical]? with
    | none => .error ("no template " ++ template.canonical)
    | some text =>
      match substitute text unit with
      | none =>
        .error (template.canonical ++ " has a %-specifier that is not %i, %n, %p or %%")
      | some expanded =>
        match parse unit expanded with
        | .error e => .error (template.canonical ++ ": " ++ e.display)
        | .ok config => .ok config

/-- Bring a template instance into being. -/
def instantiate (m : UnitManager) (unit : UnitName) : Except String UnitManager :=
  match m.expand unit with
  | .error e => .error e
  | .ok config =>
    .ok (invalidateGraph
      { m with units := m.units.insert unit (UnitRuntime.new config) })

/-- Register a definition, or update a known unit. -/
def addWithInFlight (m : UnitManager) (config : UnitConfig) (inFlight : Bool) :
    UnitManager × ConfigChange :=
  match m.get config.name with
  | none =>
    (invalidateGraph { m with units := m.units.insert config.name (UnitRuntime.new config) },
      .added)
  | some rt =>
    let r := rt.redefine config inFlight
    let m := m.put config.name (pure r.1)
    (if r.2 = .applied then m.invalidateGraph else m, r.2)

def add (m : UnitManager) (config : UnitConfig) : UnitManager × ConfigChange :=
  m.addWithInFlight config false

/-- Mark a unit as removed by a reload. -/
def retire (k : Kernel) (m : UnitManager) (unit : UnitName) : UnitManager :=
  let m := { m with queuedStarts := m.queuedStarts.erase unit }
  match m.get unit with
  | some rt => (m.put unit (rt.retire k)).invalidateGraph
  | none => m

/-- Drop the tombstones that have nothing left in flight; how many went. -/
def pruneRetired (m : UnitManager) : UnitManager × ℕ :=
  let units := m.units.filter fun _ rt => !rt.prunable
  let removed := m.units.size - units.size
  let m := { m with units := units }
  (if 0 < removed then m.invalidateGraph else m, removed)

/-- Take a deferred definition at the beginning of a start. -/
def adoptPendingConfig (m : UnitManager) (unit : UnitName) : UnitManager :=
  match m.get unit with
  | some rt => (m.put unit (pure rt.adoptPendingConfig)).invalidateGraph
  | none => m

/-! ## The start order -/

/-- The definitions in force, in name order. -/
def configs (m : UnitManager) : List UnitConfig :=
  (m.units.toList.filter fun e => !e.2.retired).map (·.2.config)

/-- The dependencies of a unit in a graph, in boot order. -/
def orderIn (graph : DependencyGraph) (unit : UnitName) : Except String (List UnitName) :=
  match graph.levels with
  | .error e => .error e.display
  | .ok levels =>
    .ok (levels.flatten.filter fun candidate =>
      candidate ≠ unit && (graph.closureOf unit).contains candidate)

/-- The graph of the definitions in force, from the cache when its revision is current. -/
def graph (m : UnitManager) : UnitManager × Except String DependencyGraph :=
  match m.graphCache with
  | some (revision, graph) =>
    if revision = m.graphRevision then (m, .ok graph) else rebuild
  | none => rebuild
where
  /-- Build the graph anew and cache it. -/
  rebuild : UnitManager × Except String DependencyGraph :=
    match DependencyGraph.build m.configs with
    | .error e => (m, .error e.display)
    | .ok graph => ({ m with graphCache := some (m.graphRevision, graph) }, .ok graph)

/-- The dependencies a start of `unit` must bring up first, in boot order. -/
def startOrder (m : UnitManager) (unit : UnitName) :
    UnitManager × Except String (List UnitName) :=
  match m.graph with
  | (m, .error e) => (m, .error e)
  | (m, .ok graph) => (m, orderIn graph unit)

/-- Push the names that were not seen yet, the last one on top. -/
def pushUnseen (s : List UnitName × Std.ExtTreeSet UnitName compare × List UnitName)
    (required : UnitName) : List UnitName × Std.ExtTreeSet UnitName compare × List UnitName :=
  if s.2.1.contains required then s
  else (required :: s.1, s.2.1.insert required, s.2.2 ++ [required])

/-- Walk `Requires=` from the names on the stack. -/
def requiredRun (m : UnitManager) : ℕ → List UnitName → Std.ExtTreeSet UnitName compare →
    List UnitName → List UnitName
  | 0, _, _, out => out
  | _ + 1, [], _, out => out
  | fuel + 1, current :: stack, seen, out =>
    match m.get current with
    | none => requiredRun m fuel stack seen out
    | some rt =>
      let s := rt.config.deps.requires.foldl pushUnseen (stack, seen, out)
      requiredRun m fuel s.1 s.2.1 s.2.2

/-- Enough steps for every name that any unit requires. -/
def requiredFuel (m : UnitManager) : ℕ :=
  (m.units.toList.map fun e => e.2.config.deps.requires.length).sum + 2

/-- The transitive `Requires=` of a unit. -/
def requiredClosure (m : UnitManager) (unit : UnitName) : List UnitName :=
  requiredRun m m.requiredFuel [unit] {unit} []

/-! ## Requests -/

def targetOf (m : UnitManager) (unit : UnitName) : Option JobTarget :=
  (m.jobs.targetOf unit).map (·.target)

/-- What the merged target asks for right now. -/
def effectFor (m : UnitManager) (unit : UnitName) : Option Effect :=
  (m.get unit).bind fun rt => m.jobs.reconcile unit rt.state

/-- Forget a target the unit already satisfies. -/
def forgetSpentTarget (m : UnitManager) (unit : UnitName) : UnitManager :=
  if m.effectFor unit = some .none then { m with jobs := m.jobs.forget unit } else m

/-- Apply the state part of a request that needs no side effect. -/
def applyNoneTransition (m : UnitManager) (unit : UnitName) : UnitManager :=
  if m.effectFor unit = some .none then
    match m.targetOf unit with
    | some target => m.modify unit (·.settle target)
    | none => m
  else m

/-- Submit a request for a known unit and derive the action it implies. -/
def submitRequest (k : Kernel) (m : UnitManager) (unit : UnitName) (target : JobTarget)
    (source : RequestSource) : UnitManager × Option Effect :=
  let m := m.forgetSpentTarget unit
  let m := { m with jobs := (m.jobs.submit ⟨unit, target, source, k.now⟩).1 }
  let effect := m.effectFor unit
  let m := if effect = some .none then m.applyNoneTransition unit else m
  let queued := match target with
    | .started =>
      if effect.isNone && m.isDeactivating unit then m.queuedStarts.insert unit source
      else m.queuedStarts
    | .stopped => m.queuedStarts.erase unit
  ({ m with queuedStarts := queued }, effect)

/-- Submit a request; asking for an instance is what creates it. -/
def request (k : Kernel) (m : UnitManager) (unit : UnitName) (target : JobTarget)
    (source : RequestSource) : UnitManager × Option Effect :=
  match m.get unit with
  | some _ => submitRequest k m unit target source
  | none =>
    match m.instantiate unit with
    | .error _ => (m, none)
    | .ok m => submitRequest k m unit target source

def requestStart (k : Kernel) (m : UnitManager) (unit : UnitName) (source : RequestSource) :
    UnitManager × Option Effect :=
  request k m unit .started source

def requestStop (k : Kernel) (m : UnitManager) (unit : UnitName) (source : RequestSource) :
    UnitManager × Option Effect :=
  request k m unit .stopped source

/-- Re-make one start that was queued behind a stop; whether it is to be carried out. -/
def dueQueuedStart (k : Kernel) (m : UnitManager) (unit : UnitName) (source : RequestSource) :
    UnitManager × Bool :=
  if !m.unitExists unit then ({ m with queuedStarts := m.queuedStarts.erase unit }, false)
  else if m.isDeactivating unit then (m, false)
  else
    let r := request k { m with queuedStarts := m.queuedStarts.erase unit } unit .started source
    (r.1, r.2 = some .spawnProcess)

/-- The starts that were queued behind a stop which has finished. -/
def dueQueuedStarts (k : Kernel) (m : UnitManager) : UnitManager × List UnitName :=
  m.queuedStarts.toList.foldl
    (fun s e =>
      let r := dueQueuedStart k s.1 e.1 e.2
      (r.1, if r.2 then s.2 ++ [e.1] else s.2))
    (m, [])

/-- Stop a unit. -/
def stopUnit (k : Kernel) (m : UnitManager) (unit : UnitName) : UnitManager :=
  m.update unit (·.stop k m.cgroup unit)

/-- Restart a unit : stop it if it is running, with the intention to start it again. -/
def restartUnit (k : Kernel) (m : UnitManager) (unit : UnitName) : UnitManager × RestartPlan :=
  match m.get unit with
  | none => (m, .notApplicable)
  | some rt =>
    match rt.state with
    | .activeExited => (m, .notApplicable)
    | .inactive | .failed _ => (m, .start)
    | .active | .starting | .restartWait | .deactivating =>
      let m := m.stopUnit k unit
      if m.isDeactivating unit then
        (m.modify unit fun rt => { rt with restartAfterStop := true }, .stopping)
      else (m, .start)

/-- Clear a unit's failure and breaker without starting it. -/
def resetFailed (m : UnitManager) (unit : UnitName) : UnitManager :=
  m.modify unit UnitRuntime.resetFailed

def clearStartLimit (m : UnitManager) (unit : UnitName) : UnitManager :=
  m.modify unit UnitRuntime.clearStartLimit

/-- Whether a unit that conflicts with a start has to be stopped for it. -/
def needsStop (rt : UnitRuntime) : Bool :=
  rt.pid.isSome || rt.state = .starting || rt.state = .restartWait || rt.state = .deactivating

/-- Stop one conflicting unit, if it needs to be. -/
def stopConflict (k : Kernel) (m : UnitManager) (other : UnitName) : UnitManager × Bool :=
  if (m.get other).any needsStop then
    ((requestStop k m other .userStop).1.stopUnit k other, true)
  else (m, false)

/-- Stop every unit that `unit` excludes; the ones that were stopped. -/
def stopConflicts (k : Kernel) (m : UnitManager) (unit : UnitName) :
    UnitManager × List UnitName :=
  match m.get unit with
  | none => (m, [])
  | some rt =>
    rt.config.deps.conflicts.foldl
      (fun s other =>
        let r := stopConflict k s.1 other
        (r.1, if r.2 then s.2 ++ [other] else s.2))
      (m, [])

/-- Cap every unit's `TimeoutStopSec=`. -/
def compressStopTimeouts (m : UnitManager) (secs : ℕ) : UnitManager :=
  { m with units := m.units.map fun _ rt => rt.compressStopTimeout secs }

/-! ## Failures -/

/-- The units that hard require `unit`, in name order. -/
def requiresDependents (units : Units) (unit : UnitName) : List UnitName :=
  (units.toList.filter fun e => e.2.config.deps.requires.contains unit).map (·.2.config.name)

/-- The walk over the dependents of a failed unit. -/
structure Cascade where
  units : Units
  visited : Std.ExtTreeSet UnitName compare
  queue : List UnitName
  failed : List UnitName

/-- Fail a dependent, unless it has failed. -/
def Cascade.mark (c : Cascade) (dependent : UnitName) (rt : UnitRuntime) : Cascade :=
  if rt.state.isFailed then c
  else { c with
    units := c.units.insert dependent { rt with state := .failed .startFailure }
    failed := c.failed ++ [dependent] }

/-- Go on from a dependent, unless the walk was there. -/
def Cascade.enqueue (c : Cascade) (dependent : UnitName) : Cascade :=
  if c.visited.contains dependent then c
  else { c with visited := c.visited.insert dependent, queue := dependent :: c.queue }

/-- Fail a dependent without a process and go on from it. -/
def Cascade.visit (c : Cascade) (dependent : UnitName) : Cascade :=
  match c.units[dependent]? with
  | none => c
  | some rt => if rt.pid.isSome then c else (c.mark dependent rt).enqueue dependent

def Cascade.run : ℕ → Cascade → Cascade
  | 0, c => c
  | fuel + 1, c =>
    match c.queue with
    | [] => c
    | current :: queue =>
      Cascade.run fuel
        ((requiresDependents c.units current).foldl Cascade.visit { c with queue := queue })

/-- Fail the dependents of `unit`; a unit enters the queue once. -/
def cascade (m : UnitManager) (unit : UnitName) : UnitManager × List UnitName :=
  let c := Cascade.run (m.units.size + 1)
    { units := m.units, visited := {unit}, queue := [unit], failed := [] }
  ({ m with units := c.units }, c.failed)

/-- Record that `unit` failed to start and fail whatever hard requires it. -/
def failStart (k : Kernel) (m : UnitManager) (unit : UnitName) : UnitManager × List UnitName :=
  (m.update unit (·.failOwn k m.cgroup unit)).cascade unit

/-- Complete a target after its level has settled. -/
def reachTarget (k : Kernel) (m : UnitManager) (unit : UnitName) : UnitManager × UnitState :=
  match m.get unit with
  | none => (m, .inactive)
  | some rt =>
    if rt.state.isFailed || rt.config.deps.requires.any m.isFailed then
      ((m.failStart k unit).1, .failed .startFailure)
    else (m.modify unit fun rt => { rt with state := .active }, .active)

/-! ## Processes -/

/-- Prepare a start and fork the process. -/
def beginSpawnUnit (k : Kernel) (m : UnitManager) (unit : UnitName) :
    UnitManager × Except String UnitRuntime.SpawnBegin :=
  match m.get unit with
  | none => (m, .ok .alreadyRunning)
  | some rt =>
    let r := rt.beginSpawn k m.cgroup unit
    (m.put unit ⟨r.val.1, r.calls⟩, r.val.2)

def capStartDeadline (m : UnitManager) (unit : UnitName) (deadline : ℕ) : UnitManager :=
  m.modify unit (·.capStartDeadline deadline)

def noteConnection (k : Kernel) (m : UnitManager) (unit : UnitName) : UnitManager :=
  m.modify unit (·.noteConnection k)

/-- Record a notify message; whether the unit became ready. -/
def onNotify (k : Kernel) (m : UnitManager) (unit : UnitName)
    (message : UnitRuntime.NotifyMessage) : UnitManager × Bool :=
  match m.get unit with
  | none => (m, false)
  | some rt =>
    let r := rt.onNotify k message
    (m.put unit (pure r.1), r.2)

def dueIdleUnits (k : Kernel) (m : UnitManager) : UnitManager × List UnitName :=
  m.pass fun _ rt => pure (rt.dueIdle k)

def dueStartTimeouts (k : Kernel) (m : UnitManager) : UnitManager × List UnitName :=
  m.pass fun name rt => rt.startTimeout k m.cgroup name

def dueKills (k : Kernel) (m : UnitManager) : UnitManager × List UnitName :=
  m.pass fun name rt => rt.kill k m.cgroup name

def dueHealthProbes (k : Kernel) (m : UnitManager) : UnitManager × List UnitName :=
  m.pass fun name rt => rt.healthProbe k name

def dueProbeTimeouts (k : Kernel) (m : UnitManager) : UnitManager × List UnitName :=
  m.pass fun _ rt => rt.probeTimeout k

def dueRestarts (k : Kernel) (m : UnitManager) : UnitManager × List UnitName :=
  m.pass fun _ rt => pure (rt.dueRestart k)

/-! ## Exits -/

/-- The first unit, in name order, that `p` holds of. -/
def owner (m : UnitManager) (p : UnitRuntime → Bool) : Option UnitName :=
  (m.units.toList.find? fun e => p e.2).map Prod.fst

def probeOwner (m : UnitManager) (pid : Pid) : Option UnitName :=
  m.owner fun rt => rt.probePid = some pid

def execStopOwner (m : UnitManager) (pid : Pid) : Option UnitName :=
  m.owner fun rt => rt.execStopPid = some pid

def mainOwner (m : UnitManager) (pid : Pid) : Option UnitName :=
  m.owner fun rt => rt.pid = some pid

/-- Largest `PIDFile=` that is read. -/
def maxPidFileBytes : ℕ := 4096

/-- The pid a forking unit's daemon should have. -/
def daemonPid (k : Kernel) (cg : Cgroup) (config : UnitConfig) (unit : UnitName) :
    Except String Pid :=
  match config.pidFile with
  | some path =>
    match k.readUnitFile path maxPidFileBytes with
    | .error e => .error ("cannot read PIDFile " ++ path ++ ": " ++ e)
    | .ok text =>
      match parsePid (trim text.toList) with
      | some pid => .ok pid
      | none =>
        .error ("PIDFile " ++ path ++ " does not hold a pid ('" ++
          String.ofList (trim text.toList) ++ "')")
  | none =>
    match k.members cg unit with
    | none =>
      .error (unit.canonical ++ " has no PIDFile= and no cgroup of its own; a Type=forking unit " ++
        "needs one or the other")
    | some [only] => .ok only
    | some other =>
      .error ("its cgroup holds " ++ toString other.length ++
        " process(es), so the daemon is not uniquely determined")

/-- The uid a unit's processes run as. -/
def expectedUid (k : Kernel) (config : UnitConfig) : Except String ℕ :=
  if (trim config.user.toList).isEmpty then .ok k.geteuid
  else
    match k.resolve config with
    | .ok uid => .ok uid
    | .error e => .error ("cannot resolve User= for PIDFile validation: " ++ e)

/-- Locate the daemon a forking unit left behind, and check that it is the unit's. -/
def findDaemon (k : Kernel) (cg : Cgroup) (config : UnitConfig) (unit : UnitName) :
    Except String Pid := do
  let pid ← daemonPid k cg config unit
  if pid ≤ 1 then throw ("pid " ++ toString pid ++ " is not a service process")
  if pid = k.getpid then throw "PIDFile names rinit itself"
  if !(k.kill pid 0).isOk then throw ("pid " ++ toString pid ++ " is not running")
  match k.members cg unit with
  | some members =>
    if members.contains pid then return pid
    else throw ("pid " ++ toString pid ++ " is not in " ++ unit.canonical ++
      "'s cgroup; refusing to move an unrelated process")
  | none =>
    let expected ← expectedUid k config
    match k.processUid pid with
    | some uid =>
      if uid = expected then return pid
      else throw ("pid " ++ toString pid ++ " runs as uid " ++ toString uid ++ ", but " ++
        unit.canonical ++ " runs as uid " ++ toString expected)
    | none => throw ("cannot verify the identity of pid " ++ toString pid ++ " from /proc")

/-- Whether an exit is the middle of a forking unit's start. -/
def forks (rt : UnitRuntime) (outcome : ExitOutcome) : Bool :=
  rt.state = .starting && rt.config.serviceKind = .forking && outcome = .success

/-- The daemon that takes over when the main process of a forking unit exits. -/
def forkedDaemon (k : Kernel) (m : UnitManager) (unit : UnitName) (rt : UnitRuntime)
    (outcome : ExitOutcome) : Option Pid :=
  if forks rt outcome then (findDaemon k m.cgroup rt.config unit).toOption else none

/-- What the manager reports about an exit. -/
def report (unit : UnitName) : UnitRuntime.Verdict → Outcome
  | .exited state _ => .exited unit state
  | .restartScheduled delay => .restartScheduled unit delay
  | .startLimitTripped failures _ => .startLimitTripped unit failures

/-- The exit of a unit's main process. -/
def onMainExit (k : Kernel) (m : UnitManager) (unit : UnitName) (rt : UnitRuntime) (pid : Pid)
    (outcome : ExitOutcome) : UnitManager × Option Outcome :=
  match forkedDaemon k m unit rt outcome with
  | some daemon => (m.put unit (pure (rt.markDaemonStarted k daemon)), some (.forked unit daemon))
  | none =>
    let r := rt.mainExit k m.bootInProgress pid outcome
    let m := m.put unit ⟨r.val.1, r.calls⟩
    (if r.val.2.fails then (m.failStart k unit).1 else m, some (report unit r.val.2))

/-- Feed a reaped child back in : a probe, a stop command or a main process. -/
def onChildExit (k : Kernel) (m : UnitManager) (pid : Pid) (outcome : ExitOutcome) :
    UnitManager × Option Outcome :=
  match m.probeOwner pid with
  | some unit => (m.update unit (·.finishProbe k m.cgroup unit outcome), none)
  | none =>
    match m.execStopOwner pid with
    | some unit => (m.update unit (·.execStopExit k m.cgroup unit outcome), none)
    | none =>
      match m.mainOwner pid with
      | none => (m, none)
      | some unit =>
        match m.get unit with
        | none => (m, none)
        | some rt => onMainExit k m unit rt pid outcome

/-- Whether a pid belongs to a unit, a probe or a stop command. -/
def ownsChild (m : UnitManager) (pid : Pid) : Bool :=
  m.units.toList.any fun e =>
    e.2.pid = some pid || e.2.probePid = some pid || e.2.execStopPid = some pid

end UnitManager

end Rinit
