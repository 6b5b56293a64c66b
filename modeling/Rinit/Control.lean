import Rinit.Plan
import Rinit.Start

/-!
# Control requests and reloads

What `rctl start`, `stop`, `restart` and `reload` do to the manager, the start flows and
the bound sockets. A reload plans the new directory first, so a directory that is rejected
changes nothing; then units that are gone are stopped and hidden, the others are
registered or updated, and added units the boot target pulls in are started.
-/

namespace Rinit

/-- Either an answer, or a start whose answer comes later. -/
inductive ControlAction where
  | reply (status : Status) (text : String)
  | start (job : ControlStart)
deriving DecidableEq, Repr

/-- `rctl start`. -/
def controlStart (k : Kernel) (m : UnitManager) (unit : UnitName) : UnitManager × ControlAction :=
  let resolve (m : UnitManager) : UnitManager × ControlAction :=
    match ControlStart.new k m unit with
    | (m, .ok job) => (m, .start job)
    | (m, .error e) =>
      (m, .reply .error ("cannot resolve dependencies for " ++ unit.canonical ++ ": " ++ e))
  if m.unitExists unit then resolve m
  else if m.isTemplate unit then
    (m, .reply .error (unit.canonical ++ " is a template; start an instance, e.g. " ++
      String.ofList unit.stemPrefix ++ "@<name>.service"))
  else
    match m.instantiate unit with
    | .error why =>
      (m, .reply .noSuchUnit ("no such unit: " ++ unit.canonical ++ " (" ++ why ++ ")"))
    | .ok m => resolve m

/-- A start request resolves the unit that exists, or the instance it makes. -/
theorem controlStart_cases (k : Kernel) (m : UnitManager) (u : UnitName) :
    m.unitExists u = true ∧ (controlStart k m u).1 = (ControlStart.new k m u).1 ∨
    m.unitExists u = false ∧ m.isTemplate u = true ∧ (controlStart k m u).1 = m ∨
    m.unitExists u = false ∧ m.isTemplate u = false ∧
      ((∃ e, m.instantiate u = .error e) ∧ (controlStart k m u).1 = m ∨
        ∃ m', m.instantiate u = .ok m' ∧
          (controlStart k m u).1 = (ControlStart.new k m' u).1) := by
  unfold controlStart
  dsimp only
  cases m.unitExists u with
  | true =>
    refine .inl ⟨rfl, ?_⟩
    obtain ⟨_, _ | _⟩ := ControlStart.new k m u <;> rfl
  | false =>
    cases m.isTemplate u with
    | true => exact .inr (.inl ⟨rfl, rfl, rfl⟩)
    | false =>
      refine .inr (.inr ⟨rfl, rfl, ?_⟩)
      cases m.instantiate u with
      | error e => exact .inl ⟨⟨e, rfl⟩, rfl⟩
      | ok m' =>
        refine .inr ⟨m', rfl, ?_⟩
        dsimp only
        obtain ⟨_, _ | _⟩ := ControlStart.new k m' u <;> rfl

def noSuchUnit (unit : UnitName) : Reply := (.noSuchUnit, "no such unit: " ++ unit.canonical)

/-- `rctl stop`. -/
def controlStop (k : Kernel) (m : UnitManager) (unit : UnitName) : UnitManager × Reply :=
  if !m.unitExists unit then (m, noSuchUnit unit)
  else
    match m.get unit with
    | none => (m, noSuchUnit unit)
    | some rt =>
      let wasUp := !(decide (rt.state = .inactive) || rt.state.isFailed)
      match m.requestStop k unit .userStop with
      | (m, some .none) =>
        (m, .ok, if wasUp then "stopped " ++ unit.canonical
          else unit.canonical ++ " is already stopped")
      | (m, none) => (m, .ok, unit.canonical ++ " is already stopping")
      | (m, some effect) =>
        match applyEffect k m unit (some effect) with
        | (m, .ok _) => (m, .ok, "stopped " ++ unit.canonical)
        | (m, .error e) => (m, .error, "cannot stop " ++ unit.canonical ++ ": " ++ e)

/-- `rctl restart`. -/
def controlRestart (k : Kernel) (m : UnitManager) (unit : UnitName) :
    UnitManager × ControlAction :=
  if !m.unitExists unit then (m, .reply .noSuchUnit (noSuchUnit unit).2)
  else
    match m.restartUnit k unit with
    | (m, .stopping) => (m, .reply .ok ("restarting " ++ unit.canonical))
    | (m, .start) => controlStart k m unit
    | (m, .notApplicable) =>
      (m, .reply .conflict (unit.canonical ++ " has no process to restart"))

/-! ## The coordinator -/

/-- Every start that is being driven. -/
structure StartCoordinator where
  flows : Flows := ∅
  controls : List ControlStart := []
  auxExits : AuxExits := ∅

namespace StartCoordinator

/-- Add a flow for a unit that is not being started. -/
def begin_ (k : Kernel) (c : StartCoordinator) (m : UnitManager) (unit : UnitName) :
    UnitManager × StartCoordinator :=
  let r := beginFlow k m c.flows unit
  (r.1, { c with flows := r.2.1 })

def beginEffect (k : Kernel) (c : StartCoordinator) (m : UnitManager) (unit : UnitName)
    (effect : Effect) : UnitManager × StartCoordinator × Except String Unit :=
  let r := applyStartEffect k m c.flows unit effect
  (r.1, { c with flows := r.2.1 }, r.2.2)

/-- Queue a start that nobody waits for. -/
def startAsync (k : Kernel) (c : StartCoordinator) (m : UnitManager) (unit : UnitName) :
    UnitManager × StartCoordinator × Except String Unit :=
  match ControlStart.new k m unit with
  | (m, .ok job) => (m, { c with controls := c.controls ++ [job] }, .ok ())
  | (m, .error e) => (m, c, .error e)

/-- Drop a flow and kill the auxiliary command it was waiting for. -/
def removeFlow (k : Kernel) (c : StartCoordinator) (m : UnitManager) (unit : UnitName) :
    UnitManager × StartCoordinator :=
  match c.flows[unit]? with
  | none => (m, c)
  | some flow =>
    let c := { c with flows := c.flows.erase unit }
    match flow.runningAuxPid with
    | none => (m, c)
    | some pid =>
      ({ m with calls := m.calls ++ (k.killProcessGroup pid sigKill).calls },
        { c with auxExits := c.auxExits.erase pid })

/-- Keep the exits an auxiliary command is waited for with. -/
def takeAux (c : StartCoordinator) (pid : Pid) (outcome : ExitOutcome) : StartCoordinator :=
  if c.flows.toList.any fun e => e.2.runningAuxPid = some pid then
    { c with auxExits := c.auxExits.insert pid outcome }
  else c

/-- Advance one flow; a finished one is dropped. -/
def advanceFlow (k : Kernel) (s : UnitManager × StartCoordinator) (unit : UnitName) :
    UnitManager × StartCoordinator :=
  match s.2.flows[unit]? with
  | none => s
  | some flow =>
    let t := StartFlow.advance k { flow := flow, manager := s.1, aux := s.2.auxExits }
    let c := { s.2 with flows := s.2.flows.insert unit t.flow, auxExits := t.aux }
    if t.done.isSome then c.removeFlow k t.manager unit else (t.manager, c)

/-- Advance every control start; one whose client is gone is dropped, one that is done is
answered. -/
def advanceControls (k : Kernel) : List ControlStart → UnitManager → Flows → AuxExits →
    UnitManager × StartCoordinator × List Reply
  | [], m, flows, aux => (m, { flows := flows, auxExits := aux }, [])
  | job :: rest, m, flows, aux =>
    if job.reply = .closed then advanceControls k rest m flows aux
    else
      let t := ControlStart.advance k { job := job, manager := m, flows := flows, aux := aux }
      let r := advanceControls k rest t.manager t.flows t.aux
      match t.done with
      | some reply => (r.1, r.2.1, if job.reply = .waiting then reply :: r.2.2 else r.2.2)
      | none => (r.1, { r.2.1 with controls := t.job :: r.2.1.controls }, r.2.2)

/-- Advance every flow and every control start once. -/
def advance (k : Kernel) (c : StartCoordinator) (m : UnitManager) :
    UnitManager × StartCoordinator × List Reply :=
  let s := c.flows.keys.foldl (advanceFlow k) (m, c)
  advanceControls k s.2.controls s.1 s.2.flows s.2.auxExits

/-- Drop the starts of units a reload removed. -/
def afterReload (k : Kernel) (c : StartCoordinator) (m : UnitManager) :
    UnitManager × StartCoordinator × List Reply :=
  let s := (c.flows.keys.filter fun unit => !m.unitExists unit).foldl
    (fun s unit => s.2.removeFlow k s.1 unit) (m, c)
  let gone := s.2.controls.filter fun job => !m.unitExists job.target
  (s.1, { s.2 with controls := s.2.controls.filter fun job => m.unitExists job.target },
    (gone.filter fun job => job.reply = .waiting).map fun job => noSuchUnit job.target)

end StartCoordinator

/-! ## Reload -/

/-- The bound sockets : path and descriptor of each unit. -/
abbrev Activated := Std.ExtTreeMap UnitName (String × ℤ) compare

/-- Bind a unit's socket; the same path is left alone and another unit's is refused. -/
def Activated.bind (k : Kernel) (a : Activated) (unit : UnitName) (path : String) :
    Except String Activated :=
  match a[unit]? with
  | some bound =>
    if bound.1 = path then .ok a else rebind
  | none => rebind
where
  /-- Bind the path anew. -/
  rebind : Except String Activated :=
    match a.toList.find? fun e => e.1 ≠ unit ∧ e.2.1 = path with
    | some e => .error (path ++ " is already bound for " ++ e.1.canonical)
    | none =>
      match k.bindSocket unit path with
      | .error e => .error e
      | .ok fd => .ok (a.insert unit (path, fd))

/-- What one reload did. -/
structure Report where
  added : List UnitName := []
  started : List UnitName := []
  applied : List UnitName := []
  deferred : List UnitName := []
  removed : List UnitName := []
  stopped : List UnitName := []
  pruned : ℕ := 0
  unchanged : ℕ := 0
deriving DecidableEq, Repr

/-- The counts, in one line. -/
def Report.summary (r : Report) : String :=
  "reload: " ++ toString r.added.length ++ " added (" ++ toString r.started.length ++
    " started), " ++ toString (r.applied.length + r.deferred.length) ++ " changed (" ++
    toString r.deferred.length ++ " deferred), " ++ toString r.removed.length ++ " removed (" ++
    toString r.stopped.length ++ " stopped), " ++ toString r.unchanged ++ " unchanged"

/-- One line for each action. -/
def Report.lines (r : Report) : List String :=
  r.stopped.map (fun u => "stopped " ++ u.canonical ++ ": its unit file is gone") ++
  r.removed.map (fun u => "removed " ++ u.canonical) ++
  r.applied.map (fun u => u.canonical ++ ": new definition in force") ++
  r.deferred.map (fun u => u.canonical ++
    " is running; its new definition applies at the next start") ++
  r.added.map (fun u => "registered " ++ u.canonical) ++
  r.started.map (fun u => "started " ++ u.canonical ++ ": the boot target requires it") ++
  if 0 < r.pruned then
    ["dropped " ++ toString r.pruned ++ " unit(s) a previous reload removed"] else []

/-- What a reload works on. -/
structure ReloadState where
  manager : UnitManager
  starts : StartCoordinator
  activation : Activated
  report : Report := {}

namespace ReloadState

/-- Whether a unit is gone from the directory : it exists, is not planned, and is not an
instance of a template that is still there. -/
def isGone (m : UnitManager) (plan : BootPlan) (name : UnitName) : Bool :=
  m.unitExists name && (plan.configOf name).isNone &&
    !name.template.any fun template => plan.templates.contains template.canonical

/-- Hide a unit that is gone. -/
def hide (k : Kernel) (s : ReloadState) (name : UnitName) : ReloadState :=
  { s with
    activation := s.activation.erase name
    manager := UnitManager.retire k
      { s.manager with listenFds := s.manager.listenFds.erase name } name
    report := { s.report with removed := s.report.removed ++ [name] } }

/-- Stop and hide a unit that is gone. -/
def removeUnit (k : Kernel) (plan : BootPlan) (s : ReloadState) (name : UnitName) :
    ReloadState × Except String Unit :=
  if !isGone s.manager plan name then (s, .ok ())
  else if s.manager.isUp name then
    let r := s.manager.requestStop k name .userStop
    match applyEffect k r.1 name r.2 with
    | (m, .error e) => ({ s with manager := m }, .error e)
    | (m, .ok _) =>
      (hide k { s with
        manager := m
        report := { s.report with stopped := s.report.stopped ++ [name] } } name, .ok ())
  else (hide k s name, .ok ())

def removeUnits (k : Kernel) (plan : BootPlan) : List UnitName → ReloadState →
    ReloadState × Except String Unit
  | [], s => (s, .ok ())
  | name :: rest, s =>
    match removeUnit k plan s name with
    | (s, .error e) => (s, .error e)
    | (s, .ok _) => removeUnits k plan rest s

/-- Make the bound socket match the definition. -/
def reconcileSocket (k : Kernel) (s : ReloadState) (config : UnitConfig) : ReloadState :=
  let unit := config.name
  let setListener (a : Activated) (m : UnitManager) : UnitManager :=
    match a[unit]? with
    | some bound => { m with listenFds := m.listenFds.insert unit bound.2 }
    | none => m
  match config.socketActivate, s.activation[unit]? with
  | none, none => s
  | none, some _ =>
    { s with
      activation := s.activation.erase unit
      manager := { s.manager with listenFds := s.manager.listenFds.erase unit } }
  | some path, _ =>
    match s.activation.bind k unit path with
    | .ok activation =>
      { s with activation := activation, manager := setListener activation s.manager }
    | .error _ =>
      match s.activation[unit]? with
      | some _ => { s with manager := setListener s.activation s.manager }
      | none => { s with manager := { s.manager with listenFds := s.manager.listenFds.erase unit } }

/-- Note in the report what registering a definition did. -/
def noteChange (r : Report) (name : UnitName) (wasRetired : Bool) (change : ConfigChange) :
    Report :=
  if wasRetired then { r with added := r.added ++ [name] }
  else
    match change with
    | .added => { r with added := r.added ++ [name] }
    | .applied => { r with applied := r.applied ++ [name] }
    | .deferred => { r with deferred := r.deferred ++ [name] }
    | .unchanged => { r with unchanged := r.unchanged + 1 }

/-- Register or update one definition. -/
def registerUnit (k : Kernel) (s : ReloadState) (config : UnitConfig) : ReloadState :=
  let wasRetired := (s.manager.get config.name).any (·.retired)
  let r := s.manager.addWithInFlight config (s.starts.flows.contains config.name)
  reconcileSocket k
    { s with manager := r.1, report := noteChange s.report config.name wasRetired r.2 } config

/-- Start an added unit of the schedule; one with a socket waits for a connection. -/
def startAdded (k : Kernel) (plan : BootPlan) (s : ReloadState) (name : UnitName) : ReloadState :=
  if !s.report.added.contains name then s
  else if (plan.configOf name).any fun config => config.socketActivate.isSome then s
  else
    match s.starts.startAsync k s.manager name with
    | (m, starts, .ok _) =>
      { s with
        manager := m
        starts := starts
        report := { s.report with started := s.report.started ++ [name] } }
    | (m, starts, .error _) => { s with manager := m, starts := starts }

/-- Apply a plan. -/
def applyPlan (k : Kernel) (plan : BootPlan) (s : ReloadState) :
    ReloadState × Except String Report :=
  let pruned := s.manager.pruneRetired
  let s := { s with manager := pruned.1, report := { pruned := pruned.2 } }
  match removeUnits k plan s.manager.names s with
  | (s, .error e) => (s, .error e)
  | (s, .ok _) =>
    let s := plan.configs.foldl (registerUnit k) s
    let s := plan.levels.flatten.foldl (startAdded k plan) s
    let s := { s with manager := { s.manager with
      templates := plan.templates
      shutdownOrder := plan.levels.flatten } }
    (s, .ok s.report)

/-- Read the unit directory again and apply the difference. -/
def reload (k : Kernel) (files : List UnitFile) (warnings : List String) (defaultTarget : String)
    (s : ReloadState) : ReloadState × Except String Report :=
  match BootPlan.planBoot files warnings defaultTarget with
  | .error e => (s, .error e)
  | .ok plan => applyPlan k plan s

end ReloadState

end Rinit
