import Mathlib.Data.List.Sort
import Rinit.Config
import Rinit.Toposort

/-!
# The dependency graph

`DependencyGraph.build` turns the parsed units into a graph on their indices in name
order. `Requires=`, `Wants=` and `After=` make the unit wait for what they name, and
`Before=` makes the named unit wait; a `Wants=` that names no unit is only a warning and
`Conflicts=` makes no edge. `activations` holds the `Requires=` and `Wants=` edges alone,
which are the ones that start a unit because another one is started.

`topologicalOrder` and `levels` are the schedule, `closureOf` what a unit pulls in, and
`findCycle` the path that is reported when there is no schedule.
-/

namespace Rinit

/-- Something wrong with the dependency structure of a unit directory. -/
inductive DependencyError where
  | cycle (path : List UnitName)
  | missingDependency (requiredBy missing : UnitName) (directive : String)
  | unknownDefaultTarget (target : UnitName)
  | duplicateSocket (path : String) (first second : UnitName)
  | duplicateUnit (unit : UnitName)
deriving DecidableEq, Repr

def DependencyError.display : DependencyError → String
  | .cycle path => "dependency cycle: " ++ " -> ".intercalate (path.map (·.canonical))
  | .missingDependency requiredBy missing directive =>
    requiredBy.canonical ++ ": " ++ directive ++ "=" ++ missing.canonical ++
      " but no such unit file exists"
  | .unknownDefaultTarget target =>
    "boot target " ++ target.canonical ++ " not found in the unit directory"
  | .duplicateSocket path first second =>
    first.canonical ++ " and " ++ second.canonical ++ " both declare Sockets=" ++ path ++
      "; a socket path has to have one provider"
  | .duplicateUnit unit => unit.canonical ++ " is defined more than once"

/-! ## Sockets -/

/-- The unit that declares each `Sockets=` path. -/
abbrev Providers := Std.ExtTreeMap String UnitName compare

def claimSocket (unit : UnitName) (providers : Providers) (path : String) :
    Except DependencyError Providers :=
  match providers[path]? with
  | some first => .error (.duplicateSocket path first unit)
  | none => .ok (providers.insert path unit)

def claimSockets (providers : Providers) (config : UnitConfig) :
    Except DependencyError Providers :=
  config.sockets.foldlM (claimSocket config.name) providers

/-- The provider a `NeedsSocket=` path makes `config` depend on; a unit is not its own. -/
def requiredProvider (providers : Providers) (config : UnitConfig) (path : String) :
    Option UnitName :=
  providers[path]?.filter (· ≠ config.name)

/-- Append unless it is there. -/
def pushUnique {α : Type*} [DecidableEq α] (list : List α) (value : α) : List α :=
  if list.contains value then list else list ++ [value]

/-- Add the providers of the `NeedsSocket=` paths to `Requires=` and `After=`. -/
def requireProviders (providers : Providers) (config : UnitConfig) : UnitConfig :=
  let requires := config.needsSocket.filterMap (requiredProvider providers config)
  { config with deps := { config.deps with
      requires := requires.foldl pushUnique config.deps.requires
      after := requires.foldl pushUnique config.deps.after } }

def orphanWarnings (providers : Providers) (config : UnitConfig) : List String :=
  (config.needsSocket.filter fun path => providers[path]?.isNone).map fun path =>
    config.name.canonical ++ ": NeedsSocket=" ++ path ++
      " has no unit declaring it; waiting for the path anyway"

/-- Turn `Sockets=` and `NeedsSocket=` into dependencies : the configs with them, and a
warning for each path without a provider. -/
def resolveSockets (configs : List UnitConfig) :
    Except DependencyError (List UnitConfig × List String) := do
  let providers ← configs.foldlM claimSockets ∅
  return (configs.map (requireProviders providers), configs.flatMap (orphanWarnings providers))

/-! ## The graph -/

/-- How strongly a reference binds the unit that declared it. -/
inductive Edge where
  | requires
  | wants
  | after
deriving DecidableEq, Repr

def Edge.directive : Edge → String
  | .requires => "Requires"
  | .wants => "Wants"
  | .after => "After"

/-- A resolved dependency graph : the units in name order and, for each index, the
indices it waits for and the indices it activates. -/
structure DependencyGraph where
  units : List UnitName
  dependencies : List (List ℕ)
  activations : List (List ℕ)
  warnings : List String
deriving DecidableEq, Repr

/-- The position of a unit, a binary search of the sorted units. -/
def indexOf (units : List UnitName) (name : UnitName) : Option ℕ := units.idxOf? name

namespace DependencyGraph

/-- `Before=` : the referenced unit waits for `me`. -/
def addBefore (cfg : UnitConfig) (me : ℕ) (graph : DependencyGraph) (unit : UnitName) :
    Except DependencyError DependencyGraph :=
  match indexOf graph.units unit with
  | some other =>
    .ok { graph with dependencies := graph.dependencies.modify other (pushUnique · me) }
  | none => .error (.missingDependency cfg.name unit "Before")

/-- `Conflicts=` makes no edge, but a reference that names no unit is worth a warning. -/
def addConflict (cfg : UnitConfig) (graph : DependencyGraph) (unit : UnitName) :
    DependencyGraph :=
  match indexOf graph.units unit with
  | some _ => graph
  | none =>
    { graph with warnings := graph.warnings ++
        [cfg.name.canonical ++ ": Conflicts=" ++ unit.canonical ++
          " but no such unit file exists"] }

/-- A reference of `me` : it waits for the referenced unit, and starts it unless the
reference is an `After=`. -/
def addEdge (cfg : UnitConfig) (me : ℕ) (graph : DependencyGraph) (reference : UnitName × Edge) :
    Except DependencyError DependencyGraph :=
  match indexOf graph.units reference.1 with
  | some other =>
    .ok { graph with
      dependencies := graph.dependencies.modify me (pushUnique · other)
      activations :=
        if reference.2 = .requires ∨ reference.2 = .wants then
          graph.activations.modify me (pushUnique · other)
        else graph.activations }
  | none =>
    match reference.2 with
    | .requires | .after =>
      .error (.missingDependency cfg.name reference.1 reference.2.directive)
    | .wants =>
      .ok { graph with warnings := graph.warnings ++
        [cfg.name.canonical ++ ": Wants=" ++ reference.1.canonical ++
          " but no such unit file exists"] }

/-- The references of a unit, in the order they are resolved. -/
def references (cfg : UnitConfig) : List (UnitName × Edge) :=
  cfg.deps.requires.map (·, .requires) ++ cfg.deps.wants.map (·, .wants) ++
    cfg.deps.after.map (·, .after)

/-- All the edges one unit declares. -/
def addUnit (graph : DependencyGraph) (cfg : UnitConfig) :
    Except DependencyError DependencyGraph :=
  match indexOf graph.units cfg.name with
  | none => .ok graph
  | some me => do
    let graph ← cfg.deps.before.foldlM (addBefore cfg me) graph
    let graph := cfg.deps.conflicts.foldl (addConflict cfg) graph
    (references cfg).foldlM (addEdge cfg me) graph

/-- Collect the names of the sorted configs, which must be distinct. -/
def collectUnit (units : List UnitName) (cfg : UnitConfig) :
    Except DependencyError (List UnitName) :=
  if units.getLast? = some cfg.name then .error (.duplicateUnit cfg.name)
  else .ok (units ++ [cfg.name])

/-- Depth first search marks. -/
inductive Mark where
  | unseen
  | onStack
  | done
deriving DecidableEq, Repr

/-- The state of the search : the marks, the path from the start, and the nodes with a
cursor into their dependencies, innermost first. -/
structure Search where
  marks : List Mark
  stack : List ℕ
  work : List (ℕ × ℕ)

/-- The units of a closed path on the stack. -/
def cyclePath (graph : DependencyGraph) (stack : List ℕ) (next : ℕ) : List UnitName :=
  let startAt := (stack.idxOf? next).getD 0
  (stack.drop startAt).filterMap (graph.units[·]?) ++ graph.units[next]?.toList

/-- Follow the search from one start; a cycle that is met ends it. -/
def searchFrom (graph : DependencyGraph) : ℕ → Search → List UnitName ⊕ Search
  | 0, s => .inr s
  | fuel + 1, s =>
    match s.work with
    | [] => .inr s
    | (node, cursor) :: work =>
      match (graph.dependencies.getD node [])[cursor]? with
      | some next =>
        let work := (node, cursor + 1) :: work
        match s.marks.getD next .done with
        | .unseen =>
          searchFrom graph fuel
            { marks := s.marks.set next .onStack
              stack := s.stack ++ [next]
              work := (next, 0) :: work }
        | .onStack => .inl (cyclePath graph s.stack next)
        | .done => searchFrom graph fuel { s with work := work }
      | none =>
        searchFrom graph fuel
          { marks := s.marks.set node .done
            stack := s.stack.dropLast
            work := work }

/-- Enough steps for a whole search : each node is entered and left once and each of its
dependencies looked at once. -/
def searchFuel (graph : DependencyGraph) : ℕ :=
  (graph.dependencies.map fun ds => ds.length + 2).sum + 1

/-- Search from every start in turn. -/
def searchAll (graph : DependencyGraph) : List ℕ → Search → List UnitName
  | [], _ => graph.units
  | start :: starts, s =>
    if s.marks.getD start .done ≠ .unseen then searchAll graph starts s
    else
      match searchFrom graph graph.searchFuel
          { marks := s.marks.set start .onStack
            stack := s.stack ++ [start]
            work := [(start, 0)] } with
      | .inl path => path
      | .inr s => searchAll graph starts s

/-- A concrete cycle, to report it. -/
def findCycle (graph : DependencyGraph) : DependencyError :=
  .cycle (searchAll graph (List.range graph.units.length)
    { marks := List.replicate graph.units.length .unseen, stack := [], work := [] })

/-- A deterministic topological order : the ready unit with the smallest name first. -/
def topologicalOrder (graph : DependencyGraph) : Except DependencyError (List UnitName) :=
  match Toposort.kahn graph.units graph.dependencies with
  | some order => .ok order
  | none => .error graph.findCycle

/-- Build the graph of a set of parsed units. -/
def build (configs : List UnitConfig) : Except DependencyError DependencyGraph := do
  let configs := configs.insertionSort (fun a b => a.name ≤ b.name)
  let units ← configs.foldlM collectUnit []
  let units := units.insertionSort (· ≤ ·)
  let graph ← configs.foldlM addUnit
    { units := units
      dependencies := List.replicate units.length []
      activations := List.replicate units.length []
      warnings := [] }
  let _ ← graph.topologicalOrder
  return graph

/-- The units `unit` waits for. -/
def dependenciesOf (graph : DependencyGraph) (unit : UnitName) : List UnitName :=
  match graph.units.idxOf? unit with
  | some i => (graph.dependencies.getD i []).filterMap (graph.units[·]?)
  | none => []

/-- The startup levels; all units of a level may start at the same time. -/
def levels (graph : DependencyGraph) : Except DependencyError (List (List UnitName)) := do
  let order ← graph.topologicalOrder
  return Toposort.levels graph.dependenciesOf order

/-- Expand the activations on the stack until nothing new turns up. -/
def closureRun (graph : DependencyGraph) :
    ℕ → List ℕ → Std.ExtTreeSet ℕ compare → Std.ExtTreeSet ℕ compare
  | 0, _, seen => seen
  | _ + 1, [], seen => seen
  | fuel + 1, index :: stack, seen =>
    if seen.contains index then closureRun graph fuel stack seen
    else
      closureRun graph fuel ((graph.activations.getD index []).reverse ++ stack)
        (seen.insert index)

/-- Enough steps to expand every activation once. -/
def closureFuel (graph : DependencyGraph) : ℕ :=
  (graph.activations.map List.length).sum + 2

/-- Everything `target` activates, itself included, in name order. -/
def closureOf (graph : DependencyGraph) (target : UnitName) : List UnitName :=
  match indexOf graph.units target with
  | none => []
  | some start =>
    (closureRun graph graph.closureFuel [start] ∅).toList.filterMap (graph.units[·]?)

end DependencyGraph

/-- Build, then schedule. -/
def schedule (configs : List UnitConfig) (defaultTarget : UnitName) :
    Except DependencyError (List (List UnitName)) := do
  let graph ← DependencyGraph.build configs
  if graph.units.contains defaultTarget then graph.levels
  else .error (.unknownDefaultTarget defaultTarget)

end Rinit
