import Rinit.Graph
import Rinit.Parser

/-!
# The boot plan

`planBoot` parses a unit directory and resolves its schedule. It either gives a whole
plan or an error, so a reload that fails has changed nothing. A template is parsed to
find mistakes early and kept as text, since an instance is expanded before it is parsed.
-/

namespace Rinit

/-- One unit file. -/
structure UnitFile where
  name : UnitName
  path : String
  contents : String
deriving DecidableEq, Repr

/-- A resolved unit directory. -/
structure BootPlan where
  configs : List UnitConfig
  levels : List (List UnitName)
  defaultTarget : UnitName
  warnings : List String
  templates : Std.ExtTreeMap String String compare

namespace BootPlan

/-- The text a parse error is reported with. -/
def annotate (file : UnitFile) (e : ParseError) : String :=
  "parse unit failed: " ++ file.path ++ ": " ++ e.display

/-- What the files hold so far : the parsed units and the templates. -/
abbrev Loaded := List UnitConfig × Std.ExtTreeMap String String compare

def loadFile (loaded : Loaded) (file : UnitFile) : Except String Loaded :=
  match parse file.name file.contents with
  | .error e => .error (annotate file e)
  | .ok config =>
    if file.name.isTemplate then
      .ok (loaded.1, loaded.2.insert file.name.canonical file.contents)
    else .ok (loaded.1 ++ [config], loaded.2)

def loadFiles (files : List UnitFile) : Except String Loaded := files.foldlM loadFile ([], ∅)

/-- The levels of a graph, cut down to the units that are wanted. -/
def wantedLevels (levels : List (List UnitName)) (wanted : List UnitName) :
    List (List UnitName) :=
  (levels.map fun level => level.filter wanted.contains).filter fun level => !level.isEmpty

theorem flatten_wantedLevels (levels : List (List UnitName)) (wanted : List UnitName) :
    (wantedLevels levels wanted).flatten = levels.flatten.filter wanted.contains := by
  unfold wantedLevels
  rw [List.flatten_filter_not_isEmpty, List.filter_flatten]

/-- Resolve the units of a directory against the boot target. -/
def resolve (loaded : Loaded) (warnings : List String) (defaultTarget : String) :
    Except String BootPlan :=
  match resolveSockets loaded.1 with
  | .error e => .error e.display
  | .ok (configs, socketWarnings) =>
    match UnitName.parse defaultTarget with
    | .error e => .error e.display
    | .ok target =>
      match DependencyGraph.build configs with
      | .error e => .error e.display
      | .ok graph =>
        if graph.units.contains target then
          match graph.levels with
          | .error e => .error e.display
          | .ok levels =>
            .ok { configs := configs
                  levels := wantedLevels levels (graph.closureOf target)
                  defaultTarget := target
                  warnings := warnings ++ socketWarnings ++ graph.warnings
                  templates := loaded.2 }
        else .error (DependencyError.unknownDefaultTarget target).display

/-- Load, parse and resolve a unit directory, given as its files in name order with the
warnings of reading them. -/
def planBoot (files : List UnitFile) (warnings : List String) (defaultTarget : String) :
    Except String BootPlan :=
  match loadFiles files with
  | .error e => .error e
  | .ok loaded => resolve loaded warnings defaultTarget

/-- How a plan came about. -/
theorem planBoot_eq_ok {files : List UnitFile} {warnings : List String} {target : String}
    {plan : BootPlan} (h : planBoot files warnings target = .ok plan) :
    ∃ loaded socketWarnings graph levels, loadFiles files = .ok loaded ∧
      resolveSockets loaded.1 = .ok (plan.configs, socketWarnings) ∧
      DependencyGraph.build plan.configs = .ok graph ∧ graph.levels = .ok levels ∧
      plan.levels = wantedLevels levels (graph.closureOf plan.defaultTarget) := by
  unfold planBoot at h
  split at h
  · cases h
  · next loaded hload =>
    unfold resolve at h
    split at h
    · cases h
    · next configs socketWarnings hsockets =>
      split at h
      · cases h
      · split at h
        · cases h
        · next graph hbuild =>
          split at h
          · split at h
            · cases h
            · next levels hlevels =>
              obtain rfl := Except.ok.inj h
              exact ⟨loaded, socketWarnings, graph, levels, hload, hsockets, hbuild, hlevels, rfl⟩
          · cases h

def configOf (plan : BootPlan) (name : UnitName) : Option UnitConfig :=
  plan.configs.find? fun c => c.name = name

theorem mem_of_configOf {plan : BootPlan} {name : UnitName} {config : UnitConfig}
    (h : plan.configOf name = some config) : config ∈ plan.configs ∧ config.name = name :=
  ⟨List.mem_of_find?_eq_some h, by simpa using List.find?_some h⟩

/-- The services of a level; targets have no process. -/
def commandsInLevel (plan : BootPlan) (level : List UnitName) : List UnitName :=
  level.filter fun name => (plan.configOf name).any spawnsProcess

end BootPlan

end Rinit
