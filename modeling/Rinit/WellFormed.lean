import Rinit.Parser

/-!
# What an accepted file says

A file that `parse` accepts gives a configuration under the name of the unit, of the type of
its suffix, with limits that are positive, paths that are absolute and no restart for a
oneshot. `WellFormed` also asks that a command which is set has a program to run.

Here the parser lets something through. `command` takes a value as unset if all of its tokens
are empty, and not if the first one is. The configuration is well formed exactly if no command
is written with an empty first token and another one behind it (`wellFormed_iff`). The
invariant of the lines read so far is `Sound`.
-/

namespace Rinit

/-! ## Well-formed configurations -/

/-- There is a program to run. -/
def HasProgram (c : ExecCommand) : Prop :=
  ∃ program args, c.argv = program :: args ∧ program ≠ ""

def Absolute (path : String) : Prop := "/".toList.isPrefixOf path.toList = true

def CpuQuota.Positive : CpuQuota → Prop
  | .percent p => 0 < p
  | .quotaPeriod quota period => 0 < quota ∧ 0 < period

/-- The directives that are checked one by one. -/
structure Checked (cfg : UnitConfig) : Prop where
  burst : 1 ≤ cfg.startLimitBurst ∧ cfg.startLimitBurst ≤ 1000000
  healthInterval : 0 < cfg.healthIntervalSec
  healthTimeout : 0 < cfg.healthTimeoutSec
  memoryMax : ∀ size, cfg.cgroupMemoryMax = some size → 0 < size.bytes
  memoryHigh : ∀ size, cfg.cgroupMemoryHigh = some size → 0 < size.bytes
  cpuMax : ∀ quota, cfg.cgroupCpuMax = some quota → quota.Positive
  tasksMax : ∀ tasks, cfg.cgroupTasksMax = some tasks → 0 < tasks
  environmentFile : cfg.environmentFile = "" ∨ Absolute cfg.environmentFile
  workingDirectory : Absolute cfg.workingDirectory
  ttyPath : ∀ path, cfg.ttyPath = some path → Absolute path
  pidFile : ∀ path, cfg.pidFile = some path → Absolute path
  socketActivate : ∀ path, cfg.socketActivate = some path → Absolute path
  sockets : ∀ path ∈ cfg.sockets, Absolute path
  needsSocket : ∀ path ∈ cfg.needsSocket, Absolute path

/-- What an accepted file should give. -/
structure WellFormed (unit : UnitName) (cfg : UnitConfig) : Prop where
  name : cfg.name = unit
  kind : cfg.kind = unit.ty
  start : cfg.kind = .service → HasProgram cfg.execStart
  pre : ∀ c ∈ cfg.execStartPre, HasProgram c
  post : ∀ c ∈ cfg.execStartPost, HasProgram c
  stop : cfg.execStop.isEmpty = false → HasProgram cfg.execStop
  health : cfg.healthCheck.isEmpty = false → HasProgram cfg.healthCheck
  oneshot : cfg.serviceKind = .oneshot → cfg.restart = .no
  checked : Checked cfg

/-! ## Values -/

section Values

variable {line n : ℕ} {key text : String} {tokens : List String}

theorem number_pos (h : number line key tokens false = .ok n) : 0 < n := by
  unfold number at h
  dsimp only at h
  cases hv : parseUnsigned 64 (joinTokens tokens).toList with
  | none => simp [hv, invalid] at h
  | some value =>
    cases value with
    | zero => simp [hv, invalid] at h
    | succ value =>
      obtain rfl : value + 1 = n := by simpa [hv] using h
      exact Nat.succ_pos value

theorem size_pos {s : SizeBytes} (h : size line key text = .ok s) : 0 < s.bytes := by
  unfold size at h
  cases hv : SizeBytes.parse text.toList with
  | none => simp [hv, invalid] at h
  | some value =>
    by_cases hz : value.bytes = 0
    · simp [hv, hz, invalid] at h
    · obtain rfl : value = s := by simpa [hv, hz] using h
      exact Nat.pos_of_ne_zero hz

theorem CpuQuota.positive_of_parse {s : List Char} {quota : CpuQuota}
    (h : CpuQuota.parse s = some quota) : quota.Positive := by
  unfold CpuQuota.parse at h
  dsimp only at h
  split at h
  · split_ifs at h
    split at h
    · split_ifs at h with hp
      obtain rfl := Option.some.inj h
      exact hp.1
    · cases h
  · split at h
    · split at h
      · split_ifs at h with hz
        obtain rfl := Option.some.inj h
        rw [not_or] at hz
        exact ⟨Nat.pos_of_ne_zero hz.1, Nat.pos_of_ne_zero hz.2⟩
      · cases h
    · cases h

theorem absolute_of_require {path : String} (h : requireAbsolute line key path = .ok ()) :
    Absolute path := by
  unfold requireAbsolute at h
  split_ifs at h with habs
  · exact habs
  · cases h

end Values

/-! ## Directives -/

/-- A result that is a failure or has the property. -/
def Yields (P : UnitConfig → Prop) (x : Except ParseError UnitConfig) : Prop :=
  ∀ cfg, x = .ok cfg → P cfg

section Yields

variable {P : UnitConfig → Prop}

theorem yields_ok {cfg : UnitConfig} (h : P cfg) : Yields P (.ok cfg) := by
  intro cfg' hok
  rwa [← Except.ok.inj hok]

theorem yields_error {e : ParseError} : Yields P (.error e) := by
  intro cfg h
  cases h

theorem yields_bind {α : Type} {x : Except ParseError α} {f : α → Except ParseError UnitConfig}
    (h : ∀ a, x = .ok a → Yields P (f a)) : Yields P (x >>= f) := by
  intro cfg hok
  obtain ⟨a, ha, hf⟩ := Runs.bind_eq_ok.mp hok
  exact h a ha cfg hf

theorem yields_path {line : ℕ} {key : String} {tokens : List String} {cfg : UnitConfig}
    {set : String → UnitConfig} (h : P cfg) (hset : ∀ path, Absolute path → P (set path)) :
    Yields P (Parser.path line key tokens cfg set) := by
  unfold Parser.path
  split
  · exact yields_ok h
  · exact yields_bind fun _ habs => yields_ok (hset _ (absolute_of_require habs))

end Yields

/-- The fields that are checked one by one. -/
def checkedFields (cfg : UnitConfig) :=
  (cfg.startLimitBurst, cfg.healthIntervalSec, cfg.healthTimeoutSec, cfg.cgroupMemoryMax,
    cfg.cgroupMemoryHigh, cfg.cgroupCpuMax, cfg.cgroupTasksMax, cfg.environmentFile,
    cfg.workingDirectory, cfg.ttyPath, cfg.pidFile, cfg.socketActivate, cfg.sockets,
    cfg.needsSocket)

theorem Checked.congr {cfg cfg' : UnitConfig} (h : Checked cfg)
    (hfields : checkedFields cfg' = checkedFields cfg) : Checked cfg' := by
  simp only [checkedFields, Prod.mk.injEq] at hfields
  obtain ⟨h1, h2, h3, h4, h5, h6, h7, h8, h9, h10, h11, h12, h13, h14⟩ := hfields
  constructor
  all_goals simp only [h1, h2, h3, h4, h5, h6, h7, h8, h9, h10, h11, h12, h13, h14]
  exacts [h.burst, h.healthInterval, h.healthTimeout, h.memoryMax, h.memoryHigh, h.cpuMax,
    h.tasksMax, h.environmentFile, h.workingDirectory, h.ttyPath, h.pidFile, h.socketActivate,
    h.sockets, h.needsSocket]

theorem checked_new (name : UnitName) : Checked (UnitConfig.new name) := by
  constructor <;> simp [UnitConfig.new, Absolute]

/-- Every directive keeps the checked fields in order. -/
theorem checked_serviceDirective {cfg : UnitConfig} (h : Checked cfg) (line : ℕ) (key : String)
    (tokens : List String) : Yields Checked (Parser.serviceDirective cfg line key tokens) := by
  have hsome {α : Type} {Q : α → Prop} {a : α} (ha : Q a) : ∀ b, some a = some b → Q b :=
    fun b hb => Option.some.inj hb ▸ ha
  have hconcat {paths : List String} {p : String} (hpaths : ∀ path ∈ paths, Absolute path)
      (hp : Absolute p) : ∀ path ∈ paths ++ [p], Absolute path :=
    List.forall_mem_append.mpr ⟨hpaths, by simpa using hp⟩
  unfold Parser.serviceDirective
  dsimp only
  split
  -- the directives that set one of the fields
  case h_9 =>
    refine yields_bind fun value hvalue => ?_
    split
    · exact yields_error
    · split
      · exact yields_error
      · exact yields_ok { h with burst := ⟨number_pos hvalue, Nat.not_lt.mp ‹_›⟩ }
  case h_13 => exact yields_bind fun n hn => yields_ok { h with healthInterval := number_pos hn }
  case h_14 => exact yields_bind fun n hn => yields_ok { h with healthTimeout := number_pos hn }
  case h_22 => exact yields_path h fun p hp => { h with environmentFile := Or.inr hp }
  case h_23 => exact yields_path h fun p hp => { h with workingDirectory := hp }
  case h_24 => exact yields_path h fun p hp => { h with socketActivate := hsome hp }
  case h_26 => exact yields_path h fun p hp => { h with sockets := hconcat h.sockets hp }
  case h_27 => exact yields_path h fun p hp => { h with needsSocket := hconcat h.needsSocket hp }
  case h_28 => exact yields_path h fun p hp => { h with ttyPath := hsome hp }
  case h_30 => exact yields_path h fun p hp => { h with pidFile := hsome hp }
  case h_31 => exact yields_bind fun s hs => yields_ok { h with memoryMax := hsome (size_pos hs) }
  case h_32 => exact yields_bind fun s hs => yields_ok { h with memoryHigh := hsome (size_pos hs) }
  case h_33 =>
    cases hq : CpuQuota.parse (joinTokens tokens).toList with
    | none => exact yields_error
    | some quota =>
      exact yields_ok { h with cpuMax := hsome (CpuQuota.positive_of_parse hq) }
  case h_34 => exact yields_bind fun n hn => yields_ok { h with tasksMax := hsome (number_pos hn) }
  -- the others do not touch them
  all_goals try with_reducible refine yields_bind fun _ _ => ?_
  all_goals first
    | exact yields_error
    | exact yields_ok (h.congr rfl)
    | (split <;> first | exact yields_error | exact yields_ok (h.congr rfl))

/-- The fields that hold a command. -/
def commandFields (cfg : UnitConfig) :=
  (cfg.execStart, cfg.execStartPre, cfg.execStartPost, cfg.execStop, cfg.healthCheck)

def commandKeys : List String :=
  ["ExecStart", "ExecStartPre", "ExecStartPost", "ExecStop", "HealthCheck"]

theorem commandFields_serviceDirective (cfg : UnitConfig) (line : ℕ) {key : String}
    (tokens : List String) (hkey : key ∉ commandKeys) :
    Yields (commandFields · = commandFields cfg)
      (Parser.serviceDirective cfg line key tokens) := by
  unfold Parser.serviceDirective
  dsimp only
  split
  case h_2 | h_3 | h_4 | h_5 | h_6 => exact absurd (by decide) hkey
  case h_9 =>
    refine yields_bind fun value hvalue => ?_
    split
    · exact yields_error
    · split
      · exact yields_error
      · exact yields_ok rfl
  all_goals try with_reducible refine yields_bind fun _ _ => ?_
  all_goals first
    | exact yields_error
    | exact yields_ok rfl
    | exact yields_path rfl fun _ _ => rfl
    | (split <;> first | exact yields_error | exact yields_ok rfl)

theorem fields_unitDirective (cfg : UnitConfig) (line : ℕ) (key : String) (tokens : List String) :
    Yields (fun cfg' => commandFields cfg' = commandFields cfg ∧
      checkedFields cfg' = checkedFields cfg) (Parser.unitDirective cfg line key tokens) := by
  unfold Parser.unitDirective
  split <;> first
    | exact yields_error
    | exact yields_ok ⟨rfl, rfl⟩
    | exact yields_bind fun _ _ => yields_ok ⟨rfl, rfl⟩

/-! ## Entries -/

/-- An entry of a section, with the tokens of its value. -/
structure Entry where
  sec : Section
  key : String
  tokens : List String
deriving DecidableEq, Repr

/-- Read one logical line : the section it stands in, and the entries so far. -/
def readEntry (state : Option Section × List Entry) (l : ℕ × List Char) :
    Option Section × List Entry :=
  if (trim l.2).isEmpty || (trim l.2).head? == some '#' then state
  else
    match sectionHeader (trim l.2) l.1 with
    | .ok (some sec) => (some sec, state.2)
    | _ =>
      match state.1, splitEntry (trim l.2) with
      | some sec, some (key, value) =>
        match tokenize l.1 value with
        | .ok tokens => (state.1, state.2 ++ [⟨sec, String.ofList key, tokens⟩])
        | .error _ => state
      | _, _ => state

/-- The entries of a file, in order. -/
def entries (input : String) : List Entry :=
  ((logicalLines input.toList).foldl readEntry (none, [])).2

/-- The first token is empty and another one is not. -/
def headless (tokens : List String) : Bool :=
  tokens.head? = some "" && tokens.any (· ≠ "")

/-- A command without a program that the parser takes for one. -/
def Entry.headless (ty : UnitType) (e : Entry) : Bool :=
  e.sec = .service && commandKeys.contains e.key && (ty = .service || e.key ≠ "ExecStart") &&
    Rinit.headless e.tokens

section Command

variable {tokens : List String}

theorem isEmpty_command : (command tokens).isEmpty = tokens.all (· = "") := by
  unfold command
  cases tokens with
  | nil => rfl
  | cons token tokens =>
    split
    · rename_i hall
      rw [hall]
      rfl
    · rename_i hall
      rw [Bool.not_eq_true] at hall
      rw [hall]
      rfl

theorem headless_of_isEmpty (h : (command tokens).isEmpty = true) : headless tokens = false := by
  rw [isEmpty_command] at h
  have hany : tokens.any (· ≠ "") = false := by simpa using h
  rw [headless, hany, Bool.and_false]

theorem hasProgram_command (h : (command tokens).isEmpty = false) :
    HasProgram (command tokens) ↔ headless tokens = false := by
  rw [isEmpty_command] at h
  have hargv : (command tokens).argv = tokens := by
    rw [command, h]
    rfl
  have hany : tokens.any (· ≠ "") = true := by simpa using h
  rw [HasProgram, hargv, headless, hany, Bool.and_true]
  cases tokens with
  | nil => cases h
  | cons token tokens => simp

/-- A command that is unset or has a program was not written headless. -/
theorem usable_command : ((command tokens).isEmpty = false → HasProgram (command tokens)) ↔
    headless tokens = false := by
  cases h : (command tokens).isEmpty with
  | true => simp [headless_of_isEmpty h]
  | false => simp [hasProgram_command h]

end Command

/-! ## The lines read so far -/

/-- Every command that is set has a program; only a service needs its main one. -/
structure Usable (ty : UnitType) (cfg : UnitConfig) : Prop where
  start : ty = .service → cfg.execStart.isEmpty = false → HasProgram cfg.execStart
  pre : ∀ c ∈ cfg.execStartPre, HasProgram c
  post : ∀ c ∈ cfg.execStartPost, HasProgram c
  stop : cfg.execStop.isEmpty = false → HasProgram cfg.execStop
  health : cfg.healthCheck.isEmpty = false → HasProgram cfg.healthCheck

/-- The single-valued commands are unset until their key was seen. -/
structure Unseen (p : Parser) : Prop where
  start : (.service, "ExecStart") ∉ p.seen → p.cfg.execStart = .empty
  stop : (.service, "ExecStop") ∉ p.seen → p.cfg.execStop = .empty
  health : (.service, "HealthCheck") ∉ p.seen → p.cfg.healthCheck = .empty

/-- What holds of the parser after the entries. -/
structure Sound (ty : UnitType) (read : List Entry) (p : Parser) : Prop where
  usable : Usable ty p.cfg ↔ ∀ e ∈ read, e.headless ty = false
  unseen : Unseen p
  checked : Checked p.cfg

section Step

variable {ty : UnitType} {cfg cfg' : UnitConfig} {line : ℕ} {key : String} {tokens : List String}

theorem Usable.congr (h : Usable ty cfg) (hfields : commandFields cfg' = commandFields cfg) :
    Usable ty cfg' := by
  simp only [commandFields, Prod.mk.injEq] at hfields
  obtain ⟨h1, h2, h3, h4, h5⟩ := hfields
  constructor
  all_goals simp only [h1, h2, h3, h4, h5]
  exacts [h.start, h.pre, h.post, h.stop, h.health]

theorem headless_execStart :
    Entry.headless ty ⟨.service, "ExecStart", tokens⟩ = false ↔
      (ty = .service → headless tokens = false) := by
  cases ty <;> simp [Entry.headless, commandKeys]

theorem headless_command (h : key ∈ commandKeys) (hne : key ≠ "ExecStart") :
    Entry.headless ty ⟨.service, key, tokens⟩ = false ↔ headless tokens = false := by
  simp [Entry.headless, h, hne]

/-- A directive of a single-valued command that is unset, or of any other key, adds what its own
entry says. -/
theorem usable_serviceDirective (hstart : key = "ExecStart" → cfg.execStart = .empty)
    (hstop : key = "ExecStop" → cfg.execStop = .empty)
    (hhealth : key = "HealthCheck" → cfg.healthCheck = .empty)
    (h : Parser.serviceDirective cfg line key tokens = .ok cfg') :
    Usable ty cfg' ↔ Usable ty cfg ∧ Entry.headless ty ⟨.service, key, tokens⟩ = false := by
  have hunset {c : ExecCommand} (hc : c = .empty) : c.isEmpty = false → HasProgram c := by
    intro he
    rw [hc] at he
    cases he
  by_cases hkey : key ∈ commandKeys
  · have hcases := hkey
    simp only [commandKeys, List.mem_cons, List.not_mem_nil, or_false] at hcases
    rcases hcases with rfl | rfl | rfl | rfl | rfl
    · obtain rfl := Except.ok.inj h
      rw [headless_execStart, ← usable_command]
      constructor
      · intro u
        exact ⟨{ u with start := fun _ => hunset (hstart rfl) }, u.start⟩
      · rintro ⟨u, hu⟩
        exact { u with start := hu }
    · obtain rfl := Except.ok.inj h
      rw [headless_command hkey (by decide)]
      cases he : (command tokens).isEmpty with
      | true => simp [headless_of_isEmpty he]
      | false =>
        rw [← hasProgram_command he]
        constructor
        · intro u
          obtain ⟨hl, hc⟩ := List.forall_mem_append.mp u.pre
          exact ⟨{ u with pre := hl }, hc _ (List.mem_singleton_self _)⟩
        · rintro ⟨u, hu⟩
          exact { u with pre := List.forall_mem_append.mpr ⟨u.pre, by simpa using hu⟩ }
    · obtain rfl := Except.ok.inj h
      rw [headless_command hkey (by decide)]
      cases he : (command tokens).isEmpty with
      | true => simp [headless_of_isEmpty he]
      | false =>
        rw [← hasProgram_command he]
        constructor
        · intro u
          obtain ⟨hl, hc⟩ := List.forall_mem_append.mp u.post
          exact ⟨{ u with post := hl }, hc _ (List.mem_singleton_self _)⟩
        · rintro ⟨u, hu⟩
          exact { u with post := List.forall_mem_append.mpr ⟨u.post, by simpa using hu⟩ }
    · obtain rfl := Except.ok.inj h
      rw [headless_command hkey (by decide), ← usable_command]
      constructor
      · intro u
        exact ⟨{ u with stop := hunset (hstop rfl) }, u.stop⟩
      · rintro ⟨u, hu⟩
        exact { u with stop := hu }
    · obtain rfl := Except.ok.inj h
      rw [headless_command hkey (by decide), ← usable_command]
      constructor
      · intro u
        exact ⟨{ u with health := hunset (hhealth rfl) }, u.health⟩
      · rintro ⟨u, hu⟩
        exact { u with health := hu }
  · have hfields := commandFields_serviceDirective cfg line tokens hkey cfg' h
    have hplain : Entry.headless ty ⟨.service, key, tokens⟩ = false := by
      simp [Entry.headless, hkey]
    rw [hplain]
    exact ⟨fun u => ⟨u.congr hfields.symm, rfl⟩, fun u => u.1.congr hfields⟩

/-- A single-valued command is only set by its own key. -/
theorem single_serviceDirective (h : Parser.serviceDirective cfg line key tokens = .ok cfg') :
    (key ≠ "ExecStart" → cfg'.execStart = cfg.execStart) ∧
      (key ≠ "ExecStop" → cfg'.execStop = cfg.execStop) ∧
      (key ≠ "HealthCheck" → cfg'.healthCheck = cfg.healthCheck) := by
  by_cases hkey : key ∈ commandKeys
  · simp only [commandKeys, List.mem_cons, List.not_mem_nil, or_false] at hkey
    rcases hkey with rfl | rfl | rfl | rfl | rfl
    all_goals obtain rfl := Except.ok.inj h
    · exact ⟨fun hne => absurd rfl hne, fun _ => rfl, fun _ => rfl⟩
    · cases (command tokens).isEmpty <;> exact ⟨fun _ => rfl, fun _ => rfl, fun _ => rfl⟩
    · cases (command tokens).isEmpty <;> exact ⟨fun _ => rfl, fun _ => rfl, fun _ => rfl⟩
    · exact ⟨fun _ => rfl, fun hne => absurd rfl hne, fun _ => rfl⟩
    · exact ⟨fun _ => rfl, fun _ => rfl, fun hne => absurd rfl hne⟩
  · have hfields := commandFields_serviceDirective cfg line tokens hkey cfg' h
    simp only [commandFields, Prod.mk.injEq] at hfields
    exact ⟨fun _ => hfields.1, fun _ => hfields.2.2.2.1, fun _ => hfields.2.2.2.2⟩

end Step

section Sound

variable {ty : UnitType} {p p' : Parser} {sec : Section} {line : ℕ} {key : String}
  {tokens : List String} {read : List Entry}

theorem mem_seen_noteSeen {k : String} (hk : repeatable.contains k = false)
    (h : (.service, k) ∉ (p.noteSeen sec key).seen) :
    (sec = .service → key ≠ k) ∧ (.service, k) ∉ p.seen := by
  unfold Parser.noteSeen at h
  split at h
  · rename_i hrep
    refine ⟨?_, h⟩
    rintro - rfl
    rw [hk] at hrep
    cases hrep
  · rw [List.mem_append, not_or, List.mem_singleton] at h
    refine ⟨?_, h.1⟩
    rintro rfl rfl
    exact h.2 rfl

/-- What a `[Unit]` directive leaves alone. -/
theorem fields_unit {cfg cfg' : UnitConfig}
    (h : cfg' = cfg ∨ Parser.unitDirective cfg line key tokens = .ok cfg') :
    commandFields cfg' = commandFields cfg ∧ checkedFields cfg' = checkedFields cfg := by
  rcases h with rfl | h
  · exact ⟨rfl, rfl⟩
  · exact fields_unitDirective cfg line key tokens cfg' h

/-- A single-valued command is only set by its own entry. -/
theorem single_dispatch (h : p.dispatch sec line key tokens = .ok p') :
    (¬(sec = .service ∧ key = "ExecStart") → p'.cfg.execStart = p.cfg.execStart) ∧
      (¬(sec = .service ∧ key = "ExecStop") → p'.cfg.execStop = p.cfg.execStop) ∧
      (¬(sec = .service ∧ key = "HealthCheck") → p'.cfg.healthCheck = p.cfg.healthCheck) := by
  obtain ⟨rfl, hcfg⟩ | ⟨rfl, hcfg⟩ := Parser.dispatch_cfg h
  · have hfields := (fields_unit hcfg).1
    simp only [commandFields, Prod.mk.injEq] at hfields
    exact ⟨fun _ => hfields.1, fun _ => hfields.2.2.2.1, fun _ => hfields.2.2.2.2⟩
  · obtain ⟨h1, h2, h3⟩ := single_serviceDirective hcfg
    exact ⟨fun hne => h1 fun hk => hne ⟨rfl, hk⟩, fun hne => h2 fun hk => hne ⟨rfl, hk⟩,
      fun hne => h3 fun hk => hne ⟨rfl, hk⟩⟩

theorem Unseen.dispatch (hu : Unseen p)
    (h : (p.noteSeen sec key).dispatch sec line key tokens = .ok p') : Unseen p' := by
  obtain ⟨h1, h2, h3⟩ := single_dispatch h
  rw [(Parser.noteSeen_name p sec key).2] at h1 h2 h3
  have hunset {k : String} {c c' : ExecCommand} (hk : repeatable.contains k = false)
      (hsame : ¬(sec = .service ∧ key = k) → c' = c) (hc : (.service, k) ∉ p.seen → c = .empty)
      (hnot : (.service, k) ∉ p'.seen) : c' = .empty := by
    rw [(Parser.dispatch_frame h).2.1] at hnot
    obtain ⟨hkey, hold⟩ := mem_seen_noteSeen hk hnot
    exact (hsame fun hk => hkey hk.1 hk.2).trans (hc hold)
  exact ⟨hunset (by decide) h1 hu.start, hunset (by decide) h2 hu.stop,
    hunset (by decide) h3 hu.health⟩

theorem Sound.dispatch (hs : Sound ty read p)
    (hnew : repeatable.contains key = true ∨ (sec, key) ∉ p.seen)
    (h : (p.noteSeen sec key).dispatch sec line key tokens = .ok p') :
    Sound ty (read ++ [⟨sec, key, tokens⟩]) p' := by
  have hcfg := Parser.dispatch_cfg h
  rw [(Parser.noteSeen_name p sec key).2] at hcfg
  have hmore : (∀ e ∈ read ++ [⟨sec, key, tokens⟩], e.headless ty = false) ↔
      Usable ty p.cfg ∧ Entry.headless ty ⟨sec, key, tokens⟩ = false := by
    rw [List.forall_mem_append, List.forall_mem_singleton, hs.usable]
  obtain ⟨rfl, hcfg⟩ | ⟨rfl, hcfg⟩ := hcfg
  · obtain ⟨hcommand, hchecked⟩ := fields_unit hcfg
    refine ⟨?_, hs.unseen.dispatch h, hs.checked.congr hchecked⟩
    have hplain : Entry.headless ty ⟨.unit, key, tokens⟩ = false := by simp [Entry.headless]
    rw [hmore, hplain, and_iff_left rfl]
    exact ⟨fun u => u.congr hcommand.symm, fun u => u.congr hcommand⟩
  · refine ⟨?_, hs.unseen.dispatch h, checked_serviceDirective hs.checked _ _ _ _ hcfg⟩
    have hunseen {k : String} (hk : repeatable.contains k = false) (hkey : key = k) :
        (.service, k) ∉ p.seen := by
      rw [hkey, hk] at hnew
      simpa using hnew
    rw [hmore]
    exact usable_serviceDirective (fun hk => hs.unseen.start (hunseen (by decide) hk))
      (fun hk => hs.unseen.stop (hunseen (by decide) hk))
      (fun hk => hs.unseen.health (hunseen (by decide) hk)) hcfg

theorem noteSeen_currentSection : (p.noteSeen sec key).currentSection = p.currentSection := by
  unfold Parser.noteSeen
  split <;> rfl

/-- A line that is read adds its entry, if it is one. -/
theorem Sound.statement {l : ℕ × List Char} (hs : Sound ty read p)
    (h : p.statement l = .ok p') : (readEntry (p.currentSection, read) l).1 = p'.currentSection ∧
      Sound ty (readEntry (p.currentSection, read) l).2 p' := by
  unfold readEntry
  obtain ⟨hskip, rfl⟩ | ⟨hskip, ⟨sec, hsec, rfl⟩ | ⟨hsec, sec, hcur, hentry⟩⟩ :=
    Parser.statement_eq_ok.mp h
  · rw [hskip]
    exact ⟨rfl, hs⟩
  · rw [hskip, hsec]
    exact ⟨rfl, hs.usable, ⟨hs.unseen.start, hs.unseen.stop, hs.unseen.health⟩, hs.checked⟩
  · obtain ⟨key, value, tokens, hsplit, hnew, htokens, hdispatch⟩ := Parser.entry_eq_ok.mp hentry
    rw [hskip, hsec, hcur, hsplit]
    simp only [Bool.false_eq_true, if_false, htokens]
    refine ⟨?_, hs.dispatch hnew hdispatch⟩
    rw [(Parser.dispatch_frame hdispatch).2.2, noteSeen_currentSection, hcur]

theorem sound_new (name : UnitName) : Sound ty [] (Parser.new name) := by
  refine ⟨⟨fun _ e he => absurd he List.not_mem_nil, fun _ => ?_⟩, ⟨fun _ => rfl, fun _ => rfl,
    fun _ => rfl⟩, checked_new name⟩
  constructor <;> simp [Parser.new, UnitConfig.new, ExecCommand.isEmpty, ExecCommand.empty]

/-- What holds once all lines are read. -/
theorem sound_lines {name : UnitName} {l : List (ℕ × List Char)}
    (h : l.foldlM Parser.statement (Parser.new name) = .ok p) :
    Sound ty (l.foldl readEntry (none, [])).2 p := by
  refine (Runs.foldlM_induction (P := fun done q =>
    (done.foldl readEntry (none, [])).1 = q.currentSection ∧
      Sound ty (done.foldl readEntry (none, [])).2 q) h ⟨rfl, sound_new name⟩ ?_).2
  intro done x rest q q' _ hq hstep
  rw [List.foldl_append]
  have hpair : done.foldl readEntry (none, []) =
      (q.currentSection, (done.foldl readEntry (none, [])).2) := by rw [← hq.1]
  rw [hpair]
  exact hq.2.statement hstep

end Sound

/-- An accepted file gives a well-formed configuration exactly if none of its commands is
written with an empty program and something behind it. -/
theorem wellFormed_iff {name : UnitName} {input : String} {cfg : UnitConfig}
    (h : parse name input = .ok cfg) :
    WellFormed name cfg ↔ ∀ e ∈ entries input, e.headless name.ty = false := by
  obtain ⟨hname, hkind⟩ := parse_eq_ok h
  obtain ⟨p, hp, hfinish⟩ := parse_iff.mp h
  have hs : Sound name.ty (entries input) p := sound_lines hp
  have hpname : p.name = name := by
    rw [← Parser.readLines_eq_foldlM] at hp
    exact (Parser.readLines_name hp rfl).1
  obtain ⟨-, hstart, hrestart, rfl⟩ := Parser.finish_iff.mp hfinish
  rw [hpname] at hstart
  rw [← hs.usable]
  constructor
  · intro w
    exact ⟨fun hty _ => w.start (hkind.trans hty), w.pre, w.post, w.stop, w.health⟩
  · intro u
    refine ⟨hname, hkind, fun hty => ?_, u.pre, u.post, u.stop, u.health, fun hone => ?_,
      hs.checked.congr rfl⟩
    · have hservice : name.ty = .service := hkind.symm.trans hty
      have htarget : name.ty ≠ .target := by
        rw [hservice]
        decide
      exact u.start hservice (hstart.resolve_left htarget)
    · by_contra hno
      exact hrestart ⟨hone, hno⟩

theorem wellFormed_plain : WellFormed serviceA
    { UnitConfig.new serviceA with execStart := ⟨["/bin/true", ""]⟩ } := by
  have h : parse serviceA "[Service]\nExecStart=/bin/true \"\"\n" =
      .ok { UnitConfig.new serviceA with execStart := ⟨["/bin/true", ""]⟩ } := by decide
  exact (wellFormed_iff h).mpr (by decide)

/-- A service is accepted with an empty program. -/
theorem not_wellFormed_headless : ¬∀ (name : UnitName) (input : String) (cfg : UnitConfig),
    parse name input = .ok cfg → WellFormed name cfg := by
  intro hall
  have h : parse serviceA "[Service]\nExecStart=\"\" /bin/true\n" =
      .ok { UnitConfig.new serviceA with execStart := ⟨["", "/bin/true"]⟩ } := by decide
  obtain ⟨program, args, hargv, hne⟩ := (hall _ _ _ h).start rfl
  exact hne (List.cons.inj hargv).1.symm

end Rinit
