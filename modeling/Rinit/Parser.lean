import Rinit.Config
import Rinit.Runs

/-!
# The unit file parser

Text in, `UnitConfig` out. `logicalLines` joins continued lines after cutting comments,
`tokenize` lexes a value with the quoting and escaping rules, and `Parser.entry` is the
table of directives. An unknown key, a repeated single-valued key or a value its
directive rejects is an error that names the line it stands on.

`parse` keeps the name it is given and takes the type from it (`parse_name`,
`parse_kind`), which is what the manager relies on when it files a definition under a
name.
-/

namespace Rinit

/-- A parse failure, tied to a file position. -/
inductive ParseError where
  | syntaxError (line : ℕ) (message : String)
  | unknownSection (line : ℕ) (sectionName : String)
  | unknownKey (line : ℕ) (sectionName key : String)
  | duplicateKey (line : ℕ) (key : String)
  | entryOutsideSection (line : ℕ) (key : String)
  | invalidValue (line : ℕ) (key value reason : String)
  | unterminatedQuote (line : ℕ)
  | missingExecStart (unit : String)
  | typeSuffixConflict (unit declared implied : String)
deriving DecidableEq, Repr

def ParseError.display : ParseError → String
  | .syntaxError line message => "line " ++ toString line ++ ": " ++ message
  | .unknownSection line name => "line " ++ toString line ++ ": unknown section [" ++ name ++ "]"
  | .unknownKey line name key =>
    "line " ++ toString line ++ ": unknown key '" ++ key ++ "' in [" ++ name ++ "]"
  | .duplicateKey line key => "line " ++ toString line ++ ": duplicate key '" ++ key ++ "'"
  | .entryOutsideSection line key =>
    "line " ++ toString line ++ ": '" ++ key ++ "' appears before any section header"
  | .invalidValue line key value reason =>
    "line " ++ toString line ++ ": invalid value for '" ++ key ++ "': " ++
      debugStr value.toList ++ " (" ++ reason ++ ")"
  | .unterminatedQuote line => "line " ++ toString line ++ ": unterminated quoted string"
  | .missingExecStart unit => unit ++ ": a service must define ExecStart="
  | .typeSuffixConflict unit declared implied =>
    unit ++ ": [Unit] Type=" ++ declared ++ " contradicts the file suffix (" ++ implied ++ ")"

/-! ## Lines -/

/-- The part of a line before the first unquoted, unescaped `#`. -/
def commentPrefix (line : List Char) : List Char :=
  go false false line
where
  go (quoted escaped : Bool) : List Char → List Char
    | [] => []
    | c :: s =>
      if escaped then c :: go quoted false s
      else if c = '\\' then c :: go quoted true s
      else if c = '"' then c :: go (!quoted) false s
      else if c = '#' ∧ quoted = false then []
      else c :: go quoted false s

/-- The statements of a file, each with the line it started on. -/
def logicalLines (input : List Char) : List (ℕ × List Char) :=
  go 0 [] 1 (lines input)
where
  go (start : ℕ) (current : List Char) (lineNo : ℕ) : List (List Char) → List (ℕ × List Char)
    | [] => if current.isEmpty then [] else [(start, current)]
    | raw :: rest =>
      let line := (stripSuffix ['\r'] raw).getD raw
      -- The comment goes first : a backslash inside one does not continue the line.
      let code := commentPrefix line
      let start := if current.isEmpty then lineNo else start
      match stripSuffix ['\\'] (trimEnd code) with
      | some head => go start (current ++ head ++ [' ']) (lineNo + 1) rest
      | none => (start, current ++ code) :: go start [] (lineNo + 1) rest

inductive Section where
  | unit
  | service
deriving DecidableEq, Repr

def Section.asStr : Section → String
  | .unit => "Unit"
  | .service => "Service"

/-- Recognise a `[Section]` header, rejecting trailing content. -/
def sectionHeader (line : List Char) (lineNo : ℕ) : Except ParseError (Option Section) :=
  match line with
  | '[' :: rest =>
    match splitOnce ']' rest with
    | none => .error (.syntaxError lineNo "missing ']' in section header")
    | some (name, tail) =>
      if !(trim tail).isEmpty then
        .error (.syntaxError lineNo ("unexpected content after section header: " ++ debugStr tail))
      else if name = "Unit".toList then .ok (some .unit)
      else if name = "Service".toList then .ok (some .service)
      else .error (.unknownSection lineNo (String.ofList name))
  | _ => .ok none

/-- Split `key = value` at the first `=`; the key is a letter, then letters and digits. -/
def splitEntry (text : List Char) : Option (List Char × List Char) :=
  match splitOnce '=' text with
  | none => none
  | some (key, value) =>
    match trim key with
    | [] => none
    | c :: s =>
      if c.isAlpha && s.all Char.isAlphanum then some (c :: s, trim value) else none

/-! ## Tokens -/

/-- The character an escape stands for. -/
def unescape (c : Char) : Char :=
  if c = 'n' then '\n' else if c = 't' then '\t' else if c = 's' then ' ' else c

/-- Lex a value into tokens. `cur` is the token so far, `started` whether there is one. -/
def tokenize (line : ℕ) (value : List Char) : Except ParseError (List String) :=
  go false [] false value
where
  go (quoted : Bool) (cur : List Char) (started : Bool) :
      List Char → Except ParseError (List String)
    | [] =>
      if quoted then .error (.unterminatedQuote line)
      else .ok (if started then [String.ofList cur] else [])
    -- A trailing backslash stays literal.
    | ['\\'] =>
      if quoted then .error (.unterminatedQuote line) else .ok [String.ofList (cur ++ ['\\'])]
    | '\\' :: c :: s => go quoted (cur ++ [unescape c]) true s
    | c :: s =>
      if quoted then
        if c = '"' then go false cur true s else go true (cur ++ [c]) true s
      else if c = ' ' ∨ c = '\t' then
        if started then (go false [] false s).map (String.ofList cur :: ·)
        else go false cur false s
      else if c = '#' then .ok (if started then [String.ofList cur] else [])
      else if c = '"' then go true cur true s
      else go false (cur ++ [c]) true s

/-- Join tokens back into one string, with single spaces. -/
def joinTokens (tokens : List String) : String :=
  " ".intercalate tokens

/-- Build a command from its tokens; all empty means unset. -/
def command (tokens : List String) : ExecCommand :=
  if tokens.all (· = "") then .empty else ⟨tokens⟩

/-! ## Values -/

def invalid {α : Type} (line : ℕ) (key value reason : String) : Except ParseError α :=
  .error (.invalidValue line key value reason)

/-- A numeric directive; `zero` says whether 0 is meaningful for it. -/
def number (line : ℕ) (key : String) (tokens : List String) (zero : Bool) : Except ParseError ℕ :=
  let text := joinTokens tokens
  match parseUnsigned 64 text.toList with
  | none => invalid line key text "expected a non-negative integer"
  | some value =>
    if !zero && value == 0 then invalid line key text "0 is not allowed for this directive"
    else .ok value

def boolean (line : ℕ) (key : String) (tokens : List String) : Except ParseError Bool :=
  let text := joinTokens tokens
  if text = "true" then .ok true
  else if text = "false" then .ok false
  else invalid line key text "expected 'true' or 'false'"

def Cap.parse (s : String) : Option Cap :=
  let s := trim s.toList
  let name :=
    if "CAP_".toList.isPrefixOf s || "cap_".toList.isPrefixOf s then s.drop 4 else s
  let normalised := name.map Char.toLower
  if name.isEmpty || !normalised.all (fun c => c.isLower || c.isDigit || c == '_') then none
  else some ⟨String.ofList normalised⟩

def caps (line : ℕ) (key : String) : List String → Except ParseError (List Cap)
  | [] => .ok []
  | token :: tokens =>
    match Cap.parse token with
    | none => invalid line key token "not a valid capability name"
    | some cap => (caps line key tokens).map (cap :: ·)

def environment (line : ℕ) (key : String) : List String → Except ParseError (List (String × String))
  | [] => .ok []
  | token :: tokens =>
    match splitOnce '=' token.toList with
    | none => invalid line key token "expected KEY=VALUE"
    | some (k, v) =>
      if k.isEmpty then invalid line key token "the variable name is empty"
      else (environment line key tokens).map ((String.ofList k, String.ofList v) :: ·)

/-- The digits of a size and the scale its suffix gives. -/
def sizeScale (s : List Char) : List Char × ℕ :=
  match s.getLast? with
  | some c =>
    if c = 'K' ∨ c = 'k' then (s.dropLast, 1024)
    else if c = 'M' ∨ c = 'm' then (s.dropLast, 1024 * 1024)
    else if c = 'G' ∨ c = 'g' then (s.dropLast, 1024 * 1024 * 1024)
    else (s, 1)
  | none => (s, 1)

def SizeBytes.parse (s : List Char) : Option SizeBytes :=
  let s := trim s
  if s.isEmpty then none
  else
    let (digits, scale) := sizeScale s
    let digits := trim digits
    if digits.isEmpty || !digits.all Char.isDigit then none
    else
      match parseUnsigned 64 digits with
      | none => none
      | some n => if n * scale < 2 ^ 64 then some ⟨n * scale⟩ else none

def size (line : ℕ) (key text : String) : Except ParseError SizeBytes :=
  match SizeBytes.parse text.toList with
  | some value =>
    if value.bytes = 0 then invalid line key text "0 is not a valid limit" else .ok value
  | none => invalid line key text "expected a byte count with an optional K/M/G suffix"

/-- The words between runs of white space. -/
def splitWhitespace (s : List Char) : List (List Char) :=
  (s.splitOnP isWhitespace).filter fun w => !w.isEmpty

def CpuQuota.parse (s : List Char) : Option CpuQuota :=
  let s := trim s
  match stripSuffix ['%'] s with
  | some pct =>
    let pct := trim pct
    if pct.isEmpty || !pct.all Char.isDigit then none
    else
      match parseUnsigned 32 pct with
      | some p => if 0 < p ∧ p ≤ 100 then some (.percent p) else none
      | none => none
  | none =>
    match splitWhitespace s with
    | [quota, period] =>
      match parseUnsigned 64 quota, parseUnsigned 64 period with
      | some q, some p => if q = 0 ∨ p = 0 then none else some (.quotaPeriod q p)
      | _, _ => none
    | _ => none

def requireAbsolute (line : ℕ) (key path : String) : Except ParseError Unit :=
  if "/".toList.isPrefixOf path.toList then .ok ()
  else invalid line key path "expected an absolute path"

def ServiceKind.parse : String → Option ServiceKind
  | "simple" => some .simple
  | "oneshot" => some .oneshot
  | "notify" => some .notify
  | "forking" => some .forking
  | _ => none

def RestartPolicy.parse : String → Option RestartPolicy
  | "no" => some .no
  | "always" => some .always
  | "on-success" => some .onSuccess
  | "on-failure" => some .onFailure
  | "on-abnormal" => some .onAbnormal
  | _ => none

/-! ## Directives -/

/-- What the parser has read so far. -/
structure Parser where
  name : UnitName
  cfg : UnitConfig
  declaredUnitType : Option UnitType := none
  currentSection : Option Section := none
  seen : List (Section × String) := []
  serviceTypeLine : Option ℕ := none
  restartLine : Option ℕ := none

/-- Directives that may appear more than once. -/
def repeatable : List String :=
  ["Environment", "Sockets", "NeedsSocket", "Requires", "Wants", "After", "Before", "Conflicts",
    "ExecStartPre", "ExecStartPost"]

namespace Parser

/-- Unit names, a bare one defaulting to `.service`. -/
def unitList (line : ℕ) (key : String) : List String → Except ParseError (List UnitName)
  | [] => .ok []
  | token :: tokens =>
    match UnitName.parse token with
    | .error e => invalid line key token e.display
    | .ok unit => (unitList line key tokens).map (unit :: ·)

/-- A path directive : empty means unset, and a path must be absolute. -/
def path (line : ℕ) (key : String) (tokens : List String) (cfg : UnitConfig)
    (set : String → UnitConfig) : Except ParseError UnitConfig :=
  if tokens.isEmpty then .ok cfg
  else do
    requireAbsolute line key (joinTokens tokens)
    return set (joinTokens tokens)

/-- The `[Unit]` directives that fill in the configuration. -/
def unitDirective (cfg : UnitConfig) (line : ℕ) (key : String) (tokens : List String) :
    Except ParseError UnitConfig :=
  let joined := joinTokens tokens
  match key with
  | "Description" => .ok { cfg with description := joined }
  | "Documentation" => .ok { cfg with documentation := joined }
  | "Requires" => do
    let units ← unitList line key tokens
    return { cfg with deps.requires := cfg.deps.requires ++ units }
  | "Wants" => do
    let units ← unitList line key tokens
    return { cfg with deps.wants := cfg.deps.wants ++ units }
  | "After" => do
    let units ← unitList line key tokens
    return { cfg with deps.after := cfg.deps.after ++ units }
  | "Before" => do
    let units ← unitList line key tokens
    return { cfg with deps.before := cfg.deps.before ++ units }
  | "Conflicts" => do
    let units ← unitList line key tokens
    return { cfg with deps.conflicts := cfg.deps.conflicts ++ units }
  | _ => .error (.unknownKey line "Unit" key)

/-- The `[Service]` directives. -/
def serviceDirective (cfg : UnitConfig) (line : ℕ) (key : String) (tokens : List String) :
    Except ParseError UnitConfig :=
  let joined := joinTokens tokens
  match key with
  | "Type" =>
    match ServiceKind.parse joined with
    | some kind => .ok { cfg with serviceKind := kind }
    | none => invalid line key joined "expected 'simple', 'oneshot', 'notify' or 'forking'"
  | "ExecStart" => .ok { cfg with execStart := command tokens }
  | "ExecStop" => .ok { cfg with execStop := command tokens }
  | "ExecStartPre" =>
    let cmd := command tokens
    .ok (if cmd.isEmpty then cfg else { cfg with execStartPre := cfg.execStartPre ++ [cmd] })
  | "ExecStartPost" =>
    let cmd := command tokens
    .ok (if cmd.isEmpty then cfg else { cfg with execStartPost := cfg.execStartPost ++ [cmd] })
  | "HealthCheck" => .ok { cfg with healthCheck := command tokens }
  | "Restart" =>
    match RestartPolicy.parse joined with
    | some policy => .ok { cfg with restart := policy }
    | none =>
      invalid line key joined
        "expected 'no', 'always', 'on-success', 'on-failure' or 'on-abnormal'"
  | "RestartSec" => do return { cfg with restartSec := ← number line key tokens true }
  | "StartLimitBurst" => do
    let value ← number line key tokens false
    if value ≥ 2 ^ 32 then invalid line key joined "must fit in 32 bits"
    else if value > 1000000 then
      invalid line key joined "is larger than the supported maximum of 1000000"
    else return { cfg with startLimitBurst := value }
  | "StartLimitIntervalSec" => do
    return { cfg with startLimitIntervalSec := ← number line key tokens true }
  | "TimeoutStartSec" => do return { cfg with timeoutStartSec := ← number line key tokens true }
  | "TimeoutStopSec" => do return { cfg with timeoutStopSec := ← number line key tokens true }
  | "HealthIntervalSec" => do
    return { cfg with healthIntervalSec := ← number line key tokens false }
  | "HealthTimeoutSec" => do
    return { cfg with healthTimeoutSec := ← number line key tokens false }
  | "User" => .ok { cfg with user := joined }
  | "Group" => .ok { cfg with group := joined }
  | "NoNewPrivileges" => do return { cfg with noNewPrivileges := ← boolean line key tokens }
  | "HealthRestartOnFailure" => do
    return { cfg with healthRestartOnFailure := ← boolean line key tokens }
  | "CapabilityBoundingSet" => do
    return { cfg with capabilityBoundingSet := some (← caps line key tokens) }
  | "AmbientCapabilities" => do
    return { cfg with ambientCapabilities := some (← caps line key tokens) }
  | "Environment" => do
    let extra ← environment line key tokens
    return { cfg with environment := cfg.environment ++ extra }
  | "EnvironmentFile" => path line key tokens cfg fun p => { cfg with environmentFile := p }
  | "WorkingDirectory" => path line key tokens cfg fun p => { cfg with workingDirectory := p }
  | "SocketActivate" => path line key tokens cfg fun p => { cfg with socketActivate := some p }
  | "IdleTimeoutSec" => do return { cfg with idleTimeoutSec := ← number line key tokens true }
  | "Sockets" => path line key tokens cfg fun p => { cfg with sockets := cfg.sockets ++ [p] }
  | "NeedsSocket" =>
    path line key tokens cfg fun p => { cfg with needsSocket := cfg.needsSocket ++ [p] }
  | "TTYPath" => path line key tokens cfg fun p => { cfg with ttyPath := some p }
  | "TTYReset" => do return { cfg with ttyReset := ← boolean line key tokens }
  | "PIDFile" => path line key tokens cfg fun p => { cfg with pidFile := some p }
  | "CgroupMemoryMax" => do return { cfg with cgroupMemoryMax := some (← size line key joined) }
  | "CgroupMemoryHigh" => do return { cfg with cgroupMemoryHigh := some (← size line key joined) }
  | "CgroupCPUMax" =>
    match CpuQuota.parse joined.toList with
    | some quota => .ok { cfg with cgroupCpuMax := some quota }
    | none => invalid line key joined "expected '50%' or 'quota period'"
  | "CgroupTasksMax" => do
    return { cfg with cgroupTasksMax := some (← number line key tokens false) }
  | _ => .error (.unknownKey line "Service" key)

/-- `[Unit] Type=`, which is checked against the suffix once the file is read. -/
def unitType (line : ℕ) (declared : String) : Except ParseError UnitType :=
  match declared with
  | "service" => .ok .service
  | "target" => .ok .target
  | _ => invalid line "Type" declared "expected 'service' or 'target'"

/-- Note that a single-valued key was given. -/
def noteSeen (p : Parser) (sec : Section) (key : String) : Parser :=
  if repeatable.contains key then p else { p with seen := p.seen ++ [(sec, key)] }

/-- Remember the line of the directives that are checked against each other. -/
def noteLine (p : Parser) (line : ℕ) (key : String) : Parser :=
  if key = "Type" then { p with serviceTypeLine := some line }
  else if key = "Restart" then { p with restartLine := some line }
  else p

/-- Apply one directive of a section. -/
def dispatch (p : Parser) (sec : Section) (line : ℕ) (key : String) (tokens : List String) :
    Except ParseError Parser :=
  match sec, key with
  | .unit, "Type" => do
    let declared ← unitType line (joinTokens tokens)
    return { p with declaredUnitType := some declared }
  | .unit, _ => do return { p with cfg := ← unitDirective p.cfg line key tokens }
  | .service, _ => do
    return { p.noteLine line key with cfg := ← serviceDirective p.cfg line key tokens }

/-- Read one `Key=Value` entry of a section. -/
def entry (p : Parser) (sec : Section) (line : ℕ) (text : List Char) : Except ParseError Parser :=
  match splitEntry text with
  | none => .error (.syntaxError line ("expected 'Key=Value', found " ++ debugStr text))
  | some (keyChars, value) =>
    let key := String.ofList keyChars
    if !repeatable.contains key && p.seen.contains (sec, key) then .error (.duplicateKey line key)
    else do
      let tokens ← tokenize line value
      (p.noteSeen sec key).dispatch sec line key tokens

def unitTypeStr : UnitType → String
  | .service => "service"
  | .target => "target"

/-- Validate the assembled configuration once the whole file has been read. -/
def finish (p : Parser) : Except ParseError UnitConfig :=
  if p.declaredUnitType.any (· ≠ p.name.ty) then
    .error (.typeSuffixConflict p.name.canonical
      (unitTypeStr (p.declaredUnitType.getD p.name.ty)) (unitTypeStr p.name.ty))
  else
    let cfg := { p.cfg with kind := p.name.ty }
    if !cfg.isTarget && cfg.execStart.isEmpty then .error (.missingExecStart p.name.canonical)
    -- A oneshot's exit is its start-up result, so there is nothing to restart.
    else if cfg.serviceKind = .oneshot ∧ cfg.restart ≠ .no then
      invalid ((p.restartLine.or p.serviceTypeLine).getD 0) "Restart" "Type=oneshot"
        "cannot restart a oneshot; use Type=simple or Restart=no"
    else .ok cfg

def new (name : UnitName) : Parser := { name := name, cfg := UnitConfig.new name }

/-- Read the logical lines in order. -/
def readLines (p : Parser) : List (ℕ × List Char) → Except ParseError Parser
  | [] => .ok p
  | (lineNo, line) :: rest =>
    let trimmed := trim line
    if trimmed.isEmpty || trimmed.head? == some '#' then readLines p rest
    else
      match sectionHeader trimmed lineNo with
      | .error e => .error e
      | .ok (some sec) => readLines { p with currentSection := some sec } rest
      | .ok none =>
        match p.currentSection with
        | none =>
          .error (.entryOutsideSection lineNo
            (String.ofList (trim (((splitOnce '=' trimmed).map Prod.fst).getD trimmed))))
        | some sec =>
          match p.entry sec lineNo trimmed with
          | .error e => .error e
          | .ok p => readLines p rest

def run (p : Parser) (input : String) : Except ParseError UnitConfig :=
  match p.readLines (logicalLines input.toList) with
  | .error e => .error e
  | .ok p => p.finish

/-! ## Steps of the parser -/

section Steps

variable {p p' : Parser} {sec : Section} {line : ℕ} {key : String} {tokens : List String}

/-- An entry is split, allowed, lexed and dispatched. -/
theorem entry_eq_ok {text : List Char} : p.entry sec line text = .ok p' ↔
    ∃ keyChars value tokens, splitEntry text = some (keyChars, value) ∧
      (repeatable.contains (String.ofList keyChars) = true ∨
        (sec, String.ofList keyChars) ∉ p.seen) ∧
      tokenize line value = .ok tokens ∧
      (p.noteSeen sec (String.ofList keyChars)).dispatch sec line (String.ofList keyChars) tokens =
        .ok p' := by
  unfold entry
  cases hsplit : splitEntry text with
  | none => simp
  | some kv =>
    obtain ⟨keyChars, value⟩ := kv
    have hdup : (!repeatable.contains (String.ofList keyChars) &&
        p.seen.contains (sec, String.ofList keyChars)) = true ↔
        ¬(repeatable.contains (String.ofList keyChars) = true ∨
          (sec, String.ofList keyChars) ∉ p.seen) := by
      simp
    by_cases hok : repeatable.contains (String.ofList keyChars) = true ∨
        (sec, String.ofList keyChars) ∉ p.seen
    · simp only [mt hdup.mp (not_not_intro hok), Bool.false_eq_true, if_false]
      rw [Runs.bind_eq_ok]
      constructor
      · rintro ⟨tokens, htokens, h⟩
        exact ⟨keyChars, value, tokens, rfl, hok, htokens, h⟩
      · rintro ⟨keyChars', value', tokens, hkv, -, htokens, h⟩
        obtain ⟨rfl, rfl⟩ := Prod.mk.inj (Option.some.inj hkv)
        exact ⟨tokens, htokens, h⟩
    · simp only [hdup.mpr hok, if_true]
      constructor
      · rintro ⟨⟩
      · rintro ⟨keyChars', value', tokens, hkv, hok', -, -⟩
        obtain ⟨rfl, rfl⟩ := Prod.mk.inj (Option.some.inj hkv)
        exact absurd hok' hok

theorem dispatch_service : p.dispatch .service line key tokens = .ok p' ↔
    ∃ cfg, serviceDirective p.cfg line key tokens = .ok cfg ∧
      { p.noteLine line key with cfg := cfg } = p' := by
  unfold dispatch
  dsimp only
  rw [Runs.bind_eq_ok]
  simp only [pure, Except.pure, Except.ok.injEq]

theorem dispatch_unit : p.dispatch .unit line key tokens = .ok p' ↔
    (key = "Type" ∧ ∃ declared, unitType line (joinTokens tokens) = .ok declared ∧
      { p with declaredUnitType := some declared } = p') ∨
    (key ≠ "Type" ∧ ∃ cfg, unitDirective p.cfg line key tokens = .ok cfg ∧
      { p with cfg := cfg } = p') := by
  by_cases hkey : key = "Type"
  · subst hkey
    rw [dispatch, Runs.bind_eq_ok]
    simp only [pure, Except.pure, Except.ok.injEq, true_and, ne_eq, not_true_eq_false, false_and,
      or_false]
  · rw [dispatch.eq_2 _ _ _ _ hkey, Runs.bind_eq_ok]
    simp only [pure, Except.pure, Except.ok.injEq, hkey, false_and, false_or, ne_eq,
      not_false_eq_true, true_and]

theorem noteLine_eq (p : Parser) (line : ℕ) (key : String) : ∃ typeLine restartLine,
    p.noteLine line key =
      { p with serviceTypeLine := typeLine, restartLine := restartLine } := by
  unfold noteLine
  split
  · exact ⟨_, _, rfl⟩
  · split
    · exact ⟨_, _, rfl⟩
    · exact ⟨_, _, rfl⟩

/-- A directive only touches the configuration and the notes for the checks at the end. -/
theorem dispatch_frame (h : p.dispatch sec line key tokens = .ok p') :
    p'.name = p.name ∧ p'.seen = p.seen ∧ p'.currentSection = p.currentSection := by
  cases sec with
  | unit =>
    obtain ⟨-, declared, -, rfl⟩ | ⟨-, cfg, -, rfl⟩ := dispatch_unit.mp h
    · exact ⟨rfl, rfl, rfl⟩
    · exact ⟨rfl, rfl, rfl⟩
  | service =>
    obtain ⟨cfg, -, rfl⟩ := dispatch_service.mp h
    obtain ⟨typeLine, restartLine, hnote⟩ := noteLine_eq p line key
    rw [hnote]
    exact ⟨rfl, rfl, rfl⟩

/-- Where the configuration comes from. -/
theorem dispatch_cfg (h : p.dispatch sec line key tokens = .ok p') :
    sec = .unit ∧ (p'.cfg = p.cfg ∨ unitDirective p.cfg line key tokens = .ok p'.cfg) ∨
      sec = .service ∧ serviceDirective p.cfg line key tokens = .ok p'.cfg := by
  cases sec with
  | unit =>
    obtain ⟨-, declared, -, rfl⟩ | ⟨-, cfg, hcfg, rfl⟩ := dispatch_unit.mp h
    · exact Or.inl ⟨rfl, Or.inl rfl⟩
    · exact Or.inl ⟨rfl, Or.inr hcfg⟩
  | service =>
    obtain ⟨cfg, hcfg, rfl⟩ := dispatch_service.mp h
    exact Or.inr ⟨rfl, hcfg⟩

/-- Read one logical line. -/
def statement (p : Parser) (l : ℕ × List Char) : Except ParseError Parser :=
  if (trim l.2).isEmpty || (trim l.2).head? == some '#' then .ok p
  else
    match sectionHeader (trim l.2) l.1 with
    | .error e => .error e
    | .ok (some sec) => .ok { p with currentSection := some sec }
    | .ok none =>
      match p.currentSection with
      | none =>
        .error (.entryOutsideSection l.1
          (String.ofList (trim (((splitOnce '=' (trim l.2)).map Prod.fst).getD (trim l.2)))))
      | some sec => p.entry sec l.1 (trim l.2)

/-- The parser goes from line to line. -/
theorem readLines_eq_foldlM (p : Parser) (l : List (ℕ × List Char)) :
    p.readLines l = l.foldlM statement p := by
  fun_induction readLines p l with
  | case1 p => rfl
  | case2 p lineNo line rest trimmed hskip ih =>
    rw [List.foldlM_cons, statement, if_pos hskip, ih]
    rfl
  | case3 p lineNo line rest trimmed hskip e hsec =>
    rw [List.foldlM_cons, statement, if_neg hskip, hsec]
    rfl
  | case4 p lineNo line rest trimmed hskip sec hsec ih =>
    rw [List.foldlM_cons, statement, if_neg hskip, hsec, ih]
    rfl
  | case5 p lineNo line rest trimmed hskip hsec hcur =>
    rw [List.foldlM_cons, statement, if_neg hskip, hsec, hcur]
    rfl
  | case6 p lineNo line rest trimmed hskip hsec sec hcur e hentry =>
    rw [List.foldlM_cons, statement, if_neg hskip, hsec, hcur]
    simp only
    rw [hentry]
    rfl
  | case7 p lineNo line rest trimmed hskip hsec sec hcur p1 hentry ih =>
    rw [List.foldlM_cons, statement, if_neg hskip, hsec, hcur]
    simp only
    rw [hentry, ih]
    rfl

/-- A line is blank, a section header, or an entry of the current section. -/
theorem statement_eq_ok {l : ℕ × List Char} : p.statement l = .ok p' ↔
    ((trim l.2).isEmpty || (trim l.2).head? == some '#') = true ∧ p = p' ∨
    ((trim l.2).isEmpty || (trim l.2).head? == some '#') = false ∧
      ((∃ sec, sectionHeader (trim l.2) l.1 = .ok (some sec) ∧
        { p with currentSection := some sec } = p') ∨
      (sectionHeader (trim l.2) l.1 = .ok none ∧
        ∃ sec, p.currentSection = some sec ∧ p.entry sec l.1 (trim l.2) = .ok p')) := by
  unfold statement
  cases hskip : (trim l.2).isEmpty || (trim l.2).head? == some '#' with
  | true => simp
  | false =>
    cases hsec : sectionHeader (trim l.2) l.1 with
    | error e => simp
    | ok found =>
      cases found with
      | some sec => simp
      | none => cases hcur : p.currentSection <;> simp

end Steps

/-! ## The name of what is parsed -/

/-- A result that is a failure or keeps the name. -/
def Named (name : UnitName) : Except ParseError UnitConfig → Prop
  | .ok cfg => cfg.name = name
  | .error _ => True

theorem named_bind {α : Type} {name : UnitName} {x : Except ParseError α}
    {f : α → Except ParseError UnitConfig} (h : ∀ a, Named name (f a)) : Named name (x >>= f) := by
  cases x with
  | error e => trivial
  | ok a => exact h a

theorem named_path {line : ℕ} {key : String} {tokens : List String} {cfg : UnitConfig}
    {set : String → UnitConfig} (h : ∀ p, (set p).name = cfg.name) :
    Named cfg.name (path line key tokens cfg set) := by
  unfold path
  split
  · rfl
  · exact named_bind fun _ => h _

theorem named_unitDirective (cfg : UnitConfig) (line : ℕ) (key : String) (tokens : List String) :
    Named cfg.name (unitDirective cfg line key tokens) := by
  unfold unitDirective
  split <;> first | exact rfl | exact named_bind fun _ => rfl | exact True.intro

theorem named_serviceDirective (cfg : UnitConfig) (line : ℕ) (key : String)
    (tokens : List String) : Named cfg.name (serviceDirective cfg line key tokens) := by
  unfold serviceDirective
  dsimp only
  split
  -- `StartLimitBurst=` is the one directive with checks after the number is read.
  case h_9 =>
    refine named_bind fun value => ?_
    split
    · exact True.intro
    · split
      · exact True.intro
      · exact rfl
  all_goals try with_reducible refine named_bind fun _ => ?_
  all_goals first
    | with_reducible refine named_path fun _ => ?_; rfl
    | exact True.intro
    | exact rfl
    | (split <;> first | exact rfl | exact True.intro)

theorem noteSeen_name (p : Parser) (sec : Section) (key : String) :
    (p.noteSeen sec key).name = p.name ∧ (p.noteSeen sec key).cfg = p.cfg := by
  unfold noteSeen
  split <;> exact ⟨rfl, rfl⟩

theorem dispatch_name {p p' : Parser} {sec : Section} {line : ℕ} {key : String}
    {tokens : List String} (h : p.dispatch sec line key tokens = .ok p')
    (hn : p.cfg.name = p.name) : p'.name = p.name ∧ p'.cfg.name = p.name := by
  have directive {cfg : UnitConfig} {x : Except ParseError UnitConfig}
      (hx : Named p.cfg.name x) (h : x = .ok cfg) : cfg.name = p.name := by
    subst h
    exact hx.trans hn
  refine ⟨(dispatch_frame h).1, ?_⟩
  obtain ⟨-, hcfg | hcfg⟩ | ⟨-, hcfg⟩ := dispatch_cfg h
  · rw [hcfg, hn]
  · exact directive (named_unitDirective ..) hcfg
  · exact directive (named_serviceDirective ..) hcfg

theorem entry_name {p p' : Parser} {sec : Section} {line : ℕ} {text : List Char}
    (h : p.entry sec line text = .ok p') (hn : p.cfg.name = p.name) :
    p'.name = p.name ∧ p'.cfg.name = p.name := by
  obtain ⟨keyChars, value, tokens, -, -, -, h⟩ := entry_eq_ok.mp h
  obtain ⟨h1, h2⟩ := noteSeen_name p sec (String.ofList keyChars)
  have h' := dispatch_name h (by rw [h1, h2, hn])
  rwa [h1] at h'

theorem statement_name {p p' : Parser} {l : ℕ × List Char} (h : p.statement l = .ok p')
    (hn : p.cfg.name = p.name) : p'.name = p.name ∧ p'.cfg.name = p.name := by
  obtain ⟨-, rfl⟩ | ⟨-, ⟨sec, -, rfl⟩ | ⟨-, sec, -, hentry⟩⟩ := statement_eq_ok.mp h
  · exact ⟨rfl, hn⟩
  · exact ⟨rfl, hn⟩
  · exact entry_name hentry hn

theorem readLines_name {lines : List (ℕ × List Char)} {p p' : Parser}
    (h : p.readLines lines = .ok p') (hn : p.cfg.name = p.name) :
    p'.name = p.name ∧ p'.cfg.name = p.name := by
  rw [readLines_eq_foldlM] at h
  refine Runs.foldlM_induction (P := fun _ q => q.name = p.name ∧ q.cfg.name = p.name) h
    ⟨rfl, hn⟩ fun done l rest q q' _ hq hstep => ?_
  obtain ⟨h1, h2⟩ := statement_name hstep (hq.2.trans hq.1.symm)
  exact ⟨h1.trans hq.1, h2.trans hq.1⟩

/-- The checks at the end. -/
theorem finish_iff {p : Parser} {cfg : UnitConfig} : p.finish = .ok cfg ↔
    p.declaredUnitType.any (· ≠ p.name.ty) = false ∧
      (p.name.ty = .target ∨ p.cfg.execStart.isEmpty = false) ∧
      ¬(p.cfg.serviceKind = .oneshot ∧ p.cfg.restart ≠ .no) ∧
      { p.cfg with kind := p.name.ty } = cfg := by
  have hmissing : (!UnitConfig.isTarget { p.cfg with kind := p.name.ty } &&
      p.cfg.execStart.isEmpty) = true ↔
      ¬(p.name.ty = .target ∨ p.cfg.execStart.isEmpty = false) := by
    simp [UnitConfig.isTarget]
  unfold finish
  cases hdeclared : p.declaredUnitType.any (· ≠ p.name.ty) with
  | true => simp
  | false =>
    simp only [Bool.false_eq_true, if_false, true_and]
    by_cases hstart : p.name.ty = .target ∨ p.cfg.execStart.isEmpty = false
    · rw [if_neg (mt hmissing.mp (not_not_intro hstart))]
      by_cases hrestart : p.cfg.serviceKind = .oneshot ∧ p.cfg.restart ≠ .no
      · rw [if_pos hrestart]
        simp [hrestart, invalid]
      · rw [if_neg hrestart]
        simp only [hstart, hrestart, not_false_eq_true, true_and, Except.ok.injEq]
    · rw [if_pos (hmissing.mpr hstart)]
      simp only [hstart, false_and, reduceCtorEq]

end Parser

/-- Parse a unit file; `name` comes from the file name. -/
def parse (name : UnitName) (input : String) : Except ParseError UnitConfig :=
  (Parser.new name).run input

/-- A file is read line by line, then checked. -/
theorem parse_iff {name : UnitName} {input : String} {cfg : UnitConfig} :
    parse name input = .ok cfg ↔ ∃ p, (logicalLines input.toList).foldlM Parser.statement
      (Parser.new name) = .ok p ∧ p.finish = .ok cfg := by
  unfold parse Parser.run
  rw [Parser.readLines_eq_foldlM]
  cases (logicalLines input.toList).foldlM Parser.statement (Parser.new name) with
  | error e => simp
  | ok p => simp

theorem parse_eq_ok {name : UnitName} {input : String} {cfg : UnitConfig}
    (h : parse name input = .ok cfg) : cfg.name = name ∧ cfg.kind = name.ty := by
  obtain ⟨p, hp, hfinish⟩ := parse_iff.mp h
  rw [← Parser.readLines_eq_foldlM] at hp
  obtain ⟨h1, h2⟩ := Parser.readLines_name hp rfl
  obtain ⟨-, -, -, rfl⟩ := Parser.finish_iff.mp hfinish
  exact ⟨h2, congrArg UnitName.ty h1⟩

theorem parse_name {name : UnitName} {input : String} {cfg : UnitConfig}
    (h : parse name input = .ok cfg) : cfg.name = name :=
  (parse_eq_ok h).1

theorem parse_kind {name : UnitName} {input : String} {cfg : UnitConfig}
    (h : parse name input = .ok cfg) : cfg.kind = name.ty :=
  (parse_eq_ok h).2

end Rinit
