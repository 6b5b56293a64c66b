import Rinit.Name
import Rinit.Passwords
import Rinit.Protocol

/-!
# The command line of the client

`commandLine` turns the arguments of `rctl` into a request, into a log that is read from a file, or
into a complaint. Options stand before, behind and between the other arguments, and the last of
several options of a kind counts. `typed_iff` : every request can be typed, but for the two that
only older clients make, and these cannot.
-/

namespace Rinit

namespace Protocol

/-- How many lines of the log a status shows that asks for no number. -/
def defaultStatusTail : UInt32 := 10

def defaultLogFile : String := "/var/log/rinit/log"

/-- Read the persisted log. -/
structure FileLog where
  path : String
  unit : Option UnitName
  tail : UInt32
deriving DecidableEq

/-- What a command line asks for. -/
inductive Parsed where
  | help
  | version
  | request (request : Request)
  | fileLog (log : FileLog)
deriving DecidableEq

/-! ## Parts -/

/-- What stands behind `front`. -/
def afterPrefix (front arg : String) : Option String :=
  if front.toList.isPrefixOf arg.toList then
    some (String.ofList (arg.toList.drop front.toList.length))
  else none

def isOption (arg : String) : Bool := "-".toList.isPrefixOf arg.toList

def ListFormat.parse (value : String) : Option ListFormat :=
  if value = "table" then some .table
  else if value = "plain" then some .plain
  else if value = "short" then some .short
  else if value = "json" then some .json
  else none

def StatusFormat.parse (value : String) : Option StatusFormat :=
  if value = "systemd" then some .systemd
  else if value = "plain" then some .plain
  else if value = "short" then some .short
  else if value = "json" then some .json
  else if value = "card" then some .card
  else none

def parseListFormat (value : String) : Except String ListFormat :=
  match ListFormat.parse value with
  | some format => .ok format
  | none => .error ("unknown list format '" ++ value ++ "' (try table, plain, short, json)")

def parseStatusFormat (value : String) : Except String StatusFormat :=
  match StatusFormat.parse value with
  | some format => .ok format
  | none =>
    .error ("unknown status format '" ++ value ++ "' (try systemd, plain, short, json, card)")

def parseTail (value : String) : Except String UInt32 :=
  match parseUnsigned 32 value.toList with
  | some tail => .ok (UInt32.ofNat tail)
  | none => .error ("--tail expects a line count, got '" ++ value ++ "'")

def parseUnit (value : String) : Except String UnitName :=
  match UnitName.parse value with
  | .ok unit => .ok unit
  | .error e => .error e.display

/-- A command that takes exactly one unit. -/
def requiredUnit : List String → Except String UnitName
  | [] => .error "this command needs a unit name"
  | [unit] => parseUnit unit
  | _ :: extra :: _ => .error ("unexpected extra argument '" ++ extra ++ "'")

def ensureNoArguments : List String → Except String Unit
  | [] => .ok ()
  | extra :: _ => .error ("unexpected argument '" ++ extra ++ "'")

/-- The unit among the arguments, of which there is one at most. -/
def positional (unit : Option UnitName) (arg : String) : Except String UnitName :=
  if isOption arg then .error ("unknown option '" ++ arg ++ "'")
  else if unit.isNone then parseUnit arg
  else .error ("unexpected extra argument '" ++ arg ++ "'")

/-! ## Commands -/

/-- `log` reads the ring by default, or a persisted file with `--file`. -/
def parseLog (unit : Option UnitName) (tail : UInt32) (file : Option String) :
    List String → Except String Parsed
  | [] =>
    match file with
    | some path => .ok (.fileLog { path := path, unit := unit, tail := tail })
    | none => .ok (.request (.log unit tail))
  | arg :: rest =>
    match afterPrefix "--tail=" arg with
    | some value => do
      let tail ← parseTail value
      parseLog unit tail file rest
    | none =>
      if arg = "--tail" then
        match rest with
        | [] => .error "--tail needs a line count"
        | value :: rest => do
          let tail ← parseTail value
          parseLog unit tail file rest
      else
        match afterPrefix "--file=" arg with
        | some value =>
          if value.isEmpty then .error "--file needs a path"
          else parseLog unit tail (some value) rest
        | none =>
          if arg = "--file" then parseLog unit tail (some defaultLogFile) rest
          else do
            let named ← positional unit arg
            parseLog (some named) tail file rest

/-- `list` takes a format. -/
def parseList (format : ListFormat) : List String → Except String ListFormat
  | [] => .ok format
  | arg :: rest =>
    match afterPrefix "--format=" arg with
    | some value => do
      let format ← parseListFormat value
      parseList format rest
    | none =>
      if arg = "--format" then
        match rest with
        | [] => .error "--format needs a value"
        | value :: rest => do
          let format ← parseListFormat value
          parseList format rest
      else if arg = "--table" then parseList .table rest
      else if arg = "--plain" then parseList .plain rest
      else if arg = "--short" then parseList .short rest
      else if arg = "--json" then parseList .json rest
      else .error ("unexpected argument '" ++ arg ++ "'")

/-- `status` takes a unit, a number of lines and a format. -/
def parseStatus (unit : Option UnitName) (tail : Option UInt32) (format : StatusFormat) :
    List String → Except String (Option UnitName × UInt32 × StatusFormat)
  | [] =>
    .ok (unit, tail.getD (if unit.isSome && format = .systemd then defaultStatusTail else 0), format)
  | arg :: rest =>
    match afterPrefix "--tail=" arg with
    | some value => do
      let tail ← parseTail value
      parseStatus unit (some tail) format rest
    | none =>
      if arg = "--tail" then
        match rest with
        | [] => .error "--tail needs a line count"
        | value :: rest => do
          let tail ← parseTail value
          parseStatus unit (some tail) format rest
      else
        match afterPrefix "--format=" arg with
        | some value => do
          let format ← parseStatusFormat value
          parseStatus unit tail format rest
        | none =>
          if arg = "--format" then
            match rest with
            | [] => .error "--format needs a value"
            | value :: rest => do
              let format ← parseStatusFormat value
              parseStatus unit tail format rest
          else if arg = "--json" then parseStatus unit tail .json rest
          else if arg = "--plain" then parseStatus unit tail .plain rest
          else if arg = "--short" then parseStatus unit tail .short rest
          else if arg = "--card" then parseStatus unit tail .card rest
          else do
            let named ← positional unit arg
            parseStatus (some named) tail format rest

/-- The arguments of `rctl`. -/
def commandLine : List String → Except String Parsed
  | [] => .error "no command given"
  | command :: rest =>
    if command = "-h" ∨ command = "--help" then .ok .help
    else if command = "-V" ∨ command = "--version" then .ok .version
    else if command = "list" then do
      let format ← parseList .table rest
      return .request (.listFormatted format)
    else if command = "status" then do
      let (unit, tail, format) ← parseStatus none none .systemd rest
      return .request (.statusFormatted unit tail format)
    else if command = "log" then parseLog none 0 none rest
    else if command = "start" then do return .request (.start (← requiredUnit rest))
    else if command = "stop" then do return .request (.stop (← requiredUnit rest))
    else if command = "restart" then do return .request (.restart (← requiredUnit rest))
    else if command = "reset-failed" then do return .request (.resetFailed (← requiredUnit rest))
    else if command = "reload" then do
      ensureNoArguments rest
      return .request .reload
    else if command = "reboot" then do
      ensureNoArguments rest
      return .request .reboot
    else if command = "poweroff" then do
      ensureNoArguments rest
      return .request .poweroff
    else .error ("unknown command '" ++ command ++ "'")

/-! ## What can be typed -/

def ListFormat.word : ListFormat → String
  | .table => "table"
  | .plain => "plain"
  | .short => "short"
  | .json => "json"

def StatusFormat.word : StatusFormat → String
  | .systemd => "systemd"
  | .plain => "plain"
  | .short => "short"
  | .json => "json"
  | .card => "card"

def tailWord (tail : UInt32) : String := String.ofList (Nat.toDigits 10 tail.toNat)

/-- A unit as an argument, which may not begin as an option does. -/
def unitWords : Option UnitName → List String
  | some unit => [" " ++ unit.canonical]
  | none => []

/-- How a request is typed, if it can be. -/
def Request.words : Request → Option (List String)
  | .listFormatted format => some ["list", "--format", format.word]
  | .statusFormatted unit tail format =>
    some ("status" :: unitWords unit ++ ["--tail", tailWord tail, "--format", format.word])
  | .log unit tail => some ("log" :: unitWords unit ++ ["--tail", tailWord tail])
  | .start unit => some ["start", unit.canonical]
  | .stop unit => some ["stop", unit.canonical]
  | .restart unit => some ["restart", unit.canonical]
  | .resetFailed unit => some ["reset-failed", unit.canonical]
  | .reload => some ["reload"]
  | .reboot => some ["reboot"]
  | .poweroff => some ["poweroff"]
  | .list | .status _ _ => none

theorem parseTail_tailWord (tail : UInt32) : parseTail (tailWord tail) = .ok tail := by
  unfold parseTail tailWord
  rw [String.toList_ofList, parseUnsigned_toDigits (by simpa using tail.toNat_lt)]
  simp

theorem parseUnit_canonical (u : UnitName) : parseUnit u.canonical = .ok u := by
  unfold parseUnit
  rw [UnitName.parse_canonical]

/-- A unit is found behind a space. -/
theorem positional_space (u : UnitName) : positional none (" " ++ u.canonical) = .ok u := by
  have hlist : (" " ++ u.canonical).toList = ' ' :: u.canonical.toList := by simp
  have htrim : trim (" " ++ u.canonical).toList = u.canonical.toList := by
    rw [hlist]
    exact u.trim_canonical
  have hoption : isOption (" " ++ u.canonical) = false := by
    unfold isOption
    rw [hlist]
    rfl
  unfold positional
  rw [hoption]
  change parseUnit (" " ++ u.canonical) = .ok u
  unfold parseUnit
  rw [UnitName.parse_of_trim htrim]

/-- What begins with a space is no option. -/
theorem afterPrefix_space {front : String} (text : String) (h : front.toList.head? = some '-') :
    afterPrefix front (" " ++ text) = none := by
  have hlist : (" " ++ text).toList = ' ' :: text.toList := by simp
  unfold afterPrefix
  rw [hlist]
  cases hf : front.toList with
  | nil =>
    rw [hf] at h
    cases h
  | cons c rest =>
    rw [hf] at h
    obtain rfl := Option.some.inj h
    rfl

theorem space_ne {text word : String} (h : word.toList.head? = some '-') : " " ++ text ≠ word := by
  rintro rfl
  simp at h

theorem parseLog_unitWords (unit : Option UnitName) (rest : List String) :
    parseLog none 0 none (unitWords unit ++ rest) = parseLog unit 0 none rest := by
  cases unit with
  | none => rfl
  | some u =>
    rw [unitWords, List.cons_append, List.nil_append, parseLog.eq_def]
    dsimp only
    rw [afterPrefix_space _ rfl]
    dsimp only
    rw [if_neg (space_ne rfl), afterPrefix_space _ rfl]
    dsimp only
    rw [if_neg (space_ne rfl), positional_space]
    rfl

theorem parseStatus_unitWords (unit : Option UnitName) (rest : List String) :
    parseStatus none none .systemd (unitWords unit ++ rest) =
      parseStatus unit none .systemd rest := by
  cases unit with
  | none => rfl
  | some u =>
    rw [unitWords, List.cons_append, List.nil_append, parseStatus.eq_def]
    dsimp only
    rw [afterPrefix_space _ rfl]
    dsimp only
    rw [if_neg (space_ne rfl), afterPrefix_space _ rfl]
    dsimp only
    rw [if_neg (space_ne rfl), if_neg (space_ne rfl), if_neg (space_ne rfl),
      if_neg (space_ne rfl), if_neg (space_ne rfl), positional_space]
    rfl

theorem parseLog_tail (unit : Option UnitName) (tail : UInt32) :
    parseLog unit 0 none ["--tail", tailWord tail] = .ok (.request (.log unit tail)) := by
  rw [parseLog]
  change (parseTail (tailWord tail) >>= _ : Except String Parsed) = _
  rw [parseTail_tailWord]
  rfl

theorem parseStatus_tail (unit : Option UnitName) (tail : UInt32) (format : StatusFormat) :
    parseStatus unit none .systemd ["--tail", tailWord tail, "--format", format.word] =
      .ok (unit, tail, format) := by
  rw [parseStatus]
  change (parseTail (tailWord tail) >>= _ :
    Except String (Option UnitName × UInt32 × StatusFormat)) = _
  rw [parseTail_tailWord]
  change parseStatus unit (some tail) .systemd ["--format", format.word] = _
  cases format <;> rfl

/-- What is typed is what is asked for. -/
theorem commandLine_words {r : Request} {args : List String} (h : r.words = some args) :
    commandLine args = .ok (.request r) := by
  cases r with
  | list | status => cases h
  | reload | reboot | poweroff =>
    obtain rfl := Option.some.inj h
    rfl
  | start u | stop u | restart u | resetFailed u =>
    obtain rfl := Option.some.inj h
    simp only [commandLine, requiredUnit, parseUnit_canonical]
    rfl
  | listFormatted format =>
    obtain rfl := Option.some.inj h
    cases format <;> rfl
  | statusFormatted unit tail format =>
    obtain rfl := Option.some.inj h
    change (parseStatus none none .systemd (unitWords unit ++ _) >>= _ : Except String Parsed) = _
    rw [parseStatus_unitWords, parseStatus_tail]
    rfl
  | log unit tail =>
    obtain rfl := Option.some.inj h
    change parseLog none 0 none (unitWords unit ++ _) = _
    rw [parseLog_unitWords, parseLog_tail]

/-- `log` comes to one of two things. -/
theorem parseLog_cases {unit : Option UnitName} {tail : UInt32} {file : Option String}
    {args : List String} {p : Parsed} (h : parseLog unit tail file args = .ok p) :
    (∃ log, p = .fileLog log) ∨ ∃ u t, p = .request (.log u t) := by
  fun_induction parseLog unit tail file args with
  | case1 => exact .inl ⟨_, (Except.ok.inj h).symm⟩
  | case2 => exact .inr ⟨_, _, (Except.ok.inj h).symm⟩
  | case3 _ _ _ _ _ _ _ ih | case5 _ _ _ _ _ _ ih | case9 _ _ _ _ _ _ _ _ _ ih =>
    obtain ⟨found, -, h⟩ := Runs.bind_eq_ok.mp h
    exact ih found h
  | case4 | case6 => cases h
  | case7 _ _ _ _ _ _ _ _ _ _ ih | case8 _ _ _ _ _ _ _ ih => exact ih h

/-- What the older commands ask for is not typed any more. -/
theorem words_isSome_of_commandLine {args : List String} {r : Request}
    (h : commandLine args = .ok (.request r)) : r.words.isSome = true := by
  cases args with
  | nil => cases h
  | cons command rest =>
    rw [commandLine] at h
    rcases ite_eq_iff.mp h with ⟨-, h⟩ | ⟨-, h⟩
    · cases h
    rcases ite_eq_iff.mp h with ⟨-, h⟩ | ⟨-, h⟩
    · cases h
    rcases ite_eq_iff.mp h with ⟨-, h⟩ | ⟨-, h⟩
    · obtain ⟨format, -, h⟩ := Runs.bind_eq_ok.mp h
      cases h
      rfl
    rcases ite_eq_iff.mp h with ⟨-, h⟩ | ⟨-, h⟩
    · obtain ⟨⟨unit, tail, format⟩, -, h⟩ := Runs.bind_eq_ok.mp h
      cases h
      rfl
    rcases ite_eq_iff.mp h with ⟨-, h⟩ | ⟨-, h⟩
    · obtain ⟨log, h⟩ | ⟨unit, tail, h⟩ := parseLog_cases h <;> cases h
      rfl
    -- the other commands make the request they are named after
    iterate 7
      rcases ite_eq_iff.mp h with ⟨-, h⟩ | ⟨-, h⟩
      · obtain ⟨found, -, h⟩ := Runs.bind_eq_ok.mp h
        cases h
        rfl
    cases h

/-- Every request can be typed but the two that only older clients make, and these cannot. -/
theorem typed_iff (r : Request) : (∃ args, commandLine args = .ok (.request r)) ↔
    r ≠ .list ∧ ∀ unit tail, r ≠ .status unit tail := by
  constructor
  · rintro ⟨args, h⟩
    have hwords := words_isSome_of_commandLine h
    constructor
    · rintro rfl
      cases hwords
    · rintro unit tail rfl
      cases hwords
  · rintro ⟨hlist, hstatus⟩
    have hwords : ∃ args, r.words = some args := by
      cases r with
      | list => exact absurd rfl hlist
      | status unit tail => exact absurd rfl (hstatus unit tail)
      | _ => exact ⟨_, rfl⟩
    obtain ⟨args, hargs⟩ := hwords
    exact ⟨args, commandLine_words hargs⟩

end Protocol

end Rinit
