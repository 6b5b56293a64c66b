import Rinit.Json
import Rinit.Logger
import Rinit.Manager

/-!
# Replies in JSON

`rctl list` and `rctl status` can ask for JSON. The documents are put together from pieces of
text (`listEntryJson`, `renderJson`), the recent log of a unit is patched into its object
afterwards, and the reply is cut to the frame like any other. `document` says which value a
request asks for; `handleControl_text` : the text of a reply is what a JSON writer makes of
that value.

The log ring is bounded, so the lines of a reply always fit into the budget for them
(`renderLogs_eq`), and the log is left out when its escapes make it too long. Nothing looks at
the rest of a document : a long list or a long description is cut like a plain text, and what
is left is no JSON. `replies_json_iff` : a reply is the JSON document it should be if and only
if the unit exists and the document fits into a frame.
-/

namespace Rinit

/-! ## The log ring -/

/-- The most recent lines of one unit or of all of them; a count of zero asks for all. -/
def LogBuffer.tailOf (b : LogBuffer) (unit : Option UnitName) (count : ℕ) : List LogLine :=
  let count := if count = 0 then 2 ^ 64 - 1 else count
  match unit with
  | some unit => b.tailFor unit count
  | none => b.tail count

/-- The ring of all captured output : the default bounds, and the lines that were pushed. On every
target a line, which has a name and a text, is larger than a byte. -/
structure ServiceLogs where
  buffer : LogBuffer
  sized : 2 ≤ buffer.sizeOfLine
  reached : ∃ pushes, (LogBuffer.withDefaults buffer.sizeOfLine).run pushes = some buffer

namespace ServiceLogs

def new (sizeOfLine : ℕ) (hsized : 2 ≤ sizeOfLine) : ServiceLogs :=
  ⟨.withDefaults sizeOfLine, hsized, [], rfl⟩

def tail (logs : ServiceLogs) (unit : Option UnitName) (count : ℕ) : List LogLine :=
  logs.buffer.tailOf unit count

theorem fits (logs : ServiceLogs) :
    Fitting.total (lineCost logs.buffer.sizeOfLine) logs.buffer.lines ≤ 256 * 1024 := by
  obtain ⟨pushes, hrun⟩ := logs.reached
  obtain ⟨b, hb, hholds, hmax, -⟩ :=
    (LogBuffer.holds_new logs.buffer.sizeOfLine (256 * 1024) 1024).run (Nat.succ_pos _) pushes
  obtain rfl := Option.some.inj (hrun.symm.trans hb)
  have h := hholds.longest.fits
  rw [hmax] at h
  exact h

end ServiceLogs

/-! ### The lines of a reply -/

def logText (line : LogLine) : String := line.unit.canonical ++ ": " ++ line.text

/-- The newest lines that fit into a budget, newest first, and whether some did not. -/
def selectLines (budget : ℕ) : List LogLine → ℕ → List String × Bool
  | [], _ => ([], false)
  | line :: older, used =>
    let needed := utf8Len (logText line).toList + 1
    if budget < used + needed then ([], true)
    else
      let r := selectLines budget older (used + needed)
      (logText line :: r.1, r.2)

/-- The line that says that there are older lines. -/
def omissionMarker : String := "[older log lines omitted: response size limit]\n"

/-- What the lines of a reply may take up. -/
def logBudget : ℕ := Protocol.maxFrameBytes - 4096 - 1

def renderLogsWithBudget (logs : LogBuffer) (unit : Option UnitName) (tail : UInt32)
    (budget : ℕ) : String :=
  let (selected, omitted) := selectLines budget (logs.tailOf unit tail.toNat).reverse 0
  let header := if omitted then omissionMarker else ""
  header ++ "\n".intercalate selected.reverse

/-- The lines of a `log` or `status --tail` reply. -/
def renderLogs (logs : LogBuffer) (unit : Option UnitName) (tail : UInt32) : String :=
  renderLogsWithBudget logs unit tail logBudget

/-- Lines that fit are all selected. -/
theorem selectLines_eq {budget : ℕ} : ∀ {lines : List LogLine} {used : ℕ},
    used + (lines.map fun line => utf8Len (logText line).toList + 1).sum ≤ budget →
      selectLines budget lines used = (lines.map logText, false)
  | [], _, _ => rfl
  | line :: lines, used, h => by
    rw [List.map_cons, List.sum_cons, ← Nat.add_assoc] at h
    rw [selectLines, selectLines_eq h, if_neg (by omega)]
    rfl

theorem sublist_tailOf (b : LogBuffer) (unit : Option UnitName) (count : ℕ) :
    (b.tailOf unit count).Sublist b.lines := by
  cases unit with
  | none => exact (b.isNewest_tail _).1.sublist
  | some unit => exact (b.isNewest_tailFor unit _).1.sublist.trans List.filter_sublist

/-- The ring holds less than the lines of a reply may take up, so a reply has all the lines
it was asked for. -/
theorem renderLogs_eq (logs : ServiceLogs) (unit : Option UnitName) (tail : UInt32) :
    renderLogs logs.buffer unit tail =
      "\n".intercalate ((logs.tail unit tail.toNat).map logText) := by
  have hline : ∀ line, utf8Len (logText line).toList + 1 ≤
      lineCost logs.buffer.sizeOfLine line := fun line => by
    have hsep : utf8Len ": ".toList = 2 := by decide
    have hsized := logs.sized
    simp only [utf8Len, logText, lineCost, lineOverhead, String.toList_append, List.map_append,
      List.sum_append] at hsep ⊢
    omega
  have hsum : ((logs.tail unit tail.toNat).map fun line => utf8Len (logText line).toList + 1).sum ≤
      256 * 1024 :=
    calc _ ≤ Fitting.total (lineCost logs.buffer.sizeOfLine) (logs.tail unit tail.toNat) :=
          List.sum_le_sum fun line _ => hline line
      _ ≤ Fitting.total (lineCost logs.buffer.sizeOfLine) logs.buffer.lines :=
          Fitting.total_le_of_sublist (sublist_tailOf logs.buffer unit tail.toNat)
      _ ≤ 256 * 1024 := logs.fits
  have hselect : selectLines logBudget
      (logs.tail unit tail.toNat).reverse 0 =
        ((logs.tail unit tail.toNat).reverse.map logText, false) := by
    refine selectLines_eq ?_
    rw [List.map_reverse, List.sum_reverse, Nat.zero_add]
    exact hsum.trans (by decide)
  simp only [ServiceLogs.tail] at hselect
  simp only [renderLogs, renderLogsWithBudget, hselect, Bool.false_eq_true, if_false,
    String.empty_append, List.map_reverse, List.reverse_reverse, ServiceLogs.tail]

/-! ## Pieces of JSON -/

/-- An arbitrary text as a JSON string. -/
def jsonString (value : String) : String :=
  value.toList.foldl (fun out ch => out ++
    (if ch = '"' then "\\\""
    else if ch = '\\' then "\\\\"
    else if ch = '\n' then "\\n"
    else if ch = '\r' then "\\r"
    else if ch = '\t' then "\\t"
    else if ch < ' ' then "\\u" ++ String.ofList ((Nat.toDigits 16 ch.toNat).leftpad 4 '0')
    else String.singleton ch)) "\"" ++ "\""

def jsonOpt (value : Option String) : String := value.elim "null" jsonString

def jsonBool (value : Option Bool) : String := value.elim "null" toString

def jsonNum (value : Option ℕ) : String := value.elim "null" toString

def jsonPid (pid : Option Pid) : String := pid.elim "null" toString

theorem toList_jsonString (value : String) :
    (jsonString value).toList = Json.quote value.toList := by
  have hhex : ∀ n < 32, (Nat.toDigits 16 n).leftpad 4 '0' = Json.hexText n := by decide
  have hfold : ∀ (f : Char → String) (chars : List Char) (out : String),
      (chars.foldl (fun out ch => out ++ f ch) out).toList =
        out.toList ++ chars.flatMap fun ch => (f ch).toList := by
    intro f chars
    induction chars with
    | nil => simp
    | cons ch chars ih => intro out; simp [ih]
  rw [jsonString, String.toList_append, hfold, Json.quote]
  refine congrArg (fun chars => '"' :: (chars ++ ['"'])) (List.flatMap_congr fun ch _ => ?_)
  unfold Json.quoteChar
  split_ifs with _ _ _ _ _ hlow
  all_goals first | rfl | skip
  · rw [String.toList_append, hhex ch.toNat hlow, String.toList_ofList, String.toList_ofList]
    rfl
  · exact String.toList_singleton ch

/-! ## The texts of a unit -/

def serviceKindText : ServiceKind → String
  | .simple => "simple"
  | .oneshot => "oneshot"
  | .notify => "notify"
  | .forking => "forking"

def unitTypeText (rt : UnitRuntime) : String :=
  if rt.config.isTarget then "target"
  else "service (" ++ serviceKindText rt.config.serviceKind ++ ")"

def stateText (rt : UnitRuntime) : String :=
  match rt.pid with
  | some pid => rt.state.asStr ++ " (pid " ++ toString pid ++ ")"
  | none => rt.state.asStr

def restartText (rt : UnitRuntime) : String :=
  let policy := match rt.config.restart with
    | .no => "no"
    | .always => "always"
    | .onSuccess => "on-success"
    | .onFailure => "on-failure"
    | .onAbnormal => "on-abnormal"
  policy ++ " (" ++ toString rt.config.restartSec ++ "s)"

def userText (rt : UnitRuntime) : String :=
  if rt.config.user.isEmpty then "root" else rt.config.user

def execText (rt : UnitRuntime) : String :=
  if rt.config.execStart.isEmpty then "-" else " ".intercalate rt.config.execStart.argv

def outcomeText (outcome : Option ExitOutcome) : Option String :=
  match outcome with
  | some .success => some "success"
  | some (.failure code) => some ("exit " ++ toString code)
  | some (.signalled signal) => some ("signal " ++ toString signal)
  | some .timedOut => some "timeout"
  | none => none

/-! ## The documents as the code writes them -/

/-- The counters of a unit; the ones that cannot be read are missing. -/
structure ResourceUsage where
  memoryBytes : Option ℕ := none
  cpuUsec : Option ℕ := none
  tasks : Option ℕ := none
deriving DecidableEq

/-- One row of `rctl list`. -/
structure UnitListEntry where
  name : String
  kind : String
  state : String
  pid : Option Pid
  target : String
  memoryBytes : Option ℕ
  cpuUsec : Option ℕ
  tasks : Option ℕ
deriving DecidableEq

/-- The rows of `rctl list`, sorted by name. -/
def UnitManager.listEntriesWithUsage (m : UnitManager) (usage : UnitName → ResourceUsage) :
    List UnitListEntry :=
  let units := (m.units.values.filter fun rt => !rt.retired).map fun rt =>
    let target := match m.targetOf rt.config.name with
      | some .started => "started"
      | some .stopped => "stopped"
      | none => "-"
    let usage := usage rt.config.name
    { name := rt.config.name.canonical
      kind := if rt.config.isTarget then "target" else "service"
      state := rt.state.asStr
      pid := rt.pid
      target := target
      memoryBytes := usage.memoryBytes
      cpuUsec := usage.cpuUsec
      tasks := usage.tasks : UnitListEntry }
  let templates := m.templates.keys.map fun name =>
    { name := name
      kind := "template"
      state := "template"
      pid := none
      target := "-"
      memoryBytes := none
      cpuUsec := none
      tasks := none : UnitListEntry }
  (units ++ templates).insertionSort fun a b => a.name ≤ b.name

/-- One line for each unit and each template. -/
def UnitManager.summary (m : UnitManager) : List String :=
  let units := (m.units.values.filter fun rt => !rt.retired).map fun rt =>
    let pid := match rt.pid with
      | some pid => " pid " ++ toString pid
      | none => ""
    rt.config.name.canonical ++ ": " ++ rt.state.asStr ++ pid
  units ++ m.templates.keys.map fun name => name ++ ": template"

def listEntryJson (entry : UnitListEntry) : String :=
  "\x7b\"unit\":" ++ jsonString entry.name ++
  ",\"type\":" ++ jsonString entry.kind ++
  ",\"state\":" ++ jsonString entry.state ++
  ",\"pid\":" ++ jsonPid entry.pid ++
  ",\"target\":" ++ jsonString entry.target ++
  ",\"memory_bytes\":" ++ jsonNum entry.memoryBytes ++
  ",\"cpu_usec\":" ++ jsonNum entry.cpuUsec ++
  ",\"tasks\":" ++ jsonNum entry.tasks ++ "\x7d"

def renderListEntries (entries : List UnitListEntry) : String :=
  "[" ++ ",".intercalate (entries.map listEntryJson) ++ "]"

def renderJson (rt : UnitRuntime) (target : String) (usage : ResourceUsage) : String :=
  "\x7b\"unit\":" ++ jsonString rt.config.name.canonical ++
  ",\"description\":" ++ jsonString rt.config.description ++
  ",\"type\":" ++ jsonString (unitTypeText rt) ++
  ",\"state\":" ++ jsonString (stateText rt) ++
  ",\"pid\":" ++ jsonPid rt.pid ++
  ",\"target\":" ++ jsonString target ++
  ",\"restarts\":" ++ toString rt.backoff.consecutive ++
  ",\"memory_bytes\":" ++ jsonNum usage.memoryBytes ++
  ",\"cpu_usec\":" ++ jsonNum usage.cpuUsec ++
  ",\"tasks\":" ++ jsonNum usage.tasks ++
  ",\"restart_policy\":" ++ jsonString (restartText rt) ++
  ",\"user\":" ++ jsonString (userText rt) ++
  ",\"exec_start\":" ++ jsonString (execText rt) ++
  ",\"status\":" ++ jsonOpt rt.status ++
  ",\"healthy\":" ++ jsonBool rt.healthy ++
  ",\"last_exit\":" ++ jsonOpt (outcomeText rt.lastOutcome) ++
  "\x7d"

def targetText : Option JobTarget → String
  | some .started => "started"
  | some .stopped => "stopped"
  | none => "none"

/-- `rctl status UNIT --format json` without the log. -/
def describeUnitFormatted (m : UnitManager) (usage : UnitName → ResourceUsage) (unit : UnitName) :
    Option String :=
  if m.unitExists unit then do
    let rt ← m.get unit
    return renderJson rt (targetText (m.targetOf unit)) (usage unit)
  else none

/-- Put the log into the object of a unit, or say that it does not fit. -/
def addLog (text logsText : String) : String :=
  let escaped := jsonString logsText
  let body := if text.toList.getLast? = some '}' then String.ofList text.toList.dropLast else text
  if Protocol.maxFrameBytes < utf8Len text.toList + utf8Len escaped.toList + 32 then
    body ++ ",\"log_omitted\":\"response size limit\"\x7d"
  else body ++ ",\"log\":" ++ escaped ++ "\x7d"

/-- The reply to a request for JSON. -/
def handleControl (m : UnitManager) (logs : ServiceLogs) (usage : UnitName → ResourceUsage) :
    Protocol.Request → Option (Protocol.Status × String)
  | .listFormatted .json => some (.ok, renderListEntries (m.listEntriesWithUsage usage))
  | .statusFormatted (some unit) tail .json =>
    match describeUnitFormatted m usage unit with
    | some text =>
      let logsText := renderLogs logs.buffer (some unit) tail
      if 0 < tail ∧ logsText ≠ "" then some (.ok, addLog text logsText) else some (.ok, text)
    | none => some (.noSuchUnit, "no such unit: " ++ unit.canonical)
  | .statusFormatted none _ .json =>
    some (.ok, "[" ++ ",".intercalate (m.summary.map jsonString) ++ "]")
  | _ => none

/-! ## The documents as values -/

def optStr (value : Option String) : Json := value.elim .null fun value => .str value.toList

def optBool (value : Option Bool) : Json := value.elim .null .bool

def optNum (value : Option ℕ) : Json := value.elim .null fun value => .num (.ofInt value)

def optPid (pid : Option Pid) : Json := pid.elim .null fun pid => .num (.ofInt pid)

def entryFields (entry : UnitListEntry) : List (List Char × Json) :=
  [("unit".toList, .str entry.name.toList),
   ("type".toList, .str entry.kind.toList),
   ("state".toList, .str entry.state.toList),
   ("pid".toList, optPid entry.pid),
   ("target".toList, .str entry.target.toList),
   ("memory_bytes".toList, optNum entry.memoryBytes),
   ("cpu_usec".toList, optNum entry.cpuUsec),
   ("tasks".toList, optNum entry.tasks)]

def unitFields (rt : UnitRuntime) (target : String) (usage : ResourceUsage) :
    List (List Char × Json) :=
  [("unit".toList, .str rt.config.name.canonical.toList),
   ("description".toList, .str rt.config.description.toList),
   ("type".toList, .str (unitTypeText rt).toList),
   ("state".toList, .str (stateText rt).toList),
   ("pid".toList, optPid rt.pid),
   ("target".toList, .str target.toList),
   ("restarts".toList, .num (.ofInt rt.backoff.consecutive)),
   ("memory_bytes".toList, optNum usage.memoryBytes),
   ("cpu_usec".toList, optNum usage.cpuUsec),
   ("tasks".toList, optNum usage.tasks),
   ("restart_policy".toList, .str (restartText rt).toList),
   ("user".toList, .str (userText rt).toList),
   ("exec_start".toList, .str (execText rt).toList),
   ("status".toList, optStr rt.status),
   ("healthy".toList, optBool rt.healthy),
   ("last_exit".toList, optStr (outcomeText rt.lastOutcome))]

theorem toList_jsonPid (pid : Option Pid) : (jsonPid pid).toList = (optPid pid).text := by
  cases pid <;> rfl

theorem toList_jsonNum (value : Option ℕ) : (jsonNum value).toList = (optNum value).text := by
  cases value <;> rfl

theorem toList_jsonBool (value : Option Bool) : (jsonBool value).toList = (optBool value).text := by
  rcases value with _ | _ | _ <;> rfl

theorem toList_jsonOpt (value : Option String) : (jsonOpt value).toList = (optStr value).text := by
  cases value with
  | none => rfl
  | some value => exact toList_jsonString value

/-- Every key stands between a comma and a colon, and needs no escape. -/
theorem keys_eq :
    "\x7b\"unit\":".toList = '{' :: Json.quote "unit".toList ++ [':'] ∧
    ",\"description\":".toList = ',' :: Json.quote "description".toList ++ [':'] ∧
    ",\"type\":".toList = ',' :: Json.quote "type".toList ++ [':'] ∧
    ",\"state\":".toList = ',' :: Json.quote "state".toList ++ [':'] ∧
    ",\"pid\":".toList = ',' :: Json.quote "pid".toList ++ [':'] ∧
    ",\"target\":".toList = ',' :: Json.quote "target".toList ++ [':'] ∧
    ",\"restarts\":".toList = ',' :: Json.quote "restarts".toList ++ [':'] ∧
    ",\"memory_bytes\":".toList = ',' :: Json.quote "memory_bytes".toList ++ [':'] ∧
    ",\"cpu_usec\":".toList = ',' :: Json.quote "cpu_usec".toList ++ [':'] ∧
    ",\"tasks\":".toList = ',' :: Json.quote "tasks".toList ++ [':'] ∧
    ",\"restart_policy\":".toList = ',' :: Json.quote "restart_policy".toList ++ [':'] ∧
    ",\"user\":".toList = ',' :: Json.quote "user".toList ++ [':'] ∧
    ",\"exec_start\":".toList = ',' :: Json.quote "exec_start".toList ++ [':'] ∧
    ",\"status\":".toList = ',' :: Json.quote "status".toList ++ [':'] ∧
    ",\"healthy\":".toList = ',' :: Json.quote "healthy".toList ++ [':'] ∧
    ",\"last_exit\":".toList = ',' :: Json.quote "last_exit".toList ++ [':'] ∧
    ",\"log\":".toList = ',' :: Json.quote "log".toList ++ [':'] ∧
    "\x7d".toList = ['}'] := by
  decide

theorem toList_listEntryJson (entry : UnitListEntry) :
    (listEntryJson entry).toList = (Json.obj (entryFields entry)).text := by
  unfold listEntryJson
  simp only [String.toList_append, toList_jsonString, toList_jsonPid, toList_jsonNum,
    entryFields, Json.text, Json.fieldTexts, List.intercalate_cons_cons,
    List.intercalate_singleton, keys_eq, List.append_assoc, List.cons_append, List.nil_append]

theorem toList_renderJson (rt : UnitRuntime) (target : String) (usage : ResourceUsage) :
    (renderJson rt target usage).toList = (Json.obj (unitFields rt target usage)).text := by
  have hrestarts : (toString rt.backoff.consecutive).toList =
      (Json.num (.ofInt rt.backoff.consecutive)).text := rfl
  unfold renderJson
  simp only [String.toList_append, toList_jsonString, toList_jsonPid,
    toList_jsonNum, toList_jsonBool, toList_jsonOpt, hrestarts, unitFields, Json.text,
    Json.fieldTexts, List.intercalate_cons_cons, List.intercalate_singleton, keys_eq,
    List.append_assoc, List.cons_append, List.nil_append]

theorem toList_renderListEntries (entries : List UnitListEntry) :
    (renderListEntries entries).toList =
      (Json.arr (entries.map fun entry => .obj (entryFields entry))).text := by
  have hrows : (entries.map listEntryJson).map String.toList =
      (entries.map fun entry => Json.obj (entryFields entry)).map Json.text := by
    rw [List.map_map, List.map_map]
    exact List.map_congr_left fun entry _ => toList_listEntryJson entry
  unfold renderListEntries
  rw [String.toList_append, String.toList_append, String.toList_intercalate, hrows, Json.text_arr]
  rfl

/-- The fields of a unit with its log, if there are lines to show. -/
def withLog (fields : List (List Char × Json)) (lines : List LogLine) : List (List Char × Json) :=
  let log := ("\n".intercalate (lines.map logText)).toList
  if lines = [] then fields
  else if Protocol.maxFrameBytes < (Json.obj fields).size + Json.quotedSize log + 32 then
    fields ++ [("log_omitted".toList, .str "response size limit".toList)]
  else fields ++ [("log".toList, .str log)]

/-- What `rctl status UNIT` says; none for a unit that does not exist. -/
def unitDocument (m : UnitManager) (logs : ServiceLogs) (usage : UnitName → ResourceUsage)
    (unit : UnitName) (tail : UInt32) : Option Json :=
  ((m.get unit).filter fun rt => !rt.retired).map fun rt =>
    let lines := if tail = 0 then [] else logs.tail (some unit) tail.toNat
    .obj (withLog (unitFields rt (targetText (m.targetOf unit)) (usage unit)) lines)

/-- The value a request for JSON asks for. -/
def document (m : UnitManager) (logs : ServiceLogs) (usage : UnitName → ResourceUsage) :
    Protocol.Request → Option Json
  | .listFormatted .json =>
    some (.arr ((m.listEntriesWithUsage usage).map fun entry => .obj (entryFields entry)))
  | .statusFormatted (some unit) tail .json => unitDocument m logs usage unit tail
  | .statusFormatted none _ .json => some (.arr (m.summary.map fun line => .str line.toList))
  | _ => none

/-! ## The text of a reply -/

theorem utf8Len_text (v : Json) : utf8Len v.text = v.size := Json.bytes_text v

theorem toList_addLog {text : String} {fields : List (List Char × Json)} {lines : List LogLine}
    (htext : text.toList = (Json.obj fields).text) (hf : fields ≠ []) (hl : lines ≠ []) :
    (addLog text ("\n".intercalate (lines.map logText))).toList =
      (Json.obj (withLog fields lines)).text := by
  have homitted : ",\"log_omitted\":\"response size limit\"\x7d".toList =
      ',' :: Json.fieldText ("log_omitted".toList, .str "response size limit".toList) ++ ['}'] := by
    decide
  have hlog : ∀ log : List Char, ",\"log\":".toList ++ (Json.quote log ++ ['}']) =
      ',' :: Json.fieldText ("log".toList, .str log) ++ ['}'] := fun log => by
    simp only [Json.fieldText, Json.text, keys_eq, List.append_assoc, List.cons_append,
      List.nil_append]
  have hsize : ∀ log : String, utf8Len (jsonString log).toList = Json.quotedSize log.toList :=
    fun log => by rw [toList_jsonString]; exact Json.bytes_quote _
  unfold addLog
  rw [htext, if_pos (Json.getLast?_text_obj fields), utf8Len_text]
  simp only [hsize, withLog, if_neg hl]
  split_ifs
  · rw [String.toList_append, String.toList_ofList, homitted, Json.text_obj_append _ hf]
  · rw [String.toList_append, String.toList_append, String.toList_append, String.toList_ofList,
      toList_jsonString, keys_eq.2.2.2.2.2.2.2.2.2.2.2.2.2.2.2.2.2, List.append_assoc,
      List.append_assoc, hlog, Json.text_obj_append _ hf]

theorem renderLogs_ne_empty (logs : ServiceLogs) (unit : Option UnitName) (tail : UInt32) :
    renderLogs logs.buffer unit tail ≠ "" ↔ logs.tail unit tail.toNat ≠ [] := by
  rw [renderLogs_eq]
  cases logs.tail unit tail.toNat with
  | nil => simp
  | cons line lines =>
    refine iff_of_true (fun h => ?_) (List.cons_ne_nil _ _)
    have hlist := congrArg String.toList h
    rw [String.toList_intercalate, List.map_cons, List.map_cons] at hlist
    cases lines <;> simp [logText] at hlist

/-- The text for a unit is what its document is written as. -/
theorem describeUnitFormatted_cases (m : UnitManager) (logs : ServiceLogs)
    (usage : UnitName → ResourceUsage) (unit : UnitName) (tail : UInt32) :
    describeUnitFormatted m usage unit = none ∧ unitDocument m logs usage unit tail = none ∨
    ∃ text fields, describeUnitFormatted m usage unit = some text ∧ fields ≠ [] ∧
      text.toList = (Json.obj fields).text ∧
      unitDocument m logs usage unit tail = some (.obj (withLog fields
        (if tail = 0 then [] else logs.tail (some unit) tail.toNat))) := by
  unfold describeUnitFormatted unitDocument UnitManager.unitExists
  cases m.get unit with
  | none => exact .inl ⟨rfl, rfl⟩
  | some rt =>
    rw [Option.any_some, Option.filter_some]
    cases rt.retired with
    | true => exact .inl ⟨rfl, rfl⟩
    | false => exact .inr ⟨_, _, rfl, List.cons_ne_nil _ _, toList_renderJson rt _ _, rfl⟩

/-- The text of a reply is what the value the request asks for is written as; there is none
for a unit that does not exist. -/
theorem handleControl_text {m : UnitManager} {logs : ServiceLogs}
    {usage : UnitName → ResourceUsage} {request : Protocol.Request}
    {reply : Protocol.Status × String} (h : handleControl m logs usage request = some reply) :
    (∃ d, document m logs usage request = some d ∧ reply.2.toList = d.text) ∨
    document m logs usage request = none ∧
      ∃ unit : UnitName, reply.2 = "no such unit: " ++ unit.canonical := by
  unfold handleControl at h
  split at h
  · rw [← Option.some.inj h]
    exact .inl ⟨_, rfl, toList_renderListEntries _⟩
  · next unit tail =>
    rcases describeUnitFormatted_cases m logs usage unit tail with
      ⟨hnone, hdoc⟩ | ⟨text, fields, hsome, hfields, htext, hdoc⟩
    · rw [hnone] at h
      rw [← Option.some.inj h]
      exact .inr ⟨hdoc, unit, rfl⟩
    · refine .inl ⟨_, hdoc, ?_⟩
      simp only [hsome, renderLogs_ne_empty] at h
      split_ifs at h with hlog
      · have htail : tail ≠ 0 := (UInt32.pos_iff_ne_zero).mp hlog.1
        have hadd := toList_addLog htext hfields hlog.2
        rw [← Option.some.inj h, if_neg htail, ← hadd, renderLogs_eq]
      · have hnil : (if tail = 0 then [] else logs.tail (some unit) tail.toNat) = [] := by
          split_ifs with htail
          · rfl
          · by_contra hne
            exact hlog ⟨UInt32.pos_iff_ne_zero.mpr htail, hne⟩
        rw [← Option.some.inj h, hnil]
        exact htext
  · rw [← Option.some.inj h]
    refine .inl ⟨_, rfl, ?_⟩
    have hrows : (m.summary.map jsonString).map String.toList =
        (m.summary.map fun line => Json.str line.toList).map Json.text := by
      rw [List.map_map, List.map_map]
      exact List.map_congr_left fun line _ => toList_jsonString line
    rw [String.toList_append, String.toList_append, String.toList_intercalate, hrows,
      Json.text_arr]
    rfl
  · exact absurd h nofun

/-! ## Replies on the wire -/

/-- What the other side decodes is the text of a JSON document, and of this one. -/
def RepliesJson (reply : Protocol.Status × String) (d : Json) : Prop :=
  ∃ status text, Protocol.decodeResponse (Protocol.encodeResponse reply.1 reply.2.toList) =
    .ok (status, text) ∧ Json.parse text = some d

/-- A text that fits is a document on the wire if it is one. -/
theorem repliesJson_of_fits {reply : Protocol.Status × String} {d : Json}
    (h : utf8Len reply.2.toList < Protocol.maxFrameBytes) :
    RepliesJson reply d ↔ Json.parse reply.2.toList = some d := by
  have hdec : Protocol.decodeResponse (Protocol.encodeResponse reply.1 reply.2.toList) =
      .ok (reply.1, reply.2.toList) := by
    rw [Protocol.encodeResponse_of_fits (by rw [Protocol.length_utf8Bytes]; omega),
      Protocol.decodeResponse_utf8Bytes]
  constructor
  · rintro ⟨status, text, htext, hparse⟩
    rw [hdec] at htext
    obtain ⟨rfl, rfl⟩ := Prod.mk.inj (Except.ok.inj htext)
    exact hparse
  · exact fun hparse => ⟨_, _, hdec, hparse⟩

/-- A text that was cut is no document : the marker behind it ends in a bracket that closes
nothing. -/
theorem not_repliesJson_of_cut {reply : Protocol.Status × String} {d : Json}
    (h : Protocol.maxFrameBytes ≤ utf8Len reply.2.toList) : ¬ RepliesJson reply d := by
  have hmax : 0 < Protocol.maxFrameBytes := by decide
  obtain ⟨kept, -, henc⟩ := @Protocol.encodeResponse_of_cut reply.1 reply.2.toList
    (by rw [Protocol.length_utf8Bytes]; omega)
  have hmarker : Protocol.marker =
      "\n[truncated: control response exceeds the frame limi".toList ++ ['t', ']'] := by decide
  rintro ⟨status, text, htext, hparse⟩
  rw [henc, Protocol.decodeResponse_utf8Bytes] at htext
  rw [← (Prod.mk.inj (Except.ok.inj htext)).2, hmarker, ← List.append_assoc,
    Json.parse_append_bracket _ (by decide)] at hparse
  exact absurd hparse nofun

/-- What is said of a unit that does not exist is no document. -/
theorem not_repliesJson_unknown {reply : Protocol.Status × String} {unit : UnitName} (d : Json)
    (h : reply.2 = "no such unit: " ++ unit.canonical) : ¬ RepliesJson reply d := by
  have htext : reply.2.toList =
      ['n', 'o'] ++ (' ' :: "such unit: ".toList ++ unit.canonical.toList) := by
    have hword : "no such unit: ".toList = ['n', 'o'] ++ (' ' :: "such unit: ".toList) := by
      decide
    rw [h, String.toList_append, hword, List.append_assoc]
  have hlen : utf8Len reply.2.toList < Protocol.maxFrameBytes := by
    have hunit := (Protocol.length_canonical unit).2
    have hpart : utf8Len ['n', 'o'] + utf8Len (' ' :: "such unit: ".toList) = 14 := by decide
    rw [Protocol.length_utf8Bytes] at hunit
    rw [htext]
    simp only [utf8Len, List.map_append, List.sum_append, maxUnitNameBytes,
      Protocol.maxFrameBytes] at hunit hpart ⊢
    omega
  have hparse : Json.parse reply.2.toList = none := by
    rw [htext]
    exact Json.parse_append_word (List.cons_ne_nil _ _) (List.all_eq_true.mp (by decide))
      (Json.not_isWord_cons (by decide) _) (by decide)
  rw [repliesJson_of_fits hlen, hparse]
  exact (Option.some_ne_none d).symm

/-- The reply to a request for JSON is the document the request asks for, with every text as
the server holds it, if and only if the unit it names exists and the document fits into a
frame. -/
theorem replies_json_iff (m : UnitManager) (logs : ServiceLogs)
    (usage : UnitName → ResourceUsage) (request : Protocol.Request)
    (reply : Protocol.Status × String) (h : handleControl m logs usage request = some reply)
    (d : Json) :
    RepliesJson reply d ↔
      document m logs usage request = some d ∧ d.size < Protocol.maxFrameBytes := by
  rcases handleControl_text h with ⟨d', hdoc, htext⟩ | ⟨hdoc, unit, hunit⟩
  · have hsize : utf8Len reply.2.toList = d'.size := by rw [htext, utf8Len_text]
    rw [hdoc, Option.some.injEq]
    by_cases hfits : d'.size < Protocol.maxFrameBytes
    · rw [repliesJson_of_fits (hsize ▸ hfits), htext, Json.parse_text, Option.some.injEq]
      exact ⟨fun hd => ⟨hd, hd ▸ hfits⟩, And.left⟩
    · refine iff_of_false (not_repliesJson_of_cut (hsize ▸ Nat.not_lt.mp hfits)) ?_
      rintro ⟨rfl, hlt⟩
      exact hfits hlt
  · rw [hdoc]
    refine iff_of_false ?_ fun hd => absurd hd.1 nofun
    exact not_repliesJson_unknown d hunit

/-- A manager of one unit with a description. -/
def described (description : String) : UnitManager where
  units := (∅ : Units).insert serviceA
    (UnitRuntime.new { UnitConfig.new serviceA with description := description })

/-- No output yet, on a target of 64 bits. -/
def noLogs : ServiceLogs := .new 56 (by decide)

/-- What is said of the one unit. -/
def describedFields (description : String) : List (List Char × Json) :=
  unitFields (UnitRuntime.new { UnitConfig.new serviceA with description := description })
    "none" {}

theorem document_described (description : String) :
    document (described description) noLogs (fun _ => {})
      (.statusFormatted (some serviceA) 0 .json) =
        some (.obj (describedFields description)) := by
  have hget : (described description).get serviceA =
      some (UnitRuntime.new { UnitConfig.new serviceA with description := description }) :=
    Std.ExtTreeMap.getElem?_insert_self
  rw [document, unitDocument, hget]
  rfl

theorem handleControl_described (description : String) : ∃ text,
    handleControl (described description) noLogs (fun _ => {})
      (.statusFormatted (some serviceA) 0 .json) = some (.ok, text) := by
  have hget : (described description).get serviceA =
      some (UnitRuntime.new { UnitConfig.new serviceA with description := description }) :=
    Std.ExtTreeMap.getElem?_insert_self
  have hexists : (described description).unitExists serviceA = true := by
    rw [UnitManager.unitExists, hget]
    rfl
  have hdescribe : ∃ text,
      describeUnitFormatted (described description) (fun _ => {}) serviceA = some text := by
    rw [describeUnitFormatted, if_pos hexists, hget]
    exact ⟨_, rfl⟩
  obtain ⟨text, htext⟩ := hdescribe
  refine ⟨text, ?_⟩
  simp only [handleControl, htext]
  exact if_neg fun h => absurd h.1 (by decide)

theorem replies_json_iff_described : ∃ reply,
    handleControl (described "say \"hi\"") noLogs (fun _ => {})
      (.statusFormatted (some serviceA) 0 .json) = some reply ∧
    RepliesJson reply (.obj (describedFields "say \"hi\"")) := by
  obtain ⟨text, htext⟩ := handleControl_described "say \"hi\""
  exact ⟨_, htext, (replies_json_iff _ _ _ _ _ htext _).mpr
    ⟨document_described _, by decide⟩⟩

/-- A description that fills a frame alone leaves no document. -/
theorem not_repliesJson_described {description : String}
    (h : Protocol.maxFrameBytes ≤ description.toList.length) {text : String}
    (htext : handleControl (described description) noLogs (fun _ => {})
      (.statusFormatted (some serviceA) 0 .json) = some (.ok, text)) (d : Json) :
    ¬ RepliesJson (.ok, text) d := by
  refine not_repliesJson_of_cut ?_
  rcases handleControl_text htext with ⟨d', hdoc, hd'⟩ | ⟨hdoc, -⟩
  · obtain rfl := Option.some.inj ((document_described _).symm.trans hdoc)
    have hfield : ("description".toList, Json.str description.toList) ∈
        describedFields description :=
      List.mem_cons_of_mem _ List.mem_cons_self
    rw [hd', utf8Len_text]
    exact (h.trans (Json.length_le_quotedSize _)).trans (Json.size_le_of_mem hfield)
  · exact absurd ((document_described _).symm.trans hdoc) nofun

/-- The description of the one unit is as long as a frame, and what arrives is no document. -/
theorem not_replies_json_described : ∃ reply,
    handleControl (described (String.ofList (List.replicate Protocol.maxFrameBytes 'x'))) noLogs
      (fun _ => {}) (.statusFormatted (some serviceA) 0 .json) = some reply ∧
    reply.1 = .ok ∧ ∀ d, ¬ RepliesJson reply d := by
  obtain ⟨text, htext⟩ := handleControl_described
    (String.ofList (List.replicate Protocol.maxFrameBytes 'x'))
  refine ⟨_, htext, rfl, not_repliesJson_described ?_ htext⟩
  rw [String.toList_ofList, List.length_replicate]

end Rinit
