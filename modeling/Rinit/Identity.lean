import Rinit.Child
import Rinit.Users

/-!
# Whom a service runs as

`User=`, `Group=` and the capabilities of a unit are resolved to a sandbox before its process is
made (`Sandbox.resolve`). `resolveFrom_spec` : every name is found in the database as it is
written, or the unit is refused with the key that names nothing; and a unit with another user
gets a group list of its own. `resolve_eq_resolveFrom` : a file that is not read would have made
no difference.

`identified_of_started` is what it is for : a service that has been started runs as the user and
in the groups that the database gives for its unit file, and not with any group or capability
that its parent happens to have.
-/

namespace Rinit

/-! ## Capabilities -/

/-- The names of the capabilities and their numbers, which the kernel never changes. -/
def capabilityNames : List (String × ℕ) :=
  [("chown", 0), ("dac_override", 1), ("dac_read_search", 2), ("fowner", 3), ("fsetid", 4),
    ("kill", 5), ("setgid", 6), ("setuid", 7), ("setpcap", 8), ("linux_immutable", 9),
    ("net_bind_service", 10), ("net_broadcast", 11), ("net_admin", 12), ("net_raw", 13),
    ("ipc_lock", 14), ("ipc_owner", 15), ("sys_module", 16), ("sys_rawio", 17),
    ("sys_chroot", 18), ("sys_ptrace", 19), ("sys_pacct", 20), ("sys_admin", 21),
    ("sys_boot", 22), ("sys_nice", 23), ("sys_resource", 24), ("sys_time", 25),
    ("sys_tty_config", 26), ("mknod", 27), ("lease", 28), ("audit_write", 29),
    ("audit_control", 30), ("setfcap", 31), ("mac_override", 32), ("mac_admin", 33),
    ("syslog", 34), ("wake_alarm", 35), ("block_suspend", 36), ("audit_read", 37),
    ("perfmon", 38), ("bpf", 39), ("checkpoint_restore", 40)]

def capabilityNumber (name : String) : Option ℕ := capabilityNames.lookup name

/-- The largest number a name stands for is one the kernel's sets have room for. -/
theorem le_of_capabilityNumber {name : String} {n : ℕ} (h : capabilityNumber name = some n) :
    n ≤ 40 := by
  have hall : ∀ e ∈ capabilityNames, e.2 ≤ 40 := by decide
  unfold capabilityNumber at h
  obtain ⟨l₁, l₂, heq, -⟩ := List.lookup_eq_some_iff.mp h
  exact hall (name, n) (by rw [heq]; simp)

/-! ## Resolution -/

/-- What stops a unit before it has a process. -/
inductive RuntimeError where
  | syscall (e : SyscallError)
  | io (op : String) (source : String)
deriving DecidableEq, Repr

/-- The error of a name that stands for nothing. -/
def lookupError (op : String) : RuntimeError := .syscall { op := op, errno := eNoEnt }

/-- What a `User=` value turned out to be. -/
inductive User where
  | root
  | id (uid : ℕ)
  | named (name : List Char) (uid primaryGid : ℕ)
deriving DecidableEq, Repr

namespace User

def uid : User → ℕ
  | .root => 0
  | .id uid => uid
  | .named _ uid _ => uid

/-- The group of a user without a `Group=`. A number has the group of the same number. -/
def gid : User → ℕ
  | .root => 0
  | .id uid => uid
  | .named _ _ primaryGid => primaryGid

end User

/-- Resolve a `User=` value against a passwd body. -/
def classify (user passwd : List Char) : Except RuntimeError User :=
  if user.isEmpty then .ok .root
  else
    match parseUnsigned 32 user with
    | some id => .ok (.id id)
    | none =>
      match passwdIds passwd user with
      | some (uid, primaryGid) => .ok (.named user uid primaryGid)
      | none => .error (lookupError "User= lookup")

/-- Resolve the names of a capability directive. -/
def resolveCaps (names : Option (List Cap)) (op : String) :
    Except RuntimeError (Option (List ℕ)) :=
  match names with
  | none => .ok none
  | some names =>
    (names.mapM fun (cap : Cap) =>
      match capabilityNumber cap.name with
      | some number => Except.ok number
      | none => .error (lookupError op)).map some

namespace Sandbox

/-- The gid of a unit : a `Group=` always wins, and without one the group follows the user. -/
def resolveGid (user : User) (group groups : List Char) : Except RuntimeError ℕ :=
  if group.isEmpty then .ok user.gid
  else
    match parseUnsigned 32 group with
    | some id => .ok id
    | none =>
      match groupGid groups group with
      | some id => .ok id
      | none => .error (lookupError "Group= lookup")

/-- The group list of a unit that changes its user. -/
def groupList (user : User) (gid : ℕ) (groups : List Char) : Option (List ℕ) :=
  match user with
  | .root => none
  | .id _ => some [gid]
  | .named name _ _ =>
    let list := supplementaryGids groups name
    -- the primary group belongs to the list even if no row lists the user
    some (if list.contains gid then list else list ++ [gid])

/-- The sandbox of a unit, against the bodies of the databases. -/
def resolveFrom (config : UnitConfig) (passwd groups : List Char) :
    Except RuntimeError Sandbox := do
  let user ← classify (trim config.user.toList) passwd
  let gid ← resolveGid user (trim config.group.toList) groups
  let boundingSet ← resolveCaps config.capabilityBoundingSet "CapabilityBoundingSet="
  let ambient ← resolveCaps config.ambientCapabilities "AmbientCapabilities="
  return {
    uid := user.uid
    gid := gid
    groups := groupList user gid groups
    noNewPrivileges := config.noNewPrivileges
    boundingSet := boundingSet
    ambient := ambient }

/-- Whether a value is a name, which has to be looked up. -/
def isName (value : List Char) : Bool := !value.isEmpty && (parseUnsigned 32 value).isNone

/-- Whether the databases have to be read at all. -/
def needsUserDatabase (config : UnitConfig) : Bool :=
  isName (trim config.user.toList) || isName (trim config.group.toList)

/-- Read a database, naming the file that cannot be read. -/
def readDatabase (read : String → Except String (List Char)) (path op : String) :
    Except RuntimeError (List Char) := (read path).mapError (.io op)

/-- The body of the passwd file, which a number has no use for. -/
def readPasswd (read : String → Except String (List Char)) (user : List Char) :
    Except RuntimeError (List Char) :=
  if (parseUnsigned 32 user).isSome then .ok []
  else readDatabase read "/etc/passwd" "read /etc/passwd"

/-- The sandbox of a unit. No database is read without a name. -/
def resolve (read : String → Except String (List Char)) (config : UnitConfig) :
    Except RuntimeError Sandbox :=
  if !needsUserDatabase config then resolveFrom config [] []
  else do
    let passwd ← readPasswd read (trim config.user.toList)
    let groups ← readDatabase read "/etc/group" "read /etc/group"
    resolveFrom config passwd groups

end Sandbox

/-! ## What it comes to -/

/-- What a `User=` value names, by the records of the database. -/
def userOf (users : List UserRecord) (user : List Char) : Option User :=
  if user.isEmpty then some .root
  else
    match parseUnsigned 32 user with
    | some id => some (.id id)
    | none => (users.find? (·.name = user)).map fun r => .named user r.uid r.gid

/-- What a `Group=` value names, if there is one. -/
def groupOf (groups : List GroupRecord) (group : List Char) : Option ℕ :=
  match parseUnsigned 32 group with
  | some id => some id
  | none => (groups.find? (·.name = group)).map (·.gid)

/-- Every capability has its number. -/
def Resolved (names : Option (List Cap)) (numbers : Option (List ℕ)) : Prop :=
  names.map (·.map fun cap => capabilityNumber cap.name) = numbers.map (·.map some)

/-- The sandbox of a unit, by the records of the databases. -/
structure RunsAs (config : UnitConfig) (users : List UserRecord) (groups : List GroupRecord)
    (who : User) (s : Sandbox) : Prop where
  user : userOf users (trim config.user.toList) = some who
  uid : s.uid = who.uid
  /-- Without a `Group=` the group follows the user. -/
  primary : trim config.group.toList = [] → s.gid = who.gid
  group : trim config.group.toList ≠ [] → groupOf groups (trim config.group.toList) = some s.gid
  /-- A unit that stays with root keeps root's groups. -/
  kept : who = .root → s.groups = none
  /-- Any other has the groups that list its user, and its own. -/
  own : who ≠ .root → ∃ gids, s.groups = some gids ∧ gids.Nodup ∧ ∀ gid, gid ∈ gids ↔
    gid = s.gid ∨ ∃ name uid primaryGid, who = .named name uid primaryGid ∧
      ∃ r ∈ groups, r.gid = gid ∧ r.Lists name
  noNewPrivileges : s.noNewPrivileges = config.noNewPrivileges
  bounding : Resolved config.capabilityBoundingSet s.boundingSet
  ambient : Resolved config.ambientCapabilities s.ambient

/-- A name of a unit that stands for nothing, and the error it is refused with. -/
inductive Unresolved (config : UnitConfig) (users : List UserRecord) (groups : List GroupRecord) :
    RuntimeError → Prop
  | user (h : userOf users (trim config.user.toList) = none) :
    Unresolved config users groups (lookupError "User= lookup")
  | group (hne : trim config.group.toList ≠ [])
    (h : groupOf groups (trim config.group.toList) = none) :
    Unresolved config users groups (lookupError "Group= lookup")
  | bounding {names : List Cap} {cap : Cap} (hnames : config.capabilityBoundingSet = some names)
    (hcap : cap ∈ names) (h : capabilityNumber cap.name = none) :
    Unresolved config users groups (lookupError "CapabilityBoundingSet=")
  | ambient {names : List Cap} {cap : Cap} (hnames : config.ambientCapabilities = some names)
    (hcap : cap ∈ names) (h : capabilityNumber cap.name = none) :
    Unresolved config users groups (lookupError "AmbientCapabilities=")

section Lookups

variable {config : UnitConfig} {passwd groups : List Char}

theorem classify_eq (user passwd : List Char) : classify user passwd =
    match userOf (passwdRecords passwd) user with
    | some user => .ok user
    | none => .error (lookupError "User= lookup") := by
  unfold classify userOf
  split
  · rfl
  · next hne =>
    cases parseUnsigned 32 user with
    | some id => rfl
    | none =>
      simp only [passwdIds_eq passwd (by simpa using hne)]
      cases (passwdRecords passwd).find? (·.name = user) <;> rfl

theorem resolveGid_eq (who : User) (group groups : List Char) :
    Sandbox.resolveGid who group groups =
      if group.isEmpty then .ok who.gid
      else
        match groupOf (groupRecords groups) group with
        | some gid => .ok gid
        | none => .error (lookupError "Group= lookup") := by
  unfold Sandbox.resolveGid groupOf groupGid
  split
  · rfl
  · next hne =>
    cases parseUnsigned 32 group with
    | some id => rfl
    | none => simp only [idOf_eq groups (by simpa using hne)]

/-- The group list is what the records have for the user, and the group of the unit. -/
theorem groupList_spec {who : User} (hwho : who ≠ .root)
    (hname : ∀ name uid primaryGid, who = .named name uid primaryGid → name ≠ []) (gid : ℕ)
    (groups : List Char) : ∃ gids, Sandbox.groupList who gid groups = some gids ∧ gids.Nodup ∧
      ∀ g, g ∈ gids ↔ g = gid ∨ ∃ name uid primaryGid, who = .named name uid primaryGid ∧
        ∃ r ∈ groupRecords groups, r.gid = g ∧ r.Lists name := by
  cases who with
  | root => exact absurd rfl hwho
  | id uid => exact ⟨[gid], rfl, List.nodup_singleton _, by simp⟩
  | named name uid primaryGid =>
    obtain ⟨hnodup, hmem⟩ := supplementaryGids_spec groups (hname name uid primaryGid rfl)
    refine ⟨_, rfl, ?_, fun g => ?_⟩
    · split
      · exact hnodup
      · next hnew =>
        exact hnodup.append (List.nodup_singleton _) (by simpa using hnew)
    · have hown : (∃ name' uid' primaryGid', User.named name uid primaryGid =
          .named name' uid' primaryGid' ∧ ∃ r ∈ groupRecords groups, r.gid = g ∧ r.Lists name') ↔
          g ∈ supplementaryGids groups name := by
        rw [hmem]
        constructor
        · rintro ⟨_, _, _, heq, h⟩
          cases heq
          exact h
        · exact fun h => ⟨name, uid, primaryGid, rfl, h⟩
      rw [hown]
      split
      · next hold =>
        have hold : gid ∈ supplementaryGids groups name := List.contains_iff_mem.mp hold
        exact ⟨.inr, fun h => h.elim (fun heq => heq ▸ hold) fun h => h⟩
      · rw [List.mem_append, List.mem_singleton, or_comm]

/-- Names are resolved one after the other. -/
theorem mapM_caps (op : String) : ∀ caps : List Cap,
    match (caps.mapM fun (cap : Cap) =>
      match capabilityNumber cap.name with
      | some number => Except.ok number
      | none => .error (lookupError op)) with
    | .ok numbers => caps.map (fun cap => capabilityNumber cap.name) = numbers.map some
    | .error e => e = lookupError op ∧ ∃ cap ∈ caps, capabilityNumber cap.name = none
  | [] => rfl
  | cap :: caps => by
    have ih := mapM_caps op caps
    rw [List.mapM_cons]
    cases hcap : capabilityNumber cap.name with
    | none => exact ⟨rfl, cap, List.mem_cons_self, hcap⟩
    | some number =>
      split at ih
      · next numbers hnumbers =>
        change match (List.mapM _ caps >>= _ : Except RuntimeError (List ℕ)) with
          | .ok numbers => _
          | .error e => _
        rw [hnumbers]
        simp [bind, Except.bind, pure, Except.pure, hcap, ih]
      · next e he =>
        change match (List.mapM _ caps >>= _ : Except RuntimeError (List ℕ)) with
          | .ok numbers => _
          | .error e => _
        rw [he]
        obtain ⟨rfl, cap', hmem, hnone⟩ := ih
        exact ⟨rfl, cap', List.mem_cons_of_mem _ hmem, hnone⟩

theorem resolveCaps_eq (names : Option (List Cap)) (op : String) :
    match resolveCaps names op with
    | .ok numbers => Resolved names numbers
    | .error e => e = lookupError op ∧ ∃ caps, names = some caps ∧
      ∃ cap ∈ caps, capabilityNumber cap.name = none := by
  cases names with
  | none => rfl
  | some caps =>
    have h := mapM_caps op caps
    unfold resolveCaps
    split at h
    · next numbers hnumbers =>
      simp only [hnumbers]
      exact congrArg some h
    · next e he =>
      simp only [he]
      exact ⟨h.1, caps, rfl, h.2⟩

/-- A `User=` is what it names, or stops the unit. -/
theorem userOf_named {users : List UserRecord} {user name : List Char} {uid primaryGid : ℕ}
    (h : userOf users user = some (.named name uid primaryGid)) : name = user ∧ name ≠ [] := by
  unfold userOf at h
  split at h
  · cases h
  · next hne =>
    split at h
    · cases h
    · obtain ⟨r, -, hr⟩ := Option.map_eq_some_iff.mp h
      cases hr
      exact ⟨rfl, by simpa using hne⟩

/-- Every name is found as the database has it, or one is not. -/
theorem resolveFrom_cases (config : UnitConfig) (passwd groups : List Char) :
    match Sandbox.resolveFrom config passwd groups with
    | .ok s => ∃ who, RunsAs config (passwdRecords passwd) (groupRecords groups) who s
    | .error e => Unresolved config (passwdRecords passwd) (groupRecords groups) e := by
  unfold Sandbox.resolveFrom
  rw [classify_eq]
  have hb := resolveCaps_eq config.capabilityBoundingSet "CapabilityBoundingSet="
  have ha := resolveCaps_eq config.ambientCapabilities "AmbientCapabilities="
  cases huser : userOf (passwdRecords passwd) (trim config.user.toList) with
  | none => exact .user huser
  | some who =>
    have hg := resolveGid_eq who (trim config.group.toList) groups
    simp only [bind, Except.bind]
    cases hgid : Sandbox.resolveGid who (trim config.group.toList) groups with
    | error e =>
      rw [hgid] at hg
      split at hg
      · cases hg
      · next hne =>
        split at hg
        · cases hg
        · next hnone =>
          cases hg
          exact .group (by simpa using hne) hnone
    | ok gid =>
      rw [hgid] at hg
      cases hbounding : resolveCaps config.capabilityBoundingSet "CapabilityBoundingSet=" with
      | error e =>
        rw [hbounding] at hb
        obtain ⟨rfl, names, hnames, cap, hcap, hnone⟩ := hb
        exact .bounding hnames hcap hnone
      | ok bounding =>
        rw [hbounding] at hb
        cases hambient : resolveCaps config.ambientCapabilities "AmbientCapabilities=" with
        | error e =>
          rw [hambient] at ha
          obtain ⟨rfl, names, hnames, cap, hcap, hnone⟩ := ha
          exact .ambient hnames hcap hnone
        | ok ambient =>
          rw [hambient] at ha
          refine ⟨who, huser, rfl, fun hempty => ?_, fun hne => ?_, fun hroot => ?_, fun hroot => ?_,
            rfl, hb, ha⟩
          · rw [if_pos (by simpa using hempty)] at hg
            exact Except.ok.inj hg
          · rw [if_neg (by simpa using hne)] at hg
            split at hg
            · next found hfound =>
              rw [hfound, Except.ok.inj hg]
            · cases hg
          · rw [hroot]
            rfl
          · refine groupList_spec hroot (fun name uid primaryGid hnamed => ?_) gid groups
            rw [hnamed] at huser
            exact (userOf_named huser).2

/-- A unit that is let through runs as who its file says, one that is refused has a name that is
not found. -/
theorem resolveFrom_spec (config : UnitConfig) (passwd groups : List Char) :
    (∀ s, Sandbox.resolveFrom config passwd groups = .ok s →
      ∃ who, RunsAs config (passwdRecords passwd) (groupRecords groups) who s) ∧
    ∀ e, Sandbox.resolveFrom config passwd groups = .error e →
      Unresolved config (passwdRecords passwd) (groupRecords groups) e := by
  have h := resolveFrom_cases config passwd groups
  constructor
  · intro s hs
    rwa [hs] at h
  · intro e he
    rwa [he] at h

/-! ## What is not read -/

theorem isName_eq_false {value : List Char} (h : Sandbox.isName value = false) :
    value = [] ∨ ∃ id, parseUnsigned 32 value = some id := by
  unfold Sandbox.isName at h
  cases value with
  | nil => exact .inl rfl
  | cons c value =>
    cases hid : parseUnsigned 32 (c :: value) with
    | none => simp [hid] at h
    | some id => exact .inr ⟨id, rfl⟩

/-- Who is no name is not looked up. -/
theorem classify_of_not_isName {user : List Char} (h : Sandbox.isName user = false)
    (passwd passwd' : List Char) : classify user passwd = classify user passwd' := by
  unfold classify
  obtain rfl | ⟨id, hid⟩ := isName_eq_false h
  · rfl
  · rw [hid]

theorem groupList_of_not_isName {user passwd : List Char} {who : User}
    (h : Sandbox.isName user = false) (hwho : classify user passwd = .ok who) (gid : ℕ)
    (groups groups' : List Char) :
    Sandbox.groupList who gid groups = Sandbox.groupList who gid groups' := by
  cases who with
  | root => rfl
  | id uid => rfl
  | named name uid primaryGid =>
    unfold classify at hwho
    obtain rfl | ⟨id, hid⟩ := isName_eq_false h
    · cases hwho
    · rw [hid] at hwho
      split at hwho <;> cases hwho

theorem resolveGid_of_not_isName {group : List Char} (h : Sandbox.isName group = false)
    (who : User) (groups groups' : List Char) :
    Sandbox.resolveGid who group groups = Sandbox.resolveGid who group groups' := by
  unfold Sandbox.resolveGid
  obtain rfl | ⟨id, hid⟩ := isName_eq_false h
  · rfl
  · rw [hid]

/-- A database that is not read would have made no difference. -/
theorem resolve_eq_resolveFrom {read : String → Except String (List Char)} {config : UnitConfig}
    {passwd groups : List Char}
    (hpasswd : Sandbox.needsUserDatabase config = true →
      parseUnsigned 32 (trim config.user.toList) = none → read "/etc/passwd" = .ok passwd)
    (hgroups : Sandbox.needsUserDatabase config = true → read "/etc/group" = .ok groups) :
    Sandbox.resolve read config = Sandbox.resolveFrom config passwd groups := by
  unfold Sandbox.resolve
  split
  · next hneeds =>
    have hneeds : Sandbox.needsUserDatabase config = false := by simpa using hneeds
    obtain ⟨huser, hgroup⟩ := Bool.or_eq_false_iff.mp hneeds
    unfold Sandbox.resolveFrom
    rw [classify_of_not_isName huser passwd []]
    cases hwho : classify (trim config.user.toList) [] with
    | error e => rfl
    | ok who =>
      simp only [bind, Except.bind, resolveGid_of_not_isName hgroup who groups [],
        fun gid => groupList_of_not_isName huser hwho gid groups []]
  · next hneeds =>
    have hneeds : Sandbox.needsUserDatabase config = true := by simpa using hneeds
    unfold Sandbox.readPasswd Sandbox.readDatabase
    rw [hgroups hneeds]
    split
    · next hid =>
      -- a number is not looked up in the body that is not read
      obtain ⟨id, hid⟩ := Option.isSome_iff_exists.mp hid
      have huser : Sandbox.isName (trim config.user.toList) = false := by
        simp [Sandbox.isName, hid]
      change Sandbox.resolveFrom config [] groups = _
      unfold Sandbox.resolveFrom
      rw [classify_of_not_isName huser passwd []]
    · next hid =>
      rw [hpasswd hneeds (by simpa using hid)]
      rfl

end Lookups

/-! ## Whom a service runs as -/

/-- The credentials of a process that is who the unit file says, by the records of the
databases. -/
structure Identified (config : UnitConfig) (users : List UserRecord) (groups : List GroupRecord)
    (who : User) (c : Credentials) : Prop where
  user : userOf users (trim config.user.toList) = some who
  uid : c.uid = who.uid
  primary : trim config.group.toList = [] → c.gid = who.gid
  group : trim config.group.toList ≠ [] → groupOf groups (trim config.group.toList) = some c.gid
  /-- Another user has no group but its own and those that list it. -/
  groups : who ≠ .root → ∀ gid, gid ∈ c.groups ↔ gid = c.gid ∨
    ∃ name uid primaryGid, who = .named name uid primaryGid ∧
      ∃ r ∈ groups, r.gid = gid ∧ r.Lists name
  /-- Another user has no privilege but the ambient capabilities of the unit. -/
  effective : who.uid ≠ 0 → c.effective = ∅
  ambient : who.uid ≠ 0 → ∀ cap, cap ∈ c.ambient ↔ ∃ names, config.ambientCapabilities = some names ∧
    ∃ name ∈ names, capabilityNumber name.name = some cap
  /-- Nobody gets back a capability that is not to be kept. -/
  bounding : ∀ names, config.capabilityBoundingSet = some names → ∀ cap ∈ c.bounding,
    ∃ name ∈ names, capabilityNumber name.name = some cap
  noNewPrivileges : config.noNewPrivileges = true → c.noNewPrivs = true

/-- The numbers of a directive are those of its names. -/
theorem Resolved.mem_iff {names : Option (List Cap)} {numbers : Option (List ℕ)}
    (h : Resolved names numbers) (cap : ℕ) : cap ∈ numbers.getD [] ↔
      ∃ caps, names = some caps ∧ ∃ name ∈ caps, capabilityNumber name.name = some cap := by
  unfold Resolved at h
  cases names with
  | none =>
    cases numbers with
    | none => simp
    | some numbers => cases h
  | some caps =>
    cases numbers with
    | none => cases h
    | some numbers =>
      have h : caps.map (fun cap => capabilityNumber cap.name) = numbers.map some :=
        Option.some.inj h
      have hcap : cap ∈ numbers ↔ some cap ∈ numbers.map some := by simp
      rw [Option.getD_some, hcap, ← h, List.mem_map]
      simp

/-- A started service is who its unit file says. -/
theorem identified_applied {config : UnitConfig} {users : List UserRecord}
    {groups : List GroupRecord} {who : User} {s : Sandbox} {c : Credentials}
    (hruns : RunsAs config users groups who s) (huid : c.uid = 0) (hgid : c.gid = 0) :
    Identified config users groups who (s.applied c) := by
  have hgid : (s.applied c).gid = s.gid := by
    by_cases h : s.gid = 0 <;> simp [Sandbox.applied, h, hgid]
  have hleft : who.uid ≠ 0 → c.uid = 0 ∧ s.uid ≠ 0 := fun h => ⟨huid, hruns.uid ▸ h⟩
  refine ⟨hruns.user, ?_, fun hempty => ?_, fun hne => ?_, fun hwho gid => ?_, fun hne => ?_,
    fun hne cap => ?_, fun names hnames cap hcap => ?_, fun hprivs => ?_⟩
  · by_cases h : s.uid = 0 <;> simp [Sandbox.applied, h, huid, ← hruns.uid]
  · rw [hgid, hruns.primary hempty]
  · rw [hgid, hruns.group hne]
  · obtain ⟨gids, hgids, -, hmem⟩ := hruns.own hwho
    rw [hgid, ← hmem]
    simp [Sandbox.applied, hgids]
  · exact if_pos (hleft hne)
  · rw [← hruns.ambient.mem_iff]
    have hleft := hleft hne
    rcases ha : s.ambient with _ | _ | ⟨first, caps⟩ <;> simp [Sandbox.applied, ha, hleft]
  · obtain ⟨caps, hcaps, name, hname, hnumber⟩ :=
      (hruns.bounding.mem_iff cap).mp (by
        have hset : s.boundingSet.isSome := by
          have h := hruns.bounding
          unfold Resolved at h
          rw [hnames] at h
          cases hs : s.boundingSet with
          | none =>
            rw [hs] at h
            cases h
          | some keep => rfl
        obtain ⟨keep, hkeep⟩ := Option.isSome_iff_exists.mp hset
        simp only [Sandbox.applied, hkeep] at hcap
        simpa [hkeep] using (Finset.mem_filter.mp hcap).2)
    cases hnames.symm.trans hcaps
    exact ⟨name, hname, hnumber⟩
  · simp [Sandbox.applied, hruns.noNewPrivileges, hprivs]

/-- A started service is who its unit file says : whatever its parent is, beside root. -/
theorem identified_of_started {config : UnitConfig} {passwd groups : List Char} {k : ChildKernel}
    {setup : ChildSetup} {c : Credentials} {child : Child} {n : ℕ}
    (hresolve : Sandbox.resolveFrom config passwd groups = .ok setup.sandbox)
    (huid : c.uid = 0) (hgid : c.gid = 0) (h : Started k setup c child n) :
    ∃ who, Identified config (passwdRecords passwd) (groupRecords groups) who
      child.credentials := by
  have hspec := resolveFrom_cases config passwd groups
  rw [hresolve] at hspec
  obtain ⟨who, hruns⟩ := hspec
  exact ⟨who, h.credentials ▸ identified_applied hruns huid hgid⟩

/-! ### A web server -/

/-- The databases of a system with one service user. -/
def wwwPasswd : List Char := "root:x:0:0::/:/bin/sh\nwww:x:33:33::/srv:/bin/false\n".toList

def wwwGroups : List Char := "root:x:0:\nwheel:x:10:harry\nwww:x:33:\n".toList

/-- A unit that names its user. -/
def wwwConfig : UnitConfig :=
  { UnitConfig.new ⟨"httpd.service", .service, by decide⟩ with
    user := "www"
    noNewPrivileges := true }

theorem resolveFrom_www :
    Sandbox.resolveFrom wwwConfig wwwPasswd wwwGroups = .ok wwwSetup.sandbox := by
  decide +kernel

theorem identified_www : ∃ who, Identified wwwConfig (passwdRecords wwwPasswd)
    (groupRecords wwwGroups) who (Child.final obligingKernel wwwSetup
      CredentialKernel.rootCredentials).credentials :=
  identified_of_started resolveFrom_www rfl rfl started_www

theorem resolve_www : Sandbox.resolve (fun path =>
    if path = "/etc/passwd" then .ok wwwPasswd
    else if path = "/etc/group" then .ok wwwGroups
    else .error "not found") wwwConfig = Sandbox.resolveFrom wwwConfig wwwPasswd wwwGroups :=
  resolve_eq_resolveFrom (fun _ _ => rfl) fun _ => rfl

end Rinit
