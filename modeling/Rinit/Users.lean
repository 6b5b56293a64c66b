import Rinit.Lines
import Rinit.Name
import Rinit.Passwords
import Rinit.Runs

/-!
# The user database

`User=` and `Group=` are looked up in the text of two files, row by row. What a lookup sees of a
row is its record (`passwdRecord`, `groupRecord`), and the lookups are questions about the list
of records : the first row of a user counts (`passwdIds_eq`), the first row of a group
(`idOf_eq`), and every group that lists a member (`mem_supplementaryGids`). A row that makes no
record does not hide the ones after it.

A database written row by row is read back (`passwdRecords_text`, `groupRecords_text`), whatever
other lines stand between the rows.
-/

namespace Rinit

/-! ## Reading -/

/-- The uid and primary gid of `name` in a passwd body. -/
def passwdIds (contents name : List Char) : Option (ℕ × ℕ) :=
  if name.isEmpty then none
  else
    (lines contents).findSome? fun line =>
      match line.splitOn ':' with
      | first :: _password :: uid :: gid :: _ =>
        if first ≠ name then none
        else do
          let uid ← parseUnsigned 32 (trim uid)
          let gid ← parseUnsigned 32 (trim gid)
          some (uid, gid)
      | _ => none

def passwdUid (contents name : List Char) : Option ℕ :=
  (passwdIds contents name).map fun ids => ids.1

/-- The gids of the groups that list `name`, in file order and without repeats. -/
def supplementaryGids (contents name : List Char) : List ℕ :=
  if name.isEmpty then []
  else
    (lines contents).foldl (fun gids line =>
      match line.splitOn ':' with
      | _ :: _password :: gid :: rest =>
        match parseUnsigned 32 (trim gid) with
        | none => gids
        | some gid =>
          if ((rest.headD []).splitOn ',').any (fun member => trim member = name) &&
              !gids.contains gid then gids ++ [gid]
          else gids
      | _ => gids) []

/-- The id in the row of `name`, its third field. -/
def idOf (contents name : List Char) : Option ℕ :=
  if name.isEmpty then none
  else
    (lines contents).findSome? fun line =>
      match line.splitOn ':' with
      | first :: _password :: id :: _ =>
        if first ≠ name then none else parseUnsigned 32 (trim id)
      | _ => none

def groupGid (contents name : List Char) : Option ℕ := idOf contents name

/-! ## Records -/

/-- What a row of the passwd file says. -/
structure UserRecord where
  name : List Char
  uid : ℕ
  gid : ℕ
deriving DecidableEq, Repr

/-- What a row of the group file says. -/
structure GroupRecord where
  name : List Char
  gid : ℕ
  members : List (List Char)
deriving DecidableEq, Repr

/-- The record in a line, if there is one. -/
def passwdRecord (line : List Char) : Option UserRecord :=
  match line.splitOn ':' with
  | name :: _ :: uid :: gid :: _ => do
    let uid ← parseUnsigned 32 (trim uid)
    let gid ← parseUnsigned 32 (trim gid)
    some ⟨name, uid, gid⟩
  | _ => none

def groupRecord (line : List Char) : Option GroupRecord :=
  match line.splitOn ':' with
  | name :: _ :: gid :: rest =>
    (parseUnsigned 32 (trim gid)).map fun gid =>
      ⟨name, gid, ((rest.headD []).splitOn ',').map trim⟩
  | _ => none

def passwdRecords (contents : List Char) : List UserRecord :=
  (lines contents).filterMap passwdRecord

def groupRecords (contents : List Char) : List GroupRecord :=
  (lines contents).filterMap groupRecord

/-- A search in the lines is one in the records, if it comes to the same line by line. -/
theorem findSome?_eq_find? {α β γ : Type*} {record : α → Option β} {f : α → Option γ}
    {p : β → Bool} {g : β → γ}
    (h : ∀ a, f a = (record a).bind fun b => if p b then some (g b) else none) (l : List α) :
    l.findSome? f = ((l.filterMap record).find? p).map g := by
  induction l with
  | nil => rfl
  | cons a l ih =>
    rw [List.findSome?_cons, h, List.filterMap_cons]
    cases record a with
    | none => exact ih
    | some b =>
      rw [Option.bind_some, List.find?_cons]
      cases hp : p b with
      | true => rfl
      | false => exact ih

/-- A user is looked up in the first row with the name that makes a record. -/
theorem passwdIds_eq (contents : List Char) {name : List Char} (hne : name ≠ []) :
    passwdIds contents name = ((passwdRecords contents).find? (·.name = name)).map
      fun r => (r.uid, r.gid) := by
  unfold passwdIds passwdRecords
  rw [if_neg (by simpa using hne)]
  refine findSome?_eq_find? (fun line => ?_) _
  unfold passwdRecord
  split
  · next first _password uid gid rest _ =>
    cases parseUnsigned 32 (trim uid) <;> cases parseUnsigned 32 (trim gid) <;>
      by_cases hname : first = name <;> simp [hname]
  · rfl

/-- A group is looked up in the first row with the name that makes a record. -/
theorem idOf_eq (contents : List Char) {name : List Char} (hne : name ≠ []) :
    idOf contents name = ((groupRecords contents).find? (·.name = name)).map (·.gid) := by
  unfold idOf groupRecords
  rw [if_neg (by simpa using hne)]
  refine findSome?_eq_find? (fun line => ?_) _
  unfold groupRecord
  split
  · next first _password id rest _ =>
    cases parseUnsigned 32 (trim id) <;> by_cases hname : first = name <;> simp [hname]
  · rfl

/-- Whether a group lists a member. -/
def GroupRecord.Lists (r : GroupRecord) (name : List Char) : Prop := name ∈ r.members

instance (r : GroupRecord) (name : List Char) : Decidable (r.Lists name) :=
  inferInstanceAs (Decidable (name ∈ r.members))

/-- The gid of one more group, if it lists the user and is new. -/
def addGid (name : List Char) (gids : List ℕ) (r : GroupRecord) : List ℕ :=
  if r.Lists name ∧ r.gid ∉ gids then gids ++ [r.gid] else gids

theorem supplementaryGids_eq (contents : List Char) {name : List Char} (hne : name ≠ []) :
    supplementaryGids contents name = (groupRecords contents).foldl (addGid name) [] := by
  unfold supplementaryGids groupRecords
  rw [if_neg (by simpa using hne), List.foldl_filterMap]
  refine List.foldl_ext _ _ _ fun gids line _ => ?_
  unfold groupRecord
  split
  · next first _password gid rest _ =>
    cases parseUnsigned 32 (trim gid) with
    | none => rfl
    | some gid =>
      simp only [Option.map_some, addGid, GroupRecord.Lists, List.mem_map]
      congr 1
      simp
  · rfl

/-- The groups of a user are those that list it, each of them once. -/
theorem supplementaryGids_spec (contents : List Char) {name : List Char} (hne : name ≠ []) :
    (supplementaryGids contents name).Nodup ∧ ∀ gid, gid ∈ supplementaryGids contents name ↔
      ∃ r ∈ groupRecords contents, r.gid = gid ∧ r.Lists name := by
  rw [supplementaryGids_eq contents hne]
  refine Runs.foldl_induction (P := fun (done : List GroupRecord) (gids : List ℕ) =>
    gids.Nodup ∧ ∀ gid, gid ∈ gids ↔ ∃ r ∈ done, r.gid = gid ∧ r.Lists name) (by simp) fun done r rest gids _ hgids => ?_
  obtain ⟨hnodup, hmem⟩ := hgids
  unfold addGid
  split
  · next h =>
    obtain ⟨hlists, hnew⟩ := h
    refine ⟨hnodup.append (List.nodup_singleton _) (by simpa using hnew), fun gid => ?_⟩
    rw [List.mem_append, hmem, List.mem_singleton]
    constructor
    · rintro (⟨r', hr', hgid, hr'lists⟩ | rfl)
      · exact ⟨r', List.mem_append_left _ hr', hgid, hr'lists⟩
      · exact ⟨r, List.mem_append_right _ List.mem_cons_self, rfl, hlists⟩
    · rintro ⟨r', hr', hgid, hr'lists⟩
      rcases List.mem_append.mp hr' with hr' | hr'
      · exact .inl ⟨r', hr', hgid, hr'lists⟩
      · exact .inr (List.mem_singleton.mp hr' ▸ hgid.symm)
  · next h =>
    refine ⟨hnodup, fun gid => ?_⟩
    rw [hmem]
    constructor
    · rintro ⟨r', hr', hgid, hr'lists⟩
      exact ⟨r', List.mem_append_left _ hr', hgid, hr'lists⟩
    · rintro ⟨r', hr', hgid, hr'lists⟩
      rcases List.mem_append.mp hr' with hr' | hr'
      · exact ⟨r', hr', hgid, hr'lists⟩
      · -- the group is passed over because it is there already
        obtain rfl := List.mem_singleton.mp hr'
        exact (hmem gid).mp (by_contra fun hnew => h ⟨hr'lists, hgid ▸ hnew⟩)

/-! ## Writing -/

/-- A text of lines. -/
def textOf (ls : List (List Char)) : List Char := ls.flatMap fun l => l ++ ['\n']

/-- Lines without line ends are read back. -/
theorem lines_textOf {ls : List (List Char)} (h : ∀ l ∈ ls, '\n' ∉ l ∧ '\r' ∉ l) :
    lines (textOf ls) = ls := by
  induction ls with
  | nil => rfl
  | cons l ls ih =>
    obtain ⟨hfeed, hreturn⟩ := h l List.mem_cons_self
    have hlast : stripSuffix ['\r'] l = none := by
      cases hs : stripSuffix ['\r'] l with
      | none => rfl
      | some front =>
        rw [eq_append_of_stripSuffix hs] at hreturn
        simp at hreturn
    have hstrip : stripLineEnd (l ++ ['\n']) = l := by
      rw [stripLineEnd, stripSuffix_append]
      simp only [hlast, Option.getD_none]
    rw [textOf, List.flatMap_cons, ← textOf, lines,
      splitInclusive_append_of_ends (.inr (by simp)), splitInclusive_concat hfeed, List.map_append,
      ← lines, ih fun l hl => h l (List.mem_cons_of_mem _ hl), List.map_singleton, hstrip,
      List.singleton_append]

/-- A row of the passwd file. -/
structure PasswdRow where
  name : List Char
  password : List Char
  uid : ℕ
  gid : ℕ
  gecos : List Char
  home : List Char
  shell : List Char

/-- A row of the group file. -/
structure GroupRow where
  name : List Char
  password : List Char
  gid : ℕ
  members : List (List Char)

/-- A field of a row has no separator and no line end in it. -/
def IsField (field : List Char) : Prop := ':' ∉ field ∧ '\n' ∉ field ∧ '\r' ∉ field

/-- The name of a member has no separator and no blank in it. -/
def IsMember (member : List Char) : Prop :=
  ',' ∉ member ∧ ':' ∉ member ∧ ∀ c ∈ member, isWhitespace c = false

def PasswdRow.fields (r : PasswdRow) : List (List Char) :=
  [r.name, r.password, Nat.toDigits 10 r.uid, Nat.toDigits 10 r.gid, r.gecos, r.home, r.shell]

def PasswdRow.line (r : PasswdRow) : List Char := [':'].intercalate r.fields

def GroupRow.fields (r : GroupRow) : List (List Char) :=
  [r.name, r.password, Nat.toDigits 10 r.gid, [','].intercalate r.members]

def GroupRow.line (r : GroupRow) : List Char := [':'].intercalate r.fields

/-- A row that can be written. -/
structure PasswdRow.Valid (r : PasswdRow) : Prop where
  fields : ∀ field ∈ r.fields, IsField field
  uid : r.uid < 2 ^ 32
  gid : r.gid < 2 ^ 32

structure GroupRow.Valid (r : GroupRow) : Prop where
  fields : ∀ field ∈ r.fields, IsField field
  gid : r.gid < 2 ^ 32
  members : ∀ member ∈ r.members, IsMember member

def PasswdRow.record (r : PasswdRow) : UserRecord := ⟨r.name, r.uid, r.gid⟩

/-- A group without members is read as one with the empty name in it, which no lookup asks for. -/
def GroupRow.record (r : GroupRow) : GroupRecord :=
  ⟨r.name, r.gid, if r.members.isEmpty then [[]] else r.members⟩

theorem trim_toDigits (n : ℕ) : trim (Nat.toDigits 10 n) = Nat.toDigits 10 n := by
  refine trim_eq_self fun c hc => UnitName.isWhitespace_of_isUnitNameChar ?_
  have hdigit := Nat.isDigit_of_mem_toDigits (by decide) le_rfl hc
  simp [isUnitNameChar, Char.isAlphanum, hdigit]

theorem parse_toDigits {n : ℕ} (h : n < 2 ^ 32) :
    parseUnsigned 32 (trim (Nat.toDigits 10 n)) = some n := by
  rw [trim_toDigits, parseUnsigned_toDigits h]

/-- A row is cut into its fields again. -/
theorem splitOn_line {fields : List (List Char)} (h : ∀ field ∈ fields, IsField field)
    (hne : fields ≠ []) : ([':'].intercalate fields).splitOn ':' = fields :=
  List.splitOn_intercalate ':' (fun field hfield => (h field hfield).1) hne

theorem passwdRecord_line {r : PasswdRow} (h : r.Valid) : passwdRecord r.line = some r.record := by
  unfold passwdRecord PasswdRow.line
  rw [splitOn_line h.fields (by simp [PasswdRow.fields])]
  simp only [PasswdRow.fields, parse_toDigits h.uid, parse_toDigits h.gid]
  rfl

theorem groupRecord_line {r : GroupRow} (h : r.Valid) : groupRecord r.line = some r.record := by
  unfold groupRecord GroupRow.line
  rw [splitOn_line h.fields (by simp [GroupRow.fields])]
  simp only [GroupRow.fields, parse_toDigits h.gid, Option.map_some, List.headD_cons]
  congr 2
  by_cases hempty : r.members = []
  · rw [hempty]
    rfl
  · rw [List.splitOn_intercalate ',' (fun m hm => (h.members m hm).1) hempty, if_neg (by simpa)]
    refine (List.map_congr_left fun m hm => ?_).trans (List.map_id _)
    exact trim_eq_self (h.members m hm).2.2

theorem not_mem_intercalate {c sep : Char} (hne : c ≠ sep) : ∀ {fields : List (List Char)},
    (∀ field ∈ fields, c ∉ field) → c ∉ [sep].intercalate fields
  | [], _ => by simp
  | [field], h => by simpa using h field (by simp)
  | field :: next :: rest, h => by
    rw [List.intercalate_cons_cons]
    have hrest : c ∉ [sep].intercalate (next :: rest) :=
      not_mem_intercalate hne fun field hfield => h field (List.mem_cons_of_mem _ hfield)
    simp [h field List.mem_cons_self, hne, hrest]

/-- No line end comes into a row with its separators. -/
theorem not_mem_line {fields : List (List Char)} (h : ∀ field ∈ fields, IsField field) :
    '\n' ∉ [':'].intercalate fields ∧ '\r' ∉ [':'].intercalate fields :=
  ⟨not_mem_intercalate (by decide) fun field hfield => (h field hfield).2.1,
    not_mem_intercalate (by decide) fun field hfield => (h field hfield).2.2⟩

/-- A file is read back line by line. -/
theorem filterMap_lines {α β : Type*} {read : List Char → Option β} {line : α → List Char}
    {record : α → β} {rows : List α} (hread : ∀ r ∈ rows, read (line r) = some (record r))
    (hline : ∀ r ∈ rows, '\n' ∉ line r ∧ '\r' ∉ line r) :
    (lines (textOf (rows.map line))).filterMap read = rows.map record := by
  rw [lines_textOf, List.filterMap_map, ← List.filterMap_eq_map]
  · exact List.filterMap_congr hread
  · rintro l hl
    obtain ⟨r, hr, rfl⟩ := List.mem_map.mp hl
    exact hline r hr

theorem passwdRecords_text {rows : List PasswdRow} (h : ∀ r ∈ rows, r.Valid) :
    passwdRecords (textOf (rows.map PasswdRow.line)) = rows.map PasswdRow.record :=
  filterMap_lines (fun r hr => passwdRecord_line (h r hr)) fun r hr => not_mem_line (h r hr).fields

theorem groupRecords_text {rows : List GroupRow} (h : ∀ r ∈ rows, r.Valid) :
    groupRecords (textOf (rows.map GroupRow.line)) = rows.map GroupRow.record :=
  filterMap_lines (fun r hr => groupRecord_line (h r hr)) fun r hr => not_mem_line (h r hr).fields

theorem GroupRow.lists_record (r : GroupRow) {name : List Char} (hne : name ≠ []) :
    r.record.Lists name ↔ name ∈ r.members := by
  unfold GroupRecord.Lists GroupRow.record
  by_cases h : r.members = []
  · simp [h, hne]
  · simp [h]

/-- A database that is written row by row answers for its rows. -/
theorem lookups_text {users : List PasswdRow} {groups : List GroupRow} {name : List Char}
    (husers : ∀ r ∈ users, r.Valid) (hgroups : ∀ r ∈ groups, r.Valid) (hne : name ≠ []) :
    passwdIds (textOf (users.map PasswdRow.line)) name =
      (users.find? (·.name = name)).map (fun r => (r.uid, r.gid)) ∧
    groupGid (textOf (groups.map GroupRow.line)) name =
      (groups.find? (·.name = name)).map (·.gid) ∧
    ∀ gid, gid ∈ supplementaryGids (textOf (groups.map GroupRow.line)) name ↔
      ∃ r ∈ groups, r.gid = gid ∧ name ∈ r.members := by
  refine ⟨?_, ?_, fun gid => ?_⟩
  · rw [passwdIds_eq _ hne, passwdRecords_text husers, List.find?_map, Option.map_map]
    rfl
  · rw [groupGid, idOf_eq _ hne, groupRecords_text hgroups, List.find?_map, Option.map_map]
    rfl
  · rw [(supplementaryGids_spec _ hne).2, groupRecords_text hgroups]
    constructor
    · rintro ⟨_, hmem, hgid, hlists⟩
      obtain ⟨r, hr, rfl⟩ := List.mem_map.mp hmem
      exact ⟨r, hr, hgid, (r.lists_record hne).mp hlists⟩
    · rintro ⟨r, hr, hgid, hmember⟩
      exact ⟨r.record, List.mem_map_of_mem hr, hgid, (r.lists_record hne).mpr hmember⟩

/-- A passwd row of a user that has a group of its own and no password here. -/
def userRow (name : String) (id : ℕ) : PasswdRow where
  name := name.toList
  password := ['x']
  uid := id
  gid := id
  gecos := []
  home := "/srv".toList
  shell := "/bin/false".toList

def groupRow (name : String) (gid : ℕ) (members : List String) : GroupRow where
  name := name.toList
  password := ['x']
  gid := gid
  members := members.map String.toList

/-- The second row of the web server is never looked at. -/
def webUsers : List PasswdRow := [userRow "root" 0, userRow "www" 33, userRow "www" 99]

/-- Both rows of its group are, for their members. -/
def webGroups : List GroupRow :=
  [groupRow "wheel" 10 ["harry", "www"], groupRow "www" 33 [], groupRow "tty" 5 ["wwwrun"],
    groupRow "www" 98 ["root", "www"]]

theorem valid_webUsers : ∀ r ∈ webUsers, r.Valid := by
  have hfields : ∀ r ∈ webUsers, ∀ field ∈ r.fields, IsField field := by
    unfold IsField
    decide
  have hids : ∀ r ∈ webUsers, r.uid < 2 ^ 32 ∧ r.gid < 2 ^ 32 := by decide
  exact fun r hr => ⟨hfields r hr, (hids r hr).1, (hids r hr).2⟩

theorem valid_webGroups : ∀ r ∈ webGroups, r.Valid := by
  have hfields : ∀ r ∈ webGroups, ∀ field ∈ r.fields, IsField field := by
    unfold IsField
    decide
  have hgid : ∀ r ∈ webGroups, r.gid < 2 ^ 32 := by decide
  have hmembers : ∀ r ∈ webGroups, ∀ m ∈ r.members,
      ',' ∉ m ∧ ':' ∉ m ∧ m.all (fun c => !isWhitespace c) = true := by decide
  refine fun r hr => ⟨hfields r hr, hgid r hr, fun m hm => ?_⟩
  obtain ⟨hcomma, hcolon, hblank⟩ := hmembers r hr m hm
  exact ⟨hcomma, hcolon, fun c hc => by simpa using List.all_eq_true.mp hblank c hc⟩

/-- The first row of the name in either file, and the groups of all rows that list it. -/
theorem lookups_text_web :
    passwdIds (textOf (webUsers.map PasswdRow.line)) "www".toList = some (33, 33) ∧
    groupGid (textOf (webGroups.map GroupRow.line)) "www".toList = some 33 ∧
    ∀ gid, gid ∈ supplementaryGids (textOf (webGroups.map GroupRow.line)) "www".toList ↔
      gid = 10 ∨ gid = 98 := by
  obtain ⟨hids, hgid, hgroups⟩ :=
    @lookups_text webUsers webGroups "www".toList valid_webUsers valid_webGroups (by decide)
  have hlisted : (webGroups.filter fun r => "www".toList ∈ r.members).map (·.gid) = [10, 98] := by
    decide
  have hmem : ∀ gid, (∃ r ∈ webGroups, r.gid = gid ∧ "www".toList ∈ r.members) ↔
      gid ∈ (webGroups.filter fun r => "www".toList ∈ r.members).map (·.gid) := fun gid => by
    simp only [List.mem_map, List.mem_filter, decide_eq_true_eq]
    exact exists_congr fun r => ⟨fun h => ⟨⟨h.1, h.2.2⟩, h.2.1⟩, fun h => ⟨h.1.1, h.2, h.1.2⟩⟩
  refine ⟨hids.trans (by decide), hgid.trans (by decide), fun gid => ?_⟩
  rw [hgroups, hmem, hlisted, List.mem_pair]

end Rinit
