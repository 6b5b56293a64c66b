import Rinit.LogFile
import Rinit.Lossy
import Rinit.Name

/-!
# Reading the log file back

`rctl log --file` reads the files that a `LogFile` left, the oldest first, line by line, and
prints the lines of one unit or of all (`writeLog`). A file of text is read as the lines of the
text (`readLines_utf8Bytes`), so what is printed depends on where the files cut the records.

A record that meets a full file or fits behind what was written stays in one file
(`LogFile.Takes`). In a run of such records every file holds whole records, behind the marker at
most (`Holds`), and `writeLog_of_holds` reads them back : a suffix of what was appended, and of
one unit the records of that suffix. `reads_back` : so the log is read back in every run in which
no record is divided (`ReadsBack`). `not_readsBack_divided` : a record that is divided by a
rotation is lost to the filter.
-/

namespace Rinit

open Codec Rotation

/-- The most rotated files that are kept. -/
def maxLogKeep : ℕ := 64

/-! ## The reader -/

/-- What is asked of the log file at `path`. -/
structure FileLog where
  path : String
  /-- Restrict the output to one unit. -/
  unit : Option UnitName
  /-- The newest lines only. Zero means everything. -/
  tail : ℕ

inductive FileLogError where
  /-- A line is not UTF-8. -/
  | invalidData
  | notFound (message : String)
deriving DecidableEq

/-- The files in the order they are read : the oldest first. -/
def logPaths : List ℕ := (List.range (maxLogKeep + 1)).reverse

/-- The bytes up to each line feed, and those behind the last. -/
def readLines : Bytes → List Bytes
  | [] => []
  | b :: bytes =>
    if b = 0x0A then [b] :: readLines bytes else joinFirst [b] (readLines bytes)

/-- A line without its line ending. -/
def lineContent (line : List Char) : List Char :=
  let content := (stripSuffix ['\n'] line).getD line
  (stripSuffix ['\r'] content).getD content

/-- Whether a line is printed. -/
def FileLog.selects (log : FileLog) (line : List Char) : Bool :=
  log.unit.all fun unit => (unit.canonical.toList ++ [':', ' ']).isPrefixOf (lineContent line)

/-- Whether a file was found, the lines that wait for the end, and what is printed. -/
structure Reading where
  found : Bool
  selected : List (List Char)
  out : Bytes

namespace FileLog

/-- What is read, or what was printed before an error. -/
abbrev Result := Except (Bytes × FileLogError)

def readLine (log : FileLog) (r : Reading) (line : Bytes) : Result Reading :=
  match fromUtf8 line with
  | none => .error (r.out, .invalidData)
  | some text =>
    if log.selects text then
      if log.tail = 0 then .ok { r with out := r.out ++ line }
      else
        let queue := r.selected ++ [text]
        .ok { r with selected := if log.tail < queue.length then queue.tail else queue }
    else .ok r

/-- A file that is not there is skipped. -/
def readFile (log : FileLog) (d : Disk) (r : Reading) (i : ℕ) : Result Reading :=
  match d i with
  | none => .ok r
  | some bytes => (readLines bytes).foldlM log.readLine { r with found := true }

/-- Write the selected lines. -/
def writeLog (log : FileLog) (d : Disk) : Result Bytes :=
  (logPaths.foldlM (log.readFile d) ⟨false, [], []⟩).bind fun r =>
    if r.found then .ok (r.out ++ r.selected.flatMap utf8Bytes)
    else .error (r.out, .notFound ("cannot read " ++ log.path ++ ": no such file"))

end FileLog

/-! ## Files of text -/

/-- Only a line feed has the byte of one. -/
theorem newline_mem_utf8EncodeChar {c : Char} (h : 0x0A ∈ String.utf8EncodeChar c) : c = '\n' := by
  obtain ⟨b, bs, hc, hnext⟩ := nextChar_utf8EncodeChar c []
  obtain ⟨b', bs', hc', -, hbs⟩ := utf8EncodeChar_eq_cons c
  obtain ⟨rfl, rfl⟩ : b = b' ∧ bs = bs' := List.cons.inj (hc.symm.trans hc')
  rw [hc] at h
  rcases List.mem_cons.mp h with rfl | h
  · exact congrArg Prod.fst hnext.symm
  · exact absurd (hbs _ h) (by decide)

theorem readLines_append {a : Bytes} (hne : a ≠ []) (h : 0x0A ∉ a) (bytes : Bytes) :
    readLines (a ++ bytes) = joinFirst a (readLines bytes) := by
  induction a with
  | nil => exact absurd rfl hne
  | cons b a ih =>
    obtain ⟨hb, ha⟩ : b ≠ 0x0A ∧ 0x0A ∉ a := by simpa [eq_comm] using h
    rw [List.cons_append, readLines, if_neg hb]
    by_cases hnil : a = []
    · rw [hnil, List.nil_append]
    · rw [ih hnil ha]
      cases readLines bytes <;> rfl

/-- The lines of a file of text are the lines of the text. -/
theorem readLines_utf8Bytes (text : List Char) :
    readLines (utf8Bytes text) = (splitInclusive text).map utf8Bytes := by
  induction text with
  | nil => rfl
  | cons c text ih =>
    rw [utf8Bytes, List.flatMap_cons, ← utf8Bytes, splitInclusive]
    by_cases hc : c = '\n'
    · subst hc
      exact congrArg (_ :: ·) ih
    · obtain ⟨b, bs, hcons, -⟩ := utf8EncodeChar_eq_cons c
      have hne : String.utf8EncodeChar c ≠ [] := hcons ▸ List.cons_ne_nil b bs
      rw [readLines_append hne fun h => hc (newline_mem_utf8EncodeChar h), ih, if_neg hc]
      cases splitInclusive text <;> simp [joinFirst, utf8Bytes]

namespace FileLog

variable {log : FileLog} {d : Disk}

/-- Lines of text are printed if they are selected. -/
theorem foldlM_readLine (htail : log.tail = 0) (lines : List (List Char)) (r : Reading) :
    (lines.map utf8Bytes).foldlM log.readLine r =
      .ok { r with out := r.out ++ utf8Bytes (lines.filter log.selects).flatten } := by
  induction lines generalizing r with
  | nil => simp [utf8Bytes, pure, Except.pure]
  | cons line lines ih =>
    have hline : log.readLine r (utf8Bytes line) =
        .ok { r with out := r.out ++ if log.selects line then utf8Bytes line else [] } := by
      rw [readLine, fromUtf8_utf8Bytes]
      by_cases hselects : log.selects line
      · simp [hselects, htail]
      · simp [hselects]
    rw [List.map_cons, List.foldlM_cons, hline]
    refine (ih _).trans ?_
    by_cases hselects : log.selects line
    · simp [hselects, utf8Bytes_append]
    · simp [hselects]

/-- A file of text. -/
theorem readFile_eq (htail : log.tail = 0) {i : ℕ} {text : List Char}
    (htext : contents d i = utf8Bytes text) (r : Reading) :
    log.readFile d r i = .ok ⟨r.found || (d i).isSome, r.selected,
      r.out ++ utf8Bytes ((splitInclusive text).filter log.selects).flatten⟩ := by
  rw [readFile]
  rw [contents] at htext
  cases hd : d i with
  | none =>
    obtain rfl : text = [] := by
      have hnil := congrArg fromUtf8 htext
      rw [hd, fromUtf8_utf8Bytes] at hnil
      exact (Option.some.inj hnil).symm
    simp [splitInclusive, utf8Bytes]
  | some bytes =>
    rw [hd, Option.getD_some] at htext
    dsimp only
    rw [htext, readLines_utf8Bytes]
    refine (foldlM_readLine htail _ _).trans ?_
    simp

/-- Files of text. -/
theorem foldlM_readFile (htail : log.tail = 0) {texts : ℕ → List Char}
    (htexts : ∀ i, contents d i = utf8Bytes (texts i)) (files : List ℕ) (r : Reading) :
    files.foldlM (log.readFile d) r =
      .ok ⟨r.found || files.any fun i => (d i).isSome, r.selected,
        r.out ++ utf8Bytes
          ((files.flatMap fun i => splitInclusive (texts i)).filter log.selects).flatten⟩ := by
  induction files generalizing r with
  | nil => simp [utf8Bytes, pure, Except.pure]
  | cons i files ih =>
    rw [List.foldlM_cons, readFile_eq htail (htexts i)]
    refine (ih _).trans ?_
    simp [Bool.or_assoc, utf8Bytes_append]

/-- What is printed of files of text : their lines that are selected. -/
theorem writeLog_eq (htail : log.tail = 0) {texts : ℕ → List Char}
    (htexts : ∀ i, contents d i = utf8Bytes (texts i)) (hzero : (d 0).isSome) :
    log.writeLog d = .ok (utf8Bytes
      ((logPaths.flatMap fun i => splitInclusive (texts i)).filter log.selects).flatten) := by
  have hfound : logPaths.any (fun i => (d i).isSome) = true :=
    List.any_eq_true.mpr ⟨0, by decide, hzero⟩
  rw [writeLog, foldlM_readFile htail htexts, hfound]
  simp [Except.bind]

end FileLog

/-! ## Records -/

/-- One record : a line of a unit. -/
structure LogRecord where
  unit : UnitName
  message : List Char
  newline : '\n' ∉ message

namespace LogRecord

def line (r : LogRecord) : List Char := r.unit.canonical.toList ++ ':' :: ' ' :: r.message

def text (r : LogRecord) : List Char := r.line ++ ['\n']

def bytes (r : LogRecord) : Bytes := utf8Bytes r.text

theorem bytes_ne_nil (r : LogRecord) : r.bytes ≠ [] := fun h => by
  have htext := fromUtf8_utf8Bytes r.text
  rw [show utf8Bytes r.text = [] from h] at htext
  exact absurd (Option.some.inj htext).symm (List.append_ne_nil_of_right_ne_nil _ (by simp))

end LogRecord

/-- The text of records, one behind the other. -/
def recordsText (records : List LogRecord) : List Char := records.flatMap LogRecord.text

/-! ## Which lines are selected -/

/-- A carriage return at the end is no matter to what a line starts with. -/
theorem isPrefixOf_lineContent {start : List Char} (hend : start.getLast? ≠ some '\r')
    (line : List Char) :
    start.isPrefixOf (lineContent (line ++ ['\n'])) = start.isPrefixOf line := by
  rw [lineContent, stripSuffix_append]
  dsimp only [Option.getD_some]
  cases hstem : stripSuffix ['\r'] line with
  | none => rfl
  | some stem =>
    obtain rfl := eq_append_of_stripSuffix hstem
    rw [Option.getD_some, Bool.eq_iff_iff, List.isPrefixOf_iff_prefix, List.isPrefixOf_iff_prefix,
      List.prefix_concat_iff]
    refine ⟨.inr, fun h => h.resolve_left ?_⟩
    rintro rfl
    exact hend (List.getLast?_concat ..)

theorem space_not_mem_canonical (u : UnitName) : ' ' ∉ u.canonical.toList := fun h =>
  absurd (u.isUnitNameChar_canonical.2 ' ' h) (by decide)

theorem newline_not_mem_canonical (u : UnitName) : '\n' ∉ u.canonical.toList := fun h =>
  absurd (u.isUnitNameChar_canonical.2 '\n' h) (by decide)

/-- The name in front of a line is read up to its blank. -/
theorem canonical_prefix_iff (u : UnitName) {name : List Char} (hname : ' ' ∉ name)
    (rest : List Char) : u.canonical.toList ++ [':', ' '] <+: name ++ ' ' :: rest ↔
      u.canonical.toList ++ [':'] = name := by
  have hblank : ' ' ∉ u.canonical.toList ++ [':'] := by
    rw [List.mem_append, not_or]
    exact ⟨space_not_mem_canonical u, by decide⟩
  constructor
  · rintro ⟨w, hw⟩
    have hsplit : splitOnce ' ' ((u.canonical.toList ++ [':']) ++ ' ' :: w) =
        some (name, rest) := by
      rw [← splitOnce_append hname rest, ← hw]
      simp
    rw [splitOnce_append hblank] at hsplit
    exact (Prod.mk.inj (Option.some.inj hsplit)).1
  · rintro rfl
    exact ⟨rest, by simp⟩

namespace FileLog

variable {path : String} {tail : ℕ}

theorem selects_none (line : List Char) : (⟨path, none, tail⟩ : FileLog).selects line = true := rfl

/-- Whether a line of a name and a blank is selected. -/
theorem selects_some (u : UnitName) {name : List Char} (hname : ' ' ∉ name) (rest : List Char) :
    (⟨path, some u, tail⟩ : FileLog).selects (name ++ ' ' :: rest ++ ['\n']) = true ↔
      u.canonical.toList ++ [':'] = name := by
  rw [selects, Option.all_some, isPrefixOf_lineContent (by simp), List.isPrefixOf_iff_prefix,
    canonical_prefix_iff u hname]

/-- A record is selected by its unit. -/
theorem selects_text (u : UnitName) (r : LogRecord) :
    (⟨path, some u, tail⟩ : FileLog).selects r.text = decide (r.unit = u) := by
  have hname : ' ' ∉ r.unit.canonical.toList ++ [':'] := by
    rw [List.mem_append, not_or]
    exact ⟨space_not_mem_canonical r.unit, by decide⟩
  have htext : r.text = (r.unit.canonical.toList ++ [':']) ++ ' ' :: r.message ++ ['\n'] := by
    simp [LogRecord.text, LogRecord.line]
  rw [Bool.eq_iff_iff, htext, selects_some u hname, decide_eq_true_iff, List.append_left_inj,
    String.toList_inj, UnitName.canonical_injective.eq_iff, eq_comm]

/-- The marker is of no unit. -/
theorem selects_truncateMarker (u : UnitName) :
    (⟨path, some u, tail⟩ : FileLog).selects truncateMarker.toList = false := by
  rw [← Bool.not_eq_true]
  have hmarker : truncateMarker.toList = "log".toList ++
      ' ' :: "truncated: the previous contents were dropped".toList ++ ['\n'] := by decide
  rw [hmarker, selects_some u (by decide)]
  intro h
  exact absurd (congrArg List.getLast? h) (by simp)

end FileLog

/-! ## Records in files -/

theorem newline_not_mem_recordLine (r : LogRecord) : '\n' ∉ r.line := by
  simp [LogRecord.line, newline_not_mem_canonical, r.newline]

theorem splitInclusive_recordsText (records : List LogRecord) :
    splitInclusive (recordsText records) = records.map LogRecord.text := by
  induction records with
  | nil => rfl
  | cons r records ih =>
    have hcons : recordsText (r :: records) = r.line ++ '\n' :: recordsText records := by
      simp [recordsText, LogRecord.text]
    rw [hcons, splitInclusive_append, splitInclusive_concat (newline_not_mem_recordLine r), ih]
    rfl

theorem splitInclusive_truncateMarker (s : List Char) :
    splitInclusive (truncateMarker.toList ++ s) =
      truncateMarker.toList :: splitInclusive s := by
  have hmarker : truncateMarker.toList =
      "log truncated: the previous contents were dropped".toList ++ ['\n'] := by decide
  rw [hmarker, List.append_assoc]
  refine (splitInclusive_append _ s).trans ?_
  rw [splitInclusive_concat (by decide)]
  rfl

/-- Files `k`, ..., `1`, `0`, one behind the other. -/
def held {α : Type*} (files : ℕ → List α) : ℕ → List α
  | 0 => files 0
  | k + 1 => files (k + 1) ++ held files k

section Held

variable {α : Type*} {files files' : ℕ → List α} {k : ℕ}

theorem flatMap_range_reverse (files : ℕ → List α) (k : ℕ) :
    (List.range (k + 1)).reverse.flatMap files = held files k := by
  induction k with
  | zero => simp [held]
  | succ k ih => rw [List.range_succ, List.reverse_append, List.reverse_singleton,
      List.singleton_append, List.flatMap_cons, ih, held]

theorem held_of_le {n : ℕ} (hk : k ≤ n) (hfree : ∀ i, k < i → files i = []) :
    held files n = held files k := by
  induction n, hk using Nat.le_induction with
  | base => rfl
  | succ n hn ih => rw [held, hfree (n + 1) (Nat.lt_succ_of_le hn), List.nil_append, ih]

/-- Every file below number `keep` moves up. -/
def movedUp (keep : ℕ) (files : ℕ → List α) : ℕ → List α
  | 0 => []
  | i + 1 => if i < keep then files i else []

/-- Adding to file `0`. -/
theorem held_push {new : List α} (hzero : files' 0 = files 0 ++ new)
    (hrest : ∀ i, files' (i + 1) = files (i + 1)) : held files' k = held files k ++ new := by
  induction k with
  | zero => exact hzero
  | succ k ih => rw [held, held, hrest, ih, List.append_assoc]

theorem held_movedUp {n : ℕ} (hk : k < n) : held (movedUp n files) (k + 1) = held files k := by
  induction k with
  | zero => rw [held, held, held, movedUp, movedUp, if_pos hk, List.append_nil]
  | succ k ih => rw [held, ih (Nat.lt_of_succ_lt hk), movedUp, if_pos hk, held]

end Held

/-! ## Whole records -/

namespace LogFile

variable {bits fuel : ℕ} {f g : LogFile} {d : Disk} {rest : Bytes} {ops : List FileOp}

/-- With number `n + 1` free, every file up to `n` but file `0` moves up. -/
theorem runOps_shiftFiles {n : ℕ} (hfree : d (n + 1) = none) :
    runOps d (shiftFiles n) 0 = d 0 ∧
      (∀ i, 1 ≤ i → i ≤ n → runOps d (shiftFiles n) (i + 1) = d i) ∧
      ∀ i, n + 1 < i → runOps d (shiftFiles n) i = d i := by
  induction n generalizing d with
  | zero => exact ⟨rfl, fun i hi hn => absurd hi (by omega), fun _ _ => rfl⟩
  | succ n ih =>
    have hrename := apply_rename_of_free hfree (n + 1)
    obtain ⟨hzero, hmoved, habove⟩ := ih (apply_rename_self d (n + 1))
    rw [hrename] at hzero hmoved habove
    have hrun : runOps d (shiftFiles (n + 1)) = runOps (Function.update (Function.update d (n + 2)
        (d (n + 1))) (n + 1) none) (shiftFiles n) := by
      rw [← hrename]
      rfl
    rw [hrun]
    refine ⟨?_, fun i hi hn => ?_, fun i hi => ?_⟩
    · rw [hzero, Function.update_of_ne (by omega), Function.update_of_ne (by omega)]
    · rcases Nat.lt_or_eq_of_le hn with hlt | rfl
      · rw [hmoved i hi (Nat.le_of_lt_succ hlt), Function.update_of_ne (by omega),
          Function.update_of_ne (by omega)]
      · rw [habove (n + 1 + 1) (by omega), Function.update_of_ne (by omega), Function.update_self]
    · rw [habove i (by omega), Function.update_of_ne (by omega), Function.update_of_ne (by omega)]

/-- What a rotation makes of the files : all but the oldest move up, and file `0` is empty. -/
theorem contents_rotate (hkeep : f.keep ≠ 0) (d : Disk) (needed : ℕ) :
    contents (runOps d (f.rotate needed).2) 0 = [] ∧
      (∀ i < f.keep, contents (runOps d (f.rotate needed).2) (i + 1) = contents d i) ∧
      ∀ i, f.keep < i → contents (runOps d (f.rotate needed).2) i = contents d i := by
  obtain ⟨n, hn⟩ := Nat.exists_eq_succ_of_ne_zero hkeep
  set d₁ := FileOp.apply d (.remove f.keep) with hd₁
  have hremoved : ∀ i, i ≠ f.keep → d₁ i = d i := fun i hi => Function.update_of_ne hi _ _
  have hfree : d₁ (n + 1) = none := by
    rw [hd₁, hn]
    exact apply_remove_self d (n + 1)
  obtain ⟨hlow, hmoved, habove⟩ := runOps_shiftFiles hfree
  have hone : runOps d₁ (shiftFiles n) 1 = none :=
    (safeRun_shiftFiles (Nat.lt_succ_self n) hfree).2
  have hrun : runOps d (f.rotate needed).2 = FileOp.apply (Function.update (Function.update
      (runOps d₁ (shiftFiles n)) 1 (runOps d₁ (shiftFiles n) 0)) 0 none) .create := by
    rw [← apply_rename_of_free hone, rotate_snd hn]
    exact runOps_append d₁ (shiftFiles n) _
  have hother : ∀ i, i ≠ 0 → i ≠ 1 →
      runOps d (f.rotate needed).2 i = runOps d₁ (shiftFiles n) i := fun i h₀ h₁ => by
    rw [hrun, FileOp.apply, Function.update_of_ne h₀, Function.update_of_ne h₀,
      Function.update_of_ne h₁]
  refine ⟨?_, fun i hi => ?_, fun i hi => ?_⟩
  · rw [contents, (rotate_keep hkeep d).2]
    rfl
  · rw [contents, contents]
    cases i with
    | zero =>
      rw [hrun, FileOp.apply, Function.update_of_ne (by omega), Function.update_of_ne (by omega),
        Function.update_self, hlow, hremoved 0 (Ne.symm hkeep)]
    | succ i =>
      rw [hother _ (by omega) (by omega), hmoved (i + 1) (by omega) (by omega),
        hremoved _ (by omega)]
  · rw [contents, contents, hother i (by omega) (by omega), habove i (by omega),
      hremoved i (by omega)]

/-- A record of `n` bytes is not divided : the file is full, or the record fits behind what was
written, and it does not meet a room that is cut to zero. -/
def Takes (bits : ℕ) (f : LogFile) (n : ℕ) : Prop :=
  (f.maxBytes ≤ f.written ∨ f.written + n ≤ f.maxBytes) ∧ f.Flows bits n

theorem le_room_of_clear {maxBytes written n : ℕ} (h : Clear bits maxBytes written n)
    (hn : n ≤ maxBytes - written) : n ≤ (maxBytes - written) % 2 ^ bits := by
  rcases h with h | h
  · rwa [Nat.mod_eq_of_lt h]
  · exact h

/-- The next chunk is all of the record. -/
theorem Takes.take_eq {n : ℕ} (h : f.Takes bits n) (hpos : 0 < n) (hlen : n ≤ f.maxBytes) :
    f.take bits n = n := by
  refine Nat.min_eq_right ?_
  obtain ⟨hfits, hclear, hfresh⟩ := h
  by_cases hfull : f.maxBytes ≤ f.written
  · have hroom : (f.makeRoom n).1 = { f with written := f.freshLength n } := by
      rw [makeRoom, if_pos hfull, rotate_fst]
    rw [Nat.sub_eq_zero_of_le hfull, Nat.sub_zero] at hfresh
    rw [hroom]
    refine le_room_of_clear (hfresh hpos) (show n ≤ f.maxBytes - f.freshLength n from ?_)
    rcases freshLength_eq_or f n with h | h <;> omega
  · rw [makeRoom_of_lt (Nat.not_le.mp hfull)]
    exact le_room_of_clear hclear (show n ≤ f.maxBytes - f.written by omega)

/-- Then the record is written at once. -/
theorem Takes.appendRecord_eq (h : f.Takes bits rest.length) (hrest : rest ≠ [])
    (hlen : rest.length ≤ f.maxBytes) (happend : f.appendRecord bits fuel rest = some (g, ops, [])) :
    g = { (f.makeRoom rest.length).1 with
        written := (f.makeRoom rest.length).1.written + rest.length } ∧
      ops = (f.makeRoom rest.length).2 ++ [.write rest] := by
  have hpos := List.length_pos_of_ne_nil hrest
  cases fuel with
  | zero => exact absurd (congrArg (fun r => r.2.2) (Option.some.inj happend)) hrest
  | succ fuel =>
    have hnil : ∀ k : LogFile, k.appendRecord bits fuel [] = some (k, [], []) := fun k => by
      cases fuel <;> rfl
    rw [appendRecord_succ (Nat.lt_of_lt_of_le hpos hlen) hrest, afterChunk, h.take_eq hpos hlen,
      List.drop_length, List.take_length, hnil] at happend
    obtain ⟨hg, hops⟩ := Prod.mk.inj (Option.some.inj happend)
    exact ⟨hg.symm, (congrArg Prod.fst hops).symm⟩

/-- Every file holds whole records, file `0` behind the marker if it was emptied. -/
structure Holds (f : LogFile) (d : Disk) (marker : List Char) (files : ℕ → List LogRecord) :
    Prop where
  names : f.Names d
  marker_eq : marker = [] ∨ f.keep = 0 ∧ marker = truncateMarker.toList
  zero : contents d 0 = utf8Bytes (marker ++ recordsText (files 0))
  rotated : ∀ i, contents d (i + 1) = utf8Bytes (recordsText (files (i + 1)))
  free : ∀ i, f.keep < i → files i = []

section Holds

variable {marker : List Char} {files : ℕ → List LogRecord}

theorem Holds.isSome (h : f.Holds d marker files) : (d 0).isSome := by
  obtain ⟨bytes, hd, -⟩ := h.names
  rw [hd]
  rfl

theorem Holds.truncate (h : f.Holds d marker files) (hkeep : f.keep = 0) (needed : ℕ) :
    ∃ marker', (f.rotate needed).1.Holds (runOps d (f.rotate needed).2) marker' fun _ => [] := by
  have hnames := names_rotate f needed d
  have hrest : ∀ i, contents d (i + 1) = [] := fun i => by
    rw [h.rotated, h.free (i + 1) (hkeep ▸ Nat.succ_pos i)]
    rfl
  unfold rotate LogFile.truncate at hnames ⊢
  rw [if_pos hkeep] at hnames ⊢
  split at hnames
  case isTrue hfits =>
    rw [if_pos hfits]
    refine ⟨truncateMarker.toList, hnames, .inr ⟨hkeep, rfl⟩, ?_, fun i => ?_, fun _ _ => rfl⟩
    · change contents (FileOp.apply (FileOp.apply d .clear) (.write truncateMarkerBytes)) 0 = _
      rw [contents, apply_write_zero, contents, apply_clear_zero, recordsText, List.flatMap_nil,
        List.append_nil]
      rfl
    · change contents (FileOp.apply (FileOp.apply d .clear) (.write truncateMarkerBytes)) _ = _
      rw [contents, apply_write_succ, apply_clear_succ]
      exact hrest i
  case isFalse hfits =>
    rw [if_neg hfits]
    refine ⟨[], hnames, .inl rfl, ?_, fun i => ?_, fun _ _ => rfl⟩
    · change contents (FileOp.apply d .clear) 0 = _
      rw [contents, apply_clear_zero]
      rfl
    · change contents (FileOp.apply d .clear) _ = _
      rw [contents, apply_clear_succ]
      exact hrest i

theorem Holds.rotate (h : f.Holds d marker files) (hkeep : f.keep ≠ 0) (needed : ℕ) :
    ∃ files', (f.rotate needed).1.Holds (runOps d (f.rotate needed).2) [] files' ∧
      held files' f.keep <:+ held files f.keep := by
  obtain ⟨hzero, hmoved, habove⟩ := contents_rotate hkeep d needed
  obtain ⟨n, hn⟩ := Nat.exists_eq_add_one_of_ne_zero hkeep
  obtain rfl : marker = [] := h.marker_eq.resolve_right fun hm => hkeep hm.1
  have hcontents : ∀ i, contents d i = utf8Bytes (recordsText (files i)) := fun i => by
    cases i with
    | zero => exact h.zero
    | succ i => exact h.rotated i
  have hshift : ∀ i < f.keep, movedUp f.keep files (i + 1) = files i := fun i hi => if_pos hi
  refine ⟨movedUp f.keep files, ⟨names_rotate f needed d, .inl rfl, hzero, fun i => ?_, fun i hi => ?_⟩, ?_⟩
  · by_cases hi : i < f.keep
    · rw [hmoved i hi, hcontents, hshift i hi]
    · have hfree : files (i + 1) = [] := h.free (i + 1) (by omega)
      rw [habove (i + 1) (by omega), hcontents, hfree]
      exact congrArg (fun l => utf8Bytes (recordsText l)) (if_neg hi).symm
  · rw [rotate_fst] at hi
    cases i with
    | zero => rfl
    | succ i => exact if_neg fun hlt => absurd (show f.keep < i + 1 from hi) (by omega)
  · rw [hn, held_movedUp (Nat.lt_succ_self n), held]
    exact List.suffix_append _ _

/-- Making room keeps whole records, the newest of those that were there. -/
theorem Holds.makeRoom (h : f.Holds d marker files) (needed : ℕ) : ∃ marker' files',
    (f.makeRoom needed).1.Holds (runOps d (f.makeRoom needed).2) marker' files' ∧
      held files' f.keep <:+ held files f.keep := by
  unfold LogFile.makeRoom
  split
  case isFalse => exact ⟨marker, files, h, List.suffix_rfl⟩
  by_cases hkeep : f.keep = 0
  · obtain ⟨marker', hholds⟩ := h.truncate hkeep needed
    refine ⟨marker', _, hholds, ?_⟩
    rw [hkeep]
    exact List.nil_suffix
  · obtain ⟨files', hholds, hsuffix⟩ := h.rotate hkeep needed
    exact ⟨[], files', hholds, hsuffix⟩

theorem Holds.write (h : f.Holds d marker files) (r : LogRecord) :
    ({ f with written := f.written + r.bytes.length } : LogFile).Holds
      (FileOp.apply d (.write r.bytes)) marker (Function.update files 0 (files 0 ++ [r])) where
  names := h.names.write r.bytes
  marker_eq := h.marker_eq
  zero := by
    have htext : recordsText (files 0 ++ [r]) = recordsText (files 0) ++ r.text := by
      simp [recordsText]
    rw [contents, apply_write_zero, Option.getD_some, h.zero, Function.update_self, htext,
      ← List.append_assoc, utf8Bytes_append (marker ++ _)]
    rfl
  rotated i := by
    rw [Function.update_of_ne (Nat.succ_ne_zero i), ← h.rotated i, contents, apply_write_succ,
      contents]
  free i hi := by
    rw [Function.update_of_ne (Nat.ne_of_gt (Nat.zero_lt_of_lt hi)), h.free i hi]

/-- A record that is not divided is a whole record in the files. -/
theorem Holds.appendRecord (h : f.Holds d marker files) {r : LogRecord}
    (hlen : r.bytes.length ≤ f.maxBytes) (htakes : f.Takes bits r.bytes.length)
    (happend : f.appendRecord bits fuel r.bytes = some (g, ops, [])) :
    g.keep = f.keep ∧ ∃ marker' files', g.Holds (runOps d ops) marker' files' ∧
      held files' f.keep <:+ held files f.keep ++ [r] := by
  obtain ⟨rfl, rfl⟩ := htakes.appendRecord_eq r.bytes_ne_nil hlen happend
  obtain ⟨marker', files', hholds, hsuffix⟩ := h.makeRoom r.bytes.length
  have hpos := List.length_pos_of_ne_nil r.bytes_ne_nil
  have hkeep := (makeRoom_spec (Nat.lt_of_lt_of_le hpos hlen) hpos r.bytes).1.keep_eq
  refine ⟨hkeep, marker', Function.update files' 0 (files' 0 ++ [r]), ?_, ?_⟩
  · rw [runOps_append]
    exact hholds.write r
  · have hpush : held (Function.update files' 0 (files' 0 ++ [r])) f.keep =
        held files' f.keep ++ [r] :=
      held_push (Function.update_self ..) fun i => Function.update_of_ne (Nat.succ_ne_zero i) _ _
    rw [hpush]
    exact (List.suffix_append_inj_of_length_eq rfl).mpr ⟨hsuffix, rfl⟩

/-- And so is every record of a run in which none is divided. -/
theorem Holds.appendRecords (h : f.Holds d marker files) {records : List LogRecord}
    (hmax : 0 < f.maxBytes) (hlen : ∀ r ∈ records, r.bytes.length ≤ f.maxBytes)
    (htakes : f.RecordsMeet (Takes bits) bits (records.map LogRecord.bytes))
    (happend : f.appendRecords bits fuel (records.map LogRecord.bytes) = some (g, ops, [])) :
    g.keep = f.keep ∧ ∃ marker' files', g.Holds (runOps d ops) marker' files' ∧
      held files' f.keep <:+ held files f.keep ++ records := by
  induction records generalizing f d marker files ops with
  | nil =>
    obtain ⟨rfl, rfl⟩ : f = g ∧ [] = ops := by simpa [LogFile.appendRecords] using happend
    exact ⟨rfl, marker, files, h, List.append_nil _ ▸ List.suffix_rfl⟩
  | cons r records ih =>
    rw [List.map_cons] at happend htakes
    obtain ⟨k, ops₁, ops₂, hrecord, hrest, rfl⟩ := appendRecords_cons_iff.mp happend
    obtain ⟨hfirst, hlater⟩ := (recordsMeet_cons hmax).mp htakes
    obtain ⟨hr, hrecords⟩ := List.forall_mem_cons.mp hlen
    have hbound := appendRecord_maxBytes hmax hrecord
    obtain ⟨hkeep, marker₁, files₁, hholds, hsuffix⟩ := h.appendRecord hr hfirst hrecord
    obtain ⟨hkeep', marker', files', hholds', hsuffix'⟩ := ih hholds (hbound ▸ hmax)
      (hbound ▸ hrecords) (hlater _ _ _ hrecord) hrest
    rw [hkeep] at hkeep' hsuffix'
    refine ⟨hkeep', marker', files', runOps_append d ops₁ ops₂ ▸ hholds', hsuffix'.trans ?_⟩
    rw [List.append_cons]
    exact (List.suffix_append_inj_of_length_eq rfl).mpr ⟨hsuffix, rfl⟩

/-! ## Reading them back -/

theorem held_map {α β : Type*} (g : α → β) (files : ℕ → List α) (k : ℕ) :
    held (fun i => (files i).map g) k = (held files k).map g := by
  induction k with
  | zero => rfl
  | succ k ih => rw [held, ih, held, List.map_append]

/-- The text of each file : file `0` may start with a marker. -/
def fileText (marker : List Char) (files : ℕ → List LogRecord) : ℕ → List Char
  | 0 => marker ++ recordsText (files 0)
  | i + 1 => recordsText (files (i + 1))

/-- The lines of the files : the marker at most, and the records. -/
theorem Holds.exists_lines (h : f.Holds d marker files) (hkeep : f.keep ≤ maxLogKeep) :
    ∃ texts : ℕ → List Char, (∀ i, contents d i = utf8Bytes (texts i)) ∧
      (logPaths.flatMap fun i => splitInclusive (texts i)) =
        splitInclusive marker ++ (held files f.keep).map LogRecord.text := by
  refine ⟨fileText marker files, fun i => ?_, ?_⟩
  · cases i with
    | zero => exact h.zero
    | succ i => exact h.rotated i
  have hsucc : ∀ i, splitInclusive (fileText marker files (i + 1)) = (files (i + 1)).map LogRecord.text :=
    fun i => splitInclusive_recordsText _
  have hfree : ∀ i, f.keep < i → splitInclusive (fileText marker files i) = [] := fun i hi => by
    obtain ⟨i, rfl⟩ := Nat.exists_eq_add_one.mpr (Nat.zero_lt_of_lt hi)
    rw [hsucc, h.free _ hi, List.map_nil]
  rw [logPaths, flatMap_range_reverse, held_of_le hkeep hfree]
  rcases h.marker_eq with rfl | ⟨hzero, rfl⟩
  · rw [← held_map]
    refine congrArg (held · f.keep) (funext fun i => ?_)
    cases i with
    | zero => exact splitInclusive_recordsText _
    | succ i => exact hsucc i
  · rw [hzero, held, held]
    change splitInclusive (truncateMarker.toList ++ recordsText (files 0)) = _
    rw [splitInclusive_truncateMarker, splitInclusive_recordsText,
      ← List.append_nil truncateMarker.toList, splitInclusive_truncateMarker]
    simp [splitInclusive]

theorem Holds.writeLog_none (h : f.Holds d marker files) (hkeep : f.keep ≤ maxLogKeep)
    (path : String) : FileLog.writeLog ⟨path, none, 0⟩ d =
      .ok (utf8Bytes marker ++ utf8Bytes (recordsText (held files f.keep))) := by
  obtain ⟨texts, htexts, hlines⟩ := h.exists_lines hkeep
  rw [FileLog.writeLog_eq rfl htexts h.isSome, hlines,
    List.filter_eq_self.mpr fun line _ => FileLog.selects_none line, List.flatten_append,
    flatten_splitInclusive, utf8Bytes_append]
  rfl

theorem Holds.writeLog_some (h : f.Holds d marker files) (hkeep : f.keep ≤ maxLogKeep)
    (path : String) (unit : UnitName) : FileLog.writeLog ⟨path, some unit, 0⟩ d =
      .ok (utf8Bytes (recordsText ((held files f.keep).filter (·.unit = unit)))) := by
  obtain ⟨texts, htexts, hlines⟩ := h.exists_lines hkeep
  have hmarker : (splitInclusive marker).filter
      (⟨path, some unit, 0⟩ : FileLog).selects = [] := by
    rcases h.marker_eq with rfl | ⟨-, rfl⟩
    · rfl
    · rw [← List.append_nil truncateMarker.toList, splitInclusive_truncateMarker]
      simp [FileLog.selects_truncateMarker, splitInclusive]
  rw [FileLog.writeLog_eq rfl htexts h.isSome, hlines, List.filter_append, hmarker,
    List.nil_append, List.filter_map]
  have hselects : (⟨path, some unit, 0⟩ : FileLog).selects ∘ LogRecord.text =
      fun r => decide (r.unit = unit) := funext fun r => FileLog.selects_text unit r
  rw [hselects]
  rfl

end Holds

end LogFile

/-- What is handed to the log file at once : whole records. -/
def batchText (batch : List LogRecord) : String := String.ofList (recordsText batch)

theorem recordsOf_batchText (batch : List LogRecord) :
    LogFile.recordsOf (batchText batch) = batch.map LogRecord.bytes := by
  rw [LogFile.recordsOf, batchText, String.toList_ofList, splitInclusive_recordsText,
    List.map_map]
  rfl

theorem flatMap_recordsOf (batches : List (List LogRecord)) :
    (batches.map batchText).flatMap LogFile.recordsOf =
      batches.flatten.map LogRecord.bytes := by
  rw [List.flatMap_map, List.map_flatten, List.flatMap_def]
  exact congrArg _ (List.map_congr_left fun batch _ => recordsOf_batchText batch)

/-- Batches of records are appended to a log file, and the appending returns. After any of them
what is read back is, behind the marker at most, the whole records of a suffix of what was
appended, and of one unit the records of that suffix that belong to it. -/
structure ReadsBack (bits maxBytes keep : ℕ) (disk : Disk) (batches : List (List LogRecord)) :
    Prop where
  returns : (LogFile.open disk maxBytes keep).1.RecordsReturn bits
    ((batches.map batchText).flatMap LogFile.recordsOf)
  whole : ∀ now, now <+: batches → ∀ fuel f ops,
    (LogFile.open disk maxBytes keep).1.appendTexts bits fuel (now.map batchText) =
      some (f, ops, []) →
    ∃ marker kept, (marker = [] ∨ marker = truncateMarkerBytes) ∧ kept <:+ now.flatten ∧
      ∀ path,
        FileLog.writeLog ⟨path, none, 0⟩
            (runOps disk ((LogFile.open disk maxBytes keep).2 ++ ops)) =
          .ok (marker ++ utf8Bytes (recordsText kept)) ∧
        ∀ unit, FileLog.writeLog ⟨path, some unit, 0⟩
            (runOps disk ((LogFile.open disk maxBytes keep).2 ++ ops)) =
          .ok (utf8Bytes (recordsText (kept.filter (·.unit = unit))))

section

variable {bits maxBytes keep : ℕ} {disk : Disk} {batches : List (List LogRecord)}

theorem LogFile.holds_open (maxBytes keep : ℕ) (hdisk : ∀ i, contents disk i = []) :
    (LogFile.open disk maxBytes keep).1.Holds
      (runOps disk (LogFile.open disk maxBytes keep).2) [] fun _ => [] where
  names := names_open disk maxBytes keep
  marker_eq := .inl rfl
  zero := by
    change contents (FileOp.apply disk .create) 0 = _
    rw [contents, apply_create_zero, Option.getD_some, hdisk]
    rfl
  rotated i := by
    change contents (Function.update disk 0 _) (i + 1) = _
    rw [contents, Function.update_of_ne (Nat.succ_ne_zero i)]
    exact hdisk (i + 1)
  free _ _ := rfl

/-- In every run from an empty log in which no record is divided, the log is read back. -/
theorem reads_back (hmax : 1 ≤ maxBytes) (hkeep : keep ≤ maxLogKeep)
    (hdisk : ∀ i, contents disk i = [])
    (hlen : ∀ r ∈ batches.flatten, r.bytes.length ≤ maxBytes)
    (htakes : (LogFile.open disk maxBytes keep).1.RecordsMeet (LogFile.Takes bits) bits
      ((batches.map batchText).flatMap LogFile.recordsOf)) :
    ReadsBack bits maxBytes keep disk batches := by
  have hpos := open_maxBytes_pos maxBytes keep disk
  refine ⟨?_, fun now hnow fuel f ops happend => ?_⟩
  · rw [LogFile.recordsReturn_iff bits hpos]
    exact fun done record hdone fuel g ops happend => (htakes done record hdone fuel g ops happend).2
  rw [flatMap_recordsOf] at htakes
  rw [LogFile.appendTexts, flatMap_recordsOf] at happend
  obtain ⟨later, rfl⟩ := hnow
  rw [List.flatten_append] at hlen htakes
  have hbound : (LogFile.open disk maxBytes keep).1.maxBytes = maxBytes := Nat.max_eq_left hmax
  obtain ⟨hkeep', marker, files, hholds, hsuffix⟩ :=
    (LogFile.holds_open maxBytes keep hdisk).appendRecords hpos
      (fun r hr => hbound.symm ▸ hlen r (List.mem_append_left _ hr))
      (fun done record hdone => htakes done record (hdone.trans
        (List.map_append ▸ List.prefix_append _ _))) happend
  rw [← runOps_append] at hholds
  rw [← hkeep'] at hsuffix
  have hle : f.keep ≤ maxLogKeep := hkeep'.le.trans hkeep
  refine ⟨utf8Bytes marker, held files f.keep, ?_, ?_, fun path =>
    ⟨hholds.writeLog_none hle path, hholds.writeLog_some hle path⟩⟩
  · exact hholds.marker_eq.imp (fun h => by rw [h]; rfl) fun h => by rw [h.2]; rfl
  · rwa [held_of_le (Nat.zero_le f.keep) fun _ _ => rfl] at hsuffix

end

/-- Two records of a unit. -/
def logRecordA : LogRecord := ⟨serviceA, ['1'], by decide⟩

def logRecordB : LogRecord := ⟨serviceA, ['2'], by decide⟩

/-- Two records that each fill a file are read back. -/
theorem reads_back_pair : ReadsBack 64 13 1 (fun _ => none) [[logRecordA], [logRecordB]] := by
  have hflows : ∀ (f : LogFile) (n : ℕ), f.maxBytes = 13 → f.Flows 64 n := fun f n h =>
    LogFile.flows_of_lt (h ▸ by decide) n
  refine reads_back (by decide) (by decide) (fun _ => rfl) (by decide) ?_
  rw [flatMap_recordsOf]
  have hfirst : (LogFile.open (fun _ => none) 13 1).1.Takes 64 logRecordA.bytes.length :=
    ⟨.inr (by decide), hflows _ _ rfl⟩
  refine (LogFile.recordsMeet_cons (by decide)).mpr ⟨hfirst, fun fuel g ops happend => ?_⟩
  obtain ⟨rfl, -⟩ := hfirst.appendRecord_eq logRecordA.bytes_ne_nil (by decide) happend
  exact (LogFile.recordsMeet_cons (by decide)).mpr ⟨⟨.inl (by decide), hflows _ _ rfl⟩,
    fun _ _ _ _ => LogFile.recordsMeet_nil _ _⟩

/-- Of two records of 13 bytes the second is divided by a file of 20 : the filter does not find
its first part in the one file, nor the rest in the other. -/
theorem not_readsBack_divided :
    (∀ r ∈ [[logRecordA], [logRecordB]].flatten, r.bytes.length ≤ 20) ∧
      ¬ReadsBack 64 20 1 (fun _ => none) [[logRecordA], [logRecordB]] := by
  refine ⟨by decide, fun h => ?_⟩
  let ops : List FileOp := [.write logRecordA.bytes, .write (logRecordB.bytes.take 7), .remove 1,
    .rename 0 1, .create, .write (logRecordB.bytes.drop 7)]
  have happend : (LogFile.open (fun _ => none) 20 1).1.appendTexts 64 3
      ([[logRecordA], [logRecordB]].map batchText) = some (⟨6, 20, 1⟩, ops, []) := by
    rw [LogFile.appendTexts, flatMap_recordsOf]
    decide
  obtain ⟨marker, kept, -, hkept, hread⟩ := h.whole _ List.prefix_rfl 3 _ ops happend
  let texts : ℕ → List Char := fun i =>
    if i = 0 then logRecordB.text.drop 7
    else if i = 1 then logRecordA.text ++ logRecordB.text.take 7 else []
  have htexts : ∀ i, contents (runOps (fun _ => none) (.create :: ops)) i =
      utf8Bytes (texts i) := fun i => by
    rcases i with _ | _ | i
    · decide
    · decide
    · rfl
  have hlines : (logPaths.flatMap fun i => splitInclusive (texts i)) =
      [logRecordA.text, logRecordB.text.take 7, logRecordB.text.drop 7] := by
    rw [logPaths, flatMap_range_reverse, held_of_le (show 1 ≤ maxLogKeep by decide)]
    · decide
    · intro i hi
      obtain ⟨i, rfl⟩ := Nat.exists_eq_add_of_le' (show 2 ≤ i from hi)
      rfl
  have hout := (hread "log").2 serviceA
  have hwrite := FileLog.writeLog_eq (show (FileLog.mk "log" (some serviceA) 0).tail = 0 from rfl)
    htexts rfl
  rw [hlines] at hwrite
  have htext : recordsText (kept.filter (·.unit = serviceA)) = logRecordA.text := by
    have htext := congrArg fromUtf8 (Except.ok.inj (hwrite.symm.trans hout))
    rw [fromUtf8_utf8Bytes, fromUtf8_utf8Bytes] at htext
    rw [← Option.some.inj htext]
    decide
  change kept <:+ [logRecordA, logRecordB] at hkept
  rcases List.suffix_cons_iff.mp hkept with rfl | hkept
  · exact absurd htext (by decide)
  · rcases List.suffix_cons_iff.mp hkept with rfl | hkept
    · exact absurd htext (by decide)
    · rw [List.suffix_nil.mp hkept] at htext
      exact absurd htext (by decide)

end Rinit
