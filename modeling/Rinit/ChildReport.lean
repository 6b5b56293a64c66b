import Rinit.Codec
import Rinit.Pipe
import Rinit.Privileges

/-!
# What a child says before it becomes the service

Between `fork` and `exec` a child tells its parent over a pipe how its setup went : a step that
fails is reported with its number, and right before `execve` the child says that it is ready. The
pipe closes when the child is gone or has become the command, so the parent decides by what it
reads before the end of the file (`readReport`).

The parent reads in pieces, but only what was written counts (`readReport_eq_report`), and of
what a child can say it takes the last thing for the fate of the child (`report_bytes`).
-/

namespace Rinit

open Codec Pipe

/-! ## Reports -/

/-- What a child was doing when it failed. -/
inductive ChildStep where
  | chdir
  | setsid
  | dup2
  | exec
  | noNewPrivileges
  | setGroup
  | setGroups
  | setUser
  | keepCapabilities
  | setInheritable
  | setBoundingSet
  | raiseAmbient
  | joinCgroup
  | openTty
  | setControllingTerminal
deriving DecidableEq, Repr

namespace ChildStep

/-- The number of a step on the wire. -/
def code : ChildStep → ℕ
  | .chdir => 0
  | .setsid => 1
  | .dup2 => 2
  | .exec => 3
  | .noNewPrivileges => 4
  | .setGroup => 5
  | .setGroups => 6
  | .setUser => 7
  | .keepCapabilities => 8
  | .setInheritable => 9
  | .setBoundingSet => 10
  | .raiseAmbient => 11
  | .joinCgroup => 12
  | .openTty => 13
  | .setControllingTerminal => 14

/-- The name of the operation the parent's error carries. -/
def op : ChildStep → String
  | .chdir => "chdir"
  | .setsid => "setsid"
  | .dup2 => "dup2"
  | .exec => "execve"
  | .noNewPrivileges => "prctl(PR_SET_NO_NEW_PRIVS)"
  | .setGroup => "setgid"
  | .setGroups => "setgroups"
  | .setUser => "setuid"
  | .keepCapabilities => "prctl(PR_SET_KEEPCAPS)"
  | .setInheritable => "capset"
  | .setBoundingSet => "prctl(PR_CAPBSET_DROP)"
  | .raiseAmbient => "prctl(PR_CAP_AMBIENT)"
  | .joinCgroup => "cgroup.procs"
  | .openTty => "open(TTYPath)"
  | .setControllingTerminal => "ioctl(TIOCSCTTY)"

/-- The step a report names for a step of the privilege drop. -/
def fromStep : SandboxStep → ChildStep
  | .noNewPrivileges => .noNewPrivileges
  | .keepCapabilities => .keepCapabilities
  | .setInheritable => .setInheritable
  | .setBoundingSet => .setBoundingSet
  | .setGroup => .setGroup
  | .setGroups => .setGroups
  | .setUser => .setUser
  | .raiseAmbient => .raiseAmbient

/-- The step of a number, if it is one. -/
def fromCode : ℕ → Option ChildStep
  | 0 => some .chdir
  | 1 => some .setsid
  | 2 => some .dup2
  | 3 => some .exec
  | 4 => some .noNewPrivileges
  | 5 => some .setGroup
  | 6 => some .setGroups
  | 7 => some .setUser
  | 8 => some .keepCapabilities
  | 9 => some .setInheritable
  | 10 => some .setBoundingSet
  | 11 => some .raiseAmbient
  | 12 => some .joinCgroup
  | 13 => some .openTty
  | 14 => some .setControllingTerminal
  | _ => none

@[simp] theorem fromCode_code (step : ChildStep) : fromCode step.code = some step := by
  cases step <;> rfl

theorem code_lt (step : ChildStep) : step.code < 15 := by
  cases step <;> decide

end ChildStep

/-- The byte a child writes immediately before `execve`. -/
def readyByte : UInt8 := 0xff

/-- The number of bytes of a failure report : the step and the error number. -/
def reportLen : ℕ := 8

/-- What a child tells its parent. -/
inductive ChildMessage where
  | ready
  | failed (step : ChildStep) (errno : ℤ)
deriving DecidableEq, Repr

/-- A message as it is written to the pipe. -/
def ChildMessage.bytes : ChildMessage → List UInt8
  | .ready => [readyByte]
  | .failed step errno => leBytes reportLen (step.code ||| (errno % 2 ^ 32).toNat <<< 8)

/-- Decode a report of `reportLen` bytes. -/
def decodeReport (bytes : List UInt8) : Option (ChildStep × ℤ) :=
  let report := ofLeBytes bytes
  (ChildStep.fromCode (report % 256)).map fun step =>
    (step, Int.bmod (((report >>> 8) % 2 ^ 32 : ℕ) : ℤ) (2 ^ 32))

/-- An error number that fits the 32-bit integer it comes in. -/
def IsErrno (errno : ℤ) : Prop := -2 ^ 31 ≤ errno ∧ errno < 2 ^ 31

/-- What can be told truly : the number of a failure fits. -/
def ChildMessage.Fits : ChildMessage → Prop
  | .ready => True
  | .failed _ errno => IsErrno errno

/-- A report is decoded to what was reported. -/
theorem decodeReport_bytes (step : ChildStep) {errno : ℤ} (h : IsErrno errno) :
    decodeReport (ChildMessage.failed step errno).bytes = some (step, errno) := by
  obtain ⟨hmin, hmax⟩ := h
  have hcode : step.code < 2 ^ 8 := step.code_lt.trans (by decide)
  set number := (errno % 2 ^ 32).toNat with hnumber
  have hnat : (number : ℤ) = errno % 2 ^ 32 := by omega
  have hlt : number < 2 ^ 32 := by omega
  have hreport : step.code ||| number <<< 8 = step.code + 256 * number := by
    rw [Nat.or_comm, ← Nat.shiftLeft_add_eq_or_of_lt hcode, Nat.shiftLeft_eq]
    omega
  have hvalue : ofLeBytes (ChildMessage.failed step errno).bytes = step.code + 256 * number := by
    change ofLeBytes (leBytes reportLen (step.code ||| number <<< 8)) = _
    rw [hreport, ofLeBytes_leBytes_of_lt]
    simp only [reportLen]
    omega
  have hlow : (step.code + 256 * number) % 256 = step.code := by omega
  have hhigh : (step.code + 256 * number) >>> 8 % 2 ^ 32 = number := by
    rw [Nat.shiftRight_eq_div_pow]
    omega
  have herrno : Int.bmod (number : ℤ) (2 ^ 32) = errno := by
    rw [hnat, Int.bmod_eq_emod]
    split <;> omega
  simp only [decodeReport, hvalue, hlow, hhigh, ChildStep.fromCode_code, Option.map_some, herrno]

@[simp] theorem length_bytes_failed (step : ChildStep) (errno : ℤ) :
    (ChildMessage.failed step errno).bytes.length = reportLen := length_leBytes _ _

/-- The first byte of a report is the number of the step, so it is not taken for the ready byte. -/
theorem bytes_failed (step : ChildStep) (errno : ℤ) : ∃ first rest,
    (ChildMessage.failed step errno).bytes = first :: rest ∧ first ≠ readyByte ∧
      rest.length = reportLen - 1 := by
  set number := (errno % 2 ^ 32).toNat with hnumber
  have hcode : step.code < 15 := step.code_lt
  refine ⟨_, _, rfl, fun h => ?_, length_leBytes _ _⟩
  have hreport : step.code ||| number <<< 8 = step.code + 256 * number := by
    rw [Nat.or_comm, ← Nat.shiftLeft_add_eq_or_of_lt (i := 8) (by omega), Nat.shiftLeft_eq]
    omega
  have h := congrArg UInt8.toNat h
  rw [hreport, UInt8.toNat_ofNat'] at h
  simp only [readyByte] at h
  have hready : (255 : UInt8).toNat = 255 := rfl
  omega

/-! ## What the parent reads -/

/-- What happened to a child between `fork` and `exec`. -/
inductive ChildReport where
  | exec
  | failed (step : ChildStep) (errno : ℤ)
  | diedBeforeExec
deriving DecidableEq, Repr

/-- What the bytes after the ready byte say. Fewer than a report are padded with the zeros of the
buffer, and a report that is not complete does not count. -/
def afterReady (read : List UInt8) : ChildReport :=
  if read.length = 0 then .exec
  else
    match decodeReport (read ++ List.replicate (reportLen - read.length) 0) with
    | some (step, errno) => if read.length = reportLen then .failed step errno else .diedBeforeExec
    | none => .diedBeforeExec

/-- What another first byte says with the bytes after it. -/
def afterFirst (first : UInt8) (read : List UInt8) : ChildReport :=
  if read.length < reportLen - 1 then .diedBeforeExec
  else
    match decodeReport (first :: read) with
    | some (step, errno) => .failed step errno
    | none => .diedBeforeExec

/-- Read a child's report. A turn stops the reader when the flow was cancelled or the deadline
has passed, or with the error of `poll` or `read`. -/
def readReport (turns : List (Turn SyscallError)) (stream : List UInt8) :
    Option (Except SyscallError ChildReport) :=
  match Pipe.fill turns 1 stream with
  | none => none
  | some (.error e) => some (.error e)
  | some (.ok f) =>
    match f.read with
    | [] => some (.ok .diedBeforeExec)
    | first :: _ =>
      if first = readyByte then
        (Pipe.fill f.turns reportLen f.rest).map fun r => r.map fun g => afterReady g.read
      else
        (Pipe.fill f.turns (reportLen - 1) f.rest).map fun r => r.map fun g => afterFirst first g.read

/-- The report in what a child has written. -/
def report : List UInt8 → ChildReport
  | [] => .diedBeforeExec
  | first :: rest =>
    if first = readyByte then afterReady (rest.take reportLen)
    else afterFirst first (rest.take (reportLen - 1))

theorem report_ready (rest : List UInt8) :
    report (readyByte :: rest) = afterReady (rest.take reportLen) := by
  rw [report, if_pos rfl]

theorem report_first {first : UInt8} (h : first ≠ readyByte) (rest : List UInt8) :
    report (first :: rest) = afterFirst first (rest.take (reportLen - 1)) := by
  rw [report, if_neg h]

/-- The parent decides by what was written, however it comes in. -/
theorem readReport_eq_report {turns : List (Turn SyscallError)} {stream : List UInt8}
    {r : ChildReport} (h : readReport turns stream = some (.ok r)) : r = report stream := by
  have hend {turns : List (Turn SyscallError)} {room : ℕ} {rest : List UInt8}
      {after : List UInt8 → ChildReport}
      (h : ((Pipe.fill turns room rest).map fun r => r.map fun g => after g.read) = some (.ok r)) :
      r = after (rest.take room) := by
    obtain ⟨x, hx, hmap⟩ := Option.map_eq_some_iff.mp h
    cases x with
    | error e => cases hmap
    | ok g =>
      obtain rfl := Except.ok.inj hmap
      exact congrArg after (fill_eq hx).1
  unfold readReport at h
  rcases hf : Pipe.fill turns 1 stream with _ | e | f <;> simp only [hf, reduceCtorEq] at h
  · cases h
  obtain ⟨hread, hrest⟩ := fill_eq hf
  rw [hread, hrest] at h
  cases stream with
  | nil => exact (Except.ok.inj (Option.some.inj h)).symm
  | cons first rest =>
    simp only [List.take_succ_cons, List.drop_succ_cons, List.drop_zero] at h
    unfold report
    simp only
    split_ifs at h with hready
    · rw [if_pos hready]
      exact hend h
    · rw [if_neg hready]
      exact hend h

/-- A parent that is not told to give up gets there : every byte takes it one turn. -/
theorem readReport_of_ready {turns : List (Turn SyscallError)} (stream : List UInt8)
    (hstop : ∀ e, .stop e ∉ turns) (hready : 1 + reportLen ≤ readies turns) :
    readReport turns stream = some (.ok (report stream)) := by
  suffices h : ∃ r, readReport turns stream = some (.ok r) by
    obtain ⟨r, hr⟩ := h
    rw [hr, readReport_eq_report hr]
  have hone : 1 ≤ readies turns := by omega
  obtain ⟨f, hf, hstop', hleft⟩ := fill_of_ready stream hstop hone
  have hend {room : ℕ} {after : List UInt8 → ChildReport} (hroom : room ≤ reportLen) :
      ∃ r, ((Pipe.fill f.turns room f.rest).map fun r => r.map fun g => after g.read) =
        some (.ok r) := by
    have hready : room ≤ readies f.turns := by omega
    obtain ⟨g, hg, -⟩ := fill_of_ready f.rest hstop' hready
    exact ⟨after g.read, by rw [hg]; rfl⟩
  unfold readReport
  rw [hf]
  simp only
  split
  · exact ⟨_, rfl⟩
  · split
    · exact hend le_rfl
    · exact hend (Nat.sub_le _ _)

/-- The fate of a child that said nothing but these. -/
def fate (told : List ChildMessage) : ChildReport :=
  match told.getLast? with
  | none => .diedBeforeExec
  | some .ready => .exec
  | some (.failed step errno) => .failed step errno

/-- What a child can have said : nothing, the failure of its setup, that it is ready, or that
and then the failure of the exec. -/
inductive Tells : List ChildMessage → Prop
  | nothing : Tells []
  | failed (step : ChildStep) {errno : ℤ} (h : IsErrno errno) : Tells [.failed step errno]
  | ready : Tells [.ready]
  | unready (step : ChildStep) {errno : ℤ} (h : IsErrno errno) :
    Tells [.ready, .failed step errno]

theorem afterReady_bytes (step : ChildStep) {errno : ℤ} (h : IsErrno errno) :
    afterReady (ChildMessage.failed step errno).bytes = .failed step errno := by
  have hlength := length_bytes_failed step errno
  unfold afterReady
  rw [hlength, if_neg (by decide), Nat.sub_self, List.replicate_zero, List.append_nil,
    decodeReport_bytes step h]
  exact if_pos rfl

/-- What a child has said is its fate. -/
theorem report_bytes {told : List ChildMessage} (h : Tells told) :
    report (told.flatMap ChildMessage.bytes) = fate told := by
  cases h with
  | nothing => rfl
  | ready => rfl
  | @failed step errno h =>
    obtain ⟨first, rest, hbytes, hne, hlength⟩ := bytes_failed step errno
    have hdecode := decodeReport_bytes step h
    rw [hbytes] at hdecode
    rw [List.flatMap_singleton, hbytes, report_first hne, List.take_of_length_le hlength.le]
    unfold afterFirst
    rw [hlength, if_neg (lt_irrefl _), hdecode]
    rfl
  | @unready step errno h =>
    have hlength := length_bytes_failed step errno
    have hbytes : ChildMessage.ready.bytes = [readyByte] := rfl
    rw [List.flatMap_cons, List.flatMap_singleton, hbytes, List.singleton_append, report_ready,
      List.take_of_length_le hlength.le, afterReady_bytes step h]
    rfl

end Rinit
