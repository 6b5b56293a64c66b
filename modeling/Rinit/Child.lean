import Mathlib.Data.Nat.Bitwise
import Rinit.ChildReport

/-!
# From fork to exec

A child sets itself up for its command : it makes the calls its unit asks for, then gives its
privileges up, and then says that it is ready and calls `execve` (`childExec`). The first call
that fails is reported and ends the child. It may be killed at any moment, and the kernel may
answer what it likes.

`Attempts` is what a part of the program does : it makes calls, or the child dies of one. Parts are
put together by `Attempts.bind`, and the whole run is `ran_final`. `readReport_eq` : whatever
happens, the parent takes the last thing the child said for its fate. `started_of_waitBlocking` :
a child that is taken for started has done everything its unit asks for, before it gave up what
it needed for that, and has exactly the credentials of its sandbox. `finds_of_started` : its
command finds the socket, the terminal and the log on their descriptors.
-/

namespace Rinit

open Codec Pipe

/-! ## The child -/

/-- The descriptor a socket-activated service finds its socket on. -/
def listenFd : ℕ := 3

def oNonblock : ℕ := 2048

def eIo : Errno := 5

/-- The largest number the kernel returns for an error. -/
def maxErrno : ℕ := 4095

/-- The decimal digits of a number, the lowest first, in a buffer of so many. -/
def lowDigits : ℕ → ℕ → List Char
  | 0, _ => []
  | slots + 1, n =>
    Nat.digitChar (n % 10) :: if n / 10 = 0 then [] else lowDigits slots (n / 10)

theorem reverse_lowDigits : ∀ {slots n : ℕ}, n < 10 ^ slots → 0 < slots →
    (lowDigits slots n).reverse = Nat.toDigits 10 n
  | 1, n, h, _ => by
    have hlt : n < 10 := by simpa using h
    rw [lowDigits, if_pos (Nat.div_eq_of_lt hlt), Nat.mod_eq_of_lt hlt, Nat.toDigits_of_lt_base hlt]
    rfl
  | slots + 2, n, h, _ => by
    rw [lowDigits]
    split
    · next hdiv =>
      have hlt : n < 10 := by omega
      rw [Nat.mod_eq_of_lt hlt, Nat.toDigits_of_lt_base hlt]
      rfl
    · next hdiv =>
      have hle : 10 ≤ n := by omega
      have hlt : n / 10 < 10 ^ (slots + 1) := by
        rw [pow_succ] at h
        omega
      rw [List.reverse_cons, reverse_lowDigits hlt (Nat.succ_pos _),
        Nat.toDigits_of_base_le (by decide) hle]

/-- A controlling terminal to hand a child. -/
structure ChildTty where
  path : String
  reset : Bool
deriving DecidableEq, Repr

/-- Everything the work of a child needs, prepared in the parent. -/
structure ChildSetup where
  path : String
  argv : List String
  envp : List String
  newSession : Bool
  listenFd : Option ℕ
  stdio : Option ℕ
  workingDirectory : Option String
  sandbox : Sandbox
  cgroupProcs : Option String
  tty : Option ChildTty
  reportRead : ℕ
deriving DecidableEq, Repr

/-- The system calls of a child, but for those of the privilege drop and of the report. -/
inductive ChildCall where
  | close (fd : ℕ)
  | resetSignals
  | setsid
  | clearCloseOnExec (fd : ℕ)
  | dup2 (fd target : ℕ)
  | getFlags (fd : ℕ)
  | setFlags (fd flags : ℕ)
  | openTty (path : String)
  | hangup (fd : ℕ)
  | setControllingTerminal (fd : ℕ)
  | chdir (directory : String)
  | openProcs (procs : String)
  | write (fd : ℕ) (text : List Char)
  | execve (path : String) (argv envp : List String)
deriving DecidableEq, Repr

/-- What a child has done : a call and the answer, a step of the privilege drop that went
through, a message to the parent, and its end. -/
inductive ChildEvent where
  | called (call : ChildCall) (answer : Except Errno ℕ)
  | dropped (step : SandboxStep)
  | told (message : ChildMessage)
  | exited (status : ℕ)

/-- The kernel as a child sees it, which may answer a call as it likes after all that the child
has done before. -/
structure ChildKernel where
  credentials : CredentialKernel
  pid : ℕ
  pid_lt : pid < 2 ^ 31
  answer : List ChildEvent → ChildCall → Except Errno ℕ
  answer_le : ∀ {events call e}, answer events call = .error e → e ≤ maxErrno
  credentials_le : ∀ {call c e}, credentials.answer call c = some e → e ≤ maxErrno

/-- A child at some moment of its run. -/
structure Child where
  credentials : Credentials
  events : List ChildEvent := []

/-- A part of the child's program : it may end the child. -/
abbrev ChildM := StateT Child (Except Child)

namespace ChildM

variable (k : ChildKernel)

/-- A system call. -/
def sys (call : ChildCall) : ChildM (Except Errno ℕ) := fun child =>
  let answer := k.answer child.events call
  .ok (answer, { child with events := child.events ++ [.called call answer] })

/-- A system call that may fail. -/
def run (call : ChildCall) : ChildM Unit := do
  let _ ← sys k call

/-- Tell the parent. -/
def tell (message : ChildMessage) : ChildM Unit := fun child =>
  .ok ((), { child with events := child.events ++ [.told message] })

/-- Report the failure of a step and exit. -/
def dieReporting {α : Type} (step : ChildStep) (errno : ℤ) : ChildM α := fun child =>
  .error { child with
    events := child.events ++ [.told (.failed step errno), .exited 127] }

/-- A system call that has to succeed. -/
def orDie (step : ChildStep) (call : ChildCall) : ChildM ℕ := do
  match ← sys k call with
  | .ok n => pure n
  | .error e => dieReporting step e

/-- A system call that has to succeed, for its effect. -/
def require (step : ChildStep) (call : ChildCall) : ChildM Unit := do
  let _ ← orDie k step call

/-- A part of the program that is there only on a condition. -/
def onlyIf (condition : Bool) (part : ChildM Unit) : ChildM Unit :=
  if condition then part else pure ()

/-- Put the listening socket where services look for it, in blocking mode. -/
def passSocket (fd : ℕ) : ChildM Unit := do
  -- a descriptor that is duplicated to itself keeps its flags
  require k .dup2 (if fd = listenFd then .clearCloseOnExec fd else .dup2 fd listenFd)
  let flags ← orDie k .dup2 (.getFlags listenFd)
  require k .dup2 (.setFlags listenFd (flags.ldiff oNonblock))

/-- Put a descriptor in the place of standard output and standard error. -/
def redirectOutput (fd : ℕ) : ChildM Unit := do
  require k .dup2 (.dup2 fd 1)
  require k .dup2 (.dup2 fd 2)

/-- Open a terminal and make it the controlling one. -/
def setupTty (tty : ChildTty) : ChildM Unit := do
  let fd ← orDie k .openTty (.openTty tty.path)
  onlyIf tty.reset (run k (.hangup fd))
  require k .setControllingTerminal (.setControllingTerminal fd)
  require k .dup2 (.dup2 fd 0)
  require k .dup2 (.dup2 fd 1)
  require k .dup2 (.dup2 fd 2)
  let flags ← orDie k .openTty (.getFlags fd)
  require k .openTty (.setFlags fd (flags.ldiff oNonblock))
  onlyIf (2 < fd) (run k (.close fd))

/-- Write the child's own pid into the cgroup of its unit. -/
def joinFromChild (procs : String) : ChildM Unit := do
  let text := (lowDigits 11 k.pid).reverse
  let fd ← orDie k .joinCgroup (.openProcs procs)
  let written ← sys k (.write fd text)
  run k (.close fd)
  match written with
  | .error e => dieReporting .joinCgroup e
  | .ok n => if n = text.length then pure () else dieReporting .joinCgroup eIo

/-- Carry out the steps of the privilege drop. -/
def dropPrivileges (sandbox : Sandbox) : List SandboxStep → ChildM Unit
  | [] => pure ()
  | step :: steps => fun child =>
    match k.credentials.runStep sandbox step child.credentials with
    | .error e => dieReporting (.fromStep step) e.errno child
    | .ok c =>
      dropPrivileges sandbox steps
        { child with credentials := c, events := child.events ++ [ChildEvent.dropped step] }

/-- What a child does before it gives its privileges up. -/
def prepare (setup : ChildSetup) : ChildM Unit := do
  run k (.close setup.reportRead)
  run k .resetSignals
  onlyIf setup.newSession (require k .setsid .setsid)
  setup.listenFd.forM (passSocket k)
  setup.stdio.forM (redirectOutput k)
  setup.tty.forM (setupTty k)
  setup.workingDirectory.forM fun directory => require k .chdir (.chdir directory)
  setup.cgroupProcs.forM (joinFromChild k)

/-- The environment of the command : a child that is handed a socket gets its own pid. -/
def environment (setup : ChildSetup) : List String :=
  let isListenPid (entry : String) := "LISTEN_PID=".toList.isPrefixOf entry.toList
  setup.envp.filter (fun entry => !setup.listenFd.isSome || !isListenPid entry) ++
    if setup.listenFd.isSome then
      ["LISTEN_PID=" ++ String.ofList (lowDigits 20 k.pid).reverse]
    else []

/-- The work of a child, which ends in the command or not at all. -/
def childExec (setup : ChildSetup) : ChildM Unit := do
  prepare k setup
  dropPrivileges k setup.sandbox setup.sandbox.steps
  tell .ready
  require k .exec (.execve setup.path setup.argv (environment k setup))

end ChildM

/-- The child at the end, whether it has become the command or died. -/
def ChildM.ended : Except Child (Unit × Child) → Child
  | .ok (_, child) => child
  | .error child => child

/-- A child at the end of its run. -/
def Child.final (k : ChildKernel) (setup : ChildSetup) (c : Credentials) : Child :=
  ChildM.ended (ChildM.childExec k setup { credentials := c })

/-- What a child with these events has told its parent. -/
def told (events : List ChildEvent) : List ChildMessage :=
  events.filterMap fun
    | .told message => some message
    | _ => none

/-! ## What a part of the program does -/

/-- Nothing but calls. -/
def Calls (events : List ChildEvent) : Prop := ∀ e ∈ events, ∃ call answer, e = .called call answer

/-- The end of a child whose step has failed, which is all it says from here on. -/
def DiesOf (child child' : Child) : Prop :=
  ∃ new step errno, Calls new ∧ IsErrno errno ∧
    child'.events = child.events ++ new ++ [.told (.failed step errno), .exited 127]

/-- A part of the program makes calls and has made the ones it wanted, or the child dies of one. -/
def Attempts {α : Type} (m : ChildM α) (Q : α → List ChildEvent → Prop) : Prop :=
  ∀ child, match m child with
    | .ok (a, child') => ∃ new, Calls new ∧ Q a new ∧
      child' = { child with events := child.events ++ new }
    | .error child' => DiesOf child child'

/-- A call that went through. -/
def Done (call : ChildCall) (events : List ChildEvent) : Prop := ∃ n, .called call (.ok n) ∈ events

@[simp] theorem done_append {call : ChildCall} {events events' : List ChildEvent} :
    Done call (events ++ events') ↔ Done call events ∨ Done call events' := by
  simp [Done, exists_or]

theorem calls_nil : Calls [] := fun _ h => nomatch h

theorem Calls.append {events events' : List ChildEvent} (h : Calls events) (h' : Calls events') :
    Calls (events ++ events') := fun e he => (List.mem_append.mp he).elim (h e) (h' e)

theorem DiesOf.after {child child' : Child} {new : List ChildEvent} (hnew : Calls new)
    (h : DiesOf { child with events := child.events ++ new } child') : DiesOf child child' := by
  obtain ⟨new', step, errno, hnew', herrno, hevents⟩ := h
  exact ⟨new ++ new', step, errno, hnew.append hnew', herrno, by simp [hevents]⟩

theorem isErrno_of_le {e : Errno} (h : e ≤ maxErrno) : IsErrno e := by
  have h : (e : ℤ) ≤ 4095 := Int.ofNat_le.mpr h
  constructor <;> omega

namespace Attempts

variable {k : ChildKernel} {α β : Type} {m : ChildM α} {f : α → ChildM β}
  {Q : α → List ChildEvent → Prop} {R : β → List ChildEvent → Prop}

theorem pure {a : α} (h : Q a []) : Attempts (Pure.pure a) Q :=
  fun _ => ⟨[], calls_nil, h, by simp⟩

theorem bind (hm : Attempts m Q)
    (hf : ∀ a new, Q a new → Attempts (f a) fun b new' => R b (new ++ new')) :
    Attempts (m >>= f) R := by
  intro child
  have h := hm child
  change match (m child >>= fun x => f x.1 x.2) with
    | .ok (a, child') => _
    | .error child' => _
  rcases hx : m child with child' | ⟨a, child'⟩ <;> rw [hx] at h
  · exact h
  · obtain ⟨new, hnew, hQ, rfl⟩ := h
    have h := hf a new hQ { child with events := child.events ++ new }
    change match f a _ with
      | .ok (a, child') => _
      | .error child' => _
    rcases hy : f a _ with child' | ⟨b, child'⟩ <;> rw [hy] at h
    · exact h.after hnew
    · obtain ⟨new', hnew', hR, rfl⟩ := h
      exact ⟨new ++ new', hnew.append hnew', hR, by simp⟩

theorem mono {R : α → List ChildEvent → Prop} (hm : Attempts m Q) (h : ∀ a new, Q a new → R a new) :
    Attempts m R := by
  intro child
  have hc := hm child
  rcases hx : m child with child' | ⟨a, child'⟩ <;> rw [hx] at hc
  · exact hc
  · obtain ⟨new, hnew, hQ, heq⟩ := hc
    exact ⟨new, hnew, h a new hQ, heq⟩

theorem sys (call : ChildCall) :
    Attempts (ChildM.sys k call) fun answer new => new = [.called call answer] ∧
      ∀ e, answer = .error e → e ≤ maxErrno := by
  refine fun child => ⟨_, ?_, ⟨rfl, fun e he => k.answer_le he⟩, rfl⟩
  rintro e he
  exact ⟨call, _, List.mem_singleton.mp he⟩

theorem run (call : ChildCall) :
    Attempts (ChildM.run k call) fun _ new => ∃ answer, new = [.called call answer] :=
  (sys call).bind fun answer _ h => pure ⟨answer, by simpa using h.1⟩

theorem dieReporting {step : ChildStep} {errno : ℤ} (h : IsErrno errno) :
    Attempts (ChildM.dieReporting step errno : ChildM α) Q :=
  fun _ => ⟨[], step, errno, calls_nil, h, by simp⟩

theorem orDie (step : ChildStep) (call : ChildCall) :
    Attempts (ChildM.orDie k step call) fun n new => new = [.called call (.ok n)] := by
  refine (sys call).bind fun answer new h => ?_
  cases answer with
  | ok n => exact pure (by simpa using h.1)
  | error e => exact dieReporting (isErrno_of_le (h.2 e rfl))

theorem require (step : ChildStep) (call : ChildCall) :
    Attempts (ChildM.require k step call) fun _ new => ∃ n, new = [.called call (.ok n)] :=
  (orDie step call).bind fun n _ h => pure ⟨n, by simpa using h⟩

end Attempts

/-! ## What the service finds -/

/-- What is behind a descriptor of a child : what its parent has there, or what it has opened. -/
inductive File where
  | inherited (fd : ℕ)
  | opened (path : String)
deriving DecidableEq, Repr

/-- A descriptor that is in use. The command loses it if it is to be closed on exec. -/
structure Descriptor where
  file : File
  cloexec : Bool
deriving DecidableEq, Repr

/-- A copy of a descriptor, which the command keeps. -/
def Descriptor.kept (d : Descriptor) : Descriptor := { d with cloexec := false }

/-- The descriptors of a child, `none` where none is in use. -/
abbrev FdTable := ℕ → Option Descriptor

namespace FdTable

/-- The descriptors of a parent, with what is closed on exec, as they are after the fork. -/
def forked (parent : ℕ → Option Bool) : FdTable := fun fd =>
  (parent fd).map fun cloexec => ⟨.inherited fd, cloexec⟩

/-- The descriptors after something has happened. A descriptor that is duplicated to itself stays
as it is, and one whose `close` fails is closed as well. -/
def after (files : FdTable) : ChildEvent → FdTable
  | .called (.close fd) _ => Function.update files fd none
  | .called (.clearCloseOnExec fd) (.ok _) =>
    Function.update files fd ((files fd).map Descriptor.kept)
  | .called (.dup2 fd target) (.ok _) =>
    if fd = target then files
    else Function.update files target ((files fd).map Descriptor.kept)
  | .called (.openTty path) (.ok fd) => Function.update files fd (some ⟨.opened path, false⟩)
  | .called (.openProcs procs) (.ok fd) => Function.update files fd (some ⟨.opened procs, false⟩)
  | _ => files

/-- What the command finds. -/
def executed (files : FdTable) : ℕ → Option File := fun fd =>
  (files fd).bind fun d => if d.cloexec then none else some d.file

end FdTable

/-- The descriptors after a child has done all this. -/
def descriptors (files : FdTable) (events : List ChildEvent) : FdTable :=
  events.foldl FdTable.after files

@[simp] theorem descriptors_nil (files : FdTable) : descriptors files [] = files := rfl

@[simp] theorem descriptors_cons (files : FdTable) (e : ChildEvent) (events : List ChildEvent) :
    descriptors files (e :: events) = descriptors (files.after e) events := rfl

@[simp] theorem descriptors_append (files : FdTable) (events events' : List ChildEvent) :
    descriptors files (events ++ events') = descriptors (descriptors files events) events' :=
  List.foldl_append

/-- The descriptor that a child gets for a file it opens. -/
def ChildEvent.opens : ChildEvent → Option ℕ
  | .called (.openTty _) (.ok fd) | .called (.openProcs _) (.ok fd) => some fd
  | _ => none

/-- What a child opens comes on a descriptor that is not in use. -/
def OpensUnused : FdTable → List ChildEvent → Prop
  | _, [] => True
  | files, e :: events => (∀ fd ∈ e.opens, files fd = none) ∧ OpensUnused (files.after e) events

instance : (files : FdTable) → (events : List ChildEvent) → Decidable (OpensUnused files events)
  | _, [] => inferInstanceAs (Decidable True)
  | files, e :: events =>
    have : Decidable (OpensUnused (files.after e) events) :=
      instDecidableOpensUnused (files.after e) events
    inferInstanceAs (Decidable ((∀ fd ∈ e.opens, files fd = none) ∧
      OpensUnused (files.after e) events))

theorem opensUnused_append {files : FdTable} {events events' : List ChildEvent} :
    OpensUnused files (events ++ events') ↔
      OpensUnused files events ∧ OpensUnused (descriptors files events) events' := by
  induction events generalizing files with
  | nil => simp [OpensUnused]
  | cons e events ih => simp [OpensUnused, ih, and_assoc]

/-- What a part of the program does to the descriptors. -/
def Moves (move : FdTable → FdTable) (events : List ChildEvent) : Prop :=
  ∀ files, OpensUnused files events → descriptors files events = move files

theorem Moves.append {move move' : FdTable → FdTable} {events events' : List ChildEvent}
    (h : Moves move events) (h' : Moves move' events') :
    Moves (fun files => move' (move files)) (events ++ events') := by
  intro files hopens
  obtain ⟨hfirst, hrest⟩ := opensUnused_append.mp hopens
  rw [h files hfirst] at hrest
  rw [descriptors_append, h files hfirst, h' _ hrest]

/-- A call that opens nothing does what it does. -/
theorem moves_singleton {e : ChildEvent} {move : FdTable → FdTable}
    (h : ∀ files : FdTable, files.after e = move files) : Moves move [e] :=
  fun files _ => h files

/-- The socket is kept and in blocking mode. -/
structure SocketPassed (fd : ℕ) (events : List ChildEvent) : Prop where
  kept : fd = listenFd → Done (.clearCloseOnExec fd) events
  blocking : ∃ flags, .called (.getFlags listenFd) (.ok flags) ∈ events ∧
    Done (.setFlags listenFd (flags.ldiff oNonblock)) events

/-- The terminal is open, the controlling one and in blocking mode. -/
structure TerminalTaken (tty : ChildTty) (fd : ℕ) (events : List ChildEvent) : Prop where
  opened : .called (.openTty tty.path) (.ok fd) ∈ events
  controlling : Done (.setControllingTerminal fd) events
  blocking : ∃ flags, .called (.getFlags fd) (.ok flags) ∈ events ∧
    Done (.setFlags fd (flags.ldiff oNonblock)) events

/-- The pid is in the cgroup, as text. -/
def Joined (k : ChildKernel) (procs : String) (events : List ChildEvent) : Prop :=
  ∃ fd, .called (.openProcs procs) (.ok fd) ∈ events ∧
    .called (.write fd (lowDigits 11 k.pid).reverse)
      (.ok (lowDigits 11 k.pid).reverse.length) ∈ events

/-- The descriptors with a socket passed. -/
def passed (fd : ℕ) (files : FdTable) : FdTable := fun x =>
  if x = listenFd then (files fd).map Descriptor.kept else files x

/-- The descriptors with the output redirected, which may be on one of its targets. -/
def redirected (fd : ℕ) (files : FdTable) : FdTable := fun x =>
  if (x = 1 ∨ x = 2) ∧ x ≠ fd then (files fd).map Descriptor.kept else files x

/-- The descriptors with a terminal taken. -/
def taken (path : String) (files : FdTable) : FdTable := fun x =>
  if x ≤ 2 then some ⟨.opened path, false⟩ else files x

section Growing

variable {events events' : List ChildEvent} (hsub : events ⊆ events')

include hsub

theorem Done.mono {call : ChildCall} (h : Done call events) : Done call events' :=
  h.imp fun _ h => hsub h

theorem SocketPassed.mono {fd : ℕ} (h : SocketPassed fd events) : SocketPassed fd events' where
  kept hfd := (h.kept hfd).mono hsub
  blocking := h.blocking.imp fun _ h => ⟨hsub h.1, h.2.mono hsub⟩

theorem TerminalTaken.mono {tty : ChildTty} {fd : ℕ} (h : TerminalTaken tty fd events) :
    TerminalTaken tty fd events' where
  opened := hsub h.opened
  controlling := h.controlling.mono hsub
  blocking := h.blocking.imp fun _ h => ⟨hsub h.1, h.2.mono hsub⟩

theorem Joined.mono {k : ChildKernel} {procs : String} (h : Joined k procs events) :
    Joined k procs events' := h.imp fun _ h => ⟨hsub h.1, hsub h.2⟩

end Growing

namespace Attempts

variable {k : ChildKernel}

theorem passSocket (fd : ℕ) : Attempts (ChildM.passSocket k fd) fun _ new =>
    SocketPassed fd new ∧ Moves (passed fd) new := by
  refine (require _ _).bind fun _ new h => ?_
  obtain ⟨n, rfl⟩ := h
  refine (orDie _ _).bind fun flags new h => ?_
  subst h
  refine (require _ _).mono fun _ new h => ?_
  obtain ⟨n', rfl⟩ := h
  refine ⟨⟨fun h => ⟨n, by simp [h]⟩, flags, by simp, n', by simp⟩, fun files _ => ?_⟩
  funext x
  by_cases hfd : fd = listenFd <;> simp [hfd, FdTable.after, passed, Function.update_apply]

theorem redirectOutput (fd : ℕ) : Attempts (ChildM.redirectOutput k fd) fun _ new =>
    Moves (redirected fd) new := by
  refine (require _ _).bind fun _ new h => ?_
  obtain ⟨n, rfl⟩ := h
  refine (require _ _).mono fun _ new h files _ => ?_
  obtain ⟨n', rfl⟩ := h
  funext x
  -- the descriptor may be the one or the other target
  by_cases h₁ : fd = 1
  · by_cases hx : x = 2 <;> simp [h₁, FdTable.after, redirected, hx]
  · by_cases h₂ : fd = 2
    · by_cases hx : x = 1 <;> simp [h₂, FdTable.after, redirected, hx]
    · simp only [List.cons_append, List.nil_append, descriptors_cons, descriptors_nil,
        FdTable.after, if_neg h₁, if_neg h₂, Function.update_apply, redirected]
      split_ifs <;> first | rfl | omega

/-- A part that is only there on a condition. -/
theorem onlyIf {condition : Bool} {part : ChildM Unit} {Q : List ChildEvent → Prop}
    {move : FdTable → FdTable} (h : Attempts part fun _ new => Q new ∧ Moves move new) :
    Attempts (ChildM.onlyIf condition part) fun _ new => (condition = true → Q new) ∧
      Moves (fun files => if condition then move files else files) new := by
  unfold ChildM.onlyIf
  split
  · next hc => exact h.mono fun _ _ hQ => ⟨fun _ => hQ.1, by simpa [hc] using hQ.2⟩
  · next hc => exact pure ⟨fun h => absurd h hc, fun _ _ => rfl⟩

/-- A part that is only there if the setup asks for it. -/
theorem forM {γ : Type} {o : Option γ} {part : γ → ChildM Unit} {Q : γ → List ChildEvent → Prop}
    {moves : γ → FdTable → FdTable}
    (h : ∀ x, Attempts (part x) fun _ new => Q x new ∧ Moves (moves x) new) :
    Attempts (o.forM part) fun _ new => (∀ x, o = some x → Q x new) ∧
      Moves (fun files => o.elim files fun x => moves x files) new := by
  cases o with
  | none => exact pure ⟨fun _ h => (nomatch h), fun _ _ => rfl⟩
  | some x => exact (h x).mono fun _ _ hQ => ⟨fun y hy => Option.some.inj hy ▸ hQ.1, hQ.2⟩

theorem run_of {call : ChildCall} (move : FdTable → FdTable)
    (h : ∀ (files : FdTable) answer, files.after (.called call answer) = move files) :
    Attempts (ChildM.run k call) fun _ new => True ∧ Moves move new := by
  refine (run _).mono fun _ new hnew => ⟨trivial, ?_⟩
  obtain ⟨answer, rfl⟩ := hnew
  exact moves_singleton fun files => h files answer

theorem require_of {step : ChildStep} {call : ChildCall}
    (h : ∀ (files : FdTable) answer, files.after (.called call answer) = files) :
    Attempts (ChildM.require k step call) fun _ new =>
      Done call new ∧ Moves (fun files => files) new := by
  refine (require _ _).mono fun _ new hnew => ?_
  obtain ⟨n, rfl⟩ := hnew
  exact ⟨⟨n, by simp⟩, moves_singleton fun files => h files _⟩

/-- What the command keeps anyway is duplicated as it is. -/
theorem after_dup2 {files : FdTable} {fd n : ℕ} {d : Descriptor} (h : files fd = some d)
    (hd : d.cloexec = false) (target : ℕ) :
    files.after (.called (.dup2 fd target) (.ok n)) = Function.update files target (some d) := by
  unfold FdTable.after
  dsimp only
  split
  · next heq => rw [← heq, ← h, Function.update_eq_self]
  · have hkept : d.kept = d := by
      rw [Descriptor.kept, ← hd]
    rw [h, Option.map_some, hkept]

/-- It comes in the place of all standard descriptors, and of those it may be one itself. -/
theorem after_standard {files : FdTable} {fd : ℕ} {d : Descriptor} (h : files fd = some d)
    (hd : d.cloexec = false) (n₀ n₁ n₂ : ℕ) :
    ((files.after (.called (.dup2 fd 0) (.ok n₀))).after (.called (.dup2 fd 1) (.ok n₁))).after
      (.called (.dup2 fd 2) (.ok n₂)) = fun x => if x ≤ 2 then some d else files x := by
  have hstays {files : FdTable} (h : files fd = some d) (target : ℕ) :
      Function.update files target (some d) fd = some d := by
    rw [Function.update_apply, h, ite_self]
  rw [after_dup2 h hd, after_dup2 (hstays h 0) hd, after_dup2 (hstays (hstays h 0) 1) hd]
  funext x
  simp only [Function.update_apply]
  split_ifs <;> first | rfl | omega

theorem setupTty (tty : ChildTty) : Attempts (ChildM.setupTty k tty) fun _ new =>
    (∃ fd, TerminalTaken tty fd new) ∧ Moves (taken tty.path) new := by
  refine (orDie _ _).bind fun fd opened hopened => ?_
  refine (onlyIf (run_of _ fun _ _ => rfl)).bind fun _ hungUp hhungUp => ?_
  refine (require _ _).bind fun _ controlling hcontrolling => ?_
  refine (require _ _).bind fun _ input hinput => ?_
  refine (require _ _).bind fun _ output houtput => ?_
  refine (require _ _).bind fun _ errors herrors => ?_
  refine (orDie _ _).bind fun flags asked hasked => ?_
  refine (require _ _).bind fun _ set hset => ?_
  refine (onlyIf (run_of (fun files => Function.update files fd none)
    fun _ _ => rfl)).mono fun _ closed hclosed => ?_
  obtain ⟨n, rfl⟩ := hcontrolling
  obtain ⟨n₀, rfl⟩ := hinput
  obtain ⟨n₁, rfl⟩ := houtput
  obtain ⟨n₂, rfl⟩ := herrors
  obtain ⟨n', rfl⟩ := hset
  subst hopened hasked
  refine ⟨⟨fd, by simp, ⟨n, by simp⟩, flags, by simp, n', by simp⟩, fun files hopens => ?_⟩
  have hfree : files fd = none := hopens.1 fd rfl
  have hsame (call : ChildCall) (m : ℕ)
      (h : ∀ files : FdTable, files.after (.called call (.ok m)) = files) :
      Moves (fun files => files) [.called call (.ok m)] := moves_singleton h
  have hdup (target m : ℕ) : Moves (fun files => files.after (.called (.dup2 fd target) (.ok m)))
      [.called (.dup2 fd target) (.ok m)] := moves_singleton fun _ => rfl
  have hmoves := (moves_singleton (e := .called (.openTty tty.path) (.ok fd)) fun _ => rfl).append
    (hhungUp.2.append ((hsame (.setControllingTerminal fd) n fun _ => rfl).append
      ((hdup 0 n₀).append ((hdup 1 n₁).append ((hdup 2 n₂).append
        ((hsame (.getFlags fd) flags fun _ => rfl).append
          ((hsame (.setFlags fd (flags.ldiff oNonblock)) n' fun _ => rfl).append hclosed.2)))))))
  have hopened : files.after (.called (.openTty tty.path) (.ok fd)) fd =
      some ⟨.opened tty.path, false⟩ := Function.update_self ..
  rw [hmoves files hopens]
  simp only [ite_self, decide_eq_true_eq, after_standard hopened rfl]
  funext x
  have hold (hx : x ≠ fd) : files.after (.called (.openTty tty.path) (.ok fd)) x = files x :=
    Function.update_of_ne hx ..
  unfold taken
  by_cases hx : x = fd
  · subst hx
    by_cases hle : x ≤ 2
    · rw [if_neg (Nat.not_lt.mpr hle), if_pos hle, if_pos hle]
    · -- it is closed again, and was not in use before
      rw [if_pos (Nat.not_le.mp hle), Function.update_self, if_neg hle, hfree]
  · by_cases hfd : 2 < fd
    · rw [if_pos hfd, Function.update_of_ne hx, hold hx]
    · rw [if_neg hfd, hold hx]

theorem joinFromChild (procs : String) : Attempts (ChildM.joinFromChild k procs) fun _ new =>
    Joined k procs new ∧ Moves (fun files => files) new := by
  refine (orDie _ _).bind fun fd opened hopened => ?_
  refine (sys _).bind fun written wrote hwrote => ?_
  refine (run _).bind fun _ closed hclosed => ?_
  obtain ⟨hwrote, hle⟩ := hwrote
  obtain ⟨answer, rfl⟩ := hclosed
  subst hopened hwrote
  cases written with
  | error e => exact dieReporting (isErrno_of_le (hle e rfl))
  | ok n =>
    dsimp only
    split
    · next hn =>
      subst hn
      refine pure ⟨⟨fd, by simp, by simp⟩, fun files hopens => ?_⟩
      -- the descriptor is closed again, and was not in use before
      have hfree : files fd = none := hopens.1 fd rfl
      simp [FdTable.after, ← hfree]
    · exact dieReporting (isErrno_of_le (by decide))

end Attempts

/-- The descriptors that a setup asks for : the terminal comes after the redirection, and the
socket before it. -/
def ChildSetup.wired (setup : ChildSetup) (files : FdTable) : FdTable :=
  let files := Function.update files setup.reportRead none
  let files := setup.listenFd.elim files fun fd => passed fd files
  let files := setup.stdio.elim files fun fd => redirected fd files
  setup.tty.elim files fun tty => taken tty.path files

/-- A child that has made all the calls its setup asks for. -/
structure Prepared (k : ChildKernel) (setup : ChildSetup) (events : List ChildEvent) : Prop where
  session : setup.newSession = true → Done .setsid events
  socket : ∀ fd, setup.listenFd = some fd → SocketPassed fd events
  terminal : ∀ tty, setup.tty = some tty → ∃ fd, TerminalTaken tty fd events
  wires : Moves setup.wired events
  directory : ∀ directory, setup.workingDirectory = some directory → Done (.chdir directory) events
  cgroup : ∀ procs, setup.cgroupProcs = some procs → Joined k procs events

theorem Attempts.prepare {k : ChildKernel} (setup : ChildSetup) :
    Attempts (ChildM.prepare k setup) fun _ => Prepared k setup := by
  refine (run_of _ fun _ _ => rfl).bind fun _ closed hclosed => ?_
  refine (run_of _ fun _ _ => rfl).bind fun _ reset hreset => ?_
  refine (onlyIf (require_of fun _ _ => rfl)).bind fun _ session hsession => ?_
  refine (forM passSocket).bind fun _ socket hsocket => ?_
  refine (forM fun fd => (redirectOutput fd).mono fun _ _ h => ⟨trivial, h⟩).bind
    fun _ output houtput => ?_
  refine (forM setupTty).bind fun _ terminal hterminal => ?_
  refine (forM fun _ => require_of fun _ _ => rfl).bind fun _ directory hdirectory => ?_
  refine (forM joinFromChild).mono fun _ cgroup hcgroup => ?_
  have hkeep {γ : Type} (o : Option γ) (files : FdTable) :
      (o.elim files fun _ => files) = files := by
    cases o <;> rfl
  have hmoves := hclosed.2.append (hreset.2.append (hsession.2.append (hsocket.2.append
    (houtput.2.append (hterminal.2.append (hdirectory.2.append hcgroup.2))))))
  refine ⟨fun h => (hsession.1 h).mono ?_, fun fd h => (hsocket.1 fd h).mono ?_, fun tty h => ?_,
    fun files hopens => ?_, fun d h => (hdirectory.1 d h).mono ?_,
    fun procs h => (hcgroup.1 procs h).mono ?_⟩
  · exact fun e he => by simp [he]
  · exact fun e he => by simp [he]
  · exact (hterminal.1 tty h).imp fun _ h => h.mono fun e he => by simp [he]
  · rw [hmoves files hopens]
    simp only [hkeep, ite_self]
    rfl
  · exact fun e he => by simp [he]
  · exact fun e he => by simp [he]

/-! ## The whole run -/

namespace CredentialKernel

variable {k : CredentialKernel} {c : Credentials} {e : SyscallError}

section Errnos

variable (hle : ∀ {q c e}, k.answer q c = some e → e ≤ maxErrno)

include hle

theorem isErrno_of_call {op : String} {q : CredentialCall} (h : k.call op q c = .error e) :
    IsErrno e.errno := by
  unfold call at h
  split at h
  · next errno ha =>
    cases h
    exact isErrno_of_le (hle ha)
  · cases h

theorem isErrno_of_dropOthers {keep : List ℕ} : ∀ {caps : List ℕ} {c : Credentials},
    k.dropOthers keep caps c = .error e → IsErrno e.errno
  | [], _, h => nomatch h
  | cap :: caps, c, h => by
    unfold dropOthers at h
    split at h
    · exact isErrno_of_dropOthers h
    · split at h
      · exact isErrno_of_dropOthers h
      · next errno ha =>
        split at h
        · cases h
        · cases h
          exact isErrno_of_le (hle ha)

theorem isErrno_of_runStep {s : Sandbox} {step : SandboxStep} (h : k.runStep s step c = .error e) :
    IsErrno e.errno := by
  cases step with
  | noNewPrivileges | keepCapabilities | setGroup | setGroups | setUser =>
    exact isErrno_of_call hle h
  | setBoundingSet => exact isErrno_of_dropOthers hle h
  | setInheritable =>
    change k.setInheritable _ c = _ at h
    unfold setInheritable at h
    cases hget : k.call "capget" .capget c with
    | error e' =>
      rw [hget] at h
      cases h
      exact isErrno_of_call hle hget
    | ok read =>
      rw [hget] at h
      change (addInheritable _ _ >>= _) = _ at h
      cases hadd : addInheritable (s.ambient.getD []) read.inheritable with
      | error e' =>
        rw [hadd] at h
        cases h
        obtain ⟨cap, -, inheritable, hcap⟩ := Runs.foldlM_error hadd
        split at hcap
        · cases hcap
        · cases hcap
          exact isErrno_of_le (by decide)
      | ok inheritable =>
        rw [hadd] at h
        exact isErrno_of_call hle h
  | raiseAmbient =>
    change k.setAmbient _ c = _ at h
    unfold setAmbient at h
    split at h
    · exact isErrno_of_call hle h
    · obtain ⟨cap, -, c', hcap⟩ := Runs.foldlM_error h
      exact isErrno_of_call hle hcap

end Errnos

end CredentialKernel

section Run

variable {k : ChildKernel} {setup : ChildSetup} {c : Credentials}

/-- The steps of the drop go through one by one, or the child dies of one. -/
theorem dropPrivileges_cases (sandbox : Sandbox) : ∀ (steps : List SandboxStep) (child : Child),
    match ChildM.dropPrivileges k sandbox steps child with
    | .ok (_, child') => child'.events = child.events ++ steps.map .dropped ∧
      k.credentials.runSteps sandbox steps child.credentials = .ok child'.credentials
    | .error child' => ∃ (done : List SandboxStep) (step : ChildStep) (errno : ℤ), IsErrno errno ∧
      child'.events =
      child.events ++ done.map .dropped ++ [.told (.failed step errno), .exited 127]
  | [], child => ⟨by simp, rfl⟩
  | step :: steps, child => by
    unfold ChildM.dropPrivileges
    cases hstep : k.credentials.runStep sandbox step child.credentials with
    | error e =>
      exact ⟨[], .fromStep step, e.errno,
        k.credentials.isErrno_of_runStep k.credentials_le hstep, by simp⟩
    | ok c =>
      have ih := dropPrivileges_cases sandbox steps
        { child with credentials := c, events := child.events ++ [.dropped step] }
      dsimp only
      split at ih
      · refine ⟨by simp [ih.1], ?_⟩
        unfold CredentialKernel.runSteps
        rw [List.foldlM_cons, hstep]
        exact ih.2
      · obtain ⟨done, step', errno, herrno, hevents⟩ := ih
        exact ⟨step :: done, step', errno, herrno, by simp [hevents]⟩

/-- How a child ends whose setup is done. -/
inductive Ends (exec : ChildCall) : List ChildEvent → Prop
  | started (n : ℕ) : Ends exec [.told .ready, .called exec (.ok n)]
  | unstarted {e : Errno} (h : e ≤ maxErrno) :
    Ends exec [.told .ready, .called exec (.error e), .told (.failed .exec e), .exited 127]

/-- What a child has done at its end. -/
inductive Ran (k : ChildKernel) (setup : ChildSetup) (c : Credentials) (child : Child) : Prop
  /-- A step of the setup has failed. -/
  | failed {calls : List ChildEvent} {done : List SandboxStep} {step : ChildStep} {errno : ℤ}
    (hcalls : Calls calls) (herrno : IsErrno errno) (hevents : child.events =
      calls ++ done.map .dropped ++ [.told (.failed step errno), .exited 127])
  /-- The setup is done. -/
  | through {calls ending : List ChildEvent} (hcalls : Calls calls)
    (hprepared : Prepared k setup calls)
    (hdropped : k.credentials.runSteps setup.sandbox setup.sandbox.steps c = .ok child.credentials)
    (hending : Ends (.execve setup.path setup.argv (ChildM.environment k setup)) ending)
    (hevents : child.events = calls ++ setup.sandbox.steps.map .dropped ++ ending)

theorem require_eq (step : ChildStep) (call : ChildCall) (child : Child) :
    ChildM.require k step call child =
      match k.answer child.events call with
      | .ok n => .ok ((), { child with events := child.events ++ [.called call (.ok n)] })
      | .error e => .error { child with
          events := child.events ++ [.called call (.error e)] ++
            [.told (.failed step e), .exited 127] } := by
  change ((match k.answer child.events call with
    | .ok n => pure n
    | .error e => ChildM.dieReporting step e : ChildM ℕ)
      { child with events := child.events ++ [.called call (k.answer child.events call)] } >>= _) = _
  cases k.answer child.events call <;> rfl

theorem childExec_eq (child : Child) : ChildM.childExec k setup child =
    ChildM.prepare k setup child >>= fun x =>
      ChildM.dropPrivileges k setup.sandbox setup.sandbox.steps x.2 >>= fun x =>
        ChildM.require k .exec (.execve setup.path setup.argv (ChildM.environment k setup))
          { x.2 with events := x.2.events ++ [.told .ready] } := rfl

/-- A child has done what its setup asks for or says what it could not do. -/
theorem ran_final (k : ChildKernel) (setup : ChildSetup) (c : Credentials) :
    Ran k setup c (Child.final k setup c) := by
  unfold Child.final
  rw [childExec_eq]
  have hprepare := Attempts.prepare (k := k) setup { credentials := c }
  rcases hp : ChildM.prepare k setup { credentials := c } with child | ⟨_, child⟩ <;>
    rw [hp] at hprepare
  · obtain ⟨calls, step, errno, hcalls, herrno, hevents⟩ := hprepare
    change Ran k setup c child
    exact .failed hcalls herrno (by rwa [List.map_nil, List.append_nil])
  obtain ⟨calls, hcalls, hprepared, rfl⟩ := hprepare
  have hdrop := dropPrivileges_cases (k := k) setup.sandbox setup.sandbox.steps
    { credentials := c, events := [] ++ calls }
  simp only [List.nil_append] at hdrop
  change Ran k setup c (ChildM.ended (ChildM.dropPrivileges k setup.sandbox setup.sandbox.steps
    { credentials := c, events := calls } >>= _))
  rcases hd : ChildM.dropPrivileges k setup.sandbox setup.sandbox.steps
    { credentials := c, events := calls } with child | ⟨_, child⟩ <;> rw [hd] at hdrop
  · obtain ⟨done, step, errno, herrno, hevents⟩ := hdrop
    change Ran k setup c child
    exact .failed hcalls herrno hevents
  obtain ⟨hevents, hdropped⟩ := hdrop
  change Ran k setup c (ChildM.ended (ChildM.require k .exec _
    { child with events := child.events ++ [.told .ready] }))
  rw [require_eq]
  dsimp only
  split
  · next n hanswer =>
    exact .through hcalls hprepared hdropped (.started n) (by simp [ChildM.ended, hevents])
  · next e hanswer =>
    exact .through hcalls hprepared hdropped (.unstarted (k.answer_le hanswer))
      (by simp [ChildM.ended, hevents])

theorem told_append (events events' : List ChildEvent) :
    told (events ++ events') = told events ++ told events' := List.filterMap_append

theorem told_setup {calls : List ChildEvent} (h : Calls calls) (done : List SandboxStep)
    (n : ℕ) : told ((calls ++ done.map ChildEvent.dropped).take n) = [] := by
  refine List.filterMap_eq_nil_iff.mpr fun e he => ?_
  rcases List.mem_append.mp (List.mem_of_mem_take he) with he | he
  · obtain ⟨call, answer, rfl⟩ := h e he
    rfl
  · obtain ⟨step, -, rfl⟩ := List.mem_map.mp he
    rfl

/-- Whenever a child is killed, it has told one of four things. -/
theorem tells_take (n : ℕ) : Tells (told ((Child.final k setup c).events.take n)) := by
  cases ran_final k setup c with
  | @failed calls done step errno hcalls herrno hevents =>
    rw [hevents, List.take_append, told_append, told_setup hcalls, List.nil_append]
    match n - (calls ++ done.map ChildEvent.dropped).length with
    | 0 => exact .nothing
    | 1 => exact .failed step herrno
    | m + 2 =>
      rw [List.take_of_length_le (by simp)]
      exact .failed step herrno
  | @through calls ending hcalls _ _ hending hevents =>
    rw [hevents, List.take_append, told_append, told_setup hcalls, List.nil_append]
    generalize n - (calls ++ setup.sandbox.steps.map ChildEvent.dropped).length = m
    cases hending with
    | started answer =>
      match m with
      | 0 => exact .nothing
      | 1 => exact .ready
      | m + 2 =>
        rw [List.take_of_length_le (by simp)]
        exact .ready
    | @unstarted e he =>
      match m with
      | 0 => exact .nothing
      | 1 => exact .ready
      | 2 => exact .ready
      | 3 => exact .unready .exec (isErrno_of_le he)
      | m + 4 =>
        rw [List.take_of_length_le (by simp)]
        exact .unready .exec (isErrno_of_le he)

/-- What is in the pipe when a child has been killed after so many events, or at its end. -/
def piped (child : Child) (n : ℕ) : List UInt8 :=
  (told (child.events.take n)).flatMap ChildMessage.bytes

theorem fate_of_readReport {turns : List (Turn SyscallError)} {n : ℕ} {r : ChildReport}
    (h : readReport turns (piped (Child.final k setup c) n) = some (.ok r)) :
    r = fate (told ((Child.final k setup c).events.take n)) :=
  (readReport_eq_report h).trans (report_bytes (tells_take n))

theorem readReport_final {turns : List (Turn SyscallError)} (n : ℕ)
    (hstop : ∀ e, .stop e ∉ turns) (hready : 1 + reportLen ≤ readies turns) :
    readReport turns (piped (Child.final k setup c) n) =
      some (.ok (fate (told ((Child.final k setup c).events.take n)))) := by
  rw [readReport_of_ready _ hstop hready]
  exact congrArg (fun r => some (Except.ok r)) (report_bytes (tells_take n))

/-- The parent takes the last thing a child has said for its fate, whenever the child is killed
and however the pipe is read; and a reader that is not stopped gets that far. -/
theorem readReport_eq (k : ChildKernel) (setup : ChildSetup) (c : Credentials) (n : ℕ)
    (turns : List (Turn SyscallError)) :
    (∀ r, readReport turns (piped (Child.final k setup c) n) = some (.ok r) →
      r = fate (told ((Child.final k setup c).events.take n))) ∧
    ((∀ e, .stop e ∉ turns) → 1 + reportLen ≤ readies turns →
      readReport turns (piped (Child.final k setup c) n) =
        some (.ok (fate (told ((Child.final k setup c).events.take n))))) :=
  ⟨fun _ => fate_of_readReport, readReport_final n⟩

/-- What the wait for a child comes to, and whether the child is killed and reaped for it. -/
def waitBlocking (pid : Pid) : Except SyscallError ChildReport → Except SyscallError Pid × Bool
  | .ok .exec => (.ok pid, false)
  | .ok (.failed step errno) => (.error { op := step.op, errno := errno }, true)
  | .ok .diedBeforeExec =>
    (.error { op := "child setup (process died before exec)", errno := eIo }, true)
  | .error e => (.error e, true)

/-- A child has become the command, or is killed on the last step there. -/
structure Started (k : ChildKernel) (setup : ChildSetup) (c : Credentials) (child : Child)
    (n : ℕ) : Prop where
  /-- Everything is set up before the first privilege is given up. -/
  events : ∃ calls ending, Calls calls ∧ Prepared k setup calls ∧
    child.events.take n =
      calls ++ setup.sandbox.steps.map ChildEvent.dropped ++ .told .ready :: ending ∧
    (ending = [] ∨ ∃ answer, ending =
      [.called (.execve setup.path setup.argv (ChildM.environment k setup)) answer]) ∧
    (child.events.length ≤ n → ∃ answer, ending =
      [.called (.execve setup.path setup.argv (ChildM.environment k setup)) (.ok answer)])
  credentials : child.credentials = setup.sandbox.applied c

/-- A child whose last word is that all is set up has set up all. -/
theorem started_of_fate {n : ℕ} (hfit : k.credentials.Fits c)
    (hfate : .exec = fate (told ((Child.final k setup c).events.take n))) :
    Started k setup c (Child.final k setup c) n := by
  cases ran_final k setup c with
  | @failed calls done step errno hcalls herrno hevents =>
    rw [hevents, List.take_append, told_append, told_setup hcalls, List.nil_append] at hfate
    match n - (calls ++ done.map ChildEvent.dropped).length, hfate with
    | 0, hfate => cases hfate
    | 1, hfate => cases hfate
    | m + 2, hfate =>
      rw [List.take_of_length_le (by simp)] at hfate
      cases hfate
  | @through calls ending hcalls hprepared hdropped hending hevents =>
    refine ⟨?_, CredentialKernel.runSteps_eq_applied hfit hdropped⟩
    set quiet := calls ++ setup.sandbox.steps.map ChildEvent.dropped with hquiet
    rw [hevents, List.take_append, told_append, told_setup hcalls, List.nil_append] at hfate
    have hlt : 0 < n - quiet.length := by
      by_contra hzero
      rw [Nat.eq_zero_of_not_pos hzero, List.take_zero] at hfate
      cases hfate
    obtain ⟨m, hm⟩ := Nat.exists_eq_succ_of_ne_zero hlt.ne'
    obtain ⟨tail, rfl⟩ : ∃ tail, ending = .told .ready :: tail := by
      cases hending <;> exact ⟨_, rfl⟩
    have htake : (Child.final k setup c).events.take n = quiet ++ .told .ready :: tail.take m := by
      rw [hevents, List.take_append, List.take_of_length_le (by omega), hm, List.take_succ_cons]
    rw [hm, List.take_succ_cons] at hfate
    refine ⟨calls, tail.take m, hcalls, hprepared, htake, ?_, fun hle => ?_⟩
    · match m, hfate with
      | 0, _ => exact .inl List.take_zero
      | 1, _ => cases hending <;> exact .inr ⟨_, rfl⟩
      | m + 2, hfate =>
        cases hending with
        | started answer => exact .inr ⟨_, List.take_of_length_le (by simp)⟩
        | unstarted he =>
          -- it has said that the exec failed
          match m, hfate with
          | 0, hfate => cases hfate
          | m + 1, hfate =>
            rw [List.take_of_length_le (by simp)] at hfate
            cases hfate
    · have hwhole : tail.length ≤ m := by
        rw [hevents, List.length_append, List.length_cons] at hle
        omega
      rw [List.take_of_length_le hwhole] at hfate ⊢
      cases hending with
      | started answer => exact ⟨answer, rfl⟩
      | unstarted he => cases hfate

/-- A child that is taken for started has done all that its unit asks for, and has the
credentials of its sandbox. -/
theorem started_of_waitBlocking {n : ℕ} {turns : List (Turn SyscallError)}
    {r : Except SyscallError ChildReport} {pid : Pid} (hfit : k.credentials.Fits c)
    (hread : readReport turns (piped (Child.final k setup c) n) = some r)
    (hwait : (waitBlocking pid r).1 = .ok pid) : Started k setup c (Child.final k setup c) n := by
  obtain rfl : r = .ok .exec := by
    unfold waitBlocking at hwait
    split at hwait <;> first | rfl | cases hwait
  exact started_of_fate hfit (fate_of_readReport hread)

/-! ### What the service finds -/

theorem descriptors_eq_self {files : FdTable} {events : List ChildEvent}
    (h : ∀ e ∈ events, ∀ files : FdTable, files.after e = files) :
    descriptors files events = files := by
  refine Runs.foldl_induction (P := fun _ files' => files' = files) rfl
    fun done e rest files' hl hfiles => ?_
  rw [h e (by rw [hl]; simp), hfiles]

/-- What a parent hands to its child is there, and not mixed up : the output is not on the number
that the socket is moved to, and is not to be closed on exec where it is to stay. -/
structure Provided (setup : ChildSetup) (parent : ℕ → Option Bool) : Prop where
  socket : ∀ fd, setup.listenFd = some fd → (parent fd).isSome ∧ fd ≠ setup.reportRead
  output : ∀ fd, setup.stdio = some fd → (parent fd).isSome ∧ fd ≠ setup.reportRead
  apart : ∀ socket fd, setup.listenFd = some socket → setup.stdio = some fd →
    fd = listenFd → socket = listenFd
  stays : ∀ fd, setup.stdio = some fd → fd = 1 ∨ fd = 2 → parent fd = some false

/-- What a command finds where its child has moved nothing to : what its parent has there and is
not closed on exec. -/
def ChildSetup.left (setup : ChildSetup) (parent : ℕ → Option Bool) (fd : ℕ) : Option File :=
  if parent fd = some false ∧ fd ≠ setup.reportRead then some (.inherited fd) else none

/-- What a service finds on its descriptors and in its environment. -/
structure Finds (k : ChildKernel) (setup : ChildSetup) (parent : ℕ → Option Bool)
    (found : ℕ → Option File) : Prop where
  socket : ∀ fd, setup.listenFd = some fd → found listenFd = some (.inherited fd)
  terminal : ∀ tty, setup.tty = some tty → ∀ fd ≤ 2, found fd = some (.opened tty.path)
  output : setup.tty = none → ∀ fd, setup.stdio = some fd →
    found 1 = some (.inherited fd) ∧ found 2 = some (.inherited fd)
  others : ∀ fd, (setup.listenFd.isSome → fd ≠ listenFd) → (setup.tty.isSome → 2 < fd) →
    (setup.stdio.isSome → fd ≠ 1 ∧ fd ≠ 2) → found fd = setup.left parent fd
  listenPid : setup.listenFd.isSome → (ChildM.environment k setup).filter (fun e =>
    "LISTEN_PID=".toList.isPrefixOf e.toList) =
      ["LISTEN_PID=" ++ String.ofList (Nat.toDigits 10 k.pid)]

/-- A service that is handed a socket is told its own pid, once. -/
theorem environment_listenPid (hsocket : setup.listenFd.isSome) :
    (ChildM.environment k setup).filter (fun e => "LISTEN_PID=".toList.isPrefixOf e.toList) =
      ["LISTEN_PID=" ++ String.ofList (Nat.toDigits 10 k.pid)] := by
  have hpid : k.pid < 10 ^ 20 := k.pid_lt.trans (by decide)
  unfold ChildM.environment
  rw [reverse_lowDigits hpid (by decide), hsocket, List.filter_append, List.filter_filter]
  simp

section Wired

variable {parent : ℕ → Option Bool} {fd : ℕ}

/-- The descriptors of a child when it begins to move them. -/
def ChildSetup.opened (setup : ChildSetup) (parent : ℕ → Option Bool) : FdTable :=
  Function.update (FdTable.forked parent) setup.reportRead none

theorem opened_of_isSome (h : (parent fd).isSome ∧ fd ≠ setup.reportRead) :
    ∃ d : Descriptor, setup.opened parent fd = some d ∧ d.file = .inherited fd ∧
      some d.cloexec = parent fd := by
  obtain ⟨cloexec, hfd⟩ := Option.isSome_iff_exists.mp h.1
  refine ⟨⟨.inherited fd, cloexec⟩, ?_, rfl, hfd.symm⟩
  unfold ChildSetup.opened
  rw [Function.update_of_ne h.2, FdTable.forked, hfd]
  rfl

theorem executed_opened (fd : ℕ) :
    (setup.opened parent).executed fd = setup.left parent fd := by
  unfold FdTable.executed ChildSetup.opened ChildSetup.left
  by_cases hreport : fd = setup.reportRead
  · simp [hreport]
  · rw [Function.update_of_ne hreport, FdTable.forked]
    cases parent fd with
    | none => simp
    | some cloexec => cases cloexec <;> simp [hreport]

/-- A copy is found. -/
theorem executed_of_kept {files : FdTable} {d : Descriptor} (h : files fd = some d.kept) :
    files.executed fd = some d.file := by
  unfold FdTable.executed
  rw [h]
  rfl

theorem wired_socket (hs : Provided setup parent) {socket : ℕ}
    (hsocket : setup.listenFd = some socket) :
    (setup.wired (.forked parent)).executed listenFd = some (.inherited socket) := by
  obtain ⟨d, hd, hfile, -⟩ := opened_of_isSome (hs.socket socket hsocket)
  rw [← hfile]
  refine executed_of_kept ?_
  have hpassed : passed socket (setup.opened parent) listenFd = some d.kept := by
    rw [passed, if_pos rfl, hd, Option.map_some]
  -- neither the output nor the terminal is moved to the descriptor of the socket
  have hredirected (fd : ℕ) (files : FdTable) : redirected fd files listenFd = files listenFd := by
    rw [redirected, if_neg fun h => absurd h.1 (by decide)]
  have htaken (path : String) (files : FdTable) : taken path files listenFd = files listenFd := by
    rw [taken, if_neg (by decide)]
  unfold ChildSetup.wired
  cases htty : setup.tty <;> cases hstdio : setup.stdio <;>
    simp only [hsocket, Option.elim_some, Option.elim_none, hredirected, htaken] <;> exact hpassed

theorem wired_output (hs : Provided setup parent) (htty : setup.tty = none)
    (houtput : setup.stdio = some fd) {target : ℕ} (ht : target = 1 ∨ target = 2) :
    (setup.wired (.forked parent)).executed target = some (.inherited fd) := by
  obtain ⟨d, hd, hfile, hcloexec⟩ := opened_of_isSome (hs.output fd houtput)
  -- the socket does not come in the place of the output
  have hpassed : ∃ d', (setup.listenFd.elim (setup.opened parent) fun socket =>
      passed socket (setup.opened parent)) fd = some d' ∧ d'.file = .inherited fd ∧
        (fd = target → d'.cloexec = false) := by
    have hstays (h : fd = target) : d.cloexec = false := by
      have hfalse := hs.stays fd houtput (h ▸ ht)
      rw [hfalse] at hcloexec
      exact Option.some.inj hcloexec
    cases hsocket : setup.listenFd with
    | none => exact ⟨d, hd, hfile, hstays⟩
    | some socket =>
      by_cases hfd : fd = listenFd
      · have hsame := hs.apart socket fd hsocket houtput hfd
        refine ⟨d.kept, ?_, hfile, fun _ => rfl⟩
        rw [Option.elim_some, passed, if_pos hfd, hsame, ← hfd, hd, Option.map_some]
      · refine ⟨d, ?_, hfile, hstays⟩
        rw [Option.elim_some, passed, if_neg hfd, hd]
  obtain ⟨d', hd', hfile', hcloexec'⟩ := hpassed
  unfold ChildSetup.wired
  rw [htty, houtput]
  simp only [Option.elim_some, Option.elim_none]
  change (redirected fd (setup.listenFd.elim (setup.opened parent) fun socket =>
    passed socket (setup.opened parent))).executed target = _
  by_cases hsame : fd = target
  · subst hsame
    unfold FdTable.executed
    rw [redirected, if_neg fun h => h.2 rfl, hd', Option.bind_some, hcloexec' rfl, hfile']
    rfl
  · rw [← hfile']
    refine executed_of_kept ?_
    rw [redirected, if_pos ⟨ht, fun h => hsame h.symm⟩, hd', Option.map_some]

theorem wired_others (hsocket : setup.listenFd.isSome → fd ≠ listenFd)
    (htty : setup.tty.isSome → 2 < fd) (houtput : setup.stdio.isSome → fd ≠ 1 ∧ fd ≠ 2) :
    setup.wired (.forked parent) fd = setup.opened parent fd := by
  have hpassed : (setup.listenFd.elim (setup.opened parent) fun socket =>
      passed socket (setup.opened parent)) fd = setup.opened parent fd := by
    cases h : setup.listenFd with
    | none => rfl
    | some socket => exact if_neg (hsocket (by rw [h]; rfl))
  have hredirected (files : FdTable) :
      (setup.stdio.elim files fun out => redirected out files) fd = files fd := by
    cases h : setup.stdio with
    | none => rfl
    | some out =>
      obtain ⟨h₁, h₂⟩ := houtput (by rw [h]; rfl)
      exact if_neg fun h => h.1.elim h₁ h₂
  have htaken (files : FdTable) :
      (setup.tty.elim files fun tty => taken tty.path files) fd = files fd := by
    cases h : setup.tty with
    | none => rfl
    | some tty => exact if_neg (Nat.not_le.mpr (htty (by rw [h]; rfl)))
  unfold ChildSetup.wired
  rw [htaken, hredirected]
  exact hpassed

end Wired

/-- A service finds its socket, its terminal and its output where it looks for them, and beside
them only what its parent does not close on exec, if what it is handed is there and the kernel
opens files on descriptors that are not in use. -/
theorem finds_of_started {n : ℕ} {parent : ℕ → Option Bool}
    (h : Started k setup c (Child.final k setup c) n) (hs : Provided setup parent)
    (hunused : OpensUnused (.forked parent) ((Child.final k setup c).events.take n)) :
    Finds k setup parent
      (descriptors (.forked parent) ((Child.final k setup c).events.take n)).executed := by
  obtain ⟨calls, ending, hcalls, hprepared, hevents, hending, -⟩ := h.events
  have hrest : ∀ files, descriptors files
      (setup.sandbox.steps.map ChildEvent.dropped ++ .told .ready :: ending) = files := by
    refine fun files => descriptors_eq_self fun e he files => ?_
    rcases List.mem_append.mp he with he | he
    · obtain ⟨step, -, rfl⟩ := List.mem_map.mp he
      rfl
    · rcases List.mem_cons.mp he with rfl | he
      · rfl
      · obtain rfl | ⟨answer, rfl⟩ := hending
        · cases he
        · obtain rfl := List.mem_singleton.mp he
          rfl
  rw [hevents, List.append_assoc, opensUnused_append] at hunused
  rw [hevents, List.append_assoc, descriptors_append, hrest, hprepared.wires _ hunused.1]
  refine ⟨fun socket => wired_socket hs, fun tty ht fd hfd => ?_, fun ht fd ho => ?_,
    fun fd hsocket htty houtput => ?_, environment_listenPid⟩
  · unfold ChildSetup.wired FdTable.executed
    rw [ht]
    simp only [Option.elim_some, taken, if_pos hfd, Option.bind_some, Bool.false_eq_true, if_false]
  · exact ⟨wired_output hs ht ho (.inl rfl), wired_output hs ht ho (.inr rfl)⟩
  · rw [← executed_opened, FdTable.executed, wired_others hsocket htty houtput]
    rfl

end Run

/-! ### A web server -/

/-- A kernel that lets everything through. -/
def obligingKernel : ChildKernel where
  credentials := .commoncap 40 (by decide)
  pid := 117
  pid_lt := by decide
  answer _ call :=
    match call with
    | .write _ text => .ok text.length
    | .openTty _ => .ok 9
    | .openProcs _ => .ok 10
    | .getFlags _ => .ok 2050
    | _ => .ok 0
  answer_le h := by
    split at h <;> cases h
  credentials_le {call c e} h := by
    simp only [CredentialKernel.commoncap] at h
    split_ifs at h <;> cases h <;> decide

/-- The setup of a server with a socket, a log and limits. -/
def wwwSetup : ChildSetup where
  path := "/bin/httpd"
  argv := ["httpd"]
  envp := ["LISTEN_PID=1", "HOME=/"]
  newSession := true
  listenFd := some 7
  stdio := some 8
  workingDirectory := some "/srv"
  sandbox := { uid := 33, gid := 33, groups := some [33], noNewPrivileges := true }
  cgroupProcs := some "/sys/fs/cgroup/rinit/httpd.service/cgroup.procs"
  tty := none
  reportRead := 5

theorem fate_www : .exec = fate (told ((Child.final obligingKernel wwwSetup
    CredentialKernel.rootCredentials).events.take 100)) := by
  decide +kernel

theorem started_www : Started obligingKernel wwwSetup CredentialKernel.rootCredentials
    (Child.final obligingKernel wwwSetup CredentialKernel.rootCredentials) 100 :=
  started_of_fate CredentialKernel.fits_root fate_www

theorem readReport_www : readReport (List.replicate 9 (.ready 0))
    (piped (Child.final obligingKernel wwwSetup CredentialKernel.rootCredentials) 100) =
      some (.ok .exec) := by
  rw [fate_www]
  exact readReport_final 100 (fun e he => nomatch List.eq_of_mem_replicate he) (by decide)

theorem waitBlocking_www : Started obligingKernel wwwSetup CredentialKernel.rootCredentials
    (Child.final obligingKernel wwwSetup CredentialKernel.rootCredentials) 100 :=
  started_of_waitBlocking CredentialKernel.fits_root readReport_www
    (show (waitBlocking 117 (.ok .exec)).1 = .ok 117 from rfl)

/-- The same with a terminal, which comes in the place of its log. -/
def consoleSetup : ChildSetup :=
  { wwwSetup with tty := some { path := "/dev/ttyS0", reset := true } }

theorem started_console : Started obligingKernel consoleSetup CredentialKernel.rootCredentials
    (Child.final obligingKernel consoleSetup CredentialKernel.rootCredentials) 100 :=
  started_of_fate CredentialKernel.fits_root (by decide +kernel)

/-- The descriptors of rinit : beside the standard ones, all are closed on exec. -/
def rinitTable (fd : ℕ) : Option Bool :=
  if fd ≤ 2 then some false else if fd ≤ 8 then some true else none

theorem provided_www : Provided wwwSetup rinitTable where
  socket fd h := by
    cases h
    decide
  output fd h := by
    cases h
    decide
  apart socket fd _ h hfd := by
    cases h
    cases hfd
  stays fd h hfd := by
    cases h
    cases hfd <;> contradiction

theorem provided_console : Provided consoleSetup rinitTable :=
  ⟨provided_www.socket, provided_www.output, provided_www.apart, provided_www.stays⟩

theorem finds_www :
    Finds obligingKernel wwwSetup rinitTable (descriptors (.forked rinitTable) ((Child.final
      obligingKernel wwwSetup CredentialKernel.rootCredentials).events.take 100)).executed ∧
    Finds obligingKernel consoleSetup rinitTable (descriptors (.forked rinitTable) ((Child.final
      obligingKernel consoleSetup CredentialKernel.rootCredentials).events.take 100)).executed :=
  ⟨finds_of_started started_www provided_www (by decide +kernel),
    finds_of_started started_console provided_console (by decide +kernel)⟩

end Rinit
