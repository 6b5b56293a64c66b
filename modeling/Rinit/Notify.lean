import Rinit.Codec
import Rinit.Flows

/-!
# Notify sockets

A `Type=notify` service says on a socket of its own that it is up. `parseNotify` reads one
datagram, and `NotifyHub` holds the sockets, the task that reads each of them and the two
queues between the tasks and the main loop : a task takes a datagram off its socket (`read`),
and waits with what it parsed until the queue has room (`post`). The queues outlive the
sockets. Arming a unit again replaces its socket and its task, and takes nothing off a queue.

A message goes with its unit only. Sockets are numbered here in the order they are bound, and
`Posted` keeps the number of the socket a message was sent on.
-/

namespace Rinit

open UnitRuntime (NotifyMessage)
open Codec (isContinuation)

/-! ## Datagrams -/

/-- Why a datagram is rejected. -/
inductive NotifyError where
  | malformed (line : ℕ)
deriving DecidableEq, Repr

def NotifyError.display : NotifyError → String
  | .malformed line => "notify line " ++ toString line ++ " is not KEY=VALUE"

/-- The bytes of an ASCII text. -/
def asciiBytes (s : String) : List UInt8 := s.toList.map fun c => c.toNat.toUInt8

/-- Whether `b` may follow the first byte of a character of three bytes. -/
def follows3 (first b : UInt8) : Bool :=
  if first = 0xE0 then 0xA0 ≤ b && b ≤ 0xBF
  else if first = 0xED then 0x80 ≤ b && b ≤ 0x9F
  else isContinuation b

/-- Whether `b` may follow the first byte of a character of four bytes. -/
def follows4 (first b : UInt8) : Bool :=
  if first = 0xF0 then 0x90 ≤ b && b ≤ 0xBF
  else if first = 0xF4 then 0x80 ≤ b && b ≤ 0x8F
  else isContinuation b

/-- The character a sequence of bytes encodes, the first one already without its length mark. -/
def codePoint (first : ℕ) (rest : List UInt8) : Char :=
  Char.ofNat (rest.foldl (fun n b => n * 64 + b.toNat % 64) first)

def replacement : Char := Char.ofNat 0xFFFD

/-- The next character of a text that begins with `a`, and how many bytes of `rest` belong to
it. A missing byte reads as 0, which continues nothing; a broken beginning becomes one
replacement character. -/
def nextChar (a : UInt8) (rest : List UInt8) : Char × ℕ :=
  let b := rest.getD 0 0
  let c := rest.getD 1 0
  let d := rest.getD 2 0
  if a < 0x80 then (codePoint a.toNat [], 0)
  else if 0xC2 ≤ a && a ≤ 0xDF then
    if isContinuation b then (codePoint (a.toNat % 32) [b], 1) else (replacement, 0)
  else if 0xE0 ≤ a && a ≤ 0xEF then
    if !follows3 a b then (replacement, 0)
    else if !isContinuation c then (replacement, 1)
    else (codePoint (a.toNat % 16) [b, c], 2)
  else if 0xF0 ≤ a && a ≤ 0xF4 then
    if !follows4 a b then (replacement, 0)
    else if !isContinuation c then (replacement, 1)
    else if !isContinuation d then (replacement, 2)
    else (codePoint (a.toNat % 8) [b, c, d], 3)
  else (replacement, 0)

/-- The characters of a text after `skip` bytes. -/
def decodeLossy : ℕ → List UInt8 → List Char
  | _, [] => []
  | skip + 1, _ :: rest => decodeLossy skip rest
  | 0, a :: rest =>
    let next := nextChar a rest
    next.1 :: decodeLossy next.2 rest

/-- `String::from_utf8_lossy`. -/
def fromUtf8Lossy (bytes : List UInt8) : String := String.ofList (decodeLossy 0 bytes)

/-- A line without a carriage return at its end. -/
def stripReturn (raw : List UInt8) : List UInt8 :=
  if raw.getLast? = some 0x0D then raw.dropLast else raw

/-- One assignment of a datagram. -/
def parseNotifyLine (out : NotifyMessage) (raw : List UInt8 × ℕ) :
    Except NotifyError NotifyMessage :=
  let line := stripReturn raw.1
  if line.isEmpty then .ok out
  else
    let key := line.takeWhile (· ≠ 0x3D)
    match line.dropWhile (· ≠ 0x3D) with
    | [] => .error (.malformed (raw.2 + 1))
    | _ :: value =>
      if key = asciiBytes "READY" then .ok { out with ready := value = asciiBytes "1" }
      else if key = asciiBytes "STATUS" then
        .ok { out with status := some (fromUtf8Lossy value) }
      else .ok out

/-- Parse one datagram : `KEY=VALUE` lines, of which the later ones win. -/
def parseNotify (message : List UInt8) : Except NotifyError NotifyMessage :=
  (message.splitOn 0x0A).zipIdx.foldlM parseNotifyLine { ready := false, status := none }


/-- The datagram has a line `READY=1`. -/
def SaysReady (message : List UInt8) : Prop :=
  ∃ raw ∈ message.splitOn 0x0A, stripReturn raw = asciiBytes "READY=1"

theorem ready_of_parseNotifyLine {out out' : NotifyMessage} {raw : List UInt8 × ℕ}
    (h : parseNotifyLine out raw = .ok out') (hr : out'.ready = true) :
    out.ready = true ∨ stripReturn raw.1 = asciiBytes "READY=1" := by
  unfold parseNotifyLine at h
  dsimp only at h
  generalize stripReturn raw.1 = line at h ⊢
  have hline := List.takeWhile_append_dropWhile (p := (· ≠ 0x3D)) (l := line)
  split at h
  · rw [← Except.ok.inj h] at hr
    exact .inl hr
  cases hdrop : line.dropWhile (· ≠ 0x3D) with
  | nil =>
    rw [hdrop] at h
    cases h
  | cons sep value =>
    have hsep : sep = 0x3D := by
      have hhead := List.head?_dropWhile_not (· ≠ 0x3D) line
      rw [hdrop] at hhead
      simpa using hhead
    rw [hdrop] at h hline
    dsimp only at h
    split at h
    · next hkey =>
      rw [← Except.ok.inj h] at hr
      refine .inr ?_
      rw [← hline, hkey, of_decide_eq_true hr, hsep]
      decide
    · split at h <;> rw [← Except.ok.inj h] at hr <;> exact .inl hr

/-- Only a line `READY=1` makes a message ready. -/
theorem saysReady_of_parseNotify {message : List UInt8} {out : NotifyMessage}
    (h : parseNotify message = .ok out) (hr : out.ready = true) : SaysReady message := by
  have hall := Runs.foldlM_induction (P := fun done out => out.ready = true →
    ∃ raw ∈ done, stripReturn raw.1 = asciiBytes "READY=1") h (fun hr => by cases hr)
    fun done raw rest out out' _ ih hstep hr => by
      rcases ready_of_parseNotifyLine hstep hr with hr | hline
      · obtain ⟨raw, hmem, hline⟩ := ih hr
        exact ⟨raw, List.mem_append_left _ hmem, hline⟩
      · exact ⟨raw, List.mem_append_right _ (List.mem_singleton_self raw), hline⟩
  obtain ⟨raw, hmem, hline⟩ := hall hr
  exact ⟨raw.1, List.fst_mem_of_mem_zipIdx hmem, hline⟩

/-! ## The hub -/

/-- A socket of a unit and the task that reads it : the datagrams that have arrived, and the
message the task waits with. -/
structure Reader where
  socket : ℕ
  inbox : List (List UInt8) := []
  held : Option NotifyMessage := none

/-- A message on its way to the main loop, and the socket it was sent on. -/
structure Posted where
  unit : UnitName
  message : NotifyMessage
  socket : ℕ

/-- The notify sockets and the queues of their messages; `sockets` were bound so far. -/
structure NotifyHub where
  armed : Std.ExtTreeMap UnitName Reader compare := ∅
  ready : List Posted := []
  status : List Posted := []
  sockets : ℕ := 0

/-- How many messages may wait in a queue. -/
def notifyQueue : ℕ := 64

/-- The largest datagram that is read. -/
def maxDatagram : ℕ := 4096

namespace NotifyHub

/-- Create a unit's socket and start reading it. A previous socket goes with its task. -/
def arm (k : Kernel) (h : NotifyHub) (unit : UnitName) : NotifyHub × Except String Unit :=
  match k.armNotify unit with
  | .error e => (h, .error e)
  | .ok _ =>
    ({ h with
        armed := h.armed.insert unit { socket := h.sockets }
        sockets := h.sockets + 1 }, .ok ())

/-- Remove a unit's socket and stop reading it. -/
def disarm (h : NotifyHub) (unit : UnitName) : NotifyHub :=
  { h with armed := h.armed.erase unit }

/-- Remove every socket. -/
def disarmAll (h : NotifyHub) : NotifyHub := h.armed.keys.foldl disarm h

/-- A datagram arrives on the socket of a unit. -/
def arrive (h : NotifyHub) (unit : UnitName) (datagram : List UInt8) : NotifyHub :=
  match h.armed[unit]? with
  | none => h
  | some r => { h with armed := h.armed.insert unit { r with inbox := r.inbox ++ [datagram] } }

/-- The task of a unit takes the next datagram off its socket; a bad one is dropped. -/
def read (h : NotifyHub) (unit : UnitName) : NotifyHub :=
  match h.armed[unit]? with
  | some { socket, inbox := datagram :: inbox, held := none } =>
    let held := (parseNotify (datagram.take maxDatagram)).toOption
    { h with armed := h.armed.insert unit { socket, inbox, held } }
  | _ => h

/-- The task of a unit passes on the message it waits with, if its queue has room. -/
def post (h : NotifyHub) (unit : UnitName) : NotifyHub :=
  match h.armed[unit]? with
  | some { socket, inbox, held := some message } =>
    let posted : Posted := { unit, message, socket }
    let armed := h.armed.insert unit { socket, inbox }
    if message.ready then
      if h.ready.length < notifyQueue then { h with armed, ready := h.ready ++ [posted] } else h
    else if h.status.length < notifyQueue then { h with armed, status := h.status ++ [posted] }
    else h
  | _ => h

/-- The next message for the main loop, readiness first. -/
def recv (h : NotifyHub) : Option (Posted × NotifyHub) :=
  match h.ready, h.status with
  | p :: ready, _ => some (p, { h with ready })
  | [], p :: status => some (p, { h with status })
  | [], [] => none

end NotifyHub

end Rinit
