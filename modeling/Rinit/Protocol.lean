import Rinit.Codec
import Rinit.Name

/-!
# The control protocol

A message is a body behind its length (`frame`). A request body is the protocol version, a
command and the fields of the command; a response body is a status and a text. Everything is
read back by a decoder that takes the fields in the order they are written, so a request
survives the way over the wire and nothing else than its own body is taken for it
(`request_codec`). A reply that does not fit into a frame loses its end, at a character
boundary, and says so (`response_codec`).
-/

namespace Rinit

namespace Protocol

open Codec

def protocolVersion : ℕ := 2

/-- The longest body that is accepted, in bytes. -/
def maxFrameBytes : ℕ := 512 * 1024

/-- The bytes of the length in front of a body. -/
def lengthPrefixBytes : ℕ := 4

/-- How `rctl status` is shown. -/
inductive StatusFormat where
  | systemd
  | plain
  | short
  | json
  | card
deriving DecidableEq, Repr

def StatusFormat.byte : StatusFormat → UInt8
  | .systemd => 0
  | .plain => 1
  | .short => 2
  | .json => 3
  | .card => 4

def StatusFormat.fromByte (byte : UInt8) : Option StatusFormat :=
  if byte = 0 then some .systemd
  else if byte = 1 then some .plain
  else if byte = 2 then some .short
  else if byte = 3 then some .json
  else if byte = 4 then some .card
  else none

/-- How `rctl list` is shown. -/
inductive ListFormat where
  | table
  | plain
  | short
  | json
deriving DecidableEq, Repr

def ListFormat.byte : ListFormat → UInt8
  | .table => 0
  | .plain => 1
  | .short => 2
  | .json => 3

def ListFormat.fromByte (byte : UInt8) : Option ListFormat :=
  if byte = 0 then some .table
  else if byte = 1 then some .plain
  else if byte = 2 then some .short
  else if byte = 3 then some .json
  else none

/-- A request from `rctl`. -/
inductive Request where
  | list
  | listFormatted (format : ListFormat)
  | status (unit : Option UnitName) (tail : UInt32)
  | statusFormatted (unit : Option UnitName) (tail : UInt32) (format : StatusFormat)
  | start (unit : UnitName)
  | stop (unit : UnitName)
  | restart (unit : UnitName)
  | resetFailed (unit : UnitName)
  | log (unit : Option UnitName) (tail : UInt32)
  | reload
  | reboot
  | poweroff
deriving DecidableEq

/-- The command codes on the wire. -/
inductive Command where
  | list
  | status
  | start
  | stop
  | restart
  | resetFailed
  | log
  | reload
  | statusFormatted
  | listFormatted
  | reboot
  | poweroff
deriving DecidableEq, Repr

def Command.byte : Command → UInt8
  | .list => 1
  | .status => 2
  | .start => 3
  | .stop => 4
  | .restart => 5
  | .resetFailed => 6
  | .log => 7
  | .reload => 8
  | .statusFormatted => 9
  | .listFormatted => 10
  | .reboot => 11
  | .poweroff => 12

def Command.fromByte (byte : UInt8) : Option Command :=
  if byte = 1 then some .list
  else if byte = 2 then some .status
  else if byte = 3 then some .start
  else if byte = 4 then some .stop
  else if byte = 5 then some .restart
  else if byte = 6 then some .resetFailed
  else if byte = 7 then some .log
  else if byte = 8 then some .reload
  else if byte = 9 then some .statusFormatted
  else if byte = 10 then some .listFormatted
  else if byte = 11 then some .reboot
  else if byte = 12 then some .poweroff
  else none

def Request.command : Request → Command
  | .list => .list
  | .listFormatted _ => .listFormatted
  | .status _ _ => .status
  | .statusFormatted _ _ _ => .statusFormatted
  | .start _ => .start
  | .stop _ => .stop
  | .restart _ => .restart
  | .resetFailed _ => .resetFailed
  | .log _ _ => .log
  | .reload => .reload
  | .reboot => .reboot
  | .poweroff => .poweroff

/-- The outcome of a request. -/
inductive Status where
  | ok
  | error
  | versionMismatch
  | unknownCommand
  | noSuchUnit
  | conflict
  | badRequest
deriving DecidableEq, Repr

def Status.byte : Status → UInt8
  | .ok => 0
  | .error => 1
  | .versionMismatch => 2
  | .unknownCommand => 3
  | .noSuchUnit => 4
  | .conflict => 5
  | .badRequest => 6

def Status.fromByte (byte : UInt8) : Option Status :=
  if byte = 0 then some .ok
  else if byte = 1 then some .error
  else if byte = 2 then some .versionMismatch
  else if byte = 3 then some .unknownCommand
  else if byte = 4 then some .noSuchUnit
  else if byte = 5 then some .conflict
  else if byte = 6 then some .badRequest
  else none

/-- A malformed frame. -/
inductive ProtocolError where
  | tooShort
  | tooLong (declared : ℕ)
  | versionMismatch (found expected : ℕ)
  | unknownCode (byte : UInt8)
  | badUnitName
  | badText
  | trailingBytes
deriving DecidableEq, Repr

/-! ## Framing -/

/-- A body behind its length, which is cut to four bytes. -/
def frame (body : List UInt8) : List UInt8 :=
  leBytes lengthPrefixBytes body.length ++ body

/-- The length of the body a frame declares. -/
def frameLen (lengthBytes : List UInt8) : Except ProtocolError ℕ :=
  let declared := ofLeBytes lengthBytes
  if maxFrameBytes < declared then .error (.tooLong declared) else .ok declared

/-! ## Requests -/

def putUnit (unit : UnitName) : List UInt8 :=
  let name := utf8Bytes unit.canonical.toList
  UInt8.ofNat name.length :: name

def putOptUnit : Option UnitName → List UInt8
  | some unit => 1 :: putUnit unit
  | none => [0]

/-- The fields of a request, behind the command. -/
def putFields : Request → List UInt8
  | .list => []
  | .listFormatted format => [format.byte]
  | .status unit tail => putOptUnit unit ++ leBytes 4 tail.toNat
  | .statusFormatted unit tail format =>
    putOptUnit unit ++ leBytes 4 tail.toNat ++ [format.byte]
  | .start unit | .stop unit | .restart unit | .resetFailed unit => putUnit unit
  | .log unit tail => putOptUnit unit ++ leBytes 4 tail.toNat
  | .reload | .reboot | .poweroff => []

/-- The body of a request. -/
def encodeRequest (request : Request) : List UInt8 :=
  leBytes 2 protocolVersion ++ request.command.byte :: putFields request

abbrev Decoder (α : Type) := Codec.Decoder ProtocolError α

def readByte : Decoder UInt8 := do
  let bytes ← take .tooShort 1
  orThrow .tooShort bytes.head?

def readU16 : Decoder ℕ := do
  let bytes ← take .tooShort 2
  return ofLeBytes bytes

def readU32 : Decoder UInt32 := do
  let bytes ← take .tooShort 4
  return UInt32.ofNat (ofLeBytes bytes)

/-- A unit name of a given length. -/
def readName (len : ℕ) : Decoder UnitName :=
  if len = 0 ∨ maxUnitNameBytes < len then throw .badUnitName
  else do
    let bytes ← take .tooShort len
    let text ← orThrow .badText (fromUtf8 bytes)
    orThrow .badUnitName (UnitName.parse (String.ofList text)).toOption

def readUnit : Decoder UnitName := do
  let len ← readByte
  readName len.toNat

def readOptUnit : Decoder (Option UnitName) := do
  let byte ← readByte
  if byte = 0 then return none
  else if byte = 1 then do
    let unit ← readUnit
    return some unit
  else throw .badUnitName

/-- A code on the wire that has to be known. -/
def readCode {α : Type} (fromByte : UInt8 → Option α) : Decoder α := do
  let byte ← readByte
  orThrow (.unknownCode byte) (fromByte byte)

/-- The fields of a command. -/
def readFields : Command → Decoder Request
  | .list => return .list
  | .listFormatted => do
    let format ← readCode ListFormat.fromByte
    return .listFormatted format
  | .status => do
    let unit ← readOptUnit
    let tail ← readU32
    return .status unit tail
  | .statusFormatted => do
    let unit ← readOptUnit
    let tail ← readU32
    let format ← readCode StatusFormat.fromByte
    return .statusFormatted unit tail format
  | .start => do
    let unit ← readUnit
    return .start unit
  | .stop => do
    let unit ← readUnit
    return .stop unit
  | .restart => do
    let unit ← readUnit
    return .restart unit
  | .resetFailed => do
    let unit ← readUnit
    return .resetFailed unit
  | .log => do
    let unit ← readOptUnit
    let tail ← readU32
    return .log unit tail
  | .reload => return .reload
  | .reboot => return .reboot
  | .poweroff => return .poweroff

def readVersion : Decoder Unit := do
  let version ← readU16
  if version ≠ protocolVersion then throw (.versionMismatch version protocolVersion) else return ()

def readRequest : Decoder Request := do
  readVersion
  let command ← readCode Command.fromByte
  readFields command

/-- Decode a request body, which has to end with the request. -/
def decodeRequest (body : List UInt8) : Except ProtocolError Request :=
  runAll .trailingBytes readRequest body

/-! ### The way there and back -/

theorem ListFormat.fromByte_byte (f : ListFormat) : fromByte f.byte = some f := by
  cases f <;> rfl

theorem StatusFormat.fromByte_byte (f : StatusFormat) : fromByte f.byte = some f := by
  cases f <;> rfl

theorem Command.fromByte_byte (c : Command) : fromByte c.byte = some c := by
  cases c <;> rfl

theorem Status.fromByte_byte (s : Status) : fromByte s.byte = some s := by
  cases s <;> rfl

theorem length_utf8Bytes (text : List Char) : (utf8Bytes text).length = utf8Len text := by
  rw [utf8Bytes, List.length_flatMap, utf8Len]
  simp only [String.length_utf8EncodeChar]

/-- The length of a name fits into the byte in front of it. -/
theorem length_canonical (u : UnitName) : 0 < (utf8Bytes u.canonical.toList).length ∧
    (utf8Bytes u.canonical.toList).length ≤ maxUnitNameBytes := by
  have hwf := u.wf
  simp only [isCanonical, isValidUnitName, Bool.and_eq_true, decide_eq_true_eq] at hwf
  obtain ⟨⟨⟨hne, -⟩, -⟩, hl⟩ := hwf
  refine ⟨?_, by rw [length_utf8Bytes]; exact hl⟩
  cases hc : u.canonical.toList with
  | nil => simp [hc] at hne
  | cons c s =>
    have hpos := c.utf8Size_pos
    rw [length_utf8Bytes, utf8Len, List.map_cons, List.sum_cons]
    omega

theorem reads_readByte (b : UInt8) : Reads readByte [b] b :=
  (reads_take ProtocolError.tooShort [b]).bind (reads_orThrow rfl)

theorem reads_readU16 {n : ℕ} (h : n < 65536) : Reads readU16 (leBytes 2 n) n := by
  have hr := (reads_take ProtocolError.tooShort (leBytes 2 n)).map ofLeBytes
  rw [length_leBytes, ofLeBytes_leBytes_of_lt h] at hr
  exact hr

theorem reads_readU32 (n : UInt32) : Reads readU32 (leBytes 4 n.toNat) n := by
  have hr := (reads_take ProtocolError.tooShort (leBytes 4 n.toNat)).map
    fun bytes => UInt32.ofNat (ofLeBytes bytes)
  rw [length_leBytes, ofLeBytes_leBytes_of_lt n.toNat_lt, UInt32.ofNat_toNat] at hr
  exact hr

theorem reads_readName {name : List UInt8} {text : List Char} {u : UnitName}
    (hlen : 0 < name.length ∧ name.length ≤ maxUnitNameBytes) (ht : fromUtf8 name = some text)
    (hu : UnitName.parse (String.ofList text) = .ok u) : Reads (readName name.length) name u := by
  have hname : Reads (orThrow ProtocolError.badUnitName
      (UnitName.parse (String.ofList text)).toOption) [] u :=
    reads_orThrow (by rw [hu]; rfl)
  have htext : Reads (orThrow ProtocolError.badText (fromUtf8 name) >>= fun text =>
      orThrow .badUnitName (UnitName.parse (String.ofList text)).toOption) ([] ++ []) u :=
    (reads_orThrow ht).bind hname
  have h : Reads (take ProtocolError.tooShort name.length >>= fun bytes =>
      orThrow .badText (fromUtf8 bytes) >>= fun text =>
        orThrow .badUnitName (UnitName.parse (String.ofList text)).toOption) (name ++ []) u :=
    (reads_take _ name).bind htext
  rw [List.append_nil] at h
  rw [readName, if_neg (by omega)]
  exact h

theorem reads_readUnit (u : UnitName) : Reads readUnit (putUnit u) u := by
  have hlen : (UInt8.ofNat (utf8Bytes u.canonical.toList).length).toNat =
      (utf8Bytes u.canonical.toList).length :=
    UInt8.toNat_ofNat_of_lt (Nat.lt_of_le_of_lt (length_canonical u).2 (by decide))
  have h := reads_readName (length_canonical u) (fromUtf8_utf8Bytes _)
    (by rw [String.ofList_toList, u.parse_canonical])
  rw [← hlen] at h
  exact (reads_readByte _).bind h

theorem reads_readOptUnit : ∀ u : Option UnitName, Reads readOptUnit (putOptUnit u) u
  | none => (reads_readByte 0).bind (reads_pure none)
  | some u => (reads_readByte 1).bind ((reads_readUnit u).map some)

theorem reads_readCode {α : Type} {fromByte : UInt8 → Option α} {b : UInt8} {a : α}
    (h : fromByte b = some a) : Reads (readCode fromByte) [b] a :=
  (reads_readByte b).bind (reads_orThrow h)

theorem reads_readVersion : Reads readVersion (leBytes 2 protocolVersion) () :=
  (reads_readU16 (by decide)).bind (reads_pure ())

theorem reads_readFields (r : Request) : Reads (readFields r.command) (putFields r) r := by
  cases r with
  | list => exact reads_pure _
  | reload => exact reads_pure _
  | reboot => exact reads_pure _
  | poweroff => exact reads_pure _
  | listFormatted f => exact (reads_readCode f.fromByte_byte).map Request.listFormatted
  | start u => exact (reads_readUnit u).map Request.start
  | stop u => exact (reads_readUnit u).map Request.stop
  | restart u => exact (reads_readUnit u).map Request.restart
  | resetFailed u => exact (reads_readUnit u).map Request.resetFailed
  | status u tail => exact (reads_readOptUnit u).bind ((reads_readU32 tail).map (Request.status u))
  | log u tail => exact (reads_readOptUnit u).bind ((reads_readU32 tail).map (Request.log u))
  | statusFormatted u tail f =>
    have h : Reads (readFields .statusFormatted)
        (putOptUnit u ++ (leBytes 4 tail.toNat ++ [f.byte])) (.statusFormatted u tail f) :=
      (reads_readOptUnit u).bind ((reads_readU32 tail).bind
        ((reads_readCode f.fromByte_byte).map (Request.statusFormatted u tail)))
    rw [← List.append_assoc] at h
    exact h

theorem reads_readRequest (r : Request) : Reads readRequest (encodeRequest r) r :=
  reads_readVersion.bind ((reads_readCode r.command.fromByte_byte).bind (reads_readFields r))

/-! ### No other body -/

theorem local_readByte : Local readByte :=
  (local_take _ _).bind fun _ => local_orThrow _ _

theorem local_readU16 : Local readU16 :=
  (local_take _ _).bind fun _ => local_pure _

theorem local_readU32 : Local readU32 :=
  (local_take _ _).bind fun _ => local_pure _

theorem local_readName (len : ℕ) : Local (readName len) := by
  unfold readName
  split
  · exact local_throw _
  · exact (local_take _ _).bind fun _ => (local_orThrow _ _).bind fun _ => local_orThrow _ _

theorem local_readUnit : Local readUnit :=
  local_readByte.bind fun _ => local_readName _

theorem local_readOptUnit : Local readOptUnit := by
  refine local_readByte.bind fun byte => ?_
  split
  · exact local_pure _
  · split
    · exact local_readUnit.bind fun _ => local_pure _
    · exact local_throw _

theorem local_readCode {α : Type} (fromByte : UInt8 → Option α) : Local (readCode fromByte) :=
  local_readByte.bind fun _ => local_orThrow _ _

theorem local_readVersion : Local readVersion := by
  refine local_readU16.bind fun version => ?_
  split
  · exact local_throw _
  · exact local_pure _

theorem local_readFields (c : Command) : Local (readFields c) := by
  have hunit : ∀ g : UnitName → Request, Local (readUnit >>= fun u => pure (g u)) :=
    fun g => local_readUnit.bind fun _ => local_pure _
  have htail : ∀ g : Option UnitName → UInt32 → Request,
      Local (readOptUnit >>= fun u => readU32 >>= fun tail => pure (g u tail)) :=
    fun g => local_readOptUnit.bind fun _ => local_readU32.bind fun _ => local_pure _
  cases c with
  | list => exact local_pure _
  | reload => exact local_pure _
  | reboot => exact local_pure _
  | poweroff => exact local_pure _
  | listFormatted => exact (local_readCode _).bind fun _ => local_pure _
  | start => exact hunit .start
  | stop => exact hunit .stop
  | restart => exact hunit .restart
  | resetFailed => exact hunit .resetFailed
  | status => exact htail .status
  | log => exact htail .log
  | statusFormatted =>
    exact local_readOptUnit.bind fun _ => local_readU32.bind fun _ =>
      (local_readCode _).bind fun _ => local_pure _

theorem local_readRequest : Local readRequest :=
  local_readVersion.bind fun _ => (local_readCode _).bind local_readFields

/-! ### The length -/

theorem length_putOptUnit (u : Option UnitName) : (putOptUnit u).length ≤ 257 := by
  cases u with
  | none => simp [putOptUnit]
  | some u =>
    have h := (length_canonical u).2
    simp only [putOptUnit, putUnit, List.length_cons, maxUnitNameBytes] at h ⊢
    omega

theorem length_encodeRequest (r : Request) : (encodeRequest r).length ≤ 265 := by
  have hunit : ∀ u, (putUnit u).length ≤ 257 := fun u => by
    have h := length_putOptUnit (some u)
    simp only [putOptUnit, List.length_cons] at h
    omega
  have hfields : (putFields r).length ≤ 262 := by
    cases r with
    | list => simp [putFields]
    | reload => simp [putFields]
    | reboot => simp [putFields]
    | poweroff => simp [putFields]
    | listFormatted f => simp [putFields]
    | start u | stop u | restart u | resetFailed u => exact (hunit u).trans (by decide)
    | status u tail | log u tail | statusFormatted u tail f =>
      have h := length_putOptUnit u
      simp only [putFields, List.length_append, length_leBytes, List.length_singleton]
      omega
  simp only [encodeRequest, List.length_append, length_leBytes, List.length_cons]
  omega

/-- A body that is not too long is announced by the length in front of it. -/
theorem frameLen_frame {body : List UInt8} (h : body.length ≤ maxFrameBytes) :
    frameLen ((frame body).take lengthPrefixBytes) = .ok body.length := by
  have htake : (frame body).take lengthPrefixBytes = leBytes lengthPrefixBytes body.length := by
    rw [frame, List.take_append_of_le_length (by simp), List.take_of_length_le (by simp)]
  rw [frameLen, htake, ofLeBytes_leBytes_of_lt (Nat.lt_of_le_of_lt h (by decide)),
    if_neg (Nat.not_lt.mpr h)]

/-- A request is read back from its body, no proper part of the body is a request, nor is the
body with more bytes behind it, and what was read from any body is read back from its own. The
body fits into a frame, which announces its length. -/
theorem request_codec (r : Request) :
    decodeRequest (encodeRequest r) = .ok r ∧
    (∀ part, part <+: encodeRequest r → part ≠ encodeRequest r →
      ∀ r', decodeRequest part ≠ .ok r') ∧
    (∀ more, more ≠ [] → decodeRequest (encodeRequest r ++ more) = .error .trailingBytes) ∧
    (∀ body r', decodeRequest body = .ok r' → decodeRequest (encodeRequest r') = .ok r') ∧
    (encodeRequest r).length ≤ maxFrameBytes ∧
    frameLen ((frame (encodeRequest r)).take lengthPrefixBytes) = .ok (encodeRequest r).length := by
  have hlen : (encodeRequest r).length ≤ maxFrameBytes :=
    (length_encodeRequest r).trans (by decide)
  exact ⟨(reads_readRequest r).runAll _,
    fun part hp hne => runAll_ne_ok_of_prefix local_readRequest (reads_readRequest r) hp hne _,
    fun more hm => (reads_readRequest r).runAll_append _ hm,
    fun body r' _ => (reads_readRequest r').runAll _, hlen, frameLen_frame hlen⟩

theorem request_codec_start :
    decodeRequest (encodeRequest (.start serviceA) ++ [0]) = .error .trailingBytes ∧
      ∀ r', decodeRequest (leBytes 2 protocolVersion) ≠ .ok r' :=
  ⟨(request_codec (.start serviceA)).2.2.1 [0] (by decide),
    (request_codec (.start serviceA)).2.1 _ ⟨_, rfl⟩ (by decide)⟩

/-! ## Responses -/

def marker : List Char :=
  "\n[truncated: control response exceeds the frame limit]".toList

/-- The body of a response; a text that does not fit is cut and marked. -/
def encodeResponse (status : Status) (text : List Char) : List UInt8 :=
  let maxText := maxFrameBytes - 1
  let bytes := utf8Bytes text
  if bytes.length ≤ maxText then status.byte :: bytes
  else
    let keep := maxText - (utf8Bytes marker).length
    status.byte :: bytes.take (floorBoundary bytes (min bytes.length keep)) ++ utf8Bytes marker

def decodeResponse : List UInt8 → Except ProtocolError (Status × List Char)
  | [] => .error .tooShort
  | byte :: text =>
    match Status.fromByte byte with
    | none => .error (.unknownCode byte)
    | some status =>
      match fromUtf8 text with
      | none => .error .badText
      | some text => .ok (status, text)

theorem decodeResponse_utf8Bytes (status : Status) (text : List Char) :
    decodeResponse (status.byte :: utf8Bytes text) = .ok (status, text) := by
  simp only [decodeResponse, status.fromByte_byte, fromUtf8_utf8Bytes]

/-- `kept` is the longest part from the front of `text` that takes up `room` at most. -/
structure IsLongestKept (text kept : List Char) (room : ℕ) : Prop where
  isPrefix : kept <+: text
  fits : (utf8Bytes kept).length ≤ room
  longest : ∀ part, part <+: text → (utf8Bytes part).length ≤ room → part <+: kept

/-- Cutting at the last boundary keeps the longest part that fits. -/
theorem take_floorBoundary (text : List Char) (room : ℕ) : ∃ kept, IsLongestKept text kept room ∧
    (utf8Bytes text).take (floorBoundary (utf8Bytes text) (min (utf8Bytes text).length room)) =
      utf8Bytes kept := by
  obtain ⟨hb, hle, hmax⟩ := floorBoundary_spec (utf8Bytes text) (min (utf8Bytes text).length room)
  obtain ⟨kept, ⟨rest, rfl⟩, hlen⟩ := (isCharBoundary_iff text _).mp hb
  refine ⟨kept, ⟨⟨rest, rfl⟩, by omega, fun part hpart hroom => ?_⟩, ?_⟩
  · have hpl : (utf8Bytes part).length ≤ (utf8Bytes (kept ++ rest)).length := by
      obtain ⟨s, hs⟩ := hpart
      rw [← hs, utf8Bytes_append, List.length_append]
      omega
    have hcut := hmax _ (le_min hpl hroom) ((isCharBoundary_iff _ _).mpr ⟨part, hpart, rfl⟩)
    rw [← hlen] at hcut
    -- two parts from the front of one text, and `part` is not the longer one
    rcases List.prefix_or_prefix_of_prefix hpart (List.prefix_append kept rest) with h | h
    · exact h
    · obtain ⟨s, rfl⟩ := h
      rw [utf8Bytes_append, List.length_append] at hcut
      have hs : utf8Bytes s = [] := List.eq_nil_of_length_eq_zero (by omega)
      cases s with
      | nil => simp
      | cons c s =>
        have hpos := c.utf8Size_pos
        have hz := congrArg List.length hs
        rw [length_utf8Bytes, utf8Len, List.map_cons, List.sum_cons, List.length_nil] at hz
        omega
  · rw [← hlen, utf8Bytes_append, List.take_left]

theorem encodeResponse_of_fits {status : Status} {text : List Char}
    (h : (utf8Bytes text).length ≤ maxFrameBytes - 1) :
    encodeResponse status text = status.byte :: utf8Bytes text :=
  if_pos h

theorem encodeResponse_of_cut {status : Status} {text : List Char}
    (h : ¬ (utf8Bytes text).length ≤ maxFrameBytes - 1) : ∃ kept,
    IsLongestKept text kept (maxFrameBytes - 1 - (utf8Bytes marker).length) ∧
      encodeResponse status text = status.byte :: utf8Bytes (kept ++ marker) := by
  obtain ⟨kept, hkept, htake⟩ := take_floorBoundary text
    (maxFrameBytes - 1 - (utf8Bytes marker).length)
  refine ⟨kept, hkept, ?_⟩
  rw [utf8Bytes_append, ← htake]
  exact if_neg h

/-- A response is read back with its status and its text, if that fits into a frame, and else
with the longest part of the text that leaves room for the marker, and the marker. The body
fits into a frame, which announces its length. -/
theorem response_codec (status : Status) (text : List Char) :
    ((utf8Bytes text).length ≤ maxFrameBytes - 1 →
      decodeResponse (encodeResponse status text) = .ok (status, text)) ∧
    (maxFrameBytes - 1 < (utf8Bytes text).length → ∃ kept,
      IsLongestKept text kept (maxFrameBytes - 1 - (utf8Bytes marker).length) ∧
      decodeResponse (encodeResponse status text) = .ok (status, kept ++ marker)) ∧
    (encodeResponse status text).length ≤ maxFrameBytes ∧
    frameLen ((frame (encodeResponse status text)).take lengthPrefixBytes) =
      .ok (encodeResponse status text).length := by
  have hmarker : (utf8Bytes marker).length ≤ maxFrameBytes - 1 := by decide
  have hmax : 1 ≤ maxFrameBytes := by decide
  by_cases hfit : (utf8Bytes text).length ≤ maxFrameBytes - 1
  · have henc := @encodeResponse_of_fits status text hfit
    have hlen : (encodeResponse status text).length ≤ maxFrameBytes := by
      rw [henc, List.length_cons]
      omega
    refine ⟨fun _ => ?_, fun h => absurd hfit (Nat.not_le.mpr h), hlen, frameLen_frame hlen⟩
    rw [henc, decodeResponse_utf8Bytes]
  · obtain ⟨kept, hkept, henc⟩ := @encodeResponse_of_cut status text hfit
    have hlen : (encodeResponse status text).length ≤ maxFrameBytes := by
      have hfits := hkept.fits
      rw [henc, utf8Bytes_append, List.length_cons, List.length_append]
      omega
    refine ⟨fun h => absurd h hfit, fun _ => ⟨kept, hkept, ?_⟩, hlen, frameLen_frame hlen⟩
    rw [henc, decodeResponse_utf8Bytes]

theorem response_codec_cut :
    decodeResponse (encodeResponse .conflict "é".toList) = .ok (.conflict, "é".toList) ∧
      ∃ kept, IsLongestKept (List.replicate maxFrameBytes 'é') kept
          (maxFrameBytes - 1 - (utf8Bytes marker).length) ∧
        decodeResponse (encodeResponse .ok (List.replicate maxFrameBytes 'é')) =
          .ok (.ok, kept ++ marker) := by
  refine ⟨(response_codec .conflict "é".toList).1 (by decide),
    (response_codec .ok (List.replicate maxFrameBytes 'é')).2.1 ?_⟩
  rw [length_utf8Bytes, utf8Len, List.map_replicate, List.sum_replicate_nat]
  decide

end Protocol

end Rinit
