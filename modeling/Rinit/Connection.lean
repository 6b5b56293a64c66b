import Rinit.Pipe
import Rinit.Protocol

/-!
# A connection to the control socket

The client writes one framed request and reads one framed response; the server finds out who the
client is before it reads a byte (`serve`), reads one frame, hands the request on, waits for the
answer and writes it. What one side writes comes through to the other side up to some byte, in
whatever pieces, and either side may give up waiting.

Frames are prefix free (`frame_append_inj`), so a frame that comes through in part is no frame
(`FrameReader.read_take`). `serve_request` says whose requests are handed on, `serve_of_ready` that
those are who may send one. `exchange` : over any connection a request is carried
out as it was given or not at all, and what the client reports is what the server has answered.
-/

namespace Rinit

namespace Protocol

open Codec Pipe

/-! ## Frames in a stream -/

theorem leBytes_ofLeBytes : ∀ bytes : List UInt8, leBytes bytes.length (ofLeBytes bytes) = bytes
  | [] => rfl
  | b :: bytes => by
    have hlow : UInt8.ofNat (b.toNat + 256 * ofLeBytes bytes) = b := by
      apply UInt8.toNat_inj.mp
      rw [UInt8.toNat_ofNat']
      have hb := b.toNat_lt
      omega
    have hhigh : (b.toNat + 256 * ofLeBytes bytes) / 256 = ofLeBytes bytes := by
      have hb := b.toNat_lt
      omega
    rw [ofLeBytes, List.length_cons, leBytes, hlow, hhigh, leBytes_ofLeBytes bytes]

/-- Two frames that begin one stream are the same. -/
theorem frame_append_inj {a b r s : List UInt8} (ha : a.length ≤ maxFrameBytes)
    (hb : b.length ≤ maxFrameBytes) (h : frame a ++ r = frame b ++ s) : a = b ∧ r = s := by
  rw [frame, frame, List.append_assoc, List.append_assoc] at h
  obtain ⟨hlength, hrest⟩ := List.append_inj h (by simp)
  have hmax : maxFrameBytes < 256 ^ lengthPrefixBytes := by decide
  have heq := congrArg ofLeBytes hlength
  rw [ofLeBytes_leBytes_of_lt (ha.trans_lt hmax), ofLeBytes_leBytes_of_lt (hb.trans_lt hmax)] at heq
  exact List.append_inj hrest heq

/-- What a reader of frames makes of its failures. -/
structure FrameReader (ε δ : Type) where
  noLength : δ
  lengthStop : ε → δ
  badLength : ProtocolError → δ
  noBody : δ
  bodyStop : ε → δ

/-- Read the length of a body, then the body. -/
def FrameReader.read {ε δ : Type} (reader : FrameReader ε δ) (turns : List (Turn ε))
    (stream : List UInt8) : Option (Except δ (List UInt8)) :=
  match readExact reader.noLength reader.lengthStop turns lengthPrefixBytes stream with
  | none => none
  | some (.error e) => some (.error e)
  | some (.ok f) =>
    match frameLen f.read with
    | .error e => some (.error (reader.badLength e))
    | .ok len =>
      (readExact reader.noBody reader.bodyStop f.turns len f.rest).map fun r => r.map Filled.read

theorem frameLen_eq_ok {bytes : List UInt8} {len : ℕ} (h : frameLen bytes = .ok len) :
    len = ofLeBytes bytes ∧ len ≤ maxFrameBytes := by
  unfold frameLen at h
  dsimp only at h
  split at h
  · cases h
  · next hle =>
    obtain rfl := Except.ok.inj h
    exact ⟨rfl, Nat.not_lt.mp hle⟩

namespace FrameReader

variable {ε δ : Type} {reader : FrameReader ε δ} {turns : List (Turn ε)} {stream : List UInt8}

/-- A frame that is read stands at the front of what came through, whole. -/
theorem read_eq_ok {body : List UInt8} (h : reader.read turns stream = some (.ok body)) :
    body.length ≤ maxFrameBytes ∧ ∃ rest, stream = frame body ++ rest := by
  unfold read at h
  split at h
  · cases h
  · cases h
  · next f hf =>
    obtain ⟨hlen, hread, hrest⟩ := readExact_eq_ok hf
    split at h
    · cases h
    · next len hframe =>
      obtain ⟨heq, hmax⟩ := frameLen_eq_ok hframe
      obtain ⟨r, hr, hmap⟩ := Option.map_eq_some_iff.mp h
      cases r with
      | error e => cases hmap
      | ok g =>
        obtain rfl : g.read = body := Except.ok.inj hmap
        obtain ⟨hroom, hbody, -⟩ := readExact_eq_ok hr
        have hlength : g.read.length = len := by
          rw [hbody, List.length_take]
          omega
        have hprefix : leBytes lengthPrefixBytes len = f.read := by
          have hl : f.read.length = lengthPrefixBytes := by
            rw [hread, List.length_take]
            omega
          rw [heq, ← hl, leBytes_ofLeBytes]
        refine ⟨hlength ▸ hmax, f.rest.drop len, ?_⟩
        rw [frame, hlength, hprefix, hbody, List.append_assoc, List.take_append_drop, hread, hrest,
          List.take_append_drop]

/-- A frame that comes through is read, in however many pieces. -/
theorem read_of_ready (reader : FrameReader ε δ) {body : List UInt8} (rest : List UInt8)
    (hbody : body.length ≤ maxFrameBytes) (hstop : ∀ e, .stop e ∉ turns)
    (hready : lengthPrefixBytes + body.length ≤ readies turns) :
    reader.read turns (frame body ++ rest) = some (.ok body) := by
  suffices h : ∃ body', reader.read turns (frame body ++ rest) = some (.ok body') by
    obtain ⟨body', h⟩ := h
    obtain ⟨hbody', rest', heq⟩ := read_eq_ok h
    rw [h, (frame_append_inj hbody hbody' heq).1]
  have hlength : (frame body).length = lengthPrefixBytes + body.length := by simp [frame]
  unfold read
  rcases readExact_of_ready reader.noLength reader.lengthStop (frame body ++ rest) hstop
    (show lengthPrefixBytes ≤ readies turns by omega) with ⟨hshort, -⟩ | ⟨f, hf, hstop', hleft⟩
  · rw [List.length_append, hlength] at hshort
    omega
  · obtain ⟨-, hread, hrest⟩ := readExact_eq_ok hf
    have hlen : frameLen f.read = .ok body.length := by
      rw [hread, List.take_append_of_le_length (by omega), frameLen_frame hbody]
    rw [hf]
    dsimp only
    rw [hlen]
    dsimp only
    rcases readExact_of_ready reader.noBody reader.bodyStop f.rest hstop'
      (show body.length ≤ readies f.turns by omega) with ⟨hshort, -⟩ | ⟨g, hg, -⟩
    · rw [hrest, List.length_drop, List.length_append, hlength] at hshort
      omega
    · exact ⟨g.read, by rw [hg]; rfl⟩

/-- What is read of a frame that came through in part is the whole of it. -/
theorem read_take {body body' : List UInt8} {n : ℕ} (hbody : body.length ≤ maxFrameBytes)
    (h : reader.read turns ((frame body).take n) = some (.ok body')) : body' = body := by
  obtain ⟨hbody', rest, heq⟩ := read_eq_ok h
  have hwhole : frame body ++ [] = frame body' ++ (rest ++ (frame body).drop n) := by
    rw [← List.append_assoc, ← heq, List.take_append_drop, List.append_nil]
  exact (frame_append_inj hbody hbody' hwhole).1.symm

end FrameReader

/-! ## The server -/

/-- Why a read of the server gives up : its time is over, or the socket fails. -/
inductive ReadStop where
  | elapsed
  | failed (error : String)
deriving DecidableEq, Repr

inductive IoError where
  | timedOut (what : String)
  | unexpectedEof
  | failed (error : String)
deriving DecidableEq, Repr

/-- What went wrong with the reading of a frame. -/
inductive FrameError where
  | io (error : IoError)
  | protocol (error : ProtocolError)
deriving DecidableEq, Repr

/-- A failure of one of the two reads, the one that gets the length of a body and the one that gets
the body. -/
def IoError.ofStop (what : String) : ReadStop → IoError
  | .elapsed => .timedOut what
  | .failed e => .failed e

/-- Read one frame of a client; a length that is too much is refused before the body is read. -/
def readFrame (turns : List (Turn ReadStop)) (stream : List UInt8) :
    Option (Except FrameError (List UInt8)) :=
  FrameReader.read
    { noLength := .io .unexpectedEof
      lengthStop := fun e => .io (.ofStop "timed out waiting for a request" e)
      badLength := .protocol
      noBody := .io .unexpectedEof
      bodyStop := fun e => .io (.ofStop "timed out reading the request body" e) }
    turns stream

/-- Who is at the other end, as the kernel has it. -/
structure PeerCred where
  pid : ℤ
  uid : ℕ
  gid : ℕ
deriving DecidableEq, Repr

/-- Whether a peer may use the control socket : root, and the user rinit runs as with `--dev`. -/
def peerAllowed (dev : Bool) (peerUid ourUid : ℕ) : Bool :=
  peerUid = 0 || (dev && peerUid = ourUid)

def ProtocolError.display : ProtocolError → String
  | .tooShort => "frame is too short"
  | .tooLong declared => "frame of " ++ toString declared ++ " bytes exceeds the limit"
  | .versionMismatch found expected =>
    "protocol version " ++ toString found ++ " does not match " ++ toString expected ++
      "; rebuild rctl"
  | .unknownCode byte => "unknown code " ++ toString byte
  | .badUnitName => "unit name is invalid"
  | .badText => "text field is not valid UTF-8"
  | .trailingBytes => "trailing bytes after the message"

/-- How a bad frame is reported to the client. -/
def statusOf : ProtocolError → Status
  | .versionMismatch .. => .versionMismatch
  | .unknownCode _ => .unknownCommand
  | _ => .badRequest

/-- What becomes of a request that the main loop was handed. -/
inductive Awaited where
  | replied (status : Status) (text : String)
  | dropped
  | elapsed
deriving DecidableEq, Repr

/-- Wait for the main loop to answer, but not forever. -/
def awaitReply : Awaited → Status × String
  | .replied status text => (status, text)
  | .dropped => (.error, "the request was dropped")
  | .elapsed =>
    (.error, "timed out waiting for the manager; the request may still be running")

/-- The server, the peer of one of its connections, and what the main loop does. -/
structure Server where
  dev : Bool
  euid : ℕ
  peer : Except String PeerCred
  /-- Whether the main loop still takes requests. -/
  running : Bool
  answer : Request → Awaited

/-- How a connection ends : the request that was handed on and the response that was written. -/
structure Served where
  request : Option Request
  response : Option (Status × String)
  error : Option IoError
deriving DecidableEq

namespace Server

variable (server : Server)

/-- Write a response to something that is not handed on. -/
def refuse (status : Status) (text : String) : Served := ⟨none, some (status, text), none⟩

/-- Authenticate, read one request, hand it on and answer; `none` while the turns are not enough. -/
def serve (turns : List (Turn ReadStop)) (stream : List UInt8) : Option Served :=
  match server.peer with
  | .error e => some (refuse .error ("cannot read peer credentials: " ++ e))
  | .ok cred =>
    if !peerAllowed server.dev cred.uid server.euid then
      some (refuse .error "the control socket is restricted to root")
    else
      (readFrame turns stream).map fun
        | .error (.io .unexpectedEof) => ⟨none, none, none⟩
        | .error (.io e) => ⟨none, none, some e⟩
        | .error (.protocol e) => refuse (statusOf e) e.display
        | .ok body =>
          match decodeRequest body with
          | .error e => refuse (statusOf e) e.display
          | .ok request =>
            if server.running then ⟨some request, some (awaitReply (server.answer request)), none⟩
            else refuse .error "rinit is shutting down"

/-- The peer may use the socket. -/
def Admits : Prop :=
  ∃ cred, server.peer = .ok cred ∧ peerAllowed server.dev cred.uid server.euid = true

end Server

variable {server : Server} {served : Served} {request : Request}
  {turns : List (Turn ReadStop)} {stream : List UInt8}

/-- Nobody else gets an answer to a request, or a byte of it read. -/
theorem serve_of_not_admits (h : ¬server.Admits) : ∃ text, ∀ turns stream,
    server.serve turns stream = some (Server.refuse .error text) := by
  unfold Server.serve
  cases hp : server.peer with
  | error e => exact ⟨_, fun _ _ => rfl⟩
  | ok cred =>
    have hallowed : peerAllowed server.dev cred.uid server.euid = false := by
      by_contra hallowed
      exact h ⟨cred, hp, by simpa using hallowed⟩
    exact ⟨_, fun _ _ => if_pos (by simp [hallowed])⟩

theorem serve_of_admits (h : server.Admits) (turns : List (Turn ReadStop)) (stream : List UInt8) :
    server.serve turns stream = (readFrame turns stream).map fun
      | .error (.io .unexpectedEof) => ⟨none, none, none⟩
      | .error (.io e) => ⟨none, none, some e⟩
      | .error (.protocol e) => Server.refuse (statusOf e) e.display
      | .ok body =>
        match decodeRequest body with
        | .error e => Server.refuse (statusOf e) e.display
        | .ok request =>
          if server.running then ⟨some request, some (awaitReply (server.answer request)), none⟩
          else Server.refuse .error "rinit is shutting down" := by
  obtain ⟨cred, hp, hallowed⟩ := h
  unfold Server.serve
  rw [hp]
  dsimp only
  rw [if_neg (by simp [hallowed])]

/-- What is handed on was sent, by a peer that may send it, and is answered as the main loop
answers it. -/
theorem serve_request (h : server.serve turns stream = some served)
    (hr : served.request = some request) : server.Admits ∧ server.running = true ∧
      served.response = some (awaitReply (server.answer request)) ∧
      ∃ body rest, stream = frame body ++ rest ∧ body.length ≤ maxFrameBytes ∧
        decodeRequest body = .ok request := by
  by_cases ha : server.Admits
  · rw [serve_of_admits ha] at h
    obtain ⟨r, hframe, rfl⟩ := Option.map_eq_some_iff.mp h
    match r, hframe, hr with
    | .error (.io (.timedOut _)), _, hr | .error (.io .unexpectedEof), _, hr
    | .error (.io (.failed _)), _, hr | .error (.protocol _), _, hr => cases hr
    | .ok body, hframe, hr =>
      obtain ⟨hbody, rest, rfl⟩ := FrameReader.read_eq_ok hframe
      dsimp only at hr ⊢
      cases hd : decodeRequest body with
      | error e =>
        rw [hd] at hr
        cases hr
      | ok request' =>
        rw [hd] at hr
        dsimp only at hr ⊢
        split at hr
        · next hrunning =>
          obtain rfl := Option.some.inj hr
          exact ⟨ha, hrunning, by rw [if_pos hrunning], body, rest, rfl, hbody, hd⟩
        · cases hr
  · obtain ⟨text, hrefuse⟩ := serve_of_not_admits ha
    obtain rfl := Option.some.inj ((hrefuse turns stream).symm.trans h)
    cases hr

/-- A request that comes through is handed on, by a peer that may send it. -/
theorem serve_of_ready (ha : server.Admits) (hrunning : server.running = true)
    (rest : List UInt8) (hstop : ∀ e, .stop e ∉ turns)
    (hready : lengthPrefixBytes + (encodeRequest request).length ≤ readies turns) :
    server.serve turns (frame (encodeRequest request) ++ rest) =
      some ⟨some request, some (awaitReply (server.answer request)), none⟩ := by
  have hlen : (encodeRequest request).length ≤ maxFrameBytes :=
    (length_encodeRequest request).trans (by decide)
  rw [serve_of_admits ha, readFrame, FrameReader.read_of_ready _ rest hlen hstop hready,
    Option.map_some]
  have hdecode : decodeRequest (encodeRequest request) = .ok request :=
    (reads_readRequest request).runAll _
  dsimp only
  rw [hdecode]
  dsimp only
  rw [if_pos hrunning]

/-- A bad frame is never reported as a success. -/
theorem statusOf_ne_ok (e : ProtocolError) : statusOf e ≠ .ok := by
  cases e <;> simp [statusOf]

/-- Only a request that is handed on is answered with a success. -/
theorem serve_ok {text : String} (h : server.serve turns stream = some served)
    (hr : served.response = some (.ok, text)) : ∃ request, served.request = some request ∧
      server.answer request = .replied .ok text := by
  by_cases ha : server.Admits
  · rw [serve_of_admits ha] at h
    obtain ⟨r, -, rfl⟩ := Option.map_eq_some_iff.mp h
    match r, hr with
    | .error (.io (.timedOut _)), hr | .error (.io .unexpectedEof), hr
    | .error (.io (.failed _)), hr => cases hr
    | .error (.protocol e), hr =>
      exact absurd (congrArg Prod.fst (Option.some.inj hr)) (statusOf_ne_ok e)
    | .ok body, hr =>
      dsimp only at hr ⊢
      cases hd : decodeRequest body with
      | error e =>
        rw [hd] at hr
        exact absurd (congrArg Prod.fst (Option.some.inj hr)) (statusOf_ne_ok e)
      | ok request =>
        rw [hd] at hr
        dsimp only at hr ⊢
        split at hr
        · next hrunning =>
          rw [if_pos hrunning]
          refine ⟨request, rfl, ?_⟩
          cases hanswer : server.answer request with
          | replied status text' =>
            rw [hanswer] at hr
            cases hr
            rfl
          | dropped | elapsed =>
            rw [hanswer] at hr
            cases hr
        · cases hr
  · obtain ⟨text, hrefuse⟩ := serve_of_not_admits ha
    obtain rfl := Option.some.inj ((hrefuse turns stream).symm.trans h)
    cases hr

/-! ## The client -/

/-- What the server writes to the connection. -/
def Served.written (served : Served) : List UInt8 :=
  match served.response with
  | some (status, text) => frame (encodeResponse status text.toList)
  | none => []

/-- Read the response to a request. -/
def receive (turns : List (Turn String)) (stream : List UInt8) :
    Option (Except String (Status × List Char)) :=
  let eof := "failed to fill whole buffer"
  (FrameReader.read
    { noLength := "rinit did not answer: " ++ eof
      lengthStop := ("rinit did not answer: " ++ ·)
      badLength := fun e => "rinit sent a bad frame: " ++ e.display
      noBody := "rinit's answer was truncated: " ++ eof
      bodyStop := ("rinit's answer was truncated: " ++ ·) }
    turns stream).map fun
      | .error e => .error e
      | .ok body =>
        match decodeResponse body with
        | .error e => .error ("rinit's answer was malformed: " ++ e.display)
        | .ok answer => .ok answer

/-- The exit code of a status. -/
def Status.exitCode : Status → ℕ
  | .ok => 0
  | .noSuchUnit => 3
  | .conflict => 4
  | .error | .versionMismatch | .unknownCommand | .badRequest => 1

/-- The exit code of the client, and whether it gets its output written. -/
def exitCode (emitted : Bool) : Except String (Status × List Char) → ℕ
  | .ok (.ok, text) => if !text.isEmpty && !emitted then 1 else Status.exitCode .ok
  | .ok (status, _) => status.exitCode
  | .error _ => 1

/-- What a client shows of an answer : its text, or as much of it as a response has room for. -/
structure Shows (answer : Status × String) (got : Status × List Char) : Prop where
  status : got.1 = answer.1
  whole : (utf8Bytes answer.2.toList).length ≤ maxFrameBytes - 1 → got.2 = answer.2.toList
  cut : maxFrameBytes - 1 < (utf8Bytes answer.2.toList).length → ∃ kept,
    IsLongestKept answer.2.toList kept (maxFrameBytes - 1 - (utf8Bytes marker).length) ∧
      got.2 = kept ++ marker

theorem shows_encodeResponse (answer : Status × String) :
    (encodeResponse answer.1 answer.2.toList).length ≤ maxFrameBytes ∧
      ∃ got, decodeResponse (encodeResponse answer.1 answer.2.toList) = .ok got ∧
        Shows answer got := by
  have hmarker : (utf8Bytes marker).length ≤ maxFrameBytes - 1 := by decide
  have hmax : 1 ≤ maxFrameBytes := by decide
  by_cases hfit : (utf8Bytes answer.2.toList).length ≤ maxFrameBytes - 1
  · rw [encodeResponse_of_fits hfit, decodeResponse_utf8Bytes, List.length_cons]
    exact ⟨by omega, _, rfl, rfl, fun _ => rfl, fun h => absurd hfit (Nat.not_le.mpr h)⟩
  · obtain ⟨kept, hkept, henc⟩ := @encodeResponse_of_cut answer.1 _ hfit
    have hfits := hkept.fits
    rw [henc, decodeResponse_utf8Bytes, utf8Bytes_append, List.length_cons, List.length_append]
    exact ⟨by omega, _, rfl, rfl, fun h => absurd h hfit, fun _ => ⟨kept, hkept, rfl⟩⟩

theorem Served.written_eq {answer : Status × String} (h : served.response = some answer) :
    served.written = frame (encodeResponse answer.1 answer.2.toList) := by
  unfold Served.written
  rw [h]

variable {clientTurns : List (Turn String)}

/-- An answer that the client has is the one of the server, however much was lost. -/
theorem shows_of_receive {n : ℕ} {got : Status × List Char}
    (h : receive clientTurns (served.written.take n) = some (.ok got)) :
    ∃ answer, served.response = some answer ∧ Shows answer got := by
  obtain ⟨r, hr, hmap⟩ := Option.map_eq_some_iff.mp h
  cases r with
  | error e => cases hmap
  | ok body =>
    cases hresponse : served.response with
    | none =>
      obtain ⟨-, rest, heq⟩ := FrameReader.read_eq_ok hr
      have hempty : served.written = [] := by
        unfold Served.written
        rw [hresponse]
      have hlength := congrArg List.length heq
      simp only [hempty, frame, List.take_nil, List.length_nil, List.length_append,
        length_leBytes, lengthPrefixBytes] at hlength
      omega
    | some answer =>
      obtain ⟨hlen, got', hdecode, hshows⟩ := shows_encodeResponse answer
      rw [Served.written_eq hresponse] at hr
      obtain rfl := FrameReader.read_take hlen hr
      dsimp only at hmap
      rw [hdecode] at hmap
      obtain rfl := Except.ok.inj hmap
      exact ⟨answer, rfl, hshows⟩

/-- A client that is not stopped has the answer of the server. -/
theorem receive_of_ready {answer : Status × String} (h : served.response = some answer)
    (hstop : ∀ e, .stop e ∉ clientTurns) (hready : served.written.length ≤ readies clientTurns) :
    ∃ got, receive clientTurns served.written = some (.ok got) ∧ Shows answer got := by
  obtain ⟨hlen, got, hdecode, hshows⟩ := shows_encodeResponse answer
  refine ⟨got, ?_, hshows⟩
  rw [Served.written_eq h] at hready ⊢
  rw [frame, List.length_append, length_leBytes] at hready
  have hread := FrameReader.read_of_ready
    { noLength := "rinit did not answer: " ++ "failed to fill whole buffer"
      lengthStop := ("rinit did not answer: " ++ ·)
      badLength := fun e => "rinit sent a bad frame: " ++ e.display
      noBody := "rinit's answer was truncated: " ++ "failed to fill whole buffer"
      bodyStop := ("rinit's answer was truncated: " ++ ·) } [] hlen hstop hready
  rw [List.append_nil] at hread
  unfold receive
  dsimp only
  rw [hread, Option.map_some]
  dsimp only
  rw [hdecode]

/-! ## Both sides -/

/-- What comes of a request, whatever the connection does to it. -/
structure Exchanged (server : Server) (request : Request) (served : Served) : Prop where
  /-- It is handed on as it was given, or not at all. -/
  carried : ∀ r, served.request = some r → r = request ∧ server.Admits ∧
    served.response = some (awaitReply (server.answer request))
  /-- The client has the answer of the server, or an error. -/
  answer : ∀ n clientTurns got, receive clientTurns (served.written.take n) = some (.ok got) →
    ∃ answer, served.response = some answer ∧ Shows answer got
  /-- A client that is successful has made the main loop say so. -/
  success : ∀ n clientTurns result emitted,
    receive clientTurns (served.written.take n) = some result → exitCode emitted result = 0 →
      served.request = some request ∧ ∃ text, server.answer request = .replied .ok text

/-- A request is carried out as it was given or not at all, and what the client reports is what
the server has answered, wherever the connection breaks on either way. -/
theorem exchange {sent : ℕ}
    (h : server.serve turns ((frame (encodeRequest request)).take sent) = some served) :
    Exchanged server request served := by
  have hrequest : ∀ r, served.request = some r → r = request ∧ server.Admits ∧
      served.response = some (awaitReply (server.answer request)) := by
    intro r hr
    obtain ⟨ha, -, hanswer, body, rest, heq, hbody, hdecode⟩ := serve_request h hr
    have hwhole : frame (encodeRequest request) ++ [] =
        frame body ++ (rest ++ (frame (encodeRequest request)).drop sent) := by
      rw [← List.append_assoc, ← heq, List.take_append_drop, List.append_nil]
    obtain ⟨rfl, -⟩ := frame_append_inj
      ((length_encodeRequest request).trans (by decide)) hbody hwhole
    obtain rfl := Except.ok.inj (hdecode.symm.trans ((reads_readRequest request).runAll _))
    exact ⟨rfl, ha, hanswer⟩
  refine ⟨hrequest, fun n clientTurns got hgot => shows_of_receive hgot,
    fun n clientTurns result emitted hresult hexit => ?_⟩
  match result, hresult, hexit with
  | .error e, _, hexit => cases hexit
  | .ok (status, text), hresult, hexit =>
    obtain ⟨answer, hanswer, hshows⟩ := shows_of_receive hresult
    obtain rfl : status = .ok := by
      cases status with
      | ok => rfl
      | _ => cases hexit
    obtain ⟨status, text⟩ := answer
    obtain rfl : Status.ok = status := hshows.status
    obtain ⟨r, hr, hreplied⟩ := serve_ok h hanswer
    obtain ⟨rfl, -⟩ := hrequest r hr
    exact ⟨hr, text, hreplied⟩

/-- A request that may be made is carried out, and its answer comes back, when nothing is lost
and nobody gives up. -/
theorem exchange_of_ready (ha : server.Admits) (hrunning : server.running = true)
    (hstop : ∀ e, .stop e ∉ turns)
    (hready : (frame (encodeRequest request)).length ≤ readies turns) :
    ∃ served, server.serve turns (frame (encodeRequest request)) = some served ∧
      served.request = some request ∧
      ∀ clientTurns, (∀ e, .stop e ∉ clientTurns) →
        served.written.length ≤ readies clientTurns → ∃ got,
          receive clientTurns served.written = some (.ok got) ∧
            Shows (awaitReply (server.answer request)) got := by
  rw [frame, List.length_append, length_leBytes] at hready
  have hserve := serve_of_ready ha hrunning [] hstop hready
  rw [List.append_nil] at hserve
  exact ⟨_, hserve, rfl, fun clientTurns hstop' hready' => receive_of_ready rfl hstop' hready'⟩

/-- Whatever is sent, only a whole request of a peer that may use the socket is handed on, and
no other peer gets more than a refusal. -/
theorem serve_guarded (server : Server) :
    (¬server.Admits → ∃ text, ∀ turns stream,
      server.serve turns stream = some (Server.refuse .error text)) ∧
    ∀ turns stream served, server.serve turns stream = some served →
      ∀ request, served.request = some request → server.Admits ∧ server.running = true ∧
        ∃ body rest, stream = frame body ++ rest ∧ body.length ≤ maxFrameBytes ∧
          decodeRequest body = .ok request := by
  refine ⟨serve_of_not_admits, fun turns stream served h request hr => ?_⟩
  obtain ⟨ha, hrunning, -, hbody⟩ := serve_request h hr
  exact ⟨ha, hrunning, hbody⟩

/-! ### A start -/

/-- The server answers root, and starts what it is asked to. -/
def startServer : Server where
  dev := false
  euid := 0
  peer := .ok { pid := 117, uid := 0, gid := 0 }
  running := true
  answer _ := .replied .ok "started a.service"

theorem admits_startServer : startServer.Admits := ⟨_, rfl, by decide⟩

/-- Every byte comes on its own. -/
def bytewise (ε : Type) : List (Turn ε) := List.replicate 50 (.ready 0)

theorem not_stop_bytewise (ε : Type) (e : ε) : .stop e ∉ bytewise ε :=
  fun he => nomatch List.eq_of_mem_replicate he

theorem serve_start : startServer.serve (bytewise ReadStop)
    ((frame (encodeRequest (.start serviceA))).take 50) =
      some ⟨some (.start serviceA), some (.ok, "started a.service"), none⟩ := by
  rw [List.take_of_length_le (by decide)]
  have hserve := @serve_of_ready startServer (.start serviceA) _ admits_startServer rfl []
    (not_stop_bytewise ReadStop) (by decide)
  rwa [List.append_nil] at hserve

theorem exchanged_start : Exchanged startServer (.start serviceA)
    ⟨some (.start serviceA), some (.ok, "started a.service"), none⟩ :=
  exchange serve_start

theorem answered_start : ∃ served,
    startServer.serve (bytewise ReadStop) (frame (encodeRequest (.start serviceA))) =
      some served ∧ served.request = some (.start serviceA) ∧
      ∀ clientTurns, (∀ e, .stop e ∉ clientTurns) →
        served.written.length ≤ readies clientTurns → ∃ got,
          receive clientTurns served.written = some (.ok got) ∧
            Shows (.ok, "started a.service") got :=
  exchange_of_ready admits_startServer rfl (not_stop_bytewise ReadStop) (by decide)

end Protocol

end Rinit
