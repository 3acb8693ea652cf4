/-
  Frnetlib.WebSocket.WebSocket — `fr::WebSocket<SocketType>` (`WebSocket.h`): the
  handshake, a client's in `connect` and a server's in `set_descriptor`, and
  `disconnect`.

  The state is that of the socket underneath, a `TcpSocket` (`TcpSocket.h`): its
  descriptor, what arrives and what is sent, and the mask counter of the frames, which
  all the sockets of a process share. `connect` starts where `SocketType::connect` has
  returned: with its status, and on the socket that it left. `errno` is not modelled.

  `Sha1::sha1_digest` is any function to 20 bytes, and `std::to_string(std::time)` any
  string.
-/

import Frnetlib.Http.Receive
import Frnetlib.WebSocket.Base64
import Frnetlib.WebSocket.WebFrame

namespace Frnetlib

open Base Socket

abbrev Digest := { d : Bytes // d.length = 20 }

structure WebSocket (σ τ : Type) where
  socketDescriptor : Int
  remoteAddress : Bytes
  /-- `WebFrame::current_mask_key` -/
  currentMaskKey : UInt32
  rx : σ
  tx : τ

namespace WebSocket

variable {σ τ : Type} [Receiver σ] [Sender τ]

/-! ## The socket underneath -/

def connected (s : WebSocket σ τ) : Bool := -1 < s.socketDescriptor

def closeSocket (s : WebSocket σ τ) : WebSocket σ τ := if s.connected then { s with socketDescriptor := -1 } else s

/-- `Socket::send` of a message that `construct` has written. -/
def sendHttp (s : WebSocket σ τ) (data : Bytes) : Option Status × WebSocket σ τ :=
  if s.connected then ((sendLoop data 0 s.tx).1, { s with tx := (sendLoop data 0 s.tx).2 })
  else (some .disconnected, s)

/-- `Socket::send` of a frame. -/
def sendFrame (s : WebSocket σ τ) (frame : WebFrame) : Option Status × WebSocket σ τ :=
  if s.connected then
    let r := frame.send s.currentMaskKey s.tx
    (r.1, { s with currentMaskKey := r.2.2.1, tx := r.2.2.2 })
  else (some .disconnected, s)

/-- `Socket::receive` of a request or a response, by the `parse` of its class. -/
def receiveHttp {ρ : Type} (s : WebSocket σ τ) (parse : ρ → Bytes → Option Status × ρ) (r : ρ) :
    Outcome Status × ρ × WebSocket σ τ :=
  let x := Http.receive parse r s.rx
  (x.1, x.2.1, { s with rx := x.2.2 })

/-! ## Disconnecting -/

def disconnect (s : WebSocket σ τ) : Outcome Unit × WebSocket σ τ :=
  let frame := { WebFrame.new true .text with opcode := .disconnect }
  if s.connected then
    match s.sendFrame frame with
    | (none, s) => (.waits, s)
    | (some _, s) => (.returned (), s.closeSocket)
  else (.returned (), s.closeSocket)

/-- `disconnect(); return HandshakeFailed;` -/
def handshakeFailed (s : WebSocket σ τ) : Outcome Status × WebSocket σ τ :=
  match s.disconnect with
  | (.returned (), s) => (.returned .handshakeFailed, s)
  | (_, s) => (.waits, s)

/-! ## The handshake -/

def guid : Bytes := bytes "258EAFA5-E914-47DA-95CA-C5AB0DC85B11"

/-- The value of `sec-websocket-accept` that answers a key. -/
def deriveKey (sha1Digest : Bytes → Digest) (websocketKey : Bytes) : Option Bytes :=
  Base64.encode (sha1Digest (websocketKey ++ guid)).1

/-- The `sec-websocket-protocol` header, for a list that is not empty. -/
def joinProtocols (first : Bytes) (wsProtocols : List Bytes) : Bytes :=
  wsProtocols.foldl (fun value protocol => value ++ (bytes ", " ++ protocol)) first

def upgradeRequest (websocketKey path : Bytes) (wsProtocols : List Bytes) : HttpRequest :=
  let request := HttpRequest.fresh.setHeader (bytes "sec-websocket-key") websocketKey
  let request := request.setHeader (bytes "sec-websocket-version") (bytes "13")
  let request :=
    match wsProtocols with
    | [] => request
    | protocol :: protocols => request.setHeader (bytes "sec-websocket-protocol") (joinProtocols protocol protocols)
  let request := request.setHeader (bytes "connection") (bytes "upgrade")
  let request := request.setHeader (bytes "upgrade") (bytes "websocket")
  { HttpRequest.fresh with toHttp := request.setUri path }

def upgradeResponse (derivedKey : Bytes) : HttpResponse :=
  let response := HttpResponse.fresh.setHeader (bytes "Upgrade") (bytes "websocket")
  let response := response.setHeader (bytes "Connection") (bytes "Upgrade")
  let response := response.setHeader (bytes "Sec-WebSocket-Accept") derivedKey
  { HttpResponse.fresh with toHttp := { response with status := 101 } }

/-- `connect` once its request is sent. -/
def receiveUpgrade (sha1Digest : Bytes → Digest) (websocketKey : Bytes) (s : WebSocket σ τ) :
    Outcome Status × WebSocket σ τ :=
  match s.receiveHttp HttpResponse.parse .fresh with
  | (.returned status, response, s) =>
    if status ≠ .success then (.returned status, s)
    else if response.status ≠ 101 then s.handshakeFailed
    else
      match deriveKey sha1Digest websocketKey with
      | none => (.undefined, s)
      | some derivedKey =>
        if response.header (bytes "sec-websocket-accept") ≠ derivedKey then s.handshakeFailed
        else (.returned .success, s)
  | (outcome, _, s) => (outcome, s)

/-- `connect`, where `SocketType::connect` has returned `status`. -/
def connect (s : WebSocket σ τ) (o : Order) (sha1Digest : Bytes → Digest) (status : Status) (time path : Bytes)
    (wsProtocols : List Bytes) : Outcome Status × WebSocket σ τ :=
  if status ≠ .success then (.returned status, s)
  else
    match Base64.encode time with
    | none => (.undefined, s)
    | some websocketKey =>
      match s.sendHttp ((upgradeRequest websocketKey path wsProtocols).construct o s.remoteAddress) with
      | (none, s) => (.waits, s)
      | (some status, s) =>
        if status ≠ .success then (.returned status, s) else s.receiveUpgrade sha1Digest websocketKey

/-- `set_descriptor` once it has a request: the answer to it. -/
def answerUpgrade (o : Order) (sha1Digest : Bytes → Digest) (request : HttpRequest) (s : WebSocket σ τ) :
    Outcome Unit × WebSocket σ τ :=
  if request.header (bytes "Upgrade") ≠ bytes "websocket" ∨ request.requestType ≠ .get then
    (.threw (some (bytes "Client isn't using the WebSock protocol")), s)
  else
    match deriveKey sha1Digest (request.header (bytes "sec-websocket-key")) with
    | none => (.undefined, s)
    | some derivedKey =>
      match s.sendHttp ((upgradeResponse derivedKey).construct o s.remoteAddress) with
      | (none, s) => (.waits, s)
      | (some _, s) => (.returned (), s)

/-- `set_descriptor`, `none` for a null pointer. -/
def setDescriptor (s : WebSocket σ τ) (o : Order) (sha1Digest : Bytes → Digest) (descriptor : Option Int) :
    Outcome Unit × WebSocket σ τ :=
  match descriptor with
  | none => (.returned (), { s with socketDescriptor := -1 })
  | some d =>
    let s := { s with socketDescriptor := d }
    if d = -1 then (.returned (), s)
    else
      match s.receiveHttp HttpRequest.parse .fresh with
      | (.returned status, request, s) =>
        if status ≠ .success then (.threw (some (bytes "Failed to receive WebSock handshake")), s)
        else s.answerUpgrade o sha1Digest request
      | (.waits, _, s) => (.waits, s)
      | (.threw what, _, s) => (.threw what, s)
      | (.undefined, _, s) => (.undefined, s)

end WebSocket

end Frnetlib
