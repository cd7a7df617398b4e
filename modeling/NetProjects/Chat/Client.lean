import NetProjects.Chat.Server

/-!
# The chat client

What the client prints for a message, how it joins, and its loop over the keyboard and the socket.
-/

namespace NetProjects.Chat
open Bytes

/-- A call of `printf`, its arguments as text. -/
structure Printed where
  format : String
  args : List (List UInt8)
  deriving DecidableEq

/-! ### Messages taken apart -/

structure Vtl where
  version : UInt32
  type : UInt32
  len : UInt32
  deriving DecidableEq, Repr

def parseVtl (vtl : UInt32) : Vtl := { version := vtl >>> 23, type := (vtl >>> 16) &&& 0x7f, len := vtl &&& 0xffff }

/-- The memory from the payload of the first attribute on, `behind` being what follows the message. -/
def payload0 (msg : SbcpMsg) (behind : List UInt8) : List UInt8 :=
  msg.attribute0.payload.bytes ++ msg.attribute1.bytes ++ behind

def payload1 (msg : SbcpMsg) (behind : List UInt8) : List UInt8 := msg.attribute1.payload.bytes ++ behind

def parseMsgFwd (msg : SbcpMsg) (behind : List UInt8) : Printed :=
  if msg.attribute0.sbcpAttributeType = AttributeType.message.code ∧
      msg.attribute1.sbcpAttributeType = AttributeType.username.code then
    { format := "%s: %s\n", args := [cstring (payload1 msg behind), cstring (payload0 msg behind)] }
  else { format := "!WRONG ATTRIBUTE TYPE FOR MSG FWD.\n", args := [] }

/-- The messages that are one attribute: its text in `format`, or the error. -/
def parseAttribute (type : AttributeType) (format error : String) (msg : SbcpMsg) (behind : List UInt8) : Printed :=
  if msg.attribute0.sbcpAttributeType = type.code then { format := format, args := [cstring (payload0 msg behind)] }
  else { format := error, args := [] }

def parseMsgNak := parseAttribute .reason "Join rejected! NAK REASON: %s\n" "ATTRIBUTE ERROR. EXPECT REASON.\n"
def parseMsgOnline := parseAttribute .username "%s has joined the chat.\n" "MSG ONLINE ATTR ERROR.\n"
def parseMsgOffline := parseAttribute .username "%s has left the chat.\n" "MSG OFFLINE ATTR ERROR.\n"

/-- `none` where `parse_msg_ack` returns 1. -/
def parseMsgAck (msg : SbcpMsg) (behind myName : List UInt8) : Option (List Printed) :=
  if msg.attribute0.sbcpAttributeType = AttributeType.clientCount.code ∧
      msg.attribute1.sbcpAttributeType = AttributeType.username.code then
    some [{ format := "Join success! Your username: %s\n", args := [cstring myName] },
      { format := "#clients in chat(excluding yourself): %s\n", args := [cstring (payload0 msg behind)] }]
  else none

/-- The loop of `print_usernames` from slot `i` on; `none` where a name has no end in its slot. -/
def printUsernamesLoop (buf : List UInt8) : Nat → Nat → Option (List Printed)
  | 0, _ => some []
  | fuel + 1, i => do
    let username ← memread buf (i * 16) 16
    let length ← strlen username
    if length = 0 then some []
    else
      let rest ← printUsernamesLoop buf fuel (i + 1)
      return { format := "user %d: %s\n", args := [cstr (toString i), cstring username] } :: rest

def printUsernames (buf : List UInt8) : Option (List Printed) := printUsernamesLoop buf 16 0

/-- What the loop of the client prints for a message. -/
def showMessage (msg : SbcpMsg) (behind : List UInt8) : Printed :=
  if getMsgType msg = HeaderType.fwd.code then parseMsgFwd msg behind
  else if getMsgType msg = HeaderType.offline.code then parseMsgOffline msg behind
  else if getMsgType msg = HeaderType.online.code then parseMsgOnline msg behind
  else if getMsgType msg = HeaderType.idle.code then
    { format := "%s is now idle.\n", args := [cstring (payload0 msg behind)] }
  else { format := "UNKNOWN MSG TYPE: %d\n", args := [cstr (toString (getMsgType msg).toNat)] }

/-! ### Joining -/

/-- `myName` is the memory from `argv[1]` on, and `sizeof(my_name)` the size of a pointer. -/
def joinRequest (myName : List UInt8) : Option SbcpMsg := makeMsgJoin myName 8

/-- What is printed for the answer to the JOIN, and whether the client goes on to its loop. -/
def joinAnswered (msg : SbcpMsg) (behind myName : List UInt8) : List Printed × Bool :=
  if getMsgType msg = HeaderType.ack.code then
    match parseMsgAck msg behind myName with
    | some printed => (printed, true)
    | none => ([], false)
  else if getMsgType msg = HeaderType.nak.code then ([parseMsgNak msg behind], false)
  else ([{ format := "message type error: %d\n", args := [cstr (toString (getMsgType msg).toNat)] }], false)

/-! ### The loop -/

def selectTimeout : Int := 2
def idleTimeout : Int := 10
def maxMsgLen : Nat := 512

structure Client where
  idleCumulation : Int
  isIdle : Bool
  sendBuf : CharArray maxMsgLen
  recvBuf : CharArray maxDataSize
  /-- What was typed and not yet read. -/
  stdin : List UInt8

/-- Before the loop. -/
def Client.start (sendBuf : CharArray maxMsgLen) (recvBuf : CharArray maxDataSize) : Client :=
  { idleCumulation := 0, isIdle := false, sendBuf := sendBuf, recvBuf := recvBuf, stdin := [] }

structure Timeval where
  sec : Int
  usec : Int

/-- One turn of the loop: what `select` leaves and what can be read. -/
structure Wait where
  tv : Timeval
  /-- On a ready keyboard the bytes that are new, none of them at the end of the input. -/
  typed : Option (List UInt8)
  /-- On a ready socket what `recv` returns. -/
  received : Option Received
  /-- What follows the message in the receive buffer and behind it. -/
  behind : List UInt8

def elapsedTime (tv : Timeval) : Int := selectTimeout * 1000000 - (tv.usec + 1000000 * tv.sec)

def updateIdleTime (idleCumulation : Int) (tv : Timeval) (isIdle : Bool) : Int :=
  if isIdle then idleCumulation else idleCumulation + elapsedTime tv

/-- `fgets(buf, size, stdin)`: at most `size - 1` bytes and up to a newline, or nothing at the end of
the input. -/
def fgets (buf : CharArray maxMsgLen) (size : Nat) (stdin : List UInt8) : CharArray maxMsgLen × List UInt8 :=
  if stdin = [] then (buf, [])
  else
    let line := stdin.takeWhile (· ≠ 10) ++ (stdin.dropWhile (· ≠ 10)).take 1
    let piece := line.take (size - 1)
    (buf.fill (piece ++ [0]), stdin.drop piece.length)

/-- `strcspn(buf, "\n")`. -/
def strcspn (mem : List UInt8) : Option Nat :=
  let n := (mem.takeWhile fun c => c ≠ 10 ∧ c ≠ 0).length
  if n < mem.length then some n else none

/-- The turn of a ready keyboard, once the line is in the buffer. -/
def sendTyped (sendBuf : CharArray maxMsgLen) : Option (SbcpMsg × CharArray maxMsgLen) := do
  let cut ← strcspn sendBuf.bytes
  let sendBuf ← sendBuf.memcpy cut [0]
  let length ← strlen sendBuf.bytes
  let msg ← makeMsgSend sendBuf.bytes (length + 1)
  return (msg, sendBuf)

/-- The loop head. -/
def Client.head (c : Client) : List SbcpMsg × Client :=
  if ¬ c.isIdle ∧ c.idleCumulation ≥ idleTimeout * 1000000 then ([makeMsgIdleC], { c with isIdle := true })
  else ([], c)

/-- `select` returns. -/
def Client.selected (c : Client) (tv : Timeval) : Client :=
  { c with idleCumulation := updateIdleTime c.idleCumulation tv c.isIdle }

def Client.keyboard (c : Client) : Option (List UInt8) → Option (List SbcpMsg × Client)
  | none => some ([], c)
  | some new => do
    let (sendBuf, stdin) := fgets c.sendBuf (maxMsgLen - 1) (c.stdin ++ new)
    let (msg, sendBuf) ← sendTyped sendBuf
    return ([msg], { c with idleCumulation := 0, isIdle := false, sendBuf := sendBuf, stdin := stdin })

def readline (recvBuf : CharArray maxDataSize) : Received → CharArray maxDataSize
  | .data bytes => recvBuf.fill (bytes.take (maxDataSize - 1))
  | .error => recvBuf

/-- `none` where the server has closed the connection. -/
def Client.socket (c : Client) (behind : List UInt8) : Option Received → Option (List Printed × Client)
  | none => some ([], c)
  | some received =>
    if received.numbytes = 0 then none
    else
      let recvBuf := readline c.recvBuf received
      some ([showMessage (castMsg recvBuf) behind], { c with recvBuf := recvBuf })

/-- What one turn of the loop wrote and printed. -/
structure ClientTurn where
  idle : List SbcpMsg
  sent : List SbcpMsg
  printed : List Printed
  /-- The client at the next loop head, or `none` when it has returned. -/
  next : Option Client

/-- `none` where the client leaves an array. -/
def Client.turn (c : Client) (w : Wait) : Option ClientTurn := do
  let (idle, c) := c.head
  let (sent, c) ← (c.selected w.tv).keyboard w.typed
  match c.socket w.behind w.received with
  | none => return { idle := idle, sent := sent, printed := [{ format := "server disconnect.\n", args := [] }], next := none }
  | some (printed, c) => return { idle := idle, sent := sent, printed := printed, next := some c }

end NetProjects.Chat
