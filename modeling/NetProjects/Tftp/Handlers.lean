import NetProjects.Library.EventLoop
import NetProjects.Tftp.File

/-!
# The transfer loops

`rrqHandler` and `wrqHandler` are the `while` loops of the two request handlers, entered once the
request is parsed and the file is open. The environment gives the loop one event for each
`select`: a timeout or one datagram.
-/

namespace NetProjects.Tftp
open Bytes

/-- The part of a `sockaddr` that `recvfrom` fills in. -/
structure SockAddr where
  addr : UInt32
  port : UInt16
  deriving DecidableEq, Repr

structure Datagram where
  peer : SockAddr
  bytes : List UInt8
  deriving DecidableEq, Repr

inductive Event where
  | timeout
  | recv (d : Datagram)
  deriving DecidableEq, Repr

/-- How a handler ends: it returns, or a copy leaves its buffer. -/
inductive Exit where
  | ret (r : TftpErr)
  | fault
  deriving DecidableEq, Repr

structure Received where
  buf : List UInt8
  numbytes : Nat
  peer : SockAddr

/-- At most `dataPacketLen` bytes are stored; the rest of the buffer keeps what it held. -/
def tftpRecvfrom (buf : List UInt8) (d : Datagram) : Received :=
  let got := d.bytes.take dataPacketLen
  { buf := memcpy buf 0 got, numbytes := got.length, peer := d.peer }

def emptyBuf : List UInt8 := List.replicate dataPacketLen 0

/-! ### Read requests -/

structure RrqState where
  reader : Reader
  blockNum : UInt16
  bufSend : List UInt8
  bufRecv : List UInt8
  numbytes : Nat
  isEOF : Bool
  timeoutCounter : Nat
  clientAddr : SockAddr

def RrqState.start (file : List UInt8) (client : SockAddr) : RrqState :=
  { reader := .start file, blockNum := 1, bufSend := emptyBuf, bufRecv := emptyBuf, numbytes := 0
    isEOF := false, timeoutCounter := 0, clientAddr := client }

/-- From the loop head to `select`: the next block of the file is read and sent. -/
def rrqTop (mode : List UInt8) (s : RrqState) : List Datagram × Next RrqState Exit :=
  let made := makeDataPacket mode s.blockNum s.bufSend s.reader
  ([{ peer := s.clientAddr, bytes := made.bufSend.take (sizeAdd 4 made.numbytes) }],
    .go { s with reader := made.reader, bufSend := made.bufSend, numbytes := made.numbytes
                 isEOF := decide (made.numbytes < maxBufLen) })

def rrqReact (s : RrqState) : Event → Next RrqState Exit
  | .timeout =>
    let s := { s with timeoutCounter := s.timeoutCounter + 1 }
    if s.timeoutCounter = maxRetry then .exit (.ret .fail) s else .go s
  | .recv d =>
    let got := tftpRecvfrom s.bufRecv d
    let s := { s with bufRecv := got.buf, numbytes := got.numbytes, clientAddr := got.peer }
    match parseHeader s.bufRecv with
    | .error => .exit (.ret .fail) s
    | .ack =>
      if parseAckPacket s.bufRecv s.blockNum = .ok then
        let s := { s with blockNum := s.blockNum + 1 }
        if s.isEOF then .exit (.ret .ok) s else .go s
      else .go s
    | _ => .go s

def rrqLoop (mode : List UInt8) : EventLoop RrqState Event Datagram Exit where
  top := rrqTop mode
  react := rrqReact

/-- Everything `rrq_handler` sends over the events, and how it ends or waits. -/
def rrqHandler (mode file : List UInt8) (client : SockAddr) (events : List Event) :
    List Datagram × Next RrqState Exit :=
  (rrqLoop mode).run (.start file client) events

/-! ### Write requests -/

structure WrqState where
  writer : Writer
  blockNum : UInt16
  lastBlockAck : UInt16
  bufSend : List UInt8
  bufRecv : List UInt8
  numbytes : Nat
  atEOF : Bool
  timeoutCounter : Nat
  clientAddr : SockAddr
  /-- Ghost: the blocks handed to `write_data_to_file`, oldest first. -/
  appended : List (UInt16 × List UInt8)

def WrqState.start (client : SockAddr) : WrqState :=
  { writer := .start, blockNum := 0, lastBlockAck := 0, bufSend := emptyBuf, bufRecv := emptyBuf
    numbytes := 0, atEOF := false, timeoutCounter := 0, clientAddr := client, appended := [] }

def wrqTop (s : WrqState) : List Datagram × Next WrqState Exit :=
  let bufSend := makeAckPacket s.bufSend s.blockNum
  let s := { s with bufSend := bufSend, lastBlockAck := s.blockNum }
  ([{ peer := s.clientAddr, bytes := bufSend.take 4 }],
    if s.atEOF then .exit (.ret .ok) s else .go s)

/-- The block in `buf_recv` is written when its number exceeds the last one acknowledged. -/
def wrqData (mode : List UInt8) (s : WrqState) : Next WrqState Exit :=
  -- `numbytes` is unsigned, and a datagram of less than 4 bytes wraps it.
  let numbytes := sizeSub s.numbytes 4
  match parseDataPacket s.bufRecv numbytes with
  | none => .exit .fault s
  | some (blockNum, bufRecv) =>
    let s := { s with blockNum := blockNum, bufRecv := bufRecv, numbytes := numbytes }
    let s :=
      if s.lastBlockAck < s.blockNum then
        { s with writer := (writeDataToFile mode s.bufRecv numbytes s.writer).1
                 appended := s.appended ++ [(s.blockNum, s.bufRecv.take numbytes)] }
      else s
    .go { s with atEOF := s.atEOF || decide (numbytes < maxBufLen) }

def wrqReact (mode : List UInt8) (s : WrqState) : Event → Next WrqState Exit
  | .timeout =>
    let s := { s with timeoutCounter := s.timeoutCounter + 1 }
    if s.timeoutCounter = maxRetry then .exit (.ret .fail) s else .go s
  | .recv d =>
    let got := tftpRecvfrom s.bufRecv d
    let s := { s with bufRecv := got.buf, numbytes := got.numbytes, clientAddr := got.peer }
    match parseHeader s.bufRecv with
    | .data => wrqData mode s
    | _ => .exit (.ret .fail) s

def wrqLoop (mode : List UInt8) : EventLoop WrqState Event Datagram Exit where
  top := wrqTop
  react := wrqReact mode

def wrqHandler (mode : List UInt8) (client : SockAddr) (events : List Event) :
    List Datagram × Next WrqState Exit :=
  (wrqLoop mode).run (.start client) events

/-! ### Events and outcomes -/

def Event.nextPeer (peer : SockAddr) : Event → SockAddr
  | .timeout => peer
  | .recv d => d.peer

def Event.nextTimeout (t : Nat) : Event → Nat
  | .timeout => t + 1
  | .recv _ => t

def Returned {σ : Type} (outcome : Next σ Exit) (r : TftpErr) : Prop := ∃ s, outcome = .exit (.ret r) s

def Waiting {σ : Type} (outcome : Next σ Exit) : Prop := ∃ s, outcome = .go s

/-! ### What is received -/

theorem tftpRecvfrom_length {buf : List UInt8} (size : buf.length = dataPacketLen) (d : Datagram) :
    (tftpRecvfrom buf d).buf.length = dataPacketLen := by
  rw [tftpRecvfrom, length_memcpy, size]
  rw [List.length_take, size]
  omega

theorem tftpRecvfrom_header (buf : List UInt8) {d : Datagram} (h : 2 ≤ d.bytes.length) :
    parseHeader (tftpRecvfrom buf d).buf = parseHeader d.bytes := by
  simp only [tftpRecvfrom, parseHeader, memcpy_zero]
  rw [loadLE_append, loadLE_take]
  · decide
  · simp only [List.length_take, dataPacketLen]
    omega

theorem tftpRecvfrom_block (buf : List UInt8) {d : Datagram} (h : 4 ≤ d.bytes.length) :
    blockField (tftpRecvfrom buf d).buf = blockField d.bytes := by
  have room : 2 ≤ (d.bytes.take dataPacketLen).length := by
    simp only [List.length_take, dataPacketLen]
    omega
  simp only [tftpRecvfrom, blockField, memcpy_zero]
  rw [List.drop_append_of_le_length room, loadLE_append, List.drop_take, loadLE_take]
  · decide
  · simp only [List.length_drop, List.length_take, dataPacketLen]
    omega

/-! ### What one event does to a read -/

def RrqState.received (s : RrqState) (d : Datagram) : RrqState :=
  let got := tftpRecvfrom s.bufRecv d
  { s with bufRecv := got.buf, numbytes := got.numbytes, clientAddr := got.peer }

def RrqState.next (s : RrqState) : RrqState := { s with blockNum := s.blockNum + 1 }

/-- The buffer holds a matching ACK once the datagram is received. -/
def RrqState.AckedBy (s : RrqState) (d : Datagram) : Prop :=
  parseHeader (s.received d).bufRecv = .ack ∧ blockField (s.received d).bufRecv = s.blockNum

inductive RrqReacted (s : RrqState) : Event → Next RrqState Exit → Prop where
  | waited (more : s.timeoutCounter + 1 ≠ maxRetry) :
      RrqReacted s .timeout (.go { s with timeoutCounter := s.timeoutCounter + 1 })
  | gaveUp (last : s.timeoutCounter + 1 = maxRetry) :
      RrqReacted s .timeout (.exit (.ret .fail) { s with timeoutCounter := s.timeoutCounter + 1 })
  | failed {d : Datagram} (error : parseHeader (s.received d).bufRecv = .error) :
      RrqReacted s (.recv d) (.exit (.ret .fail) (s.received d))
  | finished {d : Datagram} (acks : s.AckedBy d) (last : s.isEOF = true) :
      RrqReacted s (.recv d) (.exit (.ret .ok) (s.received d).next)
  | advanced {d : Datagram} (acks : s.AckedBy d) (more : s.isEOF = false) :
      RrqReacted s (.recv d) (.go (s.received d).next)
  | ignored {d : Datagram} (sound : parseHeader (s.received d).bufRecv ≠ .error) (stale : ¬ s.AckedBy d) :
      RrqReacted s (.recv d) (.go (s.received d))

theorem parseAckPacket_ok (buf : List UInt8) (blockNum : UInt16) :
    parseAckPacket buf blockNum = .ok ↔ blockField buf = blockNum := by
  unfold parseAckPacket
  split
  · rename_i number
    exact iff_of_true rfl number
  · rename_i other
    exact iff_of_false TftpErr.noConfusion other

theorem rrqReact_cases (s : RrqState) (e : Event) : RrqReacted s e (rrqReact s e) := by
  cases e with
  | timeout =>
    unfold rrqReact
    dsimp only
    split
    · rename_i last
      exact .gaveUp last
    · rename_i more
      exact .waited more
  | recv d =>
    unfold rrqReact
    dsimp only
    split
    · rename_i error
      exact .failed error
    · rename_i header
      split
      · rename_i number
        rw [parseAckPacket_ok] at number
        split
        · rename_i last
          exact .finished ⟨header, number⟩ last
        · rename_i more
          exact .advanced ⟨header, number⟩ (Bool.not_eq_true _ ▸ more)
      · rename_i stale
        rw [parseAckPacket_ok] at stale
        have sound : parseHeader (s.received d).bufRecv ≠ .error := fun error => Opcode.noConfusion (header.symm.trans error)
        exact .ignored sound fun acks => stale acks.2
    · rename_i sound other
      exact .ignored sound fun acks => other acks.1

/-! ### What one event does to a write -/

def WrqState.received (s : WrqState) (d : Datagram) : WrqState :=
  let got := tftpRecvfrom s.bufRecv d
  { s with bufRecv := got.buf, numbytes := got.numbytes, clientAddr := got.peer }

inductive WrqReacted (mode : List UInt8) (s : WrqState) : Event → Next WrqState Exit → Prop where
  | waited (more : s.timeoutCounter + 1 ≠ maxRetry) :
      WrqReacted mode s .timeout (.go { s with timeoutCounter := s.timeoutCounter + 1 })
  | gaveUp (last : s.timeoutCounter + 1 = maxRetry) :
      WrqReacted mode s .timeout (.exit (.ret .fail) { s with timeoutCounter := s.timeoutCounter + 1 })
  | refused {d : Datagram} (other : parseHeader (s.received d).bufRecv ≠ .data) :
      WrqReacted mode s (.recv d) (.exit (.ret .fail) (s.received d))
  | data {d : Datagram} (header : parseHeader (s.received d).bufRecv = .data) :
      WrqReacted mode s (.recv d) (wrqData mode (s.received d))

theorem wrqReact_cases (mode : List UInt8) (s : WrqState) (e : Event) : WrqReacted mode s e (wrqReact mode s e) := by
  cases e with
  | timeout =>
    unfold wrqReact
    dsimp only
    split
    · rename_i last
      exact .gaveUp last
    · rename_i more
      exact .waited more
  | recv d =>
    unfold wrqReact
    dsimp only
    split
    · rename_i header
      exact .data header
    · rename_i other
      exact .refused other

end NetProjects.Tftp
