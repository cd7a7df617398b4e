import NetProjects.Tftp.Write

/-!
# What a write does with one event

In any mode, and with datagrams of any length.
-/

namespace NetProjects.Tftp
open Bytes

theorem wrqData_frame {mode : List UInt8} {s u : WrqState} (data : wrqData mode s = .go u) :
    u.timeoutCounter = s.timeoutCounter ∧ u.clientAddr = s.clientAddr := by
  unfold wrqData at data
  dsimp only at data
  split at data
  · cases data
  · cases data
    dsimp only
    split <;> exact ⟨rfl, rfl⟩

/-- What a DATA with a whole header makes of a waiting write; `moved` is the buffer with the payload
at its front. -/
structure TakesBlock (mode : List UInt8) (s : WrqState) (d : Datagram) (u : WrqState) (moved : List UInt8) : Prop where
  front : moved.take d.payload.length = d.payload
  size : moved.length = dataPacketLen
  buffer : u.bufRecv = moved
  number : u.blockNum = d.block
  timeouts : u.timeoutCounter = s.timeoutCounter
  addr : u.clientAddr = d.peer
  eof : u.atEOF = (s.atEOF || decide d.Short)
  writer : u.writer =
    if s.lastBlockAck < d.block then (writeDataToFile mode moved d.payload.length s.writer).1 else s.writer

/-- Once the block has been acknowledged. -/
def WrqState.answered (s : WrqState) : WrqState :=
  { s with bufSend := makeAckPacket s.bufSend s.blockNum, lastBlockAck := s.blockNum }

theorem wrqTop_eq (s : WrqState) : wrqTop s = ([⟨s.clientAddr, ackDatagram s.blockNum⟩],
    if s.atEOF then .exit (.ret .ok) s.answered else .go s.answered) := by
  unfold wrqTop
  dsimp only
  rw [take_makeAckPacket]
  rfl

section

variable {mode : List UInt8} {s : WrqState} {d : Datagram}

theorem wrqReact_upload (mode : List UInt8) (size : s.bufRecv.length = dataPacketLen) (upload : (Event.recv d).Upload) :
    ∃ u moved, wrqReact mode s (.recv d) = .go u ∧ TakesBlock mode s d u moved := by
  obtain ⟨whole, header⟩ := upload
  obtain ⟨count, moved, parsed, front, movedSize⟩ := received_payload size whole
  have opcode : parseHeader (s.received d).bufRecv = .data := by
    unfold WrqState.received
    rw [tftpRecvfrom_header s.bufRecv (by omega), header]
  have outcome := wrqReact_cases mode s (.recv d)
  generalize reacted : wrqReact mode s (.recv d) = next at outcome
  cases outcome with
  | refused other => exact absurd opcode other
  | data =>
    unfold wrqData WrqState.received
    dsimp only
    rw [count, parsed]
    refine ⟨_, moved, rfl, front, movedSize, ?_, ?_, ?_, ?_, ?_, ?_⟩ <;>
      · dsimp only
        split <;> rfl

/-- Anything else that is received ends the write, and nothing is written. -/
theorem wrqReact_other (mode : List UInt8) (size : s.bufRecv.length = dataPacketLen) (other : ¬ (Event.recv d).Upload) :
    ∃ x u, wrqReact mode s (.recv d) = .exit x u ∧ x ≠ .ret .ok ∧ u.writer = s.writer := by
  have outcome := wrqReact_cases mode s (.recv d)
  generalize reacted : wrqReact mode s (.recv d) = next at outcome
  cases outcome with
  | refused => exact ⟨_, _, rfl, by simp, rfl⟩
  | data header =>
    have short : d.bytes.length < 4 := by
      by_contra whole
      unfold WrqState.received at header
      rw [tftpRecvfrom_header s.bufRecv (by omega)] at header
      exact other ⟨Nat.le_of_not_lt whole, header⟩
    -- The length has wrapped, and the copy leaves the buffer.
    have received := tftpRecvfrom_length size d
    have outside : parseDataPacket (tftpRecvfrom s.bufRecv d).buf (sizeSub (tftpRecvfrom s.bufRecv d).numbytes 4) = none := by
      have count : (tftpRecvfrom s.bufRecv d).numbytes = d.bytes.length :=
        congrArg List.length (List.take_of_length_le (by rw [dataPacketLen]; omega))
      have wrapped : sizeSub d.bytes.length 4 = d.bytes.length + 2 ^ 64 - 4 := if_neg (by omega)
      unfold parseDataPacket
      rw [count, wrapped, received, dataPacketLen]
      exact if_neg (by omega)
    unfold wrqData WrqState.received
    dsimp only
    rw [outside]
    exact ⟨_, _, rfl, by simp, rfl⟩

theorem wrqTop_go {out : List Datagram} {u : WrqState} (top : wrqTop s = (out, .go u)) :
    s.atEOF = false ∧ out = [⟨s.clientAddr, ackDatagram s.blockNum⟩] ∧ u = s.answered := by
  rw [wrqTop_eq] at top
  cases eof : s.atEOF with
  | true =>
    rw [eof, if_pos rfl] at top
    cases top
  | false =>
    rw [eof, if_neg Bool.false_ne_true] at top
    cases top
    exact ⟨rfl, rfl, rfl⟩

theorem wrqReact_go {e : Event} {u : WrqState} (size : s.bufRecv.length = dataPacketLen) (react : wrqReact mode s e = .go u) :
    (e = .timeout ∧ u = { s with timeoutCounter := s.timeoutCounter + 1 }) ∨
      ∃ d moved, e = .recv d ∧ (Event.recv d).Upload ∧ TakesBlock mode s d u moved := by
  cases e with
  | timeout =>
    have outcome := wrqReact_cases mode s .timeout
    rw [react] at outcome
    cases outcome
    exact Or.inl ⟨rfl, rfl⟩
  | recv d =>
    by_cases upload : (Event.recv d).Upload
    · obtain ⟨v, moved, goes, takes⟩ := wrqReact_upload mode size upload
      cases goes.symm.trans react
      exact Or.inr ⟨d, moved, rfl, upload, takes⟩
    · obtain ⟨x, v, exits, _⟩ := wrqReact_other mode size upload
      cases exits.symm.trans react

/-- Wherever a write waits its buffer is whole and the last block has not come. -/
theorem wrq_waits {client : SockAddr} {es : List Event} {out : List Datagram} (run : wrqHandler mode client es = (out, .go s)) :
    s.bufRecv.length = dataPacketLen ∧ s.atEOF = false ∧ s.lastBlockAck = s.blockNum := by
  refine EventLoop.waiting_rule (m := wrqLoop mode)
    (I := fun _ _ s => s.bufRecv.length = dataPacketLen ∧ s.atEOF = false ∧ s.lastBlockAck = s.blockNum) ?_ ?_ run
  · intro out u top
    obtain ⟨more, _, rfl⟩ := wrqTop_go top
    exact ⟨List.length_replicate, more, rfl⟩
  · rintro es out s e u next v ⟨size, _, _⟩ react top
    obtain ⟨more, _, rfl⟩ := wrqTop_go top
    refine ⟨?_, more, rfl⟩
    obtain ⟨_, rfl⟩ | ⟨d, moved, _, _, takes⟩ := wrqReact_go size react
    · exact size
    · change u.bufRecv.length = dataPacketLen
      rw [takes.buffer, takes.size]

end

end NetProjects.Tftp
