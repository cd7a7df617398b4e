import NetProjects.Library.CharArray
import NetProjects.Tftp.Packet

/-!
# The packet codecs

What the constructors put on the wire against what the parsers read there.
-/

namespace NetProjects.Tftp
open Bytes

/-- The copy of `parse_data_packet` overlaps its source. Copied byte by byte from the front it has
the same outcome. -/
theorem parseDataPacket_forward {buf : List UInt8} {n : Nat} (inside : 4 + n ≤ buf.length) :
    parseDataPacket buf n = some (blockField buf, copyForward buf 0 4 n) := by
  rw [parseDataPacket, if_pos inside, copyForward_eq (Nat.zero_le 4) inside]

/-- All 516 bytes of the buffer are written. -/
theorem dataToBuffer_eq (bufSend : CharArray dataPacketLen) (b : UInt16) (payload : CharArray maxBufLen) :
    dataToBuffer bufSend.bytes { opcode := 3, blockNum := b, payload := payload.bytes } =
      dataDatagram b payload.bytes := by
  have whole := take_dataToBuffer bufSend.bytes payload.bytes [] b (n := dataPacketLen)
    (by rw [payload.size]; rfl)
  have size : (dataToBuffer bufSend.bytes { opcode := 3, blockNum := b, payload := payload.bytes }).length =
      dataPacketLen := length_dataToBuffer bufSend.size payload.size
  rwa [List.append_nil, List.take_of_length_le size.le] at whole

theorem take_dataDatagram (b : UInt16) (payload : List UInt8) (n : Nat) :
    (dataDatagram b payload).take (4 + n) = dataDatagram b (payload.take n) := by
  have front : (networkOrder 3 ++ networkOrder b).length = 4 := rfl
  rw [dataDatagram, List.take_append, front, Nat.add_sub_cancel_left, List.take_of_length_le (by rw [front]; omega)]
  rfl

/-- A data packet is read as it was written, whatever the buffer holds behind it, and its payload
moved to the front. -/
theorem parse_dataDatagram (b : UInt16) (payload rest : List UInt8) :
    parseHeader (dataDatagram b payload ++ rest) = .data ∧
      parseDataPacket (dataDatagram b payload ++ rest) payload.length =
        some (b, payload ++ (dataDatagram b payload ++ rest).drop payload.length) := by
  have whole : dataDatagram b payload ++ rest = dataDatagram b (payload ++ rest) := by
    rw [dataDatagram, dataDatagram, List.append_assoc]
  have inside : 4 + payload.length ≤ (dataDatagram b (payload ++ rest)).length := by
    rw [length_dataDatagram, List.length_append]
    omega
  rw [whole]
  refine ⟨parseHeader_dataDatagram b _, ?_⟩
  rw [parseDataPacket, if_pos inside, blockField_dataDatagram, drop_dataDatagram, List.take_left, memcpy_zero]

theorem parse_ackDatagram (b b' : UInt16) (rest : List UInt8) :
    parseHeader (ackDatagram b ++ rest) = .ack ∧ (parseAckPacket (ackDatagram b ++ rest) b' = .ok ↔ b = b') := by
  have header : parseHeader (ackDatagram b ++ rest) = .ack := by
    rw [parseHeader, ackDatagram, List.append_assoc, loadLE_networkOrder, bswap16_bswap16, ofCode_ack]
  have field : blockField (ackDatagram b ++ rest) = b := by
    have fields : (ackDatagram b ++ rest).drop 2 = networkOrder b ++ rest := rfl
    rw [blockField, fields, loadLE_networkOrder, bswap16_bswap16]
  refine ⟨header, ?_⟩
  rw [parseAckPacket, field]
  by_cases same : b = b'
  · rw [if_pos same]
    exact iff_of_true rfl same
  · rw [if_neg same]
    exact iff_of_false (by decide) same

theorem makeAckPacket_eq (bufSend : List UInt8) (b : UInt16) :
    makeAckPacket bufSend b = ackDatagram b ++ (makeAckPacket bufSend b).drop 4 := by
  rw [← take_makeAckPacket bufSend b, List.take_append_drop]

/-- What the server makes it reads back: of `n` bytes of payload exactly these are left at the front
of the buffer, and an ACK is accepted for its own block only. -/
theorem codecs_agree (bufSend ackSend : CharArray dataPacketLen) (payload : CharArray maxBufLen) (b b' : UInt16)
    (rest : List UInt8) {n : Nat} (short : n ≤ maxBufLen) :
    let sent := dataToBuffer bufSend.bytes { opcode := 3, blockNum := b, payload := payload.bytes }
    let received := sent.take (4 + n) ++ rest
    let ack := makeAckPacket ackSend.bytes b
    sent = networkOrder 3 ++ networkOrder b ++ payload.bytes ∧
      parseHeader received = .data ∧
      parseDataPacket received n = some (b, payload.bytes.take n ++ received.drop n) ∧
      copyForward received 0 4 n = payload.bytes.take n ++ received.drop n ∧
      parseHeader ack = .ack ∧ (parseAckPacket ack b' = .ok ↔ b = b') := by
  intro sent received ack
  have sentEq : sent = dataDatagram b payload.bytes := dataToBuffer_eq bufSend b payload
  have receivedEq : received = dataDatagram b (payload.bytes.take n) ++ rest := by
    change sent.take (4 + n) ++ rest = _
    rw [sentEq, take_dataDatagram]
  have size : (payload.bytes.take n).length = n := List.length_take_of_le (short.trans payload.size.ge)
  obtain ⟨header, parsed⟩ := parse_dataDatagram b (payload.bytes.take n) rest
  rw [← receivedEq] at header parsed
  rw [size] at parsed
  have inside : 4 + n ≤ received.length := by
    rw [receivedEq, List.length_append, length_dataDatagram, size]
    omega
  have moved := (parseDataPacket_forward inside).symm.trans parsed
  have ackEq : ack = ackDatagram b ++ ack.drop 4 := makeAckPacket_eq ackSend.bytes b
  obtain ⟨ackHeader, accepted⟩ := parse_ackDatagram b b' (ack.drop 4)
  rw [← ackEq] at ackHeader accepted
  exact ⟨sentEq, header, parsed, (Prod.mk.inj (Option.some.inj moved)).2, ackHeader, accepted⟩

/-- Block 515 with three bytes of payload, in a buffer that held something longer before. -/
theorem codecs_agree_short :
    parseDataPacket ((dataToBuffer (CharArray.zero dataPacketLen).bytes
      { opcode := 3, blockNum := 515, payload := ((CharArray.zero maxBufLen).fill [7, 8, 9]).bytes }).take (4 + 3) ++ [1])
      3 = some (515, [7, 8, 9, 3, 7, 8, 9, 1]) := by
  obtain ⟨_, _, parsed, _⟩ := codecs_agree (.zero dataPacketLen) (.zero dataPacketLen)
    ((CharArray.zero maxBufLen).fill [7, 8, 9]) 515 0 [1] (n := 3) (by decide)
  rw [parsed]
  decide

end NetProjects.Tftp
