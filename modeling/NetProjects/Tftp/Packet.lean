import NetProjects.Library.Bytes

/-!
# TFTP packets

The packet constructors and parsers of the server. Packets are the byte arrays on the wire;
the server swaps the bytes of every 16-bit field on a little-endian host.
-/

namespace NetProjects.Tftp
open Bytes

inductive Opcode where
  | rrq | wrq | data | ack | error
  | unknown (code : UInt16)
  deriving DecidableEq, Repr

/-- The enumerator an `opcode_t` holding this value compares equal to. -/
def Opcode.ofCode (code : UInt16) : Opcode :=
  if code = 1 then .rrq
  else if code = 2 then .wrq
  else if code = 3 then .data
  else if code = 4 then .ack
  else if code = 5 then .error
  else .unknown code

inductive TftpErr where
  | ok | fail
  deriving DecidableEq, Repr

def maxBufLen : Nat := 512
def dataPacketLen : Nat := 516
def maxRetry : Nat := 10

/-- `tftp_data_packet_t`; the payload array has `maxBufLen` bytes. -/
structure DataPacket where
  opcode : UInt16
  blockNum : UInt16
  payload : List UInt8

structure AckPacket where
  opcode : UInt16
  blockNum : UInt16

def dataToBuffer (bufSend : List UInt8) (packet : DataPacket) : List UInt8 :=
  let bufSend := memcpy bufSend 0 (storeLE (bswap16 packet.opcode))
  let bufSend := memcpy bufSend 2 (storeLE (bswap16 packet.blockNum))
  memcpy bufSend 4 packet.payload

def ackToBuffer (bufSend : List UInt8) (packet : AckPacket) : List UInt8 :=
  let bufSend := memcpy bufSend 0 (storeLE (bswap16 packet.opcode))
  memcpy bufSend 2 (storeLE (bswap16 packet.blockNum))

def makeAckPacket (bufSend : List UInt8) (blockNum : UInt16) : List UInt8 :=
  ackToBuffer bufSend { opcode := 4, blockNum := blockNum }

def parseHeader (buf : List UInt8) : Opcode := .ofCode (bswap16 (loadLE buf))

def blockField (buf : List UInt8) : UInt16 := bswap16 (loadLE (buf.drop 2))

def parseAckPacket (bufRecv : List UInt8) (blockNum : UInt16) : TftpErr :=
  if blockField bufRecv = blockNum then .ok else .fail

/-- The block number, and the buffer with the payload moved to its front; `none` when the copy
leaves the buffer. -/
def parseDataPacket (buf : List UInt8) (numbytes : Nat) : Option (UInt16 × List UInt8) :=
  if 4 + numbytes ≤ buf.length then
    some (blockField buf, memcpy buf 0 ((buf.drop 4).take numbytes))
  else none

/-! ### Packets on the wire -/

def dataDatagram (blockNum : UInt16) (payload : List UInt8) : List UInt8 :=
  networkOrder 3 ++ networkOrder blockNum ++ payload

def ackDatagram (blockNum : UInt16) : List UInt8 := networkOrder 4 ++ networkOrder blockNum

@[simp] theorem length_dataDatagram (b : UInt16) (payload : List UInt8) :
    (dataDatagram b payload).length = 4 + payload.length := by
  simp [dataDatagram]
  omega

theorem dataDatagram_inj {b : UInt16} {p q : List UInt8} :
    dataDatagram b p = dataDatagram b q ↔ p = q := by
  simp [dataDatagram]

theorem ofCode_data : Opcode.ofCode 3 = .data := rfl

theorem ofCode_ack : Opcode.ofCode 4 = .ack := rfl

@[simp] theorem parseHeader_dataDatagram (b : UInt16) (payload : List UInt8) :
    parseHeader (dataDatagram b payload) = .data := by
  rw [parseHeader, dataDatagram, List.append_assoc, loadLE_networkOrder, bswap16_bswap16, ofCode_data]

@[simp] theorem parseHeader_ackDatagram (b : UInt16) : parseHeader (ackDatagram b) = .ack := by
  rw [parseHeader, ackDatagram, loadLE_networkOrder, bswap16_bswap16, ofCode_ack]

@[simp] theorem blockField_dataDatagram (b : UInt16) (payload : List UInt8) :
    blockField (dataDatagram b payload) = b := by
  have fields : (dataDatagram b payload).drop 2 = networkOrder b ++ payload := by
    simp [dataDatagram, networkOrder]
  rw [blockField, fields, loadLE_networkOrder, bswap16_bswap16]

@[simp] theorem blockField_ackDatagram (b : UInt16) : blockField (ackDatagram b) = b := by
  have fields : (ackDatagram b).drop 2 = networkOrder b ++ [] := by
    simp [ackDatagram, networkOrder]
  rw [blockField, fields, loadLE_networkOrder, bswap16_bswap16]

@[simp] theorem drop_dataDatagram (b : UInt16) (payload : List UInt8) :
    (dataDatagram b payload).drop 4 = payload := by
  simp [dataDatagram, networkOrder]

/-! ### What is sent -/

theorem length_header {buf : List UInt8} (size : buf.length = dataPacketLen) (code b : UInt16) :
    (memcpy (memcpy buf 0 (networkOrder code)) 2 (networkOrder b)).length = dataPacketLen := by
  simp only [dataPacketLen] at size ⊢
  rw [length_memcpy, length_memcpy, size]
  · simp [size]
  · rw [length_memcpy] <;> simp [size]

theorem take_header (buf : List UInt8) (code b : UInt16) :
    (memcpy (memcpy buf 0 (networkOrder code)) 2 (networkOrder b)).take 4 =
      networkOrder code ++ networkOrder b := by
  have front : (networkOrder code ++ networkOrder b).length = 4 := rfl
  have two : (memcpy buf 0 (networkOrder code)).take 2 = networkOrder code := by
    simp [memcpy, networkOrder]
  rw [memcpy, two]
  exact List.take_left' front

theorem length_dataToBuffer {buf : List UInt8} {packet : DataPacket} (size : buf.length = dataPacketLen)
    (payload : packet.payload.length = maxBufLen) :
    (dataToBuffer buf packet).length = dataPacketLen := by
  have header := length_header size packet.opcode packet.blockNum
  simp only [dataToBuffer, storeLE_bswap16]
  rw [length_memcpy, header]
  simp [header, payload, dataPacketLen, maxBufLen]

theorem take_dataToBuffer (buf payload room : List UInt8) (b : UInt16) {n : Nat}
    (len : n = 4 + payload.length) :
    (dataToBuffer buf { opcode := 3, blockNum := b, payload := payload ++ room }).take n =
      dataDatagram b payload := by
  subst n
  simp only [dataToBuffer, storeLE_bswap16]
  rw [memcpy, take_header, ← List.append_assoc, List.append_assoc, dataDatagram]
  apply List.take_left'
  simp only [List.length_append, length_networkOrder]

theorem take_makeAckPacket (buf : List UInt8) (b : UInt16) :
    (makeAckPacket buf b).take 4 = ackDatagram b := by
  simp only [makeAckPacket, ackToBuffer, storeLE_bswap16]
  exact take_header buf 4 b

end NetProjects.Tftp
