import NetProjects.Tftp.Handlers

/-!
# Requests

The two handlers from the parsed request on: the existence check, the open and then the loop.
-/

namespace NetProjects.Tftp
open Bytes

inductive ErrorCode where
  | fileNotFound | fileExists
  deriving DecidableEq, Repr

def ErrorCode.code : ErrorCode → UInt16
  | fileNotFound => 1
  | fileExists => 6

/-- `tftp_error_packet_t`; `errorMsg` has 128 bytes. -/
structure ErrorPacket where
  opcode : UInt16
  errorCode : UInt16
  errorMsg : List UInt8

def errorToBuffer (bufSend : List UInt8) (packet : ErrorPacket) : List UInt8 :=
  let bufSend := memcpy bufSend 0 (storeLE (bswap16 packet.opcode))
  let bufSend := memcpy bufSend 2 (storeLE (bswap16 packet.errorCode))
  memcpy bufSend 4 packet.errorMsg

def makeErrorPacket (errorCode : ErrorCode) (errorMsg bufSend : List UInt8) : List UInt8 :=
  errorToBuffer bufSend
    { opcode := 5, errorCode := errorCode.code, errorMsg := memcpy (List.replicate 128 0) 0 errorMsg }

/-- The name is cut to nine characters. -/
def fileMessage (filename : List UInt8) (reason : String) : List UInt8 :=
  cstr "file '" ++ filename.take 9 ++ cstr "'... " ++ cstr reason

/-- `rrq_handler` for a file that is there with its contents or is not, and that `fopen` opens or not. -/
def rrqRequest (filename mode : List UInt8) (file : Option (List UInt8)) (opens : Bool) (client : SockAddr)
    (events : List Event) : List Datagram × Next RrqState Exit :=
  match file with
  | none =>
    ([⟨client, makeErrorPacket .fileNotFound (fileMessage filename "not found.") emptyBuf⟩],
      .exit (.ret .fail) (.start [] client))
  | some file =>
    if opens then rrqHandler mode file client events else ([], .exit (.ret .fail) (.start file client))

def wrqRequest (filename mode : List UInt8) (present opens : Bool) (client : SockAddr) (events : List Event) :
    List Datagram × Next WrqState Exit :=
  if present then
    ([⟨client, makeErrorPacket .fileExists (fileMessage filename "already exists.") emptyBuf⟩],
      .exit (.ret .fail) (.start client))
  else if opens then wrqHandler mode client events
  else ([], .exit (.ret .fail) (.start client))

/-! ### Error packets on the wire -/

/-- An ERROR packet has a code, and a text that ends with a zero. -/
def IsError (bytes : List UInt8) : Prop :=
  ∃ code text rest, bytes = networkOrder 5 ++ networkOrder code ++ text ++ 0 :: rest

theorem length_fileMessage (filename : List UInt8) {reason : String} (short : (cstr reason).length ≤ 20) :
    (fileMessage filename reason).length ≤ 40 := by
  have cut := List.length_take_le 9 filename
  have prefixes : (cstr "file '").length = 6 ∧ (cstr "'... ").length = 5 := by decide
  simp only [fileMessage, List.length_append, prefixes.1, prefixes.2]
  omega

theorem makeErrorPacket_isError (code : ErrorCode) {text : List UInt8} (fits : text.length < 128) (buf : List UInt8) :
    IsError (makeErrorPacket code text buf) := by
  have packet := take_header buf 5 code.code
  have msg : memcpy (List.replicate 128 0) 0 text = text ++ 0 :: List.replicate (127 - text.length) 0 := by
    rw [memcpy_zero, List.drop_replicate, ← List.replicate_succ, show 127 - text.length + 1 = 128 - text.length by omega]
  refine ⟨code.code, text, List.replicate (127 - text.length) 0 ++
    (memcpy (memcpy buf 0 (networkOrder 5)) 2 (networkOrder code.code)).drop (4 + 128), ?_⟩
  have size : (memcpy (List.replicate 128 0) 0 text).length = 128 := by
    rw [length_memcpy (by rw [List.length_replicate]; omega), List.length_replicate]
  simp only [makeErrorPacket, errorToBuffer, storeLE_bswap16]
  rw [memcpy, size, packet, msg]
  simp only [List.append_assoc, List.cons_append]

end NetProjects.Tftp
