import NetProjects.Tftp.Packet

/-!
# Reading and writing the transferred file

`readBlock` fills one payload from the file, `writeDataToFile` appends one payload to it. Each
has a `netascii` and an `octet` branch and keeps one pending character between calls.
-/

namespace NetProjects.Tftp
open Bytes

def netascii : List UInt8 := cstr "netascii"
def octet : List UInt8 := cstr "octet"

def lf : UInt8 := 10
def cr : UInt8 := 13
def nul : UInt8 := 0

/-- The `char` -1, which both filters also use for "no pending character". -/
def minusOne : UInt8 := 255

structure Reader where
  fp : List UInt8
  nextchar : UInt8

def Reader.start (file : List UInt8) : Reader := { fp := file, nextchar := minusOne }

/-- The `netascii` loop of `read_block` with room for `room` more bytes. -/
def readNetascii : Nat → Reader → List UInt8 × Reader
  | 0, r => ([], r)
  | room + 1, r =>
    if 0 ≤ signedChar r.nextchar then
      let rest := readNetascii room { r with nextchar := minusOne }
      (r.nextchar :: rest.1, rest.2)
    else
      match r.fp with
      | [] => ([], r)
      | c :: fp =>
        -- The byte 255 compares equal to EOF.
        if signedChar c = -1 then ([], { r with fp := fp })
        else if c = lf then
          let rest := readNetascii room { fp := fp, nextchar := lf }
          (cr :: rest.1, rest.2)
        else if c = cr then
          let rest := readNetascii room { fp := fp, nextchar := nul }
          (c :: rest.1, rest.2)
        else
          let rest := readNetascii room { fp := fp, nextchar := minusOne }
          (c :: rest.1, rest.2)

/-- The bytes read into the payload, their count as the caller stores it, and the file after. -/
def readBlock (mode : List UInt8) (r : Reader) : List UInt8 × Nat × Reader :=
  if mode = netascii then
    let got := readNetascii maxBufLen r
    (got.1, got.1.length, got.2)
  else if mode = octet then
    let bytes := r.fp.take maxBufLen
    (bytes, bytes.length, { r with fp := r.fp.drop maxBufLen })
  else ([], sizeMax, r)

structure DataMade where
  bufSend : List UInt8
  numbytes : Nat
  reader : Reader
  result : TftpErr

/-- The payload array starts zeroed; a failed read leaves `buf_send` as it was. -/
def makeDataPacket (mode : List UInt8) (blockNum : UInt16) (bufSend : List UInt8) (r : Reader) : DataMade :=
  let got := readBlock mode r
  if got.2.1 = sizeMax then
    { bufSend := bufSend, numbytes := got.2.1, reader := got.2.2, result := .fail }
  else
    let payload := memcpy (List.replicate maxBufLen 0) 0 got.1
    { bufSend := dataToBuffer bufSend { opcode := 3, blockNum := blockNum, payload := payload }
      numbytes := got.2.1, reader := got.2.2, result := .ok }

structure Writer where
  fd : List UInt8
  nextchar : UInt8

def Writer.start : Writer := { fd := [], nextchar := minusOne }

def Writer.putc (w : Writer) (c : UInt8) : Writer := { w with fd := w.fd ++ [c] }

/-- The `netascii` loop of `write_data_to_file` with `left` payload bytes to go, at the front of
`buf`, and how far it advanced `numbytes`. The byte after a CR is read from the buffer even where
the payload has ended. -/
def writeNetascii : Nat → List UInt8 → Writer → Writer × Nat
  | 0, _, w => (w, 0)
  | left + 1, buf, w =>
    if 0 ≤ signedChar w.nextchar then
      let rest := writeNetascii left (buf.drop 1) { w.putc w.nextchar with nextchar := minusOne }
      (rest.1, rest.2 + 1)
    else
      let c := buf.getD 0 0
      if signedChar c = -1 then (w, 0)
      else if c = cr ∧ (buf.getD 1 0 = nul ∨ buf.getD 1 0 = lf) then
        let c := if buf.getD 1 0 = nul then c else lf
        match left with
        | 0 => (w.putc c, 2)
        | left + 1 =>
          let rest := writeNetascii left (buf.drop 2) (w.putc c)
          (rest.1, rest.2 + 2)
      else
        let w := if c = cr then w else { w with nextchar := minusOne }
        let rest := writeNetascii left (buf.drop 1) (w.putc c)
        (rest.1, rest.2 + 1)

def writeDataToFile (mode : List UInt8) (buf : List UInt8) (numbytes : Nat) (w : Writer) : Writer × Nat :=
  if mode = netascii then writeNetascii numbytes buf w
  else if mode = octet then ({ w with fd := w.fd ++ buf.take numbytes }, numbytes)
  else (w, sizeMax)

/-! ### What is read from the buffer -/

theorem take_drop_same {buf buf' : List UInt8} {n m k : Nat} (same : buf.take n = buf'.take n) (fits : m + k ≤ n) :
    (buf.drop k).take m = (buf'.drop k).take m := by
  have front := congrArg (List.take (k + m)) same
  rw [List.take_take, List.take_take, Nat.min_eq_left (by omega)] at front
  rw [List.take_drop, List.take_drop, front]

theorem getD_same {buf buf' : List UInt8} {n k : Nat} (same : buf.take n = buf'.take n) (inside : k < n) :
    buf.getD k 0 = buf'.getD k 0 := by
  rw [List.getD_eq_getElem?_getD, List.getD_eq_getElem?_getD, ← List.getElem?_take_of_lt inside, same,
    List.getElem?_take_of_lt inside]

/-- The filter reads the payload and at most one byte behind it. -/
theorem writeNetascii_congr {buf buf' : List UInt8} {n : Nat} (same : buf.take (n + 1) = buf'.take (n + 1)) (w : Writer) :
    writeNetascii n buf w = writeNetascii n buf' w := by
  induction n using Nat.strongRecOn generalizing buf buf' w with
  | ind n ih =>
    cases n with
    | zero => rfl
    | succ n =>
      have first : buf.getD 0 0 = buf'.getD 0 0 := getD_same same (by omega)
      have second : buf.getD 1 0 = buf'.getD 1 0 := getD_same same (by omega)
      have one := fun w => ih n (by omega) (take_drop_same (k := 1) same (by omega)) w
      unfold writeNetascii
      rw [first, second]
      simp only [one]
      cases n with
      | zero => rfl
      | succ n =>
        have two := fun w => ih n (by omega) (take_drop_same (k := 2) same (by omega)) w
        simp only [two]

theorem writeDataToFile_congr {buf buf' : List UInt8} {n : Nat} (same : buf.take (n + 1) = buf'.take (n + 1))
    (mode : List UInt8) (w : Writer) : writeDataToFile mode buf n w = writeDataToFile mode buf' n w := by
  have front : buf.take n = buf'.take n := take_drop_same (k := 0) same (by omega)
  unfold writeDataToFile
  rw [writeNetascii_congr same, front]

/-! ### Octet mode -/

theorem octet_ne_netascii : octet ≠ netascii := by decide

theorem readBlock_octet (r : Reader) :
    readBlock octet r =
      (r.fp.take maxBufLen, (r.fp.take maxBufLen).length, { r with fp := r.fp.drop maxBufLen }) := by
  rw [readBlock, if_neg octet_ne_netascii, if_pos rfl]

theorem writeDataToFile_octet (buf : List UInt8) (numbytes : Nat) (w : Writer) :
    (writeDataToFile octet buf numbytes w).1 = { w with fd := w.fd ++ buf.take numbytes } := by
  rw [writeDataToFile, if_neg octet_ne_netascii, if_pos rfl]

/-- What a read delivers is sent as it is. -/
theorem makeDataPacket_of_block {mode bufSend payload : List UInt8} {r : Reader} (b : UInt16)
    (size : bufSend.length = dataPacketLen) (block : (readBlock mode r).1 = payload)
    (count : (readBlock mode r).2.1 = payload.length) (bound : payload.length ≤ maxBufLen) :
    let made := makeDataPacket mode b bufSend r
    made.bufSend.take (sizeAdd 4 made.numbytes) = dataDatagram b payload ∧ made.bufSend.length = dataPacketLen ∧
      made.numbytes = payload.length ∧ made.reader = (readBlock mode r).2.2 := by
  have small : payload.length ≤ 512 := bound
  have goes : payload.length ≠ sizeMax := by
    unfold sizeMax
    omega
  have noWrap : sizeAdd 4 payload.length = 4 + payload.length := by
    unfold sizeAdd
    apply if_pos
    unfold sizeMax
    omega
  have room : memcpy (List.replicate maxBufLen 0) 0 payload = payload ++ List.replicate (maxBufLen - payload.length) 0 := by
    rw [memcpy_zero, List.drop_replicate]
  simp only [makeDataPacket, block, count, if_neg goes, noWrap, room]
  refine ⟨take_dataToBuffer _ _ _ _ rfl, length_dataToBuffer size ?_, trivial, trivial⟩
  rw [List.length_append, List.length_replicate]
  exact Nat.add_sub_cancel' bound

/-- Block `k` of the file is what the read at position `512 * k` puts in the packet. -/
theorem makeDataPacket_octet {bufSend file : List UInt8} {r : Reader} {k : Nat} (b : UInt16)
    (size : bufSend.length = dataPacketLen) (position : r.fp = file.drop (maxBufLen * k)) :
    let made := makeDataPacket octet b bufSend r
    made.bufSend.take (sizeAdd 4 made.numbytes) = dataDatagram b (chunk maxBufLen file k) ∧
      made.bufSend.length = dataPacketLen ∧ made.numbytes = (chunk maxBufLen file k).length ∧
      made.reader.fp = file.drop (maxBufLen * (k + 1)) := by
  intro made
  have block : (readBlock octet r).1 = chunk maxBufLen file k := by
    rw [readBlock_octet, position, chunk]
  have count : (readBlock octet r).2.1 = (chunk maxBufLen file k).length := by
    rw [← block, readBlock_octet]
  obtain ⟨sent, length, numbytes, reader⟩ :=
    makeDataPacket_of_block b size block count (length_chunk_le maxBufLen file k)
  refine ⟨sent, length, numbytes, ?_⟩
  rw [reader, readBlock_octet, position, List.drop_drop, Nat.mul_succ]

end NetProjects.Tftp
