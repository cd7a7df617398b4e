import NetProjects.Tftp.Uploads

/-!
# Netascii round trips

`read_block` produces the encoding of the file in blocks of 512 bytes, up to the first byte 255.
`write_data_to_file` undoes it block by block: a two-byte encoding that a block boundary cuts gives
two bytes in the file.
-/

namespace NetProjects.Tftp
open Bytes

/-! ### Reading -/

def encodeByte (c : UInt8) : List UInt8 :=
  if c = lf then [cr, lf] else if c = cr then [cr, nul] else [c]

def encode (bytes : List UInt8) : List UInt8 := bytes.flatMap encodeByte

theorem encode_cons (c : UInt8) (bytes : List UInt8) : encode (c :: bytes) = encodeByte c ++ encode bytes := rfl

def Reader.pending (r : Reader) : List UInt8 := if 0 ≤ signedChar r.nextchar then [r.nextchar] else []

/-- What the reader can still produce: the pending character and the encoding of the file up to
the byte it takes for its end. -/
def Reader.stream (r : Reader) : List UInt8 := r.pending ++ encode (r.fp.takeWhile (· ≠ minusOne))

theorem signedChar_minusOne : ¬ 0 ≤ signedChar minusOne := by decide

theorem stream_pending (fp : List UInt8) {c : UInt8} (pending : 0 ≤ signedChar c) :
    Reader.stream ⟨fp, c⟩ = c :: Reader.stream ⟨fp, minusOne⟩ := by
  rw [Reader.stream, Reader.stream, Reader.pending, Reader.pending, if_pos pending,
    if_neg signedChar_minusOne]
  rfl

theorem stream_idle {r : Reader} (idle : ¬ 0 ≤ signedChar r.nextchar) :
    r.stream = encode (r.fp.takeWhile (· ≠ minusOne)) := by
  rw [Reader.stream, Reader.pending, if_neg idle, List.nil_append]

theorem stream_start (file : List UInt8) :
    (Reader.start file).stream = encode (file.takeWhile (· ≠ minusOne)) := stream_idle signedChar_minusOne

theorem stream_byte (fp : List UInt8) {c d : UInt8} (idle : ¬ 0 ≤ signedChar d) (byte : c ≠ minusOne) :
    Reader.stream ⟨c :: fp, d⟩ = encodeByte c ++ Reader.stream ⟨fp, minusOne⟩ := by
  rw [stream_idle (r := ⟨c :: fp, d⟩) idle, stream_idle (r := ⟨fp, minusOne⟩) signedChar_minusOne]
  rw [List.takeWhile_cons_of_pos (by simp [byte]), encode_cons]

theorem readNetascii_cases (r : Reader) :
    (r.stream = [] ∧ ∀ room, (readNetascii room r).1 = []) ∨
      ∃ c r', r.stream = c :: r'.stream ∧
        ∀ room, readNetascii (room + 1) r = (c :: (readNetascii room r').1, (readNetascii room r').2) := by
  obtain ⟨fp, nextchar⟩ := r
  by_cases pending : 0 ≤ signedChar nextchar
  · refine .inr ⟨nextchar, ⟨fp, minusOne⟩, stream_pending fp pending, fun room => ?_⟩
    simp only [readNetascii, if_pos pending]
  · cases fp with
    | nil =>
      refine .inl ⟨stream_idle pending, fun room => ?_⟩
      cases room with
      | zero => rfl
      | succ room => simp only [readNetascii, if_neg pending]
    | cons c fp =>
      by_cases eof : c = minusOne
      · refine .inl ⟨?_, fun room => ?_⟩
        · rw [stream_idle pending, List.takeWhile_cons_of_neg (by simp [eof])]
          rfl
        · cases room with
          | zero => rfl
          | succ room => simp only [readNetascii, if_neg pending, if_pos ((signedChar_eof c).mpr eof)]
      · have goes : ¬ signedChar c = -1 := mt (signedChar_eof c).mp eof
        by_cases newline : c = lf
        · refine .inr ⟨cr, ⟨fp, lf⟩, ?_, fun room => ?_⟩
          · rw [stream_byte fp pending eof, stream_pending fp (c := lf) (by decide), encodeByte, if_pos newline]
            rfl
          · simp only [readNetascii, if_neg pending, if_neg goes, if_pos newline]
        · by_cases ret : c = cr
          · refine .inr ⟨c, ⟨fp, nul⟩, ?_, fun room => ?_⟩
            · rw [stream_byte fp pending eof, stream_pending fp (c := nul) (by decide), encodeByte, if_neg newline,
                if_pos ret, ret]
              rfl
            · simp only [readNetascii, if_neg pending, if_neg goes, if_neg newline, if_pos ret]
          · refine .inr ⟨c, ⟨fp, minusOne⟩, ?_, fun room => ?_⟩
            · rw [stream_byte fp pending eof, encodeByte, if_neg newline, if_neg ret]
              rfl
            · simp only [readNetascii, if_neg pending, if_neg goes, if_neg newline, if_neg ret]

/-- A block is the front of the stream and a full one leaves the rest of it. -/
theorem readNetascii_stream (room : Nat) (r : Reader) :
    (readNetascii room r).1 = r.stream.take room ∧
      (room ≤ r.stream.length → (readNetascii room r).2.stream = r.stream.drop room) := by
  induction room generalizing r with
  | zero => exact ⟨rfl, fun _ => rfl⟩
  | succ room ih =>
    obtain ⟨empty, nothing⟩ | ⟨c, r', stream, reads⟩ := readNetascii_cases r
    · rw [empty, nothing]
      exact ⟨rfl, fun impossible => absurd impossible (Nat.not_succ_le_zero _)⟩
    · obtain ⟨bytes, rest⟩ := ih r'
      rw [stream, reads]
      exact ⟨congrArg (c :: ·) bytes, fun full => rest (Nat.le_of_succ_le_succ full)⟩

/-- The payloads of consecutive `read_block` calls, up to the first short one. -/
def readPayloads : Nat → Reader → List (List UInt8)
  | 0, _ => []
  | fuel + 1, r =>
    let got := readBlock netascii r
    got.1 :: if got.2.1 < maxBufLen then [] else readPayloads fuel got.2.2

def netasciiPayloads (file : List UInt8) : List (List UInt8) := readPayloads (file.length + 1) (.start file)

theorem readPayloads_chunks {encoded : List UInt8} {fuel k : Nat} {r : Reader}
    (position : r.stream = encoded.drop (maxBufLen * k)) (inside : maxBufLen * k ≤ encoded.length)
    (enough : encoded.length < maxBufLen * (k + fuel)) :
    readPayloads fuel r = (List.range' k (blocks encoded - k)).map (chunk maxBufLen encoded) := by
  have size : maxBufLen = 512 := rfl
  induction fuel generalizing k r with
  | zero => exact absurd enough (Nat.not_lt.mpr inside)
  | succ fuel ih =>
    obtain ⟨bytes, rest⟩ := readNetascii_stream maxBufLen r
    have payload : (readNetascii maxBufLen r).1 = chunk maxBufLen encoded k := by rw [bytes, position, chunk]
    rw [readPayloads, readBlock, if_pos rfl]
    simp only [payload, chunk_short_iff (show 0 < maxBufLen by decide)]
    by_cases short : encoded.length < maxBufLen * (k + 1)
    · have last : blocks encoded - k = 1 := by
        rw [blocks]
        rw [size] at *
        omega
      rw [if_pos short, last]
      rfl
    · have more : blocks encoded - k = (blocks encoded - (k + 1)) + 1 := by
        rw [blocks]
        rw [size] at *
        omega
      have full : maxBufLen ≤ r.stream.length := by
        rw [position, List.length_drop]
        rw [size] at *
        omega
      rw [if_neg short, more, List.range'_succ, List.map_cons]
      congr 1
      apply ih
      · rw [rest full, position, List.drop_drop, Nat.mul_succ]
      · exact Nat.le_of_not_lt short
      · rwa [Nat.add_right_comm]

theorem length_encode (bytes : List UInt8) :
    (encode bytes).length = bytes.length + bytes.count lf + bytes.count cr := by
  induction bytes with
  | nil => rfl
  | cons c bytes ih =>
    rw [encode_cons, List.length_append, ih, List.length_cons, encodeByte]
    by_cases newline : c = lf
    · subst newline
      rw [if_pos rfl, List.count_cons_self, List.count_cons_of_ne (by decide)]
      simp only [List.length_cons, List.length_nil]
      omega
    · rw [if_neg newline, List.count_cons_of_ne newline]
      by_cases ret : c = cr
      · subst ret
        rw [if_pos rfl, List.count_cons_self]
        simp only [List.length_cons, List.length_nil]
        omega
      · rw [if_neg ret, List.count_cons_of_ne ret]
        simp only [List.length_cons, List.length_nil]
        omega

theorem netasciiPayloads_eq (file : List UInt8) :
    let encoded := encode (file.takeWhile (· ≠ minusOne))
    netasciiPayloads file = (List.range (blocks encoded)).map (chunk maxBufLen encoded) := by
  intro encoded
  have enough : encoded.length < maxBufLen * (0 + (file.length + 1)) := by
    have kept := (List.takeWhile_sublist (· ≠ minusOne) (l := file)).length_le
    have newlines := List.count_le_length (a := lf) (l := file.takeWhile (· ≠ minusOne))
    have returns := List.count_le_length (a := cr) (l := file.takeWhile (· ≠ minusOne))
    rw [length_encode, show maxBufLen = 512 from rfl]
    omega
  rw [netasciiPayloads, readPayloads_chunks (stream_start file) (Nat.zero_le _) enough, List.range_eq_range']
  rfl

/-! ### Writing -/

/-- No two-byte encoding starts on the last byte of a block, the first byte being number `o` of
the stream. -/
def NoStraddle : Nat → List UInt8 → Prop
  | _, [] => True
  | o, c :: bytes =>
    (c = lf ∨ c = cr → (o + 1) % maxBufLen ≠ 0) ∧ NoStraddle (o + (encodeByte c).length) bytes

section

variable {w : Writer} {c x : UInt8} {buf bytes : List UInt8} {left n o : Nat}

theorem writeNetascii_plain (idle : w.nextchar = minusOne) (byte : c ≠ minusOne) (plain : c ≠ cr) :
    (writeNetascii (left + 1) (c :: buf) w).1 = (writeNetascii left buf (w.putc c)).1 := by
  have clean : { w with nextchar := minusOne } = w := by rw [← idle]
  have goes : ¬ signedChar c = -1 := mt (signedChar_eof c).mp byte
  have quiet : ¬ 0 ≤ signedChar w.nextchar := by rw [idle]; exact signedChar_minusOne
  simp only [writeNetascii, quiet, if_false, List.getD_cons_zero, goes, plain, false_and, List.drop_one,
    List.tail_cons, clean]

theorem writeNetascii_pair (idle : w.nextchar = minusOne) (pair : c = lf ∨ c = cr) :
    (writeNetascii (left + 2) (encodeByte c ++ buf) w).1 = (writeNetascii left buf (w.putc c)).1 := by
  have goes : ¬ signedChar cr = -1 := by decide
  have quiet : ¬ 0 ≤ signedChar w.nextchar := by rw [idle]; exact signedChar_minusOne
  have differ : ¬ lf = nul := by decide
  rcases pair with rfl | rfl
  · rw [encodeByte, if_pos rfl]
    simp only [List.cons_append, List.nil_append, writeNetascii, quiet, if_false, List.getD_cons_zero,
      List.getD_cons_succ, goes, or_true, and_self, if_true, differ, List.drop_succ_cons, List.drop_zero]
  · rw [encodeByte, if_neg (by decide), if_pos rfl]
    simp only [List.cons_append, List.nil_append, writeNetascii, quiet, if_false, List.getD_cons_zero,
      List.getD_cons_succ, goes, true_or, and_self, if_true, List.drop_succ_cons, List.drop_zero]

theorem length_encodeByte_pair (pair : c = lf ∨ c = cr) : (encodeByte c).length = 2 := by
  rcases pair with rfl | rfl <;> rfl

theorem encodeByte_plain (plain : ¬ (c = lf ∨ c = cr)) : encodeByte c = [c] := by
  rw [not_or] at plain
  rw [encodeByte, if_neg plain.1, if_neg plain.2]

theorem writeNetascii_encoded (idle : w.nextchar = minusOne) (byte : c ≠ minusOne) :
    (writeNetascii ((encodeByte c).length + left) (encodeByte c ++ buf) w).1 =
      (writeNetascii left buf (w.putc c)).1 := by
  by_cases pair : c = lf ∨ c = cr
  · rw [length_encodeByte_pair pair, Nat.add_comm]
    exact writeNetascii_pair idle pair
  · rw [encodeByte_plain pair, List.length_singleton, Nat.add_comm]
    exact writeNetascii_plain idle byte (not_or.mp pair).2

theorem writeNetascii_cut (buf : List UInt8) (idle : w.nextchar = minusOne) :
    ∃ c, c ≠ minusOne ∧ (writeNetascii 1 (cr :: buf) w).1 = w.putc c := by
  have goes : ¬ signedChar cr = -1 := by decide
  have quiet : ¬ 0 ≤ signedChar w.nextchar := by rw [idle]; exact signedChar_minusOne
  simp only [writeNetascii, quiet, if_false, List.getD_cons_zero, goes, true_and, if_true]
  split
  · split
    · exact ⟨cr, by decide, rfl⟩
    · exact ⟨lf, by decide, rfl⟩
  · exact ⟨cr, by decide, rfl⟩

/-- What a block with room for `n` bytes, the first at position `o` of the stream, does to the file:
the bytes `used` come out one for one. Where the block ends between two encodings they come out
as they are; otherwise `pend`, the second half of the last one, is left for the next block. -/
structure BlockWritten (n o : Nat) (bytes used pend rest out : List UInt8) : Prop where
  split : bytes = used ++ rest
  left : (encode bytes).drop n = pend ++ encode rest
  count : out.length = used.length
  clean : minusOne ∉ out
  boundary : (pend = [] ∧ out = used ∧ (NoStraddle o bytes ↔ NoStraddle (o + n) rest)) ∨
    ((pend = [lf] ∨ pend = [nul]) ∧ ¬ NoStraddle o bytes)

theorem BlockWritten.none (n o : Nat) (ends : bytes = [] ∨ n = 0) : BlockWritten n o bytes [] [] bytes [] := by
  refine ⟨rfl, ?_, rfl, List.not_mem_nil, .inl ⟨rfl, rfl, ?_⟩⟩
  · rcases ends with rfl | rfl <;> simp [encode]
  · rcases ends with rfl | rfl
    · exact Iff.rfl
    · exact Iff.rfl

theorem BlockWritten.cons {used pend rest out : List UInt8} (byte : c ≠ minusOne)
    (goes : c = lf ∨ c = cr → (o + 1) % maxBufLen ≠ 0)
    (h : BlockWritten n (o + (encodeByte c).length) bytes used pend rest out) :
    BlockWritten ((encodeByte c).length + n) o (c :: bytes) (c :: used) pend rest (c :: out) := by
  obtain ⟨split, left, count, clean, boundary⟩ := h
  have straddles : NoStraddle o (c :: bytes) ↔ NoStraddle (o + (encodeByte c).length) bytes :=
    and_iff_right goes
  refine ⟨congrArg (c :: ·) split, ?_, congrArg (· + 1) count, ?_, ?_⟩
  · rw [encode_cons, List.drop_append, List.drop_eq_nil_of_le (by omega), List.nil_append,
      Nat.add_sub_cancel_left, left]
  · rw [List.mem_cons, not_or]
    exact ⟨byte.symm, clean⟩
  · rw [straddles, ← Nat.add_assoc]
    exact boundary.imp (fun whole => ⟨whole.1, congrArg (c :: ·) whole.2.1, whole.2.2⟩) id

theorem writeNetascii_front (idle : w.nextchar = minusOne) (clean : minusOne ∉ bytes)
    (aligned : (o + n) % maxBufLen = 0) (fits : n ≤ maxBufLen) (room : List UInt8) :
    let payload := (encode bytes).take n
    ∃ used pend rest out, BlockWritten n o bytes used pend rest out ∧
      (writeNetascii payload.length (payload ++ room) w).1 = { w with fd := w.fd ++ out } := by
  induction bytes generalizing n o w with
  | nil =>
    refine ⟨[], [], [], [], .none n o (.inl rfl), ?_⟩
    simp only [encode, List.flatMap_nil, List.take_nil, List.length_nil, writeNetascii, List.append_nil]
  | cons c bytes ih =>
    obtain ⟨byte, others⟩ := not_or.mp (mt List.mem_cons.mpr clean)
    by_cases ended : n = 0
    · refine ⟨[], [], c :: bytes, [], .none n o (.inr ended), ?_⟩
      simp only [ended, List.take_zero, List.length_nil, writeNetascii, List.append_nil]
    by_cases whole : (encodeByte c).length ≤ n
    · -- The encoding of `c` fits, and the rest of the block is written after it.
      obtain ⟨m, rfl⟩ := Nat.exists_eq_add_of_le whole
      have front : (encode (c :: bytes)).take ((encodeByte c).length + m) =
          encodeByte c ++ (encode bytes).take m := by
        rw [encode_cons, List.take_length_add_append]
      have next : (w.putc c).nextchar = minusOne := idle
      obtain ⟨used, pend, rest, out, block, written⟩ :=
        ih next others (o := o + (encodeByte c).length) (by rwa [Nat.add_assoc]) (by omega)
      have goes : c = lf ∨ c = cr → (o + 1) % maxBufLen ≠ 0 := by
        intro pair
        rw [length_encodeByte_pair pair] at aligned fits
        rw [show maxBufLen = 512 from rfl] at *
        omega
      refine ⟨c :: used, pend, rest, c :: out, block.cons (Ne.symm byte) goes, ?_⟩
      rw [front, List.length_append, List.append_assoc, writeNetascii_encoded idle (Ne.symm byte), written]
      simp only [Writer.putc, List.append_assoc, List.singleton_append]
    · -- Only the CR of a two-byte encoding fits.
      have pair : c = lf ∨ c = cr := by
        by_contra plain
        rw [encodeByte_plain plain, List.length_singleton] at whole
        omega
      rw [length_encodeByte_pair pair] at whole
      obtain rfl : n = 1 := by omega
      obtain ⟨y, encoded, second⟩ : ∃ y, encodeByte c = [cr, y] ∧ (y = lf ∨ y = nul) := by
        rcases pair with rfl | rfl
        · exact ⟨lf, rfl, .inl rfl⟩
        · exact ⟨nul, rfl, .inr rfl⟩
      obtain ⟨d, byte', written⟩ := writeNetascii_cut room idle
      refine ⟨[c], [y], bytes, [d], ⟨rfl, ?_, rfl, ?_, .inr ⟨?_, fun straddles => straddles.1 pair aligned⟩⟩, ?_⟩
      · rw [encode_cons, encoded]
        rfl
      · rw [List.mem_singleton]
        exact byte'.symm
      · rcases second with rfl | rfl
        · exact .inl rfl
        · exact .inr rfl
      · rw [encode_cons, encoded]
        exact written

end

/-! ### The round trip -/

/-- The datagrams of a transfer on their way to the file: each is received, its payload moved to
the front of the buffer and written. `none` when a move leaves the buffer. -/
def writeDatagrams (mode : List UInt8) : List Datagram → List UInt8 → Writer → Option Writer
  | [], _, w => some w
  | d :: ds, buf, w =>
    let got := tftpRecvfrom buf d
    let numbytes := sizeSub got.numbytes 4
    match parseDataPacket got.buf numbytes with
    | none => none
    | some (_, buf) => writeDatagrams mode ds buf (writeDataToFile mode buf numbytes w).1

/-- The file written from the netascii payloads of `file`, received in a buffer that holds `buf`. -/
def netasciiCopy (client : SockAddr) (buf file : List UInt8) : Option (List UInt8) :=
  let datagrams := (netasciiPayloads file).mapIdx fun k payload =>
    ⟨client, dataDatagram (UInt16.ofNat (k + 1)) payload⟩
  (writeDatagrams netascii datagrams buf .start).map Writer.fd

theorem netasciiCopy_eq (client : SockAddr) (buf file : List UInt8) :
    let encoded := encode (file.takeWhile (· ≠ minusOne))
    netasciiCopy client buf file =
      (writeDatagrams netascii ((List.range (blocks encoded)).map (uploadDatagram client encoded)) buf .start).map
        Writer.fd := by
  intro encoded
  have datagrams : (netasciiPayloads file).mapIdx (fun k payload =>
      (⟨client, dataDatagram (UInt16.ofNat (k + 1)) payload⟩ : Datagram)) =
        (List.range (blocks encoded)).map (uploadDatagram client encoded) := by
    rw [netasciiPayloads_eq]
    apply List.ext_getElem
    · simp only [List.length_mapIdx, List.length_map, List.length_range, encoded]
    · intro k _ _
      simp only [List.getElem_mapIdx, List.getElem_map, List.getElem_range, uploadDatagram, encoded]
  rw [netasciiCopy, datagrams]

theorem writeDatagrams_cons (client : SockAddr) (encoded : List UInt8) (k : Nat) (ds : List Datagram) (w : Writer)
    {buf : List UInt8} (size : buf.length = dataPacketLen) :
    let payload := chunk maxBufLen encoded k
    ∃ room, (payload ++ room).length = dataPacketLen ∧
      writeDatagrams netascii (uploadDatagram client encoded k :: ds) buf w =
        writeDatagrams netascii ds (payload ++ room) (writeNetascii payload.length (payload ++ room) w).1 := by
  intro payload
  have whole := (uploadEvent_upload client encoded k).1
  obtain ⟨count, moved, parsed, front, movedSize⟩ := received_payload size whole
  rw [uploadDatagram_payload] at count parsed front
  have parts : moved = payload ++ moved.drop payload.length := by
    conv_lhs => rw [← List.take_append_drop payload.length moved]
    rw [front]
  refine ⟨moved.drop payload.length, by rw [← parts]; exact movedSize, ?_⟩
  rw [← parts, writeDatagrams]
  simp only [count, parsed, writeDataToFile, if_true]
  rfl

theorem half_plain {pend : List UInt8} (half : pend = [lf] ∨ pend = [nul]) :
    ∃ y, pend = [y] ∧ y ≠ minusOne ∧ y ≠ cr := by
  rcases half with rfl | rfl
  · exact ⟨lf, rfl, by decide, by decide⟩
  · exact ⟨nul, rfl, by decide, by decide⟩

/-- What block `k` of a stream does to the file, when it starts with the half `pend` left by the
block before and leaves the half `pend'`. -/
structure BlockStep (k : Nat) (pend bytes used pend' rest out : List UInt8) : Prop where
  split : bytes = used ++ rest
  left : (pend ++ encode bytes).drop maxBufLen = pend' ++ encode rest
  half : pend' = [] ∨ pend' = [lf] ∨ pend' = [nul]
  count : out.length = pend.length + used.length
  clean : minusOne ∉ out
  boundary : pend = [] →
    (pend' = [] ∧ out = used ∧ (NoStraddle (maxBufLen * k) bytes ↔ NoStraddle (maxBufLen * (k + 1)) rest)) ∨
      ((pend' = [lf] ∨ pend' = [nul]) ∧ ¬ NoStraddle (maxBufLen * k) bytes)

theorem writeNetascii_block {w : Writer} {pend bytes : List UInt8} (k : Nat)
    (half : pend = [] ∨ pend = [lf] ∨ pend = [nul]) (idle : w.nextchar = minusOne) (clean : minusOne ∉ bytes)
    (room : List UInt8) :
    let payload := (pend ++ encode bytes).take maxBufLen
    ∃ used pend' rest out, BlockStep k pend bytes used pend' rest out ∧
      (writeNetascii payload.length (payload ++ room) w).1 = { w with fd := w.fd ++ out } := by
  have size : maxBufLen = 512 := rfl
  rcases half with rfl | half
  · have aligned : (maxBufLen * k + maxBufLen) % maxBufLen = 0 := by rw [size]; omega
    obtain ⟨used, pend', rest, out, block, written⟩ :=
      writeNetascii_front idle clean aligned (Nat.le_refl _) room
    exact ⟨used, pend', rest, out, ⟨block.split, block.left, block.boundary.imp (·.1) (·.1),
      by rw [block.count, List.length_nil, Nat.zero_add], block.clean, fun _ => block.boundary⟩, written⟩
  · obtain ⟨y, rfl, byte, plain⟩ := half_plain half
    have front : ([y] ++ encode bytes).take maxBufLen = y :: (encode bytes).take 511 := rfl
    have aligned : (maxBufLen * k + 1 + 511) % maxBufLen = 0 := by rw [size]; omega
    obtain ⟨used, pend', rest, out, block, written⟩ :=
      writeNetascii_front (w := w.putc y) idle clean aligned (by decide) room
    refine ⟨used, pend', rest, y :: out, ⟨block.split, block.left, block.boundary.imp (·.1) (·.1), ?_, ?_,
      fun whole => absurd whole (List.cons_ne_nil _ _)⟩, ?_⟩
    · rw [List.length_cons, block.count, List.length_singleton, Nat.add_comm]
    · rw [List.mem_cons, not_or]
      exact ⟨byte.symm, block.clean⟩
    · rw [front, List.length_cons, List.cons_append, writeNetascii_plain idle byte plain, written]
      simp only [Writer.putc, List.append_assoc, List.singleton_append]

/-- The datagrams from block `k` on write at least one byte for every byte of the file, one more
for a pending half, and exactly the file when nothing is pending and no encoding is cut. -/
theorem writeDatagrams_stream (client : SockAddr) {encoded buf pend bytes : List UInt8} {k m : Nat} {w : Writer}
    (position : encoded.drop (maxBufLen * k) = pend ++ encode bytes)
    (half : pend = [] ∨ pend = [lf] ∨ pend = [nul]) (clean : minusOne ∉ bytes)
    (enough : encoded.length ≤ maxBufLen * (k + m)) (size : buf.length = dataPacketLen)
    (idle : w.nextchar = minusOne) :
    ∃ out, writeDatagrams netascii ((List.range' k m).map (uploadDatagram client encoded)) buf w =
        some { w with fd := w.fd ++ out } ∧
      minusOne ∉ out ∧ pend.length + bytes.length ≤ out.length ∧
      (pend = [] → (out = bytes ↔ NoStraddle (maxBufLen * k) bytes)) := by
  induction m generalizing k pend bytes buf w with
  | zero =>
    have nothing : pend ++ encode bytes = [] := by
      rw [← position]
      exact List.drop_eq_nil_of_le enough
    obtain ⟨rfl, noBytes⟩ := List.append_eq_nil_iff.mp nothing
    obtain rfl : bytes = [] := by
      have count := length_encode bytes
      rw [noBytes, List.length_nil] at count
      exact List.eq_nil_of_length_eq_zero (by omega)
    exact ⟨[], by simp [writeDatagrams], List.not_mem_nil, Nat.le_refl _, fun _ => by simp [NoStraddle]⟩
  | succ m ih =>
    obtain ⟨room, size', step⟩ := writeDatagrams_cons client encoded k
      ((List.range' (k + 1) m).map (uploadDatagram client encoded)) w size
    have payload : chunk maxBufLen encoded k = (pend ++ encode bytes).take maxBufLen := by rw [chunk, position]
    have next : encoded.drop (maxBufLen * (k + 1)) = (pend ++ encode bytes).drop maxBufLen := by
      rw [Nat.mul_succ, ← List.drop_drop, position]
    rw [payload] at size' step
    obtain ⟨used, pend', rest, out, block, written⟩ := writeNetascii_block k half idle clean room
    have others : minusOne ∉ rest := by
      rw [block.split] at clean
      exact fun member => clean (List.mem_append_right _ member)
    obtain ⟨out', run, clean', count', exact'⟩ := ih (next.trans block.left) block.half others
      (by rwa [Nat.add_right_comm]) size' (w := { w with fd := w.fd ++ out }) idle
    have length := congrArg List.length block.split
    rw [List.length_append] at length
    refine ⟨out ++ out', ?_, ?_, ?_, fun whole => ?_⟩
    · rw [List.range'_succ, List.map_cons, step, written, run, List.append_assoc]
    · rw [List.mem_append, not_or]
      exact ⟨block.clean, clean'⟩
    · rw [List.length_append, block.count]
      omega
    · rcases block.boundary whole with ⟨rfl, rfl, straddles⟩ | ⟨cut, straddles⟩
      · rw [straddles, ← exact' rfl, block.split, List.append_cancel_left_eq]
      · refine iff_of_false (fun same => ?_) straddles
        -- The half left over makes the file too long.
        have total := congrArg List.length same
        obtain ⟨y, rfl, _, _⟩ := half_plain cut
        rw [List.length_append, block.count, whole, List.length_nil] at total
        rw [List.length_singleton] at count'
        omega

theorem noStraddle_iff (o : Nat) (bytes : List UInt8) :
    NoStraddle o bytes ↔ ∀ before c after, bytes = before ++ c :: after → c = lf ∨ c = cr →
      (o + (encode before).length + 1) % maxBufLen ≠ 0 := by
  induction bytes generalizing o with
  | nil => simp [NoStraddle]
  | cons d bytes ih =>
    rw [NoStraddle, ih]
    constructor
    · rintro ⟨first, later⟩ before c after split lineEnd
      cases before with
      | nil =>
        obtain ⟨rfl, rfl⟩ := List.cons.inj split
        exact first lineEnd
      | cons e before =>
        obtain ⟨rfl, rest⟩ := List.cons.inj split
        rw [encode_cons, List.length_append, ← Nat.add_assoc]
        exact later before c after rest lineEnd
    · intro all
      refine ⟨fun lineEnd => all [] d bytes rfl lineEnd, fun before c after split lineEnd => ?_⟩
      have here := all (d :: before) c after (congrArg (d :: ·) split) lineEnd
      rwa [encode_cons, List.length_append, ← Nat.add_assoc] at here

/-- The copy never has a byte 255, and it is the file up to the first one exactly when no encoding
is cut there. -/
theorem netasciiCopy_spec (client : SockAddr) {buf : List UInt8} (file : List UInt8)
    (size : buf.length = dataPacketLen) :
    let front := file.takeWhile (· ≠ minusOne)
    ∃ out, netasciiCopy client buf file = some out ∧ minusOne ∉ out ∧ (out = front ↔ NoStraddle 0 front) := by
  intro front
  have clean : minusOne ∉ front := by
    intro member
    have other := List.mem_takeWhile_imp member
    simp at other
  have enough : (encode front).length ≤ maxBufLen * (0 + blocks (encode front)) := by
    rw [Nat.zero_add]
    exact Nat.le_of_lt (lt_blocks (by decide) _)
  have position : (encode front).drop (maxBufLen * 0) = [] ++ encode front := rfl
  obtain ⟨out, run, cleanOut, _, whole⟩ :=
    writeDatagrams_stream client (w := .start) position (.inl rfl) clean enough size rfl
  refine ⟨out, ?_, cleanOut, whole rfl⟩
  rw [netasciiCopy_eq, List.range_eq_range', run]
  rfl

/-- A netascii copy is the file exactly when the file has no byte 255, which ends the read, and no
CR or LF whose two-byte encoding starts on the last byte of a payload. -/
theorem netascii_roundtrip_iff (client : SockAddr) (buf file : List UInt8) (size : buf.length = dataPacketLen) :
    netasciiCopy client buf file = some file ↔
      minusOne ∉ file ∧ ∀ before c after, file = before ++ c :: after → c = lf ∨ c = cr →
        (before.length + before.count lf + before.count cr + 1) % maxBufLen ≠ 0 := by
  obtain ⟨out, copied, cleanOut, whole⟩ := netasciiCopy_spec client file size
  by_cases member : minusOne ∈ file
  · refine iff_of_false (fun same => ?_) (fun condition => condition.1 member)
    rw [copied, Option.some.injEq] at same
    exact cleanOut (same ▸ member)
  · have noEnd : file.takeWhile (· ≠ minusOne) = file := by
      apply List.takeWhile_eq_self_iff.mpr
      intro c inside
      exact decide_eq_true fun same => member (same ▸ inside)
    rw [noEnd, noStraddle_iff] at whole
    simp only [length_encode, Nat.zero_add] at whole
    rw [copied, Option.some.injEq, whole, and_iff_right member]

theorem netascii_roundtrip_line :
    netasciiCopy ⟨0, 69⟩ emptyBuf [65, lf] = some [65, lf] :=
  (netascii_roundtrip_iff ⟨0, 69⟩ emptyBuf [65, lf] List.length_replicate).mpr
    ⟨by decide, by
      intro before c after split _
      have inside := congrArg List.length split
      rw [List.length_append, List.length_cons, List.length_cons, List.length_cons, List.length_nil] at inside
      have newlines := List.count_le_length (a := lf) (l := before)
      have returns := List.count_le_length (a := cr) (l := before)
      rw [show maxBufLen = 512 from rfl]
      omega⟩

theorem netascii_loses_255 : netasciiCopy ⟨0, 69⟩ emptyBuf [255] ≠ some [255] := by
  have size : emptyBuf.length = dataPacketLen := List.length_replicate
  obtain ⟨out, copied, clean, _⟩ := netasciiCopy_spec ⟨0, 69⟩ [255] size
  rw [copied]
  intro same
  rw [Option.some.inj same] at clean
  exact clean List.mem_cons_self

end NetProjects.Tftp
