import NetProjects.Tftp.Reactions

/-!
# Short datagrams

Both loops read the opcode, the block number and the length out of a buffer that is used again and
again. What a datagram of less than four bytes does rests on what the buffer held.
-/

namespace NetProjects.Tftp
open Bytes

def RrqState.withBuf (s : RrqState) (buf : List UInt8) : RrqState := { s with bufRecv := buf }
def WrqState.withBuf (s : WrqState) (buf : List UInt8) : WrqState := { s with bufRecv := buf }

/-- Whatever the buffer held, the read goes on in the same way, and no short datagram is taken for the ACK. -/
structure ReadHarmless (s : RrqState) (d : Datagram) : Prop where
  same : ∀ buf buf', buf.length = dataPacketLen → buf'.length = dataPacketLen →
    (rrqReact (s.withBuf buf) (.recv d)).map (RrqState.withBuf · []) =
      (rrqReact (s.withBuf buf') (.recv d)).map (RrqState.withBuf · [])
  untaken : ∀ buf, buf.length = dataPacketLen → d.bytes.length < 4 → ¬ (s.withBuf buf).AckedBy d

/-- Whatever the buffer held, the write goes on in the same way, no short datagram is taken for a DATA, and
the length of a payload does not wrap. -/
structure WriteHarmless (mode : List UInt8) (s : WrqState) (d : Datagram) : Prop where
  same : ∀ buf buf', buf.length = dataPacketLen → buf'.length = dataPacketLen →
    (wrqReact mode (s.withBuf buf) (.recv d)).map (WrqState.withBuf · []) =
      (wrqReact mode (s.withBuf buf') (.recv d)).map (WrqState.withBuf · [])
  untaken : ∀ buf, buf.length = dataPacketLen → d.bytes.length < 4 →
    parseHeader ((s.withBuf buf).received d).bufRecv ≠ .data
  unwrapped : ∀ buf, buf.length = dataPacketLen → parseHeader ((s.withBuf buf).received d).bufRecv = .data →
    sizeSub ((s.withBuf buf).received d).numbytes 4 + 4 = ((s.withBuf buf).received d).numbytes

/-- The bytes alone rule out the ACK of the block, or hold both fields. -/
def ReadDecides (blockNum : UInt16) (bytes : List UInt8) : Prop :=
  4 ≤ bytes.length ∨ (2 ≤ bytes.length ∧ parseHeader bytes ≠ .ack) ∨
    (bytes.length = 3 ∧ (bytes.getD 2 0).toNat ≠ blockNum.toNat / 256) ∨ (bytes.length = 1 ∧ bytes.getD 0 0 ≠ 0)

def WriteDecides (bytes : List UInt8) : Prop :=
  4 ≤ bytes.length ∨ (2 ≤ bytes.length ∧ parseHeader bytes ≠ .data) ∨ (bytes.length = 1 ∧ bytes.getD 0 0 ≠ 0)

/-! ### The fields of what is received -/

section

variable {buf buf' : List UInt8} {d : Datagram}

theorem tftpRecvfrom_short (buf : List UInt8) (short : d.bytes.length ≤ dataPacketLen) :
    (tftpRecvfrom buf d).buf = d.bytes ++ buf.drop d.bytes.length := by
  unfold tftpRecvfrom
  dsimp only
  rw [List.take_of_length_le short, memcpy_zero]

theorem ofCode_unknown {code : UInt16} (large : 256 ≤ code.toNat) : Opcode.ofCode code = .unknown code := by
  have other : ∀ c : UInt16, c.toNat < 256 → code ≠ c := by
    rintro c small rfl
    omega
  unfold Opcode.ofCode
  rw [if_neg (other 1 (by decide)), if_neg (other 2 (by decide)), if_neg (other 3 (by decide)),
    if_neg (other 4 (by decide)), if_neg (other 5 (by decide))]

/-- A first byte that is not zero belongs to no opcode. -/
theorem parseHeader_high {bytes : List UInt8} (high : bytes.getD 0 0 ≠ 0) : ∃ code, parseHeader bytes = .unknown code := by
  have value := bswap16_loadLE bytes
  have positive : (bytes.getD 0 0).toNat ≠ 0 := fun zero => high (UInt8.toNat_inj.mp zero)
  exact ⟨_, ofCode_unknown (by omega)⟩

theorem received_high (buf : List UInt8) (one : d.bytes.length = 1) (high : d.bytes.getD 0 0 ≠ 0) :
    ∃ code, parseHeader (tftpRecvfrom buf d).buf = .unknown code := by
  apply parseHeader_high
  rw [tftpRecvfrom_short buf (by rw [one]; decide), List.getD_append _ _ _ _ (by omega)]
  exact high

theorem received_third (buf : List UInt8) (three : d.bytes.length = 3) :
    (blockField (tftpRecvfrom buf d).buf).toNat / 256 = (d.bytes.getD 2 0).toNat := by
  have value := bswap16_loadLE ((tftpRecvfrom buf d).buf.drop 2)
  have third : ((tftpRecvfrom buf d).buf.drop 2).getD 0 0 = d.bytes.getD 2 0 := by
    rw [tftpRecvfrom_short buf (by rw [three]; decide), List.getD_eq_getElem?_getD, List.getElem?_drop,
      List.getElem?_append_left (by omega), ← List.getD_eq_getElem?_getD]
  have low := (((tftpRecvfrom buf d).buf.drop 2).getD 1 0).toNat_lt
  unfold blockField
  rw [value, third]
  omega

end

/-! ### Reads -/

section

variable {s : RrqState} {d : Datagram} {buf buf' : List UInt8}

theorem rrqReact_failed (error : parseHeader (s.received d).bufRecv = .error) :
    rrqReact s (.recv d) = .exit (.ret .fail) (s.received d) := by
  have outcome := rrqReact_cases s (.recv d)
  generalize rrqReact s (.recv d) = next at outcome
  cases outcome with
  | failed => rfl
  | finished acks | advanced acks => cases error.symm.trans acks.1
  | ignored sound => exact absurd error sound

theorem rrqReact_acked (acks : s.AckedBy d) :
    rrqReact s (.recv d) = if s.isEOF then .exit (.ret .ok) (s.received d).next else .go (s.received d).next := by
  have outcome := rrqReact_cases s (.recv d)
  generalize rrqReact s (.recv d) = next at outcome
  cases outcome with
  | failed error => cases error.symm.trans acks.1
  | finished _ last => rw [last, if_pos rfl]
  | advanced _ more => rw [more, if_neg Bool.false_ne_true]
  | ignored _ stale => exact absurd acks stale

theorem rrqReact_ignored (sound : parseHeader (s.received d).bufRecv ≠ .error) (stale : ¬ s.AckedBy d) :
    rrqReact s (.recv d) = .go (s.received d) := by
  have outcome := rrqReact_cases s (.recv d)
  generalize rrqReact s (.recv d) = next at outcome
  cases outcome with
  | failed error => exact absurd error sound
  | finished acks | advanced acks => exact absurd acks stale
  | ignored => rfl

/-- The step rests on two questions only. -/
theorem rrqReact_same
    (error : parseHeader ((s.withBuf buf).received d).bufRecv = .error ↔
      parseHeader ((s.withBuf buf').received d).bufRecv = .error)
    (acks : (s.withBuf buf).AckedBy d ↔ (s.withBuf buf').AckedBy d) :
    (rrqReact (s.withBuf buf) (.recv d)).map (RrqState.withBuf · []) =
      (rrqReact (s.withBuf buf') (.recv d)).map (RrqState.withBuf · []) := by
  by_cases failed : parseHeader ((s.withBuf buf).received d).bufRecv = .error
  · rw [rrqReact_failed failed, rrqReact_failed (error.mp failed)]
    rfl
  · by_cases taken : (s.withBuf buf).AckedBy d
    · rw [rrqReact_acked taken, rrqReact_acked (acks.mp taken)]
      change (if s.isEOF then _ else _ : Next RrqState Exit).map _ = (if s.isEOF then _ else _ : Next RrqState Exit).map _
      split <;> rfl
    · rw [rrqReact_ignored failed taken, rrqReact_ignored (fun other => failed (error.mpr other))
        (fun other => taken (acks.mpr other))]
      rfl

theorem received_headers (buf : List UInt8) (two : 2 ≤ d.bytes.length) :
    parseHeader ((s.withBuf buf).received d).bufRecv = parseHeader d.bytes := tftpRecvfrom_header buf two

theorem received_blocks (buf : List UInt8) (four : 4 ≤ d.bytes.length) :
    blockField ((s.withBuf buf).received d).bufRecv = blockField d.bytes := tftpRecvfrom_block buf four

/-- A short datagram that decides is not the ACK, whatever the buffer holds. -/
theorem ReadDecides.untaken (decides : ReadDecides s.blockNum d.bytes) (short : d.bytes.length < 4) (buf : List UInt8) :
    ¬ (s.withBuf buf).AckedBy d := by
  rintro ⟨header, number⟩
  obtain four | ⟨two, other⟩ | ⟨three, third⟩ | ⟨one, high⟩ := decides
  · omega
  · rw [received_headers buf two] at header
    exact other header
  · have field := received_third buf three
    have here : blockField (tftpRecvfrom buf d).buf = s.blockNum := number
    rw [here] at field
    exact third field.symm
  · obtain ⟨code, unknown⟩ := received_high buf one high
    cases unknown.symm.trans header

theorem ReadDecides.error_iff (decides : ReadDecides s.blockNum d.bytes) (buf buf' : List UInt8) :
    parseHeader ((s.withBuf buf).received d).bufRecv = .error ↔
      parseHeader ((s.withBuf buf').received d).bufRecv = .error := by
  by_cases two : 2 ≤ d.bytes.length
  · rw [received_headers buf two, received_headers buf' two]
  · obtain four | ⟨more, _⟩ | ⟨three, _⟩ | ⟨one, high⟩ := decides
    · omega
    · omega
    · omega
    · obtain ⟨code, unknown⟩ := received_high buf one high
      obtain ⟨code', unknown'⟩ := received_high buf' one high
      exact iff_of_false (fun error => Opcode.noConfusion (unknown.symm.trans error))
        (fun error => Opcode.noConfusion (unknown'.symm.trans error))

/-- A buffer that an ACK of the block has been received into. -/
def ackedBuf (blockNum : UInt16) : List UInt8 := ackDatagram blockNum ++ List.replicate maxBufLen 0

theorem ackedBuf_length (blockNum : UInt16) : (ackedBuf blockNum).length = dataPacketLen := by
  unfold ackedBuf ackDatagram
  rw [List.length_append, List.length_append, length_networkOrder, length_networkOrder, List.length_replicate]
  rfl

theorem ackedBuf_eq (b : UInt16) : ackedBuf b = 0 :: 4 :: (networkOrder b ++ List.replicate maxBufLen 0) := rfl

theorem ackedBuf_header (b : UInt16) : parseHeader (ackedBuf b) = .ack := by
  unfold parseHeader ackedBuf ackDatagram
  rw [List.append_assoc, loadLE_networkOrder, bswap16_bswap16, ofCode_ack]

theorem ackedBuf_block (b : UInt16) : blockField (ackedBuf b) = b := by
  unfold blockField
  rw [ackedBuf_eq, List.drop_succ_cons, List.drop_succ_cons, List.drop_zero, loadLE_networkOrder, bswap16_bswap16]

/-- The ACK is taken where the header is that of an ACK and the number is that of the buffer. -/
theorem acked_of_stale (header : parseHeader (tftpRecvfrom (ackedBuf s.blockNum) d).buf = .ack)
    (number : (tftpRecvfrom (ackedBuf s.blockNum) d).buf.drop 2 = (ackedBuf s.blockNum).drop 2) :
    (s.withBuf (ackedBuf s.blockNum)).AckedBy d := by
  refine ⟨header, ?_⟩
  change bswap16 (loadLE ((tftpRecvfrom (ackedBuf s.blockNum) d).buf.drop 2)) = s.blockNum
  rw [number]
  exact ackedBuf_block s.blockNum

/-- A datagram that does not decide is taken for the ACK behind that buffer. -/
theorem acked_of_undecided (undecided : ¬ ReadDecides s.blockNum d.bytes) :
    (s.withBuf (ackedBuf s.blockNum)).AckedBy d := by
  unfold ReadDecides at undecided
  rw [not_or, not_or, not_or] at undecided
  obtain ⟨long, other, third, high⟩ := undecided
  have received := tftpRecvfrom_short (d := d) (ackedBuf s.blockNum) (by rw [dataPacketLen]; omega)
  have headed : 2 ≤ d.bytes.length → parseHeader (tftpRecvfrom (ackedBuf s.blockNum) d).buf = .ack := by
    intro two
    rw [tftpRecvfrom_header _ two]
    by_contra different
    exact other ⟨two, different⟩
  obtain ⟨peer, bytes⟩ := d
  dsimp only at *
  rcases bytes with _ | ⟨a, _ | ⟨b, _ | ⟨c, _ | _⟩⟩⟩
  · rw [List.nil_append, List.length_nil, List.drop_zero] at received
    apply acked_of_stale
    · rw [received, ackedBuf_header]
    · rw [received]
  · -- The first byte is that of every opcode.
    have zero : a = 0 := by
      by_contra positive
      exact high ⟨rfl, positive⟩
    have stale : [a] ++ (ackedBuf s.blockNum).drop [a].length = ackedBuf s.blockNum := by
      rw [zero, ackedBuf_eq]
      rfl
    rw [stale] at received
    apply acked_of_stale
    · rw [received, ackedBuf_header]
    · rw [received]
  · apply acked_of_stale (headed (Nat.le_refl 2))
    rw [received]
    rfl
  · apply acked_of_stale (headed (by simp))
    have same : c = UInt8.ofNat (s.blockNum.toNat / 256) := by
      by_contra different
      refine third ⟨rfl, fun value => different (UInt8.toNat_inj.mp ?_)⟩
      have small := s.blockNum.toNat_lt
      rw [UInt8.toNat_ofNat', Nat.mod_eq_of_lt (by omega)]
      exact value
    rw [received, same, ackedBuf_eq]
    rfl
  · exact absurd long (by simp)

theorem readHarmless_iff : ReadHarmless s d ↔ ReadDecides s.blockNum d.bytes := by
  constructor
  · intro harmless
    by_contra undecided
    have short : d.bytes.length < 4 := Nat.lt_of_not_le fun four => undecided (Or.inl four)
    exact harmless.untaken _ (ackedBuf_length s.blockNum) short (acked_of_undecided undecided)
  · intro decides
    refine ⟨?_, fun buf _ short => decides.untaken short buf⟩
    intro buf buf' _ _
    refine rrqReact_same (decides.error_iff buf buf') ?_
    by_cases four : 4 ≤ d.bytes.length
    · unfold RrqState.AckedBy
      rw [received_headers buf (by omega), received_headers buf' (by omega), received_blocks buf four,
        received_blocks buf' four]
      rfl
    · have short : d.bytes.length < 4 := Nat.lt_of_not_le four
      exact iff_of_false (decides.untaken short buf) (decides.untaken short buf')

end

/-! ### Writes -/

section

variable {mode : List UInt8} {s : WrqState} {d : Datagram} {buf buf' : List UInt8}

theorem wrqReact_refused (other : parseHeader (s.received d).bufRecv ≠ .data) :
    wrqReact mode s (.recv d) = .exit (.ret .fail) (s.received d) := by
  have outcome := wrqReact_cases mode s (.recv d)
  generalize wrqReact mode s (.recv d) = next at outcome
  cases outcome with
  | refused => rfl
  | data header => exact absurd header other

theorem wrqReact_taken (header : parseHeader (s.received d).bufRecv = .data) :
    wrqReact mode s (.recv d) = wrqData mode (s.received d) := by
  have outcome := wrqReact_cases mode s (.recv d)
  generalize wrqReact mode s (.recv d) = next at outcome
  cases outcome with
  | refused other => exact absurd header other
  | data => rfl

/-- The payload once it is moved, and the byte behind it, are bytes of the datagram. -/
theorem moved_same (buf buf' : List UInt8) (whole : 4 ≤ d.bytes.length) :
    (memcpy (tftpRecvfrom buf d).buf 0 d.payload).take (d.payload.length + 1) =
      (memcpy (tftpRecvfrom buf' d).buf 0 d.payload).take (d.payload.length + 1) := by
  have more : d.payload.length < (d.bytes.take dataPacketLen).length := by
    unfold Datagram.payload
    rw [List.length_drop, List.length_take, dataPacketLen]
    omega
  have behind : ∀ buf : List UInt8, ((tftpRecvfrom buf d).buf.drop d.payload.length).take 1 =
      ((d.bytes.take dataPacketLen).drop d.payload.length).take 1 := by
    intro buf
    unfold tftpRecvfrom
    dsimp only
    rw [memcpy_zero, List.drop_append_of_le_length (by omega), List.take_append_of_le_length]
    rw [List.length_drop]
    omega
  rw [memcpy_zero, memcpy_zero, List.take_length_add_append, List.take_length_add_append, behind, behind]

theorem wrqData_same (mode : List UInt8) (size : buf.length = dataPacketLen) (size' : buf'.length = dataPacketLen)
    (whole : 4 ≤ d.bytes.length) :
    (wrqData mode ((s.withBuf buf).received d)).map (WrqState.withBuf · []) =
      (wrqData mode ((s.withBuf buf').received d)).map (WrqState.withBuf · []) := by
  obtain ⟨count, parsed, _⟩ := received_moved size whole
  obtain ⟨count', parsed', _⟩ := received_moved size' whole
  have moved := moved_same buf buf' whole
  have writes := writeDataToFile_congr moved mode s.writer
  have appends := take_drop_same (k := 0) (m := d.payload.length) moved (by omega)
  rw [List.drop_zero, List.drop_zero] at appends
  unfold wrqData WrqState.received WrqState.withBuf
  dsimp only
  rw [count, count', parsed, parsed']
  dsimp only
  by_cases newer : s.lastBlockAck < d.block
  · simp only [if_pos newer, writes, appends, Next.map]
    rfl
  · simp only [if_neg newer, Next.map]
    rfl

theorem written_headers (buf : List UInt8) (two : 2 ≤ d.bytes.length) :
    parseHeader ((s.withBuf buf).received d).bufRecv = parseHeader d.bytes := tftpRecvfrom_header buf two

theorem WriteDecides.untaken (decides : WriteDecides d.bytes) (short : d.bytes.length < 4) (buf : List UInt8) :
    parseHeader ((s.withBuf buf).received d).bufRecv ≠ .data := by
  intro header
  obtain four | ⟨two, other⟩ | ⟨one, high⟩ := decides
  · omega
  · rw [written_headers buf two] at header
    exact other header
  · obtain ⟨code, unknown⟩ := received_high buf one high
    cases unknown.symm.trans header

/-- A buffer that a DATA has been received into. -/
def dataBuf : List UInt8 := networkOrder 3 ++ List.replicate 514 0

theorem dataBuf_length : dataBuf.length = dataPacketLen := by
  unfold dataBuf
  rw [List.length_append, length_networkOrder, List.length_replicate]
  rfl

theorem dataBuf_header : parseHeader dataBuf = .data := by
  unfold parseHeader dataBuf
  rw [loadLE_networkOrder, bswap16_bswap16, ofCode_data]

/-- A datagram that does not decide is taken for a DATA behind that buffer. -/
theorem data_of_undecided (undecided : ¬ WriteDecides d.bytes) :
    parseHeader ((s.withBuf dataBuf).received d).bufRecv = .data := by
  unfold WriteDecides at undecided
  rw [not_or, not_or] at undecided
  obtain ⟨long, other, high⟩ := undecided
  have received := tftpRecvfrom_short (d := d) dataBuf (by rw [dataPacketLen]; omega)
  by_cases two : 2 ≤ d.bytes.length
  · rw [written_headers dataBuf two]
    by_contra different
    exact other ⟨two, different⟩
  · have stale : d.bytes ++ dataBuf.drop d.bytes.length = dataBuf := by
      obtain ⟨peer, bytes⟩ := d
      dsimp only at *
      rcases bytes with _ | ⟨a, _ | _⟩
      · rfl
      · have zero : a = 0 := by
          by_contra positive
          exact high ⟨rfl, positive⟩
        rw [zero]
        rfl
      · exact absurd two (by simp)
    change parseHeader (tftpRecvfrom dataBuf d).buf = .data
    rw [received, stale, dataBuf_header]

theorem writeHarmless_iff (mode : List UInt8) : WriteHarmless mode s d ↔ WriteDecides d.bytes := by
  constructor
  · intro harmless
    by_contra undecided
    have short : d.bytes.length < 4 := Nat.lt_of_not_le fun four => undecided (Or.inl four)
    exact harmless.untaken dataBuf dataBuf_length short (data_of_undecided undecided)
  · intro decides
    refine ⟨?_, fun buf _ short => decides.untaken short buf, ?_⟩
    · intro buf buf' size size'
      by_cases header : parseHeader ((s.withBuf buf).received d).bufRecv = .data
      · have whole : 4 ≤ d.bytes.length := Nat.le_of_not_lt fun short => decides.untaken short buf header
        have header' : parseHeader ((s.withBuf buf').received d).bufRecv = .data := by
          rw [written_headers buf (by omega)] at header
          rw [written_headers buf' (by omega), header]
        rw [wrqReact_taken header, wrqReact_taken header']
        exact wrqData_same mode size size' whole
      · have header' : parseHeader ((s.withBuf buf').received d).bufRecv ≠ .data := by
          by_cases two : 2 ≤ d.bytes.length
          · rw [written_headers buf two] at header
            rw [written_headers buf' two]
            exact header
          · exact decides.untaken (by omega) buf'
        rw [wrqReact_refused header, wrqReact_refused header']
        rfl
    · intro buf _ header
      have whole : 4 ≤ d.bytes.length := Nat.le_of_not_lt fun short => decides.untaken short buf header
      have count : ((s.withBuf buf).received d).numbytes = min dataPacketLen d.bytes.length := List.length_take
      rw [count, sizeSub, if_pos (by rw [dataPacketLen]; omega), Nat.sub_add_cancel]
      rw [dataPacketLen]
      omega

end

/-- A datagram is harmless exactly when its own bytes decide what it is: four bytes do, and fewer only where
they already rule out what the loop waits for. -/
theorem datagram_harmless_iff (mode : List UInt8) (s : RrqState) (w : WrqState) (d : Datagram) :
    (ReadHarmless s d ↔ ReadDecides s.blockNum d.bytes) ∧ (WriteHarmless mode w d ↔ WriteDecides d.bytes) :=
  ⟨readHarmless_iff, writeHarmless_iff mode⟩

/-- Behind a DATA an empty datagram is taken for one more. -/
theorem empty_datagram_taken : ¬ WriteHarmless octet (.start ⟨0, 69⟩) ⟨⟨0, 69⟩, []⟩ := by
  intro harmless
  refine harmless.untaken dataBuf dataBuf_length (by decide) ?_
  change parseHeader (tftpRecvfrom dataBuf ⟨⟨0, 69⟩, []⟩).buf = .data
  rw [tftpRecvfrom_short dataBuf (by decide)]
  exact dataBuf_header

end NetProjects.Tftp
