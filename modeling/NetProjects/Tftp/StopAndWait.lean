import NetProjects.Tftp.Netascii
import NetProjects.Tftp.ReadRuns
import NetProjects.Tftp.Reactions

/-!
# Stop and wait

Reads in either mode: one DATA is out at a time, its number counts the ACKs that matched, and the
read ends in one of three ways only.
-/

namespace NetProjects.Tftp
open Bytes

def Event.failed : Event → Prop
  | .timeout => False
  | .recv d => parseHeader d.bytes = .error

/-- The event is an ACK of the last DATA sent, which was a short one. -/
def FinalAck (mode file : List UInt8) (client : SockAddr) (before : List Event) (e : Event) : Prop :=
  ∃ d peer b payload, e = .recv d ∧
    (rrqHandler mode file client before).1.getLast? = some ⟨peer, dataDatagram b payload⟩ ∧
    payload.length < maxBufLen ∧ parseHeader d.bytes = .ack ∧ blockField d.bytes = b

/-- The event is an ERROR or the tenth timeout. -/
def GivesUp (before : List Event) (e : Event) : Prop := e.failed ∨ e = .timeout ∧ before.count .timeout = 9

/-- A read over the events sends one numbered DATA a round and waits. It succeeds on the ACK of a short one, stops
at an ERROR or the tenth timeout, and ends in no other way. -/
structure StopsAndWaits (mode file : List UInt8) (client : SockAddr) (events : List Event) : Prop where
  rounds : ∀ before after, events = before ++ after → Waiting (rrqHandler mode file client before).2 →
    (rrqHandler mode file client before).1.length = before.length + 1
  numbered : ∀ i d, (rrqHandler mode file client events).1[i]? = some d →
    ∃ b payload, d.bytes = dataDatagram b payload ∧ payload.length ≤ maxBufLen ∧
      b.toNat = (1 + acked 0 (events.take i)) % 65536
  waits : (∀ before e after, events = before ++ e :: after → Waiting (rrqHandler mode file client before).2 →
      ¬ GivesUp before e ∧ ¬ FinalAck mode file client before e) →
    Waiting (rrqHandler mode file client events).2
  ok : Returned (rrqHandler mode file client events).2 .ok →
    ∃ before e after, events = before ++ e :: after ∧ Waiting (rrqHandler mode file client before).2 ∧
      (rrqHandler mode file client events).1 = (rrqHandler mode file client before).1 ∧
      FinalAck mode file client before e
  finished : ∀ before e after, events = before ++ e :: after → Waiting (rrqHandler mode file client before).2 →
    FinalAck mode file client before e →
    (rrqHandler mode file client events).1 = (rrqHandler mode file client before).1 ∧
      Returned (rrqHandler mode file client events).2 .ok
  stopped : ∀ before e after, events = before ++ e :: after → Waiting (rrqHandler mode file client before).2 →
    GivesUp before e →
    (rrqHandler mode file client events).1 = (rrqHandler mode file client before).1 ∧
      Returned (rrqHandler mode file client events).2 .fail

theorem acked_concat (j : Nat) (es : List Event) (e : Event) : acked j (es ++ [e]) = e.nextAck (acked j es) := by
  induction es generalizing j with
  | nil => rfl
  | cons x es ih => exact ih (x.nextAck j)

theorem count_timeout_concat (es : List Event) (e : Event) :
    (es ++ [e]).count .timeout = e.nextTimeout (es.count .timeout) := by
  cases e <;> simp [Event.nextTimeout, List.count_append]

section

variable {mode : List UInt8} {j t : Nat} {s u : RrqState} {e : Event} {es : List Event} {out : List Datagram}

/-! ### The packets of both modes -/

theorem readBlock_length (known : mode = netascii ∨ mode = octet) (r : Reader) :
    (readBlock mode r).1.length ≤ maxBufLen ∧ (readBlock mode r).2.1 = (readBlock mode r).1.length := by
  rcases known with rfl | rfl
  · unfold readBlock
    rw [if_pos rfl]
    refine ⟨?_, rfl⟩
    rw [(readNetascii_stream maxBufLen r).1]
    exact List.length_take_le _ _
  · rw [readBlock_octet]
    exact ⟨List.length_take_le _ _, rfl⟩

theorem makeDataPacket_known (known : mode = netascii ∨ mode = octet) {bufSend : List UInt8} (r : Reader) (b : UInt16)
    (size : bufSend.length = dataPacketLen) :
    let made := makeDataPacket mode b bufSend r
    let payload := (readBlock mode r).1
    made.bufSend.take (sizeAdd 4 made.numbytes) = dataDatagram b payload ∧ made.bufSend.length = dataPacketLen ∧
      made.numbytes = payload.length := by
  intro made payload
  obtain ⟨bound, count⟩ := readBlock_length known r
  obtain ⟨sent, length, numbytes, _⟩ := makeDataPacket_of_block b size rfl count bound
  exact ⟨sent, length, numbytes⟩

/-! ### One round -/

theorem rrqTop_known (known : mode = netascii ∨ mode = octet) (h : ReadHead j t s) :
    ∃ payload u, rrqTop mode s = ([⟨s.clientAddr, dataDatagram (UInt16.ofNat (j + 1)) payload⟩], .go u) ∧
      payload.length ≤ maxBufLen ∧ ReadHead j t u ∧ u.isEOF = decide (payload.length < maxBufLen) := by
  obtain ⟨bound, _⟩ := readBlock_length known s.reader
  obtain ⟨sent, size, count⟩ := makeDataPacket_known known s.reader (UInt16.ofNat (j + 1)) h.sendSize
  unfold rrqTop
  rw [h.number]
  dsimp only
  rw [sent]
  refine ⟨_, _, rfl, bound, ⟨rfl, h.timeouts, size, h.recvSize⟩, ?_⟩
  dsimp only
  rw [count]

/-- A read ends at an ERROR, at the tenth timeout, or at the ACK of a short block. -/
theorem rrqReact_exit {r : Exit} (h : ReadHead j t s) (wf : e.WellFormed) (react : rrqReact s e = .exit r u) :
    (e.failed ∨ e = .timeout ∧ t = 9) ∧ r = .ret .fail ∨ r = .ret .ok ∧
      ∃ d, e = .recv d ∧ parseHeader d.bytes = .ack ∧ blockField d.bytes = s.blockNum ∧ s.isEOF = true := by
  have cases' := rrqReact_cases s e
  rw [react] at cases'
  cases cases' with
  | gaveUp last =>
    rw [h.timeouts] at last
    exact .inl ⟨.inr ⟨rfl, Nat.succ.inj last⟩, rfl⟩
  | @failed d error =>
    rw [RrqState.received, tftpRecvfrom_header s.bufRecv wf.1] at error
    exact .inl ⟨.inl error, rfl⟩
  | @finished d acks last =>
    have matching := (ackedBy_iff h wf).mp acks
    simp only [Event.acks, Bool.and_eq_true, decide_eq_true_eq] at matching
    exact .inr ⟨rfl, d, rfl, matching.1, by rw [matching.2, h.number], last⟩

theorem rrqReact_finishes {d : Datagram} (h : ReadHead j t s) (wf : (Event.recv d).WellFormed)
    (header : parseHeader d.bytes = .ack) (number : blockField d.bytes = s.blockNum) (last : s.isEOF = true) :
    ∃ u, rrqReact s (.recv d) = .exit (.ret .ok) u := by
  have acks : s.AckedBy d := by
    rw [ackedBy_iff h wf, Event.acks, header, number, h.number]
    simp
  have cases' := rrqReact_cases s (.recv d)
  generalize rrqReact s (.recv d) = outcome at cases'
  cases cases' with
  | failed error => cases error.symm.trans acks.1
  | finished => exact ⟨_, rfl⟩
  | advanced _ more => cases last.symm.trans more
  | ignored _ stale => exact absurd acks stale

theorem rrqReact_stops (h : ReadHead j t s) (wf : e.WellFormed) (stops : e.failed ∨ e = .timeout ∧ t = 9) :
    ∃ u, rrqReact s e = .exit (.ret .fail) u := by
  have cases' := rrqReact_cases s e
  rcases stops with failed | ⟨rfl, last⟩
  · cases e with
    | timeout => exact failed.elim
    | recv d =>
      have error : parseHeader (s.received d).bufRecv = .error := by
        unfold RrqState.received
        rw [tftpRecvfrom_header s.bufRecv wf.1]
        exact failed
      generalize rrqReact s (.recv d) = outcome at cases'
      cases cases' with
      | failed => exact ⟨_, rfl⟩
      | finished acks | advanced acks => cases error.symm.trans acks.1
      | ignored sound => exact absurd error sound
  · have tenth : s.timeoutCounter + 1 = maxRetry := by rw [h.timeouts, last, maxRetry]
    generalize rrqReact s .timeout = outcome at cases'
    cases cases' with
    | waited more => exact absurd tenth more
    | gaveUp => exact ⟨_, rfl⟩

/-! ### Whole runs -/

/-- A read waits after the events, `out` being all it has sent. -/
structure ReadWaits (es : List Event) (out : List Datagram) (s : RrqState) : Prop where
  head : ReadHead (acked 0 es) (es.count .timeout) s
  sent : out.length = es.length + 1
  numbered : ∀ i d, out[i]? = some d → ∃ payload, payload.length ≤ maxBufLen ∧
    d.bytes = dataDatagram (UInt16.ofNat (acked 0 (es.take i) + 1)) payload
  last : ∃ peer payload, out.getLast? = some ⟨peer, dataDatagram s.blockNum payload⟩ ∧
    s.isEOF = decide (payload.length < maxBufLen)

theorem readWaits_first (known : mode = netascii ∨ mode = octet) (h : ReadHead 0 0 s)
    (top : rrqTop mode s = (out, .go u)) : ReadWaits [] out u := by
  obtain ⟨payload, v, topEq, bound, head, last⟩ := rrqTop_known known h
  rw [topEq] at top
  cases top
  refine ⟨head, rfl, ?_, ⟨s.clientAddr, payload, ?_, last⟩⟩
  · intro i d sent
    cases i with
    | zero =>
      cases sent
      exact ⟨payload, bound, rfl⟩
    | succ i => cases sent
  · rw [head.number]
    rfl

theorem readWaits_next (known : mode = netascii ∨ mode = octet) {next : List Datagram} {v : RrqState} (wf : e.WellFormed)
    (h : ReadWaits es out s) (react : rrqReact s e = .go u) (top : rrqTop mode u = (next, .go v)) :
    ReadWaits (es ++ [e]) (out ++ next) v := by
  obtain ⟨payload, w, topEq, bound, head, last⟩ := rrqTop_known known (rrqReact_head h.head wf react)
  rw [topEq] at top
  cases top
  rw [← acked_concat, ← count_timeout_concat] at head
  rw [← acked_concat]
  refine ⟨head, ?_, ?_, ⟨u.clientAddr, payload, ?_, last⟩⟩
  · simp [h.sent]
  · intro i d sent
    by_cases old : i < es.length + 1
    · rw [List.getElem?_append_left (by rw [h.sent]; exact old)] at sent
      rw [List.take_append_of_le_length (Nat.le_of_lt_succ old)]
      exact h.numbered i d sent
    · rw [List.getElem?_append_right (by rw [h.sent]; omega), h.sent] at sent
      obtain ⟨here, rfl⟩ := List.getElem?_eq_some_iff.mp sent
      rw [List.length_singleton] at here
      rw [List.take_of_length_le (by rw [List.length_append, List.length_singleton]; omega)]
      refine ⟨payload, bound, ?_⟩
      rw [List.getElem_singleton]
  · rw [List.getLast?_append, head.number]
    rfl

theorem readStart_head (file : List UInt8) (client : SockAddr) : ReadHead 0 0 (.start file client) :=
  ⟨rfl, rfl, List.length_replicate, List.length_replicate⟩

theorem rrq_waits {file : List UInt8} {client : SockAddr} (known : mode = netascii ∨ mode = octet)
    (wf : ∀ e ∈ es, e.WellFormed) (run : rrqHandler mode file client es = (out, .go s)) : ReadWaits es out s := by
  refine EventLoop.waiting_rule (m := rrqLoop mode)
    (I := fun es out s => (∀ e ∈ es, e.WellFormed) → ReadWaits es out s) ?_ ?_ run wf
  · intro out u top _
    exact readWaits_first known (readStart_head file client) top
  · intro es out s e u next v waits react top wf
    obtain ⟨before, here⟩ := List.forall_mem_append.mp wf
    exact readWaits_next known (here e List.mem_cons_self) (waits before) react top

theorem rrq_exit {mode file : List UInt8} {client : SockAddr} {r : Exit}
    (run : rrqHandler mode file client es = (out, .exit r u)) :
    ∃ before e after s, es = before ++ e :: after ∧ rrqHandler mode file client before = (out, .go s) ∧
      rrqReact s e = .exit r u := by
  obtain top | ⟨before, e, after, sent, s, split, waits, ⟨react, rfl⟩ | ⟨v, last, _, top, _⟩⟩ :=
    EventLoop.run_exit_cases run
  · cases top
  · exact ⟨before, e, after, s, split, waits, react⟩
  · cases top

/-- What has been sent is what had been sent when the read last waited. -/
theorem rrq_waited (mode file : List UInt8) (client : SockAddr) (events : List Event) :
    ∃ before after s, events = before ++ after ∧
      rrqHandler mode file client before = ((rrqHandler mode file client events).1, .go s) := by
  cases run : rrqHandler mode file client events with
  | mk out last =>
    cases last with
    | go s => exact ⟨events, [], s, (List.append_nil _).symm, run⟩
    | exit r u =>
      obtain ⟨before, e, after, s, split, waits, _⟩ := rrq_exit run
      exact ⟨before, e :: after, s, split, waits⟩

theorem rrq_numbered {file : List UInt8} {client : SockAddr} {events : List Event} (known : mode = netascii ∨ mode = octet)
    (wf : ∀ e ∈ events, e.WellFormed) {i : Nat} {d : Datagram}
    (sent : (rrqHandler mode file client events).1[i]? = some d) :
    ∃ b payload, d.bytes = dataDatagram b payload ∧ payload.length ≤ maxBufLen ∧
      b.toNat = (1 + acked 0 (events.take i)) % 65536 := by
  obtain ⟨before, after, s, split, run⟩ := rrq_waited mode file client events
  have waits := rrq_waits known (fun e member => wf e (split ▸ List.mem_append_left after member)) run
  obtain ⟨payload, bound, bytes⟩ := waits.numbered i d sent
  have early : i < before.length + 1 := by
    rw [← waits.sent]
    exact (List.getElem?_eq_some_iff.mp sent).1
  refine ⟨_, payload, bytes, bound, ?_⟩
  rw [UInt16.toNat_ofNat', Nat.add_comm, split, List.take_append_of_le_length (Nat.le_of_lt_succ early)]

theorem rrq_rounds {file : List UInt8} {client : SockAddr} {events : List Event} (known : mode = netascii ∨ mode = octet)
    (wf : ∀ e ∈ events, e.WellFormed) (waiting : Waiting (rrqHandler mode file client events).2) :
    (rrqHandler mode file client events).1.length = events.length + 1 := by
  obtain ⟨s, waiting⟩ := waiting
  exact (rrq_waits known wf (Prod.ext rfl waiting)).sent

/-- Where the last DATA was a short one, the ACK that the read waits for is the final one. -/
theorem finalAck_iff {file : List UInt8} {client : SockAddr} (waits : ReadWaits es out s)
    (run : rrqHandler mode file client es = (out, .go s)) :
    FinalAck mode file client es e ↔
      ∃ d, e = .recv d ∧ parseHeader d.bytes = .ack ∧ blockField d.bytes = s.blockNum ∧ s.isEOF = true := by
  obtain ⟨peer, payload, sent, eof⟩ := waits.last
  rw [FinalAck, run]
  dsimp only
  rw [sent]
  constructor
  · rintro ⟨d, peer', b, payload', rfl, same, short, header, number⟩
    have bytes : dataDatagram s.blockNum payload = dataDatagram b payload' :=
      congrArg Datagram.bytes (Option.some.inj same)
    have block : s.blockNum = b := by
      rw [← dataDatagram_block peer s.blockNum payload, bytes, dataDatagram_block]
    rw [← block, dataDatagram_inj] at bytes
    rw [eof, bytes, decide_eq_true_eq]
    exact ⟨d, rfl, header, number.trans block.symm, short⟩
  · rintro ⟨d, rfl, header, number, last⟩
    rw [eof, decide_eq_true_eq] at last
    exact ⟨d, peer, s.blockNum, payload, rfl, rfl, last, header, number⟩

/-- A read that has ended has met one of its ends. -/
theorem rrq_ended {file : List UInt8} {client : SockAddr} {events : List Event} {r : Exit}
    (known : mode = netascii ∨ mode = octet) (wf : ∀ e ∈ events, e.WellFormed)
    (run : rrqHandler mode file client events = (out, .exit r u)) :
    ∃ before e after, events = before ++ e :: after ∧ Waiting (rrqHandler mode file client before).2 ∧
      out = (rrqHandler mode file client before).1 ∧
      (GivesUp before e ∧ r = .ret .fail ∨ r = .ret .ok ∧ FinalAck mode file client before e) := by
  obtain ⟨before, e, after, s, split, waited, react⟩ := rrq_exit run
  rw [split, List.forall_mem_append, List.forall_mem_cons] at wf
  have waits := rrq_waits known wf.1 waited
  have ends := rrqReact_exit waits.head wf.2.1 react
  rw [← finalAck_iff waits waited] at ends
  exact ⟨before, e, after, split, ⟨s, by rw [waited]⟩, by rw [waited], ends⟩

theorem rrq_waiting {file : List UInt8} {client : SockAddr} {events : List Event} (known : mode = netascii ∨ mode = octet)
    (wf : ∀ e ∈ events, e.WellFormed)
    (goesOn : ∀ before e after, events = before ++ e :: after → Waiting (rrqHandler mode file client before).2 →
      ¬ GivesUp before e ∧ ¬ FinalAck mode file client before e) :
    Waiting (rrqHandler mode file client events).2 := by
  cases run : rrqHandler mode file client events with
  | mk out last =>
    cases last with
    | go s => exact ⟨s, rfl⟩
    | exit r u =>
      obtain ⟨before, e, after, split, waited, _, ⟨gives, _⟩ | ⟨_, final⟩⟩ := rrq_ended known wf run
      · exact absurd gives (goesOn before e after split waited).1
      · exact absurd final (goesOn before e after split waited).2

theorem rrq_ok_short {file : List UInt8} {client : SockAddr} {events : List Event} (known : mode = netascii ∨ mode = octet)
    (wf : ∀ e ∈ events, e.WellFormed) (ok : Returned (rrqHandler mode file client events).2 .ok) :
    ∃ before e after, events = before ++ e :: after ∧ Waiting (rrqHandler mode file client before).2 ∧
      (rrqHandler mode file client events).1 = (rrqHandler mode file client before).1 ∧
      FinalAck mode file client before e := by
  obtain ⟨u, ended⟩ := ok
  obtain ⟨before, e, after, split, waited, sent, ⟨_, fail⟩ | ⟨_, final⟩⟩ := rrq_ended known wf (Prod.ext rfl ended)
  · cases fail
  · exact ⟨before, e, after, split, waited, sent, final⟩

theorem rrq_finished {file : List UInt8} {client : SockAddr} {before after : List Event}
    (known : mode = netascii ∨ mode = octet) (wf : ∀ x ∈ before ++ e :: after, x.WellFormed)
    (waiting : Waiting (rrqHandler mode file client before).2) (final : FinalAck mode file client before e) :
    (rrqHandler mode file client (before ++ e :: after)).1 = (rrqHandler mode file client before).1 ∧
      Returned (rrqHandler mode file client (before ++ e :: after)).2 .ok := by
  obtain ⟨s, waiting⟩ := waiting
  have run : rrqHandler mode file client before = ((rrqHandler mode file client before).1, .go s) := Prod.ext rfl waiting
  rw [List.forall_mem_append, List.forall_mem_cons] at wf
  have waits := rrq_waits known wf.1 run
  obtain ⟨d, rfl, header, number, last⟩ := (finalAck_iff waits run).mp final
  obtain ⟨u, react⟩ := rrqReact_finishes waits.head wf.2.1 header number last
  have ended : rrqHandler mode file client (before ++ .recv d :: after) =
      ((rrqHandler mode file client before).1, .exit (.ret .ok) u) := EventLoop.run_append_stop after run react
  rw [ended]
  exact ⟨rfl, u, rfl⟩

theorem rrq_stopped {file : List UInt8} {client : SockAddr} {before after : List Event} (known : mode = netascii ∨ mode = octet)
    (wf : ∀ x ∈ before ++ e :: after, x.WellFormed) (waiting : Waiting (rrqHandler mode file client before).2)
    (stops : GivesUp before e) :
    (rrqHandler mode file client (before ++ e :: after)).1 = (rrqHandler mode file client before).1 ∧
      Returned (rrqHandler mode file client (before ++ e :: after)).2 .fail := by
  obtain ⟨s, waiting⟩ := waiting
  have run : rrqHandler mode file client before = ((rrqHandler mode file client before).1, .go s) := Prod.ext rfl waiting
  rw [List.forall_mem_append, List.forall_mem_cons] at wf
  obtain ⟨u, react⟩ := rrqReact_stops (rrq_waits known wf.1 run).head wf.2.1 stops
  have ended : rrqHandler mode file client (before ++ e :: after) =
      ((rrqHandler mode file client before).1, .exit (.ret .fail) u) := EventLoop.run_append_stop after run react
  rw [ended]
  exact ⟨rfl, u, rfl⟩

/-- A read in either mode over timeouts and packets of any kind stops and waits. -/
theorem rrq_stops_and_waits (mode file : List UInt8) (client : SockAddr) (events : List Event)
    (known : mode = netascii ∨ mode = octet) (wf : ∀ e ∈ events, e.WellFormed) :
    StopsAndWaits mode file client events where
  rounds before after split waiting := by
    rw [split, List.forall_mem_append] at wf
    exact rrq_rounds known wf.1 waiting
  numbered _ _ sent := rrq_numbered known wf sent
  waits := rrq_waiting known wf
  ok := rrq_ok_short known wf
  finished before e after split waiting final := by
    subst split
    exact rrq_finished known wf waiting final
  stopped before e after split waiting stops := by
    subst split
    exact rrq_stopped known wf waiting stops

theorem rrq_stops_and_waits_one_line :
    StopsAndWaits netascii [65, lf] ⟨0, 69⟩
      [.timeout, .recv ⟨⟨0, 69⟩, ackDatagram 7⟩, .recv ⟨⟨0, 69⟩, ackDatagram 1⟩, .timeout] :=
  rrq_stops_and_waits netascii [65, lf] ⟨0, 69⟩ _ (Or.inl rfl) (by simp [Event.WellFormed, ackDatagram])

end

end NetProjects.Tftp
