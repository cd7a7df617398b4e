import NetProjects.Tftp.Handlers

/-!
# Octet writes

The write loop acknowledges every DATA with its own number and appends a block when its number
exceeds that of the DATA before it. `wrq_run_taken` gives the file after any sequence of DATA and
timeouts, `wrq_run_finish` the run that ends with a short block.
-/

namespace NetProjects.Tftp
open Bytes

/-- The payload of a DATA datagram, as much of it as `recvfrom` stores. -/
def Datagram.payload (d : Datagram) : List UInt8 := (d.bytes.take dataPacketLen).drop 4

def Datagram.block (d : Datagram) : UInt16 := blockField d.bytes

def Datagram.Short (d : Datagram) : Prop := d.payload.length < maxBufLen

instance (d : Datagram) : Decidable d.Short := inferInstanceAs (Decidable (_ < _))

/-- A timeout, or a DATA datagram with a whole header. -/
def Event.Upload : Event → Prop
  | .timeout => True
  | .recv d => 4 ≤ d.bytes.length ∧ parseHeader d.bytes = .data

def Event.nextBlock (b : UInt16) : Event → UInt16
  | .timeout => b
  | .recv d => d.block

def Event.appends (b : UInt16) : Event → List (UInt16 × List UInt8)
  | .timeout => []
  | .recv d => if b < d.block then [(d.block, d.payload)] else []

def Event.EndsWrite (t : Nat) : Event → Prop
  | .timeout => t + 1 = maxRetry
  | .recv d => d.Short

instance (t : Nat) (e : Event) : Decidable (e.EndsWrite t) := by
  cases e
  · exact inferInstanceAs (Decidable (_ = _))
  · exact inferInstanceAs (Decidable (Datagram.Short _))

def WriteOpen : Nat → List Event → Prop
  | _, [] => True
  | t, e :: es => ¬ e.EndsWrite t ∧ WriteOpen (e.nextTimeout t) es

/-- The events up to the one that ends the upload, all of them when none does. -/
def taken : Nat → List Event → List Event
  | _, [] => []
  | t, e :: es => e :: if e.EndsWrite t then [] else taken (e.nextTimeout t) es

/-- The blocks appended to the file over the events. -/
def written : UInt16 → List Event → List (UInt16 × List UInt8)
  | _, [] => []
  | b, e :: es => e.appends b ++ written (e.nextBlock b) es

def acksSent : SockAddr → UInt16 → List Event → List Datagram
  | peer, b, [] => [⟨peer, ackDatagram b⟩]
  | peer, b, e :: es => ⟨peer, ackDatagram b⟩ :: acksSent (e.nextPeer peer) (e.nextBlock b) es

/-- The loop head after block `b`, with `log` in the file. -/
structure WrqAt (b : UInt16) (t : Nat) (peer : SockAddr) (log : List (UInt16 × List UInt8)) (s : WrqState) :
    Prop where
  number : s.blockNum = b
  timeouts : s.timeoutCounter = t
  addr : s.clientAddr = peer
  logged : s.appended = log
  file : s.writer.fd = log.flatMap Prod.snd
  recvSize : s.bufRecv.length = dataPacketLen

structure WrqWaits (b : UInt16) (t : Nat) (peer : SockAddr) (log : List (UInt16 × List UInt8))
    (s : WrqState) : Prop where
  head : WrqAt b t peer log s
  last : s.lastBlockAck = b
  more : s.atEOF = false

section

variable {b : UInt16} {t : Nat} {peer : SockAddr} {log : List (UInt16 × List UInt8)}
variable {s : WrqState} {e : Event} {es rest : List Event} {d : Datagram}

theorem wrqStart_at (client : SockAddr) : WrqAt 0 0 client [] (.start client) :=
  ⟨rfl, rfl, rfl, rfl, rfl, List.length_replicate⟩

theorem wrqTop_more (h : WrqAt b t peer log s) (more : s.atEOF = false) :
    ∃ u, wrqTop s = ([⟨peer, ackDatagram b⟩], .go u) ∧ WrqWaits b t peer log u := by
  simp only [wrqTop, more, Bool.false_eq_true, if_false, take_makeAckPacket, h.number, h.addr]
  exact ⟨_, rfl, ⟨rfl, h.timeouts, rfl, h.logged, h.file, h.recvSize⟩, rfl, rfl⟩

theorem wrqTop_done (h : WrqAt b t peer log s) (done : s.atEOF = true) :
    ∃ u, wrqTop s = ([⟨peer, ackDatagram b⟩], .exit (.ret .ok) u) ∧ WrqAt b t peer log u := by
  simp only [wrqTop, done, if_true, take_makeAckPacket, h.number, h.addr]
  exact ⟨_, rfl, rfl, h.timeouts, rfl, h.logged, h.file, h.recvSize⟩

/-- The payload is moved to the front of what was received. -/
theorem received_moved {buf : List UInt8} (size : buf.length = dataPacketLen) (whole : 4 ≤ d.bytes.length) :
    sizeSub (tftpRecvfrom buf d).numbytes 4 = d.payload.length ∧
      parseDataPacket (tftpRecvfrom buf d).buf d.payload.length =
        some (d.block, memcpy (tftpRecvfrom buf d).buf 0 d.payload) ∧
      d.payload.length + 4 ≤ dataPacketLen := by
  have stored : (tftpRecvfrom buf d).numbytes = min dataPacketLen d.bytes.length := List.length_take
  have count : d.payload.length = min dataPacketLen d.bytes.length - 4 := by
    simp only [Datagram.payload, List.length_drop, List.length_take]
  have packet : dataPacketLen = 516 := rfl
  have received := tftpRecvfrom_length size d
  have front : ((tftpRecvfrom buf d).buf.drop 4).take d.payload.length = d.payload := by
    simp only [tftpRecvfrom, memcpy_zero]
    rw [List.drop_append_of_le_length (by rw [List.length_take]; omega)]
    exact List.take_left' rfl
  refine ⟨by rw [sizeSub, if_pos (by omega), stored, count], ?_, by omega⟩
  rw [parseDataPacket, if_pos (by omega), tftpRecvfrom_block buf whole, front]
  rfl

theorem received_payload {buf : List UInt8} (size : buf.length = dataPacketLen) (whole : 4 ≤ d.bytes.length) :
    sizeSub (tftpRecvfrom buf d).numbytes 4 = d.payload.length ∧
      ∃ moved, parseDataPacket (tftpRecvfrom buf d).buf d.payload.length = some (d.block, moved) ∧
        moved.take d.payload.length = d.payload ∧ moved.length = dataPacketLen := by
  obtain ⟨count, parsed, fits⟩ := received_moved size whole
  have received := tftpRecvfrom_length size d
  refine ⟨count, _, parsed, (take_memcpy_zero (Nat.le_refl _)).trans List.take_length, ?_⟩
  rw [length_memcpy (by omega), received]

theorem wrqReact_timeout (h : WrqWaits b t peer log s) (more : t + 1 ≠ maxRetry) :
    ∃ u, wrqReact octet s .timeout = .go u ∧ WrqAt b (t + 1) peer log u ∧ u.atEOF = false := by
  obtain ⟨⟨number, timeouts, addr, logged, file, size⟩, _, notEOF⟩ := h
  have goes : s.timeoutCounter + 1 ≠ maxRetry := by rw [timeouts]; exact more
  simp only [wrqReact, goes, if_false]
  exact ⟨_, rfl, ⟨number, congrArg (· + 1) timeouts, addr, logged, file, size⟩, notEOF⟩

theorem wrqReact_lastTimeout (h : WrqWaits b t peer log s) (last : t + 1 = maxRetry) :
    ∃ u, wrqReact octet s .timeout = .exit (.ret .fail) u ∧ WrqAt b (t + 1) peer log u := by
  obtain ⟨⟨number, timeouts, addr, logged, file, size⟩, _, _⟩ := h
  have stops : s.timeoutCounter + 1 = maxRetry := by rw [timeouts]; exact last
  simp only [wrqReact, stops, if_true]
  exact ⟨_, rfl, number, last.symm, addr, logged, file, size⟩

/-- A DATA datagram is appended when its number exceeds the last one, and always sets that one. -/
theorem wrqReact_data (h : WrqWaits b t peer log s) (upload : (Event.recv d).Upload) :
    ∃ u, wrqReact octet s (.recv d) = .go u ∧
      WrqAt d.block t d.peer (log ++ (Event.recv d).appends b) u ∧ u.atEOF = decide d.Short := by
  obtain ⟨⟨number, timeouts, addr, logged, file, size⟩, last, notEOF⟩ := h
  obtain ⟨whole, header⟩ := upload
  obtain ⟨count, moved, parsed, front, movedSize⟩ := received_payload size whole
  have opcode : parseHeader (tftpRecvfrom s.bufRecv d).buf = .data := by
    rw [tftpRecvfrom_header s.bufRecv (by omega), header]
  simp only [wrqReact, opcode]
  unfold wrqData
  dsimp only
  rw [count]
  simp only [parsed, last, writeDataToFile_octet, front, notEOF]
  by_cases rises : b < d.block
  · have appended : (Event.recv d).appends b = [(d.block, d.payload)] := if_pos rises
    have grown : s.writer.fd ++ d.payload = (log ++ [(d.block, d.payload)]).flatMap Prod.snd := by
      rw [file, List.flatMap_append, List.flatMap_singleton]
    simp only [rises, if_true, appended]
    exact ⟨_, rfl, ⟨rfl, timeouts, rfl, congrArg (· ++ _) logged, grown, movedSize⟩, rfl⟩
  · have nothing : (Event.recv d).appends b = [] := if_neg rises
    simp only [rises, if_false, nothing, List.append_nil]
    exact ⟨_, rfl, ⟨rfl, timeouts, rfl, logged, file, movedSize⟩, rfl⟩

/-! ### Whole runs -/

theorem wrq_cons_open (es : List Event) (h : WrqAt b t peer log s) (more : s.atEOF = false) (upload : e.Upload)
    (goes : ¬ e.EndsWrite t) :
    ∃ u, WrqAt (e.nextBlock b) (e.nextTimeout t) (e.nextPeer peer) (log ++ e.appends b) u ∧
      u.atEOF = false ∧
      (wrqLoop octet).run s (e :: es) =
        (⟨peer, ackDatagram b⟩ :: ((wrqLoop octet).run u es).1, ((wrqLoop octet).run u es).2) := by
  obtain ⟨v, top, waits⟩ := wrqTop_more h more
  cases e with
  | timeout =>
    obtain ⟨u, react, head, notEOF⟩ := wrqReact_timeout waits goes
    refine ⟨u, ?_, notEOF, EventLoop.run_cons_go (m := wrqLoop octet) top react⟩
    rw [Event.appends, List.append_nil]
    exact head
  | recv d =>
    obtain ⟨u, react, head, notEOF⟩ := wrqReact_data waits upload
    have long : ¬ d.Short := goes
    exact ⟨u, head, by rw [notEOF, decide_eq_false long],
      EventLoop.run_cons_go (m := wrqLoop octet) top react⟩

theorem wrq_cons_short (es : List Event) (h : WrqAt b t peer log s) (more : s.atEOF = false)
    (upload : (Event.recv d).Upload) (short : d.Short) :
    ∃ u, WrqAt d.block t d.peer (log ++ (Event.recv d).appends b) u ∧
      (wrqLoop octet).run s (.recv d :: es) =
        ([⟨peer, ackDatagram b⟩, ⟨d.peer, ackDatagram d.block⟩], .exit (.ret .ok) u) := by
  obtain ⟨v, top, waits⟩ := wrqTop_more h more
  obtain ⟨w, react, head, done⟩ := wrqReact_data waits upload
  obtain ⟨u, last, final⟩ := wrqTop_done head (by rw [done, decide_eq_true short])
  have tail : (wrqLoop octet).run w es = ([⟨d.peer, ackDatagram d.block⟩], .exit (.ret .ok) u) :=
    EventLoop.run_of_top_exit last
  have run : (wrqLoop octet).run s (.recv d :: es) =
      ([⟨peer, ackDatagram b⟩] ++ ((wrqLoop octet).run w es).1, ((wrqLoop octet).run w es).2) :=
    EventLoop.run_cons_go top react
  rw [tail] at run
  exact ⟨u, final, run⟩

theorem wrq_cons_lastTimeout (es : List Event) (h : WrqAt b t peer log s) (more : s.atEOF = false) (last : t + 1 = maxRetry) :
    ∃ u, WrqAt b (t + 1) peer log u ∧
      (wrqLoop octet).run s (.timeout :: es) = ([⟨peer, ackDatagram b⟩], .exit (.ret .fail) u) := by
  obtain ⟨v, top, waits⟩ := wrqTop_more h more
  obtain ⟨u, react, head⟩ := wrqReact_lastTimeout waits last
  exact ⟨u, head, EventLoop.run_cons_exit (m := wrqLoop octet) top react⟩

theorem wrq_run_open (h : WrqAt b t peer log s) (more : s.atEOF = false) (upload : ∀ e ∈ es, e.Upload)
    (isOpen : WriteOpen t es) :
    ∃ b' t' peer' u, (wrqLoop octet).run s es = (acksSent peer b es, .go u) ∧
      WrqWaits b' t' peer' (log ++ written b es) u := by
  induction es generalizing s b t peer log with
  | nil =>
    obtain ⟨u, top, waits⟩ := wrqTop_more h more
    rw [written, List.append_nil]
    exact ⟨b, t, peer, u, top, waits⟩
  | cons e es ih =>
    obtain ⟨first, others⟩ := List.forall_mem_cons.mp upload
    obtain ⟨v, head, notEOF, run⟩ := wrq_cons_open es h more first isOpen.1
    obtain ⟨b', t', peer', u, tail, waits⟩ := ih head notEOF others isOpen.2
    rw [List.append_assoc] at waits
    exact ⟨b', t', peer', u, by rw [run, tail]; rfl, waits⟩

theorem wrq_run_finish (rest : List Event) (h : WrqAt b t peer log s) (more : s.atEOF = false) (upload : ∀ e ∈ es, e.Upload)
    (isOpen : WriteOpen t es) (last : (Event.recv d).Upload) (short : d.Short) :
    ∃ b' t' peer' u, (wrqLoop octet).run s (es ++ .recv d :: rest) =
        (acksSent peer b (es ++ [.recv d]), .exit (.ret .ok) u) ∧
      WrqAt b' t' peer' (log ++ written b (es ++ [.recv d])) u := by
  induction es generalizing s b t peer log with
  | nil =>
    obtain ⟨u, final, run⟩ := wrq_cons_short rest h more last short
    refine ⟨d.block, t, d.peer, u, run, ?_⟩
    rw [List.nil_append, written, written, List.append_nil]
    exact final
  | cons e es ih =>
    obtain ⟨first, others⟩ := List.forall_mem_cons.mp upload
    obtain ⟨v, head, notEOF, run⟩ := wrq_cons_open (es ++ .recv d :: rest) h more first isOpen.1
    obtain ⟨b', t', peer', u, tail, final⟩ := ih head notEOF others isOpen.2
    rw [List.append_assoc] at final
    exact ⟨b', t', peer', u, by rw [List.cons_append, run, tail]; rfl, final⟩

def lastState {σ ρ : Type} : Next σ ρ → σ
  | .go s => s
  | .exit _ s => s

/-- The file after any DATA and timeouts holds the rises of the events the upload takes in. -/
theorem wrq_run_taken (h : WrqAt b t peer log s) (more : s.atEOF = false) (upload : ∀ e ∈ es, e.Upload) :
    ∃ b' t' peer', WrqAt b' t' peer' (log ++ written b (taken t es))
      (lastState ((wrqLoop octet).run s es).2) := by
  induction es generalizing s b t peer log with
  | nil =>
    obtain ⟨u, top, waits⟩ := wrqTop_more h more
    rw [taken, written, List.append_nil, EventLoop.run, show (wrqLoop octet).top s = _ from top]
    exact ⟨b, t, peer, waits.head⟩
  | cons e es ih =>
    obtain ⟨first, others⟩ := List.forall_mem_cons.mp upload
    by_cases ends : e.EndsWrite t
    · rw [taken, if_pos ends, written, written, List.append_nil]
      cases e with
      | timeout =>
        obtain ⟨u, final, run⟩ := wrq_cons_lastTimeout es h more ends
        rw [run, Event.appends, List.append_nil]
        exact ⟨b, t + 1, peer, final⟩
      | recv d =>
        obtain ⟨u, final, run⟩ := wrq_cons_short es h more first ends
        rw [run]
        exact ⟨d.block, t, d.peer, final⟩
    · obtain ⟨v, head, notEOF, run⟩ := wrq_cons_open es h more first ends
      rw [taken, if_neg ends, written, run, ← List.append_assoc]
      exact ih head notEOF others

end

end NetProjects.Tftp
