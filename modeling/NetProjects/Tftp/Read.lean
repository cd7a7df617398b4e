import NetProjects.Tftp.Handlers

/-!
# Octet reads

A round of the read loop sends the next block of the file under the current block number, and a
matching ACK advances the number. `rrq_sent_iff` lists everything sent over a sequence of events:
the file position counts rounds, the block number counts matching ACKs.
-/

namespace NetProjects.Tftp
open Bytes

/-- A datagram that carries every field the handler reads from it. -/
def Event.WellFormed : Event → Prop
  | .timeout => True
  | .recv d => 2 ≤ d.bytes.length ∧ (parseHeader d.bytes = .ack → 4 ≤ d.bytes.length)

/-- The ACK that matches once `j` matching ACKs have been received. -/
def Event.acks (j : Nat) : Event → Bool
  | .timeout => false
  | .recv d => parseHeader d.bytes = .ack && blockField d.bytes = UInt16.ofNat (j + 1)

def Event.nextAck (j : Nat) (e : Event) : Nat := if e.acks j then j + 1 else j

def acked : Nat → List Event → Nat
  | j, [] => j
  | j, e :: es => acked (e.nextAck j) es

def peerAfter : SockAddr → List Event → SockAddr
  | peer, [] => peer
  | peer, e :: es => peerAfter (e.nextPeer peer) es

/-- The event ends a read of `file` that waits in round `k` with `j` matching ACKs and `t` timeouts
behind it: the last timeout allowed, an ERROR, or the matching ACK of a short block. -/
def Event.EndsRead (file : List UInt8) (k j t : Nat) : Event → Prop
  | .timeout => t + 1 = maxRetry
  | .recv d => parseHeader d.bytes = .error ∨
      ((Event.recv d).acks j = true ∧ file.length < maxBufLen * (k + 1))

def ReadOpen (file : List UInt8) : Nat → Nat → Nat → List Event → Prop
  | _, _, _, [] => True
  | k, j, t, e :: es =>
    ¬ e.EndsRead file k j t ∧ ReadOpen file (k + 1) (e.nextAck j) (e.nextTimeout t) es

/-- The loop head with `j` matching ACKs and `t` timeouts behind it. -/
structure ReadHead (j t : Nat) (s : RrqState) : Prop where
  number : s.blockNum = UInt16.ofNat (j + 1)
  timeouts : s.timeoutCounter = t
  sendSize : s.bufSend.length = dataPacketLen
  recvSize : s.bufRecv.length = dataPacketLen

/-- The loop head of round `k`. -/
structure RrqAt (file : List UInt8) (k j t : Nat) (peer : SockAddr) (s : RrqState) : Prop where
  position : s.reader.fp = file.drop (maxBufLen * k)
  number : s.blockNum = UInt16.ofNat (j + 1)
  timeouts : s.timeoutCounter = t
  addr : s.clientAddr = peer
  sendSize : s.bufSend.length = dataPacketLen
  recvSize : s.bufRecv.length = dataPacketLen

structure RrqWaits (file : List UInt8) (k j t : Nat) (peer : SockAddr) (s : RrqState) : Prop where
  head : RrqAt file (k + 1) j t peer s
  last : s.isEOF = decide (file.length < maxBufLen * (k + 1))

section

variable {file : List UInt8} {k j t : Nat} {peer client : SockAddr} {s u : RrqState} {e : Event} {es : List Event}

theorem rrqStart_at (file : List UInt8) (client : SockAddr) :
    RrqAt file 0 0 0 client (.start file client) :=
  ⟨rfl, rfl, rfl, rfl, List.length_replicate, List.length_replicate⟩

theorem rrqTop_at (h : RrqAt file k j t peer s) :
    ∃ u, rrqTop octet s =
        ([⟨peer, dataDatagram (UInt16.ofNat (j + 1)) (chunk maxBufLen file k)⟩], .go u) ∧
      RrqWaits file k j t peer u := by
  obtain ⟨sent, size, count, position⟩ :=
    makeDataPacket_octet (UInt16.ofNat (j + 1)) h.sendSize h.position
  unfold rrqTop
  rw [h.number, h.addr]
  dsimp only
  rw [sent]
  refine ⟨_, rfl, ⟨position, rfl, h.timeouts, rfl, size, h.recvSize⟩, ?_⟩
  simp only [count, chunk_short_iff (show 0 < maxBufLen by decide)]

/-! ### One event -/

theorem RrqAt.readHead (h : RrqAt file k j t peer s) : ReadHead j t s := ⟨h.number, h.timeouts, h.sendSize, h.recvSize⟩

theorem ackedBy_iff (h : ReadHead j t s) {d : Datagram} (wf : (Event.recv d).WellFormed) :
    s.AckedBy d ↔ (Event.recv d).acks j = true := by
  simp only [RrqState.AckedBy, RrqState.received, Event.acks, Bool.and_eq_true, decide_eq_true_eq,
    tftpRecvfrom_header s.bufRecv wf.1, h.number]
  constructor
  · rintro ⟨header, number⟩
    rw [tftpRecvfrom_block s.bufRecv (wf.2 header)] at number
    exact ⟨header, number⟩
  · rintro ⟨header, number⟩
    rw [tftpRecvfrom_block s.bufRecv (wf.2 header)]
    exact ⟨header, number⟩

theorem received_head (h : ReadHead j t s) (d : Datagram) : ReadHead j t (s.received d) :=
  ⟨h.number, h.timeouts, h.sendSize, tftpRecvfrom_length h.recvSize d⟩

theorem next_head (h : ReadHead j t s) : ReadHead (j + 1) t s.next := by
  refine ⟨?_, h.timeouts, h.sendSize, h.recvSize⟩
  rw [RrqState.next, h.number]
  exact (UInt16.ofNat_add (j + 1) 1).symm

theorem rrqReact_head (h : ReadHead j t s) (wf : e.WellFormed) (react : rrqReact s e = .go u) :
    ReadHead (e.nextAck j) (e.nextTimeout t) u := by
  have cases' := rrqReact_cases s e
  rw [react] at cases'
  cases cases' with
  | waited => exact ⟨h.number, congrArg (· + 1) h.timeouts, h.sendSize, h.recvSize⟩
  | @advanced d acks =>
    rw [Event.nextAck, if_pos ((ackedBy_iff h wf).mp acks)]
    exact next_head (received_head h d)
  | @ignored d _ stale =>
    rw [Event.nextAck, if_neg (mt (ackedBy_iff h wf).mpr stale)]
    exact received_head h d

theorem rrqReact_open (h : RrqWaits file k j t peer s) (wf : e.WellFormed)
    (goes : ¬ e.EndsRead file k j t) :
    ∃ u, rrqReact s e = .go u ∧
      RrqAt file (k + 1) (e.nextAck j) (e.nextTimeout t) (e.nextPeer peer) u := by
  obtain ⟨at', last⟩ := h
  have outcome := rrqReact_cases s e
  generalize react : rrqReact s e = next at outcome
  cases outcome with
  | waited =>
    have head := rrqReact_head at'.readHead wf react
    exact ⟨_, rfl, at'.position, head.number, head.timeouts, at'.addr, head.sendSize, head.recvSize⟩
  | advanced | ignored =>
    have head := rrqReact_head at'.readHead wf react
    exact ⟨_, rfl, at'.position, head.number, head.timeouts, rfl, head.sendSize, head.recvSize⟩
  | gaveUp tenth =>
    rw [at'.timeouts] at tenth
    exact absurd tenth goes
  | failed error =>
    unfold RrqState.received at error
    rw [tftpRecvfrom_header s.bufRecv wf.1] at error
    exact absurd (Or.inl error) goes
  | finished acks short =>
    rw [last, decide_eq_true_eq] at short
    exact absurd (Or.inr ⟨(ackedBy_iff at'.readHead wf).mp acks, short⟩) goes

theorem rrqReact_ends (h : RrqWaits file k j t peer s) (wf : e.WellFormed) (ends : e.EndsRead file k j t) :
    ∃ r u, rrqReact s e = .exit (.ret r) u ∧ (r = .ok ↔ e.acks j = true) := by
  obtain ⟨at', last⟩ := h
  have outcome := rrqReact_cases s e
  generalize rrqReact s e = next at outcome
  have header {d : Datagram} (wf : (Event.recv d).WellFormed) : parseHeader (s.received d).bufRecv = parseHeader d.bytes :=
    tftpRecvfrom_header s.bufRecv wf.1
  cases outcome with
  | waited more =>
    rw [at'.timeouts] at more
    exact absurd ends more
  | gaveUp => exact ⟨.fail, _, rfl, by simp [Event.acks]⟩
  | failed error =>
    rw [header wf] at error
    exact ⟨.fail, _, rfl, by simp [Event.acks, error]⟩
  | finished acks => exact ⟨.ok, _, rfl, by simp [(ackedBy_iff at'.readHead wf).mp acks]⟩
  | advanced acks more =>
    rw [last, decide_eq_false_iff_not] at more
    obtain error | ⟨_, short⟩ := ends
    · cases (header wf).symm.trans acks.1 |>.symm.trans error
    · exact absurd short more
  | ignored sound stale =>
    rw [header wf] at sound
    obtain error | ⟨acks, _⟩ := ends
    · exact absurd error sound
    · exact absurd ((ackedBy_iff at'.readHead wf).mpr acks) stale

/-! ### Whole runs -/

/-- What an open read sends after the events. -/
def datagramAfter (file : List UInt8) (k j : Nat) (peer : SockAddr) (es : List Event) : Datagram :=
  ⟨peerAfter peer es, dataDatagram (UInt16.ofNat (acked j es + 1)) (chunk maxBufLen file (k + es.length))⟩

theorem rrq_cons_open (es : List Event) (h : RrqAt file k j t peer s) (wf : e.WellFormed)
    (goes : ¬ e.EndsRead file k j t) :
    ∃ u, RrqAt file (k + 1) (e.nextAck j) (e.nextTimeout t) (e.nextPeer peer) u ∧
      (rrqLoop octet).run s (e :: es) =
        (datagramAfter file k j peer [] :: ((rrqLoop octet).run u es).1, ((rrqLoop octet).run u es).2) := by
  obtain ⟨v, top, waits⟩ := rrqTop_at h
  obtain ⟨u, react, head⟩ := rrqReact_open waits wf goes
  exact ⟨u, head, EventLoop.run_cons_go (m := rrqLoop octet) top react⟩

theorem rrq_cons_ends (es : List Event) (h : RrqAt file k j t peer s) (wf : e.WellFormed) (ends : e.EndsRead file k j t) :
    ∃ r u, (rrqLoop octet).run s (e :: es) = ([datagramAfter file k j peer []], .exit (.ret r) u) ∧
      (r = .ok ↔ e.acks j = true) := by
  obtain ⟨v, top, waits⟩ := rrqTop_at h
  obtain ⟨r, u, react, ok⟩ := rrqReact_ends waits wf ends
  exact ⟨r, u, EventLoop.run_cons_exit (m := rrqLoop octet) top react, ok⟩

/-- The datagram sent after `i` events, for every `i` up to the end of the read. -/
theorem rrq_sent_iff (h : RrqAt file k j t peer s) (wf : ∀ e ∈ es, e.WellFormed) (i : Nat) (d : Datagram) :
    ((rrqLoop octet).run s es).1[i]? = some d ↔
      i ≤ es.length ∧ ReadOpen file k j t (es.take i) ∧ d = datagramAfter file k j peer (es.take i) := by
  induction es generalizing s k j t peer i with
  | nil =>
    obtain ⟨v, top, _⟩ := rrqTop_at h
    rw [EventLoop.run, show (rrqLoop octet).top s = _ from top]
    cases i with
    | zero => simp [ReadOpen, datagramAfter, peerAfter, acked, eq_comm]
    | succ i => simp
  | cons e es ih =>
    obtain ⟨wfHead, wfRest⟩ := List.forall_mem_cons.mp wf
    by_cases ends : e.EndsRead file k j t
    · obtain ⟨r, u, run, _⟩ := rrq_cons_ends es h wfHead ends
      rw [run]
      cases i with
      | zero => simp [ReadOpen, eq_comm]
      | succ i => simp [ReadOpen, ends]
    · obtain ⟨u, head, run⟩ := rrq_cons_open es h wfHead ends
      rw [run]
      cases i with
      | zero => simp [ReadOpen, eq_comm]
      | succ i =>
        have shift : datagramAfter file k j peer (e :: es.take i) =
            datagramAfter file (k + 1) (e.nextAck j) (e.nextPeer peer) (es.take i) := by
          simp only [datagramAfter, peerAfter, acked, List.length_cons]
          rw [show k + ((es.take i).length + 1) = k + 1 + (es.take i).length by omega]
        simp only [List.getElem?_cons_succ, List.take_succ_cons, List.length_cons, ReadOpen, ends,
          not_false_eq_true, true_and, shift, ih head wfRest, Nat.add_le_add_iff_right]

theorem rrq_run_open (h : RrqAt file k j t peer s) (wf : ∀ e ∈ es, e.WellFormed)
    (isOpen : ReadOpen file k j t es) :
    ∃ t' u, ((rrqLoop octet).run s es).2 = .go u ∧
      RrqWaits file (k + es.length) (acked j es) t' (peerAfter peer es) u := by
  induction es generalizing s k j t peer with
  | nil =>
    obtain ⟨v, top, waits⟩ := rrqTop_at h
    exact ⟨t, v, congrArg Prod.snd top, waits⟩
  | cons e es ih =>
    obtain ⟨wfHead, wfRest⟩ := List.forall_mem_cons.mp wf
    obtain ⟨u, head, run⟩ := rrq_cons_open es h wfHead isOpen.1
    obtain ⟨t', v, waiting, waits⟩ := ih head wfRest isOpen.2
    refine ⟨t', v, by rw [run]; exact waiting, ?_⟩
    rw [List.length_cons, show k + (es.length + 1) = k + 1 + es.length by omega]
    exact waits

theorem rrq_ok_ends (h : RrqAt file k j t peer s) (wf : ∀ e ∈ es, e.WellFormed) {u : RrqState}
    (ok : ((rrqLoop octet).run s es).2 = .exit (.ret .ok) u) :
    ∃ i, i ≤ es.length ∧ ReadOpen file k j t (es.take i) ∧ file.length < maxBufLen * (k + i + 1) := by
  induction es generalizing s k j t peer with
  | nil =>
    obtain ⟨v, top, _⟩ := rrqTop_at h
    rw [EventLoop.run, show (rrqLoop octet).top s = _ from top] at ok
    cases ok
  | cons e es ih =>
    obtain ⟨wfHead, wfRest⟩ := List.forall_mem_cons.mp wf
    by_cases ends : e.EndsRead file k j t
    · obtain ⟨r, v, run, isAck⟩ := rrq_cons_ends es h wfHead ends
      rw [run] at ok
      obtain ⟨rfl, _⟩ : r = .ok ∧ v = u := by simpa using ok
      refine ⟨0, Nat.zero_le _, trivial, ?_⟩
      cases e with
      | timeout => simp [Event.acks] at isAck
      | recv d =>
        have acks := isAck.mp rfl
        have header : parseHeader d.bytes = .ack := by
          simp only [Event.acks, Bool.and_eq_true, decide_eq_true_eq] at acks
          exact acks.1
        rcases ends with failed | ⟨_, short⟩
        · rw [header] at failed
          cases failed
        · exact short
    · obtain ⟨v, head, run⟩ := rrq_cons_open es h wfHead ends
      rw [run] at ok
      obtain ⟨i, bound, isOpen, short⟩ := ih head wfRest ok
      refine ⟨i + 1, by simpa using bound, ⟨ends, isOpen⟩, ?_⟩
      rwa [show k + (i + 1) + 1 = k + 1 + i + 1 by omega]

end

end NetProjects.Tftp
