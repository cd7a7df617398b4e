import NetProjects.Tftp.Read

/-!
# Octet reads over whole runs

`rrq_own_blocks_iff` says exactly when a lossy read sends every block under its own number:
a resend takes the next block of the file instead of repeating the last one.
`rrq_lossless` is the read in which every block is acknowledged in time.
-/

namespace NetProjects.Tftp
open Bytes

/-! ### Reads under loss -/

/-- Every datagram sent after `j` matching ACKs is block `j` of the file under number `j + 1`, and a
read that succeeds has sent every block of the file so. -/
def SendsOwnBlocks (file : List UInt8) (client : SockAddr) (events : List Event) : Prop :=
  (∀ i d, (rrqHandler octet file client events).1[i]? = some d →
    d.bytes = dataDatagram (UInt16.ofNat (acked 0 (events.take i) + 1))
      (chunk maxBufLen file (acked 0 (events.take i)))) ∧
  (Returned (rrqHandler octet file client events).2 .ok → ∀ j, maxBufLen * j ≤ file.length →
    ∃ d ∈ (rrqHandler octet file client events).1,
      d.bytes = dataDatagram (UInt16.ofNat (j + 1)) (chunk maxBufLen file j))

/-- In every round that the events let the read reach, the file position, which has moved once for
every event, and the number of matching ACKs stand at equal blocks of the file. -/
def KeepsPlace (file : List UInt8) (events : List Event) : Prop :=
  ∀ i, i ≤ events.length → ReadOpen file 0 0 0 (events.take i) →
    chunk maxBufLen file i = chunk maxBufLen file (acked 0 (events.take i))

theorem nextAck_le (e : Event) (j : Nat) : e.nextAck j ≤ j + 1 := by
  unfold Event.nextAck
  split <;> omega

theorem acked_le (j : Nat) (es : List Event) : acked j es ≤ j + es.length := by
  induction es generalizing j with
  | nil => exact Nat.le_refl _
  | cons e es ih =>
    have one := nextAck_le e j
    have rest := ih (e.nextAck j)
    rw [acked, List.length_cons]
    omega

theorem readOpen_take {file : List UInt8} {k j t : Nat} {es : List Event} (n : Nat)
    (isOpen : ReadOpen file k j t es) : ReadOpen file k j t (es.take n) := by
  induction es generalizing k j t n with
  | nil => simpa using isOpen
  | cons e es ih =>
    cases n with
    | zero => trivial
    | succ n => exact ⟨isOpen.1, ih n isOpen.2⟩

theorem acked_reaches {es : List Event} {j n : Nat} (lower : j ≤ n) (upper : n ≤ acked j es) :
    ∃ i, i ≤ es.length ∧ acked j (es.take i) = n := by
  induction es generalizing j with
  | nil => exact ⟨0, Nat.zero_le _, Nat.le_antisymm lower upper⟩
  | cons e es ih =>
    by_cases here : j = n
    · exact ⟨0, Nat.zero_le _, here⟩
    · have step := nextAck_le e j
      obtain ⟨i, bound, reached⟩ := ih (j := e.nextAck j) (by omega) upper
      exact ⟨i + 1, by simpa using bound, reached⟩

theorem rrqHandler_sent_iff {file : List UInt8} (client : SockAddr) {events : List Event}
    (wf : ∀ e ∈ events, e.WellFormed) (i : Nat) (d : Datagram) :
    (rrqHandler octet file client events).1[i]? = some d ↔
      i ≤ events.length ∧ ReadOpen file 0 0 0 (events.take i) ∧
        d = datagramAfter file 0 0 client (events.take i) :=
  rrq_sent_iff (rrqStart_at file client) wf i d

theorem datagramAfter_bytes {file : List UInt8} {client : SockAddr} {events : List Event} {i : Nat}
    (bound : i ≤ events.length) :
    (datagramAfter file 0 0 client (events.take i)).bytes =
      dataDatagram (UInt16.ofNat (acked 0 (events.take i) + 1)) (chunk maxBufLen file i) := by
  simp only [datagramAfter, List.length_take, Nat.zero_add, Nat.min_eq_left bound]

theorem sendsOwnBlocks_of_keepsPlace {file : List UInt8} {client : SockAddr} {events : List Event}
    (wf : ∀ e ∈ events, e.WellFormed) (keeps : KeepsPlace file events) :
    SendsOwnBlocks file client events := by
  constructor
  · intro i d sent
    obtain ⟨bound, isOpen, rfl⟩ := (rrqHandler_sent_iff client wf i d).mp sent
    rw [datagramAfter_bytes bound, keeps i bound isOpen]
  · rintro ⟨u, ok⟩ j inside
    obtain ⟨i, bound, isOpen, short⟩ := rrq_ok_ends (rrqStart_at file client) wf ok
    -- The last block sent is short, so at least `j` ACKs have matched before it.
    have same := keeps i bound isOpen
    have reached : j ≤ acked 0 (events.take i) := by
      rw [Nat.zero_add, ← chunk_short_iff (by decide), same, chunk_short_iff (by decide)] at short
      have := Nat.lt_of_le_of_lt inside short
      exact Nat.lt_succ_iff.mp (Nat.lt_of_mul_lt_mul_left this)
    obtain ⟨n, nBound, nAcked⟩ := acked_reaches (Nat.zero_le j) reached
    rw [List.length_take] at nBound
    have early : (events.take i).take n = events.take n := by
      rw [List.take_take, Nat.min_eq_left (by omega)]
    rw [early] at nAcked
    have nOpen : ReadOpen file 0 0 0 (events.take n) := early ▸ readOpen_take n isOpen
    have nInside : n ≤ events.length := by omega
    have sent := (rrqHandler_sent_iff client wf n _).mpr ⟨nInside, nOpen, rfl⟩
    refine ⟨_, List.mem_of_getElem? sent, ?_⟩
    rw [datagramAfter_bytes nInside, keeps n nInside nOpen, nAcked]

theorem keepsPlace_of_sendsOwnBlocks {file : List UInt8} {client : SockAddr} {events : List Event}
    (wf : ∀ e ∈ events, e.WellFormed) (sends : SendsOwnBlocks file client events) :
    KeepsPlace file events := by
  intro i bound isOpen
  have sent := (rrqHandler_sent_iff client wf i _).mpr ⟨bound, isOpen, rfl⟩
  have own := sends.1 i _ sent
  rw [datagramAfter_bytes bound] at own
  exact dataDatagram_inj.mp own

/-- A lossy octet read sends every block under its own number exactly when it never loses its place:
every resend would have to find the block it repeats at the next position of the file. -/
theorem rrq_own_blocks_iff (file : List UInt8) (client : SockAddr) (events : List Event)
    (wf : ∀ e ∈ events, e.WellFormed) :
    SendsOwnBlocks file client events ↔ KeepsPlace file events :=
  ⟨keepsPlace_of_sendsOwnBlocks wf, sendsOwnBlocks_of_keepsPlace wf⟩

theorem chunk_zeros {n k : Nat} (inside : maxBufLen * (k + 1) ≤ n) :
    chunk maxBufLen (List.replicate n 0) k = List.replicate maxBufLen (0 : UInt8) := by
  have room : maxBufLen ≤ n - maxBufLen * k := by
    rw [Nat.mul_succ] at inside
    omega
  rw [chunk, List.drop_replicate, List.take_replicate, Nat.min_eq_left room]

/-- Five blocks of zeros: a timeout and a late ACK move the file position on to a block that is the same. -/
theorem rrq_own_blocks_zeros :
    let events := [.recv ⟨⟨0, 69⟩, ackDatagram 1⟩, .timeout, .recv ⟨⟨0, 69⟩, ackDatagram 7⟩, .recv ⟨⟨0, 69⟩, ackDatagram 2⟩]
    (∀ e ∈ events, e.WellFormed) ∧ ReadOpen (List.replicate (maxBufLen * 5) 0) 0 0 0 events ∧
      SendsOwnBlocks (List.replicate (maxBufLen * 5) 0) ⟨0, 69⟩ events := by
  intro events
  have wf : ∀ e ∈ events, e.WellFormed := by simp [events, Event.WellFormed, ackDatagram]
  have isOpen : ReadOpen (List.replicate (maxBufLen * 5) 0) 0 0 0 events := by
    have goes : ∀ b k j t, k < 5 →
        ¬ (Event.recv ⟨⟨0, 69⟩, ackDatagram b⟩).EndsRead (List.replicate (maxBufLen * 5) 0) k j t := by
      rintro b k j t inside (failed | ⟨_, short⟩)
      · simp at failed
      · rw [List.length_replicate] at short
        unfold maxBufLen at short
        omega
    have waits : ¬ 0 + 1 = maxRetry := by decide
    exact ⟨goes _ _ _ _ (by decide), waits, goes _ _ _ _ (by decide), goes _ _ _ _ (by decide), trivial⟩
  refine ⟨wf, isOpen, (rrq_own_blocks_iff _ ⟨0, 69⟩ events wf).mpr fun i inside _ => ?_⟩
  have few : events.length = 4 := rfl
  have behind := acked_le 0 (events.take i)
  rw [List.length_take] at behind
  rw [chunk_zeros (Nat.mul_le_mul_left _ (by omega)), chunk_zeros (Nat.mul_le_mul_left _ (by omega))]

/-- The resend of a one-byte file after a timeout is an empty block 1. -/
theorem rrq_resend_skips : ¬ SendsOwnBlocks [7] ⟨0, 69⟩ [.timeout] := by
  intro sends
  have keeps := keepsPlace_of_sendsOwnBlocks (by simp [Event.WellFormed]) sends
  have goes : ¬ Event.timeout.EndsRead [7] 0 0 0 := show ¬ 0 + 1 = maxRetry by decide
  have second := keeps 1 (by decide) ⟨goes, trivial⟩
  exact absurd second (by decide)

/-! ### Reads without loss -/

def ackEvents (client : SockAddr) : Nat → Nat → List Event
  | _, 0 => []
  | j, m + 1 => .recv ⟨client, ackDatagram (UInt16.ofNat (j + 1))⟩ :: ackEvents client (j + 1) m

def blockDatagram (file : List UInt8) (client : SockAddr) (k : Nat) : Datagram :=
  ⟨client, dataDatagram (UInt16.ofNat (k + 1)) (chunk maxBufLen file k)⟩

theorem ackEvent_acks (client : SockAddr) (j : Nat) :
    (Event.recv ⟨client, ackDatagram (UInt16.ofNat (j + 1))⟩).acks j = true := by
  simp [Event.acks]

theorem ackEvent_wellFormed (client : SockAddr) (j : Nat) :
    (Event.recv ⟨client, ackDatagram (UInt16.ofNat (j + 1))⟩).WellFormed := by
  simp [Event.WellFormed, ackDatagram]

theorem ackEvents_wellFormed (client : SockAddr) (j m : Nat) :
    ∀ e ∈ ackEvents client j m, e.WellFormed := by
  induction m generalizing j with
  | zero => simp [ackEvents]
  | succ m ih =>
    rw [ackEvents, List.forall_mem_cons]
    exact ⟨ackEvent_wellFormed client j, ih (j + 1)⟩

theorem ackEvent_goes {file : List UInt8} {k t : Nat} (client : SockAddr)
    (more : maxBufLen * (k + 1) ≤ file.length) :
    ¬ (Event.recv ⟨client, ackDatagram (UInt16.ofNat (k + 1))⟩).EndsRead file k k t := by
  rintro (failed | ⟨_, short⟩)
  · simp at failed
  · omega

theorem readOpen_ackEvents {file : List UInt8} {k m t : Nat} (client : SockAddr)
    (inside : maxBufLen * (k + m) ≤ file.length) : ReadOpen file k k t (ackEvents client k m) := by
  induction m generalizing k with
  | zero => trivial
  | succ m ih =>
    have more : maxBufLen * (k + 1) ≤ file.length :=
      Nat.le_trans (Nat.mul_le_mul_left _ (by omega)) inside
    refine ⟨ackEvent_goes client more, ?_⟩
    rw [Event.nextAck, if_pos (ackEvent_acks client k)]
    exact ih (by rwa [show k + 1 + m = k + (m + 1) by omega])

theorem rrq_acked_to_end {file : List UInt8} {client : SockAddr} {k m t : Nat} {s : RrqState}
    (h : RrqAt file k k t client s) (inside : maxBufLen * (k + m) ≤ file.length)
    (short : file.length < maxBufLen * (k + m + 1)) :
    ((rrqLoop octet).run s (ackEvents client k (m + 1))).1 =
        (List.range' k (m + 1)).map (blockDatagram file client) ∧
      Returned ((rrqLoop octet).run s (ackEvents client k (m + 1))).2 .ok := by
  induction m generalizing k t s with
  | zero =>
    obtain ⟨r, u, run, ok⟩ :=
      rrq_cons_ends [] h (ackEvent_wellFormed client k) (Or.inr ⟨ackEvent_acks client k, short⟩)
    rw [ackEvents, ackEvents, run]
    exact ⟨rfl, u, by rw [ok.mpr (ackEvent_acks client k)]⟩
  | succ m ih =>
    have more : maxBufLen * (k + 1) ≤ file.length :=
      Nat.le_trans (Nat.mul_le_mul_left _ (by omega)) inside
    obtain ⟨u, head, run⟩ := rrq_cons_open (ackEvents client (k + 1) (m + 1)) h
      (ackEvent_wellFormed client k) (ackEvent_goes client more)
    rw [Event.nextAck, if_pos (ackEvent_acks client k)] at head
    obtain ⟨rest, done⟩ := ih head (by rwa [show k + 1 + m = k + (m + 1) by omega])
      (by rwa [show k + 1 + m + 1 = k + (m + 1) + 1 by omega])
    rw [ackEvents, run, List.range'_succ, List.map_cons, rest]
    exact ⟨rfl, done⟩

/-- The blocks of a file end with exactly one short one, which is empty when the blocks before it
hold the whole file. -/
theorem blocks_of_file (file : List UInt8) :
    (∀ k, k < file.length / maxBufLen → (chunk maxBufLen file k).length = maxBufLen) ∧
      (chunk maxBufLen file (file.length / maxBufLen)).length < maxBufLen ∧
      (chunk maxBufLen file (file.length / maxBufLen) = [] ↔ maxBufLen ∣ file.length) ∧
      (List.range (file.length / maxBufLen + 1)).flatMap (chunk maxBufLen file) = file := by
  have pos : 0 < maxBufLen := by decide
  have whole := Nat.div_mul_le_self file.length maxBufLen
  refine ⟨?_, ?_, ?_, ?_⟩
  · intro k before
    apply chunk_full
    calc maxBufLen * (k + 1) ≤ maxBufLen * (file.length / maxBufLen) := Nat.mul_le_mul_left _ before
      _ ≤ file.length := by rw [Nat.mul_comm]; exact whole
  · exact (chunk_short_iff pos file _).mpr (lt_blocks pos file.length)
  · rw [chunk_eq_nil_iff pos, Nat.mul_comm]
    constructor
    · intro all
      exact ⟨_, (Nat.mul_comm _ _).trans (Nat.le_antisymm whole all) |>.symm⟩
    · intro divides
      rw [Nat.div_mul_cancel divides]
  · rw [flatMap_chunk, List.take_of_length_le (Nat.le_of_lt (lt_blocks pos file.length))]

/-- A read of any size in which every block is acknowledged sends the blocks of the file in order,
numbered from 1 modulo 65536, and succeeds on the ACK of the short one and no earlier. -/
theorem rrq_lossless (file : List UInt8) (client : SockAddr) :
    (rrqHandler octet file client (ackEvents client 0 (file.length / maxBufLen + 1))).1 =
        (List.range (file.length / maxBufLen + 1)).map (blockDatagram file client) ∧
      (∀ k, (blockDatagram file client k).bytes.length = 4 + (chunk maxBufLen file k).length ∧
        (blockField (blockDatagram file client k).bytes).toNat = (k + 1) % 65536) ∧
      (∀ k, k < file.length / maxBufLen → (chunk maxBufLen file k).length = maxBufLen) ∧
      (chunk maxBufLen file (file.length / maxBufLen)).length < maxBufLen ∧
      (chunk maxBufLen file (file.length / maxBufLen) = [] ↔ maxBufLen ∣ file.length) ∧
      (List.range (file.length / maxBufLen + 1)).flatMap (chunk maxBufLen file) = file ∧
      Returned (rrqHandler octet file client (ackEvents client 0 (file.length / maxBufLen + 1))).2 .ok ∧
      ∀ m, m ≤ file.length / maxBufLen → Waiting (rrqHandler octet file client (ackEvents client 0 m)).2 := by
  have pos : 0 < maxBufLen := by decide
  have inside : maxBufLen * (0 + file.length / maxBufLen) ≤ file.length := by
    rw [Nat.zero_add, Nat.mul_comm]
    exact Nat.div_mul_le_self file.length maxBufLen
  have short : file.length < maxBufLen * (0 + file.length / maxBufLen + 1) := by
    rw [Nat.zero_add]
    exact lt_blocks pos file.length
  obtain ⟨sent, done⟩ := rrq_acked_to_end (rrqStart_at file client) inside short
  obtain ⟨full, last, empty, all⟩ := blocks_of_file file
  refine ⟨?_, ?_, full, last, empty, all, done, ?_⟩
  · rw [List.range_eq_range']
    exact sent
  · intro k
    simp [blockDatagram]
  · intro m before
    have enough : maxBufLen * (0 + m) ≤ file.length :=
      Nat.le_trans (Nat.mul_le_mul_left _ (by omega)) inside
    obtain ⟨_, u, waiting, _⟩ := rrq_run_open (rrqStart_at file client)
      (ackEvents_wellFormed client 0 m) (readOpen_ackEvents client enough)
    exact ⟨u, waiting⟩

end NetProjects.Tftp
