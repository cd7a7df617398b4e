import NetProjects.Tftp.Read
import NetProjects.Tftp.Reactions

/-!
# Giving up

Both loops count the timeouts of the whole transfer: no packet sets the counter back.
-/

namespace NetProjects.Tftp

/-- The handler has given up on its last timeout. -/
def GaveUp {σ : Type} (events : List Event) (outcome : Next σ Exit) : Prop :=
  events.getLast? = some .timeout ∧ Returned outcome .fail

/-- The last `maxRetry` selects have timed out. -/
def TimedOutInARow (events : List Event) : Prop :=
  ∃ earlier, events = earlier ++ List.replicate maxRetry .timeout

/-- Every packet comes before the first timeout. -/
def PacketsFirst (events : List Event) : Prop :=
  ∀ before d after, events = before ++ .recv d :: after → .timeout ∉ before

/-- `counter` counts the timeouts of a loop, which the last one allowed ends. -/
structure CountsTimeouts {σ : Type} (m : EventLoop σ Event Datagram Exit) (counter : σ → Nat) : Prop where
  top : ∀ s out u, m.top s = (out, .go u) → counter u = counter s
  topExit : ∀ s out r u, m.top s = (out, .exit r u) → r ≠ .ret .fail
  recv : ∀ s d u, m.react s (.recv d) = .go u → counter u = counter s
  waited : ∀ s u, m.react s .timeout = .go u → counter s + 1 ≠ maxRetry ∧ counter u = counter s + 1
  gaveUp : ∀ s, counter s + 1 = maxRetry → ∃ u, m.react s .timeout = .exit (.ret .fail) u
  stays : ∀ s, counter s + 1 ≠ maxRetry → ∃ u, m.react s .timeout = .go u

theorem rrq_countsTimeouts (mode : List UInt8) : CountsTimeouts (rrqLoop mode) RrqState.timeoutCounter where
  top s out u top := by
    cases top
    rfl
  topExit s out r u top := by cases top
  recv s d u react := by
    have outcome := rrqReact_cases s (.recv d)
    rw [show rrqReact s (.recv d) = .go u from react] at outcome
    cases outcome <;> rfl
  waited s u react := by
    have outcome := rrqReact_cases s .timeout
    rw [show rrqReact s .timeout = .go u from react] at outcome
    cases outcome with
    | waited more => exact ⟨more, rfl⟩
  gaveUp s last := ⟨_, if_pos last⟩
  stays s more := ⟨_, if_neg more⟩

theorem wrq_countsTimeouts (mode : List UInt8) : CountsTimeouts (wrqLoop mode) WrqState.timeoutCounter where
  top s out u top := by
    have both := congrArg Prod.snd top
    change (if s.atEOF then Next.exit _ _ else Next.go _) = Next.go u at both
    split at both
    · cases both
    · cases both
      rfl
  topExit s out r u top := by
    have both := congrArg Prod.snd top
    change (if s.atEOF then Next.exit _ _ else Next.go _) = Next.exit r u at both
    split at both
    · cases both
      simp
    · cases both
  recv s d u react := by
    have outcome := wrqReact_cases mode s (.recv d)
    rw [show wrqReact mode s (.recv d) = .go u from react] at outcome
    generalize next : Next.go u = data at outcome
    cases outcome with
    | refused => cases next
    | data => exact (wrqData_frame next.symm).1.trans rfl
  waited s u react := by
    have outcome := wrqReact_cases mode s .timeout
    rw [show wrqReact mode s .timeout = .go u from react] at outcome
    cases outcome with
    | waited more => exact ⟨more, rfl⟩
  gaveUp s last := ⟨_, if_pos last⟩
  stays s more := ⟨_, if_neg more⟩

section

variable {σ : Type} {m : EventLoop σ Event Datagram Exit} {counter : σ → Nat} {s u : σ} {es : List Event}
  {out : List Datagram}

theorem CountsTimeouts.count_eq (h : CountsTimeouts m counter) (zero : counter s = 0) (run : m.run s es = (out, .go u)) :
    counter u = es.count .timeout ∧ es.count .timeout < maxRetry := by
  refine EventLoop.waiting_rule (I := fun es _ u => counter u = es.count .timeout ∧ es.count .timeout < maxRetry) ?_ ?_ run
  · intro out t top
    rw [h.top s out t top, zero]
    exact ⟨rfl, by decide⟩
  · rintro es out t e v sent w ⟨same, few⟩ react top
    rw [h.top v sent w top]
    cases e with
    | timeout =>
      obtain ⟨more, counted⟩ := h.waited t v react
      rw [counted, List.count_append, List.count_singleton_self, same]
      rw [same] at more
      exact ⟨rfl, by omega⟩
    | recv d =>
      rw [h.recv t d v react, List.count_append, List.count_singleton, same]
      exact ⟨rfl, few⟩

/-- A run gives up on its last event exactly when that is its last timeout allowed. -/
theorem CountsTimeouts.gaveUp_iff (h : CountsTimeouts m counter) (zero : counter s = 0) (selects : m.Selects s es) :
    GaveUp es (m.run s es).2 ↔ es.count .timeout = maxRetry := by
  cases es using List.reverseRecOn with
  | nil => simp [GaveUp, maxRetry]
  | append_singleton es e =>
    obtain ⟨out, t, before⟩ := selects es e [] rfl
    obtain ⟨same, few⟩ := h.count_eq zero before
    cases e with
    | recv d =>
      have unchanged : (es ++ [Event.recv d]).count .timeout = es.count .timeout := by
        rw [List.count_append, List.count_singleton]
        rfl
      rw [unchanged]
      refine iff_of_false ?_ (Nat.ne_of_lt few)
      rintro ⟨last, _⟩
      rw [List.getLast?_concat] at last
      cases last
    | timeout =>
      rw [List.count_append, List.count_singleton_self, GaveUp, List.getLast?_concat, ← same]
      constructor
      · rintro ⟨_, v, failed⟩
        by_contra more
        obtain ⟨w, react⟩ := h.stays t more
        rw [EventLoop.run_append_go [] before react] at failed
        exact h.topExit w _ _ v (Prod.ext rfl failed) rfl
      · intro last
        obtain ⟨v, react⟩ := h.gaveUp t last
        rw [EventLoop.run_append_stop [] before react]
        exact ⟨rfl, v, rfl⟩

/-- Behind the packets stand the timeouts, all in a row. -/
theorem PacketsFirst.split (first : PacketsFirst es) :
    ∃ earlier, es = earlier ++ List.replicate (es.count .timeout) .timeout := by
  induction es with
  | nil => exact ⟨[], rfl⟩
  | cons e es ih =>
    have rest : PacketsFirst es := by
      intro before d after split member
      exact first (e :: before) d after (by rw [split]; rfl) (List.mem_cons_of_mem _ member)
    obtain ⟨earlier, tail⟩ := ih rest
    cases e with
    | recv d =>
      refine ⟨.recv d :: earlier, ?_⟩
      rw [List.count_cons_of_ne (by simp), List.cons_append, ← tail]
    | timeout =>
      -- No packet may follow, so what follows is timeouts only.
      have same : ∀ x ∈ es, x = .timeout := by
        intro x member
        cases x with
        | timeout => rfl
        | recv d =>
          obtain ⟨before, after, here⟩ := List.append_of_mem member
          exact absurd List.mem_cons_self (first (.timeout :: before) d after (by rw [here]; rfl))
      refine ⟨[], ?_⟩
      rw [List.nil_append, List.eq_replicate_iff]
      refine ⟨(List.count_eq_length.mpr fun x member => ?_).symm, List.forall_mem_cons.mpr ⟨rfl, same⟩⟩
      rcases List.mem_cons.mp member with rfl | member
      · rfl
      · exact (same x member).symm

theorem TimedOutInARow.packetsFirst (row : TimedOutInARow es) (ten : es.count .timeout = maxRetry) : PacketsFirst es := by
  obtain ⟨earlier, rfl⟩ := row
  rw [List.count_append, List.count_replicate_self] at ten
  have none : .timeout ∉ earlier := List.count_eq_zero.mp (by omega)
  intro before d after split member
  obtain ⟨middle, rfl, _⟩ | ⟨middle, _, packets⟩ := List.append_eq_append_iff.mp split.symm
  · exact none (List.mem_append_left _ member)
  · have packet : Event.recv d ∈ List.replicate maxRetry Event.timeout := by
      rw [packets]
      exact List.mem_append_right _ List.mem_cons_self
    cases List.eq_of_mem_replicate packet

theorem CountsTimeouts.inARow_iff (h : CountsTimeouts m counter) (zero : counter s = 0) (selects : m.Selects s es) :
    (GaveUp es (m.run s es).2 → TimedOutInARow es) ↔ (es.count .timeout = maxRetry → PacketsFirst es) := by
  rw [h.gaveUp_iff zero selects]
  constructor
  · intro row ten
    exact (row ten).packetsFirst ten
  · intro first ten
    obtain ⟨earlier, split⟩ := (first ten).split
    rw [ten] at split
    exact ⟨earlier, split⟩

end

/-- A handler gives up for timeouts in a row only, exactly when no packet comes after the first of
ten timeouts: the counter is that of the whole transfer. -/
theorem gives_up_in_a_row_iff (mode : List UInt8) (client : SockAddr) (events : List Event) :
    (∀ file, (rrqLoop mode).Selects (.start file client) events →
      ((GaveUp events (rrqHandler mode file client events).2 → TimedOutInARow events) ↔
        (events.count .timeout = maxRetry → PacketsFirst events))) ∧
    ((wrqLoop mode).Selects (.start client) events →
      ((GaveUp events (wrqHandler mode client events).2 → TimedOutInARow events) ↔
        (events.count .timeout = maxRetry → PacketsFirst events))) :=
  ⟨fun _ selects => (rrq_countsTimeouts mode).inARow_iff rfl selects,
    fun selects => (wrq_countsTimeouts mode).inARow_iff rfl selects⟩

theorem gives_up_after_ten :
    let events := List.replicate 9 Event.timeout ++ [.timeout]
    (GaveUp events (rrqHandler octet [] ⟨0, 69⟩ events).2 → TimedOutInARow events) ∧
      (GaveUp events (wrqHandler octet ⟨0, 69⟩ events).2 → TimedOutInARow events) := by
  intro events
  have formed : ∀ e ∈ List.replicate 9 Event.timeout, e.WellFormed := by simp [Event.WellFormed]
  have uploads : ∀ e ∈ List.replicate 9 Event.timeout, e.Upload := by simp [Event.Upload]
  obtain ⟨_, u, waits, _⟩ := rrq_run_open (rrqStart_at [] ⟨0, 69⟩) formed
     (by simp [ReadOpen, Event.EndsRead, Event.nextTimeout, List.replicate, maxRetry])
  obtain ⟨_, _, _, v, writes, _⟩ := wrq_run_open (wrqStart_at ⟨0, 69⟩) rfl uploads
     (by simp [WriteOpen, Event.EndsWrite, Event.nextTimeout, List.replicate, maxRetry])
  have first : PacketsFirst events := by
    intro before d after split
    have packet : Event.recv d ∈ events := by
      rw [split]
      exact List.mem_append_right _ List.mem_cons_self
    simp [events] at packet
  obtain ⟨read, write⟩ := gives_up_in_a_row_iff octet ⟨0, 69⟩ events
  exact ⟨(read [] (EventLoop.selects_concat (Prod.ext rfl waits) _)).mpr fun _ => first,
    (write (EventLoop.selects_concat writes _)).mpr fun _ => first⟩

/-- Five timeouts, the ACK of block 1 and five timeouts end a read of ten blocks. -/
theorem gives_up_after_ack :
    let events := List.replicate 5 Event.timeout ++ .recv ⟨⟨0, 69⟩, ackDatagram 1⟩ :: List.replicate 5 .timeout
    (rrqLoop octet).Selects (.start (List.replicate 5120 7) ⟨0, 69⟩) events ∧
      GaveUp events (rrqHandler octet (List.replicate 5120 7) ⟨0, 69⟩ events).2 ∧ ¬ TimedOutInARow events := by
  intro events
  have size : (List.replicate 5120 (7 : UInt8)).length = 5120 := List.length_replicate
  generalize List.replicate 5120 (7 : UInt8) = file at size ⊢
  have formed : ∀ e ∈ List.replicate 5 Event.timeout ++ .recv ⟨⟨0, 69⟩, ackDatagram 1⟩ :: List.replicate 4 .timeout,
      e.WellFormed := by simp [Event.WellFormed, ackDatagram]
  obtain ⟨_, u, waits, _⟩ := rrq_run_open (rrqStart_at file ⟨0, 69⟩) formed
    (by simp [ReadOpen, Event.EndsRead, Event.nextTimeout, Event.nextAck, List.replicate, maxRetry, maxBufLen, size])
  have selects : (rrqLoop octet).Selects (.start file ⟨0, 69⟩) events :=
    EventLoop.selects_concat (Prod.ext rfl waits) .timeout
  have ten : events.count .timeout = maxRetry := by decide
  refine ⟨selects, ((rrq_countsTimeouts octet).gaveUp_iff rfl selects).mpr ten, fun row => ?_⟩
  exact row.packetsFirst ten (List.replicate 5 .timeout) _ _ rfl (by decide)

end NetProjects.Tftp
