import NetProjects.Tftp.Timeouts

/-!
# Replies to any peer

Whatever is received, a loop sends once for each round, and ten timeouts end it.
-/

namespace NetProjects.Tftp

def Event.isRecv : Event → Bool
  | .timeout => false
  | .recv _ => true

/-- The loop takes some of the events and of the timeouts that follow them, then returns; it has sent
at most ten datagrams more than it has received. -/
def BoundedReply {σ : Type} (m : EventLoop σ Event Datagram Exit) (s : σ) (events : List Event) : Prop :=
  ∃ taken rest sent r t, events ++ List.replicate maxRetry .timeout = taken ++ rest ∧ m.Selects s taken ∧
    m.run s taken = (sent, .exit (.ret r) t) ∧ sent.length ≤ taken.countP Event.isRecv + 10

theorem count_events (es : List Event) : es.countP Event.isRecv + es.count .timeout = es.length := by
  induction es with
  | nil => rfl
  | cons e es ih =>
    cases e with
    | timeout =>
      rw [List.countP_cons_of_neg (by simp [Event.isRecv]), List.count_cons_self, List.length_cons]
      omega
    | recv d =>
      rw [List.countP_cons_of_pos rfl, List.count_cons_of_ne (by simp), List.length_cons]
      omega

/-- The loop never leaves a buffer where it waits, sends once at its head and cannot fail there. -/
structure Replies {σ : Type} (m : EventLoop σ Event Datagram Exit) (s : σ) (admitted : Event → Prop) : Prop where
  once : ∀ t, (m.top t).1.length ≤ 1
  head : ∀ t out u, m.top t ≠ (out, .exit .fault u)
  sound : ∀ es out t e u, m.run s es = (out, .go t) → admitted e → m.react t e ≠ .exit .fault u

section

variable {σ : Type} {m : EventLoop σ Event Datagram Exit} {counter : σ → Nat} {s t : σ} {events es : List Event}
  {admitted : Event → Prop} {out : List Datagram} {r : Exit}

/-- The last event taken is the last timeout allowed, or fewer timeouts have been taken. -/
theorem CountsTimeouts.count_concat_le (h : CountsTimeouts m counter) (zero : counter s = 0)
    (run : m.run s es = (out, .go t)) (e : Event) : (es ++ [e]).count .timeout ≤ maxRetry := by
  obtain ⟨_, few⟩ := h.count_eq zero run
  have last : List.count Event.timeout [e] ≤ 1 := List.count_le_length
  rw [List.count_append]
  omega

theorem CountsTimeouts.count_concat_lt (h : CountsTimeouts m counter) (zero : counter s = 0)
    (run : m.run s es = (out, .go t)) {e : Event} {u : σ} (react : m.react t e = .go u) :
    (es ++ [e]).count .timeout < maxRetry := by
  obtain ⟨same, few⟩ := h.count_eq zero run
  cases e with
  | timeout =>
    obtain ⟨more, _⟩ := h.waited t u react
    rw [List.count_append, List.count_singleton_self]
    omega
  | recv d =>
    rw [List.count_append, List.count_singleton]
    exact few

/-- A run that has ended took its events up to one that ended it. -/
theorem Replies.taken (replies : Replies m s admitted) (h : CountsTimeouts m counter) (zero : counter s = 0)
    (run : m.run s es = (out, .exit r t)) :
    ∃ taken rest, es = taken ++ rest ∧ m.Selects s taken ∧ m.run s taken = (out, .exit r t) ∧
      out.length ≤ taken.countP Event.isRecv + maxRetry := by
  obtain top | ⟨before, e, after, sent, u, split, earlier, round⟩ := EventLoop.run_exit_cases run
  · have few := replies.once s
    rw [top] at few
    refine ⟨[], es, rfl, ?_, top, ?_⟩
    · intro before e after split
      simp at split
    · exact few.trans (by decide)
  · have selects := EventLoop.selects_concat earlier e
    have heads := EventLoop.run_sent_le replies.once earlier
    have counted := count_events (before ++ [e])
    rw [List.length_append, List.length_singleton] at counted
    refine ⟨before ++ [e], after, by rw [split, List.append_assoc]; rfl, selects, ?_⟩
    obtain ⟨react, rfl⟩ | ⟨v, last, react, top, rfl⟩ := round
    · have timeouts := h.count_concat_le zero earlier e
      refine ⟨EventLoop.run_append_stop [] earlier react, ?_⟩
      omega
    · have timeouts := h.count_concat_lt zero earlier react
      have few : last.length ≤ 1 := by
        have sends := replies.once v
        rw [top] at sends
        exact sends
      refine ⟨?_, ?_⟩
      · rw [EventLoop.run_append_go [] earlier react, EventLoop.run, top]
      · rw [List.length_append]
        omega

theorem Replies.bounded (replies : Replies m s admitted) (h : CountsTimeouts m counter) (zero : counter s = 0)
    (silence : admitted .timeout) (events_admitted : ∀ e ∈ events, admitted e) : BoundedReply m s events := by
  cases run : m.run s (events ++ List.replicate maxRetry .timeout) with
  | mk out last =>
    cases last with
    | go t =>
      -- Ten timeouts have been taken, and the loop waits again.
      obtain ⟨_, few⟩ := h.count_eq zero run
      rw [List.count_append, List.count_replicate_self] at few
      omega
    | exit r t =>
      obtain ⟨taken, rest, split, selects, ended, few⟩ := replies.taken h zero run
      cases r with
      | ret r => exact ⟨taken, rest, out, r, t, split, selects, ended, few⟩
      | fault =>
        obtain top | ⟨before, e, after, sent, u, here, earlier, round⟩ := EventLoop.run_exit_cases run
        · exact absurd top (replies.head s out t)
        · have member : e ∈ events ++ List.replicate maxRetry .timeout := by
            rw [here]
            exact List.mem_append_right _ List.mem_cons_self
          have fair : admitted e := by
            obtain member | member := List.mem_append.mp member
            · exact events_admitted e member
            · rw [List.eq_of_mem_replicate member]
              exact silence
          obtain ⟨react, _⟩ | ⟨v, last, _, top, _⟩ := round
          · exact absurd react (replies.sound before sent u e t earlier fair)
          · exact absurd top (replies.head v last t)

end

theorem rrq_replies (mode file : List UInt8) (client : SockAddr) :
    Replies (rrqLoop mode) (.start file client) fun _ => True where
  once t := Nat.le_refl 1
  head t out u top := by cases top
  sound es out t e u _ _ react := by
    have outcome := rrqReact_cases t e
    rw [show rrqReact t e = .exit .fault u from react] at outcome
    cases outcome

/-- A datagram with room for an opcode and a block number. -/
def Event.Whole : Event → Prop
  | .timeout => True
  | .recv d => 4 ≤ d.bytes.length ∧ d.bytes.length ≤ dataPacketLen

theorem wrq_replies (mode : List UInt8) (client : SockAddr) :
    Replies (wrqLoop mode) (.start client) Event.Whole where
  once t := by
    change (wrqTop t).1.length ≤ 1
    rw [wrqTop_eq]
    exact Nat.le_refl 1
  head t out u top := by
    have both := congrArg Prod.snd top
    change (wrqTop t).2 = _ at both
    rw [wrqTop_eq] at both
    dsimp only at both
    split at both <;> cases both
  sound es out t e u run whole react := by
    obtain ⟨size, _, _⟩ := wrq_waits run
    cases e with
    | timeout =>
      have outcome := wrqReact_cases mode t .timeout
      rw [show wrqReact mode t .timeout = .exit .fault u from react] at outcome
      cases outcome
    | recv d =>
      by_cases header : parseHeader d.bytes = .data
      · obtain ⟨v, moved, goes, _⟩ := wrqReact_upload mode size ⟨whole.1, header⟩
        cases goes.symm.trans react
      · have outcome := wrqReact_cases mode t (.recv d)
        rw [show wrqReact mode t (.recv d) = .exit .fault u from react] at outcome
        generalize next : Next.exit Exit.fault u = data at outcome
        cases outcome with
        | refused => cases next
        | data other =>
          unfold WrqState.received at other
          rw [tftpRecvfrom_header t.bufRecv (by have := whole.1; omega)] at other
          exact absurd other header

/-- Both handlers return once the peer falls silent, after at most ten datagrams more than they received. -/
theorem replies_bounded (mode file : List UInt8) (client : SockAddr) (events : List Event)
    (whole : ∀ e ∈ events, e.Whole) :
    BoundedReply (rrqLoop mode) (.start file client) events ∧ BoundedReply (wrqLoop mode) (.start client) events :=
  ⟨(rrq_replies mode file client).bounded (rrq_countsTimeouts mode) rfl trivial fun _ _ => trivial,
    (wrq_replies mode client).bounded (wrq_countsTimeouts mode) rfl trivial whole⟩

/-- An ACK of another block and a DATA behind a timeout. -/
theorem replies_bounded_mixed :
    let events := [.recv ⟨⟨0, 69⟩, ackDatagram 7⟩, .timeout, .recv ⟨⟨0, 70⟩, [0, 3, 0, 1, 65]⟩]
    BoundedReply (rrqLoop netascii) (.start [65, 10] ⟨0, 69⟩) events ∧
      BoundedReply (wrqLoop netascii) (.start ⟨0, 69⟩) events :=
  replies_bounded netascii [65, 10] ⟨0, 69⟩ _ (by simp [Event.Whole, ackDatagram, dataPacketLen])

end NetProjects.Tftp
