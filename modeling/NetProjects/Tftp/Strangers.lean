import NetProjects.Tftp.ReadRuns
import NetProjects.Tftp.Timeouts
import NetProjects.Tftp.WriteRuns

/-!
# Third parties

Both loops take the sender of the last datagram for the client. Two runs are compared, with the
datagrams from other addresses and without.
-/

namespace NetProjects.Tftp
open Bytes

def Event.own (client : SockAddr) : Event → Bool
  | .timeout => true
  | .recv d => d.peer = client

section

variable {σ : Type} (m : EventLoop σ Event Datagram Exit) (start : σ) (closes : σ → Event → Prop)

/-- The client is sent what it is sent without the third parties, and nobody else is sent anything. -/
structure Undisturbed (client : SockAddr) (events : List Event) : Prop where
  same : (m.run start events).1.filter (fun d => d.peer = client) =
    (m.run start (events.filter (Event.own client))).1.filter (fun d => d.peer = client)
  only : ∀ d ∈ (m.run start events).1, d.peer = client

/-- The first datagram of a third party that a transfer waits for closes it, as the next event of the
client would have done. -/
def Harmless (client : SockAddr) (events : List Event) : Prop :=
  ∀ before d after out s, events = before ++ .recv d :: after → (∀ e ∈ before, e.own client = true) →
    d.peer ≠ client → m.run start before = (out, .go s) →
    closes s (.recv d) ∧ ∀ e, (after.filter (Event.own client)).head? = some e → closes s e

/-- A loop that answers the last address it has heard from, once in each round. -/
structure Answers (addr : σ → SockAddr) : Prop where
  top : ∀ s, ∃ bytes next, m.top s = ([⟨addr s, bytes⟩], next) ∧ ∀ u, next = .go u → addr u = addr s
  addr : ∀ s e u, m.react s e = .go u → addr u = e.nextPeer (addr s)
  closes : ∀ es out s e, m.run start es = (out, .go s) → (closes s e ↔ ∃ r u, m.react s e = .exit r u)

end

section

variable {σ : Type} {m : EventLoop σ Event Datagram Exit} {start s : σ} {closes : σ → Event → Prop}
  {addr : σ → SockAddr} {client : SockAddr} {events es : List Event} {out : List Datagram}

theorem own_nextPeer {e : Event} (own : e.own client = true) : e.nextPeer client = client := by
  cases e with
  | timeout => rfl
  | recv d => exact of_decide_eq_true own

theorem first_stranger (client : SockAddr) (events : List Event) :
    (∀ e ∈ events, e.own client = true) ∨ ∃ before d after, events = before ++ .recv d :: after ∧
      (∀ e ∈ before, e.own client = true) ∧ d.peer ≠ client := by
  induction events with
  | nil => exact Or.inl fun e member => absurd member List.not_mem_nil
  | cons e events ih =>
    by_cases own : e.own client = true
    · obtain all | ⟨before, d, after, rfl, owns, foreign⟩ := ih
      · exact Or.inl (List.forall_mem_cons.mpr ⟨own, all⟩)
      · exact Or.inr ⟨e :: before, d, after, rfl, List.forall_mem_cons.mpr ⟨own, owns⟩, foreign⟩
    · cases e with
      | timeout => exact absurd rfl own
      | recv d =>
        refine Or.inr ⟨[], d, events, rfl, fun e member => absurd member List.not_mem_nil, fun same => own ?_⟩
        exact decide_eq_true same

theorem filter_own_split {before : List Event} {d : Datagram} (after : List Event) (owns : ∀ e ∈ before, e.own client = true)
    (foreign : d.peer ≠ client) :
    (before ++ .recv d :: after).filter (Event.own client) = before ++ after.filter (Event.own client) := by
  rw [List.filter_append, List.filter_eq_self.mpr owns, List.filter_cons_of_neg]
  simp [Event.own, foreign]

namespace Answers

theorem run_own (h : Answers m start closes addr) (here : addr s = client) (owns : ∀ e ∈ es, e.own client = true) :
    (∀ d ∈ (m.run s es).1, d.peer = client) ∧ ∀ u, (m.run s es).2 = .go u → addr u = client := by
  induction es generalizing s with
  | nil =>
    obtain ⟨bytes, next, top, kept⟩ := h.top s
    rw [EventLoop.run, top]
    exact ⟨fun d sent => by rw [List.mem_singleton.mp sent, here], fun u waits => (kept u waits).trans here⟩
  | cons e es ih =>
    obtain ⟨own, owns⟩ := List.forall_mem_cons.mp owns
    obtain ⟨bytes, next, top, kept⟩ := h.top s
    have first : ∀ d ∈ [Datagram.mk (addr s) bytes], d.peer = client := fun d sent => by
      rw [List.mem_singleton.mp sent, here]
    cases next with
    | exit r u =>
      rw [EventLoop.run_of_top_exit top]
      exact ⟨first, fun _ waits => by cases waits⟩
    | go t =>
      cases react : m.react t e with
      | exit r u =>
        rw [EventLoop.run_cons_exit top react]
        exact ⟨first, fun _ waits => by cases waits⟩
      | go u =>
        have next : addr u = client := by
          rw [h.addr t e u react, kept t rfl, here]
          exact own_nextPeer own
        obtain ⟨rest, last⟩ := ih next owns
        rw [EventLoop.run_cons_go top react]
        exact ⟨fun d sent => (List.mem_append.mp sent).elim (first d) (rest d), last⟩

theorem head_answered (h : Answers m start closes addr) (s : σ) (es : List Event) :
    ∃ d ∈ (m.run s es).1, d.peer = addr s := by
  obtain ⟨bytes, next, top, _⟩ := h.top s
  cases next with
  | exit r u =>
    rw [EventLoop.run_of_top_exit top]
    exact ⟨_, List.mem_cons_self, rfl⟩
  | go t =>
    cases es with
    | nil =>
      rw [EventLoop.run, top]
      exact ⟨_, List.mem_cons_self, rfl⟩
    | cons e es =>
      cases react : m.react t e with
      | exit r u =>
        rw [EventLoop.run_cons_exit top react]
        exact ⟨_, List.mem_cons_self, rfl⟩
      | go u =>
        rw [EventLoop.run_cons_go top react]
        exact ⟨_, List.mem_cons_self, rfl⟩

/-- Where the next event closes the transfer, nothing more is sent, or written to the file. -/
theorem closed_run (h : Answers m start closes addr) (run : m.run start es = (out, .go s)) (rest : List Event)
    (closed : ∀ e, rest.head? = some e → closes s e) {α : Type} {content : σ → α}
    (keeps : ∀ s e r u, m.react s e = .exit r u → content u = content s) :
    (m.run start (es ++ rest)).1 = out ∧ content (lastState (m.run start (es ++ rest)).2) = content s := by
  cases rest with
  | nil =>
    rw [List.append_nil, run]
    exact ⟨rfl, rfl⟩
  | cons e rest =>
    obtain ⟨r, u, react⟩ := (h.closes es out s e run).mp (closed e rfl)
    rw [EventLoop.run_append_stop rest run react]
    exact ⟨rfl, keeps s e r u react⟩

theorem harmless_runs (h : Answers m start closes addr) (here : addr start = client)
    (harmless : Harmless m start closes client events) {α : Type} (content : σ → α)
    (keeps : ∀ s e r u, m.react s e = .exit r u → content u = content s) :
    Undisturbed m start client events ∧ content (lastState (m.run start events).2) =
      content (lastState (m.run start (events.filter (Event.own client))).2) := by
  obtain owns | ⟨before, d, after, rfl, owns, foreign⟩ := first_stranger client events
  · have same := List.filter_eq_self.mpr owns
    rw [same]
    exact ⟨⟨by rw [same], (h.run_own here owns).1⟩, rfl⟩
  have split := filter_own_split after owns foreign
  have only := (h.run_own here owns).1
  cases run : m.run start before with
  | mk out last =>
    rw [run] at only
    cases last with
    | exit r u =>
      have ended := fun more => EventLoop.run_append_exit more run
      rw [split]
      exact ⟨⟨by rw [split, ended, ended], by rw [ended]; exact only⟩, by rw [ended, ended]⟩
    | go s =>
      obtain ⟨closed, next⟩ := harmless before d after out s rfl owns foreign run
      obtain ⟨sent, file⟩ := h.closed_run run (.recv d :: after) (fun e first => Option.some.inj first ▸ closed) keeps
      obtain ⟨sentOwn, fileOwn⟩ := h.closed_run run _ next keeps
      rw [split]
      exact ⟨⟨by rw [split, sent, sentOwn], by rw [sent]; exact only⟩, by rw [file, fileOwn]⟩

theorem harmless_of_undisturbed (h : Answers m start closes addr) (here : addr start = client)
    (undisturbed : Undisturbed m start client events) : Harmless m start closes client events := by
  rintro before d after out s rfl owns foreign run
  obtain ⟨same, only⟩ := undisturbed
  -- Going on after the datagram would send something to its sender.
  have closed : closes s (.recv d) := by
    rw [h.closes before out s _ run]
    cases react : m.react s (.recv d) with
    | exit r u => exact ⟨r, u, rfl⟩
    | go u =>
      obtain ⟨x, sent, peer⟩ := h.head_answered u after
      rw [EventLoop.run_append_go after run react] at only
      refine absurd ?_ foreign
      rw [← only x (List.mem_append_right _ sent), peer, h.addr s _ u react]
      rfl
  refine ⟨closed, fun e first => ?_⟩
  obtain ⟨rest, tail⟩ := List.head?_eq_some_iff.mp first
  rw [h.closes before out s e run]
  cases react : m.react s e with
  | exit r u => exact ⟨r, u, rfl⟩
  | go u =>
    -- The client would be sent something more.
    obtain ⟨r, v, exits⟩ := (h.closes before out s _ run).mp closed
    rw [filter_own_split _ owns foreign, tail, EventLoop.run_append_stop after run exits,
      EventLoop.run_append_go rest run react, List.filter_append] at same
    obtain ⟨x, sent, peer⟩ := h.head_answered u rest
    have none := List.append_right_eq_self.mp same.symm
    have own : e.own client = true := by
      have member : e ∈ after.filter (Event.own client) := tail ▸ List.mem_cons_self
      exact (List.mem_filter.mp member).2
    have waits : addr s = client := (h.run_own here owns).2 s (congrArg Prod.snd run)
    have toClient : x.peer = client := by
      rw [peer, h.addr s e u react, waits]
      exact own_nextPeer own
    have member : x ∈ ((m.run u rest).1.filter fun d => decide (d.peer = client)) :=
      List.mem_filter.mpr ⟨sent, decide_eq_true toClient⟩
    rw [none] at member
    exact absurd member List.not_mem_nil

end Answers

end

/-! ### The handlers -/

/-- The event closes a waiting read: the last timeout allowed, an ERROR, or the ACK of the last DATA. -/
def RrqState.Closes (s : RrqState) : Event → Prop
  | .timeout => s.timeoutCounter + 1 = maxRetry
  | .recv d => parseHeader (s.received d).bufRecv = .error ∨ s.AckedBy d ∧ s.isEOF = true

/-- The event closes a waiting write: the last timeout allowed, or any packet that is not a DATA. -/
def WrqState.Closes (s : WrqState) : Event → Prop
  | .timeout => s.timeoutCounter + 1 = maxRetry
  | .recv d => ¬ (Event.recv d).Upload

theorem rrqReact_exit_iff (s : RrqState) (e : Event) : s.Closes e ↔ ∃ r u, rrqReact s e = .exit r u := by
  have outcome := rrqReact_cases s e
  generalize rrqReact s e = next at outcome
  cases outcome with
  | waited more => exact iff_of_false more (by simp)
  | gaveUp last => exact iff_of_true last ⟨_, _, rfl⟩
  | failed error => exact iff_of_true (Or.inl error) ⟨_, _, rfl⟩
  | finished acks last => exact iff_of_true (Or.inr ⟨acks, last⟩) ⟨_, _, rfl⟩
  | advanced acks more =>
    refine iff_of_false ?_ (by simp)
    rintro (error | ⟨_, last⟩)
    · cases error.symm.trans acks.1
    · rw [more] at last
      cases last
  | ignored sound stale => exact iff_of_false (fun closed => closed.elim sound fun acks => stale acks.1) (by simp)

theorem rrq_answers (mode file : List UInt8) (client : SockAddr) :
    Answers (rrqLoop mode) (.start file client) RrqState.Closes RrqState.clientAddr where
  top s := ⟨_, _, rfl, fun u top => by cases top; rfl⟩
  addr s e u react := by
    have outcome := rrqReact_cases s e
    rw [show rrqReact s e = .go u from react] at outcome
    cases outcome <;> rfl
  closes _ _ s e _ := rrqReact_exit_iff s e

theorem wrqReact_exit_iff {mode : List UInt8} {s : WrqState} (size : s.bufRecv.length = dataPacketLen) (e : Event) :
    s.Closes e ↔ ∃ r u, wrqReact mode s e = .exit r u := by
  cases e with
  | timeout =>
    have outcome := wrqReact_cases mode s .timeout
    generalize wrqReact mode s .timeout = next at outcome
    cases outcome with
    | waited more => exact iff_of_false more (by simp)
    | gaveUp last => exact iff_of_true last ⟨_, _, rfl⟩
  | recv d =>
    by_cases upload : (Event.recv d).Upload
    · obtain ⟨u, _, goes, _⟩ := wrqReact_upload mode size upload
      rw [goes]
      exact iff_of_false (fun closed => closed upload) (by simp)
    · obtain ⟨r, u, exits, _⟩ := wrqReact_other mode size upload
      exact iff_of_true upload ⟨r, u, exits⟩

theorem wrq_answers (mode : List UInt8) (client : SockAddr) :
    Answers (wrqLoop mode) (.start client) WrqState.Closes WrqState.clientAddr where
  top s := by
    refine ⟨_, _, wrqTop_eq s, fun u next => ?_⟩
    split at next
    · cases next
    · cases next
      rfl
  addr s e u react := by
    cases e with
    | timeout =>
      have outcome := wrqReact_cases mode s .timeout
      rw [show wrqReact mode s .timeout = .go u from react] at outcome
      cases outcome
      rfl
    | recv d =>
      have outcome := wrqReact_cases mode s (.recv d)
      rw [show wrqReact mode s (.recv d) = .go u from react] at outcome
      generalize next : Next.go u = data at outcome
      cases outcome with
      | refused => cases next
      | data => exact (wrqData_frame next.symm).2
  closes es out s e run := wrqReact_exit_iff (wrq_waits run).1 e

theorem wrqReact_exit_writer {mode : List UInt8} {s u : WrqState} {e : Event} {r : Exit}
    (react : wrqReact mode s e = .exit r u) : u.writer.fd = s.writer.fd := by
  have outcome := wrqReact_cases mode s e
  rw [react] at outcome
  generalize ended : Next.exit r u = next at outcome
  cases outcome with
  | waited => cases ended
  | gaveUp | refused =>
    cases ended
    rfl
  | data =>
    unfold wrqData at ended
    dsimp only at ended
    split at ended
    · cases ended
      rfl
    · cases ended

/-- Third parties do not disturb a read or a write exactly when the first datagram of theirs that comes
while the transfer is open closes it, where the next event of the client would have closed it too. -/
theorem undisturbed_iff (mode : List UInt8) (client : SockAddr) (events : List Event) :
    (∀ file, Undisturbed (rrqLoop mode) (.start file client) client events ↔
      Harmless (rrqLoop mode) (.start file client) RrqState.Closes client events) ∧
    (Undisturbed (wrqLoop mode) (.start client) client events ∧
        (lastState (wrqHandler mode client events).2).writer.fd =
          (lastState (wrqHandler mode client (events.filter (Event.own client))).2).writer.fd ↔
      Harmless (wrqLoop mode) (.start client) WrqState.Closes client events) := by
  constructor
  · intro file
    have answers := rrq_answers mode file client
    constructor
    · exact answers.harmless_of_undisturbed rfl
    · intro harmless
      exact (answers.harmless_runs rfl harmless (fun _ => ()) fun _ _ _ _ _ => rfl).1
  · have answers := wrq_answers mode client
    constructor
    · exact fun undisturbed => answers.harmless_of_undisturbed rfl undisturbed.1
    · intro harmless
      exact answers.harmless_runs rfl harmless (fun s => s.writer.fd) fun _ _ _ _ => wrqReact_exit_writer

/-- After a stray ACK the next DATA goes to its sender, and a stray DATA is acknowledged. -/
theorem stranger_disturbs :
    ¬ Undisturbed (rrqLoop octet) (.start [] ⟨0, 69⟩) ⟨0, 69⟩ [.recv ⟨⟨1, 80⟩, ackDatagram 9⟩] ∧
      ¬ Undisturbed (wrqLoop octet) (.start ⟨0, 69⟩) ⟨0, 69⟩ [dataEvent ⟨1, 80⟩ 1 [7]] := by
  constructor
  · intro undisturbed
    obtain ⟨s, top, waits⟩ := rrqTop_at (rrqStart_at [] ⟨0, 69⟩)
    have harmless := (rrq_answers octet [] ⟨0, 69⟩).harmless_of_undisturbed rfl undisturbed
    obtain ⟨error | ⟨⟨_, number⟩, _⟩, _⟩ := harmless [] ⟨⟨1, 80⟩, ackDatagram 9⟩ [] _ s rfl
      (fun e member => absurd member List.not_mem_nil) (by decide) top
    · unfold RrqState.received at error
      rw [tftpRecvfrom_header s.bufRecv (by decide), parseHeader_ackDatagram] at error
      cases error
    · unfold RrqState.received at number
      rw [tftpRecvfrom_block s.bufRecv (by decide), blockField_ackDatagram, waits.head.number] at number
      exact absurd number (by decide)
  · intro undisturbed
    obtain ⟨s, top, _⟩ := wrqTop_more (wrqStart_at ⟨0, 69⟩) rfl
    have harmless := (wrq_answers octet ⟨0, 69⟩).harmless_of_undisturbed rfl undisturbed
    obtain ⟨closed, _⟩ := harmless [] ⟨⟨1, 80⟩, dataDatagram 1 [7]⟩ [] _ s rfl
      (fun e member => absurd member List.not_mem_nil) (by decide) top
    exact closed (dataEvent_upload _ _ _)

end NetProjects.Tftp
