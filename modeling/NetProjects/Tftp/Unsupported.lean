import NetProjects.Tftp.Requests
import NetProjects.Tftp.Timeouts
import NetProjects.Tftp.WriteRuns

/-!
# Unsupported modes

Both file filters answer a mode they do not know with -1, which the loops take for a length and
for a success: a read sends three zero bytes, a write acknowledges blocks that it drops.
-/

namespace NetProjects.Tftp
open Bytes

def IsData (bytes : List UInt8) : Prop :=
  ∃ b payload, bytes = dataDatagram b payload ∧ payload.length ≤ maxBufLen

/-- A read request is answered with well-formed packets only. -/
def AnswersWell (sent : List Datagram) : Prop := ∀ d ∈ sent, IsError d.bytes ∨ IsData d.bytes

/-- An upload in which every DATA that is acknowledged is in the file then, and which does not succeed. -/
structure RefusesUpload (handler : List Event → List Datagram × Next WrqState Exit) (events : List Event) : Prop where
  appended : ∀ before d after, events = before ++ .recv d :: after → parseHeader d.bytes = .data →
    (handler before).1.length < (handler (before ++ [.recv d])).1.length →
    d.payload <:+: (lastState (handler (before ++ [.recv d])).2).writer.fd
  fails : ¬ Returned (handler events).2 .ok

/-- The first packet, if it comes before the last timeout allowed, is not a DATA. -/
def NoUpload (events : List Event) : Prop :=
  ∀ n d after, n < maxRetry → events = List.replicate n .timeout ++ .recv d :: after → ¬ (Event.recv d).Upload

section

variable {mode : List UInt8} {client : SockAddr} {es : List Event} {out : List Datagram}

/-! ### Reads -/

theorem readBlock_unknown (unknown : mode ≠ netascii ∧ mode ≠ octet) (r : Reader) : readBlock mode r = ([], sizeMax, r) := by
  unfold readBlock
  rw [if_neg unknown.1, if_neg unknown.2]

theorem rrqTop_unknown (unknown : mode ≠ netascii ∧ mode ≠ octet) (file : List UInt8) (client : SockAddr) :
    ∃ u, rrqTop mode (.start file client) = ([⟨client, [0, 0, 0]⟩], .go u) := by
  have wraps : sizeAdd 4 sizeMax = 3 := by decide
  have zeros : emptyBuf.take 3 = [0, 0, 0] := by
    rw [emptyBuf, List.take_replicate]
    rfl
  unfold rrqTop makeDataPacket
  rw [readBlock_unknown unknown]
  dsimp only
  rw [if_pos rfl, wraps]
  exact ⟨_, congrArg₂ Prod.mk (congrArg (fun bytes => [Datagram.mk client bytes]) zeros) rfl⟩

theorem zeros_malformed : ¬ (IsError [0, 0, 0] ∨ IsData [0, 0, 0]) := by
  rintro (⟨code, text, rest, same⟩ | ⟨b, payload, same, _⟩)
  · have lengths := congrArg List.length same
    simp only [List.length_append, List.length_cons, length_networkOrder, List.length_nil] at lengths
    omega
  · have lengths := congrArg List.length same
    simp only [length_dataDatagram, List.length_cons, List.length_nil] at lengths
    omega

theorem head_mem_run {σ ε ο ρ : Type} {m : EventLoop σ ε ο ρ} {s u : σ} {x : ο} (es : List ε) (top : m.top s = ([x], .go u)) :
    x ∈ (m.run s es).1 := by
  cases es with
  | nil =>
    rw [EventLoop.run, top]
    exact List.mem_cons_self
  | cons e es =>
    cases react : m.react u e with
    | exit r v =>
      rw [EventLoop.run_cons_exit top react]
      exact List.mem_cons_self
    | go v =>
      rw [EventLoop.run_cons_go top react]
      exact List.mem_cons_self

theorem answersWell_iff (unknown : mode ≠ netascii ∧ mode ≠ octet) (filename : List UInt8) (file : Option (List UInt8))
    (opens : Bool) (client : SockAddr) (events : List Event) :
    AnswersWell (rrqRequest filename mode file opens client events).1 ↔ file = none ∨ opens = false := by
  unfold rrqRequest AnswersWell
  cases file with
  | none =>
    refine iff_of_true (fun d sent => Or.inl ?_) (Or.inl rfl)
    rw [List.mem_singleton.mp sent]
    have fits : (fileMessage filename "not found.").length ≤ 40 := length_fileMessage filename (by decide)
    exact makeErrorPacket_isError _ (by omega) _
  | some file =>
    cases opens with
    | false => simp
    | true =>
      obtain ⟨u, top⟩ := rrqTop_unknown unknown file client
      have sent := head_mem_run (m := rrqLoop mode) events top
      exact iff_of_false (fun well => zeros_malformed (well _ sent)) (by simp)

/-! ### Writes -/

theorem writeDataToFile_unknown (unknown : mode ≠ netascii ∧ mode ≠ octet) (buf : List UInt8) (n : Nat) (w : Writer) :
    (writeDataToFile mode buf n w).1 = w := by
  unfold writeDataToFile
  rw [if_neg unknown.1, if_neg unknown.2]

theorem wrq_unknown_writer (unknown : mode ≠ netascii ∧ mode ≠ octet) {s : WrqState}
    (run : wrqHandler mode client es = (out, .go s)) : s.bufRecv.length = dataPacketLen ∧ s.writer = .start := by
  refine EventLoop.waiting_rule (m := wrqLoop mode)
    (I := fun _ _ s => s.bufRecv.length = dataPacketLen ∧ s.writer = .start) ?_ ?_ run
  · intro out u top
    obtain ⟨_, _, rfl⟩ := wrqTop_go top
    exact ⟨List.length_replicate, rfl⟩
  · rintro es out s e u next v ⟨size, empty⟩ react top
    obtain ⟨_, _, rfl⟩ := wrqTop_go top
    change u.bufRecv.length = dataPacketLen ∧ u.writer = .start
    obtain ⟨_, rfl⟩ | ⟨d, moved, _, _, takes⟩ := wrqReact_go size react
    · exact ⟨size, empty⟩
    · rw [takes.buffer, takes.writer, writeDataToFile_unknown unknown, ite_self]
      exact ⟨takes.size, empty⟩

/-- Without an upload the handler waits out timeouts only. -/
theorem wrq_noUpload_waits {s : WrqState} (none : NoUpload es) (run : wrqHandler mode client es = (out, .go s)) :
    es = List.replicate es.length .timeout ∧ es.length < maxRetry := by
  induction es using List.reverseRecOn generalizing out s with
  | nil => exact ⟨rfl, by decide⟩
  | append_singleton es e ih =>
    obtain ⟨sent, u, v, next, before, react, top, _⟩ := EventLoop.run_concat_go (m := wrqLoop mode) run
    have noneBefore : NoUpload es := by
      intro n d after few split
      exact none n d (after ++ [e]) few (by rw [split, List.append_assoc]; rfl)
    obtain ⟨same, few⟩ := ih noneBefore before
    have counted := ((wrq_countsTimeouts mode).count_eq rfl run).2
    obtain ⟨rfl, _⟩ | ⟨d, moved, rfl, upload, _⟩ := wrqReact_go (wrq_waits before).1 react
    · have all : es ++ [Event.timeout] = List.replicate (es ++ [Event.timeout]).length .timeout := by
        conv_lhs => rw [same]
        rw [List.length_append, List.length_singleton, List.replicate_succ']
      refine ⟨all, ?_⟩
      rwa [all, List.count_replicate_self] at counted
    · exact absurd upload (none es.length d [] few (by conv_lhs => rw [same]))

theorem wrq_timeouts_wait (mode : List UInt8) (client : SockAddr) {n : Nat} (few : n < maxRetry) :
    ∃ out s, wrqHandler mode client (List.replicate n .timeout) = (out, .go s) := by
  induction n with
  | zero => exact ⟨_, _, rfl⟩
  | succ n ih =>
    obtain ⟨out, s, run⟩ := ih (Nat.lt_of_succ_lt few)
    obtain ⟨counted, _⟩ := (wrq_countsTimeouts mode).count_eq rfl run
    rw [List.count_replicate_self] at counted
    obtain ⟨_, more, _⟩ := wrq_waits run
    have goes : s.timeoutCounter + 1 ≠ maxRetry := by omega
    have react : (wrqLoop mode).react s .timeout = .go { s with timeoutCounter := s.timeoutCounter + 1 } := if_neg goes
    rw [List.replicate_succ', wrqHandler, EventLoop.run_append_go (m := wrqLoop mode) [] run react, EventLoop.run]
    change ∃ out' s', (out ++ (wrqTop _).1, (wrqTop _).2) = (out', .go s')
    rw [wrqTop_eq, more, if_neg Bool.false_ne_true]
    exact ⟨_, _, rfl⟩

theorem NoUpload.before {before after : List Event} (none : NoUpload (before ++ after)) : NoUpload before := by
  intro n d rest few split
  exact none n d (rest ++ after) few (by rw [split, List.append_assoc]; rfl)

theorem noUpload_other {d : Datagram} {after : List Event} {s : WrqState} (none : NoUpload (es ++ .recv d :: after))
    (run : wrqHandler mode client es = (out, .go s)) : ¬ (Event.recv d).Upload := by
  obtain ⟨same, few⟩ := wrq_noUpload_waits none.before run
  exact none es.length d after few (by conv_lhs => rw [same])

theorem refusesUpload_of_noUpload (none : NoUpload es) : RefusesUpload (wrqHandler mode client) es := by
  constructor
  · intro before d after split _ longer
    refine absurd longer (Nat.not_lt_of_le (Nat.le_of_eq ?_))
    cases run : wrqHandler mode client before with
    | mk sent last =>
      cases last with
      | exit r u =>
        have ended : wrqHandler mode client (before ++ [.recv d]) = (sent, .exit r u) :=
          EventLoop.run_append_exit _ run
        rw [ended]
      | go s =>
        rw [split] at none
        obtain ⟨x, u, react, _⟩ := wrqReact_other mode (wrq_waits run).1 (noUpload_other none run)
        have ended : wrqHandler mode client (before ++ [.recv d]) = (sent, .exit x u) :=
          EventLoop.run_append_stop _ run react
        rw [ended]
  · rintro ⟨u, ok⟩
    obtain first | ⟨before, e, after, sent, s, rfl, run, ended⟩ :=
      EventLoop.run_exit_cases (m := wrqLoop mode) (Prod.ext rfl ok)
    · exact absurd (congrArg Prod.snd first) (by simp [wrqLoop, wrqTop, WrqState.start])
    · have size := (wrq_waits run).1
      cases e with
      | timeout =>
        rcases ended with ⟨react, _⟩ | ⟨v, last, react, top, _⟩
        · have outcome := wrqReact_cases mode s .timeout
          rw [show wrqReact mode s .timeout = _ from react] at outcome
          cases outcome
        · have react : wrqReact mode s .timeout = .go v := react
          obtain ⟨_, rfl⟩ | ⟨d, _, same, _⟩ := wrqReact_go size react
          · have top := congrArg Prod.snd ((wrqTop_eq _).symm.trans top)
            rw [(wrq_waits run).2.1, if_neg Bool.false_ne_true] at top
            cases top
          · cases same
      | recv d =>
        obtain ⟨x, w, react, other, _⟩ := wrqReact_other mode size (noUpload_other none run)
        rcases ended with ⟨exits, _⟩ | ⟨v, _, goes, _⟩
        · cases react.symm.trans exits
          exact other rfl
        · cases react.symm.trans goes

theorem noUpload_of_refusesUpload (unknown : mode ≠ netascii ∧ mode ≠ octet)
    (refuses : RefusesUpload (wrqHandler mode client) es) : NoUpload es := by
  rintro n d after few rfl upload
  obtain ⟨out, s, run⟩ := wrq_timeouts_wait mode client few
  obtain ⟨u, moved, react, takes⟩ := wrqReact_upload mode (wrq_waits run).1 upload
  have step : wrqHandler mode client (List.replicate n .timeout ++ [.recv d]) = (out ++ (wrqTop u).1, (wrqTop u).2) :=
    EventLoop.run_append_go [] run react
  have file : (lastState (wrqTop u).2).writer.fd = [] := by
    have writer : u.writer = .start := by
      rw [takes.writer, writeDataToFile_unknown unknown, ite_self, (wrq_unknown_writer unknown run).2]
    rw [wrqTop_eq]
    cases u.atEOF <;> exact congrArg Writer.fd writer
  have appended := refuses.appended (List.replicate n .timeout) d after rfl upload.2
  rw [step, run, file, List.infix_nil] at appended
  have empty : d.payload = [] := appended (by rw [wrqTop_eq, List.length_append]; exact Nat.lt_succ_self _)
  -- An empty block is the last one.
  have last : u.atEOF = true := by
    have short : d.Short := by
      change d.payload.length < maxBufLen
      rw [empty]
      decide
    rw [takes.eof, decide_eq_true short, Bool.or_true]
  have top : wrqTop u = ((wrqTop u).1, .exit (.ret .ok) u.answered) := by
    rw [wrqTop_eq, last, if_pos rfl]
  have tail : (wrqLoop mode).run u after = ((wrqTop u).1, .exit (.ret .ok) u.answered) := EventLoop.run_of_top_exit top
  apply refuses.fails
  have whole : wrqHandler mode client (List.replicate n .timeout ++ .recv d :: after) =
      (out ++ ((wrqLoop mode).run u after).1, ((wrqLoop mode).run u after).2) := EventLoop.run_append_go after run react
  rw [whole, tail]
  exact ⟨_, rfl⟩

theorem refusesUpload_iff (unknown : mode ≠ netascii ∧ mode ≠ octet) (filename : List UInt8) (present opens : Bool)
    (client : SockAddr) (events : List Event) :
    RefusesUpload (wrqRequest filename mode present opens client) events ↔
      present = true ∨ opens = false ∨ NoUpload events := by
  have early : ∀ out s, RefusesUpload (fun _ => (out, .exit (.ret .fail) s)) events := by
    intro out s
    refine ⟨fun _ _ _ _ _ longer => absurd longer (Nat.lt_irrefl _), ?_⟩
    rintro ⟨u, ok⟩
    cases ok
  unfold wrqRequest
  cases present with
  | true => exact iff_of_true (early _ _) (Or.inl rfl)
  | false =>
    cases opens with
    | false => exact iff_of_true (early _ _) (Or.inr (Or.inl rfl))
    | true =>
      simp only [Bool.false_eq_true, if_false, if_true, Bool.true_eq_false, false_or]
      exact ⟨noUpload_of_refusesUpload unknown, refusesUpload_of_noUpload⟩

end

/-- A request in an unsupported mode is refused exactly when it never comes to a block: a read when
the file is not opened, a write also when no DATA comes first. -/
theorem unsupported_refused_iff (filename mode : List UInt8) (opens : Bool) (client : SockAddr) (events : List Event)
    (unknown : mode ≠ netascii ∧ mode ≠ octet) :
    (∀ file, AnswersWell (rrqRequest filename mode file opens client events).1 ↔ file = none ∨ opens = false) ∧
      ∀ present, RefusesUpload (wrqRequest filename mode present opens client) events ↔
        present = true ∨ opens = false ∨ NoUpload events :=
  ⟨fun file => answersWell_iff unknown filename file opens client events,
    fun present => refusesUpload_iff unknown filename present opens client events⟩

theorem unsupported_mail_refused :
    AnswersWell (rrqRequest (cstr "a") (cstr "mail") none true ⟨0, 69⟩ []).1 ∧
      RefusesUpload (wrqRequest (cstr "a") (cstr "mail") false true ⟨0, 69⟩) [.timeout] := by
  obtain ⟨read, write⟩ := unsupported_refused_iff (cstr "a") (cstr "mail") true ⟨0, 69⟩ [.timeout] (by decide)
  refine ⟨(read none).mpr (Or.inl rfl), (write false).mpr (Or.inr (Or.inr ?_))⟩
  intro n d after _ split
  have packet : Event.recv d ∈ [Event.timeout] := by
    rw [split]
    exact List.mem_append_right _ List.mem_cons_self
  simp at packet

/-- A read in mode `mail` is answered with three zero bytes, and an upload with an ACK and a success. -/
theorem unsupported_mail_answered :
    ¬ AnswersWell (rrqRequest (cstr "a") (cstr "mail") (some []) true ⟨0, 69⟩ []).1 ∧
      ¬ RefusesUpload (wrqRequest (cstr "a") (cstr "mail") false true ⟨0, 69⟩) [dataEvent ⟨0, 69⟩ 1 [7]] := by
  have unknown : cstr "mail" ≠ netascii ∧ cstr "mail" ≠ octet := by decide
  rw [answersWell_iff unknown, refusesUpload_iff unknown]
  refine ⟨by simp, ?_⟩
  rintro (present | closed | none)
  · cases present
  · cases closed
  · exact none 0 _ [] (by decide) rfl (dataEvent_upload _ _ _)

end NetProjects.Tftp
