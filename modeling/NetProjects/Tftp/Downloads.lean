import NetProjects.Tftp.SingleUpload

/-!
# Reads of a file that may grow

A process forked for a read request takes the bytes of its file through the buffer of a stream, in
pieces of any size and as they stand when they are taken. Other processes may append to the file meanwhile.
-/

namespace NetProjects.Tftp
open Bytes

inductive ReadPhase where
  | checking
  | refused
  | opening
  | notOpened
  | atHead (s : RrqState)
  | waiting (s : RrqState)
  | left (r : Exit) (s : RrqState)

/-- The reader of the state holds what is in the buffer of the stream. -/
structure Downloader where
  phase : ReadPhase
  sent : List Datagram
  events : List Event
  /-- How many bytes of the file have gone into the buffer of the stream. -/
  taken : Nat
  /-- The stream has met the end of the file, and is not read behind it again. -/
  ended : Bool

def Downloader.start : Downloader := { phase := .checking, sent := [], events := [], taken := 0, ended := false }

inductive ReadAction where
  | access
  | fopen (opens : Bool)
  | head
  | event (e : Event)
  | fill (n : Nat)

/-- The `netascii` loop of `read_block` gets EOF from `getc`. -/
def netasciiEnds : Nat → Reader → Bool
  | 0, _ => false
  | room + 1, r =>
    if 0 ≤ signedChar r.nextchar then netasciiEnds room { r with nextchar := minusOne }
    else
      match r.fp with
      | [] => true
      | c :: fp =>
        if signedChar c = -1 then false
        else if c = lf then netasciiEnds room { fp := fp, nextchar := lf }
        else if c = cr then netasciiEnds room { fp := fp, nextchar := nul }
        else netasciiEnds room { fp := fp, nextchar := minusOne }

def readEnds (mode : List UInt8) (r : Reader) : Bool :=
  if mode = netascii then netasciiEnds maxBufLen r
  else if mode = octet then decide (r.fp.length < maxBufLen)
  else false

def fileNotFound (filename : List UInt8) (client : SockAddr) : Datagram :=
  ⟨client, makeErrorPacket .fileNotFound (fileMessage filename "not found.") emptyBuf⟩

/-- The same loop state over a stream that delivers `fp`. -/
def RrqState.over (s : RrqState) (fp : List UInt8) : RrqState := { s with reader := { s.reader with fp := fp } }

/-- What the stream can deliver. -/
def Downloader.view (p : Downloader) (s : RrqState) (content : List UInt8) : List UInt8 :=
  if p.ended then s.reader.fp else s.reader.fp ++ content.drop p.taken

/-- A read takes the buffer first, then the file behind it. -/
def Downloader.hasRead (p : Downloader) (s t : RrqState) (view : List UInt8) (mode : List UInt8) (out : List Datagram) : Downloader :=
  let read := view.length - t.reader.fp.length
  { p with phase := .waiting (t.over (s.reader.fp.drop read)), sent := p.sent ++ out
           taken := p.taken + (read - s.reader.fp.length)
           ended := p.ended || readEnds mode { s.reader with fp := view } }

/-- One step of `rrq_handler`. -/
def Downloader.step (filename mode : List UInt8) (client : SockAddr) (p : Downloader) (file : Option (List UInt8)) :
    ReadAction → Option Downloader
  | .access =>
    match p.phase with
    | .checking =>
      if file.isSome then some { p with phase := .opening }
      else some { p with phase := .refused, sent := p.sent ++ [fileNotFound filename client] }
    | _ => none
  | .fopen opens =>
    match p.phase with
    | .opening =>
      if opens && file.isSome then some { p with phase := .atHead (.start [] client) }
      else some { p with phase := .notOpened }
    | _ => none
  | .head =>
    match p.phase, file with
    | .atHead s, some content =>
      let view := p.view s content
      match rrqTop mode (s.over view) with
      | (out, .go t) => some (p.hasRead s t view mode out)
      | (_, .exit _ _) => none
    | _, _ => none
  | .event e =>
    match p.phase with
    | .waiting s =>
      match rrqReact s e with
      | .go t => some { p with phase := .atHead t, events := p.events ++ [e] }
      | .exit x t => some { p with phase := .left x t, events := p.events ++ [e] }
    | _ => none
  | .fill n =>
    match p.phase, file with
    | .atHead s, some content =>
      if p.ended || content.length < p.taken + n then none
      else some { p with phase := .atHead (s.over (s.reader.fp ++ (content.drop p.taken).take n)), taken := p.taken + n }
    | _, _ => none

/-! ### What a step does -/

inductive Downloader.Stepped (filename mode : List UInt8) (client : SockAddr) (p : Downloader) :
    Option (List UInt8) → ReadAction → Downloader → Prop where
  | passed {content : List UInt8} (phase : p.phase = .checking) :
      Stepped filename mode client p (some content) .access { p with phase := .opening }
  | refused (phase : p.phase = .checking) :
      Stepped filename mode client p none .access
        { p with phase := .refused, sent := p.sent ++ [fileNotFound filename client] }
  | opened {content : List UInt8} (phase : p.phase = .opening) :
      Stepped filename mode client p (some content) (.fopen true) { p with phase := .atHead (.start [] client) }
  | notOpened {file : Option (List UInt8)} {opens : Bool} (phase : p.phase = .opening) (fails : (opens && file.isSome) = false) :
      Stepped filename mode client p file (.fopen opens) { p with phase := .notOpened }
  | read {content : List UInt8} {s t : RrqState} {out : List Datagram} (phase : p.phase = .atHead s)
      (top : rrqTop mode (s.over (p.view s content)) = (out, .go t)) :
      Stepped filename mode client p (some content) .head (p.hasRead s t (p.view s content) mode out)
  | reacted {file : Option (List UInt8)} {s t : RrqState} {e : Event} (phase : p.phase = .waiting s)
      (react : rrqReact s e = .go t) :
      Stepped filename mode client p file (.event e) { p with phase := .atHead t, events := p.events ++ [e] }
  | ended {file : Option (List UInt8)} {s t : RrqState} {e : Event} {x : Exit} (phase : p.phase = .waiting s)
      (react : rrqReact s e = .exit x t) :
      Stepped filename mode client p file (.event e) { p with phase := .left x t, events := p.events ++ [e] }
  | filled {content : List UInt8} {s : RrqState} {n : Nat} (phase : p.phase = .atHead s) (more : p.ended = false)
      (room : p.taken + n ≤ content.length) :
      Stepped filename mode client p (some content) (.fill n)
        { p with phase := .atHead (s.over (s.reader.fp ++ (content.drop p.taken).take n)), taken := p.taken + n }

section

variable {filename mode : List UInt8} {client : SockAddr} {p q : Downloader} {file : Option (List UInt8)} {a : ReadAction}

theorem Downloader.step_cases (taken : p.step filename mode client file a = some q) :
    Downloader.Stepped filename mode client p file a q := by
  cases a with
  | access =>
    simp only [Downloader.step] at taken
    split at taken
    · rename_i phase
      cases file with
      | none =>
        cases taken
        exact .refused phase
      | some content =>
        cases taken
        exact .passed phase
    · cases taken
  | fopen opens =>
    simp only [Downloader.step] at taken
    split at taken
    · rename_i phase
      split at taken
      · rename_i both
        rw [Bool.and_eq_true] at both
        obtain ⟨content, rfl⟩ := Option.isSome_iff_exists.mp both.2
        cases taken
        rw [both.1]
        exact .opened phase
      · rename_i fails
        cases taken
        exact .notOpened phase (Bool.eq_false_of_not_eq_true fails)
    · cases taken
  | head =>
    simp only [Downloader.step] at taken
    split at taken
    · rename_i s content phase
      split at taken
      · rename_i out t top
        cases taken
        exact .read phase top
      · cases taken
    · cases taken
  | event e =>
    simp only [Downloader.step] at taken
    split at taken
    · rename_i s phase
      split at taken
      · rename_i t react
        cases taken
        exact .reacted phase react
      · rename_i x t react
        cases taken
        exact .ended phase react
    · cases taken
  | fill n =>
    simp only [Downloader.step] at taken
    split at taken
    · rename_i s content phase
      split at taken
      · cases taken
      · rename_i open_
        rw [Bool.or_eq_true, not_or, Bool.not_eq_true, decide_eq_true_eq, Nat.not_lt] at open_
        cases taken
        exact .filled phase open_.1 open_.2
    · cases taken

theorem Downloader.Stepped.step (stepped : Stepped filename mode client p file a q) :
    p.step filename mode client file a = some q := by
  cases stepped with
  | passed phase | refused phase | opened phase =>
    simp only [Downloader.step, phase]
    rfl
  | notOpened phase fails =>
    simp only [Downloader.step, phase, fails]
    rfl
  | read phase top => simp only [Downloader.step, phase, top]
  | reacted phase react | ended phase react => simp only [Downloader.step, phase, react]
  | filled phase more room =>
    simp only [Downloader.step, phase, more, Nat.not_lt.mpr room, decide_false, Bool.or_self, Bool.false_eq_true, if_false]

end

/-! ### What a read leaves -/

theorem readNetascii_suffix (room : Nat) (r : Reader) : (readNetascii room r).2.fp <:+ r.fp := by
  fun_induction readNetascii room r with
  | case1 => exact List.suffix_rfl
  | case2 room r pending rest ih => exact ih
  | case3 room r idle none => exact List.suffix_rfl
  | case4 room r idle c fp front stops =>
    rw [front]
    exact List.suffix_cons c fp
  | case5 room r idle fp rest front goes ih | case6 room r idle fp rest front goes notLf ih
  | case7 room r idle c fp front goes notLf notCr rest ih =>
    rw [front]
    exact ih.trans (List.suffix_cons _ fp)

theorem netasciiEnds_left (room : Nat) (r : Reader) (ends : netasciiEnds room r = true) : (readNetascii room r).2.fp = [] := by
  fun_induction readNetascii room r with
  | case1 =>
    unfold netasciiEnds at ends
    cases ends
  | case2 room r pending rest ih =>
    rw [netasciiEnds, if_pos pending] at ends
    exact ih ends
  | case3 room r idle none => exact none
  | case4 room r idle c fp front stops =>
    rw [netasciiEnds, if_neg idle, front] at ends
    simp only [stops, if_true] at ends
    cases ends
  | case5 room r idle fp rest front goes ih =>
    rw [netasciiEnds, if_neg idle, front] at ends
    simp only [goes, if_false, if_true] at ends
    exact ih ends
  | case6 room r idle fp rest front goes notLf ih =>
    rw [netasciiEnds, if_neg idle, front] at ends
    simp only [goes, notLf, if_false, if_true] at ends
    exact ih ends
  | case7 room r idle c fp front goes notLf notCr rest ih =>
    rw [netasciiEnds, if_neg idle, front] at ends
    simp only [goes, notLf, notCr, if_false] at ends
    exact ih ends

theorem readBlock_suffix (mode : List UInt8) (r : Reader) : (readBlock mode r).2.2.fp <:+ r.fp := by
  unfold readBlock
  split
  · exact readNetascii_suffix maxBufLen r
  · split
    · exact List.drop_suffix _ _
    · exact List.suffix_rfl

theorem readEnds_left {mode : List UInt8} {r : Reader} (ends : readEnds mode r = true) : (readBlock mode r).2.2.fp = [] := by
  unfold readEnds at ends
  unfold readBlock
  split at ends
  · rename_i ascii
    rw [if_pos ascii]
    exact netasciiEnds_left maxBufLen r ends
  · rename_i notAscii
    split at ends
    · rename_i bytes
      rw [if_neg notAscii, if_pos bytes]
      exact List.drop_of_length_le (of_decide_eq_true ends).le
    · cases ends

theorem makeDataPacket_reader (mode : List UInt8) (b : UInt16) (buf : List UInt8) (r : Reader) :
    (makeDataPacket mode b buf r).reader = (readBlock mode r).2.2 := by
  unfold makeDataPacket
  dsimp only
  split <;> rfl

theorem rrqTop_suffix {mode : List UInt8} {s t : RrqState} {out : List Datagram} (top : rrqTop mode s = (out, .go t)) :
    t.reader.fp <:+ s.reader.fp := by
  cases top
  dsimp only
  rw [makeDataPacket_reader]
  exact readBlock_suffix mode s.reader

theorem RrqReacted.eq {s : RrqState} {e : Event} {next : Next RrqState Exit} (reacted : RrqReacted s e next) :
    rrqReact s e = next := by
  cases reacted with
  | waited more => exact if_neg more
  | gaveUp last => exact if_pos last
  | failed error =>
    unfold RrqState.received at error ⊢
    simp only [rrqReact, error]
  | finished acks last =>
    unfold RrqState.AckedBy RrqState.received at acks
    simp only [rrqReact, acks.1, parseAckPacket, acks.2, if_true]
    exact if_pos last
  | advanced acks more =>
    unfold RrqState.AckedBy RrqState.received at acks
    simp only [rrqReact, acks.1, parseAckPacket, acks.2, if_true]
    exact if_neg (ne_true_of_eq_false more)
  | @ignored d sound stale =>
    unfold RrqState.AckedBy RrqState.received at stale
    unfold RrqState.received at sound ⊢
    dsimp only at sound stale ⊢
    unfold rrqReact
    dsimp only
    split
    · rename_i error
      exact absurd error sound
    · rename_i header
      rw [if_neg (mt (parseAckPacket_ok _ _).mp fun number => stale ⟨header, number⟩)]
    · rfl

/-- The reader takes no part in a reaction. -/
theorem rrqReact_over (s : RrqState) (fp : List UInt8) (e : Event) :
    rrqReact (s.over fp) e = (rrqReact s e).map fun t => t.over fp := by
  have outcome := rrqReact_cases s e
  generalize rrqReact s e = next at outcome
  apply RrqReacted.eq
  cases outcome with
  | waited more => exact .waited more
  | gaveUp last => exact .gaveUp last
  | failed error => exact .failed error
  | finished acks last => exact .finished acks last
  | advanced acks more => exact .advanced acks more
  | ignored sound stale => exact .ignored sound stale

theorem rrqReact_reader (s : RrqState) (e : Event) : (lastState (rrqReact s e)).reader = s.reader := by
  have outcome := rrqReact_cases s e
  generalize rrqReact s e = next at outcome
  cases outcome with
  | waited | gaveUp | failed | finished | advanced | ignored => rfl

/-! ### A file that stays as it is -/

/-- The loop state with all that the stream has yet to deliver. -/
def Downloader.whole (p : Downloader) (content : List UInt8) (s : RrqState) : RrqState :=
  s.over (s.reader.fp ++ content.drop p.taken)

/-- The phase of the process is what `rrq_handler` makes of the file and the events that came. -/
def Downloader.Follows (filename mode : List UInt8) (client : SockAddr) (content : List UInt8) (p : Downloader) :
    ReadPhase → Prop
  | .checking | .opening | .notOpened => p.sent = [] ∧ p.events = [] ∧ p.taken = 0 ∧ p.ended = false
  | .refused => p.sent = [fileNotFound filename client] ∧ p.events = []
  | .atHead s =>
    p.sent = [] ∧ p.events = [] ∧ p.whole content s = .start content client ∨
      ∃ es e t, p.events = es ++ [e] ∧ rrqHandler mode content client es = (p.sent, .go t) ∧
        rrqReact t e = .go (p.whole content s)
  | .waiting s => rrqHandler mode content client p.events = (p.sent, .go (p.whole content s))
  | .left x s => rrqHandler mode content client p.events = (p.sent, .exit x (p.whole content s))

structure Downloader.Sound (filename mode : List UInt8) (client : SockAddr) (content : List UInt8) (p : Downloader) : Prop where
  follows : p.Follows filename mode client content p.phase
  atEnd : p.ended = true → content.length ≤ p.taken

section

variable {filename mode : List UInt8} {client : SockAddr} {p q : Downloader} {a : ReadAction}
variable {content : List UInt8} {s t : RrqState} {out : List Datagram}

theorem Downloader.start_sound (filename mode : List UInt8) (client : SockAddr) (content : List UInt8) :
    Downloader.start.Sound filename mode client content :=
  ⟨⟨rfl, rfl, rfl, rfl⟩, fun ended => absurd ended Bool.false_ne_true⟩

theorem Downloader.Sound.view (sound : p.Sound filename mode client content) (s : RrqState) :
    p.view s content = s.reader.fp ++ content.drop p.taken := by
  unfold Downloader.view
  split
  · rename_i ended
    rw [List.drop_of_length_le (sound.atEnd ended), List.append_nil]
  · rfl

/-- What is left of the buffer and of the file is what the read has left. -/
theorem Downloader.whole_hasRead (mode : List UInt8) (out : List Datagram) {view : List UInt8}
    (all : view = s.reader.fp ++ content.drop p.taken) (left : t.reader.fp <:+ view) :
    let q := p.hasRead s t view mode out
    q.phase = .waiting (t.over (s.reader.fp.drop (view.length - t.reader.fp.length))) ∧
      q.whole content (t.over (s.reader.fp.drop (view.length - t.reader.fp.length))) = t := by
  refine ⟨rfl, ?_⟩
  have rest : t.reader.fp = view.drop (view.length - t.reader.fp.length) := List.suffix_iff_eq_drop.mp left
  show (t.over _).over (s.reader.fp.drop (view.length - t.reader.fp.length) ++
    content.drop (p.taken + (view.length - t.reader.fp.length - s.reader.fp.length))) = t
  rw [← List.drop_drop, ← List.drop_append, ← all, ← rest]
  rfl

theorem Downloader.Sound.hasRead (sound : p.Sound filename mode client content)
    (top : rrqTop mode (s.over (p.view s content)) = (out, .go t))
    (run : ∀ out t, rrqTop mode (p.whole content s) = (out, .go t) →
      rrqHandler mode content client p.events = (p.sent ++ out, .go t)) :
    (p.hasRead s t (p.view s content) mode out).Sound filename mode client content := by
  have all := sound.view s
  have left := rrqTop_suffix top
  have seen : s.over (p.view s content) = p.whole content s := by rw [all, Downloader.whole]
  obtain ⟨phase, whole⟩ := Downloader.whole_hasRead mode out all left
  constructor
  · rw [seen] at top
    rw [phase]
    show rrqHandler mode content client p.events = (p.sent ++ out, .go (Downloader.whole _ content _))
    rw [whole]
    exact run out t top
  · intro ended
    obtain before | ends := Bool.or_eq_true_iff.mp ended
    · exact (sound.atEnd before).trans (Nat.le_add_right _ _)
    · -- The read that met the end has left nothing.
      have empty : t.reader.fp = [] := by
        cases top
        rw [makeDataPacket_reader]
        exact readEnds_left ends
      show content.length ≤ p.taken + ((p.view s content).length - t.reader.fp.length - s.reader.fp.length)
      rw [empty, all, List.length_append, List.length_drop, List.length_nil]
      omega

theorem Downloader.Stepped.sound (stepped : Stepped filename mode client p (some content) a q)
    (sound : p.Sound filename mode client content) : q.Sound filename mode client content := by
  have follows := sound.follows
  cases stepped with
  | passed phase | notOpened phase =>
    rw [phase] at follows
    exact ⟨follows, sound.atEnd⟩
  | opened phase =>
    rw [phase] at follows
    refine ⟨Or.inl ⟨follows.1, follows.2.1, ?_⟩, sound.atEnd⟩
    show RrqState.over _ ([] ++ content.drop p.taken) = _
    rw [follows.2.2.1]
    rfl
  | @read _ s t out phase top =>
    rw [phase] at follows
    apply sound.hasRead top
    intro out t top
    obtain ⟨sent, events, begins⟩ | ⟨es, e, u, events, run, react⟩ := follows
    · rw [begins] at top
      rw [sent, events]
      exact EventLoop.run_of_top (m := rrqLoop mode) top
    · rw [events, rrqHandler, EventLoop.run_append_go [] run react]
      rw [EventLoop.run_of_top (m := rrqLoop mode) top]
  | @reacted _ s t e phase react =>
    rw [phase] at follows
    refine ⟨Or.inr ⟨p.events, e, _, rfl, follows, ?_⟩, sound.atEnd⟩
    have reader := rrqReact_reader s e
    rw [react, lastState] at reader
    rw [Downloader.whole, rrqReact_over, react, Next.map, ← reader]
    rfl
  | @ended _ s t e x phase react =>
    rw [phase] at follows
    refine ⟨EventLoop.run_append_stop [] follows ?_, sound.atEnd⟩
    show rrqReact (p.whole content s) e = _
    have reader := rrqReact_reader s e
    rw [react, lastState] at reader
    rw [Downloader.whole, rrqReact_over, react, Next.map, ← reader]
    rfl
  | @filled _ s n phase more room =>
    rw [phase] at follows
    refine ⟨?_, fun ended => absurd (more.symm.trans ended) Bool.false_ne_true⟩
    have same : Downloader.whole { p with taken := p.taken + n } content
        (s.over (s.reader.fp ++ (content.drop p.taken).take n)) = p.whole content s := by
      show (s.over _).over (s.reader.fp ++ (content.drop p.taken).take n ++ content.drop (p.taken + n)) = _
      rw [List.append_assoc, ← List.drop_drop, List.take_append_drop]
      rfl
    unfold Downloader.Follows Downloader.whole at *
    dsimp only at same ⊢
    rw [same]
    exact follows

end

/-! ### A file that grows -/

/-- The file is still there and starts with what it held. -/
def Grows (file next : Option (List UInt8)) : Prop := ∀ content, file = some content → ∃ more, next = some (content ++ more)

theorem Grows.refl (file : Option (List UInt8)) : Grows file file :=
  fun content here => ⟨[], by rw [here, List.append_nil]⟩

theorem Grows.trans {file next last : Option (List UInt8)} (first : Grows file next) (second : Grows next last) :
    Grows file last := by
  intro content here
  obtain ⟨more, here⟩ := first content here
  obtain ⟨yet, here⟩ := second _ here
  exact ⟨more ++ yet, by rw [here, List.append_assoc]⟩

/-- The payloads of what the process has sent. -/
def Downloader.payloads (p : Downloader) : List UInt8 := p.sent.flatMap fun d => d.bytes.drop 4

/-- What has been sent and what waits in the buffer of the stream are the front of the file. -/
structure Downloader.Front (p : Downloader) (content : List UInt8) (s : RrqState) : Prop where
  size : s.bufSend.length = dataPacketLen
  front : p.payloads ++ s.reader.fp <+: content
  count : p.taken = (p.payloads ++ s.reader.fp).length

def Downloader.Fronts (p : Downloader) (file : Option (List UInt8)) : ReadPhase → Prop
  | .checking => p.sent = [] ∧ p.taken = 0
  | .opening | .notOpened => p.sent = [] ∧ p.taken = 0 ∧ file ≠ none
  | .refused => True
  | .atHead s | .waiting s | .left _ s => ∃ content, file = some content ∧ p.Front content s

section

variable {filename : List UInt8} {client : SockAddr} {p q : Downloader} {a : ReadAction} {file next : Option (List UInt8)}
variable {content : List UInt8} {s t : RrqState} {out : List Datagram}

theorem Downloader.Fronts.grows (fronts : p.Fronts file p.phase) (grows : Grows file next) : p.Fronts next p.phase := by
  unfold Downloader.Fronts at *
  generalize p.phase = phase at *
  cases phase with
  | checking => exact fronts
  | opening | notOpened =>
    obtain ⟨sent, taken, there⟩ := fronts
    obtain ⟨content, rfl⟩ := Option.ne_none_iff_exists'.mp there
    obtain ⟨more, rfl⟩ := grows content rfl
    exact ⟨sent, taken, Option.some_ne_none _⟩
  | refused => trivial
  | atHead s | waiting s | left _ s =>
    obtain ⟨content, rfl, size, front, count⟩ := fronts
    obtain ⟨more, rfl⟩ := grows content rfl
    exact ⟨_, rfl, size, front.trans (List.prefix_append _ _), count⟩

/-- A read sends the next 512 bytes that the stream delivers, or all that is left of them. -/
theorem rrqTop_octet (size : s.bufSend.length = dataPacketLen) (top : rrqTop octet s = (out, .go t)) :
    (∃ peer b, out = [⟨peer, dataDatagram b (s.reader.fp.take maxBufLen)⟩]) ∧ t.bufSend.length = dataPacketLen ∧
      t.reader.fp = s.reader.fp.drop maxBufLen := by
  have position : s.reader.fp = s.reader.fp.drop (maxBufLen * 0) := rfl
  obtain ⟨sent, room, _, left⟩ := makeDataPacket_octet s.blockNum size position
  cases top
  refine ⟨⟨s.clientAddr, s.blockNum, ?_⟩, room, ?_⟩
  · rw [sent]
    rfl
  · exact left

/-- The front of a list, and what a prefix of it has behind that front. -/
theorem take_append_drop_prefix {α : Type} {b v : List α} (front : b <+: v) {n : Nat} (inside : n ≤ v.length) :
    v.take n ++ b.drop n <+: v ∧ (v.take n ++ b.drop n).length = n + (b.length - n) := by
  refine ⟨?_, by rw [List.length_append, List.length_take, List.length_drop, Nat.min_eq_left inside]⟩
  obtain ⟨d, rfl⟩ := front
  obtain short | long := Nat.le_total n b.length
  · rw [List.take_append_of_le_length short, List.take_append_drop]
    exact List.prefix_append _ _
  · rw [List.drop_of_length_le long, List.append_nil]
    exact List.take_prefix _ _

/-- The stream delivers its buffer first, and nothing that the file does not have behind what was sent. -/
theorem Downloader.Front.view (front : p.Front content s) :
    s.reader.fp <+: p.view s content ∧ p.payloads ++ p.view s content <+: content := by
  unfold Downloader.view
  split
  · exact ⟨List.prefix_rfl, front.front⟩
  · refine ⟨List.prefix_append _ _, ?_⟩
    have taken := List.prefix_iff_eq_take.mp front.front
    rw [← front.count] at taken
    rw [← List.append_assoc, taken, List.take_append_drop]

theorem Downloader.Front.read (front : p.Front content s)
    (top : rrqTop octet (s.over (p.view s content)) = (out, .go t)) :
    (p.hasRead s t (p.view s content) octet out).Front content
      (t.over (s.reader.fp.drop ((p.view s content).length - t.reader.fp.length))) := by
  obtain ⟨⟨peer, b, rfl⟩, size, left⟩ := rrqTop_octet (s := s.over (p.view s content)) front.size top
  obtain ⟨buffered, inFile⟩ := front.view
  generalize p.view s content = view at *
  replace left : t.reader.fp = view.drop maxBufLen := left
  have read : view.length - t.reader.fp.length = min maxBufLen view.length := by
    rw [left, List.length_drop]
    omega
  have sent : (p.hasRead s t view octet [⟨peer, dataDatagram b ((s.over view).reader.fp.take maxBufLen)⟩]).payloads =
      p.payloads ++ view.take (min maxBufLen view.length) := by
    unfold Downloader.payloads Downloader.hasRead
    rw [List.flatMap_append, List.flatMap_singleton, drop_dataDatagram, ← List.take_eq_take_min]
    rfl
  obtain ⟨prefix_, length⟩ := take_append_drop_prefix buffered (Nat.min_le_right maxBufLen view.length)
  refine ⟨size, ?_, ?_⟩
  · rw [sent, read, List.append_assoc]
    exact (List.prefix_append_right_inj p.payloads |>.mpr prefix_).trans inFile
  · show p.taken + (view.length - t.reader.fp.length - s.reader.fp.length) = _
    rw [sent, read, List.append_assoc, List.length_append]
    have total := front.count
    rw [List.length_append] at total
    show _ = p.payloads.length + (view.take _ ++ s.reader.fp.drop _).length
    rw [length]
    omega

theorem Downloader.Front.event (front : p.Front content s) {e : Event} {q : Downloader} (sent : q.sent = p.sent)
    (taken : q.taken = p.taken) : q.Front content (lastState (rrqReact s e)) := by
  have reader := rrqReact_reader s e
  have size : (lastState (rrqReact s e)).bufSend = s.bufSend := by
    have outcome := rrqReact_cases s e
    generalize rrqReact s e = next at outcome
    cases outcome with
    | waited | gaveUp | failed | finished | advanced | ignored => rfl
  exact ⟨by rw [size, front.size], by rw [reader, Downloader.payloads, sent]; exact front.front,
    by rw [taken, reader, Downloader.payloads, sent]; exact front.count⟩

theorem Downloader.Stepped.fronts (stepped : Stepped filename octet client p file a q) (fronts : p.Fronts file p.phase) :
    q.Fronts file q.phase := by
  cases stepped with
  | passed phase =>
    rw [phase] at fronts
    exact ⟨fronts.1, fronts.2, Option.some_ne_none _⟩
  | refused => trivial
  | notOpened phase =>
    rw [phase] at fronts
    exact fronts
  | @opened content phase =>
    rw [phase] at fronts
    refine ⟨content, rfl, List.length_replicate, ?_, ?_⟩
    · show Downloader.payloads _ ++ [] <+: content
      unfold Downloader.payloads
      rw [fronts.1]
      exact List.nil_prefix
    · show p.taken = (Downloader.payloads _ ++ []).length
      unfold Downloader.payloads
      rw [fronts.1, fronts.2.1]
      rfl
  | @read content s t out phase top =>
    rw [phase] at fronts
    obtain ⟨_, same, front⟩ := fronts
    cases same
    exact ⟨content, rfl, front.read top⟩
  | @reacted _ s t e phase react | @ended _ s t e x phase react =>
    rw [phase] at fronts
    obtain ⟨content, same, front⟩ := fronts
    have after := front.event (e := e) (q := p) rfl rfl
    rw [react] at after
    exact ⟨content, same, after.size, after.front, after.count⟩
  | @filled content s n phase more room =>
    rw [phase] at fronts
    obtain ⟨_, same, front⟩ := fronts
    cases same
    have taken := List.prefix_iff_eq_take.mp front.front
    rw [← front.count] at taken
    have longer : p.payloads ++ (s.reader.fp ++ (content.drop p.taken).take n) = content.take (p.taken + n) := by
      rw [← List.append_assoc, taken, List.take_add]
    refine ⟨content, rfl, front.size, ?_, ?_⟩
    · show p.payloads ++ (s.reader.fp ++ (content.drop p.taken).take n) <+: content
      rw [longer]
      exact List.take_prefix _ _
    · show p.taken + n = (p.payloads ++ (s.reader.fp ++ (content.drop p.taken).take n)).length
      rw [longer, List.length_take, Nat.min_eq_left room]

end

end NetProjects.Tftp
