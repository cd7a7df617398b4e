import NetProjects.Library.Forking
import NetProjects.Library.Merge
import NetProjects.Tftp.Downloads
import NetProjects.Tftp.ReadRuns
import NetProjects.Tftp.Trail

/-!
# The server

`main` receives requests and forks a process for each. The processes share the files of the server, which
`resolve` finds by name: two names may lead to one file.
-/

namespace NetProjects.Tftp
open Bytes

/-- What stands in memory behind the buffer of `main` and behind the arrays of a handler. -/
structure Behind where
  buffer : List UInt8
  filename : List UInt8
  mode : List UInt8

inductive Work where
  | gone
  | reading (p : Downloader)
  | writing (p : Uploader)

/-- A forked process, with the name and the mode as the calls it makes see them. -/
structure Child where
  request : Datagram
  filename : List UInt8
  mode : List UInt8
  work : Work

def Child.exited (d : Datagram) : Child := { request := d, filename := [], mode := [], work := .gone }

/-- A handler up to its parse of the request. A parse that leaves an array ends the process here; the source writes on
past the array. -/
def Child.parsed (memory : List UInt8) (behind : Behind) (d : Datagram) (work : Work) : Child :=
  match parseRequestTrail memory with
  | some parsed =>
    if parsed.result = .ok then
      { request := d, filename := cstring (parsed.filename ++ behind.filename)
        mode := cstring (parsed.mode ++ behind.mode), work := work }
    else .exited d
  | none => .exited d

def Child.start (memory : List UInt8) (behind : Behind) (d : Datagram) : Child :=
  match parseHeader memory with
  | .rrq => .parsed memory behind d (.reading .start)
  | .wrq => .parsed memory behind d (.writing .start)
  | _ => .exited d

/-- A round of the loop of `main`. What becomes of a server whose buffer is overrun is not followed. -/
def mainRound (bufRecv : List UInt8) (message : Datagram × Behind) : Option (List UInt8 × Child) :=
  if message.1.bytes.length ≤ maxBufLen then
    let memory := serverReceives bufRecv message.2.buffer message.1
    some (memory.take maxBufLen, .start memory message.2 message.1)
  else none

inductive ChildAction where
  | noSocket
  | read (a : ReadAction)
  | write (a : Action)

def Child.asked (c : Child) : Request := ⟨c.mode, c.request.peer⟩

def Work.Checking : Work → Bool
  | .reading p => match p.phase with | .checking => true | _ => false
  | .writing p => match p.phase with | .checking => true | _ => false
  | .gone => false

/-- One step of a process. `init` may find no socket before the file is looked for. -/
def Child.act (c : Child) (file : Option (List UInt8)) : ChildAction → Option (Child × Option (List UInt8))
  | .noSocket => if c.work.Checking then some ({ c with work := .gone }, file) else none
  | .read a =>
    match c.work with
    | .reading p => (p.step c.filename c.mode c.request.peer file a).map fun q => ({ c with work := .reading q }, file)
    | _ => none
  | .write a =>
    match c.work with
    | .writing p => (p.step c.filename c.asked file a).map fun next => ({ c with work := .writing next.1 }, next.2)
    | _ => none

section

variable {κ : Type}

def tftpServer (resolve : List UInt8 → κ) :
    Forker κ (Option (List UInt8)) (List UInt8) (Datagram × Behind) Child ChildAction where
  own c := resolve c.filename
  fork := mainRound
  act := Child.act

abbrev ServerState (κ : Type) := Forking κ (Option (List UInt8)) (List UInt8) Child

def ServerState.start (files : κ → Option (List UInt8)) (bufRecv : List UInt8) : ServerState κ :=
  { store := files, parent := bufRecv, children := [] }

end

/-! ### What a process does -/

inductive Child.Acted (c : Child) : Option (List UInt8) → ChildAction → Child → Option (List UInt8) → Prop where
  | noSocket {file : Option (List UInt8)} (checking : c.work.Checking = true) :
      Acted c file .noSocket { c with work := .gone } file
  | read {file : Option (List UInt8)} {p q : Downloader} {a : ReadAction} (work : c.work = .reading p)
      (stepped : Downloader.Stepped c.filename c.mode c.request.peer p file a q) :
      Acted c file (.read a) { c with work := .reading q } file
  | wrote {file next : Option (List UInt8)} {p q : Uploader} {a : Action} (work : c.work = .writing p)
      (stepped : Uploader.Stepped c.filename c.asked p file a q next) :
      Acted c file (.write a) { c with work := .writing q } next

section

variable {c d : Child} {file next : Option (List UInt8)} {a : ChildAction}

theorem Child.act_cases (acts : c.act file a = some (d, next)) : c.Acted file a d next := by
  cases a with
  | noSocket =>
    obtain ⟨checking, same⟩ := Option.ite_none_right_eq_some.mp acts
    cases same
    exact .noSocket checking
  | read a =>
    simp only [Child.act] at acts
    split at acts
    · rename_i p work
      obtain ⟨q, taken, same⟩ := Option.map_eq_some_iff.mp acts
      cases same
      exact .read work (Downloader.step_cases taken)
    · cases acts
  | write a =>
    simp only [Child.act] at acts
    split at acts
    · rename_i p work
      obtain ⟨⟨q, after⟩, taken, same⟩ := Option.map_eq_some_iff.mp acts
      cases same
      exact .wrote work (Uploader.step_cases taken)
    · cases acts

theorem Child.Acted.filename (acted : c.Acted file a d next) : d.filename = c.filename := by
  cases acted with
  | noSocket | read | wrote => rfl

/-- A process starts before its check, or is gone. -/
theorem mainRound_child {buf buf' : List UInt8} {message : Datagram × Behind} (round : mainRound buf message = some (buf', c)) :
    c.work = .gone ∨ c.work = .reading .start ∨ c.work = .writing .start := by
  obtain ⟨_, same⟩ := Option.ite_none_right_eq_some.mp round
  cases same
  have parsed : ∀ memory work, (Child.parsed memory message.2 message.1 work).work = .gone ∨
      (Child.parsed memory message.2 message.1 work).work = work := by
    intro memory work
    unfold Child.parsed
    split
    · split
      · exact Or.inr rfl
      · exact Or.inl rfl
    · exact Or.inl rfl
  unfold Child.start
  split
  · exact (parsed _ _).imp_right Or.inl
  · exact (parsed _ _).imp_right Or.inr
  · exact Or.inl rfl

end

/-! ### What a request is parsed to -/

theorem cstring_mode {mode : List UInt8} (size : mode.length = modeLen) (string : cstring mode = octet) : 0 ∈ mode := by
  by_contra open_
  rw [cstring_eq_self open_] at string
  rw [string] at size
  exact absurd size (by decide)

/-- The process that an octet request is handled by. -/
def octetChild (request : Datagram) (name : List UInt8) : Opcode → Child
  | .rrq => { request := request, filename := name, mode := octet, work := .reading .start }
  | .wrq => { request := request, filename := name, mode := octet, work := .writing .start }
  | _ => .exited request

/-- A well-formed octet request for the name. -/
def Datagram.Asks (d : Datagram) (opcode : UInt16) (name : List UInt8) : Prop :=
  0 ∉ name ∧ name.length ≤ 254 ∧ ∃ rest, d.bytes = requestBytes opcode name octet rest

/-- The process has the name and the mode of the octet request it was forked for. -/
def Child.Named (c : Child) : Prop :=
  ∀ opcode name, c.request.Asks opcode name → c.work ≠ .gone → c.filename = name ∧ c.mode = octet

section

variable {buf buf' : List UInt8} {message : Datagram × Behind} {c d : Child} {file next : Option (List UInt8)} {a : ChildAction}
variable {opcode : UInt16} {name : List UInt8}

theorem parsed_octet {memory rest more : List UInt8} (behind : Behind) (request : Datagram) (work : Work)
    (noNul : 0 ∉ name) (short : name.length ≤ 254) (here : memory = requestBytes opcode name octet (rest ++ more))
    (enough : modeLen ≤ (octet ++ 0 :: (rest ++ more)).length) :
    Child.parsed memory behind request work = { request := request, filename := name, mode := octet, work := work } := by
  obtain ⟨parsed, done, result, _, size, terminated, filename, mode⟩ :=
    parseRequestTrail_request (length_networkOrder opcode) noNul short (show 0 ∉ octet by decide) enough
  have string : cstring parsed.mode = octet := mode
  unfold Child.parsed
  rw [here, requestBytes, done]
  dsimp only
  rw [if_pos result, cstring_append terminated, cstring_append (cstring_mode size string), filename, string]

theorem parseHeader_requestBytes (opcode : UInt16) (name mode rest : List UInt8) :
    parseHeader (requestBytes opcode name mode rest) = .ofCode opcode := by
  rw [parseHeader, requestBytes, List.append_assoc, loadLE_networkOrder, bswap16_bswap16]

/-- The buffer of `main` is as long as before, and the process has what the request asks for whatever the buffer held. -/
theorem mainRound_octet (message : Datagram × Behind) (size : buf.length = maxBufLen)
    (asks : message.1.Asks opcode name) (fits : message.1.bytes.length ≤ maxBufLen) :
    ∃ buf', buf'.length = maxBufLen ∧
      mainRound buf message = some (buf', octetChild message.1 name (.ofCode opcode)) := by
  obtain ⟨noNul, short, rest, request⟩ := asks
  obtain ⟨more, received, count⟩ := serverReceives_eq size fits message.2.buffer
  have whole : serverReceives buf message.2.buffer message.1 = requestBytes opcode name octet (rest ++ more) := by
    rw [received, request]
    simp only [requestBytes, List.append_assoc, List.cons_append]
  have five : octet.length = 5 := rfl
  have total := congrArg List.length request
  rw [length_requestBytes, five] at total
  unfold maxBufLen at fits count
  have enough : modeLen ≤ (octet ++ 0 :: (rest ++ more)).length := by
    simp only [List.length_append, List.length_cons, five]
    rw [modeLen]
    omega
  refine ⟨(serverReceives buf message.2.buffer message.1).take maxBufLen, ?_, ?_⟩
  · rw [List.length_take, received, List.length_append, count, maxBufLen]
    omega
  · unfold mainRound
    rw [if_pos (show message.1.bytes.length ≤ maxBufLen from fits)]
    dsimp only
    have parsed := fun work => parsed_octet message.2 message.1 work noNul short whole enough
    unfold Child.start octetChild
    rw [parsed, parsed, whole, parseHeader_requestBytes]

theorem octetChild_named (request : Datagram) (name : List UInt8) (o : Opcode)
    (handled : (octetChild request name o).work ≠ .gone) :
    (octetChild request name o).filename = name ∧ (octetChild request name o).mode = octet := by
  cases o with
  | rrq | wrq => exact ⟨rfl, rfl⟩
  | data | ack | error | unknown => exact absurd rfl handled

theorem start_request (memory : List UInt8) (behind : Behind) (d : Datagram) : (Child.start memory behind d).request = d := by
  have parsed : ∀ work, (Child.parsed memory behind d work).request = d := by
    intro work
    unfold Child.parsed
    split
    · split <;> rfl
    · rfl
  unfold Child.start
  split
  · exact parsed _
  · exact parsed _
  · rfl

theorem mainRound_named (size : buf.length = maxBufLen) (round : mainRound buf message = some (buf', c)) :
    buf'.length = maxBufLen ∧ c.Named := by
  obtain ⟨fits, same⟩ := Option.ite_none_right_eq_some.mp round
  constructor
  · cases same
    obtain ⟨more, received, count⟩ := serverReceives_eq size fits message.2.buffer
    rw [List.length_take, received, List.length_append, count]
    omega
  · have asked : c.request = message.1 := by
      cases same
      exact start_request _ _ _
    intro opcode name asks handled
    rw [asked] at asks
    obtain ⟨buf'', _, again⟩ := mainRound_octet _ size asks fits
    cases round.symm.trans again
    exact octetChild_named message.1 name _ handled

theorem Child.Acted.named (acted : c.Acted file a d next) (named : c.Named) : d.Named := by
  intro opcode name asks handled
  cases acted with
  | noSocket => exact absurd rfl handled
  | read work | wrote work =>
    refine named opcode name asks ?_
    rw [work]
    exact fun gone => Work.noConfusion gone

end

/-! ### The processes of one request each -/

section

variable {κ : Type} {resolve : List UInt8 → κ} {c : Child} {client : SockAddr}

theorem Child.act_write {p q : Uploader} {file next : Option (List UInt8)} {a : Action} (work : c.work = .writing p)
    (stepped : Uploader.Stepped c.filename c.asked p file a q next) :
    (tftpServer resolve).act c file (.write a) = some ({ c with work := .writing q }, next) := by
  show c.act file (.write a) = _
  simp only [Child.act, work, stepped.step, Option.map_some]

theorem Child.act_read {p q : Downloader} {file : Option (List UInt8)} {a : ReadAction} (work : c.work = .reading p)
    (stepped : Downloader.Stepped c.filename c.mode c.request.peer p file a q) :
    (tftpServer resolve).act c file (.read a) = some ({ c with work := .reading q }, file) := by
  show c.act file (.read a) = _
  simp only [Child.act, work, stepped.step, Option.map_some]

/-- The steps of a process that takes an upload of one byte. -/
def putByte (client : SockAddr) (b : UInt8) : List ChildAction :=
  [.access, .fopen true, .head, .event (dataEvent client 1 [b]), .head, .flush 1].map .write

theorem putByte_solo (resolve : List UInt8 → κ) (work : c.work = .writing .start) (mode : c.mode = octet) (b : UInt8) :
    ∃ p u, (tftpServer resolve).solo c none (putByte c.request.peer b) = some ({ c with work := .writing p }, some [b]) ∧
      p.events = [dataEvent c.request.peer 1 [b]] ∧ p.phase = .left (.ret .ok) u ∧ p.flushed = u.writer.fd.length := by
  obtain ⟨v, top, waits⟩ := wrqTop_more (wrqStart_at c.request.peer) rfl
  obtain ⟨w, react, head, done⟩ := wrqReact_data waits (dataEvent_upload c.request.peer 1 [b])
  have short : Datagram.payload ⟨c.request.peer, dataDatagram 1 [b]⟩ = [b] :=
    dataDatagram_payload c.request.peer 1 (by rw [List.length_singleton]; decide)
  have small : Datagram.Short ⟨c.request.peer, dataDatagram 1 [b]⟩ := by
    rw [Datagram.Short, short, List.length_singleton]
    decide
  obtain ⟨u, last, final⟩ := wrqTop_done head (by rw [done]; exact decide_eq_true small)
  have byte : u.writer.fd = [b] := by
    rw [final.file, Event.appends, dataDatagram_block, short]
    rfl
  have react : wrqReact c.asked.mode v (dataEvent c.request.peer 1 [b]) = .go w := by
    rw [show c.asked.mode = octet from mode]
    exact react
  have room : 0 + 1 ≤ u.writer.fd.length := by rw [byte]; exact Nat.le_refl 1
  let acks : List Datagram :=
    [⟨c.request.peer, ackDatagram 0⟩, ⟨c.request.peer, ackDatagram (Datagram.block ⟨c.request.peer, dataDatagram 1 [b]⟩)⟩]
  refine ⟨{ phase := .left (.ret .ok) u, sent := acks, events := [dataEvent c.request.peer 1 [b]], flushed := 1 }, u, ?_, rfl,
    rfl, ?_⟩
  · unfold putByte
    simp only [List.map_cons, List.map_nil]
    rw [Forker.solo_cons (Child.act_write work (.passed rfl)), Forker.solo_cons (Child.act_write rfl (.opened rfl)),
      Forker.solo_cons (Child.act_write rfl (.acked rfl top)), Forker.solo_cons (Child.act_write rfl (.reacted rfl (by exact react))),
      Forker.solo_cons (Child.act_write rfl (.finished rfl last)),
      Forker.solo_cons (Child.act_write rfl (.flushed rfl (fun t killed => by cases killed) room))]
    show some (_, some ([] ++ (u.writer.fd.drop 0).take 1)) = _
    rw [byte]
    rfl
  · rw [byte]
    rfl

/-- The steps of a process that is acknowledged the one block of a short file. -/
def getByte (client : SockAddr) : List ChildAction :=
  [.access, .fopen true, .head, .event (.recv ⟨client, ackDatagram 1⟩)].map .read

theorem getByte_solo (resolve : List UInt8 → κ) (work : c.work = .reading .start) (mode : c.mode = octet) (b : UInt8) :
    ∃ q v, (tftpServer resolve).solo c (some [b]) (getByte c.request.peer) = some ({ c with work := .reading q }, some [b]) ∧
      q.events = [.recv ⟨c.request.peer, ackDatagram 1⟩] ∧ q.phase = .left (.ret .ok) v := by
  obtain ⟨t, top, waits⟩ := rrqTop_at (rrqStart_at [b] c.request.peer)
  have ends : (Event.recv ⟨c.request.peer, ackDatagram 1⟩).EndsRead [b] 0 0 0 := Or.inr ⟨ackEvent_acks c.request.peer 0, by
    rw [List.length_singleton]
    decide⟩
  obtain ⟨r, u, react, ok⟩ := rrqReact_ends waits (ackEvent_wellFormed c.request.peer 0) ends
  obtain rfl := ok.mpr (ackEvent_acks c.request.peer 0)
  let p : Downloader := { Downloader.start with phase := .atHead (.start [] c.request.peer) }
  let waited := p.hasRead (.start [] c.request.peer) t (p.view (.start [] c.request.peer) [b]) c.mode
    [⟨c.request.peer, dataDatagram (UInt16.ofNat (0 + 1)) (chunk maxBufLen [b] 0)⟩]
  let left : List UInt8 := List.drop ((p.view (.start [] c.request.peer) [b]).length - t.reader.fp.length) []
  have ended (fp : List UInt8) : rrqReact (t.over fp) (.recv ⟨c.request.peer, ackDatagram 1⟩) =
      .exit (.ret .ok) (u.over fp) := by
    rw [rrqReact_over]
    exact congrArg (Next.map fun t => t.over fp) react
  refine ⟨{ waited with phase := .left (.ret .ok) (u.over left), events := [.recv ⟨c.request.peer, ackDatagram 1⟩] }, u.over left,
    ?_, rfl, rfl⟩
  unfold getByte
  simp only [List.map_cons, List.map_nil]
  rw [Forker.solo_cons (Child.act_read work (.passed rfl)), Forker.solo_cons (Child.act_read rfl (.opened rfl)),
    Forker.solo_cons (Child.act_read rfl (.read rfl (by rw [mode]; exact top))),
    Forker.solo_cons (Child.act_read rfl (.ended rfl (ended _)))]
  rfl

theorem act_own {c d : Child} {x y : Option (List UInt8)} {a : ChildAction} (acts : (tftpServer resolve).act c x a = some (d, y)) :
    (tftpServer resolve).own d = (tftpServer resolve).own c := congrArg resolve (Child.act_cases acts).filename

variable [DecidableEq κ] {s : ServerState κ} {d : Datagram} {name : List UInt8}

/-- One byte is uploaded to an absent file. -/
theorem putByte_run (resolve : List UInt8 → κ) (size : s.parent.length = maxBufLen) (asks : d.Asks 2 name) (fits : d.bytes.length ≤ maxBufLen)
    (behind : Behind) (absent : s.store (resolve name) = none) (b : UInt8) :
    ∃ t p u, (tftpServer resolve).run s (.parent (d, behind) :: (putByte d.peer b).map (.child s.children.length)) = some t ∧
      t.store (resolve name) = some [b] ∧ t.parent.length = maxBufLen ∧
      t.children = s.children ++ [{ request := d, filename := name, mode := octet, work := .writing p }] ∧
      p.events = [dataEvent d.peer 1 [b]] ∧ p.phase = .left (.ret .ok) u ∧ p.flushed = u.writer.fd.length := by
  obtain ⟨buf, length, round⟩ := mainRound_octet (d, behind) size asks fits
  let c : Child := { request := d, filename := name, mode := octet, work := .writing .start }
  obtain ⟨p, u, solo, events, left, flushed⟩ := putByte_solo resolve (c := c) rfl rfl b
  have forks : (tftpServer resolve).fork s.parent (d, behind) = some (buf, c) := round
  rw [← show s.store ((tftpServer resolve).own c) = none from absent] at solo
  exact ⟨_, p, u, Forker.run_forked act_own forks solo, Function.update_self _ _ _, length, rfl, events, left, flushed⟩

/-- A file of one byte is downloaded. -/
theorem getByte_run (resolve : List UInt8 → κ) (size : s.parent.length = maxBufLen) (asks : d.Asks 1 name) (fits : d.bytes.length ≤ maxBufLen)
    (behind : Behind) {b : UInt8} (there : s.store (resolve name) = some [b]) :
    ∃ t q v, (tftpServer resolve).run s (.parent (d, behind) :: (getByte d.peer).map (.child s.children.length)) = some t ∧
      t.store (resolve name) = some [b] ∧
      t.children = s.children ++ [{ request := d, filename := name, mode := octet, work := .reading q }] ∧
      q.events = [.recv ⟨d.peer, ackDatagram 1⟩] ∧ q.phase = .left (.ret .ok) v := by
  obtain ⟨buf, _, round⟩ := mainRound_octet (d, behind) size asks fits
  let c : Child := { request := d, filename := name, mode := octet, work := .reading .start }
  obtain ⟨q, v, solo, events, left⟩ := getByte_solo resolve (c := c) rfl rfl b
  have forks : (tftpServer resolve).fork s.parent (d, behind) = some (buf, c) := round
  rw [← show s.store ((tftpServer resolve).own c) = some [b] from there] at solo
  exact ⟨_, q, v, Forker.run_forked act_own forks solo, (Function.update_self _ _ _).trans there, rfl, events, left⟩

/-- An octet request for the file `a`. -/
def requestOfA (opcode : UInt16) : Datagram := ⟨⟨0, 69⟩, requestBytes opcode [97] octet []⟩

/-- A NUL behind each array. -/
def Behind.nuls : Behind := { buffer := [0], filename := [0], mode := [0] }

theorem requestOfA_asks (opcode : UInt16) : (requestOfA opcode).Asks opcode [97] := ⟨by decide, by decide, [], rfl⟩

theorem requestOfA_fits (opcode : UInt16) : (requestOfA opcode).bytes.length ≤ maxBufLen := by
  rw [requestOfA, length_requestBytes]
  decide

/-- The file `a` is made with one byte in it, then read. -/
theorem putGet_run (behind : Behind) :
    ∃ s t p u q v, (tftpServer id).run (ServerState.start (fun _ => none) (List.replicate 512 0))
        (.parent (requestOfA 2, behind) :: (putByte ⟨0, 69⟩ 7).map (.child 0)) = some s ∧
      s.children = [{ request := requestOfA 2, filename := [97], mode := octet, work := .writing p }] ∧
      p.events = [dataEvent ⟨0, 69⟩ 1 [7]] ∧ p.phase = .left (.ret .ok) u ∧ p.flushed = u.writer.fd.length ∧
      (tftpServer id).run s (.parent (requestOfA 1, behind) :: (getByte ⟨0, 69⟩).map (.child 1)) = some t ∧
      t.store [97] = some [7] ∧
      t.children = [{ request := requestOfA 2, filename := [97], mode := octet, work := .writing p },
        { request := requestOfA 1, filename := [97], mode := octet, work := .reading q }] ∧
      q.events = [.recv ⟨⟨0, 69⟩, ackDatagram 1⟩] ∧ q.phase = .left (.ret .ok) v := by
  obtain ⟨s, p, u, put, there, size, child, events, left, flushed⟩ := putByte_run id
    (s := ServerState.start (fun _ => none) (List.replicate 512 0)) List.length_replicate (requestOfA_asks 2)
    (requestOfA_fits 2) behind rfl 7
  obtain ⟨t, q, v, get, stored, children, acks, done⟩ := getByte_run id (s := s) size (requestOfA_asks 1)
    (requestOfA_fits 1) behind there
  rw [child] at get children
  exact ⟨s, t, p, u, q, v, put, child, events, left, flushed, get, stored, children, acks, done⟩

end

end NetProjects.Tftp
