import NetProjects.Echo.Server
import NetProjects.Library.CString
import NetProjects.Library.Shared

/-!
# A session of the echo service

The client, the child of the server that serves it, and the connection between them. Each takes its
calls in its own time, and a call moves as many bytes as the connection lets it.
-/

namespace NetProjects.Echo
open Bytes

/-! ### The client -/

inductive Printed where
  | line (text : List UInt8)
  | outOfSpace
  | closing
  deriving DecidableEq

inductive ClientPhase where
  | typing
  | receiving
  | closed
  | failed
  deriving DecidableEq

structure Client where
  stdin : List UInt8
  buf : CharArray maxDataSize
  recvbuf : CharArray maxDataSize
  phase : ClientPhase
  printed : List Printed
  /-- Ghost: what each `fgets` has taken. -/
  typed : List (List UInt8)

/-- At most 99 bytes and up to a newline. -/
def piece (stdin : List UInt8) : List UInt8 :=
  (stdin.takeWhile (· ≠ 10) ++ (stdin.dropWhile (· ≠ 10)).take 1).take (maxDataSize - 1)

/-- `fgets(buf, MAXDATASIZE, stdin)`; `none` at the end of the input. -/
def fgets (buf : CharArray maxDataSize) (stdin : List UInt8) : Option (CharArray maxDataSize × List UInt8) :=
  if stdin = [] then none
  else some (buf.fill (piece stdin ++ [0]), stdin.drop (piece stdin).length)

/-- `strcmp(a, b) == 0`, for an `a` that ends in its array. -/
def strcmpEq (a b : List UInt8) : Bool := (cstring a ++ [0]).isPrefixOf b

def strncmpEq (a b : List UInt8) (n : Nat) : Bool := ((cstring a ++ [0]).take n).isPrefixOf b

/-- What the client does with `numbytes` bytes of an echo in `recvbuf`. The text it prints has no end in the
array when nothing in it is zero. -/
def Client.compare (c : Client) (behind : List UInt8) (numbytes : Nat) : Client :=
  let printed := c.printed ++ [.line (cstring (c.recvbuf.bytes ++ behind))]
  if strcmpEq c.buf.bytes c.recvbuf.bytes then { c with phase := .typing, printed := printed }
  else if strncmpEq c.buf.bytes c.recvbuf.bytes numbytes then
    { c with phase := .typing, printed := printed ++ [.outOfSpace] }
  else { c with phase := .failed, printed := printed }

/-! ### The two together -/

/-- The bytes on their way, and which ends are closed. -/
structure Wire where
  toServer : List UInt8
  toClient : List UInt8
  clientClosed : Bool
  serverClosed : Bool

inductive Side where
  | client
  | server
  deriving DecidableEq

inductive Peer where
  | client (c : Client)
  | server (o : Outcome)

inductive Call where
  /-- `fgets`, and a `send` of `n` bytes where there was a line. -/
  | fgets (n : Nat)
  | recv (n : Nat)
  | send (n : Nat)
  | fails

/-- A `recv` waits for bytes or for the end of the connection. -/
def CanRecv (n : Nat) (incoming : List UInt8) (closed : Bool) : Bool :=
  n ≤ maxDataSize - 1 && n ≤ incoming.length && (0 < n || (incoming.isEmpty && closed))

def clientCall (behind : List UInt8) (c : Client) (w : Wire) : Call → Option (Client × Wire)
  | .fgets n =>
    match c.phase with
    | .typing =>
      match fgets c.buf c.stdin with
      | none => some ({ c with phase := .closed, printed := c.printed ++ [.closing] }, { w with clientClosed := true })
      | some (buf, stdin) =>
        some ({ c with phase := .receiving, buf := buf, stdin := stdin, typed := c.typed ++ [piece c.stdin] },
          { w with toServer := w.toServer ++ (buf.bytes.take (maxDataSize - 1)).take n })
    | _ => none
  | .recv n =>
    match c.phase with
    | .receiving =>
      if CanRecv n w.toClient w.serverClosed then
        let compared := { c with recvbuf := c.recvbuf.fill (w.toClient.take n) }.compare behind n
        some (compared, { w with toClient := w.toClient.drop n, clientClosed := compared.phase = .failed })
      else none
    | _ => none
  | .send _ => none
  | .fails =>
    match c.phase with
    | .typing | .receiving => some ({ c with phase := .failed }, { w with clientClosed := true })
    | _ => none

def serverCall (o : Outcome) (w : Wire) : Call → Option (Outcome × Wire)
  | .fgets _ => none
  | .recv n =>
    match o with
    | .reading c =>
      if CanRecv n w.toServer w.clientClosed then
        if n = 0 then some (.exited .closed, { w with serverClosed := true })
        else some (.writing { buf := c.buf.fill (w.toServer.take n), numbytes := n }, { w with toServer := w.toServer.drop n })
      else none
    | _ => none
  | .send n =>
    match o with
    | .writing c => some (.reading { c with numbytes := 0 }, { w with toClient := w.toClient ++ serverWrite c.buf n })
    | _ => none
  | .fails =>
    match o with
    | .reading _ => some (.exited (.status 1), { w with serverClosed := true })
    -- A failed `send` is taken for a whole one.
    | .writing c => some (.reading { c with numbytes := 0 }, w)
    | .exited _ => none

def session (behind : List UInt8) : Side → Peer → Wire → Call → Option (Peer × Wire)
  | .client, .client c, w, call => (clientCall behind c w call).map fun next => (.client next.1, next.2)
  | .server, .server o, w, call => (serverCall o w call).map fun next => (.server next.1, next.2)
  | _, _, _, _ => none

abbrev Session := Shared Side Peer Wire

def Session.start (stdin : List UInt8) (buf recvbuf serverBuf : CharArray maxDataSize) : Session where
  store := { toServer := [], toClient := [], clientClosed := false, serverClosed := false }
  process
    | .client => .client { stdin := stdin, buf := buf, recvbuf := recvbuf, phase := .typing, printed := [], typed := [] }
    | .server => .server (.reading { buf := serverBuf, numbytes := 0 })

/-- What a `recv` of this side can take. -/
def Wire.incoming (w : Wire) : Side → List UInt8
  | .client => w.toClient
  | .server => w.toServer

/-- Every `send` takes the whole frame, and every `recv` all that is there. -/
def WholeCall (w : Wire) (i : Side) : Call → Prop
  | .fgets n | .send n => n = maxDataSize - 1
  | .recv n => n = min (maxDataSize - 1) (w.incoming i).length
  | .fails => False

def Whole (s : Session) (i : Side) (call : Call) : Prop := WholeCall s.store i call

/-- A `recv` and the `send` after it are a round of the child. -/
theorem serve_round (c : Child) (segment : Segment) (n : Nat) (rounds : List Round) (w : Wire) (rest : List UInt8)
    (incoming : w.toServer = segment.bytes ++ rest) :
    ∃ d w', serverCall (.reading c) w (.recv segment.bytes.length) = some (.writing d, w') ∧ w'.toServer = rest ∧
      ∃ e w'', serverCall (.writing d) w' (.send n) = some (.reading e, w'') ∧ ∃ reply, w''.toClient = w'.toClient ++ reply ∧
        serve c (.data segment [.count n] :: rounds) = (reply ++ (serve e rounds).1, (serve e rounds).2) := by
  have can : CanRecv segment.bytes.length w.toServer w.clientClosed = true := by
    have all : segment.bytes.length ≤ w.toServer.length := by
      rw [incoming, List.length_append]
      exact Nat.le_add_right _ _
    simp only [CanRecv, Bool.and_eq_true, Bool.or_eq_true, decide_eq_true_eq]
    exact ⟨⟨segment.fits, all⟩, Or.inl segment.nonempty⟩
  refine ⟨{ buf := c.buf.fill segment.bytes, numbytes := segment.bytes.length }, { w with toServer := rest }, ?_, rfl, ?_⟩
  · rw [serverCall, if_pos can, if_neg (Nat.ne_of_gt segment.nonempty), incoming, List.take_left, List.drop_left]
  · exact ⟨_, _, rfl, _, rfl, by rw [serve, echoBack]; rfl⟩

/-! ### What the client prints -/

section

variable {c : Client} {p rest : List UInt8} {v : UInt8} {behind : List UInt8}

theorem piece_front (stdin : List UInt8) : piece stdin <+: stdin := by
  have line : stdin.takeWhile (· ≠ 10) ++ (stdin.dropWhile (· ≠ 10)).take 1 <+: stdin := by
    conv => rhs; rw [← List.takeWhile_append_dropWhile (p := (· ≠ 10)) (l := stdin)]
    exact (List.prefix_append_right_inj _).mpr (List.take_prefix _ _)
  exact (List.take_prefix _ _).trans line

theorem length_piece (stdin : List UInt8) : (piece stdin).length ≤ maxDataSize - 1 := by
  rw [piece, List.length_take]
  exact Nat.min_le_left _ _

/-- The buffer ends the piece with a zero. -/
theorem fgets_cases (buf : CharArray maxDataSize) (stdin : List UInt8) :
    (stdin = [] ∧ fgets buf stdin = none) ∨
      ∃ buf' rest, fgets buf stdin = some (buf', rest) ∧ piece stdin ++ rest = stdin ∧
        ∃ old, buf'.bytes = piece stdin ++ 0 :: old := by
  by_cases none : stdin = []
  · exact Or.inl ⟨none, if_pos none⟩
  · refine Or.inr ⟨_, _, if_neg none, ?_, ?_⟩
    · obtain ⟨rest, whole⟩ := piece_front stdin
      conv => lhs; arg 2; arg 2; rw [← whole]
      rw [List.drop_left]
      exact whole
    · have fits : (piece stdin ++ [0]).length ≤ maxDataSize := by
        have most := length_piece stdin
        rw [List.length_append, List.length_singleton]
        unfold maxDataSize at *
        omega
      rw [CharArray.bytes_fill fits, List.append_assoc]
      exact ⟨_, rfl⟩

/-- What an echo of the piece shows: the string in it, and, where no zero is among 99 bytes, what stands behind them. -/
def shown (v : UInt8) (behind p : List UInt8) : List Printed :=
  if (cstring p).length < maxDataSize - 1 then [.line (cstring p)]
  else .line (p ++ cstring (v :: behind)) :: if v = 0 then [] else [.outOfSpace]

theorem strcmpEq_iff {a b : List UInt8} : strcmpEq a b = true ↔ cstring a ++ [0] <+: b := List.isPrefixOf_iff_prefix

theorem compare_short (buf : c.buf.bytes = p ++ 0 :: rest) (short : (cstring p).length < maxDataSize - 1)
    (echo : c.recvbuf.bytes = c.buf.bytes.take (maxDataSize - 1) ++ [v]) (n : Nat) :
    c.compare behind n = { c with phase := .typing, printed := c.printed ++ [.line (cstring p)] } := by
  have text : cstring c.buf.bytes = cstring p := by rw [buf, cstring_append_nul]
  have ended : cstring p ++ [0] <+: c.recvbuf.bytes := by
    have whole : cstring p ++ [0] <+: c.buf.bytes := by
      rw [← text, ← take_cstring_succ (by rw [buf]; exact List.mem_append_right _ List.mem_cons_self)]
      exact List.take_prefix _ _
    have fits : (cstring p ++ [0]).length ≤ maxDataSize - 1 := by rw [List.length_append]; exact short
    rw [echo]
    exact (List.prefix_take_iff.mpr ⟨whole, fits⟩).trans (List.prefix_append _ _)
  have line : cstring (c.recvbuf.bytes ++ behind) = cstring p := by
    obtain ⟨after, at_⟩ := ended
    rw [← at_, List.append_assoc, List.append_assoc, List.singleton_append, cstring_append_nul,
      cstring_eq_self (not_mem_cstring p)]
  have same : strcmpEq c.buf.bytes c.recvbuf.bytes = true := by rw [strcmpEq_iff, text]; exact ended
  rw [Client.compare, if_pos same, line]

theorem compare_full (buf : c.buf.bytes = p ++ 0 :: rest) (full : p.length = maxDataSize - 1) (noNul : 0 ∉ p)
    (echo : c.recvbuf.bytes = c.buf.bytes.take (maxDataSize - 1) ++ [v]) :
    c.compare behind (maxDataSize - 1) = { c with
      phase := .typing
      printed := c.printed ++ .line (p ++ cstring (v :: behind)) :: if v = 0 then [] else [.outOfSpace] } := by
  have text : cstring c.buf.bytes = p := by rw [buf, cstring_append_nul, cstring_eq_self noNul]
  have received : c.recvbuf.bytes = p ++ [v] := by rw [echo, buf, ← full, List.take_left]
  have line : cstring (c.recvbuf.bytes ++ behind) = p ++ cstring (v :: behind) := by
    rw [received, List.append_assoc, List.singleton_append]
    exact List.takeWhile_append_of_pos fun b member => decide_eq_true fun nul => noNul (nul ▸ member)
  have same : strcmpEq c.buf.bytes c.recvbuf.bytes = true ↔ v = 0 := by
    rw [strcmpEq_iff, text, received, List.prefix_append_right_inj, List.cons_prefix_cons]
    exact ⟨fun h => h.1.symm, fun h => ⟨h.symm, List.nil_prefix⟩⟩
  have start : strncmpEq c.buf.bytes c.recvbuf.bytes (maxDataSize - 1) = true := by
    rw [strncmpEq, text, ← full, List.take_left, received, List.isPrefixOf_iff_prefix]
    exact List.prefix_append _ _
  unfold Client.compare
  rw [line]
  by_cases ends : v = 0
  · rw [if_pos (same.mpr ends), if_pos ends]
  · rw [if_neg fun h => ends (same.mp h), if_pos start, if_neg ends, List.append_assoc]
    rfl

/-- A whole echo never ends the client. -/
theorem compare_echo (behind : List UInt8) (buf : c.buf.bytes = p ++ 0 :: rest) (most : p.length ≤ maxDataSize - 1)
    (echo : c.recvbuf.bytes = c.buf.bytes.take (maxDataSize - 1) ++ [v]) :
    c.compare behind (maxDataSize - 1) =
      { c with phase := .typing, printed := c.printed ++ shown v behind p } := by
  by_cases short : (cstring p).length < maxDataSize - 1
  · rw [compare_short buf short echo, shown, if_pos short]
  · have inside := List.takeWhile_prefix (l := p) (· ≠ (0 : UInt8))
    have whole : cstring p = p := inside.eq_of_length_le (by have long := inside.length_le; unfold cstring at short; omega)
    have noNul : 0 ∉ p := by rw [← whole]; exact not_mem_cstring p
    rw [whole] at short
    rw [compare_full buf (by omega) noNul echo, shown, whole, if_neg short]

theorem length_piece_pos {stdin : List UInt8} (some : stdin ≠ []) : 0 < (piece stdin).length := by
  cases stdin with
  | nil => exact absurd rfl some
  | cons b stdin =>
    rw [piece, List.length_take, List.takeWhile_cons, List.dropWhile_cons]
    split <;> simp [maxDataSize]

end

/-- The pieces in which `fgets` takes the whole input. -/
def pieces (stdin : List UInt8) : List (List UInt8) :=
  if _ : stdin = [] then [] else piece stdin :: pieces (stdin.drop (piece stdin).length)
termination_by stdin.length
decreasing_by
  have taken := length_piece_pos ‹stdin ≠ []›
  have most := (piece_front stdin).length_le
  rw [List.length_drop]
  omega

theorem pieces_nil : pieces [] = [] := by
  unfold pieces
  rfl

theorem pieces_eq {stdin : List UInt8} (some : stdin ≠ []) :
    pieces stdin = piece stdin :: pieces (stdin.drop (piece stdin).length) := by
  conv => lhs; unfold pieces
  exact dif_neg some

/-- The pieces are the input. -/
theorem flatten_pieces (stdin : List UInt8) : (pieces stdin).flatten = stdin := by
  fun_induction pieces stdin with
  | case1 => rfl
  | case2 stdin some ih =>
    obtain ⟨rest, whole⟩ := piece_front stdin
    rw [List.flatten_cons, ih]
    conv => lhs; arg 2; arg 2; rw [← whole]
    rw [List.drop_left]
    exact whole

/-! ### In step -/

/-- The pieces that the client has had an echo of. -/
def Client.answered (c : Client) : List (List UInt8) :=
  if c.phase = .receiving then c.typed.dropLast else c.typed

/-- The client has printed what the echoes of the pieces show, and has only the other pieces before it. -/
structure Told (stdin : List UInt8) (v : UInt8) (behind : List UInt8) (c : Client) : Prop where
  typed : c.typed ++ pieces c.stdin = pieces stdin
  printed : c.printed = c.answered.flatMap (shown v behind) ++ if c.phase = .closed then [.closing] else []
  open_ : c.phase ≠ .failed
  last : c.recvbuf.bytes.drop (maxDataSize - 1) = [v]
  ended : c.phase = .closed → c.stdin = []

def Client.Waits (c : Client) : Prop :=
  c.phase = .receiving ∧
    ∃ done p old, c.typed = done ++ [p] ∧ p.length ≤ maxDataSize - 1 ∧ c.buf.bytes = p ++ 0 :: old

def frame (buf : CharArray maxDataSize) : List UInt8 := buf.bytes.take (maxDataSize - 1)

/-- Where the two can be while every call is whole. -/
inductive Lockstep : Client → Outcome → Wire → Prop where
  | typing {c : Client} {d : Child} (typing : c.phase = .typing) : Lockstep c (.reading d) ⟨[], [], false, false⟩
  | sent {c : Client} {d : Child} (waits : c.Waits) : Lockstep c (.reading d) ⟨frame c.buf, [], false, false⟩
  | read {c : Client} {d : Child} (waits : c.Waits) (same : frame d.buf = frame c.buf) :
    Lockstep c (.writing d) ⟨[], [], false, false⟩
  | echoed {c : Client} {d : Child} (waits : c.Waits) : Lockstep c (.reading d) ⟨[], frame c.buf, false, false⟩
  | closed {c : Client} {d : Child} (closed : c.phase = .closed) : Lockstep c (.reading d) ⟨[], [], true, false⟩
  | gone {c : Client} (closed : c.phase = .closed) : Lockstep c (.exited .closed) ⟨[], [], true, true⟩

section

variable {stdin behind : List UInt8} {v : UInt8} {c : Client} {o : Outcome} {w : Wire} {call : Call}

theorem length_frame (buf : CharArray maxDataSize) : (frame buf).length = maxDataSize - 1 := by
  rw [frame, List.length_take, buf.size]
  rfl

theorem no_recv {n : Nat} {incoming : List UInt8} (nothing : n = min (maxDataSize - 1) incoming.length)
    (empty : incoming = []) : CanRecv n incoming false = false := by
  obtain rfl := empty
  rw [List.length_nil, Nat.min_zero] at nothing
  obtain rfl := nothing
  rfl

theorem whole_frame {n : Nat} {buf : CharArray maxDataSize} (whole : n = min (maxDataSize - 1) (frame buf).length) :
    n = maxDataSize - 1 := by
  rw [length_frame, Nat.min_self] at whole
  exact whole

theorem take_frame (buf : CharArray maxDataSize) : (frame buf).take (maxDataSize - 1) = frame buf :=
  List.take_of_length_le (length_frame buf).le

theorem drop_frame (buf : CharArray maxDataSize) : (frame buf).drop (maxDataSize - 1) = [] :=
  List.drop_of_length_le (length_frame buf).le

theorem recv_frame (buf : CharArray maxDataSize) (closed : Bool) :
    CanRecv (maxDataSize - 1) (frame buf) closed = true := by
  rw [CanRecv, length_frame]
  rfl

/-- A frame over the buffer of a child or of the client. -/
theorem frame_fill (old buf : CharArray maxDataSize) :
    (old.fill (frame buf)).bytes = frame buf ++ old.bytes.drop (maxDataSize - 1) := by
  rw [CharArray.bytes_fill (by rw [length_frame]; exact Nat.sub_le _ _), length_frame]

theorem clientCall_recv {n : Nat} (receiving : c.phase = .receiving) (can : CanRecv n w.toClient w.serverClosed = true) :
    clientCall behind c w (.recv n) =
      let compared := { c with recvbuf := c.recvbuf.fill (w.toClient.take n) }.compare behind n
      some (compared, { w with toClient := w.toClient.drop n, clientClosed := compared.phase = .failed }) := by
  rw [clientCall, receiving]
  exact if_pos can

theorem no_echo {n : Nat} (waits : c.Waits) (whole : WholeCall w .client (.recv n)) (nothing : w.toClient = [])
    (opened : w.serverClosed = false) : clientCall behind c w (.recv n) = none := by
  rw [clientCall, waits.1, opened]
  exact if_neg (Bool.eq_false_iff.mp (no_recv whole nothing))

/-- The end of the input. -/
theorem told_end (told : Told stdin v behind c) (typing : c.phase = .typing) (empty : c.stdin = []) :
    Told stdin v behind { c with phase := .closed, printed := c.printed ++ [.closing] } where
  typed := told.typed
  printed := by
    have printed := told.printed
    simp only [Client.answered, typing, reduceCtorEq, if_false, List.append_nil] at printed
    simp only [Client.answered, reduceCtorEq, if_false, if_true, printed]
  open_ := nofun
  last := told.last
  ended := fun _ => empty

/-- A line taken and sent. -/
theorem told_sent {buf : CharArray maxDataSize} {rest : List UInt8} (told : Told stdin v behind c)
    (typing : c.phase = .typing) (some : c.stdin ≠ []) (split : piece c.stdin ++ rest = c.stdin) :
    Told stdin v behind
      { c with phase := .receiving, buf := buf, stdin := rest, typed := c.typed ++ [piece c.stdin] } where
  typed := by
    have left : c.stdin.drop (piece c.stdin).length = rest := by
      conv => lhs; arg 2; rw [← split]
      exact List.drop_left
    rw [← told.typed, pieces_eq some, left]
    exact (List.append_cons _ _ _).symm
  printed := by
    have printed := told.printed
    simp only [Client.answered, typing, reduceCtorEq, if_false, List.append_nil] at printed
    simp only [Client.answered, reduceCtorEq, if_false, if_true, List.append_nil, List.dropLast_concat, printed]
  open_ := nofun
  last := told.last
  ended := nofun

/-- An echo of the frame that was sent. -/
theorem told_echo (told : Told stdin v behind c) (waits : c.Waits) :
    let compared := { c with recvbuf := c.recvbuf.fill (frame c.buf) }.compare behind (maxDataSize - 1)
    Told stdin v behind compared ∧ compared.phase = .typing := by
  obtain ⟨receiving, done, p, old, typed, most, buf⟩ := waits
  have echo : (c.recvbuf.fill (frame c.buf)).bytes = c.buf.bytes.take (maxDataSize - 1) ++ [v] := by
    rw [frame_fill, told.last]
    rfl
  intro compared
  have result := compare_echo behind (c := { c with recvbuf := c.recvbuf.fill (frame c.buf) }) buf most echo
  have printed := told.printed
  simp only [Client.answered, receiving, reduceCtorEq, if_true, if_false, List.append_nil, typed, List.dropLast_concat]
    at printed
  unfold compared
  rw [result]
  refine ⟨⟨told.typed, ?_, nofun, ?_, nofun⟩, rfl⟩
  · simp only [Client.answered, reduceCtorEq, if_false, List.append_nil, printed, typed, List.flatMap_append,
      List.flatMap_cons, List.flatMap_nil]
  · rw [frame_fill, ← length_frame c.buf, List.drop_left, length_frame]
    exact told.last

/-- A whole call of the client. -/
theorem client_keeps {next : Client × Wire} (told : Told stdin v behind c) (lockstep : Lockstep c o w)
    (whole : WholeCall w .client call) (step : clientCall behind c w call = some next) :
    Told stdin v behind next.1 ∧ Lockstep next.1 o next.2 := by
  cases lockstep with
  | typing typing =>
    cases call with
    | fgets n =>
      obtain rfl : n = maxDataSize - 1 := whole
      simp only [clientCall, typing] at step
      obtain ⟨empty, nothing⟩ | ⟨buf, rest, taken, split, old, filled⟩ := fgets_cases c.buf c.stdin
      · rw [nothing] at step
        obtain rfl := Option.some.inj step
        exact ⟨told_end told typing empty, .closed rfl⟩
      · rw [taken] at step
        obtain rfl := Option.some.inj step
        have input : c.stdin ≠ [] := by
          intro empty
          rw [fgets, if_pos empty] at taken
          cases taken
        have sent : ([] : List UInt8) ++ (buf.bytes.take (maxDataSize - 1)).take (maxDataSize - 1) = frame buf := by
          rw [List.take_take, Nat.min_self]
          rfl
        refine ⟨told_sent told typing input split, ?_⟩
        dsimp only
        rw [sent]
        exact .sent ⟨rfl, c.typed, piece c.stdin, old, rfl, length_piece _, filled⟩
    | recv n => simp only [clientCall, typing, reduceCtorEq] at step
    | send n => cases step
    | fails => exact absurd whole id
  | sent waits | read waits =>
    cases call with
    | fgets n => simp only [clientCall, waits.1, reduceCtorEq] at step
    | recv n => rw [no_echo waits whole rfl rfl] at step; cases step
    | send n => cases step
    | fails => exact absurd whole id
  | echoed waits =>
    cases call with
    | fgets n => simp only [clientCall, waits.1, reduceCtorEq] at step
    | recv n =>
      obtain rfl := whole_frame whole
      obtain ⟨compared, typing⟩ := told_echo told waits
      rw [clientCall_recv waits.1 (recv_frame _ _)] at step
      obtain rfl := Option.some.inj step
      dsimp only
      rw [take_frame, drop_frame, typing]
      exact ⟨compared, .typing typing⟩
    | send n => cases step
    | fails => exact absurd whole id
  | closed closed | gone closed =>
    cases call with
    | fgets n | recv n => simp only [clientCall, closed, reduceCtorEq] at step
    | send n => cases step
    | fails => exact absurd whole id

theorem no_bytes {d : Child} {n : Nat} (whole : WholeCall w .server (.recv n)) (nothing : w.toServer = [])
    (opened : w.clientClosed = false) : serverCall (.reading d) w (.recv n) = none := by
  rw [serverCall, opened]
  exact if_neg (Bool.eq_false_iff.mp (no_recv whole nothing))

/-- A whole call of the child. -/
theorem server_keeps {next : Outcome × Wire} (lockstep : Lockstep c o w) (whole : WholeCall w .server call)
    (step : serverCall o w call = some next) : Lockstep c next.1 next.2 := by
  cases lockstep with
  | typing typing =>
    cases call with
    | fgets n | send n => cases step
    | recv n => rw [no_bytes whole rfl rfl] at step; cases step
    | fails => exact absurd whole id
  | sent waits =>
    cases call with
    | fgets n | send n => cases step
    | recv n =>
      obtain rfl := whole_frame whole
      simp only [serverCall, recv_frame, if_true, take_frame, drop_frame] at step
      rw [if_neg (by decide)] at step
      obtain rfl := Option.some.inj step
      refine .read waits ?_
      rw [frame, frame_fill, ← length_frame c.buf, List.take_left]
    | fails => exact absurd whole id
  | read waits same =>
    cases call with
    | fgets n | recv n => cases step
    | send n =>
      obtain rfl : n = maxDataSize - 1 := whole
      obtain rfl := Option.some.inj step
      dsimp only
      rw [List.nil_append, serverWrite, List.take_take, Nat.min_self]
      change Lockstep c _ ⟨[], frame _, false, false⟩
      rw [same]
      exact .echoed waits
    | fails => exact absurd whole id
  | echoed waits =>
    cases call with
    | fgets n | send n => cases step
    | recv n => rw [no_bytes whole rfl rfl] at step; cases step
    | fails => exact absurd whole id
  | closed closed =>
    cases call with
    | fgets n | send n => cases step
    | recv n =>
      obtain rfl : n = 0 := whole
      obtain rfl := Option.some.inj step
      exact .gone closed
    | fails => exact absurd whole id
  | gone closed =>
    cases call with
    | fgets n | recv n | send n => cases step
    | fails => exact absurd whole id

/-- A call that is not blocked, until the client is done and the child has seen the end of the connection. -/
theorem lockstep_moves (behind : List UInt8) (lockstep : Lockstep c o w) :
    (c.phase = .closed ∧ o = .exited .closed) ∨
      (∃ call, WholeCall w .client call ∧ (clientCall behind c w call).isSome) ∨
      ∃ call, WholeCall w .server call ∧ (serverCall o w call).isSome := by
  cases lockstep with
  | typing typing =>
    refine Or.inr (Or.inl ⟨.fgets (maxDataSize - 1), rfl, ?_⟩)
    simp only [clientCall, typing]
    cases fgets c.buf c.stdin <;> rfl
  | sent waits =>
    refine Or.inr (Or.inr ⟨.recv (maxDataSize - 1), ?_, ?_⟩)
    · exact (Nat.min_eq_left (length_frame c.buf).ge).symm
    · simp only [serverCall, recv_frame, if_true]
      rfl
  | read waits same => exact Or.inr (Or.inr ⟨.send (maxDataSize - 1), rfl, rfl⟩)
  | echoed waits =>
    refine Or.inr (Or.inl ⟨.recv (maxDataSize - 1), ?_, ?_⟩)
    · exact (Nat.min_eq_left (length_frame c.buf).ge).symm
    · rw [clientCall_recv waits.1 (recv_frame _ _)]
      rfl
  | closed closed => exact Or.inr (Or.inr ⟨.recv 0, rfl, rfl⟩)
  | gone closed => exact Or.inl ⟨closed, rfl⟩

end

/-- The two are in step, with what the client has told so far. -/
def InStep (stdin : List UInt8) (v : UInt8) (behind : List UInt8) (s : Session) : Prop :=
  ∃ c o, s.process .client = .client c ∧ s.process .server = .server o ∧ Told stdin v behind c ∧
    Lockstep c o s.store

theorem inStep_start (stdin behind : List UInt8) (buf recvbuf serverBuf : CharArray maxDataSize) {v : UInt8}
    (last : recvbuf.bytes.drop (maxDataSize - 1) = [v]) :
    InStep stdin v behind (Session.start stdin buf recvbuf serverBuf) :=
  ⟨_, _, rfl, rfl, ⟨rfl, rfl, nofun, last, nofun⟩, .typing rfl⟩

theorem inStep_step {stdin behind : List UInt8} {v : UInt8} (s : Session) (i : Side) (call : Call) (t : Session)
    (inStep : InStep stdin v behind s) (whole : Whole s i call) (step : s.step (session behind) i call = some t) :
    InStep stdin v behind t := by
  obtain ⟨c, o, client, server, told, lockstep⟩ := inStep
  obtain ⟨taken, others⟩ := Shared.step_cases step
  cases i with
  | client =>
    rw [client] at taken
    obtain ⟨next, called, same⟩ := Option.map_eq_some_iff.mp taken
    obtain ⟨process, stored⟩ := Prod.mk.inj same
    obtain ⟨told', lockstep'⟩ := client_keeps told lockstep whole called
    exact ⟨next.1, o, process.symm, (others .server (by decide)).trans server, told', stored ▸ lockstep'⟩
  | server =>
    rw [server] at taken
    obtain ⟨next, called, same⟩ := Option.map_eq_some_iff.mp taken
    obtain ⟨process, stored⟩ := Prod.mk.inj same
    exact ⟨c, next.1, (others .client (by decide)).trans client, process.symm, told,
      stored ▸ server_keeps lockstep whole called⟩

/-- The client has had an echo of the answered pieces and shown each once, in the order of the input; it is done only at
the end of the input, and until the child has seen that too, one of the two has a whole call to make. -/
def Echoed (stdin : List UInt8) (v : UInt8) (behind : List UInt8) (s : Session) : Prop :=
  ∃ c o, s.process .client = .client c ∧ s.process .server = .server o ∧ c.phase ≠ .failed ∧
    c.typed ++ pieces c.stdin = pieces stdin ∧ (c.phase = .closed → c.typed = pieces stdin) ∧
    c.printed = c.answered.flatMap (shown v behind) ++ (if c.phase = .closed then [.closing] else []) ∧
    ((c.phase = .closed ∧ o = .exited .closed) ∨
      ∃ i call t, Whole s i call ∧ s.step (session behind) i call = some t)

theorem echoed_of_inStep {stdin behind : List UInt8} {v : UInt8} (s : Session) (inStep : InStep stdin v behind s) :
    Echoed stdin v behind s := by
  obtain ⟨c, o, client, server, told, lockstep⟩ := inStep
  refine ⟨c, o, client, server, told.open_, told.typed, ?_, told.printed, ?_⟩
  · intro closed
    have typed := told.typed
    rw [told.ended closed, pieces_nil, List.append_nil] at typed
    exact typed
  · obtain finished | ⟨call, whole, can⟩ | ⟨call, whole, can⟩ := lockstep_moves behind lockstep
    · exact Or.inl finished
    · obtain ⟨next, called⟩ := Option.isSome_iff_exists.mp can
      have taken : session behind .client (s.process .client) s.store call = some (.client next.1, next.2) := by
        rw [client, session, called]
        rfl
      exact Or.inr ⟨.client, call, _, whole, Shared.step_eq taken⟩
    · obtain ⟨next, called⟩ := Option.isSome_iff_exists.mp can
      have taken : session behind .server (s.process .server) s.store call = some (.server next.1, next.2) := by
        rw [server, session, called]
        rfl
      exact Or.inr ⟨.server, call, _, whole, Shared.step_eq taken⟩

/-- While every call is whole, the two stay in step whatever the order of the calls. -/
theorem echo_session (stdin behind : List UInt8) (buf recvbuf serverBuf : CharArray maxDataSize) (v : UInt8)
    (last : recvbuf.bytes.drop (maxDataSize - 1) = [v]) (calls : List (Side × Call))
    (whole : Shared.Guarded (session behind) Whole (Session.start stdin buf recvbuf serverBuf) calls) :
    (pieces stdin).flatten = stdin ∧
      Shared.Throughout (session behind) (Echoed stdin v behind) (Session.start stdin buf recvbuf serverBuf) calls :=
  ⟨flatten_pieces stdin,
    (Shared.throughout_of_guarded (inStep_start stdin behind buf recvbuf serverBuf last) inStep_step whole).mono
      echoed_of_inStep⟩

/-- One line, from the `fgets` to the end of the child. -/
theorem echo_session_line :
    Shared.Throughout (session []) (Echoed [104, 105, 10] 0 [])
      (Session.start [104, 105, 10] (.zero _) (.zero _) (.zero _))
      [(.client, .fgets 99), (.server, .recv 99), (.server, .send 99), (.client, .recv 99), (.client, .fgets 99),
        (.server, .recv 0)] := by
  refine (echo_session _ _ _ _ _ _ (by decide) _ ?_).2
  intro s₁ typed
  obtain rfl := Option.some.inj typed
  refine ⟨rfl, fun s₂ received => ?_⟩
  obtain rfl := Option.some.inj received
  refine ⟨rfl, fun s₃ sent => ?_⟩
  obtain rfl := Option.some.inj sent
  refine ⟨rfl, fun s₄ echoed => ?_⟩
  obtain rfl := Option.some.inj echoed
  refine ⟨rfl, fun s₅ closed => ?_⟩
  obtain rfl := Option.some.inj closed
  exact ⟨rfl, fun s₆ ended => ⟨rfl, trivial⟩⟩

end NetProjects.Echo
