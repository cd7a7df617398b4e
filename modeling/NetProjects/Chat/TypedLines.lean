import NetProjects.Chat.Client
import NetProjects.Library.LineBlocks

/-!
# Typed lines

The texts of the SEND messages against the lines that were typed. The client ignores what `fgets`
returns, so that at the end of the input it sends its last text again.
-/

namespace NetProjects.Chat
open Bytes LineBlocks

def SbcpMsg.text (m : SbcpMsg) : List UInt8 := cstring m.attribute0.payload.bytes

/-- The texts the client sends in these turns; `none` where it leaves an array. -/
def Client.texts (c : Client) : List Wait → Option (List (List UInt8))
  | [] => some []
  | w :: ws => do
    let turned ← c.turn w
    match turned.next with
    | none => return turned.sent.map SbcpMsg.text
    | some c => return turned.sent.map SbcpMsg.text ++ (← c.texts ws)

/-- The lines come one by one to a ready keyboard, which is then ready at the end of the input `atEnd`
times. The server keeps the connection. -/
structure Types (lines : List (List UInt8)) (atEnd : Nat) (ws : List Wait) : Prop where
  typed : ws.filterMap Wait.typed = lines.map (· ++ [10]) ++ List.replicate atEnd []
  connected : ∀ w ∈ ws, w.received ≠ some (.data [])
  lines : ∀ l ∈ lines, 10 ∉ l

/-- The longest piece of a line that is read at once. -/
def lineMax : Nat := 510

def SendsLines (c : Client) (ws : List Wait) (lines : List (List UInt8)) : Prop :=
  ∃ ts, c.texts ws = some ts ∧ Sent lineMax lines ts

/-- The lines are C strings, none that fills its last piece has another text behind it, and the input
ends as often as there are pieces more than lines. -/
structure SentOnce (lines : List (List UInt8)) (atEnd : Nat) : Prop where
  noNul : ∀ l ∈ lines, 0 ∉ l
  quiet : Quiet lineMax lines
  ends : lines.length + atEnd = (lines.map (count lineMax)).sum

/-! ### One text -/

/-- The bytes in front of the newline or the terminator. -/
def lineText (mem : List UInt8) : List UInt8 := mem.takeWhile fun c => c ≠ 10 ∧ c ≠ 0

def Stops (mem : List UInt8) : Prop := ∃ c ∈ mem, c = 10 ∨ c = 0

section

variable {c c' : Client} {buf : CharArray maxMsgLen} {mem line piece rest : List UInt8} {d : UInt8}

theorem lineText_append (noNewline : 10 ∉ line) (stop : d = 10 ∨ d = 0) : lineText (line ++ d :: rest) = cstring line := by
  induction line with
  | nil =>
    have stops : ¬ (d ≠ 10 ∧ d ≠ 0) := by tauto
    rw [List.nil_append, lineText, List.takeWhile_cons_of_neg (by simpa using stops)]
    rfl
  | cons a line ih =>
    rw [List.mem_cons, not_or] at noNewline
    rw [List.cons_append, lineText]
    by_cases nul : a = 0
    · subst nul
      rw [List.takeWhile_cons_of_neg (by decide)]
      rfl
    · rw [List.takeWhile_cons_of_pos (by simp [nul, Ne.symm noNewline.1]), cstring_cons nul]
      exact congrArg _ (ih noNewline.2)

/-- A text in front of its stop. -/
theorem lineText_split (stops : Stops mem) :
    ∃ d rest, mem = lineText mem ++ d :: rest ∧ (d = 10 ∨ d = 0) ∧ 10 ∉ lineText mem ∧ 0 ∉ lineText mem := by
  have inside : ∀ a ∈ lineText mem, a ≠ 10 ∧ a ≠ 0 := fun a member =>
    of_decide_eq_true (List.mem_takeWhile_imp (p := fun c => decide (c ≠ 10 ∧ c ≠ 0)) member)
  have whole : lineText mem ++ mem.dropWhile (fun c => decide (c ≠ 10 ∧ c ≠ 0)) = mem := List.takeWhile_append_dropWhile
  cases left : mem.dropWhile (fun c => decide (c ≠ 10 ∧ c ≠ 0)) with
  | nil =>
    obtain ⟨a, member, stop⟩ := stops
    rw [left, List.append_nil] at whole
    have other := inside a (whole.symm ▸ member)
    tauto
  | cons d rest =>
    rw [left] at whole
    have head := List.head?_dropWhile_not (p := fun c => decide (c ≠ 10 ∧ c ≠ 0)) mem
    rw [left] at head
    have stop : d = 10 ∨ d = 0 := by
      by_contra other
      simp at head
      tauto
    exact ⟨d, rest, whole.symm, stop, fun newline => (inside 10 newline).1 rfl, fun nul => (inside 0 nul).2 rfl⟩

theorem strcspn_eq (stops : Stops mem) : strcspn mem = some (lineText mem).length := by
  obtain ⟨d, rest, whole, _⟩ := lineText_split stops
  have inside : (lineText mem).length < mem.length := by
    have lengths := congrArg List.length whole
    rw [List.length_append, List.length_cons] at lengths
    omega
  exact if_pos inside

theorem memcpy_cons {b : UInt8} : Bytes.memcpy (line ++ d :: rest) line.length [b] = line ++ b :: rest := by
  rw [Bytes.memcpy, List.length_singleton, List.take_left, ← List.drop_drop, List.drop_left, List.append_assoc]
  rfl

/-- What is in the buffer up to its stop is sent, and stays there. -/
theorem sendTyped_spec (stops : Stops buf.bytes) :
    ∃ msg buf', sendTyped buf = some (msg, buf') ∧ msg.text = lineText buf.bytes ∧
      lineText buf'.bytes = lineText buf.bytes ∧ Stops buf'.bytes := by
  obtain ⟨d, rest, whole, _, noNewline, noNul⟩ := lineText_split stops
  have size := buf.size
  have lengths := congrArg List.length whole
  rw [List.length_append, List.length_cons, size] at lengths
  obtain ⟨buf', copied, bytes⟩ := CharArray.memcpy_of_fits buf (lineText buf.bytes).length [0]
    (by rw [List.length_singleton]; omega)
  have shape : buf'.bytes = lineText buf.bytes ++ 0 :: rest :=
    calc buf'.bytes = Bytes.memcpy (lineText buf.bytes ++ d :: rest) (lineText buf.bytes).length [0] :=
          bytes.trans (congrArg (Bytes.memcpy · _ [0]) whole)
      _ = lineText buf.bytes ++ 0 :: rest := memcpy_cons
  have text : cstring buf'.bytes = lineText buf.bytes := by
    rw [shape, cstring_append_nul, cstring_eq_self noNul]
  have terminated : 0 ∈ buf'.bytes := by
    rw [shape]
    exact List.mem_append_right _ List.mem_cons_self
  have length : strlen buf'.bytes = some (lineText buf.bytes).length := by
    rw [strlen, if_pos terminated, text]
  obtain ⟨attribute0, made⟩ := makeAttribute_isSome .message (.ofNat ((lineText buf.bytes).length + 1)) buf'.bytes
    ((lineText buf.bytes).length + 1) (by change _ ≤ maxMsgLen; omega) (by rw [buf'.size]; omega)
  obtain ⟨_, _, _, _, payload⟩ := makeAttribute_spec made
  refine ⟨{ SbcpMsg.ofType .send with attribute0 := attribute0 }, buf', ?_, ?_, ?_, 0, terminated, Or.inr rfl⟩
  · simp only [sendTyped, strcspn_eq stops, copied, length, makeMsgSend, made, Option.bind_eq_bind, Option.bind_some,
      Option.pure_def]
  · change cstring attribute0.payload.bytes = _
    rw [payload, shape, List.append_cons, List.take_left' (by simp), List.append_assoc, List.singleton_append,
      cstring_append_nul, cstring_eq_self noNul]
  · rw [shape, lineText_append noNewline (Or.inr rfl), cstring_eq_self noNul]

/-! ### One read -/

/-- What was typed, as the pieces `fgets` takes one by one. -/
inductive Cuts : List UInt8 → List (List UInt8) → Prop
  | nil : Cuts [] []
  | full {piece rest ts} (size : piece.length = lineMax) (noNewline : 10 ∉ piece) (later : Cuts rest ts) :
      Cuts (piece ++ rest) (piece :: ts)
  | line {piece rest ts} (short : piece.length < lineMax) (noNewline : 10 ∉ piece) (later : Cuts rest ts) :
      Cuts (piece ++ 10 :: rest) (piece :: ts)

theorem Cuts.append {typed typed' : List UInt8} {ts ts' : List (List UInt8)} (cuts : Cuts typed ts)
    (cuts' : Cuts typed' ts') : Cuts (typed ++ typed') (ts ++ ts') := by
  induction cuts with
  | nil => exact cuts'
  | full size noNewline later ih =>
    rw [List.append_assoc]
    exact .full size noNewline ih
  | line short noNewline later ih =>
    rw [List.append_assoc]
    exact .line short noNewline ih

theorem cuts_line (line : List UInt8) (noNewline : 10 ∉ line) : Cuts (line ++ [10]) (blocks lineMax line) := by
  induction size : line.length using Nat.strongRecOn generalizing line with
  | _ n ih =>
    rcases Nat.lt_or_ge line.length lineMax with short | long
    · rw [blocks_short short]
      exact .line short noNewline .nil
    · rw [blocks_long (by decide) long]
      have later := ih (line.drop lineMax).length
        (by rw [List.length_drop, ← size]; exact Nat.sub_lt (Nat.lt_of_lt_of_le (by decide) long) (by decide))
        (line.drop lineMax) (fun member => noNewline (List.mem_of_mem_drop member)) rfl
      have whole : line ++ [10] = line.take lineMax ++ (line.drop lineMax ++ [10]) := by
        rw [← List.append_assoc, List.take_append_drop]
      rw [whole]
      exact .full (List.length_take_of_le long) (fun member => noNewline (List.mem_of_mem_take member)) later

theorem takeWhile_newline (noNewline : 10 ∉ piece) (rest : List UInt8) :
    (piece ++ rest).takeWhile (· ≠ 10) = piece ++ rest.takeWhile (· ≠ 10) ∧
      (piece ++ rest).dropWhile (· ≠ 10) = rest.dropWhile (· ≠ 10) := by
  have inside : ∀ a ∈ piece, decide (a ≠ 10) = true := fun a member =>
    decide_eq_true fun newline => noNewline (newline ▸ member)
  exact ⟨List.takeWhile_append_of_pos inside, List.dropWhile_append_of_pos inside⟩

theorem fgets_eq {typed : List UInt8} (nonempty : typed ≠ [])
    (first : (typed.takeWhile (· ≠ 10) ++ (typed.dropWhile (· ≠ 10)).take 1).take lineMax = piece)
    (shape : typed = piece ++ rest) : fgets buf (maxMsgLen - 1) typed = (buf.fill (piece ++ [0]), rest) := by
  simp only [fgets, if_neg nonempty]
  change (buf.fill (List.take lineMax _ ++ [0]), typed.drop (List.take lineMax _).length) = _
  rw [first, shape, List.drop_left]

/-- The next piece is read, and its newline. -/
theorem fgets_cuts (buf : CharArray maxMsgLen) {typed : List UInt8} {t : List UInt8} {ts : List (List UInt8)} (cuts : Cuts typed (t :: ts)) :
    ∃ buf' rest, fgets buf (maxMsgLen - 1) typed = (buf', rest) ∧ Cuts rest ts ∧ lineText buf'.bytes = cstring t ∧
      Stops buf'.bytes := by
  -- What was read is in the buffer with its terminator.
  have filled : ∀ piece : List UInt8, piece.length ≤ lineMax → (piece = t ∨ piece = t ++ [10]) → 10 ∉ t →
      lineText (buf.fill (piece ++ [0])).bytes = cstring t ∧ Stops (buf.fill (piece ++ [0])).bytes := by
    intro piece short shape noNewline
    have size : (piece ++ [0]).length ≤ maxMsgLen := by
      rw [List.length_append, List.length_singleton]
      exact (Nat.succ_le_succ short).trans (by decide)
    rw [CharArray.bytes_fill size]
    refine ⟨?_, 0, List.mem_append_left _ (List.mem_append_right _ List.mem_cons_self), Or.inr rfl⟩
    rcases shape with rfl | rfl
    · rw [List.append_assoc, List.singleton_append]
      exact lineText_append noNewline (Or.inr rfl)
    · rw [List.append_assoc, List.append_assoc, List.singleton_append]
      exact lineText_append noNewline (Or.inl rfl)
  cases cuts with
  | @full _ rest _ size noNewline later =>
    obtain ⟨whole, behind⟩ := takeWhile_newline noNewline rest
    obtain ⟨text, stops⟩ := filled t size.le (Or.inl rfl) noNewline
    have nonempty : t ++ rest ≠ [] := by
      intro empty
      rw [(List.append_eq_nil_iff.mp empty).1] at size
      cases size
    refine ⟨buf.fill (t ++ [0]), rest, fgets_eq nonempty ?_ rfl, later, text, stops⟩
    rw [whole, behind, List.append_assoc, List.take_left' size]
  | @line _ rest _ short noNewline later =>
    obtain ⟨whole, behind⟩ := takeWhile_newline noNewline (10 :: rest)
    obtain ⟨text, stops⟩ := filled (t ++ [10])
      (by rw [List.length_append, List.length_singleton]; exact short) (Or.inr rfl) noNewline
    have nonempty : t ++ 10 :: rest ≠ [] := List.append_ne_nil_of_right_ne_nil _ (List.cons_ne_nil _ _)
    refine ⟨buf.fill (t ++ [10] ++ [0]), rest, fgets_eq nonempty ?_ (List.append_cons t 10 rest), later, text, stops⟩
    rw [whole, behind, List.takeWhile_cons_of_neg (by simp), List.dropWhile_cons_of_neg (by simp), List.append_nil,
      List.take_succ_cons, List.take_zero]
    exact List.take_of_length_le (by rw [List.length_append, List.length_singleton]; exact short)

/-! ### The keyboard alone -/

/-- The texts for what comes to the ready keyboard, the socket left aside. -/
def speak (buf : CharArray maxMsgLen) (stdin : List UInt8) : List (List UInt8) → Option (List (List UInt8))
  | [] => some []
  | new :: news => do
    let (buf, stdin) := fgets buf (maxMsgLen - 1) (stdin ++ new)
    let (msg, buf) ← sendTyped buf
    return msg.text :: (← speak buf stdin news)

theorem socket_open (c : Client) (behind : List UInt8) {received : Option Received} (connected : received ≠ some (.data [])) :
    ∃ printed c', c.socket behind received = some (printed, c') ∧ c'.sendBuf = c.sendBuf ∧ c'.stdin = c.stdin := by
  cases received with
  | none => exact ⟨[], c, rfl, rfl, rfl⟩
  | some received =>
    have open' : received.numbytes ≠ 0 := by
      cases received with
      | data bytes =>
        intro ended
        have empty : bytes = [] := List.eq_nil_of_length_eq_zero (Int.ofNat_eq_zero.mp ended)
        exact connected (by rw [empty])
      | error => decide
    exact ⟨_, { c with recvBuf := readline c.recvBuf received }, if_neg open', rfl, rfl⟩

theorem head_kept : c.head.2.sendBuf = c.sendBuf ∧ c.head.2.stdin = c.stdin := by
  unfold Client.head
  split <;> exact ⟨rfl, rfl⟩

/-- The texts of a run are those of the keyboard. -/
theorem texts_eq {ws : List Wait} (connected : ∀ w ∈ ws, w.received ≠ some (.data [])) :
    c.texts ws = speak c.sendBuf c.stdin (ws.filterMap Wait.typed) := by
  induction ws generalizing c with
  | nil => rfl
  | cons w ws ih =>
    have later := fun c' : Client => ih (c := c') fun v member => connected v (List.mem_cons_of_mem _ member)
    obtain ⟨sendBuf, stdin⟩ := head_kept (c := c)
    cases typed : w.typed with
    | none =>
      obtain ⟨printed, c', answered, sendBuf', stdin'⟩ :=
        socket_open (c.head.2.selected w.tv) w.behind (connected w List.mem_cons_self)
      have happened : c.turn w = some { idle := c.head.1, sent := [], printed := printed, next := some c' } := by
        simp only [Client.turn, typed, Client.keyboard, Option.bind_eq_bind, Option.bind_some, answered, Option.pure_def]
      have same : speak c'.sendBuf c'.stdin (ws.filterMap Wait.typed) = speak c.sendBuf c.stdin (ws.filterMap Wait.typed) := by
        rw [sendBuf', stdin', ← sendBuf, ← stdin]
        rfl
      rw [List.filterMap_cons_none typed, ← same, ← later c']
      simp only [Client.texts, happened, Option.bind_eq_bind, Option.bind_some, List.map_nil, List.nil_append,
        Option.pure_def, Option.bind_fun_some]
    | some new =>
      rw [List.filterMap_cons_some typed, ← sendBuf, ← stdin, speak]
      cases read : fgets c.head.2.sendBuf (maxMsgLen - 1) (c.head.2.stdin ++ new) with
      | mk buf rest =>
        cases sends : sendTyped buf with
        | none =>
          have fails : (c.head.2.selected w.tv).keyboard w.typed = none := by
            simp only [typed, Client.keyboard, Client.selected, read, sends, Option.bind_eq_bind, Option.bind_none]
          simp only [Client.texts, Client.turn, fails, sends, Option.bind_eq_bind, Option.bind_none]
        | some x =>
          obtain ⟨msg, buf'⟩ := x
          let c₁ : Client := { c.head.2.selected w.tv with
            idleCumulation := 0, isIdle := false, sendBuf := buf', stdin := rest }
          have goes : (c.head.2.selected w.tv).keyboard w.typed = some ([msg], c₁) := by
            simp only [typed, Client.keyboard, Client.selected, read, sends, Option.bind_eq_bind, Option.bind_some,
              Option.pure_def, c₁]
          obtain ⟨printed, c', answered, sendBuf', stdin'⟩ :=
            socket_open c₁ w.behind (connected w List.mem_cons_self)
          have happened : c.turn w = some { idle := c.head.1, sent := [msg], printed := printed, next := some c' } := by
            simp only [Client.turn, goes, Option.bind_eq_bind, Option.bind_some, answered, Option.pure_def]
          have same : speak c'.sendBuf c'.stdin (ws.filterMap Wait.typed) = speak buf' rest (ws.filterMap Wait.typed) := by
            rw [sendBuf', stdin']
          simp only [Client.texts, happened, sends, Option.bind_eq_bind, Option.bind_some, List.map_cons, List.map_nil,
            List.singleton_append, Option.pure_def, later c', same]

section

variable {stdin : List UInt8} {news lines us ts : List (List UInt8)} {atEnd : Nat}

theorem speak_length (speaks : speak buf stdin news = some us) : us.length = news.length := by
  induction news generalizing buf stdin us with
  | nil =>
    cases speaks
    rfl
  | cons new news ih =>
    obtain ⟨⟨msg, buf'⟩, _, speaks⟩ := Option.bind_eq_some_iff.mp speaks
    obtain ⟨us, later, speaks⟩ := Option.bind_eq_some_iff.mp speaks
    cases speaks
    rw [List.length_cons, List.length_cons, ih later]

/-- A text is a C string. -/
theorem speak_noNul (speaks : speak buf stdin news = some us) : ∀ u ∈ us, 0 ∉ u := by
  induction news generalizing buf stdin us with
  | nil =>
    cases speaks
    exact nofun
  | cons new news ih =>
    obtain ⟨⟨msg, buf'⟩, _, speaks⟩ := Option.bind_eq_some_iff.mp speaks
    obtain ⟨us, later, speaks⟩ := Option.bind_eq_some_iff.mp speaks
    cases speaks
    intro u member
    rcases List.mem_cons.mp member with rfl | behind
    · exact not_mem_cstring _
    · exact ih later u behind

theorem speak_cons (buf : CharArray maxMsgLen) (news : List (List UInt8)) {new t : List UInt8} (cuts : Cuts (stdin ++ new) (t :: ts)) :
    ∃ buf' rest, Stops buf'.bytes ∧ Cuts rest ts ∧
      speak buf stdin (new :: news) = (speak buf' rest news).map (cstring t :: ·) := by
  obtain ⟨buf₁, rest, read, later, text, stops⟩ := fgets_cuts buf cuts
  obtain ⟨msg, buf₂, sends, same, kept, stops₂⟩ := sendTyped_spec stops
  refine ⟨buf₂, rest, stops₂, later, ?_⟩
  simp only [speak, read, sends, Option.bind_eq_bind, Option.bind_some, same, text, Option.pure_def, Option.map_eq_bind]
  rfl

/-- At the end of the input the text in the buffer is sent again. -/
theorem speak_again (stops : Stops buf.bytes) :
    speak buf [] (List.replicate atEnd []) = some (List.replicate atEnd (lineText buf.bytes)) := by
  induction atEnd generalizing buf with
  | zero => rfl
  | succ n ih =>
    obtain ⟨msg, buf', sends, text, kept, stops'⟩ := sendTyped_spec stops
    have read : fgets buf (maxMsgLen - 1) ([] ++ []) = (buf, []) := rfl
    rw [List.replicate_succ, speak]
    simp only [read, sends, Option.bind_eq_bind, Option.bind_some, ih stops', kept, text, Option.pure_def]
    rfl

theorem prefix_repeat {x t : List UInt8} {n : Nat} (h : us <+: ts ++ List.replicate n x) :
    t :: us <+: t :: (ts ++ List.replicate (n + 1) x) := by
  rw [List.cons_prefix_cons, List.replicate_succ', ← List.append_assoc]
  exact ⟨rfl, h.trans (List.prefix_append _ _)⟩

/-- At the end of the input the pieces that are left come first. -/
theorem speak_end (stops : Stops buf.bytes) (cuts : Cuts stdin ts) :
    ∃ us x, speak buf stdin (List.replicate atEnd []) = some us ∧ us <+: ts.map cstring ++ List.replicate atEnd x := by
  induction atEnd generalizing buf stdin ts with
  | zero => exact ⟨[], [], rfl, List.nil_prefix⟩
  | succ n ih =>
    cases ts with
    | nil =>
      cases cuts
      exact ⟨_, lineText buf.bytes, speak_again stops, List.prefix_rfl⟩
    | cons t ts =>
      obtain ⟨buf', rest, stops', later, step⟩ :=
        speak_cons buf (List.replicate n []) ((List.append_nil stdin).symm ▸ cuts)
      obtain ⟨us, x, speaks, before⟩ := ih stops' later
      refine ⟨cstring t :: us, x, ?_, prefix_repeat before⟩
      rw [List.replicate_succ, step, speaks]
      rfl

/-- The texts are the pieces of the lines, one for each time the keyboard is ready. -/
theorem speak_lines (buf : CharArray maxMsgLen) (atEnd : Nat) (ready : lines = [] → Stops buf.bytes) (cuts : Cuts stdin ts) (noNewline : ∀ l ∈ lines, 10 ∉ l) :
    ∃ us x, speak buf stdin (lines.map (· ++ [10]) ++ List.replicate atEnd []) = some us ∧
      us <+: (ts ++ lines.flatMap (blocks lineMax)).map cstring ++ List.replicate atEnd x := by
  induction lines generalizing buf stdin ts with
  | nil =>
    rw [List.flatMap_nil, List.append_nil]
    exact speak_end (ready rfl) cuts
  | cons l lines ih =>
    have more := cuts.append (cuts_line l (noNewline l List.mem_cons_self))
    obtain ⟨t, ts', shape⟩ : ∃ t ts', ts ++ blocks lineMax l = t :: ts' := by
      apply List.exists_cons_of_ne_nil
      rw [blocks]
      simp
    rw [shape] at more
    obtain ⟨buf', rest, stops, later, step⟩ := speak_cons buf (lines.map (· ++ [10]) ++ List.replicate atEnd []) more
    obtain ⟨us, x, speaks, before⟩ :=
      ih buf' (fun _ => stops) later fun l' member => noNewline l' (List.mem_cons_of_mem _ member)
    refine ⟨cstring t :: us, x, ?_, ?_⟩
    · rw [List.map_cons, List.cons_append, step, speaks]
      rfl
    · rw [List.flatMap_cons, ← List.append_assoc, shape, List.cons_append, List.map_cons, List.cons_append,
        List.cons_prefix_cons]
      exact ⟨rfl, before⟩

end

end

/-- The texts are the lines, each once, exactly when the input ends as often as there are pieces more than
lines, and no line that fills its last piece has another text behind it. -/
theorem typed_lines_iff {lines : List (List UInt8)} {atEnd : Nat} {ws : List Wait} (sendBuf : CharArray maxMsgLen)
    (recvBuf : CharArray maxDataSize) (types : Types lines atEnd ws) :
    SendsLines (.start sendBuf recvBuf) ws lines ↔ SentOnce lines atEnd := by
  have texts : (Client.start sendBuf recvBuf).texts ws = speak sendBuf [] (lines.map (· ++ [10]) ++ List.replicate atEnd []) := by
    rw [texts_eq types.connected, types.typed]
    rfl
  have sizes : ∀ us, (Client.start sendBuf recvBuf).texts ws = some us → us.length = lines.length + atEnd := by
    intro us speaks
    rw [texts] at speaks
    rw [speak_length speaks, List.length_append, List.length_map, List.length_replicate]
  by_cases nul : ∃ l ∈ lines, 0 ∈ l
  · -- A text has no NUL.
    obtain ⟨l, member, inside⟩ := nul
    refine iff_of_false ?_ fun once => once.noNul l member inside
    rintro ⟨us, speaks, sent⟩
    rw [texts] at speaks
    have found : 0 ∈ us.flatten := by
      rw [sent.flatten]
      exact List.mem_flatten.mpr ⟨l, member, inside⟩
    obtain ⟨u, text, zero⟩ := List.mem_flatten.mp found
    exact speak_noNul speaks u text zero
  have noNul : ∀ l ∈ lines, 0 ∉ l := fun l member inside => nul ⟨l, member, inside⟩
  by_cases nonempty : lines = []
  · subst nonempty
    constructor
    · rintro ⟨us, speaks, sent⟩
      have size := sizes us speaks
      rw [sent_nil.mp sent] at size
      exact ⟨nofun, trivial, size.symm⟩
    · intro once
      have never : atEnd = 0 := (Nat.zero_add atEnd).symm.trans once.ends
      subst never
      exact ⟨[], texts, sent_nil.mpr rfl⟩
  · obtain ⟨us, x, speaks, before⟩ := speak_lines sendBuf atEnd (fun empty => absurd empty nonempty)
      .nil types.lines
    have whole : ([] ++ lines.flatMap (blocks lineMax)).map cstring = lines.flatMap (blocks lineMax) := by
      rw [List.nil_append]
      refine (List.map_congr_left fun t member => ?_).trans (List.map_id _)
      obtain ⟨l, inside, block⟩ := List.mem_flatMap.mp member
      obtain ⟨k, _, rfl⟩ := List.mem_map.mp block
      exact cstring_eq_self fun zero => noNul l inside (List.mem_of_mem_drop (List.mem_of_mem_take zero))
    rw [whole] at before
    have result := texts.trans speaks
    constructor
    · rintro ⟨us', speaks', sent⟩
      obtain rfl := Option.some.inj (speaks'.symm.trans result)
      obtain ⟨quiet, size⟩ := (sent_iff (by decide) before).mp sent
      exact ⟨noNul, quiet, (sizes us' speaks').symm.trans size⟩
    · intro once
      exact ⟨us, result, (sent_iff (by decide) before).mpr ⟨once.quiet, (sizes us result).trans once.ends⟩⟩

/-- Some bytes are typed, and the server is silent. -/
def typedWait (new : List UInt8) : Wait :=
  { tv := { sec := 1, usec := 0 }, typed := some new, received := none, behind := [] }

theorem typed_lines_two : SendsLines (.start (.zero maxMsgLen) (.zero maxDataSize))
    [typedWait [104, 105, 10], typedWait [104, 111, 10]] [[104, 105], [104, 111]] := by
  have types : Types [[104, 105], [104, 111]] 0 [typedWait [104, 105, 10], typedWait [104, 111, 10]] := by
    refine ⟨rfl, fun w member => ?_, by decide⟩
    obtain rfl | rfl : w = _ ∨ w = _ := by simpa using member
    all_goals exact nofun
  refine (typed_lines_iff (.zero maxMsgLen) (.zero maxDataSize) types).mpr ⟨by decide, ?_, by decide⟩
  exact ⟨fun fills => absurd fills (by decide), nofun, trivial⟩

/-- The line is sent again when the input has ended. -/
theorem typed_lines_twice :
    Types [[104, 105]] 1 [typedWait [104, 105, 10], typedWait []] ∧
      ¬ SendsLines (.start (.zero maxMsgLen) (.zero maxDataSize)) [typedWait [104, 105, 10], typedWait []] [[104, 105]] := by
  have connected : ∀ w ∈ [typedWait [104, 105, 10], typedWait []], w.received ≠ some (.data []) := by
    intro w member
    rcases List.mem_cons.mp member with rfl | last
    · exact nofun
    · obtain rfl := List.mem_singleton.mp last
      exact nofun
  refine ⟨⟨rfl, connected, by decide⟩, ?_⟩
  rintro ⟨us, speaks, sent⟩
  rw [texts_eq connected] at speaks
  have two : us.length = 2 := speak_length speaks
  obtain ⟨group, more, cut, rest, rfl⟩ := sent_cons.mp sent
  rw [sent_nil.mp rest, List.append_nil] at two
  rcases cut with rfl | ⟨long, _⟩
  · cases two
  · exact absurd long (by decide)

end NetProjects.Chat
