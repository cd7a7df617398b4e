import NetProjects.Chat.Routing
import NetProjects.Chat.Runs
import NetProjects.Chat.Client

/-!
# Chat text from one client to another

The messages the server makes, read by a client that receives each of them whole.
-/

namespace NetProjects.Chat
open Bytes Linked

/-- A message with a header of its type, which a client shows as `printed`. The server writes the
whole buffer the message stands in. -/
structure Tells (msg : SbcpMsg) (t : HeaderType) (printed : Printed) : Prop where
  header : parseVtl msg.vrsnTypeLen = { version := 3, type := t.code, len := .ofNat msgSize }
  shown : ∀ (recvBuf : CharArray maxDataSize) (rest behind : List UInt8), rest.length = maxDataSize - 1 - msgSize →
    showMessage (castMsg (readline recvBuf (.data (msg.bytes ++ rest)))) behind = printed

section

variable {s : Server} {r : Round} {before after : List Nat} {a : Nat} {m : SbcpMsg} {text rest mem : List UInt8}
  {count : Nat} {t : HeaderType} {printed : Printed} {filled : SbcpAttribute} {type : AttributeType}

theorem parseVtl_header (t : HeaderType) :
    parseVtl (header t) = { version := 3, type := t.code, len := .ofNat msgSize } := by
  cases t <;> rfl

theorem castMsg_readline {recvBuf : CharArray maxDataSize} (size : rest.length = maxDataSize - 1 - msgSize) :
    castMsg (readline recvBuf (.data (m.bytes ++ rest))) = m := by
  have length : (m.bytes ++ rest).length = maxDataSize - 1 := by
    rw [List.length_append, m.length_bytes, size]
    rfl
  rw [readline, List.take_of_length_le length.le]
  apply castMsg_fill
  rw [length]
  decide

theorem tells_of_shown (head : m.vrsnTypeLen = header t) (shown : ∀ behind, showMessage m behind = printed) :
    Tells m t printed := by
  refine ⟨?_, fun recvBuf rest behind size => ?_⟩
  · rw [head, parseVtl_header]
  · rw [castMsg_readline size, shown]

/-- A text shorter than the payload is read back from it, whatever stands behind the payload. -/
theorem SbcpAttribute.Holds.cstring_eq (holds : filled.Holds type text) (short : text.length < 512)
    (noNul : 0 ∉ text) (behind : List UInt8) : cstring (filled.payload.bytes ++ behind) = text := by
  obtain ⟨n, zeros⟩ : ∃ n, 512 - text.length = n + 1 := ⟨512 - text.length - 1, by omega⟩
  rw [holds.2, zeros, List.replicate_succ, List.append_assoc, List.cons_append, cstring_append_nul, cstring_eq_self noNul]

theorem payload0_eq (holds : m.attribute0.Holds type text) (short : text.length < 512) (noNul : 0 ∉ text)
    (behind : List UInt8) : cstring (payload0 m behind) = text := by
  rw [payload0, List.append_assoc]
  exact holds.cstring_eq short noNul _

/-! ### The names -/

/-- A message that carries a name tells it, in the words for its type. -/
theorem makeMsgName_tells (mem : List UInt8) (terminated : 0 ∈ mem) (short : mem.length ≤ 511)
    (all : count = (cstring mem).length ∨ count = (cstring mem).length + 1)
    (words : t = .offline ∧ printed.format = "%s has left the chat.\n" ∨
      t = .online ∧ printed.format = "%s has joined the chat.\n" ∨ t = .idle ∧ printed.format = "%s is now idle.\n")
    (args : printed.args = [cstring mem]) : ∃ m, makeMsgName t mem count = some m ∧ Tells m t printed := by
  obtain ⟨filled, made, holds⟩ := makeAttribute_cstring .username (.ofNat count) terminated (by omega) all
  let m : SbcpMsg := { SbcpMsg.ofType t with attribute0 := filled }
  have makes : makeMsgName t mem count = some m := by
    simp only [makeMsgName, made, Option.bind_eq_bind, Option.bind_some, Option.pure_def, m]
  have inside := length_cstring_lt terminated
  have name : ∀ behind, cstring (payload0 m behind) = cstring mem :=
    payload0_eq (m := m) holds (by omega) (not_mem_cstring mem)
  have username : m.attribute0.sbcpAttributeType = AttributeType.username.code := holds.1
  have headed : getMsgType m = t.code := getMsgType_ofType t
  refine ⟨m, makes, tells_of_shown rfl fun behind => ?_⟩
  obtain ⟨format, given⟩ := printed
  have args : given = [cstring mem] := args
  subst args
  rcases words with ⟨rfl, rfl⟩ | ⟨rfl, rfl⟩ | ⟨rfl, rfl⟩
  · rw [showMessage, headed, if_neg (by decide), if_pos rfl, parseMsgOffline, parseAttribute, if_pos username, name]
  · rw [showMessage, headed, if_neg (by decide), if_neg (by decide), if_pos rfl, parseMsgOnline, parseAttribute,
      if_pos username, name]
  · rw [showMessage, headed, if_neg (by decide), if_neg (by decide), if_neg (by decide), if_pos rfl, name]

/-! ### The text -/

theorem makeMsgSend_text (rest : List UInt8) (short : text.length ≤ 510) :
    ∃ send, makeMsgSend (text ++ 0 :: rest) (text.length + 1) = some send ∧ getMsgType send = HeaderType.send.code ∧
      send.attribute0.payload.bytes = text ++ List.replicate (512 - text.length) 0 := by
  obtain ⟨filled, made⟩ := makeAttribute_isSome .message (.ofNat (text.length + 1)) (text ++ 0 :: rest)
    (text.length + 1) (by omega) (by rw [List.length_append, List.length_cons]; omega)
  obtain ⟨_, _, _, _, payload⟩ := makeAttribute_spec made
  refine ⟨{ SbcpMsg.ofType .send with attribute0 := filled }, ?_, getMsgType_ofType .send, ?_⟩
  · simp only [makeMsgSend, made, Option.bind_eq_bind, Option.bind_some, Option.pure_def]
  · rw [payload, List.append_cons, List.take_left' (by simp), List.append_assoc, List.append_cancel_left_eq,
      show 512 - text.length = 512 - (text.length + 1) + 1 by omega, List.replicate_succ, List.singleton_append]

/-- The text is shown with the name, when 512 bytes of the one and the whole of the other are copied. -/
theorem makeMsgFwd_tells (payload : CharArray 512) (padded : payload.bytes = text ++ List.replicate (512 - text.length) 0)
    (short : text.length ≤ 510) (noNul : 0 ∉ text) (terminated : 0 ∈ mem) (fits : mem.length ≤ 511) :
    ∃ fwd, makeMsgFwd payload.bytes 512 mem ((cstring mem).length + 1) = some fwd ∧
      Tells fwd .fwd { format := "%s: %s\n", args := [cstring mem, text] } := by
  obtain ⟨message, madeMessage⟩ := makeAttribute_isSome .message (.ofNat 512) payload.bytes 512 le_rfl payload.size.ge
  obtain ⟨username, madeName, holdsName⟩ := makeAttribute_cstring .username (.ofNat ((cstring mem).length + 1)) terminated
    (by omega) (Or.inr rfl)
  obtain ⟨typed, _, _, _, copied⟩ := makeAttribute_spec madeMessage
  have holds : message.Holds .message text := by
    refine ⟨typed, ?_⟩
    rw [copied, List.take_of_length_le payload.size.le, Nat.sub_self, List.replicate_zero, List.append_nil, padded]
  let fwd : SbcpMsg := { SbcpMsg.ofType .fwd with attribute0 := message, attribute1 := username }
  refine ⟨fwd, ?_, tells_of_shown rfl fun behind => ?_⟩
  · simp only [makeMsgFwd, madeMessage, madeName, Option.bind_eq_bind, Option.bind_some, Option.pure_def, fwd]
  · have inside := length_cstring_lt terminated
    have shownText : cstring (payload0 fwd behind) = text := payload0_eq (m := fwd) holds (by omega) noNul behind
    have shownName : cstring (payload1 fwd behind) = cstring mem :=
      holdsName.cstring_eq (by omega) (not_mem_cstring mem) behind
    have headed : getMsgType fwd = HeaderType.fwd.code := getMsgType_ofType .fwd
    rw [showMessage, if_pos headed, parseMsgFwd, if_pos ⟨typed, holdsName.1⟩, shownText, shownName]

theorem route_send (maxClients : Int) (r : Round) (l : Locals) (listed : Listed s (before ++ a :: after)) (short : text.length ≤ 510) (noNul : 0 ∉ text)
    (send : getMsgType m = HeaderType.send.code)
    (padded : m.attribute0.payload.bytes = text ++ List.replicate (512 - text.length) 0) :
    ∃ fwd, turn maxClients r s l a (.data m.bytes) =
        some (s, l.read (.data m.bytes), (before ++ after).map (Action.write · fwd)) ∧
      Tells fwd .fwd { format := "%s: %s\n", args := [nameOf s r a, text] } := by
  obtain ⟨fwd, made, tells⟩ := makeMsgFwd_tells m.attribute0.payload padded short noNul
    (usernameView_terminated (s := s) (r := r) (a := a)) (length_usernameView_le.trans (by decide))
  refine ⟨fwd, ?_, tells⟩
  rw [turn_of_open _ _ _ _ _ (data_open m), routeMessage, castMsg_data]
  simp only [send, parseMsgSend, made, Option.bind_eq_bind, Option.bind_some, Option.pure_def,
    msgBroadcast_others listed]
  rfl

/-- A name with its end in the array is read from the array alone. -/
theorem nameOf_terminated (terminated : 0 ∈ (s.nodes.cell a).username.bytes) :
    nameOf s r a = cstring (s.nodes.cell a).username.bytes := cstring_append terminated

end

/-- A text of one client is shown by every other one under the name stored for the first, and so are
the messages about that name. -/
theorem chat_text {s : Server} {before after : List Nat} {a : Nat} {text : List UInt8} (maxClients : Int) (r : Round)
    (l : Locals) (rest : List UInt8) (listed : Listed s (before ++ a :: after))
    (terminated : 0 ∈ (s.nodes.cell a).username.bytes) (short : text.length ≤ 510) (noNul : 0 ∉ text) :
    let username := (s.nodes.cell a).username
    let name := cstring username.bytes
    (∃ send fwd, makeMsgSend (text ++ 0 :: rest) (text.length + 1) = some send ∧
      turn maxClients r s l a (.data send.bytes) =
        some (s, l.read (.data send.bytes), (before ++ after).map (Action.write · fwd)) ∧
      Tells fwd .fwd { format := "%s: %s\n", args := [name, text] }) ∧
    (∃ offline, makeMsgOffline (usernameView s r a) ((cstring (usernameView s r a)).length + 1) = some offline ∧
      Tells offline .offline { format := "%s has left the chat.\n", args := [name] }) ∧
    (∃ online, makeMsgOnline (newNameView r username) ((cstring (newNameView r username)).length + 1) = some online ∧
      Tells online .online { format := "%s has joined the chat.\n", args := [name] }) ∧
    ∃ idle, makeMsgIdleS (usernameView s r a) (cstring (usernameView s r a)).length = some idle ∧
      Tells idle .idle { format := "%s is now idle.\n", args := [name] } := by
  intro username name
  have stored : cstring (usernameView s r a) = name := nameOf_terminated terminated
  have given : cstring (newNameView r username) = name := cstring_append terminated
  have fits : (usernameView s r a).length ≤ 511 := length_usernameView_le.trans (by decide)
  obtain ⟨send, made, type, padded⟩ := makeMsgSend_text rest short
  obtain ⟨fwd, routed, tells⟩ := route_send maxClients r l listed short noNul type padded
  rw [nameOf, stored] at tells
  refine ⟨⟨send, fwd, made, routed, tells⟩, ?_, ?_, ?_⟩
  · exact makeMsgName_tells _ usernameView_terminated fits (Or.inr rfl) (.inl ⟨rfl, rfl⟩) (by rw [stored])
  · exact makeMsgName_tells _ (newNameView_terminated r username) length_newNameView_le (Or.inr rfl)
      (.inr (.inl ⟨rfl, rfl⟩)) (by rw [given])
  · exact makeMsgName_tells _ usernameView_terminated fits (Or.inl rfl) (.inr (.inr ⟨rfl, rfl⟩)) (by rw [stored])

/-- One client named "A" says "hi" to another one. -/
theorem chat_text_hi :
    ∃ s send fwd, makeMsgSend ([104, 105] ++ 0 :: [7]) 3 = some send ∧
      turn 10 .quiet s Round.quiet.locals 1 (.data send.bytes) =
        some (s, Round.quiet.locals.read (.data send.bytes), [.write 2 fwd]) ∧
      Tells fwd .fwd { format := "%s: %s\n", args := [[65], [104, 105]] } := by
  obtain ⟨s₁, first, alone, _⟩ :=
    appendNode_spec (start_listed 3 (.zero 16)) 4 ((CharArray.zero 16).fill [65]) nofun
  obtain rfl := Option.some.inj first
  obtain ⟨s₂, second, both, _⟩ := appendNode_spec alone 5 (.zero 16) (by decide)
  obtain rfl := Option.some.inj second
  have room : Listed _ ([] ++ 1 :: [2]) := both
  have short : ([104, 105] : List UInt8).length ≤ 510 := by decide
  have noNul : (0 : UInt8) ∉ [104, 105] := by decide
  have told := chat_text 10 .quiet Round.quiet.locals [7] room (by decide) short noNul
  obtain ⟨⟨send, fwd, made, routed, tells⟩, _⟩ := told
  refine ⟨_, send, fwd, made, routed, ?_⟩
  exact tells

end NetProjects.Chat
