import NetProjects.Chat.Message
import NetProjects.Library.Framing

/-!
# Messages over TCP

A side of a chat connection writes messages of one size, and the other side takes what each `recv`
returns for one message. TCP may cut the stream anywhere.
-/

namespace NetProjects.Chat
open Bytes Framing

inductive Side where
  | client | server
  deriving DecidableEq, Repr

/-- The bytes a side writes for each message: the struct, or the buffer but for its last byte. -/
def Side.writeSize : Side → Nat
  | client => msgSize
  | server => maxDataSize - 1

/-- The messages of the client: its name is copied as `sizeof(char *)` bytes, a text is a line of at
most 510 characters and its NUL. -/
inductive MadeByClient : SbcpMsg → Prop where
  | join {name m} (made : makeMsgJoin name 8 = some m) : MadeByClient m
  | send {text rest m} (short : text.length ≤ 510) (made : makeMsgSend (text ++ 0 :: rest) (text.length + 1) = some m) :
      MadeByClient m
  | idle : MadeByClient makeMsgIdleC

def Side.Makes : Side → SbcpMsg → Prop
  | client => MadeByClient
  | server => fun _ => True

structure Write (side : Side) where
  msg : SbcpMsg
  /-- What stands behind the message in the buffer. -/
  rest : List UInt8
  made : side.Makes msg
  size : rest.length = side.writeSize - msgSize

def Write.bytes {side : Side} (w : Write side) : List UInt8 := w.msg.bytes ++ w.rest

/-- Each `recv` returns some of the bytes to come, at least one and at most `maxDataSize - 1`. -/
structure Delivery (stream : List UInt8) (pieces : List (List UInt8)) : Prop where
  stream : pieces.flatten = stream
  sizes : ∀ p ∈ pieces, 1 ≤ p.length ∧ p.length ≤ maxDataSize - 1

/-- The messages a receiver takes from its buffer, `buf i` being what it held before `recv` number `i`. -/
def dispatched (buf : Nat → CharArray maxDataSize) (pieces : List (List UInt8)) : List SbcpMsg :=
  pieces.mapIdx fun i piece => castMsg ((buf i).fill piece)

section

variable {side : Side} {m : SbcpMsg} {a : SbcpAttribute} {text piece : List UInt8} {pieces : List (List UInt8)}
  {writes : List (Write side)} {buf : Nat → CharArray maxDataSize} {i : Nat}

theorem Write.length_bytes (w : Write side) : w.bytes.length = side.writeSize := by
  rw [Write.bytes, List.length_append, SbcpMsg.length_bytes, w.size]
  cases side <;> rfl

theorem marked_of_text {t : HeaderType} (text : List UInt8) (short : text.length ≤ 510)
    (payload : a.payload.bytes = text ++ List.replicate (512 - text.length) 0) :
    Marked 12 518 msgSize ({ SbcpMsg.ofType t with attribute0 := a } : SbcpMsg).bytes := by
  let m : SbcpMsg := { SbcpMsg.ofType t with attribute0 := a }
  let front := storeLE32 (header t) ++ storeLE a.sbcpAttributeType ++ storeLE a.len ++
    (text ++ List.replicate (510 - text.length) 0)
  have size : front.length = 518 := by
    simp only [front, List.length_append, List.length_replicate, storeLE32, storeLE, List.length_cons, List.length_nil]
    omega
  have zeros : List.replicate (512 - text.length) (0 : UInt8) =
      List.replicate (510 - text.length) 0 ++ List.replicate 2 0 := by
    rw [← List.replicate_add]
    congr 1
    omega
  have shape : m.bytes = front ++ List.replicate 518 0 := by
    change storeLE32 (header t) ++ (storeLE a.sbcpAttributeType ++ storeLE a.len ++ a.payload.bytes) ++
      SbcpAttribute.zero.bytes = _
    rw [payload, zeros, SbcpAttribute.bytes_zero, show 518 = 2 + 516 from rfl, List.replicate_add]
    simp only [front, List.append_assoc]
  refine ⟨m.length_bytes, ?_, fun j beyond => ?_⟩
  · change (storeLE32 (header t) ++ a.bytes ++ SbcpAttribute.zero.bytes)[0]? = _
    rw [List.append_assoc, List.getElem?_append_left (Nat.zero_lt_succ 3)]
    cases t <;> decide
  · change m.bytes[j]? ≠ _
    rw [shape, List.getElem?_append_right (by omega), List.getElem?_replicate]
    split <;> decide

theorem MadeByClient.marked (made : MadeByClient m) : Marked 12 518 msgSize m.bytes := by
  cases made with
  | @join name m made =>
    obtain ⟨a, filled, made⟩ := Option.bind_eq_some_iff.mp made
    obtain rfl := Option.some.inj made
    obtain ⟨_, _, _, inside, payload⟩ := makeAttribute_spec filled
    have size : (name.take 8).length = 8 := List.length_take_of_le inside
    refine marked_of_text (name.take 8) (by omega) ?_
    rw [payload, size]
  | @send text rest m short made =>
    obtain ⟨a, filled, made⟩ := Option.bind_eq_some_iff.mp made
    obtain rfl := Option.some.inj made
    obtain ⟨_, _, _, _, payload⟩ := makeAttribute_spec filled
    refine marked_of_text text short ?_
    -- The NUL of the text is the first of the zeros.
    rw [payload, List.append_cons, List.take_left' (by simp), List.append_assoc]
    congr 1
    rw [show 512 - text.length = 512 - (text.length + 1) + 1 by omega, List.replicate_succ]
    rfl
  | idle => exact marked_of_text [] (by decide) rfl

theorem length_dispatched (buf : Nat → CharArray maxDataSize) (pieces : List (List UInt8)) :
    (dispatched buf pieces).length = pieces.length := List.length_mapIdx

theorem getElem?_dispatched (buf : Nat → CharArray maxDataSize) (at_i : pieces[i]? = some piece) :
    (dispatched buf pieces)[i]? = some (castMsg ((buf i).fill piece)) := by
  rw [dispatched, List.getElem?_mapIdx, at_i]
  rfl

theorem flatMap_bytes (writes : List (Write side)) : writes.flatMap Write.bytes = (writes.map Write.bytes).flatten :=
  List.flatMap_def

theorem uniform_writes (writes : List (Write side)) : ∀ u ∈ writes.map Write.bytes, u.length = side.writeSize := by
  intro u member
  obtain ⟨w, _, rfl⟩ := List.mem_map.mp member
  exact w.length_bytes

/-- What is dispatched as the message agrees with the piece received, as far as both go. -/
theorem getElem?_castMsg_fill (buf : CharArray maxDataSize) (fits : piece.length ≤ maxDataSize) {j : Nat}
    (inside : j < piece.length) (lower : j < msgSize) : (castMsg (buf.fill piece)).bytes[j]? = piece[j]? := by
  rw [bytes_castMsg, CharArray.bytes_fill fits, List.getElem?_take_of_lt lower, List.getElem?_append_left inside]

theorem dispatched_of_whole (delivery : Delivery (writes.flatMap Write.bytes) pieces)
    (whole : ∀ p ∈ pieces, p.length = side.writeSize) : dispatched buf pieces = writes.map Write.msg := by
  have same : pieces = writes.map Write.bytes :=
    eq_of_whole (by cases side <;> decide) (uniform_writes writes) (delivery.stream.trans (flatMap_bytes writes)) whole
  subst same
  apply List.ext_getElem?
  intro i
  rw [dispatched, List.getElem?_mapIdx, List.getElem?_map, List.getElem?_map, Option.map_map]
  cases writes[i]? with
  | none => rfl
  | some w =>
    refine congrArg some (castMsg_fill _ _ _ ?_)
    change w.bytes.length ≤ maxDataSize
    rw [w.length_bytes]
    cases side <;> decide

theorem whole_of_dispatched (writes : List (Write side)) (delivery : Delivery (writes.flatMap Write.bytes) pieces)
    (same : dispatched buf pieces = writes.map Write.msg) : ∀ p ∈ pieces, p.length = side.writeSize := by
  have stream := delivery.stream.trans (flatMap_bytes writes)
  have count : pieces.length = (writes.map Write.bytes).length := by
    rw [← length_dispatched buf, same, List.length_map, List.length_map]
  cases side with
  | server => exact whole_of_count (uniform_writes writes) stream count fun p member => (delivery.sizes p member).2
  | client =>
    have agrees : Agrees 12 518 msgSize pieces (writes.map Write.bytes) := by
      refine ⟨fun u member => ?_, by decide, stream, count, fun p member => ?_, fun i p u at_p at_u j inside lower => ?_⟩
      · obtain ⟨w, _, rfl⟩ := List.mem_map.mp member
        have empty : w.rest = [] := List.eq_nil_of_length_eq_zero w.size
        rw [Write.bytes, empty, List.append_nil]
        exact MadeByClient.marked w.made
      · exact (delivery.sizes p member).imp_right fun upper => upper.trans_lt (by decide)
      · rw [List.getElem?_map] at at_u
        obtain ⟨w, at_w, rfl⟩ := Option.map_eq_some_iff.mp at_u
        have at_i := getElem?_dispatched buf at_p
        rw [same, List.getElem?_map, at_w] at at_i
        have fits : p.length ≤ maxDataSize := (delivery.sizes p (List.mem_of_getElem? at_p)).2.trans (by decide)
        have here : w.msg = castMsg ((buf i).fill p) := Option.some.inj at_i
        rw [← getElem?_castMsg_fill (buf i) fits inside lower, ← here, Write.bytes,
          List.getElem?_append_left (by rwa [SbcpMsg.length_bytes])]
    exact agrees.whole

/-- The messages dispatched are the messages sent exactly when each `recv` returns one write. -/
theorem framing_iff (writes : List (Write side)) (pieces : List (List UInt8)) (buf : Nat → CharArray maxDataSize)
    (delivery : Delivery (writes.flatMap Write.bytes) pieces) :
    dispatched buf pieces = writes.map Write.msg ↔ ∀ p ∈ pieces, p.length = side.writeSize :=
  ⟨whole_of_dispatched writes delivery, dispatched_of_whole delivery⟩

end

def idleWrite : Write .client := { msg := makeMsgIdleC, rest := [], made := .idle, size := rfl }

/-- Two messages, each of which is delivered whole. -/
theorem framing_two_messages :
    Delivery ([idleWrite, idleWrite].flatMap Write.bytes) [idleWrite.bytes, idleWrite.bytes] ∧
      dispatched (fun _ => .zero maxDataSize) [idleWrite.bytes, idleWrite.bytes] = [makeMsgIdleC, makeMsgIdleC] := by
  have delivery : Delivery ([idleWrite, idleWrite].flatMap Write.bytes) [idleWrite.bytes, idleWrite.bytes] := by
    refine ⟨rfl, fun p member => ?_⟩
    obtain rfl : p = idleWrite.bytes := by simpa using member
    rw [idleWrite.length_bytes]
    decide
  refine ⟨delivery, (framing_iff [idleWrite, idleWrite] _ _ delivery).mpr fun p member => ?_⟩
  obtain rfl : p = idleWrite.bytes := by simpa using member
  exact idleWrite.length_bytes

/-- Two IDLE messages that arrive as 1499 bytes and 573 bytes are not what is dispatched. -/
theorem framing_joined_messages :
    let stream := [idleWrite, idleWrite].flatMap Write.bytes
    Delivery stream [stream.take 1499, stream.drop 1499] ∧
      dispatched (fun _ => .zero maxDataSize) [stream.take 1499, stream.drop 1499] ≠ [makeMsgIdleC, makeMsgIdleC] := by
  intro stream
  have size : stream.length = 2072 := by
    change (idleWrite.bytes ++ (idleWrite.bytes ++ [])).length = 2072
    rw [List.append_nil, List.length_append, idleWrite.length_bytes]
    rfl
  have delivery : Delivery stream [stream.take 1499, stream.drop 1499] := by
    refine ⟨?_, fun p member => ?_⟩
    · rw [List.flatten_cons, List.flatten_singleton, List.take_append_drop]
    · rcases List.mem_cons.mp member with first | last
      · rw [first, List.length_take, size]
        decide
      · rw [List.mem_singleton.mp last, List.length_drop, size]
        decide
  refine ⟨delivery, fun same => ?_⟩
  have cut := whole_of_dispatched [idleWrite, idleWrite] delivery same _ List.mem_cons_self
  rw [List.length_take, size] at cut
  exact absurd cut (by decide)

end NetProjects.Chat
