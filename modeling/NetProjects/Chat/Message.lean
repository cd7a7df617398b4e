import NetProjects.Library.CharArray
import NetProjects.Library.CString

/-!
# Chat messages

`sbcp_msg_t` and the functions of both sides that make one. On the wire a message is the bytes of
the struct, little-endian and without padding.
-/

namespace NetProjects.Chat
open Bytes

def maxDataSize : Nat := 1500

/-- `sizeof(sbcp_msg_t)`. -/
def msgSize : Nat := 1036

inductive HeaderType where
  | join | fwd | send | nak | offline | ack | online | idle
  deriving DecidableEq, Repr

def HeaderType.code : HeaderType → UInt32
  | join => 2
  | fwd => 3
  | send => 4
  | nak => 5
  | offline => 6
  | ack => 7
  | online => 8
  | idle => 9

inductive AttributeType where
  | reason | username | clientCount | message
  deriving DecidableEq, Repr

def AttributeType.code : AttributeType → UInt16
  | reason => 1
  | username => 2
  | clientCount => 3
  | message => 4

structure SbcpAttribute where
  sbcpAttributeType : UInt16
  len : UInt16
  payload : CharArray 512
  deriving DecidableEq

structure SbcpMsg where
  vrsnTypeLen : UInt32
  attribute0 : SbcpAttribute
  attribute1 : SbcpAttribute
  deriving DecidableEq

/-- `VRSN << 23 | t << 16 | sizeof(sbcp_msg_t)`. -/
def header (t : HeaderType) : UInt32 := (3 : UInt32) <<< 23 ||| t.code <<< 16 ||| .ofNat msgSize

def getMsgType (msg : SbcpMsg) : UInt32 := (msg.vrsnTypeLen >>> 16) &&& 0x7f

def SbcpAttribute.zero : SbcpAttribute := { sbcpAttributeType := 0, len := 0, payload := .zero 512 }

/-- A message that is zero except for its header. -/
def SbcpMsg.ofType (t : HeaderType) : SbcpMsg :=
  { vrsnTypeLen := header t, attribute0 := .zero, attribute1 := .zero }

/-- An attribute whose payload starts with the first `count` bytes from `src` on; `none` where the
copy leaves the payload or runs off the memory. -/
def makeAttribute (type : AttributeType) (len : UInt16) (src : List UInt8) (count : Nat) : Option SbcpAttribute := do
  let bytes ← memread src 0 count
  let payload ← (CharArray.zero 512).memcpy 0 bytes
  return { sbcpAttributeType := type.code, len := len, payload := payload }

/-! ### Messages of the client -/

def makeMsgJoin (username : List UInt8) (nameLen : Nat) : Option SbcpMsg := do
  return { SbcpMsg.ofType .join with attribute0 := ← makeAttribute .username (.ofNat nameLen) username nameLen }

def makeMsgSend (message : List UInt8) (msgLen : Nat) : Option SbcpMsg := do
  return { SbcpMsg.ofType .send with attribute0 := ← makeAttribute .message (.ofNat msgLen) message msgLen }

def makeMsgIdleC : SbcpMsg := .ofType .idle

/-! ### Messages of the server -/

def makeMsgFwd (message : List UInt8) (msgLen : Nat) (username : List UInt8) (nameLen : Nat) : Option SbcpMsg := do
  return { SbcpMsg.ofType .fwd with
    attribute0 := ← makeAttribute .message (.ofNat msgLen) message msgLen
    attribute1 := ← makeAttribute .username (.ofNat nameLen) username nameLen }

def makeMsgNak (reason : List UInt8) (reasonLen : Nat) : Option SbcpMsg := do
  return { SbcpMsg.ofType .nak with attribute0 := ← makeAttribute .reason (.ofNat reasonLen) reason reasonLen }

/-- OFFLINE, ONLINE and the server's IDLE, which differ in the header only. -/
def makeMsgName (t : HeaderType) (username : List UInt8) (nameLen : Nat) : Option SbcpMsg := do
  return { SbcpMsg.ofType t with attribute0 := ← makeAttribute .username (.ofNat nameLen) username nameLen }

def makeMsgOffline := makeMsgName .offline
def makeMsgOnline := makeMsgName .online
def makeMsgIdleS := makeMsgName .idle

/-- `sprintf("%d")` into the array `countStr`. -/
def sprintfInt (countStr : CharArray 5) (count : Int) : Option (CharArray 5) :=
  countStr.memcpy 0 (cstr (toString count) ++ [0])

def makeMsgAck (countStr : CharArray 5) (count : Int) (usernames : List UInt8) : Option SbcpMsg := do
  let countStr ← sprintfInt countStr count
  return { SbcpMsg.ofType .ack with
    attribute0 := ← makeAttribute .clientCount 5 countStr.bytes 5
    -- The length is `sizeof(160)`, the copy of 170 bytes.
    attribute1 := ← makeAttribute .username 4 usernames 170 }

/-! ### The struct in memory -/

def SbcpAttribute.bytes (a : SbcpAttribute) : List UInt8 :=
  storeLE a.sbcpAttributeType ++ storeLE a.len ++ a.payload.bytes

def SbcpMsg.bytes (m : SbcpMsg) : List UInt8 :=
  storeLE32 m.vrsnTypeLen ++ m.attribute0.bytes ++ m.attribute1.bytes

def attributeAt (buf : CharArray maxDataSize) (off : Nat) (inside : off + 516 ≤ maxDataSize) : SbcpAttribute :=
  { sbcpAttributeType := loadLE (buf.bytes.drop off)
    len := loadLE (buf.bytes.drop (off + 2))
    payload := buf.slice (off + 4) 512 (by omega) }

/-- The cast of a receive buffer to `sbcp_msg_t *`. -/
def castMsg (buf : CharArray maxDataSize) : SbcpMsg :=
  { vrsnTypeLen := loadLE32 buf.bytes
    attribute0 := attributeAt buf 4 (by decide)
    attribute1 := attributeAt buf 520 (by decide) }

@[simp] theorem SbcpAttribute.length_bytes (a : SbcpAttribute) : a.bytes.length = 516 := by
  simp only [SbcpAttribute.bytes, List.length_append, a.payload.size]
  rfl

@[simp] theorem SbcpMsg.length_bytes (m : SbcpMsg) : m.bytes.length = msgSize := by
  simp only [SbcpMsg.bytes, List.length_append, SbcpAttribute.length_bytes]
  rfl

theorem SbcpAttribute.bytes_zero : SbcpAttribute.zero.bytes = List.replicate 516 0 := by
  change storeLE 0 ++ storeLE 0 ++ List.replicate 512 0 = _
  rw [show storeLE 0 = List.replicate 2 0 by decide, ← List.replicate_add, ← List.replicate_add]

theorem attributeAt_eq {buf : CharArray maxDataSize} {off : Nat} {inside : off + 516 ≤ maxDataSize}
    {a : SbcpAttribute} (before after : List UInt8) (holds : buf.bytes = before ++ a.bytes ++ after)
    (place : before.length = off) : attributeAt buf off inside = a := by
  have fromType : buf.bytes.drop off = storeLE a.sbcpAttributeType ++ (storeLE a.len ++ (a.payload.bytes ++ after)) := by
    rw [holds, List.append_assoc, ← place, List.drop_left]
    simp only [SbcpAttribute.bytes, List.append_assoc]
  have fromLen : buf.bytes.drop (off + 2) = storeLE a.len ++ (a.payload.bytes ++ after) := by
    rw [← List.drop_drop, fromType]
    rfl
  have fromPayload : buf.bytes.drop (off + 4) = a.payload.bytes ++ after := by
    rw [show off + 4 = off + 2 + 2 from rfl, ← List.drop_drop, fromLen]
    rfl
  have payload : buf.slice (off + 4) 512 (by omega) = a.payload := by
    apply CharArray.ext
    change (buf.bytes.drop (off + 4)).take 512 = a.payload.bytes
    rw [fromPayload, List.take_left' a.payload.size]
  unfold attributeAt
  rw [fromType, fromLen, loadLE_storeLE, loadLE_storeLE, payload]

/-- A buffer that starts with the bytes of a message holds that message. -/
theorem castMsg_eq {buf : CharArray maxDataSize} {m : SbcpMsg} (rest : List UInt8) (holds : buf.bytes = m.bytes ++ rest) :
    castMsg buf = m := by
  have first : attributeAt buf 4 (by decide) = m.attribute0 := by
    refine attributeAt_eq (storeLE32 m.vrsnTypeLen) (m.attribute1.bytes ++ rest) ?_ rfl
    rw [holds, SbcpMsg.bytes, List.append_assoc]
  have second : attributeAt buf 520 (by decide) = m.attribute1 := by
    refine attributeAt_eq (storeLE32 m.vrsnTypeLen ++ m.attribute0.bytes) rest ?_ ?_
    · rw [holds, SbcpMsg.bytes]
    · rw [List.length_append, SbcpAttribute.length_bytes]
      rfl
  unfold castMsg
  rw [first, second, holds, SbcpMsg.bytes, List.append_assoc, List.append_assoc, loadLE32_storeLE32]

theorem castMsg_fill (buf : CharArray maxDataSize) (m : SbcpMsg) (rest : List UInt8)
    (fits : (m.bytes ++ rest).length ≤ maxDataSize) : castMsg (buf.fill (m.bytes ++ rest)) = m := by
  apply castMsg_eq (rest ++ buf.bytes.drop (m.bytes ++ rest).length)
  rw [CharArray.bytes_fill fits, List.append_assoc]

theorem bytes_attributeAt {buf : CharArray maxDataSize} {off : Nat} (inside : off + 516 ≤ maxDataSize) :
    (attributeAt buf off inside).bytes = (buf.bytes.drop off).take 516 := by
  have size := buf.size
  have long : 516 ≤ (buf.bytes.drop off).length := by
    rw [List.length_drop]
    omega
  have fromLen : buf.bytes.drop (off + 2) = (buf.bytes.drop off).drop 2 := by rw [List.drop_drop]
  have fromPayload : buf.bytes.drop (off + 4) = (buf.bytes.drop off).drop 4 := by rw [List.drop_drop]
  change storeLE (loadLE _) ++ storeLE (loadLE _) ++ (buf.bytes.drop (off + 4)).take 512 = _
  rw [fromLen, fromPayload, storeLE_loadLE (by omega), storeLE_loadLE (by rw [List.length_drop]; omega),
    ← List.take_add, ← List.take_add]

theorem bytes_castMsg (buf : CharArray maxDataSize) : (castMsg buf).bytes = buf.bytes.take msgSize := by
  have long : 4 ≤ buf.bytes.length := by
    rw [buf.size]
    decide
  change storeLE32 (loadLE32 buf.bytes) ++ (attributeAt buf 4 _).bytes ++ (attributeAt buf 520 _).bytes = _
  rw [storeLE32_loadLE32 long, bytes_attributeAt, bytes_attributeAt, ← List.take_add, ← List.take_add]
  rfl

/-! ### What an attribute holds -/

theorem makeAttribute_spec {type : AttributeType} {len : UInt16} {src : List UInt8} {count : Nat} {a : SbcpAttribute}
    (made : makeAttribute type len src count = some a) :
    a.sbcpAttributeType = type.code ∧ a.len = len ∧ count ≤ 512 ∧ count ≤ src.length ∧
      a.payload.bytes = src.take count ++ List.replicate (512 - count) 0 := by
  obtain ⟨bytes, read, made⟩ := Option.bind_eq_some_iff.mp made
  obtain ⟨payload, copied, made⟩ := Option.bind_eq_some_iff.mp made
  obtain rfl := Option.some.inj made
  unfold memread at read
  split at read
  swap
  · cases read
  rename_i inside
  obtain rfl := Option.some.inj read
  rw [Nat.zero_add] at inside
  have size : (src.take count).length = count := List.length_take_of_le inside
  obtain ⟨fits, bytes⟩ := CharArray.memcpy_eq_some copied
  rw [List.drop_zero, Nat.zero_add, size] at fits
  refine ⟨rfl, rfl, fits, inside, ?_⟩
  change payload.bytes = _
  rw [bytes, List.drop_zero, memcpy_zero, size]
  exact congrArg _ List.drop_replicate

theorem makeAttribute_isSome (type : AttributeType) (len : UInt16) (src : List UInt8) (count : Nat) (fits : count ≤ 512)
    (inside : count ≤ src.length) : ∃ a, makeAttribute type len src count = some a := by
  have read : memread src 0 count = some ((src.drop 0).take count) := if_pos (by rwa [Nat.zero_add])
  have size : ((src.drop 0).take count).length = count := List.length_take_of_le inside
  obtain ⟨payload, copied, _⟩ := CharArray.memcpy_of_fits (.zero 512) 0 ((src.drop 0).take count) (by omega)
  refine ⟨{ sbcpAttributeType := type.code, len := len, payload := payload }, ?_⟩
  simp only [makeAttribute, read, copied, Option.bind_eq_bind, Option.bind_some, Option.pure_def]

/-- The text stands at the start of the attribute, behind it only zeros. -/
def SbcpAttribute.Holds (a : SbcpAttribute) (type : AttributeType) (text : List UInt8) : Prop :=
  a.sbcpAttributeType = type.code ∧ a.payload.bytes = text ++ List.replicate (512 - text.length) 0

theorem makeAttribute_cstring (type : AttributeType) (len : UInt16) {mem : List UInt8} {count : Nat}
    (terminated : 0 ∈ mem) (short : mem.length ≤ 512)
    (all : count = (cstring mem).length ∨ count = (cstring mem).length + 1) :
    ∃ a, makeAttribute type len mem count = some a ∧ a.Holds type (cstring mem) := by
  have inside := length_cstring_lt terminated
  obtain ⟨a, made⟩ := makeAttribute_isSome type len mem count (by omega) (by omega)
  obtain ⟨typeEq, _, _, _, bytes⟩ := makeAttribute_spec made
  refine ⟨a, made, typeEq, ?_⟩
  rw [bytes]
  rcases all with rfl | rfl
  · rw [take_cstring]
  · -- The terminator is one more of the zeros.
    have zeros : [0] ++ List.replicate (512 - ((cstring mem).length + 1)) (0 : UInt8) =
        List.replicate (512 - (cstring mem).length) 0 := by
      rw [show ([0] : List UInt8) = List.replicate 1 0 from rfl, ← List.replicate_add]
      congr 1
      omega
    rw [take_cstring_succ terminated, List.append_assoc, zeros]

@[simp] theorem getMsgType_ofType (t : HeaderType) : getMsgType (.ofType t) = t.code := by
  cases t <;> rfl

theorem makeMsgName_cstring (t : HeaderType) {mem : List UInt8} {count : Nat} (terminated : 0 ∈ mem)
    (short : mem.length ≤ 512) (all : count = (cstring mem).length ∨ count = (cstring mem).length + 1) :
    ∃ m, makeMsgName t mem count = some m ∧ getMsgType m = t.code ∧ m.attribute0.Holds .username (cstring mem) := by
  obtain ⟨a, made, holds⟩ := makeAttribute_cstring .username (.ofNat count) terminated short all
  refine ⟨{ SbcpMsg.ofType t with attribute0 := a }, ?_, getMsgType_ofType t, holds⟩
  simp only [makeMsgName, made, Option.bind_eq_bind, Option.bind_some, Option.pure_def]

end NetProjects.Chat
