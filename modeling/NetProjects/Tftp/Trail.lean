import NetProjects.Library.CString
import NetProjects.Tftp.Handlers

/-!
# Name and mode

`parseTrailBuf` cuts the file name and the mode out of a request. It takes no account of how many
bytes were received: what it reads is the server's buffer and whatever stands behind it.
-/

namespace NetProjects.Tftp
open Bytes

def maxFileName : Nat := 255
def modeLen : Nat := 8

structure ParsedTrail where
  result : TftpErr
  filename : List UInt8
  mode : List UInt8

/-- `memcpy` of `n` bytes from `src + off` into the array `dst`: `none` when it leaves either. -/
def copyInto (dst src : List UInt8) (off n : Nat) : Option (List UInt8) :=
  if n ≤ dst.length then (memread src off n).map (memcpy dst 0) else none

/-- `mem` is the memory from `buf` on. -/
def parseTrailBuf (mem filename mode : List UInt8) : Option ParsedTrail :=
  let trailBuf := mem.drop 2
  (strchr 0 trailBuf).bind fun pos =>
    if pos < 0 then some { result := .fail, filename := filename, mode := mode }
    else
      (copyInto filename trailBuf 0 pos.toNat).bind fun filename =>
        (copyInto mode trailBuf (pos.toNat + 1) 8).map fun mode => { result := .ok, filename := filename, mode := mode }

/-- On the zeroed arrays of a request handler. -/
def parseRequestTrail (mem : List UInt8) : Option ParsedTrail :=
  parseTrailBuf mem (List.replicate maxFileName 0) (List.replicate modeLen 0)

/-- The server's buffer once the datagram is received, and the memory behind it. -/
def serverReceives (old behind : List UInt8) (d : Datagram) : List UInt8 := (tftpRecvfrom (old ++ behind) d).buf

/-! ### What is cut out -/

section

variable {dst src bytes : List UInt8} {off n : Nat}

theorem copyInto_eq (fits : n ≤ dst.length) (here : off + n ≤ src.length) :
    copyInto dst src off n = some (memcpy dst 0 ((src.drop off).take n)) := by
  unfold copyInto memread
  rw [if_pos fits, if_pos here, Option.map_some]

/-- A string copied over zeros is followed by a zero when it is shorter than the array. -/
theorem cstring_memcpy_zeros (short : bytes.length < n) :
    cstring (memcpy (List.replicate n 0) 0 bytes) = cstring bytes ∧ 0 ∈ memcpy (List.replicate n 0) 0 bytes := by
  obtain ⟨more, room⟩ := Nat.exists_eq_add_of_lt short
  rw [memcpy_zero, List.drop_replicate, show n - bytes.length = more + 1 by omega, List.replicate_succ]
  exact ⟨cstring_append_nul _ _, List.mem_append_right _ List.mem_cons_self⟩

/-- A copy that fills the array is the array. -/
theorem memcpy_full (full : bytes.length = dst.length) : memcpy dst 0 bytes = bytes := by
  rw [memcpy_zero, full, List.drop_length, List.append_nil]

end

/-- Where a zero follows the name, the handler cuts out the name and the eight bytes behind the zero. -/
theorem parseRequestTrail_eq {header name tail : List UInt8} (opcode : header.length = 2) (noNul : 0 ∉ name)
    (short : name.length ≤ maxFileName) (enough : modeLen ≤ tail.length) :
    parseRequestTrail (header ++ name ++ 0 :: tail) =
      some { result := .ok, filename := memcpy (List.replicate maxFileName 0) 0 name, mode := tail.take modeLen } := by
  have trail : (header ++ name ++ 0 :: tail).drop 2 = name ++ 0 :: tail := by
    rw [List.append_assoc, List.drop_left' opcode]
  have behind : (name ++ 0 :: tail).drop (name.length + 1) = tail := by
    rw [← List.drop_drop, List.drop_left, List.drop_succ_cons, List.drop_zero]
  have size : (name ++ 0 :: tail).length = name.length + 1 + tail.length := by
    simp only [List.length_append, List.length_cons]
    omega
  have eight : (tail.take modeLen).length = (List.replicate modeLen (0 : UInt8)).length := by
    rw [List.length_take, List.length_replicate]
    omega
  unfold parseRequestTrail parseTrailBuf
  dsimp only
  rw [trail, strchr_found _ noNul noNul, Option.bind_some, if_neg (by omega), Int.toNat_natCast,
    copyInto_eq (by rw [List.length_replicate]; exact short) (by rw [size]; omega), Option.bind_some,
    copyInto_eq (by rw [List.length_replicate]; exact Nat.le_refl _) (by rw [size]; exact Nat.add_le_add_left enough _),
    Option.map_some, List.drop_zero, List.take_left, behind]
  exact congrArg (fun mode => some (ParsedTrail.mk .ok _ mode)) (memcpy_full eight)

/-- What the buffer does not have is never reported: the search for the zero has no end. -/
theorem parseRequestTrail_ok {mem : List UInt8} {parsed : ParsedTrail} (done : parseRequestTrail mem = some parsed) :
    parsed.result = .ok := by
  unfold parseRequestTrail parseTrailBuf at done
  obtain ⟨pos, found, done⟩ := Option.bind_eq_some_iff.mp done
  have here := strchr_nul found
  rw [if_neg (by omega)] at done
  obtain ⟨name, _, done⟩ := Option.bind_eq_some_iff.mp done
  obtain ⟨mode, _, rfl⟩ := Option.map_eq_some_iff.mp done
  rfl

/-! ### Well-formed requests -/

/-- The two arrays hold the name and the mode as strings of their own. -/
structure ParsedAs (parsed : ParsedTrail) (name mode : List UInt8) : Prop where
  result : parsed.result = .ok
  filenameSize : parsed.filename.length = maxFileName
  modeSize : parsed.mode.length = modeLen
  terminated : 0 ∈ parsed.filename ∧ 0 ∈ parsed.mode
  filename : cstring parsed.filename = name
  mode : cstring parsed.mode = mode

/-- A request with a terminated name and mode, and enough behind it, gives the name and the first eight
bytes of the mode. -/
theorem parseRequestTrail_request {header name mode rest : List UInt8} (opcode : header.length = 2) (noNul : 0 ∉ name)
    (short : name.length ≤ 254) (modeNoNul : 0 ∉ mode) (size : modeLen ≤ (mode ++ 0 :: rest).length) :
    ∃ parsed, parseRequestTrail (header ++ name ++ 0 :: (mode ++ 0 :: rest)) = some parsed ∧ parsed.result = .ok ∧
      parsed.filename.length = maxFileName ∧ parsed.mode.length = modeLen ∧ 0 ∈ parsed.filename ∧
      cstring parsed.filename = name ∧ cstring parsed.mode = mode.take modeLen := by
  have fits : name.length < maxFileName := by rw [maxFileName]; omega
  obtain ⟨string, terminated⟩ := cstring_memcpy_zeros fits
  refine ⟨_, parseRequestTrail_eq opcode noNul fits.le size, rfl, ?_, ?_, terminated, ?_, ?_⟩
  · rw [length_memcpy, List.length_replicate]
    rw [List.length_replicate]
    omega
  · rw [List.length_take]
    omega
  · rw [string, cstring_eq_self noNul]
  · rw [cstring_take, cstring_append_nul, cstring_eq_self modeNoNul]

def requestBytes (opcode : UInt16) (name mode rest : List UInt8) : List UInt8 :=
  networkOrder opcode ++ name ++ 0 :: (mode ++ 0 :: rest)

theorem length_requestBytes (opcode : UInt16) (name mode rest : List UInt8) :
    (requestBytes opcode name mode rest).length = name.length + mode.length + rest.length + 4 := by
  simp only [requestBytes, List.length_append, List.length_cons, length_networkOrder]
  omega

/-- A well-formed request is parsed as it was sent exactly in octet mode: the eight letters of the
other mode leave its array without a terminator. -/
theorem request_parsed_iff (opcode : UInt16) {name mode rest : List UInt8} (noNul : 0 ∉ name)
    (named : 1 ≤ name.length ∧ name.length ≤ 254) (known : mode = netascii ∨ mode = octet)
    (size : (requestBytes opcode name mode rest).length = maxBufLen) :
    (∃ parsed, parseRequestTrail (requestBytes opcode name mode rest) = some parsed ∧ ParsedAs parsed name mode) ↔
      mode = octet := by
  have modeNoNul : 0 ∉ mode := by
    obtain rfl | rfl := known <;> decide
  have enough : modeLen ≤ (mode ++ 0 :: rest).length := by
    rw [length_requestBytes, maxBufLen] at size
    rw [List.length_append, List.length_cons, modeLen]
    omega
  obtain ⟨parsed, done, result, filenameSize, modeSize, terminated, filename, string⟩ :=
    parseRequestTrail_request (length_networkOrder opcode) noNul named.2 modeNoNul enough
  constructor
  · rintro ⟨other, again, as⟩
    cases done.symm.trans again
    obtain rfl | same := known
    · -- A terminated array of eight bytes holds at most seven.
      have few := length_cstring_lt as.terminated.2
      rw [as.mode, modeSize] at few
      exact absurd few (by decide)
    · exact same
  · rintro rfl
    refine ⟨parsed, done, result, filenameSize, modeSize, ⟨terminated, ?_⟩, filename, string⟩
    by_contra open_
    rw [cstring_eq_self open_] at string
    rw [string] at modeSize
    exact absurd modeSize (by decide)

theorem request_parsed_octet :
    (∃ parsed, parseRequestTrail (requestBytes 1 [97] octet (List.replicate 502 0)) = some parsed ∧
      ParsedAs parsed [97] octet) ↔ octet = octet :=
  request_parsed_iff 1 (by decide) (by decide) (Or.inr rfl) (by
    rw [length_requestBytes, List.length_replicate]
    rfl)

/-- The array of the mode is full of the eight letters. -/
theorem request_netascii_open :
    (requestBytes 1 [97] netascii (List.replicate 499 0)).length = maxBufLen ∧
      ¬ ∃ parsed, parseRequestTrail (requestBytes 1 [97] netascii (List.replicate 499 0)) = some parsed ∧
        ParsedAs parsed [97] netascii := by
  refine ⟨by rw [length_requestBytes, List.length_replicate]; rfl, ?_⟩
  generalize List.replicate 499 (0 : UInt8) = rest
  have enough : modeLen ≤ (netascii ++ 0 :: rest).length := by
    rw [List.length_append]
    exact Nat.le_add_right _ _
  have cut := parseRequestTrail_eq (length_networkOrder 1) (show 0 ∉ [97] by decide) (by decide) enough
  rw [List.take_left' (show netascii.length = modeLen from rfl)] at cut
  rintro ⟨parsed, done, as⟩
  cases cut.symm.trans done
  exact absurd as.terminated.2 (by decide)

/-! ### Any datagram -/

/-- A name of at most 254 bytes and a mode, both terminated within the datagram. -/
def WellFormedRequest (bytes : List UInt8) : Prop :=
  ∃ header name mode rest, bytes = header ++ name ++ 0 :: (mode ++ 0 :: rest) ∧ header.length = 2 ∧ 0 ∉ name ∧
    name.length ≤ 254 ∧ 0 ∉ mode

/-- The request is stored where there is room for it, a malformed one is refused, and what is parsed is its
own. -/
structure HandledSafely (d : Datagram) : Prop where
  stored : (d.bytes.take dataPacketLen).length ≤ maxBufLen
  answered : ∀ old behind : List UInt8, old.length = maxBufLen →
    ∃ parsed, parseRequestTrail (serverReceives old behind d) = some parsed ∧
      (parsed.result = .ok → WellFormedRequest d.bytes) ∧ (¬ WellFormedRequest d.bytes → parsed.result = .fail)
  own : ∀ old old' behind behind' : List UInt8, ∀ parsed parsed', old.length = maxBufLen → old'.length = maxBufLen →
    parseRequestTrail (serverReceives old behind d) = some parsed →
    parseRequestTrail (serverReceives old' behind' d) = some parsed' →
    cstring parsed.filename = cstring parsed'.filename ∧ cstring parsed.mode = cstring parsed'.mode

/-- A request that fits the buffer is followed by what the buffer held. -/
theorem serverReceives_eq {old : List UInt8} {d : Datagram} (size : old.length = maxBufLen) (fits : d.bytes.length ≤ maxBufLen)
    (behind : List UInt8) : ∃ rest, serverReceives old behind d = d.bytes ++ rest ∧
      rest.length = maxBufLen - d.bytes.length + behind.length := by
  refine ⟨(old ++ behind).drop d.bytes.length, ?_, ?_⟩
  · unfold serverReceives tftpRecvfrom
    dsimp only
    rw [List.take_of_length_le (by rw [dataPacketLen]; unfold maxBufLen at fits; omega), memcpy_zero]
  · rw [List.length_drop, List.length_append, size]
    omega

/-- A well-formed request that fits is parsed the same whatever the buffer held. -/
theorem parse_wellFormed {d : Datagram} (fits : d.bytes.length ≤ maxBufLen) (formed : WellFormedRequest d.bytes) :
    ∃ name mode, ∀ old behind : List UInt8, old.length = maxBufLen →
      ∃ parsed, parseRequestTrail (serverReceives old behind d) = some parsed ∧ parsed.result = .ok ∧
        cstring parsed.filename = name ∧ cstring parsed.mode = mode := by
  obtain ⟨header, name, mode, rest, bytes, opcode, noNul, short, modeNoNul⟩ := formed
  refine ⟨name, mode.take modeLen, ?_⟩
  intro old behind size
  obtain ⟨more, received, count⟩ := serverReceives_eq size fits behind
  have whole : header ++ name ++ 0 :: (mode ++ 0 :: rest) ++ more = header ++ name ++ 0 :: (mode ++ 0 :: (rest ++ more)) := by
    simp only [List.append_assoc, List.cons_append]
  have enough : modeLen ≤ (mode ++ 0 :: (rest ++ more)).length := by
    have total := congrArg List.length bytes
    simp only [List.length_append, List.length_cons] at total ⊢
    unfold maxBufLen at fits count
    rw [modeLen]
    omega
  obtain ⟨parsed, done, result, _, _, _, filename, string⟩ := parseRequestTrail_request opcode noNul short modeNoNul enough
  rw [← whole, ← bytes, ← received] at done
  exact ⟨parsed, done, result, filename, string⟩

/-- The parse has no length and no NULL to fail on: a request is handled safely exactly when it fits the
buffer and is well-formed. -/
theorem request_handled_iff (d : Datagram) :
    HandledSafely d ↔ d.bytes.length ≤ maxBufLen ∧ WellFormedRequest d.bytes := by
  constructor
  · intro safe
    have stored := safe.stored
    rw [List.length_take] at stored
    have fits : d.bytes.length ≤ maxBufLen := by
      unfold maxBufLen dataPacketLen at *
      omega
    refine ⟨fits, ?_⟩
    by_contra malformed
    obtain ⟨parsed, done, _, refused⟩ := safe.answered (List.replicate maxBufLen 0) [] List.length_replicate
    rw [parseRequestTrail_ok done] at refused
    cases refused malformed
  · rintro ⟨fits, formed⟩
    obtain ⟨name, mode, parses⟩ := parse_wellFormed fits formed
    refine ⟨?_, ?_, ?_⟩
    · exact (List.length_take_le' _ _).trans fits
    · intro old behind size
      obtain ⟨parsed, done, _⟩ := parses old behind size
      exact ⟨parsed, done, fun _ => formed, fun malformed => absurd formed malformed⟩
    · intro old old' behind behind' parsed parsed' size size' done done'
      obtain ⟨_, again, _, filename, string⟩ := parses old behind size
      obtain ⟨_, again', _, filename', string'⟩ := parses old' behind' size'
      cases done.symm.trans again
      cases done'.symm.trans again'
      exact ⟨filename.trans filename'.symm, string.trans string'.symm⟩

/-- A read request whose name has no terminator. -/
theorem unterminated_name_taken : ¬ HandledSafely ⟨⟨0, 69⟩, [0, 1, 97]⟩ := by
  intro safe
  obtain ⟨parsed, done, _, refused⟩ := safe.answered (List.replicate maxBufLen 0) [] List.length_replicate
  have malformed : ¬ WellFormedRequest [0, 1, 97] := by
    rintro ⟨header, name, mode, rest, bytes, opcode, _⟩
    have tail := congrArg (List.drop 2) bytes
    rw [List.append_assoc, List.drop_left' opcode] at tail
    have zero : (0 : UInt8) ∈ List.drop 2 [0, 1, 97] := by
      rw [tail]
      exact List.mem_append_right _ List.mem_cons_self
    exact absurd zero (by decide)
  rw [parseRequestTrail_ok done] at refused
  cases refused malformed

end NetProjects.Tftp
