import NetProjects.Proxy.BodyLines
import NetProjects.Proxy.Progress

/-!
# The first piece

What one `recv` makes of the first bytes of a request, and of a response.
-/

namespace NetProjects.Proxy
open Bytes

def Io.bring (io : Io) (piece : List UInt8) : Io := { io with received := some piece }

/-- A request in memory that is parsed, and asks for no path and no host. -/
structure AsksNothing (key view : List UInt8) : Prop where
  fits : RequestFits key view
  path : (firstLine view).length = 13
  host : (lastUnder (cstr "Host:") (viewEntries key view)).getD [] = []

/-- No piece at the start of the request asks for anything: it has no end of a request, or its lines ask for nothing,
whatever the keys held before. -/
structure NeverAsks (request : List UInt8) : Prop where
  short : (cstring request).length < initialBuffer
  ended : ∀ piece, piece <+: cstring request → cstr "\r\n\r\n" <:+: piece →
    ∀ key : List UInt8, maxDataSize ≤ key.length → AsksNothing key (piece ++ [0])

section

variable {io : Io} {m : CacheNode} {request piece : List UInt8}

/-! ### Requests -/

theorem chunk_bring (io : Io) (small : piece.length ≤ maxDataSize) : (io.bring piece).chunk = piece :=
  List.take_of_length_le small

theorem filled_short (short : piece.length < initialBuffer) :
    (CacheNode.fresh none none initialBuffer).filled 0 (io.bring piece) =
      some { CacheNode.fresh none none initialBuffer with
        buffer := piece ++ List.replicate (initialBuffer - piece.length) 0 } := by
  have chunk : (io.bring piece).chunk = piece := chunk_bring io (short.le.trans (by decide))
  have room : ¬ ((0 : Int) ≤ initialBuffer ∧ (initialBuffer : Int) - 0 ≤ piece.length) := by omega
  have copied : copyToBuffer (List.replicate initialBuffer 0) 0 piece =
      some (piece ++ List.replicate (initialBuffer - piece.length) 0) := by
    rw [copyToBuffer, if_pos ⟨Int.le_refl 0, by rw [List.length_replicate]; omega⟩, Int.toNat_zero, memcpy_zero,
      List.drop_replicate]
  unfold CacheNode.filled growBuffer
  rw [chunk, if_neg (by exact room)]
  exact Option.bind_eq_some_iff.mpr ⟨_, copied, rfl⟩

/-- A piece of the size of the buffer or more is followed by what `realloc` has added. -/
theorem filled_long (io : Io) (long : initialBuffer ≤ piece.length) (small : piece.length ≤ maxDataSize) :
    (CacheNode.fresh none none initialBuffer).filled 0 (io.bring piece) =
      some { CacheNode.fresh none none initialBuffer with
        buffer := piece ++ ((List.range maxDataSize).map io.grown).drop (piece.length - initialBuffer)
        bufferSize := initialBuffer + maxDataSize } := by
  have full : (0 : Int) ≤ initialBuffer ∧ (initialBuffer : Int) - 0 ≤ piece.length := by omega
  have size : (List.replicate initialBuffer (0 : UInt8)).length = initialBuffer := List.length_replicate
  have copied : copyToBuffer (List.replicate initialBuffer 0 ++ (List.range maxDataSize).map io.grown) 0 piece =
      some (piece ++ ((List.range maxDataSize).map io.grown).drop (piece.length - initialBuffer)) := by
    have fits : (0 : Int) ≤ 0 ∧ 0 + (piece.length : Int) ≤
        (List.replicate initialBuffer 0 ++ (List.range maxDataSize).map io.grown).length := by
      rw [List.length_append, size, List.length_map, List.length_range]
      omega
    rw [copyToBuffer, if_pos fits, Int.toNat_zero, memcpy_zero, List.drop_append,
      List.drop_eq_nil_of_le (by rw [size]; exact long), List.nil_append, size]
  unfold CacheNode.filled growBuffer
  rw [chunk_bring io small, if_pos (by exact full)]
  exact Option.bind_eq_some_iff.mpr ⟨_, copied, rfl⟩

/-- The buffer holds the string of the piece, and a NUL behind it. -/
theorem filled_string (io : Io) (short : (cstring piece).length < initialBuffer) (small : piece.length ≤ maxDataSize) :
    ∃ m, (CacheNode.fresh none none initialBuffer).filled 0 (io.bring piece) = some m ∧ m.httpInfo = .zero ∧
      0 ∈ m.buffer ∧ cstring m.buffer = cstring piece ∧ initialBuffer ≤ m.buffer.length := by
  by_cases fits : piece.length < initialBuffer
  · have padding : List.replicate (initialBuffer - piece.length) (0 : UInt8) =
        0 :: List.replicate (initialBuffer - piece.length - 1) 0 := by
      rw [← List.replicate_succ]
      congr
      omega
    refine ⟨_, filled_short fits, rfl, ?_, ?_, ?_⟩
    · rw [padding]
      exact List.mem_append_right _ List.mem_cons_self
    · rw [padding]
      exact cstring_append_nul _ _
    · rw [List.length_append, List.length_replicate]
      omega
  · have terminated : 0 ∈ piece := by
      by_contra noNul
      rw [cstring_eq_self noNul] at short
      exact fits short
    refine ⟨_, filled_long io (Nat.le_of_not_lt fits) small, rfl, ?_, ?_, ?_⟩
    · exact List.mem_append_left _ terminated
    · exact cstring_append terminated
    · rw [List.length_append]
      exact (Nat.le_of_not_lt fits).trans (Nat.le_add_right _ _)

/-- A piece without the end of a request is not parsed, whatever follows the buffer. -/
theorem requested_unended (io : Io) (short : (cstring piece).length < initialBuffer)
    (noEnd : ¬ cstr "\r\n\r\n" <:+: cstring piece) (small : piece.length ≤ maxDataSize) :
    ∃ n, (CacheNode.fresh none none initialBuffer).requested 0 (io.bring piece) = some n ∧ n.httpInfo = .zero := by
  obtain ⟨m, fill, zero, terminated, string, _⟩ := filled_string io short small
  have searched : strstrLit (m.buffer ++ (io.bring piece).memory.after) (cstr "\r\n\r\n") = some false := by
    rw [strstrLit, cstring_append terminated, string, if_neg noEnd, if_pos (List.mem_append_left _ terminated)]
  refine ⟨m, Option.bind_eq_some_iff.mpr ⟨m, fill, ?_⟩, zero⟩
  exact Option.bind_eq_some_iff.mpr ⟨false, searched, rfl⟩

theorem AsksNothing.congr {key view other : List UInt8} (asks : AsksNothing key view)
    (string : cstring other = cstring view) (line : firstLine other = firstLine view)
    (text : cstring (lineBuffer other) = cstring (lineBuffer view)) (ended : 0 ∈ lineBuffer other) :
    AsksNothing key other := by
  obtain ⟨⟨cr, long, short, _, spaces, host, userAgent, connection⟩, path, noHost⟩ := asks
  have lines : viewLines other = viewLines view := congrArg (tokens isDelim) text
  have entries : viewEntries key other = viewEntries key view := by
    unfold viewEntries clearedBytes
    rw [lines, text]
  rw [← string] at cr
  rw [← line] at long short path
  rw [← lines] at spaces
  rw [← entries] at host userAgent connection noHost
  exact ⟨⟨cr, long, short, ended, spaces, host, userAgent, connection⟩, path, noHost⟩

/-- A request that ends within its string does not depend on what follows. -/
theorem asksNothing_behind {text : List UInt8} (noNul : 0 ∉ text) (short : text.length < maxDataSize)
    (ended : cstr "\r\n\r\n" <:+: text) (key after : List UInt8) :
    AsksNothing key (text ++ 0 :: after) ↔ AsksNothing key (text ++ [0]) := by
  obtain ⟨front, body, rfl⟩ := ended
  have head : withEmptyLine front = front ++ cstr "\r\n\r\n" := congrArg (front ++ ·) (by decide)
  rw [← head] at *
  obtain ⟨text, nul⟩ := lineBuffer_head noNul short after
  obtain ⟨text', nul'⟩ := lineBuffer_head noNul short []
  have string : cstring (withEmptyLine front ++ body ++ 0 :: after) = cstring (withEmptyLine front ++ body ++ [0]) := by
    rw [cstring_append_nul, cstring_append_nul]
  have line : firstLine (withEmptyLine front ++ body ++ 0 :: after) = firstLine (withEmptyLine front ++ body ++ [0]) := by
    rw [firstLine_view, firstLine_view]
  constructor
  · exact fun asks => asks.congr string.symm line.symm (text'.trans text.symm) nul'
  · exact fun asks => asks.congr string line (text.trans text'.symm) nul

section

variable {view : List UInt8} {memory : Memory}

theorem parsed_asks (room : maxDataSize ≤ memory.key.length ∧ maxDataSize ≤ memory.value.length)
    (inside : 13 ∈ cstring view → (firstLine view).length + 2 + maxDataSize ≤ view.length) {req : HttpInfo}
    (parsed : parseRequest view memory .zero = some req) :
    req.host.str = (lastUnder (cstr "Host:") (viewEntries memory.key view)).getD [] ∧
      req.path.str.length = (firstLine view).length - 13 := by
  have noNul : ∀ e ∈ viewEntries memory.key view, 0 ∉ e.value := fun e member => (viewEntries_noNul _ _ e member).2
  have fits := request_fits room inside zero_closed.1 parsed
  obtain ⟨cr, _, _, path, host, _, _, copied, hostFilled, _, _, rfl⟩ := (parseRequest_iff room inside).mp parsed
  have long := fits.long
  have short := fits.short
  have size : (firstLine view).length - 13 ≤ (cstring (view.drop 4)).length := by
    rw [← length_path cr]
    exact List.length_take_le' _ _
  have count : toSize (((firstLine view).length : Int) - 13) = (firstLine view).length - 13 := by
    rw [toSize, if_pos (by omega)]
    omega
  rw [count] at copied
  obtain ⟨cut, same, text⟩ := strncpy_text (a := HttpInfo.zero.path) rfl
    (by omega : (firstLine view).length - 13 < 100) size
  obtain rfl : cut = path := Option.some.inj (same.symm.trans copied)
  refine ⟨(fillAll_str noNul hostFilled).trans (congrArg _ (zero_str (by decide))), ?_⟩
  rw [text, length_path cr]

/-- A request is parsed into an empty host and an empty path exactly when it asks for nothing. -/
theorem parse_asks_nothing_iff (room : maxDataSize ≤ memory.key.length ∧ maxDataSize ≤ memory.value.length)
    (inside : 13 ∈ cstring view → (firstLine view).length + 2 + maxDataSize ≤ view.length) :
    (∃ req, parseRequest view memory .zero = some req ∧ req.host.str = [] ∧ req.path.str = []) ↔
      AsksNothing memory.key view := by
  constructor
  · rintro ⟨req, parsed, host, path⟩
    obtain ⟨hostIs, pathIs⟩ := parsed_asks room inside parsed
    have fits := request_fits room inside zero_closed.1 parsed
    have long := fits.long
    rw [path, List.length_nil] at pathIs
    exact ⟨fits, by omega, hostIs.symm.trans host⟩
  · rintro ⟨fits, path, host⟩
    obtain ⟨req, parsed, _⟩ := (request_inside_iff room inside zero_closed.1).mpr fits
    obtain ⟨hostIs, pathIs⟩ := parsed_asks room inside parsed
    rw [path] at pathIs
    exact ⟨req, parsed, hostIs.trans host, List.length_eq_zero_iff.mp pathIs⟩

end

/-- A buffer that shows the end of a request is parsed. -/
theorem requested_ended {n : CacheNode} (io : Io)
    (fill : (CacheNode.fresh none none initialBuffer).filled 0 io = some m)
    (zero : m.httpInfo = .zero) (searched : strstrLit (m.buffer ++ io.memory.after) (cstr "\r\n\r\n") = some true) :
    (CacheNode.fresh none none initialBuffer).requested 0 io = some n ↔
      ∃ req, parseRequest (m.buffer ++ io.memory.after) io.memory .zero = some req ∧ { m with httpInfo := req } = n := by
  unfold CacheNode.requested
  rw [fill, Option.bind_some, CacheNode.parsed, searched, zero]
  constructor
  · intro found
    obtain ⟨ended, search, found⟩ := Option.bind_eq_some_iff.mp found
    obtain rfl := Option.some.inj search
    obtain ⟨req, parsed, done⟩ := Option.bind_eq_some_iff.mp found
    exact ⟨req, parsed, Option.some.inj done⟩
  · rintro ⟨req, parsed, rfl⟩
    exact Option.bind_eq_some_iff.mpr ⟨true, rfl, Option.bind_eq_some_iff.mpr ⟨req, parsed, rfl⟩⟩

/-- A piece with the end of a request is parsed from its string. -/
theorem requested_asks_nothing_iff (ample : io.memory.Ample) (short : (cstring piece).length < initialBuffer)
    (ended : cstr "\r\n\r\n" <:+: cstring piece) (small : piece.length ≤ maxDataSize) :
    (∃ n, (CacheNode.fresh none none initialBuffer).requested 0 (io.bring piece) = some n ∧
      n.httpInfo.host.str = [] ∧ n.httpInfo.path.str = []) ↔ AsksNothing io.memory.key (cstring piece ++ [0]) := by
  obtain ⟨m, fill, zero, terminated, string, size⟩ := filled_string io short small
  obtain ⟨rest, shape⟩ := cstring_split terminated
  have view : m.buffer ++ io.memory.after = cstring piece ++ 0 :: (rest ++ io.memory.after) := by
    conv_lhs => rw [shape, string, List.append_assoc, List.cons_append]
  have noNul := not_mem_cstring piece
  have searched : strstrLit (m.buffer ++ io.memory.after) (cstr "\r\n\r\n") = some true := by
    rw [strstrLit, view, cstring_append_nul, cstring_eq_self noNul, if_pos ended]
  have inside : 13 ∈ cstring (m.buffer ++ io.memory.after) →
      (firstLine (m.buffer ++ io.memory.after)).length + 2 + maxDataSize ≤ (m.buffer ++ io.memory.after).length := by
    intro cr
    have line := firstLine_lt cr
    have behind := ample.after
    rw [cstring_append terminated, string] at line
    rw [List.length_append]
    omega
  have requested := fun n => requested_ended (n := n) (io.bring piece) fill zero searched
  rw [← asksNothing_behind noNul (short.trans (by decide)) ended io.memory.key (rest ++ io.memory.after), ← view,
    ← parse_asks_nothing_iff ⟨ample.key, ample.value⟩ inside]
  constructor
  · rintro ⟨n, found, host, path⟩
    obtain ⟨req, parsed, rfl⟩ := (requested n).mp found
    exact ⟨req, parsed, host, path⟩
  · rintro ⟨req, parsed, host, path⟩
    exact ⟨_, (requested _).mpr ⟨req, parsed, rfl⟩, host, path⟩

/-- A first piece is left without a host and a path, whatever the memory around the run holds. -/
theorem NeverAsks.requested (never : NeverAsks request) (ample : io.memory.Ample) (start : piece <+: request)
    (small : piece.length ≤ maxDataSize) : ∃ n,
    (CacheNode.fresh none none initialBuffer).requested 0 (io.bring piece) = some n ∧
      n.httpInfo.host.str = [] ∧ n.httpInfo.path.str = [] := by
  have strings := cstring_mono start
  have short : (cstring piece).length < initialBuffer := strings.length_le.trans_lt never.short
  by_cases ended : cstr "\r\n\r\n" <:+: cstring piece
  · exact (requested_asks_nothing_iff ample short ended small).mpr (never.ended _ strings ended _ ample.key)
  · obtain ⟨n, requested, zero⟩ := requested_unended io short ended small
    refine ⟨n, requested, ?_⟩
    rw [zero]
    exact ⟨zero_str (by decide), zero_str (by decide)⟩

/-- A line without a space is not parsed, where the first line is short enough for the path to be copied. -/
theorem spaceless_unfit {key : List UInt8} (noNul : 0 ∉ piece) (full : piece.length = initialBuffer) (after : List UInt8) :
    ¬ RequestFits key (withEmptyLine (piece ++ cstr "\r\nX") ++ [] ++ 0 :: after) := by
  intro fits
  have text : 0 ∉ withEmptyLine (piece ++ cstr "\r\nX") ++ [] := by
    rw [List.append_nil, withEmptyLine, List.append_assoc, List.mem_append, not_or]
    exact ⟨noNul, by decide⟩
  have length : (withEmptyLine (piece ++ cstr "\r\nX") ++ []).length < maxDataSize := by
    rw [List.append_nil, withEmptyLine, List.append_assoc, List.length_append, full]
    decide
  have line := fits.short
  rw [firstLine_view] at line
  have inside : (firstLine (withEmptyLine (piece ++ cstr "\r\nX"))).length + 2 ≤ piece.length := by
    rw [full]
    unfold initialBuffer
    omega
  have member : cstr "X" ∈ viewLines (withEmptyLine (piece ++ cstr "\r\nX") ++ [] ++ 0 :: after) := by
    have behind : behindFirst (withEmptyLine (piece ++ cstr "\r\nX")) =
        piece.drop ((firstLine (withEmptyLine (piece ++ cstr "\r\nX"))).length + 2) ++ 13 :: cstr "\nX\r\n\r\n" := by
      generalize same : (firstLine (withEmptyLine (piece ++ cstr "\r\nX"))).length + 2 = n at inside
      rw [behindFirst, same, withEmptyLine, List.append_assoc, List.drop_append_of_le_length inside]
      rfl
    rw [viewLines, (lineBuffer_head text length after).1, List.append_nil, behind, tokens_append (by decide)]
    exact List.mem_append_right _ (by decide)
  exact absurd (fits.spaces _ member) (by decide)

/-- What `realloc` adds ends a request with a line that has no space. -/
def Io.hostile : Io :=
  { accepted := none, received := none, connected := none, sent := 0
    grown := fun i => (cstr "\r\nX\r\n\r\n").getD i 0, memory := .full }

theorem hostile_grown : ∃ rest, (List.range maxDataSize).map Io.hostile.grown = cstr "\r\nX\r\n\r\n" ++ 0 :: rest :=
  ⟨List.replicate (maxDataSize - 8) 0, by decide +kernel⟩

/-- A piece that fills the buffer is parsed with what `realloc` has added. -/
theorem requested_hostile (noNul : 0 ∉ piece) (full : piece.length = initialBuffer) :
    (CacheNode.fresh none none initialBuffer).requested 0 (Io.hostile.bring piece) = none := by
  rw [Option.eq_none_iff_forall_ne_some]
  intro n requested
  obtain ⟨rest, grown⟩ := hostile_grown
  have fill := filled_long .hostile full.ge (by rw [full]; decide)
  rw [full, Nat.sub_self, List.drop_zero, grown] at fill
  obtain ⟨text, lines⟩ : ∃ text, withEmptyLine (piece ++ cstr "\r\nX") ++ [] = text := ⟨_, rfl⟩
  have whole : piece ++ cstr "\r\nX\r\n\r\n" = text := by
    rw [← lines, List.append_nil, withEmptyLine, List.append_assoc]
    rfl
  have shape : piece ++ (cstr "\r\nX\r\n\r\n" ++ 0 :: rest) ++ (Io.hostile.bring piece).memory.after =
      text ++ 0 :: (rest ++ Memory.full.after) := by
    rw [← whole, List.append_assoc, List.append_assoc, List.append_assoc, List.cons_append]
    rfl
  have textNoNul : 0 ∉ text := by
    rw [← whole, List.mem_append, not_or]
    exact ⟨noNul, by decide⟩
  have string : cstring (text ++ 0 :: (rest ++ Memory.full.after)) = text := by
    rw [cstring_append_nul, cstring_eq_self textNoNul]
  have searched : strstrLit (text ++ 0 :: (rest ++ Memory.full.after)) (cstr "\r\n\r\n") = some true := by
    have ends : cstr "\r\n\r\n" <:+: cstr "\r\nX\r\n\r\n" := by decide
    rw [strstrLit, string, ← whole, if_pos (ends.trans (List.suffix_append _ _).isInfix)]
  obtain ⟨req, parsed, _⟩ :=
    (requested_ended (Io.hostile.bring piece) fill rfl (by rw [shape]; exact searched)).mp requested
  rw [shape] at parsed
  have inside : 13 ∈ cstring (text ++ 0 :: (rest ++ Memory.full.after)) →
      (firstLine (text ++ 0 :: (rest ++ Memory.full.after))).length + 2 + maxDataSize ≤
        (text ++ 0 :: (rest ++ Memory.full.after)).length := by
    intro cr
    have line := firstLine_lt cr
    have behind : maxDataSize ≤ Memory.full.after.length := full_ample.after
    rw [string] at line
    rw [List.length_append, List.length_cons, List.length_append]
    omega
  have fits := request_fits ⟨full_ample.key, full_ample.value⟩ inside zero_closed.1 parsed
  rw [← lines] at fits
  exact spaceless_unfit noNul full _ fits

/-! ### Responses -/

/-- No header is parsed from one byte. -/
theorem heard_byte {n : CacheNode} {offset : Int} (incomplete : n.httpInfo.infoComplete = false) (byte : UInt8) :
    n.heard offset (io.bring [byte]) = none := by
  rw [Option.eq_none_iff_forall_ne_some]
  intro m heard
  obtain ⟨filled, fill, heard⟩ := Option.bind_eq_some_iff.mp heard
  rw [filled_info fill, incomplete, if_neg Bool.false_ne_true] at heard
  obtain ⟨info, parsed, _⟩ := Option.bind_eq_some_iff.mp heard
  obtain ⟨line, rest, received, _, _, long, _⟩ := parseResponse_line parsed
  rw [chunk_bring io (by exact Nat.le_of_ble_eq_true rfl)] at received
  have length := congrArg List.length received
  rw [List.length_singleton, List.length_append, List.length_cons] at length
  omega

theorem filled_some (io : Io) {n : CacheNode} {used : Nat} (length : n.buffer.length = n.bufferSize) (room : used < n.bufferSize) :
    ∃ m, n.filled used io = some m := by
  obtain ⟨extra, bufferEq, _, fits⟩ :=
    growBuffer_spec n used io.grown (by omega) (length_chunk_le io)
  have inside : (0 : Int) ≤ used ∧ (used : Int) + io.chunk.length ≤ (n.buffer ++ extra).length := by
    rw [List.length_append, length]
    omega
  have copied : copyToBuffer (growBuffer n used io.chunk.length io.grown).buffer used io.chunk =
      some (memcpy (n.buffer ++ extra) used io.chunk) := by
    rw [bufferEq]
    exact if_pos inside
  exact ⟨_, Option.bind_eq_some_iff.mpr ⟨_, copied, rfl⟩⟩

end

end NetProjects.Proxy
