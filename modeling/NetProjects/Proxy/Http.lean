import NetProjects.Library.CString

/-!
# HTTP headers

`parseRequest` and `parseResponse` fill the `char` arrays of an `http_info_t`. Both return `none`
where a copy leaves its array, the terminator included, or a read runs off the memory. The program
goes on there with what it has overwritten; a run of the model ends, so that what is said of all
runs is said of those in which every status and every value fits its field.
-/

namespace NetProjects.Proxy
open Bytes

/-- A `char` array of `n` bytes that holds a terminated string. -/
structure Field (n : Nat) where
  bytes : List UInt8
  size : bytes.length = n
  terminated : 0 ∈ bytes

namespace Field

variable {n : Nat}

@[ext] theorem ext {f g : Field n} (same : f.bytes = g.bytes) : f = g := by
  cases f
  cases g
  cases same
  rfl

instance : DecidableEq (Field n) := fun f g => decidable_of_iff (f.bytes = g.bytes) ⟨ext, congrArg bytes⟩

def ofBytes? (bytes : List UInt8) : Option (Field n) :=
  if h : bytes.length = n ∧ 0 ∈ bytes then some ⟨bytes, h.1, h.2⟩ else none

def str (f : Field n) : List UInt8 := cstring f.bytes

theorem length_zeros (n : Nat) : (List.replicate n (0 : UInt8)).length = n := List.length_replicate

def zero (pos : 0 < n) : Field n :=
  { bytes := List.replicate n 0, size := length_zeros n
    terminated := List.mem_replicate.mpr ⟨Nat.ne_of_gt pos, rfl⟩ }

def strcpy (f : Field n) (src : List UInt8) : Option (Field n) := (Bytes.strcpy f.bytes src).bind ofBytes?

def strncpy (f : Field n) (src : List UInt8) (count : Nat) : Option (Field n) :=
  (Bytes.strncpy f.bytes src count).bind ofBytes?

def memcpy (f : Field n) (src : List UInt8) (count : Nat) : Option (Field n) :=
  if count ≤ n ∧ count ≤ src.length then ofBytes? (Bytes.memcpy f.bytes 0 (src.take count)) else none

end Field

structure HttpInfo where
  host : Field 253
  path : Field 100
  userAgent : Field 10
  connection : Field 10
  status : Field 20
  contentLength : Field 10
  date : Field 30
  infoComplete : Bool
  deriving DecidableEq

def HttpInfo.zero : HttpInfo :=
  { host := .zero (by decide), path := .zero (by decide), userAgent := .zero (by decide)
    connection := .zero (by decide), status := .zero (by decide), contentLength := .zero (by decide)
    date := .zero (by decide), infoComplete := false }

def maxDataSize : Nat := 1500

def isDelim (c : UInt8) : Bool := c = 13 || c = 10

/-- What is in memory around a parse: after the buffer that holds the message, and where the key
and the value are allocated. -/
structure Memory where
  after : List UInt8
  key : List UInt8
  value : List UInt8

/-- The loop over the header lines in `buf`. A line without a space is left to `noSpace`, the
others are split at their first space and handed to `assign`. -/
def headerLines (noSpace : HttpInfo → Option HttpInfo)
    (assign : List UInt8 → List UInt8 → HttpInfo → Option HttpInfo) :
    Nat → List UInt8 → Nat → Block → Block → HttpInfo → Option HttpInfo
  | 0, _, _, _, _, _ => none
  | fuel + 1, buf, save, key, value, info =>
    match strtokR isDelim buf save with
    | none => some info
    | some t => do
      let pos ← strchr 32 (t.token ++ [0])
      if pos < 0 then noSpace info
      else
        -- `strlen(buf)` ends at the NUL that `strtok_r` put after the first line.
        let len ← strlen t.buf
        let keyArray ← memzero key.array len
        let valueArray ← memzero value.array len
        let keyArray ← strncpy keyArray (t.token ++ [0]) pos.toNat
        let valueArray ← strncpy valueArray ((t.token ++ [0]).drop (pos.toNat + 1)) t.token.length
        let key := { key with array := keyArray }
        let value := { value with array := valueArray }
        let info ← assign key.view value.view info
        headerLines noSpace assign fuel t.buf t.save key value info

/-- The rest of the message after the first line, in a buffer of its own, line by line. -/
def parseLines (noSpace : HttpInfo → Option HttpInfo)
    (assign : List UInt8 → List UInt8 → HttpInfo → Option HttpInfo) (message : List UInt8) (pos : Int)
    (memory : Memory) (info : HttpInfo) : Option HttpInfo := do
  let buf ← memread message (pos + 2).toNat maxDataSize
  let len ← strlen buf
  let key ← malloc memory.key len
  let value ← malloc memory.value len
  headerLines noSpace assign (maxDataSize + 1) buf 0 key value info

def assignRequest (key value : List UInt8) (req : HttpInfo) : Option HttpInfo := do
  if ← strcmpLit key (cstr "Host:") then
    return { req with host := ← req.host.strcpy value }
  else if ← strcmpLit key (cstr "User-Agent:") then
    return { req with userAgent := ← req.userAgent.strcpy value }
  else if ← strcmpLit key (cstr "Connection:") then
    return { req with connection := ← req.connection.strcpy value }
  else return req

/-- `parse_request` on the memory from `req_buf` on. -/
def parseRequest (reqBuf : List UInt8) (memory : Memory) (req : HttpInfo) : Option HttpInfo := do
  let pos ← strchr 13 reqBuf
  let path ← req.path.strncpy (reqBuf.drop 4) (toSize (pos - 13))
  -- A line without a space asks for a copy of `(size_t)-1` bytes.
  parseLines (fun _ => none) assignRequest reqBuf pos memory { req with path := path }

def assignResponse (key value : List UInt8) (res : HttpInfo) : Option HttpInfo := do
  if ← strcmpLit key (cstr "Content-Length:") then
    return { res with contentLength := ← res.contentLength.strcpy value }
  else if ← strcmpLit key (cstr "Date:") then
    return { res with date := ← res.date.strcpy value }
  else return res

def parseResponse (resBuf : List UInt8) (memory : Memory) (res : HttpInfo) : Option HttpInfo := do
  let pos ← strchr 13 resBuf
  let status ← res.status.memcpy (resBuf.drop 9) (toSize (pos - 9))
  -- A line without a space ends the loop.
  parseLines some assignResponse resBuf pos memory { res with status := status }

/-! ### Copies that fit -/

theorem memcpy_field {k : Nat} (a : Field k) (src : List UInt8) (fits : src.length ≤ k)
    (terminated : 0 ∈ src ++ a.bytes.drop src.length) :
    ∃ b, Field.ofBytes? (n := k) (memcpy a.bytes 0 src) = some b := by
  refine ⟨_, dif_pos ⟨?_, ?_⟩⟩
  · rw [length_memcpy (by rw [a.size]; omega), a.size]
  · rw [memcpy_zero]
    exact terminated

theorem ofBytes?_bytes {k : Nat} {bytes : List UInt8} {field : Field k} (whole : Field.ofBytes? bytes = some field) :
    field.bytes = bytes := by
  unfold Field.ofBytes? at whole
  split at whole
  · exact Option.some.inj whole ▸ rfl
  · cases whole

/-- A string that leaves room for its terminator is copied. -/
theorem strcpy_text {k : Nat} (a : Field k) {src : List UInt8} (terminated : 0 ∈ src)
    (short : (cstring src).length < k) :
    ∃ d, a.strcpy src = some d ∧ d.str = cstring src := by
  have copied : Bytes.strcpy a.bytes src = some (memcpy a.bytes 0 (cstring src ++ [0])) :=
    if_pos ⟨terminated, short.trans_eq a.size.symm⟩
  obtain ⟨d, whole⟩ := memcpy_field a (cstring src ++ [0])
    (by rw [List.length_append, List.length_singleton]; exact short)
    (List.mem_append_left _ (List.mem_append_right _ List.mem_cons_self))
  refine ⟨d, Option.bind_eq_some_iff.mpr ⟨_, copied, whole⟩, ?_⟩
  rw [Field.str, ofBytes?_bytes whole, memcpy_zero, List.append_assoc, List.singleton_append, cstring_append_nul,
    cstring_eq_self (not_mem_cstring src)]

/-- The start of a string is copied into a blank field. -/
theorem strncpy_text {k n : Nat} {a : Field k} (blank : a.bytes = List.replicate k 0) {src : List UInt8} (short : n < k)
    (long : n ≤ (cstring src).length) : ∃ d, a.strncpy src n = some d ∧ d.str = (cstring src).take n := by
  have size : ((cstring src).take n).length = n := List.length_take_of_le long
  have inside : n ≤ src.length := long.trans (List.takeWhile_prefix _).length_le
  have copied : Bytes.strncpy a.bytes src n = some (memcpy a.bytes 0 ((cstring src).take n)) := by
    unfold Bytes.strncpy
    rw [if_pos ⟨by rw [a.size]; exact short.le, Or.inl inside⟩]
    dsimp only
    rw [size, Nat.sub_self, List.replicate_zero, List.append_nil]
  have padded : a.bytes.drop n = 0 :: List.replicate (k - n - 1) 0 := by
    rw [blank, List.drop_replicate, ← List.replicate_succ]
    congr
    omega
  obtain ⟨d, whole⟩ := memcpy_field a ((cstring src).take n) (by rw [size]; exact short.le) (by
    rw [size, padded]
    exact List.mem_append_right _ List.mem_cons_self)
  refine ⟨d, Option.bind_eq_some_iff.mpr ⟨_, copied, whole⟩, ?_⟩
  rw [Field.str, ofBytes?_bytes whole, memcpy_zero, size, padded, cstring_append_nul, cstring_eq_self]
  intro nul
  exact not_mem_cstring src (List.mem_of_mem_take nul)

/-- The status of a line that fits is copied, whatever follows the line. -/
theorem memcpy_status {info : HttpInfo} (blank : info.status = HttpInfo.zero.status) {line : List UInt8}
    (long : 9 ≤ line.length) (short : line.length ≤ 28) (rest : List UInt8) :
    ∃ status, info.status.memcpy ((line ++ rest).drop 9) (toSize ((line.length : Int) - 9)) = some status := by
  have count : toSize ((line.length : Int) - 9) = (line.drop 9).length := by
    rw [toSize, if_pos (by omega), List.length_drop]
    omega
  have fits : (line.drop 9).length ≤ 19 := by
    rw [List.length_drop]
    omega
  obtain ⟨status, whole⟩ := memcpy_field info.status (line.drop 9) (fits.trans (by decide)) (by
    rw [blank]
    refine List.mem_append_right _ ?_
    change 0 ∈ (List.replicate 20 (0 : UInt8)).drop _
    rw [List.drop_replicate]
    exact List.mem_replicate.mpr ⟨by omega, rfl⟩)
  refine ⟨status, ?_⟩
  rw [Field.memcpy, count, List.drop_append_of_le_length long, List.take_left, if_pos, whole]
  refine ⟨fits.trans (by decide), ?_⟩
  rw [List.length_append]
  omega

/-! ### What a parse leaves alone -/

section

variable {noSpace : HttpInfo → Option HttpInfo} {assign : List UInt8 → List UInt8 → HttpInfo → Option HttpInfo}

/-- The value of a line is part of that line. -/
theorem value_text {token cleared valued : List UInt8} {pos : Int} (found : strchr 32 (token ++ [0]) = some pos)
    (space : ¬ pos < 0) (copied : strncpy cleared ((token ++ [0]).drop (pos.toNat + 1)) token.length = some valued)
    (after : List UInt8) : ∀ c ∈ cstring (valued ++ after), c ∈ token := by
  obtain ⟨rfl, _⟩ | ⟨before, text, split, rfl, _, noNul⟩ := strchr_some found
  · exact absurd (by decide) space
  have terminated : 0 ∈ text := by
    have last : (0 : UInt8) ∈ before ++ 32 :: text := by
      rw [← split]
      exact List.mem_append_right _ List.mem_cons_self
    obtain early | here := List.mem_append.mp last
    · exact absurd early noNul
    · exact (List.mem_cons.mp here).resolve_left (by decide)
  have lengths := congrArg List.length split
  rw [List.length_append, List.length_append, List.length_singleton, List.length_cons] at lengths
  have short := length_cstring_lt terminated
  have rest : (before ++ 32 :: text).drop (before.length + 1) = text := List.drop_length_add_append 1
  have padding : token.length - (cstring text).length = token.length - (cstring text).length - 1 + 1 := by omega
  rw [split, Int.toNat_natCast, rest] at copied
  unfold strncpy at copied
  dsimp only at copied
  rw [List.take_of_length_le (by omega), padding, List.replicate_succ] at copied
  split at copied
  swap
  · cases copied
  obtain rfl := Option.some.inj copied
  intro c member
  rw [memcpy_zero, List.append_assoc, List.append_assoc, List.cons_append, cstring_append_nul,
    cstring_eq_self (not_mem_cstring text)] at member
  have inText : c ∈ token ++ [0] := by
    rw [split]
    exact List.mem_append_right _ (List.mem_cons_of_mem _ ((List.takeWhile_prefix _).subset member))
  obtain inToken | nul := List.mem_append.mp inText
  · exact inToken
  · rw [List.mem_singleton.mp nul] at member
    exact absurd member (not_mem_cstring text)

theorem headerLines_keeps {P : HttpInfo → Prop}
    (noSpaceKeeps : ∀ i j, noSpace i = some j → P i → P j)
    (assignKeeps : ∀ k x i j, 13 ∉ cstring x → assign k x i = some j → P i → P j) {fuel : Nat} {buf : List UInt8}
    {save : Nat} {key value : Block} {i j : HttpInfo}
    (h : headerLines noSpace assign fuel buf save key value i = some j) (holds : P i) : P j := by
  induction fuel generalizing buf save key value i with
  | zero => cases h
  | succ fuel ih =>
    rw [headerLines] at h
    split at h
    · exact Option.some.inj h ▸ holds
    · rename_i t token
      obtain ⟨pos, found, h⟩ := Option.bind_eq_some_iff.mp h
      split at h
      · exact noSpaceKeeps i j h holds
      · rename_i space
        obtain ⟨_, _, h⟩ := Option.bind_eq_some_iff.mp h
        obtain ⟨_, _, h⟩ := Option.bind_eq_some_iff.mp h
        obtain ⟨_, _, h⟩ := Option.bind_eq_some_iff.mp h
        obtain ⟨_, _, h⟩ := Option.bind_eq_some_iff.mp h
        obtain ⟨_, copied, h⟩ := Option.bind_eq_some_iff.mp h
        obtain ⟨next, assigned, h⟩ := Option.bind_eq_some_iff.mp h
        have noCr : 13 ∉ cstring (Block.view ⟨_, value.after⟩) := fun member =>
          absurd (strtokR_inside token 13 (value_text found space copied value.after 13 member)).2 (by decide)
        exact ih h (assignKeeps _ _ i next noCr assigned holds)

theorem parseLines_keeps {P : HttpInfo → Prop}
    (noSpaceKeeps : ∀ i j, noSpace i = some j → P i → P j)
    (assignKeeps : ∀ k x i j, 13 ∉ cstring x → assign k x i = some j → P i → P j) {message : List UInt8} {pos : Int}
    {memory : Memory} {i j : HttpInfo} (h : parseLines noSpace assign message pos memory i = some j)
    (holds : P i) : P j := by
  obtain ⟨_, _, h⟩ := Option.bind_eq_some_iff.mp h
  obtain ⟨_, _, h⟩ := Option.bind_eq_some_iff.mp h
  obtain ⟨_, _, h⟩ := Option.bind_eq_some_iff.mp h
  obtain ⟨_, _, h⟩ := Option.bind_eq_some_iff.mp h
  exact headerLines_keeps noSpaceKeeps assignKeeps h holds

end

theorem assignRequest_cases {key value : List UInt8} {i j : HttpInfo} (h : assignRequest key value i = some j) :
    j = i ∨ (∃ host, i.host.strcpy value = some host ∧ j = { i with host := host }) ∨
      (∃ agent, j = { i with userAgent := agent }) ∨ ∃ connection, j = { i with connection := connection } := by
  obtain ⟨isHost, _, h⟩ := Option.bind_eq_some_iff.mp h
  split at h
  · obtain ⟨host, copied, h⟩ := Option.bind_eq_some_iff.mp h
    exact Or.inr (Or.inl ⟨host, copied, (Option.some.inj h).symm⟩)
  obtain ⟨isAgent, _, h⟩ := Option.bind_eq_some_iff.mp h
  split at h
  · obtain ⟨agent, _, h⟩ := Option.bind_eq_some_iff.mp h
    exact Or.inr (Or.inr (Or.inl ⟨agent, (Option.some.inj h).symm⟩))
  obtain ⟨isConnection, _, h⟩ := Option.bind_eq_some_iff.mp h
  split at h
  · obtain ⟨connection, _, h⟩ := Option.bind_eq_some_iff.mp h
    exact Or.inr (Or.inr (Or.inr ⟨connection, (Option.some.inj h).symm⟩))
  · exact Or.inl (Option.some.inj h).symm

theorem assignResponse_cases {key value : List UInt8} {i j : HttpInfo} (h : assignResponse key value i = some j) :
    j = i ∨ (∃ length, j = { i with contentLength := length }) ∨
      ∃ date, i.date.strcpy value = some date ∧ j = { i with date := date } := by
  obtain ⟨isLength, _, h⟩ := Option.bind_eq_some_iff.mp h
  split at h
  · obtain ⟨length, _, h⟩ := Option.bind_eq_some_iff.mp h
    exact Or.inr (Or.inl ⟨length, (Option.some.inj h).symm⟩)
  obtain ⟨isDate, _, h⟩ := Option.bind_eq_some_iff.mp h
  split at h
  · obtain ⟨date, copied, h⟩ := Option.bind_eq_some_iff.mp h
    exact Or.inr (Or.inr ⟨date, copied, (Option.some.inj h).symm⟩)
  · exact Or.inl (Option.some.inj h).symm

/-- What a request does not change: what a response fills. -/
def SameResponse (i j : HttpInfo) : Prop :=
  j.status = i.status ∧ j.date = i.date ∧ j.contentLength = i.contentLength ∧ j.infoComplete = i.infoComplete

theorem SameResponse.trans {i j k : HttpInfo} (h : SameResponse i j) (h' : SameResponse j k) : SameResponse i k := by
  obtain ⟨status, date, length, complete⟩ := h
  obtain ⟨status', date', length', complete'⟩ := h'
  exact ⟨status'.trans status, date'.trans date, length'.trans length, complete'.trans complete⟩

theorem assignRequest_same {key value : List UInt8} {i j : HttpInfo} (h : assignRequest key value i = some j) :
    SameResponse i j ∧ j.path = i.path := by
  obtain rfl | ⟨_, _, rfl⟩ | ⟨_, rfl⟩ | ⟨_, rfl⟩ := assignRequest_cases h <;> exact ⟨⟨rfl, rfl, rfl, rfl⟩, rfl⟩

theorem parseRequest_same {reqBuf : List UInt8} {memory : Memory} {i j : HttpInfo}
    (h : parseRequest reqBuf memory i = some j) : SameResponse i j := by
  obtain ⟨_, _, h⟩ := Option.bind_eq_some_iff.mp h
  obtain ⟨path, _, h⟩ := Option.bind_eq_some_iff.mp h
  refine parseLines_keeps (P := SameResponse i) ?_ ?_ h ⟨rfl, rfl, rfl, rfl⟩
  · intro _ _ impossible
    cases impossible
  · intro _ _ _ _ _ assigned same
    exact same.trans (assignRequest_same assigned).1

theorem parseRequest_complete {reqBuf : List UInt8} {memory : Memory} {i j : HttpInfo}
    (h : parseRequest reqBuf memory i = some j) : j.infoComplete = i.infoComplete := (parseRequest_same h).2.2.2

/-- What a response does not change: the URL and the completeness. -/
def SameRequest (i j : HttpInfo) : Prop := j.host = i.host ∧ j.path = i.path ∧ j.infoComplete = i.infoComplete

theorem assignResponse_same {key value : List UInt8} {i j : HttpInfo} (h : assignResponse key value i = some j) :
    SameRequest i j ∧ j.status = i.status := by
  obtain rfl | ⟨_, rfl⟩ | ⟨_, _, rfl⟩ := assignResponse_cases h <;> exact ⟨⟨rfl, rfl, rfl⟩, rfl⟩

theorem parseResponse_same {resBuf : List UInt8} {memory : Memory} {i j : HttpInfo}
    (h : parseResponse resBuf memory i = some j) : SameRequest i j := by
  obtain ⟨_, _, h⟩ := Option.bind_eq_some_iff.mp h
  obtain ⟨status, _, h⟩ := Option.bind_eq_some_iff.mp h
  refine parseLines_keeps (P := SameRequest i) ?_ ?_ h ⟨rfl, rfl, rfl⟩
  · intro _ _ ended same
    exact Option.some.inj ended ▸ same
  · intro _ _ _ _ _ assigned same
    obtain ⟨⟨host, path, complete⟩, _⟩ := assignResponse_same assigned
    exact ⟨host.trans same.1, path.trans same.2.1, complete.trans same.2.2⟩

end NetProjects.Proxy
