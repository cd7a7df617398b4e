import NetProjects.Proxy.Infos
import NetProjects.Proxy.Sending

/-!
# Conditional gets on the wire

The request for a cached document is formatted afresh in every call of `cache_send`, while the length
and the offset are those of the client's buffer.
-/

namespace NetProjects.Proxy
open Bytes

/-- What `sprintf` formats. -/
def HttpInfo.conditionalRequest (info : HttpInfo) : List UInt8 :=
  cstr "GET " ++ info.path.str ++ cstr " HTTP/1.0\r\nHost: " ++ info.host.str ++
    cstr "\r\nIf-Modified-Since: " ++ info.date.str ++ cstr "\r\n\r\n"

/-- No field of the request has a line end. -/
structure HttpInfo.OneLine (info : HttpInfo) : Prop where
  path : 13 ∉ info.path.str
  host : 13 ∉ info.host.str
  date : 13 ∉ info.date.str

/-- There is no line end in the arrays, also behind the strings. -/
structure HttpInfo.NoLineEnd (info : HttpInfo) : Prop where
  path : 13 ∉ info.path.bytes
  host : 13 ∉ info.host.bytes
  date : 13 ∉ info.date.bytes

/-- The first `n` bytes from the start of an array, `none` where it ends. -/
def front (array : List UInt8) (n : Nat) : List (Option UInt8) := (List.range n).map fun i => array[i]?

/-! ### Every info is of one line -/

section

variable {i j : HttpInfo} {k x : List UInt8}

theorem HttpInfo.NoLineEnd.oneLine (clean : i.NoLineEnd) : i.OneLine := by
  obtain ⟨path, host, date⟩ := clean
  exact ⟨fun member => path ((List.takeWhile_prefix _).subset member),
    fun member => host ((List.takeWhile_prefix _).subset member),
    fun member => date ((List.takeWhile_prefix _).subset member)⟩

theorem strcpy_noLineEnd {n : Nat} {f d : Field n} {src : List UInt8} (copied : f.strcpy src = some d)
    (text : 13 ∉ cstring src) (clean : 13 ∉ f.bytes) : 13 ∉ d.bytes := by
  obtain ⟨bytes, copied, whole⟩ := Option.bind_eq_some_iff.mp copied
  unfold Bytes.strcpy at copied
  split at copied
  swap
  · cases copied
  obtain rfl := Option.some.inj copied
  rw [ofBytes?_bytes whole, memcpy_zero, List.mem_append, List.mem_append, not_or, not_or]
  exact ⟨⟨text, by decide⟩, fun old => clean (List.mem_of_mem_drop old)⟩

theorem strncpy_noLineEnd {n count : Nat} {f d : Field n} {src : List UInt8} (copied : f.strncpy src count = some d)
    (text : 13 ∉ src.take count) (clean : 13 ∉ f.bytes) : 13 ∉ d.bytes := by
  obtain ⟨bytes, copied, whole⟩ := Option.bind_eq_some_iff.mp copied
  unfold Bytes.strncpy at copied
  split at copied
  swap
  · cases copied
  obtain rfl := Option.some.inj copied
  rw [ofBytes?_bytes whole, memcpy_zero, List.mem_append, List.mem_append, not_or, not_or]
  refine ⟨⟨?_, ?_⟩, fun old => clean (List.mem_of_mem_drop old)⟩
  · rw [← cstring_take]
    exact fun member => text ((List.takeWhile_prefix _).subset member)
  · exact fun member => absurd (List.eq_of_mem_replicate member) (by decide)

theorem assignRequest_noLineEnd (text : 13 ∉ cstring x) (assigned : assignRequest k x i = some j)
    (clean : i.NoLineEnd) : j.NoLineEnd := by
  obtain ⟨path, host, date⟩ := clean
  obtain rfl | ⟨copy, copied, rfl⟩ | ⟨_, rfl⟩ | ⟨_, rfl⟩ := assignRequest_cases assigned
  · exact ⟨path, host, date⟩
  · exact ⟨path, strcpy_noLineEnd copied text host, date⟩
  · exact ⟨path, host, date⟩
  · exact ⟨path, host, date⟩

theorem assignResponse_noLineEnd (text : 13 ∉ cstring x) (assigned : assignResponse k x i = some j)
    (clean : i.NoLineEnd) : j.NoLineEnd := by
  obtain ⟨path, host, date⟩ := clean
  obtain rfl | ⟨_, rfl⟩ | ⟨copy, copied, rfl⟩ := assignResponse_cases assigned
  · exact ⟨path, host, date⟩
  · exact ⟨path, host, date⟩
  · exact ⟨path, host, strcpy_noLineEnd copied text date⟩

/-- The path is cut out of the bytes in front of the first line end. -/
theorem parseRequest_noLineEnd {reqBuf : List UInt8} {memory : Memory} (parsed : parseRequest reqBuf memory i = some j)
    (clean : i.NoLineEnd) : j.NoLineEnd := by
  obtain ⟨pos, found, parsed⟩ := Option.bind_eq_some_iff.mp parsed
  obtain ⟨path, copied, lines⟩ := Option.bind_eq_some_iff.mp parsed
  have count : toSize (pos - 13) ≤ 100 := by
    obtain ⟨_, copied, _⟩ := Option.bind_eq_some_iff.mp copied
    unfold Bytes.strncpy at copied
    split at copied
    · rename_i fits
      exact fits.1.trans_eq i.path.size
    · cases copied
  have text : 13 ∉ (reqBuf.drop 4).take (toSize (pos - 13)) := by
    obtain ⟨rfl, _⟩ | ⟨before, after, rfl, rfl, noCr, _⟩ := strchr_some found
    · exact absurd count (by decide)
    unfold toSize at count ⊢
    split at count
    swap
    · omega
    rename_i inside
    rw [if_pos inside, List.drop_append_of_le_length (by omega), List.take_append_of_le_length (by
      rw [List.length_drop]
      omega)]
    exact fun member => noCr (List.mem_of_mem_drop (List.mem_of_mem_take member))
  refine parseLines_keeps (P := HttpInfo.NoLineEnd) ?_ ?_ lines
    ⟨strncpy_noLineEnd copied text clean.path, clean.host, clean.date⟩
  · intro _ _ impossible
    cases impossible
  · intro _ _ _ _ text assigned
    exact assignRequest_noLineEnd text assigned

theorem parseResponse_noLineEnd {resBuf : List UInt8} {memory : Memory} (parsed : parseResponse resBuf memory i = some j)
    (clean : i.NoLineEnd) : j.NoLineEnd := by
  obtain ⟨path, host, date⟩ := clean
  obtain ⟨_, _, parsed⟩ := Option.bind_eq_some_iff.mp parsed
  obtain ⟨status, _, lines⟩ := Option.bind_eq_some_iff.mp parsed
  refine parseLines_keeps (P := HttpInfo.NoLineEnd) ?_ ?_ lines ⟨path, host, date⟩
  · intro _ _ ended clean
    exact Option.some.inj ended ▸ clean
  · intro _ _ _ _ text assigned
    exact assignResponse_noLineEnd text assigned

theorem keptInfo_noLineEnd : KeptInfo HttpInfo.NoLineEnd := by
  have zeros : ∀ n, (13 : UInt8) ∉ List.replicate n 0 := fun n member =>
    absurd (List.eq_of_mem_replicate member) (by decide)
  constructor
  · exact ⟨zeros 100, zeros 253, zeros 30⟩
  · intro _ _ _ _ parsed clean
    exact parseRequest_noLineEnd parsed clean
  · intro _ _ _ _ parsed clean
    obtain ⟨path, host, date⟩ := parseResponse_noLineEnd parsed clean
    exact ⟨path, host, date⟩
  · intro _ _ _ copied clean other
    exact ⟨clean.path, clean.host, strcpy_noLineEnd copied other.oneLine.date clean.date⟩

/-- What a run caches can be asked about in three lines. -/
theorem Ran.oneLine {slots : Nat} {history : List Transition} {s : ProxyState} (two : 2 ≤ slots)
    (h : Ran slots history s) (a : Nat) : (s.content a).httpInfo.OneLine := (h.keeps keptInfo_noLineEnd two a).oneLine

end

/-! ### The request -/

section

variable {info : HttpInfo}

theorem length_str {n : Nat} (field : Field n) : field.str.length < n :=
  (length_cstring_lt field.terminated).trans_eq field.size

theorem length_conditionalRequest_eq (info : HttpInfo) : info.conditionalRequest.length =
    46 + info.path.str.length + info.host.str.length + info.date.str.length := by
  have literals : (cstr "GET ").length = 4 ∧ (cstr " HTTP/1.0\r\nHost: ").length = 17 ∧
      (cstr "\r\nIf-Modified-Since: ").length = 21 ∧ (cstr "\r\n\r\n").length = 4 := by decide
  obtain ⟨get, version, since, stop⟩ := literals
  simp only [HttpInfo.conditionalRequest, List.length_append, get, version, since, stop]
  omega

theorem length_conditionalRequest (info : HttpInfo) :
    46 ≤ info.conditionalRequest.length ∧ info.conditionalRequest.length < 500 := by
  have path := length_str info.path
  have host := length_str info.host
  have date := length_str info.date
  rw [length_conditionalRequest_eq]
  omega

theorem conditionalGet_eq (info : HttpInfo) : conditionalGet info =
    info.conditionalRequest ++ List.replicate (500 - info.conditionalRequest.length) 0 := by
  change memcpy (List.replicate 500 0) 0 info.conditionalRequest = _
  rw [memcpy_zero, List.drop_replicate]

/-- The four line ends of the request. -/
theorem conditionalRequest_lines (line : info.OneLine) : ∃ get host date : List UInt8,
    info.conditionalRequest = 71 :: get ++ 13 :: (10 :: 72 :: host ++ 13 :: (10 :: 73 :: date ++ [13, 10, 13, 10])) ∧
      13 ∉ 71 :: get ∧ 13 ∉ 10 :: 72 :: host ∧ 13 ∉ 10 :: 73 :: date := by
  refine ⟨cstr "ET " ++ info.path.str ++ cstr " HTTP/1.0", cstr "ost: " ++ info.host.str,
    cstr "f-Modified-Since: " ++ info.date.str, ?_, ?_, ?_, ?_⟩
  · have get : cstr "GET " = 71 :: cstr "ET " := by decide
    have version : cstr " HTTP/1.0\r\nHost: " = cstr " HTTP/1.0" ++ 13 :: 10 :: 72 :: cstr "ost: " := by decide
    have since : cstr "\r\nIf-Modified-Since: " = 13 :: 10 :: 73 :: cstr "f-Modified-Since: " := by decide
    have stop : cstr "\r\n\r\n" = [13, 10, 13, 10] := by decide
    simp only [HttpInfo.conditionalRequest, get, version, since, stop, List.append_assoc, List.cons_append]
  · have first : (13 : UInt8) ∉ 71 :: cstr "ET " := by decide
    have last : (13 : UInt8) ∉ cstr " HTTP/1.0" := by decide
    simp only [List.mem_cons, List.mem_append, not_or] at first last ⊢
    exact ⟨first.1, ⟨first.2, line.path⟩, last⟩
  · have first : (13 : UInt8) ∉ 10 :: 72 :: cstr "ost: " := by decide
    simp only [List.mem_cons, List.mem_append, not_or] at first ⊢
    exact ⟨first.1, first.2.1, first.2.2, line.host⟩
  · have first : (13 : UInt8) ∉ 10 :: 73 :: cstr "f-Modified-Since: " := by decide
    simp only [List.mem_cons, List.mem_append, not_or] at first ⊢
    exact ⟨first.1, first.2.1, first.2.2, line.date⟩

/-- The empty line ends the request only. -/
theorem conditionalRequest_ends (line : info.OneLine) {before after : List UInt8}
    (split : info.conditionalRequest = before ++ 13 :: 10 :: 13 :: 10 :: after) : after = [] := by
  obtain ⟨get, host, date, lines, getFresh, hostFresh, dateFresh⟩ := conditionalRequest_lines line
  rw [split] at lines
  obtain ⟨_, second⟩ | ⟨us, _, second⟩ := append_cons_eq getFresh lines.symm
  · simp at second
  obtain ⟨_, third⟩ | ⟨vs, _, third⟩ := append_cons_eq hostFresh second
  · simp at third
  obtain ⟨_, last⟩ | ⟨ws, _, last⟩ := append_cons_eq dateFresh third
  · simp at last
    exact last
  · have lengths := congrArg List.length last
    simp only [List.length_append, List.length_cons, List.length_nil] at lengths
    omega

/-- No proper end of the request is also its start. -/
theorem conditionalRequest_border (line : info.OneLine) {xs ys zs : List UInt8} (nonempty : xs ≠ [])
    (start : info.conditionalRequest = xs ++ ys) (stop : info.conditionalRequest = zs ++ xs) : ys = [] := by
  obtain ⟨get, host, date, lines, _⟩ := conditionalRequest_lines line
  obtain ⟨x, xs, rfl⟩ := List.exists_cons_of_ne_nil nonempty
  have first : x = 71 := by
    rw [lines] at start
    exact (List.cons.inj start).1.symm
  obtain ⟨body, whole⟩ : ∃ body, info.conditionalRequest = body ++ [13, 10, 13, 10] :=
    ⟨71 :: get ++ 13 :: (10 :: 72 :: host ++ 13 :: (10 :: 73 :: date)), by simp [lines]⟩
  rw [whole] at stop
  obtain ⟨tail, _, short⟩ | ⟨tail, long, here⟩ := List.append_eq_append_iff.mp stop
  · -- The end is part of the empty line, which has no letter.
    have member : (71 : UInt8) ∈ [13, 10, 13, 10] := by
      rw [short, first]
      exact List.mem_append_right _ List.mem_cons_self
    exact absurd member (by decide)
  · rw [here, List.append_assoc] at start
    exact conditionalRequest_ends line start

end

/-! ### From the array -/

section

variable {s t u : ProxyState} {f c b : Nat} {io : Io} {ios : List Io}

theorem length_front (array : List UInt8) (n : Nat) : (front array n).length = n := by
  rw [front, List.length_map, List.length_range]

theorem front_append {request : List UInt8} (rest : List UInt8) {n : Nat} (inside : n ≤ request.length) :
    front (request ++ rest) n = (request.take n).map some := by
  unfold front
  apply List.ext_getElem
  · simp only [List.length_map, List.length_range, List.length_take]
    omega
  · intro i left right
    rw [List.length_map, List.length_range] at left
    simp only [List.getElem_map, List.getElem_range, List.getElem_take]
    rw [List.getElem?_append_left (by omega), List.getElem?_eq_getElem (by omega)]

/-- One call that asks about a cached document. -/
theorem conditional_send (node : (s.session f).cacheNode = some c) (conditional : (s.node f).Conditional)
    (backup : (s.node f).cacheNodeBackup = some b)
    (takes : 1 ≤ io.sent ∧ io.sent ≤ askedSize (s.content c) (s.node f).offset) (sent : cacheSend s f io = some t) :
    ∃ send : Send, t.sends = s.sends ++ [send] ∧ t.content = s.content ∧
      send.bytes = front (conditionalGet (s.content b).httpInfo) io.sent.toNat ∧
      (t.node f = { s.node f with offset := 0, status := .idle } ∧ SentAll (s.content c) ((s.node f).offset + io.sent) ∨
        t.node f = { s.node f with offset := (s.node f).offset + io.sent } ∧
          ¬ SentAll (s.content c) ((s.node f).offset + io.sent)) := by
  obtain ⟨send, made, sends, content, _, nodes⟩ := cacheSend_made node sent
  obtain ⟨a, found, array, start⟩ := made.conditional conditional
  obtain rfl : a = b := Option.some.inj (found.symm.trans backup)
  have count : send.numbytes = io.sent := made.numbytes.trans (sentBytes_taken takes)
  rw [count] at nodes
  refine ⟨send, sends, content, ?_, ?_⟩
  · unfold Send.bytes front
    rw [array, start, count]
    simp
  · obtain ⟨complete, nodes⟩ | ⟨partially, nodes⟩ := nodes
    · exact Or.inl ⟨by rw [nodes, Function.update_self], complete⟩
    · exact Or.inr ⟨by rw [nodes, Function.update_self], partially⟩

/-- Every call starts again at the front of the request. -/
theorem sending_fronts (calls : Sending f c s ios u) (node : (s.session f).cacheNode = some c)
    (conditional : (s.node f).Conditional) (backup : (s.node f).cacheNodeBackup = some b) :
    ∃ sends, u.sends = s.sends ++ sends ∧
      sends.flatMap Send.bytes = ios.flatMap fun io => front (conditionalGet (s.content b).httpInfo) io.sent.toNat := by
  induction calls with
  | done s => exact ⟨[], (List.append_nil _).symm, rfl⟩
  | @call s t u io ios busy takes sent rest ih =>
    obtain ⟨send, made, content, bytes, next⟩ := conditional_send node conditional backup takes sent
    have same : t.node f = { s.node f with offset := (t.node f).offset, status := (t.node f).status } := by
      obtain ⟨next, _⟩ | ⟨next, _⟩ := next <;> rw [next]
    obtain ⟨sends, rest, later⟩ := ih (by rw [session_eq_node, same]; exact node) (by rw [same]; exact conditional)
      (by rw [same]; exact backup)
    refine ⟨send :: sends, ?_, ?_⟩
    · rw [rest, made, List.append_assoc]
      rfl
    · rw [List.flatMap_cons, List.flatMap_cons, bytes, later, content]

theorem Sending.valid (calls : Sending f c s ios u) : ∀ io ∈ ios, 1 ≤ io.sent := by
  induction calls with
  | done => simp
  | call _ takes _ _ ih => exact List.forall_mem_cons.mpr ⟨takes.1, ih⟩

/-- The fronts make up the request only as one piece. -/
theorem fronts_eq_request {info : HttpInfo} (line : info.OneLine) (valid : ∀ io ∈ ios, 1 ≤ io.sent)
    (whole : (ios.flatMap fun io => front (conditionalGet info) io.sent.toNat) = info.conditionalRequest.map some) :
    ∃ io, ios = [io] ∧ io.sent = info.conditionalRequest.length := by
  obtain ⟨long, _⟩ := length_conditionalRequest info
  obtain rfl | ⟨before, last, rfl⟩ := List.eq_nil_or_concat ios
  · have lengths := congrArg List.length whole
    rw [List.length_map] at lengths
    rw [← lengths] at long
    exact absurd long (by simp)
  · have positive := valid last (by simp)
    rw [List.concat_eq_append, List.flatMap_append, List.flatMap_singleton] at whole
    generalize pieces : List.flatMap _ before = earlier at whole
    have lengths := congrArg List.length whole
    rw [List.length_append, length_front, List.length_map] at lengths
    -- The last piece is the start of the request, and its end.
    rw [conditionalGet_eq, front_append _ (by omega)] at whole
    have ends := congrArg (List.drop (info.conditionalRequest.length - last.sent.toNat)) whole
    rw [List.drop_left' (by omega), ← List.map_drop] at ends
    have suffix : info.conditionalRequest.take last.sent.toNat =
        info.conditionalRequest.drop (info.conditionalRequest.length - last.sent.toNat) :=
      List.map_injective_iff.mpr (Option.some_injective _) ends
    have nonempty : info.conditionalRequest.take last.sent.toNat ≠ [] := by
      intro empty
      have none := congrArg List.length empty
      rw [List.length_take, List.length_nil] at none
      omega
    have all := conditionalRequest_border line nonempty (List.take_append_drop _ _).symm
      (by rw [suffix]; exact (List.take_append_drop _ _).symm)
    have reached := congrArg List.length all
    rw [List.length_drop, List.length_nil] at reached
    cases before with
    | nil => exact ⟨last, rfl, by omega⟩
    | cons first before =>
      have more := valid first (by simp)
      rw [← pieces, List.flatMap_cons, List.length_append, length_front] at lengths
      omega

/-- A run to the end writes the request, and nothing else, exactly when the client's buffer is as long as
the request and the first `send` takes all of it. -/
theorem conditional_get_written_iff (node : (s.session f).cacheNode = some c) (conditional : (s.node f).Conditional)
    (backup : (s.node f).cacheNodeBackup = some b) (line : (s.content b).httpInfo.OneLine) (offset : (s.node f).offset = 0)
    (calls : Sending f c s ios u) (ended : (u.node f).status = .idle) :
    (∃ sends, u.sends = s.sends ++ sends ∧
        sends.flatMap Send.bytes = (s.content b).httpInfo.conditionalRequest.map some) ↔
      (s.content c).bufferSize = (s.content b).httpInfo.conditionalRequest.length ∧
        ios.head?.map Io.sent = some ((s.content b).httpInfo.conditionalRequest.length : Int) := by
  obtain ⟨long, short⟩ := length_conditionalRequest (s.content b).httpInfo
  obtain ⟨sends, made, bytes⟩ := sending_fronts calls node conditional backup
  have limit : (maxDataSize : Int) = 1500 := rfl
  constructor
  · rintro ⟨sends', made', whole⟩
    obtain rfl : sends = sends' := List.append_cancel_left (made.symm.trans made')
    rw [bytes] at whole
    obtain ⟨io, rfl, all⟩ := fronts_eq_request line calls.valid whole
    cases calls with
    | @call _ t _ _ _ busy takes sent rest =>
      obtain ⟨_, _, content, _, next⟩ := conditional_send node conditional backup takes sent
      cases rest
      rw [offset] at next takes
      unfold askedSize at takes
      obtain ⟨_, complete⟩ | ⟨going, _⟩ := next
      · unfold SentAll at complete
        have size : int32 ((s.content c).bufferSize - 0) = (s.content c).bufferSize := by
          rw [int32_eq (by omega) (by omega)]
          omega
        rw [size] at takes
        refine ⟨by omega, ?_⟩
        rw [List.head?_cons, Option.map_some, all]
      · rw [going] at ended
        exact absurd ended busy
  · rintro ⟨size, first⟩
    cases calls with
    | done => cases first
    | @call _ t _ io ios busy takes sent rest =>
      obtain ⟨send, sendMade, _, sendBytes, next⟩ := conditional_send node conditional backup takes sent
      obtain all : io.sent = _ := Option.some.inj first
      rw [offset, all] at next
      obtain ⟨going, _⟩ | ⟨_, partially⟩ := next
      · obtain ⟨rfl, rfl⟩ := rest.idle (by rw [going])
        refine ⟨[send], sendMade, ?_⟩
        rw [List.flatMap_singleton, sendBytes, all, conditionalGet_eq, Int.toNat_natCast, front_append _ (Nat.le_refl _),
          List.take_length]
      · unfold SentAll at partially
        omega

end

/-! ### A cached entry -/

/-- A field that holds `k` letters. -/
def Field.letters {n : Nat} (k : Nat) (short : k < n) : Field n where
  bytes := List.replicate k 97 ++ List.replicate (n - k) 0
  size := by
    rw [List.length_append, List.length_replicate, List.length_replicate]
    omega
  terminated := by
    refine List.mem_append_right _ (List.mem_replicate.mpr ⟨?_, rfl⟩)
    omega

theorem letters_str {n k : Nat} (short : k < n) : (Field.letters k short).str = List.replicate k 97 := by
  have padded : List.replicate (n - k) (0 : UInt8) = 0 :: List.replicate (n - k - 1) 0 := by
    rw [← List.replicate_succ]
    congr
    omega
  unfold Field.str Field.letters
  dsimp only
  rw [padded, cstring_append_nul, cstring_eq_self]
  simp [List.mem_replicate]

/-- A server that asks about an entry for the client of a buffer of 200 bytes. -/
def asking (info : HttpInfo) : ProxyState :=
  .single { newFdNode none none 5 .server .writing (some 0) with cacheNodeBackup := some 1, flag := 1 }
    { CacheNode.fresh none none initialBuffer with httpInfo := info }

def lettersInfo (path host date : Nat) (short : path < 100 ∧ host < 253 ∧ date < 30) : HttpInfo :=
  { HttpInfo.zero with path := .letters path short.1, host := .letters host short.2.1, date := .letters date short.2.2 }

theorem lettersInfo_length {path host date : Nat} (short : path < 100 ∧ host < 253 ∧ date < 30) :
    (lettersInfo path host date short).conditionalRequest.length = 46 + path + host + date := by
  rw [length_conditionalRequest_eq]
  unfold lettersInfo
  dsimp only
  rw [letters_str, letters_str, letters_str, List.length_replicate, List.length_replicate, List.length_replicate]

theorem lettersInfo_oneLine {path host date : Nat} (short : path < 100 ∧ host < 253 ∧ date < 30) :
    (lettersInfo path host date short).OneLine := by
  have fresh : ∀ k, (13 : UInt8) ∉ List.replicate k 97 := by
    intro k member
    cases List.eq_of_mem_replicate member
  constructor <;> unfold lettersInfo <;> dsimp only <;> rw [letters_str] <;> exact fresh _

/-- One `send` of the whole buffer. -/
theorem asking_sent (info : HttpInfo) :
    ∃ u, Sending 0 0 (asking info) [{ Io.blank with sent := 200 }] u ∧ (u.node 0).status = .idle := by
  have backup : ((asking info).node 0).cacheNodeBackup = some 1 := rfl
  have takes : 1 ≤ ({ Io.blank with sent := 200 } : Io).sent ∧
      ({ Io.blank with sent := 200 } : Io).sent ≤ askedSize ((asking info).content 0) ((asking info).node 0).offset := by
    change (1 : Int) ≤ 200 ∧ (200 : Int) ≤ min (int32 (200 - 0)) 1500
    decide
  obtain ⟨u, sent⟩ := cacheSend_returns (s := asking info) (f := 0) rfl (fun _ => ⟨1, backup⟩)
    { Io.blank with sent := 200 }
  obtain ⟨_, _, _, _, ⟨next, _⟩ | ⟨_, partially⟩⟩ := conditional_send (c := 0) rfl ⟨rfl, rfl⟩ backup takes sent
  · refine ⟨u, .call ?_ takes sent (.done u), ?_⟩
    · change NodeStatus.writing ≠ .idle
      decide
    · rw [next]
  · refine absurd (Or.inr ?_) partially
    change (200 : Int) ≤ 0 + 200
    decide

/-- The request for this entry has 200 bytes. -/
def longEntry : HttpInfo := lettersInfo 99 26 29 (by decide)

/-- The request for this entry has 50 bytes. -/
def shortEntry : HttpInfo := lettersInfo 2 1 1 (by decide)

theorem conditional_get_written_once :
    ∃ u sends, Sending 0 0 (asking longEntry) [{ Io.blank with sent := 200 }] u ∧
      u.sends = (asking longEntry).sends ++ sends ∧ sends.flatMap Send.bytes = longEntry.conditionalRequest.map some := by
  have length : longEntry.conditionalRequest.length = 200 := lettersInfo_length (by decide)
  have line : ((asking longEntry).content 1).httpInfo.OneLine := lettersInfo_oneLine (by decide)
  obtain ⟨u, calls, ended⟩ := asking_sent longEntry
  obtain ⟨sends, made, bytes⟩ := (conditional_get_written_iff rfl ⟨rfl, rfl⟩ rfl line rfl calls ended).mpr
    ⟨length.symm, congrArg some (congrArg Nat.cast length).symm⟩
  exact ⟨u, sends, calls, made, bytes⟩

/-- Behind the request 150 zeros are sent. -/
theorem conditional_get_padded :
    ∃ u, Sending 0 0 (asking shortEntry) [{ Io.blank with sent := 200 }] u ∧ (u.node 0).status = .idle ∧
      ¬ ∃ sends, u.sends = (asking shortEntry).sends ++ sends ∧
        sends.flatMap Send.bytes = shortEntry.conditionalRequest.map some := by
  have length : shortEntry.conditionalRequest.length = 50 := lettersInfo_length (by decide)
  obtain ⟨u, calls, ended⟩ := asking_sent shortEntry
  refine ⟨u, calls, ended, ?_⟩
  rintro ⟨sends', made', whole⟩
  obtain ⟨sends, made, bytes⟩ := sending_fronts (b := 1) calls rfl ⟨rfl, rfl⟩ rfl
  obtain rfl : sends = sends' := List.append_cancel_left (made.symm.trans made')
  rw [bytes, List.flatMap_singleton] at whole
  have lengths := congrArg List.length whole
  rw [length_front, List.length_map, length] at lengths
  cases lengths

end NetProjects.Proxy
