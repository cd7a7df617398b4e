import NetProjects.Proxy.FoundHeaders

/-!
# Copies that leave their fields

A parse makes one copy from the first line, and one for each recognised header line. The lengths of the first
are positions less a constant, those of the others are what the line says.
-/

namespace NetProjects.Proxy
open Bytes

/-- An array that ends in a NUL, as `calloc` makes it. -/
def Field.Closed {k : Nat} (field : Field k) : Prop := field.bytes.getLast? = some 0

/-- What a line makes of the field under a label. -/
def fill {k : Nat} (label : List UInt8) (field : Field k) (e : Entry) : Option (Field k) :=
  if e.key = label then field.strcpy (e.value ++ [0]) else some field

def fillAll {k : Nat} (label : List UInt8) (es : List Entry) (field : Field k) : Option (Field k) :=
  es.foldlM (fill label) field

/-- The value of the last line under a label. -/
def lastUnder (label : List UInt8) (es : List Entry) : Option (List UInt8) :=
  ((es.filter fun e => e.key = label).map Entry.value).getLast?

/-- The values under a label leave room for the terminator. -/
def FitsUnder (label : List UInt8) (size : Nat) (es : List Entry) : Prop :=
  ∀ e ∈ es, e.key = label → e.value.length < size

instance (label : List UInt8) (size : Nat) (es : List Entry) : Decidable (FitsUnder label size es) :=
  inferInstanceAs (Decidable (∀ e ∈ es, e.key = label → e.value.length < size))

/-- The lines of a request stay inside, and so does the path. -/
structure RequestFits (key view : List UInt8) : Prop where
  cr : 13 ∈ cstring view
  long : 13 ≤ (firstLine view).length
  short : (firstLine view).length ≤ 112
  ended : 0 ∈ lineBuffer view
  spaces : ∀ line ∈ viewLines view, 32 ∈ line
  host : FitsUnder (cstr "Host:") 253 (viewEntries key view)
  userAgent : FitsUnder (cstr "User-Agent:") 10 (viewEntries key view)
  connection : FitsUnder (cstr "Connection:") 10 (viewEntries key view)

structure ResponseFits (key view : List UInt8) : Prop where
  cr : 13 ∈ cstring view
  long : 9 ≤ (firstLine view).length
  short : (firstLine view).length ≤ 28
  ended : 0 ∈ lineBuffer view
  contentLength : FitsUnder (cstr "Content-Length:") 10 (viewEntries key view)
  date : FitsUnder (cstr "Date:") 30 (viewEntries key view)

/-- What a request with these lines may change. -/
structure RequestFields (es : List Entry) (before req : HttpInfo) : Prop where
  path : req.path.Closed
  host : (∀ e ∈ es, e.key ≠ cstr "Host:") → req.host = before.host
  userAgent : (∀ e ∈ es, e.key ≠ cstr "User-Agent:") → req.userAgent = before.userAgent
  connection : (∀ e ∈ es, e.key ≠ cstr "Connection:") → req.connection = before.connection
  response : SameResponse before req

/-- What a response with these lines may change. -/
structure ResponseFields (es : List Entry) (before res : HttpInfo) : Prop where
  status : res.status.Closed
  contentLength : (∀ e ∈ es, e.key ≠ cstr "Content-Length:") → res.contentLength = before.contentLength
  date : (∀ e ∈ es, e.key ≠ cstr "Date:") → res.date = before.date
  request : SameRequest before res ∧ res.userAgent = before.userAgent ∧ res.connection = before.connection

/-- Memory for the arrays of any message, and to read beyond one. -/
structure Memory.Ample (memory : Memory) : Prop where
  after : maxDataSize ≤ memory.after.length
  key : maxDataSize ≤ memory.key.length
  value : maxDataSize ≤ memory.value.length

/-! ### One field -/

section

variable {k : Nat} {field : Field k} {label : List UInt8} {es : List Entry} {e : Entry}

theorem strcpy_iff (field : Field k) {value : List UInt8} (noNul : 0 ∉ value) :
    (∃ d, field.strcpy (value ++ [0]) = some d) ↔ value.length < k := by
  have string : cstring (value ++ [0]) = value := by rw [cstring_append_nul, cstring_eq_self noNul]
  constructor
  · rintro ⟨d, copied⟩
    obtain ⟨bytes, inside, _⟩ := Option.bind_eq_some_iff.mp copied
    unfold Bytes.strcpy at inside
    split at inside
    · rename_i fits
      rw [string, field.size] at fits
      exact fits.2
    · cases inside
  · intro short
    have terminated : 0 ∈ value ++ [0] := List.mem_append_right _ List.mem_cons_self
    obtain ⟨d, copied, _⟩ := strcpy_text field terminated (string.symm ▸ short)
    exact ⟨d, copied⟩

theorem strcpy_str {d : Field k} {value : List UInt8} (noNul : 0 ∉ value) (copied : field.strcpy (value ++ [0]) = some d) :
    d.str = value := by
  have string : cstring (value ++ [0]) = value := by rw [cstring_append_nul, cstring_eq_self noNul]
  have terminated : 0 ∈ value ++ [0] := List.mem_append_right _ List.mem_cons_self
  have short := (strcpy_iff field noNul).mp ⟨d, copied⟩
  obtain ⟨d', again, text⟩ := strcpy_text field terminated (string.symm ▸ short)
  obtain rfl := Option.some.inj (copied.symm.trans again)
  exact text.trans string

theorem lastUnder_cons (label : List UInt8) (e : Entry) (es : List Entry) (before : List UInt8) :
    (lastUnder label (e :: es)).getD before = (lastUnder label es).getD (if e.key = label then e.value else before) := by
  unfold lastUnder
  rw [List.filter_cons]
  by_cases same : e.key = label
  · rw [if_pos (decide_eq_true same), if_pos same, List.map_cons, List.getLast?_cons, Option.getD_some]
  · rw [if_neg (by simpa using same), if_neg same]

theorem lastUnder_append (label : List UInt8) (es others : List Entry) (before : List UInt8) :
    (lastUnder label (es ++ others)).getD before = (lastUnder label others).getD ((lastUnder label es).getD before) := by
  induction es generalizing before with
  | nil => rfl
  | cons e es ih => rw [List.cons_append, lastUnder_cons, ih, lastUnder_cons]

/-- A field is filled line by line: what it holds is the last value, and every value fits. -/
theorem fillAll_iff (noNul : ∀ e ∈ es, 0 ∉ e.value) (field : Field k) :
    (∃ d, fillAll label es field = some d) ↔ FitsUnder label k es := by
  induction es generalizing field with
  | nil => exact iff_of_true ⟨field, rfl⟩ fun e member => absurd member List.not_mem_nil
  | cons e es ih =>
    obtain ⟨here, later⟩ := List.forall_mem_cons.mp noNul
    unfold FitsUnder
    rw [List.forall_mem_cons, fillAll, List.foldlM_cons]
    by_cases same : e.key = label
    · have one := strcpy_iff field here
      rw [fill, if_pos same]
      cases copied : field.strcpy (e.value ++ [0]) with
      | none =>
        rw [copied] at one
        have long : ¬ e.value.length < k := fun short => by
          obtain ⟨d, impossible⟩ := one.mpr short
          cases impossible
        exact iff_of_false (by rintro ⟨d, impossible⟩; cases impossible) fun fits => long (fits.1 same)
      | some d =>
        have short := one.mp ⟨d, copied⟩
        exact (ih later d).trans ⟨fun rest => ⟨fun _ => short, rest⟩, And.right⟩
    · rw [fill, if_neg same]
      exact (ih later field).trans ⟨fun rest => ⟨fun h => absurd h same, rest⟩, And.right⟩

theorem fillAll_str {d : Field k} (noNul : ∀ e ∈ es, 0 ∉ e.value) (filled : fillAll label es field = some d) :
    d.str = (lastUnder label es).getD field.str := by
  induction es generalizing field with
  | nil => exact Option.some.inj filled ▸ rfl
  | cons e es ih =>
    obtain ⟨here, later⟩ := List.forall_mem_cons.mp noNul
    rw [fillAll, List.foldlM_cons] at filled
    obtain ⟨middle, one, rest⟩ := Option.bind_eq_some_iff.mp filled
    rw [lastUnder_cons, ih later rest]
    unfold fill at one
    split at one
    · rw [if_pos ‹_›, strcpy_str here one]
    · rw [if_neg ‹_›, Option.some.inj one]

theorem fillAll_absent (absent : ∀ e ∈ es, e.key ≠ label) (field : Field k) : fillAll label es field = some field := by
  induction es with
  | nil => rfl
  | cons e es ih =>
    obtain ⟨here, later⟩ := List.forall_mem_cons.mp absent
    rw [fillAll, List.foldlM_cons, fill, if_neg here]
    exact ih later

end

/-! ### The copy from the first line -/

section

variable {k : Nat} {field : Field k} {view : List UInt8}

/-- What a copy leaves alone has the last byte. -/
theorem Field.Closed.rest (closed : field.Closed) {n : Nat} (inside : n < k) :
    ∃ start, field.bytes.drop n = start ++ [0] := by
  obtain ⟨start, shape⟩ := List.getLast?_eq_some_iff.mp closed
  have size := field.size
  rw [shape, List.length_append, List.length_singleton] at size
  refine ⟨start.drop n, ?_⟩
  rw [shape, List.drop_append_of_le_length (by omega)]

theorem copied_closed (closed : field.Closed) {src : List UInt8} (short : src.length < k) {d : Field k}
    (copied : Field.ofBytes? (memcpy field.bytes 0 src) = some d) : d.Closed := by
  obtain ⟨start, rest⟩ := closed.rest short
  unfold Field.Closed
  rw [ofBytes?_bytes copied, memcpy_zero, rest, ← List.append_assoc, List.getLast?_concat]

/-- Text that leaves the last byte alone stays terminated, text that does not is not. -/
theorem copied_iff (closed : field.Closed) {src : List UInt8} (noNul : 0 ∉ src) (inside : src.length ≤ k) :
    (∃ d, Field.ofBytes? (n := k) (memcpy field.bytes 0 src) = some d) ↔ src.length < k := by
  constructor
  · rintro ⟨d, copied⟩
    by_contra full
    have size := field.size
    have nul := d.terminated
    rw [ofBytes?_bytes copied, memcpy_zero, List.drop_eq_nil_of_le (by omega), List.append_nil] at nul
    exact noNul nul
  · intro short
    obtain ⟨start, rest⟩ := closed.rest short
    apply memcpy_field field src inside
    rw [rest]
    simp

theorem strncpy_eq {src : List UInt8} {n : Nat} (long : n ≤ (cstring src).length) :
    field.strncpy src n =
      if n ≤ k then Field.ofBytes? (memcpy field.bytes 0 ((cstring src).take n)) else none := by
  have inside : n ≤ src.length := long.trans (List.takeWhile_prefix _).length_le
  unfold Field.strncpy Bytes.strncpy
  dsimp only
  rw [field.size, List.length_take_of_le long, Nat.sub_self, List.replicate_zero, List.append_nil]
  by_cases fits : n ≤ k
  · rw [if_pos ⟨fits, Or.inl inside⟩, if_pos fits]
    rfl
  · rw [if_neg fun both => fits both.1, if_neg fits]
    rfl

/-- The text of the first line behind its start. -/
theorem cstring_behind {start : Nat} (cr : 13 ∈ cstring view) (inside : start ≤ (firstLine view).length) :
    (firstLine view).drop start <+: cstring (view.drop start) := by
  obtain ⟨⟨more, split⟩, _, noNul⟩ := firstLine_split cr
  have letters : 0 ∉ (firstLine view).drop start := fun nul => noNul (List.mem_of_mem_drop nul)
  have shape : view.drop start = (firstLine view).drop start ++ 13 :: more := by
    conv_lhs => rw [split]
    exact List.drop_append_of_le_length inside
  rw [shape]
  conv_lhs => rw [← cstring_eq_self letters]
  exact cstring_mono (List.prefix_append _ _)

/-- The text of a line less `back` fixed bytes fits exactly where the line is long enough, and not too long. -/
theorem cut_iff (closed : field.Closed) {src : List UInt8} (noNul : 0 ∉ src) {back len : Nat}
    (size : src.length = len - back) :
    (∃ d, (if back ≤ len ∧ len ≤ back + k then Field.ofBytes? (n := k) (memcpy field.bytes 0 src) else none) = some d) ↔
      back ≤ len ∧ len < back + k := by
  by_cases fits : back ≤ len ∧ len ≤ back + k
  · rw [if_pos fits, copied_iff closed noNul (by omega), size]
    omega
  · rw [if_neg fits]
    refine iff_of_false ?_ (by omega)
    rintro ⟨_, impossible⟩
    cases impossible

theorem cut_closed (closed : field.Closed) {src : List UInt8} {back len : Nat} (size : src.length = len - back)
    (fits : back ≤ len ∧ len < back + k) {d : Field k}
    (cut : (if back ≤ len ∧ len ≤ back + k then Field.ofBytes? (memcpy field.bytes 0 src) else none) = some d) :
    d.Closed := by
  rw [if_pos (by omega)] at cut
  exact copied_closed closed (by omega) cut

/-- The path is cut out of the first line; for a line that is too short the count is negative, and `strncpy` takes it
for a huge one. -/
theorem path_copied_eq {path : Field 100} (cr : 13 ∈ cstring view) :
    path.strncpy (view.drop 4) (toSize ((firstLine view).length - 13)) =
      if 13 ≤ (firstLine view).length ∧ (firstLine view).length ≤ 13 + 100 then
        Field.ofBytes? (memcpy path.bytes 0 ((cstring (view.drop 4)).take ((firstLine view).length - 13)))
      else none := by
  by_cases long : 13 ≤ (firstLine view).length
  · have count : toSize (((firstLine view).length : Int) - 13) = (firstLine view).length - 13 := by
      rw [toSize, if_pos (by omega)]
      omega
    have text := (cstring_behind cr (Nat.le_trans (by decide : 4 ≤ 13) long)).length_le
    rw [List.length_drop] at text
    rw [count, strncpy_eq (by omega)]
    by_cases fits : (firstLine view).length ≤ 13 + 100
    · rw [if_pos (by omega), if_pos ⟨long, fits⟩]
    · rw [if_neg (by omega), if_neg fun both => fits both.2]
  · have huge : ¬ toSize (((firstLine view).length : Int) - 13) ≤ path.bytes.length := by
      rw [path.size, toSize, if_neg (by omega)]
      omega
    unfold Field.strncpy Bytes.strncpy
    rw [if_neg fun both => huge both.1, if_neg fun both => long both.1]
    rfl

theorem length_path (cr : 13 ∈ cstring view) :
    ((cstring (view.drop 4)).take ((firstLine view).length - 13)).length = (firstLine view).length - 13 := by
  by_cases long : 4 ≤ (firstLine view).length
  · have text := (cstring_behind cr long).length_le
    rw [List.length_drop] at text
    exact List.length_take_of_le (by omega)
  · rw [Nat.sub_eq_zero_of_le (by omega), List.take_zero, List.length_nil]

/-- The status is cut out of the first line; a line that is too short asks for a huge copy. -/
theorem status_copied_eq {status : Field 20} (cr : 13 ∈ cstring view) :
    status.memcpy (view.drop 9) (toSize ((firstLine view).length - 9)) =
      if 9 ≤ (firstLine view).length ∧ (firstLine view).length ≤ 9 + 20 then
        Field.ofBytes? (memcpy status.bytes 0 ((firstLine view).drop 9))
      else none := by
  unfold Field.memcpy
  by_cases long : 9 ≤ (firstLine view).length
  · have count : toSize (((firstLine view).length : Int) - 9) = (firstLine view).length - 9 := by
      rw [toSize, if_pos (by omega)]
      omega
    have whole : (firstLine view).drop 9 <+: view.drop 9 := (cstring_behind cr long).trans (List.takeWhile_prefix _)
    have size : ((firstLine view).drop 9).length = (firstLine view).length - 9 := List.length_drop
    have taken : (view.drop 9).take ((firstLine view).length - 9) = (firstLine view).drop 9 := by
      rw [← size]
      exact (List.prefix_iff_eq_take.mp whole).symm
    rw [count, taken]
    by_cases fits : (firstLine view).length ≤ 9 + 20
    · rw [if_pos ⟨by omega, size.symm.trans_le whole.length_le⟩, if_pos ⟨long, fits⟩]
    · rw [if_neg (by omega), if_neg fun both => fits both.2]
  · have huge : ¬ toSize (((firstLine view).length : Int) - 9) ≤ 20 := by
      rw [toSize, if_neg (by omega)]
      omega
    rw [if_neg fun both => huge both.1, if_neg fun both => long both.1]

theorem path_copied_iff {path : Field 100} (cr : 13 ∈ cstring view) (closed : path.Closed) :
    (∃ d, path.strncpy (view.drop 4) (toSize ((firstLine view).length - 13)) = some d) ↔
      13 ≤ (firstLine view).length ∧ (firstLine view).length ≤ 112 := by
  have noNul : 0 ∉ (cstring (view.drop 4)).take ((firstLine view).length - 13) := fun nul =>
    not_mem_cstring _ (List.mem_of_mem_take nul)
  rw [path_copied_eq cr, cut_iff closed noNul (length_path cr), Nat.lt_iff_le_pred (by decide)]

theorem path_closed {path d : Field 100} (cr : 13 ∈ cstring view) (closed : path.Closed)
    (fits : 13 ≤ (firstLine view).length ∧ (firstLine view).length ≤ 112)
    (copied : path.strncpy (view.drop 4) (toSize ((firstLine view).length - 13)) = some d) : d.Closed := by
  rw [path_copied_eq cr] at copied
  exact cut_closed closed (length_path cr) ⟨fits.1, Nat.lt_succ_of_le fits.2⟩ copied

theorem status_copied_iff {status : Field 20} (cr : 13 ∈ cstring view) (closed : status.Closed) :
    (∃ d, status.memcpy (view.drop 9) (toSize ((firstLine view).length - 9)) = some d) ↔
      9 ≤ (firstLine view).length ∧ (firstLine view).length ≤ 28 := by
  have noNul : 0 ∉ (firstLine view).drop 9 := fun nul => (firstLine_split cr).2.2 (List.mem_of_mem_drop nul)
  rw [status_copied_eq cr, cut_iff closed noNul List.length_drop, Nat.lt_iff_le_pred (by decide)]

theorem status_closed {status d : Field 20} (cr : 13 ∈ cstring view) (closed : status.Closed)
    (fits : 9 ≤ (firstLine view).length ∧ (firstLine view).length ≤ 28)
    (copied : status.memcpy (view.drop 9) (toSize ((firstLine view).length - 9)) = some d) : d.Closed := by
  rw [status_copied_eq cr] at copied
  exact cut_closed closed List.length_drop ⟨fits.1, Nat.lt_succ_of_le fits.2⟩ copied

end

/-! ### All fields of a parse -/

section

variable {es : List Entry} {e : Entry} {info : HttpInfo}

theorem strcmpLit_entry (noNul : 0 ∉ e.key) (name : String) (text : 0 ∉ cstr name) :
    strcmpLit (e.key ++ [0]) (cstr name) = some (decide (e.key = cstr name)) := by
  rw [strcmpLit_string text (Or.inl (List.mem_append_right _ List.mem_cons_self)), cstring_append_nul,
    cstring_eq_self noNul]

theorem assigned_request (noNul : 0 ∉ e.key) (info : HttpInfo) :
    assigned assignRequest info e = do
      let host ← fill (cstr "Host:") info.host e
      let userAgent ← fill (cstr "User-Agent:") info.userAgent e
      let connection ← fill (cstr "Connection:") info.connection e
      return { info with host := host, userAgent := userAgent, connection := connection } := by
  unfold assigned assignRequest
  rw [strcmpLit_entry noNul "Host:" (by decide), strcmpLit_entry noNul "User-Agent:" (by decide),
    strcmpLit_entry noNul "Connection:" (by decide)]
  unfold fill
  by_cases host : e.key = cstr "Host:"
  · have others : cstr "Host:" ≠ cstr "User-Agent:" ∧ cstr "Host:" ≠ cstr "Connection:" := by decide
    simp [host, others.1, others.2]
  by_cases agent : e.key = cstr "User-Agent:"
  · have others : cstr "User-Agent:" ≠ cstr "Host:" ∧ cstr "User-Agent:" ≠ cstr "Connection:" := by decide
    simp [agent, others.1, others.2]
  by_cases connection : e.key = cstr "Connection:"
  · have others : cstr "Connection:" ≠ cstr "Host:" ∧ cstr "Connection:" ≠ cstr "User-Agent:" := by decide
    simp [connection, others.1, others.2]
  · simp [host, agent, connection]

theorem assigned_response (noNul : 0 ∉ e.key) (info : HttpInfo) :
    assigned assignResponse info e = do
      let contentLength ← fill (cstr "Content-Length:") info.contentLength e
      let date ← fill (cstr "Date:") info.date e
      return { info with contentLength := contentLength, date := date } := by
  unfold assigned assignResponse
  rw [strcmpLit_entry noNul "Content-Length:" (by decide), strcmpLit_entry noNul "Date:" (by decide)]
  unfold fill
  by_cases length : e.key = cstr "Content-Length:"
  · have other : cstr "Content-Length:" ≠ cstr "Date:" := by decide
    simp [length, other]
  by_cases date : e.key = cstr "Date:"
  · have other : cstr "Date:" ≠ cstr "Content-Length:" := by decide
    simp [date, other]
  · simp [length, date]

/-- The fields of a request are filled independently. -/
theorem fold_request (noNul : ∀ e ∈ es, 0 ∉ e.key) {req : HttpInfo} :
    es.foldlM (assigned assignRequest) info = some req ↔
      ∃ host userAgent connection, fillAll (cstr "Host:") es info.host = some host ∧
        fillAll (cstr "User-Agent:") es info.userAgent = some userAgent ∧
        fillAll (cstr "Connection:") es info.connection = some connection ∧
        req = { info with host := host, userAgent := userAgent, connection := connection } := by
  induction es generalizing info with
  | nil =>
    constructor
    · intro same
      exact ⟨_, _, _, rfl, rfl, rfl, (Option.some.inj same).symm⟩
    · rintro ⟨_, _, _, host, agent, connection, rfl⟩
      cases host
      cases agent
      cases connection
      rfl
  | cons e es ih =>
    obtain ⟨here, later⟩ := List.forall_mem_cons.mp noNul
    simp only [fillAll, List.foldlM_cons, Option.bind_eq_bind, Option.bind_eq_some_iff, assigned_request here,
      Option.pure_def, Option.some.injEq] at ih ⊢
    constructor
    · rintro ⟨_, ⟨host, h, agent, a, connection, c, rfl⟩, rest⟩
      obtain ⟨host', agent', connection', h', a', c', rfl⟩ := (ih later).mp rest
      exact ⟨host', agent', connection', ⟨host, h, h'⟩, ⟨agent, a, a'⟩, ⟨connection, c, c'⟩, rfl⟩
    · rintro ⟨host', agent', connection', ⟨host, h, h'⟩, ⟨agent, a, a'⟩, ⟨connection, c, c'⟩, rfl⟩
      exact ⟨_, ⟨host, h, agent, a, connection, c, rfl⟩, (ih later).mpr ⟨host', agent', connection', h', a', c', rfl⟩⟩

theorem fold_response (noNul : ∀ e ∈ es, 0 ∉ e.key) {res : HttpInfo} :
    es.foldlM (assigned assignResponse) info = some res ↔
      ∃ contentLength date, fillAll (cstr "Content-Length:") es info.contentLength = some contentLength ∧
        fillAll (cstr "Date:") es info.date = some date ∧
        res = { info with contentLength := contentLength, date := date } := by
  induction es generalizing info with
  | nil =>
    constructor
    · intro same
      exact ⟨_, _, rfl, rfl, (Option.some.inj same).symm⟩
    · rintro ⟨_, _, length, date, rfl⟩
      cases length
      cases date
      rfl
  | cons e es ih =>
    obtain ⟨here, later⟩ := List.forall_mem_cons.mp noNul
    simp only [fillAll, List.foldlM_cons, Option.bind_eq_bind, Option.bind_eq_some_iff, assigned_response here,
      Option.pure_def, Option.some.injEq] at ih ⊢
    constructor
    · rintro ⟨_, ⟨length, l, date, d, rfl⟩, rest⟩
      obtain ⟨length', date', l', d', rfl⟩ := (ih later).mp rest
      exact ⟨length', date', ⟨length, l, l'⟩, ⟨date, d, d'⟩, rfl⟩
    · rintro ⟨length', date', ⟨length, l, l'⟩, ⟨date, d, d'⟩, rfl⟩
      exact ⟨_, ⟨length, l, date, d, rfl⟩, (ih later).mpr ⟨length', date', l', d', rfl⟩⟩

end

/-! ### Whole messages -/

section

variable {view : List UInt8} {memory : Memory} {info : HttpInfo}

/-- What a request is parsed into, copy by copy. -/
theorem parseRequest_iff (room : maxDataSize ≤ memory.key.length ∧ maxDataSize ≤ memory.value.length)
    (inside : 13 ∈ cstring view → (firstLine view).length + 2 + maxDataSize ≤ view.length) {req : HttpInfo} :
    parseRequest view memory info = some req ↔
      13 ∈ cstring view ∧ 0 ∈ lineBuffer view ∧ (∀ line ∈ viewLines view, 32 ∈ line) ∧
        ∃ path host userAgent connection,
          info.path.strncpy (view.drop 4) (toSize ((firstLine view).length - 13)) = some path ∧
          fillAll (cstr "Host:") (viewEntries memory.key view) info.host = some host ∧
          fillAll (cstr "User-Agent:") (viewEntries memory.key view) info.userAgent = some userAgent ∧
          fillAll (cstr "Connection:") (viewEntries memory.key view) info.connection = some connection ∧
          req = { info with path := path, host := host, userAgent := userAgent, connection := connection } := by
  have noNul : ∀ e ∈ viewEntries memory.key view, 0 ∉ e.key := fun e member => (viewEntries_noNul _ _ e member).1
  by_cases cr : 13 ∈ cstring view
  · unfold parseRequest
    rw [strchr_cr cr]
    simp only [Option.bind_eq_bind, Option.bind_some, Option.bind_eq_some_iff,
      parseLines_entries assignRequest_reads room (inside cr)]
    constructor
    · rintro ⟨path, copied, lines⟩
      split at lines
      swap
      · cases lines
      rename_i ended
      obtain ⟨last, run, spaces⟩ := Option.bind_eq_some_iff.mp lines
      split at spaces
      swap
      · cases spaces
      obtain rfl := Option.some.inj spaces
      obtain ⟨host, userAgent, connection, filled⟩ := (fold_request noNul).mp run
      exact ⟨cr, ended, ‹_›, path, host, userAgent, connection, copied, filled⟩
    · rintro ⟨_, ended, spaces, path, host, userAgent, connection, copied, filled⟩
      refine ⟨path, copied, ?_⟩
      rw [if_pos ended, (fold_request noNul).mpr ⟨host, userAgent, connection, filled⟩, Option.bind_some, if_pos spaces]
  · refine iff_of_false ?_ fun all => cr all.1
    intro parsed
    obtain ⟨pos, found, parsed⟩ := Option.bind_eq_some_iff.mp parsed
    obtain ⟨path, copied, _⟩ := Option.bind_eq_some_iff.mp parsed
    obtain rfl := strchr_noCr cr found
    obtain ⟨bytes, inside, _⟩ := Option.bind_eq_some_iff.mp copied
    unfold Bytes.strncpy at inside
    rw [info.path.size, if_neg fun both => absurd both.1 (by decide)] at inside
    cases inside

/-- What a response is parsed into. A line without a space is not an error here. -/
theorem parseResponse_iff (room : maxDataSize ≤ memory.key.length ∧ maxDataSize ≤ memory.value.length)
    (inside : 13 ∈ cstring view → (firstLine view).length + 2 + maxDataSize ≤ view.length) {res : HttpInfo} :
    parseResponse view memory info = some res ↔
      13 ∈ cstring view ∧ 0 ∈ lineBuffer view ∧
        ∃ status contentLength date,
          info.status.memcpy (view.drop 9) (toSize ((firstLine view).length - 9)) = some status ∧
          fillAll (cstr "Content-Length:") (viewEntries memory.key view) info.contentLength = some contentLength ∧
          fillAll (cstr "Date:") (viewEntries memory.key view) info.date = some date ∧
          res = { info with status := status, contentLength := contentLength, date := date } := by
  have noNul : ∀ e ∈ viewEntries memory.key view, 0 ∉ e.key := fun e member => (viewEntries_noNul _ _ e member).1
  by_cases cr : 13 ∈ cstring view
  · unfold parseResponse
    rw [strchr_cr cr]
    simp only [Option.bind_eq_bind, Option.bind_some, Option.bind_eq_some_iff,
      parseLines_entries assignResponse_reads room (inside cr), ite_self, Option.bind_fun_some]
    constructor
    · rintro ⟨status, copied, lines⟩
      split at lines
      swap
      · cases lines
      obtain ⟨contentLength, date, filled⟩ := (fold_response noNul).mp lines
      exact ⟨cr, ‹_›, status, contentLength, date, copied, filled⟩
    · rintro ⟨_, ended, status, contentLength, date, copied, filled⟩
      refine ⟨status, copied, ?_⟩
      rw [if_pos ended]
      exact (fold_response noNul).mpr ⟨contentLength, date, filled⟩
  · refine iff_of_false ?_ fun all => cr all.1
    intro parsed
    obtain ⟨pos, found, parsed⟩ := Option.bind_eq_some_iff.mp parsed
    obtain ⟨status, copied, _⟩ := Option.bind_eq_some_iff.mp parsed
    obtain rfl := strchr_noCr cr found
    unfold Field.memcpy at copied
    rw [if_neg fun both => absurd both.1 (by decide)] at copied
    cases copied

theorem request_fits (room : maxDataSize ≤ memory.key.length ∧ maxDataSize ≤ memory.value.length)
    (inside : 13 ∈ cstring view → (firstLine view).length + 2 + maxDataSize ≤ view.length) (closed : info.path.Closed)
    {req : HttpInfo} (parsed : parseRequest view memory info = some req) : RequestFits memory.key view := by
  have noNul : ∀ e ∈ viewEntries memory.key view, 0 ∉ e.value := fun e member => (viewEntries_noNul _ _ e member).2
  obtain ⟨cr, ended, spaces, path, host, userAgent, connection, copied, hostFilled, agentFilled, connectionFilled, _⟩ :=
    (parseRequest_iff room inside).mp parsed
  obtain ⟨long, short⟩ := (path_copied_iff cr closed).mp ⟨path, copied⟩
  exact
    { cr := cr, long := long, short := short, ended := ended, spaces := spaces
      host := (fillAll_iff noNul _).mp ⟨host, hostFilled⟩
      userAgent := (fillAll_iff noNul _).mp ⟨userAgent, agentFilled⟩
      connection := (fillAll_iff noNul _).mp ⟨connection, connectionFilled⟩ }

theorem request_inside_iff (room : maxDataSize ≤ memory.key.length ∧ maxDataSize ≤ memory.value.length)
    (inside : 13 ∈ cstring view → (firstLine view).length + 2 + maxDataSize ≤ view.length) (closed : info.path.Closed) :
    (∃ req, parseRequest view memory info = some req ∧ RequestFields (viewEntries memory.key view) info req) ↔
      RequestFits memory.key view := by
  have noNul : ∀ e ∈ viewEntries memory.key view, 0 ∉ e.value := fun e member => (viewEntries_noNul _ _ e member).2
  constructor
  · rintro ⟨req, parsed, _⟩
    exact request_fits room inside closed parsed
  · intro fits
    obtain ⟨path, copied⟩ := (path_copied_iff fits.cr closed).mpr ⟨fits.long, fits.short⟩
    obtain ⟨host, hostFilled⟩ := (fillAll_iff noNul info.host).mpr fits.host
    obtain ⟨userAgent, agentFilled⟩ := (fillAll_iff noNul info.userAgent).mpr fits.userAgent
    obtain ⟨connection, connectionFilled⟩ := (fillAll_iff noNul info.connection).mpr fits.connection
    refine ⟨_, (parseRequest_iff room inside).mpr ⟨fits.cr, fits.ended, fits.spaces, path, host, userAgent, connection,
      copied, hostFilled, agentFilled, connectionFilled, rfl⟩, ?_⟩
    constructor
    · exact path_closed fits.cr closed ⟨fits.long, fits.short⟩ copied
    · exact fun absent => Option.some.inj (hostFilled.symm.trans (fillAll_absent absent _))
    · exact fun absent => Option.some.inj (agentFilled.symm.trans (fillAll_absent absent _))
    · exact fun absent => Option.some.inj (connectionFilled.symm.trans (fillAll_absent absent _))
    · exact ⟨rfl, rfl, rfl, rfl⟩

theorem response_fits (room : maxDataSize ≤ memory.key.length ∧ maxDataSize ≤ memory.value.length)
    (inside : 13 ∈ cstring view → (firstLine view).length + 2 + maxDataSize ≤ view.length) (closed : info.status.Closed) {res : HttpInfo}
    (parsed : parseResponse view memory info = some res) : ResponseFits memory.key view := by
  have noNul : ∀ e ∈ viewEntries memory.key view, 0 ∉ e.value := fun e member => (viewEntries_noNul _ _ e member).2
  obtain ⟨cr, ended, status, contentLength, date, copied, lengthFilled, dateFilled, _⟩ :=
    (parseResponse_iff room inside).mp parsed
  obtain ⟨long, short⟩ := (status_copied_iff cr closed).mp ⟨status, copied⟩
  exact
    { cr := cr, long := long, short := short, ended := ended
      contentLength := (fillAll_iff noNul _).mp ⟨contentLength, lengthFilled⟩
      date := (fillAll_iff noNul _).mp ⟨date, dateFilled⟩ }

theorem response_inside_iff (room : maxDataSize ≤ memory.key.length ∧ maxDataSize ≤ memory.value.length)
    (inside : 13 ∈ cstring view → (firstLine view).length + 2 + maxDataSize ≤ view.length) (closed : info.status.Closed) :
    (∃ res, parseResponse view memory info = some res ∧ ResponseFields (viewEntries memory.key view) info res) ↔
      ResponseFits memory.key view := by
  have noNul : ∀ e ∈ viewEntries memory.key view, 0 ∉ e.value := fun e member => (viewEntries_noNul _ _ e member).2
  constructor
  · rintro ⟨res, parsed, _⟩
    exact response_fits room inside closed parsed
  · intro fits
    obtain ⟨status, copied⟩ := (status_copied_iff fits.cr closed).mpr ⟨fits.long, fits.short⟩
    obtain ⟨contentLength, lengthFilled⟩ := (fillAll_iff noNul info.contentLength).mpr fits.contentLength
    obtain ⟨date, dateFilled⟩ := (fillAll_iff noNul info.date).mpr fits.date
    refine ⟨_, (parseResponse_iff room inside).mpr ⟨fits.cr, fits.ended, status, contentLength, date, copied,
      lengthFilled, dateFilled, rfl⟩, ?_⟩
    constructor
    · exact status_closed fits.cr closed ⟨fits.long, fits.short⟩ copied
    · exact fun absent => Option.some.inj (lengthFilled.symm.trans (fillAll_absent absent _))
    · exact fun absent => Option.some.inj (dateFilled.symm.trans (fillAll_absent absent _))
    · exact ⟨⟨rfl, rfl, rfl⟩, rfl, rfl⟩

theorem room_behind {text : List UInt8} (noNul : 0 ∉ text) (ample : memory.Ample)
    (cr : 13 ∈ cstring (text ++ 0 :: memory.after)) :
    (firstLine (text ++ 0 :: memory.after)).length + 2 + maxDataSize ≤ (text ++ 0 :: memory.after).length := by
  have line := firstLine_lt cr
  have behind := ample.after
  rw [cstring_append_nul, cstring_eq_self noNul] at line
  rw [List.length_append, List.length_cons]
  omega

/-- A parse stays inside, and changes its own fields only, exactly when the first line has its CR where the fixed
parts leave room, the lines of a request have their spaces, and each recognised value is shorter than its field. -/
theorem parse_inside_iff {text : List UInt8} (noNul : 0 ∉ text) (ample : memory.Ample)
    (closed : info.path.Closed ∧ info.status.Closed) :
    ((∃ req, parseRequest (text ++ 0 :: memory.after) memory info = some req ∧
        RequestFields (viewEntries memory.key (text ++ 0 :: memory.after)) info req) ↔
      RequestFits memory.key (text ++ 0 :: memory.after)) ∧
    ((∃ res, parseResponse (text ++ 0 :: memory.after) memory info = some res ∧
        ResponseFields (viewEntries memory.key (text ++ 0 :: memory.after)) info res) ↔
      ResponseFits memory.key (text ++ 0 :: memory.after)) := by
  have room : maxDataSize ≤ memory.key.length ∧ maxDataSize ≤ memory.value.length := ⟨ample.key, ample.value⟩
  exact ⟨request_inside_iff room (room_behind noNul ample) closed.1,
    response_inside_iff room (room_behind noNul ample) closed.2⟩

theorem full_ample : Memory.full.Ample := by
  constructor <;> exact List.length_replicate.ge

theorem zero_closed : HttpInfo.zero.path.Closed ∧ HttpInfo.zero.status.Closed := by
  unfold Field.Closed
  decide

def shortRequest : List UInt8 := cstr "GET / HTTP/1.0\r\nHost: h\r\n\r\n"

theorem short_request_inside :
    ∃ req, parseRequest (shortRequest ++ 0 :: Memory.full.after) Memory.full .zero = some req ∧
      RequestFields (viewEntries Memory.full.key (shortRequest ++ 0 :: Memory.full.after)) .zero req := by
  refine (parse_inside_iff (by decide) full_ample zero_closed).1.mpr ?_
  constructor
  all_goals decide +kernel

def spacelessRequest : List UInt8 := cstr "GET / HTTP/1.0\r\nHost:h\r\n\r\n"

def longLength : List UInt8 := cstr "HTTP/1.0 200 OK\r\nContent-Length: 1234567890\r\n\r\n"

/-- A response without a CR, a header line without a space, and a value of ten digits. -/
theorem parse_overruns :
    parseResponse ([] ++ 0 :: Memory.full.after) Memory.full .zero = none ∧
      parseRequest (spacelessRequest ++ 0 :: Memory.full.after) Memory.full .zero = none ∧
      parseResponse (longLength ++ 0 :: Memory.full.after) Memory.full .zero = none := by
  have room : maxDataSize ≤ Memory.full.key.length ∧ maxDataSize ≤ Memory.full.value.length :=
    ⟨full_ample.key, full_ample.value⟩
  refine ⟨?_, ?_, ?_⟩
  · by_contra parsed
    obtain ⟨res, parsed⟩ := Option.ne_none_iff_exists'.mp parsed
    obtain ⟨cr, _⟩ := (parseResponse_iff room (room_behind (by decide) full_ample)).mp parsed
    exact absurd cr (by decide +kernel)
  · by_contra parsed
    obtain ⟨req, parsed⟩ := Option.ne_none_iff_exists'.mp parsed
    obtain ⟨_, _, spaces, _⟩ := (parseRequest_iff room (room_behind (by decide) full_ample)).mp parsed
    exact absurd spaces (by decide +kernel)
  · by_contra parsed
    obtain ⟨res, parsed⟩ := Option.ne_none_iff_exists'.mp parsed
    obtain ⟨_, _, _, contentLength, _, _, filled, _⟩ :=
      (parseResponse_iff room (room_behind (by decide) full_ample)).mp parsed
    have fits : FitsUnder (cstr "Content-Length:") 10
        (viewEntries Memory.full.key (longLength ++ 0 :: Memory.full.after)) :=
      (fillAll_iff (fun e member => (viewEntries_noNul _ _ e member).2) _).mp ⟨contentLength, filled⟩
    exact absurd fits (by decide +kernel)

end

end NetProjects.Proxy
