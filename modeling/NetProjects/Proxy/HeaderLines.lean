import NetProjects.Proxy.Lines

/-!
# The loop over the header lines

Each line is split into a key and a value in two arrays that are used again for the next line. Only as
many bytes of them are cleared as the first line is long, so what stands behind a key can be old.
-/

namespace NetProjects.Proxy
open Bytes

structure Header where
  name : List UInt8
  value : List UInt8
  deriving DecidableEq, Repr

namespace Header

def line (h : Header) : List UInt8 := h.name ++ 58 :: 32 :: h.value

/-- No space in the name, and no line end or NUL. -/
structure WellFormed (h : Header) : Prop where
  name : ∀ c ∈ h.name, c ≠ 0 ∧ c ≠ 13 ∧ c ≠ 10 ∧ c ≠ 32
  value : ∀ c ∈ h.value, c ≠ 0 ∧ c ≠ 13 ∧ c ≠ 10

end Header

/-- The header lines and the empty line. -/
def headerText (headers : List Header) : List UInt8 := headers.flatMap (fun h => h.line ++ [13, 10]) ++ [13, 10]

/-- The length of the first header line. -/
def firstLength (headers : List Header) : Nat := (headers.head?.map fun h => h.line.length).getD 0

/-- The value of the last header of a name. -/
def lastValue (name : List UInt8) (headers : List Header) : Option (List UInt8) :=
  (headers.filter fun h => h.name = name).getLast?.map Header.value

/-- The key array with the name and its colon, `n` bytes having been cleared. -/
def namedKey (key : Block) (n : Nat) (h : Header) : Block where
  array := memcpy (memcpy key.array 0 (List.replicate n 0)) 0 (h.name ++ [58])
  after := key.after

/-- The value array with the value, padded to the length of the line. -/
def valuedBlock (value : Block) (n : Nat) (h : Header) : Block where
  array := memcpy (memcpy value.array 0 (List.replicate n 0)) 0
    (h.value ++ List.replicate (h.line.length - h.value.length) 0)
  after := value.after

/-- An assignment that puts the value of a header in a field where the key is its label, and nothing follows. -/
def Fills (assign : List UInt8 → List UInt8 → HttpInfo → Option HttpInfo) (fits : Header → Prop) (label : List UInt8)
    (get : HttpInfo → List UInt8) : Prop :=
  ∀ (h : Header) (c : UInt8) (r r' : List UInt8) (info : HttpInfo), h.WellFormed → fits h →
    ∃ info', assign (h.name ++ 58 :: c :: r) (h.value ++ 0 :: r') info = some info' ∧
      get info' = if h.name = label ∧ c = 0 then h.value else get info

/-- What the lines make of a field: `before` and `now` are its strings, `old` what stands in the key array behind
the `n` bytes that are cleared. -/
structure Found (label : List UInt8) (n : Nat) (hs : List Header) (old before now : List UInt8) : Prop where
  known : (label.length + 1 < n ∨ ∀ h ∈ hs, h.name ≠ label) → now = (lastValue label hs).getD before
  unknown : n ≤ label.length + 1 → 0 ∉ old → now = before

section

variable {noSpace : HttpInfo → Option HttpInfo} {assign : List UInt8 → List UInt8 → HttpInfo → Option HttpInfo}
  {h : Header} {key value : Block} {n fuel : Nat} {done skip : List UInt8} {info : HttpInfo}

/-! ### One line -/

theorem Header.length_line (h : Header) : h.line.length = h.name.length + h.value.length + 2 := by
  unfold Header.line
  simp only [List.length_append, List.length_cons]
  omega

theorem isDelim_false {c : UInt8} (cr : c ≠ 13) (lf : c ≠ 10) : isDelim c = false := by
  unfold isDelim
  simp [cr, lf]

theorem Header.WellFormed.line (formed : h.WellFormed) : ∀ c ∈ h.line, c ≠ 0 ∧ isDelim c = false := by
  intro c member
  unfold Header.line at member
  rw [List.mem_append, List.mem_cons, List.mem_cons] at member
  obtain inName | rfl | rfl | inValue := member
  · obtain ⟨notNul, notCr, notLf, _⟩ := formed.name c inName
    exact ⟨notNul, isDelim_false notCr notLf⟩
  · decide
  · decide
  · obtain ⟨notNul, notCr, notLf⟩ := formed.value c inValue
    exact ⟨notNul, isDelim_false notCr notLf⟩

theorem Header.WellFormed.noNul (formed : h.WellFormed) : 0 ∉ h.name ++ [58] ∧ 0 ∉ h.value := by
  constructor
  · intro member
    rw [List.mem_append, List.mem_singleton] at member
    obtain inName | colon := member
    · exact (formed.name 0 inName).1 rfl
    · cases colon
  · intro member
    exact (formed.value 0 member).1 rfl

/-- The space behind the colon is the first one. -/
theorem Header.WellFormed.split (formed : h.WellFormed) :
    32 ∈ h.line ∧ lineName h.line = h.name ++ [58] ∧ lineValue h.line = h.value := by
  have shape : h.line = (h.name ++ [58]) ++ 32 :: h.value := by simp [Header.line]
  have letters : ∀ c ∈ h.name ++ [58], decide (c ≠ 32) = true := by
    intro c member
    rw [List.mem_append, List.mem_singleton] at member
    obtain inName | rfl := member
    · exact decide_eq_true (formed.name c inName).2.2.2
    · decide
  rw [shape]
  refine ⟨List.mem_append_right _ List.mem_cons_self, takeWhile_stop letters (by decide) h.value, ?_⟩
  unfold lineValue
  rw [List.dropWhile_append_of_pos letters, List.dropWhile_cons_of_neg (by decide)]
  rfl

/-! ### What the arrays show -/

theorem named_array (key : Block) (n : Nat) (h : Header) :
    (namedKey key n h).array = h.name ++ 58 :: (List.replicate n 0 ++ key.array.drop n).drop (h.name.length + 1) := by
  unfold namedKey
  simp only [memcpy_zero, List.length_replicate, List.length_append, List.length_singleton, List.append_assoc,
    List.singleton_append]

/-- What follows the key has been cleared, or is old. -/
theorem named_view (n : Nat) (room : h.line.length ≤ key.array.length) :
    ∃ c rest, (namedKey key n h).view = h.name ++ 58 :: c :: rest ∧ (h.name.length + 1 < n → c = 0) ∧
      (n ≤ h.name.length + 1 → c ∈ key.array.drop n) := by
  have size := h.length_line
  obtain ⟨c, rest, later⟩ : ∃ c rest,
      (List.replicate n 0 ++ key.array.drop n).drop (h.name.length + 1) = c :: rest := by
    apply List.exists_cons_of_length_pos
    simp only [List.length_drop, List.length_append, List.length_replicate]
    omega
  refine ⟨c, rest ++ key.after, ?_, ?_, ?_⟩
  · unfold Block.view
    rw [named_array, later, List.append_assoc]
    rfl
  · intro cleared
    have zeros : n - (h.name.length + 1) = n - (h.name.length + 1) - 1 + 1 := by omega
    rw [List.drop_append_of_le_length (by rw [List.length_replicate]; omega), List.drop_replicate, zeros,
      List.replicate_succ, List.cons_append] at later
    exact (List.cons.inj later).1.symm
  · intro old
    rw [List.drop_append, List.length_replicate, List.drop_replicate, Nat.sub_eq_zero_of_le old, List.replicate_zero,
      List.nil_append] at later
    exact List.mem_of_mem_drop (later ▸ List.mem_cons_self)

/-- The old bytes behind the cleared ones are kept, or overwritten by a name. -/
theorem named_stale (formed : h.WellFormed) (stale : 0 ∉ key.array.drop n) : 0 ∉ (namedKey key n h).array.drop n := by
  have colon : h.name ++ 58 :: (List.replicate n 0 ++ key.array.drop n).drop (h.name.length + 1) =
      (h.name ++ [58]) ++ (List.replicate n 0 ++ key.array.drop n).drop (h.name.length + 1) := by simp
  rw [named_array, colon, List.drop_append, List.drop_drop, List.mem_append, not_or]
  constructor
  · intro member
    exact formed.noNul.1 (List.mem_of_mem_drop member)
  · intro member
    rw [List.drop_append, List.mem_append, List.drop_replicate, List.length_append, List.length_singleton] at member
    obtain cleared | old := member
    · have none := (List.mem_replicate.mp cleared).1
      omega
    · exact stale (List.mem_of_mem_drop old)

theorem valued_view (value : Block) (n : Nat) (h : Header) :
    ∃ rest, (valuedBlock value n h).view = h.value ++ 0 :: rest := by
  have size := h.length_line
  have padding : h.line.length - h.value.length = h.name.length + 1 + 1 := by omega
  unfold Block.view valuedBlock
  dsimp only
  rw [memcpy_zero, padding, List.replicate_succ, List.append_assoc, List.append_assoc]
  exact ⟨_, rfl⟩

theorem named_length (inside : n ≤ key.array.length) (room : h.line.length ≤ key.array.length) :
    (namedKey key n h).array.length = key.array.length := by
  have size := h.length_line
  apply length_overwritten inside
  rw [List.length_append, List.length_singleton]
  omega

theorem valued_length (inside : n ≤ value.array.length) (room : h.line.length ≤ value.array.length) :
    (valuedBlock value n h).array.length = value.array.length := by
  have size := h.length_line
  apply length_overwritten inside
  rw [List.length_append, List.length_replicate]
  omega

/-! ### The loop -/

/-- One line: the key and the value are handed on, and a NUL stands at its end. -/
theorem headerLines_step (formed : h.WellFormed) (delims : ∀ c ∈ skip, isDelim c = true)
    (lead : (cstring (done ++ skip ++ h.line)).length = n) (inside : n ≤ key.array.length ∧ n ≤ value.array.length)
    (room : h.line.length ≤ key.array.length ∧ h.line.length ≤ value.array.length) (rest : List UInt8) :
    headerLines noSpace assign (fuel + 1) (done ++ skip ++ h.line ++ 13 :: rest) done.length key value info =
      (assign (namedKey key n h).view (valuedBlock value n h).view info).bind fun info' =>
        headerLines noSpace assign fuel (done ++ skip ++ h.line ++ 0 :: rest) ((done ++ skip ++ h.line).length + 1)
          (namedKey key n h) (valuedBlock value n h) info' := by
  have nonempty : h.line ≠ [] := by
    intro empty
    have size := h.length_line
    rw [empty, List.length_nil] at size
    omega
  have token : strtokR isDelim (done ++ skip ++ h.line ++ 13 :: rest) done.length = some
      { token := h.line, buf := done ++ skip ++ h.line ++ 0 :: rest, save := (done ++ skip ++ h.line).length + 1 } :=
    strtokR_token delims formed.line nonempty rfl (by decide) rest
  have first : strlen (done ++ skip ++ h.line ++ 0 :: rest) = some n := by
    unfold strlen
    rw [if_pos (List.mem_append_right _ List.mem_cons_self), cstring_append_nul, lead]
  obtain ⟨space, name, value⟩ := formed.split
  rw [headerLines_line token first (fun nul => (formed.line 0 nul).1 rfl) space inside room, name, value]
  rfl

theorem headerText_cons (h : Header) (hs : List Header) :
    headerText (h :: hs) = h.line ++ 13 :: 10 :: headerText hs := by
  unfold headerText
  simp

theorem lastValue_cons (label : List UInt8) (h : Header) (hs : List Header) (before : List UInt8) :
    (lastValue label (h :: hs)).getD before =
      (lastValue label hs).getD (if h.name = label then h.value else before) := by
  unfold lastValue
  rw [List.filter_cons]
  by_cases same : h.name = label
  · rw [if_pos (by simpa using same), if_pos same, List.getLast?_cons, Option.map_some, Option.getD_some]
    cases (hs.filter fun h => h.name = label).getLast? with
    | none => rfl
    | some last => rfl
  · rw [if_neg (by simpa using same), if_neg same]

theorem lastValue_absent {label : List UInt8} {hs : List Header} (absent : ∀ h ∈ hs, h.name ≠ label) :
    lastValue label hs = none := by
  unfold lastValue
  rw [List.filter_eq_nil_iff.mpr fun h member => by simpa using absent h member]
  rfl

/-- Behind the last line only the empty one is left. -/
theorem headerLines_end (delims : ∀ c ∈ skip, isDelim c = true) (rest : List UInt8) :
    headerLines noSpace assign (fuel + 1) (done ++ skip ++ headerText [] ++ 0 :: rest) done.length key value info =
      some info := by
  have emptyLine : ∀ c ∈ headerText [], isDelim c = true := by simp [headerText, isDelim]
  have ended : strtokR isDelim (done ++ skip ++ headerText [] ++ 0 :: rest) done.length = none := by
    rw [List.append_assoc done]
    apply strtokR_end _ rfl
    intro c member
    obtain skipped | inLine := List.mem_append.mp member
    · exact delims c skipped
    · exact emptyLine c inLine
  unfold headerLines
  rw [ended]

/-- One line in front of the others: `c` is the byte behind its key. -/
theorem Found.cons {label before middle now : List UInt8} {hs : List Header} {c : UInt8} (formed : h.WellFormed)
    (cleared : h.name.length + 1 < n → c = 0) (old : n ≤ h.name.length + 1 → c ∈ key.array.drop n)
    (field : middle = if h.name = label ∧ c = 0 then h.value else before)
    (found : Found label n hs ((namedKey key n h).array.drop n) middle now) :
    Found label n (h :: hs) (key.array.drop n) before now := by
  obtain ⟨known, unknown⟩ := found
  constructor
  · rintro (short | absent)
    · have recognised : (h.name = label ∧ c = 0) ↔ h.name = label :=
        ⟨And.left, fun same => ⟨same, cleared (same ▸ short)⟩⟩
      rw [known (Or.inl short), field, lastValue_cons]
      simp only [recognised]
    · have later : ∀ h' ∈ hs, h'.name ≠ label := fun h' later => absent h' (List.mem_cons_of_mem _ later)
      have other : ¬ (h.name = label ∧ c = 0) := fun same => absent h List.mem_cons_self same.1
      rw [known (Or.inr later), field, if_neg other, lastValue_absent later, lastValue_absent absent]
  · intro long stale
    have unread : ¬ (h.name = label ∧ c = 0) := by
      rintro ⟨same, nul⟩
      exact stale (nul ▸ old (same ▸ long))
    rw [unknown long (named_stale formed stale), field, if_neg unread]

/-- A label that is shorter than what is cleared is recognised. With old bytes behind what is cleared no longer
one is. -/
theorem headerLines_fills {fits : Header → Prop} {label : List UInt8} {get : HttpInfo → List UInt8} {hs : List Header}
    (fills : Fills assign fits label get) (formed : ∀ h ∈ hs, h.WellFormed ∧ fits h)
    (delims : ∀ c ∈ skip, isDelim c = true)
    (lead : ∀ h, hs.head? = some h → (cstring (done ++ skip ++ h.line)).length = n)
    (inside : n ≤ key.array.length ∧ n ≤ value.array.length)
    (room : ∀ h ∈ hs, h.line.length ≤ key.array.length ∧ h.line.length ≤ value.array.length)
    (enough : hs.length < fuel) (rest : List UInt8) :
    ∃ info', headerLines noSpace assign fuel (done ++ skip ++ headerText hs ++ 0 :: rest) done.length key value info =
      some info' ∧ Found label n hs (key.array.drop n) (get info) (get info') := by
  induction hs generalizing done skip key value info fuel with
  | nil =>
    obtain ⟨fuel, rfl⟩ := Nat.exists_eq_add_of_lt enough
    exact ⟨info, headerLines_end delims rest, fun _ => rfl, fun _ _ => rfl⟩
  | cons h hs ih =>
    obtain ⟨fuel, rfl⟩ : ∃ k, fuel = k + 1 := ⟨fuel - 1, by omega⟩
    obtain ⟨formedHere, fitsHere⟩ := formed h List.mem_cons_self
    have roomHere := room h List.mem_cons_self
    have leadHere := lead h rfl
    obtain ⟨c, r, keyView, cleared, old⟩ := named_view n roomHere.1
    obtain ⟨r', valueView⟩ := valued_view value n h
    obtain ⟨info', assigned, field⟩ := fills h c r r' info formedHere fitsHere
    have keyLength := named_length inside.1 roomHere.1
    have valueLength := valued_length inside.2 roomHere.2
    have next : ∃ last, headerLines noSpace assign fuel
          (done ++ skip ++ h.line ++ [0] ++ [10] ++ headerText hs ++ 0 :: rest)
          (done ++ skip ++ h.line ++ [0]).length (namedKey key n h) (valuedBlock value n h) info' = some last ∧
        Found label n hs ((namedKey key n h).array.drop n) (get info') (get last) := by
      apply ih
      · exact fun h' later => formed h' (List.mem_cons_of_mem _ later)
      · simp [isDelim]
      · intro h' _
        rw [List.append_assoc _ [10], cstring_append (List.mem_append_right _ List.mem_cons_self), cstring_append_nul]
        exact leadHere
      · rw [keyLength, valueLength]
        exact inside
      · rw [keyLength, valueLength]
        exact fun h' later => room h' (List.mem_cons_of_mem _ later)
      · rw [List.length_cons] at enough
        omega
    obtain ⟨last, run, found⟩ := next
    refine ⟨last, ?_, found.cons formedHere cleared old field⟩
    have line : done ++ skip ++ headerText (h :: hs) ++ 0 :: rest =
        done ++ skip ++ h.line ++ 13 :: (10 :: headerText hs ++ 0 :: rest) := by
      rw [headerText_cons]
      simp
    have marked : done ++ skip ++ h.line ++ 0 :: (10 :: headerText hs ++ 0 :: rest) =
        done ++ skip ++ h.line ++ [0] ++ [10] ++ headerText hs ++ 0 :: rest := by simp
    have saved : (done ++ skip ++ h.line ++ [0]).length = (done ++ skip ++ h.line).length + 1 := List.length_append
    rw [saved] at run
    rw [line, headerLines_step formedHere delims leadHere inside roomHere, keyView, valueView, assigned,
      Option.bind_some, marked]
    exact run

/-! ### The buffer of a message -/

theorem headerText_noNul {hs : List Header} (formed : ∀ h ∈ hs, h.WellFormed) : 0 ∉ headerText hs := by
  intro member
  obtain inLines | inEnd := List.mem_append.mp member
  · obtain ⟨h, here, member⟩ := List.mem_flatMap.mp inLines
    obtain inLine | inEnd := List.mem_append.mp member
    · exact ((formed h here).line 0 inLine).1 rfl
    · exact absurd inEnd (by decide)
  · exact absurd inEnd (by decide)

theorem line_le_headerText {hs : List Header} (member : h ∈ hs) : h.line.length ≤ (headerText hs).length := by
  induction hs with
  | nil => cases member
  | cons first hs ih =>
    rw [headerText_cons, List.length_append, List.length_cons, List.length_cons]
    obtain rfl | later := List.mem_cons.mp member
    · omega
    · have short := ih later
      omega

theorem length_headers_le (hs : List Header) : hs.length ≤ (headerText hs).length := by
  induction hs with
  | nil => exact Nat.zero_le _
  | cons h hs ih =>
    rw [headerText_cons, List.length_append, List.length_cons, List.length_cons, List.length_cons]
    omega

theorem firstLength_le (hs : List Header) : firstLength hs ≤ (headerText hs).length := by
  cases hs with
  | nil => exact Nat.zero_le _
  | cons h hs => exact line_le_headerText List.mem_cons_self

/-- The memory around the parse of headers: the arrays can be allocated, and the copy of the rest of the
message can be read. -/
structure Memory.Holds (memory : Memory) (hs : List Header) : Prop where
  key : (headerText hs).length ≤ memory.key.length
  value : (headerText hs).length ≤ memory.value.length
  after : maxDataSize ≤ (headerText hs).length + 1 + memory.after.length

/-- The copy of the message behind its first line. -/
theorem memread_headers {hs : List Header} {memory : Memory} (holds : memory.Holds hs)
    (short : (headerText hs).length < maxDataSize) (line : List UInt8) :
    memread (line ++ [13, 10] ++ headerText hs ++ 0 :: memory.after) ((line.length : Int) + 2).toNat maxDataSize =
      some (headerText hs ++ 0 :: memory.after.take (maxDataSize - (headerText hs).length - 1)) := by
  have behind := holds.after
  have place : ((line.length : Int) + 2).toNat = (line ++ [13, 10]).length := by
    rw [List.length_append, List.length_cons, List.length_singleton]
    omega
  have length : maxDataSize - (headerText hs).length = maxDataSize - (headerText hs).length - 1 + 1 := by omega
  unfold memread
  rw [place, List.append_assoc (line ++ [13, 10]), List.drop_left, if_pos, List.take_append, length,
    List.take_succ_cons, List.take_of_length_le short.le]
  · rfl
  · simp only [List.length_append, List.length_cons]
    omega

theorem parseLines_fills {fits : Header → Prop} {label line : List UInt8} {get : HttpInfo → List UInt8}
    {hs : List Header} {memory : Memory} (fills : Fills assign fits label get)
    (formed : ∀ h ∈ hs, h.WellFormed ∧ fits h)
    (holds : memory.Holds hs) (short : (headerText hs).length < maxDataSize) :
    ∃ info', parseLines noSpace assign (line ++ [13, 10] ++ headerText hs ++ 0 :: memory.after) line.length memory
      info = some info' ∧ Found label (firstLength hs) hs memory.key (get info) (get info') := by
  have noNul := headerText_noNul fun h member => (formed h member).1
  have read := memread_headers holds short line
  obtain ⟨room, space, _⟩ := holds
  have len : strlen (headerText hs ++ 0 :: memory.after.take (maxDataSize - (headerText hs).length - 1)) =
      some (headerText hs).length := by
    unfold strlen
    rw [if_pos (List.mem_append_right _ List.mem_cons_self), cstring_append_nul, cstring_eq_self noNul]
  have keyMade : malloc memory.key (headerText hs).length =
      some ⟨memory.key.take (headerText hs).length, memory.key.drop (headerText hs).length⟩ := if_pos room
  have valueMade : malloc memory.value (headerText hs).length =
      some ⟨memory.value.take (headerText hs).length, memory.value.drop (headerText hs).length⟩ := if_pos space
  have keyLength : (memory.key.take (headerText hs).length).length = (headerText hs).length :=
    List.length_take_of_le room
  have valueLength : (memory.value.take (headerText hs).length).length = (headerText hs).length :=
    List.length_take_of_le space
  have first := firstLength_le hs
  have enough := length_headers_le hs
  have loop : ∃ last, headerLines noSpace assign (maxDataSize + 1)
        ([] ++ [] ++ headerText hs ++ 0 :: memory.after.take (maxDataSize - (headerText hs).length - 1))
        ([] : List UInt8).length ⟨memory.key.take (headerText hs).length, memory.key.drop (headerText hs).length⟩
        ⟨memory.value.take (headerText hs).length, memory.value.drop (headerText hs).length⟩ info = some last ∧
      Found label (firstLength hs) hs ((memory.key.take (headerText hs).length).drop (firstLength hs)) (get info)
        (get last) := by
    apply headerLines_fills fills formed
    · simp
    · intro h isFirst
      obtain ⟨others, rfl⟩ := List.head?_eq_some_iff.mp isFirst
      rw [List.nil_append, List.nil_append, cstring_eq_self]
      · rfl
      · intro nul
        exact ((formed h List.mem_cons_self).1.line 0 nul).1 rfl
    · exact ⟨first.trans_eq keyLength.symm, first.trans_eq valueLength.symm⟩
    · intro h member
      exact ⟨(line_le_headerText member).trans_eq keyLength.symm, (line_le_headerText member).trans_eq valueLength.symm⟩
    · omega
  obtain ⟨last, run, known, unknown⟩ := loop
  refine ⟨last, ?_, known, fun long stale => unknown long fun old => ?_⟩
  swap
  · exact stale (List.mem_of_mem_take (List.mem_of_mem_drop old))
  unfold parseLines
  simp only [read, len, keyMade, valueMade, Option.bind_eq_bind, Option.bind_some]
  exact run

end

end NetProjects.Proxy
