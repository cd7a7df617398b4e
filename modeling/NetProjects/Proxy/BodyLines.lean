import NetProjects.Proxy.Overruns

/-!
# Header lines in a body

The loop over the header lines takes CR and LF for the same thing and leaves empty lines out, so it does not stop
where the header does.
-/

namespace NetProjects.Proxy
open Bytes

/-- A header, up to and with its empty line. -/
def withEmptyLine (front : List UInt8) : List UInt8 := front ++ [13, 10, 13, 10]

def behindFirst (head : List UInt8) : List UInt8 := head.drop ((firstLine head).length + 2)

def headLines (head : List UInt8) : List (List UInt8) := tokens isDelim (behindFirst head)

def headEntries (key head : List UInt8) : List Entry :=
  entries (throughFirst isDelim (behindFirst head)).length key (headLines head)

/-- The lines of a body that the loop reads: it does not come to them behind a header line without a space. -/
def bodyEntries (key head body : List UInt8) : List Entry :=
  let n := (throughFirst isDelim (behindFirst head ++ body)).length
  if ∀ line ∈ headLines head, 32 ∈ line then entries n (keyAfter n key (headLines head)) (tokens isDelim body) else []

/-- The status and the values of a header stay inside their fields. -/
structure HeadFits (key head : List UInt8) : Prop where
  long : 9 ≤ (firstLine head).length
  short : (firstLine head).length ≤ 28
  contentLength : FitsUnder (cstr "Content-Length:") 10 (headEntries key head)
  date : FitsUnder (cstr "Date:") 30 (headEntries key head)

def BodyFits (key head body : List UInt8) : Prop :=
  FitsUnder (cstr "Content-Length:") 10 (bodyEntries key head body) ∧
    FitsUnder (cstr "Date:") 30 (bodyEntries key head body)

/-- The value under a label when the body has been read. -/
def bodyValue (label key head body before : List UInt8) : List UInt8 :=
  (lastUnder label (bodyEntries key head body)).getD ((lastUnder label (headEntries key head)).getD before)

/-- The values of two bodies fit, and the bodies leave the same length and date. -/
structure SameLines (key : List UInt8) (info : HttpInfo) (head body other : List UInt8) : Prop where
  fits : BodyFits key head body
  otherFits : BodyFits key head other
  contentLength : bodyValue (cstr "Content-Length:") key head body info.contentLength.str =
    bodyValue (cstr "Content-Length:") key head other info.contentLength.str
  date : bodyValue (cstr "Date:") key head body info.date.str = bodyValue (cstr "Date:") key head other info.date.str

/-- What a response has filled. -/
def strings (res : HttpInfo) : List UInt8 × List UInt8 × List UInt8 :=
  (res.status.str, res.contentLength.str, res.date.str)

/-- What is filled by a parse that stays inside its fields. -/
def parsedStrings (memory : Memory) (info : HttpInfo) (response : List UInt8) :
    Option (List UInt8 × List UInt8 × List UInt8) :=
  (parseResponse (response ++ 0 :: memory.after) memory info).map strings

/-- Two bodies behind one header are parsed, and leave the same status, length and date. -/
def SameHeader (memory : Memory) (info : HttpInfo) (head body other : List UInt8) : Prop :=
  ∃ filled, parsedStrings memory info (head ++ body) = some filled ∧
    parsedStrings memory info (head ++ other) = some filled

/-! ### The lines of a response -/

section

variable {n : Nat} {key mem front body : List UInt8} {lines : List (List UInt8)}

theorem entries_append (spaces : ∀ line ∈ lines, 32 ∈ line) (others : List (List UInt8)) :
    entries n mem (lines ++ others) = entries n mem lines ++ entries n (keyAfter n mem lines) others := by
  induction lines generalizing mem with
  | nil => rfl
  | cons line lines ih =>
    obtain ⟨here, later⟩ := List.forall_mem_cons.mp spaces
    rw [List.cons_append, entries, if_pos here, entries, if_pos here, ih later]
    rfl

theorem entries_stopped (stop : ¬ ∀ line ∈ lines, 32 ∈ line) (others : List (List UInt8)) :
    entries n mem (lines ++ others) = entries n mem lines := by
  induction lines generalizing mem with
  | nil => exact absurd (fun line member => absurd member List.not_mem_nil) stop
  | cons line lines ih =>
    rw [List.forall_mem_cons] at stop
    rw [List.cons_append, entries, entries]
    by_cases here : 32 ∈ line
    · rw [if_pos here, if_pos here, ih fun later => stop ⟨here, later⟩]
    · rw [if_neg here, if_neg here]

theorem firstLine_append {head : List UInt8} (cr : 13 ∈ head) (rest : List UInt8) :
    firstLine (head ++ rest) = firstLine head := by
  obtain ⟨before, after, rfl, absent⟩ := List.eq_append_cons_of_mem cr
  have letters : ∀ c ∈ before, decide (c ≠ 13) = true := fun c member => decide_eq_true fun same => absent (same ▸ member)
  unfold firstLine
  rw [List.append_assoc, List.cons_append, takeWhile_stop letters (by decide), takeWhile_stop letters (by decide)]

theorem cr_mem_head (front : List UInt8) : 13 ∈ withEmptyLine front := List.mem_append_right _ List.mem_cons_self

theorem firstLine_le (front : List UInt8) : (firstLine (withEmptyLine front)).length ≤ front.length := by
  by_contra longer
  have part : firstLine (withEmptyLine front) <+: front ++ [13] ++ [10, 13, 10] := by
    rw [List.append_assoc]
    exact List.takeWhile_prefix _
  have inside : front ++ [13] <+: firstLine (withEmptyLine front) := by
    apply List.prefix_of_prefix_length_le (List.prefix_append _ _) part
    rw [List.length_append, List.length_singleton]
    omega
  have cr : 13 ∈ firstLine (withEmptyLine front) := inside.subset (List.mem_append_right _ List.mem_cons_self)
  have other := List.mem_takeWhile_imp cr
  exact absurd other (by decide)

/-- A header ends in a delimiter. -/
theorem behindFirst_ends (front : List UInt8) : ∃ start, behindFirst (withEmptyLine front) = start ++ [10] := by
  have short := firstLine_le front
  have dropped : ∀ n ≤ (front ++ [13, 10, 13]).length,
      (withEmptyLine front).drop n = (front ++ [13, 10, 13]).drop n ++ [10] := by
    intro n inside
    rw [← List.drop_append_of_le_length inside, List.append_assoc]
    rfl
  refine ⟨_, dropped _ ?_⟩
  rw [List.length_append, List.length_cons, List.length_cons, List.length_singleton]
  omega

theorem headLines_eq {head start : List UInt8} (ends : behindFirst head = start ++ [10]) :
    headLines head = tokens isDelim start := by
  unfold headLines
  rw [ends, tokens_append rfl]
  exact List.append_nil _

/-- What is copied behind the first line. -/
theorem lineBuffer_head (noNul : 0 ∉ withEmptyLine front ++ body)
    (short : (withEmptyLine front ++ body).length < maxDataSize) (after : List UInt8) :
    cstring (lineBuffer (withEmptyLine front ++ body ++ 0 :: after)) = behindFirst (withEmptyLine front) ++ body ∧
      0 ∈ lineBuffer (withEmptyLine front ++ body ++ 0 :: after) := by
  have line := firstLine_le front
  have length : (withEmptyLine front).length = front.length + 4 := List.length_append
  have noNulBehind : 0 ∉ behindFirst (withEmptyLine front) ++ body := by
    intro nul
    obtain inHead | inBody := List.mem_append.mp nul
    · exact noNul (List.mem_append_left _ (List.mem_of_mem_drop inHead))
    · exact noNul (List.mem_append_right _ inBody)
  have size : (behindFirst (withEmptyLine front) ++ body).length < maxDataSize := by
    rw [behindFirst, List.length_append, List.length_drop]
    rw [List.length_append] at short
    omega
  have buffer : lineBuffer (withEmptyLine front ++ body ++ 0 :: after) =
      (behindFirst (withEmptyLine front) ++ body ++ 0 :: after).take maxDataSize := by
    unfold lineBuffer
    rw [List.append_assoc, firstLine_append (cr_mem_head front), List.drop_append_of_le_length (by omega), behindFirst,
      List.append_assoc]
  constructor
  · rw [buffer, cstring_take, cstring_append_nul, cstring_eq_self noNulBehind, List.take_of_length_le size.le]
  · obtain ⟨room, full⟩ : ∃ room, maxDataSize - (behindFirst (withEmptyLine front) ++ body).length = room + 1 :=
      ⟨_, (Nat.sub_add_cancel (Nat.sub_pos_of_lt size)).symm⟩
    rw [buffer, List.take_append, full, List.take_succ_cons]
    exact List.mem_append_right _ List.mem_cons_self

/-- The lines of the header, and those of the body unless the header ends the loop. -/
theorem viewEntries_head (noNul : 0 ∉ withEmptyLine front ++ body)
    (short : (withEmptyLine front ++ body).length < maxDataSize) (key after : List UInt8) :
    viewEntries key (withEmptyLine front ++ body ++ 0 :: after) =
      headEntries key (withEmptyLine front) ++ bodyEntries key (withEmptyLine front) body := by
  obtain ⟨text, _⟩ := lineBuffer_head noNul short after
  obtain ⟨start, ends⟩ := behindFirst_ends front
  have lines : tokens isDelim (behindFirst (withEmptyLine front) ++ body) =
      headLines (withEmptyLine front) ++ tokens isDelim body := by
    rw [headLines_eq ends, ends, List.append_assoc, List.singleton_append, tokens_append rfl]
  -- Without header lines it is the body that says how much is cleared.
  have cleared : headLines (withEmptyLine front) ≠ [] →
      throughFirst isDelim (behindFirst (withEmptyLine front) ++ body) =
        throughFirst isDelim (behindFirst (withEmptyLine front)) := by
    intro some
    rw [headLines_eq ends] at some
    rw [ends, List.append_assoc, List.singleton_append, throughFirst_append rfl some, throughFirst_append rfl some]
  unfold viewEntries viewLines clearedBytes
  rw [text, lines]
  by_cases none : headLines (withEmptyLine front) = []
  · unfold headEntries bodyEntries
    rw [none, if_pos fun line member => absurd member List.not_mem_nil]
    rfl
  · unfold headEntries bodyEntries
    dsimp only
    rw [cleared none]
    by_cases spaces : ∀ line ∈ headLines (withEmptyLine front), 32 ∈ line
    · rw [if_pos spaces, entries_append spaces]
    · rw [if_neg spaces, entries_stopped spaces, List.append_nil]

variable {memory : Memory} {info : HttpInfo}

/-- When a response is parsed, and what is filled then. -/
theorem parseResponse_strings {view : List UInt8}
    (room : maxDataSize ≤ memory.key.length ∧ maxDataSize ≤ memory.value.length)
    (inside : 13 ∈ cstring view → (firstLine view).length + 2 + maxDataSize ≤ view.length) (cr : 13 ∈ cstring view)
    (ended : 0 ∈ lineBuffer view) {status : Field 20}
    (copied : info.status.memcpy (view.drop 9) (toSize ((firstLine view).length - 9)) = some status)
    (fits : FitsUnder (cstr "Content-Length:") 10 (viewEntries memory.key view) ∧
      FitsUnder (cstr "Date:") 30 (viewEntries memory.key view)) :
    (parseResponse view memory info).map strings = some (status.str,
      (lastUnder (cstr "Content-Length:") (viewEntries memory.key view)).getD info.contentLength.str,
      (lastUnder (cstr "Date:") (viewEntries memory.key view)).getD info.date.str) := by
  have noNul : ∀ e ∈ viewEntries memory.key view, 0 ∉ e.value := fun e member => (viewEntries_noNul _ _ e member).2
  obtain ⟨contentLength, lengthFilled⟩ := (fillAll_iff noNul info.contentLength).mpr fits.1
  obtain ⟨date, dateFilled⟩ := (fillAll_iff noNul info.date).mpr fits.2
  have parsed := (parseResponse_iff room inside).mpr ⟨cr, ended, status, contentLength, date, copied, lengthFilled,
    dateFilled, rfl⟩
  rw [parsed, Option.map_some, ← fillAll_str noNul lengthFilled, ← fillAll_str noNul dateFilled]
  rfl

theorem FitsUnder.append_iff {label : List UInt8} {size : Nat} {es others : List Entry} :
    FitsUnder label size (es ++ others) ↔ FitsUnder label size es ∧ FitsUnder label size others := List.forall_mem_append

theorem cr_mem_view (noNul : 0 ∉ withEmptyLine front ++ body) (after : List UInt8) :
    13 ∈ cstring (withEmptyLine front ++ body ++ 0 :: after) := by
  rw [cstring_append_nul, cstring_eq_self noNul]
  exact List.mem_append_left _ (cr_mem_head front)

theorem firstLine_view (front body after : List UInt8) :
    firstLine (withEmptyLine front ++ body ++ 0 :: after) = firstLine (withEmptyLine front) := by
  rw [List.append_assoc, firstLine_append (cr_mem_head front)]

/-- The status of a header is copied where its first line has the length for it. -/
theorem HeadFits.status {key : List UInt8} (fits : HeadFits key (withEmptyLine front))
    (closed : info.status.Closed) (noNul : 0 ∉ withEmptyLine front ++ body) (after : List UInt8) : ∃ status : Field 20,
    info.status.memcpy ((withEmptyLine front ++ body ++ 0 :: after).drop 9)
        (toSize ((firstLine (withEmptyLine front ++ body ++ 0 :: after)).length - 9)) = some status ∧
      Field.ofBytes? (memcpy info.status.bytes 0 ((firstLine (withEmptyLine front)).drop 9)) = some status := by
  have cr := cr_mem_view noNul after
  have long := fits.long
  have short := fits.short
  obtain ⟨status, copied⟩ := (status_copied_iff cr closed).mpr (by rw [firstLine_view]; exact ⟨long, short⟩)
  refine ⟨status, copied, ?_⟩
  rwa [status_copied_eq cr, firstLine_view, if_pos (by omega)] at copied

/-- A header and a body that fit leave the last values. -/
theorem strings_head (ample : memory.Ample) (closed : info.status.Closed) (noNul : 0 ∉ withEmptyLine front ++ body)
    (short : (withEmptyLine front ++ body).length < maxDataSize) (head : HeadFits memory.key (withEmptyLine front))
    (fits : BodyFits memory.key (withEmptyLine front) body) : ∃ status : Field 20,
    Field.ofBytes? (memcpy info.status.bytes 0 ((firstLine (withEmptyLine front)).drop 9)) = some status ∧
      parsedStrings memory info (withEmptyLine front ++ body) = some (status.str,
        bodyValue (cstr "Content-Length:") memory.key (withEmptyLine front) body info.contentLength.str,
        bodyValue (cstr "Date:") memory.key (withEmptyLine front) body info.date.str) := by
  have cr := cr_mem_view noNul memory.after
  obtain ⟨status, cut, copied⟩ := head.status closed noNul memory.after
  have filled := parseResponse_strings ⟨ample.key, ample.value⟩ (room_behind noNul ample) cr
    (lineBuffer_head noNul short memory.after).2 cut
  rw [viewEntries_head noNul short, lastUnder_append, lastUnder_append] at filled
  exact ⟨status, copied,
    filled ⟨FitsUnder.append_iff.mpr ⟨head.contentLength, fits.1⟩, FitsUnder.append_iff.mpr ⟨head.date, fits.2⟩⟩⟩

/-- What a parsed response says of its header and its body. -/
theorem parsed_head (ample : memory.Ample) (closed : info.status.Closed) (noNul : 0 ∉ withEmptyLine front ++ body)
    (short : (withEmptyLine front ++ body).length < maxDataSize)
    {filled : List UInt8 × List UInt8 × List UInt8}
    (parsed : parsedStrings memory info (withEmptyLine front ++ body) = some filled) :
    HeadFits memory.key (withEmptyLine front) ∧ BodyFits memory.key (withEmptyLine front) body := by
  obtain ⟨res, parsed, _⟩ := Option.map_eq_some_iff.mp parsed
  obtain ⟨_, long, notLonger, _, length, date⟩ :=
    response_fits ⟨ample.key, ample.value⟩ (room_behind noNul ample) closed parsed
  rw [firstLine_view] at long notLonger
  rw [viewEntries_head noNul short, FitsUnder.append_iff] at length date
  exact ⟨⟨long, notLonger, length.1, date.1⟩, length.2, date.2⟩

end

/-! ### Two bodies -/

instance (key head body : List UInt8) : Decidable (BodyFits key head body) :=
  inferInstanceAs (Decidable (_ ∧ _))

def fiveBytes : List UInt8 := cstr "HTTP/1.0 200 OK\r\nServer: Apache/2.4\r\nContent-Length: 5"

end NetProjects.Proxy
