import NetProjects.Library.Tokens
import NetProjects.Proxy.Http

/-!
# The lines behind the first one

What the loop over the header lines does, without its arrays: each line that has a space is an entry, with
the string that the key array shows and the value.
-/

namespace NetProjects.Proxy
open Bytes

structure Entry where
  key : List UInt8
  value : List UInt8
  deriving DecidableEq

def lineName (line : List UInt8) : List UInt8 := line.takeWhile (· ≠ 32)

def lineValue (line : List UInt8) : List UInt8 := (line.dropWhile (· ≠ 32)).drop 1

/-- The memory from the key on when `n` bytes have been cleared and a name has been copied. -/
def keyed (n : Nat) (mem name : List UInt8) : List UInt8 := memcpy (memcpy mem 0 (List.replicate n 0)) 0 name

def valued (n : Nat) (mem value : List UInt8) (size : Nat) : List UInt8 :=
  memcpy (memcpy mem 0 (List.replicate n 0)) 0 (value ++ List.replicate (size - value.length) 0)

/-- The entries of the lines in front of the first one without a space. -/
def entries (n : Nat) : List UInt8 → List (List UInt8) → List Entry
  | _, [] => []
  | mem, line :: lines =>
    if 32 ∈ line then
      { key := cstring (keyed n mem (lineName line)), value := lineValue line } ::
        entries n (keyed n mem (lineName line)) lines
    else []

/-- The memory from the key on behind the lines. -/
def keyAfter (n : Nat) (mem : List UInt8) (lines : List (List UInt8)) : List UInt8 :=
  lines.foldl (fun mem line => keyed n mem (lineName line)) mem

def assigned (assign : List UInt8 → List UInt8 → HttpInfo → Option HttpInfo) (info : HttpInfo) (e : Entry) :
    Option HttpInfo := assign (e.key ++ [0]) (e.value ++ [0]) info

/-! ### What is behind the first line -/

def firstLine (view : List UInt8) : List UInt8 := view.takeWhile (· ≠ 13)

/-- The copy of the memory behind the first line and two more bytes. -/
def lineBuffer (view : List UInt8) : List UInt8 := (view.drop ((firstLine view).length + 2)).take maxDataSize

def viewLines (view : List UInt8) : List (List UInt8) := tokens isDelim (cstring (lineBuffer view))

/-- As many bytes are cleared for each line. -/
def clearedBytes (view : List UInt8) : Nat := (throughFirst isDelim (cstring (lineBuffer view))).length

def viewEntries (key view : List UInt8) : List Entry := entries (clearedBytes view) key (viewLines view)

/-- An assignment that reads two strings. The labels are shorter than the memory. -/
def Reads (assign : List UInt8 → List UInt8 → HttpInfo → Option HttpInfo) : Prop :=
  ∀ key value info, maxDataSize ≤ key.length → 0 ∈ value →
    assign key value info = assign (cstring key ++ [0]) (cstring value ++ [0]) info

/-- A label in the memory from a key on, and in its string alone. -/
theorem strcmpLit_same {mem : List UInt8} (long : maxDataSize ≤ mem.length) (name : String) (noNul : 0 ∉ cstr name)
    (short : (cstr name).length < maxDataSize) : strcmpLit mem (cstr name) = strcmpLit (cstring mem ++ [0]) (cstr name) := by
  have string : cstring (cstring mem ++ [0]) = cstring mem := by
    rw [cstring_append_nul, cstring_eq_self (not_mem_cstring mem)]
  rw [strcmpLit_string noNul (Or.inr (short.trans_le long)),
    strcmpLit_string noNul (Or.inl (List.mem_append_right _ List.mem_cons_self)), string]

theorem Field.strcpy_same {k : Nat} (field : Field k) {value : List UInt8} (terminated : 0 ∈ value) :
    field.strcpy value = field.strcpy (cstring value ++ [0]) := by
  unfold Field.strcpy
  rw [strcpy_cstring field.bytes terminated]

theorem assignRequest_reads : Reads assignRequest := by
  intro key value info long terminated
  unfold assignRequest
  rw [strcmpLit_same long "Host:" (by decide) (by decide), strcmpLit_same long "User-Agent:" (by decide) (by decide),
    strcmpLit_same long "Connection:" (by decide) (by decide), Field.strcpy_same info.host terminated,
    Field.strcpy_same info.userAgent terminated, Field.strcpy_same info.connection terminated]

theorem assignResponse_reads : Reads assignResponse := by
  intro key value info long terminated
  unfold assignResponse
  rw [strcmpLit_same long "Content-Length:" (by decide) (by decide), strcmpLit_same long "Date:" (by decide) (by decide),
    Field.strcpy_same info.contentLength terminated, Field.strcpy_same info.date terminated]

section

variable {noSpace : HttpInfo → Option HttpInfo} {assign : List UInt8 → List UInt8 → HttpInfo → Option HttpInfo}
  {n : Nat} {mem line name value array : List UInt8}

/-! ### One line -/

theorem line_split (space : 32 ∈ line) : line = lineName line ++ 32 :: lineValue line ∧ 32 ∉ lineName line := by
  obtain ⟨before, after, rfl, absent⟩ := List.eq_append_cons_of_mem space
  have letters : ∀ c ∈ before, decide (c ≠ 32) = true := fun c member =>
    decide_eq_true fun same => absent (same ▸ member)
  have found : lineName (before ++ 32 :: after) = before := takeWhile_stop letters (by decide) after
  have rest : lineValue (before ++ 32 :: after) = after := by
    unfold lineValue
    rw [List.dropWhile_append_of_pos letters, List.dropWhile_cons_of_neg (by decide)]
    rfl
  rw [found, rest]
  exact ⟨rfl, absent⟩

theorem length_cleared {array : List UInt8} (inside : n ≤ array.length) :
    (memcpy array 0 (List.replicate n 0)).length = array.length := by
  rw [length_memcpy]
  rw [List.length_replicate]
  omega

theorem length_overwritten {array src : List UInt8} (inside : n ≤ array.length) (fits : src.length ≤ array.length) :
    (memcpy (memcpy array 0 (List.replicate n 0)) 0 src).length = array.length := by
  rw [length_memcpy, length_cleared inside]
  rw [length_cleared inside]
  omega

/-- The arrays are overwritten in place. -/
theorem keyed_append (inside : n ≤ array.length) (fits : name.length ≤ array.length) (after : List UInt8) :
    keyed n (array ++ after) name = keyed n array name ++ after := by
  unfold keyed
  simp only [memcpy_zero, List.length_replicate]
  rw [List.drop_append_of_le_length inside, ← List.append_assoc, List.drop_append_of_le_length, List.append_assoc]
  simp only [List.length_append, List.length_replicate, List.length_drop]
  omega

theorem valued_text (n : Nat) (mem : List UInt8) {size : Nat} (room : value.length < size) :
    ∃ rest, valued n mem value size = value ++ 0 :: rest := by
  have padding : size - value.length = size - value.length - 1 + 1 := by omega
  unfold valued
  rw [memcpy_zero, padding, List.replicate_succ, List.append_assoc]
  exact ⟨_, rfl⟩

/-- A line with a space, between whatever `strtok_r` found it in and what it left. -/
theorem headerLines_line {fuel save save' : Nat} {buf buf' : List UInt8} {key value : Block} {info : HttpInfo}
    (token : strtokR isDelim buf save = some ⟨line, buf', save'⟩) (len : strlen buf' = some n) (noNul : 0 ∉ line)
    (space : 32 ∈ line) (inside : n ≤ key.array.length ∧ n ≤ value.array.length)
    (room : line.length ≤ key.array.length ∧ line.length ≤ value.array.length) :
    headerLines noSpace assign (fuel + 1) buf save key value info =
      (assign (keyed n key.array (lineName line) ++ key.after)
        (valued n value.array (lineValue line) line.length ++ value.after) info).bind fun info' =>
        headerLines noSpace assign fuel buf' save' ⟨keyed n key.array (lineName line), key.after⟩
          ⟨valued n value.array (lineValue line) line.length, value.after⟩ info' := by
  obtain ⟨split, first⟩ := line_split space
  have sizes := congrArg List.length split
  rw [List.length_append, List.length_cons] at sizes
  have marked : line ++ [0] = lineName line ++ 32 :: (lineValue line ++ [0]) := by
    conv_lhs => rw [split]
    simp
  have noNuls : 0 ∉ lineName line ∧ 0 ∉ lineValue line := by
    rw [split, List.mem_append, List.mem_cons, not_or, not_or] at noNul
    exact ⟨noNul.1, noNul.2.2⟩
  have found : strchr 32 (line ++ [0]) = some ((lineName line).length : Int) := by
    rw [marked, strchr_found _ first noNuls.1]
  have name : strncpy (memcpy key.array 0 (List.replicate n 0)) (line ++ [0]) (lineName line).length =
      some (keyed n key.array (lineName line)) := by
    have string : (cstring (line ++ [0])).take (lineName line).length = lineName line := by
      rw [cstring_append_nul, cstring_eq_self noNul]
      exact (List.prefix_iff_eq_take.mp (List.takeWhile_prefix _)).symm
    unfold strncpy
    rw [length_cleared inside.1, if_pos ⟨by omega, Or.inr (List.mem_append_right _ List.mem_cons_self)⟩, string]
    simp [keyed]
  have rest : strncpy (memcpy value.array 0 (List.replicate n 0)) ((line ++ [0]).drop ((lineName line).length + 1))
      line.length = some (valued n value.array (lineValue line) line.length) := by
    have tail : (line ++ [0]).drop ((lineName line).length + 1) = lineValue line ++ [0] := by
      rw [marked]
      exact List.drop_length_add_append 1
    have string : (cstring (lineValue line ++ [0])).take line.length = lineValue line := by
      rw [cstring_append_nul, cstring_eq_self noNuls.2, List.take_of_length_le (by omega)]
    unfold strncpy
    rw [length_cleared inside.2, tail, if_pos ⟨room.2, Or.inr (List.mem_append_right _ List.mem_cons_self)⟩, string]
    rfl
  have clearedKey : memzero key.array n = some (memcpy key.array 0 (List.replicate n 0)) := if_pos inside.1
  have clearedValue : memzero value.array n = some (memcpy value.array 0 (List.replicate n 0)) := if_pos inside.2
  rw [headerLines]
  simp only [token, found, len, Option.bind_eq_bind, Option.bind_some, clearedKey, clearedValue, Int.toNat_natCast,
    name, rest]
  rw [if_neg (by omega)]
  rfl

theorem headerLines_noSpace {fuel save save' : Nat} {buf buf' : List UInt8} {key value : Block} {info : HttpInfo}
    (token : strtokR isDelim buf save = some ⟨line, buf', save'⟩) (noNul : 0 ∉ line) (space : 32 ∉ line) :
    headerLines noSpace assign (fuel + 1) buf save key value info = noSpace info := by
  have missing : strchr 32 (line ++ [0]) = some (-1) := strchr_missing [] space noNul (by decide)
  rw [headerLines]
  simp only [token, missing, Option.bind_eq_bind, Option.bind_some]
  rfl

/-! ### All lines -/

theorem length_keyed (inside : n ≤ array.length) (fits : name.length ≤ array.length) :
    (keyed n array name).length = array.length := length_overwritten inside fits

theorem length_valued {size : Nat} (inside : n ≤ array.length) (short : value.length ≤ size) (fits : size ≤ array.length) :
    (valued n array value size).length = array.length := by
  apply length_overwritten inside
  rw [List.length_append, List.length_replicate]
  omega

theorem length_split (space : 32 ∈ line) : (lineName line).length + (lineValue line).length + 1 = line.length := by
  have sizes := congrArg List.length (line_split space).1
  rw [List.length_append, List.length_cons] at sizes
  omega

/-- The lines one after the other: each entry is assigned, up to the first line without a space. -/
theorem headerLines_entries (reads : Reads assign) {fuel : Nat} {done text : List UInt8} {key value : Block}
    {info : HttpInfo} (noNul : 0 ∉ text) (lead : (cstring (done ++ throughFirst isDelim text)).length = n)
    (inside : n ≤ key.array.length ∧ n ≤ value.array.length)
    (room : text.length ≤ key.array.length ∧ text.length ≤ value.array.length)
    (long : maxDataSize ≤ key.array.length + key.after.length) (enough : (tokens isDelim text).length < fuel)
    (rest : List UInt8) :
    headerLines noSpace assign fuel (done ++ text ++ 0 :: rest) done.length key value info =
      ((entries n (key.array ++ key.after) (tokens isDelim text)).foldlM (assigned assign) info).bind fun info' =>
        if ∀ line ∈ tokens isDelim text, 32 ∈ line then some info' else noSpace info' := by
  generalize lines : tokens isDelim text = all at enough ⊢
  induction all generalizing done text key value info fuel with
  | nil =>
    obtain ⟨fuel, rfl⟩ := Nat.exists_eq_add_of_lt enough
    have ended : strtokR isDelim (done ++ text ++ 0 :: rest) done.length = none :=
      strtokR_end (tokens_eq_nil lines) rfl rest
    rw [headerLines, ended]
    simp [entries]
  | cons line lines' ih =>
    obtain ⟨fuel, rfl⟩ : ∃ k, fuel = k + 1 := ⟨fuel - 1, by omega⟩
    have part : line <:+: text := infix_of_mem_tokens (lines ▸ List.mem_cons_self)
    have size := part.length_le
    have noNulHere : 0 ∉ line := fun member => noNul (part.subset member)
    obtain ⟨done', text', token, others, noNul', less, shown, lead'⟩ := strtokR_tokens noNul lines done rest
    by_cases space : 32 ∈ line
    · have len : strlen (done' ++ text' ++ 0 :: rest) = some n := by
        unfold strlen
        rw [if_pos (List.mem_append_right _ List.mem_cons_self), shown, lead]
      have sizes := length_split space
      have keyLength : (keyed n key.array (lineName line)).length = key.array.length :=
        length_keyed inside.1 (by omega)
      have valueLength : (valued n value.array (lineValue line) line.length).length = value.array.length :=
        length_valued inside.2 (by omega) (size.trans room.2)
      have keyView : keyed n (key.array ++ key.after) (lineName line) = keyed n key.array (lineName line) ++ key.after :=
        keyed_append inside.1 (by omega) key.after
      have padded : (lineValue line).length < line.length := by omega
      obtain ⟨r, valueView⟩ := valued_text n value.array padded
      have noNulValue : 0 ∉ lineValue line := by
        intro member
        rw [(line_split space).1, List.mem_append, List.mem_cons] at noNulHere
        exact noNulHere (Or.inr (Or.inr member))
      have read : assign (keyed n key.array (lineName line) ++ key.after)
          (valued n value.array (lineValue line) line.length ++ value.after) info =
          assigned assign info ⟨cstring (keyed n (key.array ++ key.after) (lineName line)), lineValue line⟩ := by
        rw [reads _ _ _ (by rw [List.length_append, keyLength]; exact long) (by rw [valueView]; simp), valueView,
          List.append_assoc, List.cons_append, cstring_append_nul, cstring_eq_self noNulValue, keyView]
        rfl
      rw [headerLines_line token len noNulHere space inside ⟨size.trans room.1, size.trans room.2⟩, read, entries,
        if_pos space, List.foldlM_cons]
      cases assigned assign info ⟨cstring (keyed n (key.array ++ key.after) (lineName line)), lineValue line⟩ with
      | none => rfl
      | some info' =>
        have next : headerLines noSpace assign fuel (done' ++ text' ++ 0 :: rest) done'.length
              ⟨keyed n key.array (lineName line), key.after⟩
              ⟨valued n value.array (lineValue line) line.length, value.after⟩ info' =
            ((entries n (keyed n key.array (lineName line) ++ key.after) lines').foldlM (assigned assign) info').bind
              fun last => if ∀ line ∈ lines', 32 ∈ line then some last else noSpace last := by
          apply ih noNul' (lead'.symm ▸ lead) _ _ _ others
          · rw [List.length_cons] at enough
            omega
          · rw [keyLength, valueLength]
            exact inside
          · rw [keyLength, valueLength]
            omega
          · rw [keyLength]
            exact long
        rw [Option.bind_some, next, keyView]
        simp [space]
    · rw [headerLines_noSpace token noNulHere space, entries, if_neg space, List.foldlM_nil]
      exact (if_neg fun all => space (all line List.mem_cons_self)).symm

theorem entries_noNul {lines : List (List UInt8)} (noNul : ∀ line ∈ lines, 0 ∉ line) :
    ∀ e ∈ entries n mem lines, 0 ∉ e.key ∧ 0 ∉ e.value := by
  induction lines generalizing mem with
  | nil => exact fun e member => absurd member List.not_mem_nil
  | cons line lines ih =>
    obtain ⟨here, later⟩ := List.forall_mem_cons.mp noNul
    intro e member
    unfold entries at member
    split at member
    · rename_i space
      obtain rfl | rest := List.mem_cons.mp member
      · refine ⟨not_mem_cstring _, fun nul => here ?_⟩
        rw [(line_split space).1]
        exact List.mem_append_right _ (List.mem_cons_of_mem _ nul)
      · exact ih later e rest
    · cases member

theorem viewEntries_noNul (key view : List UInt8) : ∀ e ∈ viewEntries key view, 0 ∉ e.key ∧ 0 ∉ e.value := by
  apply entries_noNul
  intro line member nul
  exact not_mem_cstring _ ((infix_of_mem_tokens member).subset nul)

theorem firstLine_split {view : List UInt8} (cr : 13 ∈ cstring view) :
    (∃ more, view = firstLine view ++ 13 :: more) ∧ 13 ∉ firstLine view ∧ 0 ∉ firstLine view := by
  obtain ⟨before, after, shape, absent⟩ := List.eq_append_cons_of_mem cr
  obtain ⟨rest, whole⟩ : cstring view <+: view := List.takeWhile_prefix _
  have split : before ++ 13 :: (after ++ rest) = view := by
    rw [← whole, shape, List.append_assoc]
    rfl
  have letters : ∀ c ∈ before, decide (c ≠ 13) = true := fun c member => decide_eq_true fun same => absent (same ▸ member)
  have line : firstLine view = before := by
    rw [← split]
    exact takeWhile_stop letters (by decide) _
  rw [line]
  refine ⟨⟨_, split.symm⟩, absent, fun nul => not_mem_cstring view ?_⟩
  rw [shape]
  exact List.mem_append_left _ nul

theorem firstLine_lt {view : List UInt8} (cr : 13 ∈ cstring view) : (firstLine view).length < (cstring view).length := by
  obtain ⟨⟨more, split⟩, _, noNul⟩ := firstLine_split cr
  have letters : ∀ c ∈ firstLine view ++ [13], decide (c ≠ 0) = true := by
    intro c member
    rw [List.mem_append, List.mem_singleton] at member
    obtain inLine | rfl := member
    · exact decide_eq_true fun same => noNul (same ▸ inLine)
    · decide
  have size : (cstring (firstLine view ++ [13] ++ more)).length = (firstLine view).length + 1 + (cstring more).length := by
    unfold cstring
    rw [List.takeWhile_append_of_pos letters, List.length_append, List.length_append, List.length_singleton]
  rw [List.append_assoc, List.singleton_append, ← split] at size
  omega

theorem strchr_cr {view : List UInt8} (cr : 13 ∈ cstring view) : strchr 13 view = some ((firstLine view).length : Int) := by
  obtain ⟨⟨more, split⟩, absent, noNul⟩ := firstLine_split cr
  conv_lhs => rw [split]
  exact strchr_found more absent noNul

theorem strchr_noCr {view : List UInt8} {pos : Int} (missing : 13 ∉ cstring view) (found : strchr 13 view = some pos) :
    pos = -1 := by
  obtain ⟨rfl, _⟩ | ⟨before, after, rfl, _, _, noNul⟩ := strchr_some found
  · rfl
  · have letters : ∀ c ∈ before, decide (c ≠ 0) = true := fun c member => decide_eq_true fun same => noNul (same ▸ member)
    refine absurd ?_ missing
    unfold cstring
    rw [List.takeWhile_append_of_pos letters]
    exact List.mem_append_right _ List.mem_cons_self

/-- The lines of a text, in arrays that were allocated for it. -/
theorem headerLines_text (reads : Reads assign) {text : List UInt8} {memory : Memory} {info : HttpInfo}
    (room : maxDataSize ≤ memory.key.length ∧ maxDataSize ≤ memory.value.length) (noNul : 0 ∉ text)
    (short : text.length < maxDataSize) (rest : List UInt8) :
    headerLines noSpace assign (maxDataSize + 1) (text ++ 0 :: rest) 0
        ⟨memory.key.take text.length, memory.key.drop text.length⟩
        ⟨memory.value.take text.length, memory.value.drop text.length⟩ info =
      ((entries (throughFirst isDelim text).length memory.key (tokens isDelim text)).foldlM (assigned assign) info).bind
        fun info' => if ∀ line ∈ tokens isDelim text, 32 ∈ line then some info' else noSpace info' := by
  have keyLength : (memory.key.take text.length).length = text.length := List.length_take_of_le (short.le.trans room.1)
  have valueLength : (memory.value.take text.length).length = text.length :=
    List.length_take_of_le (short.le.trans room.2)
  have first : throughFirst isDelim text <+: text := throughFirst_start isDelim text
  have count := length_tokens_le isDelim text
  have loop : headerLines noSpace assign (maxDataSize + 1) ([] ++ text ++ 0 :: rest) ([] : List UInt8).length
        ⟨memory.key.take text.length, memory.key.drop text.length⟩
        ⟨memory.value.take text.length, memory.value.drop text.length⟩ info =
      ((entries (throughFirst isDelim text).length (memory.key.take text.length ++ memory.key.drop text.length)
        (tokens isDelim text)).foldlM (assigned assign) info).bind
        fun info' => if ∀ line ∈ tokens isDelim text, 32 ∈ line then some info' else noSpace info' := by
    apply headerLines_entries reads noNul
    · rw [List.nil_append, cstring_eq_self fun nul => noNul (first.subset nul)]
    · rw [keyLength, valueLength]
      exact ⟨first.length_le, first.length_le⟩
    · exact ⟨keyLength.ge, valueLength.ge⟩
    · rw [← List.length_append, List.take_append_drop]
      exact room.1
    · omega
  rw [List.nil_append, List.take_append_drop] at loop
  exact loop

/-- The lines of a message in memory, of which the copy has a NUL or has no end. -/
theorem parseLines_entries (reads : Reads assign) {view : List UInt8} {memory : Memory} {info : HttpInfo}
    (room : maxDataSize ≤ memory.key.length ∧ maxDataSize ≤ memory.value.length)
    (inside : (firstLine view).length + 2 + maxDataSize ≤ view.length) :
    parseLines noSpace assign view (firstLine view).length memory info =
      if 0 ∈ lineBuffer view then
        ((viewEntries memory.key view).foldlM (assigned assign) info).bind fun info' =>
          if ∀ line ∈ viewLines view, 32 ∈ line then some info' else noSpace info'
      else none := by
  have place : (((firstLine view).length : Int) + 2).toNat = (firstLine view).length + 2 := by omega
  have read : memread view ((firstLine view).length + 2) maxDataSize = some (lineBuffer view) := if_pos inside
  unfold parseLines
  rw [place, read]
  by_cases terminated : 0 ∈ lineBuffer view
  swap
  · have endless : strlen (lineBuffer view) = none := if_neg terminated
    rw [if_neg terminated, Option.bind_eq_bind, Option.bind_some, endless]
    rfl
  obtain ⟨rest, shape⟩ := cstring_split terminated
  have len : strlen (lineBuffer view) = some (cstring (lineBuffer view)).length := if_pos terminated
  have short : (cstring (lineBuffer view)).length < maxDataSize :=
    (length_cstring_lt terminated).trans_le (List.length_take_le _ _)
  have lines : headerLines noSpace assign (maxDataSize + 1) (cstring (lineBuffer view) ++ 0 :: rest) 0 _ _ info = _ :=
    headerLines_text reads room (not_mem_cstring (lineBuffer view)) short rest
  rw [← shape] at lines
  rw [if_pos terminated, Option.bind_eq_bind, Option.bind_some, len]
  simp only [Option.bind_eq_bind, Option.bind_some, malloc, if_pos (short.le.trans room.1),
    if_pos (short.le.trans room.2)]
  exact lines

end

end NetProjects.Proxy
