import NetProjects.Library.Cut
import NetProjects.Proxy.BodyLines

/-!
# What the client writes to its file

The body bytes of the first receive are written as they are; from the second on the client counts, and trims
what goes beyond the length that it has read from the first.
-/

namespace NetProjects.Proxy
open Bytes

/-- `fwrite(buf, 1, numbytes, file)`; a negative count asks for more than any memory holds. -/
def writeDataToFile (file buf : List UInt8) (numbytes : Int) : Option (List UInt8) :=
  if numbytes < 0 then none
  else if numbytes.toNat ≤ buf.length then some (file ++ buf.take numbytes.toNat)
  else none

/-- The receives behind the first one; the list ends where the server closes the connection. -/
def receiveRest (contentLength : Int) : List (List UInt8) → List UInt8 → Int → List UInt8 → Option (List UInt8)
  | [], _, _, file => some file
  | piece :: pieces, buf, count, file => do
    let buf := memcpy buf 0 piece
    let numbytes : Int := piece.length
    if contentLength < count + numbytes then
      let offset := count + numbytes - contentLength
      writeDataToFile file buf (numbytes - offset)
    else
      let file ← writeDataToFile file buf numbytes
      receiveRest contentLength pieces buf (count + numbytes) file

/-- The client behind its request, on the results of `recv`: the file. -/
def download (memory : Memory) : List (List UInt8) → Option (List UInt8)
  | [] => some []
  | piece :: pieces => do
    let bufRecv := memcpy (List.replicate maxDataSize 0) 0 piece
    let info ← parseResponse (bufRecv ++ memory.after) memory HttpInfo.zero
    let contentLength := atoi info.contentLength.str
    let entityBodyHead ← strstr [13, 10, 13, 10] (bufRecv ++ memory.after)
    if entityBodyHead < 0 then none
    else
      let offset := entityBodyHead + 4
      let numbytes : Int := piece.length - offset
      let file ← writeDataToFile [] ((bufRecv ++ memory.after).drop offset.toNat) numbytes
      receiveRest contentLength pieces bufRecv numbytes file

/-- The memory from the buffer on, after the first receive. -/
def firstView (memory : Memory) (first : List UInt8) : List UInt8 :=
  memcpy (List.replicate maxDataSize 0) 0 first ++ memory.after

/-- The number that the client trims to. -/
def trimLength (memory : Memory) (first : List UInt8) : Int :=
  atoi ((lastUnder (cstr "Content-Length:") (viewEntries memory.key (firstView memory first))).getD [])

/-- The first receive can be parsed and does not go beyond the body, and what is trimmed to is the length, or
nothing is left to trim. -/
structure Trims (memory : Memory) (front body first : List UInt8) (length : Nat) : Prop where
  parsed : ResponseFits memory.key (firstView memory first)
  early : first.length - (withEmptyLine front).length ≤ length
  trimmed : trimLength memory first = length ∨
    body.length = length ∧ (length ≤ trimLength memory first ∨ first.length - (withEmptyLine front).length = length)

section

variable {contentLength : Int} {pieces : List (List UInt8)} {buf file piece : List UInt8} {count : Nat}

/-! ### The loop -/

theorem writeDataToFile_start {n : Nat} (rest : List UInt8) (inside : n ≤ piece.length) :
    writeDataToFile file (piece ++ rest) n = some (file ++ piece.take n) := by
  unfold writeDataToFile
  rw [if_neg (by omega), Int.toNat_natCast, if_pos (by rw [List.length_append]; omega),
    List.take_append_of_le_length inside]

/-- A count that is beyond the length makes the next length negative. -/
theorem receiveRest_beyond (beyond : contentLength < count) (piece : List UInt8) (pieces : List (List UInt8)) :
    receiveRest contentLength (piece :: pieces) buf count file = none := by
  have more : contentLength < (count : Int) + piece.length := by omega
  have negative : (piece.length : Int) - (count + piece.length - contentLength) < 0 := by omega
  rw [receiveRest, if_pos more, writeDataToFile, if_pos negative]

/-- As many bytes are written as are missing at the length. -/
theorem receiveRest_within (within : (count : Int) ≤ contentLength) (pieces : List (List UInt8)) :
    receiveRest contentLength pieces buf count file =
      some (file ++ pieces.flatten.take (contentLength - count).toNat) := by
  induction pieces generalizing buf count file with
  | nil => rw [receiveRest, List.flatten_nil, List.take_nil, List.append_nil]
  | cons piece pieces ih =>
    rw [receiveRest]
    dsimp only
    rw [memcpy_zero, List.flatten_cons]
    by_cases more : contentLength < (count : Int) + piece.length
    · obtain ⟨n, missing⟩ : ∃ n : Nat, contentLength = count + n := ⟨(contentLength - count).toNat, by omega⟩
      subst missing
      have size : (piece.length : Int) - (count + piece.length - (count + n)) = n := by omega
      have left : ((count : Int) + n - count).toNat = n := by omega
      rw [if_pos more, size, writeDataToFile_start _ (by omega), left, List.take_append_of_le_length (by omega)]
    · have next : ((count + piece.length : Nat) : Int) ≤ contentLength := by
        rw [Nat.cast_add]
        omega
      have left : (contentLength - count).toNat = piece.length + (contentLength - (count + piece.length : Nat)).toNat := by
        omega
      rw [if_neg more, writeDataToFile_start _ (Nat.le_refl _), List.take_length, Option.bind_eq_bind, Option.bind_some,
        ← Nat.cast_add, ih next, left, List.take_length_add_append, List.append_assoc]

end

/-! ### The first receive -/

section

variable {memory : Memory} {front early : List UInt8}

theorem firstView_eq (memory : Memory) (front early : List UInt8) :
    firstView memory (withEmptyLine front ++ early) = withEmptyLine front ++
      (early ++ ((List.replicate maxDataSize 0).drop (withEmptyLine front ++ early).length ++ memory.after)) := by
  unfold firstView
  rw [memcpy_zero]
  simp only [List.append_assoc]

/-- The end of the header is found in the first receive. -/
theorem strstr_firstView (noNul : 0 ∉ withEmptyLine front) (once : ¬ [13, 10, 13, 10] <:+: front ++ [13, 10, 13])
    (memory : Memory) (early : List UInt8) :
    strstr [13, 10, 13, 10] (firstView memory (withEmptyLine front ++ early)) = some (front.length : Int) := by
  have noNulFront : 0 ∉ front := fun nul => noNul (List.mem_append_left _ nul)
  rw [firstView_eq]
  exact strstr_found (by decide) noNulFront once _

theorem firstView_behind (memory : Memory) (front early : List UInt8) :
    ∃ rest, (firstView memory (withEmptyLine front ++ early)).drop (front.length + 4) = early ++ rest := by
  have length : (withEmptyLine front).length = front.length + 4 := List.length_append
  rw [firstView_eq, ← length, List.drop_left]
  exact ⟨_, rfl⟩

theorem room_firstView (ample : memory.Ample) (fits : (withEmptyLine front ++ early).length ≤ maxDataSize) :
    (firstLine (firstView memory (withEmptyLine front ++ early))).length + 2 + maxDataSize ≤
      (firstView memory (withEmptyLine front ++ early)).length := by
  have line := firstLine_le front
  have length : (withEmptyLine front).length = front.length + 4 := List.length_append
  have after := ample.after
  have size : (firstView memory (withEmptyLine front ++ early)).length = maxDataSize + memory.after.length := by
    unfold firstView
    rw [List.length_append, length_memcpy (by rw [List.length_replicate]; omega), List.length_replicate]
  rw [size, firstView_eq, firstLine_append (cr_mem_head front)]
  rw [List.length_append] at fits
  omega

/-- The client goes on exactly when the first receive can be parsed, and trims to what it finds there. -/
theorem download_parsed (ample : memory.Ample) (fits : (withEmptyLine front ++ early).length ≤ maxDataSize)
    (noNul : 0 ∉ withEmptyLine front) (once : ¬ [13, 10, 13, 10] <:+: front ++ [13, 10, 13])
    (parsed : ResponseFits memory.key (firstView memory (withEmptyLine front ++ early))) (rest : List (List UInt8)) :
    download memory ((withEmptyLine front ++ early) :: rest) =
      receiveRest (trimLength memory (withEmptyLine front ++ early)) rest
        (memcpy (List.replicate maxDataSize 0) 0 (withEmptyLine front ++ early)) early.length early := by
  have room : maxDataSize ≤ memory.key.length ∧ maxDataSize ≤ memory.value.length := ⟨ample.key, ample.value⟩
  obtain ⟨info, run, _⟩ := (response_inside_iff room (fun _ => room_firstView ample fits) zero_closed.2).mpr parsed
  have string : info.contentLength.str =
      (lastUnder (cstr "Content-Length:")
        (viewEntries memory.key (firstView memory (withEmptyLine front ++ early)))).getD [] := by
    obtain ⟨_, _, _, contentLength, _, _, filled, _, rfl⟩ :=
      (parseResponse_iff room fun _ => room_firstView ample fits).mp run
    rw [fillAll_str (fun e member => (viewEntries_noNul _ _ e member).2) filled]
    exact congrArg _ (zero_str (by decide))
  have trim : atoi info.contentLength.str = trimLength memory (withEmptyLine front ++ early) := congrArg atoi string
  have length : (withEmptyLine front).length = front.length + 4 := List.length_append
  have found := strstr_firstView noNul once memory early
  obtain ⟨behind, dropped⟩ := firstView_behind memory front early
  have place : ((front.length : Int) + 4).toNat = front.length + 4 := by omega
  have size : (((withEmptyLine front ++ early).length : Int) - (front.length + 4)) = early.length := by
    rw [List.length_append, length, Nat.cast_add]
    omega
  unfold firstView at run found dropped
  unfold download
  dsimp only
  rw [run]
  simp only [Option.bind_eq_bind, Option.bind_some]
  rw [found, Option.bind_some, if_neg (by omega), place, dropped, size, writeDataToFile_start behind (Nat.le_refl _),
    List.take_length, List.nil_append, Option.bind_some, trim]

theorem download_unparsed (ample : memory.Ample) (fits : (withEmptyLine front ++ early).length ≤ maxDataSize)
    (unparsed : ¬ ResponseFits memory.key (firstView memory (withEmptyLine front ++ early)))
    (rest : List (List UInt8)) : download memory ((withEmptyLine front ++ early) :: rest) = none := by
  have room : maxDataSize ≤ memory.key.length ∧ maxDataSize ≤ memory.value.length := ⟨ample.key, ample.value⟩
  cases run : parseResponse (firstView memory (withEmptyLine front ++ early)) memory .zero with
  | none =>
    unfold firstView at run
    unfold download
    dsimp only
    rw [run]
    rfl
  | some info => exact absurd (response_fits room (fun _ => room_firstView ample fits) zero_closed.2 run) unparsed

/-! ### Whole downloads -/

variable {body : List UInt8} {first : List UInt8} {rest : List (List UInt8)} {length : Nat}

/-- What the loop leaves is right exactly when it does not start beyond the length, and stops there. -/
theorem receiveRest_iff {contentLength : Int} {buf : List UInt8} (sizes : ∀ piece ∈ rest, piece ≠ [])
    (joined : early ++ rest.flatten = body) (enough : length ≤ body.length) :
    receiveRest contentLength rest buf early.length early = some (body.take length) ↔
      early.length ≤ length ∧
        (contentLength = length ∨ body.length = length ∧ (length ≤ contentLength ∨ early.length = length)) := by
  have lengths := congrArg List.length joined
  rw [List.length_append] at lengths
  cases rest with
  | nil =>
    rw [List.flatten_nil, List.append_nil] at joined
    subst joined
    rw [receiveRest, Option.some_inj, eq_comm, List.take_eq_self_iff]
    omega
  | cons piece rest =>
    have nonempty := List.length_pos_iff.mpr (sizes piece List.mem_cons_self)
    rw [List.flatten_cons, List.length_append] at lengths
    by_cases within : (early.length : Int) ≤ contentLength
    · obtain ⟨n, rfl⟩ : ∃ n : Nat, contentLength = n := ⟨contentLength.toNat, by omega⟩
      have missing : early.length + ((n : Int) - early.length).toNat = n := by omega
      have written : early ++ (piece :: rest).flatten.take ((n : Int) - early.length).toNat = body.take n := by
        rw [← joined, ← List.take_length_add_append, missing]
      rw [receiveRest_within within, Option.some_inj, written, List.take_eq_take_iff]
      omega
    · rw [receiveRest_beyond (by omega)]
      refine iff_of_false (by rintro ⟨⟩) ?_
      omega

end

/-! ### Two downloads -/

/-- The body and two bytes of padding, cut within the body. -/
def padded : Cut maxDataSize (withEmptyLine fiveBytes ++ cstr "hello\x00\x00") :=
  { pieces := [withEmptyLine fiveBytes ++ cstr "hel", cstr "lo\x00\x00"]
    joined := by decide
    sizes := by decide }

end NetProjects.Proxy
