import NetProjects.Proxy.Contents

/-!
# The first line of a response

A response is parsed from the bytes of its first `recv`, whose first line the parse needs whole.
-/

namespace NetProjects.Proxy
open Bytes

/-- The bytes are a response with status 304. -/
def Is304 (response : List UInt8) : Prop := cstr "304" <+: (response.takeWhile (· ≠ 13)).drop 9

instance (response : List UInt8) : Decidable (Is304 response) := inferInstanceAs (Decidable (_ <+: _))

section

variable {io : Io} {info info' : HttpInfo} {response line rest : List UInt8}

theorem length_chunk_le (io : Io) : io.chunk.length ≤ maxDataSize := by
  rw [Io.chunk, List.length_take]
  exact Nat.min_le_left _ _

theorem bufRecv_eq (io : Io) : bufRecv io = io.chunk ++ List.replicate (maxDataSize - io.chunk.length) 0 := by
  rw [bufRecv, memcpy_zero, List.drop_replicate]

theorem firstLine_eq (line rest : List UInt8) (noCr : 13 ∉ line) : (line ++ 13 :: rest).takeWhile (· ≠ 13) = line := by
  have whole : ∀ c ∈ line, (decide (c ≠ 13)) = true := by
    intro c member
    refine decide_eq_true ?_
    rintro rfl
    exact noCr member
  rw [List.takeWhile_append_of_pos whole, List.takeWhile_cons_of_neg (by decide), List.append_nil]

/-- The status is decided by the first line. -/
theorem is304_append (line : 13 ∈ response) (more : List UInt8) : Is304 (response ++ more) ↔ Is304 response := by
  obtain ⟨before, after, rfl, noCr⟩ := List.eq_append_cons_of_mem line
  rw [Is304, Is304, List.append_assoc, List.cons_append, firstLine_eq _ _ noCr, firstLine_eq _ _ noCr]

/-- A line in the memory that starts with the received bytes is in the received bytes. -/
theorem line_received {after : List UInt8} (found : bufRecv io ++ io.memory.after = line ++ 13 :: after)
    (noNul : 0 ∉ line) (short : line.length < maxDataSize) : ∃ rest, io.chunk = line ++ 13 :: rest := by
  rw [bufRecv_eq, List.append_assoc] at found
  have padded : ∀ used, used < maxDataSize → List.replicate (maxDataSize - used) (0 : UInt8) =
      0 :: List.replicate (maxDataSize - used - 1) 0 := by
    intro used less
    rw [← List.replicate_succ]
    congr
    omega
  rcases List.append_eq_append_iff.mp found with ⟨tail, whole, pad⟩ | ⟨tail, whole, pad⟩
  · have less : io.chunk.length < maxDataSize := by
      rw [whole, List.length_append] at short
      omega
    rw [padded _ less, List.cons_append] at pad
    cases tail with
    | nil => cases pad
    | cons c tail =>
      obtain ⟨rfl, _⟩ := List.cons.inj pad
      rw [whole] at noNul
      exact absurd (List.mem_append_right _ List.mem_cons_self) noNul
  · cases tail with
    | nil =>
      rw [List.append_nil] at whole
      rw [List.nil_append, whole, padded _ short] at pad
      cases pad
    | cons c tail =>
      obtain ⟨rfl, _⟩ := List.cons.inj pad
      exact ⟨tail, whole⟩

/-- A response is parsed where its first line has been received and its status fits. -/
theorem parseResponse_line (h : parseResponse (bufRecv io ++ io.memory.after) io.memory info = some info') :
    ∃ line rest, io.chunk = line ++ 13 :: rest ∧ 13 ∉ line ∧ 0 ∉ line ∧ 9 ≤ line.length ∧ line.length ≤ 29 ∧
      info'.status.bytes = memcpy info.status.bytes 0 (line.drop 9) := by
  obtain ⟨pos, found, h⟩ := Option.bind_eq_some_iff.mp h
  obtain ⟨status, copied, h⟩ := Option.bind_eq_some_iff.mp h
  have kept : info'.status = status := by
    refine parseLines_keeps (P := fun k => k.status = status) ?_ ?_ h rfl
    · intro _ _ ended same
      exact Option.some.inj ended ▸ same
    · intro _ _ _ _ _ assigned same
      exact (assignResponse_same assigned).2.trans same
  unfold Field.memcpy at copied
  split at copied
  swap
  · cases copied
  rename_i fits
  unfold Field.ofBytes? at copied
  split at copied
  swap
  · cases copied
  obtain rfl := Option.some.inj copied
  rcases strchr_some found with ⟨rfl, _⟩ | ⟨line, after, memory, rfl, noCr, noNul⟩
  · exact absurd fits.1 (by decide)
  · have bounds : 9 ≤ line.length ∧ line.length ≤ 29 := by
      have fit := fits.1
      unfold toSize at fit
      split at fit
      · omega
      · omega
    obtain ⟨rest, received⟩ := line_received memory noNul (by have := bounds.2; unfold maxDataSize; omega)
    refine ⟨line, rest, received, noCr, noNul, bounds.1, bounds.2, ?_⟩
    have bytes : info'.status.bytes = memcpy info.status.bytes 0
        (((bufRecv io ++ io.memory.after).drop 9).take (toSize ((line.length : Int) - 9))) :=
      congrArg Field.bytes kept
    have count : toSize ((line.length : Int) - 9) = (line.drop 9).length := by
      rw [toSize, if_pos (by omega), List.length_drop]
      omega
    rw [bytes, memory, count, List.drop_append_of_le_length bounds.1, List.take_left]

/-- A 304 is found in the status. -/
theorem status_of_is304 {k : HttpInfo} (h : parseResponse (bufRecv io ++ io.memory.after) io.memory info = some k)
    (modified : Is304 io.chunk) : strstrLit k.status.bytes (cstr "304") = some true := by
  obtain ⟨line, rest, received, noCr, noNul, _, _, status⟩ := parseResponse_line h
  rw [Is304, received, firstLine_eq _ _ noCr] at modified
  obtain ⟨reason, text⟩ := modified
  rw [strstrLit, if_pos]
  rw [status, memcpy_zero, ← text, cstring, List.append_assoc, List.takeWhile_append_of_pos]
  · exact (List.prefix_append _ _).isInfix
  · decide +kernel

end

end NetProjects.Proxy
