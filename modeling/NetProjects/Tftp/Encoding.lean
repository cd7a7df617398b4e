import NetProjects.Tftp.Netascii

/-!
# Netascii reads

The blocks of a text file, call by call, and the character that is pending between two calls.
-/

namespace NetProjects.Tftp
open Bytes

/-- The reader after `k` calls of `read_block` in netascii mode. -/
def readerAt (file : List UInt8) : Nat → Reader
  | 0 => .start file
  | k + 1 => (readBlock netascii (readerAt file k)).2.2

def payloadAt (file : List UInt8) (k : Nat) : List UInt8 := (readBlock netascii (readerAt file k)).1

def countAt (file : List UInt8) (k : Nat) : Nat := (readBlock netascii (readerAt file k)).2.1

/-- The pending character, if there is one, is not negative. -/
def Reader.Sound (r : Reader) : Prop := r.nextchar = minusOne ∨ 0 ≤ signedChar r.nextchar

theorem readNetascii_sound {room : Nat} {r : Reader} (sound : r.Sound) :
    (readNetascii room r).2.Sound ∧
      ((readNetascii room r).1.length < room → (readNetascii room r).2.nextchar = minusOne) := by
  fun_induction readNetascii room r with
  | case1 r => exact ⟨sound, fun impossible => absurd impossible (Nat.not_lt_zero _)⟩
  | case2 room r pending rest ih =>
    obtain ⟨later, last⟩ := ih (Or.inl rfl)
    exact ⟨later, fun short => last (Nat.lt_of_succ_lt_succ short)⟩
  | case3 room r idle fp => exact ⟨sound, fun _ => sound.resolve_right idle⟩
  | case4 room r idle c fp here eof => exact ⟨sound, fun _ => sound.resolve_right idle⟩
  | case5 room r idle fp goes here rest ih =>
    obtain ⟨later, last⟩ := ih (Or.inr (show 0 ≤ signedChar lf by decide))
    exact ⟨later, fun short => last (Nat.lt_of_succ_lt_succ short)⟩
  | case6 room r idle fp goes here other rest ih =>
    obtain ⟨later, last⟩ := ih (Or.inr (show 0 ≤ signedChar nul by decide))
    exact ⟨later, fun short => last (Nat.lt_of_succ_lt_succ short)⟩
  | case7 room r idle c fp here goes newline ret rest ih =>
    obtain ⟨later, last⟩ := ih (Or.inl rfl)
    exact ⟨later, fun short => last (Nat.lt_of_succ_lt_succ short)⟩

theorem readBlock_netascii (r : Reader) : readBlock netascii r =
    ((readNetascii maxBufLen r).1, (readNetascii maxBufLen r).1.length, (readNetascii maxBufLen r).2) := by
  unfold readBlock
  exact if_pos rfl

section

variable {file encoded : List UInt8}

theorem readerAt_sound (file : List UInt8) (k : Nat) : (readerAt file k).Sound := by
  induction k with
  | zero => exact Or.inl rfl
  | succ k ih =>
    rw [readerAt, readBlock_netascii]
    exact (readNetascii_sound ih).1

theorem countAt_eq (file : List UInt8) (k : Nat) : countAt file k = (payloadAt file k).length := by
  rw [countAt, payloadAt, readBlock_netascii]

/-- After `k` full blocks the rest of the encoding is still to come. -/
theorem readerAt_stream (file : List UInt8) {k : Nat}
    (inside : maxBufLen * k ≤ (encode (file.takeWhile (· ≠ minusOne))).length) :
    (readerAt file k).stream = (encode (file.takeWhile (· ≠ minusOne))).drop (maxBufLen * k) := by
  induction k with
  | zero => exact stream_start file
  | succ k ih =>
    rw [Nat.mul_succ] at inside
    have here := ih (Nat.le_trans (Nat.le_add_right _ _) inside)
    have full : maxBufLen ≤ (readerAt file k).stream.length := by
      rw [here, List.length_drop]
      omega
    rw [readerAt, readBlock_netascii, (readNetascii_stream maxBufLen _).2 full, here, List.drop_drop, Nat.mul_succ]

theorem payloadAt_eq (file : List UInt8) {k : Nat}
    (inside : maxBufLen * k ≤ (encode (file.takeWhile (· ≠ minusOne))).length) :
    payloadAt file k = chunk maxBufLen (encode (file.takeWhile (· ≠ minusOne))) k := by
  rw [payloadAt, readBlock_netascii, (readNetascii_stream maxBufLen _).1, readerAt_stream file inside, chunk]

/-- Text has no byte that is taken for the end of the file. -/
theorem takeWhile_text (text : ∀ c ∈ file, c < 128) : file.takeWhile (· ≠ minusOne) = file := by
  apply List.takeWhile_eq_self_iff.mpr
  intro c member
  apply decide_eq_true
  rintro rfl
  exact absurd (text _ member) (by decide)

end

/-- The netascii blocks of a text file are full up to the first short one, together they are its encoding,
and then no character is pending. -/
theorem netascii_blocks (file : List UInt8) (text : ∀ c ∈ file, c < 128) :
    ∃ n, (∀ k < n, (payloadAt file k).length = maxBufLen) ∧ (payloadAt file n).length < maxBufLen ∧
      (∀ k, countAt file k = (payloadAt file k).length) ∧
      (List.range (n + 1)).flatMap (payloadAt file) = encode file ∧ (readerAt file (n + 1)).nextchar = minusOne := by
  have whole := takeWhile_text text
  have pos : 0 < maxBufLen := by decide
  have enough := lt_blocks pos (encode file).length
  have inside : ∀ k ≤ (encode file).length / maxBufLen, payloadAt file k = chunk maxBufLen (encode file) k := by
    intro k lower
    rw [payloadAt_eq, whole]
    rw [whole]
    calc maxBufLen * k ≤ maxBufLen * ((encode file).length / maxBufLen) := Nat.mul_le_mul_left _ lower
      _ ≤ (encode file).length := Nat.mul_div_le _ _
  have short : (payloadAt file ((encode file).length / maxBufLen)).length < maxBufLen := by
    rw [inside _ (Nat.le_refl _)]
    exact (chunk_short_iff pos _ _).mpr enough
  refine ⟨(encode file).length / maxBufLen, ?_, short, countAt_eq file, ?_, ?_⟩
  · intro k before
    rw [inside k (Nat.le_of_lt before)]
    apply chunk_full
    calc maxBufLen * (k + 1) ≤ maxBufLen * ((encode file).length / maxBufLen) := Nat.mul_le_mul_left _ before
      _ ≤ (encode file).length := Nat.mul_div_le _ _
  · have same : (List.range ((encode file).length / maxBufLen + 1)).flatMap (payloadAt file) =
        (List.range ((encode file).length / maxBufLen + 1)).flatMap (chunk maxBufLen (encode file)) := by
      apply List.flatMap_congr
      intro k member
      exact inside k (Nat.le_of_lt_succ (List.mem_range.mp member))
    rw [same, flatMap_chunk]
    exact List.take_of_length_le (Nat.le_of_lt enough)
  · rw [payloadAt, readBlock_netascii] at short
    rw [readerAt, readBlock_netascii]
    exact (readNetascii_sound (readerAt_sound file _)).2 short

theorem netascii_blocks_line :
    ∃ n, (∀ k < n, (payloadAt [65, lf] k).length = maxBufLen) ∧ (payloadAt [65, lf] n).length < maxBufLen ∧
      (∀ k, countAt [65, lf] k = (payloadAt [65, lf] k).length) ∧
      (List.range (n + 1)).flatMap (payloadAt [65, lf]) = encode [65, lf] ∧
      (readerAt [65, lf] (n + 1)).nextchar = minusOne :=
  netascii_blocks [65, lf] (by simp [lf])

end NetProjects.Tftp
