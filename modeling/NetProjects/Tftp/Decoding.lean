import NetProjects.Tftp.Netascii

/-!
# Netascii writes

`write_data_to_file` looks one byte ahead and keeps nothing between two calls, so what it appends
depends on where the stream is cut and on the byte behind a block that ends with a CR.
-/

namespace NetProjects.Tftp
open Bytes

/-- The netascii decoding in one pass. -/
def decode : List UInt8 → List UInt8
  | [] => []
  | [c] => [c]
  | c :: d :: bytes =>
    if c = cr ∧ d = lf then lf :: decode bytes
    else if c = cr ∧ d = nul then cr :: decode bytes
    else c :: decode (d :: bytes)

/-- A block at the front of the receive buffer. -/
structure Placed where
  block : List UInt8
  room : List UInt8
  nonempty : 0 < block.length
  fits : block.length ≤ maxBufLen
  size : block.length + room.length = dataPacketLen

def stream (blocks : List Placed) : List UInt8 := blocks.flatMap Placed.block

def writeBlocks (mode : List UInt8) : List Placed → Writer → Writer
  | [], w => w
  | b :: bs, w => writeBlocks mode bs (writeDataToFile mode (b.block ++ b.room) b.block.length w).1

/-- No block ends with a CR that an LF follows in the buffer, or an LF or NUL in the stream. -/
def CutsClean : List Placed → Prop
  | [] => True
  | b :: bs =>
    (b.block.getLast? = some cr → b.room.head? ≠ some lf ∧
      (stream bs).head? ≠ some lf ∧ (stream bs).head? ≠ some nul) ∧ CutsClean bs

/-- What one call appends for a block that `next` follows in the buffer. -/
def decodeBlock (next : UInt8) : List UInt8 → List UInt8
  | [] => []
  | [c] => if c = cr ∧ next = lf then [lf] else [c]
  | c :: d :: bytes =>
    if c = cr ∧ d = lf then lf :: decodeBlock next bytes
    else if c = cr ∧ d = nul then cr :: decodeBlock next bytes
    else c :: decodeBlock next (d :: bytes)

section

variable {w : Writer} {c d next : UInt8} {buf room bytes left right : List UInt8} {n : Nat}

/-! ### One block -/

theorem writeNetascii_cr (idle : w.nextchar = minusOne) (notLf : buf.getD 0 0 ≠ lf) (notNul : buf.getD 0 0 ≠ nul) :
    (writeNetascii (n + 1) (cr :: buf) w).1 = (writeNetascii n buf (w.putc cr)).1 := by
  have goes : ¬ signedChar cr = -1 := by decide
  have quiet : ¬ 0 ≤ signedChar w.nextchar := by rw [idle]; exact signedChar_minusOne
  simp only [writeNetascii, quiet, if_false, List.getD_cons_zero, List.getD_cons_succ, goes, notLf, notNul, or_self,
    and_false, if_true, List.drop_one, List.tail_cons]

theorem writeNetascii_last (idle : w.nextchar = minusOne) (byte : c ≠ minusOne) (next : UInt8) (room : List UInt8) :
    (writeNetascii 1 (c :: next :: room) w).1 = { w with fd := w.fd ++ decodeBlock next [c] } := by
  by_cases ret : c = cr
  · subst ret
    have goes : ¬ signedChar cr = -1 := by decide
    have quiet : ¬ 0 ≤ signedChar w.nextchar := by rw [idle]; exact signedChar_minusOne
    by_cases zero : next = nul
    · have other : ¬ nul = lf := by decide
      simp only [zero, other, writeNetascii, quiet, if_false, List.getD_cons_zero, List.getD_cons_succ, goes, true_or,
        and_self, if_true, decodeBlock, and_false]
      rfl
    · by_cases newline : next = lf
      · have other : ¬ lf = nul := by decide
        simp only [newline, other, writeNetascii, quiet, if_false, List.getD_cons_zero, List.getD_cons_succ, goes, or_true,
          and_self, if_true, decodeBlock]
        rfl
      · have wrote : (writeNetascii 1 (cr :: next :: room) w).1 = (writeNetascii 0 (next :: room) (w.putc cr)).1 :=
          writeNetascii_cr idle newline zero
        rw [wrote, decodeBlock, if_neg fun both => newline both.2]
        rfl
  · have wrote : (writeNetascii 1 (c :: next :: room) w).1 = (writeNetascii 0 (next :: room) (w.putc c)).1 :=
      writeNetascii_plain idle byte ret
    rw [wrote]
    simp only [decodeBlock, ret, false_and, if_false]
    rfl

theorem writeNetascii_block_eq (idle : w.nextchar = minusOne) (clean : minusOne ∉ bytes) (next : UInt8) (room : List UInt8) :
    (writeNetascii bytes.length (bytes ++ next :: room) w).1 = { w with fd := w.fd ++ decodeBlock next bytes } := by
  fun_induction decodeBlock next bytes generalizing w with
  | case1 => simp only [List.length_nil, writeNetascii, List.append_nil, List.nil_append]
  | case2 c cut =>
    have last := writeNetascii_last idle (fun same => clean (same ▸ List.mem_cons_self)) next room
    rwa [decodeBlock, if_pos cut] at last
  | case3 c whole =>
    have last := writeNetascii_last idle (fun same => clean (same ▸ List.mem_cons_self)) next room
    rwa [decodeBlock, if_neg whole] at last
  | case4 c d bytes pair ih =>
    obtain ⟨rfl, rfl⟩ := pair
    have others : minusOne ∉ bytes := fun member => clean (List.mem_cons_of_mem _ (List.mem_cons_of_mem _ member))
    have first : (writeNetascii (bytes.length + 2) (encodeByte lf ++ (bytes ++ next :: room)) w).1 =
        (writeNetascii bytes.length (bytes ++ next :: room) (w.putc lf)).1 := writeNetascii_pair idle (Or.inl (Eq.refl lf))
    have wrote : (writeNetascii (bytes.length + 2) (cr :: lf :: (bytes ++ next :: room)) w).1 =
        (writeNetascii bytes.length (bytes ++ next :: room) (w.putc lf)).1 := first
    have rest := ih (w := w.putc lf) idle others
    rw [List.length_cons, List.length_cons, List.cons_append, List.cons_append, wrote, rest]
    simp only [Writer.putc, List.append_assoc, List.singleton_append]
  | case5 c d bytes notLf pair ih =>
    obtain ⟨rfl, rfl⟩ := pair
    have others : minusOne ∉ bytes := fun member => clean (List.mem_cons_of_mem _ (List.mem_cons_of_mem _ member))
    have first : (writeNetascii (bytes.length + 2) (encodeByte cr ++ (bytes ++ next :: room)) w).1 =
        (writeNetascii bytes.length (bytes ++ next :: room) (w.putc cr)).1 := writeNetascii_pair idle (Or.inr (Eq.refl cr))
    have wrote : (writeNetascii (bytes.length + 2) (cr :: nul :: (bytes ++ next :: room)) w).1 =
        (writeNetascii bytes.length (bytes ++ next :: room) (w.putc cr)).1 := first
    have rest := ih (w := w.putc cr) idle others
    rw [List.length_cons, List.length_cons, List.cons_append, List.cons_append, wrote, rest]
    simp only [Writer.putc, List.append_assoc, List.singleton_append]
  | case6 c d bytes notLf notNul ih =>
    have byte : c ≠ minusOne := fun same => clean (same ▸ List.mem_cons_self)
    have others : minusOne ∉ d :: bytes := fun member => clean (List.mem_cons_of_mem _ member)
    have first : (writeNetascii (bytes.length + 1 + 1) (c :: d :: (bytes ++ next :: room)) w).1 =
        (writeNetascii (bytes.length + 1) (d :: (bytes ++ next :: room)) (w.putc c)).1 := by
      by_cases ret : c = cr
      · subst ret
        exact writeNetascii_cr idle (fun same => notLf ⟨rfl, same⟩) fun same => notNul ⟨rfl, same⟩
      · exact writeNetascii_plain idle byte ret
    have rest := ih (w := w.putc c) idle others
    rw [List.length_cons, List.cons_append] at rest
    rw [List.length_cons, List.length_cons, List.cons_append, List.cons_append, first, rest]
    simp only [Writer.putc, List.append_assoc, List.singleton_append]

/-! ### The one-pass decoding -/

theorem length_decodeBlock (next : UInt8) (bytes : List UInt8) : (decodeBlock next bytes).length = (decode bytes).length := by
  fun_induction decodeBlock next bytes with
  | case1 => rfl
  | case2 => rfl
  | case3 => rfl
  | case4 c d bytes pair ih => rw [decode, if_pos pair, List.length_cons, List.length_cons, ih]
  | case5 c d bytes notLf pair ih => rw [decode, if_neg notLf, if_pos pair, List.length_cons, List.length_cons, ih]
  | case6 c d bytes notLf notNul ih => rw [decode, if_neg notLf, if_neg notNul, List.length_cons, List.length_cons, ih]

/-- The last byte of what follows a pair is the last byte of the block, unless nothing follows. -/
theorem getLast?_after_pair (c : UInt8) {d : UInt8} (other : d ≠ cr) (bytes : List UInt8) :
    (c :: d :: bytes).getLast? = some cr ↔ bytes.getLast? = some cr := by
  cases bytes with
  | nil => simp [other]
  | cons e bytes => rw [List.getLast?_cons_cons, List.getLast?_cons_cons]

theorem decodeBlock_eq_iff (next : UInt8) (bytes : List UInt8) :
    decodeBlock next bytes = decode bytes ↔ ¬ (bytes.getLast? = some cr ∧ next = lf) := by
  fun_induction decodeBlock next bytes with
  | case1 => simp [decode]
  | case2 c cut =>
    obtain ⟨rfl, rfl⟩ := cut
    simp [decode, lf, cr]
  | case3 c whole => simpa [decode] using whole
  | case4 c d bytes pair ih =>
    have other : d ≠ cr := by rw [pair.2]; decide
    rw [decode, if_pos pair, List.cons_inj_right, ih, getLast?_after_pair c other]
  | case5 c d bytes notLf pair ih =>
    have other : d ≠ cr := by rw [pair.2]; decide
    rw [decode, if_neg notLf, if_pos pair, List.cons_inj_right, ih, getLast?_after_pair c other]
  | case6 c d bytes notLf notNul ih =>
    rw [decode, if_neg notLf, if_neg notNul, List.cons_inj_right, ih, List.getLast?_cons_cons]

/-- The stream is cut between the two bytes of a pair. -/
def CutsPair (left right : List UInt8) : Prop :=
  left.getLast? = some cr ∧ (right.head? = some lf ∨ right.head? = some nul)

/-- A pair at the front of the left part is decoded there. -/
theorem cutsPair_after_pair (c : UInt8) {d : UInt8} (other : d ≠ cr) :
    CutsPair (c :: d :: left) right ↔ CutsPair left right := by
  unfold CutsPair
  rw [getLast?_after_pair c other]

theorem decode_single (whole : ¬ CutsPair [c] right) : decode (c :: right) = c :: decode right := by
  cases right with
  | nil => simp only [decode]
  | cons d bytes =>
    have notLf : ¬ (c = cr ∧ d = lf) := fun pair => whole ⟨by rw [pair.1]; rfl, Or.inl (by rw [pair.2]; rfl)⟩
    have notNul : ¬ (c = cr ∧ d = nul) := fun pair => whole ⟨by rw [pair.1]; rfl, Or.inr (by rw [pair.2]; rfl)⟩
    rw [decode, if_neg notLf, if_neg notNul]

theorem decode_append (whole : ¬ CutsPair left right) : decode (left ++ right) = decode left ++ decode right := by
  fun_induction decode left with
  | case1 => rfl
  | case2 c => rw [List.singleton_append, decode_single whole, List.singleton_append]
  | case3 c d bytes pair ih =>
    have other : d ≠ cr := by rw [pair.2]; decide
    rw [cutsPair_after_pair c other] at whole
    rw [List.cons_append, List.cons_append, decode, if_pos pair, ih whole, List.cons_append]
  | case4 c d bytes notLf pair ih =>
    have other : d ≠ cr := by rw [pair.2]; decide
    rw [cutsPair_after_pair c other] at whole
    rw [List.cons_append, List.cons_append, decode, if_neg notLf, if_pos pair, ih whole, List.cons_append]
  | case5 c d bytes notLf notNul ih =>
    have later : ¬ CutsPair (d :: bytes) right := by
      intro cut
      exact whole ⟨by rw [List.getLast?_cons_cons]; exact cut.1, cut.2⟩
    rw [List.cons_append, List.cons_append, decode, if_neg notLf, if_neg notNul, ← List.cons_append, ih later,
      List.cons_append]

/-- A cut pair is two bytes for the two sides and one for the whole stream. -/
theorem length_decode_cut (cut : CutsPair left right) :
    (decode (left ++ right)).length < (decode left).length + (decode right).length := by
  fun_induction decode left with
  | case1 => exact absurd cut.1 (by simp)
  | case2 c =>
    cases right with
    | nil => exact absurd cut.2 (by simp)
    | cons d bytes =>
      obtain ⟨ret, pair⟩ := cut
      rw [List.getLast?_singleton, Option.some.injEq] at ret
      rw [List.head?_cons, Option.some.injEq, Option.some.injEq] at pair
      subst ret
      have kept : decode (d :: bytes) = d :: decode bytes := by
        apply decode_single
        rintro ⟨again, _⟩
        rw [List.getLast?_singleton, Option.some.injEq] at again
        obtain newline | zero := pair
        · exact absurd (again.symm.trans newline) (by decide)
        · exact absurd (again.symm.trans zero) (by decide)
      have joined : (decode (cr :: d :: bytes)).length = (decode bytes).length + 1 := by
        rw [decode]
        obtain newline | zero := pair
        · rw [if_pos ⟨rfl, newline⟩, List.length_cons]
        · rw [if_neg fun both => absurd (zero.symm.trans both.2) (by decide), if_pos ⟨rfl, zero⟩, List.length_cons]
      rw [List.singleton_append, joined, kept]
      simp only [List.length_cons, List.length_nil]
      omega
  | case3 c d bytes pair ih =>
    have other : d ≠ cr := by rw [pair.2]; decide
    rw [cutsPair_after_pair c other] at cut
    have shorter := ih cut
    rw [List.cons_append, List.cons_append, decode, if_pos pair, List.length_cons, List.length_cons]
    omega
  | case4 c d bytes notLf pair ih =>
    have other : d ≠ cr := by rw [pair.2]; decide
    rw [cutsPair_after_pair c other] at cut
    have shorter := ih cut
    rw [List.cons_append, List.cons_append, decode, if_neg notLf, if_pos pair, List.length_cons, List.length_cons]
    omega
  | case5 c d bytes notLf notNul ih =>
    have shorter := ih ⟨by rw [← cut.1, List.getLast?_cons_cons], cut.2⟩
    rw [List.cons_append, List.cons_append, decode, if_neg notLf, if_neg notNul, List.length_cons, List.length_cons,
      ← List.cons_append]
    omega

/-! ### The blocks in order -/

/-- What the calls append. -/
def appendedBy (blocks : List Placed) : List UInt8 :=
  blocks.flatMap fun b => decodeBlock (b.room.headD 0) b.block

/-- Bytes below 128, so none of them reads as `EOF`. -/
def SevenBit (blocks : List Placed) : Prop := ∀ b ∈ blocks, ∀ c ∈ b.block, c < 128

theorem Placed.room_cons (b : Placed) : ∃ rest, b.room = b.room.headD 0 :: rest := by
  have size := b.size
  have fits := b.fits
  have packet : dataPacketLen = 516 := rfl
  have most : maxBufLen = 512 := rfl
  cases known : b.room with
  | nil =>
    rw [known] at size
    simp only [List.length_nil] at size
    omega
  | cons next rest => exact ⟨rest, rfl⟩

theorem writeBlocks_netascii (blocks : List Placed) (text : SevenBit blocks) (idle : w.nextchar = minusOne) :
    writeBlocks netascii blocks w = { w with fd := w.fd ++ appendedBy blocks } := by
  induction blocks generalizing w with
  | nil => simp only [writeBlocks, appendedBy, List.flatMap_nil, List.append_nil]
  | cons b bs ih =>
    have clean : minusOne ∉ b.block := fun member => absurd (text b List.mem_cons_self _ member) (by decide)
    obtain ⟨rest, room⟩ := b.room_cons
    have wrote : (writeDataToFile netascii (b.block ++ b.room) b.block.length w).1 =
        { w with fd := w.fd ++ decodeBlock (b.room.headD 0) b.block } := by
      rw [writeDataToFile, if_pos rfl, room, writeNetascii_block_eq idle clean, List.headD_cons]
    have others : SevenBit bs := fun x member => text x (List.mem_cons_of_mem _ member)
    have rest := ih (w := { w with fd := w.fd ++ decodeBlock (b.room.headD 0) b.block }) others idle
    rw [writeBlocks, wrote, rest]
    simp only [appendedBy, List.flatMap_cons, List.append_assoc]

theorem length_decode_le (left right : List UInt8) :
    (decode (left ++ right)).length ≤ (decode left).length + (decode right).length := by
  by_cases cut : CutsPair left right
  · exact Nat.le_of_lt (length_decode_cut cut)
  · rw [decode_append cut, List.length_append]

theorem length_decode_stream (blocks : List Placed) :
    (decode (stream blocks)).length ≤ (appendedBy blocks).length := by
  induction blocks with
  | nil => exact Nat.le_refl _
  | cons b bs ih =>
    have joined := length_decode_le b.block (stream bs)
    have same := length_decodeBlock (b.room.headD 0) b.block
    simp only [stream, appendedBy, List.flatMap_cons, List.length_append] at joined ih ⊢
    omega

theorem appendedBy_eq_iff (blocks : List Placed) : appendedBy blocks = decode (stream blocks) ↔ CutsClean blocks := by
  induction blocks with
  | nil => exact iff_of_true rfl trivial
  | cons b bs ih =>
    have same := length_decodeBlock (b.room.headD 0) b.block
    have later := length_decode_stream bs
    have appended : appendedBy (b :: bs) = decodeBlock (b.room.headD 0) b.block ++ appendedBy bs := rfl
    have streamed : stream (b :: bs) = b.block ++ stream bs := rfl
    obtain ⟨rest, room⟩ := b.room_cons
    have next : b.room.head? = some (b.room.headD 0) := by rw [room]; rfl
    rw [appended, streamed, CutsClean, ← ih]
    by_cases cut : CutsPair b.block (stream bs)
    · apply iff_of_false
      · intro equal
        have shorter := length_decode_cut cut
        rw [← equal, List.length_append] at shorter
        omega
      · rintro ⟨whole, _⟩
        obtain ⟨_, notLf, notNul⟩ := whole cut.1
        exact cut.2.elim notLf notNul
    · rw [decode_append cut, List.append_eq_append_iff_of_size_eq_left same, decodeBlock_eq_iff, next, and_congr_left_iff]
      intro _
      constructor
      · intro whole ret
        refine ⟨fun newline => whole ⟨ret, Option.some.inj newline⟩, fun newline => ?_, fun zero => ?_⟩
        · exact cut ⟨ret, Or.inl newline⟩
        · exact cut ⟨ret, Or.inr zero⟩
      · rintro clean ⟨ret, newline⟩
        exact (clean ret).1 (congrArg some newline)

/-- What is appended is the decoding of the stream exactly when no cut splits a pair and no CR at
the end of a block meets an LF left behind it in the buffer. -/
theorem netascii_cuts_iff (blocks : List Placed) (text : SevenBit blocks) (idle : w.nextchar = minusOne) :
    (writeBlocks netascii blocks w).fd = w.fd ++ decode (stream blocks) ↔ CutsClean blocks := by
  rw [writeBlocks_netascii blocks text idle, List.append_cancel_left_eq]
  exact appendedBy_eq_iff blocks

end

/-- A block in a cleared buffer. -/
def Placed.alone (block : List UInt8) (nonempty : 0 < block.length) (fits : block.length ≤ maxBufLen) : Placed where
  block := block
  room := List.replicate (dataPacketLen - block.length) 0
  nonempty := nonempty
  fits := fits
  size := by
    have packet : dataPacketLen = 516 := rfl
    have most : maxBufLen = 512 := rfl
    rw [List.length_replicate]
    omega

theorem netascii_cuts_whole :
    (writeBlocks netascii [.alone [65, cr] (by decide) (by decide), .alone [66, cr, lf] (by decide) (by decide)]
        .start).fd =
      Writer.start.fd ++
        decode (stream [.alone [65, cr] (by decide) (by decide), .alone [66, cr, lf] (by decide) (by decide)]) := by
  have text : ∀ b ∈ [Placed.alone [65, cr] (by decide) (by decide), .alone [66, cr, lf] (by decide) (by decide)],
      ∀ c ∈ b.block, c < 128 := by
    simp only [List.forall_mem_cons, List.not_mem_nil, false_imp_iff, implies_true, Placed.alone]
    decide
  exact (netascii_cuts_iff _ text rfl).mpr ⟨by decide, by decide, trivial⟩

/-- A CR LF cut between its bytes is appended as it came. -/
theorem netascii_cut_pair :
    (writeBlocks netascii [.alone [cr] (by decide) (by decide), .alone [lf] (by decide) (by decide)] .start).fd =
        [cr, lf] ∧
      decode (stream [.alone [cr] (by decide) (by decide), .alone [lf] (by decide) (by decide)]) = [lf] := by
  constructor
  · decide
  · rfl

end NetProjects.Tftp
