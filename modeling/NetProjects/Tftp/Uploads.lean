import NetProjects.Tftp.WriteRuns

/-!
# Uploads of a byte string

A client cuts its data into blocks of 512 bytes, the last one shorter, and numbers them from 1
modulo 65536. What the write loop makes of the blocks when each arrives once, and when each arrives
any number of times with timeouts in between.
-/

namespace NetProjects.Tftp
open Bytes

/-- The blocks of an upload, the short last one included. -/
def blocks (data : List UInt8) : Nat := data.length / maxBufLen + 1

def uploadDatagram (client : SockAddr) (data : List UInt8) (k : Nat) : Datagram :=
  ⟨client, dataDatagram (UInt16.ofNat (k + 1)) (chunk maxBufLen data k)⟩

def uploadEvent (client : SockAddr) (data : List UInt8) (k : Nat) : Event := .recv (uploadDatagram client data k)

def upload (client : SockAddr) (data : List UInt8) : List Event :=
  (List.range (blocks data)).map (uploadEvent client data)

/-- Blocks `j + 1` to `j + m` in order, block `k` repeated `copies k` times. -/
def repeated (client : SockAddr) (data : List UInt8) (copies : Nat → Nat) (j m : Nat) : List Event :=
  (List.range' j m).flatMap fun k => List.replicate (copies (k + 1)) (uploadEvent client data k)

/-- The part of block `k + 1` that reaches the file: number 0 never exceeds the number before it. -/
def kept (data : List UInt8) (k : Nat) : List (UInt16 × List UInt8) :=
  if (k + 1) % 65536 = 0 then [] else [(UInt16.ofNat (k + 1), chunk maxBufLen data k)]

section

variable (client : SockAddr) (data : List UInt8) (k : Nat)

theorem uploadDatagram_block : (uploadDatagram client data k).block = UInt16.ofNat (k + 1) :=
  dataDatagram_block client _ _

theorem uploadDatagram_payload : (uploadDatagram client data k).payload = chunk maxBufLen data k :=
  dataDatagram_payload client _ (length_chunk_le _ _ _)

theorem uploadEvent_upload : (uploadEvent client data k).Upload := dataEvent_upload client _ _

theorem uploadDatagram_short_iff : (uploadDatagram client data k).Short ↔ data.length < maxBufLen * (k + 1) := by
  rw [Datagram.Short, uploadDatagram_payload, chunk_short_iff (by decide)]

theorem last_short : (uploadDatagram client data (data.length / maxBufLen)).Short :=
  (uploadDatagram_short_iff client data _).mpr (lt_blocks (by decide) _)

theorem earlier_full {k : Nat} (h : k < data.length / maxBufLen) : ¬ (uploadDatagram client data k).Short := by
  rw [uploadDatagram_short_iff, Nat.not_lt]
  have blocksBefore : maxBufLen * (k + 1) ≤ maxBufLen * (data.length / maxBufLen) := Nat.mul_le_mul_left _ h
  exact Nat.le_trans blocksBefore (Nat.mul_div_le _ _)

theorem uploadEvent_nextBlock (b : UInt16) : (uploadEvent client data k).nextBlock b = UInt16.ofNat (k + 1) :=
  uploadDatagram_block client data k

end

theorem ofNat_lt_succ_iff (k : Nat) : UInt16.ofNat k < UInt16.ofNat (k + 1) ↔ (k + 1) % 65536 ≠ 0 := by
  rw [UInt16.lt_iff_toNat_lt, UInt16.toNat_ofNat', UInt16.toNat_ofNat']
  omega

theorem uploadEvent_appends (client : SockAddr) (data : List UInt8) (k : Nat) :
    (uploadEvent client data k).appends (UInt16.ofNat k) = kept data k := by
  rw [uploadEvent, Event.appends, uploadDatagram_block, uploadDatagram_payload, kept]
  by_cases wraps : (k + 1) % 65536 = 0
  · rw [if_pos wraps, if_neg (mt (ofNat_lt_succ_iff k).mp (not_not.mpr wraps))]
  · rw [if_neg wraps, if_pos ((ofNat_lt_succ_iff k).mpr wraps)]

theorem written_copies (client : SockAddr) (data : List UInt8) (k n : Nat) (tail : List Event) :
    written (UInt16.ofNat (k + 1)) (List.replicate n (uploadEvent client data k) ++ tail) =
      written (UInt16.ofNat (k + 1)) tail := by
  induction n with
  | zero => rfl
  | succ n ih =>
    have known : (uploadEvent client data k).appends (UInt16.ofNat (k + 1)) = [] := by
      rw [uploadEvent, Event.appends, uploadDatagram_block]
      exact if_neg (UInt16.lt_irrefl _)
    rw [List.replicate_succ, List.cons_append, written, known, uploadEvent_nextBlock, ih, List.nil_append]

theorem written_repeated (client : SockAddr) (data : List UInt8) (copies : Nat → Nat)
    (delivered : ∀ k, 1 ≤ copies k) (j m : Nat) (tail : List Event) :
    written (UInt16.ofNat j) (repeated client data copies j m ++ tail) =
      (List.range' j m).flatMap (kept data) ++ written (UInt16.ofNat (j + m)) tail := by
  induction m generalizing j with
  | zero => rfl
  | succ m ih =>
    obtain ⟨n, once⟩ := Nat.exists_eq_add_of_le' (delivered (j + 1))
    have split : repeated client data copies j (m + 1) =
        uploadEvent client data j ::
          (List.replicate n (uploadEvent client data j) ++ repeated client data copies (j + 1) m) := by
      rw [repeated, List.range'_succ, List.flatMap_cons, once, List.replicate_succ]
      rfl
    rw [split, List.cons_append, written, uploadEvent_appends, uploadEvent_nextBlock, List.append_assoc,
      written_copies, ih, List.range'_succ, List.flatMap_cons, List.append_assoc, Nat.add_right_comm, Nat.add_assoc]

theorem writeOpen_of_full {t : Nat} {es : List Event} (full : ∀ d, .recv d ∈ es → ¬ d.Short)
    (few : t + es.count .timeout < maxRetry) : WriteOpen t es := by
  induction es generalizing t with
  | nil => trivial
  | cons e es ih =>
    have later : ∀ d, Event.recv d ∈ es → ¬ d.Short := fun d member => full d (List.mem_cons_of_mem _ member)
    cases e with
    | timeout =>
      rw [List.count_cons_self] at few
      exact ⟨show t + 1 ≠ maxRetry by omega, ih later (by rw [Event.nextTimeout]; omega)⟩
    | recv d =>
      rw [List.count_cons_of_ne (by simp)] at few
      exact ⟨full d List.mem_cons_self, ih later few⟩

theorem wrq_last_block (client : SockAddr) (data : List UInt8) {before : List Event} (rest : List Event)
    (uploads : ∀ e ∈ before, e.Upload) (isOpen : WriteOpen 0 before) :
    let last := uploadEvent client data (data.length / maxBufLen)
    ∃ s, wrqHandler octet client (before ++ last :: rest) =
        (acksSent client 0 (before ++ [last]), .exit (.ret .ok) s) ∧
      s.appended = written 0 (before ++ [last]) ∧ s.writer.fd = s.appended.flatMap Prod.snd := by
  obtain ⟨_, _, _, s, run, final⟩ := wrq_run_finish rest (wrqStart_at client) rfl uploads isOpen
    (uploadEvent_upload client data _) (last_short client data)
  exact ⟨s, run, final.logged, by rw [final.file, final.logged]⟩

/-! ### Every block once -/

theorem upload_eq_append (client : SockAddr) (data : List UInt8) :
    upload client data = (List.range (data.length / maxBufLen)).map (uploadEvent client data) ++
      [uploadEvent client data (data.length / maxBufLen)] := by
  rw [upload, blocks, List.range_succ, List.map_append, List.map_singleton]

theorem upload_eq_repeated (client : SockAddr) (data : List UInt8) :
    upload client data = repeated client data (fun _ => 1) 0 (blocks data) := by
  rw [upload, repeated, ← List.range_eq_range', List.map_eq_flatMap]
  rfl

theorem wrq_upload (client : SockAddr) (data : List UInt8) :
    ∃ s, wrqHandler octet client (upload client data) =
        (acksSent client 0 (upload client data), .exit (.ret .ok) s) ∧
      s.writer.fd = ((List.range (blocks data)).flatMap (kept data)).flatMap Prod.snd := by
  let before := (List.range (data.length / maxBufLen)).map (uploadEvent client data)
  have uploads : ∀ e ∈ before, e.Upload :=
    List.forall_mem_map.mpr fun k _ => uploadEvent_upload client data k
  have full : ∀ d, Event.recv d ∈ before → ¬ d.Short := by
    intro d member
    obtain ⟨k, earlier, same⟩ := List.mem_map.mp member
    cases same
    exact earlier_full client data (List.mem_range.mp earlier)
  have noTimeout : before.count .timeout = 0 := by
    rw [List.count_eq_zero]
    intro member
    obtain ⟨k, _, same⟩ := List.mem_map.mp member
    cases same
  have isOpen : WriteOpen 0 before := writeOpen_of_full full (by rw [noTimeout]; decide)
  obtain ⟨s, run, logged, file⟩ := wrq_last_block client data [] uploads isOpen
  rw [← upload_eq_append] at run logged
  have appended := written_repeated client data (fun _ => 1) (fun _ => Nat.le_refl 1) 0 (blocks data) []
  rw [List.append_nil, ← upload_eq_repeated, ← List.range_eq_range'] at appended
  refine ⟨s, run, ?_⟩
  rw [file, logged]
  exact congrArg (List.flatMap Prod.snd) (appended.trans (List.append_nil _))

theorem kept_eq_iff (data : List UInt8) :
    ((List.range (blocks data)).flatMap (kept data)).flatMap Prod.snd = data ↔
      data.length ≤ 65535 * maxBufLen := by
  have pieces : ∀ k, (kept data k).flatMap Prod.snd =
      if (k + 1) % 65536 = 0 then [] else chunk maxBufLen data k := by
    intro k
    rw [kept]
    split
    · rfl
    · exact List.flatMap_singleton _ _
  have whole : (List.range (blocks data)).flatMap (chunk maxBufLen data) = data := by
    rw [flatMap_chunk]
    exact List.take_of_length_le (Nat.le_of_lt (lt_blocks (by decide) _))
  have count : blocks data = data.length / 512 + 1 := rfl
  have size : maxBufLen = 512 := rfl
  simp only [List.flatMap_assoc, pieces]
  refine (Eq.congr_right whole.symm).trans ?_
  rw [flatMap_omit_eq_iff]
  simp only [List.mem_range, chunk_eq_nil_iff (show 0 < maxBufLen by decide)]
  constructor
  · intro empty
    by_contra large
    have := empty 65535 (by omega) (by decide)
    omega
  · intro small k inside wraps
    rw [size] at small ⊢
    omega

/-- A lossless upload succeeds with its data in the file up to 65535 full blocks; block 65536, the
first one numbered 0, is acknowledged and dropped. -/
theorem wrq_lossless_iff (client : SockAddr) (data : List UInt8) :
    Returned (wrqHandler octet client (upload client data)).2 .ok ∧
        (lastState (wrqHandler octet client (upload client data)).2).writer.fd = data ↔
      data.length ≤ 65535 * maxBufLen := by
  obtain ⟨s, run, file⟩ := wrq_upload client data
  rw [run, ← kept_eq_iff, ← file]
  exact and_iff_right ⟨s, rfl⟩

/-- One byte after 65535 full blocks is lost. -/
theorem wrq_wrap_loses_block :
    ¬ (Returned (wrqHandler octet ⟨0, 69⟩ (upload ⟨0, 69⟩ (List.replicate 33553921 7))).2 .ok ∧
      (lastState (wrqHandler octet ⟨0, 69⟩ (upload ⟨0, 69⟩ (List.replicate 33553921 7))).2).writer.fd =
        List.replicate 33553921 7) := by
  obtain ⟨s, run, file⟩ := wrq_upload ⟨0, 69⟩ (List.replicate 33553921 7)
  rintro ⟨_, kept⟩
  rw [run] at kept
  have small := (kept_eq_iff _).mp (file.symm.trans kept)
  rw [List.length_replicate] at small
  exact absurd small (by decide)

/-! ### Copies and timeouts -/

theorem written_filter (b : UInt16) (es : List Event) :
    written b (es.filter (· ≠ .timeout)) = written b es := by
  induction es generalizing b with
  | nil => rfl
  | cons e es ih =>
    cases e with
    | timeout => exact ih b
    | recv d =>
      rw [List.filter_cons_of_pos (by simp), written, written, ih]

theorem kept_below {data : List UInt8} (fits : blocks data ≤ 65535) :
    (List.range (blocks data)).flatMap (kept data) =
      (List.range (blocks data)).map fun k => (UInt16.ofNat (k + 1), chunk maxBufLen data k) := by
  rw [List.map_eq_flatMap]
  apply List.flatMap_congr
  intro k inside
  have := List.mem_range.mp inside
  exact if_neg (by omega)

theorem takeWhile_ne_append {last : Event} {xs : List Event} (absent : last ∉ xs) (ys : List Event) :
    (xs ++ last :: ys).takeWhile (· ≠ last) = xs := by
  have different : ∀ e ∈ xs, decide (e ≠ last) = true := fun e member =>
    decide_eq_true fun same => absent (same ▸ member)
  rw [List.takeWhile_append_of_pos different, List.takeWhile_cons_of_neg (by simp), List.append_nil]

theorem last_notMem_earlier (client : SockAddr) {data : List UInt8} (fits : blocks data ≤ 65535)
    (copies : Nat → Nat) :
    uploadEvent client data (data.length / maxBufLen) ∉
      repeated client data copies 0 (data.length / maxBufLen) := by
  intro member
  obtain ⟨k, inside, copy⟩ := List.mem_flatMap.mp member
  have earlier : k < data.length / maxBufLen := by
    rw [← List.range_eq_range'] at inside
    exact List.mem_range.mp inside
  have same := congrArg (Event.nextBlock 0) (List.eq_of_mem_replicate copy)
  rw [uploadEvent_nextBlock, uploadEvent_nextBlock, ← UInt16.toNat_inj, UInt16.toNat_ofNat',
    UInt16.toNat_ofNat'] at same
  rw [blocks] at fits
  omega

theorem split_at_last (client : SockAddr) {data : List UInt8} {copies : Nat → Nat} {events : List Event}
    (fits : blocks data ≤ 65535) (delivered : ∀ k, 1 ≤ copies k)
    (order : events.filter (· ≠ .timeout) = repeated client data copies 0 (blocks data)) :
    let last := uploadEvent client data (data.length / maxBufLen)
    ∃ before rest, events = before ++ last :: rest ∧ last ∉ before ∧
      before.filter (· ≠ .timeout) = repeated client data copies 0 (data.length / maxBufLen) := by
  intro last
  obtain ⟨n, once⟩ := Nat.exists_eq_add_of_le' (delivered (data.length / maxBufLen + 1))
  have final : repeated client data copies 0 (blocks data) =
      repeated client data copies 0 (data.length / maxBufLen) ++ last :: List.replicate n last := by
    rw [repeated, blocks, List.range'_concat, List.flatMap_append, List.flatMap_singleton, Nat.one_mul,
      Nat.zero_add, once, List.replicate_succ]
    rfl
  have arrives : last ∈ events := by
    apply (List.mem_filter.mp _).1
    · exact fun e => decide (e ≠ .timeout)
    · rw [order, final]
      exact List.mem_append_right _ List.mem_cons_self
  obtain ⟨before, rest, split, first⟩ := List.eq_append_cons_of_mem arrives
  refine ⟨before, rest, split, first, ?_⟩
  have filtered := order
  rw [split, List.filter_append, List.filter_cons_of_pos (by simp [last, uploadEvent]), final] at filtered
  have early : last ∉ before.filter (· ≠ .timeout) := fun member => first (List.mem_filter.mp member).1
  have cut := congrArg (List.takeWhile (· ≠ last)) filtered
  rwa [takeWhile_ne_append early, takeWhile_ne_append (last_notMem_earlier client fits copies)] at cut

theorem mem_repeated {client : SockAddr} {data : List UInt8} {copies : Nat → Nat} {m : Nat} {e : Event}
    (member : e ∈ repeated client data copies 0 m) : ∃ k < m, e = uploadEvent client data k := by
  obtain ⟨k, inside, copy⟩ := List.mem_flatMap.mp member
  rw [← List.range_eq_range'] at inside
  exact ⟨k, List.mem_range.mp inside, List.eq_of_mem_replicate copy⟩

/-- An upload of at most 65535 blocks over a first-in first-out channel, each block any number of
times and fewer timeouts than end the transfer. Up to the first copy of the last block every event is
answered with the number of the last DATA, 0 at the start; then the handler returns with the data
in the file. -/
theorem wrq_fifo (client : SockAddr) (data : List UInt8) (copies : Nat → Nat) (events : List Event)
    (fits : blocks data ≤ 65535) (delivered : ∀ k, 1 ≤ copies k)
    (order : events.filter (· ≠ .timeout) = repeated client data copies 0 (blocks data))
    (few : events.count .timeout ≤ 9) :
    let last := uploadEvent client data (data.length / maxBufLen)
    ∃ before rest s, events = before ++ last :: rest ∧ last ∉ before ∧
      Waiting (wrqHandler octet client before).2 ∧
      wrqHandler octet client events = (acksSent client 0 (before ++ [last]), .exit (.ret .ok) s) ∧
      s.writer.fd = data ∧
      s.appended = (List.range (blocks data)).map fun k => (UInt16.ofNat (k + 1), chunk maxBufLen data k) := by
  intro last
  obtain ⟨before, rest, split, first, earlier⟩ := split_at_last client fits delivered order
  have known : ∀ d, Event.recv d ∈ before → ∃ k < data.length / maxBufLen, Event.recv d = uploadEvent client data k := by
    intro d member
    apply mem_repeated
    rw [← earlier]
    exact List.mem_filter.mpr ⟨member, by simp⟩
  have uploads : ∀ e ∈ before, e.Upload := by
    intro e member
    cases e with
    | timeout => trivial
    | recv d =>
      obtain ⟨k, _, same⟩ := known d member
      rw [same]
      exact uploadEvent_upload client data k
  have full : ∀ d, Event.recv d ∈ before → ¬ d.Short := by
    intro d member
    obtain ⟨k, lower, same⟩ := known d member
    cases same
    exact earlier_full client data lower
  have isOpen : WriteOpen 0 before := by
    have fewer : before.count .timeout ≤ events.count .timeout := by
      rw [split]
      exact (List.sublist_append_left _ _).count_le _
    exact writeOpen_of_full full (by rw [maxRetry]; omega)
  obtain ⟨s, run, logged, file⟩ := wrq_last_block client data rest uploads isOpen
  obtain ⟨_, _, _, u, waits, _⟩ := wrq_run_open (wrqStart_at client) rfl uploads isOpen
  have appended : s.appended =
      (List.range (blocks data)).map fun k => (UInt16.ofNat (k + 1), chunk maxBufLen data k) := by
    rw [logged, ← written_filter, List.filter_append, earlier, ← kept_below fits]
    have whole := written_repeated client data copies delivered 0 (data.length / maxBufLen) [last]
    rw [Nat.zero_add, ← List.range_eq_range', written, uploadEvent_appends, written, List.append_nil] at whole
    rw [blocks, List.range_succ, List.flatMap_append, List.flatMap_singleton]
    exact whole
  refine ⟨before, rest, s, split, first, ⟨u, congrArg Prod.snd waits⟩, ?_, ?_, appended⟩
  · rw [split]
    exact run
  · rw [file, appended, ← kept_below fits]
    apply (kept_eq_iff data).mpr
    have size : maxBufLen = 512 := rfl
    rw [blocks, size] at fits
    omega

theorem wrq_fifo_one_block :
    let last := uploadEvent ⟨0, 69⟩ [7] 0
    Returned (wrqHandler octet ⟨0, 69⟩ [.timeout, last, last]).2 .ok := by
  intro last
  obtain ⟨_, _, s, _, _, _, run, _⟩ := wrq_fifo ⟨0, 69⟩ [7] (fun _ => 2) [.timeout, last, last] (by decide)
    (fun _ => by decide) (by decide) (by decide)
  rw [run]
  exact ⟨s, rfl⟩

end NetProjects.Tftp
