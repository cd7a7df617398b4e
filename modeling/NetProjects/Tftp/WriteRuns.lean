import NetProjects.Tftp.Write

/-!
# Octet writes over whole runs

What the file holds after a sequence of DATA datagrams in any order, after a lossless upload of any
size, and after an upload with repeated blocks and timeouts over a channel that keeps their order.
-/

namespace NetProjects.Tftp
open Bytes

/-! ### Blocks in any order -/

/-- The blocks appended are numbered from 1 without a gap, a repetition or an exchange. -/
def AppendsInOrder (client : SockAddr) (events : List Event) : Prop :=
  let s := lastState (wrqHandler octet client events).2
  s.writer.fd = s.appended.flatMap Prod.snd ∧
    ∃ m, s.appended.map (fun block => block.1.toNat) = List.range' 1 m

def Event.number : Event → Option Nat
  | .timeout => none
  | .recv d => some d.block.toNat

def heard (events : List Event) : List Nat := (taken 0 events).filterMap Event.number

/-- Every number above the one before it is one more than the largest so far. -/
def EachRiseIsNext : Nat → Nat → List Nat → Prop
  | _, _, [] => True
  | last, largest, b :: bs => (last < b → b = largest + 1) ∧ EachRiseIsNext b (max largest b) bs

def rises : Nat → List Nat → List Nat
  | _, [] => []
  | last, b :: bs => if last < b then b :: rises b bs else rises b bs

theorem appends_numbers (b : UInt16) (d : Datagram) :
    ((Event.recv d).appends b).map (fun block => block.1.toNat) =
      if b.toNat < d.block.toNat then [d.block.toNat] else [] := by
  rw [Event.appends]
  by_cases up : b < d.block
  · rw [if_pos up, if_pos (UInt16.lt_iff_toNat_lt.mp up)]
    rfl
  · rw [if_neg up, if_neg (mt UInt16.lt_iff_toNat_lt.mpr up)]
    rfl

theorem written_numbers (b : UInt16) (es : List Event) :
    (written b es).map (fun block => block.1.toNat) = rises b.toNat (es.filterMap Event.number) := by
  induction es generalizing b with
  | nil => rfl
  | cons e es ih =>
    cases e with
    | timeout => exact ih b
    | recv d =>
      have number : Event.number (.recv d) = some d.block.toNat := rfl
      rw [written, List.map_append, ih, appends_numbers, List.filterMap_cons_some number, rises]
      by_cases up : b.toNat < d.block.toNat
      · rw [if_pos up, if_pos up]
        rfl
      · rw [if_neg up, if_neg up]
        rfl

theorem rises_consecutive_iff {last largest : Nat} (below : last ≤ largest) (bs : List Nat) :
    (∃ m, rises last bs = List.range' (largest + 1) m) ↔ EachRiseIsNext last largest bs := by
  induction bs generalizing last largest with
  | nil => exact ⟨fun _ => trivial, fun _ => ⟨0, rfl⟩⟩
  | cons b bs ih =>
    by_cases up : last < b
    · simp only [rises, up, if_true, EachRiseIsNext, true_implies]
      constructor
      · rintro ⟨m, consecutive⟩
        cases m with
        | zero => cases consecutive
        | succ m =>
          rw [List.range'_succ, List.cons.injEq] at consecutive
          obtain ⟨rfl, rest⟩ := consecutive
          rw [Nat.max_eq_right (by omega)]
          exact ⟨rfl, (ih (Nat.le_refl _)).mp ⟨m, rest⟩⟩
      · rintro ⟨rfl, rest⟩
        rw [Nat.max_eq_right (by omega)] at rest
        obtain ⟨m, consecutive⟩ := (ih (Nat.le_refl _)).mpr rest
        exact ⟨m + 1, by rw [consecutive, List.range'_succ]⟩
    · simp only [rises, up, if_false, EachRiseIsNext, false_implies, true_and]
      rw [Nat.max_eq_left (by omega)]
      exact ih (by omega)

theorem wrq_appended (client : SockAddr) {events : List Event} (upload : ∀ e ∈ events, e.Upload) :
    let s := lastState (wrqHandler octet client events).2
    s.writer.fd = s.appended.flatMap Prod.snd ∧
      s.appended.map (fun block => block.1.toNat) = rises 0 (heard events) := by
  obtain ⟨_, _, _, final⟩ := wrq_run_taken (wrqStart_at client) rfl upload
  rw [List.nil_append] at final
  refine ⟨?_, ?_⟩
  · rw [wrqHandler, final.file, final.logged]
  · rw [wrqHandler, final.logged, written_numbers]
    rfl

/-- Blocks are appended once and in order exactly when every number that rises above the one before
it is the next new one: a delayed copy of an older block must not be followed by a known one. -/
theorem wrq_appends_in_order_iff (client : SockAddr) (events : List Event)
    (upload : ∀ e ∈ events, e.Upload) :
    AppendsInOrder client events ↔ EachRiseIsNext 0 0 (heard events) := by
  obtain ⟨file, numbers⟩ := wrq_appended client upload
  unfold AppendsInOrder
  simp only [numbers, rises_consecutive_iff (Nat.le_refl 0)]
  exact and_iff_right file

def dataEvent (client : SockAddr) (b : UInt16) (payload : List UInt8) : Event :=
  .recv ⟨client, dataDatagram b payload⟩

theorem dataEvent_upload (client : SockAddr) (b : UInt16) (payload : List UInt8) :
    (dataEvent client b payload).Upload := by
  simp [dataEvent, Event.Upload]

theorem dataDatagram_block (client : SockAddr) (b : UInt16) (payload : List UInt8) :
    Datagram.block ⟨client, dataDatagram b payload⟩ = b := by
  simp [Datagram.block]

theorem dataDatagram_payload (client : SockAddr) (b : UInt16) {payload : List UInt8}
    (fits : payload.length ≤ maxBufLen) :
    Datagram.payload ⟨client, dataDatagram b payload⟩ = payload := by
  have packet : (dataDatagram b payload).length ≤ dataPacketLen := by
    simp only [maxBufLen, dataPacketLen, length_dataDatagram] at fits ⊢
    omega
  rw [Datagram.payload, List.take_of_length_le packet, drop_dataDatagram]

theorem heard_full (client : SockAddr) {payload : List UInt8} (full : payload.length = maxBufLen)
    (bs : List UInt16) :
    heard (bs.map fun b => dataEvent client b payload) = bs.map UInt16.toNat := by
  have goes : ∀ b, ¬ (dataEvent client b payload).EndsWrite 0 := by
    intro b
    simp only [dataEvent, Event.EndsWrite, Datagram.Short, dataDatagram_payload client b (Nat.le_of_eq full)]
    omega
  have number : ∀ b, (dataEvent client b payload).number = some b.toNat := by
    intro b
    rw [dataEvent, Event.number, dataDatagram_block]
  rw [heard]
  induction bs with
  | nil => rfl
  | cons b bs ih =>
    rw [List.map_cons, taken, if_neg (goes b), List.filterMap_cons_some (number b), List.map_cons]
    exact congrArg _ ih

/-- Block 1, a copy of it, and block 2. -/
theorem wrq_appends_two_blocks :
    (∀ e ∈ [1, 1, 2].map fun b => dataEvent ⟨0, 69⟩ b (List.replicate maxBufLen 0), e.Upload) ∧
      AppendsInOrder ⟨0, 69⟩ ([1, 1, 2].map fun b => dataEvent ⟨0, 69⟩ b (List.replicate maxBufLen 0)) := by
  have upload : ∀ e ∈ [1, 1, 2].map fun b => dataEvent ⟨0, 69⟩ b (List.replicate maxBufLen 0), e.Upload := by
    simp [dataEvent_upload]
  refine ⟨upload, (wrq_appends_in_order_iff ⟨0, 69⟩ _ upload).mpr ?_⟩
  rw [heard_full _ List.length_replicate]
  exact ⟨fun _ => rfl, nofun, fun _ => rfl, trivial⟩

/-- Blocks 1, 2, a delayed copy of 1 and a copy of 2 append block 2 twice. -/
theorem wrq_delayed_copy_repeats :
    ¬ AppendsInOrder ⟨0, 69⟩ ([1, 2, 1, 2].map fun b => dataEvent ⟨0, 69⟩ b (List.replicate maxBufLen 0)) := by
  have upload : ∀ e ∈ [1, 2, 1, 2].map fun b => dataEvent ⟨0, 69⟩ b (List.replicate maxBufLen 0), e.Upload := by
    simp [dataEvent_upload]
  obtain ⟨_, numbers⟩ := wrq_appended ⟨0, 69⟩ upload
  rw [heard_full _ List.length_replicate] at numbers
  rintro ⟨_, m, consecutive⟩
  have repeated : [1, 2, 2] = List.range' 1 m := numbers.symm.trans consecutive
  have three : 3 = m := by simpa using congrArg List.length repeated
  subst three
  exact absurd repeated (by decide)

end NetProjects.Tftp
