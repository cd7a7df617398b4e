import NetProjects.Library.CharArray

/-!
# The echo server

The child that serves one connection. `server_write` sends the whole buffer whatever `server_read`
stored in it, so a reply is the bytes received and what earlier reads left behind them.
-/

namespace NetProjects.Echo
open Bytes

def maxDataSize : Nat := 100

/-- The bytes one `recv` stores. -/
structure Segment where
  bytes : List UInt8
  nonempty : 0 < bytes.length
  fits : bytes.length ≤ maxDataSize - 1

/-- What a `send` returns. -/
inductive Sent where
  | count (n : Nat)
  | interrupted
  | failed

/-- What the `recv` of one round returns, and the `send` calls after it. -/
inductive Round where
  | data (segment : Segment) (sends : List Sent)
  | fin
  | interrupted
  | failed

structure Child where
  buf : CharArray maxDataSize
  numbytes : Int

inductive Exit where
  | closed
  | status (code : Int)

/-- The child waits in `recv` or in `send`, or has left the connection: behind the close it goes back to `accept`. -/
inductive Outcome where
  | reading (c : Child)
  | writing (c : Child)
  | exited (e : Exit)

def serverWrite (buf : CharArray maxDataSize) (n : Nat) : List UInt8 := (buf.bytes.take (maxDataSize - 1)).take n

/-- The inner loop: the bytes sent, and `numbytes` once it is left. -/
def echoBack (buf : CharArray maxDataSize) : List Sent → List UInt8 × Option Int
  | [] => ([], none)
  -- `numbytes` is the value of the whole condition, which is true here and false below.
  | .interrupted :: sends => echoBack buf sends
  | .failed :: _ => ([], some 0)
  | .count n :: _ => (serverWrite buf n, some 0)

def serve (c : Child) : List Round → List UInt8 × Outcome
  | [] => ([], .reading c)
  | .fin :: _ => ([], .exited .closed)
  | .interrupted :: rounds => serve { c with numbytes := -1 } rounds
  | .failed :: _ => ([], .exited (.status 1))
  | .data segment sends :: rounds =>
    let buf := c.buf.fill segment.bytes
    match echoBack buf sends with
    | (sent, none) => (sent, .writing { buf := buf, numbytes := segment.bytes.length })
    | (sent, some numbytes) =>
      if numbytes = -1 then (sent, .exited (.status 1))
      else
        let rest := serve { buf := buf, numbytes := numbytes } rounds
        (sent ++ rest.1, rest.2)

/-- The segments received until the connection ends. -/
def segments : List Round → List Segment
  | [] => []
  | .fin :: _ => []
  | .interrupted :: rounds => segments rounds
  | .failed :: _ => []
  | .data segment _ :: rounds => segment :: segments rounds

/-- The `send` that is not interrupted sends all it is given. -/
def SendCompletes : List Sent → Prop
  | [] => False
  | .interrupted :: sends => SendCompletes sends
  | .failed :: _ => False
  | .count n :: _ => n = maxDataSize - 1

def Round.Completes : Round → Prop
  | .data _ sends => SendCompletes sends
  | _ => True

/-- The replies to the segments. -/
def replies (buf : CharArray maxDataSize) : List Segment → List UInt8
  | [] => []
  | s :: ss => (buf.fill s.bytes).bytes.take (maxDataSize - 1) ++ replies (buf.fill s.bytes) ss

section

variable {buf : CharArray maxDataSize} {sends : List Sent} {rounds : List Round}

theorem echoBack_completes (completes : SendCompletes sends) :
    echoBack buf sends = (buf.bytes.take (maxDataSize - 1), some 0) := by
  induction sends with
  | nil => exact absurd completes id
  | cons s sends ih =>
    cases s with
    | interrupted => exact ih completes
    | failed => exact absurd completes id
    | count n =>
      have all : n = maxDataSize - 1 := completes
      rw [echoBack, serverWrite, all, List.take_take, Nat.min_self]

theorem serve_completes (c : Child) (completes : ∀ r ∈ rounds, r.Completes) :
    (serve c rounds).1 = replies c.buf (segments rounds) := by
  induction rounds generalizing c with
  | nil => rfl
  | cons r rounds ih =>
    obtain ⟨here, later⟩ := List.forall_mem_cons.mp completes
    cases r with
    | fin => rfl
    | interrupted => exact ih _ later
    | failed => rfl
    | data segment sends =>
      rw [serve, echoBack_completes here]
      dsimp only
      rw [if_neg (by decide), ih _ later]
      rfl

theorem length_replies (buf : CharArray maxDataSize) (ss : List Segment) :
    (replies buf ss).length = (maxDataSize - 1) * ss.length := by
  induction ss generalizing buf with
  | nil => rfl
  | cons s ss ih =>
    have size := (buf.fill s.bytes).size
    rw [replies, List.length_append, ih, List.length_take, size, List.length_cons, Nat.mul_succ]
    omega

/-- The stream is as long as the replies only when every segment fills its read. -/
theorem length_segments (ss : List Segment) :
    (ss.flatMap Segment.bytes).length ≤ (maxDataSize - 1) * ss.length ∧
      ((ss.flatMap Segment.bytes).length = (maxDataSize - 1) * ss.length →
        ∀ s ∈ ss, s.bytes.length = maxDataSize - 1) := by
  induction ss with
  | nil => exact ⟨Nat.le_refl _, fun _ s member => absurd member List.not_mem_nil⟩
  | cons s ss ih =>
    obtain ⟨most, full⟩ := ih
    have fits := s.fits
    rw [List.flatMap_cons, List.length_append, List.length_cons, Nat.mul_succ]
    constructor
    · omega
    · intro same
      rw [List.forall_mem_cons]
      exact ⟨by omega, full (by omega)⟩

theorem replies_full (buf : CharArray maxDataSize) {ss : List Segment}
    (full : ∀ s ∈ ss, s.bytes.length = maxDataSize - 1) : replies buf ss = ss.flatMap Segment.bytes := by
  induction ss generalizing buf with
  | nil => rfl
  | cons s ss ih =>
    obtain ⟨here, later⟩ := List.forall_mem_cons.mp full
    rw [replies, ih _ later, List.flatMap_cons, CharArray.bytes_fill (by omega),
      List.take_append_of_le_length (Nat.le_of_eq here.symm), List.take_of_length_le (Nat.le_of_eq here)]

/-- The client gets back what it sent exactly when every read returns a full frame. -/
theorem echo_exact_iff (c : Child) (completes : ∀ r ∈ rounds, r.Completes) :
    (serve c rounds).1 = (segments rounds).flatMap Segment.bytes ↔
      ∀ s ∈ segments rounds, s.bytes.length = maxDataSize - 1 := by
  rw [serve_completes c completes]
  constructor
  · intro same
    apply (length_segments (segments rounds)).2
    rw [← same, length_replies]
  · exact replies_full c.buf

end

def Segment.frame (b : UInt8) : Segment where
  bytes := List.replicate (maxDataSize - 1) b
  nonempty := by rw [List.length_replicate]; decide
  fits := Nat.le_of_eq List.length_replicate

def Segment.single (b : UInt8) : Segment where
  bytes := [b]
  nonempty := Nat.one_pos
  fits := by rw [List.length_singleton]; decide

theorem echo_frames_exact :
    let rounds := [Round.data (.frame 65) [.interrupted, .count 99], .interrupted, .data (.frame 66) [.count 99], .fin]
    (serve { buf := .zero maxDataSize, numbytes := 0 } rounds).1 = (segments rounds).flatMap Segment.bytes := by
  intro rounds
  have completes : ∀ r ∈ rounds, r.Completes := by simp [rounds, Round.Completes, SendCompletes, maxDataSize]
  refine (echo_exact_iff _ completes).mpr ?_
  have received : segments rounds = [.frame 65, .frame 66] := rfl
  rw [received]
  simp [Segment.frame]

/-- One byte comes back with 98 bytes of the buffer behind it. -/
theorem echo_single_padded :
    let rounds := [Round.data (.single 65) [.count 99]]
    (serve { buf := .zero maxDataSize, numbytes := 0 } rounds).1 = 65 :: List.replicate 98 0 ∧
      (segments rounds).flatMap Segment.bytes = [65] := by
  decide

end NetProjects.Echo
