import NetProjects.Proxy.Headers
import NetProjects.Proxy.Served

/-!
# Runs of the proxy

A run keeps its events with the states around them, and so what each node of the list has received.
-/

namespace NetProjects.Proxy
open Bytes

/-- One event, with the states before and after it. -/
structure Transition where
  before : ProxyState
  event : Event
  after : ProxyState

inductive Ran (slots : Nat) : List Transition → ProxyState → Prop where
  | start {maxClient listenFd s} (h : ProxyState.start slots maxClient listenFd = some s) : Ran slots [] s
  | step {history s e t} (h : Ran slots history s) (next : step s e = some t) : Ran slots (history ++ [⟨s, e, t⟩]) t

/-- The run of the events, with its last state. -/
def ProxyState.trace (s : ProxyState) : List Event → Option (List Transition × ProxyState)
  | [] => some ([], s)
  | e :: es => (step s e).bind fun t => (t.trace es).map fun run => (⟨s, e, t⟩ :: run.1, run.2)

instance (s : ProxyState) (f : Nat) : Decidable (s.Reads f) := inferInstanceAs (Decidable (_ ∧ _))

namespace Transition

/-- The event reads from the node `f`. -/
def ReadsFrom (x : Transition) (f : Nat) : Prop := x.event.node = f ∧ x.before.Reads f

instance (x : Transition) (f : Nat) : Decidable (x.ReadsFrom f) := inferInstanceAs (Decidable (_ ∧ _))

/-- The fields that a parse of the bytes read fills. -/
def header (x : Transition) : Option HttpInfo := do
  let c ← (x.before.node x.event.node).cacheNode
  parseResponse (bufRecv x.event.io ++ x.event.io.memory.after) x.event.io.memory (x.before.content c).httpInfo

end Transition

/-- The bytes received through the node `f`. -/
def received (f : Nat) (history : List Transition) : List UInt8 :=
  history.flatMap fun x => if x.ReadsFrom f then x.event.io.chunk else []

/-- The header in the first bytes received through the node `f`. -/
def header (f : Nat) (history : List Transition) : Option HttpInfo :=
  (history.find? fun x => decide (x.ReadsFrom f)).bind Transition.header

/-- Nothing has been received through the node `f`. -/
def Silent (f : Nat) (history : List Transition) : Prop := ∀ x ∈ history, ¬ x.ReadsFrom f

section

variable {slots f : Nat} {history : List Transition} {x : Transition} {s : ProxyState}

theorem Ran.reachable (h : Ran slots history s) : Reachable slots s := by
  induction h with
  | start h => exact .start h
  | step _ next ih => exact .step ih next

theorem Ran.trace {es : List Event} {t : ProxyState} {more : List Transition} (h : Ran slots history s)
    (run : s.trace es = some (more, t)) : Ran slots (history ++ more) t := by
  induction es generalizing history s more with
  | nil =>
    obtain ⟨rfl, rfl⟩ := Prod.mk.inj (Option.some.inj run)
    rw [List.append_nil]
    exact h
  | cons e es ih =>
    obtain ⟨u, next, run⟩ := Option.bind_eq_some_iff.mp run
    obtain ⟨⟨rest, last⟩, later, same⟩ := Option.map_eq_some_iff.mp run
    obtain ⟨rfl, rfl⟩ := Prod.mk.inj same
    rw [List.append_cons]
    exact ih (h.step next) later

theorem ran_of_trace {maxClient : Nat} {listenFd : Int} {es : List Event}
    (run : (ProxyState.start slots maxClient listenFd).bind (·.trace es) = some (history, s)) : Ran slots history s := by
  obtain ⟨start, started, run⟩ := Option.bind_eq_some_iff.mp run
  exact (Ran.start started).trace run

theorem received_reads (reads : x.ReadsFrom f) : received f (history ++ [x]) = received f history ++ x.event.io.chunk := by
  rw [received, List.flatMap_append, List.flatMap_singleton, if_pos reads]
  rfl

theorem received_other (other : ¬ x.ReadsFrom f) : received f (history ++ [x]) = received f history := by
  rw [received, List.flatMap_append, List.flatMap_singleton, if_neg other, List.append_nil]
  rfl

theorem received_silent (silent : Silent f history) : received f history = [] :=
  List.flatMap_eq_nil_iff.mpr fun y member => if_neg (silent y member)

theorem Silent.other (silent : Silent f history) (other : ¬ x.ReadsFrom f) : Silent f (history ++ [x]) := by
  intro y member
  rcases List.mem_append.mp member with old | new
  · exact silent y old
  · rw [List.mem_singleton.mp new]
    exact other

theorem header_some {info : HttpInfo} (h : header f history = some info) : header f (history ++ [x]) = some info := by
  obtain ⟨y, found, parsed⟩ := Option.bind_eq_some_iff.mp h
  rw [header, List.find?_append, found]
  exact parsed

theorem header_first (silent : Silent f history) (reads : x.ReadsFrom f) : header f (history ++ [x]) = x.header := by
  have none : history.find? (fun y => decide (y.ReadsFrom f)) = none := by
    refine List.find?_eq_none.mpr fun y member => ?_
    rw [decide_eq_true_eq]
    exact silent y member
  rw [header, List.find?_append, none, Option.none_or, List.find?_singleton, if_pos (decide_eq_true reads)]
  rfl

/-- The header has been parsed from the first line received. -/
theorem header_received {info : HttpInfo} (h : header f history = some info) :
    13 ∈ received f history ∧ (Is304 (received f history) → strstrLit info.status.bytes (cstr "304") = some true) := by
  obtain ⟨x, found, parsed⟩ := Option.bind_eq_some_iff.mp h
  have reads := List.find?_some found
  rw [decide_eq_true_eq] at reads
  obtain ⟨before, after, rfl, unread⟩ := (List.find?_eq_some_iff_append.mp found).2
  have silent : Silent f before := by
    intro y member
    have skipped := unread y member
    rwa [Bool.not_eq_true', decide_eq_false_iff_not] at skipped
  have bytes : received f (before ++ x :: after) = x.event.io.chunk ++ received f after := by
    rw [List.append_cons, received, List.flatMap_append]
    exact congrArg (· ++ received f after) ((received_reads reads).trans (by rw [received_silent silent]; rfl))
  obtain ⟨c, _, parse⟩ := Option.bind_eq_some_iff.mp parsed
  obtain ⟨line, rest, arrived, _⟩ := parseResponse_line parse
  have cr : 13 ∈ x.event.io.chunk := by
    rw [arrived]
    exact List.mem_append_right _ List.mem_cons_self
  rw [bytes, is304_append cr]
  exact ⟨List.mem_append_left _ cr, status_of_is304 parse⟩

/-! ### The buffer -/

theorem growBuffer_spec (n : CacheNode) (offset : Int) {numbytes : Nat} (grown : Nat → UInt8)
    (room : offset < n.bufferSize) (small : numbytes ≤ maxDataSize) :
    ∃ extra, (growBuffer n offset numbytes grown).buffer = n.buffer ++ extra ∧
      (growBuffer n offset numbytes grown).bufferSize = n.bufferSize + extra.length ∧
      offset + numbytes < (n.bufferSize + extra.length : Nat) := by
  unfold growBuffer
  split
  · refine ⟨(List.range maxDataSize).map grown, rfl, ?_, ?_⟩
    · rw [List.length_map, List.length_range]
    · rw [List.length_map, List.length_range]
      omega
  · refine ⟨[], (List.append_nil _).symm, rfl, ?_⟩
    rw [List.length_nil]
    omega

/-- What has been received stays at the start of the buffer, which is always larger. -/
theorem filled_holds {n m : CacheNode} {io : Io} (bytes : List UInt8) (h : n.filled bytes.length io = some m)
    (length : n.buffer.length = n.bufferSize) (room : bytes.length < n.bufferSize) (holds : bytes <+: n.buffer) :
    m.buffer.length = m.bufferSize ∧ (bytes ++ io.chunk).length < m.bufferSize ∧ bytes ++ io.chunk <+: m.buffer := by
  obtain ⟨buffer, copied, h⟩ := Option.bind_eq_some_iff.mp h
  obtain rfl := Option.some.inj h
  obtain ⟨extra, bufferEq, sizeEq, fits⟩ :=
    growBuffer_spec n bytes.length io.grown (by omega) (length_chunk_le io)
  rw [bufferEq] at copied
  unfold copyToBuffer at copied
  split at copied
  swap
  · cases copied
  rename_i inside
  obtain rfl := Option.some.inj copied
  rw [Int.toNat_natCast]
  dsimp only
  refine ⟨?_, ?_, ?_⟩
  · rw [sizeEq, length_memcpy (by omega), List.length_append, length]
  · rw [sizeEq, List.length_append]
    omega
  · have start : (n.buffer ++ extra).take bytes.length = bytes :=
      (List.prefix_iff_eq_take.mp (holds.trans (List.prefix_append _ _))).symm
    rw [memcpy, start]
    exact List.prefix_append _ _

end

end NetProjects.Proxy
