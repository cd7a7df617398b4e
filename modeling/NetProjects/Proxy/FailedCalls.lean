import NetProjects.Proxy.Sending

/-!
# Failed socket calls

Both socket calls are repeated on EINTR only. After any other failure the handlers go on with -1 for
the number of bytes.
-/

namespace NetProjects.Proxy
open Bytes

inductive SocketCall where
  | recv | send
  deriving DecidableEq, Repr

namespace SocketCall

def run (s : ProxyState) (f : Nat) (io : Io) : SocketCall → Option ProxyState
  | recv => (cacheRecv s f io).map Prod.fst
  | send => cacheSend s f io

/-- The call has returned -1. -/
def Failed (io : Io) : SocketCall → Prop
  | recv => io.received = none
  | send => io.sent = -1

end SocketCall

/-- The offset, the documents and the queue are as they were, and a `send` that follows asks for no
negative length and for nothing in front of the buffer. -/
structure Intact (s t : ProxyState) (f c : Nat) : Prop where
  offset : (t.node f).offset = (s.node f).offset
  content : t.content = s.content
  cache : t.cache = s.cache
  inside : 0 ≤ (t.node f).offset ∧ (t.node f).offset ≤ (t.content c).bufferSize
  later : ∀ io u, cacheSend t f io = some u → ∃ send, u.sends = t.sends ++ [send] ∧ 0 ≤ send.start ∧ 0 ≤ send.size

section

variable {s t : ProxyState} {f c : Nat} {io : Io}

theorem cacheRecv_failed (failed : io.received = none) : cacheRecv s f io = none := by
  unfold cacheRecv
  rw [failed]
  rfl

theorem sentBytes_failed (failed : io.sent = -1) (n : CacheNode) (offset : Int) : sentBytes n offset io = -1 := by
  unfold sentBytes
  omega

/-- A failed `send` sets the offset back by one, or to the start. -/
theorem cacheSend_failed (node : (s.session f).cacheNode = some c) (failed : io.sent = -1) (sent : cacheSend s f io = some t) :
    t.content = s.content ∧ t.cache = s.cache ∧
      (t.node f = { s.node f with offset := 0, status := .idle } ∧ SentAll (s.content c) ((s.node f).offset - 1) ∨
        t.node f = { s.node f with offset := (s.node f).offset - 1 } ∧ ¬ SentAll (s.content c) ((s.node f).offset - 1)) := by
  obtain ⟨send, made, _, content, cache, nodes⟩ := cacheSend_made node sent
  have count : send.numbytes = -1 := made.numbytes.trans (sentBytes_failed failed _ _)
  rw [count] at nodes
  refine ⟨content, cache, ?_⟩
  obtain ⟨complete, nodes⟩ | ⟨partially, nodes⟩ := nodes
  · exact Or.inl ⟨by rw [nodes, Function.update_self], complete⟩
  · exact Or.inr ⟨by rw [nodes, Function.update_self]; rfl, partially⟩

/-- At the start of a buffer a `send` asks for no negative length. -/
theorem send_from_start (node : (s.session f).cacheNode = some c) (offset : (s.node f).offset = 0)
    (small : 0 ≤ int32 (s.content c).bufferSize) (sent : cacheSend s f io = some t) :
    ∃ send, t.sends = s.sends ++ [send] ∧ 0 ≤ send.start ∧ 0 ≤ send.size := by
  obtain ⟨send, made, sends, _⟩ := cacheSend_made node sent
  refine ⟨send, sends, ?_, ?_⟩
  · by_cases conditional : (s.node f).Conditional
    · obtain ⟨_, _, _, start⟩ := made.conditional conditional
      omega
    · obtain ⟨_, start⟩ := made.plain conditional
      omega
  · have limit : (maxDataSize : Int) = 1500 := rfl
    rw [made.size, askedSize, offset, Int.sub_zero]
    omega

/-- A failed call leaves the state intact exactly when it is a `send` from the start of a buffer whose size
is an `int`: there the offset -1 is taken for the end of the buffer, and set back. -/
theorem failed_call_intact_iff (call : SocketCall) (node : (s.session f).cacheNode = some c)
    (backup : (s.node f).Conditional → ∃ b, (s.node f).cacheNodeBackup = some b) (failed : call.Failed io) :
    (∃ t, call.run s f io = some t ∧ Intact s t f c) ↔
      call = .send ∧ (s.node f).offset = 0 ∧ 0 ≤ int32 (s.content c).bufferSize := by
  cases call with
  | recv =>
    refine iff_of_false ?_ (by simp)
    rintro ⟨t, returned, _⟩
    unfold SocketCall.run at returned
    dsimp only at returned
    rw [cacheRecv_failed failed] at returned
    cases returned
  | send =>
    constructor
    · rintro ⟨t, sent, intact⟩
      obtain ⟨content, _, ⟨next, _⟩ | ⟨next, _⟩⟩ := cacheSend_failed node failed sent
      · have start : (s.node f).offset = 0 := by
          rw [← intact.offset, next]
        refine ⟨rfl, start, ?_⟩
        have node' : (t.session f).cacheNode = some c := by
          rw [session_eq_node, next]
          exact node
        obtain ⟨u, later⟩ := cacheSend_returns node' (by rw [next]; exact backup) io
        obtain ⟨send, made, sends, _⟩ := cacheSend_made node' later
        obtain ⟨other, sends', _, size⟩ := intact.later io u later
        obtain rfl : send = other := List.singleton_inj.mp (List.append_cancel_left (sends.symm.trans sends'))
        rw [made.size, askedSize, next, content] at size
        dsimp only at size
        rw [Int.sub_zero] at size
        omega
      · have moved := intact.offset
        rw [next] at moved
        dsimp only at moved
        omega
    · rintro ⟨_, start, small⟩
      obtain ⟨t, sent⟩ := cacheSend_returns node backup io
      obtain ⟨content, cache, ⟨next, _⟩ | ⟨_, partially⟩⟩ := cacheSend_failed node failed sent
      · have node' : (t.session f).cacheNode = some c := by
          rw [session_eq_node, next]
          exact node
        have offset : (t.node f).offset = 0 := by rw [next]
        refine ⟨t, sent, by rw [offset, start], content, cache, by omega, ?_⟩
        intro io' u later
        exact send_from_start node' offset (by rw [content]; exact small) later
      · refine absurd (Or.inl ?_) partially
        omega

end

/-- The first `send` of three bytes fails. -/
theorem failed_send_intact :
    ∃ t, SocketCall.run threeBytes 0 { Io.blank with sent := -1 } .send = some t ∧ Intact threeBytes t 0 0 := by
  have failed : SocketCall.Failed { Io.blank with sent := -1 } .send := rfl
  have plain : ¬ (threeBytes.node 0).Conditional := by decide
  exact (failed_call_intact_iff .send rfl (fun conditional => absurd conditional plain) failed).mpr ⟨rfl, rfl, by decide⟩

/-- A client whose request is awaited. -/
def awaited : ProxyState :=
  .single (newFdNode none none 5 .client .reading (some 0)) (.fresh none none initialBuffer)

/-- A `recv` that fails is followed by a copy of 2^64 - 1 bytes. -/
theorem failed_recv_faults :
    ¬ ∃ t, SocketCall.run awaited 0 { Io.blank with received := none } .recv = some t ∧ Intact awaited t 0 0 := by
  rintro ⟨t, returned, _⟩
  unfold SocketCall.run at returned
  dsimp only at returned
  rw [cacheRecv_failed rfl] at returned
  cases returned

end NetProjects.Proxy
