import NetProjects.Proxy.Relay

/-!
# Partial sends

A buffer is written by as many calls of `cache_send` as `send` makes of it: the offset counts what
has been taken.
-/

namespace NetProjects.Proxy
open Bytes

/-- Calls of `cache_send` on the node `f` until it is idle. Each `send` takes a byte at least, and at most
what it is asked for. -/
inductive Sending (f c : Nat) : ProxyState → List Io → ProxyState → Prop where
  | done (s : ProxyState) : Sending f c s [] s
  | call {s t u : ProxyState} {io : Io} {ios : List Io} (busy : (s.node f).status ≠ .idle)
      (takes : 1 ≤ io.sent ∧ io.sent ≤ askedSize (s.content c) (s.node f).offset)
      (sent : cacheSend s f io = some t) (rest : Sending f c t ios u) : Sending f c s (io :: ios) u

/-- The bytes taken by the calls. -/
def taken (ios : List Io) : Int := (ios.map Io.sent).sum

/-- A `send` stays inside the array, and asks for at most `maxDataSize` bytes. -/
structure Send.Inside (send : Send) : Prop where
  start : 0 ≤ send.start
  size : 0 ≤ send.size ∧ send.size ≤ maxDataSize
  stop : send.start + send.size ≤ send.array.length

/-- The node once `bytes` of the buffer have been taken. -/
def FdNode.sentTo (n : FdNode) (bufferSize : Nat) (bytes : Int) : FdNode :=
  if bufferSize = bytes then { n with offset := 0, status := .idle } else { n with offset := bytes }

/-- From offset `o` on the calls have handed on the buffer, each byte once and in order. -/
structure Delivered (s u : ProxyState) (f c o : Nat) (ios : List Io) (sends : List Send) : Prop where
  made : u.sends = s.sends ++ sends
  counts : sends.map Send.numbytes = ios.map Io.sent
  inside : ∀ x ∈ sends, x.array = (s.content c).buffer ∧ x.Inside
  bytes : sends.flatMap Send.bytes = (((s.content c).buffer.drop o).take (taken ios).toNat).map some
  within : ios.length ≤ taken ios ∧ o + taken ios ≤ (s.content c).bufferSize
  node : u.node f = (s.node f).sentTo (s.content c).bufferSize (o + taken ios)
  more : (u.node f).status ≠ .idle → 1 ≤ askedSize (u.content c) (u.node f).offset ∧ ∀ io, ∃ t, cacheSend u f io = some t

section

variable {s t u : ProxyState} {f c : Nat} {io : Io} {ios : List Io}

theorem taken_cons (io : Io) (ios : List Io) : taken (io :: ios) = io.sent + taken ios := List.sum_cons

theorem sentBytes_taken {n : CacheNode} {offset : Int} (takes : 1 ≤ io.sent ∧ io.sent ≤ askedSize n offset) :
    sentBytes n offset io = io.sent := by
  unfold sentBytes
  unfold askedSize at takes
  omega

theorem int32_eq {x : Int} (low : 0 ≤ x) (high : x < 2 ^ 31) : int32 x = x := by
  unfold int32
  apply Int.bmod_eq_of_le_mul_two
  · omega
  · omega

/-- A slice of the array is sent. -/
theorem bytes_slice {send : Send} {start : Nat} (from_ : send.start = start)
    (inside : start + send.numbytes.toNat ≤ send.array.length) :
    send.bytes = ((send.array.drop start).take send.numbytes.toNat).map some := by
  unfold Send.bytes
  apply List.ext_getElem
  · simp only [List.length_map, List.length_range, List.length_take, List.length_drop]
    omega
  · intro i left right
    rw [List.length_map, List.length_range] at left
    have place : (send.start + (i : Int)).toNat = start + i := by
      rw [from_]
      omega
    simp only [List.getElem_map, List.getElem_range, List.getElem_take, List.getElem_drop]
    rw [place, List.getElem?_eq_getElem (by omega)]

/-- What is in the way of a call: only the missing entry of a conditional get. -/
theorem cacheSend_returns (node : (s.session f).cacheNode = some c)
    (backup : (s.node f).Conditional → ∃ b, (s.node f).cacheNodeBackup = some b) (io : Io) :
    ∃ t, cacheSend s f io = some t := by
  have source : ∃ w, sendSource (s.touch c) f c = some w := by
    rw [← node_touch s c] at backup
    unfold sendSource
    dsimp only
    split
    · rename_i conditional
      obtain ⟨b, found⟩ := backup conditional
      replace found : ((s.touch c).fdNodes.cell f).cacheNodeBackup = some b := found
      rw [found]
      exact ⟨_, rfl⟩
    · exact ⟨_, rfl⟩
  obtain ⟨⟨u, array, start⟩, source⟩ := source
  replace node : (s.fdNodes.cell f).cacheNode = some c := node
  unfold cacheSend
  simp only [node, source, Option.bind_eq_bind, Option.bind_some]
  split <;> exact ⟨_, rfl⟩

/-! ### From the buffer -/

/-- One call that sends from the buffer. -/
theorem plain_send {o : Nat} (node : (s.session f).cacheNode = some c) (plain : ¬ (s.node f).Conditional)
    (offset : (s.node f).offset = o) (more : o < (s.content c).bufferSize) (small : (s.content c).bufferSize < 2 ^ 31)
    (whole : (s.content c).buffer.length = (s.content c).bufferSize)
    (takes : 1 ≤ io.sent ∧ io.sent ≤ askedSize (s.content c) (s.node f).offset) (sent : cacheSend s f io = some t) :
    ∃ send : Send, t.sends = s.sends ++ [send] ∧ t.content = s.content ∧ send.numbytes = io.sent ∧
      send.array = (s.content c).buffer ∧ send.start = o ∧ send.Inside ∧ io.sent ≤ (s.content c).bufferSize - o ∧
      t.node f = (s.node f).sentTo (s.content c).bufferSize (o + io.sent) := by
  obtain ⟨send, made, sends, content, _, nodes⟩ := cacheSend_made node sent
  obtain ⟨array, start⟩ := made.plain plain
  have count : send.numbytes = io.sent := made.numbytes.trans (sentBytes_taken takes)
  rw [offset] at start takes nodes
  have size : send.size = min ((s.content c).bufferSize - o : Int) maxDataSize := by
    rw [made.size, askedSize, offset, int32_eq (by omega) (by omega)]
  have asked : io.sent ≤ send.size := by
    rw [made.size, offset]
    exact takes.2
  have limit : (maxDataSize : Int) = 1500 := rfl
  refine ⟨send, sends, content, count, array, start, ⟨by omega, by omega, ?_⟩, by omega, ?_⟩
  · rw [array, whole]
    omega
  · unfold SentAll at nodes
    rw [count] at nodes
    unfold FdNode.sentTo
    split
    · obtain ⟨_, nodes⟩ | ⟨partially, _⟩ := nodes
      · rw [nodes, Function.update_self]
      · omega
    · obtain ⟨complete, _⟩ | ⟨_, nodes⟩ := nodes
      · omega
      · rw [nodes, Function.update_self]

/-- What is left to send can be asked for. -/
theorem asked_pos {o : Nat} (offset : (s.node f).offset = o) (more : o < (s.content c).bufferSize)
    (small : (s.content c).bufferSize < 2 ^ 31) : 1 ≤ askedSize (s.content c) (s.node f).offset := by
  have limit : (maxDataSize : Int) = 1500 := rfl
  rw [askedSize, offset, int32_eq (by omega) (by omega)]
  omega

theorem delivered_done {o : Nat} (node : (s.session f).cacheNode = some c) (plain : ¬ (s.node f).Conditional)
    (offset : (s.node f).offset = o) (more : o < (s.content c).bufferSize) (small : (s.content c).bufferSize < 2 ^ 31) :
    Delivered s s f c o [] [] where
  made := (List.append_nil _).symm
  counts := rfl
  inside := by simp
  bytes := rfl
  within := by
    change (0 : Int) ≤ 0 ∧ (o : Int) + 0 ≤ (s.content c).bufferSize
    omega
  node := by
    have sum : (o : Int) + taken [] = o := Int.add_zero _
    rw [sum, FdNode.sentTo, if_neg (by omega), ← offset]
  more _ := ⟨asked_pos offset more small, cacheSend_returns node fun conditional => absurd conditional plain⟩

theorem Sending.idle (calls : Sending f c s ios u) (idle : (s.node f).status = .idle) : ios = [] ∧ u = s := by
  cases calls with
  | done => exact ⟨rfl, rfl⟩
  | call busy => exact absurd idle busy

/-- The call that takes the last byte is the last one. -/
theorem delivered_last {o : Nat} {send : Send} (sends : t.sends = s.sends ++ [send]) (count : send.numbytes = io.sent)
    (inside : send.array = (s.content c).buffer ∧ send.Inside) (positive : 1 ≤ io.sent)
    (slice : send.bytes = (((s.content c).buffer.drop o).take io.sent.toNat).map some)
    (last : ((s.content c).bufferSize : Int) = o + io.sent)
    (next : t.node f = (s.node f).sentTo (s.content c).bufferSize (o + io.sent)) : Delivered s t f c o [io] [send] := by
  have sum : taken [io] = io.sent := List.sum_singleton
  have idle : (t.node f).status = .idle := by
    rw [next, FdNode.sentTo, if_pos last]
  refine ⟨sends, ?_, ?_, ?_, ?_, ?_, ?_⟩
  · rw [List.map_singleton, List.map_singleton, count]
  · intro x member
    rw [List.mem_singleton.mp member]
    exact inside
  · rw [List.flatMap_singleton, slice, sum]
  · rw [sum, List.length_singleton]
    omega
  · rw [next, sum]
  · intro busy
    exact absurd idle busy

/-- A call before others hands on what is in front of theirs. -/
theorem Delivered.before {o : Nat} {send : Send} {sends : List Send} (rest : Delivered t u f c (o + io.sent.toNat) ios sends)
    (content : t.content = s.content) (made : t.sends = s.sends ++ [send]) (count : send.numbytes = io.sent)
    (inside : send.array = (s.content c).buffer ∧ send.Inside) (positive : 1 ≤ io.sent)
    (slice : send.bytes = (((s.content c).buffer.drop o).take io.sent.toNat).map some)
    (next : t.node f = { s.node f with offset := o + io.sent }) : Delivered s u f c o (io :: ios) (send :: sends) := by
  obtain ⟨made', counts, insides, bytes, within_, node, more⟩ := rest
  rw [content] at insides bytes within_ node
  have sum := taken_cons io ios
  have place : (o : Int) + (io.sent + taken ios) = ((o + io.sent.toNat : Nat) : Int) + taken ios := by omega
  refine ⟨?_, ?_, ?_, ?_, ?_, ?_, more⟩
  · rw [made', made, List.append_assoc]
    rfl
  · rw [List.map_cons, List.map_cons, count, counts]
  · exact List.forall_mem_cons.mpr ⟨inside, insides⟩
  · have amount : (io.sent + taken ios).toNat = io.sent.toNat + (taken ios).toNat := by omega
    rw [List.flatMap_cons, slice, bytes, sum, amount, List.take_add, List.drop_drop, List.map_append]
  · rw [sum, List.length_cons]
    omega
  · rw [node, next, sum, place]
    unfold FdNode.sentTo
    split <;> rfl

theorem sending_delivered {o : Nat} (calls : Sending f c s ios u) (node : (s.session f).cacheNode = some c)
    (plain : ¬ (s.node f).Conditional) (offset : (s.node f).offset = o) (more : o < (s.content c).bufferSize)
    (small : (s.content c).bufferSize < 2 ^ 31) (whole : (s.content c).buffer.length = (s.content c).bufferSize) :
    ∃ sends, Delivered s u f c o ios sends := by
  induction calls generalizing o with
  | done s => exact ⟨[], delivered_done node plain offset more small⟩
  | @call s t u io ios busy takes sent rest ih =>
    obtain ⟨send, sends, content, count, array, start, inside, fits, next⟩ :=
      plain_send node plain offset more small whole takes sent
    have slice := bytes_slice start (by rw [array, whole, count]; omega)
    rw [array, count] at slice
    by_cases last : ((s.content c).bufferSize : Int) = o + io.sent
    · have idle : (t.node f).status = .idle := by
        rw [next, FdNode.sentTo, if_pos last]
      obtain ⟨rfl, rfl⟩ := rest.idle idle
      exact ⟨[send], delivered_last sends count ⟨array, inside⟩ takes.1 slice last next⟩
    · rw [FdNode.sentTo, if_neg last] at next
      have place : (t.node f).offset = ((o + io.sent.toNat : Nat) : Int) := by
        rw [next]
        dsimp only
        omega
      have node' : (t.session f).cacheNode = some c := by
        rw [session_eq_node, next]
        exact node
      have plain' : ¬ (t.node f).Conditional := by
        rw [next]
        exact plain
      obtain ⟨more', rest⟩ := ih node' plain' place (by rw [content]; omega) (by rw [content]; exact small)
        (by rw [content]; exact whole)
      exact ⟨send :: more', rest.before content sends count ⟨array, inside⟩ takes.1 slice next⟩

/-- However `send` cuts it, a buffer of less than 2^31 bytes is handed on in full, and the call that takes
its last byte sets the offset back. -/
theorem buffer_delivered {ios : List Io} (node : (s.session f).cacheNode = some c) (plain : ¬ (s.node f).Conditional)
    (offset : (s.node f).offset = 0)
    (size : 1 ≤ (s.content c).bufferSize ∧ (s.content c).bufferSize < 2 ^ 31)
    (whole : (s.content c).buffer.length = (s.content c).bufferSize) (calls : Sending f c s ios u) :
    ∃ sends, Delivered s u f c 0 ios sends :=
  sending_delivered calls node plain offset size.1 size.2 whole

end

/-- One node of the list and one document. -/
def ProxyState.single (node : FdNode) (document : CacheNode) : ProxyState :=
  { cache := { startQueue 2 with nodes := .empty document }, fdNodes := .empty node
    fdList := { front := none, rear := none, maxClient := 0 }, sends := [], stale := [] }

/-- A client that is to be sent three bytes. -/
def threeBytes : ProxyState :=
  .single (newFdNode none none 5 .client .writing (some 0)) { CacheNode.fresh none none 3 with buffer := [65, 66, 67] }

theorem buffer_delivered_twice :
    ∃ u sends, Sending 0 0 threeBytes [{ Io.blank with sent := 2 }, { Io.blank with sent := 1 }] u ∧
      Delivered threeBytes u 0 0 0 [{ Io.blank with sent := 2 }, { Io.blank with sent := 1 }] sends := by
  have calls : ∃ u, Sending 0 0 threeBytes [{ Io.blank with sent := 2 }, { Io.blank with sent := 1 }] u :=
    ⟨_, .call (by decide) (by decide) rfl (.call (by decide) (by decide) rfl (.done _))⟩
  obtain ⟨u, calls⟩ := calls
  obtain ⟨sends, delivered⟩ := buffer_delivered rfl (by decide) rfl (by decide) rfl calls
  exact ⟨u, sends, calls, delivered⟩

end NetProjects.Proxy
