import NetProjects.Proxy.Pieces
import NetProjects.Proxy.Progress
import NetProjects.Proxy.Sending

/-!
# The receive buffer

A call of `cache_recv` makes the buffer one step larger where the bytes would fill it. One step is
enough: the buffer is always larger than what has been received.
-/

namespace NetProjects.Proxy
open Bytes

/-- Calls of `cache_recv` on the server `f`, each of which brings a byte at least and no 304. -/
inductive Receiving (f c : Nat) (s : ProxyState) : List Io → ProxyState → Prop where
  | start : Receiving f c s [] s
  | call {t u : ProxyState} {io : Io} {ios : List Io} {k : Nat} (before : Receiving f c s ios t)
      (arrived : io.chunk ≠ []) (modified : ¬ NotModified t f c (bufRecv io) io)
      (received : cacheRecv t f io = some (u, k)) : Receiving f c s (ios ++ [io]) u

/-- The header needs no parse, or the parse goes through. -/
def HeaderParsed (s : ProxyState) (c : Nat) (io : Io) : Prop :=
  (s.content c).httpInfo.infoComplete = true ∨
    ∃ info, parseResponse (bufRecv io ++ io.memory.after) io.memory (s.content c).httpInfo = some info

/-- The server `f` receives into the document `c`, which holds the bytes and has room for more. -/
structure Filled (s : ProxyState) (f c : Nat) (bytes : List UInt8) : Prop where
  node : (s.session f).cacheNode = some c
  type : (s.session f).type = .server
  offset : (s.node f).offset = bytes.length
  length : (s.content c).buffer.length = (s.content c).bufferSize
  room : bytes.length < (s.content c).bufferSize
  holds : bytes <+: (s.content c).buffer

/-- What the next call of `cache_recv` does behind the bytes. -/
structure NextRecv (s : ProxyState) (f c : Nat) (bytes : List UInt8) (io : Io) : Prop where
  copies : ∃ t, recvToBuffer (s.touch c) f c io.chunk io = some t
  returns : HeaderParsed s c io → ¬ NotModified s f c (bufRecv io) io → ∃ t k, cacheRecv s f io = some (t, k)
  ends : ∀ t k, io.chunk = [] → cacheRecv s f io = some (t, k) →
    (t.node f).status = .idle ∧ (t.node f).offset = 0 ∧ bytes <+: (t.content c).buffer

section

variable {s t u : ProxyState} {f c k : Nat} {io : Io} {ios : List Io} {bytes : List UInt8}

/-- Without a 304 the parse of the header leaves the nodes and the buffers alone. -/
theorem recvHeader_normal (modified : ¬ NotModified s f c (bufRecv io) io)
    (incomplete : (s.content c).httpInfo.infoComplete = false) (h : recvHeader s f c (bufRecv io) io = some t) :
    t.node = s.node ∧ (t.content c).buffer = (s.content c).buffer ∧
      (t.content c).bufferSize = (s.content c).bufferSize := by
  obtain ⟨info, parsed, h⟩ := Option.bind_eq_some_iff.mp h
  obtain ⟨found, searched, h⟩ := Option.bind_eq_some_iff.mp h
  have stored : (s.setCache c fun n => { n with httpInfo := info }).content =
      Function.update s.content c { s.content c with httpInfo := info } := content_setCache s c
  split at h
  · rename_i conditional
    exact absurd ⟨conditional.1, incomplete, info, parsed, conditional.2 ▸ searched⟩ modified
  · obtain rfl := Option.some.inj h
    refine ⟨rfl, ?_, ?_⟩ <;> rw [content_setCache _ c, stored, Function.update_self, Function.update_self]

/-- One call on the normal path fills the document, and closes the node when nothing arrives. -/
theorem cacheRecv_normal (node : (s.session f).cacheNode = some c) (type : (s.session f).type = .server)
    (modified : ¬ NotModified s f c (bufRecv io) io) (h : cacheRecv s f io = some (t, k)) :
    ∃ n, (s.content c).filled (s.node f).offset io = some n ∧ (t.content c).buffer = n.buffer ∧
      (t.content c).bufferSize = n.bufferSize ∧ t.node f =
        if io.chunk = [] then { s.node f with status := .idle, offset := 0 }
        else { s.node f with offset := (s.node f).offset + io.chunk.length } := by
  obtain ⟨u, fill, _, content, nodes, _, sessions, _, server⟩ := cacheRecv_filled node h
  obtain ⟨w, header, rfl⟩ := server type
  have kept : w.node = u.node ∧ (w.content c).buffer = (u.content c).buffer ∧
      (w.content c).bufferSize = (u.content c).bufferSize := by
    cases complete : (u.content c).httpInfo.infoComplete with
    | true =>
      rw [if_pos complete] at header
      obtain rfl := Option.some.inj header
      exact ⟨rfl, rfl, rfl⟩
    | false =>
      rw [complete, if_neg Bool.false_ne_true] at header
      refine recvHeader_normal ?_ complete header
      rwa [NotModified, congrFun sessions f, info_eq_content, filled_info fill]
  obtain ⟨sameNode, buffer, size⟩ := kept
  refine ⟨u.content c, fill, ?_, ?_, ?_⟩
  · rw [apply_ite (fun x : ProxyState => x.content c), content_setFd, ite_self, buffer]
  · rw [apply_ite (fun x : ProxyState => x.content c), content_setFd, ite_self, size]
  · split
    · rw [node_setFd w f, Function.update_self, sameNode, nodes, Function.update_self]
    · rw [sameNode, nodes, Function.update_self]

theorem recvHeader_returns {info : HttpInfo} (modified : ¬ NotModified s f c (bufRecv io) io)
    (incomplete : (s.content c).httpInfo.infoComplete = false)
    (parsed : parseResponse (bufRecv io ++ io.memory.after) io.memory (s.content c).httpInfo = some info) :
    ∃ t, recvHeader s f c (bufRecv io) io = some t := by
  obtain ⟨found, searched⟩ := strstrLit_field info.status (cstr "304")
  have other : ¬ ((s.fdNodes.cell f).flag = 1 ∧ found = true) := by
    rintro ⟨flag, rfl⟩
    exact modified ⟨flag, incomplete, info, parsed, searched⟩
  replace parsed : parseResponse (bufRecv io ++ io.memory.after) io.memory (s.cache.nodes.cell c).httpInfo = some info :=
    parsed
  unfold recvHeader
  simp only [parsed, searched, Option.bind_eq_bind, Option.bind_some]
  rw [if_neg (by exact other)]
  exact ⟨_, rfl⟩

theorem Filled.fills (filled : Filled s f c bytes) (io : Io) :
    ∃ n, (s.content c).filled (s.node f).offset io = some n := by
  rw [filled.offset]
  exact filled_some io filled.length filled.room

theorem Filled.returns (filled : Filled s f c bytes) (received : io.received ≠ none) (parsed : HeaderParsed s c io)
    (modified : ¬ NotModified s f c (bufRecv io) io) : ∃ t k, cacheRecv s f io = some (t, k) := by
  obtain ⟨n, fill⟩ := filled.fills io
  obtain ⟨got, arrived⟩ := Option.ne_none_iff_exists'.mp received
  obtain ⟨u, copied, sessions, content, _⟩ := cacheRecv_filled_some fill
  have node : (s.fdNodes.cell f).cacheNode = some c := filled.node
  have type : (u.fdNodes.cell f).type = .server := (congrArg Session.type (congrFun sessions f)).trans filled.type
  have info : (u.content c).httpInfo = (s.content c).httpInfo := by rw [content, filled_info fill]
  have modified' : ¬ NotModified u f c (bufRecv io) io := by
    rw [NotModified, congrFun sessions f, info_eq_content, info]
    exact modified
  have header : ∃ w, (if (u.cache.nodes.cell c).httpInfo.infoComplete then some u
      else recvHeader u f c (bufRecv io) io) = some w := by
    rw [info_eq_content]
    cases complete : (u.content c).httpInfo.infoComplete with
    | true => exact ⟨u, rfl⟩
    | false =>
      obtain done | ⟨found, parse⟩ := parsed
      · rw [← info, complete] at done
        cases done
      · rw [← info] at parse
        exact recvHeader_returns modified' complete parse
  obtain ⟨w, header⟩ := header
  have chunk := chunk_of_received arrived
  rw [bufRecv, ← chunk] at header
  rw [← chunk] at copied
  unfold cacheRecv
  simp only [arrived, node, copied, type, header, Option.bind_eq_bind, Option.bind_some]
  exact ⟨_, _, rfl⟩

/-- What a call of the normal path leaves in the document. -/
theorem Filled.received (filled : Filled s f c bytes) (modified : ¬ NotModified s f c (bufRecv io) io)
    (h : cacheRecv s f io = some (t, k)) :
    (t.content c).buffer.length = (t.content c).bufferSize ∧
      (bytes ++ io.chunk).length < (t.content c).bufferSize ∧ bytes ++ io.chunk <+: (t.content c).buffer ∧
      t.node f = if io.chunk = [] then { s.node f with status := .idle, offset := 0 }
        else { s.node f with offset := (s.node f).offset + io.chunk.length } := by
  obtain ⟨n, fill, buffer, size, next⟩ := cacheRecv_normal filled.node filled.type modified h
  rw [filled.offset] at fill
  obtain ⟨length, room, holds⟩ := filled_holds bytes fill filled.length filled.room filled.holds
  rw [buffer, size]
  exact ⟨length, room, holds, next⟩

theorem Filled.step (filled : Filled s f c bytes) (arrived : io.chunk ≠ [])
    (modified : ¬ NotModified s f c (bufRecv io) io) (h : cacheRecv s f io = some (t, k)) :
    Filled t f c (bytes ++ io.chunk) := by
  obtain ⟨length, room, holds, next⟩ := filled.received modified h
  rw [if_neg arrived] at next
  refine ⟨?_, ?_, ?_, length, room, holds⟩
  · rw [session_eq_node, next]
    exact filled.node
  · rw [session_eq_node, next]
    exact filled.type
  · rw [next, List.length_append, Nat.cast_add, ← filled.offset]

theorem Filled.next (filled : Filled s f c bytes) (received : io.received ≠ none) : NextRecv s f c bytes io where
  copies := by
    obtain ⟨n, fill⟩ := filled.fills io
    obtain ⟨u, copied, _⟩ := cacheRecv_filled_some fill
    exact ⟨u, copied⟩
  returns parsed modified := filled.returns received parsed modified
  ends t k closed h := by
    have modified : ¬ NotModified s f c (bufRecv io) io := by
      rintro ⟨_, _, info, parsed, _⟩
      exact parseResponse_arrived parsed closed
    obtain ⟨_, _, holds, next⟩ := filled.received modified h
    rw [if_pos closed] at next
    refine ⟨by rw [next], by rw [next], (List.prefix_append _ _).trans holds⟩

theorem Receiving.filled (calls : Receiving f c s ios t) (start : Filled s f c []) : Filled t f c (ios.flatMap Io.chunk) := by
  induction calls with
  | start => exact start
  | call _ arrived modified received ih =>
    rw [List.flatMap_append, List.flatMap_singleton]
    exact ih.step arrived modified received

/-- The buffer holds what has been received and is larger; the next bytes are copied inside it, and when there
are none the response is complete. -/
theorem response_received (node : (s.session f).cacheNode = some c) (type : (s.session f).type = .server)
    (offset : (s.node f).offset = 0) (size : 1 ≤ (s.content c).bufferSize)
    (length : (s.content c).buffer.length = (s.content c).bufferSize) (calls : Receiving f c s ios t) :
    Filled t f c (ios.flatMap Io.chunk) ∧ ∀ io, io.received ≠ none → NextRecv t f c (ios.flatMap Io.chunk) io := by
  have start : Filled s f c [] := ⟨node, type, offset, length, size, List.nil_prefix⟩
  have filled := calls.filled start
  exact ⟨filled, fun io received => filled.next received⟩

end

/-- A server on a cache miss whose header has been parsed, with two bytes of room. -/
def receivingServer : ProxyState :=
  .single { newFdNode none none 5 .server .reading (some 0) with flag := 2 }
    { CacheNode.fresh none none 2 with httpInfo := { HttpInfo.zero with infoComplete := true } }

def arriving (bytes : List UInt8) : Io := { Io.blank with received := some bytes }

theorem arriving_some {n : Nat} (pos : 0 < n) (small : n ≤ maxDataSize) (c : UInt8) :
    (arriving (List.replicate n c)).chunk ≠ [] := by
  have whole : (arriving (List.replicate n c)).chunk = List.replicate n c :=
    List.take_of_length_le (List.length_replicate.trans_le small)
  rw [whole]
  exact List.ne_nil_of_length_pos (pos.trans_eq List.length_replicate.symm)

/-- Three chunks, of which the first and the second make the buffer larger. -/
theorem response_received_larger :
    ∃ u, Receiving 0 0 receivingServer
        ([] ++ [arriving [65, 66, 67]] ++ [arriving (List.replicate 1499 68)] ++ [arriving [69]]) u ∧
      (u.content 0).bufferSize = 2 + 2 * maxDataSize ∧
      Filled u 0 0 (([] ++ [arriving [65, 66, 67]] ++ [arriving (List.replicate 1499 68)] ++ [arriving [69]]).flatMap Io.chunk) := by
  have run : ((cacheRecv receivingServer 0 (arriving [65, 66, 67])).bind fun x =>
      (cacheRecv x.1 0 (arriving (List.replicate 1499 68))).bind fun y => (cacheRecv y.1 0 (arriving [69])).map fun z =>
      ((x.1.node 0).flag, (y.1.node 0).flag, (z.1.content 0).bufferSize)) = some (2, 2, 2 + 2 * maxDataSize) := by
    decide +kernel
  have long := arriving_some (by decide : 0 < 1499) (by decide) 68
  generalize arriving (List.replicate 1499 68) = second at run long ⊢
  obtain ⟨⟨t, k⟩, first, run⟩ := Option.bind_eq_some_iff.mp run
  obtain ⟨⟨t', k'⟩, next, run⟩ := Option.bind_eq_some_iff.mp run
  obtain ⟨⟨u, k''⟩, last, run⟩ := Option.map_eq_some_iff.mp run
  obtain ⟨flag, rest⟩ := Prod.mk.inj run
  obtain ⟨flag', size⟩ := Prod.mk.inj rest
  have normal : ∀ (s : ProxyState) io, (s.node 0).flag = 2 → ¬ NotModified s 0 0 (bufRecv io) io := by
    rintro s io normal ⟨conditional, _⟩
    exact absurd (normal.symm.trans conditional) (by decide)
  have calls := ((Receiving.start.call (by decide) (normal _ _ rfl) first).call long (normal _ _ flag) next).call
    (by decide) (normal _ _ flag') last
  exact ⟨u, calls, size, (response_received rfl rfl rfl (by decide) rfl calls).1⟩

end NetProjects.Proxy
