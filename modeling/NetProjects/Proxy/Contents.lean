import NetProjects.Proxy.Start

/-!
# What the handlers do to the nodes and the contents

The effect of each part of the handlers on the nodes of the descriptor list and on what the cache
nodes hold, both apart from their links, and on what has been sent.
-/

namespace NetProjects.Proxy
open Bytes Linked

/-- A cache node apart from its links. -/
def CacheNode.content (n : CacheNode) : CacheNode := { n with prev := none, next := none }

namespace ProxyState

def node (s : ProxyState) (f : Nat) : FdNode := (s.fdNodes.cell f).unlinked

def content (s : ProxyState) (a : Nat) : CacheNode := (s.cache.nodes.cell a).content

end ProxyState

/-- The bytes that one `recv` of a handler brings. -/
def Io.chunk (io : Io) : List UInt8 := (io.received.getD []).take maxDataSize

def bufRecv (io : Io) : List UInt8 := memcpy (List.replicate maxDataSize 0) 0 io.chunk

namespace CacheNode

/-- The node after `cache_recv` has appended the bytes at `offset`. -/
def filled (n : CacheNode) (offset : Int) (io : Io) : Option CacheNode := do
  let node := growBuffer n offset io.chunk.length io.grown
  let buffer ← copyToBuffer node.buffer offset io.chunk
  return { n with buffer := buffer, bufferSize := node.bufferSize }

def parsed (n : CacheNode) (io : Io) : Option CacheNode := do
  if ← strstrLit (n.buffer ++ io.memory.after) (cstr "\r\n\r\n") then
    let info ← parseRequest (n.buffer ++ io.memory.after) io.memory n.httpInfo
    return { n with httpInfo := info }
  else return n

/-- The node of a client whose request has been received, and parsed if its end is there. -/
def requested (n : CacheNode) (offset : Int) (io : Io) : Option CacheNode := (n.filled offset io).bind (parsed · io)

def headed (n : CacheNode) (io : Io) : Option CacheNode := do
  let info ← parseResponse (bufRecv io ++ io.memory.after) io.memory n.httpInfo
  return { n with httpInfo := { info with infoComplete := true } }

/-- The node of a server that has been read from, the header parsed from the first bytes. -/
def heard (n : CacheNode) (offset : Int) (io : Io) : Option CacheNode :=
  (n.filled offset io).bind fun n => if n.httpInfo.infoComplete then some n else n.headed io

end CacheNode

section

variable {s t u : ProxyState} {f c p : Nat} {io : Io}

/-! ### Updates -/

theorem session_eq_node (s : ProxyState) (f : Nat) : s.session f = (s.node f).session := rfl

theorem info_eq_content (s : ProxyState) (a : Nat) : (s.cache.nodes.cell a).httpInfo = (s.content a).httpInfo := rfl

theorem node_setFd (s : ProxyState) (f : Nat) {update : FdNode → FdNode}
    (links : ∀ n, (update n).unlinked = update n.unlinked := by intro _; rfl) :
    (s.setFd f update).node = Function.update s.node f (update (s.node f)) := by
  funext g
  rw [ProxyState.node, ProxyState.setFd, Heap.modify_cell, Function.update_apply]
  split
  · rename_i same
    rw [same, links]
    rfl
  · rfl

theorem content_setCache (s : ProxyState) (c : Nat) {update : CacheNode → CacheNode}
    (links : ∀ n, (update n).content = update n.content := by intro _; rfl) :
    (s.setCache c update).content = Function.update s.content c (update (s.content c)) := by
  funext a
  rw [ProxyState.content, ProxyState.setCache, Heap.modify_cell, Function.update_apply]
  split
  · rename_i same
    rw [same, links]
    rfl
  · rfl

@[simp] theorem node_setCache (s : ProxyState) (c : Nat) (update : CacheNode → CacheNode) :
    (s.setCache c update).node = s.node := rfl

@[simp] theorem content_setFd (s : ProxyState) (f : Nat) (update : FdNode → FdNode) :
    (s.setFd f update).content = s.content := rfl

@[simp] theorem node_touch (s : ProxyState) (c : Nat) : (s.touch c).node = s.node := by
  unfold ProxyState.touch
  split <;> rfl

@[simp] theorem content_touch (s : ProxyState) (c : Nat) : (s.touch c).content = s.content := by
  unfold ProxyState.touch
  split <;> rfl

@[simp] theorem sends_touch (s : ProxyState) (c : Nat) : (s.touch c).sends = s.sends := by
  unfold ProxyState.touch
  split <;> rfl

@[simp] theorem sends_setFd (s : ProxyState) (f : Nat) (update : FdNode → FdNode) : (s.setFd f update).sends = s.sends := rfl

@[simp] theorem sends_setCache (s : ProxyState) (c : Nat) (update : CacheNode → CacheNode) :
    (s.setCache c update).sends = s.sends := rfl

theorem content_of_cache (same : t.cache = s.cache) : t.content = s.content := by
  funext a
  rw [ProxyState.content, ProxyState.content, same]

theorem Quiet.entries (h : Quiet s t) : t.cache.entries = s.cache.entries := by
  have next : (fun a => (t.cache.nodes.cell a).next) = fun a => (s.cache.nodes.cell a).next := funext h.cacheNext
  rw [Cache.entries, Cache.entries, next, h.cacheTop, h.queue]

theorem Quiet.fds (h : Quiet s t) : t.fds = s.fds := by
  have next : (fun f => (t.fdNodes.cell f).next) = fun f => (s.fdNodes.cell f).next := funext h.fdNext
  rw [ProxyState.fds, ProxyState.fds, fdListNodes, fdListNodes, next, h.fdTop, h.fdList]

/-! ### Receiving -/

theorem chunk_of_received {received : List UInt8} (arrived : io.received = some received) :
    received.take maxDataSize = io.chunk := by
  rw [Io.chunk, arrived]
  rfl

theorem chunk_of_closed (closed : io.received = some []) : io.chunk = [] := by
  rw [Io.chunk, closed]
  rfl

theorem growBuffer_content (n : CacheNode) (offset : Int) (numbytes : Nat) (grown : Nat → UInt8) :
    growBuffer n.content offset numbytes grown = (growBuffer n offset numbytes grown).content := by
  unfold growBuffer
  split
  · rename_i full
    rw [if_pos (by exact full)]
    rfl
  · rename_i room
    rw [if_neg (by exact room)]

theorem recvToBuffer_content {received : List UInt8} (chunk : received = io.chunk)
    (h : recvToBuffer s f c received io = some t) :
    (s.content c).filled (s.node f).offset io = some (t.content c) ∧
      t.content = Function.update s.content c (t.content c) ∧
      t.node = Function.update s.node f { s.node f with offset := (s.node f).offset + io.chunk.length } ∧
      t.sends = s.sends := by
  subst chunk
  obtain ⟨buffer, copied, h⟩ := Option.bind_eq_some_iff.mp h
  obtain rfl := Option.some.inj h
  have same := growBuffer_content (s.cache.nodes.cell c) (s.fdNodes.cell f).offset io.chunk.length io.grown
  let size := (growBuffer (s.cache.nodes.cell c) (s.fdNodes.cell f).offset io.chunk.length io.grown).bufferSize
  have content : (s.setCache c fun n => { n with buffer := buffer, bufferSize := size }).content =
      Function.update s.content c { s.content c with buffer := buffer, bufferSize := size } := content_setCache s c
  refine ⟨?_, ?_, node_setFd _ f, rfl⟩
  · rw [content_setFd, content, Function.update_self]
    apply Option.bind_eq_some_iff.mpr
    refine ⟨buffer, ?_, ?_⟩
    · rw [← copied]
      have buffers := congrArg (fun n : CacheNode => copyToBuffer n.buffer (s.node f).offset io.chunk) same
      exact buffers
    · have sizes := congrArg (fun n : CacheNode => some { s.content c with buffer := buffer, bufferSize := n.bufferSize }) same
      exact sizes
  · rw [content_setFd, content, Function.update_self]

theorem cacheRecv_filled {n : Nat} (node : (s.session f).cacheNode = some c) (h : cacheRecv s f io = some (t, n)) :
    ∃ u, (s.content c).filled (s.node f).offset io = some (u.content c) ∧ Quiet s u ∧
      u.content = Function.update s.content c (u.content c) ∧
      u.node = Function.update s.node f { s.node f with offset := (s.node f).offset + io.chunk.length } ∧
      u.sends = s.sends ∧ u.session = s.session ∧
      ((s.session f).type = .client → t = u.setFd f fun n => { n with status := .idle, offset := 0 }) ∧
      ((s.session f).type = .server → ∃ w,
        (if (u.content c).httpInfo.infoComplete then some u else recvHeader u f c (bufRecv io) io) = some w ∧
        t = if io.chunk = [] then w.setFd f fun n => { n with status := .idle, offset := 0 } else w) := by
  obtain ⟨received, u, arrived, filled, client, server⟩ := cacheRecv_start node h
  have chunk := chunk_of_received arrived
  obtain ⟨quiet, sessions, _, _⟩ := recvToBuffer_effect filled
  obtain ⟨fill, content, nodes, sends⟩ := recvToBuffer_content chunk filled
  rw [content_touch] at fill content
  rw [node_touch] at fill nodes
  rw [session_touch] at sessions
  rw [sessions] at client server
  rw [chunk] at server
  exact ⟨u, fill, (Quiet.touch s c).trans quiet, content, nodes, sends.trans (sends_touch s c), sessions, client, server⟩

theorem parseClientRequest_content (h : parseClientRequest s c io = some t) :
    (s.content c).parsed io = some (t.content c) ∧ t.content = Function.update s.content c (t.content c) ∧
      t.node = s.node ∧ t.sends = s.sends := by
  obtain ⟨ended, searched, h⟩ := Option.bind_eq_some_iff.mp h
  split at h
  · rename_i found
    obtain ⟨info, parse, h⟩ := Option.bind_eq_some_iff.mp h
    obtain rfl := Option.some.inj h
    have content : (s.setCache c fun n => { n with httpInfo := info }).content =
        Function.update s.content c { s.content c with httpInfo := info } := content_setCache s c
    refine ⟨?_, ?_, rfl, rfl⟩
    · rw [content, Function.update_self]
      apply Option.bind_eq_some_iff.mpr
      refine ⟨ended, searched, ?_⟩
      rw [if_pos found]
      exact Option.bind_eq_some_iff.mpr ⟨info, parse, rfl⟩
    · rw [content, Function.update_self]
  · rename_i partially
    obtain rfl := Option.some.inj h
    refine ⟨?_, (Function.update_eq_self c s.content).symm, rfl, rfl⟩
    apply Option.bind_eq_some_iff.mpr
    refine ⟨ended, searched, ?_⟩
    rw [if_neg partially]
    rfl

theorem recvNotModified_content {info : HttpInfo} (h : recvNotModified s f info = some t) :
    ∃ b q date, (s.session f).backup = some b ∧ (s.session f).proxied = some q ∧
      (s.content b).httpInfo.date.strcpy info.date.bytes = some date ∧
      t.content = Function.update s.content b
        { s.content b with httpInfo := { (s.content b).httpInfo with date := date } } ∧
      t.node = Function.update (Function.update s.node q { s.node q with cacheNode := some b }) f
        { Function.update s.node q { s.node q with cacheNode := some b } f with status := .idle, offset := 0 } ∧
      t.sends = s.sends := by
  obtain ⟨b, backup, h⟩ := Option.bind_eq_some_iff.mp h
  obtain ⟨date, copied, h⟩ := Option.bind_eq_some_iff.mp h
  obtain ⟨q, proxied, h⟩ := Option.bind_eq_some_iff.mp h
  obtain rfl := Option.some.inj h
  rw [cache_touch] at copied
  refine ⟨b, q, date, backup, proxied, copied, ?_, ?_, ?_⟩
  · rw [content_setFd, content_setFd, content_setCache _ b, content_touch]
  · rw [node_setFd _ f, node_setFd _ q, node_setCache, node_touch, backup]
  · rw [sends_setFd, sends_setFd, sends_setCache, sends_touch]

/-- The date of the cached document `n` is now `date`. -/
def CacheNode.redated (n : CacheNode) (date : Field 30) : CacheNode :=
  { n with httpInfo := { n.httpInfo with date := date } }

theorem recvHeader_content (proxied : (s.session f).proxied = some p) (other : p ≠ f)
    (apart : ∀ b, (s.session f).backup = some b → b ≠ c) (incomplete : (s.content c).httpInfo.infoComplete = false)
    (h : recvHeader s f c (bufRecv io) io = some t) :
    ∃ n, (s.content c).headed io = some n ∧ t.sends = s.sends ∧
      (¬ NotModified s f c (bufRecv io) io ∧ t.node = s.node ∧ t.content = Function.update s.content c n ∨
        NotModified s f c (bufRecv io) io ∧ ∃ b date, (s.session f).backup = some b ∧
          (s.content b).httpInfo.date.strcpy n.httpInfo.date.bytes = some date ∧
          t.content = Function.update (Function.update s.content c n) b ((s.content b).redated date) ∧
          t.node = Function.update (Function.update s.node p { s.node p with cacheNode := some b }) f
            { s.node f with status := .idle, offset := 0 }) := by
  obtain ⟨info, parsed, h⟩ := Option.bind_eq_some_iff.mp h
  obtain ⟨found, searched, h⟩ := Option.bind_eq_some_iff.mp h
  have stored : (s.setCache c fun n => { n with httpInfo := info }).content =
      Function.update s.content c { s.content c with httpInfo := info } := content_setCache s c
  refine ⟨{ s.content c with httpInfo := { info with infoComplete := true } },
    Option.bind_eq_some_iff.mpr ⟨info, parsed, rfl⟩, ?_⟩
  split at h
  · rename_i conditional
    obtain ⟨u, answered, h⟩ := Option.bind_eq_some_iff.mp h
    obtain rfl := Option.some.inj h
    obtain ⟨b, q, date, backup, isClient, copied, content, nodes, sends⟩ := recvNotModified_content answered
    obtain rfl : q = p := Option.some.inj (isClient.symm.trans proxied)
    have bc : b ≠ c := apart b backup
    rw [stored, Function.update_of_ne bc] at content copied
    rw [node_setCache, Function.update_of_ne other.symm] at nodes
    refine ⟨sends, .inr ⟨⟨conditional.1, incomplete, info, parsed, conditional.2 ▸ searched⟩, b, date, backup, copied,
      ?_, nodes⟩⟩
    rw [content_setCache _ c, content, Function.update_of_ne bc.symm, Function.update_self,
      Function.update_comm bc, Function.update_idem]
    rfl
  · rename_i other
    obtain rfl := Option.some.inj h
    refine ⟨rfl, .inl ⟨?_, rfl, ?_⟩⟩
    · rintro ⟨flag, _, info', parsed', searched'⟩
      obtain rfl : info' = info := Option.some.inj (parsed'.symm.trans parsed)
      exact other ⟨flag, Option.some.inj (searched.symm.trans searched')⟩
    · rw [content_setCache _ c, stored, Function.update_self, Function.update_idem]

/-- What a read makes of a server: it goes on, the origin has closed, or it has answered with a 304. -/
inductive Heard (s t : ProxyState) (f c p : Nat) (io : Io) (n : CacheNode) : Prop where
  | more (arrived : io.chunk ≠ []) (modified : ¬ NotModified s f c (bufRecv io) io)
      (node : t.node = Function.update s.node f { s.node f with offset := (s.node f).offset + io.chunk.length })
      (content : t.content = Function.update s.content c n)
  | closed (ended : io.chunk = [])
      (node : t.node = Function.update s.node f { s.node f with status := .idle, offset := 0 })
      (content : t.content = Function.update s.content c n)
  | notModified {b : Nat} {date : Field 30} (same : NotModified s f c (bufRecv io) io)
      (backup : (s.session f).backup = some b)
      (copied : (s.content b).httpInfo.date.strcpy n.httpInfo.date.bytes = some date)
      (node : t.node = Function.update (Function.update s.node p { s.node p with cacheNode := some b }) f
        { s.node f with status := .idle, offset := 0 })
      (content : t.content = Function.update (Function.update s.content c n) b ((s.content b).redated date))

theorem filled_info {n m : CacheNode} {offset : Int} (h : n.filled offset io = some m) : m.httpInfo = n.httpInfo := by
  obtain ⟨_, _, h⟩ := Option.bind_eq_some_iff.mp h
  exact Option.some.inj h ▸ rfl

/-- A header without a CR is a copy of too many bytes. -/
theorem parseResponse_arrived {info info' : HttpInfo}
    (h : parseResponse (bufRecv io ++ io.memory.after) io.memory info = some info') : io.chunk ≠ [] := by
  intro empty
  obtain ⟨pos, found, h⟩ := Option.bind_eq_some_iff.mp h
  obtain ⟨status, copied, _⟩ := Option.bind_eq_some_iff.mp h
  have first : bufRecv io ++ io.memory.after = 0 :: (List.replicate 1499 0 ++ io.memory.after) := by
    rw [bufRecv, empty]
    rfl
  rw [first, strchr, if_neg (by decide), if_pos rfl] at found
  obtain rfl := Option.some.inj found
  have tooMany : ¬ (toSize (-1 - 9) ≤ 20 ∧ toSize (-1 - 9) ≤ ((bufRecv io ++ io.memory.after).drop 9).length) := by
    intro fits
    exact absurd fits.1 (by decide)
  rw [Field.memcpy, if_neg tooMany] at copied
  cases copied

theorem cacheRecv_heard {k : Nat} (node : (s.session f).cacheNode = some c) (type : (s.session f).type = .server)
    (proxied : (s.session f).proxied = some p) (other : p ≠ f)
    (apart : ∀ b, (s.session f).backup = some b → b ≠ c) (h : cacheRecv s f io = some (t, k)) :
    ∃ n, (s.content c).heard (s.node f).offset io = some n ∧ t.sends = s.sends ∧ Heard s t f c p io n := by
  obtain ⟨u, fill, _, content, nodes, sends, sessions, _, server⟩ := cacheRecv_filled node h
  obtain ⟨w, header, rfl⟩ := server type
  have info := filled_info fill
  have same : u.session f = s.session f := congrFun sessions f
  have notModified : NotModified u f c (bufRecv io) io ↔ NotModified s f c (bufRecv io) io := by
    rw [NotModified, NotModified, same, info_eq_content, info_eq_content, info]
  cases complete : (u.content c).httpInfo.infoComplete with
  | true =>
    rw [if_pos complete] at header
    obtain rfl := Option.some.inj header
    have modified : ¬ NotModified s f c (bufRecv io) io := by
      rintro ⟨_, incomplete, _⟩
      rw [info_eq_content, ← info, complete] at incomplete
      cases incomplete
    refine ⟨u.content c, Option.bind_eq_some_iff.mpr ⟨_, fill, if_pos complete⟩, ?_, ?_⟩
    · split
      · exact sends
      · exact sends
    · split
      · rename_i closed
        refine .closed closed ?_ content
        rw [node_setFd u f, nodes, Function.update_self, Function.update_idem]
      · rename_i arrived
        exact .more arrived modified nodes content
  | false =>
    rw [complete, if_neg Bool.false_ne_true] at header
    rw [← same] at proxied apart
    obtain ⟨n, headed, sends', either⟩ := recvHeader_content proxied other apart complete header
    have arrived : io.chunk ≠ [] := by
      obtain ⟨_, parsed, _⟩ := Option.bind_eq_some_iff.mp headed
      exact parseResponse_arrived parsed
    rw [if_neg arrived]
    refine ⟨n, Option.bind_eq_some_iff.mpr ⟨_, fill, ?_⟩, sends'.trans sends, ?_⟩
    · rw [complete, if_neg Bool.false_ne_true]
      exact headed
    · rw [notModified] at either
      rcases either with ⟨modified, node', content'⟩ | ⟨modified, b, date, backup, copied, content', node'⟩
      · refine .more arrived modified (node'.trans nodes) ?_
        rw [content', content, Function.update_idem]
      · have bc : b ≠ c := apart b backup
        rw [content, Function.update_of_ne bc] at copied content'
        rw [nodes, Function.update_of_ne other, Function.update_self] at node'
        refine .notModified modified (same ▸ backup) copied ?_ ?_
        · rw [node', Function.update_comm other, Function.update_idem, Function.update_comm other.symm]
        · rw [content', Function.update_idem]

/-! ### Sending -/

/-- What `send` returns to `cache_send`: at most what is left of the buffer, or -1. -/
def sentBytes (n : CacheNode) (offset : Int) (io : Io) : Int :=
  max (-1) (min io.sent (min (int32 (n.bufferSize - offset)) maxDataSize))

/-- The whole buffer has been sent, as `cache_send` sees it. -/
def SentAll (n : CacheNode) (offset : Int) : Prop := offset < 0 ∨ n.bufferSize ≤ offset

/-- The node asks the origin about a cached document. -/
def FdNode.Conditional (n : FdNode) : Prop := n.type = .server ∧ n.flag = 1

instance (n : FdNode) : Decidable n.Conditional := inferInstanceAs (Decidable (_ ∧ _))

/-- The length that `cache_send` asks for. -/
def askedSize (n : CacheNode) (offset : Int) : Int := min (int32 (n.bufferSize - offset)) maxDataSize

/-- What `cache_send` hands to `send`: the request for a cached document, or the buffer from the offset on. -/
structure SendMade (s : ProxyState) (f c : Nat) (io : Io) (send : Send) : Prop where
  size : send.size = askedSize (s.content c) (s.node f).offset
  numbytes : send.numbytes = sentBytes (s.content c) (s.node f).offset io
  plain : ¬ (s.node f).Conditional → send.array = (s.content c).buffer ∧ send.start = (s.node f).offset
  conditional : (s.node f).Conditional → ∃ b, (s.node f).cacheNodeBackup = some b ∧
    send.array = conditionalGet (s.content b).httpInfo ∧ send.start = 0

theorem sendSource_node {w : ProxyState} {array : List UInt8} {start : Int}
    (h : sendSource s f c = some (w, array, start)) :
    w.node = s.node ∧ w.content = s.content ∧ w.sends = s.sends ∧ w.cache = s.cache := by
  unfold sendSource at h
  dsimp only at h
  split at h
  · obtain ⟨b, _, h⟩ := Option.bind_eq_some_iff.mp h
    obtain ⟨rfl, _⟩ := Prod.mk.inj (Option.some.inj h)
    exact ⟨node_touch s b, content_touch s b, sends_touch s b, cache_touch s b⟩
  · obtain ⟨rfl, _⟩ := Prod.mk.inj (Option.some.inj h)
    exact ⟨rfl, rfl, rfl, rfl⟩

theorem sendSource_array {w : ProxyState} {array : List UInt8} {start : Int}
    (h : sendSource s f c = some (w, array, start)) :
    (¬ (s.node f).Conditional → array = (s.content c).buffer ∧ start = (s.node f).offset) ∧
      ((s.node f).Conditional → ∃ b, (s.node f).cacheNodeBackup = some b ∧
        array = conditionalGet (s.content b).httpInfo ∧ start = 0) := by
  unfold sendSource at h
  dsimp only at h
  split at h
  · rename_i conditional
    obtain ⟨b, backup, h⟩ := Option.bind_eq_some_iff.mp h
    obtain ⟨_, same⟩ := Prod.mk.inj (Option.some.inj h)
    obtain ⟨rfl, rfl⟩ := Prod.mk.inj same
    exact ⟨fun plain => absurd conditional plain, fun _ => ⟨b, backup, rfl, rfl⟩⟩
  · rename_i plain
    obtain ⟨_, same⟩ := Prod.mk.inj (Option.some.inj h)
    obtain ⟨rfl, rfl⟩ := Prod.mk.inj same
    exact ⟨fun _ => ⟨rfl, rfl⟩, fun conditional => absurd conditional plain⟩

theorem cacheSend_made (node : (s.session f).cacheNode = some c) (h : cacheSend s f io = some t) :
    ∃ send, SendMade s f c io send ∧ t.sends = s.sends ++ [send] ∧ t.content = s.content ∧ t.cache = s.cache ∧
      (SentAll (s.content c) ((s.node f).offset + send.numbytes) ∧
          t.node = Function.update s.node f { s.node f with offset := 0, status := .idle } ∨
        ¬ SentAll (s.content c) ((s.node f).offset + send.numbytes) ∧
          t.node = Function.update s.node f { s.node f with offset := (s.node f).offset + send.numbytes }) := by
  obtain ⟨d, found, h⟩ := Option.bind_eq_some_iff.mp h
  obtain rfl : d = c := Option.some.inj (found.symm.trans node)
  obtain ⟨⟨u, array, start⟩, source, h⟩ := Option.bind_eq_some_iff.mp h
  obtain ⟨nodes, content, sends, cache⟩ := sendSource_node source
  obtain ⟨plain, conditional⟩ := sendSource_array source
  rw [node_touch] at nodes plain conditional
  rw [content_touch] at content plain conditional
  rw [sends_touch] at sends
  rw [cache_touch] at cache h
  dsimp only at h
  rw [sends] at h
  let send : Send := .mk (s.node f).fd array start
    (askedSize (s.content d) (s.node f).offset) (sentBytes (s.content d) (s.node f).offset io)
  refine ⟨send, ⟨rfl, rfl, plain, conditional⟩, ?_⟩
  split at h
  · rename_i complete
    obtain rfl := Option.some.inj h
    refine ⟨rfl, content, cache, .inl ⟨complete, ?_⟩⟩
    rw [node_setFd _ f, ← nodes]
    rfl
  · rename_i partially
    obtain rfl := Option.some.inj h
    refine ⟨rfl, content, cache, .inr ⟨partially, ?_⟩⟩
    rw [node_setFd _ f]
    change Function.update u.node f { u.node f with offset := (s.node f).offset + send.numbytes } = _
    rw [nodes]

theorem cacheSend_node (node : (s.session f).cacheNode = some c) (h : cacheSend s f io = some t) :
    ∃ send : Send, send.numbytes = sentBytes (s.content c) (s.node f).offset io ∧ t.sends = s.sends ++ [send] ∧
      t.content = s.content ∧
      (SentAll (s.content c) ((s.node f).offset + send.numbytes) ∧
          t.node = Function.update s.node f { s.node f with offset := 0, status := .idle } ∨
        ¬ SentAll (s.content c) ((s.node f).offset + send.numbytes) ∧
          t.node = Function.update s.node f { s.node f with offset := (s.node f).offset + send.numbytes }) := by
  obtain ⟨send, made, sends, content, _, nodes⟩ := cacheSend_made node h
  exact ⟨send, made.numbytes, sends, content, nodes⟩

/-! ### The descriptor list -/

section

variable {front rear : Nat} {xs : List Nat}

theorem FdRep.mem_fds {s : ProxyState} (rep : FdRep s.fdNodes s.fdList front xs rear) {g : Nat} :
    g ∈ s.fds ↔ g = front ∨ g ∈ xs ∨ g = rear := by
  rw [ProxyState.fds, rep.nodes_eq, List.cons_append, List.mem_cons, List.mem_append, List.mem_singleton]

theorem appendFd_node {node : FdNode} (rep : FdRep s.fdNodes s.fdList front xs rear) (h : appendFd s node = some t) :
    t.node = Function.update s.node s.fdNodes.top node.unlinked ∧ t.sends = s.sends ∧
      (∀ g, g ∈ t.fds ↔ g ∈ s.fdNodes.top :: s.fds) ∧ t.fdNodes.top = s.fdNodes.top + 1 := by
  obtain ⟨rep', _⟩ := appendFd_effect rep h
  obtain ⟨nodes, appended, h⟩ := Option.bind_eq_some_iff.mp h
  obtain rfl := Option.some.inj h
  have fresh : s.fdNodes.top ∉ front :: xs ++ [rear] := fun member => Nat.lt_irrefl _ (rep.allocated _ member)
  obtain ⟨nodes', same, _, top, unlinked⟩ := fdListAppend_spec (rep.alloc node) fresh (Nat.lt_succ_self _)
  obtain rfl : nodes' = nodes := Option.some.inj (same.symm.trans appended)
  refine ⟨funext fun g => (unlinked g).trans ?_, rfl, fun g => ?_, top⟩
  · rw [Function.update_apply]
    exact apply_ite FdNode.unlinked _ _ _
  · rw [rep'.mem_fds, List.mem_cons, rep.mem_fds, List.mem_append, List.mem_singleton]
    tauto

theorem removeFd_node (rep : FdRep s.fdNodes s.fdList front xs rear) (inside : f ∈ xs) (h : removeFd s f = some t) :
    t.node = s.node ∧ t.sends = s.sends ∧ (∀ g, g ∈ t.fds ↔ g ∈ s.fds.filter (· ≠ f)) ∧
      t.fdNodes.top = s.fdNodes.top := by
  obtain ⟨rep', _⟩ := removeFd_effect rep inside h
  obtain ⟨nodes, removed, h⟩ := Option.bind_eq_some_iff.mp h
  obtain rfl := Option.some.inj h
  obtain ⟨nodes', same, _, top, unlinked⟩ := fdListRemove_spec rep inside
  obtain rfl : nodes' = nodes := Option.some.inj (same.symm.trans removed)
  obtain ⟨distinct, _, notRear⟩ := List.nodup_append.mp rep.links.nodup
  obtain ⟨notFront, distinct⟩ := List.nodup_cons.mp distinct
  refine ⟨funext unlinked, rfl, fun g => ?_, top⟩
  rw [rep'.mem_fds, List.mem_filter, rep.mem_fds, distinct.mem_erase_iff, decide_eq_true_eq]
  constructor
  · rintro (rfl | ⟨other, member⟩ | rfl)
    · exact ⟨.inl rfl, fun same => notFront (same ▸ inside)⟩
    · exact ⟨.inr (.inl member), other⟩
    · exact ⟨.inr (.inr rfl), fun same => notRear f (List.mem_cons_of_mem _ inside) g List.mem_cons_self same.symm⟩
  · rintro ⟨rfl | member | rfl, other⟩
    · exact .inl rfl
    · exact .inr (.inl ⟨other, member⟩)
    · exact .inr (.inr rfl)

/-- A server that has been connected for the client `f`, and not asked. -/
def FdNode.server (fd : Int) (f c : Nat) (hit : Option Nat) : FdNode :=
  { newFdNode none none fd .server .writing (some c) with
    proxied := some f
    cacheNodeBackup := hit
    flag := if hit.isSome then 1 else 2 }

theorem connectServer_node {fd : Int} (rep : FdRep s.fdNodes s.fdList front xs rear)
    (h : connectServer s f c fd = some t) :
    t.node = Function.update (Function.update s.node f { s.node f with proxied := some s.fdNodes.top })
        s.fdNodes.top (.server fd f c (isCacheHit s.cache (s.content c).httpInfo)) ∧
      t.sends = s.sends ∧ (∀ g, g ∈ t.fds ↔ g ∈ s.fdNodes.top :: s.fds) ∧ t.fdNodes.top = s.fdNodes.top + 1 := by
  obtain ⟨u, appended, h⟩ := Option.bind_eq_some_iff.mp h
  have proxied : Quiet s (s.setFd f fun n => { n with proxied := some s.fdNodes.top }) := Quiet.setFd s f
  have rep' := proxied.fdRep rep
  obtain ⟨_, _, cache, _⟩ := appendFd_effect rep' appended
  obtain ⟨nodes, sends, fds, top⟩ := appendFd_node rep' appended
  rw [node_setFd s f] at nodes
  change u.node = Function.update _ s.fdNodes.top (FdNode.unlinked _) at nodes
  rw [proxied.fds] at fds
  change ∀ g, g ∈ u.fds ↔ g ∈ s.fdNodes.top :: s.fds at fds
  rw [cache_setFd] at cache
  rw [cache] at h
  rw [← info_eq_content]
  cases hit : isCacheHit s.cache (s.cache.nodes.cell c).httpInfo with
  | none =>
    rw [hit] at h
    obtain rfl := Option.some.inj h
    refine ⟨?_, sends, fun g => ?_, top⟩
    · rw [node_setFd u, nodes, Function.update_self, Function.update_idem]
      rfl
    · rw [(Quiet.setFd u _).fds]
      exact fds g
  | some a =>
    rw [hit] at h
    obtain rfl := Option.some.inj h
    refine ⟨?_, sends, fun g => ?_, top⟩
    · rw [node_setFd u, nodes, Function.update_self, Function.update_idem]
      rfl
    · rw [(Quiet.setFd u _).fds]
      exact fds g

end

/-! ### The queue -/

theorem isCacheHit_congr {c c' : Cache} {i j : HttpInfo} (entries : c'.entries = c.entries)
    (docs : ∀ a ∈ c.entries, (c'.nodes.cell a).httpInfo.doc = (c.nodes.cell a).httpInfo.doc)
    (host : i.doc.host = j.doc.host) (path : i.doc.path = j.doc.path) : isCacheHit c' i = isCacheHit c j := by
  change i.host.str = j.host.str at host
  change i.path.str = j.path.str at path
  rw [isCacheHit, isCacheHit, entries]
  refine List.find?_congr fun a member => ?_
  obtain ⟨sameHost, samePath, complete⟩ := Doc.mk.inj (docs a member)
  simp only [Field.str] at sameHost samePath host path ⊢
  simp only [sameHost, samePath, complete, host, path]

theorem cacheEnqueue_content {cache : Cache} {xs : List Nat} (rep : QueueRep s.cache xs) (two : 2 ≤ xs.length)
    (fresh : c ∉ xs) (allocated : c < s.cache.nodes.top) (live : c ∉ s.cache.nodes.freed)
    (h : cacheEnqueue s.cache c = some cache) :
    ∃ rest r, xs = rest ++ [r] ∧ cache.entries = c :: rest ∧
      (∀ a, a ∉ cache.nodes.freed → (cache.nodes.cell a).content = s.content a) ∧
      (∀ a, (cache.nodes.cell a).bufferSize = (s.content a).bufferSize) ∧
      ∀ a, (cache.nodes.cell a).httpInfo = (s.content a).httpInfo := by
  obtain ⟨rest, r, queue⟩ : ∃ rest r, xs = rest ++ [r] := by
    rcases List.eq_nil_or_concat xs with none | ⟨rest, r, shape⟩
    · rw [none] at two
      exact absurd two (by decide)
    · exact ⟨rest, r, by rw [shape, List.concat_eq_append]⟩
  obtain ⟨ys, p, rfl⟩ : ∃ ys p, rest = ys ++ [p] := by
    rcases List.eq_nil_or_concat rest with rfl | ⟨ys, p, shape⟩
    · rw [queue, List.nil_append, List.length_singleton] at two
      exact absurd two (by decide)
    · exact ⟨ys, p, by rw [shape, List.concat_eq_append]⟩
  have shape := queue
  rw [List.append_assoc] at shape
  rw [shape] at rep fresh
  obtain ⟨cache', same, rep', kept, _, _⟩ := cacheEnqueue_spec rep fresh allocated live
  obtain rfl : cache' = cache := Option.some.inj (same.symm.trans h)
  refine ⟨ys ++ [p], r, queue, rep'.entries_eq, fun a notFreed => ?_, kept.bufferSize, kept.info⟩
  have parts : ∀ n : CacheNode,
      n.content = CacheNode.mk none none n.buffer n.bufferSize n.httpInfo n.status := fun _ => rfl
  rw [ProxyState.content, parts, parts, kept.buffer a notFreed, kept.bufferSize, kept.info, kept.status]

theorem printFdNodes_node {fs : List Nat} (h : fs.foldlM printFdNode s = some t) :
    t.node = s.node ∧ t.content = s.content ∧ t.sends = s.sends := by
  induction fs generalizing s with
  | nil =>
    obtain rfl := Option.some.inj h
    exact ⟨rfl, rfl, rfl⟩
  | cons f fs ih =>
    rw [List.foldlM_cons] at h
    obtain ⟨u, printed, h⟩ := Option.bind_eq_some_iff.mp h
    obtain ⟨nodes, content, sends⟩ := ih h
    rcases printFdNode_effect printed with rfl | ⟨c, _, rfl⟩
    · exact ⟨nodes, content, sends⟩
    · exact ⟨nodes.trans (node_touch s c), content.trans (content_touch s c), sends.trans (sends_touch s c)⟩

end

end NetProjects.Proxy
