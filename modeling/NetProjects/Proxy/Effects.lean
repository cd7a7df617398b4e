import NetProjects.Proxy.Sessions

/-!
# What the handlers do to the sessions

The effect of each part of the handlers on what a session depends on: type, status and references of
the nodes, and URL and completeness of the documents. `Quiet` says that the lists and the heaps stay.
-/

namespace NetProjects.Proxy
open Bytes Linked

/-- What a node of the list is doing. -/
structure Session where
  type : FdType
  status : NodeStatus
  proxied : Option Nat
  cacheNode : Option Nat
  backup : Option Nat
  flag : Nat

def FdNode.session (n : FdNode) : Session :=
  { type := n.type, status := n.status, proxied := n.proxied, cacheNode := n.cacheNode
    backup := n.cacheNodeBackup, flag := n.flag }

def HttpInfo.doc (i : HttpInfo) : Doc := { host := i.host.str, path := i.path.str, complete := i.infoComplete }

def ProxyState.session (s : ProxyState) (f : Nat) : Session := (s.fdNodes.cell f).session

def ProxyState.doc (s : ProxyState) (a : Nat) : Doc := (s.cache.nodes.cell a).httpInfo.doc

/-- The descriptor list, the queue and the allocations are the same. -/
structure Quiet (s t : ProxyState) : Prop where
  fdList : t.fdList = s.fdList
  fdTop : t.fdNodes.top = s.fdNodes.top
  fdPrev : ∀ f, (t.fdNodes.cell f).prev = (s.fdNodes.cell f).prev
  fdNext : ∀ f, (t.fdNodes.cell f).next = (s.fdNodes.cell f).next
  queue : t.cache.queue = s.cache.queue
  cacheTop : t.cache.nodes.top = s.cache.nodes.top
  freed : t.cache.nodes.freed = s.cache.nodes.freed
  cachePrev : ∀ a, (t.cache.nodes.cell a).prev = (s.cache.nodes.cell a).prev
  cacheNext : ∀ a, (t.cache.nodes.cell a).next = (s.cache.nodes.cell a).next
  status : ∀ a, (t.cache.nodes.cell a).status = (s.cache.nodes.cell a).status

section

variable {s t u : ProxyState} {f g c : Nat} {io : Io}

namespace Quiet

theorem refl (s : ProxyState) : Quiet s s :=
  ⟨rfl, rfl, fun _ => rfl, fun _ => rfl, rfl, rfl, rfl, fun _ => rfl, fun _ => rfl, fun _ => rfl⟩

theorem trans (h : Quiet s t) (h' : Quiet t u) : Quiet s u :=
  ⟨h'.fdList.trans h.fdList, h'.fdTop.trans h.fdTop, fun f => (h'.fdPrev f).trans (h.fdPrev f),
    fun f => (h'.fdNext f).trans (h.fdNext f), h'.queue.trans h.queue, h'.cacheTop.trans h.cacheTop,
    h'.freed.trans h.freed, fun a => (h'.cachePrev a).trans (h.cachePrev a),
    fun a => (h'.cacheNext a).trans (h.cacheNext a), fun a => (h'.status a).trans (h.status a)⟩

theorem touch (s : ProxyState) (c : Nat) : Quiet s (s.touch c) := by
  unfold ProxyState.touch
  split <;> exact ⟨rfl, rfl, fun _ => rfl, fun _ => rfl, rfl, rfl, rfl, fun _ => rfl, fun _ => rfl, fun _ => rfl⟩

theorem sent (s : ProxyState) (sends : List Send) : Quiet s { s with sends := sends } :=
  ⟨rfl, rfl, fun _ => rfl, fun _ => rfl, rfl, rfl, rfl, fun _ => rfl, fun _ => rfl, fun _ => rfl⟩

theorem setFd (s : ProxyState) (f : Nat) {g : FdNode → FdNode} (prev : ∀ n, (g n).prev = n.prev := by intro _; rfl)
    (next : ∀ n, (g n).next = n.next := by intro _; rfl) : Quiet s (s.setFd f g) :=
  ⟨rfl, rfl, fun b => s.fdNodes.modify_field f b g FdNode.prev prev,
    fun b => s.fdNodes.modify_field f b g FdNode.next next, rfl, rfl, rfl, fun _ => rfl, fun _ => rfl, fun _ => rfl⟩

theorem setCache (s : ProxyState) (c : Nat) {g : CacheNode → CacheNode}
    (prev : ∀ n, (g n).prev = n.prev := by intro _; rfl) (next : ∀ n, (g n).next = n.next := by intro _; rfl)
    (status : ∀ n, (g n).status = n.status := by intro _; rfl) : Quiet s (s.setCache c g) :=
  ⟨rfl, rfl, fun _ => rfl, fun _ => rfl, rfl, rfl, rfl, fun b => s.cache.nodes.modify_field c b g CacheNode.prev prev,
    fun b => s.cache.nodes.modify_field c b g CacheNode.next next,
    fun b => s.cache.nodes.modify_field c b g CacheNode.status status⟩

theorem fdRep {front rear : Nat} {xs : List Nat} (h : Quiet s t) (rep : FdRep s.fdNodes s.fdList front xs rear) :
    FdRep t.fdNodes t.fdList front xs rear := by
  refine ⟨?_, fun f member => (rep.allocated f member).trans_eq h.fdTop.symm⟩
  rw [h.fdList]
  exact rep.links.congr (fun f _ => h.fdNext f) (fun f _ => h.fdPrev f)

theorem queueRep {xs : List Nat} (h : Quiet s t) (rep : QueueRep s.cache xs) : QueueRep t.cache xs := by
  refine ⟨?_, fun a member => (rep.allocated a member).trans_eq h.cacheTop.symm, fun a member => ?_⟩
  · rw [h.queue]
    exact rep.links.congr (fun a _ => h.cacheNext a) (fun a _ => h.cachePrev a)
  · rw [h.freed]
    exact rep.live a member

end Quiet

/-! ### Sessions and documents after an update -/

theorem session_setFd (s : ProxyState) (f : Nat) (update : FdNode → FdNode) :
    (s.setFd f update).session = Function.update s.session f (update (s.fdNodes.cell f)).session := by
  funext g
  rw [ProxyState.session, ProxyState.setFd, Heap.modify_cell, Function.update_apply]
  split
  · rename_i same
    rw [same]
  · rfl

theorem doc_setCache (s : ProxyState) (c : Nat) (update : CacheNode → CacheNode) :
    (s.setCache c update).doc = Function.update s.doc c (update (s.cache.nodes.cell c)).httpInfo.doc := by
  funext a
  rw [ProxyState.doc, ProxyState.setCache, Heap.modify_cell, Function.update_apply]
  split
  · rename_i same
    rw [same]
  · rfl

theorem doc_setCache_same {s : ProxyState} {c : Nat} {update : CacheNode → CacheNode}
    (same : (update (s.cache.nodes.cell c)).httpInfo.doc = s.doc c) : (s.setCache c update).doc = s.doc := by
  rw [doc_setCache, same, Function.update_eq_self]

@[simp] theorem session_touch (s : ProxyState) (c : Nat) : (s.touch c).session = s.session := by
  unfold ProxyState.touch
  split <;> rfl

@[simp] theorem doc_touch (s : ProxyState) (c : Nat) : (s.touch c).doc = s.doc := by
  unfold ProxyState.touch
  split <;> rfl

@[simp] theorem cache_touch (s : ProxyState) (c : Nat) : (s.touch c).cache = s.cache := by
  unfold ProxyState.touch
  split <;> rfl

@[simp] theorem session_setCache (s : ProxyState) (c : Nat) (update : CacheNode → CacheNode) :
    (s.setCache c update).session = s.session := rfl

@[simp] theorem doc_setFd (s : ProxyState) (f : Nat) (update : FdNode → FdNode) :
    (s.setFd f update).doc = s.doc := rfl

@[simp] theorem cache_setFd (s : ProxyState) (f : Nat) (update : FdNode → FdNode) : (s.setFd f update).cache = s.cache := rfl

theorem info_setCache (s : ProxyState) (c a : Nat) {update : CacheNode → CacheNode}
    (same : ∀ n, (update n).httpInfo = n.httpInfo) :
    ((s.setCache c update).cache.nodes.cell a).httpInfo = (s.cache.nodes.cell a).httpInfo :=
  s.cache.nodes.modify_field c a update CacheNode.httpInfo same

theorem stale_touch (s : ProxyState) (c : Nat) :
    (s.touch c).stale = if c ∈ s.cache.nodes.freed then s.stale ++ [c] else s.stale := by
  unfold ProxyState.touch
  split <;> rfl

/-- Every access to a freed cache node since `s` goes through the node `f`. -/
def Accessed (s t : ProxyState) (f : Nat) : Prop :=
  ∀ a ∈ t.stale, a ∈ s.stale ∨
    a ∈ s.cache.nodes.freed ∧ ((s.session f).cacheNode = some a ∨ (s.session f).backup = some a)

theorem accessed_of_stale (same : t.stale = s.stale) (f : Nat) : Accessed s t f :=
  fun _ member => .inl (same ▸ member)

theorem mem_stale_touch {a : Nat} (member : a ∈ (s.touch c).stale) : a ∈ s.stale ∨ a ∈ s.cache.nodes.freed ∧ a = c := by
  rw [stale_touch] at member
  split at member
  · rename_i freed
    rcases List.mem_append.mp member with old | here
    · exact .inl old
    · obtain rfl := List.mem_singleton.mp here
      exact .inr ⟨freed, rfl⟩
  · exact .inl member

theorem accessed_touch (referred : (s.session f).cacheNode = some c ∨ (s.session f).backup = some c) :
    Accessed s (s.touch c) f := by
  intro a member
  refine (mem_stale_touch member).imp_right fun ⟨freed, same⟩ => ⟨freed, ?_⟩
  rw [same]
  exact referred

theorem Accessed.trans (h : Accessed s t f) (h' : Accessed t u f) (freed : t.cache.nodes.freed = s.cache.nodes.freed)
    (node : (t.session f).cacheNode = (s.session f).cacheNode) (backup : (t.session f).backup = (s.session f).backup) :
    Accessed s u f := by
  intro a member
  rcases h' a member with old | ⟨dead, referred⟩
  · exact h a old
  · rw [freed] at dead
    rw [node, backup] at referred
    exact .inr ⟨dead, referred⟩

/-! ### Receiving -/

theorem recvToBuffer_effect {received : List UInt8} (h : recvToBuffer s f c received io = some t) :
    Quiet s t ∧ t.session = s.session ∧ t.stale = s.stale ∧
      ∀ a, (t.cache.nodes.cell a).httpInfo = (s.cache.nodes.cell a).httpInfo := by
  obtain ⟨buffer, _, h⟩ := Option.bind_eq_some_iff.mp h
  obtain rfl := Option.some.inj h
  refine ⟨(Quiet.setCache s c).trans (Quiet.setFd _ f), ?_, rfl, fun a => ?_⟩
  · rw [session_setFd]
    exact Function.update_eq_self f s.session
  · rw [cache_setFd]
    apply info_setCache
    exact fun _ => rfl

theorem doc_of_info (same : ∀ a, (t.cache.nodes.cell a).httpInfo = (s.cache.nodes.cell a).httpInfo) : t.doc = s.doc :=
  funext fun a => congrArg HttpInfo.doc (same a)

def Session.idle (n : Session) : Session := { n with status := .idle }

theorem session_setFd_idle (s : ProxyState) (f : Nat) :
    (s.setFd f fun n => { n with status := .idle, offset := 0 }).session =
      Function.update s.session f (s.session f).idle :=
  session_setFd s f _

theorem Quiet.setFd_idle (s : ProxyState) (f : Nat) :
    Quiet s (s.setFd f fun n => { n with status := .idle, offset := 0 }) :=
  Quiet.setFd s f

/-- The first part of `cache_recv`: the cache node is accessed and filled. -/
theorem cacheRecv_start {n : Nat} (node : (s.session f).cacheNode = some c) (h : cacheRecv s f io = some (t, n)) :
    ∃ received u, io.received = some received ∧
      recvToBuffer (s.touch c) f c (received.take maxDataSize) io = some u ∧
      ((u.session f).type = .client → t = u.setFd f fun n => { n with status := .idle, offset := 0 }) ∧
      ((u.session f).type = .server → ∃ w,
        (if (u.cache.nodes.cell c).httpInfo.infoComplete then some u
          else recvHeader u f c (memcpy (List.replicate maxDataSize 0) 0 (received.take maxDataSize)) io) = some w ∧
        t = if received.take maxDataSize = [] then w.setFd f fun n => { n with status := .idle, offset := 0 }
          else w) := by
  obtain ⟨received, arrived, h⟩ := Option.bind_eq_some_iff.mp h
  obtain ⟨d, found, h⟩ := Option.bind_eq_some_iff.mp h
  obtain rfl : d = c := Option.some.inj (found.symm.trans node)
  obtain ⟨u, filled, h⟩ := Option.bind_eq_some_iff.mp h
  refine ⟨received, u, arrived, filled, fun type => ?_, fun type => ?_⟩
  · change (u.fdNodes.cell f).type = .client at type
    simp only [type] at h
    exact (Prod.mk.inj (Option.some.inj h)).1.symm
  · change (u.fdNodes.cell f).type = .server at type
    simp only [type] at h
    obtain ⟨w, parsed, h⟩ := Option.bind_eq_some_iff.mp h
    exact ⟨w, parsed, (Prod.mk.inj (Option.some.inj h)).1.symm⟩

theorem cacheRecv_client {n : Nat} (node : (s.session f).cacheNode = some c) (type : (s.session f).type = .client)
    (h : cacheRecv s f io = some (t, n)) :
    Quiet s t ∧ t.session = Function.update s.session f (s.session f).idle ∧ t.doc = s.doc ∧ Accessed s t f := by
  obtain ⟨received, u, _, filled, ended, _⟩ := cacheRecv_start node h
  obtain ⟨quiet, sessions, stale, info⟩ := recvToBuffer_effect filled
  rw [session_touch] at sessions
  obtain rfl := ended ((congrArg Session.type (congrFun sessions f)).trans type)
  refine ⟨((Quiet.touch s c).trans quiet).trans (Quiet.setFd_idle u f), ?_, ?_, fun a member => ?_⟩
  · rw [session_setFd_idle, sessions]
  · rw [doc_setFd, doc_of_info info, doc_touch]
  · exact accessed_touch (.inl node) a (stale ▸ member)

theorem recvNotModified_effect {info : HttpInfo} (h : recvNotModified s f info = some t) :
    ∃ b p, (s.session f).backup = some b ∧ (s.session f).proxied = some p ∧ Quiet s t ∧ t.doc = s.doc ∧
      t.stale = (s.touch b).stale ∧
      t.session = Function.update (Function.update s.session p { s.session p with cacheNode := some b }) f
        (Function.update s.session p { s.session p with cacheNode := some b } f).idle := by
  obtain ⟨b, backup, h⟩ := Option.bind_eq_some_iff.mp h
  obtain ⟨date, _, h⟩ := Option.bind_eq_some_iff.mp h
  obtain ⟨p, proxied, h⟩ := Option.bind_eq_some_iff.mp h
  obtain rfl := Option.some.inj h
  refine ⟨b, p, backup, proxied, ?_, ?_, rfl, ?_⟩
  · exact (((Quiet.touch s b).trans (Quiet.setCache _ b)).trans (Quiet.setFd _ p)).trans (Quiet.setFd_idle _ f)
  · rw [doc_setFd, doc_setFd, doc_setCache_same rfl, doc_touch]
  · have swapped : ∀ u : ProxyState, u.session = s.session →
        (u.setFd p fun n => { n with cacheNode := (s.fdNodes.cell f).cacheNodeBackup }).session =
          Function.update s.session p { s.session p with cacheNode := some b } := by
      intro u same
      rw [session_setFd, same, ← backup, ← same]
      rfl
    rw [session_setFd_idle, swapped _ ((session_setCache _ _ _).trans (session_touch s b))]

/-- The bytes `bufRecv` answer the conditional get of `f` with a 304. -/
def NotModified (s : ProxyState) (f c : Nat) (bufRecv : List UInt8) (io : Io) : Prop :=
  (s.session f).flag = 1 ∧ (s.cache.nodes.cell c).httpInfo.infoComplete = false ∧
    ∃ info, parseResponse (bufRecv ++ io.memory.after) io.memory (s.cache.nodes.cell c).httpInfo = some info ∧
      strstrLit info.status.bytes (cstr "304") = some true

/-- Reading from the server `f` ends its response: the origin has closed, or answered with a 304. -/
def EndsResponse (s : ProxyState) (f : Nat) (io : Io) : Prop :=
  ∃ received c, io.received = some received ∧ (s.session f).cacheNode = some c ∧
    (received.take maxDataSize = [] ∨
      NotModified s f c (memcpy (List.replicate maxDataSize 0) 0 (received.take maxDataSize)) io)

/-- The sessions when the client `p` of `f` has been given the cached document `b`. -/
def ProxyState.swapped (s : ProxyState) (f p b : Nat) : Nat → Session :=
  Function.update (Function.update s.session p { s.session p with cacheNode := some b }) f (s.session f).idle

theorem recvHeader_effect {p : Nat} {bufRecv : List UInt8} (proxied : (s.session f).proxied = some p) (other : p ≠ f)
    (incomplete : (s.cache.nodes.cell c).httpInfo.infoComplete = false) (h : recvHeader s f c bufRecv io = some t) :
    Quiet s t ∧ t.doc = Function.update s.doc c { s.doc c with complete := true } ∧
      (t.session = s.session ∧ t.stale = s.stale ∨ NotModified s f c bufRecv io ∧
        ∃ b, (s.session f).backup = some b ∧ t.session = s.swapped f p b ∧ t.stale = (s.touch b).stale) := by
  obtain ⟨info, parsed, h⟩ := Option.bind_eq_some_iff.mp h
  obtain ⟨found, searched, h⟩ := Option.bind_eq_some_iff.mp h
  obtain ⟨host, path, complete⟩ := parseResponse_same parsed
  have stored : Quiet s (s.setCache c fun n => { n with httpInfo := info }) := Quiet.setCache s c
  have docs : (s.setCache c fun n => { n with httpInfo := info }).doc = s.doc := by
    apply doc_setCache_same
    simp only [HttpInfo.doc, Field.str, host, path, complete, ProxyState.doc]
  have finished : ∀ u : ProxyState,
      Quiet u (u.setCache c fun n => { n with httpInfo := { n.httpInfo with infoComplete := true } }) :=
    fun u => Quiet.setCache u c
  have completed : ∀ u : ProxyState, u.doc = s.doc →
      (u.setCache c fun n => { n with httpInfo := { n.httpInfo with infoComplete := true } }).doc =
        Function.update s.doc c { s.doc c with complete := true } := by
    intro u same
    rw [doc_setCache, ← same]
    rfl
  split at h
  · rename_i conditional
    obtain ⟨u, answered, h⟩ := Option.bind_eq_some_iff.mp h
    obtain rfl := Option.some.inj h
    obtain ⟨b, q, backup, isClient, quiet, same, stale, sessions⟩ := recvNotModified_effect answered
    obtain rfl : q = p := Option.some.inj (isClient.symm.trans proxied)
    refine ⟨(stored.trans quiet).trans (finished u), completed u (same.trans docs), .inr ⟨?_, b, backup, ?_, ?_⟩⟩
    · exact ⟨conditional.1, incomplete, info, parsed, conditional.2 ▸ searched⟩
    · rw [session_setCache, sessions, session_setCache, ProxyState.swapped, Function.update_of_ne other.symm]
    · exact stale.trans ((stale_touch _ b).trans (stale_touch s b).symm)
  · obtain rfl := Option.some.inj h
    exact ⟨stored.trans (finished _), completed _ docs, .inl ⟨rfl, rfl⟩⟩

/-- A server that has been read from: its document is complete, and either it goes on, or the
response has ended, for a 304 with the cached document given to the client. -/
theorem cacheRecv_server {n p : Nat} (node : (s.session f).cacheNode = some c) (type : (s.session f).type = .server)
    (proxied : (s.session f).proxied = some p) (other : p ≠ f) (h : cacheRecv s f io = some (t, n)) :
    Quiet s t ∧ t.doc = Function.update s.doc c { s.doc c with complete := true } ∧ Accessed s t f ∧
      (t.session = s.session ∨ EndsResponse s f io ∧
        (t.session = Function.update s.session f (s.session f).idle ∨
          ∃ b, (s.session f).backup = some b ∧ t.session = s.swapped f p b)) := by
  obtain ⟨received, u, arrived, filled, _, ended⟩ := cacheRecv_start node h
  obtain ⟨quiet, sessions, stale, info⟩ := recvToBuffer_effect filled
  rw [session_touch] at sessions
  rw [cache_touch] at info
  obtain ⟨w, parsed, rfl⟩ := ended ((congrArg Session.type (congrFun sessions f)).trans type)
  have first : Quiet s u := (Quiet.touch s c).trans quiet
  have accessed : Accessed s u f := fun a member => accessed_touch (.inl node) a (stale ▸ member)
  have header : Quiet s w ∧ w.doc = Function.update s.doc c { s.doc c with complete := true } ∧ Accessed s w f ∧
      (w.session = s.session ∨ EndsResponse s f io ∧
        ∃ b, (s.session f).backup = some b ∧ w.session = s.swapped f p b) := by
    split at parsed
    · rename_i complete
      obtain rfl := Option.some.inj parsed
      have same : s.doc c = { s.doc c with complete := true } := by
        rw [info] at complete
        rw [← complete]
        rfl
      refine ⟨first, ?_, accessed, .inl sessions⟩
      rw [← same, Function.update_eq_self, doc_of_info info]
    · rename_i incomplete
      rw [Bool.not_eq_true] at incomplete
      have same : u.session f = s.session f := congrFun sessions f
      obtain ⟨quiet', docs, either⟩ := recvHeader_effect (same ▸ proxied) other incomplete parsed
      rw [doc_of_info info] at docs
      refine ⟨first.trans quiet', docs, ?_⟩
      rcases either with ⟨unchanged, stale'⟩ | ⟨⟨flag, incomplete', notModified⟩, b, backup, swapped, stale'⟩
      · exact ⟨fun a member => accessed a (stale' ▸ member), .inl (unchanged.trans sessions)⟩
      · have touched : Accessed u w f := fun a member => accessed_touch (.inr backup) a (stale' ▸ member)
        rw [same] at flag backup
        rw [info] at incomplete' notModified
        refine ⟨accessed.trans touched first.freed (congrArg Session.cacheNode same) (congrArg Session.backup same),
          .inr ⟨⟨received, c, arrived, node, .inr ⟨flag, incomplete', notModified⟩⟩, b, backup, ?_⟩⟩
        rw [swapped, ProxyState.swapped, ProxyState.swapped, sessions]
  obtain ⟨quietHeader, docs, accessedHeader, sessionsHeader⟩ := header
  split
  · rename_i closed
    refine ⟨quietHeader.trans (Quiet.setFd_idle w f), docs, accessedHeader, .inr ⟨?_, ?_⟩⟩
    · exact ⟨received, c, arrived, node, .inl closed⟩
    · rw [session_setFd_idle]
      rcases sessionsHeader with unchanged | ⟨_, b, backup, swapped⟩
      · exact .inl (by rw [unchanged])
      · refine .inr ⟨b, backup, ?_⟩
        -- The node is idle already.
        rw [swapped, ProxyState.swapped, Function.update_self, Function.update_idem]
        rfl
  · refine ⟨quietHeader, docs, accessedHeader, ?_⟩
    rcases sessionsHeader with unchanged | ⟨ends, b, backup, swapped⟩
    · exact .inl unchanged
    · exact .inr ⟨ends, .inr ⟨b, backup, swapped⟩⟩

/-! ### Sending -/

theorem sendSource_effect {u : ProxyState} {array : List UInt8} {start : Int}
    (h : sendSource s f c = some (u, array, start)) :
    Quiet s u ∧ u.session = s.session ∧ u.doc = s.doc ∧ Accessed s u f := by
  unfold sendSource at h
  dsimp only at h
  split at h
  · obtain ⟨b, backup, h⟩ := Option.bind_eq_some_iff.mp h
    obtain ⟨rfl, _⟩ := Prod.mk.inj (Option.some.inj h)
    exact ⟨Quiet.touch s b, session_touch s b, doc_touch s b, accessed_touch (.inr backup)⟩
  · obtain ⟨rfl, _⟩ := Prod.mk.inj (Option.some.inj h)
    exact ⟨Quiet.refl s, rfl, rfl, accessed_of_stale rfl f⟩

theorem cacheSend_effect (node : (s.session f).cacheNode = some c) (h : cacheSend s f io = some t) :
    Quiet s t ∧ t.doc = s.doc ∧ Accessed s t f ∧
      (t.session = s.session ∨ t.session = Function.update s.session f (s.session f).idle) := by
  obtain ⟨d, found, h⟩ := Option.bind_eq_some_iff.mp h
  obtain rfl : d = c := Option.some.inj (found.symm.trans node)
  obtain ⟨⟨u, array, start⟩, source, h⟩ := Option.bind_eq_some_iff.mp h
  obtain ⟨quiet, sessions, docs, accessed⟩ := sendSource_effect source
  rw [session_touch] at sessions
  rw [doc_touch] at docs
  have all : Accessed s u f := by
    refine (accessed_touch (.inl node)).trans accessed (Quiet.touch s d).freed ?_ ?_ <;> rw [session_touch]
  have first : Quiet s u := (Quiet.touch s d).trans quiet
  dsimp only at h
  split at h
  · obtain rfl := Option.some.inj h
    refine ⟨(first.trans (Quiet.sent u _)).trans (Quiet.setFd _ f), docs, all, .inr ?_⟩
    rw [session_setFd, ← sessions]
    rfl
  · obtain rfl := Option.some.inj h
    refine ⟨(first.trans (Quiet.sent u _)).trans (Quiet.setFd _ f), docs, all, .inl ?_⟩
    rw [session_setFd, ← sessions]
    exact Function.update_eq_self f u.session

/-! ### The list and the requests -/

theorem session_of_unlinked {m n : FdNode} (same : m.unlinked = n.unlinked) : m.session = n.session := by
  have sessions : m.unlinked.session = n.unlinked.session := congrArg FdNode.session same
  exact sessions

theorem FdRep.alloc {nodes : Heap FdNode} {list : FdList} {front rear : Nat} {xs : List Nat}
    (rep : FdRep nodes list front xs rear) (node : FdNode) : FdRep (nodes.alloc node) list front xs rear := by
  refine ⟨rep.links.congr (fun f member => ?_) (fun f member => ?_), fun f member => ?_⟩
  · exact congrArg FdNode.next (Heap.alloc_cell_old node (rep.allocated f member))
  · exact congrArg FdNode.prev (Heap.alloc_cell_old node (rep.allocated f member))
  · exact Nat.lt_succ_of_lt (rep.allocated f member)

section

variable {front rear : Nat} {xs : List Nat}

theorem appendFd_effect {node : FdNode} (rep : FdRep s.fdNodes s.fdList front xs rear) (h : appendFd s node = some t) :
    FdRep t.fdNodes t.fdList front (xs ++ [s.fdNodes.top]) rear ∧
      t.session = Function.update s.session s.fdNodes.top node.session ∧ t.cache = s.cache ∧ t.stale = s.stale := by
  obtain ⟨nodes, appended, h⟩ := Option.bind_eq_some_iff.mp h
  obtain rfl := Option.some.inj h
  have fresh : s.fdNodes.top ∉ front :: xs ++ [rear] := fun member => Nat.lt_irrefl _ (rep.allocated _ member)
  obtain ⟨nodes', same, rep', _, unlinked⟩ := fdListAppend_spec (rep.alloc node) fresh (Nat.lt_succ_self _)
  obtain rfl : nodes' = nodes := Option.some.inj (same.symm.trans appended)
  refine ⟨rep', funext fun g => (session_of_unlinked (unlinked g)).trans ?_, rfl, rfl⟩
  rw [Function.update_apply]
  exact apply_ite FdNode.session _ _ _

theorem removeFd_effect (rep : FdRep s.fdNodes s.fdList front xs rear) (inside : f ∈ xs) (h : removeFd s f = some t) :
    FdRep t.fdNodes t.fdList front (xs.erase f) rear ∧ t.session = s.session ∧ t.cache = s.cache ∧
      t.stale = s.stale := by
  obtain ⟨nodes, removed, h⟩ := Option.bind_eq_some_iff.mp h
  obtain rfl := Option.some.inj h
  obtain ⟨nodes', same, rep', _, unlinked⟩ := fdListRemove_spec rep inside
  obtain rfl : nodes' = nodes := Option.some.inj (same.symm.trans removed)
  exact ⟨⟨rep'.links, rep'.allocated⟩, funext fun g => session_of_unlinked (unlinked g), rfl, rfl⟩

theorem parseClientRequest_effect (h : parseClientRequest s c io = some t) :
    Quiet s t ∧ t.session = s.session ∧ t.stale = s.stale ∧
      ∃ d, d.complete = (s.doc c).complete ∧ t.doc = Function.update s.doc c d := by
  obtain ⟨ended, _, h⟩ := Option.bind_eq_some_iff.mp h
  split at h
  · obtain ⟨info, parsed, h⟩ := Option.bind_eq_some_iff.mp h
    obtain rfl := Option.some.inj h
    exact ⟨Quiet.setCache s c, rfl, rfl, info.doc, parseRequest_complete parsed, doc_setCache s c _⟩
  · obtain rfl := Option.some.inj h
    exact ⟨Quiet.refl s, rfl, rfl, s.doc c, rfl, (Function.update_eq_self c s.doc).symm⟩

def Session.server (f c : Nat) (backup : Option Nat) (asked : Bool) : Session :=
  { type := .server, status := if asked then .reading else .writing, proxied := some f, cacheNode := some c
    backup := backup, flag := if backup.isSome then 1 else 2 }

theorem connectServer_effect {fd : Int} (rep : FdRep s.fdNodes s.fdList front xs rear)
    (h : connectServer s f c fd = some t) :
    FdRep t.fdNodes t.fdList front (xs ++ [s.fdNodes.top]) rear ∧ t.cache = s.cache ∧ t.stale = s.stale ∧
      t.session = Function.update (Function.update s.session f { s.session f with proxied := some s.fdNodes.top })
        s.fdNodes.top (.server f c (isCacheHit s.cache (s.cache.nodes.cell c).httpInfo) false) := by
  obtain ⟨u, appended, h⟩ := Option.bind_eq_some_iff.mp h
  have proxied : Quiet s (s.setFd f fun n => { n with proxied := some s.fdNodes.top }) := Quiet.setFd s f
  obtain ⟨rep', sessions, cache, stale⟩ := appendFd_effect (proxied.fdRep rep) appended
  replace sessions : u.session =
      Function.update (Function.update s.session f { s.session f with proxied := some s.fdNodes.top })
        s.fdNodes.top { Session.server f c none false with flag := 0 } := by
    rw [sessions, session_setFd]
    rfl
  have server : u.session s.fdNodes.top = { Session.server f c none false with flag := 0 } := by
    rw [sessions, Function.update_self]
  rw [cache_setFd] at cache
  rw [cache] at h
  cases hit : isCacheHit s.cache (s.cache.nodes.cell c).httpInfo with
  | none =>
    rw [hit] at h
    obtain rfl := Option.some.inj h
    refine ⟨(Quiet.setFd u _).fdRep rep', cache, stale, ?_⟩
    rw [session_setFd]
    change Function.update u.session s.fdNodes.top { u.session s.fdNodes.top with flag := 2 } = _
    rw [server, sessions, Function.update_idem]
    rfl
  | some a =>
    rw [hit] at h
    obtain rfl := Option.some.inj h
    refine ⟨(Quiet.setFd u _).fdRep rep', cache, stale, ?_⟩
    rw [session_setFd]
    change Function.update u.session s.fdNodes.top { u.session s.fdNodes.top with backup := some a, flag := 1 } = _
    rw [server, sessions, Function.update_idem]
    rfl

/-- The end of a response: the client `p` is woken, the server leaves the list, and its document
enters the queue on a miss. -/
theorem finishResponse_effect {p : Nat} (rep : FdRep s.fdNodes s.fdList front xs rear) (inside : f ∈ xs)
    (proxied : (s.session f).proxied = some p) (node : (s.session f).cacheNode = some c)
    (h : finishResponse s f = some t) :
    FdRep t.fdNodes t.fdList front (xs.erase f) rear ∧ t.stale = s.stale ∧
      t.session = Function.update s.session p { s.session p with status := .writing } ∧
      match isCacheHit s.cache (s.cache.nodes.cell c).httpInfo with
      | some _ => t.cache = s.cache
      | none => cacheEnqueue s.cache c = some t.cache := by
  obtain ⟨q, isClient, h⟩ := Option.bind_eq_some_iff.mp h
  obtain rfl : q = p := Option.some.inj (isClient.symm.trans proxied)
  obtain ⟨d, document, h⟩ := Option.bind_eq_some_iff.mp h
  obtain rfl : d = c := Option.some.inj (document.symm.trans node)
  have woken : Quiet s (s.setFd q fun n => { n with status := .writing }) := Quiet.setFd s q
  have sessions := session_setFd s q fun n => { n with status := .writing }
  rw [cache_setFd] at h
  cases hit : isCacheHit s.cache (s.cache.nodes.cell d).httpInfo with
  | some a =>
    rw [hit] at h
    obtain ⟨rep', same, cache, stale⟩ := removeFd_effect (woken.fdRep rep) inside h
    exact ⟨rep', stale, same.trans sessions, cache⟩
  | none =>
    rw [hit] at h
    obtain ⟨cache, enqueued, h⟩ := Option.bind_eq_some_iff.mp h
    obtain ⟨rep', same, sameCache, stale⟩ := removeFd_effect (by exact woken.fdRep rep) inside h
    exact ⟨rep', stale, same.trans sessions, enqueued.trans (congrArg some sameCache.symm)⟩

end

/-! ### Printing the list -/

theorem printFdNode_effect (h : printFdNode s f = some t) :
    t = s ∨ ∃ a, (s.session f).cacheNode = some a ∧ t = s.touch a := by
  unfold printFdNode at h
  dsimp only at h
  split at h
  · obtain ⟨a, node, rfl⟩ := Option.map_eq_some_iff.mp h
    exact .inr ⟨a, node, rfl⟩
  · exact .inl (Option.some.inj h).symm

theorem printFdNodes_effect {fs : List Nat} (h : fs.foldlM printFdNode s = some t) :
    Quiet s t ∧ t.session = s.session ∧ t.doc = s.doc ∧
      ∀ a ∈ t.stale, a ∈ s.stale ∨ a ∈ s.cache.nodes.freed ∧ ∃ f ∈ fs, (s.session f).cacheNode = some a := by
  induction fs generalizing s with
  | nil =>
    obtain rfl := Option.some.inj h
    exact ⟨Quiet.refl s, rfl, rfl, fun a member => .inl member⟩
  | cons f fs ih =>
    rw [List.foldlM_cons] at h
    obtain ⟨u, printed, h⟩ := Option.bind_eq_some_iff.mp h
    obtain ⟨quiet, sessions, docs, accesses⟩ := ih h
    have later : ∀ {a}, (∃ g ∈ fs, (s.session g).cacheNode = some a) →
        ∃ g ∈ f :: fs, (s.session g).cacheNode = some a :=
      fun ⟨g, member, node⟩ => ⟨g, List.mem_cons_of_mem f member, node⟩
    rcases printFdNode_effect printed with rfl | ⟨c, node, rfl⟩
    · refine ⟨quiet, sessions, docs, fun a member => ?_⟩
      exact (accesses a member).imp_right fun ⟨freed, referred⟩ => ⟨freed, later referred⟩
    · rw [session_touch] at sessions accesses
      rw [doc_touch] at docs
      refine ⟨(Quiet.touch s c).trans quiet, sessions, docs, fun a member => ?_⟩
      rcases accesses a member with old | ⟨freed, referred⟩
      · refine (mem_stale_touch old).imp_right fun ⟨freed, same⟩ => ⟨freed, f, List.mem_cons_self, ?_⟩
        rw [same]
        exact node
      · rw [cache_touch] at freed
        exact .inr ⟨freed, later referred⟩

end

end NetProjects.Proxy
