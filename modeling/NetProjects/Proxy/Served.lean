import NetProjects.Proxy.Contents

/-!
# What one event does

`Served` lists what an event of a reachable proxy can do, with the nodes, the contents, both lists
and the sends after it.
-/

namespace NetProjects.Proxy
open Bytes Linked

/-! ### Shared documents -/

namespace Stage

/-- The document that the session shares with the queue and with other sessions. -/
def shared : Stage → Option Nat
  | asking _ _ => none
  | fetching _ _ _ backup _ => backup
  | answering _ d => some d

end Stage

/-- A shared document is allocated, and no session fetches into it. -/
def View.Shared (v : View) : Prop := ∀ st ∈ v.stages, ∀ b, st.shared = some b → b ∉ v.pending ∧ b < v.cacheTop

section

variable {v w : View} {before after : List Stage} {st st' : Stage} {c : Nat}

theorem View.Shared.subset (h : v.Shared) (pending : ∀ c ∈ w.pending, c ∈ v.pending) (top : v.cacheTop ≤ w.cacheTop)
    (old : ∀ st ∈ w.stages, ∀ b, st.shared = some b →
      (∃ st' ∈ v.stages, st'.shared = some b) ∨ b ∉ w.pending ∧ b < w.cacheTop) : w.Shared := by
  intro st member b shared
  rcases old st member b shared with ⟨st', member', shared'⟩ | fresh
  · obtain ⟨apart, allocated⟩ := h st' member' b shared'
    exact ⟨fun again => apart (pending b again), allocated.trans_le top⟩
  · exact fresh

theorem mem_removed (stages : v.stages = before ++ st :: after) (member : st' ∈ before ++ after) : st' ∈ v.stages := by
  rw [stages]
  rcases List.mem_append.mp member with first | last
  · exact List.mem_append_left _ first
  · exact List.mem_append_right _ (List.mem_cons_of_mem _ last)

theorem mem_replaced {st'' : Stage} (stages : v.stages = before ++ st :: after) (member : st'' ∈ before ++ st' :: after) :
    st'' = st' ∨ st'' ∈ v.stages := by
  rcases List.mem_append.mp member with first | here
  · exact .inr (mem_removed stages (List.mem_append_left _ first))
  · exact (List.mem_cons.mp here).imp_right fun last => mem_removed stages (List.mem_append_right _ last)

theorem mem_here (stages : v.stages = before ++ st :: after) : st ∈ v.stages := by
  rw [stages]
  exact List.mem_append_right _ List.mem_cons_self

theorem Move.shared (sound : Sound v) (h : v.Shared) (move : Move v w) : w.Shared := by
  cases move with
  | stay => exact h
  | accepted =>
    intro st member b shared
    rcases List.mem_cons.mp member with rfl | old
    · cases shared
    · obtain ⟨apart, allocated⟩ := h st old b shared
      refine ⟨fun again => ?_, Nat.lt_succ_of_lt allocated⟩
      rcases List.mem_cons.mp again with rfl | older
      · exact Nat.lt_irrefl _ allocated
      · exact apart older
  | @dropped f c d before after stages _ =>
    exact h.subset (pending_removed stages).subset (Nat.le_refl _) fun st member b shared =>
      .inl ⟨st, mem_removed stages member, shared⟩
  | @connected f g c d before after stages _ =>
    let new := Stage.fetching f g c ((v.setDoc c d).hit d) false
    have fewer := (pending_replaced stages new (.inl rfl)).subset
    refine h.subset fewer (Nat.le_refl _) fun st member b shared => ?_
    rcases mem_replaced stages member with rfl | old
    · obtain ⟨queued, _⟩ := hit_some shared
      exact .inr ⟨fun again => (sound.pending b (fewer again)).2.1 queued, (sound.queued b queued).1⟩
    · exact .inl ⟨st, old, shared⟩
  | @asked f g c backup before after stages =>
    let new := Stage.fetching f g c backup true
    have fewer := (pending_replaced stages new (.inl rfl)).subset
    refine h.subset fewer (Nat.le_refl _) fun st member b shared => ?_
    rcases mem_replaced stages member with rfl | old
    · exact .inl ⟨_, mem_here stages, shared⟩
    · exact .inl ⟨st, old, shared⟩
  | received => exact h
  | @finished f g c d backup before after w stages document stored =>
    have fewer := (pending_replaced stages (.answering f d) (.inr rfl)).subset
    have mine : c ∈ v.pending := mem_pending stages rfl
    have own : c ∉ (before ++ Stage.answering f d :: after).filterMap Stage.pending := by
      have apart := sound.pending_apart stages rfl
      rw [List.filterMap_append] at apart
      rwa [filterMap_middle]
    have kept : ((v.setDoc c { v.doc c with complete := true }).setStages
        (before ++ .answering f d :: after)).Shared := by
      refine h.subset fewer (Nat.le_refl _) fun st member b shared => ?_
      rcases mem_replaced stages member with rfl | old
      · obtain rfl := Option.some.inj shared
        rcases document with rfl | cached
        · exact .inr ⟨own, (sound.pending _ mine).1⟩
        · exact .inl ⟨_, mem_here stages, cached⟩
      · exact .inl ⟨st, old, shared⟩
    cases stored with
    | known => exact kept
    | fresh => exact kept
  | @sent f d before after stages =>
    exact h.subset (pending_removed stages).subset (Nat.le_refl _) fun st member b shared =>
      .inl ⟨st, mem_removed stages member, shared⟩

end

/-! ### The state after one event -/

/-- A state apart from the links of its lists. -/
structure Snapshot where
  node : Nat → FdNode
  content : Nat → CacheNode
  fds : List Nat
  fdTop : Nat
  entries : List Nat
  sends : List Send

namespace ProxyState

def snapshot (s : ProxyState) : Snapshot :=
  { node := s.node, content := s.content, fds := s.fds, fdTop := s.fdNodes.top, entries := s.cache.entries
    sends := s.sends }

/-- The node of the list is a client or a server that is read from. -/
def Reads (s : ProxyState) (f : Nat) : Prop :=
  (s.node f).status = .reading ∧ ((s.node f).type = .client ∨ (s.node f).type = .server)

end ProxyState

/-- The state is as in `x`, except for the buffers of freed cache nodes. -/
structure Shows (t : ProxyState) (x : Snapshot) : Prop where
  node : t.node = x.node
  content : ∀ a, a ∉ t.cache.nodes.freed → t.content a = x.content a
  bufferSize : ∀ a, (t.content a).bufferSize = (x.content a).bufferSize
  info : ∀ a, (t.content a).httpInfo = (x.content a).httpInfo
  listed : ∀ g, g ∈ t.fds ↔ g ∈ x.fds
  fdTop : t.fdNodes.top = x.fdTop
  entries : t.cache.entries = x.entries
  sends : t.sends = x.sends

/-- The entries after the response fetched into `c`: it is stored unless its URL is cached. -/
inductive Enters (s : ProxyState) (c : Nat) : List Nat → Prop where
  | known {a} (hit : isCacheHit s.cache (s.content c).httpInfo = some a) : Enters s c s.cache.entries
  | fresh {rest r} (miss : isCacheHit s.cache (s.content c).httpInfo = none) (rear : s.cache.entries = rest ++ [r]) :
      Enters s c (c :: rest)

/-- The document given to the client when the server `f`, which fetches into `c`, has ended. -/
inductive Ends (s : ProxyState) (f c : Nat) (io : Io) (n : CacheNode) : Nat → (Nat → CacheNode) → Prop where
  | closed (ended : io.received = some []) : Ends s f c io n c (Function.update s.content c n)
  | notModified {b : Nat} {date : Field 30} (same : NotModified s f c (bufRecv io) io)
      (backup : (s.session f).backup = some b)
      (copied : (s.content b).httpInfo.date.strcpy n.httpInfo.date.bytes = some date) :
      Ends s f c io n b (Function.update (Function.update s.content c n) b ((s.content b).redated date))

/-- What serving the node `f` can do. -/
inductive Served (s : ProxyState) (f : Nat) (io : Io) (t : ProxyState) : Prop where
  | still (idle : ¬ s.Reads f) (shows : Shows t s.snapshot)
  | accepted {fd : Int} (idle : ¬ s.Reads f)
      (shows : Shows t { s.snapshot with
        node := Function.update s.node s.fdNodes.top
          (newFdNode none none fd .client .reading (some s.cache.nodes.top))
        content := Function.update s.content s.cache.nodes.top (.fresh none none initialBuffer)
        fds := s.fdNodes.top :: s.fds
        fdTop := s.fdNodes.top + 1 })
  | dropped {c : Nat} {n : CacheNode} (client : s.session f = .client .reading none c)
      (request : (s.content c).requested (s.node f).offset io = some n)
      (shows : Shows t { s.snapshot with
        node := Function.update s.node f { s.node f with status := .idle, offset := 0 }
        content := Function.update s.content c n
        fds := s.fds.filter (· ≠ f) })
      (refused : io.connected = none)
  | connected {c : Nat} {n : CacheNode} {fd : Int} (client : s.session f = .client .reading none c)
      (request : (s.content c).requested (s.node f).offset io = some n)
      (shows : Shows t { s.snapshot with
        node := Function.update
          (Function.update s.node f { s.node f with status := .idle, offset := 0, proxied := some s.fdNodes.top })
          s.fdNodes.top (.server fd f c (isCacheHit s.cache n.httpInfo))
        content := Function.update s.content c n
        fds := s.fdNodes.top :: s.fds
        fdTop := s.fdNodes.top + 1 })
      (reached : io.connected = some fd)
  | sent {c : Nat} {send : Send} (writing : (s.node f).status = .writing) (document : (s.node f).cacheNode = some c)
      (bytes : send.numbytes = sentBytes (s.content c) (s.node f).offset io)
      (more : ¬ SentAll (s.content c) ((s.node f).offset + send.numbytes))
      (shows : Shows t { s.snapshot with
        node := Function.update s.node f { s.node f with offset := (s.node f).offset + send.numbytes }
        sends := s.sends ++ [send] })
  | asked {p c : Nat} {backup : Option Nat} {send : Send} (server : s.session f = .server p c backup false)
      (bytes : send.numbytes = sentBytes (s.content c) (s.node f).offset io)
      (all : SentAll (s.content c) ((s.node f).offset + send.numbytes))
      (shows : Shows t { s.snapshot with
        node := Function.update s.node f { s.node f with offset := 0, status := .reading }
        sends := s.sends ++ [send] })
  | answered {g d : Nat} {send : Send} (client : s.session f = .client .writing (some g) d)
      (bytes : send.numbytes = sentBytes (s.content d) (s.node f).offset io)
      (all : SentAll (s.content d) ((s.node f).offset + send.numbytes))
      (shows : Shows t { s.snapshot with
        node := Function.update s.node f { s.node f with offset := 0, status := .idle }
        fds := s.fds.filter (· ≠ f)
        sends := s.sends ++ [send] })
  | received {p c : Nat} {backup : Option Nat} {n : CacheNode} (server : s.session f = .server p c backup true)
      (heard : (s.content c).heard (s.node f).offset io = some n) (arrived : io.chunk ≠ [])
      (modified : ¬ NotModified s f c (bufRecv io) io)
      (shows : Shows t { s.snapshot with
        node := Function.update s.node f { s.node f with offset := (s.node f).offset + io.chunk.length }
        content := Function.update s.content c n })
  | finished {p c d : Nat} {backup : Option Nat} {n : CacheNode} {content : Nat → CacheNode} {entries : List Nat}
      (server : s.session f = .server p c backup true) (client : s.session p = .client .idle (some f) c)
      (heard : (s.content c).heard (s.node f).offset io = some n) (ends : Ends s f c io n d content)
      (enters : Enters s c entries)
      (shows : Shows t { s.snapshot with
        node := Function.update (Function.update s.node p { s.node p with cacheNode := some d, status := .writing }) f
          { s.node f with status := .idle, offset := 0 }
        content := content
        fds := s.fds.filter (· ≠ f)
        entries := entries })

section

variable {s t u : ProxyState} {v : View} {f g c p : Nat} {io : Io} {before after : List Stage}

theorem not_reads_of_session (h : (s.session f).status ≠ .reading) : ¬ s.Reads f := fun reads => h reads.1

theorem not_reads_of_writing (writing : (s.node f).status = .writing) : ¬ s.Reads f :=
  fun reads => by cases writing.symm.trans reads.1

theorem shows_of {x : Snapshot} (node : t.node = x.node) (content : t.content = x.content)
    (listed : ∀ g, g ∈ t.fds ↔ g ∈ x.fds) (fdTop : t.fdNodes.top = x.fdTop) (entries : t.cache.entries = x.entries)
    (sends : t.sends = x.sends) : Shows t x :=
  ⟨node, fun a _ => congrFun content a, fun a => congrArg CacheNode.bufferSize (congrFun content a),
    fun a => congrArg CacheNode.httpInfo (congrFun content a), listed, fdTop, entries, sends⟩

theorem shows_snapshot (s : ProxyState) : Shows s s.snapshot := shows_of rfl rfl (fun _ => Iff.rfl) rfl rfl rfl

theorem CacheRep.entries_eq (h : CacheRep s v) : s.cache.entries = v.queue := h.queue.entries_eq

/-- A lookup does not depend on the contents outside the queue. -/
theorem isCacheHit_content {i : HttpInfo} (entries : t.cache.entries = s.cache.entries)
    (contents : ∀ a ∈ s.cache.entries, (t.content a).httpInfo.doc = (s.content a).httpInfo.doc) :
    isCacheHit t.cache i = isCacheHit s.cache i :=
  isCacheHit_congr entries contents rfl rfl

theorem clientRead_served (h : Represents s v) (sound : Sound v) (stages : v.stages = before ++ .asking f c :: after)
    (run : clientReadHandler s f io = some t) : Served s f io t := by
  obtain ⟨⟨front, rear, xs, all⟩, cache⟩ := id h
  have list := all.split stages
  have client : s.session f = .client .reading none c := list.stages_of.1 _ List.mem_cons_self
  have listed : f ∈ xs := list.inside (by simp [Stage.nodes])
  have node : (s.session f).cacheNode = some c := congrArg Session.cacheNode client
  have type : (s.session f).type = .client := congrArg Session.type client
  obtain ⟨u, k, x, received, _, parsed, refused, accepted⟩ := clientRead_cases client run
  obtain ⟨w, fill, quiet, content, nodes, sends, sessions, ended, _⟩ := cacheRecv_filled node received
  obtain rfl := ended type
  have idle : (w.setFd f fun n => { n with status := .idle, offset := 0 }).node =
      Function.update s.node f { s.node f with status := .idle, offset := 0 } := by
    rw [node_setFd w f, nodes, Function.update_self, Function.update_idem]
  obtain ⟨quiet', _⟩ := parseClientRequest_effect parsed
  obtain ⟨parse, content', nodes', sends'⟩ := parseClientRequest_content parsed
  rw [content_setFd] at parse content'
  have request : (s.content c).requested (s.node f).offset io = some (x.content c) :=
    Option.bind_eq_some_iff.mpr ⟨w.content c, fill, parse⟩
  have quiet'' : Quiet s x := (quiet.trans (Quiet.setFd_idle w f)).trans quiet'
  rw [idle] at nodes'
  rw [content, Function.update_idem] at content'
  rw [sends_setFd, sends] at sends'
  have rep := quiet''.fdRep list.list
  cases connected : io.connected with
  | none =>
    have run := refused connected
    obtain ⟨_, _, sameCache, _⟩ := removeFd_effect rep listed run
    obtain ⟨sameNodes, sameSends, fds, top⟩ := removeFd_node rep listed run
    refine .dropped client request (shows_of (sameNodes.trans nodes') ?_ ?_ (top.trans quiet''.fdTop) ?_
      (sameSends.trans sends')) connected
    · exact (content_of_cache sameCache).trans content'
    · rw [quiet''.fds] at fds
      exact fds
    · rw [sameCache]
      exact quiet''.entries
  | some fd =>
    have run := accepted fd connected
    obtain ⟨_, sameCache, _, _⟩ := connectServer_effect rep run
    obtain ⟨sameNodes, sameSends, fds, top⟩ := connectServer_node rep run
    have outside : c ∉ s.cache.entries := by
      rw [cache.entries_eq]
      exact (sound.pending c (mem_pending stages rfl)).2.1
    have hit : ∀ i, isCacheHit x.cache i = isCacheHit s.cache i := by
      intro i
      refine isCacheHit_content quiet''.entries fun a member => ?_
      have other : a ≠ c := by
        rintro rfl
        exact outside member
      rw [content', Function.update_of_ne other]
    rw [nodes', hit, Function.update_idem, Function.update_self, quiet''.fdTop] at sameNodes
    rw [quiet''.fdTop, quiet''.fds] at fds
    rw [quiet''.fdTop] at top
    refine .connected client request (shows_of sameNodes ?_ fds top ?_ (sameSends.trans sends')) connected
    · exact (content_of_cache sameCache).trans content'
    · rw [sameCache]
      exact quiet''.entries

theorem clientWrite_served {d : Nat} (h : Represents s v) (stages : v.stages = before ++ .answering f d :: after)
    (run : clientWriteHandler s f io = some t) : Served s f io t := by
  obtain ⟨⟨front, rear, xs, all⟩, cache⟩ := id h
  have list := all.split stages
  obtain ⟨g, client⟩ : ∃ g, s.session f = .client .writing (some g) d := list.stages_of.1 _ List.mem_cons_self
  have listed : f ∈ xs := list.inside (by simp [Stage.nodes])
  have node : (s.session f).cacheNode = some d := congrArg Session.cacheNode client
  obtain ⟨u, sent, run⟩ := Option.bind_eq_some_iff.mp run
  obtain ⟨quiet, _⟩ := cacheSend_effect node sent
  obtain ⟨send, bytes, sends, content, ⟨all, nodes⟩ | ⟨more, nodes⟩⟩ := cacheSend_node node sent
  · have idle : (u.fdNodes.cell f).status = .idle := by
      change (u.node f).status = .idle
      rw [nodes, Function.update_self]
    rw [if_pos idle] at run
    obtain ⟨_, _, sameCache, _⟩ := removeFd_effect (quiet.fdRep list.list) listed run
    obtain ⟨sameNodes, sameSends, fds, top⟩ := removeFd_node (quiet.fdRep list.list) listed run
    rw [quiet.fds] at fds
    refine .answered client bytes all (shows_of (sameNodes.trans nodes) ?_ fds (top.trans quiet.fdTop) ?_
      (sameSends.trans sends))
    · exact (content_of_cache sameCache).trans content
    · rw [sameCache]
      exact quiet.entries
  · have writing : (u.fdNodes.cell f).status = .writing := by
      change (u.node f).status = .writing
      rw [nodes, Function.update_self]
      exact congrArg Session.status client
    rw [if_neg (by rw [writing]; decide)] at run
    obtain rfl := Option.some.inj run
    exact .sent (congrArg Session.status client) node bytes more
      (shows_of nodes content (fun g => by rw [quiet.fds]; rfl) quiet.fdTop quiet.entries sends)

theorem serverWrite_served {backup : Option Nat} (h : Represents s v)
    (stages : v.stages = before ++ .fetching p f c backup false :: after)
    (run : serverWriteHandler s f io = some t) : Served s f io t := by
  obtain ⟨⟨front, rear, xs, all⟩, cache⟩ := id h
  have list := all.split stages
  have server : s.session f = .server p c backup false := (list.stages_of.1 _ List.mem_cons_self).2
  have node : (s.session f).cacheNode = some c := congrArg Session.cacheNode server
  obtain ⟨u, sent, run⟩ := Option.bind_eq_some_iff.mp run
  obtain ⟨quiet, _⟩ := cacheSend_effect node sent
  obtain ⟨send, bytes, sends, content, ⟨all, nodes⟩ | ⟨more, nodes⟩⟩ := cacheSend_node node sent
  · have idle : (u.fdNodes.cell f).status = .idle := by
      change (u.node f).status = .idle
      rw [nodes, Function.update_self]
    rw [if_pos idle] at run
    obtain rfl := Option.some.inj run
    have reading : Quiet u (u.setFd f fun n => { n with status := .reading }) := Quiet.setFd u f
    refine .asked server bytes all (shows_of ?_ content (fun g => ?_) quiet.fdTop (reading.entries.trans quiet.entries)
      sends)
    · rw [node_setFd u f, nodes, Function.update_self, Function.update_idem]
    · rw [reading.fds, quiet.fds]
      rfl
  · have writing : (u.fdNodes.cell f).status = .writing := by
      change (u.node f).status = .writing
      rw [nodes, Function.update_self]
      exact congrArg Session.status server
    rw [if_neg (by rw [writing]; decide)] at run
    obtain rfl := Option.some.inj run
    exact .sent (congrArg Session.status server) node bytes more
      (shows_of nodes content (fun g => by rw [quiet.fds]; rfl) quiet.fdTop quiet.entries sends)

theorem finishResponse_node {front rear : Nat} {xs queue : List Nat} (rep : FdRep s.fdNodes s.fdList front xs rear)
    (inside : f ∈ xs) (proxied : (s.session f).proxied = some p) (node : (s.session f).cacheNode = some c)
    (queued : QueueRep s.cache queue) (two : 2 ≤ queue.length) (fresh : c ∉ queue) (allocated : c < s.cache.nodes.top)
    (live : c ∉ s.cache.nodes.freed) (h : finishResponse s f = some t) :
    ∃ entries, Enters s c entries ∧
      Shows t { s.snapshot with
        node := Function.update s.node p { s.node p with status := .writing }
        fds := s.fds.filter (· ≠ f)
        entries := entries } := by
  obtain ⟨q, isClient, h⟩ := Option.bind_eq_some_iff.mp h
  obtain rfl : q = p := Option.some.inj (isClient.symm.trans proxied)
  obtain ⟨d, document, h⟩ := Option.bind_eq_some_iff.mp h
  obtain rfl : d = c := Option.some.inj (document.symm.trans node)
  have woken : Quiet s (s.setFd q fun n => { n with status := .writing }) := Quiet.setFd s q
  have nodes : (s.setFd q fun n => { n with status := .writing }).node =
      Function.update s.node q { s.node q with status := .writing } := node_setFd s q
  rw [cache_setFd] at h
  cases hit : isCacheHit s.cache (s.cache.nodes.cell d).httpInfo with
  | some a =>
    rw [hit] at h
    obtain ⟨_, _, sameCache, _⟩ := removeFd_effect (woken.fdRep rep) inside h
    obtain ⟨sameNodes, sends, fds, top⟩ := removeFd_node (woken.fdRep rep) inside h
    rw [woken.fds] at fds
    refine ⟨s.cache.entries, .known hit, shows_of (sameNodes.trans nodes) (content_of_cache sameCache) fds top ?_ sends⟩
    rw [sameCache]
    rfl
  | none =>
    rw [hit] at h
    obtain ⟨cache, enqueued, h⟩ := Option.bind_eq_some_iff.mp h
    obtain ⟨rest, r, rear, entries, content, size, info⟩ := cacheEnqueue_content queued two fresh allocated live enqueued
    obtain ⟨_, _, sameCache, _⟩ := removeFd_effect (by exact woken.fdRep rep) inside h
    obtain ⟨sameNodes, sends, fds, top⟩ := removeFd_node (by exact woken.fdRep rep) inside h
    replace sameCache : t.cache = cache := sameCache
    refine ⟨d :: rest, .fresh hit (queued.entries_eq.trans rear), sameNodes.trans nodes, fun a alive => ?_, fun a => ?_,
      fun a => ?_, fun g => ?_, top, ?_, sends⟩
    · rw [sameCache] at alive
      rw [ProxyState.content, sameCache]
      exact content a alive
    · change (t.cache.nodes.cell a).bufferSize = _
      rw [sameCache]
      exact size a
    · change (t.cache.nodes.cell a).httpInfo = _
      rw [sameCache]
      exact info a
    · have kept := woken.fds
      refine (fds g).trans ?_
      change g ∈ ((s.setFd q fun n => { n with status := .writing }).fds.filter _) ↔ _
      rw [kept]
    · rw [sameCache]
      exact entries

/-- The end of a response, from the state `u` in which the server is idle and its client has its document. -/
theorem finishResponse_served {backup : Option Nat} {d : Nat} {n : CacheNode} {content : Nat → CacheNode}
    (h : Represents s v) (sound : Sound v) (stages : v.stages = before ++ .fetching p f c backup true :: after)
    (quiet : Quiet s u) (doc : u.doc = Function.update s.doc c { s.doc c with complete := true })
    (sends : u.sends = s.sends) (heard : (s.content c).heard (s.node f).offset io = some n)
    (ends : Ends s f c io n d content) (contents : u.content = content)
    (nodes : u.node = Function.update (Function.update s.node p { s.node p with cacheNode := some d }) f
      { s.node f with status := .idle, offset := 0 }) (run : finishResponse u f = some t) : Served s f io t := by
  obtain ⟨⟨front, rear, xs, all⟩, cache⟩ := id h
  have list := all.split stages
  obtain ⟨client, server⟩ : s.session p = .client .idle (some f) c ∧ s.session f = .server p c backup true :=
    list.stages_of.1 _ List.mem_cons_self
  have listed : f ∈ xs := list.inside (by simp [Stage.nodes])
  have other : p ≠ f := list.apart
  obtain ⟨allocated, notQueued, notFreed⟩ := sound.pending c (mem_pending stages rfl)
  have session : u.session f = (s.session f).idle := by
    rw [session_eq_node, nodes, Function.update_self]
    rfl
  have proxied : (u.session f).proxied = some p := by
    rw [session, server]
    rfl
  have node : (u.session f).cacheNode = some c := by
    rw [session, server]
    rfl
  have outside : ∀ a ∈ s.cache.entries, u.doc a = s.doc a := by
    intro a member
    rw [cache.entries_eq] at member
    rw [doc, Function.update_of_ne]
    rintro rfl
    exact notQueued member
  have hit : isCacheHit u.cache (u.content c).httpInfo = isCacheHit s.cache (s.content c).httpInfo := by
    have same : u.doc c = { s.doc c with complete := true } := by rw [doc, Function.update_self]
    have host : (u.doc c).host = (s.doc c).host := by rw [same]
    have path : (u.doc c).path = (s.doc c).path := by rw [same]
    exact isCacheHit_congr quiet.entries outside host path
  obtain ⟨entries, enters, shows⟩ := finishResponse_node (quiet.fdRep list.list) listed proxied node
    (quiet.queueRep cache.queue) sound.slots.2 notQueued (allocated.trans_eq (cache.top.symm.trans quiet.cacheTop.symm))
    (by rw [quiet.freed, cache.freed]; exact notFreed) run
  have enters' : Enters s c entries := by
    cases enters with
    | known found =>
      rw [hit] at found
      rw [quiet.entries]
      exact .known found
    | fresh miss rear =>
      rw [hit] at miss
      rw [quiet.entries] at rear
      exact .fresh miss rear
  refine .finished server client heard ends enters' ⟨?_, fun a alive => ?_, fun a => ?_, fun a => ?_, fun g => ?_,
    shows.fdTop.trans quiet.fdTop, shows.entries, shows.sends.trans sends⟩
  · refine shows.node.trans ?_
    change Function.update u.node p { u.node p with status := .writing } = _
    rw [nodes, Function.update_of_ne other, Function.update_self, Function.update_comm other.symm, Function.update_idem]
  · exact (shows.content a alive).trans (congrFun contents a)
  · exact (shows.bufferSize a).trans (congrArg CacheNode.bufferSize (congrFun contents a))
  · exact (shows.info a).trans (congrArg CacheNode.httpInfo (congrFun contents a))
  · refine (shows.listed g).trans ?_
    change g ∈ u.fds.filter _ ↔ _
    rw [quiet.fds]

theorem serverRead_served {backup : Option Nat} (h : Represents s v) (sound : Sound v) (shared : v.Shared)
    (stages : v.stages = before ++ .fetching p f c backup true :: after)
    (run : serverReadHandler s f io = some t) : Served s f io t := by
  obtain ⟨⟨front, rear, xs, all⟩, _⟩ := id h
  have list := all.split stages
  obtain ⟨client, server⟩ : s.session p = .client .idle (some f) c ∧ s.session f = .server p c backup true :=
    list.stages_of.1 _ List.mem_cons_self
  have other : p ≠ f := list.apart
  have node : (s.session f).cacheNode = some c := congrArg Session.cacheNode server
  have type : (s.session f).type = .server := congrArg Session.type server
  have proxied : (s.session f).proxied = some p := congrArg Session.proxied server
  have apart : ∀ b, (s.session f).backup = some b → b ≠ c := by
    intro b hasBackup same
    rw [server] at hasBackup
    exact (shared _ (mem_here stages) b hasBackup).1 (same ▸ mem_pending stages rfl)
  obtain ⟨⟨u, k⟩, received, run⟩ := Option.bind_eq_some_iff.mp run
  obtain ⟨quiet, doc, _, _⟩ := cacheRecv_server node type proxied other received
  obtain ⟨n, heard, sends, outcome⟩ := cacheRecv_heard node type proxied other apart received
  dsimp only at run
  have finish : ∀ {d content}, Ends s f c io n d content → u.content = content →
      u.node = Function.update (Function.update s.node p { s.node p with cacheNode := some d }) f
        { s.node f with status := .idle, offset := 0 } → Served s f io t := by
    intro d content ends contents nodes
    have idle : (u.fdNodes.cell f).status = .idle := by
      change (u.node f).status = .idle
      rw [nodes, Function.update_self]
    rw [if_pos idle] at run
    exact finishResponse_served h sound stages quiet doc sends heard ends contents nodes run
  cases outcome with
  | more arrived modified nodes content =>
    have reading : (u.fdNodes.cell f).status = .reading := by
      change (u.node f).status = .reading
      rw [nodes, Function.update_self]
      exact congrArg Session.status server
    rw [if_neg (by rw [reading]; decide)] at run
    obtain rfl := Option.some.inj run
    exact .received server heard arrived modified
      (shows_of nodes content (fun g => by rw [quiet.fds]; rfl) quiet.fdTop quiet.entries sends)
  | closed ended nodes content =>
    have origin : io.received = some [] := by
      obtain ⟨bytes, arrived, _⟩ := Option.bind_eq_some_iff.mp received
      rw [← chunk_of_received arrived, List.take_eq_nil_iff] at ended
      rw [arrived, ended.resolve_left (by decide)]
    refine finish (.closed origin) content ?_
    have same : { s.node p with cacheNode := some c } = s.node p := by
      have document : (s.node p).cacheNode = some c := congrArg Session.cacheNode client
      rw [← document]
    rw [nodes, same, Function.update_eq_self]
  | notModified same hasBackup copied nodes content =>
    exact finish (.notModified same hasBackup copied) content nodes

theorem listen_served (h : Represents s v) (idle : ¬ s.Reads f) (run : (listenFdHandler s io).bind printFdList = some t) :
    Served s f io t := by
  obtain ⟨u, handled, printed⟩ := Option.bind_eq_some_iff.mp run
  obtain ⟨quiet, _⟩ := printFdNodes_effect printed
  obtain ⟨nodes, content, sends⟩ := printFdNodes_node printed
  have printing : ∀ x : Snapshot, Shows u x → Shows t x := by
    intro x shows
    refine ⟨nodes.trans shows.node, fun a alive => ?_, fun a => ?_, fun a => ?_, fun g => ?_, quiet.fdTop.trans shows.fdTop,
      quiet.entries.trans shows.entries, sends.trans shows.sends⟩
    · rw [quiet.freed] at alive
      rw [content]
      exact shows.content a alive
    · rw [content]
      exact shows.bufferSize a
    · rw [content]
      exact shows.info a
    · rw [quiet.fds]
      exact shows.listed g
  unfold listenFdHandler at handled
  split at handled
  · obtain rfl := Option.some.inj handled
    exact .still idle (printing _ (shows_snapshot s))
  · rename_i fd _
    obtain ⟨⟨front, rear, xs, list⟩, cache⟩ := h
    obtain ⟨_, _, sameCache, _⟩ := appendFd_effect (by exact list.list) handled
    obtain ⟨sameNodes, sameSends, fds, top⟩ := appendFd_node (by exact list.list) handled
    refine .accepted idle (printing _ (shows_of sameNodes (funext fun a => ?_) fds top ?_ sameSends))
    · change u.content a = Function.update s.content s.cache.nodes.top (.fresh none none initialBuffer) a
      rw [ProxyState.content, sameCache, Function.update_apply]
      exact apply_ite CacheNode.content _ _ _
    · rw [sameCache]
      have rep := cache.queue.alloc (.fresh none none initialBuffer)
      exact rep.entries_eq.trans cache.entries_eq.symm

/-- Every event of a reachable proxy does one of the things listed. -/
theorem step_served {e : Event} (h : Represents s v) (sound : Sound v) (shared : v.Shared) (next : step s e = some t) :
    e.node ∈ s.fds ∧ Served s e.node e.io t := by
  unfold step at next
  split at next
  swap
  · cases next
  rename_i listed
  refine ⟨listed, ?_⟩
  obtain ⟨front, rear, xs, list⟩ := h.list
  have dummy : s.session e.node = .bare .dummy .idle → Served s e.node e.io t := by
    intro bare
    rw [serve_dummy bare] at next
    obtain rfl := Option.some.inj next
    exact .still (not_reads_of_session (by rw [bare]; exact fun impossible => by cases impossible)) (shows_snapshot s)
  rcases list.mem_fds.mp listed with (first | listening | ⟨st, member, node⟩) | last
  · exact dummy (first ▸ list.front)
  · have listener : s.session e.node = .bare .listen .reading := listening ▸ list.listener
    rw [serve_listen listener] at next
    refine listen_served h (fun reads => ?_) next
    have type : (s.node e.node).type = .listen := congrArg Session.type listener
    rcases reads.2 with client | server
    · cases type.symm.trans client
    · cases type.symm.trans server
  · obtain ⟨before, after, stages⟩ := List.append_of_mem member
    have now := list.stages st member
    cases st with
    | asking client c =>
      obtain same := List.mem_singleton.mp node
      rw [← same] at now stages
      rw [serve_client now] at next
      exact clientRead_served h sound stages next
    | fetching client g c backup asked =>
      rcases List.mem_cons.mp node with same | node
      · rw [← same] at now
        rw [serve_client now.1] at next
        obtain rfl := Option.some.inj next
        refine .still (not_reads_of_session ?_) (shows_snapshot s)
        rw [now.1]
        exact fun impossible => by cases impossible
      · obtain same := List.mem_singleton.mp node
        rw [← same] at now stages
        rw [serve_server now.2] at next
        cases asked with
        | false => exact serverWrite_served h stages next
        | true => exact serverRead_served h sound shared stages next
    | answering client d =>
      obtain same := List.mem_singleton.mp node
      rw [← same] at now stages
      obtain ⟨g, writing⟩ := now
      rw [serve_client writing] at next
      exact clientWrite_served h stages next
  · exact dummy (last ▸ list.rear)

/-- What the client `p` is given when its server ends. -/
theorem Served.woken (served : Served s f io t) (older : g ≠ s.fdNodes.top) (other : g ≠ f) :
    t.node g = s.node g ∨ ∃ c d backup n content, s.session f = .server g c backup true ∧
      s.session g = .client .idle (some f) c ∧ (s.content c).heard (s.node f).offset io = some n ∧
      Ends s f c io n d content ∧ t.node g = { s.node g with cacheNode := some d, status := .writing } ∧
      ∀ a, a ∉ t.cache.nodes.freed → t.content a = content a := by
  cases served with
  | @finished p c d backup n content entries server client heard ends enters shows =>
    by_cases same : g = p
    · obtain rfl := same
      refine .inr ⟨c, d, backup, n, content, server, client, heard, ends, ?_, shows.content⟩
      rw [shows.node]
      exact (Function.update_of_ne other _ _).trans (Function.update_self _ _ _)
    · rw [shows.node]
      exact .inl ((Function.update_of_ne other _ _).trans (Function.update_of_ne same _ _))
  | still _ shows =>
    rw [shows.node]
    exact .inl rfl
  | accepted _ shows =>
    rw [shows.node]
    exact .inl (Function.update_of_ne older _ _)
  | connected _ _ shows =>
    rw [shows.node]
    exact .inl ((Function.update_of_ne older _ _).trans (Function.update_of_ne other _ _))
  | dropped _ _ shows | sent _ _ _ _ shows | asked _ _ _ shows | answered _ _ _ shows | received _ _ _ _ shows =>
    rw [shows.node]
    exact .inl (Function.update_of_ne other _ _)

theorem start_shared (slots listener : Nat) (doc : Nat → Doc) : (View.start slots listener doc).Shared :=
  fun _ member => absurd member List.not_mem_nil

theorem reachable_shared {slots : Nat} (two : 2 ≤ slots) (h : Reachable slots s) :
    ∃ v, Represents s v ∧ Sound v ∧ v.Shared :=
  reachable_invariant two (fun _ _ _ => start_shared _ _ _) (fun _ _ sound shared move => move.shared sound shared) h

end

end NetProjects.Proxy
