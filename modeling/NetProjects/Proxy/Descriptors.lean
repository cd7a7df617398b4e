import NetProjects.Proxy.Passes
import NetProjects.Proxy.History

/-!
# Descriptors of the proxy

The handlers open descriptors with `accept` and `connect` and close them in five places. Each open descriptor
belongs to one node of the list, so that what `select` says of a descriptor is said of that node.
-/

namespace NetProjects.Proxy
open Bytes

/-! ### Opening and closing -/

/-- `cache_recv` finds a 304 to a conditional get in the bytes it has received. -/
def finds304 (s : ProxyState) (f : Nat) (io : Io) : Bool :=
  let node := s.fdNodes.cell f
  match node.cacheNode with
  | none => false
  | some c =>
    let info := (s.cache.nodes.cell c).httpInfo
    !info.infoComplete && node.flag == 1 &&
      ((parseResponse (bufRecv io ++ io.memory.after) io.memory info).bind
        fun info => strstrLit info.status.bytes (cstr "304")) == some true

/-- A server is closed at a 304, and when nothing is received. -/
def cacheRecvCloses (s : ProxyState) (f : Nat) (io : Io) : List Int :=
  let node := s.fdNodes.cell f
  if node.type = .server then
    (if finds304 s f io then [node.fd] else []) ++ if io.chunk = [] then [node.fd] else []
  else []

def clientReadCloses (s : ProxyState) (f : Nat) (io : Io) : List Int :=
  cacheRecvCloses s f io ++ if io.connected = none then [(s.fdNodes.cell f).fd] else []

def clientWriteCloses (s : ProxyState) (f : Nat) (io : Io) : List Int :=
  match cacheSend s f io with
  | none => []
  | some t => if (t.fdNodes.cell f).status = .idle then [(t.fdNodes.cell f).fd] else []

/-- The calls of `close` that serving an event makes. -/
def closeCalls (s : ProxyState) (e : Event) : List Int :=
  let node := s.fdNodes.cell e.node
  match node.type with
  | .client =>
    if node.status = .reading then clientReadCloses s e.node e.io
    else if node.status = .writing then clientWriteCloses s e.node e.io
    else []
  | .server => if node.status = .reading then cacheRecvCloses s e.node e.io else []
  | _ => []

/-- What `accept` and `server_lookup_connect` return when an event is served. -/
def openCalls (s : ProxyState) (e : Event) : List Int :=
  let node := s.fdNodes.cell e.node
  match node.type with
  | .listen => e.io.accepted.toList
  | .client => if node.status = .reading then e.io.connected.toList else []
  | _ => []

namespace ProxyState

/-- The nodes of the list that hold a descriptor. -/
def holders (s : ProxyState) : List Nat := s.fds.filter fun f => (s.node f).type ≠ .dummy

def descriptors (s : ProxyState) : List Int := s.holders.map fun f => (s.node f).fd

end ProxyState

/-- The descriptors open after a run of events: one that is opened was not open before. -/
inductive Opens (slots : Nat) : List Transition → ProxyState → List Int → Prop where
  | start {maxClient listenFd s} (h : ProxyState.start slots maxClient listenFd = some s) (valid : 0 ≤ listenFd) :
      Opens slots [] s [listenFd]
  | step {history s fds e t} (h : Opens slots history s fds) (next : step s e = some t)
      (fresh : ∀ fd ∈ openCalls s e, 0 ≤ fd ∧ fd ∉ fds) :
      Opens slots (history ++ [⟨s, e, t⟩]) t (fds.diff (closeCalls s e) ++ openCalls s e)

/-- What one event does to the descriptors and the nodes that hold them. -/
inductive Turnover (s : ProxyState) (e : Event) (t : ProxyState) : Prop where
  | kept (closes : closeCalls s e = []) (opens : openCalls s e = []) (listed : ∀ g, g ∈ t.fds ↔ g ∈ s.fds)
  | opened {fd} (closes : closeCalls s e = []) (opens : openCalls s e = [fd])
      (listed : ∀ g, g ∈ t.fds ↔ g = s.fdNodes.top ∨ g ∈ s.fds) (holds : (t.node s.fdNodes.top).fd = fd)
      (starts : (t.node s.fdNodes.top).type = .client ∧ (t.node s.fdNodes.top).status = .reading ∧
          (s.node e.node).type = .listen ∨
        (t.node s.fdNodes.top).type = .server ∧ (t.node s.fdNodes.top).status = .writing)
  | closed (type : (s.node e.node).type = .client ∨ (s.node e.node).type = .server)
      (closes : closeCalls s e = [(s.node e.node).fd]) (opens : openCalls s e = [])
      (listed : ∀ g, g ∈ t.fds ↔ g ∈ s.fds ∧ g ≠ e.node)
      (reads : (s.node e.node).type = .server → (s.node e.node).status = .reading)

section

variable {slots f g c : Nat} {s t u : ProxyState} {v : View} {e : Event} {io : Io} {history : List Transition}
  {fds : List Int}

theorem finds304_iff (node : (s.session f).cacheNode = some c) :
    finds304 s f io = true ↔ NotModified s f c (bufRecv io) io := by
  replace node : (s.fdNodes.cell f).cacheNode = some c := node
  unfold finds304 NotModified
  simp only [node, Bool.and_eq_true, Bool.not_eq_true', beq_iff_eq, Option.bind_eq_some_iff]
  exact ⟨fun ⟨⟨incomplete, flag⟩, found⟩ => ⟨flag, incomplete, found⟩,
    fun ⟨flag, incomplete, found⟩ => ⟨⟨incomplete, flag⟩, found⟩⟩

/-- A 304 is not found where nothing has been received, so a server is closed at most once. -/
theorem cacheRecv_closes {p : Nat} {backup : Option Nat} (server : s.session f = .server p c backup true) :
    (io.chunk ≠ [] ∧ ¬ NotModified s f c (bufRecv io) io → cacheRecvCloses s f io = []) ∧
      (io.chunk = [] ∨ NotModified s f c (bufRecv io) io → cacheRecvCloses s f io = [(s.node f).fd]) := by
  have type : (s.fdNodes.cell f).type = .server := congrArg Session.type server
  have found : finds304 s f io = true ↔ NotModified s f c (bufRecv io) io :=
    finds304_iff (congrArg Session.cacheNode server)
  have apart : NotModified s f c (bufRecv io) io → io.chunk ≠ [] := by
    rintro ⟨_, _, info, parsed, _⟩
    exact parseResponse_arrived parsed
  unfold cacheRecvCloses
  simp only [type, if_true]
  refine ⟨fun ⟨arrived, modified⟩ => ?_, fun ends => ?_⟩
  · rw [if_neg (mt found.mp modified), if_neg arrived]
    rfl
  · rcases ends with empty | notModified
    · rw [if_neg fun again => apart (found.mp again) empty, if_pos empty]
      rfl
    · rw [if_pos (found.mpr notModified), if_neg (apart notModified)]
      rfl

/-- A write to a client closes it when the whole buffer has been sent. -/
theorem clientWrite_closes {d : Nat} (node : (s.node f).cacheNode = some d) (writing : (s.node f).status = .writing)
    (sent : cacheSend s f io = some u) :
    (SentAll (s.content d) ((s.node f).offset + sentBytes (s.content d) (s.node f).offset io) →
        clientWriteCloses s f io = [(s.node f).fd]) ∧
      (¬ SentAll (s.content d) ((s.node f).offset + sentBytes (s.content d) (s.node f).offset io) →
        clientWriteCloses s f io = []) := by
  obtain ⟨send, bytes, _, _, outcome⟩ := cacheSend_node node sent
  rw [← bytes]
  unfold clientWriteCloses
  rw [sent]
  change (_ → (if (u.node f).status = .idle then [(u.node f).fd] else []) = _) ∧
    (_ → (if (u.node f).status = .idle then [(u.node f).fd] else []) = _)
  rcases outcome with ⟨all, nodes⟩ | ⟨more, nodes⟩
  · rw [nodes, Function.update_self]
    exact ⟨fun _ => if_pos rfl, fun more => absurd all more⟩
  · rw [nodes, Function.update_self]
    exact ⟨fun all => absurd all more, fun _ => if_neg (by rw [writing]; decide)⟩

theorem removeFd_sends (h : removeFd s f = some t) : t.sends = s.sends := by
  obtain ⟨nodes, _, h⟩ := Option.bind_eq_some_iff.mp h
  obtain rfl := Option.some.inj h
  rfl

theorem cacheSend_sends (h : cacheSend s f io = some t) : ∃ send, t.sends = s.sends ++ [send] := by
  obtain ⟨c, node, _⟩ := Option.bind_eq_some_iff.mp h
  obtain ⟨send, _, sends, _⟩ := cacheSend_node node h
  exact ⟨send, sends⟩

theorem clientWriteHandler_sends (h : clientWriteHandler s f io = some t) : ∃ send, t.sends = s.sends ++ [send] := by
  obtain ⟨u, sent, h⟩ := Option.bind_eq_some_iff.mp h
  obtain ⟨send, sends⟩ := cacheSend_sends sent
  refine ⟨send, Eq.trans ?_ sends⟩
  split at h
  · exact removeFd_sends h
  · rw [Option.some.inj h]

theorem serverWriteHandler_sends (h : serverWriteHandler s f io = some t) : ∃ send, t.sends = s.sends ++ [send] := by
  obtain ⟨u, sent, h⟩ := Option.bind_eq_some_iff.mp h
  obtain ⟨send, sends⟩ := cacheSend_sends sent
  refine ⟨send, Eq.trans ?_ sends⟩
  split at h
  · rw [← Option.some.inj h]
    rfl
  · rw [Option.some.inj h]

/-- A node that neither listens nor is read from is left alone or written to. -/
theorem unread_cases (type : (s.node f).type ≠ .listen) (unread : ¬ s.Reads f) (run : serve s f io = some t) :
    t = s ∧ ((s.node f).type = .client ∨ (s.node f).type = .server → (s.node f).status ≠ .writing) ∨
      (s.node f).status = .writing ∧ ∃ send, t.sends = s.sends ++ [send] := by
  have reading : (s.node f).type = .client ∨ (s.node f).type = .server → (s.fdNodes.cell f).status ≠ .reading :=
    fun of same => unread ⟨same, of⟩
  unfold serve at run
  cases here : (s.node f).type with
  | listen => exact absurd here type
  | dummy =>
    have dummy : (s.fdNodes.cell f).type = .dummy := here
    simp only [dummy] at run
    refine .inl ⟨(Option.some.inj run).symm, fun of => ?_⟩
    rcases of with client | server
    · cases client
    · cases server
  | client =>
    have client : (s.fdNodes.cell f).type = .client := here
    simp only [client, if_neg (reading (.inl here))] at run
    split at run
    · rename_i writing
      exact .inr ⟨writing, clientWriteHandler_sends run⟩
    · rename_i other
      exact .inl ⟨(Option.some.inj run).symm, fun _ => other⟩
  | server =>
    have server : (s.fdNodes.cell f).type = .server := here
    simp only [server, if_neg (reading (.inr here))] at run
    split at run
    · rename_i writing
      exact .inr ⟨writing, serverWriteHandler_sends run⟩
    · rename_i other
      exact .inl ⟨(Option.some.inj run).symm, fun _ => other⟩

/-- The calls that concern a node by its type and status. -/
theorem closes_unread (unread : ¬ s.Reads e.node)
    (idle : (s.node e.node).type = .client → (s.node e.node).status ≠ .writing) : closeCalls s e = [] := by
  have reading : (s.node e.node).type = .client ∨ (s.node e.node).type = .server →
      (s.node e.node).status ≠ .reading := fun of same => unread ⟨same, of⟩
  unfold closeCalls
  change (match (s.node e.node).type with
    | .client => if (s.node e.node).status = .reading then _ else if (s.node e.node).status = .writing then _ else []
    | .server => if (s.node e.node).status = .reading then _ else []
    | _ => []) = []
  cases here : (s.node e.node).type with
  | client =>
    simp only [if_neg (reading (.inl here)), if_neg (idle here)]
  | server =>
    simp only [if_neg (reading (.inr here))]
  | dummy => rfl
  | listen => rfl

theorem opens_unread (type : (s.node e.node).type ≠ .listen) (unread : ¬ s.Reads e.node) : openCalls s e = [] := by
  unfold openCalls
  change (match (s.node e.node).type with
    | .listen => _
    | .client => if (s.node e.node).status = .reading then _ else []
    | _ => []) = []
  cases here : (s.node e.node).type with
  | listen => exact absurd here type
  | client => exact if_neg fun same => unread ⟨same, .inl here⟩
  | dummy => rfl
  | server => rfl

theorem listen_turnover (h : Represents s v) (type : (s.node e.node).type = .listen)
    (run : (listenFdHandler s e.io).bind printFdList = some t) : Turnover s e t := by
  obtain ⟨u, handled, printed⟩ := Option.bind_eq_some_iff.mp run
  obtain ⟨quiet, _⟩ := printFdNodes_effect printed
  obtain ⟨nodes, _, _⟩ := printFdNodes_node printed
  replace type : (s.fdNodes.cell e.node).type = .listen := type
  have closes : closeCalls s e = [] := by
    unfold closeCalls
    simp only [type]
  have opens : openCalls s e = e.io.accepted.toList := by
    unfold openCalls
    simp only [type]
  unfold listenFdHandler at handled
  split at handled
  · rename_i refused
    obtain rfl := Option.some.inj handled
    rw [refused] at opens
    exact .kept closes opens fun g => by rw [quiet.fds]
  · rename_i fd accepted
    rw [accepted] at opens
    obtain ⟨⟨front, rear, xs, list⟩, _⟩ := h
    obtain ⟨sameNodes, _, listed, _⟩ := appendFd_node (by exact list.list) handled
    have new : t.node s.fdNodes.top = newFdNode none none fd .client .reading (some s.cache.nodes.top) := by
      rw [nodes, sameNodes]
      exact Function.update_self _ _ _
    refine .opened closes opens (fun g => ?_) (congrArg FdNode.fd new)
      (.inl ⟨congrArg FdNode.type new, congrArg FdNode.status new, type⟩)
    rw [quiet.fds]
    exact (listed g).trans List.mem_cons

theorem closes_writing (type : (s.node e.node).type = .client) (writing : (s.node e.node).status = .writing) :
    closeCalls s e = clientWriteCloses s e.node e.io := by
  replace type : (s.fdNodes.cell e.node).type = .client := type
  replace writing : (s.fdNodes.cell e.node).status = .writing := writing
  unfold closeCalls
  simp only [type, writing, reduceCtorEq, if_false, if_true]

theorem server_calls {p : Nat} {backup : Option Nat} (server : s.session e.node = .server p c backup true) :
    closeCalls s e = cacheRecvCloses s e.node e.io ∧ openCalls s e = [] := by
  have type : (s.fdNodes.cell e.node).type = .server := congrArg Session.type server
  have reading : (s.fdNodes.cell e.node).status = .reading := congrArg Session.status server
  constructor
  · unfold closeCalls
    simp only [type, reading, if_true]
  · unfold openCalls
    simp only [type]

theorem serve_sends (type : (s.node f).type = .client) (writing : (s.node f).status = .writing)
    (run : serve s f io = some t) : ∃ u, cacheSend s f io = some u := by
  replace type : (s.fdNodes.cell f).type = .client := type
  replace writing : (s.fdNodes.cell f).status = .writing := writing
  unfold serve at run
  simp only [type, writing, reduceCtorEq, if_false, if_true] at run
  obtain ⟨u, sent, _⟩ := Option.bind_eq_some_iff.mp run
  exact ⟨u, sent⟩

theorem Served.turnover (served : Served s e.node e.io t) (type : (s.node e.node).type ≠ .listen)
    (run : serve s e.node e.io = some t) : Turnover s e t := by
  have unread : ¬ s.Reads e.node → t.sends = s.sends → t = s ∧ closeCalls s e = [] ∧ openCalls s e = [] := by
    intro idle sends
    rcases unread_cases type idle run with ⟨same, other⟩ | ⟨_, send, more⟩
    · exact ⟨same, closes_unread idle fun client => other (.inl client), opens_unread type idle⟩
    · rw [sends] at more
      exact absurd more (by simp)
  cases served with
  | still idle shows =>
    obtain ⟨rfl, closes, opens⟩ := unread idle shows.sends
    exact .kept closes opens fun g => Iff.rfl
  | accepted idle shows =>
    obtain ⟨rfl, _⟩ := unread idle shows.sends
    exact absurd shows.fdTop (Nat.ne_of_lt (Nat.lt_succ_self _))
  | @dropped c n client request shows refused =>
    have client' : (s.fdNodes.cell e.node).type = .client := congrArg Session.type client
    have reading : (s.fdNodes.cell e.node).status = .reading := congrArg Session.status client
    refine .closed (.inl client') ?_ ?_ (fun g => ?_) fun _ => reading
    · unfold closeCalls clientReadCloses cacheRecvCloses
      simp only [client', reading, refused, if_true, reduceCtorEq, if_false, List.nil_append]
      rfl
    · unfold openCalls
      simp only [client', reading, refused, if_true]
      rfl
    · exact (shows.listed g).trans (by simp [List.mem_filter])
  | @connected c n fd client request shows reached =>
    have client' : (s.fdNodes.cell e.node).type = .client := congrArg Session.type client
    have reading : (s.fdNodes.cell e.node).status = .reading := congrArg Session.status client
    have new : t.node s.fdNodes.top = .server fd e.node c (isCacheHit s.cache n.httpInfo) := by
      rw [shows.node]
      exact Function.update_self _ _ _
    refine @Turnover.opened _ _ _ fd ?_ ?_ (fun g => (shows.listed g).trans List.mem_cons) (congrArg FdNode.fd new)
      (.inr ⟨congrArg FdNode.type new, congrArg FdNode.status new⟩)
    · unfold closeCalls clientReadCloses cacheRecvCloses
      simp only [client', reading, reached, if_true, reduceCtorEq, if_false, List.nil_append]
    · unfold openCalls
      simp only [client', reading, reached, if_true]
      rfl
  | @sent c send writing document bytes more shows =>
    have idle := not_reads_of_writing writing
    refine .kept ?_ (opens_unread type idle) shows.listed
    by_cases client : (s.node e.node).type = .client
    · rw [closes_writing client writing]
      obtain ⟨u, sends⟩ := serve_sends client writing run
      rw [bytes] at more
      exact (clientWrite_closes document writing sends).2 more
    · exact closes_unread idle fun same => absurd same client
  | @asked p c backup send server bytes all shows =>
    have server' : (s.fdNodes.cell e.node).type = .server := congrArg Session.type server
    have writing : (s.node e.node).status = .writing := congrArg Session.status server
    have idle := not_reads_of_writing writing
    refine .kept (closes_unread idle fun client => ?_) (opens_unread type idle) shows.listed
    cases client.symm.trans server'
  | @answered g d send client bytes all shows =>
    have client' : (s.node e.node).type = .client := congrArg Session.type client
    have writing : (s.node e.node).status = .writing := congrArg Session.status client
    obtain ⟨u, sends⟩ := serve_sends client' writing run
    rw [bytes] at all
    refine .closed (.inl client') ?_ (opens_unread type (not_reads_of_writing writing)) (fun g => ?_) fun server => ?_
    · rw [closes_writing client' writing]
      exact (clientWrite_closes (congrArg Session.cacheNode client) writing sends).1 all
    · exact (shows.listed g).trans (by simp [List.mem_filter])
    · cases client'.symm.trans server
  | @received p c backup n server heard arrived modified shows =>
    obtain ⟨closes, opens⟩ := server_calls server
    refine .kept ?_ opens shows.listed
    rw [closes]
    exact (cacheRecv_closes server).1 ⟨arrived, modified⟩
  | @finished p c d backup n content entries server client heard ends enters shows =>
    obtain ⟨closes, opens⟩ := server_calls server
    refine .closed (.inr (congrArg Session.type server)) ?_ opens (fun g => ?_) fun _ => congrArg Session.status server
    · rw [closes]
      refine (cacheRecv_closes server).2 ?_
      cases ends with
      | closed ended => exact .inl (chunk_of_closed ended)
      | notModified same => exact .inr same
    · exact (shows.listed g).trans (by simp [List.mem_filter])

/-- The descriptors follow the nodes of the list. -/
theorem step_turnover (h : Represents s v) (sound : Sound v) (shared : v.Shared) (next : step s e = some t) :
    Turnover s e t := by
  obtain ⟨listed, served⟩ := step_served h sound shared next
  have run : serve s e.node e.io = some t := by
    unfold Proxy.step at next
    rwa [if_pos listed] at next
  by_cases type : (s.node e.node).type = .listen
  · refine listen_turnover h type ?_
    unfold serve at run
    replace type : (s.fdNodes.cell e.node).type = .listen := type
    simp only [type] at run
    exact run
  · exact served.turnover type run

/-- No event changes the descriptor or the type of a node. -/
theorem Served.holds (served : Served s f io t) (older : g ≠ s.fdNodes.top) :
    (t.node g).fd = (s.node g).fd ∧ (t.node g).type = (s.node g).type := by
  by_cases here : g = f
  · obtain rfl := here
    cases served with
    | still _ shows =>
      rw [shows.node]
      exact ⟨rfl, rfl⟩
    | accepted _ shows =>
      rw [shows.node]
      dsimp only
      rw [Function.update_of_ne older]
      exact ⟨rfl, rfl⟩
    | connected _ _ shows =>
      rw [shows.node]
      dsimp only
      rw [Function.update_of_ne older, Function.update_self]
      exact ⟨rfl, rfl⟩
    | finished _ _ _ _ _ shows | dropped _ _ shows | sent _ _ _ _ shows | asked _ _ _ shows
    | answered _ _ _ shows | received _ _ _ _ shows =>
      rw [shows.node]
      dsimp only
      rw [Function.update_self]
      exact ⟨rfl, rfl⟩
  · rcases served.woken older here with same | ⟨c, d, backup, n, content, _, _, _, _, same, _⟩
    · rw [same]
      exact ⟨rfl, rfl⟩
    · rw [same]
      exact ⟨rfl, rfl⟩

theorem mem_holders : g ∈ s.holders ↔ g ∈ s.fds ∧ (s.node g).type ≠ .dummy := by
  rw [ProxyState.holders, List.mem_filter, decide_eq_true_eq]

theorem start_list {maxClient : Nat} {listenFd : Int} (h : ProxyState.start slots maxClient listenFd = some s) :
    s.fds = [0, 2, 1] ∧ s.session 0 = .bare .dummy .idle ∧ s.session 2 = .bare .listen .reading ∧
      s.session 1 = .bare .dummy .idle ∧ (s.node 2).fd = listenFd := by
  unfold ProxyState.start at h
  obtain ⟨rep, front, rear⟩ := newFdList_spec (.empty (newFdNode none none (-1) .dummy .idle none)) maxClient
  obtain ⟨rep', sessions, _⟩ := appendFd_effect (by exact rep) h
  obtain ⟨nodes, _⟩ := appendFd_node (by exact rep) h
  replace sessions : s.session = Function.update
      (fun f => ((newFdList (.empty (newFdNode none none (-1) .dummy .idle none)) maxClient).1.cell f).session) 2
      (.bare .listen .reading) := sessions
  refine ⟨rep'.nodes_eq, ?_, ?_, ?_, ?_⟩
  · rw [sessions]
    exact front
  · rw [sessions]
    rfl
  · rw [sessions]
    exact rear
  · rw [nodes]
    rfl

/-! ### Runs -/

theorem Opens.ran (h : Opens slots history s fds) : Ran slots history s := by
  induction h with
  | start h _ => exact .start h
  | step _ next _ ih => exact .step ih next

/-- Who holds a descriptor after an event, among the nodes that did before. -/
theorem Turnover.descriptors (h : Turnover s e t) (distinct : s.fds.Nodup) (distinct' : t.fds.Nodup)
    (allocated : ∀ g ∈ s.fds, g < s.fdNodes.top) (listed : e.node ∈ s.fds)
    (holds : ∀ g, g ≠ s.fdNodes.top → (t.node g).fd = (s.node g).fd ∧ (t.node g).type = (s.node g).type) :
    closeCalls s e = [] ∧ openCalls s e = [] ∧ t.descriptors.Perm s.descriptors ∨
      (∃ fd, closeCalls s e = [] ∧ openCalls s e = [fd] ∧ t.descriptors.Perm (fd :: s.descriptors)) ∨
      closeCalls s e = [(s.node e.node).fd] ∧ openCalls s e = [] ∧
        s.descriptors.Perm ((s.node e.node).fd :: t.descriptors) := by
  have older : ∀ g ∈ s.fds, g ≠ s.fdNodes.top := fun g member => Nat.ne_of_lt (allocated g member)
  have nodup : s.holders.Nodup := distinct.filter _
  have nodup' : t.holders.Nodup := distinct'.filter _
  have same : ∀ g ∈ s.holders, (t.node g).fd = (s.node g).fd := fun g member =>
    (holds g (older g (mem_holders.mp member).1)).1
  have mapped : s.descriptors = s.holders.map fun g => (t.node g).fd :=
    (List.map_congr_left same).symm
  cases h with
  | kept closes opens members =>
    refine .inl ⟨closes, opens, ?_⟩
    rw [mapped]
    refine List.Perm.map _ ((List.perm_ext_iff_of_nodup nodup' nodup).mpr fun g => ?_)
    rw [mem_holders, mem_holders, members]
    refine and_congr_right fun member => ?_
    rw [(holds g (older g member)).2]
  | @opened fd closes opens members new starts =>
    refine .inr (.inl ⟨fd, closes, opens, ?_⟩)
    have fresh : s.fdNodes.top ∉ s.holders := fun member => older _ (mem_holders.mp member).1 rfl
    rw [mapped, ← new]
    refine List.Perm.map _
      ((List.perm_ext_iff_of_nodup nodup' (List.nodup_cons.mpr ⟨fresh, nodup⟩)).mpr fun g => ?_)
    rw [List.mem_cons, mem_holders, mem_holders, members]
    constructor
    · rintro ⟨rfl | member, busy⟩
      · exact .inl rfl
      · exact .inr ⟨member, (holds g (older g member)).2 ▸ busy⟩
    · rintro (rfl | ⟨member, busy⟩)
      · refine ⟨.inl rfl, fun dummy => ?_⟩
        rcases starts with ⟨client, _⟩ | ⟨server, _⟩
        · cases client.symm.trans dummy
        · cases server.symm.trans dummy
      · exact ⟨.inr member, (holds g (older g member)).2.symm ▸ busy⟩
  | closed type closes opens members =>
    refine .inr (.inr ⟨closes, opens, ?_⟩)
    have gone : e.node ∉ t.holders := fun member => ((members _).mp (mem_holders.mp member).1).2 rfl
    rw [mapped, ← (holds e.node (older _ listed)).1]
    refine List.Perm.map _
      ((List.perm_ext_iff_of_nodup nodup (List.nodup_cons.mpr ⟨gone, nodup'⟩)).mpr fun g => ?_)
    rw [List.mem_cons, mem_holders, mem_holders, members]
    constructor
    · rintro ⟨member, busy⟩
      by_cases here : g = e.node
      · exact .inl here
      · exact .inr ⟨⟨member, here⟩, (holds g (older g member)).2.symm ▸ busy⟩
    · rintro (rfl | ⟨⟨member, _⟩, busy⟩)
      · refine ⟨listed, fun dummy => ?_⟩
        rcases type with client | server
        · cases client.symm.trans dummy
        · cases server.symm.trans dummy
      · exact ⟨member, (holds g (older g member)).2 ▸ busy⟩

/-- What every reachable state lets an event do to the descriptors. -/
theorem reachable_turnover (two : 2 ≤ slots) (reached : Reachable slots s) (next : step s e = some t) :
    e.node ∈ s.fds ∧ Turnover s e t ∧ s.fds.Nodup ∧ t.fds.Nodup ∧ (∀ g ∈ s.fds, g < s.fdNodes.top) ∧
      ∀ g, g ≠ s.fdNodes.top → (t.node g).fd = (s.node g).fd ∧ (t.node g).type = (s.node g).type := by
  obtain ⟨v, represents, sound, shared⟩ := reachable_shared two reached
  obtain ⟨w, represents', _⟩ := reachable_represents two (reached.step next)
  obtain ⟨listed, served⟩ := step_served represents sound shared next
  obtain ⟨front, rear, xs, list⟩ := represents.list
  obtain ⟨front', rear', xs', list'⟩ := represents'.list
  have live := reachable_live two reached
  exact ⟨listed, step_turnover represents sound shared next, list.nodup, list'.nodup,
    fun g member => (live.listed g member).1, fun g older => served.holds older⟩

/-- The open descriptors are those of the nodes of the list, each of one node. -/
theorem Opens.descriptors (two : 2 ≤ slots) (h : Opens slots history s fds) :
    fds.Nodup ∧ (∀ fd ∈ fds, 0 ≤ fd) ∧ fds.Perm s.descriptors := by
  induction h with
  | @start maxClient listenFd s h valid =>
    obtain ⟨listed, front, listener, rear, holds⟩ := start_list h
    have first : (s.node 0).type = .dummy := congrArg Session.type front
    have second : (s.node 2).type = .listen := congrArg Session.type listener
    have last : (s.node 1).type = .dummy := congrArg Session.type rear
    have only : s.holders = [2] := by
      rw [ProxyState.holders, listed]
      simp [first, second, last]
    refine ⟨List.nodup_singleton _, fun fd member => (List.mem_singleton.mp member).symm ▸ valid, ?_⟩
    rw [ProxyState.descriptors, only, List.map_singleton, holds]
  | @step history s fds e t h next fresh ih =>
    obtain ⟨distinct, valid, same⟩ := ih
    obtain ⟨listed, turnover, nodup, nodup', allocated, holds⟩ := reachable_turnover two h.ran.reachable next
    rcases turnover.descriptors nodup nodup' allocated listed holds with
      ⟨closes, opens, kept⟩ | ⟨fd, closes, opens, more⟩ | ⟨closes, opens, fewer⟩
    · rw [closes, opens, List.diff_nil, List.append_nil]
      exact ⟨distinct, valid, same.trans kept.symm⟩
    · rw [opens, List.forall_mem_singleton] at fresh
      have added : (fds.diff (closeCalls s e) ++ openCalls s e).Perm (fd :: fds) := by
        rw [closes, opens, List.diff_nil]
        exact List.perm_append_comm
      refine ⟨added.nodup_iff.mpr (List.nodup_cons.mpr ⟨fresh.2, distinct⟩), fun x member => ?_,
        added.trans ((same.cons fd).trans more.symm)⟩
      rcases List.mem_cons.mp (added.mem_iff.mp member) with rfl | old
      · exact fresh.1
      · exact valid x old
    · rw [closes, opens, List.diff_cons, List.diff_nil, List.append_nil]
      refine ⟨distinct.erase _, fun x member => valid x (List.mem_of_mem_erase member), ?_⟩
      have erased := (same.trans fewer).erase (s.node e.node).fd
      rwa [List.erase_cons_head] at erased

/-- No descriptor leaks and none is closed twice: the open ones are those of the listening socket and of the
clients and servers of the list, each of one node, and a node is closed once, when it leaves the list. -/
theorem descriptors_owned (two : 2 ≤ slots) (h : Opens slots history s fds) :
    fds.Nodup ∧ fds.Perm s.descriptors ∧ ∀ e t, step s e = some t →
      closeCalls s e = (if e.node ∈ t.fds then [] else [(s.node e.node).fd]) ∧ ∀ fd ∈ closeCalls s e, fd ∈ fds := by
  obtain ⟨distinct, _, same⟩ := h.descriptors two
  refine ⟨distinct, same, fun e t next => ?_⟩
  obtain ⟨listed, turnover, nodup, nodup', allocated, holds⟩ := reachable_turnover two h.ran.reachable next
  cases turnover with
  | kept closes _ members =>
    rw [closes, if_pos ((members _).mpr listed)]
    exact ⟨rfl, fun fd member => absurd member List.not_mem_nil⟩
  | opened closes _ members =>
    rw [closes, if_pos ((members _).mpr (.inr listed))]
    exact ⟨rfl, fun fd member => absurd member List.not_mem_nil⟩
  | closed type closes _ members =>
    rw [closes, if_neg fun member => ((members _).mp member).2 rfl]
    refine ⟨rfl, fun fd member => ?_⟩
    rw [List.mem_singleton.mp member]
    refine same.mem_iff.mpr (List.mem_map_of_mem (mem_holders.mpr ⟨listed, fun dummy => ?_⟩))
    rcases type with client | server
    · cases client.symm.trans dummy
    · cases server.symm.trans dummy

/-! ### A descriptor used again -/

/-- The descriptors open after the events, where each one opened was not open before. -/
def openedBy (fds : List Int) : List Transition → Option (List Int)
  | [] => some fds
  | x :: xs =>
    if ∀ fd ∈ openCalls x.before x.event, 0 ≤ fd ∧ fd ∉ fds then
      openedBy (fds.diff (closeCalls x.before x.event) ++ openCalls x.before x.event) xs
    else none

theorem Opens.trace {es : List Event} {more : List Transition} {now : List Int} (h : Opens slots history s fds)
    (run : s.trace es = some (more, t)) (opened : openedBy fds more = some now) :
    Opens slots (history ++ more) t now := by
  induction es generalizing history s fds more with
  | nil =>
    obtain ⟨rfl, rfl⟩ := Prod.mk.inj (Option.some.inj run)
    obtain rfl := Option.some.inj opened
    rwa [List.append_nil]
  | cons e es ih =>
    obtain ⟨u, next, run⟩ := Option.bind_eq_some_iff.mp run
    obtain ⟨⟨rest, last⟩, later, same⟩ := Option.map_eq_some_iff.mp run
    obtain ⟨rfl, rfl⟩ := Prod.mk.inj same
    unfold openedBy at opened
    split at opened
    · rename_i fresh
      rw [List.append_cons]
      exact ih (h.step next fresh) later opened
    · cases opened

/-- The second client has the descriptor of the first one. -/
theorem descriptors_owned_again : ∃ history s, Opens 2 history s [3, 4] ∧ [3, 4].Perm s.descriptors := by
  have run : (ProxyState.start 2 3 3).bind (fun s => (s.trace
      [.accept 4, .request 3 "a" 5, .send 4 1500, .response 4, .closed 4, .send 3 1500, .accept 4]).bind fun run =>
        openedBy [3] run.1) = some [3, 4] := by
    decide +kernel
  obtain ⟨s, started, run⟩ := Option.bind_eq_some_iff.mp run
  obtain ⟨⟨history, t⟩, trace, opened⟩ := Option.bind_eq_some_iff.mp run
  have opens : Opens 2 ([] ++ history) t [3, 4] := (Opens.start started (by decide)).trace trace opened
  obtain ⟨_, same, _⟩ := descriptors_owned (Nat.le_refl 2) opens
  exact ⟨history, t, opens, same⟩

end

end NetProjects.Proxy
