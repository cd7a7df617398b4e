import NetProjects.Proxy.History
import NetProjects.Proxy.Pairing

/-!
# What a run has received

What a node of the list has received so far is at the start of the buffer of the cache node it
receives into, and the header of that node is the one in its first bytes.
-/

namespace NetProjects.Proxy
open Bytes

/-- An origin answers a 304 to a request that was not conditional. -/
def Transition.Unasked304 (x : Transition) : Prop :=
  (x.before.node x.event.node).type = .server ∧ (x.before.node x.event.node).flag ≠ 1 ∧
    x.before.Reads x.event.node ∧ Is304 x.event.io.chunk ∧
    ∀ c ∈ (x.before.node x.event.node).cacheNode, (x.before.content c).httpInfo.infoComplete = false

instance (x : Transition) : Decidable x.Unasked304 := inferInstanceAs (Decidable (_ ∧ _))

/-- Origins answer with a 304 only to conditional gets. -/
def OnlyConditional (history : List Transition) : Prop := ∀ x ∈ history, ¬ x.Unasked304

/-- The server `f` has not read yet. -/
structure Awaited (history : List Transition) (m : CacheNode) (f : Nat) (n : FdNode) : Prop where
  silent : Silent f history
  length : m.buffer.length = m.bufferSize
  incomplete : m.httpInfo.infoComplete = false
  request : ∀ p, n.proxied = some p → (received p history).length < m.bufferSize

/-- The response that the server `f` has received so far. -/
structure Fetched (history : List Transition) (m : CacheNode) (f : Nat) (offset : Int) : Prop where
  offset : offset = (received f history).length
  length : m.buffer.length = m.bufferSize
  room : (received f history).length < m.bufferSize
  holds : received f history <+: m.buffer
  silent : m.httpInfo.infoComplete = false → Silent f history
  header : m.httpInfo.infoComplete = true →
    ∃ info, header f history = some info ∧ m.httpInfo = { info with infoComplete := true }

/-- The document of the node `f` is what has been received through it. -/
def Tracked (history : List Transition) (content : Nat → CacheNode) (f : Nat) (n : FdNode) : Prop :=
  ∀ c, n.cacheNode = some c →
    match n.type, n.status with
    | .client, .reading => content c = .fresh none none initialBuffer ∧ n.offset = 0 ∧ Silent f history
    | .server, .writing => Awaited history (content c) f n
    | .server, .reading =>
      Fetched history (content c) f n.offset ∧
        ((content c).httpInfo.infoComplete = true → OnlyConditional history → ¬ Is304 (received f history))
    | _, _ => True

section

variable {slots f : Nat} {history : List Transition} {x : Transition}

theorem Fetched.heard {m m' : CacheNode} {offset : Int} (fetched : Fetched history m f offset) (reads : x.ReadsFrom f)
    (heard : m.heard offset x.event.io = some m')
    (headed : m.httpInfo.infoComplete = false → x.header =
      parseResponse (bufRecv x.event.io ++ x.event.io.memory.after) x.event.io.memory m.httpInfo) :
    Fetched (history ++ [x]) m' f (offset + x.event.io.chunk.length) ∧ m'.httpInfo.infoComplete = true := by
  obtain ⟨filled, fill, heard⟩ := Option.bind_eq_some_iff.mp heard
  rw [fetched.offset] at fill
  obtain ⟨length, room, holds⟩ := filled_holds _ fill fetched.length fetched.room fetched.holds
  have offset : offset + x.event.io.chunk.length = (received f (history ++ [x])).length := by
    rw [received_reads reads, List.length_append, fetched.offset]
    rfl
  rw [← received_reads reads] at room holds
  have info := filled_info fill
  split at heard
  · rename_i complete
    obtain rfl := Option.some.inj heard
    refine ⟨⟨offset, length, room, holds, fun incomplete => ?_, fun _ => ?_⟩, complete⟩
    · rw [complete] at incomplete
      cases incomplete
    · rw [info] at complete ⊢
      obtain ⟨i, first, same⟩ := fetched.header complete
      exact ⟨i, header_some first, same⟩
  · rename_i incomplete
    rw [Bool.not_eq_true, info] at incomplete
    obtain ⟨i, parsed, heard⟩ := Option.bind_eq_some_iff.mp heard
    obtain rfl := Option.some.inj heard
    refine ⟨⟨offset, length, room, holds, fun incomplete => ?_, fun _ => ⟨i, ?_, rfl⟩⟩, rfl⟩
    · cases incomplete
    · rw [header_first (fetched.silent incomplete) reads, headed incomplete, ← info]
      exact parsed

/-- The node receives into the cache node `c`. -/
def FdNode.Owns (n : FdNode) (c : Nat) : Prop :=
  n.cacheNode = some c ∧ (n.type = .server ∨ n.type = .client ∧ n.status = .reading)

theorem Tracked.content {content content' : Nat → CacheNode} {n : FdNode} (tracked : Tracked history content f n)
    (same : ∀ c, n.Owns c → content' c = content c) : Tracked history content' f n := by
  intro c node
  have now := tracked c node
  split
  · rename_i type status
    rw [same c ⟨node, .inr ⟨type, status⟩⟩]
    rwa [type, status] at now
  · rename_i type status
    rw [same c ⟨node, .inl type⟩]
    rwa [type, status] at now
  · rename_i type status
    rw [same c ⟨node, .inl type⟩]
    rwa [type, status] at now
  · trivial

theorem OnlyConditional.before (h : OnlyConditional (history ++ [x])) : OnlyConditional history :=
  fun y member => h y (List.mem_append_left _ member)

/-- An event that reads neither from the node nor from the client it serves. -/
theorem Tracked.unread {content : Nat → CacheNode} {n : FdNode} (tracked : Tracked history content f n)
    (unread : ¬ x.ReadsFrom f) (client : n.type = .server → ∀ p, n.proxied = some p → ¬ x.ReadsFrom p) :
    Tracked (history ++ [x]) content f n := by
  intro c node
  have now := tracked c node
  split
  · rename_i type status
    rw [type, status] at now
    obtain ⟨fresh, offset, silent⟩ := now
    exact ⟨fresh, offset, silent.other unread⟩
  · rename_i type status
    rw [type, status] at now
    obtain ⟨silent, length, incomplete, request⟩ := now
    refine ⟨silent.other unread, length, incomplete, fun p proxied => ?_⟩
    rw [received_other (client type p proxied)]
    exact request p proxied
  · rename_i type status
    rw [type, status] at now
    obtain ⟨⟨offset, length, room, holds, silent, head⟩, other⟩ := now
    rw [received_other unread]
    refine ⟨⟨?_, length, ?_, ?_, fun incomplete => (silent incomplete).other unread, fun complete => ?_⟩,
      fun complete only => other complete only.before⟩
    · rw [received_other unread]
      exact offset
    · rw [received_other unread]
      exact room
    · rw [received_other unread]
      exact holds
    · obtain ⟨info, first, same⟩ := head complete
      exact ⟨info, header_some first, same⟩
  · trivial

end

/-! ### Owners -/

def Stage.owner : Stage → Nat
  | asking f _ => f
  | fetching _ g _ _ _ => g
  | answering f _ => f

section

variable {s t : ProxyState} {v w : View} {f g c : Nat}

theorem Represents.fds_lt (h : Represents s v) (listed : f ∈ s.fds) : f < s.fdNodes.top := by
  obtain ⟨front, rear, xs, list⟩ := h.list
  rw [list.fds_eq] at listed
  exact list.list.allocated f listed

theorem owns_reading (reading : s.session f = .client .reading none c) : (s.node f).Owns c :=
  ⟨congrArg Session.cacheNode reading, .inr ⟨congrArg Session.type reading, congrArg Session.status reading⟩⟩

theorem owns_server {p : Nat} {backup : Option Nat} {asked : Bool} (server : s.session f = .server p c backup asked) :
    (s.node f).Owns c :=
  ⟨congrArg Session.cacheNode server, .inl (congrArg Session.type server)⟩

theorem Represents.owner (h : Represents s v) (listed : f ∈ s.fds) (owns : (s.node f).Owns c) :
    ∃ st ∈ v.stages, st.pending = some c ∧ st.owner = f := by
  obtain ⟨⟨front, rear, xs, list⟩, _⟩ := h
  obtain ⟨node, type⟩ := owns
  replace node : (s.session f).cacheNode = some c := node
  replace type : (s.session f).type = .server ∨ (s.session f).type = .client ∧ (s.session f).status = .reading := type
  cases list.role listed with
  | asking member client =>
    rw [client] at node
    exact ⟨_, member, node, rfl⟩
  | serving member _ server =>
    rw [server] at node
    exact ⟨_, member, node, rfl⟩
  | dummy here | listener here =>
    rw [here] at node
    cases node
  | waiting _ here _ | answering _ here =>
    rw [here] at type
    rcases type with server | ⟨_, reading⟩
    · cases server
    · cases reading

theorem Sound.stage_unique {st st' : Stage} (sound : Sound v) (member : st ∈ v.stages) (member' : st' ∈ v.stages)
    (pending : st.pending = some c) (pending' : st'.pending = some c) : st = st' := by
  obtain ⟨before, after, stages⟩ := List.append_of_mem member
  have alone := sound.pending_apart stages pending
  rw [stages] at member'
  by_contra other
  refine alone (List.mem_filterMap.mpr ⟨st', List.mem_append.mpr ?_, pending'⟩)
  rcases List.mem_append.mp member' with first | here
  · exact .inl first
  · exact .inr ((List.mem_cons.mp here).resolve_left fun same => other same.symm)

theorem Represents.owner_unique (h : Represents s v) (sound : Sound v) (listed : f ∈ s.fds) (listed' : g ∈ s.fds)
    (owns : (s.node f).Owns c) (owns' : (s.node g).Owns c) : f = g := by
  obtain ⟨st, member, pending, rfl⟩ := h.owner listed owns
  obtain ⟨st', member', pending', rfl⟩ := h.owner listed' owns'
  rw [sound.stage_unique member member' pending pending']

/-- No other node of the list receives into it. -/
theorem Represents.others (h : Represents s v) (sound : Sound v) (listed : f ∈ s.fds) (owns : (s.node f).Owns c)
    (listed' : g ∈ s.fds) (other : g ≠ f) (n : CacheNode) :
    ∀ d, (s.node g).Owns d → Function.update s.content c n d = s.content d := by
  intro d owned
  refine Function.update_of_ne ?_ n s.content
  rintro rfl
  exact other (h.owner_unique sound listed' listed owned owns)

theorem Represents.owned (h : Represents s v) (listed : f ∈ s.fds) (owns : (s.node f).Owns c) : c ∈ v.pending := by
  obtain ⟨st, member, pending, _⟩ := h.owner listed owns
  exact List.mem_filterMap.mpr ⟨st, member, pending⟩

theorem Represents.owned_live (h : Represents s v) (sound : Sound v) (listed : f ∈ s.fds) (owns : (s.node f).Owns c) :
    c < s.cache.nodes.top ∧ c ∉ s.cache.entries ∧ c ∉ s.cache.nodes.freed := by
  rw [h.cache.top, h.cache.entries_eq, h.cache.freed]
  exact sound.pending c (h.owned listed owns)

/-- A document that is shared is not received into. -/
theorem Represents.backup_ne {b : Nat} (h : Represents s v) (shared : v.Shared) (listed : f ∈ s.fds) (listed' : g ∈ s.fds)
    (type : (s.session f).type = .server) (backup : (s.session f).backup = some b) (owns : (s.node g).Owns c) : c ≠ b := by
  obtain ⟨front, rear, xs, list⟩ := h.list
  obtain ⟨p, d, backup', asked, member, _, server⟩ := list.server listed type
  rw [server] at backup
  rintro rfl
  exact (shared _ member c backup).1 (h.owned listed' owns)

/-- The client of a server waits. -/
theorem Represents.proxied_idle {p : Nat} (h : Represents s v) (listed : f ∈ s.fds) (type : (s.node f).type = .server)
    (proxied : (s.node f).proxied = some p) : ¬ s.Reads p := by
  obtain ⟨front, rear, xs, list⟩ := h.list
  obtain ⟨q, c, backup, asked, _, client, server⟩ := list.server listed type
  replace proxied : (s.session f).proxied = some p := proxied
  rw [server] at proxied
  obtain rfl := Option.some.inj proxied
  apply not_reads_of_session
  rw [client]
  exact fun impossible => by cases impossible

theorem Shows.tracked {history : List Transition} {x : Snapshot} (h : Represents t w) (sound : Sound w) (shows : Shows t x)
    (tracked : ∀ f ∈ x.fds, Tracked history x.content f (x.node f)) :
    ∀ f ∈ t.fds, Tracked history t.content f (t.node f) := by
  intro f listed
  have now := tracked f ((shows.listed f).mp listed)
  rw [← shows.node] at now
  exact now.content fun c owns => shows.content c (h.owned_live sound listed owns).2.2

theorem requested_holds {n m : CacheNode} {io : Io} (h : n.requested 0 io = some m)
    (fresh : n = .fresh none none initialBuffer) :
    m.buffer.length = m.bufferSize ∧ m.httpInfo.infoComplete = false ∧ io.chunk.length < m.bufferSize := by
  obtain ⟨filled, fill, h⟩ := Option.bind_eq_some_iff.mp h
  obtain ⟨length, room, _⟩ := filled_holds [] fill (by rw [fresh]; rfl) (by rw [fresh]; decide)
    List.nil_prefix
  have incomplete : filled.httpInfo.infoComplete = false := by
    rw [filled_info fill, fresh]
    rfl
  obtain ⟨ended, _, h⟩ := Option.bind_eq_some_iff.mp h
  split at h
  · obtain ⟨info, parsed, h⟩ := Option.bind_eq_some_iff.mp h
    obtain rfl := Option.some.inj h
    exact ⟨length, (parseRequest_complete parsed).trans incomplete, room⟩
  · obtain rfl := Option.some.inj h
    exact ⟨length, incomplete, room⟩

theorem Tracked.idle {history : List Transition} {content : Nat → CacheNode} {n : FdNode} (idle : n.status = .idle) :
    Tracked history content f n := by
  intro c _
  rw [idle]
  split
  · rename_i impossible
    cases impossible
  · rename_i impossible
    cases impossible
  · rename_i impossible
    cases impossible
  · trivial

theorem Tracked.answering {history : List Transition} {content : Nat → CacheNode} {n : FdNode} (type : n.type = .client)
    (writing : n.status = .writing) : Tracked history content f n := by
  intro c _
  rw [type, writing]
  trivial

theorem Tracked.moved {history : List Transition} {content : Nat → CacheNode} {n : FdNode}
    (tracked : Tracked history content f n) (writing : n.status = .writing) (offset : Int) :
    Tracked history content f { n with offset := offset } := by
  intro c node
  have now := tracked c node
  dsimp only
  rw [writing] at now ⊢
  split
  · rename_i impossible
    cases impossible
  · rename_i type _
    rw [type] at now
    obtain ⟨silent, length, incomplete, request⟩ := now
    exact ⟨silent, length, incomplete, request⟩
  · rename_i impossible
    cases impossible
  · trivial

/-- What a server has received, this event included. -/
theorem Tracked.heard {history : List Transition} {e : Event} {p : Nat} {backup : Option Nat} {n : CacheNode}
    (tracked : Tracked history s.content e.node (s.node e.node)) (server : s.session e.node = .server p c backup true)
    (heard : (s.content c).heard (s.node e.node).offset e.io = some n) :
    Fetched (history ++ [⟨s, e, t⟩]) n e.node ((s.node e.node).offset + e.io.chunk.length) ∧
      n.httpInfo.infoComplete = true ∧
      (¬ NotModified s e.node c (bufRecv e.io) e.io → OnlyConditional (history ++ [⟨s, e, t⟩]) →
        ¬ Is304 (received e.node (history ++ [⟨s, e, t⟩]))) := by
  have type : (s.node e.node).type = .server := congrArg Session.type server
  have status : (s.node e.node).status = .reading := congrArg Session.status server
  have node : (s.node e.node).cacheNode = some c := congrArg Session.cacheNode server
  have reads : (Transition.mk s e t).ReadsFrom e.node := ⟨rfl, status, .inr type⟩
  have asked := tracked c node
  rw [type, status] at asked
  obtain ⟨fetched, other⟩ := asked
  have parse : (Transition.mk s e t).header =
      parseResponse (bufRecv e.io ++ e.io.memory.after) e.io.memory (s.content c).httpInfo := by
    rw [Transition.header, node]
    rfl
  obtain ⟨now, complete⟩ := fetched.heard reads heard fun _ => parse
  refine ⟨now, complete, fun modified only => ?_⟩
  rw [received_reads reads]
  cases before : (s.content c).httpInfo.infoComplete with
  | true =>
    obtain ⟨info, first, _⟩ := fetched.header before
    rw [is304_append (header_received first).1]
    exact other before only.before
  | false =>
    obtain ⟨filled, fill, heard⟩ := Option.bind_eq_some_iff.mp heard
    rw [filled_info fill, before, if_neg Bool.false_ne_true] at heard
    obtain ⟨info, parsed, _⟩ := Option.bind_eq_some_iff.mp heard
    rw [filled_info fill] at parsed
    rw [received_silent (fetched.silent before)]
    intro same
    by_cases flag : (s.node e.node).flag = 1
    · exact modified ⟨flag, before, info, parsed, status_of_is304 parsed same⟩
    · refine only _ (List.mem_append_right _ List.mem_cons_self) ⟨type, flag, reads.2, same, fun d document => ?_⟩
      obtain rfl := Option.some.inj (node.symm.trans document)
      exact before

/-- A server whose request has been sent has received nothing yet. -/
theorem Tracked.asked {history : List Transition} {content : Nat → CacheNode} {n : FdNode} {p : Nat}
    (tracked : Tracked history content f n) (type : n.type = .server) (writing : n.status = .writing)
    (proxied : n.proxied = some p) : Tracked history content f { n with offset := 0, status := .reading } := by
  intro c node
  have waiting := tracked c node
  rw [type, writing] at waiting
  obtain ⟨silent, length, incomplete, request⟩ := waiting
  dsimp only
  rw [type]
  have nothing := received_silent silent
  refine ⟨⟨?_, length, ?_, ?_, fun _ => silent, fun complete => ?_⟩, fun complete => ?_⟩
  · rw [nothing]
    rfl
  · rw [nothing]
    exact (Nat.zero_le _).trans_lt (request p proxied)
  · rw [nothing]
    exact List.nil_prefix
  · exact absurd (complete.symm.trans incomplete) (by decide)
  · exact absurd (complete.symm.trans incomplete) (by decide)

/-- The server that a client is connected to waits with the request. -/
theorem Tracked.connected {history : List Transition} {e : Event} {n : CacheNode}
    (tracked : Tracked history s.content e.node (s.node e.node)) (reading : s.session e.node = .client .reading none c)
    (request : (s.content c).requested (s.node e.node).offset e.io = some n)
    (newSilent : Silent g (history ++ [⟨s, e, t⟩])) (fd : Int) (hit : Option Nat) :
    Tracked (history ++ [⟨s, e, t⟩]) (Function.update s.content c n) g (.server fd e.node c hit) := by
  have type : (s.node e.node).type = .client := congrArg Session.type reading
  have status : (s.node e.node).status = .reading := congrArg Session.status reading
  have asking := tracked c (congrArg Session.cacheNode reading)
  rw [type, status] at asking
  obtain ⟨fresh, offset, silent⟩ := asking
  rw [offset] at request
  obtain ⟨length, incomplete, room⟩ := requested_holds request fresh
  intro d node
  obtain rfl := Option.some.inj node
  rw [Function.update_self]
  refine ⟨newSilent, length, incomplete, fun p proxied => ?_⟩
  obtain rfl := Option.some.inj proxied
  have reads : (Transition.mk s e t).ReadsFrom e.node := ⟨rfl, status, .inl type⟩
  rw [received_reads reads, received_silent silent]
  exact room

theorem Tracked.received {history : List Transition} {e : Event} {p : Nat} {backup : Option Nat} {n : CacheNode}
    (tracked : Tracked history s.content e.node (s.node e.node)) (server : s.session e.node = .server p c backup true)
    (heard : (s.content c).heard (s.node e.node).offset e.io = some n)
    (modified : ¬ NotModified s e.node c (bufRecv e.io) e.io) :
    Tracked (history ++ [⟨s, e, t⟩]) (Function.update s.content c n) e.node
      { s.node e.node with offset := (s.node e.node).offset + e.io.chunk.length } := by
  obtain ⟨fetched, _, other⟩ := tracked.heard (t := t) server heard
  have type : (s.node e.node).type = .server := congrArg Session.type server
  have status : (s.node e.node).status = .reading := congrArg Session.status server
  have document : (s.node e.node).cacheNode = some c := congrArg Session.cacheNode server
  intro d node
  obtain rfl := Option.some.inj (document.symm.trans node)
  dsimp only
  rw [type, status, Function.update_self]
  exact ⟨fetched, fun _ only => other modified only⟩

/-- Nothing has been read from a node that is new. -/
theorem silent_new {history : List Transition} {e : Event} (bound : ∀ x ∈ history, x.event.node < g)
    (older : e.node < g) : Silent g (history ++ [⟨s, e, t⟩]) := by
  intro x member reads
  rcases List.mem_append.mp member with old | new
  · exact Nat.lt_irrefl _ (reads.1 ▸ bound x old)
  · rw [List.mem_singleton.mp new] at reads
    exact Nat.lt_irrefl _ (reads.1 ▸ older)

/-- A node that the event does not read from, with what it receives into. -/
theorem Tracked.kept {history : List Transition} {e : Event} (tracked : Tracked history s.content f (s.node f))
    (h : Represents s v) (listed : f ∈ s.fds) (unread : f = e.node → ¬ s.Reads e.node) (content : Nat → CacheNode)
    (same : ∀ c, (s.node f).Owns c → content c = s.content c) :
    Tracked (history ++ [⟨s, e, t⟩]) content f (s.node f) := by
  refine (tracked.content same).unread (fun reads => ?_) fun type p proxied reads => ?_
  · exact unread reads.1.symm (reads.1 ▸ reads.2)
  · exact h.proxied_idle listed type proxied (reads.1 ▸ reads.2)

/-- One event keeps track of what is received. -/
theorem Served.tracked {history : List Transition} {e : Event} (rep : Represents s v) (sound : Sound v)
    (shared : v.Shared) (rep' : Represents t w) (sound' : Sound w)
    (bound : ∀ x ∈ history, x.event.node < s.fdNodes.top)
    (tracked : ∀ f ∈ s.fds, Tracked history s.content f (s.node f)) (listed : e.node ∈ s.fds)
    (served : Served s e.node e.io t) : ∀ f ∈ t.fds, Tracked (history ++ [⟨s, e, t⟩]) t.content f (t.node f) := by
  have newSilent := silent_new (s := s) (t := t) bound (rep.fds_lt listed)
  have kept := fun f (member : f ∈ s.fds) => (tracked f member).kept (t := t) (e := e) rep member
  cases served with
  | still idle shows =>
    exact shows.tracked rep' sound' fun f member => kept f member (fun _ => idle) _ fun _ _ => rfl
  | accepted idle shows =>
    refine shows.tracked rep' sound' fun f member => ?_
    dsimp only
    rcases List.mem_cons.mp member with rfl | old
    · rw [Function.update_self]
      intro c node
      obtain rfl := Option.some.inj node
      exact ⟨Function.update_self _ _ _, rfl, newSilent⟩
    · rw [Function.update_of_ne (Nat.ne_of_lt (rep.fds_lt old))]
      refine kept f old (fun _ => idle) _ fun c owns => ?_
      exact Function.update_of_ne (Nat.ne_of_lt (rep.owned_live sound old owns).1) _ _
  | @dropped c n reading request shows =>
    refine shows.tracked rep' sound' fun f member => ?_
    obtain ⟨old, other⟩ := List.mem_filter.mp member
    rw [decide_eq_true_eq] at other
    dsimp only
    rw [Function.update_of_ne other]
    exact kept f old (fun same => absurd same other) _ (rep.others sound listed (owns_reading reading) old other n)
  | @connected c n fd reading request shows =>
    refine shows.tracked rep' sound' fun f member => ?_
    dsimp only
    rcases List.mem_cons.mp member with rfl | old
    · rw [Function.update_self]
      exact (tracked e.node listed).connected reading request newSilent fd _
    · rw [Function.update_of_ne (Nat.ne_of_lt (rep.fds_lt old))]
      by_cases same : f = e.node
      · rw [same, Function.update_self]
        exact .idle rfl
      · rw [Function.update_of_ne same]
        exact kept f old (fun again => absurd again same) _ (rep.others sound listed (owns_reading reading) old same n)
  | sent writing document bytes more shows =>
    have unread := not_reads_of_writing writing
    refine shows.tracked rep' sound' fun f member => ?_
    dsimp only
    by_cases same : f = e.node
    · rw [same, Function.update_self]
      exact (kept e.node listed (fun _ => unread) _ fun _ _ => rfl).moved writing _
    · rw [Function.update_of_ne same]
      exact kept f member (fun _ => unread) _ fun _ _ => rfl
  | @asked p c backup send server bytes all shows =>
    have type : (s.node e.node).type = .server := congrArg Session.type server
    have status : (s.node e.node).status = .writing := congrArg Session.status server
    have unread := not_reads_of_writing status
    refine shows.tracked rep' sound' fun f member => ?_
    dsimp only
    by_cases same : f = e.node
    · rw [same, Function.update_self]
      have waiting := kept e.node listed (fun _ => unread) s.content fun _ _ => rfl
      exact waiting.asked type status (congrArg Session.proxied server)
    · rw [Function.update_of_ne same]
      exact kept f member (fun _ => unread) _ fun _ _ => rfl
  | @answered g d send writing bytes all shows =>
    have status : (s.node e.node).status = .writing := congrArg Session.status writing
    have unread := not_reads_of_writing status
    refine shows.tracked rep' sound' fun f member => ?_
    obtain ⟨old, other⟩ := List.mem_filter.mp member
    rw [decide_eq_true_eq] at other
    dsimp only
    rw [Function.update_of_ne other]
    exact kept f old (fun _ => unread) _ fun _ _ => rfl
  | @received p c backup n server heard arrived modified shows =>
    refine shows.tracked rep' sound' fun f member => ?_
    dsimp only
    by_cases same : f = e.node
    · rw [same, Function.update_self]
      exact (tracked e.node listed).received server heard modified
    · rw [Function.update_of_ne same]
      exact kept f member (fun again => absurd again same) _ (rep.others sound listed (owns_server server) member same n)
  | @finished p c d backup n content entries server waits heard ends enters shows =>
    have type : (s.node e.node).type = .server := congrArg Session.type server
    have others := fun f (member : f ∈ s.fds) other => rep.others sound listed (owns_server server) member other n
    refine shows.tracked rep' sound' fun f member => ?_
    obtain ⟨old, other⟩ := List.mem_filter.mp member
    rw [decide_eq_true_eq] at other
    dsimp only
    rw [Function.update_of_ne other]
    by_cases same : f = p
    · rw [same, Function.update_self]
      exact .answering (congrArg Session.type waits) rfl
    · rw [Function.update_of_ne same]
      refine kept f old (fun again => absurd again other) _ fun a owned => ?_
      cases ends with
      | closed => exact others f old other a owned
      | notModified _ hasBackup _ =>
        rw [Function.update_of_ne (rep.backup_ne shared listed old type hasBackup owned)]
        exact others f old other a owned

/-- A document that is not received into changes its date at most. -/
theorem Served.unowned {a : Nat} {io : Io} (served : Served s f io t) (allocated : a < s.cache.nodes.top)
    (apart : ∀ c, (s.node f).Owns c → a ≠ c) :
    ∃ x, Shows t x ∧ (x.content a = s.content a ∨ ∃ date, x.content a = (s.content a).redated date) := by
  have reading : ∀ {c}, s.session f = .client .reading none c → a ≠ c := fun client => apart _ (owns_reading client)
  have asked : ∀ {p c backup}, s.session f = .server p c backup true → a ≠ c := fun server => apart _ (owns_server server)
  cases served with
  | still _ shows => exact ⟨_, shows, .inl rfl⟩
  | accepted _ shows => exact ⟨_, shows, .inl (Function.update_of_ne (Nat.ne_of_lt allocated) _ _)⟩
  | dropped client _ shows => exact ⟨_, shows, .inl (Function.update_of_ne (reading client) _ _)⟩
  | connected client _ shows => exact ⟨_, shows, .inl (Function.update_of_ne (reading client) _ _)⟩
  | sent _ _ _ _ shows => exact ⟨_, shows, .inl rfl⟩
  | asked _ _ _ shows => exact ⟨_, shows, .inl rfl⟩
  | answered _ _ _ shows => exact ⟨_, shows, .inl rfl⟩
  | received server _ _ _ shows => exact ⟨_, shows, .inl (Function.update_of_ne (asked server) _ _)⟩
  | @finished p c d backup n content entries server _ _ ends _ shows =>
    refine ⟨_, shows, ?_⟩
    dsimp only
    cases ends with
    | closed => exact .inl (Function.update_of_ne (asked server) _ _)
    | @notModified b date =>
      by_cases same : a = d
      · rw [same, Function.update_self]
        exact .inr ⟨date, rfl⟩
      · rw [Function.update_of_ne same]
        exact .inl (Function.update_of_ne (asked server) _ _)

/-- What a run is known by: its last state represents sessions, and what it has received is tracked. -/
structure Known (history : List Transition) (s : ProxyState) (v : View) : Prop where
  represents : Represents s v
  sound : Sound v
  shared : v.Shared
  bound : ∀ x ∈ history, x.event.node < s.fdNodes.top
  tracked : ∀ f ∈ s.fds, Tracked history s.content f (s.node f)

theorem Served.fdTop {f : Nat} {io : Io} (served : Served s f io t) : s.fdNodes.top ≤ t.fdNodes.top := by
  cases served with
  | still _ shows => exact shows.fdTop.ge
  | accepted _ shows => exact (Nat.le_succ _).trans shows.fdTop.ge
  | dropped _ _ shows => exact shows.fdTop.ge
  | connected _ _ shows => exact (Nat.le_succ _).trans shows.fdTop.ge
  | sent _ _ _ _ shows => exact shows.fdTop.ge
  | asked _ _ _ shows => exact shows.fdTop.ge
  | answered _ _ _ shows => exact shows.fdTop.ge
  | received _ _ _ _ shows => exact shows.fdTop.ge
  | finished _ _ _ _ _ shows => exact shows.fdTop.ge

/-- Every event of a run does one of the things listed. -/
theorem Known.served {history : List Transition} {e : Event} (known : Known history s v) (next : step s e = some t) :
    e.node ∈ s.fds ∧ Served s e.node e.io t ∧ ∃ w, Known (history ++ [⟨s, e, t⟩]) t w := by
  obtain ⟨listed, served⟩ := step_served known.represents known.sound known.shared next
  obtain ⟨w, refines⟩ := step_refines known.represents known.sound next
  have sound := refines.move.sound known.sound
  refine ⟨listed, served, w, refines.represents, sound, refines.move.shared known.sound known.shared, fun x member => ?_,
    served.tracked known.represents known.sound known.shared refines.represents sound known.bound known.tracked listed⟩
  rcases List.mem_append.mp member with old | new
  · exact (known.bound x old).trans_le served.fdTop
  · rw [List.mem_singleton.mp new]
    exact (known.represents.fds_lt listed).trans_le served.fdTop

theorem Ran.known {slots : Nat} {history : List Transition} (two : 2 ≤ slots) (h : Ran slots history s) :
    ∃ v, Known history s v := by
  induction h with
  | @start maxClient listenFd s h =>
    obtain ⟨listener, represents, _, incomplete⟩ := start_represents two h
    refine ⟨_, represents, start_sound two listener _, start_shared slots listener _,
      fun x member => absurd member List.not_mem_nil, fun f member c node => ?_⟩
    obtain ⟨front, rear, xs, list⟩ := represents.list
    have bare : (s.session f).cacheNode = none := by
      rcases list.mem_fds.mp member with (rfl | rfl | ⟨st, inside, _⟩) | rfl
      · exact congrArg Session.cacheNode list.front
      · exact congrArg Session.cacheNode list.listener
      · exact absurd inside List.not_mem_nil
      · exact congrArg Session.cacheNode list.rear
    cases bare.symm.trans node
  | step _ next ih =>
    obtain ⟨v, known⟩ := ih
    exact (known.served next).2.2

theorem Ran.split {slots : Nat} {history before after : List Transition} {x : Transition} (h : Ran slots history s)
    (split : history = before ++ x :: after) : Ran slots before x.before ∧ Proxy.step x.before x.event = some x.after := by
  induction h generalizing after with
  | start => exact absurd split.symm (by simp)
  | @step history s e t h next ih =>
    rcases List.eq_nil_or_concat after with rfl | ⟨earlier, last, rfl⟩
    · obtain ⟨rfl, same⟩ := List.append_inj' split rfl
      obtain rfl := List.head_eq_of_cons_eq same
      exact ⟨h, next⟩
    · rw [List.concat_eq_append, ← List.cons_append, ← List.append_assoc] at split
      exact ih (List.append_inj' split rfl).1

end

end NetProjects.Proxy
