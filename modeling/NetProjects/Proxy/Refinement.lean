import NetProjects.Proxy.Effects

/-!
# The proxy refines its sessions

`Represents` reads the stages and the documents off a state of the proxy. Every event the proxy
serves is one `Move` of what its state represents.
-/

namespace NetProjects.Proxy
open Bytes Linked

/-! ### What a state represents -/

def Session.bare (type : FdType) (status : NodeStatus) : Session :=
  { type := type, status := status, proxied := none, cacheNode := none, backup := none, flag := 0 }

def Session.client (status : NodeStatus) (proxied : Option Nat) (c : Nat) : Session :=
  { type := .client, status := status, proxied := proxied, cacheNode := some c, backup := none, flag := 0 }

/-- The nodes of a stage are in the states that it says. -/
def Stage.Matches (session : Nat → Session) : Stage → Prop
  | asking f c => session f = .client .reading none c
  | fetching f g c backup asked => session f = .client .idle (some g) c ∧ session g = .server f c backup asked
  | answering f d => ∃ g, session f = .client .writing (some g) d

/-- The descriptor list holds the listener and the nodes of the stages, in any order. -/
structure ListRep (s : ProxyState) (front rear listener : Nat) (xs : List Nat) (stages : List Stage) : Prop where
  list : FdRep s.fdNodes s.fdList front xs rear
  nodes : xs.Perm (listener :: stages.flatMap Stage.nodes)
  front : s.session front = .bare .dummy .idle
  rear : s.session rear = .bare .dummy .idle
  listener : s.session listener = .bare .listen .reading
  stages : ∀ st ∈ stages, st.Matches s.session

/-- What a node of the list is, given the stages of the sessions. -/
inductive Role (session : Nat → Session) (stages : List Stage) (f : Nat) : Prop where
  | dummy (bare : session f = .bare .dummy .idle)
  | listener (bare : session f = .bare .listen .reading)
  | asking {c} (member : .asking f c ∈ stages) (client : session f = .client .reading none c)
  | waiting {g c backup asked} (member : .fetching f g c backup asked ∈ stages)
      (client : session f = .client .idle (some g) c) (server : session g = .server f c backup asked)
  | serving {p c backup asked} (member : .fetching p f c backup asked ∈ stages)
      (client : session p = .client .idle (some f) c) (server : session f = .server p c backup asked)
  | answering {g d} (member : .answering f d ∈ stages) (client : session f = .client .writing (some g) d)

structure CacheRep (s : ProxyState) (v : View) : Prop where
  queue : QueueRep s.cache v.queue
  doc : s.doc = v.doc
  top : s.cache.nodes.top = v.cacheTop
  freed : s.cache.nodes.freed = v.freed
  idle : ∀ a, (s.cache.nodes.cell a).status = .idle

structure Represents (s : ProxyState) (v : View) : Prop where
  list : ∃ front rear xs, ListRep s front rear v.listener xs v.stages
  cache : CacheRep s v

section

variable {s t u : ProxyState} {v w : View} {f g c a front rear listener : Nat} {xs ys : List Nat} {st : Stage}
  {stages before after : List Stage} {io : Io}

namespace Stage.Matches

theorem congr {session session' : Nat → Session} (same : ∀ f ∈ st.nodes, session' f = session f)
    (h : st.Matches session) : st.Matches session' := by
  cases st with
  | asking f c => exact (same f List.mem_cons_self).trans h
  | fetching f g c backup asked =>
    exact ⟨(same f List.mem_cons_self).trans h.1, (same g (List.mem_cons_of_mem _ List.mem_cons_self)).trans h.2⟩
  | answering f d =>
    obtain ⟨g, client⟩ := h
    exact ⟨g, (same f List.mem_cons_self).trans client⟩

theorem refs_iff {session : Nat → Session} (h : st.Matches session) :
    a ∈ st.refs ↔ ∃ f ∈ st.nodes, (session f).cacheNode = some a ∨ (session f).backup = some a := by
  cases st with
  | asking f c =>
    have client : session f = .client .reading none c := h
    simp [refs, nodes, client, Session.client, @eq_comm _ a c]
  | fetching f g c backup asked =>
    obtain ⟨client, server⟩ := h
    simp [refs, nodes, client, server, Session.client, Session.server, @eq_comm _ a c]
  | answering f d =>
    obtain ⟨g, client⟩ := h
    simp [refs, nodes, client, Session.client, @eq_comm _ a d]

end Stage.Matches

namespace ListRep

theorem fds_eq (h : ListRep s front rear listener xs stages) : s.fds = front :: xs ++ [rear] := h.list.nodes_eq

theorem perm (h : ListRep s front rear listener xs (before ++ (stages ++ after))) :
    xs.Perm (stages.flatMap Stage.nodes ++ (listener :: (before ++ after).flatMap Stage.nodes)) := by
  refine h.nodes.trans ?_
  simp only [List.flatMap_append]
  exact ((List.perm_append_comm_assoc _ _ _).cons listener).trans List.perm_middle.symm

theorem split (h : ListRep s front rear listener xs stages) (here : stages = before ++ st :: after) :
    ListRep s front rear listener xs (before ++ ([st] ++ after)) := by
  rw [here] at h
  exact h

theorem inside {old : List Stage} (h : ListRep s front rear listener xs (before ++ (old ++ after)))
    (member : f ∈ old.flatMap Stage.nodes) : f ∈ xs :=
  h.perm.mem_iff.mpr (List.mem_append_left _ member)

theorem stages_of {old : List Stage} (h : ListRep s front rear listener xs (before ++ (old ++ after))) :
    (∀ st ∈ old, st.Matches s.session) ∧ ∀ st ∈ before ++ after, st.Matches s.session := by
  refine ⟨fun st member => ?_, fun st member => ?_⟩ <;>
    refine h.stages st ?_ <;> simp only [List.mem_append] at member ⊢ <;> tauto

theorem apart {backup : Option Nat} {asked : Bool}
    (h : ListRep s front rear listener xs (before ++ ([.fetching f g c backup asked] ++ after))) : f ≠ g := by
  have distinct : (front :: xs ++ [rear]).Nodup := h.list.links.nodup
  obtain ⟨_, distinct⟩ := List.nodup_cons.mp (List.nodup_append.mp distinct).1
  obtain ⟨outside, _⟩ := List.nodup_cons.mp (h.perm.nodup_iff.mp distinct)
  exact fun same => outside (same ▸ List.mem_cons_self)

/-- The stages `old` have become `new`, and only their nodes have changed. -/
theorem replace {old : List Stage} (new : List Stage) (h : ListRep s front rear listener xs (before ++ (old ++ after)))
    (list : FdRep t.fdNodes t.fdList front ys rear)
    (nodes : ∀ rest, xs.Perm (old.flatMap Stage.nodes ++ rest) → ys.Perm (new.flatMap Stage.nodes ++ rest))
    (same : ∀ g ∈ s.fds, g ∉ old.flatMap Stage.nodes → t.session g = s.session g)
    (now : ∀ st ∈ new, st.Matches t.session) :
    ListRep t front rear listener ys (before ++ (new ++ after)) := by
  rw [h.fds_eq] at same
  have distinct : (front :: xs ++ [rear]).Nodup := h.list.links.nodup
  rw [List.cons_append, List.nodup_cons, List.mem_append, not_or] at distinct
  obtain ⟨⟨frontOutside, _⟩, distinct⟩ := distinct
  obtain ⟨distinct, _, rearOutside⟩ := List.nodup_append.mp distinct
  have apart := (List.nodup_append.mp (h.perm.nodup_iff.mp distinct)).2.2
  have frame : ∀ g, g ∈ listener :: (before ++ after).flatMap Stage.nodes → t.session g = s.session g := by
    intro g member
    refine same g ?_ fun changed => apart g changed g member rfl
    exact List.mem_append_left _ (List.mem_cons_of_mem _ (h.perm.mem_iff.mpr (List.mem_append_right _ member)))
  have outside : ∀ g, g ∉ xs → g ∉ old.flatMap Stage.nodes := fun g out member => out (h.inside member)
  refine ⟨list, ?_, ?_, ?_, ?_, fun st member => ?_⟩
  · refine (nodes _ h.perm).trans ?_
    simp only [List.flatMap_append]
    exact List.perm_middle.trans ((List.perm_append_comm_assoc _ _ _).cons listener)
  · exact (same front (by simp) (outside front frontOutside)).trans h.front
  · refine (same rear (by simp) (outside rear fun member => ?_)).trans h.rear
    exact rearOutside rear member rear List.mem_cons_self rfl
  · exact (frame listener List.mem_cons_self).trans h.listener
  · have either : st ∈ new ∨ st ∈ before ++ after := by
      simp only [List.mem_append] at member ⊢
      tauto
    rcases either with changed | other
    · exact now st changed
    · refine (h.stages_of.2 st other).congr fun g inside => frame g ?_
      exact List.mem_cons_of_mem _ (List.mem_flatMap.mpr ⟨st, other, inside⟩)

theorem mem_fds (h : ListRep s front rear listener xs stages) :
    f ∈ s.fds ↔ (f = front ∨ f = listener ∨ ∃ st ∈ stages, f ∈ st.nodes) ∨ f = rear := by
  rw [h.fds_eq]
  simp only [List.mem_append, List.mem_cons, h.nodes.mem_iff, List.mem_flatMap, List.not_mem_nil, or_false]

theorem mem_stage (h : ListRep s front rear listener xs stages) (listed : f ∈ s.fds)
    (notDummy : s.session f ≠ .bare .dummy .idle) (notListener : s.session f ≠ .bare .listen .reading) :
    ∃ st ∈ stages, f ∈ st.nodes := by
  rcases h.mem_fds.mp listed with (rfl | rfl | inside) | rfl
  · exact absurd h.front notDummy
  · exact absurd h.listener notListener
  · exact inside
  · exact absurd h.rear notDummy

/-- A node of the list is a dummy, the listener, or has its part in a stage. -/
theorem role (h : ListRep s front rear listener xs stages) (listed : f ∈ s.fds) : Role s.session stages f := by
  by_cases dummy : s.session f = .bare .dummy .idle
  · exact .dummy dummy
  by_cases listening : s.session f = .bare .listen .reading
  · exact .listener listening
  obtain ⟨st, member, node⟩ := h.mem_stage listed dummy listening
  have now := h.stages st member
  cases st with
  | asking client c =>
    obtain rfl := List.mem_singleton.mp node
    exact .asking member now
  | fetching client server c backup asked =>
    obtain rfl | node := List.mem_cons.mp node
    · exact .waiting member now.1 now.2
    · obtain rfl := List.mem_singleton.mp node
      exact .serving member now.1 now.2
  | answering client d =>
    obtain rfl := List.mem_singleton.mp node
    obtain ⟨server, writing⟩ := now
    exact .answering member writing

theorem refs_iff (h : ListRep s front rear listener xs stages) :
    a ∈ stages.flatMap Stage.refs ↔
      ∃ f ∈ s.fds, (s.session f).cacheNode = some a ∨ (s.session f).backup = some a := by
  constructor
  · intro member
    obtain ⟨st, inside, referred⟩ := List.mem_flatMap.mp member
    obtain ⟨f, node, refers⟩ := (h.stages st inside).refs_iff.mp referred
    exact ⟨f, h.mem_fds.mpr (.inl (.inr (.inr ⟨st, inside, node⟩))), refers⟩
  · rintro ⟨f, member, refers⟩
    have busy : ∀ type status, s.session f ≠ .bare type status := by
      intro type status bare
      rw [bare] at refers
      simp [Session.bare] at refers
    obtain ⟨st, inside, node⟩ := h.mem_stage member (busy _ _) (busy _ _)
    exact List.mem_flatMap.mpr ⟨st, inside, (h.stages st inside).refs_iff.mpr ⟨f, node, refers⟩⟩

end ListRep

/-! ### The cache -/

namespace CacheRep

theorem quiet (h : CacheRep s v) (quiet : Quiet s t) (doc : t.doc = s.doc) : CacheRep t v :=
  ⟨quiet.queueRep h.queue, doc.trans h.doc, quiet.cacheTop.trans h.top, quiet.freed.trans h.freed,
    fun a => (quiet.status a).trans (h.idle a)⟩

theorem setDoc {d : Doc} (h : CacheRep s v) (quiet : Quiet s t) (doc : t.doc = Function.update s.doc c d) :
    CacheRep t (v.setDoc c d) :=
  ⟨quiet.queueRep h.queue, doc.trans (congrArg (fun docs => Function.update docs c d) h.doc),
    quiet.cacheTop.trans h.top, quiet.freed.trans h.freed, fun a => (quiet.status a).trans (h.idle a)⟩

theorem setStages (h : CacheRep s v) (stages : List Stage) : CacheRep s (v.setStages stages) :=
  ⟨h.queue, h.doc, h.top, h.freed, h.idle⟩

theorem of_cache (h : CacheRep s v) (cache : t.cache = s.cache) : CacheRep t v := by
  have doc : t.doc = s.doc := by
    funext a
    rw [ProxyState.doc, ProxyState.doc, cache]
  refine ⟨?_, doc.trans h.doc, ?_, ?_, ?_⟩ <;> rw [cache]
  · exact h.queue
  · exact h.top
  · exact h.freed
  · exact h.idle

theorem doc_eq (h : CacheRep s v) (a : Nat) : (s.cache.nodes.cell a).httpInfo.doc = v.doc a := congrFun h.doc a

theorem isCacheHit_eq (h : CacheRep s v) (info : HttpInfo) : isCacheHit s.cache info = v.hit info.doc := by
  rw [isCacheHit, h.queue.entries_eq, View.hit]
  congr 1
  funext a
  rw [← h.doc_eq a, Bool.eq_iff_iff]
  simp only [Bool.and_eq_true, beq_iff_eq, decide_eq_true_eq, and_assoc]
  exact Iff.rfl

theorem accept (h : CacheRep s v) (f : Nat)
    (cache : t.cache = { s.cache with nodes := (newCacheNode s.cache.nodes none none initialBuffer).2 }) :
    CacheRep t (v.accept f) := by
  refine ⟨?_, funext fun a => ?_, ?_, ?_, fun a => ?_⟩
  · rw [cache]
    exact h.queue.alloc _
  · change _ = Function.update v.doc v.cacheTop ⟨[], [], false⟩ a
    rw [ProxyState.doc, cache, ← h.top, ← h.doc, Function.update_apply, newCacheNode, Heap.alloc]
    dsimp only
    split
    · rfl
    · rfl
  · rw [cache]
    exact congrArg Nat.succ h.top
  · rw [cache]
    exact h.freed
  · rw [cache, newCacheNode, Heap.alloc]
    dsimp only
    split
    · rfl
    · exact h.idle a

theorem enqueue {rest : List Nat} {r : Nat} (h : CacheRep s v) (queue : v.queue = rest ++ [r]) (two : 2 ≤ v.queue.length)
    (allocated : c < v.cacheTop) (notQueued : c ∉ v.queue) (notFreed : c ∉ v.freed)
    (cache : cacheEnqueue s.cache c = some t.cache) : CacheRep t (v.enqueue c r rest) := by
  obtain ⟨ys, p, rfl⟩ : ∃ ys p, rest = ys ++ [p] := by
    rcases List.eq_nil_or_concat rest with rfl | ⟨ys, p, shape⟩
    · rw [queue, List.nil_append, List.length_singleton] at two
      exact absurd two (by decide)
    · exact ⟨ys, p, by rw [shape, List.concat_eq_append]⟩
  have rep := h.queue
  rw [queue, List.append_assoc] at rep
  rw [queue, List.append_assoc] at notQueued
  rw [← h.top] at allocated
  rw [← h.freed] at notFreed
  obtain ⟨cache', same, rep', kept, freed, _⟩ := cacheEnqueue_spec rep notQueued allocated notFreed
  obtain rfl : cache' = t.cache := Option.some.inj (same.symm.trans cache)
  rw [evictedFreed, if_pos (h.idle r), h.freed] at freed
  refine ⟨rep', funext fun a => ?_, kept.top.trans h.top, freed, fun a => (kept.status a).trans (h.idle a)⟩
  exact (congrArg HttpInfo.doc (kept.info a)).trans (h.doc_eq a)

end CacheRep

/-! ### One event -/

/-- Serving the node `f` evicts the last document of the queue: its response ends, and no document
of the queue has its URL. -/
structure Evicts (s : ProxyState) (f : Nat) (io : Io) : Prop where
  type : (s.session f).type = .server
  status : (s.session f).status = .reading
  ends : EndsResponse s f io
  miss : ∀ c, (s.session f).cacheNode = some c → isCacheHit s.cache (s.cache.nodes.cell c).httpInfo = none

/-- From `s` to `t` the sessions make one move, and the freed cache nodes that are accessed are
referred to by a session. -/
structure Refines (s : ProxyState) (v : View) (f : Nat) (io : Io) (t : ProxyState) (w : View) : Prop where
  move : Move v w
  represents : Represents t w
  accesses : ∀ a ∈ t.stale, a ∈ s.stale ∨ a ∈ v.freed ∧ a ∈ v.refs
  frees : w.freed = v.freed ∨ Evicts s f io

theorem ListRep.quiet (h : ListRep s front rear listener xs stages) (quiet : Quiet s t)
    (same : t.session = s.session) : ListRep t front rear listener xs stages := by
  refine ⟨quiet.fdRep h.list, h.nodes, ?_, ?_, ?_, fun st member => ?_⟩ <;> rw [same]
  · exact h.front
  · exact h.rear
  · exact h.listener
  · exact h.stages st member

theorem Refines.stay (h : Represents s v) (quiet : Quiet s t) (sessions : t.session = s.session) (doc : t.doc = s.doc)
    (accesses : ∀ a ∈ t.stale, a ∈ s.stale ∨ a ∈ v.freed ∧ a ∈ v.refs) : Refines s v f io t v := by
  obtain ⟨⟨front, rear, xs, list⟩, cache⟩ := h
  exact ⟨.stay, ⟨⟨front, rear, xs, list.quiet quiet sessions⟩, cache.quiet quiet doc⟩, accesses, .inl rfl⟩

theorem Refines.refl (h : Represents s v) : Refines s v f io s v :=
  .stay h (Quiet.refl s) rfl rfl fun _ member => .inl member

theorem Accessed.refs (h : Accessed s t f) (list : ListRep s front rear listener xs v.stages) (cache : CacheRep s v)
    (listed : f ∈ xs) : ∀ a ∈ t.stale, a ∈ s.stale ∨ a ∈ v.freed ∧ a ∈ v.refs := by
  intro a member
  refine (h a member).imp_right fun ⟨freed, refers⟩ => ⟨cache.freed ▸ freed, list.refs_iff.mpr ⟨f, ?_, refers⟩⟩
  rw [list.fds_eq]
  exact List.mem_append_left _ (List.mem_cons_of_mem _ listed)

theorem erase_perm {f : Nat} {xs rest : List Nat} (h : xs.Perm (f :: rest)) : (xs.erase f).Perm rest := by
  have erased := h.erase f
  rwa [List.erase_cons_head] at erased

/-- The request of a client is received and parsed, and its server is connected to. -/
theorem clientRead_cases (client : s.session f = .client .reading none c) (run : clientReadHandler s f io = some t) :
    ∃ u n x, cacheRecv s f io = some (u, n) ∧ u.session f = .client .idle none c ∧
      parseClientRequest u c io = some x ∧ (io.connected = none → removeFd x f = some t) ∧
      ∀ fd, io.connected = some fd → connectServer x f c fd = some t := by
  obtain ⟨⟨u, n⟩, received, run⟩ := Option.bind_eq_some_iff.mp run
  obtain ⟨_, sessions, _⟩ := cacheRecv_client (congrArg Session.cacheNode client) (congrArg Session.type client) received
  have waiting : u.session f = .client .idle none c := by
    rw [sessions, Function.update_self, client]
    rfl
  obtain ⟨c', node, run⟩ := Option.bind_eq_some_iff.mp run
  obtain rfl : c' = c := Option.some.inj (node.symm.trans (congrArg Session.cacheNode waiting))
  have idle : (u.fdNodes.cell f).status = .idle := congrArg Session.status waiting
  rw [if_pos idle] at run
  obtain ⟨x, parsed, run⟩ := Option.bind_eq_some_iff.mp run
  refine ⟨u, n, x, received, waiting, parsed, fun refused => ?_, fun fd connected => ?_⟩
  · rwa [refused] at run
  · rwa [connected] at run

theorem clientRead_refines (h : Represents s v) (stages : v.stages = before ++ .asking f c :: after)
    (run : clientReadHandler s f io = some t) : ∃ w, Refines s v f io t w := by
  obtain ⟨⟨front, rear, xs, all⟩, cache⟩ := id h
  have list := all.split stages
  have client : s.session f = .client .reading none c := list.stages_of.1 _ List.mem_cons_self
  have listed : f ∈ xs := list.inside (by simp [Stage.nodes])
  have node : (s.session f).cacheNode = some c := congrArg Session.cacheNode client
  obtain ⟨u, n, x, received, waiting, parsed, refused, accepted⟩ := clientRead_cases client run
  obtain ⟨quiet, sessions, doc, accessed⟩ := cacheRecv_client node (congrArg Session.type client) received
  obtain ⟨quiet', sessions', stale, d, complete, doc'⟩ := parseClientRequest_effect parsed
  have quiet'' : Quiet s x := quiet.trans quiet'
  rw [doc] at doc' complete
  rw [sessions] at sessions'
  have cache' : CacheRep x (v.setDoc c d) := cache.setDoc quiet'' doc'
  have incomplete : d.complete = (v.doc c).complete := by rw [complete, cache.doc]
  have accessed' : ∀ a ∈ x.stale, a ∈ s.stale ∨ a ∈ v.freed ∧ a ∈ v.refs := by
    rw [stale]
    exact accessed.refs all cache listed
  have rep := quiet''.fdRep list.list
  cases connected : io.connected with
  | none =>
    obtain ⟨rep', same, sameCache, sameStale⟩ := removeFd_effect rep listed (refused connected)
    refine ⟨(v.setDoc c d).setStages (before ++ after), .dropped stages incomplete, ⟨⟨front, rear, xs.erase f, ?_⟩,
      (cache'.of_cache sameCache).setStages _⟩, sameStale ▸ accessed', .inl rfl⟩
    refine list.replace [] rep' (fun rest => erase_perm) (fun g _ other => ?_) (by simp)
    rw [same, sessions', Function.update_of_ne (by simpa [Stage.nodes] using other)]
  | some fd =>
    obtain ⟨rep', sameCache, sameStale, same⟩ := connectServer_effect rep (accepted fd connected)
    have hit : isCacheHit x.cache (x.cache.nodes.cell c).httpInfo = (v.setDoc c d).hit d := by
      rw [cache'.isCacheHit_eq, cache'.doc_eq, View.setDoc_self]
    rw [hit] at same
    have older : ∀ g ∈ s.fds, g ≠ x.fdNodes.top := by
      intro g member
      rw [list.fds_eq] at member
      exact Nat.ne_of_lt (rep.allocated g member)
    refine ⟨(v.setDoc c d).setStages (before ++ .fetching f x.fdNodes.top c ((v.setDoc c d).hit d) false :: after),
      .connected stages incomplete, ⟨⟨front, rear, xs ++ [x.fdNodes.top], ?_⟩,
      (cache'.of_cache sameCache).setStages _⟩, sameStale ▸ accessed', .inl rfl⟩
    refine list.replace [_] rep' (fun rest nodes => ?_) (fun g member other => ?_) fun st member => ?_
    · exact (List.perm_append_singleton _ _).trans ((nodes.cons _).trans (.swap _ _ _))
    · have apart : g ≠ f := by simpa [Stage.nodes] using other
      rw [same, Function.update_of_ne (older g member), Function.update_of_ne apart, sessions',
        Function.update_of_ne apart]
    · obtain rfl := List.mem_singleton.mp member
      have fTop : f ≠ x.fdNodes.top := older f (by rw [list.fds_eq]; simp [listed])
      refine ⟨?_, ?_⟩
      · rw [same, Function.update_of_ne fTop, Function.update_self, sessions', ← sessions, waiting]
        rfl
      · rw [same, Function.update_self]

theorem clientWrite_refines {d : Nat} (h : Represents s v) (stages : v.stages = before ++ .answering f d :: after)
    (run : clientWriteHandler s f io = some t) : ∃ w, Refines s v f io t w := by
  obtain ⟨⟨front, rear, xs, all⟩, cache⟩ := id h
  have list := all.split stages
  obtain ⟨g, client⟩ : ∃ g, s.session f = .client .writing (some g) d := list.stages_of.1 _ List.mem_cons_self
  have listed : f ∈ xs := list.inside (by simp [Stage.nodes])
  obtain ⟨u, sent, run⟩ := Option.bind_eq_some_iff.mp run
  obtain ⟨quiet, doc, accessed, sessions⟩ := cacheSend_effect (congrArg Session.cacheNode client) sent
  have accesses := accessed.refs all cache listed
  rcases sessions with same | ended
  · have busy : (u.fdNodes.cell f).status = .writing :=
      congrArg Session.status ((congrFun same f).trans client)
    rw [if_neg (by rw [busy]; decide)] at run
    obtain rfl := Option.some.inj run
    exact ⟨v, .stay h quiet same doc accesses⟩
  · have idle : (u.fdNodes.cell f).status = .idle := by
      change (u.session f).status = .idle
      rw [ended, Function.update_self]
      rfl
    rw [if_pos idle] at run
    obtain ⟨rep', same, sameCache, sameStale⟩ := removeFd_effect (quiet.fdRep list.list) listed run
    refine ⟨v.setStages (before ++ after), .sent stages, ⟨⟨front, rear, xs.erase f, ?_⟩,
      ((cache.quiet quiet doc).of_cache sameCache).setStages _⟩, sameStale ▸ accesses, .inl rfl⟩
    refine list.replace [] rep' (fun rest => erase_perm) (fun g _ other => ?_) (by simp)
    rw [same, ended, Function.update_of_ne (by simpa [Stage.nodes] using other)]

theorem serverWrite_refines {backup : Option Nat} (h : Represents s v)
    (stages : v.stages = before ++ .fetching f g c backup false :: after)
    (run : serverWriteHandler s g io = some t) : ∃ w, Refines s v g io t w := by
  obtain ⟨⟨front, rear, xs, all⟩, cache⟩ := id h
  have list := all.split stages
  obtain ⟨client, server⟩ : s.session f = .client .idle (some g) c ∧ s.session g = .server f c backup false :=
    list.stages_of.1 _ List.mem_cons_self
  have listed : g ∈ xs := list.inside (by simp [Stage.nodes])
  have apart : f ≠ g := list.apart
  obtain ⟨u, sent, run⟩ := Option.bind_eq_some_iff.mp run
  obtain ⟨quiet, doc, accessed, sessions⟩ := cacheSend_effect (congrArg Session.cacheNode server) sent
  have accesses := accessed.refs all cache listed
  rcases sessions with same | ended
  · have busy : (u.fdNodes.cell g).status = .writing :=
      congrArg Session.status ((congrFun same g).trans server)
    rw [if_neg (by rw [busy]; decide)] at run
    obtain rfl := Option.some.inj run
    exact ⟨v, .stay h quiet same doc accesses⟩
  · have idle : (u.fdNodes.cell g).status = .idle := by
      change (u.session g).status = .idle
      rw [ended, Function.update_self]
      rfl
    rw [if_pos idle] at run
    obtain rfl := Option.some.inj run
    have reading : Quiet u (u.setFd g fun n => { n with status := .reading }) := Quiet.setFd u g
    have waiting : (u.setFd g fun n => { n with status := .reading }).session =
        Function.update s.session g (.server f c backup true) := by
      rw [session_setFd]
      change Function.update u.session g { u.session g with status := .reading } = _
      rw [ended, Function.update_self, Function.update_idem, server]
      rfl
    refine ⟨v.setStages (before ++ .fetching f g c backup true :: after), .asked stages, ⟨⟨front, rear, xs, ?_⟩,
      (cache.quiet (quiet.trans reading) doc).setStages _⟩, accesses, .inl rfl⟩
    refine list.replace [_] ((quiet.trans reading).fdRep list.list) (fun _ nodes => nodes) (fun h _ other => ?_)
      fun st member => ?_
    · rw [waiting, Function.update_of_ne]
      rintro rfl
      simp [Stage.nodes] at other
    · obtain rfl := List.mem_singleton.mp member
      refine ⟨?_, ?_⟩
      · rw [waiting, Function.update_of_ne apart, client]
      · rw [waiting, Function.update_self]

theorem hit_setDoc {d e : Doc} (outside : c ∉ v.queue) (host : d.host = e.host) (path : d.path = e.path) :
    (v.setDoc c d).hit d = v.hit e := by
  refine List.find?_congr fun a queued => ?_
  have other : a ≠ c := fun same => outside (same ▸ queued)
  have same : (v.doc a).SameUrl d ↔ (v.doc a).SameUrl e := by rw [Doc.SameUrl, Doc.SameUrl, host, path]
  simp only [View.setDoc, Function.update_of_ne other, same]

/-- A response that has ended: the client is given its document or the cached one, and the document
is cached unless its URL is. -/
theorem finishResponse_refines {backup : Option Nat} {d : Nat} (sound : Sound v)
    (list : ListRep s front rear v.listener xs (before ++ ([.fetching f g c backup true] ++ after)))
    (cache : CacheRep s v) (stages : v.stages = before ++ .fetching f g c backup true :: after)
    (quiet : Quiet s u) (doc : u.doc = Function.update s.doc c { s.doc c with complete := true })
    (ends : EndsResponse s g io) (document : d = c ∨ backup = some d)
    (client : u.session f = .client .idle (some g) d) (server : u.session g = (Session.server f c backup true).idle)
    (frame : ∀ h, h ≠ f → h ≠ g → u.session h = s.session h)
    (accesses : ∀ a ∈ u.stale, a ∈ s.stale ∨ a ∈ v.freed ∧ a ∈ v.refs)
    (run : finishResponse u g = some t) : ∃ w, Refines s v g io t w := by
  have listed : g ∈ xs := list.inside (by simp [Stage.nodes])
  have atServer : s.session g = .server f c backup true := (list.stages_of.1 _ List.mem_cons_self).2
  obtain ⟨rep, stale, sessions, hit⟩ := finishResponse_effect (quiet.fdRep list.list) listed
    (congrArg Session.proxied server) (congrArg Session.cacheNode server) run
  rw [← stale] at accesses
  let D : Doc := { v.doc c with complete := true }
  let w := (v.setDoc c D).setStages (before ++ .answering f d :: after)
  have list' : ListRep t front rear v.listener (xs.erase g) w.stages := by
    refine list.replace [_] rep (fun rest nodes => erase_perm (nodes.trans (.swap g f rest))) (fun h _ other => ?_)
      fun st member => ?_
    · obtain ⟨notClient, notServer⟩ : h ≠ f ∧ h ≠ g := by simpa [Stage.nodes] using other
      rw [sessions, Function.update_of_ne notClient, frame h notClient notServer]
    · obtain rfl := List.mem_singleton.mp member
      refine ⟨g, ?_⟩
      rw [sessions, Function.update_self, client]
      rfl
  have cache' : CacheRep u (v.setDoc c D) := cache.setDoc quiet (by rw [doc, cache.doc])
  rw [cache'.isCacheHit_eq, cache'.doc_eq, View.setDoc_self] at hit
  obtain ⟨allocated, notQueued, notFreed⟩ := sound.pending c (mem_pending stages rfl)
  have atC : w.doc c = D := View.setDoc_self v c D
  cases found : (v.setDoc c D).hit D with
  | some a =>
    rw [found] at hit
    have known : w.hit (w.doc c) = some a := by
      rw [atC]
      exact found
    exact ⟨w, .finished stages document (.known known), ⟨⟨front, rear, xs.erase g, list'⟩,
      (cache'.of_cache hit).setStages _⟩, accesses, .inl rfl⟩
  | none =>
    rw [found] at hit
    obtain ⟨rest, r, queue⟩ : ∃ rest r, v.queue = rest ++ [r] := by
      rcases List.eq_nil_or_concat v.queue with none | ⟨rest, r, shape⟩
      · have two := sound.slots.2
        rw [none] at two
        exact absurd two (by decide)
      · exact ⟨rest, r, by rw [shape, List.concat_eq_append]⟩
    have miss : w.hit (w.doc c) = none := by
      rw [atC]
      exact found
    have evicts : Evicts s g io := by
      refine ⟨congrArg Session.type atServer, congrArg Session.status atServer, ends, fun c' node => ?_⟩
      obtain rfl : c' = c := Option.some.inj (node.symm.trans (congrArg Session.cacheNode atServer))
      rw [cache.isCacheHit_eq, cache.doc_eq, ← found]
      exact (hit_setDoc (d := D) notQueued rfl rfl).symm
    exact ⟨w.enqueue c r rest, .finished stages document (.fresh miss queue), ⟨⟨front, rear, xs.erase g, list'⟩,
      (cache'.setStages _).enqueue queue sound.slots.2 allocated notQueued notFreed hit⟩, accesses, .inr evicts⟩

theorem serverRead_refines {backup : Option Nat} (h : Represents s v) (sound : Sound v)
    (stages : v.stages = before ++ .fetching f g c backup true :: after)
    (run : serverReadHandler s g io = some t) : ∃ w, Refines s v g io t w := by
  obtain ⟨⟨front, rear, xs, all⟩, cache⟩ := id h
  have list := all.split stages
  obtain ⟨client, server⟩ : s.session f = .client .idle (some g) c ∧ s.session g = .server f c backup true :=
    list.stages_of.1 _ List.mem_cons_self
  have listed : g ∈ xs := list.inside (by simp [Stage.nodes])
  have apart : f ≠ g := list.apart
  obtain ⟨⟨u, n⟩, received, run⟩ := Option.bind_eq_some_iff.mp run
  obtain ⟨quiet, doc, accessed, sessions⟩ := cacheRecv_server (congrArg Session.cacheNode server)
    (congrArg Session.type server) (congrArg Session.proxied server) apart received
  dsimp only at run
  have accesses := accessed.refs all cache listed
  rcases sessions with same | ⟨ends, ended⟩
  · have busy : (u.fdNodes.cell g).status = .reading :=
      congrArg Session.status ((congrFun same g).trans server)
    rw [if_neg (by rw [busy]; decide)] at run
    obtain rfl := Option.some.inj run
    refine ⟨_, .received stages, ⟨⟨front, rear, xs, all.quiet quiet same⟩, cache.setDoc quiet ?_⟩, accesses, .inl rfl⟩
    rw [doc, cache.doc]
  · have idle : u.session g = (Session.server f c backup true).idle := by
      rw [← server]
      rcases ended with closed | ⟨b, _, swapped⟩
      · rw [closed, Function.update_self]
      · rw [swapped, ProxyState.swapped, Function.update_self]
    rw [if_pos (show (u.fdNodes.cell g).status = .idle from congrArg Session.status idle)] at run
    rcases ended with closed | ⟨b, hasBackup, swapped⟩
    · refine finishResponse_refines sound list cache stages quiet doc ends (.inl rfl) ?_ idle (fun h _ other => ?_)
        accesses run
      · rw [closed, Function.update_of_ne apart, client]
      · rw [closed, Function.update_of_ne other]
    · rw [server] at hasBackup
      refine finishResponse_refines sound list cache stages quiet doc ends (.inr hasBackup) ?_ idle
        (fun h notClient other => ?_) accesses run
      · rw [swapped, ProxyState.swapped, Function.update_of_ne apart, Function.update_self, client]
        rfl
      · rw [swapped, ProxyState.swapped, Function.update_of_ne other, Function.update_of_ne notClient]

theorem printFdList_refines (h : Refines s v f io u w) (same : u.stale = s.stale) (freed : w.freed = v.freed)
    (live : ∀ a ∈ w.refs, a ∈ v.refs ∨ a ∉ v.freed) (run : printFdList u = some t) : Refines s v f io t w := by
  obtain ⟨⟨front, rear, xs, list⟩, cache⟩ := h.represents
  obtain ⟨quiet, sessions, doc, accesses⟩ := printFdNodes_effect run
  refine ⟨h.move, ⟨⟨front, rear, xs, list.quiet quiet sessions⟩, cache.quiet quiet doc⟩, fun a member => ?_, .inl freed⟩
  rw [same] at accesses
  refine (accesses a member).imp_right fun ⟨dead, g, listed, node⟩ => ?_
  rw [cache.freed, freed] at dead
  have referred : a ∈ w.refs := list.refs_iff.mpr ⟨g, listed, .inl node⟩
  exact ⟨dead, (live a referred).resolve_right fun alive => alive dead⟩

theorem listen_refines (h : Represents s v) (sound : Sound v)
    (run : (listenFdHandler s io).bind printFdList = some t) : ∃ w, Refines s v f io t w := by
  obtain ⟨u, handled, printed⟩ := Option.bind_eq_some_iff.mp run
  unfold listenFdHandler at handled
  split at handled
  · obtain rfl := Option.some.inj handled
    exact ⟨v, printFdList_refines (.refl h) rfl rfl (fun a member => .inl member) printed⟩
  · rename_i clientFd _
    obtain ⟨⟨front, rear, xs, list⟩, cache⟩ := h
    obtain ⟨rep, sessions, sameCache, stale⟩ := appendFd_effect (by exact list.list) handled
    have older : ∀ g ∈ s.fds, g ≠ s.fdNodes.top := by
      intro g member
      rw [list.fds_eq] at member
      exact Nat.ne_of_lt (list.list.allocated g member)
    have list' : ListRep u front rear v.listener (xs ++ [s.fdNodes.top]) (v.accept s.fdNodes.top).stages := by
      have before : ListRep s front rear v.listener xs ([] ++ ([] ++ v.stages)) := list
      refine before.replace [.asking s.fdNodes.top v.cacheTop] rep (fun rest nodes => ?_) (fun g member _ => ?_)
        fun st member => ?_
      · exact (List.perm_append_singleton _ _).trans (nodes.cons _)
      · rw [sessions, Function.update_of_ne (older g member)]
        rfl
      · obtain rfl := List.mem_singleton.mp member
        change u.session s.fdNodes.top = _
        rw [sessions, Function.update_self, ← cache.top]
        rfl
    have refines : Refines s v f io u (v.accept s.fdNodes.top) :=
      ⟨.accepted, ⟨⟨front, rear, _, list'⟩, cache.accept _ sameCache⟩, fun a member => .inl (stale ▸ member), .inl rfl⟩
    refine ⟨_, printFdList_refines refines stale rfl (fun a member => ?_) printed⟩
    rcases List.mem_cons.mp member with rfl | old
    · exact .inr fun freed => Nat.lt_irrefl _ (sound.released _ freed)
    · exact .inl old

/-! ### The service loop -/

theorem serve_dummy (h : s.session f = .bare .dummy .idle) : serve s f io = some s := by
  have type : (s.fdNodes.cell f).type = .dummy := congrArg Session.type h
  simp only [serve, type]

theorem serve_listen (h : s.session f = .bare .listen .reading) :
    serve s f io = (listenFdHandler s io).bind printFdList := by
  have type : (s.fdNodes.cell f).type = .listen := congrArg Session.type h
  simp only [serve, type]

theorem serve_client {status : NodeStatus} {p : Option Nat} (h : s.session f = .client status p c) :
    serve s f io =
      if status = .reading then clientReadHandler s f io
      else if status = .writing then clientWriteHandler s f io
      else some s := by
  have type : (s.fdNodes.cell f).type = .client := congrArg Session.type h
  have same : (s.fdNodes.cell f).status = status := congrArg Session.status h
  simp only [serve, type, same]

theorem serve_server {backup : Option Nat} {asked : Bool} (h : s.session g = .server f c backup asked) :
    serve s g io = if asked then serverReadHandler s g io else serverWriteHandler s g io := by
  have type : (s.fdNodes.cell g).type = .server := congrArg Session.type h
  have status : (s.fdNodes.cell g).status = if asked then .reading else .writing := congrArg Session.status h
  simp only [serve, type, status]
  cases asked <;> rfl

theorem serve_stage_refines (h : Represents s v) (sound : Sound v) (stages : v.stages = before ++ st :: after)
    (node : f ∈ st.nodes) (now : st.Matches s.session) (run : serve s f io = some t) :
    ∃ w, Refines s v f io t w := by
  cases st with
  | asking client c =>
    obtain rfl := List.mem_singleton.mp node
    rw [serve_client now] at run
    exact clientRead_refines h stages run
  | fetching client g c backup asked =>
    rcases List.mem_cons.mp node with rfl | node
    · rw [serve_client now.1] at run
      obtain rfl := Option.some.inj run
      exact ⟨v, .refl h⟩
    · obtain rfl := List.mem_singleton.mp node
      rw [serve_server now.2] at run
      cases asked with
      | false => exact serverWrite_refines h stages run
      | true => exact serverRead_refines h sound stages run
  | answering client d =>
    obtain rfl := List.mem_singleton.mp node
    obtain ⟨g, writing⟩ := now
    rw [serve_client writing] at run
    exact clientWrite_refines h stages run

/-- Every event the proxy serves is one move of its sessions. -/
theorem step_refines {e : Event} (h : Represents s v) (sound : Sound v) (next : step s e = some t) :
    ∃ w, Refines s v e.node e.io t w := by
  unfold step at next
  split at next
  swap
  · cases next
  rename_i listed
  obtain ⟨front, rear, xs, list⟩ := h.list
  have dummy : s.session e.node = .bare .dummy .idle → ∃ w, Refines s v e.node e.io t w := by
    intro bare
    rw [serve_dummy bare] at next
    obtain rfl := Option.some.inj next
    exact ⟨v, .refl h⟩
  rcases list.mem_fds.mp listed with (first | listening | ⟨st, member, node⟩) | last
  · exact dummy (first ▸ list.front)
  · rw [serve_listen (listening ▸ list.listener)] at next
    exact listen_refines h sound next
  · obtain ⟨before, after, stages⟩ := List.append_of_mem member
    exact serve_stage_refines h sound stages node (list.stages st member) next
  · exact dummy (last ▸ list.rear)

end

end NetProjects.Proxy
