import NetProjects.Proxy.Tracking

/-!
# Reads that go through

A read of a node of the list goes through when its bytes can be stored and parsed: the lists and the
sessions never fail a handler.
-/

namespace NetProjects.Proxy
open Bytes Linked

section

variable {s t : ProxyState} {v : View} {f c p : Nat} {io : Io} {n : CacheNode} {received : List UInt8}
  {before after : List Stage}

/-- A field is copied into one of its size. -/
theorem strcpy_field {k : Nat} (a b : Field k) : ∃ d, a.strcpy b.bytes = some d := by
  have short := length_cstring_lt b.terminated
  rw [b.size] at short
  obtain ⟨d, copied, _⟩ := strcpy_text a b.terminated short
  exact ⟨d, copied⟩

theorem strstrLit_field {k : Nat} (a : Field k) (lit : List UInt8) : ∃ found, strstrLit a.bytes lit = some found := by
  unfold strstrLit
  split
  · exact ⟨true, rfl⟩
  · exact ⟨false, if_pos a.terminated⟩

/-! ### Receiving -/

theorem recvToBuffer_some (fill : (s.content c).filled (s.node f).offset io = some n) :
    ∃ u, recvToBuffer s f c io.chunk io = some u := by
  obtain ⟨buffer, copied, _⟩ := Option.bind_eq_some_iff.mp fill
  have same := growBuffer_content (s.cache.nodes.cell c) (s.fdNodes.cell f).offset io.chunk.length io.grown
  have buffers := congrArg (fun n : CacheNode => copyToBuffer n.buffer (s.node f).offset io.chunk) same
  exact ⟨_, Option.bind_eq_some_iff.mpr ⟨buffer, buffers.symm.trans copied, rfl⟩⟩

theorem cacheRecv_filled_some (fill : (s.content c).filled (s.node f).offset io = some n) :
    ∃ u, recvToBuffer (s.touch c) f c io.chunk io = some u ∧ u.session = s.session ∧
      u.content c = n ∧ Quiet s u := by
  obtain ⟨u, filled⟩ := recvToBuffer_some (s := s.touch c) (by rw [content_touch, node_touch]; exact fill)
  obtain ⟨quiet, sessions, _⟩ := recvToBuffer_effect filled
  obtain ⟨fill', _⟩ := recvToBuffer_content rfl filled
  rw [content_touch, node_touch, fill] at fill'
  rw [session_touch] at sessions
  exact ⟨u, filled, sessions, (Option.some.inj fill').symm, (Quiet.touch s c).trans quiet⟩

theorem cacheRecv_client_some (arrived : io.received = some received) (node : (s.session f).cacheNode = some c)
    (type : (s.session f).type = .client) (fill : (s.content c).filled (s.node f).offset io = some n) :
    ∃ r, cacheRecv s f io = some r := by
  obtain ⟨u, filled, sessions, _⟩ := cacheRecv_filled_some fill
  replace node : (s.fdNodes.cell f).cacheNode = some c := node
  replace type : (u.fdNodes.cell f).type = .client := (congrArg Session.type (congrFun sessions f)).trans type
  rw [← chunk_of_received arrived] at filled
  unfold cacheRecv
  simp only [arrived, node, filled, type, Option.bind_eq_bind, Option.bind_some]
  exact ⟨_, rfl⟩

theorem recvHeader_some {backup : Option Nat} (server : s.session f = .server p c backup true)
    (headed : (s.content c).headed io = some n) : ∃ t, recvHeader s f c (bufRecv io) io = some t := by
  obtain ⟨info, parsed, _⟩ := Option.bind_eq_some_iff.mp headed
  obtain ⟨found, searched⟩ := strstrLit_field info.status (cstr "304")
  replace parsed : parseResponse (bufRecv io ++ io.memory.after) io.memory (s.cache.nodes.cell c).httpInfo = some info :=
    parsed
  unfold recvHeader
  simp only [parsed, searched, Option.bind_eq_bind, Option.bind_some]
  split
  · rename_i conditional
    have flag : (if backup.isSome then 1 else 2) = 1 := (congrArg Session.flag server).symm.trans conditional.1
    obtain ⟨b, rfl⟩ : ∃ b, backup = some b := by
      cases backup with
      | none => cases flag
      | some b => exact ⟨b, rfl⟩
    let u := s.setCache c fun n => { n with httpInfo := info }
    have cached : (u.fdNodes.cell f).cacheNodeBackup = some b := congrArg Session.backup server
    have proxied : (u.fdNodes.cell f).proxied = some p := congrArg Session.proxied server
    obtain ⟨date, copied⟩ := strcpy_field ((u.touch b).cache.nodes.cell b).httpInfo.date info.date
    have answered : ∃ t, recvNotModified u f info = some t := by
      unfold recvNotModified
      simp only [cached, copied, proxied, Option.bind_eq_bind, Option.bind_some]
      exact ⟨_, rfl⟩
    obtain ⟨t, answered⟩ := answered
    exact ⟨_, Option.bind_eq_some_iff.mpr ⟨t, answered, rfl⟩⟩
  · exact ⟨_, rfl⟩

theorem cacheRecv_server_some {backup : Option Nat} (arrived : io.received = some received)
    (server : s.session f = .server p c backup true) (heard : (s.content c).heard (s.node f).offset io = some n) :
    ∃ r, cacheRecv s f io = some r := by
  obtain ⟨m, fill, heard⟩ := Option.bind_eq_some_iff.mp heard
  have node : (s.fdNodes.cell f).cacheNode = some c := congrArg Session.cacheNode server
  obtain ⟨u, filled, sessions, content, _⟩ := cacheRecv_filled_some fill
  have server' : u.session f = .server p c backup true := (congrFun sessions f).trans server
  have type : (u.fdNodes.cell f).type = .server := congrArg Session.type server'
  have parsed : ∃ w, (if (u.cache.nodes.cell c).httpInfo.infoComplete then some u
      else recvHeader u f c (bufRecv io) io) = some w := by
    rw [← content] at heard
    split
    · exact ⟨u, rfl⟩
    · rename_i incomplete
      replace incomplete : ¬ (u.content c).httpInfo.infoComplete = true := incomplete
      rw [if_neg incomplete] at heard
      exact recvHeader_some server' heard
  obtain ⟨w, parsed⟩ := parsed
  have chunk := chunk_of_received arrived
  rw [bufRecv, ← chunk] at parsed
  rw [← chunk] at filled
  unfold cacheRecv
  simp only [arrived, node, filled, type, parsed, Option.bind_eq_bind, Option.bind_some]
  exact ⟨_, rfl⟩

theorem parseClientRequest_some (parsed : (s.content c).parsed io = some n) :
    ∃ t, parseClientRequest s c io = some t := by
  obtain ⟨ended, searched, parsed⟩ := Option.bind_eq_some_iff.mp parsed
  replace searched : strstrLit ((s.cache.nodes.cell c).buffer ++ io.memory.after) (cstr "\r\n\r\n") = some ended :=
    searched
  unfold parseClientRequest
  simp only [searched, Option.bind_eq_bind, Option.bind_some]
  split
  · rename_i found
    rw [if_pos found] at parsed
    obtain ⟨info, parse, _⟩ := Option.bind_eq_some_iff.mp parsed
    exact ⟨_, Option.bind_eq_some_iff.mpr ⟨info, parse, rfl⟩⟩
  · exact ⟨s, rfl⟩

/-! ### The lists -/

section

variable {front rear : Nat} {xs queue : List Nat}

theorem removeFd_some (rep : FdRep s.fdNodes s.fdList front xs rear) (inside : f ∈ xs) : ∃ t, removeFd s f = some t := by
  obtain ⟨nodes, removed, _⟩ := fdListRemove_spec rep inside
  exact ⟨_, Option.bind_eq_some_iff.mpr ⟨nodes, removed, rfl⟩⟩

theorem appendFd_some (rep : FdRep s.fdNodes s.fdList front xs rear) (node : FdNode) : ∃ t, appendFd s node = some t := by
  have fresh : s.fdNodes.top ∉ front :: xs ++ [rear] := fun member => Nat.lt_irrefl _ (rep.allocated _ member)
  obtain ⟨nodes, appended, _⟩ := fdListAppend_spec (rep.alloc node) fresh (Nat.lt_succ_self _)
  exact ⟨_, Option.bind_eq_some_iff.mpr ⟨nodes, appended, rfl⟩⟩

theorem connectServer_some (rep : FdRep s.fdNodes s.fdList front xs rear) (f c : Nat) (fd : Int) :
    ∃ t, connectServer s f c fd = some t := by
  have proxied : Quiet s (s.setFd f fun n => { n with proxied := some s.fdNodes.top }) := Quiet.setFd s f
  obtain ⟨u, appended⟩ := appendFd_some (proxied.fdRep rep)
    { newFdNode none none fd .server .writing (some c) with proxied := some f }
  unfold connectServer
  simp only [appended, Option.bind_eq_bind, Option.bind_some]
  split
  · exact ⟨_, rfl⟩
  · exact ⟨_, rfl⟩

theorem cacheEnqueue_some {cache : Cache} (rep : QueueRep cache queue) (two : 2 ≤ queue.length) (fresh : c ∉ queue)
    (allocated : c < cache.nodes.top) (live : c ∉ cache.nodes.freed) : ∃ cache', cacheEnqueue cache c = some cache' := by
  obtain ⟨ys, p, r, shape⟩ := split_last_two two
  rw [shape] at rep fresh
  obtain ⟨cache', enqueued, _⟩ := cacheEnqueue_spec rep fresh allocated live
  exact ⟨cache', enqueued⟩

theorem finishResponse_some (rep : FdRep s.fdNodes s.fdList front xs rear) (inside : f ∈ xs)
    (proxied : (s.session f).proxied = some p) (node : (s.session f).cacheNode = some c)
    (queued : QueueRep s.cache queue) (two : 2 ≤ queue.length) (fresh : c ∉ queue) (allocated : c < s.cache.nodes.top)
    (live : c ∉ s.cache.nodes.freed) : ∃ t, finishResponse s f = some t := by
  have woken : Quiet s (s.setFd p fun n => { n with status := .writing }) := Quiet.setFd s p
  replace proxied : (s.fdNodes.cell f).proxied = some p := proxied
  replace node : (s.fdNodes.cell f).cacheNode = some c := node
  obtain ⟨cache, enqueued⟩ := cacheEnqueue_some queued two fresh allocated live
  unfold finishResponse
  simp only [proxied, node, cache_setFd, Option.bind_eq_bind, Option.bind_some]
  split
  · exact removeFd_some (woken.fdRep rep) inside
  · simp only [enqueued, Option.bind_some]
    exact removeFd_some (by exact woken.fdRep rep) inside

end

/-! ### The handlers -/

theorem clientRead_some (h : Represents s v) (stages : v.stages = before ++ .asking f c :: after)
    (arrived : io.received = some received) (request : (s.content c).requested (s.node f).offset io = some n) :
    ∃ t, clientReadHandler s f io = some t := by
  obtain ⟨⟨front, rear, xs, all⟩, _⟩ := id h
  have list := all.split stages
  have client : s.session f = .client .reading none c := list.stages_of.1 _ List.mem_cons_self
  have listed : f ∈ xs := list.inside (by simp [Stage.nodes])
  have node : (s.session f).cacheNode = some c := congrArg Session.cacheNode client
  have type : (s.session f).type = .client := congrArg Session.type client
  obtain ⟨m, fill, parse⟩ := Option.bind_eq_some_iff.mp request
  obtain ⟨⟨u, k⟩, received⟩ := cacheRecv_client_some arrived node type fill
  obtain ⟨w, fill', quiet, _, _, _, sessions, ended, _⟩ := cacheRecv_filled node received
  obtain rfl := Option.some.inj (fill.symm.trans fill')
  obtain rfl := ended type
  obtain ⟨x, parsed⟩ := parseClientRequest_some (s := w.setFd f fun n => { n with status := .idle, offset := 0 }) parse
  obtain ⟨quiet', _⟩ := parseClientRequest_effect parsed
  have rep := ((quiet.trans (Quiet.setFd_idle w f)).trans quiet').fdRep list.list
  have session : (w.setFd f fun n => { n with status := .idle, offset := 0 }).session f = (s.session f).idle := by
    rw [session_setFd_idle, sessions, Function.update_self]
  have node' : ((w.setFd f fun n => { n with status := .idle, offset := 0 }).fdNodes.cell f).cacheNode = some c :=
    (congrArg Session.cacheNode session).trans node
  have idle : ((w.setFd f fun n => { n with status := .idle, offset := 0 }).fdNodes.cell f).status = .idle :=
    congrArg Session.status session
  unfold clientReadHandler
  simp only [received, node', idle, parsed, if_true, Option.bind_eq_bind, Option.bind_some]
  split
  · exact removeFd_some rep listed
  · exact connectServer_some rep f c _

theorem serverRead_some {backup : Option Nat} (h : Represents s v) (sound : Sound v)
    (stages : v.stages = before ++ .fetching p f c backup true :: after) (arrived : io.received = some received)
    (heard : (s.content c).heard (s.node f).offset io = some n) : ∃ t, serverReadHandler s f io = some t := by
  obtain ⟨⟨front, rear, xs, all⟩, cache⟩ := id h
  have list := all.split stages
  obtain ⟨client, server⟩ : s.session p = .client .idle (some f) c ∧ s.session f = .server p c backup true :=
    list.stages_of.1 _ List.mem_cons_self
  have listed : f ∈ xs := list.inside (by simp [Stage.nodes])
  have node : (s.session f).cacheNode = some c := congrArg Session.cacheNode server
  have proxied : (s.session f).proxied = some p := congrArg Session.proxied server
  obtain ⟨allocated, notQueued, notFreed⟩ := sound.pending c (mem_pending stages rfl)
  obtain ⟨⟨u, k⟩, received⟩ := cacheRecv_server_some arrived server heard
  obtain ⟨quiet, _, _, sessions⟩ := cacheRecv_server node (congrArg Session.type server) proxied list.apart received
  have kept : (u.session f).proxied = some p ∧ (u.session f).cacheNode = some c := by
    rcases sessions with same | ⟨_, same | ⟨b, _, same⟩⟩
    · rw [same]
      exact ⟨proxied, node⟩
    · rw [same, Function.update_self]
      exact ⟨proxied, node⟩
    · rw [same, ProxyState.swapped, Function.update_self]
      exact ⟨proxied, node⟩
  unfold serverReadHandler
  simp only [received, Option.bind_eq_bind, Option.bind_some]
  split
  · refine finishResponse_some (quiet.fdRep list.list) listed kept.1 kept.2 (quiet.queueRep cache.queue) sound.slots.2
      notQueued (allocated.trans_eq (cache.top.symm.trans quiet.cacheTop.symm)) ?_
    rw [quiet.freed, cache.freed]
    exact notFreed
  · exact ⟨u, rfl⟩

/-! ### The events -/

variable {history : List Transition}

/-- A client that is read from goes through when its bytes can be stored and parsed. -/
theorem Known.client_reads (known : Known history s v) (listed : f ∈ s.fds) (type : (s.node f).type = .client)
    (status : (s.node f).status = .reading) :
    ∃ c, s.session f = .client .reading none c ∧ s.content c = .fresh none none initialBuffer ∧ (s.node f).offset = 0 ∧
      ∀ {io received n}, io.received = some received → (s.content c).requested 0 io = some n →
        ∃ t, step s ⟨f, io⟩ = some t := by
  obtain ⟨front, rear, xs, list⟩ := known.represents.list
  replace type : (s.session f).type = .client := type
  replace status : (s.session f).status = .reading := status
  cases list.role listed with
  | @asking c member client =>
    have tracked := known.tracked f listed c (congrArg Session.cacheNode client)
    rw [show (s.node f).type = .client from type, show (s.node f).status = .reading from status] at tracked
    obtain ⟨fresh, offset, _⟩ := tracked
    refine ⟨c, client, fresh, offset, fun arrived request => ?_⟩
    obtain ⟨before, after, stages⟩ := List.append_of_mem member
    rw [← offset] at request
    obtain ⟨t, run⟩ := clientRead_some known.represents stages arrived request
    refine ⟨t, (if_pos listed).trans ?_⟩
    rw [serve_client client]
    exact run
  | dummy here | listener here | serving _ _ here =>
    rw [here] at type
    cases type
  | waiting _ here _ | answering _ here =>
    rw [here] at status
    cases status

/-- A server that is read from goes through when its bytes can be stored and parsed. -/
theorem Known.server_reads (known : Known history s v) (listed : f ∈ s.fds) (type : (s.node f).type = .server)
    (status : (s.node f).status = .reading) :
    ∃ p c backup, s.session f = .server p c backup true ∧
      ∀ {io received n}, io.received = some received → (s.content c).heard (s.node f).offset io = some n →
        ∃ t, step s ⟨f, io⟩ = some t := by
  obtain ⟨front, rear, xs, list⟩ := known.represents.list
  replace status : (s.session f).status = .reading := status
  obtain ⟨p, c, backup, asked, member, _, server⟩ := list.server listed type
  cases asked with
  | false =>
    rw [server] at status
    cases status
  | true =>
    refine ⟨p, c, backup, server, fun arrived heard => ?_⟩
    obtain ⟨before, after, stages⟩ := List.append_of_mem member
    obtain ⟨t, run⟩ := serverRead_some known.represents known.sound stages arrived heard
    refine ⟨t, (if_pos listed).trans ?_⟩
    rw [serve_server server]
    exact run

end

end NetProjects.Proxy
