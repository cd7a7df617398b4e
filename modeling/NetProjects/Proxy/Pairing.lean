import NetProjects.Proxy.Start

/-!
# Clients and servers

In every reachable state each server serves one client that waits for it, and each client that
waits is served by one server.
-/

namespace NetProjects.Proxy

def ProxyState.servers (s : ProxyState) (f : Nat) : List Nat :=
  s.fds.filter fun g => (s.fdNodes.cell g).type = .server ∧ (s.fdNodes.cell g).proxied = some f

/-- A client reads, waits for its one server, or writes. -/
inductive ClientPaired (s : ProxyState) (f : Nat) : Prop where
  | reading (status : (s.fdNodes.cell f).status = .reading) (servers : s.servers f = [])
  | waiting {g} (status : (s.fdNodes.cell f).status = .idle) (servers : s.servers f = [g])
  | writing (status : (s.fdNodes.cell f).status = .writing) (servers : s.servers f = [])

/-- A server writes or reads for a client of the list that waits. -/
structure ServerPaired (s : ProxyState) (g : Nat) : Prop where
  status : (s.fdNodes.cell g).status = .writing ∨ (s.fdNodes.cell g).status = .reading
  proxied : ∃ f ∈ s.fds, (s.fdNodes.cell g).proxied = some f ∧ (s.fdNodes.cell f).type = .client ∧
    (s.fdNodes.cell f).status = .idle
  flag : (s.fdNodes.cell g).flag = 1 ↔ (s.fdNodes.cell g).cacheNodeBackup ≠ none

structure Paired (s : ProxyState) : Prop where
  nodup : s.fds.Nodup
  clients : ∀ f ∈ s.fds, (s.fdNodes.cell f).type = .client → ClientPaired s f
  servers : ∀ g ∈ s.fds, (s.fdNodes.cell g).type = .server → ServerPaired s g

section

variable {s : ProxyState} {f g slots front rear listener : Nat} {xs : List Nat} {stages : List Stage}

theorem ListRep.server (h : ListRep s front rear listener xs stages) (listed : g ∈ s.fds)
    (type : (s.session g).type = .server) :
    ∃ f c backup asked, Stage.fetching f g c backup asked ∈ stages ∧ s.session f = .client .idle (some g) c ∧
      s.session g = .server f c backup asked := by
  cases h.role listed with
  | serving member client server => exact ⟨_, _, _, _, member, client, server⟩
  | dummy here | listener here | asking _ here | waiting _ here _ | answering _ here =>
    rw [here] at type
    cases type

theorem ListRep.mem_servers (h : ListRep s front rear listener xs stages) (member : g ∈ s.servers f) :
    ∃ c, s.session f = .client .idle (some g) c := by
  obtain ⟨listed, good⟩ := List.mem_filter.mp member
  rw [decide_eq_true_eq] at good
  obtain ⟨type, proxied⟩ := good
  obtain ⟨f', c, backup, asked, _, client, server⟩ := h.server listed type
  have same : (s.session g).proxied = some f := proxied
  rw [server] at same
  obtain rfl := Option.some.inj same
  exact ⟨c, client⟩

theorem ListRep.servers_eq_nil (h : ListRep s front rear listener xs stages) (busy : (s.session f).status ≠ .idle) :
    s.servers f = [] := by
  refine List.eq_nil_iff_forall_not_mem.mpr fun g member => busy ?_
  obtain ⟨c, client⟩ := h.mem_servers member
  rw [client]
  rfl

theorem ListRep.nodup (h : ListRep s front rear listener xs stages) : s.fds.Nodup := by
  rw [h.fds_eq]
  exact h.list.links.nodup

theorem ListRep.servers_eq (h : ListRep s front rear listener xs stages) {c : Nat} {backup : Option Nat} {asked : Bool}
    (member : .fetching f g c backup asked ∈ stages) : s.servers f = [g] := by
  obtain ⟨client, server⟩ : s.session f = .client .idle (some g) c ∧ s.session g = .server f c backup asked :=
    h.stages _ member
  have listed : g ∈ s.fds := h.mem_fds.mpr (.inl (.inr (.inr ⟨_, member, by simp [Stage.nodes]⟩)))
  refine List.perm_singleton.mp ((List.perm_ext_iff_of_nodup (h.nodup.filter _) (List.nodup_singleton g)).mpr fun g' => ?_)
  rw [List.mem_singleton]
  constructor
  · intro serves
    obtain ⟨c', client'⟩ := h.mem_servers serves
    exact (Option.some.inj (congrArg Session.proxied (client.symm.trans client'))).symm
  · rintro rfl
    refine List.mem_filter.mpr ⟨listed, decide_eq_true ⟨?_, ?_⟩⟩
    · exact congrArg Session.type server
    · exact congrArg Session.proxied server

theorem ListRep.client_paired (h : ListRep s front rear listener xs stages) (listed : f ∈ s.fds)
    (type : (s.session f).type = .client) : ClientPaired s f := by
  cases h.role listed with
  | asking _ client =>
    have status : (s.session f).status = .reading := congrArg Session.status client
    exact .reading status (h.servers_eq_nil fun idle => by cases status.symm.trans idle)
  | waiting member client _ => exact .waiting (congrArg Session.status client) (h.servers_eq member)
  | answering _ client =>
    have status : (s.session f).status = .writing := congrArg Session.status client
    exact .writing status (h.servers_eq_nil fun idle => by cases status.symm.trans idle)
  | dummy here | listener here | serving _ _ here =>
    rw [here] at type
    cases type

theorem ListRep.server_paired (h : ListRep s front rear listener xs stages) (listed : g ∈ s.fds)
    (type : (s.session g).type = .server) : ServerPaired s g := by
  obtain ⟨f, c, backup, asked, member, client, server⟩ := h.server listed type
  have status : (s.fdNodes.cell g).status = if asked then .reading else .writing := congrArg Session.status server
  have flag : (s.fdNodes.cell g).flag = if backup.isSome then 1 else 2 := congrArg Session.flag server
  have same : (s.fdNodes.cell g).cacheNodeBackup = backup := congrArg Session.backup server
  refine ⟨?_, ⟨f, h.mem_fds.mpr (.inl (.inr (.inr ⟨_, member, List.mem_cons_self⟩))), ?_, ?_, ?_⟩, ?_⟩
  · rw [status]
    cases asked
    · exact .inl rfl
    · exact .inr rfl
  · exact congrArg Session.proxied server
  · exact congrArg Session.type client
  · exact congrArg Session.status client
  · rw [flag, same]
    cases backup <;> simp

/-- In every reachable state clients and servers are paired. -/
theorem sessions_paired (two : 2 ≤ slots) (h : Reachable slots s) : Paired s := by
  obtain ⟨v, ⟨⟨front, rear, xs, list⟩, _⟩, _⟩ := reachable_represents two h
  exact ⟨list.nodup, fun f listed type => list.client_paired listed type,
    fun g listed type => list.server_paired listed type⟩

theorem sessions_paired_one : ∃ s, Reachable 2 s ∧ Paired s ∧ s.servers 3 = [4] := by
  have servers : (ProxyState.run 2 3 3 [.accept 4, .request 3 "a" 5]).map (fun s => s.servers 3) = some [4] := by
    decide +kernel
  obtain ⟨s, run, one⟩ := Option.map_eq_some_iff.mp servers
  have reached := reachable_of_run run
  exact ⟨s, reached, sessions_paired (Nat.le_refl 2) reached, one⟩

end

end NetProjects.Proxy
