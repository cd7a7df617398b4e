import NetProjects.Chat.Runs

/-!
# The connection list

What any sequence of calls of `append_node` and `remove_node` leaves of the list of sockets, and to
whom a message is broadcast over it.
-/

namespace NetProjects.Chat
open Bytes Linked

/-- A call that changes the list of sockets. -/
inductive Call where
  | append (newFd : Int) (username : CharArray 16)
  | remove (node : Nat)

namespace Call

def apply (s : Server) : Call → Option Server
  | .append newFd username => appendNode s newFd username
  | .remove node => removeNode s node

/-- A descriptor is new when no socket of the list has it, and a node is removed while it is in the
list. -/
def Allowed (s : Server) : Call → Prop
  | .append newFd _ => ∀ a ∈ s.listenFd :: s.clients, (s.nodes.cell a).fd ≠ newFd
  | .remove node => node ∈ s.clients

instance (s : Server) : DecidablePred (Call.Allowed s)
  | .append newFd _ => inferInstanceAs (Decidable (∀ a ∈ s.listenFd :: s.clients, (s.nodes.cell a).fd ≠ newFd))
  | .remove node => inferInstanceAs (Decidable (node ∈ s.clients))

def newFd : Call → Option Int
  | .append newFd _ => some newFd
  | .remove _ => none

def removed : Call → Option Nat
  | .append _ _ => none
  | .remove node => some node

end Call

def applyAll (s : Server) (calls : List Call) : Option Server := calls.foldlM Call.apply s

def AllAllowed (s : Server) : List Call → Prop
  | [] => True
  | call :: calls => call.Allowed s ∧ ∀ s', call.apply s = some s' → AllAllowed s' calls

/-- The nodes with their descriptors. -/
def entries (s : Server) (xs : List Nat) : List (Int × Nat) := xs.map fun a => ((s.nodes.cell a).fd, a)

/-- The clients of the list, and behind them those the calls accept. -/
def accepted (s : Server) (calls : List Call) : List (Int × Nat) :=
  entries s s.clients ++ (calls.filterMap Call.newFd).zipIdx s.nodes.top

/-- A list of sockets whose head is on a descriptor of its own too. -/
structure ConnectionList (s : Server) (xs : List Nat) : Prop extends Listed s xs where
  apart : ∀ a ∈ xs, (s.nodes.cell a).fd ≠ (s.nodes.cell s.listenFd).fd

def Action.fd (s : Server) : Action → Int
  | .write node _ => (s.nodes.cell node).fd
  | .close node => (s.nodes.cell node).fd

/-- The message goes to the clients in the list only, to each but its origin once. -/
structure Broadcasts (s : Server) (xs : List Nat) (origin : Nat) (msg : SbcpMsg) : Prop where
  only : ∀ action ∈ msgBroadcast s origin msg, ∃ b ∈ xs, action = .write b msg
  once : ∀ b ∈ xs, b ≠ origin →
    ((msgBroadcast s origin msg).map (Action.fd s)).count (s.nodes.cell b).fd = 1
  notOrigin : (s.nodes.cell origin).fd ∉ (msgBroadcast s origin msg).map (Action.fd s)
  notListening : (s.nodes.cell s.listenFd).fd ∉ (msgBroadcast s origin msg).map (Action.fd s)

section

variable {s s' : Server} {xs : List Nat} {a origin : Nat} {calls : List Call} {newFd : Int}

namespace ConnectionList

theorem distinct (h : ConnectionList s xs) : ((s.listenFd :: xs).map fun a => (s.nodes.cell a).fd).Nodup := by
  rw [List.map_cons, List.nodup_cons]
  refine ⟨fun member => ?_, h.fds⟩
  obtain ⟨a, inside, same⟩ := List.mem_map.mp member
  exact h.apart a inside same

theorem msgBroadcast_eq (h : ConnectionList s xs) (inside : origin ∈ s.listenFd :: xs) (msg : SbcpMsg) :
    msgBroadcast s origin msg = (xs.filter fun b => b ≠ origin).map (Action.write · msg) := by
  have others : ∀ b ∈ xs, (s.nodes.cell b).fd ≠ (s.nodes.cell origin).fd ↔ b ≠ origin := fun b member =>
    not_congr ⟨fun same => List.inj_on_of_nodup_map h.distinct (List.mem_cons_of_mem _ member) inside same,
      fun same => same ▸ rfl⟩
  rw [msgBroadcast, h.clients_eq, List.filter_congr fun b member => decide_eq_decide.mpr (others b member)]

theorem broadcasts (h : ConnectionList s xs) (inside : origin ∈ s.listenFd :: xs) (msg : SbcpMsg) :
    Broadcasts s xs origin msg := by
  have sent := h.msgBroadcast_eq inside msg
  have fds : (msgBroadcast s origin msg).map (Action.fd s) =
      (xs.filter fun b => b ≠ origin).map fun b => (s.nodes.cell b).fd := by
    rw [sent, List.map_map]
    rfl
  have once : ((xs.filter fun b => b ≠ origin).map fun b => (s.nodes.cell b).fd).Nodup :=
    h.fds.sublist (List.filter_sublist.map _)
  refine ⟨fun action member => ?_, fun b member other => ?_, ?_, ?_⟩
  · rw [sent] at member
    obtain ⟨b, kept, rfl⟩ := List.mem_map.mp member
    exact ⟨b, List.mem_of_mem_filter kept, rfl⟩
  · rw [fds]
    apply List.count_eq_one_of_mem once
    exact List.mem_map.mpr ⟨b, List.mem_filter.mpr ⟨member, decide_eq_true other⟩, rfl⟩
  · rw [fds, List.mem_map]
    rintro ⟨b, kept, same⟩
    obtain ⟨member, other⟩ := List.mem_filter.mp kept
    have equal := List.inj_on_of_nodup_map h.distinct (List.mem_cons_of_mem _ member) inside same
    exact of_decide_eq_true other equal
  · rw [fds, List.mem_map]
    rintro ⟨b, kept, same⟩
    exact h.apart b (List.mem_of_mem_filter kept) same

end ConnectionList

theorem entries_congr (same : ∀ a ∈ xs, (s'.nodes.cell a).fd = (s.nodes.cell a).fd) : entries s' xs = entries s xs :=
  List.map_congr_left fun a member => by rw [same a member]

/-- One call of `append_node`: the new node comes last. -/
theorem ConnectionList.append (h : ConnectionList s xs) (username : CharArray 16)
    (fresh : ∀ a ∈ s.listenFd :: xs, (s.nodes.cell a).fd ≠ newFd) :
    ∃ s', appendNode s newFd username = some s' ∧ ConnectionList s' (xs ++ [s.nodes.top]) ∧
      s'.nodes.top = s.nodes.top + 1 ∧ SameClients s s' ∧
      entries s' (xs ++ [s.nodes.top]) = entries s xs ++ [(newFd, s.nodes.top)] := by
  obtain ⟨s', appended, listed, same, top, new, _⟩ :=
    appendNode_spec h.toListed newFd username fun a member => fresh a (List.mem_cons_of_mem _ member)
  have kept : ∀ a ∈ s.listenFd :: xs, (s'.nodes.cell a).fd = (s.nodes.cell a).fd := fun a member =>
    same.fd a (h.allocated a member)
  have head : (s'.nodes.cell s'.listenFd).fd = (s.nodes.cell s.listenFd).fd := by
    rw [same.listenFd]
    exact kept _ List.mem_cons_self
  refine ⟨s', appended, ⟨listed, fun a member => ?_⟩, top, same, ?_⟩
  · rw [head]
    rcases List.mem_append.mp member with old | last
    · rw [kept a (List.mem_cons_of_mem _ old)]
      exact h.apart a old
    · rw [List.mem_singleton.mp last, new]
      exact (fresh _ List.mem_cons_self).symm
  · have old := entries_congr fun a member => kept a (List.mem_cons_of_mem _ member)
    rw [← old]
    simp only [entries, List.map_append, List.map_cons, List.map_nil, new]

/-- One call of `remove_node`: the node leaves its place, the others keep theirs. -/
theorem ConnectionList.remove (h : ConnectionList s xs) (member : a ∈ xs) :
    ∃ s', removeNode s a = some s' ∧ ConnectionList s' (xs.filter fun b => b ≠ a) ∧ SameNodes s s' ∧
      entries s' (xs.filter fun b => b ≠ a) = (entries s xs).filter fun e => e.2 ≠ a := by
  obtain ⟨before, after, rfl⟩ := List.append_of_mem member
  obtain ⟨s', removed, listed, same, _⟩ := removeNode_spec h.toListed
  have others : ((before ++ a :: after).filter fun b => b ≠ a) = before ++ after := by
    have distinct := (List.nodup_cons.mp h.nodup).2
    obtain ⟨_, tail, apart⟩ := List.nodup_append.mp distinct
    rw [List.filter_append, List.filter_cons_of_neg (by simp), ← List.filter_append]
    refine List.filter_eq_self.mpr fun b inside => decide_eq_true ?_
    rcases List.mem_append.mp inside with early | late
    · exact apart b early a List.mem_cons_self
    · exact fun equal => (List.nodup_cons.mp tail).1 (equal ▸ late)
  have kept : ∀ b ∈ s.listenFd :: (before ++ a :: after), (s'.nodes.cell b).fd = (s.nodes.cell b).fd :=
    fun b inside => same.fd b (h.allocated b inside)
  have old : ∀ b ∈ before ++ after, b ∈ before ++ a :: after := fun b inside =>
    List.mem_of_mem_filter (others.symm ▸ inside : b ∈ (before ++ a :: after).filter fun b => b ≠ a)
  refine ⟨s', removed, ?_, same, ?_⟩
  · rw [others]
    refine ⟨listed, fun b inside => ?_⟩
    rw [same.listenFd, kept b (List.mem_cons_of_mem _ (old b inside)), kept _ List.mem_cons_self]
    exact h.apart b (old b inside)
  · rw [entries_congr fun b inside => kept b (List.mem_cons_of_mem _ (List.mem_of_mem_filter inside)), entries,
      entries, List.filter_map]
    rfl

/-- Every sequence of calls succeeds and leaves the clients in accept order, those it removed
missing. -/
theorem applyAll_spec (h : ConnectionList s xs) (allowed : AllAllowed s calls) :
    ∃ s' ys, applyAll s calls = some s' ∧ ConnectionList s' ys ∧ s'.listenFd = s.listenFd ∧
      entries s' ys = (accepted s calls).filter fun e => e.2 ∉ calls.filterMap Call.removed := by
  induction calls generalizing s xs with
  | nil =>
    refine ⟨s, xs, rfl, h, rfl, ?_⟩
    simp [accepted, h.clients_eq]
  | cons call calls ih =>
    obtain ⟨here, later⟩ := allowed
    cases call with
    | append newFd username =>
      have fresh : ∀ a ∈ s.listenFd :: xs, (s.nodes.cell a).fd ≠ newFd := h.clients_eq ▸ here
      obtain ⟨s1, appended, list, top, same, entered⟩ := h.append username fresh
      obtain ⟨s', ys, ran, list', head, result⟩ := ih list (later s1 appended)
      refine ⟨s', ys, ?_, list', head.trans same.listenFd, ?_⟩
      · rw [applyAll, List.foldlM_cons]
        exact (congrArg (· >>= fun s => applyAll s calls) appended).trans ran
      · have sameOrder : accepted s1 calls = accepted s (.append newFd username :: calls) := by
          rw [accepted, accepted, list.clients_eq, h.clients_eq, entered, top, List.append_assoc]
          rfl
        rw [result, sameOrder]
        rfl
    | remove node =>
      have member : node ∈ xs := h.clients_eq ▸ here
      obtain ⟨s1, removed, list, same, entered⟩ := h.remove member
      obtain ⟨s', ys, ran, list', head, result⟩ := ih list (later s1 removed)
      refine ⟨s', ys, ?_, list', head.trans same.listenFd, ?_⟩
      · rw [applyAll, List.foldlM_cons]
        exact (congrArg (· >>= fun s => applyAll s calls) removed).trans ran
      · have lower : node < s.nodes.top := h.allocated node (List.mem_cons_of_mem _ member)
        -- The clients still to come have nodes above this one.
        have sameOrder : accepted s1 calls = (accepted s (.remove node :: calls)).filter fun e => e.2 ≠ node := by
          rw [accepted, accepted, list.clients_eq, h.clients_eq, entered, same.top, List.filter_append]
          congr 1
          refine (List.filter_eq_self.mpr fun e new => decide_eq_true ?_).symm
          have above := List.le_snd_of_mem_zipIdx new
          omega
        rw [result, sameOrder, List.filter_filter]
        refine List.filter_congr fun e _ => ?_
        simp only [List.filterMap_cons, Call.removed, List.mem_cons, not_or, Bool.decide_and, Bool.and_comm]

end

/-- The list of connections after any calls, and the broadcast over it. -/
theorem connection_list {s : Server} {xs : List Nat} {calls : List Call} (listed : Listed s xs)
    (distinct : ((s.listenFd :: xs).map fun a => (s.nodes.cell a).fd).Nodup) (allowed : AllAllowed s calls) :
    ∃ s' ys, applyAll s calls = some s' ∧ Listed s' ys ∧ s'.listenFd = s.listenFd ∧
      entries s' ys = (accepted s calls).filter (fun e => e.2 ∉ calls.filterMap Call.removed) ∧
      ((s'.listenFd :: ys).map fun a => (s'.nodes.cell a).fd).Nodup ∧ clientCount s' = ys.length ∧
      ∀ origin ∈ s'.listenFd :: ys, ∀ msg, Broadcasts s' ys origin msg := by
  have apart : ∀ a ∈ xs, (s.nodes.cell a).fd ≠ (s.nodes.cell s.listenFd).fd := fun a member same =>
    (List.nodup_cons.mp distinct).1 (List.mem_map.mpr ⟨a, member, same⟩)
  obtain ⟨s', ys, ran, list, head, result⟩ := applyAll_spec ⟨listed, apart⟩ allowed
  refine ⟨s', ys, ran, list.toListed, head, result, list.distinct, ?_, fun origin inside msg => list.broadcasts inside msg⟩
  rw [clientCount, list.clients_eq]

/-- Two clients arrive and the first one leaves. -/
theorem connection_list_leaving :
    ∃ s' ys, applyAll (.start 3 (.zero 16)) [.append 4 (.zero 16), .append 5 (.zero 16), .remove 1] = some s' ∧
      entries s' ys = [(5, 2)] ∧ clientCount s' = 1 ∧ Broadcasts s' ys 2 (joinMsg 65) := by
  have allowed : AllAllowed (.start 3 (.zero 16)) [.append 4 (.zero 16), .append 5 (.zero 16), .remove 1] := by
    refine ⟨by decide, fun s₁ first => ?_⟩
    obtain rfl := Option.some.inj first
    refine ⟨by decide, fun s₂ second => ?_⟩
    obtain rfl := Option.some.inj second
    exact ⟨by decide, fun _ _ => trivial⟩
  obtain ⟨s', ys, ran, _, _, left, _, count, broadcasts⟩ :=
    connection_list (start_listed 3 (.zero 16)) (List.nodup_singleton _) allowed
  have left : entries s' ys = [(5, 2)] := left
  have nodes : ys = [2] := by
    have second := congrArg (List.map Prod.snd) left
    rwa [entries, List.map_map, List.map_id''] at second
    exact fun _ => rfl
  subst nodes
  exact ⟨s', [2], ran, left, count, broadcasts 2 (List.mem_cons_of_mem _ List.mem_cons_self) (joinMsg 65)⟩

end NetProjects.Chat
