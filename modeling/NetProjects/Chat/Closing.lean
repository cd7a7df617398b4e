import NetProjects.Chat.Joining

/-!
# Closed connections

Every connection that the chat server has accepted is in the list or has been closed once, and nothing is
written to one that an earlier turn has closed.
-/

namespace NetProjects.Chat
open Bytes Linked

def Action.closes : Action → Option Nat
  | .close a => some a
  | .write _ _ => none

/-- The nodes whose connections these turns have closed. -/
def closed (turns : List Turn) : List Nat := (actionsOf turns).filterMap Action.closes

/-- A turn closes no connection but its own, and writes to it behind the close only when the end of the stream
has found a JOIN in the buffer. -/
structure Turn.ClosesOwn (earlier : List Turn) (t : Turn) : Prop where
  opened : ∀ b msg, .write b msg ∈ t.actions → b ∉ closed earlier
  own : ∀ front b back, t.actions = front ++ .close b :: back →
    b = t.node ∧ ∀ msg, .write b msg ∈ back → t.eof ∧ getMsgType t.msg = HeaderType.join.code

section

variable {maxClients sockfd : Int} {username : CharArray 16} {turns : List Turn} {s s' : Server} {r : Round}
  {l l' : Locals} {routing : Option Routing} {xs before after : List Nat} {t : Turn} {a b : Nat} {msg : SbcpMsg}
  {out : List Action}

theorem msgBroadcast_closes (s : Server) (a : Nat) (msg : SbcpMsg) :
    (msgBroadcast s a msg).filterMap Action.closes = [] := by
  rw [List.filterMap_eq_nil_iff]
  intro action member
  obtain ⟨c, _, rfl⟩ := List.mem_map.mp member
  rfl

/-- The one branch of the router that closes is the one that removes the node. -/
theorem Routed.conserves (routed : Routed maxClients r s l a s' l' out) :
    out.filterMap Action.closes = [] ∧ s'.clients = s.clients ∨
      out.filterMap Action.closes = [a] ∧ removeNode s a = some s' := by
  cases routed with
  | idle m | send m => exact .inl ⟨msgBroadcast_closes _ a m, rfl⟩
  | rejected nak _ _ _ _ removed => exact .inr ⟨rfl, removed⟩
  | admitted ack online =>
    refine .inl ⟨?_, named_clients⟩
    rw [List.filterMap_cons_none rfl]
    exact msgBroadcast_closes _ a online
  | ignored => exact .inl ⟨rfl, rfl⟩

theorem Turned.conserves (h : Listed t.before (before ++ t.node :: after)) (turned : Turned maxClients t l') :
    (t.actions.filterMap Action.closes ++ t.after.clients).Perm t.before.clients := by
  obtain ⟨s₁, removes, shorter, same, _⟩ := removeNode_spec h
  have moved : (t.node :: (before ++ after)).Perm t.before.clients := by
    rw [h.clients_eq]
    exact List.perm_middle.symm
  cases turned with
  | stayed _ routed =>
    rcases routed.conserves with ⟨none, kept⟩ | ⟨one, removed⟩
    · rw [none, kept]
      exact .refl _
    · obtain rfl := Option.some.inj (removes.symm.trans removed)
      rw [one, shorter.clients_eq]
      exact moved
  | left _ offline s₂ out _ _ removed routed actions =>
    obtain rfl := Option.some.inj (removes.symm.trans removed)
    have absent := removed_absent h same
    rcases routed.conserves with ⟨none, kept⟩ | ⟨_, again⟩
    · have closes : (Action.close t.node).closes = some t.node := rfl
      have one : (Action.close t.node :: out).filterMap Action.closes = [t.node] := by
        rw [List.filterMap_cons_some closes, none]
      rw [actions, List.filterMap_append, msgBroadcast_closes, List.nil_append, one, kept, shorter.clients_eq]
      exact moved
    · rw [removeNode_absent shorter absent] at again
      cases again

theorem closed_concat (turns : List Turn) (t : Turn) :
    closed (turns ++ [t]) = closed turns ++ t.actions.filterMap Action.closes := by
  rw [closed, actionsOf_concat, List.filterMap_append]
  rfl

theorem close_outside (none : out.filterMap Action.closes = []) : .close b ∉ out := by
  intro member
  have closes := List.filterMap_eq_nil_iff.mp none _ member
  cases closes

/-- Only one place of the actions is a close. -/
theorem close_split {front back front' : List Action} (split : front ++ .close b :: back = front' ++ .close a :: out)
    (first : front'.filterMap Action.closes = []) (last : out.filterMap Action.closes = []) : b = a ∧ back = out := by
  rcases List.append_eq_append_iff.mp split with ⟨more, rfl, rest⟩ | ⟨more, rfl, rest⟩
  · cases more with
    | nil =>
      obtain ⟨same, rest⟩ := List.cons.inj rest
      exact ⟨Action.close.inj same, rest⟩
    | cons x more =>
      obtain ⟨rfl, _⟩ := List.cons.inj rest
      exact absurd (List.mem_append_right _ List.mem_cons_self) (close_outside first)
  · cases more with
    | nil =>
      obtain ⟨same, rest⟩ := List.cons.inj rest
      exact ⟨(Action.close.inj same).symm, rest.symm⟩
    | cons x more =>
      obtain ⟨_, rfl⟩ := List.cons.inj rest
      exact absurd (List.mem_append_right _ List.mem_cons_self) (close_outside last)

theorem Turned.own_closed (h : Listed t.before (before ++ t.node :: after)) (turned : Turned maxClients t l')
    {front back : List Action} (split : t.actions = front ++ .close b :: back) :
    b = t.node ∧ ∀ msg, .write b msg ∈ back → t.eof ∧ getMsgType t.msg = HeaderType.join.code := by
  have inside : .close b ∈ t.actions := by
    rw [split]
    exact List.mem_append_right _ List.mem_cons_self
  cases turned with
  | stayed _ routed =>
    generalize t.actions = actions, t.after = s₁ at routed split inside
    cases routed with
    | idle m | send m => exact absurd inside (close_outside (msgBroadcast_closes _ _ m))
    | rejected nak =>
      have once : front ++ .close b :: back = [.write t.node nak] ++ .close t.node :: [] := split.symm
      obtain ⟨rfl, rfl⟩ := close_split once rfl rfl
      exact ⟨rfl, fun _ member => absurd member List.not_mem_nil⟩
    | admitted ack online =>
      exact absurd ((List.mem_cons.mp inside).resolve_left Action.noConfusion)
        (close_outside (msgBroadcast_closes _ _ online))
    | ignored => cases inside
  | left ended offline s₂ out _ _ removed routed actions =>
    obtain ⟨s₁, removes, shorter, same, _⟩ := removeNode_spec h
    obtain rfl := Option.some.inj (removes.symm.trans removed)
    have absent := removed_absent h same
    have none : out.filterMap Action.closes = [] := by
      refine routed.conserves.elim And.left fun again => ?_
      rw [removeNode_absent shorter absent] at again
      cases again.2
    rw [actions] at split
    obtain ⟨rfl, rfl⟩ := close_split split.symm (msgBroadcast_closes _ _ _) none
    refine ⟨rfl, fun msg sent => ⟨ended, ?_⟩⟩
    have others : ∀ m, .write t.node msg ∉ msgBroadcast s₁ t.node m := by
      intro m sent
      rw [msgBroadcast_absent shorter absent] at sent
      obtain ⟨c, member, same⟩ := List.mem_map.mp sent
      exact absent c member (by cases same; rfl)
    generalize t.after = s₂ at routed
    cases routed with
    | idle m | send m => exact absurd sent (others m)
    | rejected _ _ asked | admitted _ _ _ asked => exact asked
    | ignored => cases sent

/-! ### Over a run -/

theorem closed_apart (perm : (closed turns ++ s.clients).Perm (List.range' 1 (s.nodes.top - 1)))
    (inside : b ∈ s.clients) : b ∉ closed turns := by
  have distinct := perm.nodup_iff.mpr List.nodup_range'
  exact fun gone => List.disjoint_of_nodup_append distinct gone inside

/-- All connections that were ever accepted are open and in the list, or have been closed once; what a turn
writes goes to open ones, but for an ACK behind the end of the stream. -/
theorem connections_conserved (run : Run maxClients (.start sockfd username) turns s routing) :
    (closed turns ++ s.clients).Perm (List.range' 1 (s.nodes.top - 1)) ∧
      ∀ earlier t later, turns = earlier ++ t :: later → t.ClosesOwn earlier := by
  refine (Run.rule (I := fun turns s => (closed turns ++ s.clients).Perm (List.range' 1 (s.nodes.top - 1)) ∧
    ∀ earlier t later, turns = earlier ++ t :: later → t.ClosesOwn earlier) (start_listed sockfd username) ?_ ?_ ?_ run).2
  · refine ⟨?_, fun earlier t later split => ?_⟩
    · rw [(start_listed sockfd username).clients_eq]
      exact .refl _
    · cases earlier <;> cases split
  · rintro turns s s' xs listed longer _ top _ ⟨perm, own⟩
    refine ⟨?_, own⟩
    obtain ⟨n, first⟩ : ∃ n, s.nodes.top = n + 1 :=
      ⟨s.nodes.top - 1, by have pos := listed.allocated _ List.mem_cons_self; omega⟩
    rw [listed.clients_eq, first, Nat.add_sub_cancel] at perm
    rw [longer.clients_eq, top, first, Nat.add_sub_cancel, ← List.append_assoc, List.range'_concat, Nat.one_mul,
      Nat.add_comm 1 n]
    exact perm.append_right _
  · rintro turns t l' before after listed turned ⟨perm, own⟩
    refine ⟨?_, fun earlier u later split => ?_⟩
    · rw [closed_concat, List.append_assoc, turned.top listed]
      exact ((turned.conserves listed).append_left _).trans perm
    · rcases List.eq_nil_or_concat later with rfl | ⟨later, last, rfl⟩
      · obtain ⟨rfl, same⟩ := List.append_inj' split rfl
        cases same
        refine ⟨fun b msg sent => closed_apart perm ?_, fun front b back split => turned.own_closed listed split⟩
        cases turned.sends listed sent with
        | answer here => exact here ▸ listed.mem_clients
        | notice inside | relay inside => exact inside
      · rw [List.concat_eq_append, ← List.cons_append, ← List.append_assoc] at split
        exact own earlier u later (List.append_inj' split rfl).1

end

/-- The first of two clients leaves. -/
theorem connections_conserved_left : ∃ turns s, Run 2 (.start 3 (.zero 16)) turns s none ∧ closed turns = [1] ∧
    s.clients = [2] ∧ (closed turns ++ s.clients).Perm (List.range' 1 (s.nodes.top - 1)) ∧
      ∀ earlier t later, turns = earlier ++ t :: later → t.ClosesOwn earlier := by
  have served : (serve 2 [.accept 4, .accept 5, .receive [(4, .data [])]] (.start 3 (.zero 16))).map (fun x =>
      (closed x.2, x.1.clients)) = some ([1], [2]) := by decide +kernel
  obtain ⟨⟨s, turns⟩, done, found⟩ := Option.map_eq_some_iff.mp served
  obtain ⟨gone, inside⟩ := Prod.mk.inj found
  have run := serve_run .start done
  exact ⟨turns, s, run, gone, inside, connections_conserved run⟩

end NetProjects.Chat
