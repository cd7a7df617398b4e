import NetProjects.Chat.Runs

/-!
# Admission

The clients that have been let in: never more than the limit, and never two under one name.
-/

namespace NetProjects.Chat
open Bytes Linked

/-- The clients of the list whose JOIN was answered with an ACK. -/
def Server.joined (s : Server) : List Nat := s.clients.filter fun a => (s.nodes.cell a).acked

/-- A JOIN names its client, in a string of the 16 bytes that are copied. -/
def SbcpMsg.NamesClient (m : SbcpMsg) : Prop :=
  m.attribute0.sbcpAttributeType = AttributeType.username.code ∧ 0 ∈ m.attribute0.payload.bytes.take 16

instance (m : SbcpMsg) : Decidable m.NamesClient := inferInstanceAs (Decidable (_ ∧ _))

structure NamesApart (s : Server) : Prop where
  terminated : ∀ a ∈ s.clients, (s.nodes.cell a).acked → 0 ∈ (s.nodes.cell a).username.bytes
  distinct : ∀ a ∈ s.clients, ∀ b ∈ s.clients, (s.nodes.cell a).acked → (s.nodes.cell b).acked →
    cstring (s.nodes.cell a).username.bytes = cstring (s.nodes.cell b).username.bytes → a = b

section

variable {maxClients sockfd : Int} {username : CharArray 16} {turns : List Turn} {s s' : Server}
  {routing : Option Routing} {xs before after : List Nat} {t : Turn}

/-! ### Capacity -/

theorem joined_accepted (listed : Listed s xs) (longer : Listed s' (xs ++ [s.nodes.top])) (same : SameClients s s')
    (notYet : (s'.nodes.cell s.nodes.top).acked = false) : s'.joined = s.joined := by
  rw [Server.joined, Server.joined, longer.clients_eq, listed.clients_eq, List.filter_append]
  have none : [s.nodes.top].filter (fun a => (s'.nodes.cell a).acked) = [] :=
    List.filter_eq_nil_iff.mpr fun a member => by
      rw [List.mem_singleton.mp member, notYet]
      exact Bool.false_ne_true
  rw [none, List.append_nil]
  exact List.filter_congr fun a member => same.acked a (listed.allocated a (List.mem_cons_of_mem _ member))

theorem capacity_turn (listed : Listed t.before (before ++ t.node :: after)) (changed : Changed maxClients t before after)
    (bounded : (t.before.joined.length : Int) ≤ maxClients) : (t.after.joined.length : Int) ≤ maxClients := by
  cases changed with
  | same unchanged => rwa [unchanged]
  | removed shorter _ keeps =>
    have fewer : t.after.joined.Sublist t.before.joined := by
      rw [Server.joined, Server.joined, shorter.clients_eq, listed.clients_eq,
        List.filter_congr fun a member => (keeps a member).2]
      exact ((List.sublist_cons_self t.node after).append_left before).filter _
    have shorter := fewer.length_le
    omega
  | named _ _ room _ named =>
    -- The client itself is one of those that are counted, so all of them fit.
    have atMost : t.after.joined.length ≤ t.before.clients.length := by
      rw [Server.joined, named, named_clients]
      exact List.length_filter_le _ _
    unfold clientCount at room
    omega

theorem joined_le_maxClients (limit : 0 ≤ maxClients) (run : Run maxClients (.start sockfd username) turns s routing) :
    (s.joined.length : Int) ≤ maxClients := by
  refine (Run.rule (I := fun _ s => (s.joined.length : Int) ≤ maxClients) (start_listed sockfd username) limit ?_ ?_ run).2
  · intro _ s s' xs listed longer same _ notYet bounded
    rwa [joined_accepted listed longer same notYet]
  · intro _ t _ before after listed turned bounded
    exact capacity_turn listed (turned.changed listed) bounded

/-! ### Names -/

theorem namesApart_accepted (listed : Listed s xs) (longer : Listed s' (xs ++ [s.nodes.top])) (same : SameClients s s')
    (notYet : (s'.nodes.cell s.nodes.top).acked = false) (apart : NamesApart s) : NamesApart s' := by
  have old : ∀ a ∈ s'.clients, (s'.nodes.cell a).acked → a ∈ s.clients ∧ (s.nodes.cell a).acked ∧
      (s'.nodes.cell a).username = (s.nodes.cell a).username := by
    intro a member acked
    rw [longer.clients_eq, List.mem_append, List.mem_singleton] at member
    rcases member with member | rfl
    · have allocated := listed.allocated a (List.mem_cons_of_mem _ member)
      rw [same.acked a allocated] at acked
      exact ⟨listed.clients_eq ▸ member, acked, same.username a allocated⟩
    · rw [notYet] at acked
      cases acked
  constructor
  · intro a member acked
    obtain ⟨member, acked, username⟩ := old a member acked
    rw [username]
    exact apart.terminated a member acked
  · intro a inA b inB ackedA ackedB equal
    obtain ⟨inA, ackedA, usernameA⟩ := old a inA ackedA
    obtain ⟨inB, ackedB, usernameB⟩ := old b inB ackedB
    rw [usernameA, usernameB] at equal
    exact apart.distinct a inA b inB ackedA ackedB equal

/-- A terminated name is read without what stands behind the array. -/
theorem cstring_usernameView {r : Round} {a : Nat} (terminated : 0 ∈ (s.nodes.cell a).username.bytes) :
    cstring (usernameView s r a) = cstring (s.nodes.cell a).username.bytes :=
  cstring_append terminated

theorem not_duplicate (listed : Listed s xs) {r : Round} {newName : CharArray 16} (terminated : 0 ∈ newName.bytes)
    (unique : ¬ isDuplicateName s r newName) :
    ∀ a ∈ xs, 0 ∈ (s.nodes.cell a).username.bytes → cstring (s.nodes.cell a).username.bytes ≠ cstring newName.bytes := by
  intro a member ended same
  apply unique
  rw [isDuplicateName, listed.clients_eq, List.any_eq_true]
  refine ⟨a, member, ?_⟩
  rw [beq_iff_eq, cstring_usernameView ended, newNameView, cstring_append terminated, same]

theorem parseMsgJoin_terminated {m : SbcpMsg} (names : m.NamesClient) (newName : CharArray 16) :
    0 ∈ (parseMsgJoin m newName).bytes := by
  rw [parseMsgJoin, if_pos names.1]
  exact names.2

theorem namesApart_turn (listed : Listed t.before (before ++ t.node :: after)) (changed : Changed maxClients t before after)
    (names : ¬ t.eof → getMsgType t.msg = HeaderType.join.code → t.msg.NamesClient) (apart : NamesApart t.before) :
    NamesApart t.after := by
  have members := listed.clients_eq
  cases changed with
  | same unchanged => rwa [unchanged]
  | removed shorter _ keeps =>
    have still : ∀ a ∈ t.after.clients, a ∈ t.before.clients := by
      intro a member
      rw [shorter.clients_eq, List.mem_append] at member
      rw [members, List.mem_append, List.mem_cons]
      tauto
    have keeps : ∀ a ∈ t.after.clients, _ := fun a member => keeps a (shorter.clients_eq ▸ member)
    constructor
    · intro a member acked
      rw [(keeps a member).2] at acked
      rw [(keeps a member).1]
      exact apart.terminated a (still a member) acked
    · intro a inA b inB ackedA ackedB same
      rw [(keeps a inA).2] at ackedA
      rw [(keeps b inB).2] at ackedB
      rw [(keeps a inA).1, (keeps b inB).1] at same
      exact apart.distinct a (still a inA) b (still b inB) ackedA ackedB same
  | named open' asked _ unique named =>
    have terminated := parseMsgJoin_terminated (names open' asked) t.locals.newName
    have others := not_duplicate listed terminated unique
    rw [named]
    constructor
    · intro a member acked
      by_cases here : a = t.node
      · rw [here, named_self.1]
        exact terminated
      · rw [named_other here] at acked ⊢
        exact apart.terminated a (named_clients ▸ member) acked
    · intro a inA b inB ackedA ackedB same
      rw [named_clients] at inA inB
      by_cases hereA : a = t.node
      · by_cases hereB : b = t.node
        · rw [hereA, hereB]
        · rw [hereA, named_self.1, named_other hereB] at same
          rw [named_other hereB] at ackedB
          exact absurd same.symm (others b (members ▸ inB) (apart.terminated b inB ackedB))
      · rw [named_other hereA] at ackedA same
        by_cases hereB : b = t.node
        · rw [hereB, named_self.1] at same
          exact absurd same (others a (members ▸ inA) (apart.terminated a inA ackedA))
        · rw [named_other hereB] at ackedB same
          exact apart.distinct a inA b inB ackedA ackedB same

theorem joined_names_distinct (run : Run maxClients (.start sockfd username) turns s routing)
    (named : ∀ t ∈ turns, ¬ t.eof → getMsgType t.msg = HeaderType.join.code → t.msg.NamesClient) :
    ∀ a ∈ s.joined, ∀ b ∈ s.joined,
      cstring (s.nodes.cell a).username.bytes = cstring (s.nodes.cell b).username.bytes → a = b := by
  have apart : NamesApart s := by
    refine (Run.rule (I := fun turns s => (∀ t ∈ turns, ¬ t.eof → getMsgType t.msg = HeaderType.join.code →
      t.msg.NamesClient) → NamesApart s) (start_listed sockfd username) ?_ ?_ ?_ run).2 named
    · intro _
      have empty := (start_listed sockfd username).clients_eq
      refine ⟨fun a member => ?_, fun a member => ?_⟩ <;>
        · rw [empty] at member
          cases member
    · intro _ s s' xs listed longer same _ notYet apart named
      exact namesApart_accepted listed longer same notYet (apart named)
    · intro turns t _ before after listed turned apart named
      have apart := apart fun t member => named t (List.mem_append_left _ member)
      exact namesApart_turn listed (turned.changed listed) (named t (List.mem_append_right _ List.mem_cons_self)) apart
  intro a inA b inB
  obtain ⟨inA, ackedA⟩ := List.mem_filter.mp inA
  obtain ⟨inB, ackedB⟩ := List.mem_filter.mp inB
  exact apart.distinct a inA b inB ackedA ackedB

end

theorem two_joined : ∃ s turns, Run 2 (.start 3 (.zero 16)) turns s none ∧ s.joined = [1, 2] ∧ (s.joined.length : Int) ≤ 2 := by
  have served : (serve 2 twoJoin (.start 3 (.zero 16))).map (fun x => x.1.joined) = some [1, 2] := by decide +kernel
  obtain ⟨⟨s, turns⟩, done, joined⟩ := Option.map_eq_some_iff.mp served
  have run := serve_run .start done
  exact ⟨s, turns, run, joined, joined_le_maxClients (by decide) run⟩

theorem two_joined_names : ∃ s turns, Run 2 (.start 3 (.zero 16)) turns s none ∧ s.joined = [1, 2] ∧
    cstring (s.nodes.cell 1).username.bytes ≠ cstring (s.nodes.cell 2).username.bytes := by
  have served : (serve 2 twoJoin (.start 3 (.zero 16))).map (fun x =>
      (x.1.joined, x.2.all fun t => decide t.msg.NamesClient)) = some ([1, 2], true) := by decide +kernel
  obtain ⟨⟨s, turns⟩, done, found⟩ := Option.map_eq_some_iff.mp served
  obtain ⟨joined, named⟩ := Prod.mk.inj found
  have run := serve_run .start done
  refine ⟨s, turns, run, joined, fun same => ?_⟩
  have same := joined_names_distinct run (fun t member _ _ => of_decide_eq_true (List.all_eq_true.mp named t member)) 1
    (by rw [joined]; decide) 2 (by rw [joined]; decide) same
  exact absurd same (by decide)

end NetProjects.Chat
