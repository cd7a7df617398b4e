import NetProjects.Chat.Answers
import NetProjects.Chat.Client

/-!
# The name that is given and the name that joins

The client passes the size of a pointer for the length of its name.
-/

namespace NetProjects.Chat
open Bytes Linked

/-- A name on the command line. -/
structure GivenName (name : List UInt8) : Prop where
  nonempty : name ≠ []
  short : name.length ≤ 15
  noNul : 0 ∉ name

/-- The JOIN of a client started under `name` is accepted at the node `a`; the server is then `s'`. -/
structure Accepted (maxClients : Int) (r : Round) (a : Nat) (name : List UInt8) (s' : Server) (l' : Locals) : Prop where
  joined : ∃ s l behind join out ack, joinRequest (name ++ 0 :: behind) = some join ∧
    turn maxClients r s l a (.data join.bytes) = some (s', l', out) ∧ .write a ack ∈ out ∧
    getMsgType ack = HeaderType.ack.code

/-- The name is stored for `a`, and it was compared with the names in the chat. -/
structure KeptName (r : Round) (a : Nat) (name : List UInt8) (s' : Server) (l' : Locals) : Prop where
  stored : nameOf s' r a = name
  compared : cstring (newNameView r l'.newName) = name

/-- The test of `is_duplicate_name` for one node. -/
def TakenForSame (s : Server) (r : Round) (a : Nat) (newName : CharArray 16) : Prop :=
  nameOf s r a = cstring (newNameView r newName)

section

variable {maxClients : Int} {s s' : Server} {r : Round} {l l' : Locals} {a : Nat} {name behind : List UInt8} {join : SbcpMsg}
  {out : List Action} {ack : SbcpMsg}

/-- Of the memory from the name on, eight bytes are in the JOIN. -/
theorem joinRequest_spec (built : joinRequest (name ++ 0 :: behind) = some join) :
    getMsgType join = HeaderType.join.code ∧ join.attribute0.sbcpAttributeType = AttributeType.username.code ∧
      join.attribute0.payload.bytes = (name ++ 0 :: behind).take 8 ++ List.replicate 504 0 := by
  obtain ⟨attribute0, made, built⟩ := Option.bind_eq_some_iff.mp built
  obtain rfl := Option.some.inj built
  obtain ⟨type, _, _, _, payload⟩ := makeAttribute_spec made
  exact ⟨getMsgType_ofType .join, type, payload⟩

theorem parseMsgJoin_joinRequest (built : joinRequest (name ++ 0 :: behind) = some join) (newName : CharArray 16)
    (noNul : 0 ∉ name) (rest : List UInt8) : cstring ((parseMsgJoin join newName).bytes ++ rest) = name.take 8 := by
  obtain ⟨_, type, payload⟩ := joinRequest_spec built
  obtain ⟨zeros, copied⟩ : ∃ zeros, (parseMsgJoin join newName).bytes = (name ++ 0 :: behind).take 8 ++ 0 :: zeros := by
    rw [parseMsgJoin, if_pos type]
    change ∃ zeros, (join.attribute0.payload.bytes.drop 0).take 16 = _
    rw [List.drop_zero, payload, List.take_append, List.take_take, List.take_replicate]
    have enough : min (16 - ((name ++ 0 :: behind).take 8).length) 504 =
        15 - ((name ++ 0 :: behind).take 8).length + 1 := by
      have most := List.length_take_le 8 (name ++ 0 :: behind)
      omega
    exact ⟨_, by rw [enough, List.replicate_succ]; rfl⟩
  rw [copied, List.append_assoc, List.cons_append, cstring_append_nul, cstring_take, cstring_append_nul,
    cstring_eq_self noNul]

/-- Only a JOIN that is accepted is answered with an ACK. -/
theorem admitted_of_ack (routed : Routed maxClients r s l a s' l' out) (member : .write a ack ∈ out)
    (type : getMsgType ack = HeaderType.ack.code) (join : getMsgType (castMsg l.buf) = HeaderType.join.code) :
    s' = s.named a (parseMsgJoin (castMsg l.buf) l.newName) ∧ l'.newName = parseMsgJoin (castMsg l.buf) l.newName := by
  cases routed with
  | idle msg asked => rw [join] at asked; cases asked
  | send msg asked => rw [join] at asked; cases asked
  | ignored _ _ notJoin => exact absurd join notJoin
  | admitted => exact ⟨rfl, rfl⟩
  | rejected nak _ _ _ nakType =>
    simp only [List.mem_cons, Action.write.injEq, true_and, reduceCtorEq, List.not_mem_nil, or_false] at member
    rw [member, nakType] at type
    cases type

/-- Eight bytes of the name are stored and compared. -/
theorem Accepted.kept (accepted : Accepted maxClients r a name s' l') (noNul : 0 ∉ name) :
    (∀ rest, cstring ((s'.nodes.cell a).username.bytes ++ rest) = name.take 8) ∧
      cstring (newNameView r l'.newName) = name.take 8 := by
  obtain ⟨s, l, behind, join, out, ack, built, turned, member, type⟩ := accepted.joined
  obtain ⟨joinType, _⟩ := joinRequest_spec built
  rw [turn_of_open _ _ _ _ _ (data_open join)] at turned
  obtain ⟨rfl, newName⟩ := admitted_of_ack (routeMessage_cases turned) member type (by rwa [castMsg_data])
  rw [castMsg_data] at newName ⊢
  constructor
  · intro rest
    rw [named_self.1]
    exact parseMsgJoin_joinRequest built _ noNul rest
  · rw [newName]
    exact parseMsgJoin_joinRequest built _ noNul _

theorem joinRequest_isSome (name behind : List UInt8) (long : 8 ≤ (name ++ 0 :: behind).length) :
    ∃ join, joinRequest (name ++ 0 :: behind) = some join := by
  obtain ⟨attribute0, made⟩ := makeAttribute_isSome .username (.ofNat 8) (name ++ 0 :: behind) 8 (by decide) long
  refine ⟨{ SbcpMsg.ofType .join with attribute0 := attribute0 }, ?_⟩
  simp only [joinRequest, makeMsgJoin, made, Option.bind_eq_bind, Option.bind_some, Option.pure_def]

theorem start_alone : ∃ s, Listed s [1] ∧ nameOf s .quiet 1 = [] := by
  obtain ⟨s, appended, listed, _⟩ := appendNode_spec (start_listed 3 (.zero 16)) 4 (.zero 16) nofun
  obtain rfl := Option.some.inj appended
  exact ⟨_, listed, by decide⟩

/-- The first client is accepted, its node having been allocated over zeros. -/
theorem first_accepted (behind : List UInt8) (given : GivenName name) (long : 8 ≤ (name ++ 0 :: behind).length) :
    ∃ s' l', Accepted 10 .quiet 1 name s' l' := by
  obtain ⟨join, built⟩ := joinRequest_isSome name behind long
  obtain ⟨s, listed, unnamed⟩ := start_alone
  obtain ⟨joinType, _⟩ := joinRequest_spec built
  let l := Round.quiet.locals.read (.data join.bytes)
  have asked : getMsgType (castMsg l.buf) = HeaderType.join.code := by rwa [castMsg_data]
  have clients := listed.clients_eq
  have answered : AnswersWith .ack 1 (routeMessage 10 .quiet s l 1) := by
    refine (ack_iff asked).mpr ⟨?_, by rw [clients]; decide⟩
    rintro (full | duplicate)
    · rw [clientCount, clients] at full
      exact absurd full (by decide)
    · -- The only name to compare with is the client's own, which is still empty.
      obtain ⟨b, member, same⟩ := List.any_eq_true.mp duplicate
      rw [clients] at member
      obtain rfl := List.mem_singleton.mp member
      have compared : cstring (newNameView .quiet (parseMsgJoin (castMsg l.buf) l.newName)) = name.take 8 := by
        rw [castMsg_data]
        exact parseMsgJoin_joinRequest built _ given.noNul _
      rw [compared] at same
      have empty : name.take 8 = [] := (eq_of_beq same).symm.trans unnamed
      exact given.nonempty ((List.take_eq_nil_iff.mp empty).resolve_left (by decide))
  obtain ⟨s', l', out, ack, routed, member, type⟩ := answered
  refine ⟨s', l', ⟨s, Round.quiet.locals, behind, join, out, ack, built, ?_, member, type⟩⟩
  rwa [turn_of_open _ _ _ _ _ (data_open join)]

theorem take_eq_self_iff : name.take 8 = name ↔ name.length ≤ 8 := by
  constructor
  · intro same
    have length := congrArg List.length same
    rw [List.length_take] at length
    omega
  · exact List.take_of_length_le

end

/-- A name is kept exactly when it has at most eight bytes, and a later client is taken for the same
exactly when the first eight bytes of its name are the same. -/
theorem join_name_iff {maxClients : Int} {s' s₂ : Server} {r : Round} {l' : Locals} {a : Nat}
    {name name₂ behind : List UInt8} {join : SbcpMsg} (given : GivenName name) (given₂ : GivenName name₂)
    (accepted : Accepted maxClients r a name s' l') (built : joinRequest (name₂ ++ 0 :: behind) = some join)
    (still : (s₂.nodes.cell a).username = (s'.nodes.cell a).username) (r₂ : Round) (newName : CharArray 16) :
    (KeptName r a name s' l' ↔ name.length ≤ 8) ∧
      (TakenForSame s₂ r₂ a (parseMsgJoin join newName) ↔ name.take 8 = name₂.take 8) := by
  obtain ⟨stored, compared⟩ := accepted.kept given.noNul
  constructor
  · rw [← take_eq_self_iff]
    constructor
    · exact fun kept => compared.symm.trans kept.compared
    · exact fun same => ⟨(stored _).trans same, compared.trans same⟩
  · have first : nameOf s₂ r₂ a = name.take 8 := by
      rw [nameOf, usernameView, still]
      exact stored _
    rw [TakenForSame, first, newNameView, parseMsgJoin_joinRequest built newName given₂.noNul]

/-- The argument of a client named "bob" is followed by the address of the server. -/
theorem join_name_bob :
    ∃ s' l' join, joinRequest (cstr "alice" ++ 0 :: cstr "127.0.0.1") = some join ∧
      KeptName .quiet 1 (cstr "bob") s' l' ∧ ¬ TakenForSame s' .quiet 1 (parseMsgJoin join (.zero 16)) := by
  have bob : GivenName (cstr "bob") := ⟨by decide, by decide, by decide⟩
  have alice : GivenName (cstr "alice") := ⟨by decide, by decide, by decide⟩
  obtain ⟨s', l', accepted⟩ := first_accepted (cstr "127.0.0.1") bob (by decide)
  obtain ⟨join, built⟩ := joinRequest_isSome (cstr "alice") (cstr "127.0.0.1") (by decide)
  have names := join_name_iff bob alice accepted built rfl .quiet (.zero 16)
  refine ⟨s', l', join, built, names.1.mpr (by decide), fun same => ?_⟩
  exact absurd (names.2.mp same) (by decide)

/-- Nine bytes are stored as eight, and ten bytes are taken for the same. -/
theorem join_name_cut :
    ∃ s' l' join, GivenName (cstr "elisabeth") ∧ GivenName (cstr "elisabetta") ∧
      Accepted 10 .quiet 1 (cstr "elisabeth") s' l' ∧ ¬ KeptName .quiet 1 (cstr "elisabeth") s' l' ∧
      joinRequest (cstr "elisabetta" ++ [0]) = some join ∧ TakenForSame s' .quiet 1 (parseMsgJoin join (.zero 16)) := by
  have given : GivenName (cstr "elisabeth") := ⟨by decide, by decide, by decide⟩
  have other : GivenName (cstr "elisabetta") := ⟨by decide, by decide, by decide⟩
  obtain ⟨s', l', accepted⟩ := first_accepted [] given (by decide)
  obtain ⟨join, built⟩ := joinRequest_isSome (cstr "elisabetta") [] (by decide)
  obtain ⟨stored, compared⟩ := accepted.kept given.noNul
  refine ⟨s', l', join, given, other, accepted, fun kept => ?_, built, ?_⟩
  · have nine := compared.symm.trans kept.compared
    exact absurd nine (by decide)
  · have cut : nameOf s' .quiet 1 = (cstr "elisabeth").take 8 := stored _
    rw [TakenForSame, cut, newNameView, parseMsgJoin_joinRequest built _ other.noNul]
    decide

end NetProjects.Chat
