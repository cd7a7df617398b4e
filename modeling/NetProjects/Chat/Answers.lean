import NetProjects.Chat.Admission

/-!
# Answers to a JOIN

The router decides over every node of the list, also over the connections that have not joined and
whatever their `username` arrays held when they were allocated.
-/

namespace NetProjects.Chat
open Bytes Linked

/-- The name a JOIN gives, in the bytes that are copied from it. -/
def SbcpMsg.joinName (m : SbcpMsg) : List UInt8 := cstring (m.attribute0.payload.bytes.take 16)

/-- One more client may join, and no client has joined under the name. -/
def Server.Admits (maxClients : Int) (s : Server) (name : List UInt8) : Prop :=
  (s.joined.length : Int) < maxClients ∧ ∀ b ∈ s.joined, cstring (s.nodes.cell b).username.bytes ≠ name

def AnswersWith (type : HeaderType) (a : Nat) (turned : Option (Server × Locals × List Action)) : Prop :=
  ∃ s l out msg, turned = some (s, l, out) ∧ .write a msg ∈ out ∧ getMsgType msg = type.code

/-- The JOIN of `a` is answered as the clients that have joined allow. -/
def AnswersJoin (maxClients : Int) (s : Server) (a : Nat) (name : List UInt8)
    (turned : Option (Server × Locals × List Action)) : Prop :=
  (s.Admits maxClients name → AnswersWith .ack a turned) ∧ (¬ s.Admits maxClients name → AnswersWith .nak a turned)

/-- The connections leave room for the client, and their names fit into the array that lists them. -/
structure Server.HasRoom (maxClients : Int) (s : Server) : Prop where
  count : clientCount s - 1 < maxClients
  names : s.clients.length ≤ 32

/-- No `username` of a connection that has not joined reads as the name. -/
def Server.NoneReadsAs (s : Server) (name : List UInt8) : Prop :=
  ∀ b ∈ s.clients, (s.nodes.cell b).acked = false → cstring (s.nodes.cell b).username.bytes ≠ name

/-- What makes the router refuse a JOIN. -/
def Refuses (maxClients : Int) (r : Round) (s : Server) (newName : CharArray 16) : Prop :=
  clientCount s - 1 ≥ maxClients ∨ isDuplicateName s r newName

section

variable {maxClients sockfd : Int} {username : CharArray 16} {turns : List Turn} {s : Server} {r : Round} {l : Locals}
  {before after : List Nat} {a : Nat} {received : Received}

/-! ### What the router does -/

theorem ack_iff (asked : getMsgType (castMsg l.buf) = HeaderType.join.code) :
    AnswersWith .ack a (routeMessage maxClients r s l a) ↔
      ¬ Refuses maxClients r s (parseMsgJoin (castMsg l.buf) l.newName) ∧ s.clients.length ≤ 32 := by
  obtain ⟨⟨s', l', out, known, routed⟩, _⟩ | ⟨fails, faults⟩ := routeMessage_spec maxClients r s l a
  · rw [known]
    cases routed with
    | idle msg idle => rw [asked] at idle; cases idle
    | send msg send => rw [asked] at send; cases send
    | ignored _ _ notJoin => exact absurd asked notJoin
    | rejected nak _ _ refused type _ =>
      apply iff_of_false
      · rintro ⟨_, _, _, msg, same, member, ack⟩
        obtain ⟨rfl, rfl, rfl⟩ := same
        simp only [List.mem_cons, Action.write.injEq, true_and, reduceCtorEq, List.not_mem_nil, or_false] at member
        rw [member, type] at ack
        cases ack
      · exact fun accepted => accepted.1 refused
    | admitted ack online usernames _ room unique few ackType _ =>
      apply iff_of_true
      · exact ⟨_, _, _, ack, rfl, List.mem_cons_self, ackType⟩
      · exact ⟨not_or.mpr ⟨not_le.mpr room, unique⟩, few⟩
  · -- A fault: the names of the clients do not fit.
    rw [fails]
    apply iff_of_false
    · rintro ⟨_, _, _, _, none, _⟩
      cases none
    · rintro ⟨accepted, few⟩
      have many := faults.2
      split at many
      · rename_i refused
        exact accepted refused
      · omega

theorem nak_of_refuses (listed : Listed s (before ++ a :: after))
    (asked : getMsgType (castMsg l.buf) = HeaderType.join.code)
    (refuses : Refuses maxClients r s (parseMsgJoin (castMsg l.buf) l.newName)) :
    AnswersWith .nak a (routeMessage maxClients r s l a) := by
  obtain ⟨⟨s', l', out, known, routed⟩, _⟩ | ⟨fails, faults⟩ := routeMessage_spec maxClients r s l a
  · rw [known]
    cases routed with
    | idle msg idle => rw [asked] at idle; cases idle
    | send msg send => rw [asked] at send; cases send
    | ignored _ _ notJoin => exact absurd asked notJoin
    | rejected nak _ _ _ type _ => exact ⟨_, _, _, nak, rfl, List.mem_cons_self, type⟩
    | admitted _ _ _ _ room unique => exact absurd refuses (not_or.mpr ⟨not_le.mpr room, unique⟩)
  · obtain ⟨_, removes, _⟩ := removeNode_spec listed
    have removed := faults.2
    split at removed
    · rw [removes] at removed
      cases removed
    · rename_i accepted
      exact absurd refuses accepted

/-! ### What it should decide -/

/-- A name of less than 16 bytes is compared with the arrays alone. -/
theorem isDuplicateName_iff {m : SbcpMsg} (names : m.NamesClient) (newName : CharArray 16) :
    isDuplicateName s r (parseMsgJoin m newName) ↔
      ∃ b ∈ s.clients, cstring (s.nodes.cell b).username.bytes = m.joinName := by
  have bytes : (parseMsgJoin m newName).bytes = m.attribute0.payload.bytes.take 16 := by
    rw [parseMsgJoin, if_pos names.1]
    rfl
  have given : cstring (newNameView r (parseMsgJoin m newName)) = m.joinName := by
    rw [newNameView, cstring_append (parseMsgJoin_terminated names newName), bytes, SbcpMsg.joinName]
  have short : m.joinName.length < 16 := by
    have inside := length_cstring_lt names.2
    have most := List.length_take_le 16 m.attribute0.payload.bytes
    unfold SbcpMsg.joinName
    omega
  rw [isDuplicateName, List.any_eq_true]
  apply exists_congr
  intro b
  rw [and_congr_right_iff]
  intro _
  rw [beq_iff_eq, given, usernameView]
  exact cstring_append_eq_iff (short.trans_eq (s.nodes.cell b).username.size.symm) _

theorem joined_lt_clients (listed : Listed s (before ++ a :: after)) (new : (s.nodes.cell a).acked = false) :
    s.joined.length < s.clients.length := by
  unfold Server.joined
  rw [List.length_filter_lt_length_iff_exists]
  exact ⟨a, listed.mem_clients, by rw [new]; exact Bool.false_ne_true⟩

/-- Where the clients that have joined leave no room or hold the name, the router refuses. -/
theorem refuses_of_not_admits {m : SbcpMsg} (listed : Listed s (before ++ a :: after))
    (new : (s.nodes.cell a).acked = false) (names : m.NamesClient) (newName : CharArray 16)
    (refused : ¬ s.Admits maxClients m.joinName) : Refuses maxClients r s (parseMsgJoin m newName) := by
  have fewer := joined_lt_clients listed new
  by_cases room : (s.joined.length : Int) < maxClients
  · right
    rw [isDuplicateName_iff names]
    by_contra free
    refine refused ⟨room, fun b member same => free ⟨b, ?_, same⟩⟩
    exact (List.mem_filter.mp member).1
  · left
    unfold clientCount
    omega

theorem accepts_iff {m : SbcpMsg} (names : m.NamesClient) (newName : CharArray 16)
    (admits : s.Admits maxClients m.joinName) :
    ¬ Refuses maxClients r s (parseMsgJoin m newName) ↔ clientCount s - 1 < maxClients ∧ s.NoneReadsAs m.joinName := by
  unfold Refuses
  rw [not_or, not_le, isDuplicateName_iff names, and_congr_right_iff]
  intro _
  constructor
  · intro free b member _ same
    exact free ⟨b, member, same⟩
  · rintro none ⟨b, member, same⟩
    cases acked : (s.nodes.cell b).acked with
    | false => exact none b member acked same
    | true => exact admits.2 b (List.mem_filter.mpr ⟨member, acked⟩) same

theorem answersJoin_iff (listed : Listed s (before ++ a :: after)) (new : (s.nodes.cell a).acked = false)
    (asked : getMsgType (castMsg l.buf) = HeaderType.join.code) (names : (castMsg l.buf).NamesClient) :
    AnswersJoin maxClients s a (castMsg l.buf).joinName (routeMessage maxClients r s l a) ↔
      (s.Admits maxClients (castMsg l.buf).joinName →
        s.HasRoom maxClients ∧ s.NoneReadsAs (castMsg l.buf).joinName) := by
  unfold AnswersJoin
  rw [ack_iff asked]
  constructor
  · rintro ⟨accepted, _⟩ admits
    obtain ⟨accepts, few⟩ := accepted admits
    obtain ⟨count, none⟩ := (accepts_iff names l.newName admits).mp accepts
    exact ⟨⟨count, few⟩, none⟩
  · intro condition
    constructor
    · intro admits
      obtain ⟨⟨count, few⟩, none⟩ := condition admits
      exact ⟨(accepts_iff names l.newName admits).mpr ⟨count, none⟩, few⟩
    · intro refused
      exact nak_of_refuses listed asked (refuses_of_not_admits listed new names l.newName refused)

/-- In a run a JOIN of a client that has not joined is answered as it should be exactly when it is to be refused, or
the connections leave room and no `username` of one that has not joined reads as the name. -/
theorem join_answered_iff (run : Run maxClients (.start sockfd username) turns s (some ⟨r, l, some a⟩))
    (stays : received.numbytes ≠ 0) (new : (s.nodes.cell a).acked = false)
    (asked : getMsgType (castMsg (l.read received).buf) = HeaderType.join.code)
    (names : (castMsg (l.read received).buf).NamesClient) :
    AnswersJoin maxClients s a (castMsg (l.read received).buf).joinName (turn maxClients r s l a received) ↔
      (s.Admits maxClients (castMsg (l.read received).buf).joinName →
        s.HasRoom maxClients ∧ s.NoneReadsAs (castMsg (l.read received).buf).joinName) := by
  obtain ⟨before, after, listed⟩ := run.at_node
  rw [turn_of_open maxClients r s l a stays]
  exact answersJoin_iff listed new asked names

end

/-- Client 4 sends a JOIN for the name A. -/
def joinRound : Round := .receive [(4, .data (joinMsg 65).bytes)]

def joinLocals : Locals := joinRound.locals.read (.data (joinMsg 65).bytes)

theorem joinRound_run {maxClients : Int} {rounds : List Round} {s : Server} {turns : List Turn}
    (served : serve maxClients rounds (.start 3 (.zero 16)) = some (s, turns))
    (first : (s.nodes.cell s.listenFd).next = some 1) :
    Run maxClients (.start 3 (.zero 16)) turns s (some ⟨joinRound, joinRound.locals, some 1⟩) := by
  have selected := (serve_run .start served).select (r := joinRound) rfl rfl
  rwa [first] at selected

theorem joinLocals_asks : getMsgType (castMsg joinLocals.buf) = HeaderType.join.code ∧ (castMsg joinLocals.buf).NamesClient ∧
    (castMsg joinLocals.buf).joinName = [65] := by
  decide +kernel

theorem join_answered_empty_names : ∃ turns s,
    Run 2 (.start 3 (.zero 16)) turns s (some ⟨joinRound, joinRound.locals, some 1⟩) ∧
      AnswersJoin 2 s 1 (castMsg joinLocals.buf).joinName
        (turn 2 joinRound s joinRound.locals 1 (.data (joinMsg 65).bytes)) := by
  have served : (serve 2 [.accept 4, .accept 5] (.start 3 (.zero 16))).map (fun x =>
      decide ((x.1.nodes.cell x.1.listenFd).next = some 1 ∧ (x.1.nodes.cell 1).acked = false ∧
        (clientCount x.1 - 1 < 2 ∧ x.1.clients.length ≤ 32) ∧
        ∀ b ∈ x.1.clients, (x.1.nodes.cell b).acked = false → cstring (x.1.nodes.cell b).username.bytes ≠ [65])) =
      some true := by decide +kernel
  obtain ⟨⟨s, turns⟩, done, found⟩ := Option.map_eq_some_iff.mp served
  obtain ⟨first, new, ⟨count, names⟩, none⟩ := of_decide_eq_true found
  have run := joinRound_run done first
  obtain ⟨asked, named, name⟩ := joinLocals_asks
  refine ⟨turns, s, run, (join_answered_iff run (by decide +kernel) new asked named).mpr fun _ => ⟨⟨count, names⟩, ?_⟩⟩
  intro b member unjoined
  exact (none b member unjoined).trans_eq name.symm

/-- A client is refused for the name its own node was allocated with, and one for a place that nobody has taken. -/
theorem join_refused_alone :
    (∃ turns s, Run 2 (.start 3 (.zero 16)) turns s (some ⟨joinRound, joinRound.locals, some 1⟩) ∧
      s.clients = [1] ∧ (s.nodes.cell 1).acked = false ∧
      ¬ AnswersJoin 2 s 1 (castMsg joinLocals.buf).joinName
        (turn 2 joinRound s joinRound.locals 1 (.data (joinMsg 65).bytes))) ∧
    ∃ turns s, Run 1 (.start 3 (.zero 16)) turns s (some ⟨joinRound, joinRound.locals, some 1⟩) ∧
      s.joined = [] ∧ (s.nodes.cell 1).acked = false ∧
      ¬ AnswersJoin 1 s 1 (castMsg joinLocals.buf).joinName
        (turn 1 joinRound s joinRound.locals 1 (.data (joinMsg 65).bytes)) := by
  obtain ⟨asked, named, name⟩ := joinLocals_asks
  have stays : (Received.data (joinMsg 65).bytes).numbytes ≠ 0 := by decide +kernel
  constructor
  · have served : (serve 2 [{ Round.quiet with accepted := some (4, (CharArray.zero 16).fill [65]) }]
        (.start 3 (.zero 16))).map (fun x =>
        decide ((x.1.nodes.cell x.1.listenFd).next = some 1 ∧ x.1.clients = [1] ∧ (x.1.nodes.cell 1).acked = false ∧
          x.1.joined = [] ∧ cstring (x.1.nodes.cell 1).username.bytes = [65])) = some true := by decide +kernel
    obtain ⟨⟨s, turns⟩, done, found⟩ := Option.map_eq_some_iff.mp served
    obtain ⟨first, clients, new, joined, reads⟩ := of_decide_eq_true found
    have run := joinRound_run done first
    obtain ⟨before, after, listed⟩ := run.at_node
    refine ⟨turns, s, run, clients, new, ?_⟩
    rw [turn_of_open 2 joinRound s joinRound.locals 1 stays]
    intro answers
    have admits : s.Admits 2 (castMsg joinLocals.buf).joinName := by
      unfold Server.Admits
      simp [joined]
    obtain ⟨_, none⟩ := (answersJoin_iff listed new asked named).mp answers admits
    exact none 1 (by rw [clients]; exact List.mem_cons_self) new (reads.trans name.symm)
  · have served : (serve 1 [.accept 4, .accept 5] (.start 3 (.zero 16))).map (fun x =>
        decide ((x.1.nodes.cell x.1.listenFd).next = some 1 ∧ x.1.joined = [] ∧ (x.1.nodes.cell 1).acked = false ∧
          clientCount x.1 = 2)) = some true := by decide +kernel
    obtain ⟨⟨s, turns⟩, done, found⟩ := Option.map_eq_some_iff.mp served
    obtain ⟨first, joined, new, count⟩ := of_decide_eq_true found
    have run := joinRound_run done first
    obtain ⟨before, after, listed⟩ := run.at_node
    refine ⟨turns, s, run, joined, new, ?_⟩
    rw [turn_of_open 1 joinRound s joinRound.locals 1 stays]
    intro answers
    have admits : s.Admits 1 (castMsg joinLocals.buf).joinName := by
      unfold Server.Admits
      simp [joined]
    obtain ⟨room, _⟩ := (answersJoin_iff listed new asked named).mp answers admits
    have two : clientCount s = 2 := count
    have counted := room.count
    omega

end NetProjects.Chat
