import NetProjects.Chat.Runs

/-!
# One round of the router

What each event of a round should do, and when the router does exactly that: the buffer that is
decoded after an end of stream must not still hold a message that has an effect.
-/

namespace NetProjects.Chat
open Bytes Linked

inductive Event where
  | message (msg : SbcpMsg)
  | eof
  deriving DecidableEq

def Event.received : Event → Received
  | message msg => .data msg.bytes
  | eof => .data []

def Turn.others (t : Turn) : List Nat := t.before.clients.filter (· ≠ t.node)

/-- The event has its one effect. What a JOIN does is left open. -/
def Turn.OneEffect (t : Turn) : Event → Prop
  | .message msg =>
    (getMsgType msg = HeaderType.send.code → ∃ fwd, getMsgType fwd = HeaderType.fwd.code ∧
      fwd.attribute0.Holds .message msg.attribute0.payload.bytes ∧
      fwd.attribute1.Holds .username (nameOf t.before t.round t.node) ∧
      t.actions = t.others.map (Action.write · fwd) ∧ t.after = t.before) ∧
    (getMsgType msg = HeaderType.idle.code → ∃ idle, getMsgType idle = HeaderType.idle.code ∧
      idle.attribute0.Holds .username (nameOf t.before t.round t.node) ∧
      t.actions = t.others.map (Action.write · idle) ∧ t.after = t.before)
  | .eof => ∃ offline, getMsgType offline = HeaderType.offline.code ∧
      offline.attribute0.Holds .username (nameOf t.before t.round t.node) ∧
      t.actions = t.others.map (Action.write · offline) ++ [.close t.node] ∧
      t.after.clients = t.others ∧ SameNodes t.before t.after

/-- The clients with an event, in the order of the list. -/
def ready (events : Nat → Option Event) (xs : List Nat) : List (Nat × Event) :=
  xs.filterMap fun a => (events a).map (a, ·)

def HasEffect (x : Nat × Event) (t : Turn) : Prop := t.node = x.1 ∧ t.OneEffect x.2

/-- The round returns, and every event in it has had its one effect. -/
def RoundHasEffects (maxClients : Int) (r : Round) (s : Server) (events : Int → Option Event) : Prop :=
  ∃ s₁ s' turns, acceptClient r s = some s₁ ∧ msgRouter maxClients r s = some (s', turns) ∧
    List.Forall₂ HasEffect (ready (fun a => events (s₁.nodes.cell a).fd) s₁.clients) turns

/-- No end of stream in the rest of the round finds a message in the buffer that has an effect, and
no JOIN is accepted among more names than the array of the ACK holds. The buffer is known by the type
of its message, the clients `present` by their names. -/
def undisturbed (maxClients : Int) (r : Round) (events : Nat → Option Event) :
    List Nat → List Nat → (Nat → CharArray 16) → CharArray 16 → UInt32 → Bool
  | [], _, _, _, _ => true
  | a :: todo, present, names, newName, held =>
    match events a with
    | none => undisturbed maxClients r events todo present names newName held
    | some .eof =>
      held ≠ HeaderType.join.code &&
        ((held ≠ HeaderType.send.code && held ≠ HeaderType.idle.code) || present.filter (· ≠ a) = []) &&
        undisturbed maxClients r events todo (present.filter (· ≠ a)) names newName held
    | some (.message msg) =>
      if getMsgType msg = HeaderType.join.code then
        let newName := parseMsgJoin msg newName
        if (present.length : Int) - 1 ≥ maxClients ∨ present.any fun b =>
            cstring ((names b).bytes ++ (r.afterUsername b).bytes) == cstring (newNameView r newName) then
          undisturbed maxClients r events todo (present.filter (· ≠ a)) names newName HeaderType.nak.code
        else
          present.length ≤ 32 &&
            undisturbed maxClients r events todo present (Function.update names a newName) newName HeaderType.ack.code
      else undisturbed maxClients r events todo present names newName (getMsgType msg)

section

variable {maxClients : Int} {r : Round} {s s' s₁ : Server} {l l₁ : Locals} {a : Nat} {before after xs : List Nat}
  {received : Received} {out : List Action} {m : SbcpMsg} {fuel : Nat} {next : Option Nat} {e : Event}
  {rest : List (Nat × Event)}

/-! ### What is decoded -/

theorem read_eof : l.read (Event.eof).received = l := by
  have same : l.buf.fill [] = l.buf := CharArray.ext rfl
  exact congrArg (fun buf => { l with buf := buf }) same

theorem castMsg_read : castMsg (l.read (Event.message m).received).buf = m := castMsg_data l m

theorem message_open (m : SbcpMsg) : ((Event.message m).received).numbytes ≠ 0 := data_open m

theorem castMsg_answer (nak : SbcpMsg) : castMsg (l.buf.fill nak.bytes) = nak := by
  simpa only [List.append_nil] using castMsg_fill l.buf nak []
    (by rw [List.append_nil, nak.length_bytes]; decide)

theorem Turn.others_eq {t : Turn} (h : Listed t.before (before ++ t.node :: after)) : t.others = before ++ after := by
  rw [Turn.others, h.clients_eq]
  exact h.filter_others

/-! ### One step of the loop -/

/-- The loop from `node` on returns, and its turns have the effects of `expected`. -/
def LoopHasEffects (maxClients : Int) (r : Round) (fuel : Nat) (s : Server) (l : Locals) (node : Option Nat)
    (expected : List (Nat × Event)) : Prop :=
  ∃ s' turns, routerLoop maxClients r fuel s l node = some (s', turns) ∧ List.Forall₂ HasEffect expected turns

theorem loop_end (pos : 0 < fuel) : LoopHasEffects maxClients r fuel s l none [] := by
  obtain ⟨fuel, rfl⟩ : ∃ n, fuel = n + 1 := ⟨fuel - 1, by omega⟩
  exact ⟨s, [], rfl, .nil⟩

theorem loop_skip (quiet : r.received (s.nodes.cell a).fd = none) (next : (s.nodes.cell a).next = after.head?) :
    LoopHasEffects maxClients r (fuel + 1) s l (some a) rest ↔ LoopHasEffects maxClients r fuel s l after.head? rest := by
  unfold LoopHasEffects
  rw [routerLoop, quiet, next]

theorem loop_fails (arrived : r.received (s.nodes.cell a).fd = some received)
    (fails : turn maxClients r s l a received = none) : ¬ LoopHasEffects maxClients r fuel s l (some a) rest := by
  rintro ⟨s', turns, done, _⟩
  cases fuel with
  | zero => cases done
  | succ fuel =>
    simp only [routerLoop, arrived, fails] at done
    cases done

theorem loop_turn (arrived : r.received (s.nodes.cell a).fd = some received)
    (turns : turn maxClients r s l a received = some (s₁, l₁, out)) (next : (s₁.nodes.cell a).next = after.head?) :
    LoopHasEffects maxClients r (fuel + 1) s l (some a) ((a, e) :: rest) ↔
      (Turn.mk r a received (l.read received) s out s₁).OneEffect e ∧
        LoopHasEffects maxClients r fuel s₁ l₁ after.head? rest := by
  have unfolded : routerLoop maxClients r (fuel + 1) s l (some a) =
      (routerLoop maxClients r fuel s₁ l₁ after.head?).map fun x =>
        (x.1, Turn.mk r a received (l.read received) s out s₁ :: x.2) := by
    simp only [routerLoop, arrived, turns, next, Option.bind_eq_bind, Option.bind_some, Option.pure_def,
      Option.map_eq_bind]
    rfl
  unfold LoopHasEffects
  rw [unfolded]
  constructor
  · rintro ⟨s', all, done, effects⟩
    obtain ⟨⟨s₂, later⟩, looped, same⟩ := Option.map_eq_some_iff.mp done
    cases same
    obtain ⟨⟨_, here⟩, effects⟩ := List.forall₂_cons.mp effects
    exact ⟨here, _, _, looped, effects⟩
  · rintro ⟨here, s', later, done, effects⟩
    exact ⟨s', _, by rw [done]; rfl, List.forall₂_cons.mpr ⟨⟨rfl, here⟩, effects⟩⟩

/-! ### The steps of the events -/

theorem eof_effect {t : Turn} (h : Listed t.before (before ++ t.node :: after)) {offline : SbcpMsg} {extra : List Action}
    (actions : t.actions = (before ++ after).map (Action.write · offline) ++ .close t.node :: extra)
    (effect : t.OneEffect .eof) : extra = [] := by
  obtain ⟨offline', _, _, exact', _⟩ := effect
  have lengths := congrArg List.length (actions.symm.trans exact')
  rw [Turn.others_eq h] at lengths
  simp only [List.length_append, List.length_map, List.length_cons, List.length_nil] at lengths
  exact List.length_eq_zero_iff.mp (by omega)

theorem eof_step (h : Listed s (before ++ a :: after)) (arrived : r.received (s.nodes.cell a).fd = some (Event.eof).received)
    (shorter : Listed s₁ (before ++ after)) (same : SameNodes s s₁) (next : (s₁.nodes.cell a).next = after.head?)
    (removed : removeNode s a = some s₁) :
    LoopHasEffects maxClients r (fuel + 1) s l (some a) ((a, .eof) :: rest) ↔
      getMsgType (castMsg l.buf) ≠ HeaderType.join.code ∧
        ((getMsgType (castMsg l.buf) ≠ HeaderType.send.code ∧ getMsgType (castMsg l.buf) ≠ HeaderType.idle.code) ∨
          before ++ after = []) ∧
        LoopHasEffects maxClients r fuel s₁ l after.head? rest := by
  have absent := removed_absent h same
  obtain ⟨offline, type, name, disconnectEq⟩ := disconnect_eq (s := s) (r := r) (a := a)
  rw [removed, Option.map_some, msgBroadcast_others h] at disconnectEq
  have turnEq : turn maxClients r s l a (Event.eof).received = (routeMessage maxClients r s₁ l a).map fun y =>
      (y.1, y.2.1, (before ++ after).map (Action.write · offline) ++ .close a :: y.2.2) := by
    rw [turn_of_eof rfl, disconnectEq, read_eof, Option.bind_some]
    simp only [List.append_assoc, List.singleton_append]
  -- The turn when the buffer has the effects `extra`, and leaves the server as it is.
  have step : ∀ extra, routeMessage maxClients r s₁ l a = some (s₁, l, extra) →
      (LoopHasEffects maxClients r (fuel + 1) s l (some a) ((a, .eof) :: rest) ↔
        extra = [] ∧ LoopHasEffects maxClients r fuel s₁ l after.head? rest) := by
    intro extra routes
    rw [routes, Option.map_some] at turnEq
    rw [loop_turn arrived turnEq next]
    refine and_congr_left' ⟨fun effect => eof_effect h rfl effect, ?_⟩
    rintro rfl
    refine ⟨offline, type, name, ?_, ?_, same⟩
    · rw [Turn.others_eq h]
    · rw [Turn.others_eq h]
      exact shorter.clients_eq
  rcases routeMessage_spec maxClients r s₁ l a with
    ⟨⟨s₂, l₂, extra, routes, routed⟩, _⟩ | ⟨fails, join, _⟩
  · cases routed with
    | idle msg asked =>
      rw [step _ routes, msgBroadcast_absent shorter absent, List.map_eq_nil_iff, asked]
      simp only [ne_eq, show HeaderType.idle.code ≠ HeaderType.join.code by decide, not_false_eq_true, true_and,
        not_true_eq_false, and_false, false_or]
    | send msg asked =>
      rw [step _ routes, msgBroadcast_absent shorter absent, List.map_eq_nil_iff, asked]
      simp only [ne_eq, show HeaderType.send.code ≠ HeaderType.join.code by decide, not_false_eq_true, true_and,
        not_true_eq_false, false_and, false_or]
    | rejected _ _ _ _ _ again =>
      rw [removeNode_absent shorter absent] at again
      cases again
    | admitted ack online _ asked =>
      rw [routes, Option.map_some] at turnEq
      rw [loop_turn arrived turnEq (named_next.trans next)]
      refine iff_of_false (fun effects => ?_) fun quiet => quiet.1 asked
      cases eof_effect h rfl effects.1
    | ignored notIdle notSend notJoin =>
      rw [step _ routes]
      exact ⟨fun loops => ⟨notJoin, Or.inl ⟨notSend, notIdle⟩, loops.2⟩, fun quiet => ⟨rfl, quiet.2.2⟩⟩
  · rw [fails] at turnEq
    exact iff_of_false (loop_fails arrived turnEq) fun quiet => quiet.1 join

theorem message_step (h : Listed s (before ++ a :: after))
    (arrived : r.received (s.nodes.cell a).fd = some (Event.message m).received)
    (notJoin : getMsgType m ≠ HeaderType.join.code) :
    LoopHasEffects maxClients r (fuel + 1) s l (some a) ((a, .message m) :: rest) ↔
      LoopHasEffects maxClients r fuel s (l.read (Event.message m).received) after.head? rest := by
  have decoded := castMsg_read (l := l) (m := m)
  have turnEq := turn_of_open maxClients r s l a (message_open m)
  rcases routeMessage_spec maxClients r s (l.read (Event.message m).received) a with ⟨⟨s₁, l₁, out, routes, routed⟩, _⟩ | ⟨_, join, _⟩
  · rw [routes] at turnEq
    cases routed with
    | idle msg asked type name =>
      rw [decoded] at asked
      rw [loop_turn arrived turnEq h.next_eq]
      refine and_iff_right ⟨fun send => ?_, fun _ => ⟨msg, type, name, ?_, rfl⟩⟩
      · rw [asked] at send
        exact absurd send (by decide)
      · rw [Turn.others_eq h]
        exact msgBroadcast_others h msg
    | send msg asked type text name =>
      rw [decoded] at asked text
      rw [loop_turn arrived turnEq h.next_eq]
      refine and_iff_right ⟨fun _ => ⟨msg, type, text, name, ?_, rfl⟩, fun idle => ?_⟩
      · rw [Turn.others_eq h]
        exact msgBroadcast_others h msg
      · rw [asked] at idle
        exact absurd idle (by decide)
    | rejected _ _ asked | admitted _ _ _ asked =>
      rw [decoded] at asked
      exact absurd asked notJoin
    | ignored notIdle notSend =>
      rw [decoded] at notIdle notSend
      rw [loop_turn arrived turnEq h.next_eq]
      exact and_iff_right ⟨fun send => absurd send notSend, fun idle => absurd idle notIdle⟩
  · rw [decoded] at join
    exact absurd join notJoin

theorem join_effect {t : Turn} (join : getMsgType m = HeaderType.join.code) : t.OneEffect (.message m) := by
  constructor
  · intro send
    rw [join] at send
    exact absurd send (by decide)
  · intro idle
    rw [join] at idle
    exact absurd idle (by decide)

theorem refused_step (fuel : Nat) (rest : List (Nat × Event)) (h : Listed s (before ++ a :: after))
    (arrived : r.received (s.nodes.cell a).fd = some (Event.message m).received)
    (join : getMsgType m = HeaderType.join.code)
    (refused : clientCount s - 1 ≥ maxClients ∨ isDuplicateName s r (parseMsgJoin m l.newName)) :
    ∃ s₁ l₁, Listed s₁ (before ++ after) ∧ SameNodes s s₁ ∧ l₁.newName = parseMsgJoin m l.newName ∧
      getMsgType (castMsg l₁.buf) = HeaderType.nak.code ∧
      (LoopHasEffects maxClients r (fuel + 1) s l (some a) ((a, .message m) :: rest) ↔
        LoopHasEffects maxClients r fuel s₁ l₁ after.head? rest) := by
  have decoded := castMsg_read (l := l) (m := m)
  have turnEq := turn_of_open maxClients r s l a (message_open m)
  obtain ⟨s₁, removed, shorter, same, next⟩ := removeNode_spec h
  rcases routeMessage_spec maxClients r s (l.read (Event.message m).received) a with ⟨⟨s₂, l₁, out, routes, routed⟩, _⟩ | ⟨_, _, fault⟩
  · rw [routes] at turnEq
    cases routed with
    | idle _ asked | send _ asked =>
      rw [decoded, join] at asked
      exact absurd asked (by decide)
    | rejected nak _ _ _ type again =>
      obtain rfl := Option.some.inj (removed.symm.trans again)
      rw [decoded] at turnEq
      refine ⟨s₁, { l.read (Event.message m).received with
        buf := (l.read (Event.message m).received).buf.fill nak.bytes
        newName := parseMsgJoin m l.newName }, shorter, same, rfl, ?_, ?_⟩
      · rw [castMsg_answer]
        exact type
      · rw [loop_turn arrived turnEq next]
        exact and_iff_right (join_effect join)
    | admitted ack online _ _ room unique =>
      rw [decoded] at unique
      exact absurd refused (not_or.mpr ⟨not_le.mpr room, unique⟩)
    | ignored _ _ notJoin =>
      rw [decoded] at notJoin
      exact absurd join notJoin
  · rw [decoded] at fault
    have fault := (if_pos refused).mp fault
    rw [removed] at fault
    cases fault

theorem accepted_step (fuel : Nat) (rest : List (Nat × Event)) (h : Listed s (before ++ a :: after))
    (arrived : r.received (s.nodes.cell a).fd = some (Event.message m).received)
    (join : getMsgType m = HeaderType.join.code)
    (accepted : ¬ (clientCount s - 1 ≥ maxClients ∨ isDuplicateName s r (parseMsgJoin m l.newName))) :
    ∃ l₁, l₁.newName = parseMsgJoin m l.newName ∧ getMsgType (castMsg l₁.buf) = HeaderType.ack.code ∧
      (LoopHasEffects maxClients r (fuel + 1) s l (some a) ((a, .message m) :: rest) ↔
        (before ++ a :: after).length ≤ 32 ∧
          LoopHasEffects maxClients r fuel (s.named a (parseMsgJoin m l.newName)) l₁ after.head? rest) := by
  have decoded := castMsg_read (l := l) (m := m)
  have turnEq := turn_of_open maxClients r s l a (message_open m)
  rcases routeMessage_spec maxClients r s (l.read (Event.message m).received) a with ⟨⟨s₂, l₁, out, routes, routed⟩, _⟩ | ⟨fails, _, fault⟩
  · rw [routes] at turnEq
    cases routed with
    | idle _ asked | send _ asked =>
      rw [decoded, join] at asked
      exact absurd asked (by decide)
    | rejected nak _ _ refused =>
      rw [decoded] at refused
      exact absurd refused accepted
    | admitted ack online usernames _ _ _ few type =>
      rw [decoded] at turnEq
      refine ⟨.mk ((l.read (Event.message m).received).buf.fill ack.bytes) usernames (parseMsgJoin m l.newName), rfl,
        ?_, ?_⟩
      · rw [castMsg_answer]
        exact type
      · rw [loop_turn arrived turnEq (named_next.trans h.next_eq), ← h.clients_eq]
        exact and_congr (iff_of_true (join_effect join) few) Iff.rfl
    | ignored _ _ notJoin =>
      rw [decoded] at notJoin
      exact absurd join notJoin
  · rw [decoded] at fault
    have fault := (if_neg accepted).mp fault
    rw [h.clients_eq] at fault
    rw [fails] at turnEq
    refine ⟨{ l with buf := l.buf.fill (SbcpMsg.ofType .ack).bytes, newName := parseMsgJoin m l.newName }, rfl, ?_, ?_⟩
    · rw [castMsg_answer]
      exact getMsgType_ofType .ack
    · exact iff_of_false (loop_fails arrived turnEq) fun effects => absurd effects.1 (not_le.mpr fault)

/-! ### The whole round -/

theorem isDuplicateName_eq {names : Nat → CharArray 16} (h : Listed s xs)
    (known : ∀ a ∈ xs, names a = (s.nodes.cell a).username) (newName : CharArray 16) :
    isDuplicateName s r newName ↔
      xs.any fun b => cstring ((names b).bytes ++ (r.afterUsername b).bytes) == cstring (newNameView r newName) := by
  rw [isDuplicateName, h.clients_eq, List.any_eq_true, List.any_eq_true]
  refine exists_congr fun b => and_congr_right fun member => ?_
  rw [known b member]
  rfl

theorem loop_iff (maxClients : Int) (l : Locals) (before : List Nat) (events : Nat → Option Event)
    (names : Nat → CharArray 16)
    (h : Listed s (before ++ xs)) (arrived : ∀ a ∈ xs, r.received (s.nodes.cell a).fd = (events a).map Event.received)
    (known : ∀ a ∈ before ++ xs, names a = (s.nodes.cell a).username) (enough : xs.length < fuel) :
    LoopHasEffects maxClients r fuel s l xs.head? (ready events xs) ↔
      undisturbed maxClients r events xs (before ++ xs) names l.newName (getMsgType (castMsg l.buf)) := by
  induction xs generalizing s l before names fuel with
  | nil => exact iff_of_true (loop_end enough) rfl
  | cons a xs ih =>
    obtain ⟨fuel, rfl⟩ : ∃ n, fuel = n + 1 := ⟨fuel - 1, by rw [List.length_cons] at enough; omega⟩
    have enough : xs.length < fuel := Nat.lt_of_succ_lt_succ enough
    obtain ⟨here, later⟩ := List.forall_mem_cons.mp arrived
    have longer := List.append_cons before a xs
    have others := h.filter_others
    have inside : ∀ b ∈ before ++ xs, b ∈ before ++ a :: xs ∧ b < s.nodes.top := by
      intro b member
      have inside := (h.mem_others.mp member).1
      exact ⟨h.clients_eq ▸ inside, h.clients_lt b inside⟩
    -- The rest of the loop after the client has been removed.
    have ihRemoved : ∀ {s₁ : Server} {l₁ : Locals}, Listed s₁ (before ++ xs) → SameNodes s s₁ →
        (LoopHasEffects maxClients r fuel s₁ l₁ xs.head? (ready events xs) ↔
          undisturbed maxClients r events xs (before ++ xs) names l₁.newName (getMsgType (castMsg l₁.buf))) := by
      intro s₁ l₁ shorter same
      refine ih _ _ _ shorter (fun b member => ?_) (fun b member => ?_) enough
      · rw [same.fd b (inside b (List.mem_append_right _ member)).2]
        exact later b member
      · rw [same.username b (inside b member).2]
        exact known b (inside b member).1
    cases event : events a with
    | none =>
      rw [event] at here
      simp only [ready, List.filterMap_cons, event, Option.map_none, List.head?_cons]
      rw [loop_skip here h.next_eq, undisturbed, event, longer]
      exact ih _ _ _ (longer ▸ h) later (longer ▸ known) enough
    | some e =>
      rw [event] at here
      have readyEq : ready events (a :: xs) = (a, e) :: ready events xs := by
        simp only [ready, List.filterMap_cons, event, Option.map_some]
      rw [readyEq, List.head?_cons]
      cases e with
      | eof =>
        obtain ⟨s₁, removed, shorter, same, next⟩ := removeNode_spec h
        rw [eof_step h here shorter same next removed, ihRemoved shorter same]
        simp only [undisturbed, event, others, Bool.and_eq_true, Bool.or_eq_true, decide_eq_true_eq, and_assoc]
      | message m =>
        by_cases join : getMsgType m = HeaderType.join.code
        · simp only [undisturbed, event, if_pos join, others]
          have duplicate := isDuplicateName_eq (r := r) h known (parseMsgJoin m l.newName)
          have count : clientCount s = (before ++ a :: xs).length := by rw [clientCount, h.clients_eq]
          by_cases refused : clientCount s - 1 ≥ maxClients ∨ isDuplicateName s r (parseMsgJoin m l.newName)
          · obtain ⟨s₁, l₁, shorter, same, newName, type, step⟩ := refused_step fuel (ready events xs) h
              here join refused
            rw [step, ihRemoved shorter same, newName, type]
            rw [duplicate, count] at refused
            rw [if_pos refused]
          · obtain ⟨l₁, newName, type, step⟩ := accepted_step fuel (ready events xs) h here join refused
            have ihNamed := ih l₁ (before ++ [a]) (Function.update names a (parseMsgJoin m l.newName))
              (s := s.named a (parseMsgJoin m l.newName)) (longer ▸ h.named) (fun b member => ?_) (fun b member => ?_) enough
            · rw [step, ihNamed, newName, type, ← longer]
              rw [duplicate, count] at refused
              rw [if_neg refused, Bool.and_eq_true, decide_eq_true_eq]
            · rw [named_fd]
              exact later b member
            · by_cases same : b = a
              · rw [same, Function.update_self, named_self.1]
              · rw [Function.update_of_ne same, named_other same]
                exact known b (longer ▸ member)
        · rw [message_step h here join, undisturbed, event]
          simp only [if_neg join]
          rw [longer, ih _ _ _ (longer ▸ h) later (longer ▸ known) enough, castMsg_read]
          rfl

theorem roundHasEffects_iff {events : Int → Option Event} (listed : Listed s xs) (valid : r.valid s)
    (whole : ∀ fd, r.received fd = (events fd).map Event.received) :
    ∃ s₁, acceptClient r s = some s₁ ∧ (RoundHasEffects maxClients r s events ↔
      undisturbed maxClients r (fun a => events (s₁.nodes.cell a).fd) s₁.clients s₁.clients
        (fun a => (s₁.nodes.cell a).username) r.newName (getMsgType (castMsg r.buf))) := by
  obtain ⟨s₁, ys, accepted, longer, _⟩ := acceptClient_spec listed valid
  have enough : ys.length < s₁.nodes.top + 1 := Nat.lt_succ_of_lt longer.length_lt
  have loop := loop_iff maxClients r.locals [] (fun a => events (s₁.nodes.cell a).fd)
    (fun a => (s₁.nodes.cell a).username) longer (fun a _ => whole _) (fun a _ => rfl) enough
  have first : (s₁.nodes.cell s₁.listenFd).next = ys.head? := longer.links.2.head
  rw [← first, List.nil_append, ← longer.clients_eq] at loop
  refine ⟨s₁, accepted, Iff.trans ?_ loop⟩
  simp only [RoundHasEffects, LoopHasEffects, msgRouter, accepted, Option.bind_eq_bind, Option.bind_some,
    Option.some.injEq, exists_and_left, exists_eq_left']

end

/-! ### Two clients -/

def roundOf (events : Int → Option Event) : Round := { Round.quiet with received := fun fd => (events fd).map Event.received }

/-- The first of two clients sends a message. -/
def oneSends : Int → Option Event := fun fd => if fd = 4 then some (.message (.ofType .send)) else none

/-- And the other one leaves. -/
def oneLeaves : Int → Option Event := fun fd => if fd = 5 then some .eof else oneSends fd

theorem send_has_effect : ∃ s, (serve 2 [.accept 4, .accept 5] (.start 3 (.zero 16))).map Prod.fst = some s ∧
    RoundHasEffects 2 (roundOf oneSends) s oneSends := by
  have served : (serve 2 [.accept 4, .accept 5] (.start 3 (.zero 16))).map (fun x =>
      ((roundOf oneSends).valid x.1, (acceptClient (roundOf oneSends) x.1).map fun s =>
        undisturbed 2 (roundOf oneSends) (fun a => oneSends (s.nodes.cell a).fd) s.clients s.clients
          (fun a => (s.nodes.cell a).username) (.zero 16) (getMsgType (castMsg (.zero maxDataSize))))) =
        some (true, some true) := by decide +kernel
  obtain ⟨⟨s, turns⟩, done, found⟩ := Option.map_eq_some_iff.mp served
  obtain ⟨valid, quiet⟩ := Prod.mk.inj found
  obtain ⟨xs, listed⟩ := (serve_run .start done).listed
  obtain ⟨s₁, accepted, iff⟩ := @roundHasEffects_iff 2 _ _ _ _ listed valid fun _ => rfl
  refine ⟨s, by rw [done]; rfl, iff.mpr ?_⟩
  rw [accepted] at quiet
  exact Option.some.inj quiet

/-- The message of the first client is forwarded again on behalf of the one that leaves. -/
theorem send_forwarded_again : ∃ s, (serve 2 [.accept 4, .accept 5] (.start 3 (.zero 16))).map Prod.fst = some s ∧
    (roundOf oneLeaves).valid s ∧ ¬ RoundHasEffects 2 (roundOf oneLeaves) s oneLeaves := by
  have served : (serve 2 [.accept 4, .accept 5] (.start 3 (.zero 16))).map (fun x =>
      ((roundOf oneLeaves).valid x.1, (acceptClient (roundOf oneLeaves) x.1).map fun s =>
        ready (fun a => oneLeaves (s.nodes.cell a).fd) s.clients)) =
        some (true, some [(1, .message (.ofType .send)), (2, .eof)]) := by decide +kernel
  have routed : (serve 2 [.accept 4, .accept 5] (.start 3 (.zero 16))).map (fun x =>
      (msgRouter 2 (roundOf oneLeaves) x.1).map fun y => y.2.map fun t => (t.actions.length, t.others.length)) =
        some (some [(1, 1), (3, 1)]) := by decide +kernel
  obtain ⟨⟨s, turns⟩, done, found⟩ := Option.map_eq_some_iff.mp served
  obtain ⟨valid, expected⟩ := Prod.mk.inj found
  refine ⟨s, by rw [done]; rfl, valid, ?_⟩
  rintro ⟨s₁, s', turns, accepted, returned, effects⟩
  rw [done, Option.map_some, returned, Option.map_some, Option.some.injEq, Option.some.injEq] at routed
  rw [accepted, Option.map_some, Option.some.injEq] at expected
  rw [expected] at effects
  obtain ⟨first, later, _, rest, rfl⟩ := List.forall₂_cons_left_iff.mp effects
  obtain ⟨second, none, ⟨_, offline, _, _, actions, _⟩, ended, rfl⟩ := List.forall₂_cons_left_iff.mp rest
  obtain rfl := List.forall₂_nil_left_iff.mp ended
  have lengths := congrArg List.length actions
  simp only [List.map_cons, List.map_nil, List.cons.injEq, Prod.mk.injEq] at routed
  rw [List.length_append, List.length_map, routed.2.1.1, routed.2.1.2, List.length_singleton] at lengths
  exact absurd lengths (by decide)

end NetProjects.Chat
