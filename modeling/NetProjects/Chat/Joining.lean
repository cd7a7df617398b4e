import NetProjects.Chat.Runs

/-!
# Join before chat

What a connection is sent first, and whose messages are relayed, over whole runs.
-/

namespace NetProjects.Chat
open Bytes Linked

def Action.node : Action → Nat
  | .write a _ => a
  | .close a => a

/-- The first message on the connection of `b`, before it is closed. -/
def firstSent (b : Nat) : List Action → Option SbcpMsg
  | [] => none
  | .write a msg :: rest => if a = b then some msg else firstSent b rest
  | .close a :: rest => if a = b then none else firstSent b rest

def actionsOf (turns : List Turn) : List Action := turns.flatMap Turn.actions

def Answers (msg : SbcpMsg) : Prop :=
  getMsgType msg = HeaderType.ack.code ∨ getMsgType msg = HeaderType.nak.code

def Relays (msg : SbcpMsg) : Prop :=
  getMsgType msg = HeaderType.fwd.code ∨ getMsgType msg = HeaderType.idle.code

/-- A turn after `earlier` keeps to the order: the first message on a connection answers its own
JOIN, and what is relayed comes from a connection that has been sent an ACK. -/
structure Turn.JoinFirst (earlier : List Action) (t : Turn) : Prop where
  first : ∀ b msg, (∀ x ∈ earlier, x.node ≠ b) → firstSent b t.actions = some msg →
    Answers msg ∧ b = t.node ∧ ¬ t.eof ∧ getMsgType t.msg = HeaderType.join.code
  relayed : ∀ b msg, .write b msg ∈ t.actions → Relays msg →
    ∃ ack, .write t.node ack ∈ earlier ∧ getMsgType ack = HeaderType.ack.code

def JoinFirst (turns : List Turn) : Prop :=
  ∀ earlier t later, turns = earlier ++ t :: later → t.JoinFirst (actionsOf earlier)

def Turn.chats (t : Turn) : Prop :=
  getMsgType t.msg = HeaderType.idle.code ∨ getMsgType t.msg = HeaderType.send.code

def Turn.admits (maxClients : Int) (t : Turn) : Prop :=
  getMsgType t.msg = HeaderType.join.code ∧ clientCount t.before - 1 < maxClients ∧
    ¬ isDuplicateName t.before t.round (parseMsgJoin t.msg t.locals.newName)

/-- The turns in which something goes to the others find all of them joined, and a client that
chats has joined. -/
structure Turn.Orderly (maxClients : Int) (t : Turn) : Prop where
  others : t.eof ∨ t.chats ∨ t.admits maxClients →
    ∀ b ∈ t.before.clients, b ≠ t.node → (t.before.nodes.cell b).acked
  sender : t.chats → ∀ b ∈ t.before.clients, b ≠ t.node → (t.before.nodes.cell t.node).acked

instance (t : Turn) : Decidable t.eof := inferInstanceAs (Decidable (_ = _))

instance (t : Turn) : Decidable t.chats := inferInstanceAs (Decidable (_ ∨ _))

instance (maxClients : Int) (t : Turn) : Decidable (t.admits maxClients) := inferInstanceAs (Decidable (_ ∧ _ ∧ _))

instance (maxClients : Int) (t : Turn) : Decidable (t.Orderly maxClients) :=
  decidable_of_iff
    ((t.eof ∨ t.chats ∨ t.admits maxClients → ∀ b ∈ t.before.clients, b ≠ t.node → (t.before.nodes.cell b).acked) ∧
      (t.chats → ∀ b ∈ t.before.clients, b ≠ t.node → (t.before.nodes.cell t.node).acked))
    ⟨fun h => ⟨h.1, h.2⟩, fun h => ⟨h.1, h.2⟩⟩

section

variable {maxClients sockfd : Int} {username : CharArray 16} {turns : List Turn} {s s' : Server}
  {routing : Option Routing} {xs before after : List Nat} {t : Turn} {l' : Locals} {b : Nat} {msg : SbcpMsg}
  {actions more : List Action}

/-! ### The first message -/

theorem firstSent_cons_ne {x : Action} (other : x.node ≠ b) : firstSent b (x :: actions) = firstSent b actions := by
  cases x <;> exact if_neg other

theorem firstSent_mem (first : firstSent b actions = some msg) : .write b msg ∈ actions := by
  induction actions with
  | nil => cases first
  | cons x actions ih =>
    by_cases here : x.node = b
    · cases x with
      | write a m =>
        obtain rfl : a = b := here
        rw [firstSent, if_pos rfl] at first
        rw [Option.some.inj first]
        exact List.mem_cons_self
      | close a => cases (if_pos here).symm.trans first
    · rw [firstSent_cons_ne here] at first
      exact List.mem_cons_of_mem _ (ih first)

theorem firstSent_fresh (fresh : ∀ x ∈ actions, x.node ≠ b) : firstSent b (actions ++ more) = firstSent b more := by
  induction actions with
  | nil => rfl
  | cons x actions ih =>
    obtain ⟨here, others⟩ := List.forall_mem_cons.mp fresh
    rw [List.cons_append, firstSent_cons_ne here]
    exact ih others

theorem firstSent_of_mem (sent : .write b msg ∈ actions) (kept : .close b ∉ actions) :
    ∃ msg', firstSent b actions = some msg' := by
  induction actions with
  | nil => cases sent
  | cons x actions ih =>
    by_cases here : x.node = b
    · cases x with
      | write a m => exact ⟨m, if_pos here⟩
      | close a =>
        obtain rfl : a = b := here
        exact absurd List.mem_cons_self kept
    · have later : .write b msg ∈ actions := by
        rcases List.mem_cons.mp sent with same | later
        · rw [← same] at here
          exact absurd rfl here
        · exact later
      rw [firstSent_cons_ne here]
      exact ih later fun member => kept (List.mem_cons_of_mem _ member)

/-! ### What one turn sends -/

/-- A message that a turn sends, and to whom. -/
inductive Sends (maxClients : Int) (t : Turn) (b : Nat) (msg : SbcpMsg) : Prop
  | answer (here : b = t.node) (asked : getMsgType t.msg = HeaderType.join.code) (answers : Answers msg)
  | notice (inside : b ∈ t.before.clients) (other : b ≠ t.node) (cause : t.eof ∨ t.admits maxClients)
      (type : ¬ Answers msg ∧ ¬ Relays msg)
  | relay (inside : b ∈ t.before.clients) (other : b ≠ t.node) (cause : t.chats) (type : Relays msg)

theorem Relays.not_answers (relays : Relays msg) : ¬ Answers msg := by
  rintro (answers | answers) <;> rcases relays with relays | relays <;>
    · rw [relays] at answers
      exact absurd answers (by decide)

theorem notice_type {type : HeaderType} (is : getMsgType msg = type.code) (known : type = .offline ∨ type = .online) :
    ¬ Answers msg ∧ ¬ Relays msg := by
  unfold Answers Relays
  rw [is]
  rcases known with rfl | rfl <;> decide

/-- The branches of the router, from the list with the client or, after an end of stream, without. -/
theorem Routed.sends {s₁ : Server} {out : List Action} (h : Listed t.before (before ++ t.node :: after))
    (routed : Routed maxClients t.round s₁ t.locals t.node s' l' out)
    (broadcast : ∀ m, msgBroadcast s₁ t.node m = (before ++ after).map (Action.write · m))
    (start : s₁ = t.before ∨ t.eof) (sent : .write b msg ∈ out) : Sends maxClients t b msg := by
  have others : ∀ m, .write b msg ∈ msgBroadcast s₁ t.node m → (b ∈ t.before.clients ∧ b ≠ t.node) ∧ msg = m := by
    intro m sent
    rw [broadcast] at sent
    obtain ⟨c, member, same⟩ := List.mem_map.mp sent
    cases same
    exact ⟨h.mem_others.mp member, rfl⟩
  cases routed with
  | idle m asked type =>
    obtain ⟨⟨inside, other⟩, rfl⟩ := others m sent
    exact .relay inside other (Or.inl asked) (Or.inr type)
  | send m asked type =>
    obtain ⟨⟨inside, other⟩, rfl⟩ := others m sent
    exact .relay inside other (Or.inr asked) (Or.inl type)
  | rejected nak _ asked _ type =>
    rw [List.mem_cons, List.mem_singleton] at sent
    rcases sent with same | same
    · cases same
      exact .answer rfl asked (Or.inr type)
    · cases same
  | admitted ack online _ asked room unique _ ackType onlineType =>
    rcases List.mem_cons.mp sent with same | sent
    · cases same
      exact .answer rfl asked (Or.inl ackType)
    · obtain ⟨⟨inside, other⟩, rfl⟩ := others online sent
      refine .notice inside other ?_ (notice_type onlineType (Or.inr rfl))
      rcases start with rfl | ended
      · exact Or.inr ⟨asked, room, unique⟩
      · exact Or.inl ended
  | ignored => cases sent

theorem Turned.sends (h : Listed t.before (before ++ t.node :: after)) (turned : Turned maxClients t l')
    (sent : .write b msg ∈ t.actions) : Sends maxClients t b msg := by
  cases turned with
  | stayed _ routed => exact routed.sends h (msgBroadcast_others h) (Or.inl rfl) sent
  | left ended offline s out type _ removed routed actions =>
    rw [actions, List.mem_append, msgBroadcast_others h] at sent
    rcases sent with sent | sent
    · obtain ⟨c, member, same⟩ := List.mem_map.mp sent
      cases same
      obtain ⟨inside, other⟩ := h.mem_others.mp member
      exact .notice inside other (Or.inl ended) (notice_type type (Or.inl rfl))
    · obtain ⟨_, removes, shorter, same, _⟩ := removeNode_spec h
      obtain rfl := Option.some.inj (removes.symm.trans removed)
      have sent := (List.mem_cons.mp sent).resolve_left Action.noConfusion
      exact routed.sends h (msgBroadcast_absent shorter (removed_absent h same)) (Or.inr ended) sent

theorem Routed.closes {r : Round} {l : Locals} {a : Nat} {out : List Action}
    (routed : Routed maxClients r s l a s' l' out) (closed : .close b ∈ out) : b = a := by
  have open' : ∀ m, .close b ∉ msgBroadcast s a m := by
    intro m closed
    obtain ⟨c, _, same⟩ := List.mem_map.mp closed
    cases same
  cases routed with
  | idle m | send m => exact absurd closed (open' m)
  | rejected nak =>
    rw [List.mem_cons, List.mem_singleton] at closed
    rcases closed with same | same <;> cases same
    rfl
  | admitted ack online => exact absurd ((List.mem_cons.mp closed).resolve_left Action.noConfusion) (open' online)
  | ignored => cases closed

theorem Turned.closes (h : Listed t.before (before ++ t.node :: after)) (turned : Turned maxClients t l')
    (closed : .close b ∈ t.actions) : b = t.node := by
  cases turned with
  | stayed _ routed => exact routed.closes closed
  | left _ offline _ out _ _ _ routed actions =>
    rw [actions, List.mem_append, msgBroadcast_others h] at closed
    rcases closed with closed | closed
    · obtain ⟨c, _, same⟩ := List.mem_map.mp closed
      cases same
    · rcases List.mem_cons.mp closed with same | closed
      · cases same
        rfl
      · exact routed.closes closed

/-- What the departed client is sent after its socket is closed goes nowhere. -/
theorem Turned.own (h : Listed t.before (before ++ t.node :: after)) (turned : Turned maxClients t l')
    (first : firstSent t.node t.actions = some msg) : ¬ t.eof := by
  cases turned with
  | stayed open' _ => exact open'
  | left _ offline _ out _ _ _ _ actions =>
    have others : ∀ x ∈ (before ++ after).map (Action.write · offline), x.node ≠ t.node := by
      intro x member
      obtain ⟨c, inside, rfl⟩ := List.mem_map.mp member
      exact (h.mem_others.mp inside).2
    rw [actions, msgBroadcast_others h, firstSent_fresh others] at first
    cases (if_pos rfl).symm.trans first

theorem Routed.relays {r : Round} {l : Locals} {a : Nat} {out : List Action}
    (routed : Routed maxClients r s l a s' l' out)
    (chats : getMsgType (castMsg l.buf) = HeaderType.idle.code ∨ getMsgType (castMsg l.buf) = HeaderType.send.code) :
    ∃ m, out = msgBroadcast s a m ∧ Relays m := by
  cases routed with
  | idle m _ type => exact ⟨m, rfl, Or.inr type⟩
  | send m _ type => exact ⟨m, rfl, Or.inl type⟩
  | rejected _ _ asked | admitted _ _ _ asked =>
    rw [asked] at chats
    exact absurd chats (by decide)
  | ignored notIdle notSend => exact absurd chats (not_or.mpr ⟨notIdle, notSend⟩)

theorem Turned.relays (h : Listed t.before (before ++ t.node :: after)) (turned : Turned maxClients t l')
    (chats : t.chats) (other : b ∈ before ++ after) : ∃ msg, .write b msg ∈ t.actions ∧ Relays msg := by
  cases turned with
  | stayed _ routed =>
    obtain ⟨m, actions, relays⟩ := routed.relays chats
    rw [actions, msgBroadcast_others h]
    exact ⟨m, List.mem_map_of_mem other, relays⟩
  | left _ offline s out _ _ removed routed actions =>
    obtain ⟨_, removes, shorter, same, _⟩ := removeNode_spec h
    obtain rfl := Option.some.inj (removes.symm.trans removed)
    obtain ⟨m, relayed, relays⟩ := routed.relays chats
    rw [actions, relayed, msgBroadcast_absent shorter (removed_absent h same)]
    exact ⟨m, List.mem_append_right _ (List.mem_cons_of_mem _ (List.mem_map_of_mem other)), relays⟩

theorem Turned.reaches (h : Listed t.before (before ++ t.node :: after)) (turned : Turned maxClients t l')
    (cause : t.eof ∨ t.chats ∨ t.admits maxClients) (other : b ∈ before ++ after) :
    ∃ msg, .write b msg ∈ t.actions := by
  by_cases chats : t.chats
  · obtain ⟨msg, sent, _⟩ := turned.relays h chats other
    exact ⟨msg, sent⟩
  cases turned with
  | left _ offline s out _ _ _ _ actions =>
    rw [actions, msgBroadcast_others h]
    exact ⟨offline, List.mem_append_left _ (List.mem_map_of_mem other)⟩
  | stayed open' routed =>
    obtain ⟨asked, room, unique⟩ := (cause.resolve_left open').resolve_left chats
    generalize t.actions = out, t.after = s₁ at routed ⊢
    cases routed with
    | idle _ idle => exact absurd (Or.inl idle) chats
    | send _ send => exact absurd (Or.inr send) chats
    | rejected _ _ _ refused => exact absurd refused (not_or.mpr ⟨not_le.mpr room, unique⟩)
    | admitted ack online =>
      rw [msgBroadcast_others h]
      exact ⟨online, List.mem_cons_of_mem _ (List.mem_map_of_mem other)⟩
    | ignored _ _ notJoin => exact absurd asked notJoin

/-! ### The order over a run -/

/-- What has been sent to the clients of the list. -/
structure Spoken (turns : List Turn) (s : Server) : Prop where
  known : ∀ x ∈ actionsOf turns, x.node < s.nodes.top
  unjoined : ∀ b ∈ s.clients, ¬ (s.nodes.cell b).acked → ∀ x ∈ actionsOf turns, x.node ≠ b
  joined : ∀ b ∈ s.clients, (s.nodes.cell b).acked →
    ∃ ack, .write b ack ∈ actionsOf turns ∧ getMsgType ack = HeaderType.ack.code

theorem actionsOf_concat (turns : List Turn) (t : Turn) : actionsOf (turns ++ [t]) = actionsOf turns ++ t.actions := by
  rw [actionsOf, List.flatMap_append, List.flatMap_singleton]
  rfl

theorem joinFirst_concat : JoinFirst (turns ++ [t]) ↔ JoinFirst turns ∧ t.JoinFirst (actionsOf turns) := by
  constructor
  · intro h
    refine ⟨fun earlier t' later split => h earlier t' (later ++ [t]) ?_, h turns t [] rfl⟩
    rw [split, List.append_assoc]
    rfl
  · rintro ⟨before, last⟩ earlier t' later split
    rcases List.eq_nil_or_concat later with rfl | ⟨later, t'', rfl⟩
    · obtain ⟨rfl, same⟩ := List.append_inj' split rfl
      cases same
      exact last
    · rw [List.concat_eq_append, ← List.cons_append, ← List.append_assoc] at split
      exact before earlier t' later (List.append_inj' split rfl).1

theorem joinFirst_of_orderly (h : Listed t.before (before ++ t.node :: after)) (turned : Turned maxClients t l')
    (spoken : Spoken turns t.before) (orderly : t.Orderly maxClients) : t.JoinFirst (actionsOf turns) := by
  constructor
  · intro b msg fresh first
    have notJoined : ∀ inside : b ∈ t.before.clients, ¬ (t.before.nodes.cell b).acked := by
      intro inside acked
      obtain ⟨ack, sent, _⟩ := spoken.joined b inside acked
      exact fresh _ sent rfl
    cases turned.sends h (firstSent_mem first) with
    | answer here asked answers =>
      subst here
      exact ⟨answers, rfl, turned.own h first, asked⟩
    | notice inside other cause =>
      exact absurd (orderly.others (cause.imp_right Or.inr) b inside other) (notJoined inside)
    | relay inside other cause => exact absurd (orderly.others (Or.inr (Or.inl cause)) b inside other) (notJoined inside)
  · intro b msg sent relays
    cases turned.sends h sent with
    | answer _ _ answers => exact absurd answers relays.not_answers
    | notice _ _ _ type => exact absurd relays type.2
    | relay inside other cause =>
      exact spoken.joined t.node h.mem_clients (orderly.sender cause b inside other)

theorem orderly_of_joinFirst (h : Listed t.before (before ++ t.node :: after)) (turned : Turned maxClients t l')
    (spoken : Spoken turns t.before) (joinFirst : t.JoinFirst (actionsOf turns)) : t.Orderly maxClients := by
  constructor
  · intro cause b inside other
    by_contra notJoined
    obtain ⟨msg, sent⟩ := turned.reaches h cause (h.mem_others.mpr ⟨inside, other⟩)
    obtain ⟨first, firstEq⟩ := firstSent_of_mem sent fun closed => other (turned.closes h closed)
    exact other (joinFirst.first b first (spoken.unjoined b inside notJoined) firstEq).2.1
  · intro chats b inside other
    by_contra notJoined
    obtain ⟨msg, sent, relays⟩ := turned.relays h chats (h.mem_others.mpr ⟨inside, other⟩)
    obtain ⟨ack, acked, _⟩ := joinFirst.relayed b msg sent relays
    exact spoken.unjoined t.node h.mem_clients notJoined _ acked rfl

theorem Turned.others (h : Listed t.before (before ++ t.node :: after)) (turned : Turned maxClients t l')
    (inside : b ∈ t.after.clients) (other : b ≠ t.node) :
    b ∈ t.before.clients ∧ (t.after.nodes.cell b).acked = (t.before.nodes.cell b).acked := by
  cases turned.changed h with
  | same unchanged =>
    rw [unchanged] at inside ⊢
    exact ⟨inside, rfl⟩
  | removed shorter _ keeps =>
    rw [shorter.clients_eq] at inside
    exact ⟨(h.mem_others.mp inside).1, (keeps b inside).2⟩
  | named _ _ _ _ named =>
    rw [named, named_clients] at inside
    rw [named, named_other other]
    exact ⟨inside, rfl⟩

/-- A client that is still in the list after its turn has been let in, or nothing happened to it. -/
theorem Turned.client (h : Listed t.before (before ++ t.node :: after)) (turned : Turned maxClients t l')
    (inside : t.node ∈ t.after.clients) :
    (t.after.nodes.cell t.node).acked ∧
        (∃ ack, .write t.node ack ∈ t.actions ∧ getMsgType ack = HeaderType.ack.code) ∨
      t.after = t.before ∧ ∀ x ∈ t.actions, x.node ≠ t.node := by
  have gone : ¬ t.node ∈ before ++ after := fun member => (h.mem_others.mp member).2 rfl
  have others : ∀ m, ∀ x ∈ msgBroadcast t.before t.node m, x.node ≠ t.node := by
    intro m x member
    rw [msgBroadcast_others h] at member
    obtain ⟨c, inside, rfl⟩ := List.mem_map.mp member
    exact (h.mem_others.mp inside).2
  obtain ⟨r, a, received, l, s, out, s'⟩ := t
  dsimp only at h inside gone others
  cases turned with
  | stayed _ routed =>
    dsimp only at routed ⊢
    cases routed with
    | idle m | send m => exact Or.inr ⟨rfl, others m⟩
    | rejected _ _ _ _ _ removed =>
      obtain ⟨_, removes, shorter, _⟩ := removeNode_spec h
      obtain rfl := Option.some.inj (removes.symm.trans removed)
      exact absurd (shorter.clients_eq ▸ inside) gone
    | admitted ack _ _ _ _ _ _ ackType => exact Or.inl ⟨named_self.2, ack, List.mem_cons_self, ackType⟩
    | ignored => exact Or.inr ⟨rfl, fun x member => (List.not_mem_nil member).elim⟩
  | left _ _ s₁ _ _ _ removed routed =>
    obtain ⟨_, removes, shorter, same, _⟩ := removeNode_spec h
    obtain rfl := Option.some.inj (removes.symm.trans removed)
    rcases routed.absent shorter (removed_absent h same) with unchanged | unchanged
    · dsimp only at unchanged
      rw [unchanged, shorter.clients_eq] at inside
      exact absurd inside gone
    · dsimp only at unchanged
      rw [unchanged, named_clients, shorter.clients_eq] at inside
      exact absurd inside gone

theorem Turned.top (h : Listed t.before (before ++ t.node :: after)) (turned : Turned maxClients t l') :
    t.after.nodes.top = t.before.nodes.top := by
  cases turned.changed h with
  | same unchanged => rw [unchanged]
  | removed _ top => exact top
  | named _ _ _ _ named => rw [named, named_top]

theorem Spoken.turn (h : Listed t.before (before ++ t.node :: after)) (turned : Turned maxClients t l')
    (orderly : t.Orderly maxClients) (spoken : Spoken turns t.before) : Spoken (turns ++ [t]) t.after := by
  have member := h.mem_clients
  have reached : ∀ x ∈ t.actions, x.node ≠ t.node →
      x.node ∈ t.before.clients ∧ (t.before.nodes.cell x.node).acked := by
    intro x inside other
    cases x with
    | write b msg =>
      cases turned.sends h inside with
      | answer here => exact absurd here other
      | notice inside _ cause => exact ⟨inside, orderly.others (cause.imp_right Or.inr) b inside other⟩
      | relay inside _ cause => exact ⟨inside, orderly.others (Or.inr (Or.inl cause)) b inside other⟩
    | close b => exact absurd (turned.closes h inside) other
  constructor
  · intro x inside
    rw [turned.top h]
    rw [actionsOf_concat] at inside
    rcases List.mem_append.mp inside with inside | inside
    · exact spoken.known x inside
    · have inList : x.node ∈ t.before.clients := by
        by_cases here : x.node = t.node
        · rw [here]
          exact member
        · exact (reached x inside here).1
      exact h.clients_lt _ inList
  · intro b inside notJoined x happened
    rw [actionsOf_concat] at happened
    by_cases here : b = t.node
    · subst here
      rcases turned.client h inside with ⟨acked, _⟩ | ⟨unchanged, quiet⟩
      · exact absurd acked notJoined
      · rw [unchanged] at notJoined
        rcases List.mem_append.mp happened with old | new
        · exact spoken.unjoined t.node member notJoined x old
        · exact quiet x new
    · obtain ⟨inside, same⟩ := turned.others h inside here
      rw [same] at notJoined
      rcases List.mem_append.mp happened with old | new
      · exact spoken.unjoined b inside notJoined x old
      · rintro rfl
        exact notJoined (reached x new here).2
  · intro b inside acked
    rw [actionsOf_concat]
    by_cases here : b = t.node
    · subst here
      rcases turned.client h inside with ⟨_, ack, sent, type⟩ | ⟨unchanged, _⟩
      · exact ⟨ack, List.mem_append_right _ sent, type⟩
      · rw [unchanged] at acked
        obtain ⟨ack, sent, type⟩ := spoken.joined t.node member acked
        exact ⟨ack, List.mem_append_left _ sent, type⟩
    · obtain ⟨inside, same⟩ := turned.others h inside here
      rw [same] at acked
      obtain ⟨ack, sent, type⟩ := spoken.joined b inside acked
      exact ⟨ack, List.mem_append_left _ sent, type⟩

theorem Spoken.accept (listed : Listed s xs) (longer : Listed s' (xs ++ [s.nodes.top])) (same : SameClients s s')
    (top : s'.nodes.top = s.nodes.top + 1) (notYet : (s'.nodes.cell s.nodes.top).acked = false)
    (spoken : Spoken turns s) : Spoken turns s' := by
  have old : ∀ b ∈ xs, (s'.nodes.cell b).acked = (s.nodes.cell b).acked := fun b member =>
    same.acked b (listed.allocated b (List.mem_cons_of_mem _ member))
  constructor
  · intro x happened
    have lower := spoken.known x happened
    omega
  · intro b inside notJoined x happened
    rw [longer.clients_eq, List.mem_append, List.mem_singleton] at inside
    rcases inside with inside | rfl
    · rw [old b inside] at notJoined
      exact spoken.unjoined b (listed.clients_eq ▸ inside) notJoined x happened
    · exact (spoken.known x happened).ne
  · intro b inside acked
    rw [longer.clients_eq, List.mem_append, List.mem_singleton] at inside
    rcases inside with inside | rfl
    · rw [old b inside] at acked
      exact spoken.joined b (listed.clients_eq ▸ inside) acked
    · rw [notYet] at acked
      cases acked

theorem joinFirst_iff (run : Run maxClients (.start sockfd username) turns s routing) :
    JoinFirst turns ↔ ∀ t ∈ turns, t.Orderly maxClients := by
  refine (Run.rule (I := fun turns s => ((∀ t ∈ turns, t.Orderly maxClients) → Spoken turns s) ∧
    (JoinFirst turns ↔ ∀ t ∈ turns, t.Orderly maxClients)) (start_listed sockfd username) ?_ ?_ ?_ run).2.2
  · refine ⟨fun _ => ⟨fun x member => ?_, fun b member => ?_, fun b member => ?_⟩, iff_of_true ?_ ?_⟩
    · cases member
    · rw [(start_listed sockfd username).clients_eq] at member
      cases member
    · rw [(start_listed sockfd username).clients_eq] at member
      cases member
    · intro earlier t later split
      cases earlier <;> cases split
    · intro t member
      cases member
  · rintro turns s s' xs listed longer same top notYet ⟨spoken, iff⟩
    exact ⟨fun orderly => (spoken orderly).accept listed longer same top notYet, iff⟩
  · rintro turns t _ before after listed turned ⟨spoken, iff⟩
    rw [joinFirst_concat, iff, List.forall_mem_append, List.forall_mem_singleton]
    refine ⟨fun ⟨earlier, last⟩ => (spoken earlier).turn listed turned last, and_congr_right fun earlier => ?_⟩
    exact ⟨orderly_of_joinFirst listed turned (spoken earlier), joinFirst_of_orderly listed turned (spoken earlier)⟩

end

/-- Each client joins before the next one is accepted. -/
def joinInTurn : List Round :=
  [.accept 4, .receive [(4, .data (joinMsg 65).bytes)], .accept 5, .receive [(5, .data (joinMsg 66).bytes)]]

theorem join_in_turn : ∃ turns s, Run 2 (.start 3 (.zero 16)) turns s none ∧ turns.map Turn.node = [1, 2] ∧
    JoinFirst turns := by
  have served : (serve 2 joinInTurn (.start 3 (.zero 16))).map (fun x =>
      (x.2.map Turn.node, x.2.all fun t => decide (t.Orderly 2))) = some ([1, 2], true) := by decide +kernel
  obtain ⟨⟨s, turns⟩, done, found⟩ := Option.map_eq_some_iff.mp served
  obtain ⟨nodes, orderly⟩ := Prod.mk.inj found
  have run := serve_run .start done
  exact ⟨turns, s, run, nodes, (joinFirst_iff run).mpr fun t member =>
    of_decide_eq_true (List.all_eq_true.mp orderly t member)⟩

/-- Of two clients that are accepted the first one joins: the other is sent ONLINE before its JOIN. -/
theorem online_before_join : ¬ ∀ (maxClients sockfd : Int) (username : CharArray 16) (turns : List Turn) (s : Server)
    (routing : Option Routing), Run maxClients (.start sockfd username) turns s routing → JoinFirst turns := by
  intro claim
  have served : (serve 2 [.accept 4, .accept 5, .receive [(4, .data (joinMsg 65).bytes)]] (.start 3 (.zero 16))).map
      (fun x => x.2.map fun t => (firstSent 2 t.actions).map getMsgType) =
        some [some HeaderType.online.code] := by decide +kernel
  obtain ⟨⟨s, turns⟩, done, found⟩ := Option.map_eq_some_iff.mp served
  have joinFirst := claim 2 3 (.zero 16) turns s none (serve_run .start done)
  obtain ⟨t, rfl, sent⟩ := List.map_eq_singleton_iff.mp found
  obtain ⟨msg, first, type⟩ := Option.map_eq_some_iff.mp sent
  have answers := ((joinFirst [] t [] rfl).first 2 msg (fun x member => (List.not_mem_nil member).elim) first).1
  rw [Answers, type] at answers
  exact absurd answers (by decide)

end NetProjects.Chat
