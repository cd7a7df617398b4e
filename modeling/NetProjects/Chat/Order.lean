import NetProjects.Chat.Joining

/-!
# The order of the chat

All clients hear the same broadcasts in the same order: each hears what the turns of the router broadcast in one
unbroken stretch of the run, from its connection to its removal, without its own.
-/

namespace NetProjects.Chat
open Bytes Linked

/-! ### What is broadcast -/

/-- The message that `msg_router` passes to `msg_broadcast` when it decodes the buffer for the client `a`. -/
def routeBroadcast (maxClients : Int) (r : Round) (s : Server) (l : Locals) (a : Nat) : List SbcpMsg :=
  let msg := castMsg l.buf
  let name := usernameView s r a
  if getMsgType msg = HeaderType.idle.code then (makeMsgIdleS name (cstring name).length).toList
  else if getMsgType msg = HeaderType.send.code then
    (makeMsgFwd (parseMsgSend msg) 512 name ((cstring name).length + 1)).toList
  else if getMsgType msg = HeaderType.join.code then
    let newName := parseMsgJoin msg l.newName
    if clientCount s - 1 ≥ maxClients ∨ isDuplicateName s r newName then []
    else (makeMsgOnline (newNameView r newName) ((cstring (newNameView r newName)).length + 1)).toList
  else []

/-- What one turn broadcasts: after an end of stream OFFLINE, and then what is made of the buffer. -/
def Turn.broadcasts (maxClients : Int) (t : Turn) : List SbcpMsg :=
  if t.received.numbytes = 0 then
    let name := usernameView t.before t.round t.node
    (makeMsgOffline name ((cstring name).length + 1)).toList ++
      (removeNode t.before t.node).toList.flatMap fun s => routeBroadcast maxClients t.round s t.locals t.node
  else routeBroadcast maxClients t.round t.before t.locals t.node

/-- The message that an action writes to the socket of `b`. -/
def Action.to (b : Nat) : Action → Option SbcpMsg
  | .write a msg => if a = b then some msg else none
  | .close _ => none

instance (msg : SbcpMsg) : Decidable (Answers msg) := inferInstanceAs (Decidable (_ ∨ _))

/-- What the client `b` is sent but for the answers to its own JOINs. -/
def heard (b : Nat) (turns : List Turn) : List SbcpMsg :=
  ((actionsOf turns).filterMap (·.to b)).filter fun msg => ¬ Answers msg

section

variable {maxClients sockfd : Int} {username : CharArray 16} {turns : List Turn} {s s' : Server} {r : Round}
  {l l' : Locals} {routing : Option Routing} {xs before after : List Nat} {t : Turn} {a b : Nat} {msg : SbcpMsg}
  {out : List Action}

theorem filterMap_pick {ys : List Nat} (distinct : ys.Nodup) (msg : SbcpMsg) :
    ys.filterMap (fun c => if c = b then some msg else none) = if b ∈ ys then [msg] else [] := by
  induction ys with
  | nil => rfl
  | cons y ys ih =>
    obtain ⟨outside, distinct⟩ := List.nodup_cons.mp distinct
    by_cases here : y = b
    · subst here
      rw [List.filterMap_cons, if_pos rfl, ih distinct, if_neg outside, if_pos List.mem_cons_self]
    · rw [List.filterMap_cons, if_neg here, ih distinct]
      simp only [List.mem_cons, Ne.symm here, false_or]

theorem msgBroadcast_to (h : Listed s xs) (other : b ∈ xs → (s.nodes.cell b).fd ≠ (s.nodes.cell a).fd) (msg : SbcpMsg) :
    (msgBroadcast s a msg).filterMap (·.to b) = if b ∈ xs then [msg] else [] := by
  have distinct : (xs.filter fun c => (s.nodes.cell c).fd ≠ (s.nodes.cell a).fd).Nodup :=
    (List.nodup_cons.mp h.nodup).2.filter _
  have reached : b ∈ xs.filter (fun c => (s.nodes.cell c).fd ≠ (s.nodes.cell a).fd) ↔ b ∈ xs := by
    rw [List.mem_filter, decide_eq_true_eq]
    exact and_iff_left_of_imp other
  have picked := filterMap_pick (b := b) distinct msg
  simp only [reached] at picked
  rw [msgBroadcast, h.clients_eq, List.filterMap_map]
  exact picked

theorem reject_to {reason : String} (apart : b ≠ a) (done : reject reason s l a = some (s', l', out)) :
    out.filterMap (·.to b) = [] := by
  obtain ⟨nak, _, done⟩ := Option.bind_eq_some_iff.mp done
  obtain ⟨s₁, _, done⟩ := Option.bind_eq_some_iff.mp done
  cases done
  simp [Action.to, apart.symm]

/-- A broadcast reaches each client of the list other than `a`. -/
theorem routeMessage_to (h : Listed s xs) (other : b ∈ xs → (s.nodes.cell b).fd ≠ (s.nodes.cell a).fd) (apart : b ≠ a)
    (done : routeMessage maxClients r s l a = some (s', l', out)) :
    out.filterMap (·.to b) = if b ∈ xs then routeBroadcast maxClients r s l a else [] := by
  have nothing : (if b ∈ xs then ([] : List SbcpMsg) else []) = [] := ite_self []
  unfold routeMessage at done
  unfold routeBroadcast
  dsimp only at done ⊢
  split at done
  · rename_i idle
    obtain ⟨msg, made, done⟩ := Option.bind_eq_some_iff.mp done
    cases done
    rw [if_pos idle, made, msgBroadcast_to h other]
    rfl
  · rename_i notIdle
    rw [if_neg notIdle]
    split at done
    · rename_i send
      obtain ⟨msg, made, done⟩ := Option.bind_eq_some_iff.mp done
      cases done
      rw [if_pos send, made, msgBroadcast_to h other]
      rfl
    · rename_i notSend
      rw [if_neg notSend]
      split at done
      · rename_i join
        rw [if_pos join]
        unfold routeJoin at done
        dsimp only at done
        split at done
        · rename_i full
          rw [if_pos (Or.inl full), nothing, reject_to apart done]
        · rename_i room
          split at done
          · rename_i duplicate
            rw [if_pos (Or.inr duplicate), nothing, reject_to apart done]
          · rename_i unique
            rw [if_neg (not_or.mpr ⟨room, unique⟩)]
            unfold admitClient at done
            dsimp only at done
            obtain ⟨usernames, _, done⟩ := Option.bind_eq_some_iff.mp done
            obtain ⟨ack, _, done⟩ := Option.bind_eq_some_iff.mp done
            obtain ⟨online, made, done⟩ := Option.bind_eq_some_iff.mp done
            cases done
            have silent : (Action.write a ack).to b = none := if_neg apart.symm
            rw [made, List.filterMap_cons_none silent, named_broadcast, msgBroadcast_to h other]
            rfl
      · rename_i notJoin
        cases done
        rw [if_neg notJoin, nothing]
        rfl

/-! ### What one turn sends to another client -/

/-- What a turn of another client sends to `b`. -/
theorem turn_to {received : Received} (h : Listed s (before ++ a :: after)) (apart : b ≠ a)
    (done : turn maxClients r s l a received = some (s', l', out)) :
    out.filterMap (·.to b) =
      if b ∈ s.clients then (Turn.mk r a received (l.read received) s out s').broadcasts maxClients else [] := by
  have other : b ∈ before ++ a :: after → (s.nodes.cell b).fd ≠ (s.nodes.cell a).fd := by
    intro inside
    rw [Ne, h.fd_inj inside (List.mem_append_right _ List.mem_cons_self)]
    exact apart
  have members : b ∈ before ++ a :: after ↔ b ∈ before ++ after := by
    simp only [List.mem_append, List.mem_cons, apart, false_or]
  rw [h.clients_eq]
  unfold Turn.broadcasts
  dsimp only
  by_cases ended : received.numbytes = 0
  · rw [turn_of_eof ended] at done
    obtain ⟨⟨s₀, left⟩, begun, done⟩ := Option.bind_eq_some_iff.mp done
    obtain ⟨⟨s₂, l₂, rest⟩, routes, same⟩ := Option.map_eq_some_iff.mp done
    obtain ⟨offline, made, begun⟩ := Option.bind_eq_some_iff.mp begun
    obtain ⟨s₁, removed, begun⟩ := Option.bind_eq_some_iff.mp begun
    cases begun
    cases same
    obtain ⟨_, removes, shorter, nodes, _⟩ := removeNode_spec h
    obtain rfl := Option.some.inj (removes.symm.trans removed)
    have routed := routeMessage_to shorter (removed_absent h nodes b) apart routes
    have closed : (Action.close a).to b = none := rfl
    rw [if_pos ended, made, removed, List.append_assoc, List.filterMap_append, List.singleton_append,
      List.filterMap_cons_none closed, msgBroadcast_to h other, routed]
    simp only [members]
    split
    · rw [Option.toList_some, Option.toList_some, List.flatMap_singleton]
    · rfl
  · rw [turn_of_open _ _ _ _ _ ended] at done
    rw [if_neg ended]
    exact routeMessage_to h other apart done

/-- Nothing that a client is sent in its own turn is a broadcast, and what others are sent is. -/
theorem heard_turn {received : Received} (h : Listed s (before ++ a :: after))
    (done : turn maxClients r s l a received = some (s', l', out)) (b : Nat) :
    heard b [.mk r a received (l.read received) s out s'] =
      if b ∈ s.clients ∧ b ≠ a then (Turn.mk r a received (l.read received) s out s').broadcasts maxClients else [] := by
  have turned := turn_cases done
  have sends : ∀ msg, msg ∈ out.filterMap (·.to b) → .write b msg ∈ out := by
    intro msg member
    obtain ⟨action, inside, is⟩ := List.mem_filterMap.mp member
    cases action with
    | close c => cases is
    | write c m =>
      have is : (if c = b then some m else none) = some msg := is
      split at is
      · rename_i same
        rwa [same, Option.some.inj is] at inside
      · cases is
  have all : heard b [.mk r a received (l.read received) s out s'] =
      (out.filterMap (·.to b)).filter fun msg => ¬ Answers msg := by
    unfold heard actionsOf
    rw [List.flatMap_singleton]
  rw [all]
  by_cases here : b = a
  · rw [if_neg fun both => both.2 here]
    refine List.filter_eq_nil_iff.mpr fun msg member => ?_
    rw [decide_eq_true_eq, not_not]
    cases turned.sends h (sends msg member) with
    | answer _ _ answers => exact answers
    | notice _ other | relay _ other => exact absurd here other
  · rw [List.filter_eq_self.mpr fun msg member => ?_, turn_to h here done]
    · simp only [here, not_false_iff, and_true, Ne]
    · rw [decide_eq_true_eq]
      cases turned.sends h (sends msg member) with
      | answer same => exact absurd same here
      | notice _ _ _ type => exact type.1
      | relay _ _ _ relays => exact relays.not_answers

theorem heard_flatMap (b : Nat) (turns : List Turn) : heard b turns = turns.flatMap fun t => heard b [t] := by
  induction turns with
  | nil => rfl
  | cons t turns ih =>
    rw [List.flatMap_cons, ← ih]
    simp only [heard, actionsOf, List.flatMap_cons, List.flatMap_nil, List.append_nil, List.filterMap_append,
      List.filter_append]

theorem Run.heard_each (run : Run maxClients (.start sockfd username) turns s routing) (b : Nat) :
    ∀ t ∈ turns, heard b [t] = if b ∈ t.before.clients ∧ b ≠ t.node then t.broadcasts maxClients else [] := by
  induction run with
  | start =>
    intro t member
    cases member
  | select _ _ _ ih => exact ih
  | skip _ _ ih => exact ih
  | turn run _ turned ih =>
    obtain ⟨before, after, listed⟩ := run.at_node
    exact List.forall_mem_append.mpr ⟨ih, List.forall_mem_singleton.mpr (heard_turn listed turned b)⟩
  | finish _ ih => exact ih

/-! ### The stay of a client -/

/-- The turns during which `b` is in the list are one stretch of the run. -/
inductive Stay (b : Nat) (turns : List Turn) (s : Server) : Prop
  | before (unborn : s.nodes.top ≤ b) (absent : ∀ t ∈ turns, b ∉ t.before.clients)
  | inside (earlier mine : List Turn) (split : turns = earlier ++ mine) (absent : ∀ t ∈ earlier, b ∉ t.before.clients)
      (present : ∀ t ∈ mine, b ∈ t.before.clients) (member : b ∈ s.clients)
  | behind (earlier mine later : List Turn) (split : turns = earlier ++ mine ++ later)
      (absent : ∀ t ∈ earlier ++ later, b ∉ t.before.clients) (present : ∀ t ∈ mine, b ∈ t.before.clients)
      (born : b < s.nodes.top) (gone : b ∉ s.clients)

theorem Stay.accept (listed : Listed s xs) (longer : Listed s' (xs ++ [s.nodes.top]))
    (top : s'.nodes.top = s.nodes.top + 1) (stay : Stay b turns s) : Stay b turns s' := by
  have clients : b ∈ s'.clients ↔ b ∈ s.clients ∨ b = s.nodes.top := by
    rw [longer.clients_eq, listed.clients_eq, List.mem_append, List.mem_singleton]
  cases stay with
  | before unborn absent =>
    by_cases here : b = s.nodes.top
    · exact .inside turns [] (List.append_nil _).symm absent (fun _ member => nomatch member) (clients.mpr (Or.inr here))
    · exact .before (by omega) absent
  | inside earlier mine split absent present member =>
    exact .inside earlier mine split absent present (clients.mpr (Or.inl member))
  | behind earlier mine later split absent present born gone =>
    refine .behind earlier mine later split absent present (by omega) fun member => ?_
    rcases clients.mp member with member | here
    · exact gone member
    · omega

/-- Nobody comes to the list in a turn. -/
theorem Stay.turn (h : Listed t.before (before ++ t.node :: after)) (turned : Turned maxClients t l')
    (stay : Stay b turns t.before) : Stay b (turns ++ [t]) t.after := by
  have top := turned.top h
  cases stay with
  | before unborn absent =>
    refine .before (by omega) (List.forall_mem_append.mpr ⟨absent, List.forall_mem_singleton.mpr fun member => ?_⟩)
    have lower := h.clients_lt b member
    omega
  | inside earlier mine split absent present member =>
    have present : ∀ u ∈ mine ++ [t], b ∈ u.before.clients :=
      List.forall_mem_append.mpr ⟨present, List.forall_mem_singleton.mpr member⟩
    have split : turns ++ [t] = earlier ++ (mine ++ [t]) := by rw [split, List.append_assoc]
    by_cases stays : b ∈ t.after.clients
    · exact .inside earlier _ split absent present stays
    · refine .behind earlier _ [] (by rw [split, List.append_nil]) (by rwa [List.append_nil]) present ?_ stays
      have lower := h.clients_lt b member
      omega
  | behind earlier mine later split absent present born gone =>
    refine .behind earlier mine (later ++ [t]) (by rw [split, List.append_assoc]) ?_ present (by omega) ?_
    · rw [← List.append_assoc]
      exact List.forall_mem_append.mpr ⟨absent, List.forall_mem_singleton.mpr gone⟩
    · intro inside
      by_cases here : b = t.node
      · exact gone (here ▸ h.mem_clients)
      · exact gone (turned.others h inside here).1

theorem Run.stay (run : Run maxClients (.start sockfd username) turns s routing) (b : Nat) : Stay b turns s := by
  refine (run.rule (I := fun turns s => Stay b turns s) (start_listed sockfd username) ?_ ?_ ?_).2
  · rcases Nat.eq_zero_or_pos b with rfl | pos
    · refine .behind [] [] [] rfl (fun _ member => nomatch member) (fun _ member => nomatch member) Nat.zero_lt_one ?_
      rw [(start_listed sockfd username).clients_eq]
      exact List.not_mem_nil
    · exact .before pos fun _ member => nomatch member
  · exact fun turns s s' xs listed longer _ top _ stay => stay.accept listed longer top
  · exact fun turns t l' before after listed turned stay => stay.turn listed turned

theorem heard_absent {each : List Turn} (absent : ∀ t ∈ each, b ∉ t.before.clients)
    (hears : ∀ t ∈ each, heard b [t] = if b ∈ t.before.clients ∧ b ≠ t.node then t.broadcasts maxClients else []) :
    heard b each = [] := by
  rw [heard_flatMap, List.flatMap_eq_nil_iff]
  intro t member
  rw [hears t member, if_neg fun both => absent t member both.1]

theorem heard_present {each : List Turn} (present : ∀ t ∈ each, b ∈ t.before.clients)
    (hears : ∀ t ∈ each, heard b [t] = if b ∈ t.before.clients ∧ b ≠ t.node then t.broadcasts maxClients else []) :
    heard b each = each.flatMap fun t => if t.node = b then [] else t.broadcasts maxClients := by
  rw [heard_flatMap, List.flatMap_def, List.flatMap_def]
  refine congrArg List.flatten (List.map_congr_left fun t member => ?_)
  rw [hears t member]
  by_cases here : t.node = b
  · rw [if_pos here, if_neg fun both => both.2 here.symm]
  · rw [if_neg here, if_pos ⟨present t member, Ne.symm here⟩]

/-- What a client hears is what the turns of one stretch of the run broadcast, in their order and without
its own: the stretch in which it is in the list. -/
theorem broadcast_order (run : Run maxClients (.start sockfd username) turns s routing) (b : Nat) :
    ∃ earlier mine later, turns = earlier ++ mine ++ later ∧ (∀ t ∈ mine, b ∈ t.before.clients) ∧
      (∀ t ∈ earlier ++ later, b ∉ t.before.clients) ∧ (b ∈ s.clients → later = []) ∧
      heard b turns = mine.flatMap fun t => if t.node = b then [] else t.broadcasts maxClients := by
  have hears := run.heard_each b
  -- The three stretches, wherever the client stands now.
  obtain ⟨earlier, mine, later, rfl, present, absent, last⟩ : ∃ earlier mine later, turns = earlier ++ mine ++ later ∧
      (∀ t ∈ mine, b ∈ t.before.clients) ∧ (∀ t ∈ earlier ++ later, b ∉ t.before.clients) ∧
      (b ∈ s.clients → later = []) := by
    cases run.stay b with
    | before unborn absent =>
      have nobody : ∀ t ∈ ([] : List Turn), b ∈ t.before.clients := fun _ member => nomatch member
      exact ⟨turns, [], [], by simp only [List.append_nil], nobody, by rwa [List.append_nil], fun _ => rfl⟩
    | inside earlier mine split absent present member =>
      exact ⟨earlier, mine, [], by rw [split, List.append_nil], present, by rwa [List.append_nil], fun _ => rfl⟩
    | behind earlier mine later split absent present _ gone =>
      exact ⟨earlier, mine, later, split, present, absent, fun member => absurd member gone⟩
  refine ⟨earlier, mine, later, rfl, present, absent, last, ?_⟩
  obtain ⟨hears, hearsLater⟩ := List.forall_mem_append.mp hears
  obtain ⟨hearsEarlier, hearsMine⟩ := List.forall_mem_append.mp hears
  obtain ⟨absentEarlier, absentLater⟩ := List.forall_mem_append.mp absent
  have append : ∀ xs ys : List Turn, heard b (xs ++ ys) = heard b xs ++ heard b ys := by
    intro xs ys
    rw [heard_flatMap, heard_flatMap b xs, heard_flatMap b ys, List.flatMap_append]
  rw [append, append, heard_absent absentEarlier hearsEarlier, heard_absent absentLater hearsLater,
    heard_present present hearsMine, List.append_nil, List.nil_append]

end

theorem broadcast_order_joins : ∃ turns s, Run 2 (.start 3 (.zero 16)) turns s none ∧ (heard 1 turns).length = 1 ∧
    ∃ earlier mine later, turns = earlier ++ mine ++ later ∧ (∀ t ∈ mine, 1 ∈ t.before.clients) ∧
      (∀ t ∈ earlier ++ later, 1 ∉ t.before.clients) ∧ (1 ∈ s.clients → later = []) ∧
      heard 1 turns = mine.flatMap fun t => if t.node = 1 then [] else t.broadcasts 2 := by
  have served : (serve 2 twoJoin (.start 3 (.zero 16))).map (fun x => (heard 1 x.2).length) = some 1 := by decide +kernel
  obtain ⟨⟨s, turns⟩, done, found⟩ := Option.map_eq_some_iff.mp served
  have run := serve_run .start done
  exact ⟨turns, s, run, found, broadcast_order run 1⟩

end NetProjects.Chat
