import NetProjects.Chat.Room

/-!
# Routing

What one turn of the router does, branch by branch.
-/

namespace NetProjects.Chat
open Bytes Linked

/-- The name a node is shown under: its `username` as a C string. -/
def nameOf (s : Server) (r : Round) (a : Nat) : List UInt8 := cstring (usernameView s r a)

section

variable {s s' : Server} {r : Round} {l l' : Locals} {xs before after : List Nat} {a b : Nat} {maxClients : Int}
  {out : List Action} {newName : CharArray 16}

theorem usernameView_terminated : 0 ∈ usernameView s r a := List.mem_append_right _ (r.afterUsername a).terminated

theorem length_usernameView_le : (usernameView s r a).length ≤ 28 := by
  rw [usernameView, List.length_append, (s.nodes.cell a).username.size]
  have short := (r.afterUsername a).short
  omega

theorem newNameView_terminated (r : Round) (newName : CharArray 16) : 0 ∈ newNameView r newName :=
  List.mem_append_right _ r.afterNewName.terminated

theorem length_newNameView_le : (newNameView r newName).length ≤ 511 := by
  rw [newNameView, List.length_append, newName.size]
  have short := r.afterNewName.short
  omega

/-! ### Naming a node -/

@[simp] theorem named_listenFd : (s.named a newName).listenFd = s.listenFd := rfl

@[simp] theorem named_top : (s.named a newName).nodes.top = s.nodes.top := rfl

@[simp] theorem named_next : ((s.named a newName).nodes.cell b).next = (s.nodes.cell b).next :=
  s.nodes.modify_field a b (fun n => { n with username := newName, acked := true }) SocketFd.next fun _ => rfl

@[simp] theorem named_fd : ((s.named a newName).nodes.cell b).fd = (s.nodes.cell b).fd :=
  s.nodes.modify_field a b (fun n => { n with username := newName, acked := true }) SocketFd.fd fun _ => rfl

theorem named_self : ((s.named a newName).nodes.cell a).username = newName ∧
    ((s.named a newName).nodes.cell a).acked = true := by
  rw [Server.named, Heap.modify_cell_self]
  exact ⟨rfl, rfl⟩

theorem named_other (other : b ≠ a) : (s.named a newName).nodes.cell b = s.nodes.cell b :=
  if_neg other

theorem named_clients : (s.named a newName).clients = s.clients := by
  unfold Server.clients
  simp only [named_next, named_top, named_listenFd]

theorem named_broadcast {msg : SbcpMsg} : msgBroadcast (s.named a newName) b msg = msgBroadcast s b msg := by
  unfold msgBroadcast
  simp only [named_clients, named_fd]

theorem Listed.named (h : Listed s xs) : Listed (s.named a newName) xs :=
  h.congr rfl rfl (fun _ => named_next) fun _ => named_fd

/-- Without the client itself in the list, a broadcast goes to all of it. -/
theorem msgBroadcast_absent (h : Listed s xs) (absent : ∀ b ∈ xs, (s.nodes.cell b).fd ≠ (s.nodes.cell a).fd)
    (msg : SbcpMsg) : msgBroadcast s a msg = xs.map (Action.write · msg) := by
  rw [msgBroadcast, h.clients_eq, List.filter_eq_self.mpr fun b member => decide_eq_true (absent b member)]

theorem Listed.others_apart (h : Listed s (before ++ a :: after)) :
    ∀ b ∈ before ++ after, (s.nodes.cell b).fd ≠ (s.nodes.cell a).fd := by
  intro b member
  have inside : b ∈ before ++ a :: after := by
    simp only [List.mem_append, List.mem_cons] at member ⊢
    tauto
  rw [Ne, h.fd_inj inside (List.mem_append_right _ List.mem_cons_self)]
  rintro rfl
  have once := List.nodup_middle.mp (List.nodup_cons.mp h.nodup).2
  exact (List.nodup_cons.mp once).1 member

theorem Listed.mem_others (h : Listed s (before ++ a :: after)) : b ∈ before ++ after ↔ b ∈ s.clients ∧ b ≠ a := by
  rw [h.clients_eq]
  constructor
  · intro member
    refine ⟨?_, fun same => h.others_apart b member (same ▸ rfl)⟩
    simp only [List.mem_append, List.mem_cons] at member ⊢
    tauto
  · rintro ⟨member, other⟩
    simp only [List.mem_append, List.mem_cons] at member ⊢
    tauto

/-- The clients other than `a` are those before and behind it. -/
theorem Listed.filter_others (h : Listed s (before ++ a :: after)) :
    (before ++ a :: after).filter (· ≠ a) = before ++ after := by
  have outside : a ∉ before ++ after := fun member => (h.mem_others.mp member).2 rfl
  rw [List.filter_append, List.filter_cons_of_neg (by simp), ← List.filter_append]
  exact List.filter_eq_self.mpr fun b member => decide_eq_true fun same => outside (same ▸ member)

theorem msgBroadcast_others (h : Listed s (before ++ a :: after)) (msg : SbcpMsg) :
    msgBroadcast s a msg = (before ++ after).map (Action.write · msg) := by
  have apart := h.others_apart
  rw [msgBroadcast, h.clients_eq, List.filter_append, List.filter_cons_of_neg (by simp), ← List.filter_append,
    List.filter_eq_self.mpr fun b member => decide_eq_true (apart b member)]

/-! ### The messages the router makes -/

theorem foldlM_memcpy_isSome {ι : Type} (f : ι → CharArray 16) (u : CharArray 512) (ys : List ι) (k : Nat) :
    ((ys.zipIdx k).foldlM (fun (u : CharArray 512) y => u.memcpy (y.2 * 16) (f y.1).bytes) u).isSome ↔ ys = [] ∨ k + ys.length ≤ 32 := by
  induction ys generalizing k u with
  | nil => exact iff_of_true rfl (Or.inl rfl)
  | cons y ys ih =>
    rw [List.zipIdx_cons, List.foldlM_cons]
    cases copied : u.memcpy (k * 16) (f y).bytes with
    | none =>
      have outside : ¬ k * 16 + (f y).bytes.length ≤ 512 := by
        rw [← CharArray.memcpy_isSome (a := u), copied]
        exact Bool.false_ne_true
      rw [(f y).size] at outside
      refine iff_of_false Bool.false_ne_true ?_
      rintro (none | few)
      · cases none
      · rw [List.length_cons] at few
        omega
    | some u' =>
      have inside : k * 16 + (f y).bytes.length ≤ 512 := by
        rw [← CharArray.memcpy_isSome (a := u), copied]
        rfl
      rw [(f y).size] at inside
      rw [Option.bind_eq_bind, Option.bind_some, ih, List.length_cons]
      constructor
      · rintro (rfl | few)
        · right
          rw [List.length_nil]
          omega
        · right
          omega
      · rintro (none | few)
        · cases none
        · right
          omega

/-- The names of more than 32 clients overflow `usernames`. -/
theorem getUsernames_isSome (u : CharArray 512) : (getUsernames s u).isSome ↔ s.clients.length ≤ 32 := by
  obtain ⟨cleared, copied, _⟩ := CharArray.memcpy_of_fits u 0 (List.replicate 8 0) (by decide)
  simp only [getUsernames, copied, Option.bind_eq_bind, Option.bind_some]
  rw [foldlM_memcpy_isSome (fun a => (s.nodes.cell a).username), Nat.zero_add]
  constructor
  · rintro (none | few)
    · rw [none]
      exact Nat.zero_le _
    · exact few
  · exact Or.inr

theorem sprintfInt_isSome (countStr : CharArray 5) {count : Int} (low : -1 ≤ count) (high : count ≤ 31) :
    ∃ digits, sprintfInt countStr count = some digits := by
  have shortAll : ∀ n : Fin 33, (cstr (toString ((n.val : Int) - 1)) ++ [0]).length ≤ 5 := by decide
  obtain ⟨n, rfl⟩ : ∃ n : Nat, count = (n : Int) - 1 := ⟨(count + 1).toNat, by omega⟩
  have short := shortAll ⟨n, by omega⟩
  obtain ⟨digits, copied, _⟩ := CharArray.memcpy_of_fits countStr 0
    (cstr (toString ((n : Int) - 1)) ++ [0]) (by rwa [Nat.zero_add])
  exact ⟨digits, copied⟩

theorem makeMsgAck_isSome (countStr : CharArray 5) (count : Int) (low : -1 ≤ count) (high : count ≤ 31)
    (usernames : CharArray 512) :
    ∃ ack, makeMsgAck countStr count usernames.bytes = some ack ∧ getMsgType ack = HeaderType.ack.code := by
  obtain ⟨digits, printed⟩ := sprintfInt_isSome countStr low high
  obtain ⟨countAttribute, madeCount⟩ := makeAttribute_isSome .clientCount 5 digits.bytes 5 (by decide) digits.size.ge
  obtain ⟨names, madeNames⟩ := makeAttribute_isSome .username 4 usernames.bytes 170 (by decide) (by rw [usernames.size]; decide)
  refine ⟨{ SbcpMsg.ofType .ack with attribute0 := countAttribute, attribute1 := names }, ?_, getMsgType_ofType .ack⟩
  simp only [makeMsgAck, printed, madeCount, madeNames, Option.bind_eq_bind, Option.bind_some, Option.pure_def]

theorem makeMsgFwd_spec (text : CharArray 512) {name : List UInt8} (terminated : 0 ∈ name) (short : name.length ≤ 512) :
    ∃ fwd, makeMsgFwd text.bytes 512 name ((cstring name).length + 1) = some fwd ∧
      getMsgType fwd = HeaderType.fwd.code ∧ fwd.attribute0.Holds .message text.bytes ∧
      fwd.attribute1.Holds .username (cstring name) := by
  obtain ⟨message, madeMessage⟩ := makeAttribute_isSome .message (.ofNat 512) text.bytes 512 le_rfl text.size.ge
  obtain ⟨username, madeName, holds⟩ := makeAttribute_cstring .username
    (.ofNat ((cstring name).length + 1)) terminated short (Or.inr rfl)
  refine ⟨{ SbcpMsg.ofType .fwd with attribute0 := message, attribute1 := username }, ?_, getMsgType_ofType .fwd, ?_,
    holds⟩
  · simp only [makeMsgFwd, madeMessage, madeName, Option.bind_eq_bind, Option.bind_some, Option.pure_def]
  · obtain ⟨type, _, _, _, payload⟩ := makeAttribute_spec madeMessage
    refine ⟨type, ?_⟩
    rw [payload, List.take_of_length_le text.size.le, text.size]

/-! ### The branches -/

/-- What the router does with the message in the buffer for the node `a`. -/
inductive Routed (maxClients : Int) (r : Round) (s : Server) (l : Locals) (a : Nat) :
    Server → Locals → List Action → Prop
  | idle (msg : SbcpMsg) (asked : getMsgType (castMsg l.buf) = HeaderType.idle.code)
      (type : getMsgType msg = HeaderType.idle.code) (name : msg.attribute0.Holds .username (nameOf s r a)) :
      Routed maxClients r s l a s l (msgBroadcast s a msg)
  | send (msg : SbcpMsg) (asked : getMsgType (castMsg l.buf) = HeaderType.send.code)
      (type : getMsgType msg = HeaderType.fwd.code)
      (text : msg.attribute0.Holds .message (castMsg l.buf).attribute0.payload.bytes)
      (name : msg.attribute1.Holds .username (nameOf s r a)) :
      Routed maxClients r s l a s l (msgBroadcast s a msg)
  | rejected (nak : SbcpMsg) (s' : Server) (asked : getMsgType (castMsg l.buf) = HeaderType.join.code)
      (refused : clientCount s - 1 ≥ maxClients ∨ isDuplicateName s r (parseMsgJoin (castMsg l.buf) l.newName))
      (type : getMsgType nak = HeaderType.nak.code) (removed : removeNode s a = some s') :
      Routed maxClients r s l a s'
        { l with buf := l.buf.fill nak.bytes, newName := parseMsgJoin (castMsg l.buf) l.newName }
        [.write a nak, .close a]
  | admitted (ack online : SbcpMsg) (usernames : CharArray 512)
      (asked : getMsgType (castMsg l.buf) = HeaderType.join.code) (room : clientCount s - 1 < maxClients)
      (unique : ¬ isDuplicateName s r (parseMsgJoin (castMsg l.buf) l.newName)) (few : s.clients.length ≤ 32)
      (ackType : getMsgType ack = HeaderType.ack.code) (onlineType : getMsgType online = HeaderType.online.code) :
      Routed maxClients r s l a (s.named a (parseMsgJoin (castMsg l.buf) l.newName))
        { buf := l.buf.fill ack.bytes, usernames := usernames, newName := parseMsgJoin (castMsg l.buf) l.newName }
        (.write a ack :: msgBroadcast s a online)
  | ignored (notIdle : getMsgType (castMsg l.buf) ≠ HeaderType.idle.code)
      (notSend : getMsgType (castMsg l.buf) ≠ HeaderType.send.code)
      (notJoin : getMsgType (castMsg l.buf) ≠ HeaderType.join.code) : Routed maxClients r s l a s l []

/-- Where the router does not come back: a node to remove that is not in the list, or too many
names for its array. -/
def Faults (maxClients : Int) (r : Round) (s : Server) (l : Locals) (a : Nat) : Prop :=
  getMsgType (castMsg l.buf) = HeaderType.join.code ∧
    if clientCount s - 1 ≥ maxClients ∨ isDuplicateName s r (parseMsgJoin (castMsg l.buf) l.newName) then
      removeNode s a = none
    else 32 < s.clients.length

theorem reject_eq {reason : String} (known : reason = "reached maximum client count" ∨ reason = "same username") :
    ∃ nak, getMsgType nak = HeaderType.nak.code ∧ reject reason s l a = (removeNode s a).map fun s' =>
      (s', { l with buf := l.buf.fill nak.bytes }, [.write a nak, .close a]) := by
  have short : reason.length + 1 ≤ 512 ∧ (cstr reason).length = reason.length := by
    rcases known with rfl | rfl <;> decide
  obtain ⟨attribute0, made⟩ := makeAttribute_isSome .reason (.ofNat (reason.length + 1))
    (cstr reason ++ [0]) (reason.length + 1) short.1 (by rw [List.length_append, short.2]; rfl)
  refine ⟨{ SbcpMsg.ofType .nak with attribute0 := attribute0 }, getMsgType_ofType .nak, ?_⟩
  simp only [reject, makeMsgNak, made, Option.bind_eq_bind, Option.bind_some, Option.pure_def]
  cases removeNode s a <;> rfl

theorem admitClient_of_few (few : s.clients.length ≤ 32) :
    ∃ ack online usernames, getMsgType ack = HeaderType.ack.code ∧ getMsgType online = HeaderType.online.code ∧
      admitClient r s l a = some (s.named a l.newName, { l with buf := l.buf.fill ack.bytes, usernames := usernames },
        .write a ack :: msgBroadcast s a online) := by
  have count : clientCount (s.named a l.newName) = s.clients.length := by rw [clientCount, named_clients]
  obtain ⟨usernames, listed⟩ := Option.isSome_iff_exists.mp
    ((getUsernames_isSome (s := s.named a l.newName) l.usernames).mpr (by rwa [named_clients]))
  obtain ⟨ack, madeAck, ackType⟩ := makeMsgAck_isSome (r.countStr a) (clientCount (s.named a l.newName) - 1)
    (by omega) (by omega) usernames
  obtain ⟨online, madeOnline, onlineType, _⟩ := makeMsgName_cstring .online (newNameView_terminated r l.newName)
    (length_newNameView_le.trans (by decide)) (Or.inr rfl)
  refine ⟨ack, online, usernames, ackType, onlineType, ?_⟩
  simp only [admitClient, listed, madeAck, makeMsgOnline, madeOnline, named_broadcast, Option.bind_eq_bind,
    Option.bind_some, Option.pure_def]

theorem admitClient_of_many (many : 32 < s.clients.length) : admitClient r s l a = none := by
  have overflow : getUsernames (s.named a l.newName) l.usernames = none := by
    rw [← Option.not_isSome_iff_eq_none, getUsernames_isSome, named_clients]
    omega
  simp only [admitClient, overflow, Option.bind_eq_bind, Option.bind_none]

theorem reject_spec {reason : String} (known : reason = "reached maximum client count" ∨ reason = "same username")
    (join : getMsgType (castMsg l.buf) = HeaderType.join.code)
    (refused : clientCount s - 1 ≥ maxClients ∨ isDuplicateName s r (parseMsgJoin (castMsg l.buf) l.newName)) :
    (∃ s' l' out, reject reason s { l with newName := parseMsgJoin (castMsg l.buf) l.newName } a = some (s', l', out) ∧
        Routed maxClients r s l a s' l' out) ∧ ¬ Faults maxClients r s l a ∨
      reject reason s { l with newName := parseMsgJoin (castMsg l.buf) l.newName } a = none ∧
        Faults maxClients r s l a := by
  obtain ⟨nak, type, rejectEq⟩ := reject_eq (s := s) (a := a)
    (l := { l with newName := parseMsgJoin (castMsg l.buf) l.newName }) known
  cases removed : removeNode s a with
  | none =>
    right
    rw [rejectEq, removed, Faults, if_pos refused]
    exact ⟨rfl, join, removed⟩
  | some s' =>
    left
    refine ⟨⟨s', _, _, by rw [rejectEq, removed]; rfl, .rejected nak s' join refused type removed⟩, fun faults => ?_⟩
    rw [Faults, if_pos refused, removed] at faults
    cases faults.2

theorem routeJoin_spec (join : getMsgType (castMsg l.buf) = HeaderType.join.code) :
    (∃ s' l' out, routeJoin maxClients r s l a (castMsg l.buf) = some (s', l', out) ∧
        Routed maxClients r s l a s' l' out) ∧ ¬ Faults maxClients r s l a ∨
      routeJoin maxClients r s l a (castMsg l.buf) = none ∧ Faults maxClients r s l a := by
  by_cases full : clientCount s - 1 ≥ maxClients
  · simp only [routeJoin, if_pos full]
    exact reject_spec (Or.inl rfl) join (Or.inl full)
  by_cases duplicate : isDuplicateName s r (parseMsgJoin (castMsg l.buf) l.newName)
  · simp only [routeJoin, if_neg full, if_pos duplicate]
    exact reject_spec (Or.inr rfl) join (Or.inr duplicate)
  have accepted : ¬ (clientCount s - 1 ≥ maxClients ∨ isDuplicateName s r (parseMsgJoin (castMsg l.buf) l.newName)) :=
    not_or.mpr ⟨full, duplicate⟩
  simp only [routeJoin, if_neg full, if_neg duplicate, Faults, if_neg accepted]
  by_cases few : s.clients.length ≤ 32
  · left
    obtain ⟨ack, online, usernames, ackType, onlineType, admitted⟩ := admitClient_of_few (r := r) (a := a)
      (l := { l with newName := parseMsgJoin (castMsg l.buf) l.newName }) few
    exact ⟨⟨_, _, _, admitted, .admitted ack online usernames join (not_le.mp full) duplicate few ackType onlineType⟩,
      fun faults => absurd faults.2 (not_lt.mpr few)⟩
  · right
    exact ⟨admitClient_of_many (not_le.mp few), join, not_le.mp few⟩

theorem routeMessage_spec (maxClients : Int) (r : Round) (s : Server) (l : Locals) (a : Nat) :
    (∃ s' l' out, routeMessage maxClients r s l a = some (s', l', out) ∧ Routed maxClients r s l a s' l' out) ∧
        ¬ Faults maxClients r s l a ∨
      routeMessage maxClients r s l a = none ∧ Faults maxClients r s l a := by
  by_cases idle : getMsgType (castMsg l.buf) = HeaderType.idle.code
  · left
    obtain ⟨msg, made, type, name⟩ := makeMsgName_cstring .idle (usernameView_terminated (s := s) (r := r) (a := a))
      (length_usernameView_le.trans (by decide)) (Or.inl rfl)
    refine ⟨⟨s, l, _, ?_, .idle msg idle type name⟩, fun faults => ?_⟩
    · simp only [routeMessage, if_pos idle, makeMsgIdleS, made, Option.bind_eq_bind, Option.bind_some, Option.pure_def]
    · rw [Faults, idle] at faults
      exact absurd faults.1 (by decide)
  by_cases send : getMsgType (castMsg l.buf) = HeaderType.send.code
  · left
    obtain ⟨msg, made, type, text, name⟩ := makeMsgFwd_spec (castMsg l.buf).attribute0.payload
      (usernameView_terminated (s := s) (r := r) (a := a)) (length_usernameView_le.trans (by decide))
    refine ⟨⟨s, l, _, ?_, .send msg send type text name⟩, fun faults => ?_⟩
    · simp only [routeMessage, if_neg idle, if_pos send, parseMsgSend, made, Option.bind_eq_bind, Option.bind_some,
        Option.pure_def]
    · rw [Faults, send] at faults
      exact absurd faults.1 (by decide)
  by_cases join : getMsgType (castMsg l.buf) = HeaderType.join.code
  · simp only [routeMessage, if_neg idle, if_neg send, if_pos join]
    exact routeJoin_spec join
  · left
    refine ⟨⟨s, l, [], ?_, .ignored idle send join⟩, fun faults => join faults.1⟩
    simp only [routeMessage, if_neg idle, if_neg send, if_neg join, Option.pure_def]

/-! ### The turn of a client -/

def Turn.msg (t : Turn) : SbcpMsg := castMsg t.locals.buf

def Turn.eof (t : Turn) : Prop := t.received.numbytes = 0

/-- What a turn does and the locals it leaves. -/
inductive Turned (maxClients : Int) (t : Turn) (l' : Locals) : Prop
  | stayed (open' : ¬ t.eof) (routed : Routed maxClients t.round t.before t.locals t.node t.after l' t.actions)
  | left (ended : t.eof) (offline : SbcpMsg) (s : Server) (out : List Action)
      (type : getMsgType offline = HeaderType.offline.code)
      (name : offline.attribute0.Holds .username (nameOf t.before t.round t.node))
      (removed : removeNode t.before t.node = some s)
      (routed : Routed maxClients t.round s t.locals t.node t.after l' out)
      (actions : t.actions = msgBroadcast t.before t.node offline ++ .close t.node :: out)

theorem disconnect_eq : ∃ offline, getMsgType offline = HeaderType.offline.code ∧
    offline.attribute0.Holds .username (nameOf s r a) ∧
    disconnect r s a = (removeNode s a).map fun s' => (s', msgBroadcast s a offline ++ [.close a]) := by
  obtain ⟨offline, made, type, name⟩ := makeMsgName_cstring .offline
    (usernameView_terminated (s := s) (r := r) (a := a)) (length_usernameView_le.trans (by decide)) (Or.inr rfl)
  refine ⟨offline, type, name, ?_⟩
  simp only [disconnect, makeMsgOffline, made, Option.bind_eq_bind, Option.bind_some, Option.pure_def]
  cases removeNode s a <;> rfl

theorem routeMessage_cases (done : routeMessage maxClients r s l a = some (s', l', out)) :
    Routed maxClients r s l a s' l' out := by
  rcases routeMessage_spec maxClients r s l a with
    ⟨⟨_, _, _, known, routed⟩, _⟩ | ⟨fails, _⟩
  · cases known.symm.trans done
    exact routed
  · cases fails.symm.trans done

/-- A message that arrives whole is the message in the buffer. -/
theorem castMsg_data (l : Locals) (m : SbcpMsg) : castMsg (l.read (.data m.bytes)).buf = m := by
  have size := m.length_bytes
  have all : m.bytes.take (maxDataSize - 1) = m.bytes := List.take_of_length_le (by rw [size]; decide)
  change castMsg (l.buf.fill (m.bytes.take (maxDataSize - 1))) = m
  rw [all]
  simpa only [List.append_nil] using castMsg_fill l.buf m [] (by rw [List.append_nil, size]; decide)

theorem data_open (m : SbcpMsg) : (Received.data m.bytes).numbytes ≠ 0 := by
  rw [Received.numbytes, m.length_bytes]
  decide

theorem turn_of_open (maxClients : Int) (r : Round) (s : Server) (l : Locals) (a : Nat) {received : Received} (open' : received.numbytes ≠ 0) :
    turn maxClients r s l a received = routeMessage maxClients r s (l.read received) a := by
  simp only [turn, if_neg open', Option.bind_eq_bind, Option.bind_some, Option.pure_def, List.nil_append]
  cases routeMessage maxClients r s (l.read received) a <;> rfl

theorem turn_of_eof {received : Received} (ended : received.numbytes = 0) :
    turn maxClients r s l a received = (disconnect r s a).bind fun x =>
      (routeMessage maxClients r x.1 (l.read received) a).map fun y => (y.1, y.2.1, x.2 ++ y.2.2) := by
  simp only [turn, if_pos ended, Option.bind_eq_bind, Option.pure_def, Option.map_eq_bind]
  rfl

theorem turn_cases {received : Received} (done : turn maxClients r s l a received = some (s', l', out)) :
    Turned maxClients (.mk r a received (l.read received) s out s') l' := by
  by_cases ended : received.numbytes = 0
  · rw [turn_of_eof ended] at done
    obtain ⟨offline, type, name, disconnectEq⟩ := disconnect_eq (s := s) (r := r) (a := a)
    obtain ⟨_, begun, done⟩ := Option.bind_eq_some_iff.mp done
    rw [disconnectEq] at begun
    obtain ⟨s₁, removed, rfl⟩ := Option.map_eq_some_iff.mp begun
    obtain ⟨_, routes, same⟩ := Option.map_eq_some_iff.mp done
    cases same
    refine .left ended offline s₁ _ type name removed (routeMessage_cases routes) ?_
    exact List.append_assoc _ _ _
  · rw [turn_of_open _ _ _ _ _ ended] at done
    exact .stayed ended (routeMessage_cases done)

/-! ### The list after a turn -/

theorem Routed.listed (h : Listed s (before ++ a :: after)) (routed : Routed maxClients r s l a s' l' out) :
    (Listed s' (before ++ a :: after) ∨ Listed s' (before ++ after)) ∧ (s'.nodes.cell a).next = after.head? := by
  cases routed with
  | idle | send | ignored => exact ⟨Or.inl h, h.next_eq⟩
  | rejected nak _ _ _ _ removed =>
    obtain ⟨_, removes, shorter, _, next⟩ := removeNode_spec h
    obtain rfl := Option.some.inj (removes.symm.trans removed)
    exact ⟨Or.inr shorter, next⟩
  | admitted => exact ⟨Or.inl h.named, named_next.trans h.next_eq⟩

/-- The node has been removed before: then nothing is removed again, and the list stays. -/
theorem Routed.absent (h : Listed s xs) (absent : ∀ b ∈ xs, (s.nodes.cell b).fd ≠ (s.nodes.cell a).fd)
    (routed : Routed maxClients r s l a s' l' out) :
    s' = s ∨ s' = s.named a (parseMsgJoin (castMsg l.buf) l.newName) := by
  cases routed with
  | idle | send | ignored => exact Or.inl rfl
  | rejected nak _ _ _ _ removed =>
    rw [removeNode_absent h absent] at removed
    cases removed
  | admitted => exact Or.inr rfl

theorem removed_absent (h : Listed s (before ++ a :: after)) (same : SameNodes s s') :
    ∀ b ∈ before ++ after, (s'.nodes.cell b).fd ≠ (s'.nodes.cell a).fd := by
  intro b member
  rw [same.fd b (h.clients_lt b (h.mem_others.mp member).1), same.fd a (h.clients_lt a h.mem_clients)]
  exact h.others_apart b member

theorem Turned.listed {t : Turn} (h : Listed t.before (before ++ t.node :: after)) (turned : Turned maxClients t l') :
    (Listed t.after (before ++ t.node :: after) ∨ Listed t.after (before ++ after)) ∧
      (t.after.nodes.cell t.node).next = after.head? := by
  cases turned with
  | stayed _ routed => exact routed.listed h
  | left _ _ s _ _ _ removed routed =>
    obtain ⟨_, removes, shorter, same, next⟩ := removeNode_spec h
    obtain rfl := Option.some.inj (removes.symm.trans removed)
    rcases routed.absent shorter (removed_absent h same) with unchanged | unchanged
    · rw [unchanged]
      exact ⟨Or.inr shorter, next⟩
    · rw [unchanged]
      exact ⟨Or.inr shorter.named, named_next.trans next⟩

/-- What a turn does to the list: nothing, or the client of the turn leaves it, or gets a name. -/
inductive Changed (maxClients : Int) (t : Turn) (before after : List Nat) : Prop
  | same (unchanged : t.after = t.before)
  | removed (shorter : Listed t.after (before ++ after)) (top : t.after.nodes.top = t.before.nodes.top)
      (keeps : ∀ b ∈ before ++ after, (t.after.nodes.cell b).username = (t.before.nodes.cell b).username ∧
        (t.after.nodes.cell b).acked = (t.before.nodes.cell b).acked)
  | named (open' : ¬ t.eof) (asked : getMsgType t.msg = HeaderType.join.code)
      (room : clientCount t.before - 1 < maxClients)
      (unique : ¬ isDuplicateName t.before t.round (parseMsgJoin t.msg t.locals.newName))
      (named : t.after = t.before.named t.node (parseMsgJoin t.msg t.locals.newName))

theorem SameNodes.keeps (h : Listed s (before ++ a :: after)) (same : SameNodes s s') :
    ∀ b ∈ before ++ after, (s'.nodes.cell b).username = (s.nodes.cell b).username ∧
      (s'.nodes.cell b).acked = (s.nodes.cell b).acked := by
  intro b member
  have allocated := h.clients_lt b (h.mem_others.mp member).1
  exact ⟨same.username b allocated, same.acked b allocated⟩

theorem Turned.changed {t : Turn} (h : Listed t.before (before ++ t.node :: after)) (turned : Turned maxClients t l') :
    Changed maxClients t before after := by
  obtain ⟨r, a, received, l, s, out, s'⟩ := t
  dsimp only at h
  cases turned with
  | stayed open' routed =>
    dsimp only at routed
    cases routed with
    | idle | send | ignored => exact .same rfl
    | rejected nak _ _ _ _ removed =>
      obtain ⟨_, removes, shorter, same, _⟩ := removeNode_spec h
      obtain rfl := Option.some.inj (removes.symm.trans removed)
      exact .removed shorter same.top (same.keeps h)
    | admitted ack online usernames asked room unique => exact .named open' asked room unique rfl
  | left _ _ s₁ _ _ _ removed routed =>
    obtain ⟨_, removes, shorter, same, _⟩ := removeNode_spec h
    obtain rfl := Option.some.inj (removes.symm.trans removed)
    have absent := removed_absent h same
    dsimp only at routed absent
    rcases routed.absent shorter absent with rfl | rfl
    · exact .removed shorter same.top (same.keeps h)
    · refine .removed shorter.named same.top fun b member => ?_
      have other : b ≠ a := fun same => absent b member (same ▸ rfl)
      rw [named_other other]
      exact same.keeps h b member

end

end NetProjects.Chat
