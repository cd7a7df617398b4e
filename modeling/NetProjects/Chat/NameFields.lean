import NetProjects.Chat.NameReads

/-!
# Names and their fields

A name is read inside its field when it ends in what has been written there. The `username` of a node has
not been written before its first JOIN is accepted, and that JOIN is compared with it.
-/

namespace NetProjects.Chat
open Bytes Linked

/-- The JOIN leaves a name in `new_name`: it brings one, or an earlier one of the same call did. -/
def EndsInside (l : Locals) (w : Written) (msg : SbcpMsg) : Prop :=
  if msg.attribute0.sbcpAttributeType = AttributeType.username.code then
    0 ∈ msg.attribute0.payload.bytes.take (min 16 (w.buf - 8))
  else 0 ∈ l.newName.bytes.take w.newName

instance (l : Locals) (w : Written) (msg : SbcpMsg) : Decidable (EndsInside l w msg) :=
  inferInstanceAs (Decidable (if msg.attribute0.sbcpAttributeType = AttributeType.username.code then _ else _))

/-- The server prints an empty list, takes what it received for none of its messages, or refuses a JOIN
because it is full. -/
def Visit.OnlyRefuses (maxClients : Int) : Visit → Prop
  | expired s _ => s.clients = []
  | called _ => True
  | turn _ s l _ received w =>
    received.numbytes ≠ 0 ∧ getMsgType (castMsg l.buf) ≠ HeaderType.idle.code ∧
      getMsgType (castMsg l.buf) ≠ HeaderType.send.code ∧
      (getMsgType (castMsg l.buf) = HeaderType.join.code →
        clientCount s - 1 ≥ maxClients ∧ EndsInside l w (castMsg l.buf))

/-- A name that a JOIN brings has a NUL in its first 16 bytes. -/
def BringsName (msg : SbcpMsg) : Prop :=
  getMsgType msg = HeaderType.join.code → msg.attribute0.sbcpAttributeType = AttributeType.username.code →
    0 ∈ msg.attribute0.payload.bytes.take 16

/-- The memory that is got has a NUL in every array, and so has every name that is brought. -/
def Visit.Terminated : Visit → Prop
  | expired _ _ => True
  | called r => 0 ∈ r.newName.bytes ∧ ∀ client ∈ r.accepted, 0 ∈ client.2.bytes
  | turn _ _ l _ _ _ => BringsName (castMsg l.buf)

def Visit.NamesInside (maxClients : Int) (v : Visit) : Prop := ∀ x ∈ v.reads maxClients, x.Inside

/-- No client has a name yet; the node of the listening socket has one. -/
structure Unnamed (s : Server) (w : Written) : Prop where
  clients : ∀ b ∈ s.clients, w.username b = 0
  head : (w.name s s.listenFd).Inside

/-- Every node has a NUL in its name. -/
def NamesTerminated (s : Server) : Prop := ∀ b < s.nodes.top, 0 ∈ (s.nodes.cell b).username.bytes

section

variable {maxClients : Int} {s s' : Server} {r : Round} {l l' : Locals} {w w' : Written} {a b c : Nat} {xs rest : List Nat}
  {received : Received} {msg : SbcpMsg} {out : List Action} {newName : CharArray 16}

/-! ### One visit -/

theorem not_inside_of_unwritten (unwritten : w.username a = 0) : ¬ (w.name s a).Inside := by
  intro inside
  have inside : 0 ∈ (s.nodes.cell a).username.bytes.take (w.username a) := inside
  rw [unwritten, List.take_zero] at inside
  cases inside

theorem given_inside_iff : ((w.parse msg).given (parseMsgJoin msg l.newName)).Inside ↔ EndsInside l w msg := by
  unfold NameRead.Inside EndsInside
  by_cases username : msg.attribute0.sbcpAttributeType = AttributeType.username.code
  · have copied : (parseMsgJoin msg l.newName).bytes = msg.attribute0.payload.bytes.take 16 := by
      rw [parseMsgJoin, if_pos username]
      rfl
    have count : (w.parse msg).newName = min 16 (w.buf - 8) := by rw [Written.parse, if_pos username]
    rw [if_pos username]
    change 0 ∈ (parseMsgJoin msg l.newName).bytes.take (w.parse msg).newName ↔ _
    rw [copied, count, List.take_take, Nat.min_eq_left (Nat.min_le_left _ _)]
  · rw [if_neg username, Written.parse, if_neg username, parseMsgJoin, if_neg username]
    rfl

theorem head_compared : c ∈ comparedNames s r newName (c :: rest) := by
  rw [comparedNames]
  split
  · exact List.mem_cons_self
  · exact List.mem_cons_self

/-- A JOIN is compared with the name of the first client, unless the server is full. -/
theorem joinReads_inside_iff (unnamed : Unnamed s w) (member : a ∈ s.clients) :
    (∀ x ∈ joinReads maxClients r s l w msg, x.Inside) ↔ clientCount s - 1 ≥ maxClients ∧ EndsInside l w msg := by
  unfold joinReads
  by_cases full : clientCount s - 1 ≥ maxClients
  · simp only [if_pos full, List.forall_mem_singleton, given_inside_iff]
    exact (and_iff_right full).symm
  · simp only [if_neg full]
    refine iff_of_false (fun inside => ?_) fun refused => full refused.1
    obtain ⟨c, rest, clients⟩ := List.exists_cons_of_ne_nil (List.ne_nil_of_mem member)
    have first : c ∈ s.clients := clients ▸ List.mem_cons_self
    have compared : c ∈ comparedNames s r (parseMsgJoin msg l.newName) s.clients := by
      rw [clients]
      exact head_compared
    have unwritten : (w.parse msg).username c = 0 := by
      unfold Written.parse
      split
      · exact unnamed.clients c first
      · exact unnamed.clients c first
    exact not_inside_of_unwritten unwritten (inside _ (List.mem_cons_of_mem _ (List.mem_map_of_mem compared)))

theorem turn_inside_iff (unnamed : Unnamed s w) (member : a ∈ s.clients) :
    (Visit.turn r s l a received w).NamesInside maxClients ↔ (Visit.turn r s l a received w).OnlyRefuses maxClients := by
  have own : ¬ (w.name s a).Inside := not_inside_of_unwritten (unnamed.clients a member)
  unfold Visit.NamesInside Visit.reads
  dsimp only
  by_cases ended : received.numbytes = 0
  · rw [if_pos ended]
    exact iff_of_false (fun inside => own (inside _ List.mem_cons_self)) fun refuses => refuses.1 ended
  rw [if_neg ended]
  unfold messageReads
  by_cases idle : getMsgType (castMsg l.buf) = HeaderType.idle.code
  · simp only [if_pos idle]
    exact iff_of_false (fun inside => own (inside _ List.mem_cons_self)) fun refuses => refuses.2.1 idle
  by_cases send : getMsgType (castMsg l.buf) = HeaderType.send.code
  · simp only [if_neg idle, if_pos send]
    exact iff_of_false (fun inside => own (inside _ List.mem_cons_self)) fun refuses => refuses.2.2.1 send
  by_cases join : getMsgType (castMsg l.buf) = HeaderType.join.code
  · simp only [if_neg idle, if_neg send, if_pos join, joinReads_inside_iff unnamed member]
    exact ⟨fun refused => ⟨ended, idle, send, fun _ => refused⟩, fun refuses => refuses.2.2.2 join⟩
  · simp only [if_neg idle, if_neg send, if_neg join]
    exact iff_of_true nofun ⟨ended, idle, send, fun asked => absurd asked join⟩

theorem expired_inside_iff (unnamed : Unnamed s w) :
    (Visit.expired s w).NamesInside maxClients ↔ (Visit.expired s w).OnlyRefuses maxClients := by
  constructor
  · intro inside
    have inside : ∀ x ∈ (s.listenFd :: s.clients).map (w.name s), x.Inside := inside
    apply List.eq_nil_iff_forall_not_mem.mpr
    intro b member
    exact not_inside_of_unwritten (unnamed.clients b member)
      (inside _ (List.mem_map_of_mem (List.mem_cons_of_mem _ member)))
  · intro empty x member
    have empty : s.clients = [] := empty
    rw [Visit.reads, empty, List.map_singleton, List.mem_singleton] at member
    rw [member]
    exact unnamed.head

/-! ### What a visit leaves -/

theorem Unnamed.congr (unnamed : Unnamed s w) (head : s'.listenFd = s.listenFd)
    (array : (s'.nodes.cell s.listenFd).username = (s.nodes.cell s.listenFd).username)
    (fewer : ∀ b ∈ s'.clients, b ∈ s.clients) (same : w'.username = w.username) : Unnamed s' w' := by
  refine ⟨fun b member => ?_, ?_⟩
  · rw [same]
    exact unnamed.clients b (fewer b member)
  · have inside : 0 ∈ (s.nodes.cell s.listenFd).username.bytes.take (w.username s.listenFd) := unnamed.head
    change 0 ∈ (s'.nodes.cell s'.listenFd).username.bytes.take (w'.username s'.listenFd)
    rwa [head, array, same]

theorem recv_username : (w.recv received).username = w.username := by cases received <;> rfl

theorem turn_username (refuses : (Visit.turn r s l a received w).OnlyRefuses maxClients) :
    (w.turn maxClients r s l a received).username = w.username := by
  obtain ⟨open', _, _, refused⟩ := refuses
  rw [Written.turn, if_neg open', Written.route]
  by_cases join : getMsgType (castMsg l.buf) = HeaderType.join.code
  · simp only [if_pos join, if_pos (Or.inl (refused join).1 : clientCount s - 1 ≥ maxClients ∨ _)]
    change (w.parse (castMsg l.buf)).username = w.username
    unfold Written.parse
    split <;> rfl
  · simp only [if_neg join]

/-- A turn that only refuses names nobody. -/
theorem Unnamed.turn {before after : List Nat} (unnamed : Unnamed s w) (listed : Listed s (before ++ a :: after))
    (refuses : (Visit.turn r s (l.read received) a received (w.recv received)).OnlyRefuses maxClients)
    (turned : turn maxClients r s l a received = some (s', l', out)) :
    Unnamed s' ((w.recv received).turn maxClients r s (l.read received) a received) := by
  have username := (turn_username refuses).trans recv_username
  obtain ⟨open', notIdle, notSend, refused⟩ := refuses
  rw [turn_of_open _ _ _ _ _ open'] at turned
  cases routeMessage_cases turned with
  | idle msg asked => exact absurd asked notIdle
  | send msg asked => exact absurd asked notSend
  | ignored => exact unnamed.congr rfl rfl (fun b member => member) username
  | admitted ack online usernames asked room =>
    have full := (refused asked).1
    omega
  | rejected nak s' asked _ _ removed =>
    obtain ⟨_, removes, shorter, same, _⟩ := removeNode_spec listed
    obtain rfl := Option.some.inj (removes.symm.trans removed)
    apply unnamed.congr same.listenFd (same.username _ (listed.allocated _ List.mem_cons_self)) _ username
    intro b member
    rw [shorter.clients_eq] at member
    exact (listed.mem_others.mp member).1

/-- The node of a new client has no name, and the others keep theirs. -/
theorem Unnamed.select (unnamed : Unnamed s w) (listed : Listed s xs) (valid : r.valid s)
    (accepts : acceptClient r s = some s') : Unnamed s' (w.call r s) := by
  have old : ∀ b < s.nodes.top, (w.call r s).username b = w.username b := by
    intro b lower
    unfold Written.call
    dsimp only
    split
    · exact Function.update_of_ne (Nat.ne_of_lt lower) _ _
    · rfl
  have headLower := listed.allocated s.listenFd List.mem_cons_self
  have clients := listed.clients_eq
  obtain ⟨s₁, ys, accepted, longer, change⟩ := acceptClient_spec listed valid
  obtain rfl := Option.some.inj (accepted.symm.trans accepts)
  have inside : 0 ∈ (s.nodes.cell s.listenFd).username.bytes.take (w.username s.listenFd) := unnamed.head
  rcases change with rfl | ⟨rfl, same, top, _⟩
  · refine ⟨fun b member => ?_, ?_⟩
    · rw [old b (listed.allocated b (List.mem_cons_of_mem _ (clients ▸ member)))]
      exact unnamed.clients b member
    · change 0 ∈ (s₁.nodes.cell s₁.listenFd).username.bytes.take ((w.call r s₁).username s₁.listenFd)
      rwa [old _ headLower]
  · refine ⟨fun b member => ?_, ?_⟩
    · rw [longer.clients_eq, List.mem_append, List.mem_singleton] at member
      rcases member with member | rfl
      · rw [old b (listed.allocated b (List.mem_cons_of_mem _ member))]
        exact unnamed.clients b (clients ▸ member)
      · have arrived : r.accepted.isSome := by
          cases none : r.accepted with
          | some client => rfl
          | none =>
            rw [acceptClient, none] at accepts
            obtain rfl := Option.some.inj accepts
            omega
        unfold Written.call
        dsimp only
        rw [if_pos arrived, Function.update_self]
    · change 0 ∈ (s₁.nodes.cell s₁.listenFd).username.bytes.take ((w.call r s).username s₁.listenFd)
      rwa [same.listenFd, same.username _ headLower, old _ headLower]

/-! ### Names with a NUL, whatever the memory held -/

theorem removeNodeLoop_setNext {nodes nodes' : Heap SocketFd} {fd : Int} {next : Option Nat} {fuel h : Nat}
    (removed : removeNodeLoop nodes fd next fuel h = some nodes') : ∃ p, nodes' = setNext nodes p next := by
  induction fuel generalizing h with
  | zero => cases removed
  | succ fuel ih =>
    obtain ⟨b, _, removed⟩ := Option.bind_eq_some_iff.mp removed
    split at removed
    · exact ⟨h, (Option.some.inj removed).symm⟩
    · exact ih removed

theorem removeNode_same (removed : removeNode s a = some s') : SameNodes s s' := by
  obtain ⟨nodes, loop, same⟩ := Option.bind_eq_some_iff.mp removed
  obtain rfl := Option.some.inj same
  obtain ⟨p, rfl⟩ := removeNodeLoop_setNext loop
  refine ⟨⟨rfl, fun b _ => ?_, fun b _ => ?_, fun b _ => ?_⟩, rfl⟩
  · exact setNext_fd _ _ _ _
  · exact setNext_username _ _ _ _
  · exact setNext_acked _ _ _ _

theorem NamesTerminated.removed (names : NamesTerminated s) (removed : removeNode s a = some s') :
    NamesTerminated s' := by
  have same := removeNode_same removed
  intro b lower
  rw [same.top] at lower
  rw [same.username b lower]
  exact names b lower

theorem NamesTerminated.accepted (names : NamesTerminated s) (given : ∀ client ∈ r.accepted, 0 ∈ client.2.bytes)
    (accepts : acceptClient r s = some s') : NamesTerminated s' := by
  cases accepted : r.accepted with
  | none =>
    rw [acceptClient, accepted] at accepts
    obtain rfl := Option.some.inj accepts
    exact names
  | some client =>
    rw [acceptClient, accepted] at accepts
    obtain ⟨last, _, appended⟩ := Option.bind_eq_some_iff.mp accepts
    obtain rfl := Option.some.inj appended
    intro b lower
    rw [setNext_username]
    have lower : b < s.nodes.top + 1 := lower
    by_cases new : b = s.nodes.top
    · rw [new, Heap.alloc_cell_top]
      exact given client accepted
    · rw [Heap.alloc_cell_old _ (by omega)]
      exact names b (by omega)

theorem parseMsgJoin_ends (given : 0 ∈ newName.bytes)
    (brings : msg.attribute0.sbcpAttributeType = AttributeType.username.code →
      0 ∈ msg.attribute0.payload.bytes.take 16) : 0 ∈ (parseMsgJoin msg newName).bytes := by
  unfold parseMsgJoin
  split
  · exact brings ‹_›
  · exact given

theorem NamesTerminated.routed (names : NamesTerminated s) (given : 0 ∈ l.newName.bytes)
    (brings : BringsName (castMsg l.buf)) (routed : Routed maxClients r s l a s' l' out) :
    NamesTerminated s' ∧ 0 ∈ l'.newName.bytes := by
  cases routed with
  | idle | send | ignored => exact ⟨names, given⟩
  | rejected nak _ asked _ _ removed => exact ⟨names.removed removed, parseMsgJoin_ends given (brings asked)⟩
  | admitted ack online usernames asked =>
    have newName := parseMsgJoin_ends given (brings asked)
    refine ⟨fun b lower => ?_, newName⟩
    by_cases named : b = a
    · rw [named, named_self.1]
      exact newName
    · rw [named_other named]
      exact names b lower

theorem NamesTerminated.turned (names : NamesTerminated s) (given : 0 ∈ l.newName.bytes)
    (brings : BringsName (castMsg (l.read received).buf))
    (turned : turn maxClients r s l a received = some (s', l', out)) : NamesTerminated s' ∧ 0 ∈ l'.newName.bytes := by
  have given : 0 ∈ (l.read received).newName.bytes := given
  cases turn_cases turned with
  | stayed _ routed => exact names.routed given brings routed
  | left _ _ s₁ _ _ _ removed routed => exact (names.removed removed).routed given brings routed

theorem comparedNames_subset {xs : List Nat} : comparedNames s r newName xs ⊆ xs := by
  induction xs with
  | nil => exact List.Subset.refl _
  | cons c rest ih =>
    rw [comparedNames]
    split
    · exact List.cons_subset_cons c (List.nil_subset rest)
    · exact List.cons_subset_cons c ih

theorem messageReads_terminated (names : NamesTerminated s) (given : 0 ∈ l.newName.bytes)
    (brings : BringsName (castMsg l.buf)) (inList : ∀ b ∈ s.clients, b < s.nodes.top) (lower : a < s.nodes.top) :
    ∀ x ∈ messageReads maxClients r s l a w, 0 ∈ x.array.bytes := by
  have own : ∀ x ∈ [w.name s a], 0 ∈ x.array.bytes := List.forall_mem_singleton.mpr (names a lower)
  unfold messageReads
  dsimp only
  split
  · exact own
  split
  · exact own
  split
  · rename_i asked
    have newName := parseMsgJoin_ends given (brings asked)
    unfold joinReads
    dsimp only
    split
    · exact List.forall_mem_singleton.mpr newName
    · refine List.forall_mem_cons.mpr ⟨newName, fun x member => ?_⟩
      obtain ⟨b, compared, rfl⟩ := List.mem_map.mp member
      exact names b (inList b (comparedNames_subset compared))
  · exact nofun

theorem expiredReads_terminated (listed : Listed s xs) (names : NamesTerminated s) :
    ∀ x ∈ (Visit.expired s w).reads maxClients, 0 ∈ x.array.bytes := by
  intro x member
  have member : x ∈ (s.listenFd :: s.clients).map (w.name s) := member
  rw [listed.clients_eq] at member
  obtain ⟨b, inside, rfl⟩ := List.mem_map.mp member
  exact names b (listed.allocated b inside)

theorem turnReads_terminated {before after : List Nat} (listed : Listed s (before ++ a :: after))
    (names : NamesTerminated s) (given : 0 ∈ l.newName.bytes) (brings : BringsName (castMsg l.buf)) :
    ∀ x ∈ (Visit.turn r s l a received w).reads maxClients, 0 ∈ x.array.bytes := by
  have lower : a < s.nodes.top := listed.allocated a (by simp)
  unfold Visit.reads
  dsimp only
  split
  · refine List.forall_mem_cons.mpr ⟨names a lower, ?_⟩
    obtain ⟨s', removed, shorter, same, _⟩ := removeNode_spec listed
    rw [removed]
    apply messageReads_terminated (names.removed removed) given brings shorter.clients_lt
    rwa [same.top]
  · exact messageReads_terminated names given brings listed.clients_lt lower

end

/-! ### Runs -/

section

variable {maxClients sockfd : Int} {memory : CharArray 16} {visits : List Visit} {state : Option Watch}

theorem start_unnamed (sockfd : Int) (memory : CharArray 16) : Unnamed (startServer sockfd memory) .start := by
  constructor
  · rw [startServer, (start_listed sockfd _).clients_eq]
    nofun
  · change 0 ∈ (memory.fill (cstr "server" ++ [0])).bytes.take 7
    rw [CharArray.bytes_fill (by decide), List.take_left' (by decide)]
    decide

/-- A run has read its names inside their fields exactly when it has only refused, and nobody has a name then. -/
theorem Watched.inside_iff (watched : Watched maxClients (startServer sockfd memory) visits state) :
    ((∀ v ∈ visits, v.NamesInside maxClients) ↔ ∀ v ∈ visits, v.OnlyRefuses maxClients) ∧
      ((∀ v ∈ visits, v.OnlyRefuses maxClients) → ∀ x, state = some x → Unnamed x.server x.written) := by
  induction watched with
  | start =>
    refine ⟨iff_of_true nofun nofun, fun _ x alive => ?_⟩
    obtain rfl := Option.some.inj alive
    exact start_unnamed sockfd memory
  | expire before ih =>
    obtain ⟨same, unnamed⟩ := ih
    simp only [List.forall_mem_append, List.forall_mem_singleton, same]
    constructor
    · exact and_congr_right fun earlier => expired_inside_iff (unnamed earlier _ rfl)
    · rintro ⟨earlier, _⟩ x alive
      exact unnamed earlier x alive
  | select before valid accepts ih =>
    obtain ⟨same, unnamed⟩ := ih
    simp only [List.forall_mem_append, List.forall_mem_singleton, same]
    refine ⟨and_congr_right fun _ => iff_of_true nofun trivial, ?_⟩
    rintro ⟨earlier, _⟩ x alive
    obtain rfl := Option.some.inj alive
    obtain ⟨turns, run⟩ := before.run rfl
    obtain ⟨xs, listed⟩ := Run.listed run
    exact (unnamed earlier _ rfl).select listed valid accepts
  | skip before quiet ih =>
    obtain ⟨same, unnamed⟩ := ih
    refine ⟨same, fun earlier x alive => ?_⟩
    have kept := unnamed earlier _ rfl
    obtain rfl := Option.some.inj alive
    exact kept
  | @turn visits s w r l a received before ready ih =>
    obtain ⟨same, unnamed⟩ := ih
    obtain ⟨turns, run⟩ := before.run rfl
    obtain ⟨xs, ys, listed⟩ := Run.at_node run
    simp only [List.forall_mem_append, List.forall_mem_singleton, same]
    constructor
    · refine and_congr_right fun earlier => ?_
      have received : Unnamed s (w.recv received) :=
        (unnamed earlier _ rfl).congr rfl rfl (fun b member => member) recv_username
      exact turn_inside_iff received listed.mem_clients
    · rintro ⟨earlier, refuses⟩ x alive
      obtain ⟨⟨s', l', out⟩, turned, rfl⟩ := Option.map_eq_some_iff.mp alive
      exact (unnamed earlier _ rfl).turn listed refuses turned
  | finish before ih =>
    obtain ⟨same, unnamed⟩ := ih
    refine ⟨same, fun earlier x alive => ?_⟩
    have kept := unnamed earlier _ rfl
    obtain rfl := Option.some.inj alive
    exact kept

theorem start_terminated (sockfd : Int) (memory : CharArray 16) : NamesTerminated (startServer sockfd memory) := by
  intro b lower
  have lower : b < 1 := lower
  obtain rfl : b = 0 := by omega
  change 0 ∈ (memory.fill (cstr "server" ++ [0])).bytes
  rw [CharArray.bytes_fill (by decide)]
  exact List.mem_append_left _ (by decide)

/-- A router that is at work has a NUL in `new_name`. -/
def NewNameTerminated (routing : Option Routing) : Prop := ∀ x ∈ routing, 0 ∈ x.locals.newName.bytes

theorem Watched.terminated (watched : Watched maxClients (startServer sockfd memory) visits state)
    (given : ∀ v ∈ visits, v.Terminated) :
    (∀ v ∈ visits, ∀ x ∈ v.reads maxClients, 0 ∈ x.array.bytes) ∧
      ∀ x ∈ state, NamesTerminated x.server ∧ NewNameTerminated x.routing := by
  induction watched with
  | start =>
    refine ⟨nofun, fun x alive => ?_⟩
    obtain rfl := Option.some.inj alive
    exact ⟨start_terminated sockfd memory, nofun⟩
  | @expire visits s w before ih =>
    simp only [List.forall_mem_append, List.forall_mem_singleton] at given ⊢
    obtain ⟨earlier, kept⟩ := ih given.1
    obtain ⟨names, _⟩ := kept _ rfl
    obtain ⟨turns, run⟩ := before.run rfl
    obtain ⟨xs, listed⟩ := Run.listed run
    exact ⟨⟨earlier, expiredReads_terminated listed names⟩, kept⟩
  | select before valid accepts ih =>
    simp only [List.forall_mem_append, List.forall_mem_singleton] at given ⊢
    obtain ⟨earlier, kept⟩ := ih given.1
    obtain ⟨newName, client⟩ := given.2
    refine ⟨⟨earlier, nofun⟩, fun x alive => ?_⟩
    obtain ⟨names, _⟩ := kept _ rfl
    obtain rfl := Option.some.inj alive
    refine ⟨names.accepted client accepts, fun routing here => ?_⟩
    obtain rfl := Option.some.inj here
    exact newName
  | skip before quiet ih =>
    obtain ⟨earlier, kept⟩ := ih given
    obtain ⟨names, newName⟩ := kept _ rfl
    have newName := newName _ rfl
    refine ⟨earlier, fun x alive => ?_⟩
    obtain rfl := Option.some.inj alive
    refine ⟨names, fun routing here => ?_⟩
    obtain rfl := Option.some.inj here
    exact newName
  | @turn visits s w r l a received before ready ih =>
    simp only [List.forall_mem_append, List.forall_mem_singleton] at given ⊢
    obtain ⟨earlier, kept⟩ := ih given.1
    obtain ⟨names, newName⟩ := kept _ rfl
    have newName : 0 ∈ l.newName.bytes := newName _ rfl
    obtain ⟨turns, run⟩ := before.run rfl
    obtain ⟨xs, ys, listed⟩ := Run.at_node run
    refine ⟨⟨earlier, turnReads_terminated listed names newName given.2⟩, fun x alive => ?_⟩
    obtain ⟨⟨s', l', out⟩, turned, rfl⟩ := Option.map_eq_some_iff.mp alive
    obtain ⟨names, newName⟩ := names.turned newName given.2 turned
    refine ⟨names, fun routing here => ?_⟩
    obtain rfl := Option.some.inj here
    exact newName
  | finish before ih =>
    obtain ⟨earlier, kept⟩ := ih given
    obtain ⟨names, _⟩ := kept _ rfl
    refine ⟨earlier, fun x alive => ?_⟩
    obtain rfl := Option.some.inj alive
    exact ⟨names, nofun⟩

end

/-- Every name that is read ends in what has been written of its field exactly when the server only refuses.
With a NUL in the memory that is got and in the names that are brought no string goes on behind its field. -/
theorem names_inside_iff {maxClients sockfd : Int} {memory : CharArray 16} {visits : List Visit} {state : Option Watch}
    (watched : Watched maxClients (startServer sockfd memory) visits state) :
    ((∀ v ∈ visits, v.NamesInside maxClients) ↔ ∀ v ∈ visits, v.OnlyRefuses maxClients) ∧
      ((∀ v ∈ visits, v.Terminated) → ∀ v ∈ visits, ∀ x ∈ v.reads maxClients, ∀ behind,
        cstring (x.array.bytes ++ behind) = cstring x.array.bytes) := by
  refine ⟨watched.inside_iff.1, fun given v visited x member behind => ?_⟩
  exact cstring_append ((watched.terminated given).1 v visited x member)

/-- With two connections a server for one client refuses a JOIN, and reads the new name only. -/
theorem names_inside_refused : ∃ visits state, Watched 1 (startServer 3 (.zero 16)) visits state ∧
    visits.length = 4 ∧ ∀ v ∈ visits, v.NamesInside 1 := by
  have quiet : Watched 1 (startServer 3 (.zero 16)) [] _ := .start
  have first := ((quiet.select (r := .accept 4) (by decide) rfl).skip (a := 1) rfl).finish
  have second := (((first.select (r := .accept 5) (by decide) rfl).skip (a := 1) rfl).skip (a := 2) rfl).finish
  have called := second.select (r := .receive [(4, .data (joinMsg 65).bytes)]) (by decide) rfl
  have refused := called.turn (a := 1) rfl
  refine ⟨_, _, refused, rfl, (names_inside_iff refused).1.mpr ?_⟩
  simp only [List.forall_mem_append, List.forall_mem_singleton]
  refine ⟨⟨⟨⟨nofun, trivial⟩, trivial⟩, trivial⟩, ?_⟩
  unfold Visit.OnlyRefuses
  dsimp only
  rw [castMsg_data]
  refine ⟨data_open _, by decide, by decide, fun _ => ⟨by decide +kernel, ?_⟩⟩
  decide +kernel

/-- A JOIN with 16 characters and no NUL behind them. -/
def longJoin : SbcpMsg :=
  { SbcpMsg.ofType .join with
    attribute0 := { sbcpAttributeType := AttributeType.username.code, len := 16,
                    payload := (CharArray.zero 512).fill (List.replicate 16 65) } }

/-- One client joins under the long name and is idle. Behind the field of its name the memory holds 1, 2, 3, 4. -/
def longName : List Round :=
  let behind (r : Round) : Round :=
    { r with afterUsername := fun _ => { bytes := [1, 2, 3, 4, 0], short := by decide, terminated := by decide } }
  [.accept 4, .accept 5, behind (.receive [(4, .data longJoin.bytes)]), behind (.receive [(4, .data makeMsgIdleC.bytes)])]

/-- The name is read, and sent to the other client, with what is behind its field. -/
theorem long_name_sent : ∃ turns s visits w, Run 2 (startServer 3 (.zero 16)) turns s none ∧
    Watched 2 (startServer 3 (.zero 16)) visits (some ⟨s, none, w⟩) ∧
    (∃ t ∈ turns, ∃ msg, .write 2 msg ∈ t.actions ∧ getMsgType msg = HeaderType.idle.code ∧
      msg.attribute0.payload.bytes.take 20 = List.replicate 16 65 ++ [1, 2, 3, 4]) ∧
    ¬ ∀ v ∈ visits, v.NamesInside 2 := by
  have served : (serve 2 longName (startServer 3 (.zero 16))).map (fun x => x.2.any fun t =>
      decide (t.received.numbytes ≠ 0 ∧ getMsgType (castMsg t.locals.buf) = HeaderType.idle.code ∧
        0 ∉ (t.before.nodes.cell t.node).username.bytes) &&
      (makeMsgIdleS (usernameView t.before t.round t.node) 20).any fun msg =>
        decide (.write 2 msg ∈ t.actions ∧ getMsgType msg = HeaderType.idle.code ∧
          msg.attribute0.payload.bytes.take 20 = List.replicate 16 65 ++ [1, 2, 3, 4])) = some true := by
    decide +kernel
  obtain ⟨⟨s, turns⟩, done, found⟩ := Option.map_eq_some_iff.mp served
  obtain ⟨t, member, found⟩ := List.any_eq_true.mp found
  obtain ⟨here, sent⟩ := Bool.and_eq_true_iff.mp found
  obtain ⟨open', idle, endless⟩ := of_decide_eq_true here
  obtain ⟨msg, _, sent⟩ := (Option.any_eq_true _ _).mp sent
  have run := serve_run .start done
  obtain ⟨visits, w, watched, visited⟩ := run.watched
  refine ⟨turns, s, visits, w, run, watched, ⟨t, member, msg, of_decide_eq_true sent⟩, fun inside => ?_⟩
  obtain ⟨w', visit⟩ := visited t member
  have reads : (Visit.turn t.round t.before t.locals t.node t.received w').reads 2 = [w'.name t.before t.node] := by
    rw [Visit.reads, if_neg open', messageReads]
    exact if_pos idle
  have own : (w'.name t.before t.node).Inside := inside _ visit _ (by rw [reads]; exact List.mem_cons_self)
  exact endless (List.mem_of_mem_take own)

end NetProjects.Chat
