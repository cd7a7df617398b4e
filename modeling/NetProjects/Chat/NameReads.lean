import NetProjects.Chat.Runs

/-!
# The names the server reads

Every name that `strcmp`, `strlen` or a `%s` reads, with how much of its array has been written by then,
along the runs of the server and the prints of its list between the rounds.
-/

namespace NetProjects.Chat
open Bytes Linked

/-- An array that is read as a string, of which the first `written` bytes have been written. -/
structure NameRead where
  array : CharArray 16
  written : Nat

/-- The string ends in what has been written of the array. -/
def NameRead.Inside (x : NameRead) : Prop := 0 ∈ x.array.bytes.take x.written

/-- Ghost: how many bytes have been written, from the front on, since the memory was got. -/
structure Written where
  /-- Of the `username` of each node. -/
  username : Nat → Nat
  newName : Nat
  buf : Nat

/-- The node `a` and the local arrays are read with what has been written of them. -/
def Written.name (w : Written) (s : Server) (a : Nat) : NameRead :=
  { array := (s.nodes.cell a).username, written := w.username a }

def Written.given (w : Written) (newName : CharArray 16) : NameRead := { array := newName, written := w.newName }

/-! ### The server before its loop -/

/-- `main`: "server" is copied into the node of the listening socket. -/
def startServer (sockfd : Int) (memory : CharArray 16) : Server := .start sockfd (memory.fill (cstr "server" ++ [0]))

def Written.start : Written := { username := Function.update (fun _ => 0) 0 7, newName := 0, buf := 0 }

/-! ### What is written -/

/-- A call of `msg_router` has new arrays. Of the name of a new client `strlen("")` bytes are copied. -/
def Written.call (w : Written) (r : Round) (s : Server) : Written :=
  { username := if r.accepted.isSome then Function.update w.username s.nodes.top 0 else w.username
    newName := 0
    buf := 0 }

def Written.recv (w : Written) : Received → Written
  | .data bytes => { w with buf := max w.buf (bytes.take (maxDataSize - 1)).length }
  | .error => w

/-- `parse_msg_join` copies 16 bytes of the payload, which is eight bytes into the buffer. -/
def Written.parse (w : Written) (msg : SbcpMsg) : Written :=
  if msg.attribute0.sbcpAttributeType = AttributeType.username.code then { w with newName := min 16 (w.buf - 8) }
  else w

/-- An answer is copied into the buffer before it is sent. -/
def Written.answer (w : Written) : Written := { w with buf := max w.buf msgSize }

def Written.route (maxClients : Int) (r : Round) (s : Server) (l : Locals) (a : Nat) (w : Written) : Written :=
  let msg := castMsg l.buf
  if getMsgType msg = HeaderType.join.code then
    let w := w.parse msg
    if clientCount s - 1 ≥ maxClients ∨ isDuplicateName s r (parseMsgJoin msg l.newName) then w.answer
    else { w.answer with username := Function.update w.username a w.newName }
  else w

/-- The turn of a client, after `recv`. -/
def Written.turn (maxClients : Int) (r : Round) (s : Server) (l : Locals) (a : Nat) (received : Received) (w : Written) :
    Written :=
  if received.numbytes = 0 then (removeNode s a).elim w fun s' => w.route maxClients r s' l a
  else w.route maxClients r s l a

/-! ### What is read -/

/-- The nodes whose names `is_duplicate_name` compares: up to the first one that is the same. -/
def comparedNames (s : Server) (r : Round) (newName : CharArray 16) : List Nat → List Nat
  | [] => []
  | a :: rest =>
    if cstring (usernameView s r a) = cstring (newNameView r newName) then [a] else a :: comparedNames s r newName rest

/-- `new_name` is printed, compared with the names in the list unless the server is full, and printed again. -/
def joinReads (maxClients : Int) (r : Round) (s : Server) (l : Locals) (w : Written) (msg : SbcpMsg) : List NameRead :=
  let newName := parseMsgJoin msg l.newName
  let w := w.parse msg
  if clientCount s - 1 ≥ maxClients then [w.given newName]
  else w.given newName :: (comparedNames s r newName s.clients).map (w.name s)

/-- The buffer is taken for a message of the client `a`. -/
def messageReads (maxClients : Int) (r : Round) (s : Server) (l : Locals) (a : Nat) (w : Written) : List NameRead :=
  let msg := castMsg l.buf
  if getMsgType msg = HeaderType.idle.code then [w.name s a]
  else if getMsgType msg = HeaderType.send.code then [w.name s a]
  else if getMsgType msg = HeaderType.join.code then joinReads maxClients r s l w msg
  else []

/-- A place of the run where names are read, with the memory at its start. -/
inductive Visit where
  /-- `print_nodes`, when the timer of `select` expires. -/
  | expired (s : Server) (w : Written)
  /-- The call of `msg_router`, with the memory its arrays are got from. -/
  | called (r : Round)
  /-- The turn of a client, after `recv`. -/
  | turn (r : Round) (s : Server) (l : Locals) (a : Nat) (received : Received) (w : Written)

def Visit.reads (maxClients : Int) : Visit → List NameRead
  | expired s w => (s.listenFd :: s.clients).map (w.name s)
  | called _ => []
  | turn r s l a received w =>
    if received.numbytes = 0 then
      w.name s a :: (removeNode s a).elim [] fun s' => messageReads maxClients r s' l a w
    else messageReads maxClients r s l a w

/-! ### Runs -/

structure Watch where
  server : Server
  routing : Option Routing
  written : Written

/-- The runs of the server with what they visit; `none` behind a turn that does not come back. -/
inductive Watched (maxClients : Int) (init : Server) : List Visit → Option Watch → Prop
  | start : Watched maxClients init [] (some ⟨init, none, .start⟩)
  | expire {visits : List Visit} {s : Server} {w : Written} (before : Watched maxClients init visits (some ⟨s, none, w⟩)) :
      Watched maxClients init (visits ++ [.expired s w]) (some ⟨s, none, w⟩)
  | select {visits : List Visit} {s s' : Server} {w : Written} {r : Round}
      (before : Watched maxClients init visits (some ⟨s, none, w⟩)) (valid : r.valid s)
      (accepts : acceptClient r s = some s') :
      Watched maxClients init (visits ++ [.called r])
        (some ⟨s', some { round := r, locals := r.locals, node := (s'.nodes.cell s'.listenFd).next }, w.call r s⟩)
  | skip {visits : List Visit} {s : Server} {w : Written} {r : Round} {l : Locals} {a : Nat}
      (before : Watched maxClients init visits (some ⟨s, some { round := r, locals := l, node := some a }, w⟩))
      (quiet : r.received (s.nodes.cell a).fd = none) :
      Watched maxClients init visits
        (some ⟨s, some { round := r, locals := l, node := (s.nodes.cell a).next }, w⟩)
  | turn {visits : List Visit} {s : Server} {w : Written} {r : Round} {l : Locals} {a : Nat} {received : Received}
      (before : Watched maxClients init visits (some ⟨s, some { round := r, locals := l, node := some a }, w⟩))
      (ready : r.received (s.nodes.cell a).fd = some received) :
      Watched maxClients init (visits ++ [.turn r s (l.read received) a received (w.recv received)])
        ((turn maxClients r s l a received).map fun x =>
          ⟨x.1, some { round := r, locals := x.2.1, node := (x.1.nodes.cell a).next },
            (w.recv received).turn maxClients r s (l.read received) a received⟩)
  | finish {visits : List Visit} {s : Server} {w : Written} {r : Round} {l : Locals}
      (before : Watched maxClients init visits (some ⟨s, some { round := r, locals := l, node := none }, w⟩)) :
      Watched maxClients init visits (some ⟨s, none, w⟩)

section

variable {maxClients : Int} {init s : Server} {turns : List Turn} {visits : List Visit} {routing : Option Routing}

/-- Behind the visits stands a run of the server. -/
theorem Watched.run {x : Watch} {state : Option Watch} (watched : Watched maxClients init visits state)
    (alive : state = some x) : ∃ turns, Run maxClients init turns x.server x.routing := by
  induction watched generalizing x with
  | start =>
    obtain rfl := Option.some.inj alive
    exact ⟨[], .start⟩
  | expire before ih =>
    obtain rfl := Option.some.inj alive
    exact ih rfl
  | select before valid accepts ih =>
    obtain rfl := Option.some.inj alive
    obtain ⟨turns, run⟩ := ih rfl
    exact ⟨turns, run.select valid accepts⟩
  | skip before quiet ih =>
    obtain rfl := Option.some.inj alive
    obtain ⟨turns, run⟩ := ih rfl
    exact ⟨turns, run.skip quiet⟩
  | turn before ready ih =>
    obtain ⟨turns, run⟩ := ih rfl
    obtain ⟨⟨s', l', out⟩, turned, rfl⟩ := Option.map_eq_some_iff.mp alive
    exact ⟨_, run.turn ready turned⟩
  | finish before ih =>
    obtain rfl := Option.some.inj alive
    obtain ⟨turns, run⟩ := ih rfl
    exact ⟨turns, run.finish⟩

/-- Every run of the server is watched, and every turn of it visited. -/
theorem Run.watched (run : Run maxClients init turns s routing) :
    ∃ visits w, Watched maxClients init visits (some ⟨s, routing, w⟩) ∧
      ∀ t ∈ turns, ∃ w, .turn t.round t.before t.locals t.node t.received w ∈ visits := by
  induction run with
  | start => exact ⟨[], .start, .start, nofun⟩
  | select run valid accepts ih =>
    obtain ⟨visits, w, watched, visited⟩ := ih
    refine ⟨_, _, watched.select valid accepts, fun t member => ?_⟩
    obtain ⟨w', inside⟩ := visited t member
    exact ⟨w', List.mem_append_left _ inside⟩
  | skip run quiet ih =>
    obtain ⟨visits, w, watched, visited⟩ := ih
    exact ⟨visits, w, watched.skip quiet, visited⟩
  | @turn turns s s' r l l' a received out run ready turned ih =>
    obtain ⟨visits, w, watched, visited⟩ := ih
    have next := watched.turn ready
    rw [turned] at next
    refine ⟨_, _, next, fun t member => ?_⟩
    rcases List.mem_append.mp member with earlier | last
    · obtain ⟨w', inside⟩ := visited t earlier
      exact ⟨w', List.mem_append_left _ inside⟩
    · obtain rfl := List.mem_singleton.mp last
      exact ⟨w.recv received, List.mem_append_right _ List.mem_cons_self⟩
  | finish run ih =>
    obtain ⟨visits, w, watched, visited⟩ := ih
    exact ⟨visits, w, watched.finish, visited⟩

end

end NetProjects.Chat
