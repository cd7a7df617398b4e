import NetProjects.Chat.Message
import NetProjects.Library.Heap
import NetProjects.Library.Linked

/-!
# The chat server

The list of sockets and `msg_router`, one turn of its loop at a time. `none` is a NULL pointer
followed or a copy outside an array. Nodes are never freed, as in the source.
-/

namespace NetProjects.Chat
open Bytes Linked

/-- `socket_fd_t`. -/
structure SocketFd where
  fd : Int
  username : CharArray 16
  next : Option Nat
  /-- Ghost: its last JOIN was answered with an ACK. -/
  acked : Bool

structure Server where
  nodes : Heap SocketFd
  listenFd : Nat

/-- What one call of `recv` returns. -/
inductive Received where
  | data (bytes : List UInt8)
  | error

def Received.numbytes : Received → Int
  | data bytes => bytes.length
  | error => -1

/-- Memory up to a zero byte. -/
structure Tail (n : Nat) where
  bytes : List UInt8
  short : bytes.length ≤ n
  terminated : 0 ∈ bytes

/-- One call of `msg_router`: what the system calls return, and what the memory holds that the call
reads without having written it. -/
structure Round where
  /-- The descriptor of a new client, and the `username` array of its new node. -/
  accepted : Option (Int × CharArray 16)
  /-- The descriptors in the set, and what is received from them. -/
  received : Int → Option Received
  buf : CharArray maxDataSize
  newName : CharArray 16
  /-- Behind the `username` of a node: four bytes of padding and the `next` pointer, whose upper
  bytes are zero. -/
  afterUsername : Nat → Tail 12
  afterNewName : Tail 495
  countStr : Nat → CharArray 5

/-- The locals of `msg_router` that one turn leaves to the next. -/
structure Locals where
  buf : CharArray maxDataSize
  usernames : CharArray 512
  newName : CharArray 16

inductive Action where
  /-- The bytes of `msg`, and what stands behind it in the buffer, are sent to the socket of `node`. -/
  | write (node : Nat) (msg : SbcpMsg)
  | close (node : Nat)
  deriving DecidableEq

/-! ### The list of sockets -/

def setNext (nodes : Heap SocketFd) (a : Nat) (p : Option Nat) : Heap SocketFd :=
  nodes.modify a fun n => { n with next := p }

def lastNode (nodes : Heap SocketFd) : Nat → Nat → Option Nat
  | 0, _ => none
  | fuel + 1, a =>
    match (nodes.cell a).next with
    | none => some a
    | some b => lastNode nodes fuel b

def appendNode (s : Server) (newFd : Int) (username : CharArray 16) : Option Server := do
  let nodes := s.nodes.alloc { fd := newFd, username := username, next := none, acked := false }
  let last ← lastNode nodes nodes.top s.listenFd
  return { s with nodes := setNext nodes last (some s.nodes.top) }

/-- The loop of `remove_node` from the node `a` on. -/
def removeNodeLoop (nodes : Heap SocketFd) (fd : Int) (next : Option Nat) : Nat → Nat → Option (Heap SocketFd)
  | 0, _ => none
  | fuel + 1, a => do
    let b ← (nodes.cell a).next
    if (nodes.cell b).fd = fd then some (setNext nodes a next) else removeNodeLoop nodes fd next fuel b

def removeNode (s : Server) (a : Nat) : Option Server := do
  let node := s.nodes.cell a
  return { s with nodes := ← removeNodeLoop s.nodes node.fd node.next s.nodes.top s.listenFd }

def Server.clients (s : Server) : List Nat :=
  traverse (fun a => (s.nodes.cell a).next) s.nodes.top (s.nodes.cell s.listenFd).next

def clientCount (s : Server) : Int := s.clients.length

/-- The memory from the `username` of a node on. -/
def usernameView (s : Server) (r : Round) (a : Nat) : List UInt8 :=
  (s.nodes.cell a).username.bytes ++ (r.afterUsername a).bytes

def newNameView (r : Round) (newName : CharArray 16) : List UInt8 := newName.bytes ++ r.afterNewName.bytes

def isDuplicateName (s : Server) (r : Round) (newName : CharArray 16) : Bool :=
  s.clients.any fun a => cstring (usernameView s r a) == cstring (newNameView r newName)

def getUsernames (s : Server) (usernames : CharArray 512) : Option (CharArray 512) := do
  -- `sizeof(usernames)` is the size of a pointer.
  let usernames ← usernames.memcpy 0 (List.replicate 8 0)
  s.clients.zipIdx.foldlM (fun usernames x => usernames.memcpy (x.2 * 16) (s.nodes.cell x.1).username.bytes) usernames

/-! ### The branches of the router -/

def msgBroadcast (s : Server) (current : Nat) (msg : SbcpMsg) : List Action :=
  (s.clients.filter fun a => (s.nodes.cell a).fd ≠ (s.nodes.cell current).fd).map fun a => .write a msg

def parseMsgJoin (msg : SbcpMsg) (newName : CharArray 16) : CharArray 16 :=
  if msg.attribute0.sbcpAttributeType = AttributeType.username.code then
    msg.attribute0.payload.slice 0 16 (by decide)
  else newName

def parseMsgSend (msg : SbcpMsg) : List UInt8 := msg.attribute0.payload.bytes

/-- A client that has left: OFFLINE for the others, then the socket and the node. -/
def disconnect (r : Round) (s : Server) (a : Nat) : Option (Server × List Action) := do
  let name := usernameView s r a
  let msg ← makeMsgOffline name ((cstring name).length + 1)
  let s' ← removeNode s a
  return (s', msgBroadcast s a msg ++ [.close a])

def reject (reason : String) (s : Server) (l : Locals) (a : Nat) : Option (Server × Locals × List Action) := do
  let msg ← makeMsgNak (cstr reason ++ [0]) (reason.length + 1)
  let s ← removeNode s a
  return (s, { l with buf := l.buf.fill msg.bytes }, [.write a msg, .close a])

def Server.named (s : Server) (a : Nat) (newName : CharArray 16) : Server :=
  { s with nodes := s.nodes.modify a fun n => { n with username := newName, acked := true } }

def admitClient (r : Round) (s : Server) (l : Locals) (a : Nat) : Option (Server × Locals × List Action) := do
  let s := s.named a l.newName
  let usernames ← getUsernames s l.usernames
  let ack ← makeMsgAck (r.countStr a) (clientCount s - 1) usernames.bytes
  let name := newNameView r l.newName
  let online ← makeMsgOnline name ((cstring name).length + 1)
  return (s, { l with buf := l.buf.fill ack.bytes, usernames := usernames },
    .write a ack :: msgBroadcast s a online)

def routeJoin (maxClients : Int) (r : Round) (s : Server) (l : Locals) (a : Nat) (msg : SbcpMsg) :
    Option (Server × Locals × List Action) :=
  let l := { l with newName := parseMsgJoin msg l.newName }
  if clientCount s - 1 ≥ maxClients then reject "reached maximum client count" s l a
  else if isDuplicateName s r l.newName then reject "same username" s l a
  else admitClient r s l a

/-- The buffer is taken for a message of the client `a`. -/
def routeMessage (maxClients : Int) (r : Round) (s : Server) (l : Locals) (a : Nat) :
    Option (Server × Locals × List Action) :=
  let msg := castMsg l.buf
  let name := usernameView s r a
  if getMsgType msg = HeaderType.idle.code then do
    let idle ← makeMsgIdleS name (cstring name).length
    return (s, l, msgBroadcast s a idle)
  else if getMsgType msg = HeaderType.send.code then do
    let fwd ← makeMsgFwd (parseMsgSend msg) 512 name ((cstring name).length + 1)
    return (s, l, msgBroadcast s a fwd)
  else if getMsgType msg = HeaderType.join.code then routeJoin maxClients r s l a msg
  else return (s, l, [])

/-! ### The loop -/

def serverRead (buf : CharArray maxDataSize) : Received → CharArray maxDataSize
  | .data bytes => buf.fill (bytes.take (maxDataSize - 1))
  | .error => buf

def Locals.read (l : Locals) (received : Received) : Locals := { l with buf := serverRead l.buf received }

/-- The turn of a ready client. What is in the buffer is routed after an end of stream too. -/
def turn (maxClients : Int) (r : Round) (s : Server) (l : Locals) (a : Nat) (received : Received) :
    Option (Server × Locals × List Action) := do
  let l := l.read received
  let (s, left) ← if received.numbytes = 0 then disconnect r s a else some (s, [])
  let (s, l, out) ← routeMessage maxClients r s l a
  return (s, l, left ++ out)

structure Turn where
  round : Round
  node : Nat
  received : Received
  /-- After `recv`. -/
  locals : Locals
  before : Server
  actions : List Action
  after : Server

/-- The loop from the node pointer `node` on. -/
def routerLoop (maxClients : Int) (r : Round) : Nat → Server → Locals → Option Nat → Option (Server × List Turn)
  | 0, _, _, _ => none
  | _ + 1, s, _, none => some (s, [])
  | fuel + 1, s, l, some a =>
    match r.received (s.nodes.cell a).fd with
    | none => routerLoop maxClients r fuel s l (s.nodes.cell a).next
    | some received => do
      let (s', l', actions) ← turn maxClients r s l a received
      let (end', turns) ← routerLoop maxClients r fuel s' l' (s'.nodes.cell a).next
      let here : Turn :=
        { round := r, node := a, received := received, locals := l.read received, before := s, actions := actions,
          after := s' }
      return (end', here :: turns)

def acceptClient (r : Round) (s : Server) : Option Server :=
  match r.accepted with
  | none => some s
  | some (newFd, username) => appendNode s newFd username

def Round.locals (r : Round) : Locals := { buf := r.buf, usernames := .zero 512, newName := r.newName }

def msgRouter (maxClients : Int) (r : Round) (s : Server) : Option (Server × List Turn) := do
  let s ← acceptClient r s
  routerLoop maxClients r (s.nodes.top + 1) s r.locals (s.nodes.cell s.listenFd).next

/-- The server of `main` before its loop. -/
def Server.start (sockfd : Int) (username : CharArray 16) : Server :=
  { nodes := (Heap.empty { fd := sockfd, username := username, next := none, acked := false }).alloc
      { fd := sockfd, username := username, next := none, acked := false }
    listenFd := 0 }

end NetProjects.Chat
