import NetProjects.Proxy.FdList

/-!
# The handlers of the proxy

One event is one ready node that the service loop comes to, with what the system calls of its
handler return. `step` is `none` where the node is not in the list, or where the program follows a
NULL pointer or copies outside an array.
-/

namespace NetProjects.Proxy
open Bytes

def initialBuffer : Nat := 200

/-- One call of `send`: `size` bytes asked for from place `start` of `array`. -/
structure Send where
  fd : Int
  array : List UInt8
  start : Int
  size : Int
  numbytes : Int

structure ProxyState where
  cache : Cache
  fdNodes : Heap FdNode
  fdList : FdList
  sends : List Send
  /-- Ghost: the freed cache nodes that a handler has accessed through a node of the list. -/
  stale : List Nat

/-- What the system calls of a handler return. -/
structure Io where
  /-- The new descriptor, or an `accept` that fails. -/
  accepted : Option Int
  /-- The bytes received, or -1. -/
  received : Option (List UInt8)
  /-- The descriptor connected to the host, or a connection that fails. -/
  connected : Option Int
  sent : Int
  /-- What the bytes added by `realloc` hold. -/
  grown : Nat → UInt8
  memory : Memory

structure Event where
  node : Nat
  io : Io

namespace ProxyState

def setFd (s : ProxyState) (f : Nat) (g : FdNode → FdNode) : ProxyState :=
  { s with fdNodes := s.fdNodes.modify f g }

def setCache (s : ProxyState) (a : Nat) (g : CacheNode → CacheNode) : ProxyState :=
  { s with cache := { s.cache with nodes := s.cache.nodes.modify a g } }

/-- The cache node at `a` is accessed through a node of the list. -/
def touch (s : ProxyState) (a : Nat) : ProxyState :=
  if a ∈ s.cache.nodes.freed then { s with stale := s.stale ++ [a] } else s

def fds (s : ProxyState) : List Nat := fdListNodes s.fdNodes s.fdList

end ProxyState

/-! ### Receiving and sending -/

/-- The buffer after `realloc` when `numbytes` bytes at `offset` would fill it. -/
def growBuffer (node : CacheNode) (offset : Int) (numbytes : Nat) (grown : Nat → UInt8) : CacheNode :=
  -- The difference is a `size_t`, which an offset past the end makes huge.
  if offset ≤ node.bufferSize ∧ node.bufferSize - offset ≤ numbytes then
    { node with buffer := node.buffer ++ (List.range maxDataSize).map grown
                bufferSize := node.bufferSize + maxDataSize }
  else node

def copyToBuffer (buffer : List UInt8) (offset : Int) (bytes : List UInt8) : Option (List UInt8) :=
  if 0 ≤ offset ∧ offset + bytes.length ≤ buffer.length then some (memcpy buffer offset.toNat bytes) else none

/-- The first part of `cache_recv`: the bytes are appended to the buffer of the cache node. -/
def recvToBuffer (s : ProxyState) (f c : Nat) (received : List UInt8) (io : Io) : Option ProxyState := do
  let offset := (s.fdNodes.cell f).offset
  let node := growBuffer (s.cache.nodes.cell c) offset received.length io.grown
  let buffer ← copyToBuffer node.buffer offset received
  let s := s.setCache c fun n => { n with buffer := buffer, bufferSize := node.bufferSize }
  return s.setFd f fun n => { n with offset := n.offset + received.length }

/-- A 304 for a conditional get: the cached node gets the new date and the client is given it. -/
def recvNotModified (s : ProxyState) (f : Nat) (info : HttpInfo) : Option ProxyState := do
  let node := s.fdNodes.cell f
  let backup ← node.cacheNodeBackup
  let s := s.touch backup
  let date ← (s.cache.nodes.cell backup).httpInfo.date.strcpy info.date.bytes
  let s := s.setCache backup fun n => { n with httpInfo := { n.httpInfo with date := date } }
  let proxied ← node.proxied
  let s := s.setFd proxied fun n => { n with cacheNode := node.cacheNodeBackup }
  return s.setFd f fun n => { n with status := .idle, offset := 0 }

/-- The first bytes of a response: its header is parsed. -/
def recvHeader (s : ProxyState) (f c : Nat) (bufRecv : List UInt8) (io : Io) : Option ProxyState := do
  let info ← parseResponse (bufRecv ++ io.memory.after) io.memory (s.cache.nodes.cell c).httpInfo
  let s := s.setCache c fun n => { n with httpInfo := info }
  let notModified ← strstrLit info.status.bytes (cstr "304")
  let s ←
    if (s.fdNodes.cell f).flag = 1 ∧ notModified = true then recvNotModified s f info
    else some s
  return s.setCache c fun n => { n with httpInfo := { n.httpInfo with infoComplete := true } }

def cacheRecv (s : ProxyState) (f : Nat) (io : Io) : Option (ProxyState × Nat) := do
  -- A failed `recv` is followed by a copy of `(size_t)-1` bytes.
  let received ← io.received
  let received := received.take maxDataSize
  let bufRecv := memcpy (List.replicate maxDataSize 0) 0 received
  let c ← (s.fdNodes.cell f).cacheNode
  let s ← recvToBuffer (s.touch c) f c received io
  match (s.fdNodes.cell f).type with
  | .client => return (s.setFd f fun n => { n with status := .idle, offset := 0 }, received.length)
  | .server =>
    let parsed := if (s.cache.nodes.cell c).httpInfo.infoComplete then some s else recvHeader s f c bufRecv io
    let s ← parsed
    return (if received = [] then s.setFd f fun n => { n with status := .idle, offset := 0 } else s, received.length)
  | _ => return (s, received.length)

def int32 (x : Int) : Int := x.bmod (2 ^ 32)

/-- The request `sprintf` puts in the zeroed array `conditional_get`, which holds every one. -/
def conditionalGet (info : HttpInfo) : List UInt8 :=
  memcpy (List.replicate 500 0) 0
    (cstr "GET " ++ info.path.str ++ cstr " HTTP/1.0\r\nHost: " ++ info.host.str ++
      cstr "\r\nIf-Modified-Since: " ++ info.date.str ++ cstr "\r\n\r\n")

def sendSource (s : ProxyState) (f c : Nat) : Option (ProxyState × List UInt8 × Int) := do
  let node := s.fdNodes.cell f
  if node.type = .server ∧ node.flag = 1 then
    let backup ← node.cacheNodeBackup
    return (s.touch backup, conditionalGet (s.cache.nodes.cell backup).httpInfo, 0)
  else return (s, (s.cache.nodes.cell c).buffer, node.offset)

def cacheSend (s : ProxyState) (f : Nat) (io : Io) : Option ProxyState := do
  let node := s.fdNodes.cell f
  let c ← node.cacheNode
  let s := s.touch c
  let bufferSize := (s.cache.nodes.cell c).bufferSize
  let remainSize := int32 (bufferSize - node.offset)
  let sendSize := min remainSize maxDataSize
  let (s, array, start) ← sendSource s f c
  let numbytes := max (-1) (min io.sent sendSize)
  let send : Send := { fd := node.fd, array := array, start := start, size := sendSize, numbytes := numbytes }
  let s := { s with sends := s.sends ++ [send] }
  let offset := node.offset + numbytes
  -- The comparison is unsigned, so a negative offset counts as complete.
  if offset < 0 ∨ bufferSize ≤ offset then
    return s.setFd f fun n => { n with offset := 0, status := .idle }
  else return s.setFd f fun n => { n with offset := offset }

/-! ### Handlers -/

def removeFd (s : ProxyState) (f : Nat) : Option ProxyState := do
  let nodes ← fdListRemove s.fdNodes f
  return { s with fdNodes := nodes.free f }

def appendFd (s : ProxyState) (node : FdNode) : Option ProxyState := do
  let nodes ← fdListAppend (s.fdNodes.alloc node) s.fdList s.fdNodes.top
  return { s with fdNodes := nodes }

def listenFdHandler (s : ProxyState) (io : Io) : Option ProxyState :=
  match io.accepted with
  | none => some s
  | some clientFd =>
    let made := newCacheNode s.cache.nodes none none initialBuffer
    appendFd { s with cache := { s.cache with nodes := made.2 } }
      (newFdNode none none clientFd .client .reading (some made.1))

/-- The request is parsed when its end has been received. -/
def parseClientRequest (s : ProxyState) (c : Nat) (io : Io) : Option ProxyState := do
  let node := s.cache.nodes.cell c
  if ← strstrLit (node.buffer ++ io.memory.after) (cstr "\r\n\r\n") then
    let info ← parseRequest (node.buffer ++ io.memory.after) io.memory node.httpInfo
    return s.setCache c fun n => { n with httpInfo := info }
  else return s

def connectServer (s : ProxyState) (f c : Nat) (serverFd : Int) : Option ProxyState := do
  let server := s.fdNodes.top
  let s := s.setFd f fun n => { n with proxied := some server }
  let s ← appendFd s { newFdNode none none serverFd .server .writing (some c) with proxied := some f }
  match isCacheHit s.cache (s.cache.nodes.cell c).httpInfo with
  | some hit => return s.setFd server fun n => { n with cacheNodeBackup := some hit, flag := 1 }
  | none => return s.setFd server fun n => { n with flag := 2 }

def clientReadHandler (s : ProxyState) (f : Nat) (io : Io) : Option ProxyState := do
  let (s, _) ← cacheRecv s f io
  let c ← (s.fdNodes.cell f).cacheNode
  if (s.fdNodes.cell f).status = .idle then
    let s ← parseClientRequest s c io
    match io.connected with
    | none => removeFd s f
    | some serverFd => connectServer s f c serverFd
  else return s

def clientWriteHandler (s : ProxyState) (f : Nat) (io : Io) : Option ProxyState := do
  let s ← cacheSend s f io
  if (s.fdNodes.cell f).status = .idle then removeFd s f else return s

def finishResponse (s : ProxyState) (f : Nat) : Option ProxyState := do
  let node := s.fdNodes.cell f
  let proxied ← node.proxied
  let s := s.setFd proxied fun n => { n with status := .writing }
  let c ← node.cacheNode
  match isCacheHit s.cache (s.cache.nodes.cell c).httpInfo with
  | some _ => removeFd s f
  | none =>
    let cache ← cacheEnqueue s.cache c
    removeFd { s with cache := cache } f

def serverReadHandler (s : ProxyState) (f : Nat) (io : Io) : Option ProxyState := do
  let (s, _) ← cacheRecv s f io
  if (s.fdNodes.cell f).status = .idle then finishResponse s f else return s

def serverWriteHandler (s : ProxyState) (f : Nat) (io : Io) : Option ProxyState := do
  let s ← cacheSend s f io
  if (s.fdNodes.cell f).status = .idle then return s.setFd f fun n => { n with status := .reading }
  else return s

/-! ### The service loop -/

/-- The path of the request is read through every client and server node. -/
def printFdNode (s : ProxyState) (f : Nat) : Option ProxyState :=
  let node := s.fdNodes.cell f
  if node.type = .client ∨ node.type = .server then node.cacheNode.map s.touch else some s

def printFdList (s : ProxyState) : Option ProxyState := s.fds.foldlM printFdNode s

/-- The loop body of `main` for the ready node `f`. -/
def serve (s : ProxyState) (f : Nat) (io : Io) : Option ProxyState :=
  let node := s.fdNodes.cell f
  match node.type with
  | .dummy => some s
  | .listen => (listenFdHandler s io).bind printFdList
  | .client =>
    if node.status = .reading then clientReadHandler s f io
    else if node.status = .writing then clientWriteHandler s f io
    else some s
  | .server =>
    if node.status = .reading then serverReadHandler s f io
    else if node.status = .writing then serverWriteHandler s f io
    else some s

def step (s : ProxyState) (e : Event) : Option ProxyState :=
  if e.node ∈ s.fds then serve s e.node e.io else none

/-- The queue of `main` before its service loop, with `slots` cache slots. -/
def startQueue (slots : Nat) : Cache := newCacheQueue (.empty (.fresh none none 0)) slots

def ProxyState.start (slots maxClient : Nat) (listenFd : Int) : Option ProxyState :=
  let cache := startQueue slots
  let list := newFdList (.empty (newFdNode none none (-1) .dummy .idle none)) maxClient
  appendFd { cache := cache, fdNodes := list.1, fdList := list.2, sends := [], stale := [] }
    (newFdNode none none listenFd .listen .reading none)

def ProxyState.run (slots maxClient : Nat) (listenFd : Int) (es : List Event) : Option ProxyState :=
  (ProxyState.start slots maxClient listenFd).bind fun s => es.foldlM step s

inductive Reachable (slots : Nat) : ProxyState → Prop where
  | start {maxClient listenFd s} (h : ProxyState.start slots maxClient listenFd = some s) : Reachable slots s
  | step {s s' e} (h : Reachable slots s) (next : step s e = some s') : Reachable slots s'

end NetProjects.Proxy
