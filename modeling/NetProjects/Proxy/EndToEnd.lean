import NetProjects.Proxy.Delivery
import NetProjects.Proxy.Download
import NetProjects.Proxy.ClientUrl
import NetProjects.Proxy.Progress

/-!
# From the URL to the file

The client and the proxy together: what the client saves under the last name of its URL is the body of one
response that an origin has given for this URL.
-/

namespace NetProjects.Proxy
open Bytes

/-- What the client writes to the proxy, `strlen(request) + 1` bytes. -/
def Target.request (target : Target) : List UInt8 := clientRequest target.path target.host ++ [0]

/-- `main` of the client: the name of its file and what is in it. -/
def clientFile (mallocs : Mallocs) (memory : Memory) (arg : List UInt8) (pieces : List (List UInt8)) :
    Option (List UInt8 × List UInt8) := do
  let target ← clientMain mallocs arg
  let file ← download memory pieces
  return (target.filename, file)

/-- A host and a path that fit their fields, on one line each. -/
structure Target.Plain (target : Target) : Prop where
  host : 13 ∉ target.host ∧ 10 ∉ target.host ∧ target.host.length ≤ 252
  path : 13 ∉ target.path ∧ target.path.length ≤ 99

instance (target : Target) : Decidable target.Plain :=
  decidable_of_iff ((13 ∉ target.host ∧ 10 ∉ target.host ∧ target.host.length ≤ 252) ∧
    13 ∉ target.path ∧ target.path.length ≤ 99) ⟨fun h => ⟨h.1, h.2⟩, fun h => ⟨h.1, h.2⟩⟩

section

variable {mallocs : Mallocs} {memory : Memory} {arg line rest : List UInt8} {target : Target} {headers : List Header}
  {req info : HttpInfo} {pieces : List (List UInt8)} {file : List UInt8}

/-! ### The request -/

theorem string_noNul {mem text : List UInt8} (read : string mem = some text) : 0 ∉ text := by
  unfold string at read
  split at read
  · rw [← Option.some.inj read]
    exact not_mem_cstring mem
  · cases read

theorem clientMain_noNul (understood : clientMain mallocs arg = some target) : 0 ∉ target.host ∧ 0 ∉ target.path := by
  obtain ⟨⟨u, pos⟩, _, rest⟩ := Option.bind_eq_some_iff.mp understood
  obtain ⟨⟨host, path⟩, _, rest⟩ := Option.bind_eq_some_iff.mp rest
  obtain ⟨hostText, isHost, rest⟩ := Option.bind_eq_some_iff.mp rest
  obtain ⟨pathText, isPath, rest⟩ := Option.bind_eq_some_iff.mp rest
  split at rest
  · obtain ⟨filename, _, rest⟩ := Option.bind_eq_some_iff.mp rest
    obtain rfl := Option.some.inj rest
    exact ⟨string_noNul isHost, string_noNul isPath⟩
  · cases rest

/-- A parse that returns has found room for its arrays. -/
theorem holds_of_parsed (text : 13 ∉ line ∧ 0 ∉ line) (formed : ∀ h ∈ headers, h.WellFormed)
    (short : (headerText headers).length < maxDataSize)
    (parsed : parseRequest (message line headers ++ 0 :: rest) memory req = some info) :
    Memory.Holds { memory with after := rest } headers := by
  obtain ⟨pos, found, parsed⟩ := Option.bind_eq_some_iff.mp parsed
  obtain rfl := Option.some.inj ((strchr_message text headers rest).symm.trans found)
  obtain ⟨path, _, parsed⟩ := Option.bind_eq_some_iff.mp parsed
  obtain ⟨buf, read, parsed⟩ := Option.bind_eq_some_iff.mp parsed
  obtain ⟨len, length, parsed⟩ := Option.bind_eq_some_iff.mp parsed
  obtain ⟨key, keyMade, parsed⟩ := Option.bind_eq_some_iff.mp parsed
  obtain ⟨value, valueMade, _⟩ := Option.bind_eq_some_iff.mp parsed
  have behind : maxDataSize ≤ (headerText headers).length + 1 + rest.length := by
    unfold memread at read
    split at read
    · rename_i inside
      unfold message at inside
      simp only [List.length_append, List.length_cons, List.length_nil] at inside
      omega
    · cases read
  have holds : Memory.Holds ⟨rest, headerText headers, headerText headers⟩ headers := ⟨Nat.le_refl _, Nat.le_refl _, behind⟩
  have copied := memread_headers holds short line
  obtain rfl := Option.some.inj (copied.symm.trans read)
  have size : strlen (headerText headers ++ 0 :: rest.take (maxDataSize - (headerText headers).length - 1)) =
      some (headerText headers).length := by
    unfold strlen
    rw [if_pos (List.mem_append_right _ List.mem_cons_self), cstring_append_nul,
      cstring_eq_self (headerText_noNul formed)]
  obtain rfl := Option.some.inj (size.symm.trans length)
  have room : ∀ {mem b}, malloc mem (headerText headers).length = some b → (headerText headers).length ≤ mem.length := by
    intro mem b made
    unfold malloc at made
    split at made
    · assumption
    · cases made
  exact ⟨room keyMade, room valueMade, behind⟩

/-- Whenever the client's request is parsed, its path and its host are found. -/
theorem request_parsed {path host : List UInt8} (pathText : 13 ∉ path ∧ 0 ∉ path) (pathFits : path.length ≤ 99)
    (hostText : 13 ∉ host ∧ 10 ∉ host ∧ 0 ∉ host) (hostFits : host.length ≤ 252)
    (parsed : parseRequest (clientRequest path host ++ 0 :: rest) memory HttpInfo.zero = some info) :
    info.path.str = path ∧ info.host.str = host := by
  have get : (cstr "GET ").length = 4 := by decide
  have version : (cstr " HTTP/1.0").length = 9 := by decide
  have label : (cstr "Host").length + 1 = 5 := by decide
  have lineLength : (cstr "GET " ++ path ++ cstr " HTTP/1.0").length = path.length + 13 := by
    simp only [List.length_append, get, version]
    omega
  have first := clientRequest_line pathText pathFits
  have formed := clientHeaders_formed hostText hostFits
  have size := length_clientHeaders host
  have short : (message (cstr "GET " ++ path ++ cstr " HTTP/1.0") (clientHeaders host)).length < maxDataSize := by
    unfold message
    rw [List.length_append, List.length_append, lineLength, size, List.length_cons, List.length_singleton]
    unfold maxDataSize
    omega
  rw [clientRequest_eq] at parsed
  have holds := holds_of_parsed first.text (fun h member => (formed h member).1) (message_short short) parsed
  obtain ⟨req, again, pathFound, hostFound⟩ := parseRequest_message first formed short holds rfl
  obtain rfl : req = info := Option.some.inj (again.symm.trans parsed)
  refine ⟨?_, ?_⟩
  · rw [pathFound, lineLength, Nat.add_sub_cancel, List.append_assoc, List.drop_left' get, List.take_left]
  · have long : 5 < firstLength (clientHeaders host) := by
      have name : (cstr "Host").length = 4 := by decide
      change 5 < (Header.line ⟨cstr "Host", host⟩).length
      rw [Header.length_line]
      change 5 < (cstr "Host").length + host.length + 2
      omega
    rw [hostFound.last fun _ => label ▸ long, lastValue_clientHeaders, Option.getD_some]

end

section

variable {s t : ProxyState} {v : View} {history : List Transition} {e : Event} {f c : Nat} {io : Io} {n : CacheNode}
  {target : Target}

/-- The document of a client that is read from is the request as it is received and parsed. -/
theorem Served.requests (served : Served s f io t) (client : s.session f = .client .reading none c) :
    ∃ n, (s.content c).requested (s.node f).offset io = some n ∧ (t.content c).httpInfo = n.httpInfo := by
  have type : (s.node f).type = .client := congrArg Session.type client
  have status : (s.node f).status = .reading := congrArg Session.status client
  have reads : s.Reads f := ⟨status, .inl type⟩
  cases served with
  | still unread | accepted unread => exact absurd reads unread
  | @dropped d n other request shows | @connected d n _ other request shows =>
    obtain rfl : d = c := Option.some.inj (congrArg Session.cacheNode (other.symm.trans client))
    refine ⟨n, request, ?_⟩
    rw [shows.info]
    exact congrArg CacheNode.httpInfo (Function.update_self _ _ _)
  | sent writing => cases writing.symm.trans status
  | asked server | received server | finished server => cases type.symm.trans (congrArg Session.type server)
  | answered writing => cases status.symm.trans (congrArg Session.status writing)

theorem clientRequest_noNul (host : 0 ∉ target.host) (path : 0 ∉ target.path) :
    0 ∉ clientRequest target.path target.host := by
  have texts : 0 ∉ cstr "GET " ∧ 0 ∉ cstr " HTTP/1.0\r\nHost: " ∧ 0 ∉ cstr "\r\nUser-Agent: Team4\r\n\r\n" := by decide
  unfold clientRequest
  simp only [List.mem_append, not_or]
  exact ⟨⟨⟨⟨texts.1, path⟩, texts.2.1⟩, host⟩, texts.2.2⟩

theorem clientRequest_ends (path host : List UInt8) : cstr "\r\n\r\n" <:+ clientRequest path host := by
  have last : cstr "\r\n\r\n" <:+ cstr "\r\nUser-Agent: Team4\r\n\r\n" := by decide
  exact last.trans (List.suffix_append _ _)

/-- A request that arrives whole is parsed. -/
theorem requested_target (plain : target.Plain) (noNul : 0 ∉ target.host ∧ 0 ∉ target.path)
    (arrived : io.chunk = target.request)
    (request : (CacheNode.fresh none none initialBuffer).requested 0 io = some n) :
    n.httpInfo.host.str = target.host ∧ n.httpInfo.path.str = target.path := by
  obtain ⟨m, fill, request⟩ := Option.bind_eq_some_iff.mp request
  obtain ⟨_, _, padding, buffer⟩ := filled_holds [] fill List.length_replicate (by decide) List.nil_prefix
  rw [List.nil_append, arrived, Target.request, List.append_assoc] at buffer
  have info : m.httpInfo = HttpInfo.zero := filled_info fill
  have memory : m.buffer ++ io.memory.after =
      clientRequest target.path target.host ++ 0 :: (padding ++ io.memory.after) := by
    rw [← buffer, List.append_assoc]
    rfl
  have whole : cstr "\r\n\r\n" <:+: cstring (m.buffer ++ io.memory.after) := by
    rw [memory, cstring_append_nul, cstring_eq_self (clientRequest_noNul noNul.1 noNul.2)]
    exact (clientRequest_ends _ _).isInfix
  obtain ⟨found, searched, request⟩ := Option.bind_eq_some_iff.mp request
  obtain rfl : true = found := Option.some.inj ((if_pos whole).symm.trans searched)
  rw [if_pos rfl] at request
  obtain ⟨req, parsed, same⟩ := Option.bind_eq_some_iff.mp request
  obtain rfl := Option.some.inj same
  rw [memory, info] at parsed
  exact (request_parsed ⟨plain.path.1, noNul.2⟩ plain.path.2 ⟨plain.host.1, plain.host.2.1, noNul.1⟩ plain.host.2.2
    parsed).symm

theorem Known.requests_target (known : Known history s v) (next : step s e = some t)
    (client : (s.node e.node).type = .client) (reading : (s.node e.node).status = .reading)
    (document : (s.node e.node).cacheNode = some c) (plain : target.Plain)
    (noNul : 0 ∉ target.host ∧ 0 ∉ target.path) (arrived : e.io.chunk = target.request) :
    (t.doc c).host = target.host ∧ (t.doc c).path = target.path := by
  obtain ⟨listed, served, _⟩ := known.served next
  obtain ⟨d, session, fresh, offset, _⟩ := known.client_reads listed client reading
  obtain rfl : d = c := Option.some.inj ((congrArg Session.cacheNode session).symm.trans document)
  obtain ⟨n, request, info⟩ := served.requests session
  rw [fresh, offset] at request
  have found := requested_target plain noNul arrived request
  rw [← info] at found
  exact found

end

/-! ### The response -/

/-- The first receive has the whole header, with the length of the body, and does not go beyond the body. -/
structure Announces (memory : Memory) (front body first : List UInt8) : Prop where
  noNul : 0 ∉ withEmptyLine front
  once : ¬ [13, 10, 13, 10] <:+: front ++ [13, 10, 13]
  whole : withEmptyLine front <+: first
  within : first.length ≤ (withEmptyLine front).length + body.length
  parsed : ResponseFits memory.key (firstView memory first)
  length : trimLength memory first = body.length

section

variable {memory : Memory} {front body first padding : List UInt8} {pieces : List (List UInt8)}

/-- What follows the body is cut off. -/
theorem Announces.download (announces : Announces memory front body first) (ample : memory.Ample)
    (small : first.length ≤ maxDataSize) (joined : (first :: pieces).flatten = withEmptyLine front ++ body ++ padding) :
    download memory (first :: pieces) = some body := by
  obtain ⟨noNul, once, ⟨early, rfl⟩, within, parsed, length⟩ := announces
  rw [List.flatten_cons, List.append_assoc, List.append_assoc] at joined
  have split : early ++ pieces.flatten = body ++ padding := List.append_cancel_left joined
  have short : early.length ≤ body.length := by
    rw [List.length_append] at within
    omega
  have missing : early.length + ((body.length : Int) - early.length).toNat = body.length := by omega
  rw [download_parsed ample small noNul once parsed, length, receiveRest_within (by omega), ← List.take_length_add_append,
    missing, split, List.take_left]

end

section

variable {s : ProxyState} {history before after : List Transition} {x : Transition} {f : Nat} {url : Doc} {target : Target}
  {mallocs : Mallocs} {arg : List UInt8}

/-- The URL that the proxy has read is the one in the request. -/
theorem Requested.of_target {slots : Nat} (two : 2 ≤ slots) (h : Ran slots history s) (requested : Requested history f url)
    (plain : target.Plain) (noNul : 0 ∉ target.host ∧ 0 ∉ target.path)
    (asks : ∀ y ∈ history, y.event.node = f → (y.before.node f).type = .client → (y.before.node f).status = .reading →
      y.event.io.chunk = target.request) : url.host = target.host ∧ url.path = target.path := by
  obtain ⟨y, member, here, client, reading, c, document, same⟩ := requested
  obtain ⟨earlier, later, split⟩ := List.append_of_mem member
  obtain ⟨ran, next⟩ := h.split split
  obtain ⟨v, known⟩ := ran.known two
  have arrived := asks y member here client reading
  subst here
  obtain ⟨host, path⟩ := known.requests_target next client reading document plain noNul arrived
  exact ⟨same.1.symm.trans host, same.2.symm.trans path⟩

end

/-- A response with a body of five bytes. -/
def helloResponse : List UInt8 := withEmptyLine fiveBytes ++ cstr "hello"

def helloTarget : Target := { host := cstr "h", path := cstr "/a", filename := cstr "a" }

end NetProjects.Proxy
