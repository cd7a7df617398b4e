import NetProjects.Library.Cut
import NetProjects.Proxy.Infos
import NetProjects.Proxy.Pieces

/-!
# How the streams are cut

A client is read from once, and a response is parsed from what its first `recv` brings.
-/

namespace NetProjects.Proxy
open Bytes

/-- The node receives the pieces, one with each `recv`, for as long as it is read from. -/
def receive (f : Nat) : (Nat → Io) → List (List UInt8) → ProxyState → Option ProxyState
  | _, [], s => some s
  | io, piece :: pieces, s =>
    if s.Reads f then (step s ⟨f, (io 0).bring piece⟩).bind (receive f (fun i => io (i + 1)) pieces) else some s

/-- What the proxy makes of a request: `origin` is the descriptor it connects to the host. -/
structure Asked where
  host : List UInt8
  path : List UInt8
  origin : Option Int
  deriving DecidableEq

/-- What the proxy records of a response. -/
structure Recorded where
  status : List UInt8
  date : List UInt8
  contentLength : List UInt8
  deriving DecidableEq

def asked (f : Nat) (s : ProxyState) : Option Asked := do
  let c ← (s.node f).cacheNode
  let info := (s.content c).httpInfo
  return { host := info.host.str, path := info.path.str, origin := (s.node f).proxied.map fun g => (s.node g).fd }

def recorded (g : Nat) (s : ProxyState) : Option Recorded := do
  let c ← (s.node g).cacheNode
  let info := (s.content c).httpInfo
  if info.infoComplete then
    return { status := info.status.str, date := info.date.str, contentLength := info.contentLength.str }
  else none

namespace ProxyState

/-- The request of the client `f` is awaited. -/
def Asking (s : ProxyState) (f : Nat) : Prop :=
  f ∈ s.fds ∧ (s.node f).type = .client ∧ (s.node f).status = .reading

/-- The response to the server `g` is awaited. -/
def Awaiting (s : ProxyState) (g : Nat) : Prop :=
  g ∈ s.fds ∧ (s.node g).type = .server ∧ (s.node g).status = .reading ∧
    ∀ c ∈ (s.node g).cacheNode, (s.content c).httpInfo.infoComplete = false

instance (s : ProxyState) (f : Nat) : Decidable (s.Asking f) := inferInstanceAs (Decidable (_ ∧ _))

instance (s : ProxyState) (g : Nat) : Decidable (s.Awaiting g) := inferInstanceAs (Decidable (_ ∧ _))

end ProxyState

/-- Two proxies make the same of a request, however it is cut and whatever the memory around them holds. -/
def AskedAlike (s s' : ProxyState) (f f' : Nat) (request : List UInt8) : Prop :=
  ∀ io : Nat → Io, (∀ i, (io i).memory.Ample) → ∀ cut cut' : Cut maxDataSize request, ∃ outcome,
    (receive f io cut.pieces s).map (asked f) = some outcome ∧
      (receive f' io cut'.pieces s').map (asked f') = some outcome

/-- Two proxies record the same of a response, however it is cut and whatever the memory around them holds. -/
def RecordedAlike (s s' : ProxyState) (g g' : Nat) (response : List UInt8) : Prop :=
  ∀ io : Nat → Io, (∀ i, (io i).memory.Ample) → ∀ cut cut' : Cut maxDataSize response, ∃ outcome,
    (receive g io cut.pieces s).map (recorded g) = some outcome ∧
      (receive g' io cut'.pieces s').map (recorded g') = some outcome

section

variable {s t : ProxyState} {f c : Nat} {io : Io} {m : CacheNode} {request response piece : List UInt8}

/-! ### Runs over the pieces -/

variable {v : View} {history : List Transition} {g p : Nat} {pieces : List (List UInt8)} {ios : Nat → Io}

theorem receive_unread (unread : ¬ s.Reads f) : receive f ios pieces s = some s := by
  cases pieces with
  | nil => rfl
  | cons piece pieces => exact if_neg unread

/-- A client is read from once. -/
theorem Known.client_read (known : Known history s v) (client : s.session f = .client .reading none c)
    (next : step s ⟨f, io⟩ = some t) :
    ∃ n, (s.content c).requested (s.node f).offset io = some n ∧ ¬ t.Reads f ∧
      asked f t = some { host := n.httpInfo.host.str, path := n.httpInfo.path.str, origin := io.connected } := by
  obtain ⟨listed, served, _⟩ := known.served next
  have type : (s.node f).type = .client := congrArg Session.type client
  have status : (s.node f).status = .reading := congrArg Session.status client
  have node : (s.node f).cacheNode = some c := congrArg Session.cacheNode client
  have proxied : (s.node f).proxied = none := congrArg Session.proxied client
  have reads : s.Reads f := ⟨status, .inl type⟩
  cases served with
  | still unread => exact absurd reads unread
  | accepted unread => exact absurd reads unread
  | @dropped d n other request shows refused =>
    obtain rfl : d = c := Option.some.inj (congrArg Session.cacheNode (other.symm.trans client))
    have idle : t.node f = { s.node f with status := .idle, offset := 0 } := by
      rw [shows.node]
      exact Function.update_self _ _ _
    have info : (t.content d).httpInfo = n.httpInfo := by
      rw [shows.info]
      exact congrArg CacheNode.httpInfo (Function.update_self _ _ _)
    refine ⟨n, request, fun again => ?_, ?_⟩
    · rw [ProxyState.Reads, idle] at again
      cases again.1
    · rw [asked, idle]
      refine Option.bind_eq_some_iff.mpr ⟨d, node, ?_⟩
      dsimp only at refused ⊢
      rw [info, proxied, refused]
      rfl
  | @connected d n fd other request shows reached =>
    obtain rfl : d = c := Option.some.inj (congrArg Session.cacheNode (other.symm.trans client))
    have apart : f ≠ s.fdNodes.top := Nat.ne_of_lt (known.represents.fds_lt listed)
    have idle : t.node f = { s.node f with status := .idle, offset := 0, proxied := some s.fdNodes.top } := by
      rw [shows.node]
      exact (Function.update_of_ne apart _ _).trans (Function.update_self _ _ _)
    have server : t.node s.fdNodes.top = .server fd f d (isCacheHit s.cache n.httpInfo) := by
      rw [shows.node]
      exact Function.update_self _ _ _
    have info : (t.content d).httpInfo = n.httpInfo := by
      rw [shows.info]
      exact congrArg CacheNode.httpInfo (Function.update_self _ _ _)
    refine ⟨n, request, fun again => ?_, ?_⟩
    · rw [ProxyState.Reads, idle] at again
      cases again.1
    · rw [asked, idle]
      refine Option.bind_eq_some_iff.mpr ⟨d, node, ?_⟩
      dsimp only at reached ⊢
      rw [info, Option.map_some, server, reached]
      rfl
  | sent writing => cases writing.symm.trans status
  | asked server => cases type.symm.trans (congrArg Session.type server)
  | answered writing => cases status.symm.trans (congrArg Session.status writing)
  | received server => cases type.symm.trans (congrArg Session.type server)
  | finished server => cases type.symm.trans (congrArg Session.type server)

/-- The proxy makes of a request what it makes of its first piece. -/
theorem Known.receive_request (known : Known history s v) (asking : s.Asking f) (ios : Nat → Io) (piece : List UInt8)
    (pieces : List (List UInt8)) :
    (receive f ios (piece :: pieces) s).map (asked f) =
      ((CacheNode.fresh none none initialBuffer).requested 0 ((ios 0).bring piece)).map fun n =>
        some { host := n.httpInfo.host.str, path := n.httpInfo.path.str, origin := (ios 0).connected } := by
  obtain ⟨listed, type, status⟩ := asking
  obtain ⟨c, client, fresh, offset, goes⟩ := known.client_reads listed type status
  rw [← fresh, receive, if_pos ⟨status, .inl type⟩]
  cases request : (s.content c).requested 0 ((ios 0).bring piece) with
  | none =>
    cases next : step s ⟨f, (ios 0).bring piece⟩ with
    | none => rfl
    | some t =>
      obtain ⟨n, other, _⟩ := known.client_read client next
      rw [offset, request] at other
      cases other
  | some n =>
    obtain ⟨t, next⟩ := goes rfl request
    obtain ⟨m, same, unread, outcome⟩ := known.client_read client next
    rw [offset, request] at same
    obtain rfl := Option.some.inj same
    rw [next, Option.bind_some, receive_unread unread, Option.map_some, outcome]
    rfl

/-- A server that reads parses a header. -/
theorem Known.server_read {backup : Option Nat} (known : Known history s v)
    (server : s.session g = .server p c backup true) (next : step s ⟨g, io⟩ = some t) :
    ∃ n, (s.content c).heard (s.node g).offset io = some n := by
  obtain ⟨_, served, _⟩ := known.served next
  have type : (s.node g).type = .server := congrArg Session.type server
  have status : (s.node g).status = .reading := congrArg Session.status server
  have reads : s.Reads g := ⟨status, .inr type⟩
  cases served with
  | still unread => exact absurd reads unread
  | accepted unread => exact absurd reads unread
  | dropped client => cases type.symm.trans (congrArg Session.type client)
  | connected client => cases type.symm.trans (congrArg Session.type client)
  | sent writing => cases writing.symm.trans status
  | asked other => cases status.symm.trans (congrArg Session.status other)
  | answered client => cases type.symm.trans (congrArg Session.type client)
  | @received q d _ n other heard =>
    obtain rfl : d = c := Option.some.inj (congrArg Session.cacheNode (other.symm.trans server))
    exact ⟨n, heard⟩
  | @finished q d _ _ n _ _ other _ heard =>
    obtain rfl : d = c := Option.some.inj (congrArg Session.cacheNode (other.symm.trans server))
    exact ⟨n, heard⟩

/-- No response is recorded that starts with a piece of one byte. -/
theorem Known.receive_byte (known : Known history s v) (awaiting : s.Awaiting g) (byte : UInt8) :
    receive g ios ([byte] :: pieces) s = none := by
  obtain ⟨listed, type, status, incomplete⟩ := awaiting
  obtain ⟨p, c, backup, server, _⟩ := known.server_reads listed type status
  rw [receive, if_pos ⟨status, .inr type⟩]
  cases next : step s ⟨g, (ios 0).bring [byte]⟩ with
  | none => rfl
  | some t =>
    obtain ⟨n, heard⟩ := known.server_read server next
    rw [heard_byte (incomplete c (congrArg Session.cacheNode server))] at heard
    cases heard

/-! ### Any two cuts -/

variable {s' : ProxyState} {v' : View} {history' : List Transition} {f' g' : Nat}

theorem maxDataSize_pos : 0 < maxDataSize := by decide

/-- The finest cut of a stream that starts with a piece starts with one byte. -/
theorem finest_pieces (some : piece ≠ []) (rest : List UInt8) :
    ∃ byte pieces, (Cut.finest maxDataSize_pos (piece ++ rest)).pieces = [byte] :: pieces := by
  obtain ⟨byte, bytes, rfl⟩ := List.exists_cons_of_ne_nil some
  exact ⟨byte, _, rfl⟩

theorem Known.asked_start (known : Known history s v) (asking : s.Asking f) :
    asked f s = some { host := HttpInfo.zero.host.str, path := HttpInfo.zero.path.str, origin := none } := by
  obtain ⟨listed, type, status⟩ := asking
  obtain ⟨c, client, fresh, _⟩ := known.client_reads listed type status
  have proxied : (s.node f).proxied = none := congrArg Session.proxied client
  refine Option.bind_eq_some_iff.mpr ⟨c, congrArg Session.cacheNode client, ?_⟩
  rw [fresh, proxied]
  rfl

theorem recorded_start (awaiting : s.Awaiting g) : recorded g s = none := by
  obtain ⟨_, _, _, incomplete⟩ := awaiting
  rw [recorded]
  cases node : (s.node g).cacheNode with
  | none => rfl
  | some c => exact if_neg (by rw [incomplete c node]; decide)

/-- What a first piece without a host and a path leads to. -/
theorem Known.asked_nothing (known : Known history s v) (asking : s.Asking f) {n : CacheNode}
    (first : (CacheNode.fresh none none initialBuffer).requested 0 ((ios 0).bring piece) = some n)
    (host : n.httpInfo.host.str = []) (path : n.httpInfo.path.str = []) :
    (receive f ios (piece :: pieces) s).map (asked f) =
      some (some { host := [], path := [], origin := (ios 0).connected }) := by
  rw [known.receive_request asking, first, Option.map_some, host, path]

theorem Known.asked_byte (known : Known history s v) (asking : s.Asking f) (byte : UInt8) :
    (receive f ios ([byte] :: pieces) s).map (asked f) =
      some (some { host := [], path := [], origin := (ios 0).connected }) := by
  have string : (cstring [byte]).length ≤ 1 := (List.takeWhile_prefix _).length_le
  have noEnd : ¬ cstr "\r\n\r\n" <:+: cstring [byte] := by
    intro ended
    have long : 4 ≤ (cstring [byte]).length := ended.length_le
    omega
  obtain ⟨n, first, zero⟩ := requested_unended (ios 0) (string.trans_lt (by decide)) noEnd maxDataSize_pos
  exact known.asked_nothing asking first (by rw [zero]; exact zero_str (by decide)) (by rw [zero]; exact zero_str (by decide))

/-- A request that is treated alike goes on, whatever its first piece is, and no host or path is parsed from it. -/
theorem Known.alike_piece (known : Known history s v) (known' : Known history' s' v') (asking : s.Asking f)
    (asking' : s'.Asking f') {rest : List UInt8} (alike : AskedAlike s s' f f' (piece ++ rest)) (some : piece ≠ [])
    (small : piece.length ≤ maxDataSize) (io : Io) (ample : io.memory.Ample) :
    ∃ n, (CacheNode.fresh none none initialBuffer).requested 0 (io.bring piece) = .some n ∧
      n.httpInfo.host.str = [] ∧ n.httpInfo.path.str = [] := by
  obtain ⟨byte, pieces, bytewise⟩ := finest_pieces some rest
  obtain ⟨outcome, here, there⟩ := alike (fun _ => io) (fun _ => ample) (.startingWith piece rest some small)
    (.finest maxDataSize_pos (piece ++ rest))
  rw [bytewise, known'.asked_byte asking'] at there
  rw [Cut.startingWith, known.receive_request asking, ← there] at here
  obtain ⟨n, first, same⟩ := Option.map_eq_some_iff.mp here
  injection same with same
  injection same with host path
  exact ⟨n, first, host, path⟩

theorem Known.asked_alike (known : Known history s v) (known' : Known history' s' v') (asking : s.Asking f)
    (asking' : s'.Asking f') : AskedAlike s s' f f' request ↔ NeverAsks request := by
  obtain ⟨rest, string⟩ : cstring request <+: request := List.takeWhile_prefix _
  constructor
  · intro alike
    have short : (cstring request).length < initialBuffer := by
      by_contra long
      have length : ((cstring request).take initialBuffer).length = initialBuffer :=
        List.length_take_of_le (Nat.le_of_not_lt long)
      have noNul : 0 ∉ (cstring request).take initialBuffer := fun nul =>
        not_mem_cstring request (List.mem_of_mem_take nul)
      rw [← string, ← List.take_append_drop initialBuffer (cstring request), List.append_assoc] at alike
      obtain ⟨n, first, _⟩ := known.alike_piece known' asking asking' alike
        (List.ne_nil_of_length_pos (by rw [length]; decide)) (by rw [length]; decide) .hostile full_ample
      rw [requested_hostile noNul length] at first
      cases first
    refine ⟨short, fun piece ⟨more, start⟩ ended key long => ?_⟩
    have size : piece.length < initialBuffer := by
      have length := congrArg List.length start
      rw [List.length_append] at length
      omega
    have text : cstring piece = piece :=
      cstring_eq_self fun nul => not_mem_cstring request (start ▸ List.mem_append_left _ nul)
    rw [← string, ← start, List.append_assoc] at alike
    have some : piece ≠ [] := by
      rintro rfl
      exact absurd ended.length_le (by decide)
    let io : Io := { Io.blank with memory := { Memory.full with key := key } }
    have ample : io.memory.Ample := ⟨full_ample.after, long, full_ample.value⟩
    have first := known.alike_piece known' asking asking' alike some (size.le.trans (by decide)) io ample
    rw [requested_asks_nothing_iff ample (by rw [text]; exact size) (by rw [text]; exact ended)
      (size.le.trans (by decide)), text] at first
    exact first
  · intro never ios ample cut cut'
    rcases cut.first with ⟨empty, rfl⟩ | ⟨piece, pieces, starts, start, some, small⟩
    · rcases cut'.first with ⟨empty', _⟩ | ⟨piece', _, _, start', some', _⟩
      · rw [empty, empty', receive, receive, Option.map_some, Option.map_some, known.asked_start asking,
          known'.asked_start asking']
        exact ⟨_, rfl, rfl⟩
      · exact absurd (List.prefix_nil.mp start') some'
    · rcases cut'.first with ⟨_, rfl⟩ | ⟨piece', pieces', starts', start', _, small'⟩
      · exact absurd (List.prefix_nil.mp start) some
      · obtain ⟨n, first, host, path⟩ := never.requested (ample 0) start small
        obtain ⟨n', first', host', path'⟩ := never.requested (ample 0) start' small'
        rw [starts, starts']
        exact ⟨_, known.asked_nothing asking first host path, known'.asked_nothing asking' first' host' path'⟩

theorem Known.recorded_alike (known' : Known history' s' v')
    (awaiting : s.Awaiting g) (awaiting' : s'.Awaiting g') : RecordedAlike s s' g g' response ↔ response = [] := by
  constructor
  · intro alike
    by_contra some
    obtain ⟨byte, pieces, bytewise⟩ := finest_pieces some []
    rw [List.append_nil] at bytewise
    obtain ⟨outcome, _, there⟩ := alike (fun _ => .hostile) (fun _ => full_ample) (.finest maxDataSize_pos response)
      (.finest maxDataSize_pos response)
    rw [bytewise, known'.receive_byte awaiting'] at there
    cases there
  · rintro rfl ios _ cut cut'
    have empty : ∀ cut : Cut maxDataSize ([] : List UInt8), cut.pieces = [] := by
      intro cut
      rcases cut.first with ⟨empty, _⟩ | ⟨piece, _, _, start, some, _⟩
      · exact empty
      · exact absurd (List.prefix_nil.mp start) some
    rw [empty cut, empty cut', receive, receive, Option.map_some, Option.map_some, recorded_start awaiting,
      recorded_start awaiting']
    exact ⟨_, rfl, rfl⟩

/-- Cuts do not matter exactly to requests of which no first piece asks for a host or a path, and to empty responses. -/
theorem cuts_alike_iff {slots : Nat} (two : 2 ≤ slots) (h : Ran slots history s) (h' : Ran slots history' s') :
    (∀ f f' request, s.Asking f → s'.Asking f' → (AskedAlike s s' f f' request ↔ NeverAsks request)) ∧
      ∀ g g' response, s.Awaiting g → s'.Awaiting g' → (RecordedAlike s s' g g' response ↔ response = []) := by
  obtain ⟨v, known⟩ := h.known two
  obtain ⟨v', known'⟩ := h'.known two
  exact ⟨fun f f' request asking asking' => known.asked_alike known' asking asking',
    fun g g' response awaiting awaiting' => known'.recorded_alike awaiting awaiting'⟩

def blankRequest : List UInt8 := cstr "GET  HTTP/1.0\r\n\r\n"

theorem blankRequest_neverAsks : NeverAsks blankRequest := by
  have string : cstring blankRequest = blankRequest := by decide +kernel
  refine ⟨by decide +kernel, fun piece start ended key _ => ?_⟩
  have only : ∀ n ≤ blankRequest.length, cstr "\r\n\r\n" <:+: blankRequest.take n → n = blankRequest.length := by
    decide +kernel
  rw [string] at start
  have taken := List.prefix_iff_eq_take.mp start
  have length := only piece.length start.length_le (taken ▸ ended)
  obtain rfl : piece = blankRequest := start.eq_of_length length
  have lines : viewLines (blankRequest ++ [0]) = [] := by decide +kernel
  have none : viewEntries key (blankRequest ++ [0]) = [] := by
    unfold viewEntries
    rw [lines, entries]
  refine ⟨⟨by decide +kernel, by decide +kernel, by decide +kernel, by decide +kernel, ?_, ?_, ?_, ?_⟩, by decide +kernel, ?_⟩
  · rw [lines]
    exact fun line member => absurd member List.not_mem_nil
  all_goals rw [none]
  · exact fun e member => absurd member List.not_mem_nil
  · exact fun e member => absurd member List.not_mem_nil
  · exact fun e member => absurd member List.not_mem_nil
  · rfl

theorem cuts_alike_one : ∃ history s, Ran 2 history s ∧ s.Asking 5 ∧ s.Awaiting 4 ∧ AskedAlike s s 5 5 (cstr "GET /a") ∧
    AskedAlike s s 5 5 blankRequest ∧ ¬ AskedAlike s s 5 5 (cstr "GET /a HTTP/1.0\r\nHost: a\r\n\r\n") ∧
    RecordedAlike s s 4 4 [] ∧ ¬ RecordedAlike s s 4 4 (cstr "HTTP/1.0 200 OK\r\n\r\n") := by
  have run : ((ProxyState.start 2 3 3).bind (·.trace
      [.accept 4, .request 3 "a" 5, .send 4 1500, .accept 6])).map (fun run =>
      (decide (run.2.Asking 5), decide (run.2.Awaiting 4))) = some (true, true) := by
    decide +kernel
  obtain ⟨⟨history, s⟩, trace, facts⟩ := Option.map_eq_some_iff.mp run
  obtain ⟨asking, awaiting⟩ := Prod.mk.inj facts
  rw [decide_eq_true_eq] at asking awaiting
  have ran := ran_of_trace trace
  obtain ⟨requests, responses⟩ := cuts_alike_iff (Nat.le_refl 2) ran ran
  refine ⟨history, s, ran, asking, awaiting, ?_, ?_, ?_, ?_, ?_⟩
  · refine (requests 5 5 _ asking asking).mpr ⟨by decide +kernel, fun piece start ended => ?_⟩
    exact absurd (ended.trans start.isInfix) (by decide +kernel)
  · exact (requests 5 5 _ asking asking).mpr blankRequest_neverAsks
  · intro alike
    have never := (requests 5 5 _ asking asking).mp alike
    have line := (never.ended (cstr "GET /a HTTP/1.0\r\nHost: a\r\n\r\n") (by decide +kernel) (by decide +kernel)
      Memory.full.key full_ample.key).path
    exact absurd line (by decide +kernel)
  · exact (responses 4 4 _ awaiting awaiting).mpr rfl
  · exact fun alike => absurd ((responses 4 4 _ awaiting awaiting).mp alike) (by decide +kernel)

/-- A request of 28 bytes cut after its first word is for no host. -/
theorem cut_request_misread : ¬ ∀ slots history history' s s', 2 ≤ slots → Ran slots history s → Ran slots history' s' →
    (∀ f f' request, s.Asking f → s'.Asking f' → AskedAlike s s' f f' request) ∧
      ∀ g g' response, s.Awaiting g → s'.Awaiting g' → RecordedAlike s s' g g' response := by
  intro claim
  let request := cstr "GET /a HTTP/1.0\r\nHost: a\r\n\r\n"
  let whole : Cut maxDataSize request := ⟨[request], by decide +kernel, by decide +kernel⟩
  let halves : Cut maxDataSize request := ⟨[request.take 4, request.drop 4], by decide +kernel, by decide +kernel⟩
  let io : Io := { Io.blank with connected := some 5, memory := .full }
  have run : ((ProxyState.start 2 3 3).bind (·.trace [.accept 4])).map (fun run => (decide (run.2.Asking 3),
      (receive 3 (fun _ => io) whole.pieces run.2).map (asked 3),
      (receive 3 (fun _ => io) halves.pieces run.2).map (asked 3))) =
      some (true, some (some ⟨cstr "a", cstr "/a", some 5⟩), some (some ⟨[], [], some 5⟩)) := by
    decide +kernel
  obtain ⟨⟨history, s⟩, trace, facts⟩ := Option.map_eq_some_iff.mp run
  obtain ⟨asking, facts⟩ := Prod.mk.inj facts
  obtain ⟨parsed, unparsed⟩ := Prod.mk.inj facts
  rw [decide_eq_true_eq] at asking
  have ran := ran_of_trace trace
  obtain ⟨outcome, here, there⟩ := (claim 2 history history s s (Nat.le_refl 2) ran ran).1 3 3 request asking asking
    (fun _ => io) (fun _ => full_ample) whole halves
  dsimp only at parsed unparsed
  rw [parsed, ← there, unparsed] at here
  cases here

end

end NetProjects.Proxy
