import NetProjects.Proxy.Refresh
import NetProjects.Proxy.Sending
import NetProjects.Proxy.Eviction

/-!
# What a client is sent

Where no eviction frees a document that a session refers to, a client is sent one whole response for
the URL it has asked for: the one just received for it, or the one that was received into the cached
document.
-/

namespace NetProjects.Proxy
open Bytes

/-! ### The document that is asked about -/

/-- A conditional get asks about a complete document of the URL requested, which is queued until it is freed. -/
def View.Backed (v : View) : Prop :=
  ∀ f g c b asked, Stage.fetching f g c (some b) asked ∈ v.stages →
    (b ∈ v.queue ∨ b ∈ v.freed) ∧ (v.doc b).complete = true ∧ (v.doc b).SameUrl (v.doc c)

section

variable {v w : View} {before after : List Stage} {st : Stage} {b c f g : Nat} {d : Doc} {asked : Bool}

theorem Doc.SameUrl.trans {d e i : Doc} (first : d.SameUrl e) (second : e.SameUrl i) : d.SameUrl i :=
  ⟨first.1.trans second.1, first.2.trans second.2⟩

theorem Doc.SameUrl.symm {d e : Doc} (same : d.SameUrl e) : e.SameUrl d := ⟨same.1.symm, same.2.symm⟩

theorem Doc.SameUrl.refl (d : Doc) : d.SameUrl d := ⟨rfl, rfl⟩

/-- The documents of the session of another owner are not the one fetched by `st`. -/
theorem View.Shared.apart (sound : Sound v) (shared : v.Shared) (stages : v.stages = before ++ st :: after)
    (mine : st.pending = some c) {d : Nat} {backup : Option Nat}
    (other : Stage.fetching f g d backup asked ∈ before ++ after) : d ≠ c ∧ backup ≠ some c := by
  refine ⟨?_, fun same => ?_⟩
  · rintro rfl
    exact sound.pending_apart stages mine (List.mem_filterMap.mpr ⟨_, other, rfl⟩)
  · exact (shared _ (mem_removed stages other) c same).1 (mem_pending stages mine)

/-- A move that replaces the document fetched by one session leaves those of the others. -/
theorem View.Backed.removed (sound : Sound v) (shared : v.Shared) (backed : v.Backed)
    (stages : v.stages = before ++ st :: after) (mine : st.pending = some c) :
    ((v.setDoc c d).setStages (before ++ after)).Backed := by
  intro f g e b asked member
  obtain ⟨other, apart⟩ := shared.apart sound stages mine member
  have bc : b ≠ c := fun same => apart (congrArg some same)
  obtain ⟨there, complete, same⟩ := backed f g e b asked (mem_removed stages member)
  refine ⟨there, ?_, ?_⟩
  · show ((v.setDoc c d).doc b).complete = true
    rw [View.setDoc_of_ne v bc]
    exact complete
  · show ((v.setDoc c d).doc b).SameUrl ((v.setDoc c d).doc e)
    rw [View.setDoc_of_ne v bc, View.setDoc_of_ne v other]
    exact same

theorem View.Backed.replaced {stages : List Stage} (backed : (v.setStages (before ++ after)).Backed) {st' : Stage}
    (split : stages = before ++ st' :: after)
    (new : ∀ f g c b asked, st' = .fetching f g c (some b) asked →
      (b ∈ v.queue ∨ b ∈ v.freed) ∧ (v.doc b).complete = true ∧ (v.doc b).SameUrl (v.doc c)) :
    (v.setStages stages).Backed := by
  intro f g c b asked member
  replace member : Stage.fetching f g c (some b) asked ∈ stages := member
  rw [split] at member
  rcases List.mem_append.mp member with first | here
  · exact backed f g c b asked (List.mem_append_left _ first)
  · rcases List.mem_cons.mp here with same | last
    · exact new f g c b asked same.symm
    · exact backed f g c b asked (List.mem_append_right _ last)

theorem View.Backed.setStages (backed : v.Backed) {stages : List Stage}
    (old : ∀ f g c b asked, Stage.fetching f g c (some b) asked ∈ stages →
      ∃ asked', Stage.fetching f g c (some b) asked' ∈ v.stages) : (v.setStages stages).Backed := by
  intro f g c b asked member
  obtain ⟨asked', member'⟩ := old f g c b asked member
  exact backed f g c b asked' member'

theorem View.Backed.complete (backed : v.Backed) (c : Nat) : (v.setDoc c { v.doc c with complete := true }).Backed := by
  have same : ∀ a, ((v.setDoc c { v.doc c with complete := true }).doc a).SameUrl (v.doc a) ∧
      ((v.doc a).complete = true → ((v.setDoc c { v.doc c with complete := true }).doc a).complete = true) := by
    intro a
    by_cases here : a = c
    · rw [here, View.setDoc_self]
      exact ⟨⟨rfl, rfl⟩, fun _ => rfl⟩
    · rw [View.setDoc_of_ne v here]
      exact ⟨.refl _, id⟩
  intro f g e b asked member
  obtain ⟨there, whole, urls⟩ := backed f g e b asked member
  exact ⟨there, (same b).2 whole, ((same b).1.trans urls).trans (same e).1.symm⟩

theorem Move.backed (sound : Sound v) (shared : v.Shared) (backed : v.Backed) (move : Move v w) : w.Backed := by
  cases move with
  | stay => exact backed
  | @accepted f =>
    intro g h c b asked member
    rcases List.mem_cons.mp member with same | old
    · cases same
    · obtain ⟨there, complete, same⟩ := backed g h c b asked old
      have bTop : b ≠ v.cacheTop := by
        rintro rfl
        exact Nat.lt_irrefl _ (shared _ old _ rfl).2
      have cTop : c ≠ v.cacheTop := by
        rintro rfl
        exact Nat.lt_irrefl _ (sound.pending _ (List.mem_filterMap.mpr ⟨_, old, rfl⟩)).1
      refine ⟨there, ?_, ?_⟩
      · exact (congrArg Doc.complete (Function.update_of_ne bTop _ v.doc)).trans complete
      · show Doc.SameUrl (Function.update v.doc v.cacheTop _ b) (Function.update v.doc v.cacheTop _ c)
        rw [Function.update_of_ne bTop, Function.update_of_ne cTop]
        exact same
  | dropped stages _ => exact backed.removed sound shared stages rfl
  | @connected f g c d before after stages _ =>
    refine (backed.removed sound shared stages rfl).replaced rfl ?_
    intro f' g' c' b asked new
    obtain ⟨_, _, rfl, found, _⟩ := Stage.fetching.inj new
    obtain ⟨queued, complete, same⟩ := hit_some found
    exact ⟨.inl queued, complete, same.trans (by rw [View.setDoc_self]; exact .refl d)⟩
  | asked stages =>
    refine backed.setStages fun f g c b asked member => ?_
    rcases mem_replaced stages member with same | old
    · obtain ⟨rfl, rfl, rfl, rfl, _⟩ := Stage.fetching.inj same
      exact ⟨false, mem_here stages⟩
    · exact ⟨asked, old⟩
  | @received f g c backup before after stages =>
    exact backed.complete c
  | @finished f g c d backup before after w stages document stored =>
    have kept : ((v.setDoc c { v.doc c with complete := true }).setStages
        (before ++ .answering f d :: after)).Backed := by
      refine (backed.complete c).setStages fun f g c b asked member => ?_
      rcases mem_replaced stages member with same | old
      · cases same
      · exact ⟨asked, old⟩
    cases stored with
    | known => exact kept
    | @fresh rest r _ queue =>
      intro f g c b asked member
      obtain ⟨there, complete⟩ := kept f g c b asked member
      refine ⟨?_, complete⟩
      rcases there with queued | freed
      · rw [queue] at queued
        rcases List.mem_append.mp queued with old | rear
        · exact .inl (List.mem_cons_of_mem _ old)
        · exact .inr (List.mem_append_right _ rear)
      · exact .inr (List.mem_append_left _ freed)
  | sent stages => exact backed.setStages fun f g c b asked member => ⟨asked, mem_removed stages member⟩

end

/-! ### What is kept of a document -/

/-- All that an origin has sent into the document `a` for this URL, up to the close; it is not a 304. -/
def Responded (history : List Transition) (a : Nat) (d : Doc) (response : List UInt8) : Prop :=
  ∃ before x after, history = before ++ x :: after ∧ x.Closes a ∧ (x.before.doc a).SameUrl d ∧
    ¬ Is304 (received x.event.node before) ∧ response = received x.event.node before

/-- The document `a` holds a whole response. -/
structure Held (history : List Transition) (s : ProxyState) (a : Nat) : Prop where
  whole : ∃ response, Responded history a (s.doc a) response ∧ response <+: (s.content a).buffer
  length : (s.content a).buffer.length = (s.content a).bufferSize

/-- The proxy has read the request of the client `f` for this URL. -/
def Requested (history : List Transition) (f : Nat) (d : Doc) : Prop :=
  ∃ x ∈ history, x.event.node = f ∧ (x.before.node f).type = .client ∧ (x.before.node f).status = .reading ∧
    ∃ c, (x.before.node f).cacheNode = some c ∧ (x.after.doc c).SameUrl d

/-- The client `f` has been sent a part of the document `d`. -/
structure Sends (history : List Transition) (s : ProxyState) (f d : Nat) : Prop where
  document : Held history s d
  requested : Requested history f (s.doc d)
  offset : 0 ≤ (s.node f).offset ∧ (s.node f).offset ≤ (s.content d).bufferSize
  written : written f history = ((s.content d).buffer.take (s.node f).offset.toNat).map some

/-- What is known of the client `f`. -/
def Delivering (history : List Transition) (s : ProxyState) (f : Nat) : Prop :=
  match (s.node f).type, (s.node f).status with
  | .client, .reading => written f history = []
  | .client, .idle => written f history = [] ∧ (s.node f).offset = 0 ∧
      ∀ c, (s.node f).cacheNode = some c → Requested history f (s.doc c)
  | .client, .writing => ∀ d, (s.node f).cacheNode = some d → Sends history s f d
  | _, _ => True

section

variable {s t : ProxyState} {v w : View} {a b c d f g p : Nat} {e : Event} {io : Io}
  {history : List Transition} {x : Transition}

theorem Requested.step {i j : Doc} (requested : Requested history f i) (same : i.SameUrl j) :
    Requested (history ++ [x]) f j := by
  obtain ⟨y, member, here, type, status, c, node, url⟩ := requested
  exact ⟨y, List.mem_append_left _ member, here, type, status, c, node, url.trans same⟩

theorem doc_url {m n : CacheNode} (host : m.httpInfo.host = n.httpInfo.host)
    (path : m.httpInfo.path = n.httpInfo.path) :
    m.httpInfo.doc.SameUrl n.httpInfo.doc :=
  ⟨congrArg Field.str host, congrArg Field.str path⟩

/-- No document changes its URL but that of a client whose request is read. -/
theorem Served.url (served : Served s f io t) (allocated : a < s.cache.nodes.top)
    (unasked : ∀ c, s.session f = .client .reading none c → a ≠ c) : (t.doc a).SameUrl (s.doc a) := by
  have kept : ∀ {y : Snapshot}, Shows t y → (y.content a).httpInfo.doc.SameUrl (s.doc a) →
      (t.doc a).SameUrl (s.doc a) := by
    intro y shows same
    show (t.content a).httpInfo.doc.SameUrl _
    rw [shows.info]
    exact same
  have heard : ∀ {c n}, (s.content c).heard (s.node f).offset io = some n →
      (Function.update s.content c n a).httpInfo.doc.SameUrl (s.doc a) := by
    intro c n heard
    by_cases here : a = c
    · obtain ⟨host, path⟩ := heard_url heard
      rw [here, Function.update_self]
      exact doc_url host path
    · rw [Function.update_of_ne here]
      exact .refl _
  cases served with
  | still _ shows | sent _ _ _ _ shows | asked _ _ _ shows | answered _ _ _ shows => exact kept shows (.refl _)
  | accepted _ shows =>
    refine kept shows ?_
    dsimp only
    rw [Function.update_of_ne (Nat.ne_of_lt allocated)]
    exact .refl _
  | dropped client _ shows | connected client _ shows =>
    refine kept shows ?_
    dsimp only
    rw [Function.update_of_ne (unasked _ client)]
    exact .refl _
  | received _ now _ _ shows => exact kept shows (heard now)
  | @finished p c d backup n content entries server _ now ends _ shows =>
    refine kept shows ?_
    cases ends with
    | closed => exact heard now
    | @notModified b date =>
      dsimp only
      by_cases here : a = d
      · rw [here, Function.update_self]
        exact .refl _
      · rw [Function.update_of_ne here]
        exact heard now

/-- A document that is neither received into nor freed keeps its bytes. -/
theorem Served.bytes (served : Served s f io t) (allocated : a < s.cache.nodes.top)
    (apart : ∀ c, (s.node f).Owns c → a ≠ c) (alive : a ∉ t.cache.nodes.freed) :
    (t.content a).buffer = (s.content a).buffer ∧ (t.content a).bufferSize = (s.content a).bufferSize := by
  obtain ⟨y, shows, same | ⟨date, same⟩⟩ := served.unowned allocated apart
  · rw [shows.content a alive, same]
    exact ⟨rfl, rfl⟩
  · rw [shows.content a alive, same]
    exact ⟨rfl, rfl⟩

theorem Responded.step {i j : Doc} {response : List UInt8} (responded : Responded history a i response)
    (same : i.SameUrl j) :
    Responded (history ++ [x]) a j response := by
  obtain ⟨before, y, after, rfl, closes, url, other, rfl⟩ := responded
  refine ⟨before, y, after ++ [x], ?_, closes, url.trans same, other, rfl⟩
  rw [List.append_assoc, List.cons_append]

theorem Held.step (held : Held history s a)
    (bytes : (t.content a).buffer = (s.content a).buffer ∧ (t.content a).bufferSize = (s.content a).bufferSize)
    (url : (t.doc a).SameUrl (s.doc a)) : Held (history ++ [x]) t a := by
  obtain ⟨⟨response, responded, holds⟩, length⟩ := held
  refine ⟨⟨response, responded.step url.symm, ?_⟩, ?_⟩
  · rw [bytes.1]
    exact holds
  · rw [bytes.1, bytes.2]
    exact length

/-- The document of a client that waits is its server's. -/
theorem Known.waiting (known : Known history s v) (listed : f ∈ s.fds) (type : (s.node f).type = .client)
    (idle : (s.node f).status = .idle) (node : (s.node f).cacheNode = some c) :
    ∃ g backup asked, g ∈ s.fds ∧ s.session g = .server f c backup asked ∧
      Stage.fetching f g c backup asked ∈ v.stages := by
  obtain ⟨front, rear, xs, list⟩ := known.represents.list
  replace type : (s.session f).type = .client := type
  replace idle : (s.session f).status = .idle := idle
  replace node : (s.session f).cacheNode = some c := node
  cases list.role listed with
  | @waiting g c' backup asked member client server =>
    obtain rfl : c' = c := Option.some.inj ((congrArg Session.cacheNode client).symm.trans node)
    have mine : g ∈ s.fds := list.mem_fds.mpr (.inl (.inr (.inr ⟨_, member, by simp [Stage.nodes]⟩)))
    exact ⟨g, backup, asked, mine, server, member⟩
  | dummy here | listener here | serving _ _ here =>
    rw [here] at type
    cases type
  | asking _ here | answering _ here =>
    rw [here] at idle
    cases idle

/-- A client that is written to is sent the next bytes of its document. -/
theorem client_send (type : (s.node e.node).type = .client) (writing : (s.node e.node).status = .writing)
    (node : (s.node e.node).cacheNode = some d) (next : step s e = some t) :
    ∃ send, SendMade s e.node d e.io send ∧ t.sends = s.sends ++ [send] := by
  unfold Proxy.step at next
  split at next
  · replace type : (s.fdNodes.cell e.node).type = .client := type
    replace writing : (s.fdNodes.cell e.node).status = .writing := writing
    simp only [Proxy.serve, type, writing, reduceCtorEq, if_false, if_true] at next
    obtain ⟨u, sent, next⟩ := Option.bind_eq_some_iff.mp next
    obtain ⟨send, made, sends, _⟩ := cacheSend_made node sent
    refine ⟨send, made, Eq.trans ?_ sends⟩
    split at next
    · obtain ⟨nodes, _, next⟩ := Option.bind_eq_some_iff.mp next
      obtain rfl := Option.some.inj next
      rfl
    · obtain rfl := Option.some.inj next
      rfl
  · cases next

/-- One more `send` of a document goes on where the last one ended. -/
theorem sends_next (sends : Sends history s e.node d) (type : (s.node e.node).type = .client)
    (writing : (s.node e.node).status = .writing) (node : (s.node e.node).cacheNode = some d)
    (next : step s e = some t) (all : AllSent (history ++ [⟨s, e, t⟩]))
    (small : (s.content d).bufferSize < 2 ^ 31) :
    ∃ send : Send, t.sends = s.sends ++ [send] ∧ 0 ≤ send.numbytes ∧
      (s.node e.node).offset + send.numbytes ≤ (s.content d).bufferSize ∧
      written e.node (history ++ [⟨s, e, t⟩]) =
        ((s.content d).buffer.take ((s.node e.node).offset + send.numbytes).toNat).map some := by
  obtain ⟨send, made, more⟩ := client_send type writing node next
  obtain ⟨low, high⟩ := sends.offset
  have valid := all.last more
  have length := sends.document.length
  have fits : (s.node e.node).offset + send.numbytes ≤ (s.content d).bufferSize := by
    have count := made.numbytes
    rw [sentBytes, int32_eq (by omega) (by omega)] at count
    omega
  have plain : ¬ (s.node e.node).Conditional := fun conditional => by cases type.symm.trans conditional.1
  obtain ⟨array, start⟩ := made.plain plain
  have here : (send.start : Int) = ((s.node e.node).offset.toNat : Nat) := by rw [start]; omega
  have bytes := bytes_slice here (by rw [array, length]; omega)
  refine ⟨send, more, valid, fits, ?_⟩
  have sum : ((s.node e.node).offset + send.numbytes).toNat =
      (s.node e.node).offset.toNat + send.numbytes.toNat := by omega
  rw [written_here history ⟨s, e, t⟩, sent_of_sends (x := ⟨s, e, t⟩) more, List.flatMap_singleton,
    sends.written, bytes,
    array, sum, List.take_add, List.map_append]

end

/-! ### Runs -/

/-- What is known in a run in which no eviction has met a reference. -/
structure Delivers (history : List Transition) (s : ProxyState) (v : View) : Prop where
  known : Known history s v
  backed : v.Backed
  live : v.Live
  queued : ∀ a ∈ s.cache.entries, (s.content a).httpInfo.infoComplete = true → Held history s a
  nodes : ∀ f ∈ s.fds, Delivering history s f

section

variable {s t : ProxyState} {v w : View} {a b c d f g p : Nat} {e : Event} {io : Io}
  {history : List Transition} {x : Transition}

theorem Known.move (known : Known history s v) (next : step s e = some t) :
    ∃ w, Known (history ++ [⟨s, e, t⟩]) t w ∧ Move v w := by
  obtain ⟨w, refines⟩ := step_refines known.represents known.sound next
  obtain ⟨_, _, _, known'⟩ := known.served next
  exact ⟨w, ⟨refines.represents, refines.move.sound known.sound, refines.move.shared known.sound known.shared,
    known'.bound, known'.tracked⟩, refines.move⟩

/-- No node of the list refers to a freed document. -/
theorem Represents.live_iff (h : Represents s v) : v.Live ↔ ∀ f ∈ s.fds, ∀ a,
    (s.node f).cacheNode = some a ∨ (s.node f).cacheNodeBackup = some a → a ∉ s.cache.nodes.freed := by
  obtain ⟨⟨front, rear, xs, list⟩, cache⟩ := h
  rw [cache.freed]
  constructor
  · intro live f listed a refers
    exact live a (list.refs_iff.mpr ⟨f, listed, refers⟩)
  · intro live a member
    obtain ⟨f, listed, refers⟩ := list.refs_iff.mp member
    exact live f listed a refers

theorem Delivers.live_next (delivers : Delivers history s v) (safe : EvictsSafely s e) (next : step s e = some t)
    (represents : Represents t w) : w.Live := by
  obtain ⟨_, represents', _, live, _⟩ :=
    step_live delivers.known.represents delivers.known.sound delivers.live safe next
  exact represents.live_iff.mpr (represents'.live_iff.mp live)

/-- A conditional get asks about a complete document of the queue under the URL requested. -/
theorem Delivers.backup (delivers : Delivers history s v) (listed : g ∈ s.fds) {asked : Bool}
    (server : s.session g = .server p c (some b) asked) :
    b ∈ s.cache.entries ∧ (s.content b).httpInfo.infoComplete = true ∧ (s.doc b).SameUrl (s.doc c) := by
  obtain ⟨⟨front, rear, xs, list⟩, cache⟩ := id delivers.known.represents
  obtain ⟨q, c', backup, asked', member, _, server'⟩ := list.server listed (congrArg Session.type server)
  have same := server.symm.trans server'
  obtain rfl : c = c' := Option.some.inj (congrArg Session.cacheNode same)
  obtain rfl : some b = backup := congrArg Session.backup same
  obtain ⟨there, complete, url⟩ := delivers.backed q g c b asked' member
  rw [← cache.doc] at complete url
  refine ⟨?_, complete, url⟩
  rw [cache.entries_eq]
  refine there.resolve_right (delivers.live b ?_)
  exact List.mem_flatMap.mpr ⟨_, member, List.mem_cons_of_mem _ (Option.mem_toList.mpr rfl)⟩

/-- A response taken for a 304 finds its URL cached. -/
theorem Delivers.cached (delivers : Delivers history s v) (listed : e.node ∈ s.fds)
    (taken : (Transition.mk s e t).TakenFor304) : (Transition.mk s e t).lookup ≠ none := by
  obtain ⟨type, reads, c, node, flag, _⟩ := taken
  obtain ⟨front, rear, xs, list⟩ := delivers.known.represents.list
  obtain ⟨p, c', backup, asked, _, _, server⟩ := list.server listed type
  obtain rfl : c = c' := Option.some.inj (node.symm.trans (congrArg Session.cacheNode server))
  replace flag : (s.session e.node).flag = 1 := flag
  rw [server] at flag
  cases backup with
  | none => cases flag
  | some b =>
    obtain ⟨queued, complete, url⟩ := delivers.backup listed server
    intro missing
    rw [Transition.lookup, node] at missing
    replace missing : isCacheHit s.cache (s.content c).httpInfo = none := missing
    have cache := delivers.known.represents.cache
    rw [cache.isCacheHit_eq] at missing
    rw [cache.entries_eq] at queued
    have whole : (v.doc b).complete = true := by
      rw [← cache.doc]
      exact complete
    refine hit_none missing queued whole ?_
    rw [← cache.doc]
    exact url

theorem Delivers.held (delivers : Delivers history s v) (next : step s e = some t) (held : Held history s a)
    (allocated : a < s.cache.nodes.top) (apart : ∀ c, (s.node e.node).Owns c → a ≠ c)
    (alive : a ∉ t.cache.nodes.freed) :
    Held (history ++ [⟨s, e, t⟩]) t a := by
  obtain ⟨_, served, _⟩ := delivers.known.served next
  have url := served.url allocated fun c client => apart c (owns_reading client)
  exact held.step (served.bytes allocated apart alive) url

/-- What a server has received is held once its origin has closed. -/
theorem Known.held_closed {backup : Option Nat} (known : Known history s v) (next : step s e = some t)
    (only : OnlyConditional (history ++ [⟨s, e, t⟩])) (server : s.session e.node = .server p c backup true)
    (heard : (s.content c).heard (s.node e.node).offset e.io = some (t.content c)) (ended : e.io.received = some []) :
    Held (history ++ [⟨s, e, t⟩]) t c := by
  obtain ⟨listed, served, _⟩ := known.served next
  have type : (s.node e.node).type = .server := congrArg Session.type server
  have reads : s.Reads e.node := ⟨congrArg Session.status server, .inr type⟩
  have allocated := (known.represents.owned_live known.sound listed (owns_server server)).1
  have url : (s.doc c).SameUrl (t.doc c) := by
    refine (served.url allocated fun d client => ?_).symm
    cases congrArg Session.type (server.symm.trans client)
  have nothing : (Transition.mk s e t).event.io.chunk = [] := chunk_of_closed ended
  obtain ⟨fetched, _, other⟩ := (known.tracked e.node listed).heard (t := t) server heard
  have same : received e.node (history ++ [⟨s, e, t⟩]) = received e.node history := by
    rw [received_reads (x := ⟨s, e, t⟩) ⟨rfl, reads⟩, nothing, List.append_nil]
  have holds := fetched.holds
  rw [same] at other holds
  have closes : (Transition.mk s e t).Closes c := ⟨type, reads, congrArg Session.cacheNode server, ended⟩
  refine ⟨⟨_, ⟨history, ⟨s, e, t⟩, [], rfl, closes, url, other ?_ only, rfl⟩,
    holds⟩, fetched.length⟩
  rintro ⟨_, _, info, parsed, _⟩
  exact parseResponse_arrived parsed nothing

theorem Delivers.queued_next (delivers : Delivers history s v) (next : step s e = some t)
    (only : OnlyConditional (history ++ [⟨s, e, t⟩])) (after : a ∈ t.cache.entries)
    (complete : (t.content a).httpInfo.infoComplete = true) : Held (history ++ [⟨s, e, t⟩]) t a := by
  have known := delivers.known
  obtain ⟨listed, served, w, known'⟩ := known.served next
  have old : a ∈ s.cache.entries → Held (history ++ [⟨s, e, t⟩]) t a := by
    intro before
    obtain ⟨_, same⟩ := known.queued next before after
    have live := (known.represents.queued_live known.sound before).1
    refine delivers.held next (delivers.queued a before (same ▸ complete)) live ?_
      (known'.represents.queued_live known'.sound after).2
    rintro c owns rfl
    exact (known.represents.owned_live known.sound listed owns).2.1 before
  rcases served.entries with same | ⟨c, stores⟩
  · exact old (same ▸ after)
  · obtain ⟨rest, r, rear, entries⟩ := stores.queue
    rw [entries] at after
    rcases List.mem_cons.mp after with rfl | inside
    · have heard := known.stored next stores
      obtain ⟨⟨p, backup, server⟩, miss, _, _, _, _, _, ends, _⟩ := stores
      have node : (s.node e.node).cacheNode = some a := congrArg Session.cacheNode server
      have type : (s.node e.node).type = .server := congrArg Session.type server
      cases ends with
      | closed ended => exact known.held_closed next only server heard ended
      | notModified modified =>
        have reads : s.Reads e.node := ⟨congrArg Session.status server, .inr type⟩
        refine absurd ?_ (delivers.cached (t := t) listed ⟨type, reads, a, node, modified⟩)
        rw [Transition.lookup, node]
        exact miss
    · refine old ?_
      rw [rear]
      exact List.mem_append_left _ inside

/-- The document of a waiting client is not that of a client whose request is read. -/
theorem Known.waiting_apart (known : Known history s v) (listed : f ∈ s.fds) (here : e.node ∈ s.fds)
    (type : (s.node f).type = .client) (idle : (s.node f).status = .idle) (node : (s.node f).cacheNode = some c) :
    c < s.cache.nodes.top ∧ ∀ d, s.session e.node = .client .reading none d → c ≠ d := by
  obtain ⟨g, backup, asked, member, server, _⟩ := known.waiting listed type idle node
  refine ⟨(known.represents.owned_live known.sound member (owns_server server)).1, fun d client => ?_⟩
  rintro rfl
  obtain rfl := known.represents.owner_unique known.sound member here (owns_server server) (owns_reading client)
  cases congrArg Session.type (server.symm.trans client)

/-- An event keeps what is known of a client that it does not change. -/
theorem Delivers.kept (delivers : Delivers history s v) (next : step s e = some t) (listed : f ∈ s.fds)
    (alive : ∀ d, (t.node f).cacheNode = some d → d ∉ t.cache.nodes.freed) (node : t.node f = s.node f)
    (unwritten : written f (history ++ [⟨s, e, t⟩]) = written f history) :
    Delivering (history ++ [⟨s, e, t⟩]) t f := by
  have known := delivers.known
  obtain ⟨here, served, _⟩ := known.served next
  have now := delivers.nodes f listed
  unfold Delivering at now ⊢
  rw [node, unwritten]
  rw [node] at alive
  split
  · rename_i type status
    rwa [type, status] at now
  · rename_i type status
    rw [type, status] at now
    obtain ⟨nothing, offset, requested⟩ := now
    refine ⟨nothing, offset, fun c document => ?_⟩
    obtain ⟨allocated, apart⟩ := known.waiting_apart listed here type status document
    exact (requested c document).step (served.url allocated apart).symm
  · rename_i type status
    rw [type, status] at now
    intro d document
    obtain ⟨held, requested, offset, written⟩ := now d document
    obtain ⟨allocated, apart⟩ := known.answering listed type status document
    obtain ⟨buffer, size⟩ := served.bytes allocated (apart e.node here) (alive d document)
    have unasked : ∀ c, s.session e.node = .client .reading none c → d ≠ c :=
      fun c client => apart e.node here c (owns_reading client)
    have url := served.url allocated unasked
    refine ⟨held.step ⟨buffer, size⟩ url, requested.step url.symm, ?_, ?_⟩
    · rw [node, size]
      exact offset
    · rw [node, buffer, unwritten]
      exact written
  · trivial

/-- A client whose server has ended is given a document of the URL that it has asked for. -/
theorem Delivers.woken (delivers : Delivers history s v) (next : step s e = some t) (listed : f ∈ s.fds)
    (only : OnlyConditional (history ++ [⟨s, e, t⟩])) {backup : Option Nat} {n : CacheNode}
    {content : Nat → CacheNode}
    (alive : d ∉ t.cache.nodes.freed) (server : s.session e.node = .server f c backup true)
    (client : s.session f = .client .idle (some e.node) c)
    (heard : (s.content c).heard (s.node e.node).offset e.io = some n) (ends : Ends s e.node c e.io n d content)
    (node : t.node f = { s.node f with cacheNode := some d, status := .writing })
    (contents : ∀ a, a ∉ t.cache.nodes.freed → t.content a = content a)
    (unwritten : written f (history ++ [⟨s, e, t⟩]) = written f history) :
    Delivering (history ++ [⟨s, e, t⟩]) t f := by
  have known := delivers.known
  obtain ⟨here, served, _⟩ := known.served next
  have type : (s.node f).type = .client := congrArg Session.type client
  have idle : (s.node f).status = .idle := congrArg Session.status client
  have document : (s.node f).cacheNode = some c := congrArg Session.cacheNode client
  have now := delivers.nodes f listed
  unfold Delivering at now ⊢
  rw [type, idle] at now
  obtain ⟨nothing, offset, requested⟩ := now
  obtain ⟨allocated, unasked⟩ := known.waiting_apart listed here type idle document
  rw [node]
  dsimp only
  rw [type]
  intro d' document'
  obtain rfl := Option.some.inj document'
  have given : Held (history ++ [⟨s, e, t⟩]) t d ∧ (s.doc c).SameUrl (t.doc d) := by
    cases ends with
    | closed ended =>
      refine ⟨known.held_closed next only server ?_ ended, (served.url allocated unasked).symm⟩
      rw [contents c alive, Function.update_self]
      exact heard
    | @notModified b date _ backs _ =>
      rw [server] at backs
      obtain rfl : backup = some d := backs
      obtain ⟨queued, complete, url⟩ := delivers.backup here server
      have old := (known.represents.queued_live known.sound queued).1
      have apart : ∀ c, (s.node e.node).Owns c → d ≠ c := by
        rintro c owns rfl
        exact (known.represents.owned_live known.sound here owns).2.1 queued
      refine ⟨delivers.held next (delivers.queued d queued complete) old apart alive, url.symm.trans ?_⟩
      exact (served.url old fun c client => apart c (owns_reading client)).symm
  refine ⟨given.1, (requested c document).step given.2, ?_, ?_⟩
  · rw [node]
    show 0 ≤ (s.node f).offset ∧ (s.node f).offset ≤ _
    rw [offset]
    exact ⟨le_refl _, Int.natCast_nonneg _⟩
  · rw [node, unwritten, nothing]
    show _ = List.map some (List.take (s.node f).offset.toNat _)
    rw [offset]
    rfl

/-- The node served, if it stays in the list. -/
theorem Delivers.here (delivers : Delivers history s v) (next : step s e = some t) (listed : e.node ∈ t.fds)
    (alive : ∀ d, (t.node e.node).cacheNode = some d → d ∉ t.cache.nodes.freed)
    (all : AllSent (history ++ [⟨s, e, t⟩]))
    (small : ∀ a < s.cache.nodes.top, (s.content a).bufferSize < 2 ^ 31) :
    Delivering (history ++ [⟨s, e, t⟩]) t e.node := by
  have known := delivers.known
  obtain ⟨here, served, _⟩ := known.served next
  have older : e.node ≠ s.fdNodes.top := Nat.ne_of_lt (known.represents.fds_lt here)
  have unsent : t.sends = s.sends → written e.node (history ++ [⟨s, e, t⟩]) = written e.node history := by
    intro same
    refine written_unsent (sent_of_sends ?_)
    rw [List.append_nil]
    exact same
  have gone : e.node ∉ s.fds.filter (· ≠ e.node) := fun member => of_decide_eq_true (List.mem_filter.mp member).2 rfl
  have serving : (t.node e.node).type = .server → Delivering (history ++ [⟨s, e, t⟩]) t e.node := by
    intro type
    unfold Delivering
    rw [type]
    trivial
  have now := delivers.nodes e.node here
  cases served with
  | still idle shows => exact delivers.kept next here alive (congrFun shows.node e.node) (unsent shows.sends)
  | accepted idle shows =>
    refine delivers.kept next here alive ?_ (unsent shows.sends)
    rw [shows.node]
    exact Function.update_of_ne older _ _
  | dropped _ _ shows | answered _ _ _ shows | finished _ _ _ _ _ shows =>
    exact absurd ((shows.listed _).mp listed) gone
  | @connected c n fd client _ shows =>
    have type : (s.node e.node).type = .client := congrArg Session.type client
    have reading : (s.node e.node).status = .reading := congrArg Session.status client
    have document : (s.node e.node).cacheNode = some c := congrArg Session.cacheNode client
    have waiting := congrFun shows.node e.node
    dsimp only at waiting
    rw [Function.update_of_ne older, Function.update_self] at waiting
    unfold Delivering at now ⊢
    rw [type, reading] at now
    rw [waiting, unsent shows.sends]
    dsimp only
    rw [type]
    refine ⟨now, rfl, fun d same => ?_⟩
    exact ⟨⟨s, e, t⟩, List.mem_append_right _ List.mem_cons_self, rfl, type, reading, d, same, .refl _⟩
  | @sent c send writing document _ more shows =>
    have moved := congrFun shows.node e.node
    dsimp only at moved
    rw [Function.update_self] at moved
    cases type : (s.node e.node).type with
    | dummy | listen | server =>
      unfold Delivering
      rw [moved]
      dsimp only
      rw [type]
      trivial
    | client =>
      unfold Delivering at now
      rw [type, writing] at now
      obtain ⟨allocated, apart⟩ := known.answering here type writing document
      obtain ⟨send', same, valid, fits, written⟩ :=
        sends_next (now c document) type writing document next all (small c allocated)
      obtain rfl : send = send' := by
        have sends := shows.sends.symm.trans same
        exact List.head_eq_of_cons_eq (List.append_cancel_left sends)
      have after := alive c (by rw [moved]; exact document)
      obtain ⟨buffer, size⟩ := (known.served next).2.1.bytes allocated (apart e.node here) after
      have low := (now c document).offset.1
      unfold Delivering
      rw [moved]
      dsimp only
      rw [type, writing]
      intro d same
      obtain rfl := Option.some.inj (document.symm.trans same)
      have url := (known.served next).2.1.url allocated fun d client => apart e.node here d (owns_reading client)
      refine ⟨(now c document).document.step ⟨buffer, size⟩ url,
        (now c document).requested.step url.symm, ?_, ?_⟩
      · rw [moved, size]
        exact ⟨by dsimp only; omega, fits⟩
      · rw [moved, buffer]
        exact written
  | @asked p c backup send server _ _ shows =>
    apply serving
    rw [shows.node]
    dsimp only
    rw [Function.update_self]
    exact congrArg Session.type server
  | @received p c backup n server _ _ _ shows =>
    apply serving
    rw [shows.node]
    dsimp only
    rw [Function.update_self]
    exact congrArg Session.type server

/-- A client that is written to leaves the list when its whole document has been sent. -/
theorem Served.written_whole (served : Served s f io t) (listed : f ∈ s.fds) (gone : f ∉ t.fds)
    (document : (s.node f).cacheNode = some d) (type : (s.node f).type = .client) (writing : (s.node f).status = .writing)
    {send : Send} (sends : t.sends = s.sends ++ [send]) : SentAll (s.content d) ((s.node f).offset + send.numbytes) := by
  cases served with
  | still _ shows | sent _ _ _ _ shows | asked _ _ _ shows | received _ _ _ _ shows =>
    exact absurd ((shows.listed f).mpr listed) gone
  | accepted _ shows | connected _ _ shows =>
    exact absurd ((shows.listed f).mpr (List.mem_cons_of_mem _ listed)) gone
  | dropped client => cases writing.symm.trans (congrArg Session.status client)
  | @answered g d' send' client bytes all shows =>
    obtain rfl : d' = d := Option.some.inj ((congrArg Session.cacheNode client).symm.trans document)
    obtain rfl : send' = send := by
      have same := shows.sends.symm.trans sends
      exact List.head_eq_of_cons_eq (List.append_cancel_left same)
    exact all
  | finished server => cases type.symm.trans (congrArg Session.type server)

/-- A client that is written to has a document. -/
theorem Known.document (known : Known history s v) (listed : f ∈ s.fds) (type : (s.node f).type = .client)
    (writing : (s.node f).status = .writing) : ∃ d, (s.node f).cacheNode = some d := by
  obtain ⟨front, rear, xs, list⟩ := known.represents.list
  replace type : (s.session f).type = .client := type
  replace writing : (s.session f).status = .writing := writing
  cases list.role listed with
  | answering _ client => exact ⟨_, congrArg Session.cacheNode client⟩
  | dummy here | listener here | serving _ _ here =>
    rw [here] at type
    cases type
  | asking _ here | waiting _ here _ =>
    rw [here] at writing
    cases writing

theorem Delivers.next (delivers : Delivers history s v) (next : step s e = some t) (safe : EvictsSafely s e)
    (only : OnlyConditional (history ++ [⟨s, e, t⟩])) (all : AllSent (history ++ [⟨s, e, t⟩]))
    (small : ∀ a < s.cache.nodes.top, (s.content a).bufferSize < 2 ^ 31) :
    ∃ w, Delivers (history ++ [⟨s, e, t⟩]) t w := by
  have known := delivers.known
  obtain ⟨here, served, _⟩ := known.served next
  obtain ⟨w, known', move⟩ := known.move next
  have live := delivers.live_next safe next known'.represents
  refine ⟨w, known', move.backed known.sound known.shared delivers.backed, live,
    fun a member complete => delivers.queued_next next only member complete, fun f listed => ?_⟩
  have alive : ∀ d, (t.node f).cacheNode = some d → d ∉ t.cache.nodes.freed :=
    fun d document => known'.represents.live_iff.mp live f listed d (.inl document)
  rcases served.mem_fds listed with old | rfl
  · by_cases same : f = e.node
    · subst same
      exact delivers.here next listed alive all small
    · have unwritten : written f (history ++ [⟨s, e, t⟩]) = written f history :=
        written_other fun again => same again.symm
      have older : f ≠ s.fdNodes.top := Nat.ne_of_lt (known.represents.fds_lt old)
      rcases served.woken older same with kept |
        ⟨c, d, backup, n, content, server, client, heard, ends, node, contents⟩
      · exact delivers.kept next old alive kept unwritten
      · exact delivers.woken next old only (alive d (by rw [node])) server client heard ends node contents unwritten
  · have fresh : s.fdNodes.top ∉ s.fds := fun old => Nat.lt_irrefl _ (known.represents.fds_lt old)
    have unwritten : written s.fdNodes.top (history ++ [⟨s, e, t⟩]) = [] := by
      rw [written_other (Nat.ne_of_lt (known.represents.fds_lt here))]
      exact written_new known.bound
    unfold Delivering
    obtain ⟨fd, c, new⟩ | ⟨fd, p, c, hit, new⟩ := served.node_new fresh listed
    · rw [new]
      exact unwritten
    · rw [new]
      trivial

theorem Ran.delivers {slots : Nat} (two : 2 ≤ slots) (h : Ran slots history s) (only : OnlyConditional history)
    (all : AllSent history) (safe : ∀ x ∈ history, EvictsSafely x.before x.event)
    (small : ∀ x ∈ history, ∀ a < x.before.cache.nodes.top, (x.before.content a).bufferSize < 2 ^ 31) :
    ∃ v, Delivers history s v := by
  induction h with
  | @start maxClient listenFd s h =>
    obtain ⟨v, known⟩ := (Ran.start h : Ran slots [] s).known two
    obtain ⟨listener, represents, _, incomplete⟩ := start_represents two h
    have bare : ∀ f ∈ s.fds, (s.node f).type = .dummy ∨ (s.node f).type = .listen := by
      obtain ⟨front, rear, xs, list⟩ := represents.list
      intro f listed
      rcases list.mem_fds.mp listed with (rfl | rfl | ⟨st, inside, _⟩) | rfl
      · exact .inl (congrArg Session.type list.front)
      · exact .inr (congrArg Session.type list.listener)
      · exact absurd inside List.not_mem_nil
      · exact .inl (congrArg Session.type list.rear)
    have sound := start_sound two listener
    have shared := start_shared slots listener
    refine ⟨_, ⟨represents, sound _, shared _, known.bound, known.tracked⟩, ?_, ?_,
      fun a member complete => ?_, fun f listed => ?_⟩
    · exact fun f g c b asked member => absurd member List.not_mem_nil
    · exact fun a member => absurd member List.not_mem_nil
    · rw [represents.cache.entries_eq] at member
      exact absurd (complete.symm.trans (incomplete a member)) (by decide)
    · unfold Delivering
      rcases bare f listed with type | type
      · rw [type]
        trivial
      · rw [type]
        trivial
  | @step history s e t h next ih =>
    have last : (⟨s, e, t⟩ : Transition) ∈ history ++ [⟨s, e, t⟩] := List.mem_append_right _ List.mem_cons_self
    obtain ⟨v, delivers⟩ := ih only.before all.before (fun x member => safe x (List.mem_append_left _ member))
      fun x member => small x (List.mem_append_left _ member)
    exact delivers.next next (safe _ last) only all (small _ last)

theorem Delivers.delivered (delivers : Delivers history s v) (next : step s e = some t)
    (all : AllSent (history ++ [⟨s, e, t⟩])) (small : ∀ a < s.cache.nodes.top, (s.content a).bufferSize < 2 ^ 31)
    (client : (s.node e.node).type = .client) (writing : (s.node e.node).status = .writing) :
    ∃ d url response rest, Requested history e.node url ∧ Responded history d url response ∧
      written e.node (history ++ [⟨s, e, t⟩]) <+: (response ++ rest).map some ∧
      (e.node ∉ t.fds → written e.node (history ++ [⟨s, e, t⟩]) = (response ++ rest).map some) := by
  obtain ⟨here, served, _⟩ := delivers.known.served next
  obtain ⟨d, document⟩ := delivers.known.document here client writing
  have now := delivers.nodes e.node here
  unfold Delivering at now
  rw [client, writing] at now
  have sends := now d document
  obtain ⟨allocated, _⟩ := delivers.known.answering here client writing document
  obtain ⟨⟨response, responded, rest, holds⟩, length⟩ := sends.document
  obtain ⟨send, more, valid, fits, bytes⟩ := sends_next sends client writing document next all (small d allocated)
  rw [← holds] at bytes length
  refine ⟨d, s.doc d, response, rest, sends.requested, responded, ?_, fun gone => ?_⟩
  · rw [bytes]
    exact (List.take_prefix _ _).map some
  · have complete := served.written_whole here gone document client writing more
    have start := sends.offset.1
    have full : (response ++ rest).length ≤ ((s.node e.node).offset + send.numbytes).toNat := by
      rcases complete with negative | complete
      · omega
      · omega
    rw [bytes, List.take_of_length_le full]

/-- The next bytes that a client is written are the next of a response for the URL it has asked for, and it is closed when
it has been written the whole response and what the buffer holds behind it. -/
theorem response_delivered {slots : Nat} (two : 2 ≤ slots) (h : Ran slots history s) (only : OnlyConditional history)
    (all : AllSent history) (safe : ∀ x ∈ history, EvictsSafely x.before x.event)
    (small : ∀ x ∈ history, ∀ a < x.before.cache.nodes.top, (x.before.content a).bufferSize < 2 ^ 31)
    {before after : List Transition}
    (split : history = before ++ x :: after) (client : (x.before.node x.event.node).type = .client)
    (writing : (x.before.node x.event.node).status = .writing) :
    ∃ d url response rest, Requested before x.event.node url ∧ Responded before d url response ∧
      written x.event.node (before ++ [x]) <+: (response ++ rest).map some ∧
      (x.event.node ∉ x.after.fds → written x.event.node (before ++ [x]) = (response ++ rest).map some) := by
  obtain ⟨ran, next⟩ := h.split split
  have earlier : ∀ y ∈ before ++ [x], y ∈ history := by
    intro y member
    rw [split, List.append_cons]
    exact List.mem_append_left _ member
  have old : ∀ y ∈ before, y ∈ history := fun y member => earlier y (List.mem_append_left _ member)
  have sent : AllSent (before ++ [x]) := fun y member => all y (earlier y member)
  obtain ⟨v, delivers⟩ := ran.delivers two (fun y member => only y (old y member)) sent.before
    (fun y member => safe y (old y member)) fun y member => small y (old y member)
  exact delivers.delivered next sent (small x (earlier x (List.mem_append_right _ List.mem_cons_self))) client writing

end

/-- The second client is sent the document that was received for the first one. -/
theorem response_delivered_cached : ∃ before x, x.event.node = 5 ∧ x.event.node ∉ x.after.fds ∧
    ∃ d url response rest, Requested before 5 url ∧ Responded before d url response ∧
      written 5 (before ++ [x]) = (response ++ rest).map some := by
  have run : ((ProxyState.start 2 3 3).bind (·.trace
      [.accept 4, .request 3 "a" 5, .send 4 1500, .response 4, .closed 4, .send 3 1500,
        .accept 6, .request 5 "a" 7, .send 6 1500, .notModified 6, .send 5 100, .send 5 1500])).map (fun run =>
      (decide (∀ x ∈ run.1, ¬ x.Unasked304), decide (AllSent run.1), decide (∀ x ∈ run.1, x.before.RearUnused),
        decide (∀ x ∈ run.1, ∀ a < x.before.cache.nodes.top, (x.before.content a).bufferSize < 2 ^ 31),
        run.1.getLast?.map fun x => decide (x.event.node = 5 ∧ (x.before.node 5).type = .client ∧
          (x.before.node 5).status = .writing ∧ 5 ∉ x.after.fds))) = some (true, true, true, true, some true) := by
    decide +kernel
  obtain ⟨⟨history, s⟩, trace, facts⟩ := Option.map_eq_some_iff.mp run
  obtain ⟨only, facts⟩ := Prod.mk.inj facts
  obtain ⟨all, facts⟩ := Prod.mk.inj facts
  obtain ⟨safe, facts⟩ := Prod.mk.inj facts
  obtain ⟨small, last⟩ := Prod.mk.inj facts
  obtain ⟨x, isLast, facts⟩ := Option.map_eq_some_iff.mp last
  obtain ⟨before, split⟩ := List.getLast?_eq_some_iff.mp isLast
  rw [decide_eq_true_eq] at only all safe small facts
  obtain ⟨node, client, writing, gone⟩ := facts
  obtain ⟨d, url, response, rest, requested, responded, _, whole⟩ :=
    response_delivered (Nat.le_refl 2) (ran_of_trace trace) only all (fun y member _ => safe y member) small split
      (by rw [node]; exact client) (by rw [node]; exact writing)
  rw [node] at requested whole
  exact ⟨before, x, node, by rw [node]; exact gone, d, url, response, rest, requested, responded, whole gone⟩

end NetProjects.Proxy
