import NetProjects.Proxy.Recency

/-!
# Changed documents

The reply to a conditional get, when it is not a 304, is stored as on a miss: only if its URL is no
longer cached when it ends. Otherwise the lookup finds what it found before, the reply or not.
-/

namespace NetProjects.Proxy
open Bytes

/-- After the event that ends the reply to `f`, a lookup of its URL returns an entry with all the bytes of the
reply and its date. -/
def Refreshed (history : List Transition) (x : Transition) (f c : Nat) : Prop :=
  ∃ a info, isCacheHit x.after.cache (x.before.content c).httpInfo = some a ∧
    received f (history ++ [x]) <+: (x.after.content a).buffer ∧
    header f (history ++ [x]) = some info ∧ (x.after.content a).httpInfo.date.str = info.date.str

/-- The entry `a` holds the bytes of the reply to `f` before the reply ends, and its date, unless that is copied to it
as from a 304. -/
def AlreadyHolds (history : List Transition) (x : Transition) (f a : Nat) : Prop :=
  received f (history ++ [x]) <+: (x.before.content a).buffer ∧
    (x.TakenFor304 ∧ (x.before.node f).cacheNodeBackup = some a ∨
      ∃ info, header f (history ++ [x]) = some info ∧ (x.before.content a).httpInfo.date.str = info.date.str)

section

variable {s t : ProxyState} {v : View} {e : Event} {history : List Transition} {slots a c d f p : Nat} {io : Io}
  {backup : Option Nat} {n : CacheNode} {content : Nat → CacheNode} {entries : List Nat}

theorem heard_url {n m : CacheNode} {offset : Int} (h : n.heard offset io = some m) :
    m.httpInfo.host = n.httpInfo.host ∧ m.httpInfo.path = n.httpInfo.path := by
  obtain ⟨filled, fill, h⟩ := Option.bind_eq_some_iff.mp h
  rw [← filled_info fill]
  split at h
  · obtain rfl := Option.some.inj h
    exact ⟨rfl, rfl⟩
  · obtain ⟨info, parsed, h⟩ := Option.bind_eq_some_iff.mp h
    obtain rfl := Option.some.inj h
    obtain ⟨host, path, _⟩ := parseResponse_same parsed
    exact ⟨host, path⟩

theorem isCacheHit_front {cache : Cache} {rest : List Nat} {info : HttpInfo} (entries : cache.entries = c :: rest)
    (complete : (cache.nodes.cell c).httpInfo.infoComplete = true)
    (host : (cache.nodes.cell c).httpInfo.host = info.host) (path : (cache.nodes.cell c).httpInfo.path = info.path) :
    isCacheHit cache info = some c := by
  rw [isCacheHit, entries, List.find?_cons_of_pos]
  dsimp only
  rw [complete, host, path, beq_self_eq_true, beq_self_eq_true]
  rfl

/-- A reply that ends while its URL is not cached is stored. -/
theorem Known.refreshed (known : Known history s v) (next : step s e = some t) (stores : Stores s e.node c e.io t) :
    Refreshed history ⟨s, e, t⟩ e.node c := by
  have heard := known.stored next stores
  obtain ⟨listed, _⟩ := known.served next
  obtain ⟨rest, r, _, entries, _⟩ := known.documents_stored next stores
  obtain ⟨p, backup, server⟩ := stores.server
  obtain ⟨fetched, complete, _⟩ := (known.tracked e.node listed).heard (t := t) server heard
  obtain ⟨host, path⟩ := heard_url heard
  obtain ⟨info, first, same⟩ := fetched.header complete
  refine ⟨c, info, isCacheHit_front entries complete host path, fetched.holds, first, ?_⟩
  dsimp only
  rw [same]

/-! ### A reply whose URL is cached -/

theorem strcpy_field_str {k : Nat} {f g d : Field k} (copied : f.strcpy g.bytes = some d) : d.str = g.str := by
  obtain ⟨d', again, text⟩ := strcpy_text f g.terminated ((length_cstring_lt g.terminated).trans_eq g.size)
  obtain rfl := Option.some.inj (copied.symm.trans again)
  exact text

theorem not_modified_of_closed (closed : io.received = some []) : ¬ NotModified s f c (bufRecv io) io := by
  rintro ⟨_, _, info, parsed, _⟩
  obtain ⟨line, rest, arrived, _⟩ := parseResponse_line parsed
  rw [chunk_of_closed closed] at arrived
  exact absurd arrived.symm (by simp)

/-- The end of a reply changes a document that it is not received into only where that is given the date of a 304. -/
theorem Ends.entry (ends : Ends s f c io n d content) (apart : a ≠ c) :
    ¬ (NotModified s f c (bufRecv io) io ∧ (s.session f).backup = some a) ∧ content a = s.content a ∨
      (NotModified s f c (bufRecv io) io ∧ (s.session f).backup = some a) ∧
        ∃ date, (s.content a).httpInfo.date.strcpy n.httpInfo.date.bytes = some date ∧
          content a = (s.content a).redated date := by
  cases ends with
  | closed origin => exact .inl ⟨fun taken => not_modified_of_closed origin taken.1, Function.update_of_ne apart _ _⟩
  | @notModified b date same hasBackup copied =>
    by_cases here : a = d
    · obtain rfl := here
      exact .inr ⟨⟨same, hasBackup⟩, date, copied, Function.update_self _ _ _⟩
    · refine .inl ⟨fun taken => here (Option.some.inj (taken.2.symm.trans hasBackup)), ?_⟩
      rw [Function.update_of_ne here, Function.update_of_ne apart]

/-- A reply that ends while its URL is cached leaves the lookup and the bytes as they are. -/
theorem Known.cached (known : Known history s v) (next : step s e = some t)
    (server : s.session e.node = .server p c backup true) (ends : Ends s e.node c e.io n d content)
    (infos : ∀ b, (t.content b).httpInfo = (content b).httpInfo) (same : t.cache.entries = s.cache.entries)
    (hit : isCacheHit s.cache (s.content c).httpInfo = some a) :
    isCacheHit t.cache (s.content c).httpInfo = some a ∧ (t.content a).buffer = (s.content a).buffer ∧ a ≠ c := by
  obtain ⟨listed, _⟩ := known.served next
  have outside : c ∉ s.cache.entries := (known.represents.owned_live known.sound listed (owns_server server)).2.1
  have queued : a ∈ s.cache.entries := List.mem_of_find?_eq_some hit
  refine ⟨?_, (known.queued next queued (same ▸ queued)).1, fun here => outside (here ▸ queued)⟩
  rw [isCacheHit_content same, hit]
  intro b member
  rw [infos b]
  obtain ⟨_, kept⟩ | ⟨_, date, _, kept⟩ := ends.entry (a := b) fun here => outside (here ▸ member)
  · rw [kept]
  · rw [kept]
    rfl

/-- Where its URL is cached, a reply is found afterwards if the entry holds it already. -/
theorem Known.refreshed_cached (known : Known history s v) (next : step s e = some t)
    (server : s.session e.node = .server p c backup true) (heard : (s.content c).heard (s.node e.node).offset e.io = some n)
    (ends : Ends s e.node c e.io n d content) (infos : ∀ b, (t.content b).httpInfo = (content b).httpInfo)
    (same : t.cache.entries = s.cache.entries) (hit : isCacheHit s.cache (s.content c).httpInfo = some a) :
    Refreshed history ⟨s, e, t⟩ e.node c ↔ AlreadyHolds history ⟨s, e, t⟩ e.node a := by
  obtain ⟨found, bytes, apart⟩ := known.cached next server ends infos same hit
  obtain ⟨listed, _⟩ := known.served next
  obtain ⟨fetched, complete, _⟩ := (known.tracked e.node listed).heard (t := t) server heard
  obtain ⟨info, first, filled⟩ := fetched.header complete
  have taken : (Transition.mk s e t).TakenFor304 ∧ (s.node e.node).cacheNodeBackup = some a ↔
      NotModified s e.node c (bufRecv e.io) e.io ∧ (s.session e.node).backup = some a := by
    refine and_congr_left fun _ => ?_
    have type : (s.node e.node).type = .server := congrArg Session.type server
    have status : (s.node e.node).status = .reading := congrArg Session.status server
    have node : (s.node e.node).cacheNode = some c := congrArg Session.cacheNode server
    constructor
    · rintro ⟨_, _, c', document, modified⟩
      obtain rfl := Option.some.inj (node.symm.trans document)
      exact modified
    · exact fun modified => ⟨type, ⟨status, .inr type⟩, c, node, modified⟩
  have date : (t.content a).httpInfo.date.str = info.date.str ↔
      ((Transition.mk s e t).TakenFor304 ∧ (s.node e.node).cacheNodeBackup = some a) ∨
        (s.content a).httpInfo.date.str = info.date.str := by
    rw [infos a, taken]
    obtain ⟨other, kept⟩ | ⟨modified, date, copied, kept⟩ := ends.entry apart
    · rw [kept]
      exact (or_iff_right other).symm
    · rw [kept]
      refine iff_of_true ?_ (.inl modified)
      exact (strcpy_field_str copied).trans (by rw [filled])
  constructor
  · rintro ⟨a', info', found', holds, first', same'⟩
    obtain rfl := Option.some.inj (found.symm.trans found')
    obtain rfl := Option.some.inj (first.symm.trans first')
    refine ⟨bytes ▸ holds, (date.mp same').imp_right fun dated => ⟨info, first, dated⟩⟩
  · rintro ⟨holds, dated⟩
    refine ⟨a, info, found, bytes.symm ▸ holds, first, date.mpr (dated.imp_right ?_)⟩
    rintro ⟨info', first', same'⟩
    obtain rfl := Option.some.inj (first.symm.trans first')
    exact same'

/-- The reply that a server receives, to a conditional get as to any other, is what a lookup finds
afterwards exactly where its URL is not cached when the reply ends, or cached with this very reply. -/
theorem refreshed_iff (two : 2 ≤ slots) (h : Ran slots history s) (next : step s e = some t)
    (node : (s.node e.node).cacheNode = some c) (ended : (Transition.mk s e t).Ended) :
    Refreshed history ⟨s, e, t⟩ e.node c ↔ isCacheHit s.cache (s.content c).httpInfo = none ∨
      ∃ a, isCacheHit s.cache (s.content c).httpInfo = some a ∧ AlreadyHolds history ⟨s, e, t⟩ e.node a := by
  obtain ⟨v, known⟩ := h.known two
  obtain ⟨_, served, _⟩ := known.served next
  obtain ⟨working, _⟩ | ⟨_, p, c', d, backup, n, content, server, heard, ends, enters, contents, infos⟩ :=
    served.ended_cases
  · exact absurd ended working
  have document : (s.node e.node).cacheNode = some c' := congrArg Session.cacheNode server
  obtain rfl := Option.some.inj (node.symm.trans document)
  generalize now : t.cache.entries = entries at enters
  cases enters with
  | @known a hit =>
    rw [known.refreshed_cached next server heard ends infos now hit, hit]
    simp
  | @fresh rest r miss rear =>
    have stores : Stores s e.node c e.io t := ⟨⟨p, backup, server⟩, miss, ⟨rest, r, rear, now⟩, d, n, content, heard, ends,
      contents⟩
    exact iff_of_true (known.refreshed next stores) (.inl miss)

/-- The origin answers `f` with a document that has a date. -/
def Event.changed (f : Nat) : Event :=
  ⟨f, { Io.blank with
    received := some (cstr "HTTP/1.0 200 OK\r\nDate: Mon, 01 Jan 2024 00:00:00 GMT\r\n\r\nnew") }⟩

theorem refreshed_one : ∃ history s e t, Ran 2 history s ∧ step s e = some t ∧ (s.node e.node).flag = 1 ∧
    Refreshed history ⟨s, e, t⟩ e.node 3 := by
  have run : ((ProxyState.start 2 3 3).bind (·.trace
      [.accept 4, .request 3 "a" 5, .send 4 1500, .response 4, .closed 4,
        .accept 6, .request 5 "a" 7, .send 6 1500, .changed 6,
        .accept 8, .request 7 "b" 9, .send 8 1500, .response 8, .closed 8,
        .accept 10, .request 9 "c" 11, .send 10 1500, .response 10, .closed 10])).bind (fun run =>
      (step run.2 (.closed 6)).map fun t => ((run.2.node 6).flag, (run.2.node 6).cacheNode,
        decide (Transition.mk run.2 (.closed 6) t).Ended, isCacheHit run.2.cache (run.2.content 3).httpInfo)) =
      some (1, some 3, true, none) := by
    decide +kernel
  obtain ⟨⟨history, s⟩, trace, run⟩ := Option.bind_eq_some_iff.mp run
  obtain ⟨t, next, facts⟩ := Option.map_eq_some_iff.mp run
  obtain ⟨flag, facts⟩ := Prod.mk.inj facts
  obtain ⟨node, facts⟩ := Prod.mk.inj facts
  obtain ⟨ended, miss⟩ := Prod.mk.inj facts
  have ran := ran_of_trace trace
  exact ⟨history, s, .closed 6, t, ran, next, flag,
    (refreshed_iff (Nat.le_refl 2) ran next node (of_decide_eq_true ended)).mpr (.inl miss)⟩

/-- The document at 2 is cached, the origin answers the conditional get for it with a new one, and
the lookup still returns the old one. -/
theorem changed_not_stored : ¬ ∀ slots history s e t c, 2 ≤ slots → Ran slots history s → step s e = some t →
    (s.node e.node).flag = 1 → (s.node e.node).cacheNode = some c → (Transition.mk s e t).Ended →
    ¬ Is304 (received e.node (history ++ [⟨s, e, t⟩])) → Refreshed history ⟨s, e, t⟩ e.node c := by
  intro claim
  have run : ((ProxyState.start 2 3 3).bind (·.trace
      [.accept 4, .request 3 "a" 5, .send 4 1500, .response 4, .closed 4,
        .accept 6, .request 5 "a" 7, .send 6 1500, .changed 6])).bind (fun run =>
      (step run.2 (.closed 6)).map fun t => ((run.2.node 6).cacheNode,
        decide ((run.2.node 6).flag = 1 ∧ (Transition.mk run.2 (.closed 6) t).Ended ∧
          ¬ Is304 (received 6 (run.1 ++ [⟨run.2, .closed 6, t⟩]))),
        isCacheHit t.cache (run.2.content 3).httpInfo,
        decide (received 6 (run.1 ++ [⟨run.2, .closed 6, t⟩]) <+: (t.content 2).buffer))) =
      some (some 3, true, some 2, false) := by
    decide +kernel
  obtain ⟨⟨history, s⟩, trace, run⟩ := Option.bind_eq_some_iff.mp run
  obtain ⟨t, next, facts⟩ := Option.map_eq_some_iff.mp run
  obtain ⟨node, facts⟩ := Prod.mk.inj facts
  obtain ⟨reply, facts⟩ := Prod.mk.inj facts
  obtain ⟨flag, ended, other⟩ := of_decide_eq_true reply
  obtain ⟨hit, old⟩ := Prod.mk.inj facts
  obtain ⟨a, _, found, holds, _⟩ := claim 2 history s (.closed 6) t 3 (Nat.le_refl 2) (ran_of_trace trace) next flag node
    ended other
  obtain rfl : a = 2 := Option.some.inj (found.symm.trans hit)
  exact of_decide_eq_false old holds

end

end NetProjects.Proxy
