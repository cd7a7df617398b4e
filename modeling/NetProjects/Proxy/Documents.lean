import NetProjects.Proxy.Tracking

/-!
# Cached documents

What enters the queue is the document of a server whose response has ended, and its bytes stay as
long as it is queued.
-/

namespace NetProjects.Proxy
open Bytes

namespace Transition

/-- The origin's response to a conditional get is taken for a 304. -/
def TakenFor304 (x : Transition) : Prop :=
  (x.before.node x.event.node).type = .server ∧ x.before.Reads x.event.node ∧
    ∃ c, (x.before.node x.event.node).cacheNode = some c ∧
      NotModified x.before x.event.node c (bufRecv x.event.io) x.event.io

/-- The entry of the URL that the node fetches. -/
def lookup (x : Transition) : Option Nat :=
  (x.before.node x.event.node).cacheNode.bind fun c => isCacheHit x.before.cache (x.before.content c).httpInfo

/-- The origin of a server that fetches into `a` closes. -/
def Closes (x : Transition) (a : Nat) : Prop :=
  (x.before.node x.event.node).type = .server ∧ x.before.Reads x.event.node ∧
    (x.before.node x.event.node).cacheNode = some a ∧ x.event.io.received = some []

end Transition

instance (x : Transition) (a : Nat) : Decidable (x.Closes a) := inferInstanceAs (Decidable (_ ∧ _))

/-- The document `a` holds all the bytes of one response that is not a 304, up to the close. -/
def Whole (history : List Transition) (s : ProxyState) (a : Nat) : Prop :=
  ∃ before x after, history = before ++ x :: after ∧ x.Closes a ∧
    ¬ Is304 (received x.event.node before) ∧ received x.event.node before <+: (s.content a).buffer

section

variable {s t : ProxyState} {v w : View} {f a : Nat} {io : Io} {history : List Transition} {x : Transition}

/-- Serving the server `f` puts the document `c` it has fetched into the queue. -/
structure Stores (s : ProxyState) (f c : Nat) (io : Io) (t : ProxyState) : Prop where
  server : ∃ p backup, s.session f = .server p c backup true
  miss : isCacheHit s.cache (s.content c).httpInfo = none
  queue : ∃ rest r, s.cache.entries = rest ++ [r] ∧ t.cache.entries = c :: rest
  ends : ∃ d n content, (s.content c).heard (s.node f).offset io = some n ∧ Ends s f c io n d content ∧
    ∀ a, a ∉ t.cache.nodes.freed → t.content a = content a

theorem Served.entries (served : Served s f io t) : t.cache.entries = s.cache.entries ∨ ∃ c, Stores s f c io t := by
  cases served with
  | still _ shows => exact .inl shows.entries
  | accepted _ shows => exact .inl shows.entries
  | dropped _ _ shows => exact .inl shows.entries
  | connected _ _ shows => exact .inl shows.entries
  | sent _ _ _ _ shows => exact .inl shows.entries
  | asked _ _ _ shows => exact .inl shows.entries
  | answered _ _ _ shows => exact .inl shows.entries
  | received _ _ _ _ shows => exact .inl shows.entries
  | @finished p c d backup n content entries server _ heard ends enters shows =>
    cases enters with
    | known => exact .inl shows.entries
    | @fresh rest r miss rear =>
      exact .inr ⟨c, ⟨p, backup, server⟩, miss, ⟨rest, r, rear, shows.entries⟩, d, n, content, heard, ends, shows.content⟩

theorem Represents.queued_live (rep : Represents s v) (sound : Sound v) (queued : a ∈ s.cache.entries) :
    a < s.cache.nodes.top ∧ a ∉ s.cache.nodes.freed := by
  rw [rep.cache.top, rep.cache.freed]
  rw [rep.cache.entries_eq] at queued
  exact sound.queued a queued

/-- The documents of the queue keep their bytes, and stay complete. -/
theorem Known.queued {e : Event} (known : Known history s v) (next : step s e = some t) (before : a ∈ s.cache.entries)
    (after : a ∈ t.cache.entries) :
    (t.content a).buffer = (s.content a).buffer ∧
      (t.content a).httpInfo.infoComplete = (s.content a).httpInfo.infoComplete := by
  obtain ⟨listed, served, w, known'⟩ := known.served next
  obtain ⟨_, alive⟩ := known'.represents.queued_live known'.sound after
  obtain ⟨allocated, _⟩ := known.represents.queued_live known.sound before
  have apart : ∀ c, (s.node e.node).Owns c → a ≠ c := by
    rintro c owns rfl
    exact (known.represents.owned_live known.sound listed owns).2.1 before
  obtain ⟨x, shows, same | ⟨date, same⟩⟩ := served.unowned allocated apart
  · rw [shows.content a alive, same]
    exact ⟨rfl, rfl⟩
  · rw [shows.content a alive, same]
    exact ⟨rfl, rfl⟩

theorem Whole.step (whole : Whole history s a) (buffer : (t.content a).buffer = (s.content a).buffer) :
    Whole (history ++ [x]) t a := by
  obtain ⟨before, y, after, rfl, closes, other, holds⟩ := whole
  refine ⟨before, y, after ++ [x], ?_, closes, other, buffer ▸ holds⟩
  rw [List.append_assoc, List.cons_append]

/-- A document that enters the queue is what its server has received. -/
theorem Known.stored {e : Event} {c : Nat} (known : Known history s v) (next : step s e = some t)
    (stores : Stores s e.node c e.io t) : (s.content c).heard (s.node e.node).offset e.io = some (t.content c) := by
  obtain ⟨listed, _, w, known'⟩ := known.served next
  obtain ⟨⟨p, backup, server⟩, _, ⟨rest, r, _, entries⟩, d, n, content, heard, ends, contents⟩ := stores
  have type : (s.session e.node).type = .server := congrArg Session.type server
  have alive : c ∉ t.cache.nodes.freed := by
    refine (known'.represents.queued_live known'.sound ?_).2
    rw [entries]
    exact List.mem_cons_self
  rw [contents c alive, heard]
  cases ends with
  | closed => rw [Function.update_self]
  | notModified _ hasBackup =>
    have apart := known.represents.backup_ne known.shared listed listed type hasBackup (owns_server server)
    rw [Function.update_of_ne apart, Function.update_self]

/-- A document that enters the queue is whole, unless it was taken for a 304. -/
theorem Known.stores {e : Event} {c : Nat} (known : Known history s v) (next : step s e = some t)
    (only : OnlyConditional (history ++ [⟨s, e, t⟩])) (stores : Stores s e.node c e.io t)
    (cached : (Transition.mk s e t).TakenFor304 → (Transition.mk s e t).lookup ≠ none) :
    Whole (history ++ [⟨s, e, t⟩]) t c := by
  have heard := known.stored next stores
  obtain ⟨listed, _⟩ := known.served next
  obtain ⟨⟨p, backup, server⟩, miss, _, _, _, _, _, ends, _⟩ := stores
  have type : (s.node e.node).type = .server := congrArg Session.type server
  have status : (s.node e.node).status = .reading := congrArg Session.status server
  have node : (s.node e.node).cacheNode = some c := congrArg Session.cacheNode server
  have reads : s.Reads e.node := ⟨status, .inr type⟩
  obtain ⟨fetched, _, other⟩ := (known.tracked e.node listed).heard (t := t) server heard
  cases ends with
  | closed ended =>
    have nothing : (Transition.mk s e t).event.io.chunk = [] := chunk_of_closed ended
    have same : received e.node (history ++ [⟨s, e, t⟩]) = received e.node history := by
      rw [received_reads (x := ⟨s, e, t⟩) ⟨rfl, reads⟩, nothing, List.append_nil]
    have holds := fetched.holds
    rw [same] at other holds
    refine ⟨history, ⟨s, e, t⟩, [], rfl, ⟨type, reads, node, ended⟩, other ?_ only, holds⟩
    rintro ⟨_, _, info, parsed, _⟩
    exact parseResponse_arrived parsed nothing
  | notModified modified =>
    refine absurd ?_ (cached ⟨type, reads, c, node, modified⟩)
    rw [Transition.lookup, node]
    exact miss

/-- Where each response taken for a 304 finds its URL still cached, every complete document of the
queue is all of a response other than a 304, and no document of the queue changes. -/
theorem documents_whole {slots : Nat} (two : 2 ≤ slots) (h : Ran slots history s) (only : OnlyConditional history)
    (cached : ∀ x ∈ history, x.TakenFor304 → x.lookup ≠ none) :
    (∀ a ∈ s.cache.entries, (s.content a).httpInfo.infoComplete = true → Whole history s a) ∧
      ∀ x ∈ history, ∀ a ∈ x.before.cache.entries, a ∈ x.after.cache.entries →
        (x.after.content a).buffer = (x.before.content a).buffer := by
  induction h with
  | @start maxClient listenFd s h =>
    obtain ⟨listener, represents, _, incomplete⟩ := start_represents two h
    refine ⟨fun a member complete => ?_, fun x member => absurd member List.not_mem_nil⟩
    rw [represents.cache.entries_eq] at member
    exact absurd (complete.symm.trans (incomplete a member)) (by decide)
  | @step history s e t h next ih =>
    obtain ⟨whole, kept⟩ := ih only.before fun x member => cached x (List.mem_append_left _ member)
    obtain ⟨v, known⟩ := h.known two
    obtain ⟨listed, served, _⟩ := known.served next
    refine ⟨fun a after complete => ?_, fun x member a before after => ?_⟩
    · have old : a ∈ s.cache.entries → Whole (history ++ [⟨s, e, t⟩]) t a := by
        intro before
        obtain ⟨buffer, same⟩ := known.queued next before after
        exact (whole a before (same ▸ complete)).step buffer
      rcases served.entries with same | ⟨c, stores⟩
      · exact old (same ▸ after)
      · obtain ⟨rest, r, rear, entries⟩ := stores.queue
        rw [entries] at after
        rcases List.mem_cons.mp after with rfl | inside
        · exact known.stores next only stores (cached ⟨s, e, t⟩ (List.mem_append_right _ List.mem_cons_self))
        · refine old ?_
          rw [rear]
          exact List.mem_append_left _ inside
    · rcases List.mem_append.mp member with earlier | here
      · exact kept x earlier a before after
      · obtain rfl := List.mem_singleton.mp here
        exact (known.queued next before after).1

def Event.notModified (f : Nat) : Event :=
  ⟨f, { Io.blank with received := some (cstr "HTTP/1.0 304 Not Modified\r\n\r\n") }⟩

theorem documents_whole_one : ∃ history s, Ran 2 history s ∧ s.cache.entries = [2, 0] ∧ Whole history s 2 := by
  have run : ((ProxyState.start 2 3 3).bind (·.trace
      [.accept 4, .request 3 "a" 5, .send 4 1500, .response 4, .closed 4,
        .accept 6, .request 5 "a" 7, .send 6 1500, .notModified 6])).map (fun run =>
      (run.2.cache.entries, (run.2.content 2).httpInfo.infoComplete, decide (∀ x ∈ run.1, ¬ x.Unasked304),
        decide (∀ x ∈ run.1, x.before.Reads x.event.node → (x.before.node x.event.node).flag = 1 → x.lookup ≠ none))) =
      some ([2, 0], true, true, true) := by
    decide +kernel
  obtain ⟨⟨history, s⟩, trace, facts⟩ := Option.map_eq_some_iff.mp run
  obtain ⟨entries, facts⟩ := Prod.mk.inj facts
  obtain ⟨complete, facts⟩ := Prod.mk.inj facts
  obtain ⟨only, cached⟩ := Prod.mk.inj facts
  rw [decide_eq_true_eq] at only cached
  have ran := ran_of_trace trace
  obtain ⟨whole, _⟩ := documents_whole (Nat.le_refl 2) ran only fun x member taken => by
    obtain ⟨_, reads, c, _, conditional⟩ := taken
    exact cached x member reads conditional.1
  refine ⟨history, s, ran, entries, whole 2 ?_ complete⟩
  rw [entries]
  exact List.mem_cons_self

/-- The entry found for the client at 5 is evicted before the origin answers its conditional get
with a 304, which enters the queue as a document. -/
theorem stored_not_modified : ¬ ∀ slots history s, 2 ≤ slots → Ran slots history s → OnlyConditional history →
    (∀ a ∈ s.cache.entries, (s.content a).httpInfo.infoComplete = true → Whole history s a) ∧
      ∀ x ∈ history, ∀ a ∈ x.before.cache.entries, a ∈ x.after.cache.entries →
        (x.after.content a).buffer = (x.before.content a).buffer := by
  intro claim
  have run : ((ProxyState.start 2 3 3).bind (·.trace
      [.accept 4, .request 3 "a" 5, .send 4 1500, .response 4, .closed 4,
        .accept 6, .request 5 "a" 7, .send 6 1500,
        .accept 8, .request 7 "b" 9, .send 8 1500, .response 8, .closed 8,
        .accept 10, .request 9 "c" 11, .send 10 1500, .response 10, .closed 10,
        .notModified 6])).map (fun run =>
      (run.2.cache.entries, (run.2.content 3).httpInfo.infoComplete, decide (∀ x ∈ run.1, ¬ x.Unasked304),
        decide (∀ x ∈ run.1, ¬ x.Closes 3))) =
      some ([3, 5], true, true, true) := by
    decide +kernel
  obtain ⟨⟨history, s⟩, trace, facts⟩ := Option.map_eq_some_iff.mp run
  obtain ⟨entries, facts⟩ := Prod.mk.inj facts
  obtain ⟨complete, facts⟩ := Prod.mk.inj facts
  obtain ⟨only, open_⟩ := Prod.mk.inj facts
  rw [decide_eq_true_eq] at only open_
  have queued : 3 ∈ s.cache.entries := by
    rw [entries]
    exact List.mem_cons_self
  obtain ⟨whole, _⟩ := claim 2 history s (Nat.le_refl 2) (ran_of_trace trace) only
  obtain ⟨before, x, after, rfl, closes, _⟩ := whole 3 queued complete
  exact open_ x (List.mem_append_right _ List.mem_cons_self) closes

end

end NetProjects.Proxy
