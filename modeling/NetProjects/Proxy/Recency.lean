import NetProjects.Library.Lru
import NetProjects.Proxy.Documents

/-!
# The queue and the last uses

A completed request uses a document: the one it stores, or the cached one that a 304 validates. The
queue is in order of insertion, and in order of last use as long as each validated document is at
its front.
-/

namespace NetProjects.Proxy
open Bytes

instance (s : ProxyState) (f c : Nat) (bytes : List UInt8) (io : Io) : Decidable (NotModified s f c bytes io) :=
  decidable_of_iff ((s.session f).flag = 1 ∧ (s.cache.nodes.cell c).httpInfo.infoComplete = false ∧
      (parseResponse (bytes ++ io.memory.after) io.memory (s.cache.nodes.cell c).httpInfo).any
        (fun info => decide (strstrLit info.status.bytes (cstr "304") = some true)) = true) <| by
    simp only [NotModified, Option.any_eq_true, decide_eq_true_eq]

namespace Transition

instance (x : Transition) : Decidable x.TakenFor304 :=
  decidable_of_iff ((x.before.node x.event.node).type = .server ∧ x.before.Reads x.event.node ∧
      (x.before.node x.event.node).cacheNode.any
        (fun c => decide (NotModified x.before x.event.node c (bufRecv x.event.io) x.event.io)) = true) <| by
    simp only [TakenFor304, Option.any_eq_true, decide_eq_true_eq]

/-- The event ends the response of a server. -/
def Ended (x : Transition) : Prop :=
  (x.before.node x.event.node).type = .server ∧ x.before.Reads x.event.node ∧
    (x.event.io.received = some [] ∨ x.TakenFor304)

instance (x : Transition) : Decidable x.Ended := inferInstanceAs (Decidable (_ ∧ _))

/-- The document that the event uses, where it completes a request: on a miss the one that is
stored, on a hit the one that a 304 validates. -/
def use (x : Transition) : List Nat :=
  match x.lookup with
  | none => if x.Ended then (x.before.node x.event.node).cacheNode.toList else []
  | some b => if x.TakenFor304 then [b] else []

end Transition

def uses (history : List Transition) : List Nat := history.flatMap Transition.use

/-- The complete entries of the queue, from front to rear. -/
def ProxyState.documents (s : ProxyState) : List Nat :=
  s.cache.entries.filter fun a => (s.content a).httpInfo.infoComplete

/-- After every event the documents are in order of last use, and every event that evicts one evicts
the one used longest ago. -/
def LeastRecentlyUsed (history : List Transition) : Prop :=
  ∀ before x after, history = before ++ x :: after →
    Lru.InOrder (uses (before ++ [x])) x.after.documents ∧
      ∀ r ∈ x.before.documents, r ∉ x.after.cache.entries →
        ∀ a ∈ x.before.documents, a ≠ r → Lru.lastUse (uses before) r < Lru.lastUse (uses before) a

section

variable {s t : ProxyState} {v : View} {e : Event} {history : List Transition} {x : Transition} {slots c : Nat}

theorem uses_append (history : List Transition) (x : Transition) : uses (history ++ [x]) = uses history ++ x.use := by
  rw [uses, List.flatMap_append, List.flatMap_singleton]
  rfl

theorem use_of_not_ended (working : ¬ x.Ended) : x.use = [] := by
  have taken : ¬ x.TakenFor304 := fun taken => working ⟨taken.1, taken.2.1, .inr taken⟩
  unfold Transition.use
  split
  · exact if_neg working
  · exact if_neg taken

theorem not_ended_of_idle (idle : ¬ s.Reads e.node) : ¬ (Transition.mk s e t).Ended := fun ended => idle ended.2.1

theorem not_ended_of_client {c : Nat} (client : s.session e.node = .client .reading none c) :
    ¬ (Transition.mk s e t).Ended := by
  intro ended
  have type : (s.node e.node).type = .client := congrArg Session.type client
  cases type.symm.trans ended.1

/-- An event that ends no reply leaves the queue alone; one that does gives the reply to the client, and stores it
unless its URL is cached. -/
theorem Served.ended_cases (served : Served s e.node e.io t) :
    ¬ (Transition.mk s e t).Ended ∧ t.cache.entries = s.cache.entries ∨
      (Transition.mk s e t).Ended ∧ ∃ p c d backup n content, s.session e.node = .server p c backup true ∧
        (s.content c).heard (s.node e.node).offset e.io = some n ∧ Ends s e.node c e.io n d content ∧
        Enters s c t.cache.entries ∧ (∀ a, a ∉ t.cache.nodes.freed → t.content a = content a) ∧
        ∀ a, (t.content a).httpInfo = (content a).httpInfo := by
  cases served with
  | still idle shows => exact .inl ⟨not_ended_of_idle idle, shows.entries⟩
  | accepted idle shows => exact .inl ⟨not_ended_of_idle idle, shows.entries⟩
  | dropped client _ shows => exact .inl ⟨not_ended_of_client client, shows.entries⟩
  | connected client _ shows => exact .inl ⟨not_ended_of_client client, shows.entries⟩
  | sent writing _ _ _ shows => exact .inl ⟨not_ended_of_idle (not_reads_of_writing writing), shows.entries⟩
  | asked server _ _ shows =>
    have writing : (s.node e.node).status = .writing := congrArg Session.status server
    exact .inl ⟨not_ended_of_idle (not_reads_of_writing writing), shows.entries⟩
  | answered client _ _ shows =>
    have writing : (s.node e.node).status = .writing := congrArg Session.status client
    exact .inl ⟨not_ended_of_idle (not_reads_of_writing writing), shows.entries⟩
  | @received p c backup n server _ arrived modified shows =>
    refine .inl ⟨?_, shows.entries⟩
    rintro ⟨_, _, closed | ⟨_, _, d, document, same⟩⟩
    · exact arrived (chunk_of_closed closed)
    · have node : (s.node e.node).cacheNode = some c := congrArg Session.cacheNode server
      obtain rfl := Option.some.inj (node.symm.trans document)
      exact modified same
  | @finished p c d backup n content entries server client heard ends enters shows =>
    have type : (s.node e.node).type = .server := congrArg Session.type server
    have status : (s.node e.node).status = .reading := congrArg Session.status server
    have node : (s.node e.node).cacheNode = some c := congrArg Session.cacheNode server
    have ended : (Transition.mk s e t).Ended := by
      refine ⟨type, ⟨status, .inr type⟩, ?_⟩
      cases ends with
      | closed origin => exact .inl origin
      | notModified same => exact .inr ⟨type, ⟨status, .inr type⟩, c, node, same⟩
    have same : t.cache.entries = entries := shows.entries
    exact .inr ⟨ended, p, c, d, backup, n, content, server, heard, ends, by rw [same]; exact enters, shows.content,
      shows.info⟩

/-- An event leaves the queue alone, validates an entry, or stores a document. -/
theorem Served.use (served : Served s e.node e.io t) :
    t.cache.entries = s.cache.entries ∧ ((Transition.mk s e t).use = [] ∨
        ∃ b, (Transition.mk s e t).TakenFor304 ∧ (Transition.mk s e t).lookup = some b ∧
          (Transition.mk s e t).use = [b]) ∨
      ∃ c, Stores s e.node c e.io t ∧ (Transition.mk s e t).use = [c] := by
  obtain ⟨working, same⟩ | ⟨ended, p, c, d, backup, n, content, server, heard, ends, enters, contents, _⟩ :=
    served.ended_cases
  · exact .inl ⟨same, .inl (use_of_not_ended working)⟩
  · have node : (s.node e.node).cacheNode = some c := congrArg Session.cacheNode server
    have lookup : (Transition.mk s e t).lookup = isCacheHit s.cache (s.content c).httpInfo := by
      rw [Transition.lookup, node]
      rfl
    generalize now : t.cache.entries = entries at enters
    cases enters with
    | @known b hit =>
      refine .inl ⟨rfl, ?_⟩
      rw [Transition.use, lookup, hit]
      by_cases taken : (Transition.mk s e t).TakenFor304
      · exact .inr ⟨b, taken, rfl, if_pos taken⟩
      · exact .inl (if_neg taken)
    | @fresh rest r miss rear =>
      refine .inr ⟨c, ⟨⟨p, backup, server⟩, miss, ⟨rest, r, rear, now⟩, d, n, content, heard, ends, contents⟩, ?_⟩
      rw [Transition.use, lookup, miss]
      dsimp only
      rw [if_pos ended, node]
      rfl

theorem isCacheHit_mem {info : HttpInfo} {b : Nat} (hit : isCacheHit s.cache info = some b) : b ∈ s.documents := by
  refine List.mem_filter.mpr ⟨List.mem_of_find?_eq_some hit, ?_⟩
  have good := List.find?_some hit
  rw [Bool.and_eq_true, Bool.and_eq_true] at good
  exact good.1.1

theorem lookup_mem {b : Nat} (found : x.lookup = some b) : b ∈ x.before.documents := by
  obtain ⟨c, _, hit⟩ := Option.bind_eq_some_iff.mp found
  exact isCacheHit_mem hit

theorem Known.documents (known : Known history s v) (next : step s e = some t)
    (same : t.cache.entries = s.cache.entries) : t.documents = s.documents := by
  rw [ProxyState.documents, ProxyState.documents, same]
  refine List.filter_congr fun a member => ?_
  exact (known.queued next member (same ▸ member)).2

/-- A stored document is put before the others, of which the last entry of the queue is evicted. -/
theorem Known.documents_stored (known : Known history s v) (next : step s e = some t) (stores : Stores s e.node c e.io t) :
    ∃ rest r, s.cache.entries = rest ++ [r] ∧ t.cache.entries = c :: rest ∧ c ∉ s.cache.entries ∧
      t.documents = c :: rest.filter fun a => (s.content a).httpInfo.infoComplete := by
  have heard := known.stored next stores
  obtain ⟨listed, _⟩ := known.served next
  obtain ⟨⟨p, backup, server⟩, _, ⟨rest, r, rear, entries⟩, _⟩ := stores
  have owns : (s.node e.node).Owns c := owns_server server
  obtain ⟨_, complete, _⟩ := (known.tracked e.node listed).heard (t := t) server heard
  refine ⟨rest, r, rear, entries, (known.represents.owned_live known.sound listed owns).2.1, ?_⟩
  have first : (c :: rest).filter (fun a => (t.content a).httpInfo.infoComplete) =
      c :: rest.filter fun a => (t.content a).httpInfo.infoComplete := List.filter_cons_of_pos complete
  rw [ProxyState.documents, entries, first]
  refine congrArg (c :: ·) (List.filter_congr fun a member => ?_)
  refine (known.queued next ?_ ?_).2
  · rw [rear]
    exact List.mem_append_left _ member
  · rw [entries]
    exact List.mem_cons_of_mem _ member

theorem Ran.in_order (two : 2 ≤ slots) (h : Ran slots history s)
    (front : ∀ x ∈ history, ∀ b, x.TakenFor304 → x.lookup = some b → x.before.documents.head? = some b) :
    Lru.InOrder (uses history) s.documents := by
  induction h with
  | @start maxClient listenFd s h =>
    obtain ⟨listener, represents, _, incomplete⟩ := start_represents two h
    have none : s.documents = [] := by
      refine List.filter_eq_nil_iff.mpr fun a member complete => ?_
      rw [represents.cache.entries_eq] at member
      exact absurd (complete.symm.trans (incomplete a member)) (by decide)
    rw [none]
    exact List.Pairwise.nil
  | @step history s e t h next ih =>
    have order := ih fun x member => front x (List.mem_append_left _ member)
    obtain ⟨v, known⟩ := h.known two
    obtain ⟨_, served, _⟩ := known.served next
    rw [uses_append]
    rcases served.use with ⟨entries, unused | ⟨b, taken, found, used⟩⟩ | ⟨c, stores, used⟩
    · rw [unused, List.append_nil, known.documents next entries]
      exact order
    · have first := front ⟨s, e, t⟩ (List.mem_append_right _ List.mem_cons_self) b taken found
      obtain ⟨rest, documents⟩ := List.head?_eq_some_iff.mp first
      change s.documents = b :: rest at documents
      rw [used, known.documents next entries, documents]
      rw [documents] at order
      exact (order.sublist (List.sublist_cons_self b rest)).use (List.nodup_cons.mp order.nodup).1
    · obtain ⟨rest, r, rear, _, outside, documents⟩ := known.documents_stored next stores
      have fewer : (rest.filter fun a => (s.content a).httpInfo.infoComplete).Sublist s.documents := by
        rw [ProxyState.documents, rear]
        exact (List.sublist_append_left rest [r]).filter _
      rw [used, documents]
      refine (order.sublist fewer).use fun again => outside ?_
      rw [rear]
      exact List.mem_append_left _ (List.mem_filter.mp again).1

/-- In order, an eviction takes the document used longest ago. -/
theorem Known.evicts (known : Known history s v) (next : step s e = some t) {uses : List Nat}
    (order : Lru.InOrder uses s.documents) {r a : Nat} (evicted : r ∈ s.documents) (gone : r ∉ t.cache.entries)
    (member : a ∈ s.documents) (other : a ≠ r) : Lru.lastUse uses r < Lru.lastUse uses a := by
  obtain ⟨_, served, _⟩ := known.served next
  obtain ⟨queued, complete⟩ := List.mem_filter.mp evicted
  rcases served.entries with same | ⟨c, stores⟩
  · rw [same] at gone
    exact absurd queued gone
  · obtain ⟨rest, last, rear, entries⟩ := stores.queue
    rw [entries] at gone
    have here : r = last := by
      rw [rear] at queued
      rcases List.mem_append.mp queued with inside | here
      · exact absurd (List.mem_cons_of_mem c inside) gone
      · exact List.mem_singleton.mp here
    subst here
    have split : s.documents = (rest.filter fun a => (s.content a).httpInfo.infoComplete) ++ [r] := by
      rw [ProxyState.documents, rear, List.filter_append]
      exact congrArg _ (List.filter_cons_of_pos complete)
    rw [split] at order member
    rcases List.mem_append.mp member with inside | here
    · exact order.rear inside
    · exact absurd (List.mem_singleton.mp here) other

/-- The queue is least recently used exactly as long as each document that a 304 validates is the
first of the queue. -/
theorem least_recently_used_iff (two : 2 ≤ slots) (h : Ran slots history s) :
    LeastRecentlyUsed history ↔
      ∀ x ∈ history, ∀ b, x.TakenFor304 → x.lookup = some b → x.before.documents.head? = some b := by
  constructor
  · intro recent x member b taken found
    obtain ⟨before, after, split⟩ := List.append_of_mem member
    obtain ⟨ran, next⟩ := h.split split
    obtain ⟨v, known⟩ := ran.known two
    obtain ⟨_, served, _⟩ := known.served next
    obtain ⟨order, _⟩ := recent before x after split
    have used : x.use = [b] := by
      rw [Transition.use, found]
      exact if_pos taken
    rcases served.entries with entries | ⟨c, stores⟩
    · rw [uses_append, used, known.documents next entries] at order
      exact order.front (lookup_mem found)
    · obtain ⟨p, backup, server⟩ := stores.server
      have node : (x.before.node x.event.node).cacheNode = some c := congrArg Session.cacheNode server
      have miss : x.lookup = none := by
        rw [Transition.lookup, node]
        exact stores.miss
      cases miss.symm.trans found
  · intro front before x after split
    obtain ⟨ran, next⟩ := h.split split
    obtain ⟨v, known⟩ := ran.known two
    have earlier : ∀ y ∈ before ++ [x], y ∈ history := by
      intro y member
      rw [split, List.append_cons]
      exact List.mem_append_left _ member
    have order := ran.in_order two fun y member => front y (earlier y (List.mem_append_left _ member))
    refine ⟨(ran.step next).in_order two fun y member => front y (earlier y member), fun r evicted gone a member other => ?_⟩
    exact known.evicts next order evicted gone member other

/-- Two documents, a hit on the front one, and a third document that evicts the other. -/
theorem least_recently_used_three : ∃ history s, Ran 2 history s ∧ uses history = [2, 3, 3, 5] ∧ s.documents = [5, 3] ∧
    LeastRecentlyUsed history := by
  have run : ((ProxyState.start 2 3 3).bind (·.trace
      [.accept 4, .request 3 "a" 5, .send 4 1500, .response 4, .closed 4,
        .accept 6, .request 5 "b" 7, .send 6 1500, .response 6, .closed 6,
        .accept 8, .request 7 "b" 9, .send 8 1500, .notModified 8,
        .accept 10, .request 9 "c" 11, .send 10 1500, .response 10, .closed 10])).map (fun run =>
      (uses run.1, run.2.documents, decide (∀ x ∈ run.1, x.before.Reads x.event.node → ∀ b ∈ x.lookup,
        x.before.documents.head? = some b))) = some ([2, 3, 3, 5], [5, 3], true) := by
    decide +kernel
  obtain ⟨⟨history, s⟩, trace, facts⟩ := Option.map_eq_some_iff.mp run
  obtain ⟨used, facts⟩ := Prod.mk.inj facts
  obtain ⟨left, front⟩ := Prod.mk.inj facts
  rw [decide_eq_true_eq] at front
  have ran := ran_of_trace trace
  refine ⟨history, s, ran, used, left, (least_recently_used_iff (Nat.le_refl 2) ran).mpr fun x member b taken found => ?_⟩
  exact front x member taken.2.1 b found

/-- The document at 2 is validated while it is behind the one at 3, and stays there. -/
theorem hit_not_reordered : ¬ ∀ slots history s, 2 ≤ slots → Ran slots history s → LeastRecentlyUsed history := by
  intro claim
  have run : ((ProxyState.start 2 3 3).bind (·.trace
      [.accept 4, .request 3 "a" 5, .send 4 1500, .response 4, .closed 4,
        .accept 6, .request 5 "b" 7, .send 6 1500, .response 6, .closed 6,
        .accept 8, .request 7 "a" 9, .send 8 1500, .notModified 8])).map (fun run =>
      (uses run.1, run.1.getLast?.map fun x => x.after.documents)) = some ([2, 3, 2], some [3, 2]) := by
    decide +kernel
  obtain ⟨⟨history, s⟩, trace, facts⟩ := Option.map_eq_some_iff.mp run
  obtain ⟨used, last⟩ := Prod.mk.inj facts
  obtain ⟨x, isLast, documents⟩ := Option.map_eq_some_iff.mp last
  obtain ⟨before, split⟩ := List.getLast?_eq_some_iff.mp isLast
  obtain ⟨order, _⟩ := claim 2 history s (Nat.le_refl 2) (ran_of_trace trace) before x [] split
  have first : ¬ Lru.InOrder [2, 3, 2] [3, 2] := by decide
  rw [← split, used, documents] at order
  exact first order

end

end NetProjects.Proxy
