import NetProjects.Proxy.Tracking

/-!
# What the proxy writes

`cache_send` sends the whole buffer, which is always larger than what has been received into it.
-/

namespace NetProjects.Proxy
open Bytes

/-- The bytes a `send` takes, `none` where it reads outside the array. -/
def Send.bytes (send : Send) : List (Option UInt8) :=
  (List.range send.numbytes.toNat).map fun (i : Nat) => send.array[(send.start + (i : Int)).toNat]?

namespace Transition

def sent (x : Transition) : List Send := x.after.sends.drop x.before.sends.length

/-- The event ends the writing of the request of the client `p` to its origin, on a cache miss. -/
def Asks (x : Transition) (p : Nat) : Prop :=
  (x.before.node x.event.node).type = .server ∧ (x.before.node x.event.node).status = .writing ∧
    (x.before.node x.event.node).flag = 2 ∧ (x.before.node x.event.node).proxied = some p ∧
    (x.after.node x.event.node).status = .reading

/-- The event ends the writing of the response that the server `g` has fetched on a cache miss. -/
def Answers (x : Transition) (g : Nat) : Prop :=
  (x.before.node x.event.node).type = .client ∧ (x.before.node x.event.node).status = .writing ∧
    (x.before.node x.event.node).proxied = some g ∧ (x.before.node g).flag = 2 ∧
    x.event.node ∉ x.after.fds

instance (x : Transition) (p : Nat) : Decidable (x.Asks p) := inferInstanceAs (Decidable (_ ∧ _))

instance (x : Transition) (g : Nat) : Decidable (x.Answers g) := inferInstanceAs (Decidable (_ ∧ _))

end Transition

/-- The bytes written through the node `f`. -/
def written (f : Nat) (history : List Transition) : List (Option UInt8) :=
  history.flatMap fun x => if x.event.node = f then x.sent.flatMap Send.bytes else []

/-- No `send` has failed. -/
def AllSent (history : List Transition) : Prop := ∀ x ∈ history, ∀ send ∈ x.sent, 0 ≤ send.numbytes

/-- The client `f` is sent a document of more bytes than its server has received on a miss. -/
structure Answered (history : List Transition) (s : ProxyState) (f : Nat) : Prop where
  offset : ((written f history).length : Int) = (s.node f).offset
  gone : ∀ g, (s.node f).proxied = some g → g ∉ s.fds ∧ g < s.fdNodes.top
  larger : ∀ g d, (s.node f).proxied = some g → (s.node f).cacheNode = some d → (s.node g).flag = 2 →
    (received g history).length < (s.content d).bufferSize

/-- The offset of a node that is written to counts the bytes written. -/
def Relayed (history : List Transition) (s : ProxyState) (f : Nat) : Prop :=
  match (s.node f).type, (s.node f).status with
  | .client, .reading => written f history = []
  | .client, .idle => written f history = [] ∧ (s.node f).offset = 0
  | .server, .writing => ((written f history).length : Int) = (s.node f).offset
  | .client, .writing => Answered history s f
  | _, _ => True

/-- The server `f` has ended the response that the client `g` waits for. -/
inductive Woken (s : ProxyState) (f : Nat) (io : Io) (t : ProxyState) (g : Nat) : Prop where
  | intro {c d : Nat} {backup : Option Nat} {n : CacheNode} {content : Nat → CacheNode}
      (server : s.session f = .server g c backup true) (client : s.session g = .client .idle (some f) c)
      (heard : (s.content c).heard (s.node f).offset io = some n) (ends : Ends s f c io n d content)
      (woken : t.node g = { s.node g with cacheNode := some d, status := .writing })
      (flag : (t.node f).flag = (s.node f).flag) (outside : f ∉ t.fds) (top : t.fdNodes.top = s.fdNodes.top)
      (sizes : ∀ a, (t.content a).bufferSize = (content a).bufferSize)

section

variable {s t : ProxyState} {v w : View} {f g a slots : Nat} {io : Io} {e : Event} {history : List Transition}
  {x : Transition}

theorem length_bytes (send : Send) : send.bytes.length = send.numbytes.toNat := by
  rw [Send.bytes, List.length_map, List.length_range]

theorem sent_of_sends {sends : List Send} (same : x.after.sends = x.before.sends ++ sends) : x.sent = sends := by
  rw [Transition.sent, same, List.drop_left]

theorem written_here (history : List Transition) (x : Transition) :
    written x.event.node (history ++ [x]) = written x.event.node history ++ x.sent.flatMap Send.bytes := by
  rw [written, List.flatMap_append, List.flatMap_singleton, if_pos rfl]
  rfl

theorem written_other (other : x.event.node ≠ f) : written f (history ++ [x]) = written f history := by
  rw [written, List.flatMap_append, List.flatMap_singleton, if_neg other, List.append_nil]
  rfl

theorem written_unsent (unsent : x.sent = []) : written f (history ++ [x]) = written f history := by
  rw [written, List.flatMap_append, List.flatMap_singleton, unsent, List.flatMap_nil, ite_self, List.append_nil]
  rfl

theorem length_written_sent (history : List Transition) {send : Send} (sent : x.sent = [send]) (valid : 0 ≤ send.numbytes) :
    ((written x.event.node (history ++ [x])).length : Int) = (written x.event.node history).length + send.numbytes := by
  rw [written_here, sent, List.flatMap_singleton, List.length_append, length_bytes]
  omega

theorem written_new (bound : ∀ x ∈ history, x.event.node < f) : written f history = [] :=
  List.flatMap_eq_nil_iff.mpr fun x member => if_neg (Nat.ne_of_lt (bound x member))

/-- Of the older nodes only the one served changes, and the client that is woken. -/
theorem Served.node_kept (served : Served s f io t) (older : g ≠ s.fdNodes.top) (other : g ≠ f) :
    t.node g = s.node g ∨ Woken s f io t g := by
  cases served with
  | still _ shows =>
    rw [shows.node]
    exact .inl rfl
  | accepted _ shows =>
    rw [shows.node]
    exact .inl (Function.update_of_ne older _ _)
  | dropped _ _ shows =>
    rw [shows.node]
    exact .inl (Function.update_of_ne other _ _)
  | connected _ _ shows =>
    rw [shows.node]
    exact .inl ((Function.update_of_ne older _ _).trans (Function.update_of_ne other _ _))
  | sent _ _ _ _ shows =>
    rw [shows.node]
    exact .inl (Function.update_of_ne other _ _)
  | asked _ _ _ shows =>
    rw [shows.node]
    exact .inl (Function.update_of_ne other _ _)
  | answered _ _ _ shows =>
    rw [shows.node]
    exact .inl (Function.update_of_ne other _ _)
  | received _ _ _ _ shows =>
    rw [shows.node]
    exact .inl (Function.update_of_ne other _ _)
  | @finished p c d backup n content entries server client heard ends enters shows =>
    by_cases same : g = p
    · subst same
      refine .inr (.intro server client heard ends ?_ ?_ ?_ shows.fdTop shows.bufferSize)
      · rw [shows.node]
        exact (Function.update_of_ne other _ _).trans (Function.update_self _ _ _)
      · rw [shows.node]
        dsimp only
        rw [Function.update_self]
      · intro again
        have apart := (List.mem_filter.mp ((shows.listed _).mp again)).2
        rw [decide_eq_true_eq] at apart
        exact apart rfl
    · rw [shows.node]
      exact .inl ((Function.update_of_ne other _ _).trans (Function.update_of_ne same _ _))

/-- The nodes that are not in the list stay as they are. -/
theorem Served.node_outside (rep : Represents s v) (listed : f ∈ s.fds) (served : Served s f io t) (outside : g ∉ s.fds)
    (old : g < s.fdNodes.top) : t.node g = s.node g := by
  have other : g ≠ f := by
    rintro rfl
    exact outside listed
  obtain kept | ⟨server, client, _⟩ := served.node_kept (Nat.ne_of_lt old) other
  · exact kept
  · obtain ⟨front, rear, xs, list⟩ := rep.list
    have type : (s.session f).type = .server := congrArg Session.type server
    obtain ⟨q, _, _, _, member, _, server'⟩ := list.server listed type
    obtain rfl : q = g := Option.some.inj (congrArg Session.proxied (server'.symm.trans server))
    exact absurd (list.mem_fds.mpr (.inl (.inr (.inr ⟨_, member, List.mem_cons_self⟩)))) outside

/-- A node that enters the list is a client that is read from, or a server that is written to. -/
theorem Served.node_new (served : Served s f io t) (fresh : s.fdNodes.top ∉ s.fds) (listed : s.fdNodes.top ∈ t.fds) :
    (∃ fd c, t.node s.fdNodes.top = newFdNode none none fd .client .reading (some c)) ∨
      ∃ fd p c hit, t.node s.fdNodes.top = .server fd p c hit := by
  cases served with
  | still _ shows => exact absurd ((shows.listed _).mp listed) fresh
  | accepted _ shows =>
    rw [shows.node]
    exact .inl ⟨_, _, Function.update_self _ _ _⟩
  | dropped _ _ shows => exact absurd (List.mem_filter.mp ((shows.listed _).mp listed)).1 fresh
  | connected _ _ shows =>
    rw [shows.node]
    exact .inr ⟨_, _, _, _, Function.update_self _ _ _⟩
  | sent _ _ _ _ shows => exact absurd ((shows.listed _).mp listed) fresh
  | asked _ _ _ shows => exact absurd ((shows.listed _).mp listed) fresh
  | answered _ _ _ shows => exact absurd (List.mem_filter.mp ((shows.listed _).mp listed)).1 fresh
  | received _ _ _ _ shows => exact absurd ((shows.listed _).mp listed) fresh
  | finished _ _ _ _ _ shows => exact absurd (List.mem_filter.mp ((shows.listed _).mp listed)).1 fresh

/-- No size changes but that of a document received into. -/
theorem Served.bufferSize (served : Served s f io t) (allocated : a < s.cache.nodes.top)
    (apart : ∀ c, (s.node f).Owns c → a ≠ c) : (t.content a).bufferSize = (s.content a).bufferSize := by
  obtain ⟨x, shows, same | ⟨date, same⟩⟩ := served.unowned allocated apart
  · rw [shows.bufferSize, same]
  · rw [shows.bufferSize, same]
    rfl

/-- The document of a client that is sent it is allocated, and not received into. -/
theorem Known.answering {d : Nat} (known : Known history s v) (listed : f ∈ s.fds) (type : (s.node f).type = .client)
    (writing : (s.node f).status = .writing) (document : (s.node f).cacheNode = some d) :
    d < s.cache.nodes.top ∧ ∀ g ∈ s.fds, ∀ c, (s.node g).Owns c → d ≠ c := by
  obtain ⟨front, rear, xs, list⟩ := known.represents.list
  replace type : (s.session f).type = .client := type
  replace writing : (s.session f).status = .writing := writing
  replace document : (s.session f).cacheNode = some d := document
  obtain ⟨st, member, shared⟩ : ∃ st ∈ v.stages, st.shared = some d := by
    cases list.role listed with
    | answering member client =>
      rw [client] at document
      exact ⟨_, member, document⟩
    | dummy here | listener here | serving _ _ here =>
      rw [here] at type
      cases type
    | asking _ here | waiting _ here _ =>
      rw [here] at writing
      cases writing
  obtain ⟨apart, allocated⟩ := known.shared st member d shared
  rw [known.represents.cache.top]
  refine ⟨allocated, fun g other c owns => ?_⟩
  rintro rfl
  exact apart (known.represents.owned other owns)

theorem Served.mem_fds (served : Served s f io t) (listed : g ∈ t.fds) : g ∈ s.fds ∨ g = s.fdNodes.top := by
  cases served with
  | still _ shows => exact .inl ((shows.listed g).mp listed)
  | accepted _ shows => exact (List.mem_cons.mp ((shows.listed g).mp listed)).symm
  | dropped _ _ shows => exact .inl (List.mem_filter.mp ((shows.listed g).mp listed)).1
  | connected _ _ shows => exact (List.mem_cons.mp ((shows.listed g).mp listed)).symm
  | sent _ _ _ _ shows => exact .inl ((shows.listed g).mp listed)
  | asked _ _ _ shows => exact .inl ((shows.listed g).mp listed)
  | answered _ _ _ shows => exact .inl (List.mem_filter.mp ((shows.listed g).mp listed)).1
  | received _ _ _ _ shows => exact .inl ((shows.listed g).mp listed)
  | finished _ _ _ _ _ shows => exact .inl (List.mem_filter.mp ((shows.listed g).mp listed)).1

/-- The document of a client that is being sent it keeps its size, and its server stays gone. -/
theorem Known.answered_kept (known : Known history s v) (next : step s e = some t) (listed : f ∈ s.fds)
    (type : (s.node f).type = .client) (status : (s.node f).status = .writing) (answered : Answered history s f) :
    (∀ g, (s.node f).proxied = some g → g ∉ t.fds ∧ g < t.fdNodes.top) ∧
      ∀ g d, (s.node f).proxied = some g → (s.node f).cacheNode = some d → (t.node g).flag = 2 →
        (received g (history ++ [⟨s, e, t⟩])).length < (t.content d).bufferSize := by
  obtain ⟨here, served, _⟩ := known.served next
  obtain ⟨_, gone, larger⟩ := answered
  refine ⟨fun g proxied => ?_, fun g d proxied document missed => ?_⟩
  · obtain ⟨outside, old⟩ := gone g proxied
    refine ⟨fun again => ?_, old.trans_le served.fdTop⟩
    rcases served.mem_fds again with before | new
    · exact outside before
    · exact absurd new (Nat.ne_of_lt old)
  · obtain ⟨outside, old⟩ := gone g proxied
    rw [served.node_outside known.represents here outside old] at missed
    have unread : ¬ (Transition.mk s e t).ReadsFrom g := fun reads => outside (reads.1 ▸ here)
    obtain ⟨allocated, apart⟩ := known.answering listed type status document
    rw [received_other unread, served.bufferSize allocated (apart e.node here)]
    exact larger g d proxied document missed

/-- An event keeps what is known of a node that it does not change. -/
theorem Known.relayed_kept (known : Known history s v) (next : step s e = some t) (listed : f ∈ s.fds)
    (relayed : Relayed history s f) (node : t.node f = s.node f)
    (unwritten : written f (history ++ [⟨s, e, t⟩]) = written f history) : Relayed (history ++ [⟨s, e, t⟩]) t f := by
  unfold Relayed at relayed ⊢
  rw [node, unwritten]
  split
  · rename_i type status
    rwa [type, status] at relayed
  · rename_i type status
    rwa [type, status] at relayed
  · rename_i type status
    rwa [type, status] at relayed
  · rename_i type status
    rw [type, status] at relayed
    obtain ⟨gone, larger⟩ := known.answered_kept next listed type status relayed
    refine ⟨?_, ?_, ?_⟩
    · rw [unwritten, node]
      exact relayed.offset
    · rw [node]
      exact gone
    · rw [node]
      exact larger
  · trivial

/-- The bytes a node has written after one more `send`. -/
theorem Relayed.sent (relayed : Relayed history s e.node) (writing : (s.node e.node).status = .writing)
    (type : (s.node e.node).type = .client ∨ (s.node e.node).type = .server) {send : Send}
    (sends : t.sends = s.sends ++ [send]) (valid : 0 ≤ send.numbytes) :
    ((written e.node (history ++ [⟨s, e, t⟩])).length : Int) = (s.node e.node).offset + send.numbytes := by
  have sent : (Transition.mk s e t).sent = [send] := sent_of_sends sends
  have length := length_written_sent history sent valid
  refine length.trans (congrArg (· + send.numbytes) ?_)
  unfold Relayed at relayed
  rw [writing] at relayed
  rcases type with client | server
  · rw [client] at relayed
    exact relayed.offset
  · rw [server] at relayed
    exact relayed

theorem AllSent.before (all : AllSent (history ++ [x])) : AllSent history :=
  fun y member => all y (List.mem_append_left _ member)

theorem AllSent.last (all : AllSent (history ++ [⟨s, e, t⟩])) {send : Send} (sends : t.sends = s.sends ++ [send]) :
    0 ≤ send.numbytes := by
  refine all ⟨s, e, t⟩ (List.mem_append_right _ List.mem_cons_self) send ?_
  rw [sent_of_sends sends]
  exact List.mem_cons_self

theorem relayed_read (type : (s.node f).type = .server) (status : (s.node f).status = .reading) : Relayed history s f := by
  unfold Relayed
  rw [type, status]
  trivial

/-- A node that is written to goes on from where it was. -/
theorem Known.relayed_sent (known : Known history s v) (next : step s e = some t) (here : e.node ∈ s.fds)
    (now : Relayed history s e.node) (writing : (s.node e.node).status = .writing) {send : Send}
    (sends : t.sends = s.sends ++ [send]) (valid : 0 ≤ send.numbytes)
    (moved : t.node e.node = { s.node e.node with offset := (s.node e.node).offset + send.numbytes }) :
    Relayed (history ++ [⟨s, e, t⟩]) t e.node := by
  cases type : (s.node e.node).type with
  | dummy | listen =>
    unfold Relayed
    rw [moved]
    dsimp only
    rw [type]
    trivial
  | server =>
    have length := now.sent writing (.inr type) sends valid
    unfold Relayed
    rw [moved]
    dsimp only
    rw [type, writing]
    exact length
  | client =>
    have length := now.sent writing (.inl type) sends valid
    unfold Relayed at now
    rw [type, writing] at now
    obtain ⟨gone, larger⟩ := known.answered_kept next here type writing now
    unfold Relayed
    rw [moved]
    dsimp only
    rw [type, writing]
    refine ⟨?_, ?_, ?_⟩
    · rw [moved]
      exact length
    · rw [moved]
      exact gone
    · rw [moved]
      exact larger

/-- A client whose server has ended is sent a document larger than what the server received. -/
theorem Known.relayed_woken (known : Known history s v) (here : e.node ∈ s.fds) (waiting : Relayed history s f)
    (wakes : Woken s e.node e.io t f) (unsent : written f (history ++ [⟨s, e, t⟩]) = written f history) :
    Relayed (history ++ [⟨s, e, t⟩]) t f := by
  obtain ⟨server, client, heard, ends, woken, flag, outside, top, sizes⟩ := wakes
  have type : (s.node f).type = .client := congrArg Session.type client
  unfold Relayed at waiting
  rw [type, show (s.node f).status = .idle from congrArg Session.status client] at waiting
  obtain ⟨unwritten, offset⟩ := waiting
  have serverOf : ∀ g, (t.node f).proxied = some g → g = e.node := by
    intro g proxied
    rw [woken] at proxied
    have bound : (s.node f).proxied = some e.node := congrArg Session.proxied client
    exact Option.some.inj (proxied.symm.trans bound)
  unfold Relayed
  rw [woken]
  dsimp only
  rw [type]
  refine ⟨?_, fun g proxied => ?_, fun g a proxied document missed => ?_⟩
  · rw [unsent, unwritten, woken]
    exact offset.symm
  · obtain rfl := serverOf g proxied
    exact ⟨outside, (known.represents.fds_lt here).trans_eq top.symm⟩
  · obtain rfl := serverOf g proxied
    rw [flag] at missed
    rw [woken] at document
    obtain rfl := Option.some.inj document
    obtain ⟨fetched, _⟩ := (known.tracked e.node here).heard (t := t) server heard
    rw [sizes]
    cases ends with
    | closed =>
      rw [Function.update_self]
      exact fetched.room
    | notModified conditional =>
      have hit : (s.node e.node).flag = 1 := conditional.1
      rw [hit] at missed
      cases missed

/-- The node served, if it stays in the list. -/
theorem Known.relayed_here (known : Known history s v) (next : step s e = some t)
    (all : AllSent (history ++ [⟨s, e, t⟩])) (now : Relayed history s e.node) (listed : e.node ∈ t.fds) :
    Relayed (history ++ [⟨s, e, t⟩]) t e.node := by
  obtain ⟨here, served, w, known'⟩ := known.served next
  have older : e.node ≠ s.fdNodes.top := Nat.ne_of_lt (known.represents.fds_lt here)
  have unsent : t.sends = s.sends → written e.node (history ++ [⟨s, e, t⟩]) = written e.node history := by
    intro same
    refine written_unsent (sent_of_sends ?_)
    rw [List.append_nil]
    exact same
  cases served with
  | still idle shows => exact known.relayed_kept next here now (congrFun shows.node e.node) (unsent shows.sends)
  | accepted idle shows =>
    refine known.relayed_kept next here now ?_ (unsent shows.sends)
    rw [shows.node]
    exact Function.update_of_ne older _ _
  | dropped client _ shows =>
    have apart := (List.mem_filter.mp ((shows.listed _).mp listed)).2
    exact absurd rfl (of_decide_eq_true apart)
  | @connected c n fd client _ shows =>
    have type : (s.node e.node).type = .client := congrArg Session.type client
    unfold Relayed at now ⊢
    rw [type, show (s.node e.node).status = .reading from congrArg Session.status client] at now
    have waiting := congrFun shows.node e.node
    dsimp only at waiting
    rw [Function.update_of_ne older, Function.update_self] at waiting
    rw [waiting, unsent shows.sends]
    dsimp only
    rw [type]
    exact ⟨now, rfl⟩
  | @sent c send writing document bytes more shows =>
    have moved := congrFun shows.node e.node
    dsimp only at moved
    rw [Function.update_self] at moved
    exact known.relayed_sent next here now writing shows.sends (all.last shows.sends) moved
  | @asked p c backup send server bytes complete shows =>
    have reading := congrFun shows.node e.node
    dsimp only at reading
    rw [Function.update_self] at reading
    apply relayed_read
    · rw [reading]
      exact congrArg Session.type server
    · rw [reading]
  | @answered g d send client bytes complete shows =>
    have apart := (List.mem_filter.mp ((shows.listed _).mp listed)).2
    exact absurd rfl (of_decide_eq_true apart)
  | @received p c backup n server heard arrived modified shows =>
    have reading := congrFun shows.node e.node
    dsimp only at reading
    rw [Function.update_self] at reading
    apply relayed_read
    · rw [reading]
      exact congrArg Session.type server
    · rw [reading]
      exact congrArg Session.status server
  | @finished p c d backup n content entries server client heard ends enters shows =>
    have apart := (List.mem_filter.mp ((shows.listed _).mp listed)).2
    exact absurd rfl (of_decide_eq_true apart)

theorem Known.relayed (known : Known history s v) (next : step s e = some t) (all : AllSent (history ++ [⟨s, e, t⟩]))
    (relayed : ∀ f ∈ s.fds, Relayed history s f) : ∀ f ∈ t.fds, Relayed (history ++ [⟨s, e, t⟩]) t f := by
  obtain ⟨here, served, w, known'⟩ := known.served next
  have below : ∀ f ∈ s.fds, f ≠ s.fdNodes.top := fun f listed => Nat.ne_of_lt (known.represents.fds_lt listed)
  intro f listed
  obtain old | rfl := served.mem_fds listed
  · by_cases same : f = e.node
    · subst same
      exact known.relayed_here next all (relayed _ here) listed
    · have unsent : written f (history ++ [⟨s, e, t⟩]) = written f history :=
        written_other fun again => same again.symm
      obtain kept | woken := served.node_kept (below f old) same
      · exact known.relayed_kept next old (relayed f old) kept unsent
      · exact known.relayed_woken here (relayed f old) woken unsent
  · have unwritten : written s.fdNodes.top (history ++ [⟨s, e, t⟩]) = [] := by
      rw [written_other (below e.node here)]
      exact written_new known.bound
    unfold Relayed
    obtain ⟨fd, c, new⟩ | ⟨fd, p, c, hit, new⟩ := served.node_new (fun old => below _ old rfl) listed
    · rw [new]
      exact unwritten
    · rw [new, unwritten]
      rfl

theorem Ran.relayed (two : 2 ≤ slots) (h : Ran slots history s) (all : AllSent history) :
    ∀ f ∈ s.fds, Relayed history s f := by
  induction h with
  | @start maxClient listenFd s h =>
    obtain ⟨listener, represents, _, _⟩ := start_represents two h
    obtain ⟨front, rear, xs, list⟩ := represents.list
    intro f listed
    have type : (s.session f).type = .dummy ∨ (s.session f).type = .listen := by
      rcases list.mem_fds.mp listed with (rfl | rfl | ⟨st, inside, _⟩) | rfl
      · exact .inl (congrArg Session.type list.front)
      · exact .inr (congrArg Session.type list.listener)
      · exact absurd inside List.not_mem_nil
      · exact .inl (congrArg Session.type list.rear)
    unfold Relayed
    rcases type with dummy | listening
    · rw [show (s.node f).type = .dummy from dummy]
      trivial
    · rw [show (s.node f).type = .listen from listening]
      trivial
  | step h next ih =>
    obtain ⟨v, known⟩ := h.known two
    exact known.relayed next all (ih all.before)

/-- The request that has been written is longer than the one received. -/
theorem Known.asks_longer (known : Known history s v) (next : step s e = some t)
    (all : AllSent (history ++ [⟨s, e, t⟩])) (relayed : Relayed history s e.node) {p : Nat}
    (asks : (Transition.mk s e t).Asks p) :
    (received p (history ++ [⟨s, e, t⟩])).length < (written e.node (history ++ [⟨s, e, t⟩])).length := by
  obtain ⟨here, served, _⟩ := known.served next
  obtain ⟨type, writing, _, proxied, reading⟩ := asks
  replace type : (s.node e.node).type = .server := type
  replace writing : (s.node e.node).status = .writing := writing
  replace reading : (t.node e.node).status = .reading := reading
  have unread := not_reads_of_writing writing
  cases served with
  | still _ shows =>
    rw [shows.node] at reading
    cases writing.symm.trans reading
  | accepted _ shows =>
    rw [shows.node] at reading
    dsimp only at reading
    rw [Function.update_of_ne (Nat.ne_of_lt (known.represents.fds_lt here))] at reading
    cases writing.symm.trans reading
  | dropped client => cases type.symm.trans (congrArg Session.type client)
  | connected client => cases type.symm.trans (congrArg Session.type client)
  | sent _ _ _ _ shows =>
    rw [shows.node] at reading
    dsimp only at reading
    rw [Function.update_self] at reading
    cases writing.symm.trans reading
  | @asked q c backup send server bytes complete shows =>
    have valid := all.last shows.sends
    have length := relayed.sent writing (.inr type) shows.sends valid
    have awaited := known.tracked e.node here c (congrArg Session.cacheNode server)
    unfold Relayed at relayed
    rw [type, writing] at relayed awaited
    have request := awaited.request p proxied
    have silent : ¬ (Transition.mk s e t).ReadsFrom p := fun reads => unread (reads.1 ▸ reads.2)
    rw [received_other silent]
    rcases complete with negative | complete
    · omega
    · omega
  | answered client => cases type.symm.trans (congrArg Session.type client)
  | received server => cases writing.symm.trans (congrArg Session.status server)
  | finished server => cases writing.symm.trans (congrArg Session.status server)

/-- The response that has been written is longer than the one received. -/
theorem Known.answers_longer (known : Known history s v) (next : step s e = some t)
    (all : AllSent (history ++ [⟨s, e, t⟩])) (relayed : Relayed history s e.node) {g : Nat}
    (answers : (Transition.mk s e t).Answers g) :
    (received g (history ++ [⟨s, e, t⟩])).length < (written e.node (history ++ [⟨s, e, t⟩])).length := by
  obtain ⟨here, served, _⟩ := known.served next
  obtain ⟨type, writing, proxied, missed, gone⟩ := answers
  replace type : (s.node e.node).type = .client := type
  replace writing : (s.node e.node).status = .writing := writing
  have unread := not_reads_of_writing writing
  cases served with
  | still _ shows => exact absurd ((shows.listed _).mpr here) gone
  | accepted _ shows => exact absurd ((shows.listed _).mpr (List.mem_cons_of_mem _ here)) gone
  | dropped client => cases writing.symm.trans (congrArg Session.status client)
  | connected client => cases writing.symm.trans (congrArg Session.status client)
  | sent _ _ _ _ shows => exact absurd ((shows.listed _).mpr here) gone
  | asked server => cases type.symm.trans (congrArg Session.type server)
  | @answered q d send client bytes complete shows =>
    have valid := all.last shows.sends
    have length := relayed.sent writing (.inl type) shows.sends valid
    unfold Relayed at relayed
    rw [type, writing] at relayed
    have larger := relayed.larger g d proxied (congrArg Session.cacheNode client) missed
    have offset := relayed.offset
    have silent : ¬ (Transition.mk s e t).ReadsFrom g := fun reads => unread (reads.1 ▸ reads.2)
    rw [received_other silent]
    rcases complete with negative | complete
    · omega
    · omega
  | received server => cases type.symm.trans (congrArg Session.type server)
  | finished server => cases type.symm.trans (congrArg Session.type server)

theorem written_ne {sent : List (Option UInt8)} {bytes : List UInt8} (longer : bytes.length < sent.length) :
    sent ≠ bytes.map some := by
  rintro rfl
  rw [List.length_map] at longer
  exact Nat.lt_irrefl _ longer

/-- On a miss the proxy writes more than it has received: neither the request that the origin gets
nor the response that the client gets is the one received. -/
theorem relay_never_exact (two : 2 ≤ slots) (h : Ran slots history s) (all : AllSent history)
    {before after : List Transition} (split : history = before ++ x :: after) :
    (∀ p, x.Asks p → written x.event.node (before ++ [x]) ≠ (received p (before ++ [x])).map some) ∧
      ∀ g, x.Answers g → written x.event.node (before ++ [x]) ≠ (received g (before ++ [x])).map some := by
  obtain ⟨ran, next⟩ := h.split split
  obtain ⟨v, known⟩ := ran.known two
  have earlier : AllSent (before ++ [x]) := by
    intro y member
    refine all y ?_
    rw [split, List.append_cons]
    exact List.mem_append_left _ member
  obtain ⟨here, _⟩ := known.served next
  have relayed := ran.relayed two earlier.before x.event.node here
  exact ⟨fun p asks => written_ne (known.asks_longer next earlier relayed asks),
    fun g answers => written_ne (known.answers_longer next earlier relayed answers)⟩

instance (history : List Transition) : Decidable (AllSent history) := inferInstanceAs (Decidable (∀ _ ∈ _, ∀ _ ∈ _, _))

theorem relay_never_exact_one : ∃ before x s, Ran 2 (before ++ [x]) s ∧ x.Answers 4 ∧
    written x.event.node (before ++ [x]) ≠ (received 4 (before ++ [x])).map some := by
  have run : ((ProxyState.start 2 3 3).bind (·.trace
      [.accept 4, .request 3 "a" 5, .send 4 1500, .response 4, .closed 4, .send 3 1500])).map (fun run =>
      (decide (AllSent run.1), run.1.getLast?.map fun x => decide (x.Answers 4))) = some (true, some true) := by
    decide +kernel
  obtain ⟨⟨history, s⟩, trace, facts⟩ := Option.map_eq_some_iff.mp run
  obtain ⟨all, last⟩ := Prod.mk.inj facts
  obtain ⟨x, isLast, answers⟩ := Option.map_eq_some_iff.mp last
  obtain ⟨before, split⟩ := List.getLast?_eq_some_iff.mp isLast
  rw [decide_eq_true_eq] at all answers
  have ran := ran_of_trace trace
  obtain ⟨_, different⟩ := relay_never_exact (Nat.le_refl 2) ran all split
  exact ⟨before, x, s, split ▸ ran, answers, different 4 answers⟩

/-- A request of 28 bytes is written as the 200 bytes of its buffer. -/
theorem request_padded : ¬ ∀ slots before x s, 2 ≤ slots → Ran slots (before ++ [x]) s → AllSent (before ++ [x]) →
    ∀ p, x.Asks p → written x.event.node (before ++ [x]) = (received p (before ++ [x])).map some := by
  intro claim
  have run : ((ProxyState.start 2 3 3).bind (·.trace [.accept 4, .request 3 "a" 5, .send 4 1500])).map (fun run =>
      (decide (AllSent run.1), (received 3 run.1).length, run.1.getLast?.map fun x =>
        (decide (x.Asks 3), (written x.event.node run.1).length))) = some (true, 28, some (true, 200)) := by
    decide +kernel
  obtain ⟨⟨history, s⟩, trace, facts⟩ := Option.map_eq_some_iff.mp run
  obtain ⟨all, facts⟩ := Prod.mk.inj facts
  obtain ⟨request, last⟩ := Prod.mk.inj facts
  obtain ⟨x, isLast, facts⟩ := Option.map_eq_some_iff.mp last
  obtain ⟨asks, sent⟩ := Prod.mk.inj facts
  obtain ⟨before, split⟩ := List.getLast?_eq_some_iff.mp isLast
  rw [decide_eq_true_eq] at all asks
  have ran := ran_of_trace trace
  dsimp only at split all request sent
  rw [split] at ran all request sent
  have lengths := congrArg List.length (claim 2 before x s (Nat.le_refl 2) ran all 3 asks)
  rw [List.length_map, request, sent] at lengths
  cases lengths

end

end NetProjects.Proxy
