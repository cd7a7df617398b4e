import NetProjects.Library.Traversal
import NetProjects.Proxy.Links
import NetProjects.Proxy.Contents
import NetProjects.Proxy.Pairing

/-!
# Passes of the inner loop

After `select` the loop goes down the list and calls the handler of each ready node. It saves what follows the
node before the call, as the handler may free it, but does not go there when a client has been written to.
-/

namespace NetProjects.Proxy
open Linked

/-- The descriptors in `read_fds` and in `write_fds`. -/
structure Ready where
  read : Int → Bool
  write : Int → Bool

structure Pass where
  state : ProxyState
  fdNode : Option Nat
  /-- Ghost: the nodes that the pass has come to. -/
  offered : List Nat
  /-- Ghost: the nodes whose handlers have been called. -/
  served : List Nat

namespace Pass

def start (s : ProxyState) : Pass := { state := s, fdNode := s.fdList.front, offered := [], served := [] }

def skip (p : Pass) (f : Nat) : Pass :=
  { p with fdNode := (p.state.fdNodes.cell f).next, offered := p.offered ++ [f] }

/-- The handler of `f` has left the state `s`, and the cursor is set. -/
def called (p : Pass) (f : Nat) (s : ProxyState) (fdNode : Option Nat) : Pass :=
  { state := s, fdNode := fdNode, offered := p.offered ++ [f], served := p.served ++ [f] }

/-- The body of the loop, with what the system calls of the handler return. -/
def turn (ready : Ready) (p : Pass) (io : Io) : Option Pass := do
  let f ← p.fdNode
  let node := p.state.fdNodes.cell f
  match node.type with
  | .dummy => return p.skip f
  | .listen =>
    if ready.read node.fd then
      let tmpNode := node.next
      let s ← listenFdHandler p.state io
      let s ← printFdList s
      return p.called f s tmpNode
    else return p.skip f
  | .client =>
    if node.status = .reading ∧ ready.read node.fd then
      let tmpNode := node.next
      let s ← clientReadHandler p.state f io
      return p.called f s tmpNode
    else if node.status = .writing ∧ ready.write node.fd then
      -- Here `tmp_node` is saved and not used.
      let s ← clientWriteHandler p.state f io
      return p.called f s (some f)
    else return p.skip f
  | .server =>
    if node.status = .reading ∧ ready.read node.fd then
      let tmpNode := node.next
      let s ← serverReadHandler p.state f io
      return p.called f s tmpNode
    else if node.status = .writing ∧ ready.write node.fd then
      let tmpNode := node.next
      let s ← serverWriteHandler p.state f io
      return p.called f s tmpNode
    else return p.skip f

def run (ready : Ready) (p : Pass) (ios : List Io) : Option Pass := ios.foldlM (turn ready) p

/-- The pass is at a client that it writes to. -/
def Repeats (ready : Ready) (p : Pass) : Prop :=
  ∃ f, p.fdNode = some f ∧ (p.state.fdNodes.cell f).type = .client ∧ (p.state.fdNodes.cell f).status = .writing ∧
    ready.write (p.state.fdNodes.cell f).fd = true

/-- The next turn may read `g`: the node it is at, one of the list, or the client of a server. -/
def Reads (p : Pass) (g : Nat) : Prop :=
  ∃ f, p.fdNode = some f ∧ (g = f ∨ g ∈ p.state.fds ∨
    (p.state.fdNodes.cell f).type = .server ∧ (p.state.fdNodes.cell f).proxied = some g)

end Pass

/-- The pass has come to `p`, after the turns taken at `before`. -/
inductive Passes (ready : Ready) (s : ProxyState) : List Pass → Pass → Prop where
  | start : Passes ready s [] (.start s)
  | turn {before p q io} (h : Passes ready s before p) (next : p.turn ready io = some q) :
      Passes ready s (before ++ [p]) q

/-- A pass that started at `s` reads no freed node, calls no handler twice, and has come to each node of the start
that is left when it ends. -/
structure Orderly (s : ProxyState) (p : Pass) : Prop where
  live : ∀ g, p.Reads g → g ∉ p.state.fdNodes.freed
  once : p.served.Nodup
  offers : p.fdNode = none → ∀ f ∈ s.fds, f ∈ p.state.fds → f ∈ p.offered

section

variable {s t : ProxyState} {slots f c front rear listener : Nat} {xs : List Nat} {stages : List Stage} {io : Io}
  {ready : Ready} {before : List Pass} {p q : Pass}

/-! ### One turn -/

/-- The cases of one turn at `f`. -/
inductive Turned (ready : Ready) (p : Pass) (f : Nat) (io : Io) : Pass → Prop where
  | skipped (goes : ¬ p.Repeats ready) : Turned ready p f io (p.skip f)
  | served {u} (goes : ¬ p.Repeats ready) (run : serve p.state f io = some u) :
      Turned ready p f io (p.called f u (p.state.fdNodes.cell f).next)
  | stuck {u} (repeats : p.Repeats ready) (run : clientWriteHandler p.state f io = some u) :
      Turned ready p f io (p.called f u (some f))

theorem turn_cases (next : p.turn ready io = some q) : ∃ f, p.fdNode = some f ∧ Turned ready p f io q := by
  obtain ⟨f, here, next⟩ := Option.bind_eq_some_iff.mp next
  refine ⟨f, here, ?_⟩
  have repeats_iff : p.Repeats ready ↔ (p.state.fdNodes.cell f).type = .client ∧
      (p.state.fdNodes.cell f).status = .writing ∧ ready.write (p.state.fdNodes.cell f).fd = true := by
    unfold Pass.Repeats
    rw [here]
    simp
  have goes_of_type (other : (p.state.fdNodes.cell f).type ≠ .client) : ¬ p.Repeats ready :=
    fun repeats => other (repeats_iff.mp repeats).1
  cases type : (p.state.fdNodes.cell f).type with
  | dummy =>
    simp only [type] at next
    rw [← Option.some.inj next]
    exact .skipped (goes_of_type (by simp [type]))
  | listen =>
    have goes := goes_of_type (by simp [type])
    simp only [type] at next
    split at next
    · obtain ⟨u, accepted, next⟩ := Option.bind_eq_some_iff.mp next
      obtain ⟨t, printed, next⟩ := Option.bind_eq_some_iff.mp next
      rw [← Option.some.inj next]
      apply Turned.served goes
      simp only [serve, type, accepted, Option.bind_some, printed]
    · rw [← Option.some.inj next]
      exact .skipped goes
  | client =>
    simp only [type] at next
    split at next
    · rename_i reading
      obtain ⟨t, run, next⟩ := Option.bind_eq_some_iff.mp next
      rw [← Option.some.inj next]
      have goes : ¬ p.Repeats ready := by
        intro repeats
        have writing := (repeats_iff.mp repeats).2.1
        rw [reading.1] at writing
        cases writing
      apply Turned.served goes
      simp only [serve, type, reading.1, if_true, run]
    · split at next
      · rename_i writing
        obtain ⟨t, run, next⟩ := Option.bind_eq_some_iff.mp next
        rw [← Option.some.inj next]
        exact .stuck (repeats_iff.mpr ⟨type, writing⟩) run
      · rename_i idle
        rw [← Option.some.inj next]
        exact .skipped fun repeats => idle (repeats_iff.mp repeats).2
  | server =>
    have goes := goes_of_type (by simp [type])
    simp only [type] at next
    split at next
    · rename_i reading
      obtain ⟨t, run, next⟩ := Option.bind_eq_some_iff.mp next
      rw [← Option.some.inj next]
      apply Turned.served goes
      simp only [serve, type, reading.1, if_true, run]
    · split at next
      · rename_i writing
        obtain ⟨t, run, next⟩ := Option.bind_eq_some_iff.mp next
        rw [← Option.some.inj next]
        apply Turned.served goes
        have notReading : NodeStatus.writing ≠ .reading := by simp
        simp only [serve, type, writing.1, if_neg notReading, if_true, run]
      · rw [← Option.some.inj next]
        exact .skipped goes

theorem turn_of_repeats (here : p.fdNode = some f) (repeats : p.Repeats ready) :
    p.turn ready io = (clientWriteHandler p.state f io).map fun t => p.called f t (some f) := by
  obtain ⟨g, same, type, writing, sends⟩ := repeats
  obtain rfl := Option.some.inj (here.symm.trans same)
  have notReading : NodeStatus.writing ≠ .reading := by simp
  unfold Pass.turn
  simp only [here, Option.bind_eq_bind, Option.bind_some, type, writing, sends, notReading, false_and, if_false,
    and_self, if_true]
  exact Option.map_eq_bind.symm

/-! ### A pass that goes on -/

theorem ListRep.next_eq {before after : List Nat} (list : ListRep s front rear listener xs stages)
    (split : s.fds = before ++ f :: after) : (s.fdNodes.cell f).next = after.head? := by
  have links := list.list.links.forward
  rw [← list.fds_eq, split] at links
  exact links.split_at.2.head

/-- The cursor goes down the list as it changes. -/
structure Passing (slots : Nat) (s : ProxyState) (p : Pass) : Prop where
  reached : Reachable slots p.state
  walk : Walk s.fds p.state.fds p.fdNode p.offered
  known : ∀ f, f ∈ s.fds ∨ f ∈ p.offered → f < p.state.fdNodes.top
  served : p.served.Sublist p.offered

theorem Passing.start (two : 2 ≤ slots) (reached : Reachable slots s) : Passing slots s (.start s) := by
  obtain ⟨v, represents, _⟩ := reachable_represents two reached
  obtain ⟨front, rear, xs, list⟩ := represents.list
  have live := reachable_live two reached
  have front : s.fdList.front = s.fds.head? := by
    rw [list.fds_eq]
    exact list.list.links.front_eq
  refine ⟨reached, ?_, ?_, List.Sublist.refl _⟩
  · have walk := Walk.begin s.fds
    rwa [← front] at walk
  · rintro f (listed | offered)
    · exact (live.listed f listed).1
    · exact absurd offered List.not_mem_nil

/-- What a call does to the list lets the cursor go to what followed its node. -/
theorem Relisted.walk {start before after offered : List Nat} (here : Walk.At start before f after offered)
    (split : s.fds = before ++ f :: after) (distinct : s.fds.Nodup)
    (known : ∀ g, g ∈ start ∨ g ∈ offered ∨ g = f → g < s.fdNodes.top) (notRear : t ≠ s → s.fds.getLast? ≠ some f)
    (h : Relisted s f t) : Walk start t.fds after.head? (offered ++ [f]) := by
  cases h with
  | kept fds =>
    rw [fds, split]
    exact here.next
  | removed fds =>
    rw [split] at distinct
    have notBefore : f ∉ before := fun again =>
      (List.nodup_append.mp distinct).2.2 f again f List.mem_cons_self rfl
    rw [fds, split, List.erase_append_right _ notBefore, List.erase_cons_head]
    exact here.remove
  | @appended ys rear old fds =>
    have moved : t ≠ s := by
      rintro rfl
      rw [old] at fds
      have lengths := congrArg List.length fds
      simp at lengths
    have notLast : f ≠ rear := by
      rintro rfl
      apply notRear moved
      rw [old, List.getLast?_append_of_ne_nil _ (List.cons_ne_nil _ _)]
      rfl
    obtain ⟨middle, rfl, rfl⟩ := Walk.before_last (split.symm.trans old) notLast
    have fresh : ∀ g, g ∈ start ∨ g ∈ offered ∨ g = f → g ≠ s.fdNodes.top := fun g old =>
      Nat.ne_of_lt (known g old)
    rw [fds, List.append_assoc]
    apply here.insert
    · exact fun member => fresh _ (Or.inl member) rfl
    · exact fun member => fresh _ (Or.inr (Or.inl member)) rfl
    · exact fun same => fresh f (Or.inr (Or.inr rfl)) same.symm

theorem Relisted.top (h : Relisted s f t) : s.fdNodes.top ≤ t.fdNodes.top := by
  cases h with
  | kept _ _ top => exact Nat.le_of_eq top.symm
  | removed _ _ top => exact Nat.le_of_eq top.symm
  | appended _ _ _ top =>
    rw [top]
    exact Nat.le_succ _

/-- The node that the pass is at is in the list. -/
theorem Passing.standing (passing : Passing slots s p) (list : ListRep p.state front rear listener xs stages)
    (here : p.fdNode = some f) : f ∈ p.state.fds ∧ ∃ before after, p.state.fds = before ++ f :: after ∧
      Walk.At s.fds before f after p.offered := by
  have walk := passing.walk
  rw [here] at walk
  obtain ⟨before, after, split, standing⟩ := walk.standing list.nodup
  refine ⟨?_, before, after, split, standing⟩
  rw [split]
  exact List.mem_append_right _ List.mem_cons_self

/-- Where no client is written to, one turn goes on to the next node. -/
theorem Passing.turn (two : 2 ≤ slots) (passing : Passing slots s p) (goes : ¬ p.Repeats ready)
    (next : p.turn ready io = some q) : Passing slots s q := by
  obtain ⟨v, represents, _⟩ := reachable_represents two passing.reached
  obtain ⟨front, rear, xs, list⟩ := represents.list
  have live := reachable_live two passing.reached
  obtain ⟨f, cursor, turned⟩ := turn_cases next
  obtain ⟨listed, before, after, split, here⟩ := passing.standing list cursor
  have follows := list.next_eq split
  have known : ∀ g, g ∈ s.fds ∨ g ∈ p.offered ∨ g = f → g < p.state.fdNodes.top := by
    rintro g (inside | offered | rfl)
    · exact passing.known g (Or.inl inside)
    · exact passing.known g (Or.inr offered)
    · exact (live.listed g listed).1
  have known' : ∀ g, g ∈ s.fds ∨ g ∈ p.offered ++ [f] → g < p.state.fdNodes.top := by
    intro g old
    rw [List.mem_append, List.mem_singleton] at old
    exact known g old
  cases turned with
  | skipped =>
    refine ⟨passing.reached, ?_, known', passing.served.trans (List.sublist_append_left _ _)⟩
    have walk := here.next
    rw [← split, ← follows] at walk
    exact walk
  | @served t _ run =>
    have relisted := list.serve_relisted listed run
    have step : step p.state ⟨f, io⟩ = some t := by
      unfold Proxy.step
      rw [if_pos listed, run]
    refine ⟨passing.reached.step step, ?_, fun g old => Nat.lt_of_lt_of_le (known' g old) relisted.top,
      passing.served.append (List.Sublist.refl _)⟩
    have notRear : t ≠ p.state → p.state.fds.getLast? ≠ some f := by
      intro moved last
      rw [list.fds_eq, List.getLast?_append_of_ne_nil _ (List.cons_ne_nil _ _)] at last
      obtain rfl : rear = f := Option.some.inj last
      rw [serve_dummy list.rear] at run
      exact moved (Option.some.inj run).symm
    have walk := relisted.walk here split list.nodup known notRear
    rw [← follows] at walk
    exact walk
  | stuck repeats => exact absurd repeats goes

theorem Passing.orderly (two : 2 ≤ slots) (passing : Passing slots s p) : Orderly s p := by
  obtain ⟨v, represents, _⟩ := reachable_represents two passing.reached
  obtain ⟨front, rear, xs, list⟩ := represents.list
  have live := reachable_live two passing.reached
  constructor
  · rintro g ⟨f, cursor, reads⟩
    have listed := (passing.standing list cursor).1
    obtain rfl | inside | ⟨type, proxied⟩ := reads
    · exact (live.listed g listed).2
    · exact (live.listed g inside).2
    · obtain ⟨client, inside, same, _⟩ := (list.server_paired listed type).proxied
      obtain rfl := Option.some.inj (same.symm.trans proxied)
      exact (live.listed client inside).2
  · exact passing.served.nodup passing.walk.once
  · intro ended
    have walk := passing.walk
    rw [ended] at walk
    exact walk.offers_all

theorem Passes.passing (two : 2 ≤ slots) (reached : Reachable slots s) (h : Passes ready s before p)
    (goes : ∀ q ∈ before, ¬ q.Repeats ready) : Passing slots s p := by
  induction h with
  | start => exact .start two reached
  | turn h next ih =>
    have earlier := ih fun q member => goes q (List.mem_append_left _ member)
    exact earlier.turn two (goes _ (List.mem_append_right _ List.mem_cons_self)) next

/-! ### A pass at a client that it writes to -/

theorem ListRep.cached (list : ListRep s front rear listener xs stages) (listed : f ∈ s.fds)
    (type : (s.session f).type = .client) : ∃ c, (s.session f).cacheNode = some c := by
  cases list.role listed with
  | asking _ client | waiting _ client _ | answering _ client => exact ⟨_, congrArg Session.cacheNode client⟩
  | dummy here | listener here | serving _ _ here =>
    rw [here] at type
    cases type

theorem cacheSend_some (type : (s.session f).type = .client) (node : (s.session f).cacheNode = some c) (io : Io) :
    ∃ t, cacheSend s f io = some t := by
  replace node : (s.fdNodes.cell f).cacheNode = some c := node
  have client : (((s.touch c).fdNodes.cell f).type = .server ∧ ((s.touch c).fdNodes.cell f).flag = 1) → False := by
    rintro ⟨server, _⟩
    have same : ((s.touch c).session f).type = .client := by rwa [session_touch]
    cases same.symm.trans server
  unfold cacheSend sendSource
  simp only [node, Option.bind_eq_bind, Option.bind_some, if_neg client, Option.pure_def]
  split <;> exact ⟨_, rfl⟩

/-- Writing to a client frees it, or leaves it in the list with another offset. -/
theorem clientWriteHandler_some (rep : FdRep s.fdNodes s.fdList front xs rear) (inside : f ∈ xs)
    (type : (s.node f).type = .client) (writing : (s.node f).status = .writing)
    (node : (s.session f).cacheNode = some c) (io : Io) :
    ∃ t, clientWriteHandler s f io = some t ∧ (f ∈ t.fdNodes.freed ∨
      t.links = s.links ∧ ∃ offset, t.node f = { s.node f with offset := offset }) := by
  obtain ⟨u, sent⟩ := cacheSend_some type node io
  have links := cacheSend_links sent
  have handler : clientWriteHandler s f io =
      if (u.fdNodes.cell f).status = .idle then removeFd u f else some u := by
    unfold clientWriteHandler
    rw [sent]
    rfl
  rw [handler]
  obtain ⟨send, _, _, _, ⟨_, nodes⟩ | ⟨_, nodes⟩⟩ := cacheSend_node node sent
  · have idle : (u.fdNodes.cell f).status = .idle := by
      change (u.node f).status = .idle
      rw [nodes, Function.update_self]
    obtain ⟨left, removed, _⟩ := fdListRemove_spec (rep.of_links links) inside
    refine ⟨{ u with fdNodes := left.free f }, ?_, Or.inl (List.mem_append_right _ List.mem_cons_self)⟩
    unfold removeFd
    rw [if_pos idle, removed]
    rfl
  · have still : (u.fdNodes.cell f).status = .writing := by
      change (u.node f).status = .writing
      rw [nodes, Function.update_self]
      exact writing
    refine ⟨u, ?_, Or.inr ⟨links, (s.node f).offset + send.numbytes, ?_⟩⟩
    · rw [if_neg (by rw [still]; decide)]
    · rw [nodes, Function.update_self]

/-- A turn at a client that is written to stays there. -/
theorem turn_stuck (rep : FdRep p.state.fdNodes p.state.fdList front xs rear) (inside : f ∈ xs)
    (here : p.fdNode = some f) (repeats : p.Repeats ready) (node : (p.state.session f).cacheNode = some c) (io : Io) :
    ∃ t, p.turn ready io = some (p.called f t (some f)) ∧ (f ∈ t.fdNodes.freed ∨
      t.links = p.state.links ∧ (p.called f t (some f)).Repeats ready ∧ (t.session f).cacheNode = some c) := by
  rw [turn_of_repeats here repeats]
  obtain ⟨g, same, type, writing, sends⟩ := repeats
  obtain rfl := Option.some.inj (here.symm.trans same)
  obtain ⟨t, run, effect⟩ := clientWriteHandler_some rep inside type writing node io
  refine ⟨t, by rw [run]; rfl, effect.imp_right ?_⟩
  rintro ⟨links, offset, same⟩
  have field : ∀ {α : Type} (get : FdNode → α), (∀ n k, get { n with offset := k } = get n) →
      get (t.node f) = get (p.state.node f) := by
    intro α get keeps
    rw [same]
    exact keeps _ _
  have sameType : (t.fdNodes.cell f).type = (p.state.fdNodes.cell f).type := field FdNode.type fun _ _ => rfl
  have sameStatus : (t.fdNodes.cell f).status = (p.state.fdNodes.cell f).status := field FdNode.status fun _ _ => rfl
  have sameFd : (t.fdNodes.cell f).fd = (p.state.fdNodes.cell f).fd := field FdNode.fd fun _ _ => rfl
  refine ⟨links, ⟨f, rfl, sameType.trans type, sameStatus.trans writing, ?_⟩, ?_⟩
  · change ready.write (t.fdNodes.cell f).fd = true
    rw [sameFd]
    exact sends
  · exact (field FdNode.cacheNode fun _ _ => rfl).trans node

theorem Passing.disorderly (two : 2 ≤ slots) (passing : Passing slots s p) (h : Passes ready s before p)
    (repeats : p.Repeats ready) : ∃ before q, Passes ready s before q ∧ ¬ Orderly s q := by
  obtain ⟨v, represents, _⟩ := reachable_represents two passing.reached
  obtain ⟨front, rear, xs, list⟩ := represents.list
  obtain ⟨f, here, type, _⟩ := id repeats
  have listed := (passing.standing list here).1
  have inside : f ∈ xs := by
    apply list.mem_middle listed
    intro bare
    rw [ProxyState.session] at bare
    cases type.symm.trans (congrArg Session.type bare)
  obtain ⟨c, node⟩ := list.cached listed type
  -- What the calls return does not matter.
  obtain ⟨t, turn, freed | ⟨links, again, node'⟩⟩ := turn_stuck list.list inside here repeats node Io.blank
  · refine ⟨_, _, h.turn turn, fun orderly => ?_⟩
    exact orderly.live f ⟨f, rfl, Or.inl rfl⟩ freed
  · have rep := list.list.of_links links
    obtain ⟨u, turn', _⟩ := turn_stuck (by exact rep) inside rfl again node' Io.blank
    refine ⟨_, _, (h.turn turn).turn turn', fun orderly => ?_⟩
    have twice : (p.served ++ [f] ++ [f]).Nodup := orderly.once
    exact (List.nodup_append.mp twice).2.2 f (List.mem_append_right _ List.mem_cons_self) f List.mem_cons_self rfl

/-! ### Every pass -/

theorem Passes.earlier (h : Passes ready s before p) (member : q ∈ before) : ∃ first, Passes ready s first q := by
  induction h with
  | start => exact absurd member List.not_mem_nil
  | turn h next ih =>
    obtain old | here := List.mem_append.mp member
    · exact ih old
    · obtain rfl := List.mem_singleton.mp here
      exact ⟨_, h⟩

theorem Passes.passing_or_disorderly (two : 2 ≤ slots) (reached : Reachable slots s) (h : Passes ready s before p) :
    Passing slots s p ∨ ∃ before q, Passes ready s before q ∧ ¬ Orderly s q := by
  induction h with
  | start => exact Or.inl (.start two reached)
  | @turn before p q io h next ih =>
    obtain passing | found := ih
    · by_cases repeats : p.Repeats ready
      · exact Or.inr (passing.disorderly two h repeats)
      · exact Or.inl (passing.turn two repeats next)
    · exact Or.inr found

/-- A pass is orderly as long as it comes to no client that it writes to. -/
theorem passes_orderly_iff (two : 2 ≤ slots) (reached : Reachable slots s) (ready : Ready) :
    ((∀ before p, Passes ready s before p → Orderly s p) ↔
      ∀ before p, Passes ready s before p → ¬ p.Repeats ready) ∧
    ∀ before p, Passes ready s before p → (∀ q ∈ before, ¬ q.Repeats ready) → Orderly s p := by
  have orderly : ∀ before p, Passes ready s before p → (∀ q ∈ before, ¬ q.Repeats ready) → Orderly s p :=
    fun before p h goes => (h.passing two reached goes).orderly two
  refine ⟨⟨?_, ?_⟩, orderly⟩
  · intro all before p h repeats
    have disorder : ∃ before q, Passes ready s before q ∧ ¬ Orderly s q := by
      obtain passing | found := h.passing_or_disorderly two reached
      · exact passing.disorderly two h repeats
      · exact found
    obtain ⟨before, q, h, disorderly⟩ := disorder
    exact disorderly (all before q h)
  · intro goes before p h
    apply orderly before p h
    intro q member
    obtain ⟨first, h⟩ := h.earlier member
    exact goes first q h

/-- A pass that writes to nobody is orderly. -/
theorem passes_orderly_reading : ∃ s, Reachable 2 s ∧ s.fds = [0, 2, 3, 1] ∧
    ∀ before p, Passes ⟨fun _ => true, fun _ => false⟩ s before p → Orderly s p := by
  have run : (ProxyState.run 2 3 3 [.accept 4]).map ProxyState.fds = some [0, 2, 3, 1] := by decide +kernel
  obtain ⟨s, run, fds⟩ := Option.map_eq_some_iff.mp run
  have reached := reachable_of_run run
  refine ⟨s, reached, fds, (passes_orderly_iff (Nat.le_refl 2) reached _).1.mpr ?_⟩
  rintro before p _ ⟨f, _, _, _, sends⟩
  cases sends

theorem passes_of_run {ios : List Io} (h : Passes ready s before p) (run : p.run ready ios = some q) :
    ∃ before, Passes ready s before q := by
  induction ios generalizing before p with
  | nil =>
    obtain rfl := Option.some.inj run
    exact ⟨before, h⟩
  | cons io ios ih =>
    obtain ⟨next, turned, rest⟩ := Option.bind_eq_some_iff.mp run
    exact ih (h.turn turned) rest

/-- A client that is sent the last of its document is read again after it has been freed. -/
theorem client_read_freed : ¬ ∀ slots s ready before p, 2 ≤ slots → Reachable slots s → Passes ready s before p →
    Orderly s p := by
  intro claim
  have run : ((ProxyState.run 2 3 3 [.accept 4, .request 3 "a" 5, .send 4 1500, .response 4, .closed 4]).bind fun s =>
      ((Pass.start s).run ⟨fun _ => false, fun fd => fd = 4⟩ [.blank, .blank, .blank]).map fun p =>
        (p.fdNode, p.state.fdNodes.freed)) = some (some 3, [4, 3]) := by
    decide +kernel
  obtain ⟨s, started, run⟩ := Option.bind_eq_some_iff.mp run
  obtain ⟨p, run, facts⟩ := Option.map_eq_some_iff.mp run
  obtain ⟨here, freed⟩ := Prod.mk.inj facts
  obtain ⟨before, passes⟩ := passes_of_run .start run
  have orderly := claim 2 s _ before p (Nat.le_refl 2) (reachable_of_run started) passes
  apply orderly.live 3 ⟨3, here, Or.inl rfl⟩
  rw [freed]
  exact List.mem_cons_of_mem _ List.mem_cons_self

end

end NetProjects.Proxy
