import NetProjects.Proxy.Descriptors

/-!
# What `select` is asked

`fd_select` fills its sets from the list before a pass. The list changes during the pass and the kernel may give
a descriptor closed in it to another node, but no handler is called for such a node.
-/

namespace NetProjects.Proxy
open Linked

/-- The arguments of `select`. -/
structure Watched where
  readFds : List Int
  writeFds : List Int
  nfds : Int

/-- The loop body of `fd_select`. -/
def watchNode (nodes : Heap FdNode) (w : Watched) (f : Nat) : Watched :=
  let node := nodes.cell f
  if node.status = .reading then { w with readFds := w.readFds ++ [node.fd] }
  else if node.status = .writing then { w with writeFds := w.writeFds ++ [node.fd] }
  else w

def fdSelect (s : ProxyState) : Option Watched :=
  (getMaxFd s.fdNodes s.fdList).map fun fdMax =>
    { s.fds.foldl (watchNode s.fdNodes) ⟨[], [], 0⟩ with nfds := fdMax + 1 }

/-- `select` leaves in its sets some of what it is given. -/
structure Ready.Within (ready : Ready) (w : Watched) : Prop where
  read : ∀ fd, ready.read fd = true → fd ∈ w.readFds
  write : ∀ fd, ready.write fd = true → fd ∈ w.writeFds

/-- The pass calls the handler of the node that it is at. -/
def Pass.Calls (ready : Ready) (p : Pass) (f : Nat) : Prop :=
  p.fdNode = some f ∧
    match (p.state.fdNodes.cell f).type with
    | .dummy => False
    | .listen => ready.read (p.state.fdNodes.cell f).fd = true
    | _ => (p.state.fdNodes.cell f).status = .reading ∧ ready.read (p.state.fdNodes.cell f).fd = true ∨
        (p.state.fdNodes.cell f).status = .writing ∧ ready.write (p.state.fdNodes.cell f).fd = true

/-- A pass with the descriptors that are open, those open at its start being `fds`. -/
inductive PassOpens (ready : Ready) (s : ProxyState) (fds : List Int) : List Pass → Pass → List Int → Prop where
  | start : PassOpens ready s fds [] (.start s) fds
  | skipped {before p q io now} (h : PassOpens ready s fds before p now) (next : p.turn ready io = some q)
      (skips : q.served = p.served) : PassOpens ready s fds (before ++ [p]) q now
  | called {before p q f io now} (h : PassOpens ready s fds before p now) (next : p.turn ready io = some q)
      (calls : q.served = p.served ++ [f]) (fresh : ∀ fd ∈ openCalls p.state ⟨f, io⟩, 0 ≤ fd ∧ fd ∉ now) :
      PassOpens ready s fds (before ++ [p]) q
        (now.diff (closeCalls p.state ⟨f, io⟩) ++ openCalls p.state ⟨f, io⟩)

section

variable {slots f g c front rear listener : Nat} {s t u : ProxyState} {v : View} {e : Event} {io : Io}
  {history : List Transition} {fds now : List Int} {w : Watched} {ready : Ready} {before : List Pass} {p q : Pass}
  {xs : List Nat} {stages : List Stage}

/-! ### The sets -/

theorem watchNodes_mem (nodes : Heap FdNode) (fs : List Nat) (w : Watched) (fd : Int) :
    (fd ∈ (fs.foldl (watchNode nodes) w).readFds ↔
      fd ∈ w.readFds ∨ ∃ f ∈ fs, (nodes.cell f).status = .reading ∧ (nodes.cell f).fd = fd) ∧
    (fd ∈ (fs.foldl (watchNode nodes) w).writeFds ↔
      fd ∈ w.writeFds ∨ ∃ f ∈ fs, (nodes.cell f).status = .writing ∧ (nodes.cell f).fd = fd) := by
  induction fs generalizing w with
  | nil => simp
  | cons f fs ih =>
    obtain ⟨reads, writes⟩ := ih (watchNode nodes w f)
    rw [List.foldl_cons, reads, writes]
    simp only [List.exists_mem_cons_iff, ← or_assoc]
    unfold watchNode
    cases status : (nodes.cell f).status with
    | reading => simp [status, eq_comm (a := fd) (b := (nodes.cell f).fd)]
    | writing => simp [status, eq_comm (a := fd) (b := (nodes.cell f).fd)]
    | _ => simp [status]

/-- The sets hold the descriptors of the nodes that read and of those that write, all below `nfds`. -/
theorem fdSelect_spec (list : ListRep s front rear listener xs stages) : ∃ w, fdSelect s = some w ∧
    (∀ fd, fd ∈ w.readFds ↔ ∃ f ∈ s.fds, (s.node f).status = .reading ∧ (s.node f).fd = fd) ∧
    (∀ fd, fd ∈ w.writeFds ↔ ∃ f ∈ s.fds, (s.node f).status = .writing ∧ (s.node f).fd = fd) ∧
    ∀ fd, fd ∈ w.readFds ∨ fd ∈ w.writeFds → fd < w.nfds := by
  obtain ⟨fdMax, found, most⟩ := list.list.getMaxFd_spec
  rw [← list.fds_eq] at most
  have reads := fun fd => (watchNodes_mem s.fdNodes s.fds ⟨[], [], 0⟩ fd).1
  have writes := fun fd => (watchNodes_mem s.fdNodes s.fds ⟨[], [], 0⟩ fd).2
  simp only [List.not_mem_nil, false_or] at reads writes
  refine ⟨_, congrArg (Option.map _) found, reads, writes, fun fd watched => ?_⟩
  have holder : ∃ f ∈ s.fds, (s.fdNodes.cell f).fd = fd := by
    rcases watched with read | write
    · obtain ⟨f, listed, _, same⟩ := (reads fd).mp read
      exact ⟨f, listed, same⟩
    · obtain ⟨f, listed, _, same⟩ := (writes fd).mp write
      exact ⟨f, listed, same⟩
  obtain ⟨f, listed, rfl⟩ := holder
  exact Int.lt_add_one_of_le (most f listed)

theorem Opens.same_node (two : 2 ≤ slots) (h : Opens slots history s fds) (first : f ∈ s.fds) (second : g ∈ s.fds)
    (busy : (s.node f).type ≠ .dummy) (busy' : (s.node g).type ≠ .dummy) (same : (s.node f).fd = (s.node g).fd) :
    f = g := by
  obtain ⟨distinct, _, perm⟩ := h.descriptors two
  have nodup : s.descriptors.Nodup := perm.nodup_iff.mp distinct
  exact List.inj_on_of_nodup_map nodup (mem_holders.mpr ⟨first, busy⟩) (mem_holders.mpr ⟨second, busy'⟩) same

theorem Opens.mem (two : 2 ≤ slots) (h : Opens slots history s fds) (listed : f ∈ s.fds)
    (busy : (s.node f).type ≠ .dummy) : (s.node f).fd ∈ fds := by
  obtain ⟨_, _, perm⟩ := h.descriptors two
  exact perm.mem_iff.mpr (List.mem_map_of_mem (mem_holders.mpr ⟨listed, busy⟩))

/-- A node that waits for something is no dummy. -/
theorem ListRep.busy (list : ListRep s front rear listener xs stages) (listed : f ∈ s.fds)
    (waits : (s.node f).status ≠ .idle) : (s.node f).type ≠ .dummy := by
  intro dummy
  cases list.role listed with
  | dummy bare => exact waits (congrArg Session.status bare)
  | listener here | asking _ here | waiting _ here _ | serving _ _ here | answering _ here =>
    cases dummy.symm.trans (congrArg Session.type here)

/-! ### The place of the listener -/

/-- The listener is the first node between the dummies. -/
structure Fronted (s : ProxyState) (front listener : Nat) : Prop where
  fds : ∃ middle rear, s.fds = front :: listener :: (middle ++ [rear]) ∧ (s.node rear).type = .dummy
  front : (s.node front).type = .dummy
  listener : (s.node listener).type = .listen

theorem Fronted.step {front listener : Nat} (two : 2 ≤ slots) (reached : Reachable slots s)
    (fronted : Fronted s front listener) (next : step s e = some t) : Fronted t front listener := by
  obtain ⟨listed, turnover, distinct, distinct', allocated, holds⟩ := reachable_turnover two reached next
  obtain ⟨v, represents, _⟩ := reachable_represents two reached
  obtain ⟨_, _, xs, list⟩ := represents.list
  obtain ⟨⟨middle, rear, fds, last⟩, first, second⟩ := fronted
  have same : ∀ g ∈ s.fds, (t.node g).type = (s.node g).type := fun g member =>
    (holds g (Nat.ne_of_lt (allocated g member))).2
  have front' : front ∈ s.fds := by rw [fds]; exact List.mem_cons_self
  have listener' : listener ∈ s.fds := by rw [fds]; exact List.mem_cons_of_mem _ List.mem_cons_self
  have rear' : rear ∈ s.fds := by rw [fds]; simp
  refine ⟨?_, (same _ front').trans first, (same _ listener').trans second⟩
  have run : serve s e.node e.io = some t := by
    unfold Proxy.step at next
    rwa [if_pos listed] at next
  have type := (same _ rear').trans last
  cases list.serve_relisted listed run with
  | kept fds' => exact ⟨middle, rear, fds'.trans fds, type⟩
  | removed fds' =>
    have gone : e.node ∉ t.fds := by
      rw [fds']
      exact distinct.not_mem_erase
    have busy : (s.node e.node).type = .client ∨ (s.node e.node).type = .server := by
      cases turnover with
      | kept _ _ members => exact absurd ((members _).mpr listed) gone
      | opened _ _ members => exact absurd ((members _).mpr (.inr listed)) gone
      | closed busy => exact busy
    have other : ∀ g type, (s.node g).type = type → type ≠ .client → type ≠ .server → g ≠ e.node := by
      rintro g type rfl notClient notServer rfl
      exact busy.elim notClient notServer
    rw [fds, List.erase_cons_tail (by simpa using other _ _ first (by decide) (by decide)),
      List.erase_cons_tail (by simpa using other _ _ second (by decide) (by decide))] at fds'
    by_cases inside : e.node ∈ middle
    · exact ⟨middle.erase e.node, rear, by rw [fds', List.erase_append_left _ inside], type⟩
    · refine ⟨middle, rear, ?_, type⟩
      rw [fds', List.erase_append_right _ inside,
        List.erase_cons_tail (by simpa using other _ _ last (by decide) (by decide)), List.erase_nil]
  | @appended ys rear' old fds' =>
    rw [fds, ← List.cons_append, ← List.cons_append] at old
    obtain ⟨rfl, same⟩ := List.append_inj' old rfl
    obtain rfl := List.head_eq_of_cons_eq same
    exact ⟨middle ++ [s.fdNodes.top], rear, by rw [fds']; simp, type⟩

theorem reachable_fronted (two : 2 ≤ slots) (h : Reachable slots s) : ∃ front listener, Fronted s front listener := by
  induction h with
  | start h =>
    obtain ⟨fds, front, listener, rear, _⟩ := start_list h
    exact ⟨0, 2, ⟨[], 1, fds, congrArg Session.type rear⟩, congrArg Session.type front, congrArg Session.type listener⟩
  | step reached next ih =>
    obtain ⟨front, listener, fronted⟩ := ih
    exact ⟨front, listener, fronted.step two reached next⟩

theorem ListRep.listens (list : ListRep s front rear listener xs stages) (listed : f ∈ s.fds)
    (type : (s.node f).type = .listen) : f = listener ∧ (s.node f).status = .reading := by
  replace type : (s.session f).type = .listen := type
  rcases list.mem_fds.mp listed with (rfl | rfl | ⟨st, member, node⟩) | rfl
  · rw [list.front] at type
    cases type
  · exact ⟨rfl, congrArg Session.status list.listener⟩
  · cases list.role listed with
    | listener bare =>
      have now := list.stages st member
      cases st with
      | asking client c =>
        obtain rfl := List.mem_singleton.mp node
        rw [now] at type
        cases type
      | fetching client server c backup asked =>
        obtain rfl | node := List.mem_cons.mp node
        · rw [now.1] at type
          cases type
        · obtain rfl := List.mem_singleton.mp node
          rw [now.2] at type
          cases type
      | answering client d =>
        obtain rfl := List.mem_singleton.mp node
        obtain ⟨server, writing⟩ := now
        rw [writing] at type
        cases type
    | dummy here | asking _ here | waiting _ here _ | serving _ _ here | answering _ here =>
      rw [here] at type
      cases type
  · rw [list.rear] at type
    cases type

/-! ### One turn -/

/-- A turn skips its node, or calls the handler and leaves the cursor behind it. -/
inductive Went (ready : Ready) (p : Pass) (f : Nat) (io : Io) : Pass → Prop where
  | skipped (idle : ¬ p.Calls ready f) : Went ready p f io (p.skip f)
  | called {u next} (calls : p.Calls ready f) (run : serve p.state f io = some u) :
      Went ready p f io (p.called f u next)

theorem Pass.calls_iff (ready : Ready) (here : p.fdNode = some f) : p.Calls ready f ↔
    match (p.state.fdNodes.cell f).type with
    | .dummy => False
    | .listen => ready.read (p.state.fdNodes.cell f).fd = true
    | _ => (p.state.fdNodes.cell f).status = .reading ∧ ready.read (p.state.fdNodes.cell f).fd = true ∨
        (p.state.fdNodes.cell f).status = .writing ∧ ready.write (p.state.fdNodes.cell f).fd = true :=
  and_iff_right here

theorem turn_went (next : p.turn ready io = some q) : ∃ f, p.fdNode = some f ∧ Went ready p f io q := by
  obtain ⟨f, here, next⟩ := Option.bind_eq_some_iff.mp next
  refine ⟨f, here, ?_⟩
  have calls := Pass.calls_iff ready here
  have notReading : NodeStatus.writing ≠ .reading := by decide
  cases type : (p.state.fdNodes.cell f).type with
  | dummy =>
    simp only [type] at next calls
    rw [← Option.some.inj next]
    exact .skipped calls.mp
  | listen =>
    simp only [type] at next calls
    split at next
    · rename_i readable
      obtain ⟨u, accepted, next⟩ := Option.bind_eq_some_iff.mp next
      obtain ⟨t, printed, next⟩ := Option.bind_eq_some_iff.mp next
      rw [← Option.some.inj next]
      refine .called (calls.mpr readable) ?_
      simp only [serve, type, accepted, Option.bind_some, printed]
    · rename_i silent
      rw [← Option.some.inj next]
      exact .skipped (mt calls.mp silent)
  | client =>
    simp only [type] at next calls
    split at next
    · rename_i reading
      obtain ⟨t, run, next⟩ := Option.bind_eq_some_iff.mp next
      rw [← Option.some.inj next]
      refine .called (calls.mpr (.inl reading)) ?_
      simp only [serve, type, reading.1, if_true, run]
    · rename_i notRead
      split at next
      · rename_i writing
        obtain ⟨t, run, next⟩ := Option.bind_eq_some_iff.mp next
        rw [← Option.some.inj next]
        refine .called (calls.mpr (.inr writing)) ?_
        simp only [serve, type, writing.1, if_neg notReading, if_true, run]
      · rename_i notWritten
        rw [← Option.some.inj next]
        exact .skipped fun again => (calls.mp again).elim notRead notWritten
  | server =>
    simp only [type] at next calls
    split at next
    · rename_i reading
      obtain ⟨t, run, next⟩ := Option.bind_eq_some_iff.mp next
      rw [← Option.some.inj next]
      refine .called (calls.mpr (.inl reading)) ?_
      simp only [serve, type, reading.1, if_true, run]
    · rename_i notRead
      split at next
      · rename_i writing
        obtain ⟨t, run, next⟩ := Option.bind_eq_some_iff.mp next
        rw [← Option.some.inj next]
        refine .called (calls.mpr (.inr writing)) ?_
        simp only [serve, type, writing.1, if_neg notReading, if_true, run]
      · rename_i notWritten
        rw [← Option.some.inj next]
        exact .skipped fun again => (calls.mp again).elim notRead notWritten

/-! ### A pass -/

/-- What `select` knows of the nodes as the pass goes on: the nodes that it was asked about keep their descriptors, and
those that have come since are not ready. -/
structure Selecting (ready : Ready) (s : ProxyState) (front listener : Nat) (p : Pass) : Prop where
  old : ∀ g ∈ s.fds, (p.state.node g).fd = (s.node g).fd ∧ (p.state.node g).type = (s.node g).type
  new : ∀ g ∈ p.state.fds, g ∉ s.fds →
    (p.state.node g).type = .client ∧ (p.state.node g).status = .reading ∧ ready.read (p.state.node g).fd = false ∨
      (p.state.node g).type = .server ∧ (p.state.node g).status = .writing ∧ ready.write (p.state.node g).fd = false
  writers : ∀ g ∈ s.fds, (s.node g).status = .writing → g ∈ p.state.fds
  early : p.state = s ∧ (p.offered = [] ∧ p.fdNode = some front ∨ p.offered = [front] ∧ p.fdNode = some listener) ∨
    listener ∈ p.offered

/-- The handler is called for a node that `select` was asked about, for what it was asked. -/
structure AskedFor (s : ProxyState) (p : Pass) (f : Nat) : Prop where
  listed : f ∈ s.fds
  fd : (p.state.node f).fd = (s.node f).fd
  type : (p.state.node f).type = (s.node f).type
  status : (p.state.node f).status = (s.node f).status

theorem Selecting.asked (two : 2 ≤ slots) (opens : Opens slots history s fds) (selects : fdSelect s = some w)
    (within : ready.Within w) (selecting : Selecting ready s front listener p) (reached : Reachable slots p.state)
    (inside : f ∈ p.state.fds) (calls : p.Calls ready f) : AskedFor s p f := by
  obtain ⟨v, represents, _⟩ := reachable_represents two opens.ran.reachable
  obtain ⟨_, _, _, list⟩ := represents.list
  obtain ⟨_, represents', _⟩ := reachable_represents two reached
  obtain ⟨_, _, _, list'⟩ := represents'.list
  obtain ⟨w', found, reads, writes, _⟩ := fdSelect_spec list
  obtain rfl : w' = w := Option.some.inj (found.symm.trans selects)
  have asked : ∀ status, (p.state.node f).status = status → (p.state.node f).type ≠ .dummy → f ∈ s.fds →
      (∃ g ∈ s.fds, (s.node g).status = status ∧ (s.node g).fd = (p.state.node f).fd) → status ≠ .idle → AskedFor s p f := by
    rintro status now type listed ⟨g, member, then_, holds⟩ waits
    obtain ⟨fd, same⟩ := selecting.old f listed
    obtain rfl := opens.same_node two member listed (list.busy member (by rwa [then_])) (same ▸ type) (holds.trans fd)
    exact ⟨listed, fd, same, now.trans then_.symm⟩
  have waiting : (p.state.node f).type ≠ .dummy →
      ((p.state.node f).status = .reading ∧ ready.read (p.state.node f).fd = true ∨
        (p.state.node f).status = .writing ∧ ready.write (p.state.node f).fd = true) → AskedFor s p f := by
    rintro type (⟨reading, readable⟩ | ⟨writing, writable⟩)
    · have listed : f ∈ s.fds := by
        by_contra unknown
        rcases selecting.new f inside unknown with ⟨_, _, silent⟩ | ⟨_, writing, _⟩
        · exact Bool.false_ne_true (silent.symm.trans readable)
        · cases reading.symm.trans writing
      exact asked _ reading type listed ((reads _).mp (within.read _ readable)) (by decide)
    · have listed : f ∈ s.fds := by
        by_contra unknown
        rcases selecting.new f inside unknown with ⟨_, reading, _⟩ | ⟨_, _, silent⟩
        · cases writing.symm.trans reading
        · exact Bool.false_ne_true (silent.symm.trans writable)
      exact asked _ writing type listed ((writes _).mp (within.write _ writable)) (by decide)
  obtain ⟨_, calls⟩ := calls
  change (match (p.state.node f).type with
    | .dummy => False
    | .listen => ready.read (p.state.node f).fd = true
    | _ => (p.state.node f).status = .reading ∧ ready.read (p.state.node f).fd = true ∨
        (p.state.node f).status = .writing ∧ ready.write (p.state.node f).fd = true) at calls
  cases type : (p.state.node f).type with
  | dummy =>
    rw [type] at calls
    exact calls.elim
  | listen =>
    have listed : f ∈ s.fds := by
      by_contra unknown
      rcases selecting.new f inside unknown with ⟨client, _⟩ | ⟨server, _⟩
      · cases type.symm.trans client
      · cases type.symm.trans server
    obtain ⟨fd, same⟩ := selecting.old f listed
    obtain ⟨_, status⟩ := list.listens listed (same.symm.trans type)
    exact ⟨listed, fd, same, (list'.listens inside type).2.trans status.symm⟩
  | client | server =>
    rw [type] at calls
    exact waiting (by rw [type]; decide) calls

theorem Went.offered (went : Went ready p f io q) : q.offered = p.offered ++ [f] := by
  cases went with
  | skipped => rfl
  | called => rfl

/-- Nothing has changed until the pass has been at the listener. -/
theorem Selecting.early_turn (two : 2 ≤ slots) (reached : Reachable slots s) (fronted : Fronted s front listener)
    (selecting : Selecting ready s front listener p) (here : p.fdNode = some f) (went : Went ready p f io q) :
    q.state = s ∧ (q.offered = [] ∧ q.fdNode = some front ∨ q.offered = [front] ∧ q.fdNode = some listener) ∨
      listener ∈ q.offered := by
  rcases selecting.early with ⟨same, ⟨offered, cursor⟩ | ⟨offered, cursor⟩⟩ | passed
  · obtain rfl := Option.some.inj (cursor.symm.trans here)
    have dummy : (p.state.fdNodes.cell front).type = .dummy := by
      rw [same]
      exact fronted.front
    cases went with
    | called calls =>
      have impossible := calls.2
      simp only [dummy] at impossible
    | skipped =>
      obtain ⟨v, represents, _⟩ := reachable_represents two reached
      obtain ⟨_, _, _, list⟩ := represents.list
      obtain ⟨middle, rear, fds, _⟩ := fronted.fds
      refine .inl ⟨same, .inr ⟨?_, ?_⟩⟩
      · rw [Pass.skip, offered]
        rfl
      · have fds : s.fds = [] ++ front :: listener :: (middle ++ [rear]) := fds
        rw [Pass.skip, same]
        exact list.next_eq fds
  · obtain rfl := Option.some.inj (cursor.symm.trans here)
    exact .inr (by rw [went.offered]; exact List.mem_append_right _ List.mem_cons_self)
  · exact .inr (by rw [went.offered]; exact List.mem_append_left _ passed)

/-- The handler called at `f` leaves the nodes that have come during the pass as they are. -/
theorem new_kept (two : 2 ≤ slots) (reached : Reachable slots s) (next : step s e = some t) (older : g ≠ s.fdNodes.top)
    (other : g ≠ e.node) (busy : (s.node g).status ≠ .idle) : t.node g = s.node g := by
  obtain ⟨v, represents, sound, shared⟩ := reachable_shared two reached
  obtain ⟨_, served⟩ := step_served represents sound shared next
  rcases served.woken older other with same | ⟨c, d, backup, n, content, _, waiting, _⟩
  · exact same
  · exact absurd (congrArg Session.status waiting) busy

/-- What is not open at the listener was not watched: the list is still the one that `select` was given. -/
theorem Selecting.read_silent {history' : List Transition} {fd : Int} (two : 2 ≤ slots)
    (opens : Opens slots history s fds) (selects : fdSelect s = some w) (within : ready.Within w)
    (fronted : Fronted s front listener) (selecting : Selecting ready s front listener p)
    (opens' : Opens slots history' p.state now) (asked : AskedFor s p f) (unseen : f ∉ p.offered)
    (listens : (p.state.node f).type = .listen) (unused : fd ∉ now) : ready.read fd = false := by
  refine Bool.eq_false_iff.mpr fun readable => unused ?_
  obtain ⟨v, represents, _⟩ := reachable_represents two opens.ran.reachable
  obtain ⟨_, _, _, list⟩ := represents.list
  obtain ⟨w', found, reads, _⟩ := fdSelect_spec list
  obtain rfl : w' = w := Option.some.inj (found.symm.trans selects)
  obtain ⟨x, inside, reading, rfl⟩ := (reads _).mp (within.read _ readable)
  have first : f = listener := by
    obtain ⟨middle, rear, fds, _⟩ := fronted.fds
    have second : listener ∈ s.fds := by rw [fds]; exact List.mem_cons_of_mem _ List.mem_cons_self
    exact (list.listens asked.listed (asked.type.symm.trans listens)).1.trans
      (list.listens second fronted.listener).1.symm
  rcases selecting.early with ⟨unchanged, _⟩ | passed
  · rw [unchanged] at opens'
    exact opens'.mem two inside (list.busy inside (by rw [reading]; decide))
  · exact absurd (first ▸ passed) unseen

/-- What is not open was not watched for writing: a node that was is still in the list. -/
theorem Selecting.write_silent {history' : List Transition} {fd : Int} (two : 2 ≤ slots)
    (opens : Opens slots history s fds) (selects : fdSelect s = some w) (within : ready.Within w)
    (selecting : Selecting ready s front listener p) (opens' : Opens slots history' p.state now) (unused : fd ∉ now) :
    ready.write fd = false := by
  refine Bool.eq_false_iff.mpr fun writable => unused ?_
  obtain ⟨v, represents, _⟩ := reachable_represents two opens.ran.reachable
  obtain ⟨_, _, _, list⟩ := represents.list
  obtain ⟨w', found, _, writes, _⟩ := fdSelect_spec list
  obtain rfl : w' = w := Option.some.inj (found.symm.trans selects)
  obtain ⟨x, inside, writing, rfl⟩ := (writes _).mp (within.write _ writable)
  obtain ⟨fd, type⟩ := selecting.old x inside
  rw [← fd]
  refine opens'.mem two (selecting.writers x inside writing) ?_
  rw [type]
  exact list.busy inside (by rw [writing]; decide)

/-- A node that is taken out was read from. -/
theorem Turnover.stays (turnover : Turnover p.state ⟨f, io⟩ t) (goes : ¬ p.Repeats ready) (calls : p.Calls ready f)
    (listed : g ∈ p.state.fds) (writing : g = f → (p.state.node f).status = .writing) : g ∈ t.fds := by
  cases turnover with
  | kept _ _ members => exact (members g).mpr listed
  | opened _ _ members => exact (members g).mpr (.inr listed)
  | closed type _ _ members reads =>
    refine (members g).mpr ⟨listed, fun same => ?_⟩
    replace writing := writing same
    rcases type with client | server
    · refine goes ⟨f, calls.1, client, writing, ?_⟩
      have ready := calls.2
      replace client : (p.state.fdNodes.cell f).type = .client := client
      simp only [client] at ready
      rcases ready with ⟨reading, _⟩ | ⟨_, writable⟩
      · cases writing.symm.trans reading
      · exact writable
    · cases writing.symm.trans (reads server)

theorem Selecting.turn {history' : List Transition} (two : 2 ≤ slots) (opens : Opens slots history s fds)
    (selects : fdSelect s = some w) (within : ready.Within w) (fronted : Fronted s front listener)
    (passing : Passing slots s p) (opens' : Opens slots history' p.state now)
    (selecting : Selecting ready s front listener p) (goes : ¬ p.Repeats ready) (here : p.fdNode = some f)
    (inside : f ∈ p.state.fds) (unseen : f ∉ p.offered) (went : Went ready p f io q)
    (fresh : p.Calls ready f → ∀ fd ∈ openCalls p.state ⟨f, io⟩, fd ∉ now) : Selecting ready s front listener q := by
  have early := selecting.early_turn two opens.ran.reachable fronted here went
  cases went with
  | skipped => exact ⟨selecting.old, selecting.new, selecting.writers, early⟩
  | @called u after calls run =>
    have asked := selecting.asked two opens selects within passing.reached inside calls
    have next : step p.state ⟨f, io⟩ = some u := by
      unfold Proxy.step
      rw [if_pos inside, run]
    obtain ⟨listed, turnover, distinct, _, allocated, holds⟩ := reachable_turnover two passing.reached next
    have known : ∀ g ∈ s.fds, g ≠ p.state.fdNodes.top := fun g member =>
      Nat.ne_of_lt (passing.known g (.inl member))
    refine ⟨fun g member => ?_, fun g member unknown => ?_, fun g member writing => ?_, early⟩
    · obtain ⟨fd, type⟩ := holds g (known g member)
      obtain ⟨fd', type'⟩ := selecting.old g member
      exact ⟨fd.trans fd', type.trans type'⟩
    · have kept : g ∈ p.state.fds → _ := fun old => by
        have before := selecting.new g old unknown
        have busy : (p.state.node g).status ≠ .idle := by
          rcases before with ⟨_, status, _⟩ | ⟨_, status, _⟩
          · rw [status]
            decide
          · rw [status]
            decide
        have other : g ≠ f := fun same => unknown (same ▸ asked.listed)
        rw [← new_kept two passing.reached next (Nat.ne_of_lt (allocated g old)) other busy] at before
        exact before
      cases turnover with
      | kept _ _ members => exact kept ((members g).mp member)
      | closed _ _ _ members => exact kept ((members g).mp member).1
      | @opened fd _ opened members new starts =>
        rcases (members g).mp member with rfl | old
        swap
        · exact kept old
        have unused : (u.node p.state.fdNodes.top).fd ∉ now := by
          rw [new]
          exact fresh calls fd (by rw [opened]; exact List.mem_cons_self)
        rcases starts with ⟨client, reading, listens⟩ | ⟨server, writing⟩
        · exact .inl ⟨client, reading,
            selecting.read_silent two opens selects within fronted opens' asked unseen listens unused⟩
        · exact .inr ⟨server, writing, selecting.write_silent two opens selects within opens' unused⟩
    · exact turnover.stays goes calls (selecting.writers g member writing) fun same =>
        asked.status.trans (same ▸ writing)

theorem Selecting.start (cursor : s.fdList.front = some front) :
    Selecting ready s front listener (.start s) where
  old := fun _ _ => ⟨rfl, rfl⟩
  new := fun _ listed unknown => absurd listed unknown
  writers := fun _ listed _ => listed
  early := .inl ⟨rfl, .inl ⟨rfl, cursor⟩⟩

/-- A pass that comes to no client that it writes to, up to here. -/
structure Goes (slots : Nat) (ready : Ready) (history : List Transition) (s : ProxyState) (front listener : Nat)
    (p : Pass) (now : List Int) : Prop where
  passing : Passing slots s p
  selecting : Selecting ready s front listener p
  opens : ∃ more, Opens slots (history ++ more) p.state now

theorem Goes.turn (two : 2 ≤ slots) (opens : Opens slots history s fds) (selects : fdSelect s = some w)
    (within : ready.Within w) (fronted : Fronted s front listener) (h : Goes slots ready history s front listener p now)
    (goes : ¬ p.Repeats ready) (next : p.turn ready io = some q) (here : p.fdNode = some f)
    (went : Went ready p f io q)
    (fresh : p.Calls ready f → ∀ fd ∈ openCalls p.state ⟨f, io⟩, fd ∉ now) :
    f ∈ p.state.fds ∧ Passing slots s q ∧ Selecting ready s front listener q := by
  obtain ⟨passing, selecting, more, opens'⟩ := h
  obtain ⟨v, represents, _⟩ := reachable_represents two passing.reached
  obtain ⟨_, _, _, list⟩ := represents.list
  obtain ⟨inside, _, _, _, standing⟩ := passing.standing list here
  exact ⟨inside, passing.turn two goes next,
    selecting.turn two opens selects within fronted passing opens' goes here inside standing.fresh went fresh⟩

theorem PassOpens.goes (two : 2 ≤ slots) (opens : Opens slots history s fds) (selects : fdSelect s = some w)
    (within : ready.Within w) (fronted : Fronted s front listener) (cursor : s.fdList.front = some front)
    (h : PassOpens ready s fds before p now) (goes : ∀ q ∈ before, ¬ q.Repeats ready) :
    Goes slots ready history s front listener p now := by
  induction h with
  | start =>
    exact ⟨.start two opens.ran.reachable, .start cursor, [], by rwa [List.append_nil]⟩
  | @skipped before p q io now h next skips ih =>
    have earlier := ih fun q member => goes q (List.mem_append_left _ member)
    have here := goes _ (List.mem_append_right _ List.mem_cons_self)
    obtain ⟨f, cursor, went⟩ := turn_went next
    obtain ⟨more, opens'⟩ := earlier.opens
    cases went with
    | called => exact absurd skips (by simp [Pass.called])
    | skipped idle =>
      obtain ⟨_, passing, selecting⟩ := earlier.turn two opens selects within fronted here next cursor (.skipped idle)
        fun calls => absurd calls idle
      exact ⟨passing, selecting, more, opens'⟩
  | @called before p q f io now h next calls fresh ih =>
    have earlier := ih fun q member => goes q (List.mem_append_left _ member)
    have here := goes _ (List.mem_append_right _ List.mem_cons_self)
    obtain ⟨g, cursor, went⟩ := turn_went next
    obtain ⟨more, opens'⟩ := earlier.opens
    cases went with
    | skipped => exact absurd calls (by simp [Pass.skip])
    | @called u after ready' run =>
      obtain rfl : g = f := List.head_eq_of_cons_eq (List.append_cancel_left calls)
      obtain ⟨inside, passing, selecting⟩ := earlier.turn two opens selects within fronted here next cursor
        (.called ready' run) fun _ fd member => (fresh fd member).2
      have step : step p.state ⟨g, io⟩ = some u := by
        unfold Proxy.step
        rw [if_pos inside, run]
      refine ⟨passing, selecting, more ++ [⟨p.state, ⟨g, io⟩, u⟩], ?_⟩
      rw [← List.append_assoc]
      exact opens'.step step fresh

/-- `fd_select` watches open descriptors, each below `nfds`, and in the pass that follows a handler is called only
for a node that `select` was asked about, for what it was asked, also when a descriptor closed in the pass has been
given to a new node. The descriptors stay owned. -/
theorem pass_ready (two : 2 ≤ slots) (opens : Opens slots history s fds) : ∃ w, fdSelect s = some w ∧
    (∀ fd, fd ∈ w.readFds ∨ fd ∈ w.writeFds → fd ∈ fds ∧ 0 ≤ fd ∧ fd < w.nfds) ∧
    ∀ ready before p now, ready.Within w → PassOpens ready s fds before p now →
      (∀ q ∈ before, ¬ q.Repeats ready) →
        (∃ more, Opens slots (history ++ more) p.state now) ∧ ∀ f, p.Calls ready f → AskedFor s p f := by
  obtain ⟨v, represents, _⟩ := reachable_represents two opens.ran.reachable
  obtain ⟨_, _, _, list⟩ := represents.list
  obtain ⟨w, selects, reads, writes, below⟩ := fdSelect_spec list
  obtain ⟨front, listener, fronted⟩ := reachable_fronted two opens.ran.reachable
  have cursor : s.fdList.front = some front := by
    obtain ⟨middle, rear, fds, _⟩ := fronted.fds
    rw [list.list.links.front_eq]
    exact congrArg some (List.head_eq_of_cons_eq (list.fds_eq.symm.trans fds))
  refine ⟨w, selects, fun fd watched => ?_, fun ready before p now within pass goes => ?_⟩
  · have member : fd ∈ fds := by
      rcases watched with read | write
      · obtain ⟨f, listed, status, rfl⟩ := (reads fd).mp read
        exact opens.mem two listed (list.busy listed (by rw [status]; decide))
      · obtain ⟨f, listed, status, rfl⟩ := (writes fd).mp write
        exact opens.mem two listed (list.busy listed (by rw [status]; decide))
    exact ⟨member, (opens.descriptors two).2.1 fd member, below fd watched⟩
  · obtain ⟨passing, selecting, more⟩ := pass.goes two opens selects within fronted cursor goes
    refine ⟨more, fun f calls => ?_⟩
    obtain ⟨_, represents', _⟩ := reachable_represents two passing.reached
    obtain ⟨_, _, _, list'⟩ := represents'.list
    exact selecting.asked two opens selects within passing.reached (passing.standing list' calls.1).1 calls

/-! ### A descriptor used again in the pass in which it is closed -/

/-- A turn, with the descriptors that are open after it; `none` where one is opened that is open. -/
def Pass.turnOpens (ready : Ready) (x : Pass × List Int) (io : Io) : Option (Pass × List Int) := do
  let q ← x.1.turn ready io
  let f ← x.1.fdNode
  if q.served = x.1.served then return (q, x.2)
  else if q.served = x.1.served ++ [f] ∧ ∀ fd ∈ openCalls x.1.state ⟨f, io⟩, 0 ≤ fd ∧ fd ∉ x.2 then
    return (q, x.2.diff (closeCalls x.1.state ⟨f, io⟩) ++ openCalls x.1.state ⟨f, io⟩)
  else none

theorem PassOpens.of_turns {ios : List Io} {now' : List Int} (h : PassOpens ready s fds before p now)
    (run : ios.foldlM (Pass.turnOpens ready) (p, now) = some (q, now')) :
    ∃ before, PassOpens ready s fds before q now' := by
  induction ios generalizing before p now with
  | nil =>
    obtain ⟨rfl, rfl⟩ := Prod.mk.inj (Option.some.inj run)
    exact ⟨before, h⟩
  | cons io ios ih =>
    rw [List.foldlM_cons] at run
    obtain ⟨⟨u, then_⟩, turned, rest⟩ := Option.bind_eq_some_iff.mp run
    obtain ⟨r, next, turned⟩ := Option.bind_eq_some_iff.mp turned
    obtain ⟨f, _, turned⟩ := Option.bind_eq_some_iff.mp turned
    split at turned
    · rename_i skips
      obtain ⟨rfl, rfl⟩ := Prod.mk.inj (Option.some.inj turned)
      exact ih (h.skipped next skips) rest
    · split at turned
      · rename_i calls
        obtain ⟨rfl, rfl⟩ := Prod.mk.inj (Option.some.inj turned)
        exact ih (h.called next calls.1 calls.2) rest
      · cases turned

/-- The server of the second client is given the descriptor of the first one's, closed in the same pass while it was
ready, and is not read from. -/
theorem pass_ready_again : ∃ history s, ∃ p : Pass, Opens 2 history s [3, 4, 5, 6, 7] ∧ p.fdNode = some 7 ∧
    (p.state.node 7).fd = 5 ∧ (∃ more, Opens 2 (history ++ more) p.state [3, 4, 6, 7, 5]) ∧
    ¬ p.Calls ⟨fun fd => fd = 5 ∨ fd = 6, fun _ => false⟩ 7 := by
  have run : (ProxyState.start 2 3 3).bind (fun s => (s.trace
      [.accept 4, .request 3 "a" 5, .send 4 1500, .response 4, .accept 6, .accept 7]).bind fun run =>
        (openedBy [3] run.1).bind fun fds => (fdSelect run.2).bind fun w =>
          ([Io.blank, .blank, .blank, (Event.closed 4).io, (Event.request 5 "b" 5).io, .blank].foldlM
            (Pass.turnOpens ⟨fun fd => fd = 5 ∨ fd = 6, fun _ => false⟩) (Pass.start run.2, fds)).map fun x =>
              (fds, x.2, decide (w.readFds = [3, 5, 6, 7] ∧ x.1.fdNode = some 7 ∧ (x.1.state.node 7).fd = 5 ∧
                7 ∉ run.2.fds))) = some ([3, 4, 5, 6, 7], [3, 4, 6, 7, 5], true) := by
    decide +kernel
  obtain ⟨s, started, run⟩ := Option.bind_eq_some_iff.mp run
  obtain ⟨⟨history, t⟩, trace, run⟩ := Option.bind_eq_some_iff.mp run
  obtain ⟨fds, opened, run⟩ := Option.bind_eq_some_iff.mp run
  obtain ⟨w, selects, run⟩ := Option.bind_eq_some_iff.mp run
  obtain ⟨⟨p, now⟩, turns, facts⟩ := Option.map_eq_some_iff.mp run
  obtain ⟨same, facts⟩ := Prod.mk.inj facts
  obtain ⟨after, facts⟩ := Prod.mk.inj facts
  obtain ⟨watched, cursor, holds, unlisted⟩ := of_decide_eq_true facts
  have opens := (Opens.start started (by decide)).trace trace opened
  replace same : fds = [3, 4, 5, 6, 7] := same
  replace after : now = [3, 4, 6, 7, 5] := after
  rw [same] at opens turns
  rw [after] at turns
  obtain ⟨before, pass⟩ := PassOpens.of_turns .start turns
  have within : Ready.Within ⟨fun fd => fd = 5 ∨ fd = 6, fun _ => false⟩ w := by
    refine ⟨fun fd ready => ?_, fun fd ready => absurd ready Bool.false_ne_true⟩
    rw [watched]
    rcases of_decide_eq_true ready with rfl | rfl
    · decide
    · decide
  obtain ⟨w', selects', _, pass_ready⟩ := pass_ready (Nat.le_refl 2) opens
  obtain rfl : w' = w := Option.some.inj (selects'.symm.trans selects)
  obtain ⟨more, asked⟩ := pass_ready _ before p _ within pass fun q _ ⟨_, _, _, _, sends⟩ => absurd sends Bool.false_ne_true
  exact ⟨_, t, p, opens, cursor, holds, more, fun calls => unlisted (asked 7 calls).listed⟩

end

end NetProjects.Proxy
