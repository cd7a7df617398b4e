import NetProjects.Proxy.Start

/-!
# What the handlers do to the list

A call of a handler leaves the links of the list as they are, takes its own node out and frees it, or puts one
new node in before the rear.
-/

namespace NetProjects.Proxy
open Linked

/-- What the walk down the list depends on. -/
structure Links where
  list : FdList
  top : Nat
  freed : List Nat
  prev : Nat → Option Nat
  next : Nat → Option Nat

def ProxyState.links (s : ProxyState) : Links :=
  { list := s.fdList, top := s.fdNodes.top, freed := s.fdNodes.freed
    prev := fun f => (s.fdNodes.cell f).prev, next := fun f => (s.fdNodes.cell f).next }

inductive Relinked (s : ProxyState) (f : Nat) (t : ProxyState) : Prop where
  | kept (links : t.links = s.links)
  | removed {u w} (before : u.links = s.links) (out : removeFd u f = some w) (after : t.links = w.links)
  | appended {u w node} (before : u.links = s.links) (added : appendFd u node = some w) (after : t.links = w.links)

section

variable {s t u w : ProxyState} {f g c : Nat} {io : Io}

/-! ### Links kept -/

theorem links_setFd (s : ProxyState) (f : Nat) {update : FdNode → FdNode}
    (prev : ∀ n, (update n).prev = n.prev := by intro _; rfl)
    (next : ∀ n, (update n).next = n.next := by intro _; rfl) : (s.setFd f update).links = s.links := by
  have samePrev := funext fun b => s.fdNodes.modify_field f b update FdNode.prev prev
  have sameNext := funext fun b => s.fdNodes.modify_field f b update FdNode.next next
  exact congrArg₂ (Links.mk s.fdList s.fdNodes.top s.fdNodes.freed) samePrev sameNext

@[simp] theorem links_setCache (s : ProxyState) (c : Nat) (update : CacheNode → CacheNode) :
    (s.setCache c update).links = s.links := rfl

@[simp] theorem links_touch (s : ProxyState) (c : Nat) : (s.touch c).links = s.links := by
  unfold ProxyState.touch
  split <;> rfl

theorem recvToBuffer_links {received : List UInt8} (h : recvToBuffer s f c received io = some t) :
    t.links = s.links := by
  obtain ⟨buffer, _, h⟩ := Option.bind_eq_some_iff.mp h
  obtain rfl := Option.some.inj h
  exact links_setFd _ f

theorem recvNotModified_links {info : HttpInfo} (h : recvNotModified s f info = some t) : t.links = s.links := by
  obtain ⟨b, _, h⟩ := Option.bind_eq_some_iff.mp h
  obtain ⟨date, _, h⟩ := Option.bind_eq_some_iff.mp h
  obtain ⟨p, _, h⟩ := Option.bind_eq_some_iff.mp h
  obtain rfl := Option.some.inj h
  rw [links_setFd _ f, links_setFd _ p, links_setCache, links_touch]

theorem recvHeader_links {bufRecv : List UInt8} (h : recvHeader s f c bufRecv io = some t) : t.links = s.links := by
  obtain ⟨info, _, h⟩ := Option.bind_eq_some_iff.mp h
  obtain ⟨found, _, h⟩ := Option.bind_eq_some_iff.mp h
  split at h
  · obtain ⟨u, answered, h⟩ := Option.bind_eq_some_iff.mp h
    obtain rfl := Option.some.inj h
    rw [links_setCache, recvNotModified_links answered, links_setCache]
  · obtain rfl := Option.some.inj h
    rfl

theorem cacheRecv_links {n : Nat} (h : cacheRecv s f io = some (t, n)) : t.links = s.links := by
  obtain ⟨received, _, h⟩ := Option.bind_eq_some_iff.mp h
  obtain ⟨c, _, h⟩ := Option.bind_eq_some_iff.mp h
  obtain ⟨u, filled, h⟩ := Option.bind_eq_some_iff.mp h
  have first : u.links = s.links := (recvToBuffer_links filled).trans (links_touch s c)
  split at h
  · obtain ⟨rfl, _⟩ := Prod.mk.inj (Option.some.inj h)
    exact (links_setFd u f).trans first
  · obtain ⟨w, parsed, h⟩ := Option.bind_eq_some_iff.mp h
    obtain ⟨rfl, _⟩ := Prod.mk.inj (Option.some.inj h)
    have header : w.links = u.links := by
      split at parsed
      · rw [Option.some.inj parsed]
      · exact recvHeader_links parsed
    split
    · exact (links_setFd w f).trans (header.trans first)
    · exact header.trans first
  · obtain ⟨rfl, _⟩ := Prod.mk.inj (Option.some.inj h)
    exact first

theorem sendSource_links {array : List UInt8} {start : Int} (h : sendSource s f c = some (t, array, start)) :
    t.links = s.links := by
  unfold sendSource at h
  dsimp only at h
  split at h
  · obtain ⟨b, _, h⟩ := Option.bind_eq_some_iff.mp h
    obtain ⟨rfl, _⟩ := Prod.mk.inj (Option.some.inj h)
    exact links_touch s b
  · obtain ⟨rfl, _⟩ := Prod.mk.inj (Option.some.inj h)
    rfl

theorem cacheSend_links (h : cacheSend s f io = some t) : t.links = s.links := by
  obtain ⟨c, _, h⟩ := Option.bind_eq_some_iff.mp h
  obtain ⟨⟨u, array, start⟩, source, h⟩ := Option.bind_eq_some_iff.mp h
  have first : u.links = s.links := (sendSource_links source).trans (links_touch s c)
  dsimp only at h
  split at h
  · obtain rfl := Option.some.inj h
    exact (links_setFd _ f).trans first
  · obtain rfl := Option.some.inj h
    exact (links_setFd _ f).trans first

theorem parseClientRequest_links (h : parseClientRequest s c io = some t) : t.links = s.links := by
  obtain ⟨ended, _, h⟩ := Option.bind_eq_some_iff.mp h
  split at h
  · obtain ⟨info, _, h⟩ := Option.bind_eq_some_iff.mp h
    obtain rfl := Option.some.inj h
    rfl
  · obtain rfl := Option.some.inj h
    rfl

theorem printFdNodes_links {fs : List Nat} (h : fs.foldlM printFdNode s = some t) : t.links = s.links := by
  induction fs generalizing s with
  | nil => rw [Option.some.inj h]
  | cons f fs ih =>
    rw [List.foldlM_cons] at h
    obtain ⟨u, printed, rest⟩ := Option.bind_eq_some_iff.mp h
    obtain same | ⟨a, _, touched⟩ := printFdNode_effect printed
    · rw [ih rest, same]
    · rw [ih rest, touched, links_touch]

/-! ### Handlers -/

namespace Relinked

theorem between (before : u.links = s.links) (h : Relinked u f w) (after : t.links = w.links) : Relinked s f t := by
  cases h with
  | kept links => exact .kept (after.trans (links.trans before))
  | removed before' out after' => exact .removed (before'.trans before) out (after.trans after')
  | appended before' added after' => exact .appended (before'.trans before) added (after.trans after')

theorem append {node : FdNode} (added : appendFd s node = some t) : Relinked s f t := .appended rfl added rfl

theorem remove (out : removeFd s f = some t) : Relinked s f t := .removed rfl out rfl

end Relinked

theorem listenFdHandler_relinked (h : listenFdHandler s io = some t) : Relinked s f t := by
  unfold listenFdHandler at h
  split at h
  · rw [← Option.some.inj h]
    exact .kept rfl
  · have added : Relinked _ f t := .append h
    exact added.between (by exact rfl) rfl

theorem connectServer_relinked {fd : Int} (h : connectServer s f c fd = some t) : Relinked s f t := by
  obtain ⟨u, added, h⟩ := Option.bind_eq_some_iff.mp h
  have linked : t.links = u.links := by
    split at h
    · obtain rfl := Option.some.inj h
      exact links_setFd u _
    · obtain rfl := Option.some.inj h
      exact links_setFd u _
  exact .between (links_setFd s f) (.append added) linked

theorem clientReadHandler_relinked (h : clientReadHandler s f io = some t) : Relinked s f t := by
  obtain ⟨⟨u, n⟩, received, h⟩ := Option.bind_eq_some_iff.mp h
  obtain ⟨c, _, h⟩ := Option.bind_eq_some_iff.mp h
  have first := cacheRecv_links received
  split at h
  · obtain ⟨w, parsed, h⟩ := Option.bind_eq_some_iff.mp h
    have second : w.links = s.links := (parseClientRequest_links parsed).trans first
    split at h
    · exact .between second (.remove h) rfl
    · exact .between second (connectServer_relinked h) rfl
  · obtain rfl := Option.some.inj h
    exact .kept first

theorem clientWriteHandler_relinked (h : clientWriteHandler s f io = some t) : Relinked s f t := by
  obtain ⟨u, sent, h⟩ := Option.bind_eq_some_iff.mp h
  have first := cacheSend_links sent
  split at h
  · exact .between first (.remove h) rfl
  · obtain rfl := Option.some.inj h
    exact .kept first

theorem finishResponse_relinked (h : finishResponse s f = some t) : Relinked s f t := by
  obtain ⟨p, _, h⟩ := Option.bind_eq_some_iff.mp h
  obtain ⟨c, _, h⟩ := Option.bind_eq_some_iff.mp h
  split at h
  · exact .between (links_setFd s p) (.remove h) rfl
  · obtain ⟨cache, _, h⟩ := Option.bind_eq_some_iff.mp h
    have removed : Relinked _ f t := .remove h
    exact removed.between (by exact links_setFd s p) rfl

theorem serverReadHandler_relinked (h : serverReadHandler s f io = some t) : Relinked s f t := by
  obtain ⟨⟨u, n⟩, received, h⟩ := Option.bind_eq_some_iff.mp h
  have first := cacheRecv_links received
  dsimp only at h
  split at h
  · exact .between first (finishResponse_relinked h) rfl
  · obtain rfl := Option.some.inj h
    exact .kept first

theorem serverWriteHandler_relinked (h : serverWriteHandler s f io = some t) : Relinked s f t := by
  obtain ⟨u, sent, h⟩ := Option.bind_eq_some_iff.mp h
  have first := cacheSend_links sent
  split at h
  · obtain rfl := Option.some.inj h
    exact .kept ((links_setFd u f).trans first)
  · obtain rfl := Option.some.inj h
    exact .kept first

theorem serve_relinked (h : serve s f io = some t) : Relinked s f t := by
  unfold serve at h
  dsimp only at h
  split at h
  · rw [← Option.some.inj h]
    exact .kept rfl
  · obtain ⟨u, accepted, printed⟩ := Option.bind_eq_some_iff.mp h
    exact .between rfl (listenFdHandler_relinked accepted) (printFdNodes_links printed)
  · split at h
    · exact clientReadHandler_relinked h
    · split at h
      · exact clientWriteHandler_relinked h
      · rw [← Option.some.inj h]
        exact .kept rfl
  · split at h
    · exact serverReadHandler_relinked h
    · split at h
      · exact serverWriteHandler_relinked h
      · rw [← Option.some.inj h]
        exact .kept rfl

/-! ### The list after a call -/

/-- What a call does to the nodes listed and to those freed. -/
inductive Relisted (s : ProxyState) (f : Nat) (t : ProxyState) : Prop where
  | kept (fds : t.fds = s.fds) (freed : t.fdNodes.freed = s.fdNodes.freed) (top : t.fdNodes.top = s.fdNodes.top)
  | removed (fds : t.fds = s.fds.erase f) (freed : t.fdNodes.freed = s.fdNodes.freed ++ [f])
      (top : t.fdNodes.top = s.fdNodes.top)
  | appended {ys rear} (old : s.fds = ys ++ [rear]) (fds : t.fds = ys ++ [s.fdNodes.top, rear])
      (freed : t.fdNodes.freed = s.fdNodes.freed) (top : t.fdNodes.top = s.fdNodes.top + 1)

theorem fds_of_links (same : t.links = s.links) : t.fds = s.fds :=
  congrArg (fun l : Links => traverse l.next l.top l.list.front) same

theorem fdListRemove_heap {nodes nodes' : Heap FdNode} (h : fdListRemove nodes f = some nodes') :
    nodes'.freed = nodes.freed ∧ nodes'.top = nodes.top := by
  obtain ⟨before, _, h⟩ := Option.bind_eq_some_iff.mp h
  obtain ⟨after, _, h⟩ := Option.bind_eq_some_iff.mp h
  obtain rfl := Option.some.inj h
  exact ⟨rfl, rfl⟩

theorem fdListAppend_heap {nodes nodes' : Heap FdNode} {list : FdList} (h : fdListAppend nodes list f = some nodes') :
    nodes'.freed = nodes.freed ∧ nodes'.top = nodes.top := by
  obtain ⟨rear, _, h⟩ := Option.bind_eq_some_iff.mp h
  obtain ⟨before, _, h⟩ := Option.bind_eq_some_iff.mp h
  obtain rfl := Option.some.inj h
  exact ⟨rfl, rfl⟩

section

variable {front rear : Nat} {xs : List Nat}

theorem FdRep.of_links (same : t.links = s.links) (rep : FdRep s.fdNodes s.fdList front xs rear) :
    FdRep t.fdNodes t.fdList front xs rear := by
  obtain ⟨links, allocated⟩ := rep
  change DList s.links.next s.links.prev s.links.list.front s.links.list.rear _ at links
  change ∀ f ∈ front :: xs ++ [rear], f < s.links.top at allocated
  rw [← same] at links allocated
  exact ⟨links, allocated⟩

theorem removeFd_relisted (rep : FdRep s.fdNodes s.fdList front xs rear) (inside : f ∈ xs) (h : removeFd s f = some t) :
    Relisted s f t := by
  have rep' := (removeFd_effect rep inside h).1.nodes_eq
  obtain ⟨nodes, removed, h⟩ := Option.bind_eq_some_iff.mp h
  obtain ⟨freed, top⟩ := fdListRemove_heap removed
  obtain rfl := Option.some.inj h
  have notFront : front ≠ f := by
    rintro rfl
    exact (List.nodup_cons.mp rep.links.nodup).1 (List.mem_append_left _ inside)
  have erased : (front :: xs ++ [rear]).erase f = front :: xs.erase f ++ [rear] := by
    rw [List.cons_append, List.erase_cons_tail (by simpa using notFront), List.erase_append_left _ inside]
    rfl
  apply Relisted.removed _ _ top
  · rw [← rep.nodes_eq] at erased
    exact rep'.trans erased.symm
  · rw [Heap.free_freed, freed]

theorem appendFd_relisted {node : FdNode} (rep : FdRep s.fdNodes s.fdList front xs rear) (h : appendFd s node = some t) :
    Relisted s f t := by
  have rep' := (appendFd_effect rep h).1.nodes_eq
  obtain ⟨nodes, added, h⟩ := Option.bind_eq_some_iff.mp h
  obtain ⟨freed, top⟩ := fdListAppend_heap added
  obtain rfl := Option.some.inj h
  apply Relisted.appended rep.nodes_eq _ freed top
  rw [← List.cons_append, List.append_assoc] at rep'
  exact rep'

theorem Relisted.between (before : u.links = s.links) (h : Relisted u f w) (after : t.links = w.links) :
    Relisted s f t := by
  have oldFds := fds_of_links before
  have oldFreed : u.fdNodes.freed = s.fdNodes.freed := congrArg Links.freed before
  have oldTop : u.fdNodes.top = s.fdNodes.top := congrArg Links.top before
  have newFds := fds_of_links after
  have newFreed : t.fdNodes.freed = w.fdNodes.freed := congrArg Links.freed after
  have newTop : t.fdNodes.top = w.fdNodes.top := congrArg Links.top after
  cases h with
  | kept fds freed top =>
    rw [oldFds] at fds
    rw [oldFreed] at freed
    rw [oldTop] at top
    exact .kept (newFds.trans fds) (newFreed.trans freed) (newTop.trans top)
  | removed fds freed top =>
    rw [oldFds] at fds
    rw [oldFreed] at freed
    rw [oldTop] at top
    exact .removed (newFds.trans fds) (newFreed.trans freed) (newTop.trans top)
  | appended old fds freed top =>
    rw [oldFds] at old
    rw [oldFreed] at freed
    rw [oldTop] at fds top
    exact .appended old (newFds.trans fds) (newFreed.trans freed) (newTop.trans top)

theorem Relinked.relisted (rep : FdRep s.fdNodes s.fdList front xs rear) (inside : f ∈ xs) (h : Relinked s f t) :
    Relisted s f t := by
  cases h with
  | kept links => exact .kept (fds_of_links links) (congrArg Links.freed links) (congrArg Links.top links)
  | removed before out after => exact .between before (removeFd_relisted (rep.of_links before) inside out) after
  | appended before added after => exact .between before (appendFd_relisted (rep.of_links before) added) after

end

/-! ### Freed nodes -/

/-- No node of the list has been freed. -/
structure Live (s : ProxyState) : Prop where
  listed : ∀ f ∈ s.fds, f < s.fdNodes.top ∧ f ∉ s.fdNodes.freed
  freed : ∀ f ∈ s.fdNodes.freed, f < s.fdNodes.top

theorem Relisted.live (distinct : s.fds.Nodup) (listed : f ∈ s.fds) (live : Live s) (h : Relisted s f t) : Live t := by
  cases h with
  | kept fds freed top =>
    constructor
    · rw [fds, freed, top]
      exact live.listed
    · rw [freed, top]
      exact live.freed
  | removed fds freed top =>
    constructor
    · rw [fds, freed, top]
      intro g member
      obtain ⟨other, old⟩ := (distinct.mem_erase_iff).mp member
      obtain ⟨below, notFreed⟩ := live.listed g old
      refine ⟨below, ?_⟩
      rw [List.mem_append, List.mem_singleton, not_or]
      exact ⟨notFreed, other⟩
    · rw [freed, top]
      intro g member
      obtain old | here := List.mem_append.mp member
      · exact live.freed g old
      · exact List.mem_singleton.mp here ▸ (live.listed f listed).1
  | appended old fds freed top =>
    constructor
    · rw [fds, freed, top]
      intro g member
      have either : g ∈ s.fds ∨ g = s.fdNodes.top := by
        rw [old]
        simp only [List.mem_append, List.mem_cons, List.not_mem_nil, or_false] at member ⊢
        tauto
      obtain known | rfl := either
      · obtain ⟨below, notFreed⟩ := live.listed g known
        exact ⟨Nat.lt_succ_of_lt below, notFreed⟩
      · exact ⟨Nat.lt_succ_self _, fun again => Nat.lt_irrefl _ (live.freed _ again)⟩
    · rw [freed, top]
      exact fun g member => Nat.lt_succ_of_lt (live.freed g member)

theorem appendFd_live {node : FdNode} {front rear : Nat} {xs : List Nat} (h : appendFd s node = some t)
    (rep : FdRep s.fdNodes s.fdList front xs rear) (unfreed : s.fdNodes.freed = []) : Live t := by
  have fds : s.fds = front :: xs ++ [rear] := rep.nodes_eq
  have live : Live s := by
    constructor
    · intro f member
      rw [fds] at member
      rw [unfreed]
      exact ⟨rep.allocated f member, List.not_mem_nil⟩
    · rw [unfreed]
      exact fun f member => absurd member List.not_mem_nil
  have added : Relisted s front t := appendFd_relisted rep h
  apply added.live _ _ live
  · rw [fds]
    exact rep.links.nodup
  · rw [fds]
    exact List.mem_cons_self

theorem start_live {slots maxClient : Nat} {listenFd : Int} (h : ProxyState.start slots maxClient listenFd = some s) :
    Live s := by
  unfold ProxyState.start at h
  obtain ⟨rep, _, _⟩ := newFdList_spec (.empty (newFdNode none none (-1) .dummy .idle none)) maxClient
  exact appendFd_live h (by exact rep) rfl

section

variable {front rear listener : Nat} {xs : List Nat} {stages : List Stage}

theorem ListRep.mem_middle (list : ListRep s front rear listener xs stages) (listed : f ∈ s.fds)
    (busy : s.session f ≠ .bare .dummy .idle) : f ∈ xs := by
  rw [list.fds_eq] at listed
  simp only [List.cons_append, List.mem_cons, List.mem_append, List.not_mem_nil, or_false] at listed
  obtain rfl | inside | rfl := listed
  · exact absurd list.front busy
  · exact inside
  · exact absurd list.rear busy

theorem ListRep.serve_relisted (list : ListRep s front rear listener xs stages) (listed : f ∈ s.fds)
    (h : serve s f io = some t) : Relisted s f t := by
  by_cases dummy : s.session f = .bare .dummy .idle
  · rw [serve_dummy dummy] at h
    rw [← Option.some.inj h]
    exact .kept rfl rfl rfl
  · exact (serve_relinked h).relisted list.list (list.mem_middle listed dummy)

end

/-- In a reachable state no node of the list has been freed. -/
theorem reachable_live {slots : Nat} (two : 2 ≤ slots) (h : Reachable slots s) : Live s := by
  induction h with
  | start h => exact start_live h
  | step reached next ih =>
    obtain ⟨v, represents, _⟩ := reachable_represents two reached
    obtain ⟨front, rear, xs, list⟩ := represents.list
    unfold step at next
    split at next
    · rename_i listed
      have distinct : (ProxyState.fds _).Nodup := list.fds_eq ▸ list.list.links.nodup
      exact (list.serve_relisted listed next).live distinct listed ih
    · cases next

end

end NetProjects.Proxy
