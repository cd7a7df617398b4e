import NetProjects.Library.Heap
import NetProjects.Library.Linked
import NetProjects.Proxy.Http

/-!
# The cache queue

The queue is a doubly linked list of a fixed number of cache nodes, dummies at first. A node that
enters at the front evicts the one at the rear, which is freed unless it is in use.
-/

namespace NetProjects.Proxy
open Bytes Linked

inductive NodeStatus where
  | inUse | idle | reading | writing
  deriving DecidableEq, Repr

/-- `cache_node_t` with the `http_info_t` it owns; a NULL buffer has no bytes. -/
structure CacheNode where
  prev : Option Nat
  next : Option Nat
  buffer : List UInt8
  bufferSize : Nat
  httpInfo : HttpInfo
  status : NodeStatus

structure CacheQueue where
  maxSlot : Nat
  front : Option Nat
  rear : Option Nat

structure Cache where
  nodes : Heap CacheNode
  queue : CacheQueue

def setCachePrev (nodes : Heap CacheNode) (a : Nat) (p : Option Nat) : Heap CacheNode :=
  nodes.modify a fun n => { n with prev := p }

def setCacheNext (nodes : Heap CacheNode) (a : Nat) (p : Option Nat) : Heap CacheNode :=
  nodes.modify a fun n => { n with next := p }

def CacheNode.fresh (prev next : Option Nat) (bufferSize : Nat) : CacheNode :=
  { prev := prev, next := next, buffer := List.replicate bufferSize 0, bufferSize := bufferSize
    httpInfo := .zero, status := .idle }

/-- The new node's address and the heap with it. -/
def newCacheNode (nodes : Heap CacheNode) (prev next : Option Nat) (bufferSize : Nat) :
    Nat × Heap CacheNode :=
  (nodes.top, nodes.alloc (.fresh prev next bufferSize))

/-- The loop of `new_cache_queue` with its `prev_node` and `new_node`. -/
def newCacheQueueLoop : Nat → Heap CacheNode → Option Nat → Option Nat → Heap CacheNode × Option Nat
  | 0, nodes, _, newNode => (nodes, newNode)
  | n + 1, nodes, prevNode, _ =>
    let made := newCacheNode nodes prevNode none 0
    let nodes :=
      match prevNode with
      | none => made.2
      | some p => setCacheNext made.2 p (some made.1)
    newCacheQueueLoop n nodes (some made.1) (some made.1)

def newCacheQueue (nodes : Heap CacheNode) (maxSlot : Nat) : Cache :=
  let made := newCacheNode nodes none none 0
  let rest := newCacheQueueLoop (sizeSub maxSlot 1) made.2 (some made.1) none
  { nodes := rest.1, queue := { maxSlot := maxSlot, front := some made.1, rear := rest.2 } }

def freeCacheNode (nodes : Heap CacheNode) (a : Nat) : Heap CacheNode :=
  (nodes.modify a fun n => { n with buffer := [] }).free a

def freeIfIdle (nodes : Heap CacheNode) (a : Nat) : Heap CacheNode :=
  if (nodes.cell a).status = .idle then freeCacheNode nodes a else nodes

/-- `none` is a NULL pointer followed. -/
def cacheDequeue (c : Cache) : Option Cache := do
  let rear ← c.queue.rear
  let tmpNode := (c.nodes.cell rear).prev
  let nodes := setCacheNext (setCachePrev c.nodes rear none) rear none
  let nodes := freeIfIdle nodes rear
  let last ← tmpNode
  return { nodes := setCacheNext nodes last none, queue := { c.queue with rear := tmpNode } }

def cacheEnqueue (c : Cache) (newNode : Nat) : Option Cache := do
  let c ← cacheDequeue c
  let front ← c.queue.front
  let nodes := setCachePrev c.nodes front (some newNode)
  let nodes := setCacheNext nodes newNode c.queue.front
  let nodes := setCachePrev nodes newNode none
  return { nodes := nodes, queue := { c.queue with front := some newNode } }

def Cache.entries (c : Cache) : List Nat :=
  traverse (fun a => (c.nodes.cell a).next) c.nodes.top c.queue.front

/-- `is_cache_hit`: the first complete node with this host and path. -/
def isCacheHit (c : Cache) (info : HttpInfo) : Option Nat :=
  c.entries.find? fun a =>
    let node := (c.nodes.cell a).httpInfo
    node.infoComplete && node.host.str == info.host.str && node.path.str == info.path.str

/-! ### Links -/

section

variable (nodes : Heap CacheNode) (a b : Nat) (p : Option Nat)

@[simp] theorem setCachePrev_prev : ((setCachePrev nodes a p).cell b).prev = if b = a then p else (nodes.cell b).prev := by
  rw [setCachePrev, Heap.modify_cell]
  split <;> rfl

@[simp] theorem setCacheNext_next : ((setCacheNext nodes a p).cell b).next = if b = a then p else (nodes.cell b).next := by
  rw [setCacheNext, Heap.modify_cell]
  split <;> rfl

@[simp] theorem setCachePrev_next : ((setCachePrev nodes a p).cell b).next = (nodes.cell b).next :=
  nodes.modify_field a b _ CacheNode.next fun _ => rfl

@[simp] theorem setCacheNext_prev : ((setCacheNext nodes a p).cell b).prev = (nodes.cell b).prev :=
  nodes.modify_field a b _ CacheNode.prev fun _ => rfl

@[simp] theorem setCachePrev_info : ((setCachePrev nodes a p).cell b).httpInfo = (nodes.cell b).httpInfo :=
  nodes.modify_field a b _ CacheNode.httpInfo fun _ => rfl

@[simp] theorem setCacheNext_info : ((setCacheNext nodes a p).cell b).httpInfo = (nodes.cell b).httpInfo :=
  nodes.modify_field a b _ CacheNode.httpInfo fun _ => rfl

@[simp] theorem setCachePrev_status : ((setCachePrev nodes a p).cell b).status = (nodes.cell b).status :=
  nodes.modify_field a b _ CacheNode.status fun _ => rfl

@[simp] theorem setCacheNext_status : ((setCacheNext nodes a p).cell b).status = (nodes.cell b).status :=
  nodes.modify_field a b _ CacheNode.status fun _ => rfl

@[simp] theorem setCachePrev_bufferSize : ((setCachePrev nodes a p).cell b).bufferSize = (nodes.cell b).bufferSize :=
  nodes.modify_field a b _ CacheNode.bufferSize fun _ => rfl

@[simp] theorem setCacheNext_bufferSize : ((setCacheNext nodes a p).cell b).bufferSize = (nodes.cell b).bufferSize :=
  nodes.modify_field a b _ CacheNode.bufferSize fun _ => rfl

@[simp] theorem setCachePrev_buffer : ((setCachePrev nodes a p).cell b).buffer = (nodes.cell b).buffer :=
  nodes.modify_field a b _ CacheNode.buffer fun _ => rfl

@[simp] theorem setCacheNext_buffer : ((setCacheNext nodes a p).cell b).buffer = (nodes.cell b).buffer :=
  nodes.modify_field a b _ CacheNode.buffer fun _ => rfl

@[simp] theorem setCachePrev_top : (setCachePrev nodes a p).top = nodes.top := rfl

@[simp] theorem setCacheNext_top : (setCacheNext nodes a p).top = nodes.top := rfl

@[simp] theorem setCachePrev_freed : (setCachePrev nodes a p).freed = nodes.freed := rfl

@[simp] theorem setCacheNext_freed : (setCacheNext nodes a p).freed = nodes.freed := rfl

end

/-! ### The list the queue represents -/

/-- The queue holds the nodes `xs` from front to rear, all of them allocated and none freed. -/
structure QueueRep (c : Cache) (xs : List Nat) : Prop where
  links : DList (fun a => (c.nodes.cell a).next) (fun a => (c.nodes.cell a).prev) c.queue.front c.queue.rear xs
  allocated : ∀ a ∈ xs, a < c.nodes.top
  live : ∀ a ∈ xs, a ∉ c.nodes.freed

/-- What an operation on the queue leaves alone: everything but the links, and the buffers of the
nodes it frees. -/
structure Kept (c c' : Cache) : Prop where
  top : c'.nodes.top = c.nodes.top
  info : ∀ a, (c'.nodes.cell a).httpInfo = (c.nodes.cell a).httpInfo
  status : ∀ a, (c'.nodes.cell a).status = (c.nodes.cell a).status
  bufferSize : ∀ a, (c'.nodes.cell a).bufferSize = (c.nodes.cell a).bufferSize
  buffer : ∀ a, a ∉ c'.nodes.freed → (c'.nodes.cell a).buffer = (c.nodes.cell a).buffer

section

variable {c c' : Cache} {xs : List Nat} {p r : Nat}

theorem QueueRep.entries_eq (h : QueueRep c xs) : c.entries = xs :=
  traverse_below h.links.forward h.allocated

theorem QueueRep.alloc (h : QueueRep c xs) (x : CacheNode) : QueueRep { c with nodes := c.nodes.alloc x } xs := by
  refine ⟨h.links.congr (fun a member => ?_) (fun a member => ?_), fun a member => ?_, h.live⟩
  · exact congrArg CacheNode.next (Heap.alloc_cell_old x (h.allocated a member))
  · exact congrArg CacheNode.prev (Heap.alloc_cell_old x (h.allocated a member))
  · exact Nat.lt_succ_of_lt (h.allocated a member)

def evictedFreed (c : Cache) (r : Nat) : List Nat := if (c.nodes.cell r).status = .idle then [r] else []

theorem notMem_evictedFreed {a : Nat} (other : a ≠ r) : a ∉ evictedFreed c r := by
  unfold evictedFreed
  split
  · exact fun member => other (List.mem_singleton.mp member)
  · exact List.not_mem_nil

theorem freeIfIdle_freed (nodes : Heap CacheNode) (a : Nat) :
    (freeIfIdle nodes a).freed = nodes.freed ++ if (nodes.cell a).status = .idle then [a] else [] := by
  unfold freeIfIdle
  split
  · rfl
  · exact (List.append_nil _).symm

theorem freeIfIdle_top (nodes : Heap CacheNode) (a : Nat) : (freeIfIdle nodes a).top = nodes.top := by
  unfold freeIfIdle
  split <;> rfl

theorem freeIfIdle_field {β : Type} (g : CacheNode → β) (keeps : ∀ n, g { n with buffer := [] } = g n)
    (nodes : Heap CacheNode) (a b : Nat) : g ((freeIfIdle nodes a).cell b) = g (nodes.cell b) := by
  unfold freeIfIdle
  split
  · rw [freeCacheNode, Heap.free_cell]
    exact nodes.modify_field a b _ g keeps
  · rfl

theorem freeIfIdle_buffer {nodes : Heap CacheNode} {a b : Nat} (live : b ∉ (freeIfIdle nodes a).freed) :
    ((freeIfIdle nodes a).cell b).buffer = (nodes.cell b).buffer := by
  unfold freeIfIdle at live ⊢
  split at live
  · rename_i idle
    have other : b ≠ a := by
      rintro rfl
      exact live (List.mem_append_right _ List.mem_cons_self)
    rw [if_pos idle, freeCacheNode, Heap.free_cell, Heap.modify_cell_ne _ _ other]
  · rename_i busy
    rw [if_neg busy]

/-- The queue without its last node, which is detached and, when idle, freed. -/
theorem cacheDequeue_spec (h : QueueRep c (xs ++ [p, r])) :
    ∃ c', cacheDequeue c = some c' ∧ QueueRep c' (xs ++ [p]) ∧ Kept c c' ∧
      c'.nodes.freed = c.nodes.freed ++ evictedFreed c r ∧ c'.queue.front = c.queue.front ∧
      (c'.nodes.cell r).prev = none ∧ (c'.nodes.cell r).next = none := by
  have rear : c.queue.rear = some r := h.links.rear_eq_pair
  have last : (c.nodes.cell r).prev = some p := h.links.rear_prev
  have distinct : p ≠ r := (h.links.mem_before_rear (List.mem_append_right xs List.mem_cons_self)).2
  let nodes := freeIfIdle (setCacheNext (setCachePrev c.nodes r none) r none) r
  have next : ∀ a, (nodes.cell a).next = if a = r then none else (c.nodes.cell a).next := by
    intro a
    rw [freeIfIdle_field CacheNode.next (fun _ => rfl), setCacheNext_next, setCachePrev_next]
  have prev : ∀ a, (nodes.cell a).prev = if a = r then none else (c.nodes.cell a).prev := by
    intro a
    rw [freeIfIdle_field CacheNode.prev (fun _ => rfl), setCacheNext_prev, setCachePrev_prev]
  have freed : nodes.freed = c.nodes.freed ++ evictedFreed c r := by
    rw [freeIfIdle_freed, setCacheNext_status, setCachePrev_status]
    rfl
  have top : nodes.top = c.nodes.top := freeIfIdle_top _ _
  refine ⟨{ nodes := setCacheNext nodes p none, queue := { c.queue with rear := some p } }, ?_, ?_, ?_, freed, rfl, ?_, ?_⟩
  · simp only [cacheDequeue, rear, last, Option.bind_eq_bind, Option.bind_some, Option.pure_def, nodes]
  · refine ⟨h.links.dropRear ?_ ?_ ?_, ?_, ?_⟩
    · simp only [setCacheNext_next, if_true]
    · intro z notP notR
      simp only [setCacheNext_next, notP, if_false, next, notR]
    · intro z notR
      simp only [setCacheNext_prev, prev, notR, if_false]
    · intro a member
      exact (h.allocated a (h.links.mem_before_rear member).1).trans_eq top.symm
    · intro a member
      rw [setCacheNext_freed, freed, List.mem_append, not_or]
      exact ⟨h.live a (h.links.mem_before_rear member).1, notMem_evictedFreed (h.links.mem_before_rear member).2⟩
  · refine ⟨top, fun a => ?_, fun a => ?_, fun a => ?_, fun a live => ?_⟩
    · rw [setCacheNext_info, freeIfIdle_field CacheNode.httpInfo (fun _ => rfl), setCacheNext_info, setCachePrev_info]
    · rw [setCacheNext_status, freeIfIdle_field CacheNode.status (fun _ => rfl), setCacheNext_status, setCachePrev_status]
    · rw [setCacheNext_bufferSize, freeIfIdle_field CacheNode.bufferSize (fun _ => rfl), setCacheNext_bufferSize,
        setCachePrev_bufferSize]
    · rw [setCacheNext_buffer, freeIfIdle_buffer live, setCacheNext_buffer, setCachePrev_buffer]
  · simp only [setCacheNext_prev, prev, if_true]
  · simp only [setCacheNext_next, distinct.symm, if_false, next, if_true]

theorem Kept.trans {c₁ c₂ c₃ : Cache} (h : Kept c₁ c₂) (h' : Kept c₂ c₃)
    (freed : ∀ a, a ∈ c₂.nodes.freed → a ∈ c₃.nodes.freed) : Kept c₁ c₃ :=
  ⟨h'.top.trans h.top, fun a => (h'.info a).trans (h.info a), fun a => (h'.status a).trans (h.status a),
    fun a => (h'.bufferSize a).trans (h.bufferSize a),
    fun a live => (h'.buffer a live).trans (h.buffer a fun member => live (freed a member))⟩

/-- A node put at the front, the one at the rear evicted. -/
theorem cacheEnqueue_spec {new : Nat} (h : QueueRep c (xs ++ [p, r])) (fresh : new ∉ xs ++ [p, r])
    (allocated : new < c.nodes.top) (live : new ∉ c.nodes.freed) :
    ∃ c', cacheEnqueue c new = some c' ∧ QueueRep c' (new :: xs ++ [p]) ∧ Kept c c' ∧
      c'.nodes.freed = c.nodes.freed ++ evictedFreed c r ∧
      (c'.nodes.cell r).prev = none ∧ (c'.nodes.cell r).next = none := by
  obtain ⟨d, dequeued, rep, kept, freed, _, prevRear, nextRear⟩ := cacheDequeue_spec h
  obtain ⟨f, rest, shape⟩ : ∃ f rest, xs ++ [p] = f :: rest := by cases xs <;> exact ⟨_, _, rfl⟩
  rw [shape] at rep
  have front : d.queue.front = some f := rep.links.front_eq
  have inside : ∀ a ∈ f :: rest, a ∈ xs ++ [p, r] ∧ a ≠ r := by
    rw [← shape]
    exact fun a => h.links.mem_before_rear
  have newR : r ≠ new := by
    rintro rfl
    exact fresh (by simp)
  have frontR : r ≠ f := (inside f List.mem_cons_self).2.symm
  have newFront : f ≠ new := by
    rintro rfl
    exact fresh (inside f List.mem_cons_self).1
  refine ⟨{ nodes := setCachePrev (setCacheNext (setCachePrev d.nodes f (some new)) new (some f)) new none
            queue := { d.queue with front := some new } }, ?_, ?_, ?_, freed, ?_, ?_⟩
  · simp only [cacheEnqueue, dequeued, front, Option.bind_eq_bind, Option.bind_some, Option.pure_def]
  · rw [List.cons_append, shape]
    refine ⟨rep.links.pushFront (fun member => fresh (inside new member).1) ?_ ?_ ?_ ?_ ?_, ?_, ?_⟩
    · simp only [setCachePrev_next, setCacheNext_next, if_true]
    · simp only [setCachePrev_prev, if_true]
    · simp only [setCachePrev_prev, setCacheNext_prev, newFront, if_false, if_true]
    · intro z other
      simp only [setCachePrev_next, setCacheNext_next, other, if_false]
    · intro z notFront notNew
      simp only [setCachePrev_prev, setCacheNext_prev, notFront, notNew, if_false]
    · intro a member
      rcases List.mem_cons.mp member with rfl | old
      · exact allocated.trans_eq kept.top.symm
      · exact rep.allocated a old
    · intro a member
      rcases List.mem_cons.mp member with rfl | old
      · show a ∉ d.nodes.freed
        rw [freed, List.mem_append, not_or]
        exact ⟨live, notMem_evictedFreed newR.symm⟩
      · exact rep.live a old
  · refine kept.trans ⟨rfl, fun a => ?_, fun a => ?_, fun a => ?_, fun a _ => ?_⟩ fun a member => member
    · simp only [setCachePrev_info, setCacheNext_info]
    · simp only [setCachePrev_status, setCacheNext_status]
    · simp only [setCachePrev_bufferSize, setCacheNext_bufferSize]
    · simp only [setCachePrev_buffer, setCacheNext_buffer]
  · simp only [setCachePrev_prev, setCacheNext_prev, newR, frontR, if_false, prevRear]
  · simp only [setCachePrev_next, setCacheNext_next, newR, if_false, nextRear]

end

end NetProjects.Proxy
