import NetProjects.Proxy.CacheQueue

/-!
# Runs of the cache queue

The queue `new_cache_queue` builds and what any number of fresh nodes entering it make of it.
-/

namespace NetProjects.Proxy
open Bytes Linked

def FreedAllocated (nodes : Heap CacheNode) : Prop := ∀ a ∈ nodes.freed, a < nodes.top

theorem newCacheQueueLoop_spec {m last : Nat} {nodes : Heap CacheNode} {front newNode : Option Nat} {xs : List Nat}
    (links : DList (fun a => (nodes.cell a).next) (fun a => (nodes.cell a).prev) front (some last) (xs ++ [last]))
    (allocated : ∀ a ∈ xs ++ [last], a < nodes.top) (rear : newNode = some last) :
    let made := newCacheQueueLoop m nodes (some last) newNode
    DList (fun a => (made.1.cell a).next) (fun a => (made.1.cell a).prev) front made.2
        (xs ++ last :: List.range' nodes.top m) ∧
      made.1.top = nodes.top + m ∧ made.1.freed = nodes.freed ∧
      (∀ a < nodes.top, (made.1.cell a).httpInfo = (nodes.cell a).httpInfo) ∧
      ∀ a ∈ List.range' nodes.top m, (made.1.cell a).httpInfo = .zero := by
  induction m generalizing last nodes newNode xs with
  | zero =>
    subst rear
    exact ⟨links, rfl, rfl, fun _ _ => rfl, by simp⟩
  | succ m ih =>
    let made := setCacheNext (nodes.alloc (.fresh (some last) none 0)) last (some nodes.top)
    have old : ∀ a, a ≠ nodes.top → (nodes.alloc (.fresh (some last) none 0)).cell a = nodes.cell a :=
      fun a other => if_neg other
    have newer : nodes.top ∉ xs ++ [last] := fun member => Nat.lt_irrefl _ (allocated _ member)
    have lastOld : last < nodes.top := allocated last (by simp)
    have pushed : DList (fun a => (made.cell a).next) (fun a => (made.cell a).prev) front (some nodes.top)
        ((xs ++ [last]) ++ [nodes.top]) := by
      rw [List.append_assoc]
      refine links.pushRear newer ?_ ?_ ?_ ?_ ?_
      · simp only [made, setCacheNext_next, if_neg (Nat.ne_of_gt lastOld), Heap.alloc_cell_top, CacheNode.fresh]
      · simp only [made, setCacheNext_prev, Heap.alloc_cell_top, CacheNode.fresh]
      · simp only [made, setCacheNext_next, if_true]
      · intro z notLast notNew
        simp only [made, setCacheNext_next, if_neg notLast, old z notNew]
      · intro z notNew
        simp only [made, setCacheNext_prev, old z notNew]
    have allocated' : ∀ a ∈ (xs ++ [last]) ++ [nodes.top], a < made.top := by
      intro a member
      rcases List.mem_append.mp member with inside | here
      · exact Nat.lt_succ_of_lt (allocated a inside)
      · exact List.mem_singleton.mp here ▸ Nat.lt_succ_self _
    obtain ⟨links', top, freed, same, zero⟩ := ih pushed allocated' rfl
    have info : ∀ a, a ≠ nodes.top → (made.cell a).httpInfo = (nodes.cell a).httpInfo := by
      intro a other
      simp only [made, setCacheNext_info, old a other]
    refine ⟨?_, ?_, freed, fun a older => ?_, fun a member => ?_⟩
    · rw [List.range'_succ]
      rw [List.append_assoc] at links'
      exact links'
    · rw [show newCacheQueueLoop (m + 1) nodes (some last) newNode =
        newCacheQueueLoop m made (some nodes.top) (some nodes.top) from rfl, top]
      show nodes.top + 1 + m = nodes.top + (m + 1)
      omega
    · exact (same a (Nat.lt_succ_of_lt older)).trans (info a (Nat.ne_of_lt older))
    · rw [List.range'_succ] at member
      rcases List.mem_cons.mp member with rfl | later
      · refine (same nodes.top (Nat.lt_succ_self _)).trans ?_
        simp only [made, setCacheNext_info, Heap.alloc_cell_top, CacheNode.fresh]
      · exact zero a later

theorem newCacheQueue_spec {nodes : Heap CacheNode} {n : Nat} (two : 2 ≤ n) (freedOld : FreedAllocated nodes) :
    let c := newCacheQueue nodes n
    QueueRep c (List.range' nodes.top n) ∧ c.nodes.top = nodes.top + n ∧ c.nodes.freed = nodes.freed ∧
      (∀ a < nodes.top, (c.nodes.cell a).httpInfo = (nodes.cell a).httpInfo) ∧
      ∀ a ∈ List.range' nodes.top n, (c.nodes.cell a).httpInfo = .zero := by
  intro c
  obtain ⟨m, rfl⟩ := Nat.exists_eq_add_of_le' two
  let first := nodes.alloc (.fresh none none 0)
  have cell : first.cell nodes.top = .fresh none none 0 := Heap.alloc_cell_top _ _
  have single : DList (fun a => (first.cell a).next) (fun a => (first.cell a).prev) (some nodes.top)
      (some nodes.top) ([] ++ [nodes.top]) :=
    ⟨⟨rfl, congrArg CacheNode.next cell⟩, ⟨rfl, congrArg CacheNode.prev cell⟩⟩
  have allocated : ∀ a ∈ [] ++ [nodes.top], a < first.top := by
    intro a member
    exact List.mem_singleton.mp member ▸ Nat.lt_succ_self _
  have slots : sizeSub (m + 2) 1 = m + 1 := if_pos (by omega)
  have madeNodes : (newCacheQueueLoop (m + 1) first (some nodes.top) (some nodes.top)).1 = c.nodes := by
    simp only [c, newCacheQueue, slots]
    rfl
  have madeRear : (newCacheQueueLoop (m + 1) first (some nodes.top) (some nodes.top)).2 = c.queue.rear := by
    simp only [c, newCacheQueue, slots]
    rfl
  have range : List.range' nodes.top (m + 2) = [] ++ nodes.top :: List.range' first.top (m + 1) := rfl
  have spec := newCacheQueueLoop_spec (m := m + 1) single allocated rfl
  dsimp only at spec
  rw [madeNodes, madeRear] at spec
  obtain ⟨links, top, freed, same, zero⟩ := spec
  have total : c.nodes.top = nodes.top + (m + 2) := by
    rw [top]
    show nodes.top + 1 + (m + 1) = nodes.top + (m + 2)
    omega
  refine ⟨⟨?_, fun a member => ?_, fun a member inside => ?_⟩, total, freed, fun a older => ?_, fun a member => ?_⟩
  · rw [range]
    exact links
  · rw [total]
    exact (List.mem_range'_1.mp member).2
  · rw [freed] at inside
    exact Nat.lt_irrefl _ (Nat.lt_of_le_of_lt (List.mem_range'_1.mp member).1 (freedOld a inside))
  · exact (same a (Nat.lt_succ_of_lt older)).trans (congrArg CacheNode.httpInfo (Heap.alloc_cell_old _ older))
  · rw [range] at member
    rcases List.mem_cons.mp member with rfl | later
    · exact (same nodes.top (Nat.lt_succ_self _)).trans (congrArg CacheNode.httpInfo cell)
    · exact zero a later

/-! ### Fresh nodes entering the queue -/

/-- A node with the contents `x` is allocated and enqueued. -/
def enqueueFresh (c : Cache) (x : CacheNode) : Option Cache :=
  cacheEnqueue { c with nodes := c.nodes.alloc x } c.nodes.top

/-- The queue of `n` slots after `k` fresh nodes: the last `n` of them, newest first, followed by
the dummies that remain, the first of which is at `base`. -/
def contents (base n k : Nat) : List Nat := ((List.range' (base + n) k).reverse ++ List.range' base n).take n

theorem length_contents (base n k : Nat) : (contents base n k).length = n := by
  simp only [contents, List.length_take, List.length_append, List.length_reverse, List.length_range']
  omega

theorem split_last_two {xs : List Nat} (two : 2 ≤ xs.length) : ∃ ys p r, xs = ys ++ [p, r] := by
  obtain ⟨zs, r, rfl⟩ := (List.eq_nil_or_concat xs).resolve_left (by rintro rfl; simp at two)
  obtain ⟨ys, p, rfl⟩ := (List.eq_nil_or_concat zs).resolve_left (by rintro rfl; simp at two)
  exact ⟨ys, p, r, by simp⟩

theorem contents_succ (base k : Nat) {n : Nat} (two : 2 ≤ n) :
    ∃ ys p r, contents base n k = ys ++ [p, r] ∧ contents base n (k + 1) = (base + n + k) :: ys ++ [p] := by
  obtain ⟨ys, p, r, shape⟩ := split_last_two (two.trans_eq (length_contents base n k).symm)
  refine ⟨ys, p, r, shape, ?_⟩
  obtain ⟨m, rfl⟩ := Nat.exists_eq_add_of_le' two
  have count : (ys ++ [p]).length = m + 1 := by
    have total := length_contents base (m + 2) k
    rw [shape, List.length_append, List.length_cons, List.length_singleton] at total
    rw [List.length_append, List.length_singleton]
    omega
  have kept : ((List.range' (base + (m + 2)) k).reverse ++ List.range' base (m + 2)).take (m + 1) = ys ++ [p] := by
    have front := congrArg (List.take (m + 1)) shape
    rw [contents, List.take_take, Nat.min_eq_left (Nat.le_succ _), List.append_cons] at front
    rw [front]
    exact List.take_left' count
  rw [contents, List.range'_concat, List.reverse_concat, List.cons_append, List.take_succ_cons, kept, Nat.one_mul]
  rfl

theorem contents_below {base n k a : Nat} (member : a ∈ contents base n k) : a < base + n + k := by
  have inside := List.mem_of_mem_take member
  simp only [List.mem_append, List.mem_reverse, List.mem_range'_1] at inside
  omega

theorem enqueueFresh_spec {c : Cache} {base n k : Nat} (two : 2 ≤ n) (rep : QueueRep c (contents base n k))
    (top : c.nodes.top = base + n + k) (freedOld : FreedAllocated c.nodes) (x : CacheNode) :
    ∃ c' ys r, enqueueFresh c x = some c' ∧ QueueRep c' (contents base n (k + 1)) ∧
      c'.nodes.top = base + n + (k + 1) ∧ FreedAllocated c'.nodes ∧
      contents base n k = ys ++ [r] ∧ contents base n (k + 1) = (base + n + k) :: ys ∧
      (c'.nodes.cell r).prev = none ∧ (c'.nodes.cell r).next = none ∧
      c'.nodes.freed = c.nodes.freed ++ evictedFreed c r := by
  obtain ⟨ys, p, r, shape, next⟩ := contents_succ base k two
  let d : Cache := { c with nodes := c.nodes.alloc x }
  have older : ∀ a ∈ contents base n k, a < c.nodes.top := fun a member => by
    rw [top]
    exact contents_below member
  have same : ∀ a < c.nodes.top, d.nodes.cell a = c.nodes.cell a := fun a old => Heap.alloc_cell_old x old
  have repD : QueueRep d (ys ++ [p, r]) := by
    rw [← shape]
    exact rep.alloc x
  have fresh : c.nodes.top ∉ ys ++ [p, r] := by
    rw [← shape]
    exact fun member => Nat.lt_irrefl _ (older _ member)
  have live : c.nodes.top ∉ d.nodes.freed := fun member => Nat.lt_irrefl _ (freedOld _ member)
  obtain ⟨c', enqueued, rep', kept, freed, prevR, nextR⟩ :=
    cacheEnqueue_spec repD fresh (Nat.lt_succ_self _) live
  have rOld : r < c.nodes.top := older r (by rw [shape]; simp)
  have evicted : evictedFreed d r = evictedFreed c r := by
    rw [evictedFreed, same r rOld]
    rfl
  rw [evicted] at freed
  have topD : c'.nodes.top = base + n + (k + 1) := by
    rw [kept.top]
    show c.nodes.top + 1 = base + n + (k + 1)
    omega
  refine ⟨c', ys ++ [p], r, enqueued, ?_, topD, fun a member => ?_, ?_, ?_, prevR, nextR, freed⟩
  · rw [next, ← top]
    exact rep'
  · rw [freed] at member
    rcases List.mem_append.mp member with old | here
    · have := freedOld a old
      omega
    · have isRear : a = r := by
        by_contra other
        exact notMem_evictedFreed other here
      omega
  · rw [shape, List.append_assoc]
    rfl
  · exact next

theorem enqueueAll_spec {c : Cache} {base n k : Nat} (two : 2 ≤ n) (rep : QueueRep c (contents base n k))
    (top : c.nodes.top = base + n + k) (freedOld : FreedAllocated c.nodes) (xs : List CacheNode) :
    ∃ c', xs.foldlM enqueueFresh c = some c' ∧ QueueRep c' (contents base n (k + xs.length)) ∧
      c'.nodes.top = base + n + (k + xs.length) ∧ FreedAllocated c'.nodes := by
  induction xs generalizing c k with
  | nil => exact ⟨c, rfl, rep, top, freedOld⟩
  | cons x xs ih =>
    obtain ⟨d, _, _, enqueued, repD, topD, freedD, _⟩ := enqueueFresh_spec two rep top freedOld x
    obtain ⟨c', run, rep', top', freed'⟩ := ih repD topD freedD
    have count : k + (x :: xs).length = k + 1 + xs.length := by
      rw [List.length_cons]
      omega
    rw [count, List.foldlM_cons, enqueued]
    exact ⟨c', run, rep', top', freed'⟩

/-- A queue of `n ≥ 2` slots after any fresh nodes, with any statuses: a doubly linked list of `n`
nodes, the newest first and then the dummies left. One more node detaches exactly the rear and
frees it exactly when it is idle. -/
theorem cache_queue_run {nodes : Heap CacheNode} {n : Nat} (two : 2 ≤ n) (freedOld : FreedAllocated nodes)
    (xs : List CacheNode) (x : CacheNode) :
    ∃ c, xs.foldlM enqueueFresh (newCacheQueue nodes n) = some c ∧
      QueueRep c (contents nodes.top n xs.length) ∧ (contents nodes.top n xs.length).length = n ∧
      ∃ c' ys r, enqueueFresh c x = some c' ∧ QueueRep c' (contents nodes.top n (xs.length + 1)) ∧
        contents nodes.top n xs.length = ys ++ [r] ∧
        contents nodes.top n (xs.length + 1) = c.nodes.top :: ys ∧
        (c'.nodes.cell r).prev = none ∧ (c'.nodes.cell r).next = none ∧
        c'.nodes.freed = c.nodes.freed ++ if (c.nodes.cell r).status = .idle then [r] else [] := by
  obtain ⟨rep, top, freed, _, _⟩ := newCacheQueue_spec two freedOld
  have dummies : contents nodes.top n 0 = List.range' nodes.top n := by
    rw [contents, List.range'_zero, List.reverse_nil, List.nil_append, List.take_of_length_le (by simp)]
  have freedOld' : FreedAllocated (newCacheQueue nodes n).nodes := by
    intro a member
    rw [freed] at member
    have := freedOld a member
    omega
  rw [← dummies] at rep
  obtain ⟨c, run, repC, topC, freedC⟩ := enqueueAll_spec two rep top freedOld' xs
  rw [Nat.zero_add] at repC topC
  obtain ⟨c', ys, r, enqueued, rep', _, _, shape, next, prevR, nextR, evicted⟩ :=
    enqueueFresh_spec two repC topC freedC x
  exact ⟨c, run, repC, length_contents _ _ _, c', ys, r, enqueued, rep', shape, by rw [next, topC], prevR, nextR,
    evicted⟩

/-- Three documents on two slots, the second in use: one more detaches it and leaves it allocated. -/
theorem cache_queue_run_three :
    let xs := [.fresh none none 50, { CacheNode.fresh none none 60 with status := .inUse }, .fresh none none 70]
    FreedAllocated (.empty (.fresh none none 0)) ∧
      ∃ c c', xs.foldlM enqueueFresh (newCacheQueue (.empty (.fresh none none 0)) 2) = some c ∧ QueueRep c [4, 3] ∧
        c.nodes.freed = [1, 0, 2] ∧ enqueueFresh c (.fresh none none 100) = some c' ∧ QueueRep c' [5, 4] ∧
        (c'.nodes.cell 3).prev = none ∧ c'.nodes.freed = c.nodes.freed := by
  intro xs
  have freedOld : FreedAllocated (.empty (.fresh none none 0)) := fun _ member => absurd member List.not_mem_nil
  obtain ⟨c, run, rep, _, c', ys, r, enqueued, rep', shape, _, prev, _, freed⟩ :=
    cache_queue_run (Nat.le_refl 2) freedOld xs (.fresh none none 100)
  have facts : (xs.foldlM enqueueFresh (newCacheQueue (.empty (.fresh none none 0)) 2)).map
      (fun c => (c.nodes.freed, (c.nodes.cell 3).status)) = some ([1, 0, 2], .inUse) := by
    decide +kernel
  rw [run, Option.map_some] at facts
  obtain ⟨freedBefore, status⟩ := Prod.mk.inj (Option.some.inj facts)
  have shape : [4] ++ [3] = ys ++ [r] := shape
  obtain ⟨rfl, last⟩ := List.append_inj' shape rfl
  obtain rfl := List.singleton_inj.mp last
  rw [status, if_neg (by decide), List.append_nil] at freed
  exact ⟨freedOld, c, c', run, rep, freedBefore, enqueued, rep', prev, freed⟩

end NetProjects.Proxy
