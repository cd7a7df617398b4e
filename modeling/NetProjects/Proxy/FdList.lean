import NetProjects.Proxy.CacheQueue

/-!
# The descriptor list

A doubly linked list of the sockets the proxy serves, between two dummy nodes.
-/

namespace NetProjects.Proxy
open Linked

inductive FdType where
  | dummy | listen | client | server
  deriving DecidableEq, Repr

structure FdNode where
  prev : Option Nat
  next : Option Nat
  proxied : Option Nat
  fd : Int
  type : FdType
  status : NodeStatus
  cacheNode : Option Nat
  cacheNodeBackup : Option Nat
  offset : Int
  /-- 1 for a conditional get, 2 for a normal one. -/
  flag : Nat

structure FdList where
  front : Option Nat
  rear : Option Nat
  maxClient : Nat

def setFdPrev (nodes : Heap FdNode) (a : Nat) (p : Option Nat) : Heap FdNode :=
  nodes.modify a fun n => { n with prev := p }

def setFdNext (nodes : Heap FdNode) (a : Nat) (p : Option Nat) : Heap FdNode :=
  nodes.modify a fun n => { n with next := p }

def newFdNode (prev next : Option Nat) (fd : Int) (type : FdType) (status : NodeStatus)
    (cacheNode : Option Nat) : FdNode :=
  { prev := prev, next := next, proxied := none, fd := fd, type := type, status := status
    cacheNode := cacheNode, cacheNodeBackup := none, offset := 0, flag := 0 }

def newFdList (nodes : Heap FdNode) (maxClient : Nat) : Heap FdNode × FdList :=
  let front := nodes.top
  let nodes := nodes.alloc (newFdNode none none (-1) .dummy .idle none)
  let rear := nodes.top
  let nodes := nodes.alloc (newFdNode none none (-1) .dummy .idle none)
  let nodes := setFdPrev (setFdNext nodes front (some rear)) rear (some front)
  (nodes, { front := some front, rear := some rear, maxClient := maxClient })

/-- Before the rear of the list; `none` is a NULL pointer followed. -/
def fdListAppend (nodes : Heap FdNode) (list : FdList) (new : Nat) : Option (Heap FdNode) := do
  let rear ← list.rear
  let nodes := setFdPrev nodes new (nodes.cell rear).prev
  let nodes := setFdNext nodes new (some rear)
  let before ← (nodes.cell rear).prev
  let nodes := setFdNext nodes before (some new)
  return setFdPrev nodes rear (some new)

def fdListRemove (nodes : Heap FdNode) (f : Nat) : Option (Heap FdNode) := do
  let before ← (nodes.cell f).prev
  let nodes := setFdNext nodes before (nodes.cell f).next
  let after ← (nodes.cell f).next
  let nodes := setFdPrev nodes after (nodes.cell f).prev
  return setFdNext (setFdPrev nodes f none) f none

/-- The nodes from the front of the list on, dummies included. -/
def fdListNodes (nodes : Heap FdNode) (list : FdList) : List Nat :=
  traverse (fun f => (nodes.cell f).next) nodes.top list.front

/-- The nodes from the rear of the list back. -/
def fdListNodesBack (nodes : Heap FdNode) (list : FdList) : List Nat :=
  traverse (fun f => (nodes.cell f).prev) nodes.top list.rear

/-- The loop of `get_max_fd`; `none` where the list does not end. -/
def maxFdLoop (nodes : Heap FdNode) : Nat → Int → Option Nat → Option Int
  | 0, _, _ => none
  | _ + 1, fdMax, none => some fdMax
  | fuel + 1, fdMax, some f =>
    maxFdLoop nodes fuel (if (nodes.cell f).fd > fdMax then (nodes.cell f).fd else fdMax) (nodes.cell f).next

def getMaxFd (nodes : Heap FdNode) (list : FdList) : Option Int :=
  maxFdLoop nodes (nodes.top + 1) 0 list.front

/-! ### Links -/

def FdNode.unlinked (n : FdNode) : FdNode := { n with prev := none, next := none }

section

variable (nodes : Heap FdNode) (a b : Nat) (p : Option Nat)

@[simp] theorem setFdPrev_prev : ((setFdPrev nodes a p).cell b).prev = if b = a then p else (nodes.cell b).prev := by
  rw [setFdPrev, Heap.modify_cell]
  split <;> rfl

@[simp] theorem setFdNext_next : ((setFdNext nodes a p).cell b).next = if b = a then p else (nodes.cell b).next := by
  rw [setFdNext, Heap.modify_cell]
  split <;> rfl

@[simp] theorem setFdPrev_next : ((setFdPrev nodes a p).cell b).next = (nodes.cell b).next :=
  nodes.modify_field a b _ FdNode.next fun _ => rfl

@[simp] theorem setFdNext_prev : ((setFdNext nodes a p).cell b).prev = (nodes.cell b).prev :=
  nodes.modify_field a b _ FdNode.prev fun _ => rfl

@[simp] theorem setFdPrev_unlinked : ((setFdPrev nodes a p).cell b).unlinked = (nodes.cell b).unlinked :=
  nodes.modify_field a b _ FdNode.unlinked fun _ => rfl

@[simp] theorem setFdNext_unlinked : ((setFdNext nodes a p).cell b).unlinked = (nodes.cell b).unlinked :=
  nodes.modify_field a b _ FdNode.unlinked fun _ => rfl

@[simp] theorem setFdPrev_top : (setFdPrev nodes a p).top = nodes.top := rfl

@[simp] theorem setFdNext_top : (setFdNext nodes a p).top = nodes.top := rfl

end

/-! ### The list represented -/

/-- The list holds the nodes `xs` between its dummies `front` and `rear`. -/
structure FdRep (nodes : Heap FdNode) (list : FdList) (front : Nat) (xs : List Nat) (rear : Nat) : Prop where
  links : DList (fun f => (nodes.cell f).next) (fun f => (nodes.cell f).prev) list.front list.rear
    (front :: xs ++ [rear])
  allocated : ∀ f ∈ front :: xs ++ [rear], f < nodes.top

section

variable {nodes : Heap FdNode} {list : FdList} {front rear f new : Nat} {xs ys : List Nat}

theorem FdRep.nodes_eq (h : FdRep nodes list front xs rear) : fdListNodes nodes list = front :: xs ++ [rear] :=
  traverse_below h.links.forward h.allocated

theorem FdRep.nodesBack_eq (h : FdRep nodes list front xs rear) :
    fdListNodesBack nodes list = (front :: xs ++ [rear]).reverse :=
  traverse_below h.links.backward fun f member => h.allocated f (List.mem_reverse.mp member)

theorem FdRep.fronts (h : FdRep nodes list front xs rear) : list.front = some front ∧ list.rear = some rear :=
  ⟨h.links.front_eq, h.links.rear_eq⟩

theorem maxFdLoop_spec {fuel : Nat} {p : Option Nat} (fdMax : Int)
    (links : Seg (fun f => (nodes.cell f).next) p xs none) (enough : xs.length < fuel) :
    ∃ m, maxFdLoop nodes fuel fdMax p = some m ∧ fdMax ≤ m ∧ ∀ f ∈ xs, (nodes.cell f).fd ≤ m := by
  induction xs generalizing p fuel fdMax with
  | nil =>
    obtain rfl : p = none := links
    obtain ⟨fuel, rfl⟩ := Nat.exists_eq_add_of_lt enough
    exact ⟨fdMax, rfl, le_rfl, fun f member => absurd member List.not_mem_nil⟩
  | cons x xs ih =>
    obtain ⟨rfl, links⟩ := links
    obtain ⟨fuel, rfl⟩ : ∃ n, fuel = n + 1 := ⟨fuel - 1, by omega⟩
    have shorter : xs.length < fuel := Nat.lt_of_succ_lt_succ enough
    obtain ⟨m, found, atLeast, others⟩ := ih (if (nodes.cell x).fd > fdMax then (nodes.cell x).fd else fdMax) links shorter
    refine ⟨m, found, ?_, List.forall_mem_cons.mpr ⟨?_, others⟩⟩
    · split at atLeast <;> omega
    · split at atLeast <;> omega

theorem FdRep.getMaxFd_spec (h : FdRep nodes list front xs rear) :
    ∃ m, getMaxFd nodes list = some m ∧ ∀ f ∈ front :: xs ++ [rear], (nodes.cell f).fd ≤ m := by
  have enough := length_le_of_below h.links.nodup h.allocated
  obtain ⟨m, found, _, all⟩ := maxFdLoop_spec 0 h.links.forward (Nat.lt_succ_of_le enough)
  exact ⟨m, found, all⟩

theorem split_before_rear (front rear : Nat) (xs : List Nat) :
    ∃ ys p, front :: xs ++ [rear] = ys ++ [p, rear] ∧ front :: xs = ys ++ [p] := by
  obtain ⟨ys, p, shape⟩ := (List.eq_nil_or_concat (front :: xs)).resolve_left (List.cons_ne_nil _ _)
  rw [List.concat_eq_append] at shape
  exact ⟨ys, p, by rw [shape, List.append_assoc]; rfl, shape⟩

theorem fdListAppend_spec (h : FdRep nodes list front xs rear) (fresh : new ∉ front :: xs ++ [rear])
    (allocated : new < nodes.top) :
    ∃ nodes', fdListAppend nodes list new = some nodes' ∧ FdRep nodes' list front (xs ++ [new]) rear ∧
      nodes'.top = nodes.top ∧ ∀ g, (nodes'.cell g).unlinked = (nodes.cell g).unlinked := by
  obtain ⟨ys, p, shape, initial⟩ := split_before_rear front rear xs
  have links := h.links
  rw [shape] at links fresh
  have rearEq : list.rear = some rear := links.rear_eq_pair
  have before : (nodes.cell rear).prev = some p := links.rear_prev
  have distinct : p ≠ rear := (links.mem_before_rear (List.mem_append_right ys List.mem_cons_self)).2
  have newRear : rear ≠ new := by
    rintro rfl
    exact fresh (by simp)
  have newP : p ≠ new := by
    rintro rfl
    exact fresh (by simp)
  refine ⟨setFdPrev (setFdNext (setFdNext (setFdPrev nodes new (some p)) new (some rear)) p (some new)) rear
    (some new), ?_, ⟨?_, ?_⟩, rfl, fun g => ?_⟩
  · simp only [fdListAppend, rearEq, before, Option.bind_eq_bind, Option.bind_some, Option.pure_def,
      setFdNext_prev, setFdPrev_prev, if_neg newRear]
  · rw [← List.cons_append, initial, List.append_assoc, List.append_assoc]
    refine links.insert fresh ?_ ?_ ?_ ?_ ?_ ?_
    · simp only [setFdPrev_next, setFdNext_next, if_true]
    · simp only [setFdPrev_next, setFdNext_next, if_neg newP.symm, if_true]
    · simp only [setFdPrev_prev, setFdNext_prev, if_neg newRear.symm, if_true]
    · simp only [setFdPrev_prev, if_true]
    · intro z notP notNew
      simp only [setFdPrev_next, setFdNext_next, if_neg notP, if_neg notNew]
    · intro z notRear notNew
      simp only [setFdPrev_prev, setFdNext_prev, if_neg notRear, if_neg notNew]
  · intro g member
    have old : g ∈ front :: xs ++ [rear] ∨ g = new := by
      simp only [List.mem_append, List.mem_cons, List.not_mem_nil, or_false] at member ⊢
      tauto
    rcases old with old | rfl
    · exact h.allocated g old
    · exact allocated
  · simp only [setFdPrev_unlinked, setFdNext_unlinked]

/-- Nothing but the new node and nodes of the list is written. -/
theorem fdListAppend_outside {nodes' : Heap FdNode} {g : Nat} (h : FdRep nodes list front xs rear)
    (done : fdListAppend nodes list new = some nodes') (outside : g ∉ front :: xs ++ [rear]) (other : g ≠ new)
    (fresh : new ∉ front :: xs ++ [rear]) : nodes'.cell g = nodes.cell g := by
  obtain ⟨ys, p, shape, _⟩ := split_before_rear front rear xs
  have links := h.links
  rw [shape] at links outside fresh
  have before : (nodes.cell rear).prev = some p := links.rear_prev
  have newRear : rear ≠ new := by
    rintro rfl
    exact fresh (by simp)
  have notP : g ≠ p := by
    rintro rfl
    exact outside (by simp)
  have notRear : g ≠ rear := by
    rintro rfl
    exact outside (by simp)
  simp only [fdListAppend, h.fronts.2, before, Option.bind_eq_bind, Option.bind_some, Option.pure_def, setFdNext_prev,
    setFdPrev_prev, if_neg newRear] at done
  obtain rfl := Option.some.inj done
  simp only [setFdPrev, setFdNext, Heap.modify_cell, if_neg notRear, if_neg notP, if_neg other]

theorem split_inside (front rear : Nat) (inside : f ∈ xs) :
    ∃ before after ws a b zs, xs = before ++ f :: after ∧
      front :: xs ++ [rear] = ws ++ a :: f :: b :: zs ∧ front :: (before ++ after) ++ [rear] = ws ++ a :: b :: zs := by
  obtain ⟨before, after, split⟩ := List.append_of_mem inside
  obtain ⟨ws, a, _, left⟩ := split_before_rear front rear before
  obtain ⟨b, zs, right⟩ : ∃ b zs, after ++ [rear] = b :: zs := by cases after <;> exact ⟨_, _, rfl⟩
  refine ⟨before, after, ws, a, b, zs, split, ?_, ?_⟩
  · rw [split, ← List.cons_append, left]
    simp only [List.append_assoc, List.cons_append, List.nil_append, right]
  · rw [← List.cons_append, left]
    simp only [List.append_assoc, List.cons_append, List.nil_append, right]

theorem fdListRemove_spec (h : FdRep nodes list front xs rear) (inside : f ∈ xs) :
    ∃ nodes', fdListRemove nodes f = some nodes' ∧ FdRep nodes' list front (xs.erase f) rear ∧
      nodes'.top = nodes.top ∧ ∀ g, (nodes'.cell g).unlinked = (nodes.cell g).unlinked := by
  obtain ⟨before, after, ws, a, b, zs, split, shape, short⟩ := split_inside front rear inside
  have links := h.links
  rw [shape] at links
  obtain ⟨next, prev⟩ := links.neighbours
  have distinct := links.nodup
  obtain ⟨_, notA, _⟩ := DList.nodup_pair distinct
  rw [List.append_cons] at distinct
  obtain ⟨_, notF, _⟩ := DList.nodup_pair distinct
  have fA : f ≠ a := notA f List.mem_cons_self
  have bA : b ≠ a := notA b (List.mem_cons_of_mem _ List.mem_cons_self)
  have bF : b ≠ f := notF b List.mem_cons_self
  have erased : xs.erase f = before ++ after := by
    have once := (List.nodup_cons.mp (List.nodup_append.mp h.links.nodup).1).2
    rw [split] at once ⊢
    have notBefore : f ∉ before := fun again =>
      (List.nodup_append.mp once).2.2 f again f List.mem_cons_self rfl
    rw [List.erase_append_right _ notBefore, List.erase_cons_head]
  refine ⟨setFdNext (setFdPrev (setFdPrev (setFdNext nodes a (some b)) b (some a)) f none) f none, ?_, ⟨?_, ?_⟩, rfl,
    fun g => ?_⟩
  · simp only [fdListRemove, next, prev, Option.bind_eq_bind, Option.bind_some, Option.pure_def, setFdNext_next,
      setFdNext_prev, if_neg fA]
  · rw [erased, short]
    refine links.remove ?_ ?_ ?_ ?_
    · simp only [setFdNext_next, setFdPrev_next, if_neg fA.symm, if_true]
    · simp only [setFdNext_prev, setFdPrev_prev, if_neg bF, if_true]
    · intro z notA notF
      simp only [setFdNext_next, setFdPrev_next, if_neg notA, if_neg notF]
    · intro z notB notF
      simp only [setFdNext_prev, setFdPrev_prev, if_neg notB, if_neg notF]
  · intro g member
    refine h.allocated g ?_
    rw [erased, short] at member
    rw [shape]
    simp only [List.mem_append, List.mem_cons] at member ⊢
    tauto
  · simp only [setFdPrev_unlinked, setFdNext_unlinked]

/-- The node is taken out, and only nodes of the list are written. -/
theorem fdListRemove_outside {nodes' : Heap FdNode} (h : FdRep nodes list front xs rear) (inside : f ∈ xs)
    (done : fdListRemove nodes f = some nodes') :
    (nodes'.cell f).prev = none ∧ (nodes'.cell f).next = none ∧
      ∀ g ∉ front :: xs ++ [rear], nodes'.cell g = nodes.cell g := by
  obtain ⟨before, after, ws, a, b, zs, _, shape, _⟩ := split_inside front rear inside
  have links := h.links
  rw [shape] at links ⊢
  obtain ⟨next, prev⟩ := links.neighbours
  have distinct := links.nodup
  obtain ⟨_, notA, _⟩ := DList.nodup_pair distinct
  have fA : f ≠ a := notA f List.mem_cons_self
  simp only [fdListRemove, next, prev, Option.bind_eq_bind, Option.bind_some, Option.pure_def, setFdNext_next,
    setFdNext_prev, if_neg fA] at done
  obtain rfl := Option.some.inj done
  refine ⟨?_, ?_, fun g outside => ?_⟩
  · simp only [setFdNext_prev, setFdPrev_prev, if_true]
  · simp only [setFdNext_next, if_true]
  · have others : g ≠ a ∧ g ≠ f ∧ g ≠ b := by
      simp only [List.mem_append, List.mem_cons, not_or] at outside
      exact ⟨outside.2.1, outside.2.2.1, outside.2.2.2.1⟩
    simp only [setFdPrev, setFdNext, Heap.modify_cell, if_neg others.1, if_neg others.2.1, if_neg others.2.2]

end

end NetProjects.Proxy
