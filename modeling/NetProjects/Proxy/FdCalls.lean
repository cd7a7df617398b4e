import NetProjects.Proxy.Start

/-!
# Calls on the descriptor list

What any sequence of calls of `new_fd_node`, `fd_list_append` and `fd_list_remove` makes of a list
from `new_fd_list`.
-/

namespace NetProjects.Proxy
open Linked

inductive FdCall where
  /-- `new_fd_node`, whatever its arguments. -/
  | create (node : FdNode)
  | append (new : Nat)
  | remove (f : Nat)

namespace FdCall

def apply (list : FdList) (nodes : Heap FdNode) : FdCall → Option (Heap FdNode)
  | create node => some (nodes.alloc node)
  | append new => fdListAppend nodes list new
  | remove f => fdListRemove nodes f

def appended : FdCall → Option Nat
  | append new => some new
  | create _ | remove _ => none

def removed : FdCall → Option Nat
  | remove f => some f
  | create _ | append _ => none

/-- After `calls`, a node that is appended has not been in the list, and one that is removed is in the list
and not a dummy. -/
def Allowed (list : FdList) (nodes : Heap FdNode) (calls : List FdCall) : FdCall → Prop
  | create _ => True
  | append new => new < nodes.top ∧ new ∉ fdListNodes nodes list ∧ new ∉ calls.filterMap appended
  | remove f => f ∈ fdListNodes nodes list ∧ list.front ≠ some f ∧ list.rear ≠ some f

instance (list : FdList) (nodes : Heap FdNode) (calls : List FdCall) : DecidablePred (Allowed list nodes calls)
  | create _ => inferInstanceAs (Decidable True)
  | append new => inferInstanceAs
      (Decidable (new < nodes.top ∧ new ∉ fdListNodes nodes list ∧ new ∉ calls.filterMap appended))
  | remove f => inferInstanceAs
      (Decidable (f ∈ fdListNodes nodes list ∧ list.front ≠ some f ∧ list.rear ≠ some f))

end FdCall

/-- The calls lead to the heap `nodes` from a new list, made in the heap `before`. -/
inductive FdReached (before : Heap FdNode) (maxClient : Nat) : List FdCall → Heap FdNode → Prop
  | start : FdReached before maxClient [] (newFdList before maxClient).1
  | call {calls : List FdCall} {nodes nodes' : Heap FdNode} (call : FdCall)
      (reached : FdReached before maxClient calls nodes)
      (allowed : call.Allowed (newFdList before maxClient).2 nodes calls)
      (done : call.apply (newFdList before maxClient).2 nodes = some nodes') :
      FdReached before maxClient (calls ++ [call]) nodes'

/-- The nodes that were appended and not removed, in order of appending. -/
def remaining (calls : List FdCall) : List Nat :=
  (calls.filterMap FdCall.appended).filter fun f => f ∉ calls.filterMap FdCall.removed

/-- The list holds `xs` between its dummies, and nodes that have left it have no links. -/
structure WellFormed (nodes : Heap FdNode) (list : FdList) (xs gone : List Nat) : Prop where
  dummies : ∃ front rear, list.front = some front ∧ list.rear = some rear ∧
    (nodes.cell front).prev = none ∧ (nodes.cell rear).next = none ∧
    fdListNodes nodes list = front :: xs ++ [rear] ∧ fdListNodesBack nodes list = rear :: xs.reverse ++ [front]
  nextPrev : ∀ f ∈ fdListNodes nodes list, ∀ g, (nodes.cell f).next = some g →
    g ∈ fdListNodes nodes list ∧ (nodes.cell g).prev = some f
  prevNext : ∀ g ∈ fdListNodes nodes list, ∀ f, (nodes.cell g).prev = some f →
    f ∈ fdListNodes nodes list ∧ (nodes.cell f).next = some g
  unlinked : ∀ f ∈ gone, (nodes.cell f).prev = none ∧ (nodes.cell f).next = none
  maxFd : ∃ m, getMaxFd nodes list = some m ∧ ∀ f ∈ fdListNodes nodes list, (nodes.cell f).fd ≤ m

section

variable {nodes nodes' : Heap FdNode} {list : FdList} {front rear f new : Nat} {xs gone : List Nat} {calls : List FdCall}

/-! ### One call -/

/-- Nodes that left the list are allocated, out of it and without links. -/
structure Gone (nodes : Heap FdNode) (listed : List Nat) (f : Nat) : Prop where
  allocated : f < nodes.top
  outside : f ∉ listed
  unlinked : (nodes.cell f).prev = none ∧ (nodes.cell f).next = none

theorem Gone.congr {listed listed' : List Nat} (h : Gone nodes listed f) (top : nodes.top ≤ nodes'.top)
    (same : nodes'.cell f = nodes.cell f) (outside : f ∉ listed') : Gone nodes' listed' f := by
  refine ⟨Nat.lt_of_lt_of_le h.allocated top, outside, ?_⟩
  rw [same]
  exact h.unlinked

/-- What holds of the heap after `calls`. -/
structure FdState (nodes : Heap FdNode) (list : FdList) (front rear : Nat) (calls : List FdCall) : Prop where
  rep : FdRep nodes list front (remaining calls) rear
  gone : ∀ f ∈ calls.filterMap FdCall.removed, f ∈ calls.filterMap FdCall.appended ∧
    Gone nodes (front :: remaining calls ++ [rear]) f

theorem filterMap_concat (g : FdCall → Option Nat) (calls : List FdCall) (call : FdCall) :
    (calls ++ [call]).filterMap g = calls.filterMap g ++ (g call).toList := by
  rw [List.filterMap_append]
  cases found : g call <;> simp [found]

theorem remaining_create (calls : List FdCall) (node : FdNode) :
    remaining (calls ++ [.create node]) = remaining calls := by
  simp only [remaining, filterMap_concat, FdCall.appended, FdCall.removed, Option.toList_none, List.append_nil]

theorem remaining_append (fresh : new ∉ calls.filterMap FdCall.removed) :
    remaining (calls ++ [.append new]) = remaining calls ++ [new] := by
  have kept : [new].filter (fun f => f ∉ calls.filterMap FdCall.removed) = [new] :=
    List.filter_cons_of_pos (decide_eq_true fresh)
  simp only [remaining, filterMap_concat, FdCall.appended, FdCall.removed, Option.toList_none, Option.toList_some,
    List.append_nil, List.filter_append, kept]

theorem remaining_remove (distinct : (remaining calls).Nodup) :
    remaining (calls ++ [.remove f]) = (remaining calls).erase f := by
  rw [distinct.erase_eq_filter]
  simp only [remaining, filterMap_concat, FdCall.appended, FdCall.removed, Option.toList_none, Option.toList_some,
    List.append_nil, List.filter_filter]
  apply List.filter_congr
  intro g _
  by_cases here : g = f <;> simp [here]

/-- A node that is made is in no list yet. -/
theorem FdState.create (h : FdState nodes list front rear calls) (node : FdNode) :
    FdState (nodes.alloc node) list front rear (calls ++ [.create node]) := by
  constructor
  · rw [remaining_create]
    exact h.rep.alloc node
  · intro f member
    rw [filterMap_concat, FdCall.removed, Option.toList_none, List.append_nil] at member
    rw [filterMap_concat, FdCall.appended, Option.toList_none, List.append_nil, remaining_create]
    obtain ⟨entered, gone⟩ := h.gone f member
    exact ⟨entered, gone.congr (Nat.le_succ _) (Heap.alloc_cell_old node gone.allocated) gone.outside⟩

theorem FdState.append (h : FdState nodes list front rear calls) (allocated : new < nodes.top)
    (absent : new ∉ front :: remaining calls ++ [rear]) (fresh : new ∉ calls.filterMap FdCall.appended) :
    ∃ nodes', fdListAppend nodes list new = some nodes' ∧
      FdState nodes' list front rear (calls ++ [.append new]) := by
  have notGone : new ∉ calls.filterMap FdCall.removed := fun member => fresh (h.gone new member).1
  obtain ⟨nodes', done, rep, top, _⟩ := fdListAppend_spec h.rep absent allocated
  refine ⟨nodes', done, ?_, fun f member => ?_⟩
  · rw [remaining_append notGone]
    exact rep
  · rw [filterMap_concat, FdCall.removed, Option.toList_none, List.append_nil] at member
    rw [filterMap_concat, FdCall.appended, Option.toList_some, remaining_append notGone]
    obtain ⟨entered, gone⟩ := h.gone f member
    have other : f ≠ new := fun same => notGone (same ▸ member)
    refine ⟨List.mem_append_left _ entered, gone.congr top.ge ?_ ?_⟩
    · exact fdListAppend_outside h.rep done gone.outside other absent
    · have outside := gone.outside
      simp only [List.mem_append, List.mem_cons, List.not_mem_nil, or_false, not_or] at outside ⊢
      tauto

theorem FdState.remove (h : FdState nodes list front rear calls) (inside : f ∈ remaining calls) :
    ∃ nodes', fdListRemove nodes f = some nodes' ∧ FdState nodes' list front rear (calls ++ [.remove f]) := by
  have distinct := h.rep.links.nodup
  obtain ⟨once, _, apart⟩ := List.nodup_append.mp distinct
  obtain ⟨notFront, once⟩ := List.nodup_cons.mp once
  obtain ⟨nodes', done, rep, top, _⟩ := fdListRemove_spec h.rep inside
  obtain ⟨prev, next, others⟩ := fdListRemove_outside h.rep inside done
  refine ⟨nodes', done, ?_, fun g member => ?_⟩
  · rw [remaining_remove once]
    exact rep
  · rw [filterMap_concat, FdCall.removed, Option.toList_some, List.mem_append, List.mem_singleton] at member
    rw [filterMap_concat, FdCall.appended, Option.toList_none, List.append_nil, remaining_remove once]
    rcases member with old | rfl
    · obtain ⟨entered, gone⟩ := h.gone g old
      refine ⟨entered, gone.congr top.ge (others g gone.outside) fun again => gone.outside ?_⟩
      have shorter := List.erase_subset (a := f) (l := remaining calls)
      simp only [List.mem_append, List.mem_cons, List.not_mem_nil, or_false] at again ⊢
      exact again.imp (Or.imp_right fun member => shorter member) id
    · have entered := List.mem_of_mem_filter inside
      refine ⟨entered, ?_, fun again => ?_, prev, next⟩
      · rw [top]
        exact h.rep.allocated g (List.mem_append_left _ (List.mem_cons_of_mem _ inside))
      · simp only [List.mem_append, List.mem_cons, List.not_mem_nil, or_false] at again
        rcases again with (rfl | again) | rfl
        · exact notFront inside
        · exact once.not_mem_erase again
        · exact apart g (List.mem_cons_of_mem _ inside) g List.mem_cons_self rfl

/-! ### Runs -/

theorem FdState.wellFormed (h : FdState nodes list front rear calls) :
    WellFormed nodes list (remaining calls) (calls.filterMap FdCall.removed) := by
  have links := h.rep.links
  obtain ⟨frontEq, rearEq⟩ := h.rep.fronts
  have listed := h.rep.nodes_eq
  have back := h.rep.nodesBack_eq
  refine ⟨⟨front, rear, frontEq, rearEq, ?_, links.rear_next, listed, ?_⟩, ?_, ?_, ?_, ?_⟩
  · exact DList.front_prev links
  · rw [back, List.reverse_concat, List.reverse_cons]
    rfl
  · rw [listed]
    exact fun f member g link => links.next_prev member link
  · rw [listed]
    exact fun g member f link => links.prev_next member link
  · exact fun f member => (h.gone f member).2.unlinked
  · rw [listed]
    exact h.rep.getMaxFd_spec

/-- A call that is allowed follows no NULL pointer. -/
theorem FdState.apply (h : FdState nodes list front rear calls) {call : FdCall} (allowed : call.Allowed list nodes calls) :
    ∃ nodes', call.apply list nodes = some nodes' ∧ FdState nodes' list front rear (calls ++ [call]) := by
  have listed := h.rep.nodes_eq
  cases call with
  | create node => exact ⟨_, rfl, h.create node⟩
  | append new =>
    obtain ⟨allocated, absent, fresh⟩ := allowed
    rw [listed] at absent
    exact h.append allocated absent fresh
  | remove f =>
    obtain ⟨member, notFront, notRear⟩ := allowed
    obtain ⟨frontEq, rearEq⟩ := h.rep.fronts
    rw [listed] at member
    apply h.remove
    simp only [List.mem_append, List.mem_cons, List.not_mem_nil, or_false] at member
    rcases member with (rfl | inside) | rfl
    · exact absurd frontEq notFront
    · exact inside
    · exact absurd rearEq notRear

theorem FdReached.state {before : Heap FdNode} {maxClient : Nat} (reached : FdReached before maxClient calls nodes) :
    FdState nodes (newFdList before maxClient).2 before.top (before.top + 1) calls := by
  induction reached with
  | start => exact ⟨(newFdList_spec before maxClient).1, fun f member => absurd member List.not_mem_nil⟩
  | call call reached allowed done ih =>
    obtain ⟨nodes', applied, state⟩ := ih.apply allowed
    obtain rfl := Option.some.inj (applied.symm.trans done)
    exact state

end

/-- After every sequence of calls the list is well formed and holds what was appended and not removed, and
no call that may follow fails. -/
theorem fd_list_wellFormed {before nodes : Heap FdNode} {maxClient : Nat} {calls : List FdCall}
    (reached : FdReached before maxClient calls nodes) :
    WellFormed nodes (newFdList before maxClient).2 (remaining calls) (calls.filterMap FdCall.removed) ∧
      ∀ call : FdCall, call.Allowed (newFdList before maxClient).2 nodes calls →
        ∃ nodes', call.apply (newFdList before maxClient).2 nodes = some nodes' := by
  have state := reached.state
  refine ⟨state.wellFormed, fun call allowed => ?_⟩
  obtain ⟨nodes', applied, _⟩ := state.apply allowed
  exact ⟨nodes', applied⟩

/-- Of three nodes the one in the middle is removed. -/
theorem fd_list_three :
    ∃ nodes, WellFormed nodes (newFdList (.empty (newFdNode none none 3 .listen .reading none)) 10).2 [2, 4] [3] := by
  let node := newFdNode none none 3 .listen .reading none
  have empty : FdReached (.empty node) 10 [] _ := .start
  have one := empty.call (.create node) trivial rfl
  have two := one.call (.create node) trivial rfl
  have created := two.call (.create node) trivial rfl
  have first := created.call (.append 2) (by decide) rfl
  have second := first.call (.append 3) (by decide) rfl
  have third := second.call (.append 4) (by decide) rfl
  have removed := third.call (.remove 3) (by decide) rfl
  exact ⟨_, (fd_list_wellFormed removed).1⟩

end NetProjects.Proxy
