import Mathlib

/-!
# Heaps of one kind of node

Addresses are handed out in order and never again. A freed node keeps its contents, so that what
reads it afterwards is visible.
-/

namespace NetProjects

structure Heap (α : Type) where
  cell : Nat → α
  top : Nat
  /-- The addresses freed so far, oldest first. -/
  freed : List Nat

namespace Heap

variable {α β : Type}

def empty (x : α) : Heap α := { cell := fun _ => x, top := 0, freed := [] }

def modify (h : Heap α) (a : Nat) (f : α → α) : Heap α :=
  { h with cell := fun b => if b = a then f (h.cell b) else h.cell b }

def alloc (h : Heap α) (x : α) : Heap α :=
  { h with cell := fun b => if b = h.top then x else h.cell b, top := h.top + 1 }

def free (h : Heap α) (a : Nat) : Heap α := { h with freed := h.freed ++ [a] }

variable (h : Heap α) (a b : Nat) (f : α → α) (x : α)

@[simp] theorem modify_top : (h.modify a f).top = h.top := rfl

@[simp] theorem modify_freed : (h.modify a f).freed = h.freed := rfl

@[simp] theorem modify_cell_self : (h.modify a f).cell a = f (h.cell a) := if_pos rfl

theorem modify_cell : (h.modify a f).cell b = if b = a then f (h.cell b) else h.cell b := rfl

theorem modify_cell_ne {a b : Nat} (other : b ≠ a) : (h.modify a f).cell b = h.cell b := if_neg other

theorem modify_field (g : α → β) (keeps : ∀ x, g (f x) = g x) :
    g ((h.modify a f).cell b) = g (h.cell b) := by
  rw [modify_cell]
  split
  · exact keeps _
  · rfl

@[simp] theorem alloc_top : (h.alloc x).top = h.top + 1 := rfl

@[simp] theorem alloc_freed : (h.alloc x).freed = h.freed := rfl

@[simp] theorem alloc_cell_top : (h.alloc x).cell h.top = x := if_pos rfl

theorem alloc_cell_old {h : Heap α} {b : Nat} (old : b < h.top) : (h.alloc x).cell b = h.cell b :=
  if_neg (Nat.ne_of_lt old)

@[simp] theorem free_cell : (h.free a).cell = h.cell := rfl

@[simp] theorem free_top : (h.free a).top = h.top := rfl

@[simp] theorem free_freed : (h.free a).freed = h.freed ++ [a] := rfl

end Heap

end NetProjects
