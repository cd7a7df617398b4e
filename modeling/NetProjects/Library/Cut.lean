import Mathlib

/-!
# Streams cut into pieces

A stream is delivered in pieces of at most `limit` units, none of them empty.
-/

namespace NetProjects

structure Cut {α : Type} (limit : Nat) (stream : List α) where
  pieces : List (List α)
  joined : pieces.flatten = stream
  sizes : ∀ piece ∈ pieces, piece ≠ [] ∧ piece.length ≤ limit

namespace Cut

variable {α : Type} {limit : Nat} {stream piece : List α}

theorem flatten_singletons (stream : List α) : (stream.map fun a => [a]).flatten = stream := by
  rw [← List.flatMap_def, List.flatMap_singleton']

theorem singletons_sizes (pos : 0 < limit) : ∀ piece ∈ stream.map fun a => [a], piece ≠ [] ∧ piece.length ≤ limit := by
  intro piece member
  obtain ⟨a, _, rfl⟩ := List.mem_map.mp member
  exact ⟨List.cons_ne_nil _ _, pos⟩

/-- The finest cut. -/
def finest (pos : 0 < limit) (stream : List α) : Cut limit stream :=
  { pieces := stream.map fun a => [a]
    joined := flatten_singletons stream
    sizes := singletons_sizes pos }

/-- A first piece, and then the finest cut of the rest. -/
def startingWith (piece rest : List α) (some : piece ≠ []) (fits : piece.length ≤ limit) : Cut limit (piece ++ rest) :=
  { pieces := piece :: rest.map fun a => [a]
    joined := by rw [List.flatten_cons, flatten_singletons]
    sizes := by
      have pos : 0 < limit := (List.length_pos_iff.mpr some).trans_le fits
      exact List.forall_mem_cons.mpr ⟨⟨some, fits⟩, singletons_sizes pos⟩ }

/-- A cut starts with a piece that the stream starts with, unless the stream is empty. -/
theorem first (cut : Cut limit stream) : cut.pieces = [] ∧ stream = [] ∨
    ∃ piece pieces, cut.pieces = piece :: pieces ∧ piece <+: stream ∧ piece ≠ [] ∧ piece.length ≤ limit := by
  obtain ⟨pieces, joined, sizes⟩ := cut
  cases pieces with
  | nil => exact .inl ⟨rfl, joined.symm⟩
  | cons piece pieces =>
    obtain ⟨some, fits⟩ := sizes piece List.mem_cons_self
    exact .inr ⟨piece, pieces, rfl, ⟨pieces.flatten, joined⟩, some, fits⟩

end Cut

end NetProjects
