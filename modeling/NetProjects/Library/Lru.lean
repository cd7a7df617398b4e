import Mathlib

/-!
# Least recently used

A queue is in order when what was used later is nearer its front. Such a queue evicts, at its rear,
what was used longest ago.
-/

namespace NetProjects.Lru

variable {α : Type} [DecidableEq α]

/-- When `a` was last used, counted from 1, and 0 where it never was. -/
def lastUse (uses : List α) (a : α) : Nat := uses.length - uses.reverse.idxOf a

def InOrder (uses queue : List α) : Prop := queue.Pairwise fun a b => lastUse uses b < lastUse uses a

instance (uses queue : List α) : Decidable (InOrder uses queue) := inferInstanceAs (Decidable (List.Pairwise _ _))

variable {uses queue rest : List α} {a b : α}

theorem lastUse_le (uses : List α) (a : α) : lastUse uses a ≤ uses.length := Nat.sub_le _ _

theorem lastUse_used (uses : List α) (a : α) : lastUse (uses ++ [a]) a = uses.length + 1 := by
  rw [lastUse, List.reverse_append, List.reverse_singleton, List.singleton_append, List.idxOf_cons_self,
    List.length_append, List.length_singleton, Nat.sub_zero]

theorem lastUse_other (other : b ≠ a) : lastUse (uses ++ [a]) b = lastUse uses b := by
  rw [lastUse, lastUse, List.reverse_append, List.reverse_singleton, List.singleton_append,
    List.idxOf_cons_ne _ other.symm, List.length_append, List.length_singleton]
  omega

theorem InOrder.nodup (order : InOrder uses queue) : queue.Nodup :=
  order.imp fun later same => by
    subst same
    exact Nat.lt_irrefl _ later

theorem InOrder.sublist (order : InOrder uses queue) (fewer : rest.Sublist queue) : InOrder uses rest :=
  List.Pairwise.sublist fewer order

/-- A use at the front keeps the order. -/
theorem InOrder.use (order : InOrder uses rest) (outside : a ∉ rest) : InOrder (uses ++ [a]) (a :: rest) := by
  have other : ∀ b ∈ rest, b ≠ a := by
    rintro b member rfl
    exact outside member
  refine List.pairwise_cons.mpr ⟨fun b member => ?_, ?_⟩
  · rw [lastUse_used, lastUse_other (other b member)]
    exact Nat.lt_succ_of_le (lastUse_le uses b)
  · refine order.imp_of_mem fun memberB memberC later => ?_
    rwa [lastUse_other (other _ memberB), lastUse_other (other _ memberC)]

/-- In order, what was used last is at the front. -/
theorem InOrder.front (order : InOrder (uses ++ [a]) queue) (member : a ∈ queue) : queue.head? = some a := by
  cases queue with
  | nil => cases member
  | cons b rest =>
    rcases List.mem_cons.mp member with rfl | later
    · rfl
    · have less := (List.pairwise_cons.mp order).1 a later
      have most := lastUse_le (uses ++ [a]) b
      rw [List.length_append, List.length_singleton] at most
      rw [lastUse_used] at less
      omega

/-- In order, what is at the rear was used longest ago. -/
theorem InOrder.rear (order : InOrder uses (rest ++ [b])) (member : a ∈ rest) : lastUse uses b < lastUse uses a :=
  (List.pairwise_append.mp order).2.2 a member b List.mem_cons_self

end NetProjects.Lru
