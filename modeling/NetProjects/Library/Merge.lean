import Mathlib

/-!
# Merges of lists

What comes of several writers that append to one list, each its own elements in its own order.
-/

namespace NetProjects

variable {α : Type}

/-- `whole` takes the elements of all the lists, one at a time and each list in its order. -/
inductive Merge : List (List α) → List α → Prop where
  | nil (n : Nat) : Merge (List.replicate n []) []
  | snoc {lists : List (List α)} {whole list : List α} {i : Nat} (x : α) (merge : Merge lists whole)
      (here : lists[i]? = some list) : Merge (lists.set i (list ++ [x])) (whole ++ [x])

namespace Merge

variable {lists : List (List α)} {whole list : List α} {i : Nat}

theorem set_same (here : lists[i]? = some list) : lists.set i list = lists := by
  obtain ⟨inside, rfl⟩ := List.getElem?_eq_some_iff.mp here
  exact List.set_getElem_self inside

theorem append (merge : Merge lists whole) (here : lists[i]? = some list) (more : List α) :
    Merge (lists.set i (list ++ more)) (whole ++ more) := by
  induction more using List.reverseRecOn with
  | nil =>
    rw [List.append_nil, List.append_nil, set_same here]
    exact merge
  | append_singleton more x ih =>
    have inside := (List.getElem?_eq_some_iff.mp here).1
    have step := Merge.snoc x ih (List.getElem?_set_self inside)
    rw [List.set_set, List.append_assoc, List.append_assoc] at step
    exact step

/-- A writer that has written nothing changes nothing. -/
theorem concat (merge : Merge lists whole) : Merge (lists ++ [[]]) whole := by
  induction merge with
  | nil n =>
    rw [show ([[]] : List (List α)) = List.replicate 1 [] from rfl, List.replicate_append_replicate]
    exact .nil (n + 1)
  | @snoc lists whole list i x _ here ih =>
    have inside := (List.getElem?_eq_some_iff.mp here).1
    have step := Merge.snoc x ih (by rw [List.getElem?_append_left inside]; exact here)
    rw [List.set_append_left _ _ inside] at step
    exact step

/-- The elements of every list are there in their order. -/
theorem sublist (merge : Merge lists whole) (here : lists[i]? = some list) : list.Sublist whole := by
  induction merge generalizing list with
  | nil n =>
    obtain ⟨inside, rfl⟩ := List.getElem?_eq_some_iff.mp here
    rw [List.getElem_replicate]
  | @snoc lists whole earlier k x _ there ih =>
    by_cases mine : k = i
    · subst mine
      rw [List.getElem?_set_self (List.getElem?_eq_some_iff.mp there).1] at here
      cases here
      exact (ih there).append_right [x]
    · rw [List.getElem?_set_ne mine] at here
      exact (ih here).trans (List.sublist_append_left whole [x])

/-- Where one list alone has elements, they are all there is. -/
theorem alone (merge : Merge lists whole) (here : lists[i]? = some list)
    (others : ∀ j other, j ≠ i → lists[j]? = some other → other = []) : whole = list := by
  induction merge generalizing list with
  | nil n =>
    obtain ⟨inside, rfl⟩ := List.getElem?_eq_some_iff.mp here
    rw [List.getElem_replicate]
  | @snoc lists whole earlier k x _ there ih =>
    have inside := (List.getElem?_eq_some_iff.mp there).1
    by_cases mine : k = i
    · subst mine
      rw [List.getElem?_set_self inside] at here
      cases here
      rw [ih there fun j other apart member => others j other apart (by rw [List.getElem?_set_ne apart.symm]; exact member)]
    · have empty := others k _ mine (List.getElem?_set_self inside)
      exact absurd empty (List.append_ne_nil_of_right_ne_nil _ (List.cons_ne_nil x []))

end Merge

end NetProjects
