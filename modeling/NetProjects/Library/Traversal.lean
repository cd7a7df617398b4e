import Mathlib

/-!
# Traversal of a list that changes

A cursor goes down a list and comes to each element once. The element it stands at may be taken out,
and others put in before the last one, as long as the cursor moves to what followed it before.
-/

namespace NetProjects

/-- The cursor stands in `list` after it has come to `offered`; of the elements of `start` that are still in
`list` only those from the cursor on are left. -/
structure Walk {α : Type} (start list : List α) (cursor : Option α) (offered : List α) : Prop where
  place : ∃ before rest, list = before ++ rest ∧ rest.head? = cursor ∧ (∀ y ∈ rest, y ∉ offered) ∧
    ∀ y ∈ start, y ∈ list → y ∈ offered ∨ y ∈ rest
  once : offered.Nodup

/-- The cursor stands at `x`. -/
structure Walk.At {α : Type} (start before : List α) (x : α) (after offered : List α) : Prop where
  behind : x ∉ after
  fresh : x ∉ offered
  apart : ∀ y ∈ after, y ∉ offered
  left : ∀ y ∈ start, y ∈ before ++ x :: after → y ∈ offered ∨ y = x ∨ y ∈ after
  once : offered.Nodup

namespace Walk

variable {α : Type} {start list before after before' rest ys offered : List α} {cursor : Option α} {x last new : α}

theorem begin (list : List α) : Walk list list list.head? [] where
  place := ⟨[], list, rfl, rfl, fun _ _ => List.not_mem_nil, fun _ member _ => Or.inr member⟩
  once := List.nodup_nil

theorem standing (distinct : list.Nodup) (walk : Walk start list (some x) offered) :
    ∃ before after, list = before ++ x :: after ∧ At start before x after offered := by
  obtain ⟨before, rest, rfl, head, apart, left⟩ := walk.place
  obtain ⟨after, rfl⟩ := List.head?_eq_some_iff.mp head
  have behind := (List.nodup_cons.mp (List.nodup_append.mp distinct).2.1).1
  refine ⟨before, after, rfl, behind, apart x List.mem_cons_self, ?_, ?_, walk.once⟩
  · exact fun y member => apart y (List.mem_cons_of_mem _ member)
  · exact fun y inside member => (left y inside member).imp id List.mem_cons.mp

namespace At

/-- The cursor moves to what followed its element, in a list where nothing of `start` but that element is new or
missing from there on. -/
theorem goto (here : At start before x after offered) (head : rest.head? = after.head?)
    (rest_cases : ∀ y ∈ rest, y ∈ after ∨ y ∉ offered ∧ y ≠ x) (kept : ∀ y ∈ after, y ∈ rest)
    (old : ∀ y ∈ start, y ∈ before' ++ rest → y ∈ before ++ x :: after) :
    Walk start (before' ++ rest) after.head? (offered ++ [x]) where
  place := by
    refine ⟨before', rest, rfl, head, ?_, ?_⟩
    · intro y member
      rw [List.mem_append, List.mem_singleton, not_or]
      obtain later | ⟨notOffered, other⟩ := rest_cases y member
      · exact ⟨here.apart y later, fun same => here.behind (same ▸ later)⟩
      · exact ⟨notOffered, other⟩
    · intro y inside member
      rw [List.mem_append, List.mem_singleton]
      obtain offered | here | later := here.left y inside (old y inside member)
      · exact Or.inl (Or.inl offered)
      · exact Or.inl (Or.inr here)
      · exact Or.inr (kept y later)
  once := by
    rw [List.nodup_append]
    refine ⟨here.once, List.nodup_singleton x, fun y member z last same => here.fresh ?_⟩
    rw [List.mem_singleton.mp last] at same
    exact same ▸ member

theorem next (here : At start before x after offered) :
    Walk start (before ++ x :: after) after.head? (offered ++ [x]) := by
  rw [List.append_cons]
  apply here.goto rfl (fun y member => Or.inl member) (fun y member => member)
  intro y _ member
  rwa [List.append_cons]

theorem remove (here : At start before x after offered) : Walk start (before ++ after) after.head? (offered ++ [x]) := by
  apply here.goto rfl (fun y member => Or.inl member) (fun y member => member)
  intro y _ member
  exact (List.mem_append.mp member).elim (List.mem_append_left _) fun later =>
    List.mem_append_right _ (List.mem_cons_of_mem _ later)

/-- What is put in before the last element is not come to where the cursor has passed its place. -/
theorem insert {middle : List α} (here : At start before x (middle ++ [last]) offered) (unknown : new ∉ start)
    (notOffered : new ∉ offered) (other : new ≠ x) :
    Walk start (before ++ x :: (middle ++ [new, last])) (middle ++ [last]).head? (offered ++ [x]) := by
  have old : ∀ y ∈ start, y ∈ before ++ x :: (middle ++ [new, last]) → y ∈ before ++ x :: (middle ++ [last]) := by
    intro y inside member
    have known : y ≠ new := fun same => unknown (same ▸ inside)
    simp only [List.mem_append, List.mem_cons, List.not_mem_nil, or_false] at member ⊢
    tauto
  cases middle with
  | nil =>
    have split : before ++ x :: ([] ++ [new, last]) = (before ++ [x, new]) ++ [last] := by
      rw [List.append_assoc]
      rfl
    rw [split] at old ⊢
    exact here.goto rfl (fun y member => Or.inl member) (fun y member => member) old
  | cons z middle =>
    have split : before ++ x :: (z :: middle ++ [new, last]) = (before ++ [x]) ++ (z :: middle ++ [new, last]) :=
      List.append_cons before x _
    rw [split] at old ⊢
    have cases : ∀ y ∈ z :: middle ++ [new, last], y ∈ z :: middle ++ [last] ∨ y ∉ offered ∧ y ≠ x := by
      intro y member
      by_cases same : y = new
      · rw [same]
        exact Or.inr ⟨notOffered, other⟩
      · simp only [List.mem_append, List.mem_cons, List.not_mem_nil, or_false] at member ⊢
        tauto
    have kept : ∀ y ∈ z :: middle ++ [last], y ∈ z :: middle ++ [new, last] := by
      intro y member
      simp only [List.mem_append, List.mem_cons, List.not_mem_nil, or_false] at member ⊢
      tauto
    exact here.goto rfl cases kept old

end At

theorem before_last (split : before ++ x :: after = ys ++ [last]) (notLast : x ≠ last) :
    ∃ middle, after = middle ++ [last] ∧ ys = before ++ x :: middle := by
  obtain none | ⟨middle, z, rfl⟩ := List.eq_nil_or_concat after
  · subst none
    exact absurd (List.append_inj_right' split rfl) (by simpa using notLast)
  · rw [List.concat_eq_append, ← List.cons_append, ← List.append_assoc] at split
    obtain ⟨front, same⟩ := List.append_inj' split rfl
    exact ⟨middle, by rw [List.concat_eq_append, same], front.symm⟩

/-- A cursor at the end has come to everything that is left of the start. -/
theorem offers_all (walk : Walk start list none offered) : ∀ y ∈ start, y ∈ list → y ∈ offered := by
  obtain ⟨before, rest, rfl, head, _, left⟩ := walk.place
  obtain rfl := List.head?_eq_none_iff.mp head
  intro y inside member
  exact (left y inside member).resolve_right List.not_mem_nil

end Walk

end NetProjects
