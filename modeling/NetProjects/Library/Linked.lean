import Mathlib

/-!
# Doubly linked lists

Lists threaded through a `next` and a `prev` pointer of every node. The pointers are functions on
the nodes, so the lists live in any heap whose nodes have the two fields.
-/

namespace NetProjects.Linked

variable {ι : Type}

/-- From `p` the pointer `f` visits exactly `xs`, in order, and then stands at `q`. -/
def Seg (f : ι → Option ι) : Option ι → List ι → Option ι → Prop
  | p, [], q => p = q
  | p, x :: xs, q => p = some x ∧ Seg f (f x) xs q

def traverse (f : ι → Option ι) : Nat → Option ι → List ι
  | 0, _ => []
  | _ + 1, none => []
  | fuel + 1, some x => x :: traverse f fuel (f x)

section

variable {f g : ι → Option ι} {p q : Option ι} {x y : ι} {xs ys : List ι}

theorem Seg.append (left : Seg f p xs q) {r : Option ι} (right : Seg f q ys r) : Seg f p (xs ++ ys) r := by
  induction xs generalizing p with
  | nil =>
    obtain rfl : p = q := left
    exact right
  | cons x xs ih => exact ⟨left.1, ih left.2⟩

theorem Seg.split (h : Seg f p (xs ++ ys) q) : ∃ m, Seg f p xs m ∧ Seg f m ys q := by
  induction xs generalizing p with
  | nil => exact ⟨p, rfl, h⟩
  | cons x xs ih =>
    obtain ⟨m, left, right⟩ := ih h.2
    exact ⟨m, ⟨h.1, left⟩, right⟩

theorem Seg.split_at (h : Seg f p (xs ++ x :: ys) q) : Seg f p xs (some x) ∧ Seg f (f x) ys q := by
  obtain ⟨m, left, here, right⟩ := h.split
  exact ⟨here ▸ left, right⟩

theorem Seg.join_at (left : Seg f p xs (some x)) (right : Seg f (f x) ys q) : Seg f p (xs ++ x :: ys) q :=
  left.append ⟨rfl, right⟩

theorem Seg.congr (same : ∀ x ∈ xs, g x = f x) (h : Seg f p xs q) : Seg g p xs q := by
  induction xs generalizing p with
  | nil => exact h
  | cons x xs ih =>
    obtain ⟨here, others⟩ := List.forall_mem_cons.mp same
    exact ⟨h.1, ih others (here ▸ h.2)⟩

theorem Seg.unique (left : Seg f p xs none) (right : Seg f p ys none) : xs = ys := by
  induction xs generalizing p ys with
  | nil =>
    obtain rfl : p = none := left
    cases ys with
    | nil => rfl
    | cons y ys => cases right.1
  | cons x xs ih =>
    cases ys with
    | nil =>
      have ended : p = none := right
      rw [left.1] at ended
      cases ended
    | cons y ys =>
      obtain rfl : x = y := Option.some.inj (left.1.symm.trans right.1)
      rw [ih left.2 right.2]

/-- A list that ends visits no node twice. -/
theorem Seg.nodup (h : Seg f p xs none) : xs.Nodup := by
  induction xs generalizing p with
  | nil => exact List.nodup_nil
  | cons x xs ih =>
    refine List.nodup_cons.mpr ⟨fun again => ?_, ih h.2⟩
    obtain ⟨before, after, split⟩ := List.append_of_mem again
    have rest := h.2
    rw [split] at rest
    -- The list from the second visit on is the whole list, and shorter.
    have same := congrArg List.length (h.2.unique rest.split_at.2)
    rw [split, List.length_append, List.length_cons] at same
    omega

theorem Seg.traverse_eq (h : Seg f p xs none) {fuel : Nat} (enough : xs.length ≤ fuel) :
    traverse f fuel p = xs := by
  induction xs generalizing p fuel with
  | nil =>
    obtain rfl : p = none := h
    cases fuel <;> rfl
  | cons x xs ih =>
    cases fuel with
    | zero => exact absurd enough (Nat.not_succ_le_zero _)
    | succ fuel =>
      obtain ⟨rfl, rest⟩ := h
      rw [traverse, ih rest (Nat.le_of_succ_le_succ enough)]

theorem Seg.insert {b : ι} (h : Seg f p (xs ++ x :: b :: ys) none) (fromLeft : g x = some y)
    (toRight : g y = some b) (left : ∀ z ∈ xs, g z = f z) (right : ∀ z ∈ b :: ys, g z = f z) :
    Seg g p (xs ++ x :: y :: b :: ys) none := by
  obtain ⟨before, after⟩ := h.split_at
  refine (before.congr left).join_at ⟨fromLeft, ?_⟩
  have tail : Seg g (f x) (b :: ys) none := after.congr right
  rwa [toRight, ← after.1]

theorem Seg.skip (h : Seg f p (xs ++ x :: y :: ys) q) (fromLeft : g x = f y) (left : ∀ z ∈ xs, g z = f z)
    (right : ∀ z ∈ ys, g z = f z) : Seg g p (xs ++ x :: ys) q := by
  obtain ⟨before, _, after⟩ := h.split_at
  refine (before.congr left).join_at ?_
  rw [fromLeft]
  exact after.congr right

theorem Seg.extend (h : Seg f p (xs ++ [x]) none) (fromLast : g x = some y) (last : g y = none)
    (left : ∀ z ∈ xs, g z = f z) : Seg g p (xs ++ [x, y]) none :=
  (h.split_at.1.congr left).join_at ⟨fromLast, last⟩

theorem Seg.head (h : Seg f p xs none) : p = xs.head? := by
  cases xs with
  | nil => exact h
  | cons x xs => exact h.1

end

theorem length_le_of_below {xs : List Nat} {n : Nat} (distinct : xs.Nodup) (below : ∀ a ∈ xs, a < n) :
    xs.length ≤ n := by
  have inside : xs ⊆ List.range n := fun a member => List.mem_range.mpr (below a member)
  have shorter := (List.subperm_of_subset distinct inside).length_le
  rwa [List.length_range] at shorter

/-- Lists of addresses below `n` are traversed in `n` steps. -/
theorem traverse_below {f : Nat → Option Nat} {p : Option Nat} {xs : List Nat} {n : Nat} (h : Seg f p xs none)
    (below : ∀ a ∈ xs, a < n) : traverse f n p = xs :=
  h.traverse_eq (length_le_of_below h.nodup below)

/-- `next` from `front` and `prev` from `rear` visit the same nodes in opposite orders. -/
structure DList (next prev : ι → Option ι) (front rear : Option ι) (xs : List ι) : Prop where
  forward : Seg next front xs none
  backward : Seg prev rear xs.reverse none

namespace DList

variable {next prev next' prev' : ι → Option ι} {front rear : Option ι} {a b x : ι} {xs ys zs : List ι}

theorem nodup (h : DList next prev front rear xs) : xs.Nodup := h.forward.nodup

theorem congr (sameNext : ∀ x ∈ xs, next' x = next x) (samePrev : ∀ x ∈ xs, prev' x = prev x)
    (h : DList next prev front rear xs) : DList next' prev' front rear xs :=
  ⟨h.forward.congr sameNext, h.backward.congr fun x member => samePrev x (List.mem_reverse.mp member)⟩

theorem symm (h : DList next prev front rear xs) : DList prev next rear front xs.reverse :=
  ⟨h.backward, by rw [List.reverse_reverse]; exact h.forward⟩

theorem front_eq (h : DList next prev front rear (x :: xs)) : front = some x := h.forward.1

theorem rear_eq (h : DList next prev front rear (xs ++ [x])) : rear = some x := by
  have back := h.backward
  rw [List.reverse_concat] at back
  exact back.1

theorem reverse_pair (xs ys : List ι) (a b : ι) :
    (xs ++ a :: b :: ys).reverse = ys.reverse ++ b :: a :: xs.reverse := by
  simp only [List.reverse_append, List.reverse_cons, List.append_assoc, List.cons_append, List.nil_append]

theorem reverse_triple (xs ys : List ι) (a x b : ι) :
    (xs ++ a :: x :: b :: ys).reverse = ys.reverse ++ b :: x :: a :: xs.reverse := by
  simp only [List.reverse_append, List.reverse_cons, List.append_assoc, List.cons_append, List.nil_append]

theorem nodup_pair (distinct : (xs ++ a :: b :: ys).Nodup) :
    (∀ z ∈ xs, z ≠ a ∧ z ≠ b) ∧ (∀ z ∈ b :: ys, z ≠ a) ∧ (∀ z ∈ ys, z ≠ b) := by
  obtain ⟨_, tail, apart⟩ := List.nodup_append.mp distinct
  obtain ⟨aOutside, tail'⟩ := List.nodup_cons.mp tail
  refine ⟨fun z member => ⟨?_, ?_⟩, fun z member same => aOutside (same ▸ member), fun z member same => ?_⟩
  · exact apart z member a List.mem_cons_self
  · exact apart z member b (List.mem_cons_of_mem _ List.mem_cons_self)
  · exact (List.nodup_cons.mp tail').1 (same ▸ member)

theorem insert (h : DList next prev front rear (xs ++ a :: b :: ys)) (fresh : x ∉ xs ++ a :: b :: ys)
    (nextLeft : next' a = some x) (nextNew : next' x = some b) (prevNew : prev' x = some a)
    (prevRight : prev' b = some x) (sameNext : ∀ z, z ≠ a → z ≠ x → next' z = next z)
    (samePrev : ∀ z, z ≠ b → z ≠ x → prev' z = prev z) :
    DList next' prev' front rear (xs ++ a :: x :: b :: ys) := by
  obtain ⟨left, notLeft, right⟩ := nodup_pair h.nodup
  have other : ∀ z ∈ xs ++ a :: b :: ys, z ≠ x := fun z member same => fresh (same ▸ member)
  have otherLeft : ∀ z ∈ xs, z ≠ x := fun z member => other z (List.mem_append_left _ member)
  have otherRight : ∀ z ∈ a :: b :: ys, z ≠ x := fun z member => other z (List.mem_append_right _ member)
  constructor
  · refine h.forward.insert nextLeft nextNew (fun z member => ?_) (fun z member => ?_)
    · exact sameNext z (left z member).1 (otherLeft z member)
    · exact sameNext z (notLeft z member) (otherRight z (List.mem_cons_of_mem _ member))
  · have back := h.backward
    rw [reverse_pair] at back
    rw [reverse_triple]
    refine back.insert prevRight prevNew (fun z member => ?_) (fun z member => ?_)
    · have inside := List.mem_reverse.mp member
      exact samePrev z (right z inside)
        (otherRight z (List.mem_cons_of_mem _ (List.mem_cons_of_mem _ inside)))
    · rcases List.mem_cons.mp member with rfl | inside
      · exact samePrev z (notLeft b List.mem_cons_self).symm (otherRight z List.mem_cons_self)
      · have inside := List.mem_reverse.mp inside
        exact samePrev z (left z inside).2 (otherLeft z inside)

theorem neighbours (h : DList next prev front rear (xs ++ a :: x :: b :: ys)) :
    next x = some b ∧ prev x = some a := by
  have back := h.backward
  rw [reverse_triple] at back
  exact ⟨h.forward.split_at.2.2.1, back.split_at.2.2.1⟩

theorem remove (h : DList next prev front rear (xs ++ a :: x :: b :: ys)) (nextLeft : next' a = some b)
    (prevRight : prev' b = some a) (sameNext : ∀ z, z ≠ a → z ≠ x → next' z = next z)
    (samePrev : ∀ z, z ≠ b → z ≠ x → prev' z = prev z) :
    DList next' prev' front rear (xs ++ a :: b :: ys) := by
  obtain ⟨next, prev⟩ := h.neighbours
  have distinct := h.nodup
  obtain ⟨leftA, notA, _⟩ := nodup_pair distinct
  rw [List.append_cons] at distinct
  obtain ⟨leftX, notX, rightB⟩ := nodup_pair distinct
  constructor
  · refine h.forward.skip (nextLeft.trans next.symm) (fun z member => ?_) (fun z member => ?_)
    · exact sameNext z (leftA z member).1 (leftA z member).2
    · exact sameNext z (notA z (List.mem_cons_of_mem _ member)) (notX z member)
  · have back := h.backward
    rw [reverse_triple] at back
    rw [reverse_pair]
    refine back.skip (prevRight.trans prev.symm) (fun z member => ?_) (fun z member => ?_)
    · have inside := List.mem_reverse.mp member
      exact samePrev z (rightB z inside) (notX z (List.mem_cons_of_mem _ inside))
    · have inside : z ∈ xs ++ [a] := by
        rw [← List.mem_reverse, List.reverse_concat]
        exact member
      exact samePrev z (leftX z inside).2 (leftX z inside).1

theorem pushFront (h : DList next prev front rear (a :: xs)) (fresh : x ∉ a :: xs)
    (nextNew : next' x = some a) (prevNew : prev' x = none) (prevFront : prev' a = some x)
    (sameNext : ∀ z, z ≠ x → next' z = next z) (samePrev : ∀ z, z ≠ a → z ≠ x → prev' z = prev z) :
    DList next' prev' (some x) rear (x :: a :: xs) := by
  have other : ∀ z ∈ a :: xs, z ≠ x := fun z member same => fresh (same ▸ member)
  have aFirst : ∀ z ∈ xs, z ≠ a := fun z member same => (List.nodup_cons.mp h.nodup).1 (same ▸ member)
  constructor
  · refine ⟨rfl, ?_⟩
    have tail : Seg next' front (a :: xs) none := h.forward.congr fun z member => sameNext z (other z member)
    rwa [nextNew, ← h.front_eq]
  · have back := h.backward
    rw [List.reverse_cons] at back
    rw [List.reverse_cons, List.reverse_cons, List.append_assoc]
    obtain ⟨before, _⟩ := back.split_at
    refine Seg.join_at (before.congr fun z member => ?_) ⟨prevFront, prevNew⟩
    have inside := List.mem_reverse.mp member
    exact samePrev z (aFirst z inside) (other z (List.mem_cons_of_mem _ inside))

theorem pushRear (h : DList next prev front rear (xs ++ [a])) (fresh : x ∉ xs ++ [a])
    (nextNew : next' x = none) (prevNew : prev' x = some a) (nextRear : next' a = some x)
    (sameNext : ∀ z, z ≠ a → z ≠ x → next' z = next z) (samePrev : ∀ z, z ≠ x → prev' z = prev z) :
    DList next' prev' front (some x) (xs ++ [a, x]) := by
  have back := h.symm
  rw [List.reverse_concat] at back
  have fresh' : x ∉ a :: xs.reverse := by
    rwa [← List.reverse_concat, List.mem_reverse]
  have pushed := (back.pushFront fresh' prevNew nextNew nextRear samePrev sameNext).symm
  rwa [List.reverse_cons, List.reverse_cons, List.reverse_reverse, List.append_assoc] at pushed

theorem mem_before_rear (h : DList next prev front rear (xs ++ [a, b])) (member : x ∈ xs ++ [a]) :
    x ∈ xs ++ [a, b] ∧ x ≠ b := by
  obtain ⟨left, notA, _⟩ := nodup_pair h.nodup
  rcases List.mem_append.mp member with inside | here
  · exact ⟨List.mem_append_left _ inside, (left x inside).2⟩
  · obtain rfl := List.mem_singleton.mp here
    exact ⟨List.mem_append_right _ List.mem_cons_self, (notA b List.mem_cons_self).symm⟩

theorem dropRear (h : DList next prev front rear (xs ++ [a, b])) (nextLast : next' a = none)
    (sameNext : ∀ z, z ≠ a → z ≠ b → next' z = next z) (samePrev : ∀ z, z ≠ b → prev' z = prev z) :
    DList next' prev' front (some a) (xs ++ [a]) := by
  obtain ⟨left, notA, _⟩ := nodup_pair h.nodup
  constructor
  · refine Seg.join_at (h.forward.split_at.1.congr fun z member => ?_) nextLast
    exact sameNext z (left z member).1 (left z member).2
  · have back := h.backward
    rw [reverse_pair] at back
    rw [List.reverse_concat]
    have rest : Seg prev (prev b) (a :: xs.reverse) none := back.2
    rw [← rest.1]
    refine rest.congr fun z member => samePrev z ?_
    rcases List.mem_cons.mp member with rfl | inside
    · exact (notA b List.mem_cons_self).symm
    · exact (left z (List.mem_reverse.mp inside)).2

theorem rear_eq_pair (h : DList next prev front rear (xs ++ [a, b])) : rear = some b := by
  rw [List.append_cons] at h
  exact h.rear_eq

theorem pair (h : DList next prev front rear (xs ++ a :: b :: ys)) : next a = some b ∧ prev b = some a := by
  have back := h.backward
  rw [reverse_pair] at back
  exact ⟨h.forward.split_at.2.1, back.split_at.2.1⟩

theorem rear_prev (h : DList next prev front rear (xs ++ [a, b])) : prev b = some a := h.pair.2

theorem rear_next (h : DList next prev front rear (xs ++ [x])) : next x = none := h.forward.split_at.2

theorem front_prev (h : DList next prev front rear (x :: xs)) : prev x = none := by
  have back := h.symm
  rw [List.reverse_cons] at back
  exact back.rear_next

/-- Every link is the inverse of a link back. -/
theorem next_prev (h : DList next prev front rear xs) (member : a ∈ xs) (link : next a = some b) :
    b ∈ xs ∧ prev b = some a := by
  obtain ⟨before, after, rfl⟩ := List.append_of_mem member
  have following : next a = after.head? := h.forward.split_at.2.head
  rw [link] at following
  obtain ⟨after, rfl⟩ := List.head?_eq_some_iff.mp following.symm
  exact ⟨List.mem_append_right _ (List.mem_cons_of_mem _ List.mem_cons_self), h.pair.2⟩

theorem prev_next (h : DList next prev front rear xs) (member : b ∈ xs) (link : prev b = some a) :
    a ∈ xs ∧ next a = some b := by
  obtain ⟨inside, back⟩ := h.symm.next_prev (List.mem_reverse.mpr member) link
  exact ⟨List.mem_reverse.mp inside, back⟩

end DList

end NetProjects.Linked
