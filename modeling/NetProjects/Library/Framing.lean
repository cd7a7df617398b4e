import Mathlib

/-!
# Messages of one size in a byte stream

A stream of units of `n` bytes is delivered in pieces. Where there are as many pieces as units and
each piece agrees with the unit of its number, every piece is one unit: units whose first byte does
not occur in their second half cannot be mistaken for each other at another place of the stream.
-/

namespace NetProjects.Framing

variable {α : Type}

/-- Where piece `i` starts in the stream. -/
def start (pieces : List (List α)) (i : Nat) : Nat := (pieces.take i).flatten.length

/-- A unit of `n` bytes starts with `lead`, which is not in it from place `h` on. -/
structure Marked (lead : α) (h n : Nat) (u : List α) : Prop where
  length : u.length = n
  head : u[0]? = some lead
  tail : ∀ j, h ≤ j → u[j]? ≠ some lead

variable {lead : α} {h n i j k d : Nat} {pieces units : List (List α)} {p u : List α}

theorem start_length (pieces : List (List α)) : start pieces pieces.length = pieces.flatten.length := by
  rw [start, List.take_length]

theorem start_succ (at_i : pieces[i]? = some p) : start pieces (i + 1) = start pieces i + p.length := by
  rw [start, start, List.take_add_one, at_i, Option.toList_some, List.flatten_append, List.length_append,
    List.flatten_singleton]

theorem getElem?_piece (at_i : pieces[i]? = some p) (inside : j < p.length) :
    pieces.flatten[start pieces i + j]? = p[j]? := by
  obtain ⟨lower, rfl⟩ := List.getElem?_eq_some_iff.mp at_i
  have split : pieces.flatten = (pieces.take i).flatten ++ (pieces[i] ++ (pieces.drop (i + 1)).flatten) := by
    rw [← List.flatten_cons, ← List.drop_eq_getElem_cons lower, ← List.flatten_append, List.take_append_drop]
  rw [split, start, List.getElem?_append_right (Nat.le_add_right _ _), Nat.add_sub_cancel_left,
    List.getElem?_append_left inside]

theorem length_flatten_of_uniform (uniform : ∀ u ∈ units, u.length = n) : units.flatten.length = n * units.length := by
  rw [List.length_flatten, List.map_congr_left uniform, List.map_const', List.sum_replicate, smul_eq_mul, Nat.mul_comm]

theorem start_of_uniform (uniform : ∀ u ∈ units, u.length = n) (inside : k ≤ units.length) : start units k = n * k := by
  rw [start, length_flatten_of_uniform fun u member => uniform u (List.mem_of_mem_take member), List.length_take,
    Nat.min_eq_left inside]

theorem getElem?_unit (uniform : ∀ u ∈ units, u.length = n) (at_k : units[k]? = some u) (inside : d < n) :
    units.flatten[n * k + d]? = u[d]? := by
  obtain ⟨lower, _⟩ := List.getElem?_eq_some_iff.mp at_k
  rw [← start_of_uniform uniform lower.le]
  apply getElem?_piece at_k
  rwa [uniform u (List.mem_of_getElem? at_k)]

/-- A function that reaches `n` in `n` steps of at most one takes no other way. -/
theorem eq_of_steps {f : Nat → Nat} {n : Nat} (first : f 0 = 0) (last : f n = n)
    (steps : ∀ i, i < n → f (i + 1) ≤ f i + 1) {i : Nat} (inside : i ≤ n) : f i = i := by
  have upper : ∀ i, i ≤ n → f i ≤ i := by
    intro i inside
    induction i with
    | zero => exact first.le
    | succ i ih => exact (steps i inside).trans (Nat.succ_le_succ (ih (Nat.le_of_succ_le inside)))
  have lower : ∀ m i, i + m = n → i ≤ f i := by
    intro m
    induction m with
    | zero =>
      rintro i rfl
      exact last.ge
    | succ m ih =>
      intro i more
      have next := ih (i + 1) (by omega)
      have step := steps i (by omega)
      omega
  exact (upper i inside).antisymm (lower (n - i) i (by omega))

/-! ### Pieces that agree with the units -/

/-- The pieces of a stream of units, as many as there are units, each of them equal to the unit of
its number as far as it goes. -/
structure Agrees (lead : α) (h n : Nat) (pieces units : List (List α)) : Prop where
  marked : ∀ u ∈ units, Marked lead h n u
  half : 0 < h ∧ 2 * h ≤ n
  stream : pieces.flatten = units.flatten
  count : pieces.length = units.length
  short : ∀ p ∈ pieces, 0 < p.length ∧ p.length < 2 * n
  same : ∀ (i : Nat) (p u : List α), pieces[i]? = some p → units[i]? = some u → ∀ j < p.length, j < n → p[j]? = u[j]?

namespace Agrees

theorem uniform (a : Agrees lead h n pieces units) : ∀ u ∈ units, u.length = n := fun u member => (a.marked u member).length

theorem total (a : Agrees lead h n pieces units) : start pieces units.length = n * units.length := by
  rw [← a.count, start_length, a.stream, length_flatten_of_uniform a.uniform, a.count]

theorem start_le (a : Agrees lead h n pieces units) (i : Nat) : start pieces i ≤ n * units.length := by
  rw [← length_flatten_of_uniform a.uniform, ← a.stream]
  exact ((List.take_sublist i pieces).flatten).length_le

/-- The byte `j` of piece `i`, seen in the unit `k` it lies in. -/
theorem byte (a : Agrees lead h n pieces units) (at_i : pieces[i]? = some p) (inside : j < p.length)
    (place : start pieces i + j = n * k + d) (lower : d < n) :
    ∃ u, units[k]? = some u ∧ u[d]? = p[j]? := by
  have more := a.start_le (i + 1)
  rw [start_succ at_i] at more
  have within : k < units.length := by
    by_contra beyond
    have := Nat.mul_le_mul_left n (Nat.le_of_not_lt beyond)
    omega
  refine ⟨units[k], List.getElem?_eq_getElem within, ?_⟩
  rw [← getElem?_piece at_i inside, a.stream, place,
    getElem?_unit a.uniform (List.getElem?_eq_getElem within) lower]

/-- A piece that starts inside a unit starts in its first half and ends with it at the latest. -/
theorem inside (a : Agrees lead h n pieces units) (at_i : pieces[i]? = some p) (within : i < units.length)
    (place : start pieces i = n * k + d) (pos : 0 < d) (lower : d < n) : d < h ∧ p.length ≤ n - d := by
  have mine := a.marked _ (List.getElem_mem within)
  have same := a.same i p _ at_i (List.getElem?_eq_getElem within)
  obtain ⟨nonempty, _⟩ := a.short p (List.mem_of_getElem? at_i)
  obtain ⟨halfPos, half⟩ := a.half
  have first : d < h := by
    obtain ⟨u, at_k, byte⟩ := a.byte at_i nonempty (by rw [Nat.add_zero]; exact place) lower
    rw [same 0 nonempty (by omega), mine.head] at byte
    by_contra late
    exact (a.marked u (List.mem_of_getElem? at_k)).tail d (Nat.le_of_not_lt late) byte
  refine ⟨first, ?_⟩
  by_contra long
  -- The piece would hold the first byte of the next unit in its second half.
  have longer : n - d < p.length := Nat.lt_of_not_le long
  have next : start pieces i + (n - d) = n * (k + 1) + 0 := by rw [Nat.mul_succ]; omega
  obtain ⟨u, at_k, byte⟩ := a.byte at_i longer next (by omega)
  rw [same (n - d) longer (by omega), (a.marked u (List.mem_of_getElem? at_k)).head] at byte
  exact mine.tail (n - d) (by omega) byte.symm

theorem piece (a : Agrees lead h n pieces units) (within : i < units.length) : ∃ p, pieces[i]? = some p :=
  ⟨_, List.getElem?_eq_getElem (within.trans_eq a.count.symm)⟩

/-- Piece `i` starts in unit `i`. -/
theorem start_div (a : Agrees lead h n pieces units) (within : i ≤ units.length) : start pieces i / n = i := by
  obtain ⟨halfPos, half⟩ := a.half
  have pos : 0 < n := by omega
  refine eq_of_steps (f := fun i => start pieces i / n) (Nat.zero_div n) ?_ (fun i within => ?_) within
  · rw [a.total, Nat.mul_div_cancel_left _ pos]
  · obtain ⟨p, at_i⟩ := a.piece within
    have place := (Nat.div_add_mod (start pieces i) n).symm
    have lower := Nat.mod_lt (start pieces i) pos
    rw [start_succ at_i, ← Nat.lt_add_one_iff, Nat.div_lt_iff_lt_mul pos]
    have split : (start pieces i / n + 1 + 1) * n = n * (start pieces i / n) + n + n := by ring
    rcases Nat.eq_zero_or_pos (start pieces i % n) with aligned | offset
    · have := (a.short p (List.mem_of_getElem? at_i)).2
      omega
    · have := (a.inside at_i within place offset lower).2
      omega

/-- A piece that starts inside its unit would make the first byte of the unit occur again and again. -/
theorem repeats (a : Agrees lead h n pieces units) (at_i : pieces[i]? = some p) (at_u : units[i]? = some u)
    (place : start pieces i = n * i + d) (rest : p.length = n - d) (t : Nat) (lower : t * d < n) :
    u[t * d]? = some lead := by
  induction t with
  | zero =>
    rw [Nat.zero_mul]
    exact (a.marked u (List.mem_of_getElem? at_u)).head
  | succ t ih =>
    rw [Nat.succ_mul] at lower ⊢
    have inside : t * d < p.length := by omega
    obtain ⟨u', at_u', byte⟩ := a.byte at_i inside (k := i) (d := t * d + d) (by omega) lower
    obtain rfl : u = u' := Option.some.inj (at_u.symm.trans at_u')
    rw [byte, a.same i p u at_i at_u _ inside (by omega), ih (by omega)]

theorem start_eq (a : Agrees lead h n pieces units) (within : i ≤ units.length) : start pieces i = n * i := by
  obtain ⟨halfPos, half⟩ := a.half
  have pos : 0 < n := by omega
  rcases Nat.lt_or_eq_of_le within with within | rfl
  swap
  · exact a.total
  have place := Nat.div_add_mod (start pieces i) n
  rw [a.start_div within.le] at place
  have lower := Nat.mod_lt (start pieces i) pos
  rcases Nat.eq_zero_or_pos (start pieces i % n) with aligned | offset
  · omega
  exfalso
  obtain ⟨p, at_i⟩ := a.piece within
  have at_u := List.getElem?_eq_getElem within
  obtain ⟨first, ends⟩ := a.inside at_i within place.symm offset lower
  have next : n * (i + 1) ≤ start pieces (i + 1) := by
    have := Nat.div_mul_le_self (start pieces (i + 1)) n
    rw [a.start_div within] at this
    rwa [Nat.mul_comm]
  rw [start_succ at_i, Nat.mul_succ] at next
  have rest : p.length = n - start pieces i % n := by omega
  -- Some multiple of the offset lies in the second half.
  have below : h ≤ (h / (start pieces i % n) + 1) * (start pieces i % n) := by
    have := Nat.lt_div_mul_add (a := h) offset
    rw [Nat.succ_mul]
    omega
  have above : (h / (start pieces i % n) + 1) * (start pieces i % n) < n := by
    have := Nat.div_mul_le_self h (start pieces i % n)
    rw [Nat.succ_mul]
    omega
  exact (a.marked _ (List.getElem_mem within)).tail _ below (a.repeats at_i at_u place.symm rest _ above)

theorem whole (a : Agrees lead h n pieces units) : ∀ p ∈ pieces, p.length = n := by
  intro p member
  obtain ⟨i, at_i⟩ := List.mem_iff_getElem?.mp member
  have within : i < units.length := by
    rw [← a.count]
    exact (List.getElem?_eq_some_iff.mp at_i).1
  have here := a.start_eq within.le
  have next := a.start_eq within
  rw [start_succ at_i, Nat.mul_succ] at next
  omega

end Agrees

/-- As many pieces as units, none longer than a unit, are all whole. -/
theorem whole_of_count (uniform : ∀ u ∈ units, u.length = n) (stream : pieces.flatten = units.flatten)
    (count : pieces.length = units.length) (short : ∀ p ∈ pieces, p.length ≤ n) : ∀ p ∈ pieces, p.length = n := by
  intro p member
  by_contra cut
  have less : (pieces.map List.length).sum < (pieces.map fun _ => n).sum :=
    List.sum_lt_sum _ _ short ⟨p, member, Nat.lt_of_le_of_ne (short p member) cut⟩
  rw [← List.length_flatten, stream, length_flatten_of_uniform uniform, List.map_const', List.sum_replicate, count,
    smul_eq_mul, Nat.mul_comm] at less
  exact Nat.lt_irrefl _ less

theorem eq_of_whole (pos : 0 < n) (uniform : ∀ u ∈ units, u.length = n) (stream : pieces.flatten = units.flatten)
    (whole : ∀ p ∈ pieces, p.length = n) : pieces = units := by
  have total := congrArg List.length stream
  rw [length_flatten_of_uniform whole, length_flatten_of_uniform uniform] at total
  refine List.eq_iff_flatten_eq.mpr ⟨stream, ?_⟩
  rw [List.map_congr_left whole, List.map_congr_left uniform, List.map_const', List.map_const',
    Nat.eq_of_mul_eq_mul_left pos total]

end NetProjects.Framing
