import NetProjects.Library.Bytes

/-!
# Lines cut into blocks

A reader that takes at most `n` characters of a line at a time leaves an empty block behind a line
that fills its last one. When the blocks are still the lines: each line whole, or in pieces.
-/

namespace NetProjects.LineBlocks
open Bytes

variable {α : Type} (n : Nat)

/-- The blocks of a line, the last of which ends in front of its end of line. -/
def blocks (l : List α) : List (List α) := (List.range (l.length / n + 1)).map (chunk n l)

/-- The line fills its last block. -/
def Fills (l : List α) : Prop := l ≠ [] ∧ n ∣ l.length

instance (l : List α) : Decidable (Fills n l) :=
  decidable_of_iff (l.length ≠ 0 ∧ n ∣ l.length) (by rw [Fills, Ne, List.length_eq_zero_iff])

/-- The number of texts a line takes. -/
def count (l : List α) : Nat := if Fills n l then l.length / n else l.length / n + 1

def pieces (l : List α) : List (List α) := (List.range (count n l)).map (chunk n l)

/-- The texts are the line, or pieces of a line that is longer than a block. -/
def Cut (l : List α) (ts : List (List α)) : Prop :=
  ts = [l] ∨ n < l.length ∧ (∀ t ∈ ts, t ≠ []) ∧ ts.flatten = l

/-- The texts are those of the lines, in order. -/
def Sent (ls : List (List α)) (ts : List (List α)) : Prop :=
  ∃ groups, List.Forall₂ (Cut n) ls groups ∧ groups.flatten = ts

/-- Behind a line that fills its last block there are only empty lines. -/
def Quiet : List (List α) → Prop
  | [] => True
  | l :: ls => (Fills n l → ∀ l' ∈ ls, l' = []) ∧ Quiet ls

section

variable {n : Nat} {l : List α} {ls ts us rest : List (List α)}

theorem blocks_short (short : l.length < n) : blocks n l = [l] := by
  rw [blocks, Nat.div_eq_of_lt short, List.range_one, List.map_singleton, chunk, Nat.mul_zero, List.drop_zero,
    List.take_of_length_le short.le]

theorem blocks_long (pos : 0 < n) (long : n ≤ l.length) : blocks n l = l.take n :: blocks n (l.drop n) := by
  rw [blocks, blocks, Nat.div_eq_sub_div pos long, List.range_succ_eq_map, List.map_cons, List.map_map, List.length_drop]
  congr 1
  refine List.map_congr_left fun k _ => ?_
  change chunk n l (k + 1) = chunk n (l.drop n) k
  rw [chunk, chunk, List.drop_drop, Nat.mul_succ, Nat.add_comm]

theorem blocks_eq (pos : 0 < n) : blocks n l = pieces n l ++ if Fills n l then [[]] else [] := by
  rw [blocks, pieces, count]
  split
  · rename_i fills
    have ended : chunk n l (l.length / n) = [] := by
      rw [chunk_eq_nil_iff pos, Nat.mul_div_cancel' fills.2]
    rw [List.range_succ, List.map_append, List.map_singleton, ended]
  · rw [List.append_nil]

theorem count_pos (pos : 0 < n) : 0 < count n l := by
  unfold count
  split
  · rename_i fills
    exact Nat.div_pos (Nat.le_of_dvd (List.length_pos_iff.mpr fills.1) fills.2) pos
  · exact Nat.succ_pos _

theorem pieces_cons (pos : 0 < n) : ∃ more, pieces n l = l.take n :: more := by
  obtain ⟨m, size⟩ := Nat.exists_eq_succ_of_ne_zero (count_pos (l := l) pos).ne'
  rw [pieces, size, List.range_succ_eq_map, List.map_cons, chunk, Nat.mul_zero, List.drop_zero]
  exact ⟨_, rfl⟩

theorem pieces_short (pos : 0 < n) (short : l.length ≤ n) : pieces n l = [l] := by
  have one : count n l = 1 := by
    unfold count
    split
    · rename_i fills
      have whole := Nat.le_of_dvd (List.length_pos_iff.mpr fills.1) fills.2
      rw [Nat.le_antisymm short whole, Nat.div_self pos]
    · rename_i fills
      have less : l.length < n := by
        refine lt_of_le_of_ne short fun same => fills ⟨fun empty => ?_, dvd_of_eq same.symm⟩
        rw [empty, List.length_nil] at same
        omega
      rw [Nat.div_eq_of_lt less]
  rw [pieces, one, List.range_one, List.map_singleton, chunk, Nat.mul_zero, List.drop_zero, List.take_of_length_le short]

theorem pieces_nil (pos : 0 < n) : pieces n ([] : List α) = [[]] :=
  pieces_short pos (Nat.zero_le n : ([] : List α).length ≤ n)

theorem pieces_ne_nil (pos : 0 < n) (nonempty : l ≠ []) : ∀ t ∈ pieces n l, t ≠ [] := by
  intro t member
  obtain ⟨k, inside, rfl⟩ := List.mem_map.mp member
  rw [List.mem_range, count] at inside
  rw [Ne, chunk_eq_nil_iff pos, not_le]
  have whole := Nat.div_mul_le_self l.length n
  split at inside
  · calc n * k < n * (l.length / n) := Nat.mul_lt_mul_of_pos_left inside pos
      _ ≤ l.length := by rwa [Nat.mul_comm]
  · rename_i fills
    rcases Nat.lt_or_ge k (l.length / n) with early | last
    · calc n * k < n * (l.length / n) := Nat.mul_lt_mul_of_pos_left early pos
        _ ≤ l.length := by rwa [Nat.mul_comm]
    · obtain rfl : k = l.length / n := by omega
      refine lt_of_le_of_ne (by rwa [Nat.mul_comm]) fun same => fills ⟨nonempty, ?_⟩
      exact ⟨_, same.symm⟩

theorem flatten_pieces (pos : 0 < n) : (pieces n l).flatten = l := by
  rw [pieces, ← List.flatMap_def, flatMap_chunk]
  apply List.take_of_length_le
  unfold count
  split
  · rename_i fills
    exact (Nat.mul_div_cancel' fills.2).ge
  · exact (lt_blocks pos l.length).le

theorem cut_pieces (pos : 0 < n) : Cut n l (pieces n l) := by
  by_cases short : l.length ≤ n
  · exact Or.inl (pieces_short pos short)
  · refine Or.inr ⟨not_le.mp short, pieces_ne_nil pos ?_, flatten_pieces pos⟩
    rintro rfl
    exact short (Nat.zero_le n)

theorem eq_of_prefix_flatten (before : ts <+: us) (same : ts.flatten = us.flatten) (nonempty : ∀ t ∈ us, t ≠ []) :
    ts = us := by
  obtain ⟨more, rfl⟩ := before
  rw [List.flatten_append] at same
  have same : more.flatten = [] := List.append_cancel_left (same.symm.trans (List.append_nil _).symm)
  cases more with
  | nil => rw [List.append_nil]
  | cons t more =>
    rw [List.flatten_cons, List.append_eq_nil_iff] at same
    exact absurd same.1 (nonempty t (List.mem_append_right _ List.mem_cons_self))

/-- Where the reader's blocks start with texts of the line, these are the pieces. -/
theorem Cut.eq_pieces (pos : 0 < n) (cut : Cut n l ts) (before : ts <+: pieces n l ++ rest) : ts = pieces n l := by
  obtain ⟨more, first⟩ := pieces_cons (l := l) pos
  rcases cut with rfl | ⟨long, nonempty, whole⟩
  · rw [first, List.cons_append, List.prefix_cons_iff] at before
    obtain none | ⟨_, same, _⟩ := before
    · cases none
    · have short : l.length ≤ n := by
        have taken := congrArg List.length (List.cons.inj same).1
        rw [List.length_take] at taken
        omega
      exact (pieces_short pos short).symm
  · have filled : l ≠ [] := by
      rintro rfl
      exact absurd long (Nat.not_lt_zero n)
    have all : ts.flatten = (pieces n l).flatten := whole.trans (flatten_pieces pos).symm
    rcases List.prefix_or_prefix_of_prefix before (List.prefix_append (pieces n l) rest) with less | more
    · exact eq_of_prefix_flatten less all (pieces_ne_nil pos filled)
    · exact (eq_of_prefix_flatten more all.symm nonempty).symm

theorem sent_nil : Sent n ([] : List (List α)) ts ↔ ts = [] := by
  constructor
  · rintro ⟨groups, cuts, rfl⟩
    cases cuts
    rfl
  · rintro rfl
    exact ⟨[], .nil, rfl⟩

theorem sent_cons : Sent n (l :: ls) ts ↔ ∃ group more, Cut n l group ∧ Sent n ls more ∧ ts = group ++ more := by
  constructor
  · rintro ⟨groups, cuts, rfl⟩
    cases cuts with
    | @cons _ group _ groups cut cuts => exact ⟨group, groups.flatten, cut, ⟨groups, cuts, rfl⟩, rfl⟩
  · rintro ⟨group, _, cut, ⟨groups, cuts, rfl⟩, rfl⟩
    exact ⟨group :: groups, .cons cut cuts, rfl⟩

theorem sent_pieces (pos : 0 < n) : Sent n ls (ls.flatMap (pieces n)) := by
  induction ls with
  | nil => exact sent_nil.mpr rfl
  | cons l ls ih => exact sent_cons.mpr ⟨pieces n l, _, cut_pieces pos, ih, rfl⟩

theorem Cut.ne_nil (cut : Cut n l ts) : ts ≠ [] := by
  rintro rfl
  rcases cut with one | ⟨long, _, whole⟩
  · cases one
  · rw [← whole] at long
    exact absurd long (Nat.not_lt_zero n)

/-- Only empty lines are sent when the first text is empty. -/
theorem Cut.of_empty (cut : Cut n l ([] :: ts)) : l = [] ∧ ts = [] := by
  rcases cut with same | ⟨_, nonempty, _⟩
  · obtain ⟨rfl, rfl⟩ := List.cons.inj same
    exact ⟨rfl, rfl⟩
  · exact absurd rfl (nonempty [] List.mem_cons_self)

theorem not_fills_nil : ¬ Fills n ([] : List α) := fun fills => fills.1 rfl

theorem blocks_nil (pos : 0 < n) : blocks n ([] : List α) = [[]] := by
  rw [blocks_eq pos, if_neg not_fills_nil, List.append_nil, pieces_nil pos]

/-- The empty block behind a line is taken for the line behind it. -/
theorem sent_behind (pos : 0 < n) (sent : Sent n ls ts) (before : ts <+: [] :: (ls.flatMap (blocks n) ++ rest)) :
    (∀ l ∈ ls, l = []) ∧ ts = ls.flatMap (pieces n) := by
  induction ls generalizing ts with
  | nil => exact ⟨nofun, sent_nil.mp sent⟩
  | cons l ls ih =>
    obtain ⟨group, more, cut, later, rfl⟩ := sent_cons.mp sent
    obtain ⟨t, group, rfl⟩ := List.exists_cons_of_ne_nil cut.ne_nil
    rw [List.cons_append, List.cons_prefix_cons] at before
    obtain ⟨rfl, before⟩ := before
    obtain ⟨rfl, rfl⟩ := cut.of_empty
    rw [List.flatMap_cons, blocks_nil pos, List.nil_append, List.singleton_append, List.cons_append] at before
    obtain ⟨empty, rfl⟩ := ih later before
    refine ⟨fun l' member => ?_, ?_⟩
    · rcases List.mem_cons.mp member with rfl | behind
      · rfl
      · exact empty l' behind
    · rw [List.flatMap_cons, pieces_nil pos]

theorem quiet_of_empty (empty : ∀ l ∈ ls, l = []) : Quiet n ls := by
  induction ls with
  | nil => trivial
  | cons l ls ih =>
    exact ⟨fun _ l' member => empty l' (List.mem_cons_of_mem _ member),
      ih fun l' member => empty l' (List.mem_cons_of_mem _ member)⟩

theorem sent_exact (pos : 0 < n) (sent : Sent n ls ts) (before : ts <+: ls.flatMap (blocks n) ++ rest) :
    Quiet n ls ∧ ts = ls.flatMap (pieces n) := by
  induction ls generalizing ts with
  | nil => exact ⟨trivial, sent_nil.mp sent⟩
  | cons l ls ih =>
    obtain ⟨group, more, cut, later, rfl⟩ := sent_cons.mp sent
    rw [List.flatMap_cons, List.append_assoc, blocks_eq pos, List.append_assoc] at before
    obtain rfl := cut.eq_pieces pos ((List.prefix_append group more).trans before)
    rw [List.prefix_append_right_inj] at before
    by_cases fills : Fills n l
    · rw [if_pos fills] at before
      obtain ⟨empty, rfl⟩ := sent_behind pos later before
      exact ⟨⟨fun _ => empty, quiet_of_empty empty⟩, rfl⟩
    · rw [if_neg fills] at before
      obtain ⟨quiet, rfl⟩ := ih later before
      exact ⟨⟨fun filled => absurd filled fills, quiet⟩, rfl⟩

theorem pieces_prefix_blocks (pos : 0 < n) (quiet : Quiet n ls) : ls.flatMap (pieces n) <+: ls.flatMap (blocks n) := by
  induction ls with
  | nil => exact List.prefix_rfl
  | cons l ls ih =>
    obtain ⟨here, quiet⟩ := quiet
    rw [List.flatMap_cons, List.flatMap_cons, blocks_eq pos, List.append_assoc, List.prefix_append_right_inj]
    by_cases fills : Fills n l
    · -- One more empty text in front of empty texts is one more behind them.
      have shift : ∀ ls : List (List α), (∀ l ∈ ls, l = []) →
          [] :: ls.flatMap (blocks n) = ls.flatMap (pieces n) ++ [[]] := by
        intro ls empty
        induction ls with
        | nil => rfl
        | cons l ls ih =>
          obtain rfl := empty l List.mem_cons_self
          rw [List.flatMap_cons, List.flatMap_cons, blocks_nil pos, pieces_nil pos, List.append_assoc,
            ← ih fun l' member => empty l' (List.mem_cons_of_mem _ member)]
          rfl
      rw [if_pos fills, List.singleton_append, shift ls (here fills)]
      exact List.prefix_append _ _
    · rw [if_neg fills]
      exact ih quiet

theorem length_pieces : (ls.flatMap (pieces n)).length = (ls.map (count n)).sum := by
  rw [List.length_flatMap]
  simp only [pieces, List.length_map, List.length_range]

/-- The first so many blocks are the lines exactly when they are as many as the texts of the lines, and no line that
fills its last block has another text behind it. -/
theorem sent_iff (pos : 0 < n) (before : ts <+: ls.flatMap (blocks n) ++ rest) :
    Sent n ls ts ↔ Quiet n ls ∧ ts.length = (ls.map (count n)).sum := by
  constructor
  · intro sent
    obtain ⟨quiet, rfl⟩ := sent_exact pos sent before
    exact ⟨quiet, length_pieces⟩
  · rintro ⟨quiet, size⟩
    have same : ts = ls.flatMap (pieces n) := by
      have other := (pieces_prefix_blocks pos quiet).trans (List.prefix_append _ rest)
      have shorter := List.prefix_of_prefix_length_le before other (by rw [size, length_pieces])
      exact shorter.eq_of_length (by rw [size, length_pieces])
    rw [same]
    exact sent_pieces pos

theorem Sent.flatten (sent : Sent n ls ts) : ts.flatten = ls.flatten := by
  induction ls generalizing ts with
  | nil => rw [sent_nil.mp sent]
  | cons l ls ih =>
    obtain ⟨group, more, cut, later, rfl⟩ := sent_cons.mp sent
    have whole : group.flatten = l := by
      rcases cut with rfl | ⟨_, _, whole⟩
      · exact List.flatten_singleton
      · exact whole
    rw [List.flatten_append, List.flatten_cons, whole, ih later]

end

end NetProjects.LineBlocks
