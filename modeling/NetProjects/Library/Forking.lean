import Mathlib

/-!
# Processes forked over a store

A parent forks a process for each message it takes. The processes take their steps one at a time, in
any order, and a step of one sees and changes the entry of the store that the process owns. What each
process relies on holds in every run when no step of another one can break it.
-/

namespace NetProjects

structure Forking (κ φ β π : Type) where
  store : κ → φ
  parent : β
  children : List π

inductive Forking.Action (μ α : Type) where
  | parent (m : μ)
  | child (i : Nat) (a : α)

/-- What the parent makes of a message, and a process of an action. -/
structure Forker (κ φ β μ π α : Type) where
  own : π → κ
  fork : β → μ → Option (β × π)
  act : π → φ → α → Option (π × φ)

namespace Forker

variable {κ φ β μ π α : Type} [DecidableEq κ]

def step (f : Forker κ φ β μ π α) (s : Forking κ φ β π) : Forking.Action μ α → Option (Forking κ φ β π)
  | .parent m =>
    (f.fork s.parent m).map fun next => { s with parent := next.1, children := s.children ++ [next.2] }
  | .child i a =>
    s.children[i]?.bind fun p =>
      (f.act p (s.store (f.own p)) a).map fun next =>
        { s with store := Function.update s.store (f.own p) next.2, children := s.children.set i next.1 }

def run (f : Forker κ φ β μ π α) : Forking κ φ β π → List (Forking.Action μ α) → Option (Forking κ φ β π)
  | s, [] => some s
  | s, a :: as => (f.step s a).bind fun t => run f t as

inductive Stepped (f : Forker κ φ β μ π α) (s : Forking κ φ β π) : Forking.Action μ α → Forking κ φ β π → Prop where
  | forked {m : μ} {b : β} {p : π} (forks : f.fork s.parent m = some (b, p)) :
      Stepped f s (.parent m) { store := s.store, parent := b, children := s.children ++ [p] }
  | acted {i : Nat} {a : α} {p q : π} {x : φ} (here : s.children[i]? = some p)
      (acts : f.act p (s.store (f.own p)) a = some (q, x)) :
      Stepped f s (.child i a)
        { store := Function.update s.store (f.own p) x, parent := s.parent, children := s.children.set i q }

section

variable {f : Forker κ φ β μ π α} {s t u : Forking κ φ β π} {a : Forking.Action μ α} {as bs : List (Forking.Action μ α)}

theorem step_cases (step : f.step s a = some t) : f.Stepped s a t := by
  cases a with
  | parent m =>
    obtain ⟨⟨b, p⟩, forks, rfl⟩ := Option.map_eq_some_iff.mp step
    exact .forked forks
  | child i a =>
    obtain ⟨p, here, step⟩ := Option.bind_eq_some_iff.mp step
    obtain ⟨⟨q, x⟩, acts, rfl⟩ := Option.map_eq_some_iff.mp step
    exact .acted here acts

theorem Stepped.step (stepped : f.Stepped s a t) : f.step s a = some t := by
  cases stepped with
  | forked forks => rw [Forker.step, forks, Option.map_some]
  | acted here acts => rw [Forker.step, here, Option.bind_some, acts, Option.map_some]

theorem run_cons (stepped : f.Stepped s a t) : f.run s (a :: as) = f.run t as := by
  rw [run, stepped.step, Option.bind_some]

theorem run_append (first : f.run s as = some t) : f.run s (as ++ bs) = f.run t bs := by
  induction as generalizing s with
  | nil =>
    cases first
    rfl
  | cons a as ih =>
    obtain ⟨u, step, rest⟩ := Option.bind_eq_some_iff.mp first
    rw [List.cons_append, run, step, Option.bind_some]
    exact ih rest

/-- What a step keeps holds after every run. -/
theorem run_rule (inv : Forking κ φ β π → Prop) (keeps : ∀ s a t, inv s → f.Stepped s a t → inv t)
    (start : inv s) (run : f.run s as = some t) : inv t := by
  induction as generalizing s with
  | nil =>
    cases run
    exact start
  | cons a as ih =>
    obtain ⟨u, step, rest⟩ := Option.bind_eq_some_iff.mp run
    exact ih (keeps s a u start (step_cases step)) rest

end

/-! ### One process alone -/

/-- The steps of one process on its entry while all others wait. -/
def solo (f : Forker κ φ β μ π α) : π → φ → List α → Option (π × φ)
  | p, x, [] => some (p, x)
  | p, x, a :: as => (f.act p x a).bind fun next => solo f next.1 next.2 as

omit [DecidableEq κ] in
theorem solo_cons {f : Forker κ φ β μ π α} {p q : π} {x y : φ} {a : α} {as : List α} (acts : f.act p x a = some (q, y)) :
    f.solo p x (a :: as) = f.solo q y as := by
  rw [solo, acts, Option.bind_some]

theorem run_solo {f : Forker κ φ β μ π α} {s : Forking κ φ β π} {i : Nat} {p q : π} {y : φ} {as : List α}
    (keeps : ∀ {p x a q y}, f.act p x a = some (q, y) → f.own q = f.own p) (here : s.children[i]? = some p)
    (alone : f.solo p (s.store (f.own p)) as = some (q, y)) :
    f.run s (as.map (.child i)) =
      some { s with store := Function.update s.store (f.own p) y, children := s.children.set i q } := by
  induction as generalizing s p with
  | nil =>
    obtain ⟨inside, rfl⟩ := List.getElem?_eq_some_iff.mp here
    cases alone
    rw [Function.update_eq_self, List.set_getElem_self]
    rfl
  | cons a as ih =>
    obtain ⟨⟨r, z⟩, acts, rest⟩ := Option.bind_eq_some_iff.mp alone
    have inside := (List.getElem?_eq_some_iff.mp here).1
    rw [List.map_cons, run_cons (.acted here acts)]
    have own := keeps acts
    rw [ih (List.getElem?_set_self inside) (by rw [own]; dsimp only; rw [Function.update_self]; exact rest)]
    dsimp only
    rw [own, Function.update_idem, List.set_set]

/-- A message, and then the steps of the process it is forked for. -/
theorem run_forked {f : Forker κ φ β μ π α} {s : Forking κ φ β π} {m : μ} {b : β} {p q : π} {y : φ} {as : List α}
    (keeps : ∀ {p x a q y}, f.act p x a = some (q, y) → f.own q = f.own p) (forks : f.fork s.parent m = some (b, p))
    (alone : f.solo p (s.store (f.own p)) as = some (q, y)) :
    f.run s (.parent m :: as.map (.child s.children.length)) =
      some { store := Function.update s.store (f.own p) y, parent := b, children := s.children ++ [q] } := by
  have run := run_solo (s := { s with parent := b, children := s.children ++ [p] }) keeps List.getElem?_concat_length alone
  rw [run_cons (.forked forks), run]
  dsimp only
  rw [List.set_append_right _ _ (Nat.le_refl _), Nat.sub_self]
  rfl

/-! ### What a process relies on -/

/-- Process `i` relies on `rely i` of itself and its entry, and `allowed` is all that a step may do to an
entry. Processes from number `first` on are forked in the run, which starts from the store `origin`. -/
structure Relies (f : Forker κ φ β μ π α) (origin : κ → φ) (first : Nat) (rely : Nat → π → φ → Prop)
    (allowed : κ → φ → φ → Prop) : Prop where
  refl : ∀ k x, allowed k x x
  trans : ∀ {k x y z}, allowed k x y → allowed k y z → allowed k x z
  born : ∀ {i b m b' p x}, first ≤ i → f.fork b m = some (b', p) → allowed (f.own p) (origin (f.own p)) x → rely i p x
  acts : ∀ {i p x a q y}, rely i p x → f.act p x a = some (q, y) → f.own q = f.own p ∧ rely i q y ∧ allowed (f.own p) x y
  stable : ∀ {i p x y}, rely i p x → allowed (f.own p) x y → rely i p y

omit [DecidableEq κ] in
/-- A process may rely on more where it already has what it relies on. -/
theorem Relies.also {f : Forker κ φ β μ π α} {origin : κ → φ} {first : Nat} {rely : Nat → π → φ → Prop}
    {allowed : κ → φ → φ → Prop} (relies : f.Relies origin first rely allowed) (more : Nat → π → φ → Prop)
    (born : ∀ {i b m b' p x}, first ≤ i → f.fork b m = some (b', p) → allowed (f.own p) (origin (f.own p)) x → more i p x)
    (acts : ∀ {i p x a q y}, rely i p x → more i p x → f.act p x a = some (q, y) → more i q y)
    (stable : ∀ {i p x y}, more i p x → allowed (f.own p) x y → more i p y) :
    f.Relies origin first (fun i p x => rely i p x ∧ more i p x) allowed where
  refl := relies.refl
  trans := relies.trans
  born := fun late forks since => ⟨relies.born late forks since, born late forks since⟩
  acts := by
    rintro i p x a q y ⟨has, also⟩ step
    obtain ⟨own, keeps, allows⟩ := relies.acts has step
    exact ⟨own, ⟨keeps, acts has also step⟩, allows⟩
  stable := fun has allows => ⟨relies.stable has.1 allows, stable has.2 allows⟩

/-- Every process has what it relies on. -/
def Rests (f : Forker κ φ β μ π α) (rely : Nat → π → φ → Prop) (s : Forking κ φ β π) : Prop :=
  ∀ i p, s.children[i]? = some p → rely i p (s.store (f.own p))

section

variable {f : Forker κ φ β μ π α} {origin : κ → φ} {first : Nat} {rely : Nat → π → φ → Prop} {allowed : κ → φ → φ → Prop}
variable {s t : Forking κ φ β π} {a : Forking.Action μ α} {as : List (Forking.Action μ α)}

/-- The entry that a step writes is the process's own. -/
theorem Relies.entry (relies : f.Relies origin first rely allowed) (rests : f.Rests rely s) (stepped : f.Stepped s a t)
    (k : κ) : allowed k (s.store k) (t.store k) := by
  cases stepped with
  | forked => exact relies.refl k _
  | @acted i a p q x here acts =>
    by_cases own : k = f.own p
    · subst own
      dsimp only
      rw [Function.update_self]
      exact (relies.acts (rests i p here) acts).2.2
    · dsimp only
      rw [Function.update_of_ne own]
      exact relies.refl k _

theorem Relies.step (relies : f.Relies origin first rely allowed) (rests : f.Rests rely s)
    (since : ∀ k, allowed k (origin k) (s.store k)) (count : first ≤ s.children.length) (stepped : f.Stepped s a t) :
    f.Rests rely t := by
  have entry := relies.entry rests stepped
  cases stepped with
  | @forked m b p forks =>
    intro j q child
    obtain earlier | rfl := Nat.lt_or_eq_of_le (Nat.le_of_lt_succ (show j < s.children.length + 1 by
      have bound := (List.getElem?_eq_some_iff.mp child).1
      rwa [List.length_append, List.length_singleton] at bound))
    · rw [List.getElem?_append_left earlier] at child
      exact rests j q child
    · rw [List.getElem?_concat_length] at child
      cases child
      exact relies.born count forks (since _)
  | @acted i a p q x here acts =>
    obtain ⟨own, kept, _⟩ := relies.acts (rests i p here) acts
    intro j r child
    by_cases mine : i = j
    · subst mine
      rw [List.getElem?_set_self (List.getElem?_eq_some_iff.mp here).1] at child
      cases child
      dsimp only
      rw [own, Function.update_self]
      exact kept
    · rw [List.getElem?_set_ne mine] at child
      exact relies.stable (rests j r child) (entry _)

theorem Stepped.count (stepped : f.Stepped s a t) : s.children.length ≤ t.children.length := by
  cases stepped with
  | forked =>
    rw [List.length_append]
    exact Nat.le_add_right _ _
  | acted => rw [List.length_set]

/-- What a step keeps where every process has what it relies on holds after every run. -/
theorem Relies.run_rule (relies : f.Relies origin first rely allowed) (inv : Forking κ φ β π → Prop)
    (rests : f.Rests rely s) (since : ∀ k, allowed k (origin k) (s.store k)) (count : first ≤ s.children.length)
    (keeps : ∀ u a v, f.Rests rely u → inv u → f.Stepped u a v → inv v) (start : inv s) (run : f.run s as = some t) :
    f.Rests rely t ∧ inv t := by
  have kept : (f.Rests rely t ∧ inv t) ∧ (∀ k, allowed k (origin k) (t.store k)) ∧ first ≤ t.children.length := by
    refine Forker.run_rule (fun u => (f.Rests rely u ∧ inv u) ∧ (∀ k, allowed k (origin k) (u.store k)) ∧
      first ≤ u.children.length) ?_ ⟨⟨rests, start⟩, since, count⟩ run
    rintro u a v ⟨⟨rests, before⟩, since, count⟩ stepped
    refine ⟨⟨relies.step rests since count stepped, keeps u a v rests before stepped⟩, ?_, count.trans stepped.count⟩
    exact fun k => relies.trans (since k) (relies.entry rests stepped k)
  exact kept.1

/-- Whatever order the steps come in, every process keeps what it relies on, and every entry has changed only as
allowed. -/
theorem Relies.run (relies : f.Relies origin first rely allowed) (rests : f.Rests rely s)
    (since : ∀ k, allowed k (origin k) (s.store k)) (count : first ≤ s.children.length) (run : f.run s as = some t) :
    f.Rests rely t ∧ ∀ k, allowed k (s.store k) (t.store k) := by
  refine relies.run_rule (fun u => ∀ k, allowed k (s.store k) (u.store k)) rests since count ?_
    (fun k => relies.refl k _) run
  intro u a v rests before stepped k
  exact relies.trans (before k) (relies.entry rests stepped k)

end

end Forker

end NetProjects
