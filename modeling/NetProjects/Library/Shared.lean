import Mathlib

/-!
# Processes that share a store

Any number of processes take the steps of their programs one at a time, in any order, each on its
own state and on the store that all of them see. A guard on the steps that keeps an invariant
through every run is proved step by step.
-/

namespace NetProjects

structure Shared (ι π σ : Type) where
  store : σ
  process : ι → π

namespace Shared

variable {ι π σ α : Type} [DecidableEq ι]

/-- One step of process `i`, where its program can take it. -/
def step (program : ι → π → σ → α → Option (π × σ)) (s : Shared ι π σ) (i : ι) (a : α) : Option (Shared ι π σ) :=
  (program i (s.process i) s.store a).map fun next =>
    { store := next.2, process := Function.update s.process i next.1 }

/-- `good` holds in every state of the run. -/
def Throughout (program : ι → π → σ → α → Option (π × σ)) (good : Shared ι π σ → Prop) :
    Shared ι π σ → List (ι × α) → Prop
  | s, [] => good s
  | s, a :: as => good s ∧ ∀ t, s.step program a.1 a.2 = some t → Throughout program good t as

/-- Every step of the run is taken where `guard` allows it. -/
def Guarded (program : ι → π → σ → α → Option (π × σ)) (guard : Shared ι π σ → ι → α → Prop) :
    Shared ι π σ → List (ι × α) → Prop
  | _, [] => True
  | s, a :: as => ∀ t, s.step program a.1 a.2 = some t → guard s a.1 a.2 ∧ Guarded program guard t as

variable {program : ι → π → σ → α → Option (π × σ)} {good inv : Shared ι π σ → Prop}
variable {guard : Shared ι π σ → ι → α → Prop} {s t : Shared ι π σ} {i : ι} {a : α} {as : List (ι × α)}

/-- A step is one of the process's own, and the others keep their states. -/
theorem step_cases (step : s.step program i a = some t) :
    program i (s.process i) s.store a = some (t.process i, t.store) ∧ ∀ j, j ≠ i → t.process j = s.process j := by
  unfold Shared.step at step
  obtain ⟨⟨p, store⟩, taken, rfl⟩ := Option.map_eq_some_iff.mp step
  refine ⟨?_, fun j other => Function.update_of_ne other p s.process⟩
  dsimp only
  rw [Function.update_self, taken]

theorem step_eq {p : π} {store : σ} (taken : program i (s.process i) s.store a = some (p, store)) :
    s.step program i a = some { store := store, process := Function.update s.process i p } := by
  rw [step, taken, Option.map_some]

theorem Throughout.here (throughout : Throughout program good s as) : good s := by
  cases as with
  | nil => exact throughout
  | cons a as => exact throughout.1

theorem Throughout.mono {better : Shared ι π σ → Prop} (implies : ∀ s, good s → better s)
    (throughout : Throughout program good s as) : Throughout program better s as := by
  induction as generalizing s with
  | nil => exact implies s throughout
  | cons a as ih => exact ⟨implies s throughout.1, fun t step => ih (throughout.2 t step)⟩

/-- An invariant that the guarded steps keep holds throughout a guarded run. -/
theorem throughout_of_guarded (start : inv s)
    (keeps : ∀ s i a t, inv s → guard s i a → s.step program i a = some t → inv t)
    (guarded : Guarded program guard s as) : Throughout program inv s as := by
  induction as generalizing s with
  | nil => exact start
  | cons a as ih =>
    refine ⟨start, fun t step => ?_⟩
    obtain ⟨allowed, rest⟩ := guarded t step
    exact ih (keeps s a.1 a.2 t start allowed step) rest

/-- A step outside the guard breaks the property before or after it. -/
theorem guarded_of_throughout
    (breaks : ∀ s i a t, good s → good t → s.step program i a = some t → guard s i a)
    (throughout : Throughout program good s as) : Guarded program guard s as := by
  induction as generalizing s with
  | nil => trivial
  | cons a as ih =>
    intro t step
    have rest := throughout.2 t step
    exact ⟨breaks s a.1 a.2 t throughout.1 rest.here step, ih rest⟩

end Shared

end NetProjects
