import Mathlib

/-!
# Event loops

A loop that sends at its top, waits for one event, reacts to it and goes round again, until
the top or the reaction leaves it. `run` is the loop over a finite sequence of events.
-/

namespace NetProjects

inductive Next (σ ρ : Type) where
  | go (s : σ)
  | exit (r : ρ) (s : σ)

/-- The same outcome with the state seen through `f`. -/
def Next.map {σ τ ρ : Type} (f : σ → τ) : Next σ ρ → Next τ ρ
  | .go s => .go (f s)
  | .exit r s => .exit r (f s)

structure EventLoop (σ ε ο ρ : Type) where
  /-- From the loop head to the wait: what is sent, and the state that waits. -/
  top : σ → List ο × Next σ ρ
  /-- From the wait to the next loop head. -/
  react : σ → ε → Next σ ρ

namespace EventLoop

variable {σ ε ο ρ : Type} (m : EventLoop σ ε ο ρ)

def run (s : σ) : List ε → List ο × Next σ ρ
  | [] => m.top s
  | e :: es =>
    match m.top s with
    | (out, .exit r t) => (out, .exit r t)
    | (out, .go t) =>
      match m.react t e with
      | .exit r u => (out, .exit r u)
      | .go u => (out ++ (run u es).1, (run u es).2)

variable {m} {s t u : σ} {e : ε} {es : List ε} {out : List ο} {r : ρ}

theorem run_of_top {next : Next σ ρ} (top : m.top s = (out, next)) : m.run s [] = (out, next) := top

theorem run_of_top_exit (top : m.top s = (out, .exit r t)) : m.run s es = (out, .exit r t) := by
  cases es with
  | nil => exact top
  | cons e es => simp only [run, top]

theorem run_cons_exit (top : m.top s = (out, .go t)) (react : m.react t e = .exit r u) :
    m.run s (e :: es) = (out, .exit r u) := by
  simp only [run, top, react]

theorem run_cons_go (top : m.top s = (out, .go t)) (react : m.react t e = .go u) :
    m.run s (e :: es) = (out ++ (m.run u es).1, (m.run u es).2) := by
  simp only [run, top, react]

/-! ### Runs by their last event -/

variable {more : List ε}

theorem run_append_exit (more : List ε) (run : m.run s es = (out, .exit r t)) :
    m.run s (es ++ more) = (out, .exit r t) := by
  induction es generalizing s out with
  | nil => exact run_of_top_exit run
  | cons e es ih =>
    simp only [EventLoop.run, List.cons_append] at run ⊢
    split at run
    · exact run
    · split at run
      · exact run
      · cases rest : m.run _ es with
        | mk sent last =>
          rw [rest] at run
          cases run
          rw [ih rest]

theorem run_append_stop (more : List ε) (run : m.run s es = (out, .go t)) (react : m.react t e = .exit r u) :
    m.run s (es ++ e :: more) = (out, .exit r u) := by
  induction es generalizing s out with
  | nil => exact run_cons_exit run react
  | cons a es ih =>
    simp only [EventLoop.run, List.cons_append] at run ⊢
    split at run
    · cases run
    · split at run
      · cases run
      · cases rest : m.run _ es with
        | mk sent last =>
          rw [rest] at run
          cases run
          rw [ih rest]

theorem run_append_go (more : List ε) (run : m.run s es = (out, .go t)) (react : m.react t e = .go u) :
    m.run s (es ++ e :: more) = (out ++ (m.run u more).1, (m.run u more).2) := by
  induction es generalizing s out with
  | nil => exact run_cons_go run react
  | cons a es ih =>
    simp only [EventLoop.run, List.cons_append] at run ⊢
    split at run
    · cases run
    · split at run
      · cases run
      · cases rest : m.run _ es with
        | mk sent last =>
          rw [rest] at run
          cases run
          rw [ih rest, List.append_assoc]

/-- The loop comes to wait for every one of the events. -/
def Selects (m : EventLoop σ ε ο ρ) (s : σ) (es : List ε) : Prop :=
  ∀ before e after, es = before ++ e :: after → ∃ out t, m.run s before = (out, .go t)

/-- A run waits after its last event when it waited before it, the loop goes on and waits again. -/
theorem run_concat_go (run : m.run s (es ++ [e]) = (out, .go t)) :
    ∃ sent u v next, m.run s es = (sent, .go u) ∧ m.react u e = .go v ∧ m.top v = (next, .go t) ∧ out = sent ++ next := by
  cases before : m.run s es with
  | mk sent last =>
    cases last with
    | exit r u =>
      rw [run_append_exit [e] before] at run
      cases run
    | go u =>
      cases react : m.react u e with
      | exit r v =>
        rw [run_append_stop [] before react] at run
        cases run
      | go v =>
        rw [run_append_go [] before react] at run
        cases top : m.top v with
        | mk next last =>
          rw [EventLoop.run, top] at run
          cases run
          exact ⟨sent, u, v, next, rfl, react, top, rfl⟩

theorem run_waits_before (run : m.run s (es ++ more) = (out, .go t)) : ∃ sent u, m.run s es = (sent, .go u) := by
  cases before : m.run s es with
  | mk sent last =>
    cases last with
    | go u => exact ⟨sent, u, rfl⟩
    | exit r u =>
      rw [run_append_exit more before] at run
      cases run

theorem selects_concat (run : m.run s es = (out, .go t)) (e : ε) : m.Selects s (es ++ [e]) := by
  intro before x after split
  obtain ⟨middle, rfl, last⟩ | ⟨middle, rfl, _⟩ := List.append_eq_append_iff.mp split
  · cases middle with
    | nil =>
      rw [List.append_nil]
      exact ⟨out, t, run⟩
    | cons y middle =>
      have lengths := congrArg List.length last
      simp at lengths
  · exact run_waits_before run

/-- What holds when the loop first waits and is kept by every round holds whenever a run waits. -/
theorem waiting_rule {I : List ε → List ο → σ → Prop} (start : ∀ out t, m.top s = (out, .go t) → I [] out t)
    (next : ∀ es out t e u sent v, I es out t → m.react t e = .go u → m.top u = (sent, .go v) →
      I (es ++ [e]) (out ++ sent) v)
    (run : m.run s es = (out, .go t)) : I es out t := by
  induction es using List.reverseRecOn generalizing out t with
  | nil => exact start out t run
  | append_singleton es e ih =>
    obtain ⟨sent, u, v, last, before, react, top, rfl⟩ := run_concat_go run
    exact next es sent u e v last t (ih before) react top

/-- A run that has ended ended at its first loop head or in the round of one event. -/
theorem run_exit_cases (run : m.run s es = (out, .exit r t)) :
    m.top s = (out, .exit r t) ∨
      ∃ before e after sent u, es = before ++ e :: after ∧ m.run s before = (sent, .go u) ∧
        (m.react u e = .exit r t ∧ out = sent ∨
          ∃ v last, m.react u e = .go v ∧ m.top v = (last, .exit r t) ∧ out = sent ++ last) := by
  induction es using List.reverseRecOn generalizing out with
  | nil => exact Or.inl run
  | append_singleton es e ih =>
    cases before : m.run s es with
    | mk sent last =>
      cases last with
      | exit r' u =>
        rw [run_append_exit [e] before] at run
        cases run
        obtain top | ⟨earlier, x, after, sent, u, split, rest⟩ := ih before
        · exact Or.inl top
        · exact Or.inr ⟨earlier, x, after ++ [e], sent, u, by rw [split, List.append_assoc]; rfl, rest⟩
      | go u =>
        refine Or.inr ⟨es, e, [], sent, u, rfl, before, ?_⟩
        cases react : m.react u e with
        | exit r' v =>
          rw [run_append_stop [] before react] at run
          cases run
          exact Or.inl ⟨rfl, rfl⟩
        | go v =>
          rw [run_append_go [] before react] at run
          cases top : m.top v with
          | mk next last =>
            rw [EventLoop.run, top] at run
            cases run
            exact Or.inr ⟨v, next, rfl, top, rfl⟩

/-- A loop that sends at most once at its head has sent at most once for each event and once more. -/
theorem run_sent_le (one : ∀ s, (m.top s).1.length ≤ 1) (run : m.run s es = (out, .go t)) : out.length ≤ es.length + 1 := by
  refine waiting_rule (I := fun es out _ => out.length ≤ es.length + 1) ?_ ?_ run
  · intro out t top
    have sent := one s
    rw [top] at sent
    exact sent
  · intro es out t e u next v few _ top
    have sent : next.length ≤ 1 := by
      have sends := one u
      rw [top] at sends
      exact sends
    simp only [List.length_append, List.length_singleton]
    omega

end EventLoop

end NetProjects
