import NetProjects.Chat.Routing

/-!
# Runs of the chat server

Rounds of `select` and `msg_router`, with the turns taken so far, and the rule that carries an
invariant through a run.
-/

namespace NetProjects.Chat
open Bytes Linked

/-- Where the router stands in a round. -/
structure Routing where
  round : Round
  locals : Locals
  node : Option Nat

/-- A new connection comes on a descriptor that no client holds, and is not yet in the set. -/
def Round.valid (r : Round) (s : Server) : Bool :=
  r.accepted.all fun x => s.clients.all (fun a => (s.nodes.cell a).fd ≠ x.1) && (r.received x.1).isNone

/-- The loop of `main`; `none` also where a round is not valid. -/
def serve (maxClients : Int) : List Round → Server → Option (Server × List Turn)
  | [], s => some (s, [])
  | r :: rounds, s => do
    guard (r.valid s)
    let (s, turns) ← msgRouter maxClients r s
    let (s, more) ← serve maxClients rounds s
    return (s, turns ++ more)

inductive Run (maxClients : Int) (init : Server) : List Turn → Server → Option Routing → Prop
  | start : Run maxClients init [] init none
  | select {turns : List Turn} {s s' : Server} {r : Round} (run : Run maxClients init turns s none)
      (valid : r.valid s) (accepts : acceptClient r s = some s') :
      Run maxClients init turns s'
        (some { round := r, locals := r.locals, node := (s'.nodes.cell s'.listenFd).next })
  | skip {turns : List Turn} {s : Server} {r : Round} {l : Locals} {a : Nat}
      (run : Run maxClients init turns s (some { round := r, locals := l, node := some a }))
      (quiet : r.received (s.nodes.cell a).fd = none) :
      Run maxClients init turns s (some { round := r, locals := l, node := (s.nodes.cell a).next })
  | turn {turns : List Turn} {s s' : Server} {r : Round} {l l' : Locals} {a : Nat} {received : Received}
      {out : List Action} (run : Run maxClients init turns s (some { round := r, locals := l, node := some a }))
      (ready : r.received (s.nodes.cell a).fd = some received)
      (turned : turn maxClients r s l a received = some (s', l', out)) :
      Run maxClients init (turns ++ [.mk r a received (l.read received) s out s']) s'
        (some { round := r, locals := l', node := (s'.nodes.cell a).next })
  | finish {turns : List Turn} {s : Server} {r : Round} {l : Locals}
      (run : Run maxClients init turns s (some { round := r, locals := l, node := none })) :
      Run maxClients init turns s none

section

variable {maxClients : Int} {init s s' : Server} {turns more : List Turn} {r : Round} {l : Locals} {node : Option Nat}

theorem routerLoop_run {fuel : Nat} (run : Run maxClients init turns s (some { round := r, locals := l, node := node }))
    (done : routerLoop maxClients r fuel s l node = some (s', more)) : Run maxClients init (turns ++ more) s' none := by
  induction fuel generalizing turns s l node more with
  | zero => cases done
  | succ fuel ih =>
    cases node with
    | none =>
      cases done
      rw [List.append_nil]
      exact run.finish
    | some a =>
      cases ready : r.received (s.nodes.cell a).fd with
      | none =>
        simp only [routerLoop, ready] at done
        exact ih (run.skip ready) done
      | some received =>
        simp only [routerLoop, ready] at done
        obtain ⟨⟨s₁, l₁, out⟩, turned, done⟩ := Option.bind_eq_some_iff.mp done
        obtain ⟨⟨s₂, rest⟩, looped, done⟩ := Option.bind_eq_some_iff.mp done
        cases done
        have continued := ih (run.turn ready turned) looped
        rwa [List.append_assoc] at continued

/-- A call of the router that returns is part of a run. -/
theorem msgRouter_run (run : Run maxClients init turns s none) (valid : r.valid s)
    (done : msgRouter maxClients r s = some (s', more)) : Run maxClients init (turns ++ more) s' none := by
  obtain ⟨s₁, accepts, done⟩ := Option.bind_eq_some_iff.mp done
  exact routerLoop_run (run.select valid accepts) done

theorem serve_run {rounds : List Round} (run : Run maxClients init turns s none)
    (done : serve maxClients rounds s = some (s', more)) : Run maxClients init (turns ++ more) s' none := by
  induction rounds generalizing turns s more with
  | nil =>
    cases done
    rw [List.append_nil]
    exact run
  | cons r rounds ih =>
    obtain ⟨_, valid, done⟩ := Option.bind_eq_some_iff.mp done
    obtain ⟨⟨s₁, taken⟩, routed, done⟩ := Option.bind_eq_some_iff.mp done
    obtain ⟨⟨s₂, rest⟩, served, done⟩ := Option.bind_eq_some_iff.mp done
    cases done
    have valid : r.valid s := (Option.guard_eq_some' _).mp valid
    have continued := ih (msgRouter_run run valid routed) served
    rwa [List.append_assoc] at continued

theorem acceptClient_spec {xs : List Nat} (listed : Listed s xs) (valid : r.valid s) :
    ∃ s' ys, acceptClient r s = some s' ∧ Listed s' ys ∧
      (s' = s ∨ ys = xs ++ [s.nodes.top] ∧ SameClients s s' ∧ s'.nodes.top = s.nodes.top + 1 ∧
        (s'.nodes.cell s.nodes.top).acked = false) := by
  cases accepted : r.accepted with
  | none => exact ⟨s, xs, by rw [acceptClient, accepted], listed, Or.inl rfl⟩
  | some client =>
    obtain ⟨newFd, username⟩ := client
    have fresh : ∀ a ∈ xs, (s.nodes.cell a).fd ≠ newFd := by
      rw [Round.valid, accepted, Option.all_some, Bool.and_eq_true, List.all_eq_true, listed.clients_eq] at valid
      exact fun a member => of_decide_eq_true (valid.1 a member)
    obtain ⟨s', appends, longer, same, top, _, acked⟩ := appendNode_spec listed _ username fresh
    exact ⟨s', _, by rw [acceptClient, accepted]; exact appends, longer, Or.inr ⟨rfl, same, top, acked⟩⟩

/-- The list holds the clients `xs`, and the router stands before or behind one of them. -/
def Stands (s : Server) (xs : List Nat) : Option Routing → Prop
  | none => Listed s xs
  | some routing => Listed s xs ∧ ∃ before after, xs = before ++ after ∧ routing.node = after.head?

theorem Stands.listed {xs : List Nat} {routing : Option Routing} (h : Stands s xs routing) : Listed s xs := by
  cases routing with
  | none => exact h
  | some => exact h.1

/-- What holds at the start and is kept by every new client and every turn holds in every run. -/
theorem Run.rule {I : List Turn → Server → Prop} {xs : List Nat} {routing : Option Routing} (listed : Listed init xs)
    (start : I [] init)
    (joined : ∀ turns s s' ys, Listed s ys → Listed s' (ys ++ [s.nodes.top]) → SameClients s s' →
      s'.nodes.top = s.nodes.top + 1 → (s'.nodes.cell s.nodes.top).acked = false → I turns s → I turns s')
    (turned : ∀ turns t l' before after, Listed t.before (before ++ t.node :: after) → Turned maxClients t l' →
      I turns t.before → I (turns ++ [t]) t.after)
    (run : Run maxClients init turns s routing) : (∃ ys, Stands s ys routing) ∧ I turns s := by
  induction run with
  | start => exact ⟨⟨xs, listed⟩, start⟩
  | @select turns s s' r run valid accepts ih =>
    obtain ⟨⟨ys, listed⟩, holds⟩ := ih
    have listed : Listed s ys := listed
    obtain ⟨s₁, zs, accepted, longer, change⟩ := acceptClient_spec listed valid
    obtain rfl := Option.some.inj (accepted.symm.trans accepts)
    refine ⟨⟨zs, longer, [], zs, rfl, longer.links.2.head⟩, ?_⟩
    rcases change with rfl | ⟨rfl, same, top, acked⟩
    · exact holds
    · exact joined turns s s₁ ys listed longer same top acked holds
  | @skip turns s r l a run quiet ih =>
    obtain ⟨⟨ys, listed, before, after, rfl, here⟩, holds⟩ := ih
    obtain ⟨after, rfl⟩ := List.head?_eq_some_iff.mp here.symm
    refine ⟨⟨_, listed, before ++ [a], after, (List.append_cons before a after), ?_⟩, holds⟩
    exact listed.next_eq
  | @turn turns s s' r l l' a received out run ready happened ih =>
    obtain ⟨⟨ys, listed, before, after, rfl, here⟩, holds⟩ := ih
    obtain ⟨after, rfl⟩ := List.head?_eq_some_iff.mp here.symm
    have effect := turn_cases happened
    have later := turned turns _ l' before after listed effect holds
    obtain ⟨remains | removed, next⟩ := effect.listed listed
    · exact ⟨⟨_, remains, before ++ [a], after, List.append_cons before a after, next⟩, later⟩
    · exact ⟨⟨_, removed, before, after, rfl, next⟩, later⟩
  | finish run ih =>
    obtain ⟨⟨ys, listed, _⟩, holds⟩ := ih
    exact ⟨⟨ys, listed⟩, holds⟩

theorem start_listed (sockfd : Int) (username : CharArray 16) : Listed (.start sockfd username) [] := by
  refine ⟨⟨rfl, rfl⟩, fun a member => ?_, List.nodup_nil⟩
  rw [List.mem_singleton.mp member]
  exact Nat.zero_lt_one

/-- In every run the list is a list, of clients on different descriptors. -/
theorem Run.listed {sockfd : Int} {username : CharArray 16} {routing : Option Routing}
    (run : Run maxClients (.start sockfd username) turns s routing) : ∃ xs, Listed s xs := by
  obtain ⟨⟨xs, stands⟩, _⟩ := run.rule (I := fun _ _ => True) (start_listed sockfd username) trivial
    (fun _ _ _ _ _ _ _ _ _ _ => trivial) fun _ _ _ _ _ _ _ _ => trivial
  exact ⟨xs, stands.listed⟩

/-- The node of a turn is in the list. -/
theorem Run.at_node {sockfd : Int} {username : CharArray 16} {a : Nat}
    (run : Run maxClients (.start sockfd username) turns s (some { round := r, locals := l, node := some a })) :
    ∃ before after, Listed s (before ++ a :: after) := by
  obtain ⟨⟨xs, listed, before, after, rfl, here⟩, _⟩ := run.rule (I := fun _ _ => True) (start_listed sockfd username)
    trivial (fun _ _ _ _ _ _ _ _ _ _ => trivial) fun _ _ _ _ _ _ _ _ => trivial
  obtain ⟨after, rfl⟩ := List.head?_eq_some_iff.mp here.symm
  exact ⟨before, after, listed⟩

end

/-! ### Rounds over memory that is zero -/

def Round.quiet : Round :=
  { accepted := none
    received := fun _ => none
    buf := .zero maxDataSize
    newName := .zero 16
    afterUsername := fun _ => { bytes := [0], short := by decide, terminated := by decide }
    afterNewName := { bytes := [0], short := by decide, terminated := by decide }
    countStr := fun _ => .zero 5 }

def Round.accept (newFd : Int) : Round := { Round.quiet with accepted := some (newFd, .zero 16) }

def Round.receive (events : List (Int × Received)) : Round :=
  { Round.quiet with received := fun fd => (events.find? (·.1 = fd)).map (·.2) }

/-- The JOIN of a client whose name is one character. -/
def joinMsg (name : UInt8) : SbcpMsg :=
  { SbcpMsg.ofType .join with
    attribute0 := { sbcpAttributeType := AttributeType.username.code, len := 2, payload := (CharArray.zero 512).fill [name] } }

/-- Two clients are accepted, then both join. -/
def twoJoin : List Round :=
  [.accept 4, .accept 5, .receive [(4, .data (joinMsg 65).bytes), (5, .data (joinMsg 66).bytes)]]

end NetProjects.Chat
