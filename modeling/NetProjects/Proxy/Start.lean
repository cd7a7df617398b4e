import NetProjects.Proxy.QueueRuns
import NetProjects.Proxy.Refinement

/-!
# The proxy before its service loop

The state `main` builds represents a proxy with no sessions and a queue of dummies. With the
refinement this gives what every reachable state represents.
-/

namespace NetProjects.Proxy
open Bytes Linked

/-! ### The empty list -/

theorem newFdList_spec (nodes : Heap FdNode) (maxClient : Nat) :
    let made := newFdList nodes maxClient
    FdRep made.1 made.2 nodes.top [] (nodes.top + 1) ∧
      (made.1.cell nodes.top).session = .bare .dummy .idle ∧
      (made.1.cell (nodes.top + 1)).session = .bare .dummy .idle := by
  intro made
  have apart : nodes.top ≠ nodes.top + 1 := Nat.ne_of_lt (Nat.lt_succ_self _)
  let fresh := newFdNode none none (-1) .dummy .idle none
  have front : made.1.cell nodes.top = { fresh with next := some (nodes.top + 1) } := by
    simp only [made, newFdList, setFdPrev, setFdNext, Heap.modify_cell, Heap.alloc, if_neg apart, if_true]
    rfl
  have rear : made.1.cell (nodes.top + 1) = { fresh with prev := some nodes.top } := by
    simp only [made, newFdList, setFdPrev, setFdNext, Heap.modify_cell, Heap.alloc, if_neg apart.symm, if_true]
    rfl
  refine ⟨⟨⟨⟨rfl, ?_⟩, ⟨rfl, ?_⟩⟩, fun f member => ?_⟩, ?_, ?_⟩
  · exact ⟨congrArg FdNode.next front, congrArg FdNode.next rear⟩
  · exact ⟨congrArg FdNode.prev rear, congrArg FdNode.prev front⟩
  · change f < nodes.top + 2
    simp only [List.cons_append, List.nil_append, List.mem_cons, List.not_mem_nil, or_false] at member
    omega
  · rw [front]
    rfl
  · rw [rear]
    rfl

/-! ### The dummies -/

section

variable {P : CacheNode → Prop} {nodes : Heap CacheNode}

theorem newCacheNode_all (fresh : ∀ prev next size, P (.fresh prev next size)) (old : ∀ a, P (nodes.cell a))
    (prev next : Option Nat) (size a : Nat) : P ((newCacheNode nodes prev next size).2.cell a) := by
  unfold newCacheNode Heap.alloc
  dsimp only
  split
  · exact fresh prev next size
  · exact old a

theorem newCacheQueueLoop_all {m : Nat} {prevNode newNode : Option Nat}
    (fresh : ∀ prev next size, P (.fresh prev next size)) (linked : ∀ n next, P n → P { n with next := next })
    (old : ∀ a, P (nodes.cell a)) : ∀ a, P ((newCacheQueueLoop m nodes prevNode newNode).1.cell a) := by
  induction m generalizing nodes prevNode newNode with
  | zero => exact old
  | succ m ih =>
    refine ih fun a => ?_
    have made := newCacheNode_all fresh old prevNode none 0
    cases prevNode with
    | none => exact made a
    | some p =>
      dsimp only
      rw [setCacheNext, Heap.modify_cell]
      split
      · exact linked _ _ (made a)
      · exact made a

/-- What holds of fresh nodes, whatever follows them, holds of every node of a new queue. -/
theorem newCacheQueue_all (fresh : ∀ prev next size, P (.fresh prev next size))
    (linked : ∀ n next, P n → P { n with next := next }) (old : ∀ a, P (nodes.cell a)) (n a : Nat) :
    P ((newCacheQueue nodes n).nodes.cell a) :=
  newCacheQueueLoop_all fresh linked (newCacheNode_all fresh old none none 0) a

end

theorem startQueue_spec {slots : Nat} (two : 2 ≤ slots) :
    QueueRep (startQueue slots) (List.range' 0 slots) ∧ (startQueue slots).nodes.top = slots ∧
      (startQueue slots).nodes.freed = [] ∧ ∀ a, ((startQueue slots).nodes.cell a).status = .idle ∧
        ((startQueue slots).nodes.cell a).httpInfo = .zero := by
  have freedOld : FreedAllocated (.empty (.fresh none none 0)) := fun _ member => absurd member List.not_mem_nil
  obtain ⟨rep, top, freed, _⟩ := newCacheQueue_spec two freedOld
  refine ⟨rep, top.trans (Nat.zero_add slots), freed, ?_⟩
  exact newCacheQueue_all (P := fun n => n.status = .idle ∧ n.httpInfo = .zero) (fun _ _ _ => ⟨rfl, rfl⟩)
    (fun _ _ holds => holds) (fun _ => ⟨rfl, rfl⟩) slots

/-! ### What the start represents -/

def View.start (slots listener : Nat) (doc : Nat → Doc) : View :=
  { listener := listener, stages := [], queue := List.range' 0 slots, doc := doc, cacheTop := slots, freed := [] }

section

variable {slots maxClient : Nat} {listenFd : Int} {s : ProxyState}

theorem start_sound (two : 2 ≤ slots) (listener : Nat) (doc : Nat → Doc) : Sound (.start slots listener doc) := by
  refine ⟨List.nodup_nil, fun c member => absurd member List.not_mem_nil, ⟨List.nodup_range', ?_⟩, fun a member => ?_,
    fun a member => absurd member List.not_mem_nil⟩
  · exact two.trans_eq List.length_range'.symm
  · have below := (List.mem_range'_1.mp member).2
    rw [Nat.zero_add] at below
    exact ⟨below, List.not_mem_nil⟩

theorem start_represents (two : 2 ≤ slots) (h : ProxyState.start slots maxClient listenFd = some s) :
    ∃ listener, Represents s (.start slots listener s.doc) ∧ s.stale = [] ∧
      ∀ a ∈ List.range' 0 slots, (s.doc a).complete = false := by
  unfold ProxyState.start at h
  obtain ⟨rep, front, rear⟩ := newFdList_spec (.empty (newFdNode none none (-1) .dummy .idle none)) maxClient
  obtain ⟨rep', sessions, cache, stale⟩ := appendFd_effect (by exact rep) h
  replace cache : s.cache = startQueue slots := cache
  -- The dummies are at 0 and 1, the listener at 2.
  replace sessions : s.session = Function.update
      (fun f => ((newFdList (.empty (newFdNode none none (-1) .dummy .idle none)) maxClient).1.cell f).session) 2
      (.bare .listen .reading) := sessions
  obtain ⟨queue, top, freed, dummies⟩ := startQueue_spec two
  rw [← cache] at queue top freed dummies
  refine ⟨2, ⟨⟨0, 1, [2], rep', .refl _, ?_, ?_, ?_, fun st member => absurd member List.not_mem_nil⟩, queue, rfl, top,
    freed, fun a => (dummies a).1⟩, stale, fun a _ => ?_⟩
  · rw [sessions]
    exact front
  · rw [sessions]
    exact rear
  · rw [sessions]
    rfl
  · rw [ProxyState.doc, (dummies a).2]
    rfl

theorem start_zero (two : 2 ≤ slots) (h : ProxyState.start slots maxClient listenFd = some s) (a : Nat) :
    (s.cache.nodes.cell a).httpInfo = .zero := by
  unfold ProxyState.start at h
  obtain ⟨rep, _, _⟩ := newFdList_spec (.empty (newFdNode none none (-1) .dummy .idle none)) maxClient
  obtain ⟨_, _, cache, _⟩ := appendFd_effect (by exact rep) h
  rw [cache]
  exact ((startQueue_spec two).2.2.2 a).2

/-- What holds of the start and is kept by every move holds of what a reachable state represents. -/
theorem reachable_invariant {P : View → Prop} (two : 2 ≤ slots)
    (initial : ∀ listener doc, (∀ a ∈ List.range' 0 slots, (doc a).complete = false) → P (.start slots listener doc))
    (preserved : ∀ v w, Sound v → P v → Move v w → P w) (h : Reachable slots s) :
    ∃ v, Represents s v ∧ Sound v ∧ P v := by
  induction h with
  | start h =>
    obtain ⟨listener, represents, _, incomplete⟩ := start_represents two h
    exact ⟨_, represents, start_sound two listener _, initial listener _ incomplete⟩
  | step _ next ih =>
    obtain ⟨v, represents, sound, holds⟩ := ih
    obtain ⟨w, refines⟩ := step_refines represents sound next
    exact ⟨w, refines.represents, refines.move.sound sound, preserved v w sound holds refines.move⟩

theorem reachable_represents (two : 2 ≤ slots) (h : Reachable slots s) : ∃ v, Represents s v ∧ Sound v := by
  obtain ⟨v, represents, sound, _⟩ := reachable_invariant (P := fun _ => True) two (fun _ _ _ => trivial)
    (fun _ _ _ _ _ => trivial) h
  exact ⟨v, represents, sound⟩

theorem reachable_of_run {es : List Event} (h : ProxyState.run slots maxClient listenFd es = some s) :
    Reachable slots s := by
  obtain ⟨start, started, run⟩ := Option.bind_eq_some_iff.mp h
  have reached : Reachable slots start := .start started
  clear h started
  induction es generalizing start with
  | nil => exact Option.some.inj run ▸ reached
  | cons e es ih =>
    obtain ⟨next, stepped, run⟩ := Option.bind_eq_some_iff.mp run
    exact ih next run (reached.step stepped)

end

/-! ### The events of one session -/

/-- Nothing is accepted or connected, the peer has closed, and everything is sent. -/
def Io.blank : Io :=
  { accepted := none, received := some [], connected := none, sent := maxDataSize, grown := fun _ => 0
    memory := ⟨List.replicate 1600 0, List.replicate 300 0, List.replicate 300 0⟩ }

namespace Event

/-- A client connects to the listener, which is at 2. -/
def accept (fd : Int) : Event := ⟨2, { Io.blank with accepted := some fd }⟩

/-- The client at `f` asks for a document of `host`, which `fd` is connected to. -/
def request (f : Nat) (host : String) (fd : Int) : Event :=
  ⟨f, { Io.blank with
    received := some (cstr ("GET /a HTTP/1.0\r\nHost: " ++ host ++ "\r\n\r\n"))
    connected := some fd }⟩

def send (f : Nat) (sent : Int) : Event := ⟨f, { Io.blank with sent := sent }⟩

def response (f : Nat) : Event := ⟨f, { Io.blank with received := some (cstr "HTTP/1.0 200 OK\r\n\r\nbody") }⟩

def closed (f : Nat) : Event := ⟨f, Io.blank⟩

end Event

end NetProjects.Proxy
