import NetProjects.Proxy.Handlers

/-!
# Sessions

An abstract proxy. Each client is at one stage of its session, and a server node exists only in the
stage that needs it, so the pairing of clients and servers holds by construction. `Move` says what
one event can do, `Sound` that a document being fetched is not in the queue and has one owner.
-/

namespace NetProjects.Proxy

/-- A document under its URL; `complete` once its header has been parsed. -/
structure Doc where
  host : List UInt8
  path : List UInt8
  complete : Bool

def Doc.SameUrl (d e : Doc) : Prop := d.host = e.host ∧ d.path = e.path

instance (d e : Doc) : Decidable (d.SameUrl e) := inferInstanceAs (Decidable (_ ∧ _))

/-- The stages of a client: its request is read into `node`, its document fetched into `node` by a
server node, which has been asked or not, and the document sent. -/
inductive Stage where
  | asking (client node : Nat)
  | fetching (client server node : Nat) (backup : Option Nat) (asked : Bool)
  | answering (client document : Nat)

namespace Stage

def nodes : Stage → List Nat
  | asking f _ => [f]
  | fetching f g _ _ _ => [f, g]
  | answering f _ => [f]

/-- The cache node that only this session uses. -/
def pending : Stage → Option Nat
  | asking _ c => some c
  | fetching _ _ c _ _ => some c
  | answering _ _ => none

def refs : Stage → List Nat
  | asking _ c => [c]
  | fetching _ _ c backup _ => c :: backup.toList
  | answering _ d => [d]

end Stage

structure View where
  listener : Nat
  stages : List Stage
  queue : List Nat
  doc : Nat → Doc
  cacheTop : Nat
  freed : List Nat

namespace View

variable (v : View)

def hit (d : Doc) : Option Nat := v.queue.find? fun a => (v.doc a).complete && decide ((v.doc a).SameUrl d)

def setDoc (c : Nat) (d : Doc) : View := { v with doc := Function.update v.doc c d }

@[simp] theorem setDoc_self (c : Nat) (d : Doc) : (v.setDoc c d).doc c = d := by
  simp only [View.setDoc, Function.update_self]

theorem setDoc_of_ne {c a : Nat} (other : a ≠ c) (d : Doc) : (v.setDoc c d).doc a = v.doc a := by
  simp only [View.setDoc, Function.update_of_ne other]

def setStages (stages : List Stage) : View := { v with stages := stages }

def accept (f : Nat) : View :=
  { v with
    stages := .asking f v.cacheTop :: v.stages
    doc := Function.update v.doc v.cacheTop ⟨[], [], false⟩
    cacheTop := v.cacheTop + 1 }

def enqueue (c r : Nat) (rest : List Nat) : View := { v with queue := c :: rest, freed := v.freed ++ [r] }

def pending : List Nat := v.stages.filterMap Stage.pending

def refs : List Nat := v.stages.flatMap Stage.refs

end View

/-- The document `c` is cached unless its URL is already. -/
inductive Stored (v : View) (c : Nat) : View → Prop where
  | known {a} (hit : v.hit (v.doc c) = some a) : Stored v c v
  | fresh {rest r} (miss : v.hit (v.doc c) = none) (queue : v.queue = rest ++ [r]) :
      Stored v c (v.enqueue c r rest)

inductive Move (v : View) : View → Prop where
  | stay : Move v v
  | accepted {f} : Move v (v.accept f)
  | dropped {f c d before after} (stages : v.stages = before ++ .asking f c :: after)
      (incomplete : d.complete = (v.doc c).complete) :
      Move v ((v.setDoc c d).setStages (before ++ after))
  | connected {f g c d before after} (stages : v.stages = before ++ .asking f c :: after)
      (incomplete : d.complete = (v.doc c).complete) :
      Move v ((v.setDoc c d).setStages (before ++ .fetching f g c ((v.setDoc c d).hit d) false :: after))
  | asked {f g c backup before after} (stages : v.stages = before ++ .fetching f g c backup false :: after) :
      Move v (v.setStages (before ++ .fetching f g c backup true :: after))
  | received {f g c backup before after} (stages : v.stages = before ++ .fetching f g c backup true :: after) :
      Move v (v.setDoc c { v.doc c with complete := true })
  | finished {f g c d backup before after w} (stages : v.stages = before ++ .fetching f g c backup true :: after)
      (document : d = c ∨ backup = some d)
      (stored : Stored ((v.setDoc c { v.doc c with complete := true }).setStages
        (before ++ .answering f d :: after)) c w) : Move v w
  | sent {f d before after} (stages : v.stages = before ++ .answering f d :: after) :
      Move v (v.setStages (before ++ after))

/-! ### The documents -/

/-- The documents being fetched are distinct, and neither queued nor freed. -/
structure Sound (v : View) : Prop where
  distinct : v.pending.Nodup
  pending : ∀ c ∈ v.pending, c < v.cacheTop ∧ c ∉ v.queue ∧ c ∉ v.freed
  slots : v.queue.Nodup ∧ 2 ≤ v.queue.length
  queued : ∀ a ∈ v.queue, a < v.cacheTop ∧ a ∉ v.freed
  released : ∀ a ∈ v.freed, a < v.cacheTop

section

variable {v w : View} {c r : Nat} {d : Doc} {rest : List Nat} {before after : List Stage} {st : Stage}

theorem hit_some {a : Nat} (found : v.hit d = some a) :
    a ∈ v.queue ∧ (v.doc a).complete = true ∧ (v.doc a).SameUrl d := by
  have good := List.find?_some found
  rw [Bool.and_eq_true, decide_eq_true_eq] at good
  exact ⟨List.mem_of_find?_eq_some found, good⟩

theorem hit_none (missing : v.hit d = none) {a : Nat} (queued : a ∈ v.queue) (complete : (v.doc a).complete = true) :
    ¬ (v.doc a).SameUrl d := by
  have bad := List.find?_eq_none.mp missing a queued
  rwa [complete, Bool.true_and, decide_eq_true_eq] at bad

theorem Sound.setDoc (h : Sound v) : Sound (v.setDoc c d) :=
  ⟨h.distinct, h.pending, h.slots, h.queued, h.released⟩

theorem Sound.setStages {stages : List Stage} (h : Sound v)
    (fewer : (stages.filterMap Stage.pending).Sublist v.pending) : Sound (v.setStages stages) :=
  ⟨fewer.nodup h.distinct, fun c member => h.pending c (fewer.subset member), h.slots, h.queued, h.released⟩

theorem Sound.accept (h : Sound v) (f : Nat) : Sound (v.accept f) := by
  have fresh : ∀ c ∈ v.pending, c ≠ v.cacheTop := fun c member => Nat.ne_of_lt (h.pending c member).1
  refine ⟨List.nodup_cons.mpr ⟨fun again => fresh _ again rfl, h.distinct⟩, fun c member => ?_, h.slots,
    fun a member => ?_, fun a member => Nat.lt_succ_of_lt (h.released a member)⟩
  · rcases List.mem_cons.mp member with rfl | old
    · exact ⟨Nat.lt_succ_self _, fun queued => Nat.lt_irrefl _ (h.queued _ queued).1,
        fun freed => Nat.lt_irrefl _ (h.released _ freed)⟩
    · obtain ⟨lower, apart⟩ := h.pending c old
      exact ⟨Nat.lt_succ_of_lt lower, apart⟩
  · obtain ⟨lower, live⟩ := h.queued a member
    exact ⟨Nat.lt_succ_of_lt lower, live⟩

theorem Sound.enqueue (h : Sound v) (queue : v.queue = rest ++ [r]) (allocated : c < v.cacheTop)
    (notQueued : c ∉ v.queue) (notFreed : c ∉ v.freed) (notPending : c ∉ v.pending) :
    Sound (v.enqueue c r rest) := by
  have distinct := h.slots.1
  rw [queue] at distinct notQueued
  obtain ⟨restDistinct, _, apart⟩ := List.nodup_append.mp distinct
  have inside : ∀ a ∈ rest, a ∈ v.queue := fun a member => queue ▸ List.mem_append_left _ member
  have rear : r ∈ v.queue := queue ▸ List.mem_append_right _ List.mem_cons_self
  have freed : ∀ a, a ∉ v.freed → a ≠ r → a ∉ v.freed ++ [r] := by
    intro a live other
    rw [List.mem_append, List.mem_singleton, not_or]
    exact ⟨live, other⟩
  refine ⟨h.distinct, fun a member => ?_, ⟨?_, ?_⟩, fun a member => ?_, fun a member => ?_⟩
  · obtain ⟨lower, notInQueue, live⟩ := h.pending a member
    refine ⟨lower, ?_, freed a live fun same => notInQueue (same ▸ rear)⟩
    show a ∉ c :: rest
    rw [List.mem_cons, not_or]
    exact ⟨fun same => notPending (same ▸ member), fun old => notInQueue (inside a old)⟩
  · exact List.nodup_cons.mpr ⟨fun old => notQueued (List.mem_append_left _ old), restDistinct⟩
  · have two := h.slots.2
    rw [queue, List.length_append, List.length_singleton] at two
    exact two
  · rcases List.mem_cons.mp member with rfl | old
    · exact ⟨allocated, freed a notFreed fun same => notQueued (same ▸ List.mem_append_right _ List.mem_cons_self)⟩
    · obtain ⟨lower, live⟩ := h.queued a (inside a old)
      exact ⟨lower, freed a live (apart a old r List.mem_cons_self)⟩
  · rcases List.mem_append.mp member with old | here
    · exact h.released a old
    · exact List.mem_singleton.mp here ▸ (h.queued r rear).1

theorem Stored.sound (h : Sound v) (allocated : c < v.cacheTop) (notQueued : c ∉ v.queue) (notFreed : c ∉ v.freed)
    (notPending : c ∉ v.pending) (stored : Stored v c w) : Sound w := by
  cases stored with
  | known => exact h
  | fresh _ queue => exact h.enqueue queue allocated notQueued notFreed notPending

theorem filterMap_middle (before after : List Stage) (st : Stage) :
    (before ++ st :: after).filterMap Stage.pending =
      before.filterMap Stage.pending ++ (st.pending.toList ++ after.filterMap Stage.pending) := by
  rw [List.filterMap_append, List.filterMap_cons]
  cases st.pending <;> rfl

theorem mem_pending (stages : v.stages = before ++ st :: after) (mine : st.pending = some c) : c ∈ v.pending := by
  rw [View.pending, stages, filterMap_middle, mine]
  exact List.mem_append_right _ List.mem_cons_self

/-- No two sessions fetch into one node. -/
theorem Sound.pending_apart (h : Sound v) (stages : v.stages = before ++ st :: after) (mine : st.pending = some c) :
    c ∉ (before ++ after).filterMap Stage.pending := by
  have distinct := h.distinct
  rw [View.pending, stages, filterMap_middle, mine] at distinct
  rw [List.filterMap_append]
  exact (List.nodup_cons.mp (List.nodup_middle.mp distinct)).1

theorem pending_replaced (stages : v.stages = before ++ st :: after) (st' : Stage)
    (fewer : st'.pending = st.pending ∨ st'.pending = none) :
    ((before ++ st' :: after).filterMap Stage.pending).Sublist v.pending := by
  rw [View.pending, stages, filterMap_middle, filterMap_middle]
  rcases fewer with same | none
  · rw [same]
  · rw [none]
    exact (List.Sublist.refl _).append (List.sublist_append_right _ _)

theorem pending_removed (stages : v.stages = before ++ st :: after) :
    ((before ++ after).filterMap Stage.pending).Sublist v.pending := by
  rw [View.pending, stages]
  exact ((List.Sublist.refl before).append (List.sublist_cons_self st after)).filterMap _

theorem Move.sound {v' : View} (h : Sound v) (move : Move v v') : Sound v' := by
  cases move with
  | stay => exact h
  | accepted => exact h.accept _
  | dropped stages _ => exact h.setDoc.setStages (pending_removed stages)
  | connected stages _ => exact h.setDoc.setStages (pending_replaced stages _ (.inl rfl))
  | asked stages => exact h.setStages (pending_replaced stages _ (.inl rfl))
  | received => exact h.setDoc
  | @finished f g c d backup before after w stages _ stored =>
    obtain ⟨allocated, notQueued, notFreed⟩ := h.pending c (mem_pending stages rfl)
    have fewer := pending_replaced stages (.answering f d) (.inr rfl)
    have notPending : c ∉ (before ++ .answering f d :: after).filterMap Stage.pending := by
      have apart := h.pending_apart stages rfl
      rw [List.filterMap_append] at apart
      rwa [filterMap_middle]
    exact stored.sound (h.setDoc.setStages fewer) allocated notQueued notFreed notPending
  | sent stages => exact h.setStages (pending_removed stages)

end

end NetProjects.Proxy
