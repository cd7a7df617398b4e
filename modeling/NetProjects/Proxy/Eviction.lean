import NetProjects.Proxy.Start

/-!
# Documents that are evicted

The queue frees the document it evicts, whether a node of the descriptor list refers to it or not.
Where no eviction meets a reference, no freed document is accessed.
-/

namespace NetProjects.Proxy
open Bytes

/-- No node of the list refers to the last document of the queue. -/
def ProxyState.RearUnused (s : ProxyState) : Prop :=
  ∀ f ∈ s.fds,
    (s.fdNodes.cell f).cacheNode ≠ s.cache.queue.rear ∧ (s.fdNodes.cell f).cacheNodeBackup ≠ s.cache.queue.rear

instance (s : ProxyState) : Decidable s.RearUnused := inferInstanceAs (Decidable (∀ _ ∈ _, _))

/-- The event evicts nothing, or a document that no node of the list refers to. -/
def EvictsSafely (s : ProxyState) (e : Event) : Prop := Evicts s e.node e.io → s.RearUnused

inductive SafeReachable (slots : Nat) : ProxyState → Prop where
  | start {maxClient listenFd s} (h : ProxyState.start slots maxClient listenFd = some s) : SafeReachable slots s
  | step {s s' e} (h : SafeReachable slots s) (safe : EvictsSafely s e) (next : step s e = some s') :
      SafeReachable slots s'

def View.Live (v : View) : Prop := ∀ a ∈ v.refs, a ∉ v.freed

section

variable {slots a r : Nat} {s t : ProxyState} {e : Event} {v w : View} {before after : List Stage} {st st' : Stage}

theorem mem_refs_middle :
    a ∈ (before ++ st :: after).flatMap Stage.refs ↔ a ∈ (before ++ after).flatMap Stage.refs ∨ a ∈ st.refs := by
  simp only [List.flatMap_append, List.flatMap_cons, List.mem_append]
  tauto

theorem refs_remove (stages : v.stages = before ++ st :: after) (member : a ∈ (before ++ after).flatMap Stage.refs) :
    a ∈ v.refs := by
  rw [View.refs, stages]
  exact mem_refs_middle.mpr (.inl member)

theorem refs_replace (stages : v.stages = before ++ st :: after) (member : a ∈ (before ++ st' :: after).flatMap Stage.refs) :
    a ∈ v.refs ∨ a ∈ st'.refs :=
  (mem_refs_middle.mp member).imp_left (refs_remove stages)

theorem refs_of_stage (stages : v.stages = before ++ st :: after) (member : a ∈ st.refs) : a ∈ v.refs := by
  rw [View.refs, stages]
  exact mem_refs_middle.mpr (.inr member)

/-- A document that a session refers to after one event was referred to before, or is live. An event
that frees a document adds no reference. -/
theorem Move.refs (sound : Sound v) (move : Move v w) :
    (w.freed = v.freed ∧ ∀ a ∈ w.refs, a ∈ v.refs ∨ a ∉ v.freed) ∨
      ∃ rest r, v.queue = rest ++ [r] ∧ w.freed = v.freed ++ [r] ∧ ∀ a ∈ w.refs, a ∈ v.refs := by
  cases move with
  | stay => exact .inl ⟨rfl, fun a member => .inl member⟩
  | accepted =>
    refine .inl ⟨rfl, fun a member => ?_⟩
    rcases List.mem_cons.mp member with rfl | old
    · exact .inr fun freed => Nat.lt_irrefl _ (sound.released _ freed)
    · exact .inl old
  | dropped stages _ => exact .inl ⟨rfl, fun a member => .inl (refs_remove stages member)⟩
  | @connected f g c d before after stages _ =>
    refine .inl ⟨rfl, fun a member => ?_⟩
    rcases refs_replace stages member with old | new
    · exact .inl old
    · rcases List.mem_cons.mp new with rfl | hit
      · exact .inl (refs_of_stage stages List.mem_cons_self)
      · -- The backup is in the queue, whose documents are live.
        exact .inr (sound.queued a (hit_some (Option.mem_toList.mp hit)).1).2
  | @asked f g c backup before after stages =>
    refine .inl ⟨rfl, fun a member => .inl ((refs_replace stages member).elim id ?_)⟩
    intro (same : a ∈ (Stage.fetching f g c backup false).refs)
    exact refs_of_stage stages same
  | received => exact .inl ⟨rfl, fun a member => .inl member⟩
  | @finished f g c d backup before after w stages document stored =>
    have older : ∀ a ∈ (before ++ .answering f d :: after).flatMap Stage.refs, a ∈ v.refs := by
      intro a member
      refine (refs_replace stages member).elim id fun new => refs_of_stage stages ?_
      obtain rfl := List.mem_singleton.mp new
      rcases document with rfl | cached
      · exact List.mem_cons_self
      · exact List.mem_cons_of_mem _ (Option.mem_toList.mpr cached)
    cases stored with
    | known => exact .inl ⟨rfl, fun a member => .inl (older a member)⟩
    | @fresh rest r _ queue => exact .inr ⟨rest, r, queue, rfl, older⟩
  | sent stages => exact .inl ⟨rfl, fun a member => .inl (refs_remove stages member)⟩

theorem step_live (represents : Represents s v) (sound : Sound v) (live : v.Live) (safe : EvictsSafely s e)
    (next : step s e = some t) :
    ∃ w, Represents t w ∧ Sound w ∧ w.Live ∧ ∀ a ∈ t.stale, a ∈ s.stale := by
  obtain ⟨w, refines⟩ := step_refines represents sound next
  refine ⟨w, refines.represents, refines.move.sound sound, fun a member freed => ?_, fun a member => ?_⟩
  · rcases refines.move.refs sound with ⟨same, older⟩ | ⟨rest, r, queue, more, older⟩
    · rw [same] at freed
      exact (older a member).elim (fun old => live a old freed) fun alive => alive freed
    · rw [more] at freed
      rcases List.mem_append.mp freed with old | here
      · exact live a (older a member) old
      · obtain rfl := List.mem_singleton.mp here
        have evicts : Evicts s e.node e.io := by
          refine refines.frees.resolve_left fun same => ?_
          rw [same] at more
          simpa using congrArg List.length more
        have rear : s.cache.queue.rear = some a := by
          have links := represents.cache.queue.links
          rw [queue] at links
          exact links.rear_eq
        obtain ⟨front, last, xs, list⟩ := represents.list
        obtain ⟨f, listed, refers⟩ := list.refs_iff.mp (older a member)
        obtain ⟨notNode, notBackup⟩ := safe evicts f listed
        rw [rear] at notNode notBackup
        exact refers.elim notNode notBackup
  · exact (refines.accesses a member).resolve_right fun ⟨freed, referred⟩ => live a referred freed

/-- Where no eviction meets a reference, no freed document is ever accessed. -/
theorem evicted_unused (two : 2 ≤ slots) (h : SafeReachable slots s) : s.stale = [] := by
  have invariant : ∃ v, Represents s v ∧ Sound v ∧ v.Live ∧ s.stale = [] := by
    induction h with
    | start h =>
      obtain ⟨listener, represents, stale, _⟩ := start_represents two h
      exact ⟨_, represents, start_sound two listener _, fun a member => absurd member List.not_mem_nil, stale⟩
    | step _ safe next ih =>
      obtain ⟨v, represents, sound, live, stale⟩ := ih
      obtain ⟨w, represents', sound', live', accesses⟩ := step_live represents sound live safe next
      refine ⟨w, represents', sound', live', List.eq_nil_iff_forall_not_mem.mpr fun a member => ?_⟩
      have old := accesses a member
      rw [stale] at old
      exact List.not_mem_nil old
  obtain ⟨_, _, _, _, stale⟩ := invariant
  exact stale

theorem evicted_unused_one : ∃ s, SafeReachable 2 s ∧ s.cache.nodes.freed = [1] ∧ s.stale = [] := by
  let safely (s : ProxyState) (e : Event) : Option ProxyState := if s.RearUnused then step s e else none
  have freed : ((ProxyState.start 2 3 3).bind fun s =>
      [Event.accept 4, .request 3 "a" 5, .send 4 1500, .response 4, .closed 4].foldlM safely s).map
      (fun s => s.cache.nodes.freed) = some [1] := by
    decide +kernel
  obtain ⟨s, run, one⟩ := Option.map_eq_some_iff.mp freed
  obtain ⟨start, started, run⟩ := Option.bind_eq_some_iff.mp run
  have safe : ∀ (es : List Event) (s t : ProxyState), SafeReachable 2 s → es.foldlM safely s = some t →
      SafeReachable 2 t := by
    intro es
    induction es with
    | nil => exact fun s t reached run => Option.some.inj run ▸ reached
    | cons e es ih =>
      intro s t reached run
      obtain ⟨u, next, run⟩ := Option.bind_eq_some_iff.mp run
      obtain ⟨unused, next⟩ : s.RearUnused ∧ step s e = some u := by simpa [safely] using next
      exact ih u t (reached.step (fun _ => unused) next) run
  have reached := safe _ start s (.start started) run
  exact ⟨s, reached, one, evicted_unused (Nat.le_refl 2) reached⟩

/-- The client at 3 is sent its document at 2 after two other documents have entered the queue of
two slots, which has freed it. -/
theorem evicted_document_used : ¬ ∀ slots s, 2 ≤ slots → Reachable slots s → s.stale = [] := by
  intro unused
  have used : (ProxyState.run 2 3 3
      [.accept 4, .request 3 "a" 5, .send 4 1500, .response 4, .closed 4, .send 3 1,
        .accept 6, .request 5 "b" 7, .send 6 1500, .response 6, .closed 6,
        .accept 8, .request 7 "c" 9, .send 8 1500, .response 8, .closed 8, .send 3 1]).map (fun s => s.stale) =
      some [2] := by
    decide +kernel
  obtain ⟨s, run, stale⟩ := Option.map_eq_some_iff.mp used
  have nothing := unused 2 s (Nat.le_refl 2) (reachable_of_run run)
  rw [nothing] at stale
  cases stale

end

end NetProjects.Proxy
