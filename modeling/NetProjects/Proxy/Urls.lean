import NetProjects.Proxy.Start

/-!
# One document per URL

The complete documents of the queue have distinct URLs in every reachable state, and the others are
the dummies the queue started with.
-/

namespace NetProjects.Proxy

/-- The queue holds one complete document per URL, and dummies. -/
structure Cached (slots : Nat) (v : View) : Prop where
  urls : ∀ a ∈ v.queue, ∀ b ∈ v.queue, (v.doc a).complete = true → (v.doc b).complete = true →
    (v.doc a).SameUrl (v.doc b) → a = b
  dummies : ∀ a ∈ v.queue, (v.doc a).complete = false → a < slots

section

variable {slots c r : Nat} {d : Doc} {v w : View} {rest : List Nat}

theorem Cached.congr (h : Cached slots v) (queue : w.queue = v.queue) (doc : ∀ a ∈ v.queue, w.doc a = v.doc a) :
    Cached slots w := by
  refine ⟨fun a inA b inB => ?_, fun a member => ?_⟩
  · rw [queue] at inA inB
    rw [doc a inA, doc b inB]
    exact h.urls a inA b inB
  · rw [queue] at member
    rw [doc a member]
    exact h.dummies a member

theorem Cached.setDoc (h : Cached slots v) (outside : c ∉ v.queue) : Cached slots (v.setDoc c d) := by
  refine h.congr rfl fun a member => View.setDoc_of_ne v ?_ d
  rintro rfl
  exact outside member

theorem Cached.setStages (h : Cached slots v) (stages : List Stage) : Cached slots (v.setStages stages) :=
  h.congr rfl fun _ _ => rfl

theorem Cached.enqueue (h : Cached slots v) (queue : v.queue = rest ++ [r]) (complete : (v.doc c).complete = true)
    (miss : v.hit (v.doc c) = none) : Cached slots (v.enqueue c r rest) := by
  have old : ∀ a ∈ rest, a ∈ v.queue := fun a member => queue ▸ List.mem_append_left _ member
  refine ⟨fun a inA b inB completeA completeB same => ?_, fun a member incomplete => ?_⟩
  · rcases List.mem_cons.mp inA with newA | oldA
    · rcases List.mem_cons.mp inB with newB | oldB
      · rw [newA, newB]
      · rw [newA] at same
        exact absurd ⟨same.1.symm, same.2.symm⟩ (hit_none miss (old b oldB) completeB)
    · rcases List.mem_cons.mp inB with newB | oldB
      · rw [newB] at same
        exact absurd same (hit_none miss (old a oldA) completeA)
      · exact h.urls a (old a oldA) b (old b oldB) completeA completeB same
  · rcases List.mem_cons.mp member with rfl | member
    · exact absurd (complete.symm.trans incomplete) (by decide)
    · exact h.dummies a (old a member) incomplete

theorem Move.cached (sound : Sound v) (h : Cached slots v) (move : Move v w) : Cached slots w := by
  have outside : ∀ {st before after c}, v.stages = before ++ st :: after → st.pending = some c → c ∉ v.queue := by
    intro st before after c stages mine
    exact (sound.pending c (mem_pending stages mine)).2.1
  cases move with
  | stay => exact h
  | accepted =>
    refine h.congr rfl fun a member => Function.update_of_ne ?_ _ v.doc
    exact Nat.ne_of_lt (sound.queued a member).1
  | dropped stages _ => exact (h.setDoc (outside stages rfl)).setStages _
  | connected stages _ => exact (h.setDoc (outside stages rfl)).setStages _
  | asked => exact h.setStages _
  | received stages => exact h.setDoc (outside stages rfl)
  | @finished f g c d backup before after w stages _ stored =>
    have received := (h.setDoc (d := { v.doc c with complete := true }) (outside stages rfl)).setStages
      (before ++ .answering f d :: after)
    cases stored with
    | known => exact received
    | fresh miss queue =>
      refine received.enqueue queue ?_ miss
      exact congrArg Doc.complete (View.setDoc_self v c _)
  | sent => exact h.setStages _

theorem start_cached (listener : Nat) (doc : Nat → Doc) (incomplete : ∀ a ∈ List.range' 0 slots, (doc a).complete = false) :
    Cached slots (.start slots listener doc) := by
  refine ⟨fun a member _ _ complete => absurd (complete.symm.trans (incomplete a member)) (by decide), fun a member _ => ?_⟩
  have below := (List.mem_range'_1.mp member).2
  rwa [Nat.zero_add] at below

/-- In every reachable state the complete documents of the queue have distinct URLs, the others are
dummies the queue started with, and a lookup finds the document with the URL, if there is one. -/
theorem one_entry_per_url {s : ProxyState} (two : 2 ≤ slots) (h : Reachable slots s) :
    QueueRep s.cache s.cache.entries ∧
      (∀ a ∈ s.cache.entries, ∀ b ∈ s.cache.entries, (s.doc a).complete = true → (s.doc b).complete = true →
        (s.doc a).SameUrl (s.doc b) → a = b) ∧
      (∀ a ∈ s.cache.entries, (s.doc a).complete = false → a ∈ (startQueue slots).entries) ∧
      ∀ info a, isCacheHit s.cache info = some a ↔
        a ∈ s.cache.entries ∧ (s.doc a).complete = true ∧ (s.doc a).SameUrl info.doc := by
  obtain ⟨v, ⟨_, cache⟩, sound, cached⟩ := reachable_invariant two start_cached (fun _ _ => Move.cached) h
  have entries : s.cache.entries = v.queue := cache.queue.entries_eq
  rw [entries, cache.doc]
  refine ⟨cache.queue, cached.urls, fun a member incomplete => ?_, fun info a => ?_⟩
  · rw [(startQueue_spec two).1.entries_eq, List.mem_range'_1]
    have below := cached.dummies a member incomplete
    omega
  · rw [cache.isCacheHit_eq]
    refine ⟨hit_some, fun ⟨member, complete, same⟩ => ?_⟩
    cases found : v.hit info.doc with
    | none => exact absurd same (hit_none found member complete)
    | some b =>
      obtain ⟨memberB, completeB, sameB⟩ := hit_some found
      refine congrArg some (cached.urls b memberB a member completeB complete ?_)
      exact ⟨sameB.1.trans same.1.symm, sameB.2.trans same.2.symm⟩

theorem one_entry_per_url_one :
    ∃ s, Reachable 2 s ∧ s.cache.entries = [2, 0] ∧ isCacheHit s.cache (s.cache.nodes.cell 2).httpInfo = some 2 := by
  have cached : (ProxyState.run 2 3 3 [.accept 4, .request 3 "a" 5, .send 4 1500, .response 4, .closed 4]).map
      (fun s => (s.cache.entries, (s.doc 2).complete)) = some ([2, 0], true) := by
    decide +kernel
  obtain ⟨s, run, state⟩ := Option.map_eq_some_iff.mp cached
  obtain ⟨entries, complete⟩ := Prod.mk.inj state
  have reached := reachable_of_run run
  obtain ⟨_, _, _, lookup⟩ := one_entry_per_url (Nat.le_refl 2) reached
  refine ⟨s, reached, entries, (lookup _ 2).mpr ⟨?_, complete, rfl, rfl⟩⟩
  rw [entries]
  exact List.mem_cons_self

end

end NetProjects.Proxy
