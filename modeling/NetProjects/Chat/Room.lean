import NetProjects.Chat.Server

/-!
# The room

The list of sockets as the clients in it, in order of arrival, and what one turn of the router does
to it.
-/

namespace NetProjects.Chat
open Bytes Linked

/-! ### The list -/

section

variable (nodes : Heap SocketFd) (a b : Nat) (p : Option Nat)

@[simp] theorem setNext_next : ((setNext nodes a p).cell b).next = if b = a then p else (nodes.cell b).next := by
  rw [setNext, Heap.modify_cell]
  split <;> rfl

@[simp] theorem setNext_fd : ((setNext nodes a p).cell b).fd = (nodes.cell b).fd :=
  nodes.modify_field a b _ SocketFd.fd fun _ => rfl

@[simp] theorem setNext_username : ((setNext nodes a p).cell b).username = (nodes.cell b).username :=
  nodes.modify_field a b _ SocketFd.username fun _ => rfl

@[simp] theorem setNext_acked : ((setNext nodes a p).cell b).acked = (nodes.cell b).acked :=
  nodes.modify_field a b _ SocketFd.acked fun _ => rfl

@[simp] theorem setNext_top : (setNext nodes a p).top = nodes.top := rfl

end

/-- The list holds the clients `xs` behind its head, on different descriptors. -/
structure Listed (s : Server) (xs : List Nat) : Prop where
  links : Seg (fun a => (s.nodes.cell a).next) (some s.listenFd) (s.listenFd :: xs) none
  allocated : ∀ a ∈ s.listenFd :: xs, a < s.nodes.top
  fds : (xs.map fun a => (s.nodes.cell a).fd).Nodup

section

variable {s s' : Server} {nodes : Heap SocketFd} {xs ys before after : List Nat} {a b fuel : Nat} {fd : Int}
  {next : Option Nat}

namespace Listed

theorem nodup (h : Listed s xs) : (s.listenFd :: xs).Nodup := h.links.nodup

theorem clients_eq (h : Listed s xs) : s.clients = xs :=
  traverse_below h.links.2 fun a member => h.allocated a (List.mem_cons_of_mem _ member)

theorem mem_clients (h : Listed s (before ++ a :: after)) : a ∈ s.clients := by
  rw [h.clients_eq]
  exact List.mem_append_right _ List.mem_cons_self

theorem clients_lt (h : Listed s xs) : ∀ b ∈ s.clients, b < s.nodes.top := by
  intro b member
  rw [h.clients_eq] at member
  exact h.allocated b (List.mem_cons_of_mem _ member)

theorem length_lt (h : Listed s xs) : xs.length < s.nodes.top := by
  have shorter := length_le_of_below h.nodup h.allocated
  rwa [List.length_cons] at shorter

theorem next_eq (h : Listed s (before ++ a :: after)) : (s.nodes.cell a).next = after.head? :=
  h.links.2.split_at.2.head

theorem fd_inj (h : Listed s xs) (inA : a ∈ xs) (inB : b ∈ xs) : (s.nodes.cell a).fd = (s.nodes.cell b).fd ↔ a = b :=
  ⟨List.inj_on_of_nodup_map h.fds inA inB, fun same => same ▸ rfl⟩

/-- Nodes that keep their links and descriptors stay in the list. -/
theorem congr (h : Listed s xs) (head : s'.listenFd = s.listenFd) (top : s'.nodes.top = s.nodes.top)
    (next : ∀ a, (s'.nodes.cell a).next = (s.nodes.cell a).next) (fd : ∀ a, (s'.nodes.cell a).fd = (s.nodes.cell a).fd) :
    Listed s' xs := by
  refine ⟨?_, ?_, ?_⟩
  · rw [head]
    exact h.links.congr fun a _ => next a
  · rw [head, top]
    exact h.allocated
  · rw [List.map_congr_left fun a _ => fd a]
    exact h.fds

end Listed

theorem lastNode_eq (links : Seg (fun a => (nodes.cell a).next) (some a) (ys ++ [b]) none) (enough : ys.length < fuel) :
    lastNode nodes fuel a = some b := by
  induction ys generalizing a fuel with
  | nil =>
    obtain ⟨here, last⟩ := links
    obtain rfl := Option.some.inj here
    obtain ⟨fuel, rfl⟩ := Nat.exists_eq_add_of_lt enough
    have ended : (nodes.cell a).next = none := last
    simp only [lastNode, ended]
  | cons y ys ih =>
    obtain ⟨here, links⟩ := links
    obtain rfl := Option.some.inj here
    obtain ⟨fuel, rfl⟩ : ∃ m, fuel = m + 1 := ⟨fuel - 1, by omega⟩
    have links : Seg (fun a => (nodes.cell a).next) (nodes.cell a).next (ys ++ [b]) none := links
    obtain ⟨c, next⟩ : ∃ c, (nodes.cell a).next = some c := by
      cases ys with
      | nil => exact ⟨b, links.1⟩
      | cons z ys => exact ⟨z, links.1⟩
    simp only [lastNode, next]
    apply ih
    · rwa [next] at links
    · simp only [List.length_cons] at enough
      omega

/-- Two servers whose nodes differ in their links only. -/
structure SameClients (s s' : Server) : Prop where
  listenFd : s'.listenFd = s.listenFd
  fd : ∀ a < s.nodes.top, (s'.nodes.cell a).fd = (s.nodes.cell a).fd
  username : ∀ a < s.nodes.top, (s'.nodes.cell a).username = (s.nodes.cell a).username
  acked : ∀ a < s.nodes.top, (s'.nodes.cell a).acked = (s.nodes.cell a).acked

theorem appendNode_spec (h : Listed s xs) (fd : Int) (username : CharArray 16)
    (fresh : ∀ a ∈ xs, (s.nodes.cell a).fd ≠ fd) :
    ∃ s', appendNode s fd username = some s' ∧ Listed s' (xs ++ [s.nodes.top]) ∧ SameClients s s' ∧
      s'.nodes.top = s.nodes.top + 1 ∧ (s'.nodes.cell s.nodes.top).fd = fd ∧
      (s'.nodes.cell s.nodes.top).acked = false := by
  let nodes := s.nodes.alloc { fd := fd, username := username, next := none, acked := false }
  have old : ∀ a ∈ s.listenFd :: xs, nodes.cell a = s.nodes.cell a := fun a member =>
    Heap.alloc_cell_old _ (h.allocated a member)
  obtain ⟨ys, b, shape⟩ : ∃ ys b, s.listenFd :: xs = ys ++ [b] := by
    obtain none | ⟨ys, b, shape⟩ := List.eq_nil_or_concat (s.listenFd :: xs)
    · cases none
    · exact ⟨ys, b, by rw [shape, List.concat_eq_append]⟩
  have links : Seg (fun a => (nodes.cell a).next) (some s.listenFd) (ys ++ [b]) none := by
    rw [← shape]
    exact h.links.congr fun a member => congrArg SocketFd.next (old a member)
  have inside : ∀ a ∈ ys ++ [b], a < s.nodes.top := fun a member => h.allocated a (shape ▸ member)
  have enough : ys.length < nodes.top := by
    have lengths := congrArg List.length shape
    rw [List.length_cons, List.length_append, List.length_singleton] at lengths
    have shorter := h.length_lt
    change ys.length < s.nodes.top + 1
    omega
  have last := lastNode_eq links enough
  have newB : s.nodes.top ≠ b := (Nat.ne_of_lt (inside b (List.mem_append_right _ List.mem_cons_self))).symm
  have newCell : nodes.cell s.nodes.top = { fd := fd, username := username, next := none, acked := false } :=
    Heap.alloc_cell_top s.nodes _
  have keeps : ∀ a < s.nodes.top, nodes.cell a = s.nodes.cell a := fun a lower => Heap.alloc_cell_old _ lower
  refine ⟨{ s with nodes := setNext nodes b (some s.nodes.top) }, ?_, ⟨?_, ?_, ?_⟩, ⟨rfl, ?_, ?_, ?_⟩, rfl, ?_, ?_⟩
  · simp only [appendNode, nodes, last, Option.bind_eq_bind, Option.bind_some, Option.pure_def]
  · rw [← List.cons_append, shape, List.append_assoc]
    refine links.extend ?_ ?_ fun z member => ?_
    · simp only [setNext_next, if_true]
    · simp only [setNext_next, if_neg newB, newCell]
    · have other : z ≠ b := by
        rintro rfl
        have distinct : (ys ++ [z]).Nodup := shape ▸ h.nodup
        exact (List.nodup_append.mp distinct).2.2 z member z List.mem_cons_self rfl
      simp only [setNext_next, if_neg other]
  · intro a member
    rw [← List.cons_append, List.mem_append, List.mem_singleton] at member
    rcases member with member | rfl
    · exact Nat.lt_succ_of_lt (h.allocated a member)
    · exact Nat.lt_succ_self _
  · simp only [setNext_fd, List.map_append, List.map_cons, List.map_nil]
    rw [List.map_congr_left fun a member => congrArg SocketFd.fd (old a (List.mem_cons_of_mem _ member)), newCell]
    refine List.nodup_append.mpr ⟨h.fds, List.nodup_singleton _, ?_⟩
    intro x inside y new
    obtain ⟨a, member, rfl⟩ := List.mem_map.mp inside
    rw [List.mem_singleton.mp new]
    exact fresh a member
  · intro a lower
    rw [setNext_fd, keeps a lower]
  · intro a lower
    rw [setNext_username, keeps a lower]
  · intro a lower
    rw [setNext_acked, keeps a lower]
  · rw [setNext_fd, newCell]
  · rw [setNext_acked, newCell]

theorem removeNodeLoop_eq {p h : Nat}
    (links : Seg (fun a => (nodes.cell a).next) (some h) (ys ++ p :: a :: after) none)
    (before : ∀ z ∈ (ys ++ [p]).tail, (nodes.cell z).fd ≠ fd) (here : (nodes.cell a).fd = fd) (enough : ys.length < fuel) :
    removeNodeLoop nodes fd next fuel h = some (setNext nodes p next) := by
  induction ys generalizing h fuel with
  | nil =>
    obtain ⟨start, following, _⟩ := links
    obtain rfl := Option.some.inj start
    obtain ⟨fuel, rfl⟩ : ∃ m, fuel = m + 1 := ⟨fuel - 1, by omega⟩
    have following : (nodes.cell h).next = some a := following
    simp only [removeNodeLoop, following, Option.bind_eq_bind, Option.bind_some, here, if_true]
  | cons y ys ih =>
    obtain ⟨start, links⟩ := links
    obtain rfl := Option.some.inj start
    obtain ⟨fuel, rfl⟩ : ∃ m, fuel = m + 1 := ⟨fuel - 1, by omega⟩
    have links : Seg (fun a => (nodes.cell a).next) (nodes.cell h).next (ys ++ p :: a :: after) none := links
    obtain ⟨c, rest, shape⟩ : ∃ c rest, ys ++ [p] = c :: rest := by cases ys <;> exact ⟨_, _, rfl⟩
    have following : (nodes.cell h).next = some c := by
      have first := links
      rw [List.append_cons, shape] at first
      exact first.1
    have inside : c ∈ ys ++ [p] := shape ▸ List.mem_cons_self
    simp only [removeNodeLoop, following, Option.bind_eq_bind, Option.bind_some, if_neg (before c inside)]
    refine ih ?_ (fun z member => before z (List.mem_of_mem_tail member)) ?_
    · rwa [following] at links
    · simp only [List.length_cons] at enough
      omega

theorem removeNodeLoop_absent {h : Nat} (links : Seg (fun a => (nodes.cell a).next) (some h) (h :: xs) none)
    (absent : ∀ z ∈ xs, (nodes.cell z).fd ≠ fd) : removeNodeLoop nodes fd next fuel h = none := by
  induction xs generalizing h fuel with
  | nil =>
    have ended : (nodes.cell h).next = none := links.2
    cases fuel with
    | zero => rfl
    | succ fuel => simp only [removeNodeLoop, ended, Option.bind_eq_bind, Option.bind_none]
  | cons x xs ih =>
    have following : (nodes.cell h).next = some x := links.2.1
    have rest : Seg (fun a => (nodes.cell a).next) (some x) (x :: xs) none := following ▸ links.2
    cases fuel with
    | zero => rfl
    | succ fuel =>
      simp only [removeNodeLoop, following, Option.bind_eq_bind, Option.bind_some, if_neg (absent x List.mem_cons_self)]
      exact ih rest fun z member => absent z (List.mem_cons_of_mem _ member)

/-- The clients and their data are kept, the links are not. -/
structure SameNodes (s s' : Server) : Prop extends SameClients s s' where
  top : s'.nodes.top = s.nodes.top

theorem removeNode_spec (h : Listed s (before ++ a :: after)) :
    ∃ s', removeNode s a = some s' ∧ Listed s' (before ++ after) ∧ SameNodes s s' ∧
      (s'.nodes.cell a).next = after.head? := by
  obtain ⟨ys, p, shape⟩ : ∃ ys p, s.listenFd :: before = ys ++ [p] := by
    obtain none | ⟨ys, p, shape⟩ := List.eq_nil_or_concat (s.listenFd :: before)
    · cases none
    · exact ⟨ys, p, by rw [shape, List.concat_eq_append]⟩
  have whole : s.listenFd :: (before ++ a :: after) = ys ++ p :: a :: after := by
    rw [← List.cons_append, shape, List.append_assoc]
    rfl
  have links := h.links
  rw [whole] at links
  have distinct := h.nodup
  rw [whole] at distinct
  obtain ⟨_, tail, apart⟩ := List.nodup_append.mp distinct
  obtain ⟨pOutside, tail⟩ := List.nodup_cons.mp tail
  have aOther : a ≠ p := fun same => pOutside (same ▸ List.mem_cons_self)
  have others : ∀ z ∈ (ys ++ [p]).tail, (s.nodes.cell z).fd ≠ (s.nodes.cell a).fd := by
    intro z member
    rw [← shape, List.tail_cons] at member
    have inside : z ∈ before ++ a :: after := List.mem_append_left _ member
    rw [Ne, h.fd_inj inside (List.mem_append_right _ List.mem_cons_self)]
    rintro rfl
    have once := (List.nodup_cons.mp h.nodup).2
    exact (List.nodup_append.mp once).2.2 z member z List.mem_cons_self rfl
  have enough : ys.length < s.nodes.top := by
    have lengths := congrArg List.length whole
    have shorter := h.length_lt
    simp only [List.length_append, List.length_cons] at lengths shorter
    omega
  have removed : removeNodeLoop s.nodes (s.nodes.cell a).fd (s.nodes.cell a).next s.nodes.top s.listenFd =
      some (setNext s.nodes p (s.nodes.cell a).next) := removeNodeLoop_eq links others rfl enough
  refine ⟨{ s with nodes := setNext s.nodes p (s.nodes.cell a).next }, ?_, ⟨?_, ?_, ?_⟩, ⟨⟨rfl, ?_, ?_, ?_⟩, rfl⟩, ?_⟩
  · simp only [removeNode, removed, Option.bind_eq_bind, Option.bind_some, Option.pure_def]
  · have short : s.listenFd :: (before ++ after) = ys ++ p :: after := by
      rw [← List.cons_append, shape, List.append_assoc]
      rfl
    rw [short]
    refine links.skip ?_ (fun z member => ?_) fun z member => ?_
    · simp only [setNext_next, if_true]
    · have other : z ≠ p := apart z member p List.mem_cons_self
      simp only [setNext_next, if_neg other]
    · have other : z ≠ p := fun same => pOutside (same ▸ List.mem_cons_of_mem _ member)
      simp only [setNext_next, if_neg other]
  · intro z member
    apply h.allocated z
    simp only [List.mem_cons, List.mem_append] at member ⊢
    tauto
  · simp only [setNext_fd]
    exact h.fds.sublist (((List.sublist_cons_self a after).append_left before).map _)
  · exact fun b _ => setNext_fd _ _ _ _
  · exact fun b _ => setNext_username _ _ _ _
  · exact fun b _ => setNext_acked _ _ _ _
  · simp only [setNext_next, if_neg aOther]
    exact h.next_eq

theorem removeNode_absent (h : Listed s xs) (absent : ∀ b ∈ xs, (s.nodes.cell b).fd ≠ (s.nodes.cell a).fd) :
    removeNode s a = none := by
  simp only [removeNode, removeNodeLoop_absent h.links absent, Option.bind_eq_bind, Option.bind_none]

end

end NetProjects.Chat
