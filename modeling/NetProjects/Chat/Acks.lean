import NetProjects.Chat.Answers
import NetProjects.Chat.Client
import NetProjects.Library.Framing

/-!
# What an ACK says

The number of the other clients and the names of all, as a client lists them, against the clients
that have joined. The array for the names is cleared in its first eight bytes, and 170 bytes of it are sent.
-/

namespace NetProjects.Chat
open Bytes Linked Framing

/-- The lines for the names, numbered from `i`. -/
def namesFrom (i : Nat) : List (List UInt8) → List Printed
  | [] => []
  | name :: names => { format := "user %d: %s\n", args := [cstr (toString i), name] } :: namesFrom (i + 1) names

/-- The ACK gives the number of the other clients that have joined, and the names of all of them. -/
structure Describes (s : Server) (ack : SbcpMsg) : Prop where
  count : cstring ack.attribute0.payload.bytes = cstr (toString ((s.joined.length : Int) - 1))
  names : printUsernames ack.attribute1.payload.bytes =
    some (namesFrom 0 (s.joined.map fun b => cstring (s.nodes.cell b).username.bytes))

/-- The turn ends, and the client `a` is sent an ACK that describes the chat it is now in. -/
def AckDescribes (a : Nat) (turned : Option (Server × Locals × List Action)) : Prop :=
  ∃ s l out ack, turned = some (s, l, out) ∧ .write a ack ∈ out ∧ getMsgType ack = HeaderType.ack.code ∧ Describes s ack

/-- Names in slots of 16 bytes that a client can list from the ACK: eleven of them, the last one
in ten bytes, and behind them a slot that is empty. -/
structure Listable (names : List (CharArray 16)) (usernames : CharArray 512) : Prop where
  few : names.length ≤ 11
  named : ∀ name ∈ names, 0 ∈ name.bytes ∧ cstring name.bytes ≠ []
  eleventh : ∀ name, names[10]? = some name → (cstring name.bytes).length ≤ 10
  clear : names.length ≤ 10 → usernames.bytes[16 * names.length]? = some 0

/-- Every other connection has joined, and the names with the new one can be listed. -/
structure AckFits (s : Server) (l : Locals) (a : Nat) (newName : CharArray 16) : Prop where
  joined : ∀ b ∈ s.clients, b ≠ a → (s.nodes.cell b).acked
  listable : Listable (s.clients.map fun b => ((s.named a newName).nodes.cell b).username) l.usernames

/-! ### Slots -/

/-- A slot with a name and its end. -/
def Reads (slot name : List UInt8) : Prop := 0 ∈ slot ∧ cstring slot = name

theorem printUsernamesLoop_succ {buf : List UInt8} {fuel i : Nat} (inside : 16 * (i + (fuel + 1)) ≤ buf.length) :
    printUsernamesLoop buf (fuel + 1) i =
      if 0 ∈ chunk 16 buf i then
        if cstring (chunk 16 buf i) = [] then some []
        else (printUsernamesLoop buf fuel (i + 1)).map
          ({ format := "user %d: %s\n", args := [cstr (toString i), cstring (chunk 16 buf i)] } :: ·)
      else none := by
  have read : memread buf (i * 16) 16 = some (chunk 16 buf i) := by
    rw [memread, if_pos (by omega), chunk, Nat.mul_comm]
  rw [printUsernamesLoop, read, Option.bind_eq_bind, Option.bind_some, strlen]
  by_cases terminated : 0 ∈ chunk 16 buf i
  · simp only [if_pos terminated, Option.bind_eq_bind, Option.bind_some, List.length_eq_zero_iff, Option.pure_def,
      Option.map_eq_bind]
    rfl
  · simp only [if_neg terminated, Option.bind_eq_bind, Option.bind_none]

/-- From slot `i` on there are the names, and behind them an empty slot if one is left. -/
def Slots (buf : List UInt8) (fuel i : Nat) (names : List (List UInt8)) : Prop :=
  names.length ≤ fuel ∧ (∀ k name, names[k]? = some name → Reads (chunk 16 buf (i + k)) name ∧ name ≠ []) ∧
    (names.length < fuel → Reads (chunk 16 buf (i + names.length)) [])

theorem slots_nil {buf : List UInt8} {fuel i : Nat} : Slots buf (fuel + 1) i [] ↔ Reads (chunk 16 buf i) [] :=
  ⟨fun slots => slots.2.2 (Nat.succ_pos fuel), fun reads => ⟨Nat.zero_le _, nofun, fun _ => reads⟩⟩

theorem slots_cons {buf name : List UInt8} {fuel i : Nat} {names : List (List UInt8)} :
    Slots buf (fuel + 1) i (name :: names) ↔
      (Reads (chunk 16 buf i) name ∧ name ≠ []) ∧ Slots buf fuel (i + 1) names := by
  constructor
  · rintro ⟨few, slots, ended⟩
    refine ⟨slots 0 name rfl, Nat.le_of_succ_le_succ few, fun k other at_k => ?_, fun less => ?_⟩
    · rw [Nat.add_right_comm]
      exact slots (k + 1) other at_k
    · rw [Nat.add_right_comm]
      exact ended (Nat.succ_lt_succ less)
  · rintro ⟨here, few, slots, ended⟩
    refine ⟨Nat.succ_le_succ few, fun k other at_k => ?_, fun less => ?_⟩
    · cases k with
      | zero =>
        obtain rfl := Option.some.inj at_k
        exact here
      | succ k =>
        have moved := slots k other at_k
        rwa [Nat.add_right_comm] at moved
    · have moved := ended (Nat.lt_of_succ_lt_succ less)
      rwa [Nat.add_right_comm] at moved

theorem printUsernamesLoop_iff {buf : List UInt8} {fuel i : Nat} {names : List (List UInt8)}
    (inside : 16 * (i + fuel) ≤ buf.length) :
    printUsernamesLoop buf fuel i = some (namesFrom i names) ↔ Slots buf fuel i names := by
  induction fuel generalizing i names with
  | zero =>
    cases names with
    | nil => simp [printUsernamesLoop, namesFrom, Slots]
    | cons name names => simp [printUsernamesLoop, namesFrom, Slots]
  | succ fuel ih =>
    rw [printUsernamesLoop_succ inside]
    cases names with
    | nil =>
      rw [slots_nil, Reads]
      by_cases terminated : 0 ∈ chunk 16 buf i
      · rw [if_pos terminated, and_iff_right terminated]
        by_cases empty : cstring (chunk 16 buf i) = []
        · rw [if_pos empty]
          exact iff_of_true rfl empty
        · rw [if_neg empty]
          refine iff_of_false (fun printed => ?_) empty
          obtain ⟨rest, _, same⟩ := Option.map_eq_some_iff.mp printed
          cases same
      · rw [if_neg terminated]
        exact iff_of_false nofun fun reads => terminated reads.1
    | cons name names =>
      rw [slots_cons, ← ih (by omega)]
      constructor
      · intro printed
        split at printed
        · rename_i terminated
          split at printed
          · cases printed
          · rename_i nonempty
            obtain ⟨rest, looped, same⟩ := Option.map_eq_some_iff.mp printed
            obtain ⟨here, rfl⟩ := List.cons.inj same
            have args := congrArg Printed.args here
            have read : cstring (chunk 16 buf i) = name := (List.cons.inj (List.cons.inj args).2).1
            exact ⟨⟨⟨terminated, read⟩, read ▸ nonempty⟩, looped⟩
        · cases printed
      · rintro ⟨⟨⟨terminated, read⟩, nonempty⟩, looped⟩
        rw [if_pos terminated, read, if_neg nonempty, looped]
        rfl

theorem reads_nil {slot : List UInt8} : Reads slot [] ↔ slot[0]? = some 0 := by
  cases slot with
  | nil => exact iff_of_false (fun reads => nomatch reads.1) nofun
  | cons c slot =>
    by_cases zero : c = 0
    · subst zero
      exact iff_of_true ⟨List.mem_cons_self, rfl⟩ rfl
    · refine iff_of_false (fun reads => ?_) fun first => zero (Option.some.inj first)
      have empty := reads.2
      rw [cstring_cons zero] at empty
      cases empty

theorem getElem?_chunk {buf : List UInt8} {k : Nat} : (chunk 16 buf k)[0]? = buf[16 * k]? := by
  rw [chunk, List.getElem?_take_of_lt (by decide), List.getElem?_drop, Nat.add_zero]

/-- The array that `get_usernames` leaves: the names, and behind them what was there before. -/
def listing (names : List (CharArray 16)) (usernames : CharArray 512) : List UInt8 :=
  (names.map CharArray.bytes).flatten ++ usernames.bytes.drop (16 * names.length)

/-- The payload of the ACK: the first 170 bytes of the array. -/
def ackPayload (names : List (CharArray 16)) (usernames : CharArray 512) : List UInt8 :=
  (listing names usernames).take 170 ++ List.replicate 342 0

section

variable {names : List (CharArray 16)} {usernames : CharArray 512} {name : CharArray 16} {k : Nat}

theorem slots_uniform : ∀ u ∈ names.map CharArray.bytes, u.length = 16 := by
  intro u member
  obtain ⟨name, _, rfl⟩ := List.mem_map.mp member
  exact name.size

theorem length_names : ((names.map CharArray.bytes).flatten).length = 16 * names.length := by
  rw [length_flatten_of_uniform slots_uniform, List.length_map]

theorem length_listing (usernames : CharArray 512) (few : names.length ≤ 32) : (listing names usernames).length = 512 := by
  rw [listing, List.length_append, length_names, List.length_drop, usernames.size]
  omega

theorem listing_slot (at_k : names[k]? = some name) : chunk 16 (listing names usernames) k = name.bytes :=
  chunk_flatten slots_uniform (by rw [List.getElem?_map, at_k]; rfl) _

theorem ackPayload_slot (few : names.length ≤ 32) (early : k < 10) :
    chunk 16 (ackPayload names usernames) k = chunk 16 (listing names usernames) k := by
  have size := length_listing usernames few
  rw [ackPayload, chunk_append_left (by rw [List.length_take]; omega), chunk_take (by omega)]

/-- The eleventh slot is cut after ten bytes. -/
theorem ackPayload_ten (few : names.length ≤ 32) : chunk 16 (ackPayload names usernames) 10 =
    (chunk 16 (listing names usernames) 10).take 10 ++ List.replicate 6 0 := by
  have size := length_listing usernames few
  have ten : (((listing names usernames).take 170).drop (16 * 10)).length = 10 := by
    rw [List.length_drop, List.length_take, size]
    rfl
  rw [ackPayload, chunk, List.drop_append_of_le_length (by rw [List.length_take]; omega), List.take_append,
    List.take_of_length_le (by omega), ten, List.drop_take, chunk, List.take_take, List.take_replicate]
  rfl

theorem ackPayload_eleven (few : names.length ≤ 32) :
    chunk 16 (ackPayload names usernames) 11 = List.replicate 16 0 := by
  have size := length_listing usernames few
  have cut : ((listing names usernames).take 170).length = 170 := by
    rw [List.length_take, size]
    rfl
  rw [ackPayload, chunk, List.drop_append, List.drop_of_length_le (by omega), List.nil_append, cut, List.drop_replicate,
    List.take_replicate]
  rfl

/-- The slot behind the names is the one of the array that was there before. -/
theorem ackPayload_end (few : names.length ≤ 10) :
    (ackPayload names usernames)[16 * names.length]? = usernames.bytes[16 * names.length]? := by
  have size := length_listing usernames (few.trans (by decide))
  rw [ackPayload, List.getElem?_append_left (by rw [List.length_take]; omega), List.getElem?_take_of_lt (by omega), listing,
    List.getElem?_append_right length_names.le, length_names, Nat.sub_self, List.getElem?_drop, Nat.add_zero]

theorem length_ackPayload (few : names.length ≤ 32) : (ackPayload names usernames).length = 512 := by
  rw [ackPayload, List.length_append, List.length_take, length_listing usernames few, List.length_replicate]
  rfl

theorem cstring_ten {bytes : List UInt8} (size : bytes.length = 16) :
    Reads (bytes.take 10 ++ List.replicate 6 0) (cstring bytes) ↔ 0 ∈ bytes ∧ (cstring bytes).length ≤ 10 := by
  have cut : cstring (bytes.take 10 ++ List.replicate 6 0) = (cstring bytes).take 10 := by
    rw [show List.replicate 6 (0 : UInt8) = 0 :: List.replicate 5 0 from rfl, cstring_append_nul, cstring_take]
  have ended : (0 : UInt8) ∈ bytes.take 10 ++ List.replicate 6 0 := by simp
  rw [Reads, and_iff_right ended, cut]
  constructor
  · intro same
    have short := congrArg List.length same
    rw [List.length_take] at short
    refine ⟨?_, by omega⟩
    by_contra unterminated
    rw [cstring_eq_self unterminated] at short
    omega
  · exact fun short => List.take_of_length_le short.2

/-- The first ten names are read in full, and the eleventh up to where it is cut. -/
theorem ackPayload_reads (few : names.length ≤ 32) (at_k : names[k]? = some name) (lower : k ≤ 10) :
    Reads (chunk 16 (ackPayload names usernames) k) (cstring name.bytes) ↔
      0 ∈ name.bytes ∧ (k = 10 → (cstring name.bytes).length ≤ 10) := by
  by_cases early : k < 10
  · rw [ackPayload_slot few early, listing_slot at_k, Reads, and_iff_left rfl]
    exact (and_iff_left fun ten => absurd ten (Nat.ne_of_lt early)).symm
  · obtain rfl : k = 10 := by omega
    rw [ackPayload_ten few, listing_slot at_k, cstring_ten name.size]
    simp

/-- The names are listed in full exactly when there are few of them and nothing is left behind them. -/
theorem printUsernames_iff (few : names.length ≤ 32) :
    printUsernames (ackPayload names usernames) = some (namesFrom 0 (names.map fun (name : CharArray 16) => cstring name.bytes)) ↔
      Listable names usernames := by
  have inside : 16 * (0 + 16) ≤ (ackPayload names usernames).length := by
    rw [length_ackPayload few]
    decide
  rw [printUsernames, printUsernamesLoop_iff inside, Slots, List.length_map]
  have at_name : ∀ k (name : CharArray 16), names[k]? = some name →
      (names.map fun (name : CharArray 16) => cstring name.bytes)[k]? = some (cstring name.bytes) := fun k name at_k => by
    rw [List.getElem?_map, at_k]
    rfl
  constructor
  · rintro ⟨_, slots, ended⟩
    have eleven : names.length ≤ 11 := by
      by_contra many
      obtain ⟨name, at_name11⟩ : ∃ name, names[11]? = some name := ⟨names[11], List.getElem?_eq_getElem (by omega)⟩
      obtain ⟨reads, nonempty⟩ := slots 11 _ (at_name 11 name at_name11)
      rw [Nat.zero_add, ackPayload_eleven few] at reads
      exact nonempty (reads.2.symm.trans (by decide))
    have read : ∀ k (name : CharArray 16), names[k]? = some name →
        (0 ∈ name.bytes ∧ (k = 10 → (cstring name.bytes).length ≤ 10)) ∧ cstring name.bytes ≠ [] := by
      intro k name at_k
      obtain ⟨reads, nonempty⟩ := slots k _ (at_name k name at_k)
      obtain ⟨lower, _⟩ := List.getElem?_eq_some_iff.mp at_k
      rw [Nat.zero_add, ackPayload_reads few at_k (by omega)] at reads
      exact ⟨reads, nonempty⟩
    refine ⟨eleven, fun name member => ?_, fun name at_ten => (read 10 name at_ten).1.2 rfl, fun less => ?_⟩
    · obtain ⟨k, at_k⟩ := List.mem_iff_getElem?.mp member
      obtain ⟨⟨terminated, _⟩, nonempty⟩ := read k name at_k
      exact ⟨terminated, nonempty⟩
    · have reads := ended (by omega)
      rwa [Nat.zero_add, reads_nil, getElem?_chunk, ackPayload_end less] at reads
  · intro listable
    have eleven := listable.few
    refine ⟨by omega, fun k text at_k => ?_, fun _ => ?_⟩
    · rw [List.getElem?_map] at at_k
      obtain ⟨name, here, rfl⟩ := Option.map_eq_some_iff.mp at_k
      obtain ⟨terminated, nonempty⟩ := listable.named name (List.mem_of_getElem? here)
      obtain ⟨lower, _⟩ := List.getElem?_eq_some_iff.mp here
      rw [Nat.zero_add, ackPayload_reads few here (by omega)]
      refine ⟨⟨terminated, ?_⟩, nonempty⟩
      rintro rfl
      exact listable.eleventh name here
    · rw [Nat.zero_add, reads_nil, getElem?_chunk]
      by_cases less : names.length ≤ 10
      · rw [ackPayload_end less]
        exact listable.clear less
      · have all : names.length = 11 := by omega
        rw [all, ← getElem?_chunk, ackPayload_eleven few]
        rfl

end

/-! ### The ACK the server makes -/

section

variable {maxClients sockfd : Int} {username : CharArray 16} {turns : List Turn} {s s' : Server} {r : Round}
  {l l' : Locals} {before after : List Nat} {a : Nat} {received : Received} {out : List Action} {ack : SbcpMsg}

theorem foldlM_memcpy_spec {ι : Type} (f : ι → CharArray 16) (u : CharArray 512) (ys : List ι) (k : Nat)
    (few : k + ys.length ≤ 32) :
    ∃ u', (ys.zipIdx k).foldlM (fun (u : CharArray 512) y => u.memcpy (y.2 * 16) (f y.1).bytes) u = some u' ∧
      u'.bytes = u.bytes.take (16 * k) ++ ((ys.map f).map CharArray.bytes).flatten ++
        u.bytes.drop (16 * (k + ys.length)) := by
  induction ys generalizing k u with
  | nil => exact ⟨u, rfl, by simp⟩
  | cons y ys ih =>
    rw [List.length_cons] at few
    have size := u.size
    obtain ⟨u₁, copied, bytes⟩ := CharArray.memcpy_of_fits u (k * 16) (f y).bytes (by rw [(f y).size]; omega)
    obtain ⟨u₂, folded, result⟩ := ih u₁ (k + 1) (by omega)
    refine ⟨u₂, ?_, ?_⟩
    · rw [List.zipIdx_cons, List.foldlM_cons, copied]
      exact folded
    · have front : (u.bytes.take (k * 16) ++ (f y).bytes).length = 16 * (k + 1) := by
        rw [List.length_append, List.length_take, (f y).size]
        omega
      have later : 16 * (k + 1 + ys.length) = 16 * (k + 1) + 16 * ys.length := by omega
      rw [result, bytes, Bytes.memcpy, (f y).size, List.take_left' front, later, ← List.drop_drop, List.drop_left' front,
        List.drop_drop, List.map_cons, List.map_cons, List.flatten_cons, List.length_cons, Nat.mul_comm k 16]
      simp only [List.append_assoc]
      congr 4
      omega

/-- The eight bytes that are cleared are those of the first name. -/
theorem getUsernames_spec (few : s.clients.length ≤ 32) (nonempty : s.clients ≠ []) (u : CharArray 512) :
    ∃ u', getUsernames s u = some u' ∧ u'.bytes = listing (s.clients.map fun b => (s.nodes.cell b).username) u := by
  obtain ⟨cleared, copied, bytes⟩ := CharArray.memcpy_of_fits u 0 (List.replicate 8 0) (by decide)
  obtain ⟨u', folded, result⟩ :=
    foldlM_memcpy_spec (fun b => (s.nodes.cell b).username) cleared s.clients 0 (by omega)
  have positive := List.length_pos_iff.mpr nonempty
  refine ⟨u', ?_, ?_⟩
  · simp only [getUsernames, copied, Option.bind_eq_bind, Option.bind_some]
    exact folded
  · rw [result, bytes, Nat.mul_zero, List.take_zero, List.nil_append, Nat.zero_add, memcpy_zero, List.length_replicate,
      listing, List.length_map, List.drop_append, List.drop_eq_nil_of_le (by rw [List.length_replicate]; omega),
      List.nil_append, List.length_replicate, List.drop_drop]
    congr 2
    omega

theorem count_text : ∀ n : Fin 33, 0 ∉ cstr (toString ((n.val : Int) - 1)) := by decide

theorem count_inj : ∀ n m : Fin 33, cstr (toString ((n.val : Int) - 1)) = cstr (toString ((m.val : Int) - 1)) → n = m := by
  decide +kernel

theorem makeMsgAck_spec {countStr : CharArray 5} {n : Nat} {usernames : CharArray 512} (few : n ≤ 32)
    (made : makeMsgAck countStr ((n : Int) - 1) usernames.bytes = some ack) :
    getMsgType ack = HeaderType.ack.code ∧ cstring ack.attribute0.payload.bytes = cstr (toString ((n : Int) - 1)) ∧
      ack.attribute1.payload.bytes = usernames.bytes.take 170 ++ List.replicate 342 0 := by
  obtain ⟨digits, printed, made⟩ := Option.bind_eq_some_iff.mp made
  obtain ⟨count, madeCount, made⟩ := Option.bind_eq_some_iff.mp made
  obtain ⟨names, madeNames, made⟩ := Option.bind_eq_some_iff.mp made
  obtain rfl := Option.some.inj made
  obtain ⟨_, _, _, _, payload⟩ := makeAttribute_spec madeNames
  obtain ⟨_, _, _, _, countPayload⟩ := makeAttribute_spec madeCount
  refine ⟨getMsgType_ofType .ack, ?_, payload⟩
  obtain ⟨_, bytes⟩ := CharArray.memcpy_eq_some printed
  change cstring count.payload.bytes = _
  have noNul := count_text ⟨n, by omega⟩
  rw [countPayload, List.take_of_length_le digits.size.le, bytes, memcpy_zero, List.append_assoc, List.append_assoc,
    List.singleton_append, cstring_append_nul, cstring_eq_self noNul]

theorem admitClient_cases (done : admitClient r s l a = some (s', l', out)) :
    ∃ usernames ack online, s' = s.named a l.newName ∧ getUsernames (s.named a l.newName) l.usernames = some usernames ∧
      makeMsgAck (r.countStr a) (clientCount (s.named a l.newName) - 1) usernames.bytes = some ack ∧
      getMsgType online = HeaderType.online.code ∧ out = .write a ack :: msgBroadcast (s.named a l.newName) a online := by
  obtain ⟨usernames, listed, done⟩ := Option.bind_eq_some_iff.mp done
  obtain ⟨ack, madeAck, done⟩ := Option.bind_eq_some_iff.mp done
  obtain ⟨online, madeOnline, done⟩ := Option.bind_eq_some_iff.mp done
  have type : getMsgType online = HeaderType.online.code := by
    obtain ⟨filled, _, madeOnline⟩ := Option.bind_eq_some_iff.mp madeOnline
    obtain rfl := Option.some.inj madeOnline
    exact getMsgType_ofType .online
  cases done
  exact ⟨usernames, ack, online, rfl, listed, madeAck, type, rfl⟩

/-- With the new client all of the list have joined exactly when the others had. -/
theorem joined_named_iff {newName : CharArray 16} : (s.named a newName).joined.length = s.clients.length ↔
    ∀ b ∈ s.clients, b ≠ a → (s.nodes.cell b).acked := by
  rw [Server.joined, named_clients, List.length_filter_eq_length_iff]
  refine forall₂_congr fun b _ => ?_
  by_cases self : b = a
  · subst self
    exact iff_of_true named_self.2 fun other => absurd rfl other
  · rw [named_other self]
    exact ⟨fun acked _ => acked, fun acked => acked self⟩

theorem joined_named_eq {newName : CharArray 16} (joined : ∀ b ∈ s.clients, b ≠ a → (s.nodes.cell b).acked) :
    (s.named a newName).joined = s.clients := by
  have all : (s.named a newName).joined.length = s.clients.length := joined_named_iff.mpr joined
  rw [Server.joined, named_clients] at all ⊢
  exact List.filter_eq_self.mpr (List.length_filter_eq_length_iff.mp all)

theorem describes_iff {newName : CharArray 16} {usernames : CharArray 512} {countStr : CharArray 5}
    (few : s.clients.length ≤ 32) (inside : a ∈ s.clients)
    (listed : getUsernames (s.named a newName) l.usernames = some usernames)
    (made : makeMsgAck countStr (clientCount (s.named a newName) - 1) usernames.bytes = some ack) :
    Describes (s.named a newName) ack ↔ AckFits s l a newName := by
  have nonempty : (s.named a newName).clients ≠ [] := by
    rw [named_clients]
    exact List.ne_nil_of_mem inside
  obtain ⟨u', same, bytes⟩ := getUsernames_spec (by rwa [named_clients]) nonempty l.usernames
  obtain rfl := Option.some.inj (listed.symm.trans same)
  rw [named_clients] at bytes
  rw [clientCount, named_clients] at made
  obtain ⟨_, count, payload⟩ := makeMsgAck_spec few made
  let names := s.clients.map fun b => ((s.named a newName).nodes.cell b).username
  have fewNames : names.length ≤ 32 := by rwa [List.length_map]
  have shown : ack.attribute1.payload.bytes = ackPayload names l.usernames := by
    rw [payload, bytes, ackPayload]
  -- Once all have joined, the names of the clients that have joined are the names in the list.
  have sameNames (joined : ∀ b ∈ s.clients, b ≠ a → (s.nodes.cell b).acked) :
      (s.named a newName).joined.map (fun b => cstring ((s.named a newName).nodes.cell b).username.bytes) =
        names.map fun name => cstring name.bytes := by
    rw [joined_named_eq joined, List.map_map]
    rfl
  constructor
  · intro describes
    have fewer : (s.named a newName).joined.length ≤ s.clients.length := by
      rw [Server.joined, named_clients]
      exact List.length_filter_le _ _
    have counted := count_inj ⟨s.clients.length, by omega⟩ ⟨(s.named a newName).joined.length, by omega⟩
      (count.symm.trans describes.count)
    have joined := joined_named_iff.mp (Fin.mk.inj counted).symm
    refine ⟨joined, (printUsernames_iff fewNames).mp ?_⟩
    rw [← shown, ← sameNames joined]
    exact describes.names
  · intro fits
    refine ⟨?_, ?_⟩
    · rw [joined_named_eq fits.joined]
      exact count
    · rw [shown, sameNames fits.joined]
      exact (printUsernames_iff fewNames).mpr fits.listable

theorem routeMessage_admits (asked : getMsgType (castMsg l.buf) = HeaderType.join.code)
    (accepted : ¬ Refuses maxClients r s (parseMsgJoin (castMsg l.buf) l.newName)) :
    routeMessage maxClients r s l a = admitClient r s { l with newName := parseMsgJoin (castMsg l.buf) l.newName } a := by
  obtain ⟨room, unique⟩ := not_or.mp accepted
  simp only [routeMessage, asked, routeJoin, if_neg room, if_neg unique]
  rfl

theorem routeMessage_describes_iff (listed : Listed s (before ++ a :: after))
    (asked : getMsgType (castMsg l.buf) = HeaderType.join.code)
    (accepted : ¬ Refuses maxClients r s (parseMsgJoin (castMsg l.buf) l.newName)) :
    AckDescribes a (routeMessage maxClients r s l a) ↔ AckFits s l a (parseMsgJoin (castMsg l.buf) l.newName) := by
  rw [routeMessage_admits asked accepted]
  have inside := listed.mem_clients
  by_cases few : s.clients.length ≤ 32
  swap
  · -- The names overflow the array.
    refine iff_of_false ?_ fun fits => ?_
    · rintro ⟨_, _, _, _, done, _⟩
      rw [admitClient_of_many (not_le.mp few)] at done
      cases done
    · have eleven := fits.listable.few
      rw [List.length_map] at eleven
      omega
  obtain ⟨_, _, _, _, _, done⟩ := admitClient_of_few (r := r) (a := a)
    (l := { l with newName := parseMsgJoin (castMsg l.buf) l.newName }) few
  obtain ⟨usernames, ack, online, _, names, made, onlineType, sent⟩ := admitClient_cases done
  have iff := describes_iff (l := l) few inside names made
  rw [done]
  constructor
  · rintro ⟨_, _, _, ack', same, member, type, describes⟩
    obtain ⟨rfl, rfl, rfl⟩ := same
    rw [sent] at member
    rcases List.mem_cons.mp member with own | broadcast
    · obtain ⟨_, rfl⟩ := Action.write.inj own
      exact iff.mp describes
    · obtain ⟨b, _, wrote⟩ := List.mem_map.mp broadcast
      obtain ⟨_, rfl⟩ := Action.write.inj wrote
      rw [onlineType] at type
      cases type
  · intro fits
    refine ⟨_, _, _, ack, rfl, ?_, ?_, iff.mpr fits⟩
    · rw [sent]
      exact List.mem_cons_self
    · rw [clientCount, named_clients] at made
      exact (makeMsgAck_spec few made).1

/-- What a client prints for its ACK. -/
def joinedLines (myName : List UInt8) (others : Int) : List Printed :=
  [{ format := "Join success! Your username: %s\n", args := [cstring myName] },
    { format := "#clients in chat(excluding yourself): %s\n", args := [cstr (toString others)] }]

theorem joinAnswered_ack {countStr : CharArray 5} {n : Nat} {usernames : CharArray 512} (few : n ≤ 32)
    (made : makeMsgAck countStr ((n : Int) - 1) usernames.bytes = some ack) (behind myName : List UInt8) :
    joinAnswered ack behind myName = (joinedLines myName ((n : Int) - 1), true) := by
  obtain ⟨type, count, _⟩ := makeMsgAck_spec few made
  obtain ⟨_, _, made⟩ := Option.bind_eq_some_iff.mp made
  obtain ⟨_, madeCount, made⟩ := Option.bind_eq_some_iff.mp made
  obtain ⟨_, madeNames, made⟩ := Option.bind_eq_some_iff.mp made
  obtain rfl := Option.some.inj made
  obtain ⟨countType, _⟩ := makeAttribute_spec madeCount
  obtain ⟨namesType, _⟩ := makeAttribute_spec madeNames
  have short : ∀ n : Fin 33, (cstr (toString ((n.val : Int) - 1))).length < 512 := by decide
  have shown : ∀ rest, cstring (_ ++ rest) = _ := fun rest =>
    (cstring_append_eq_iff ((short ⟨n, by omega⟩).trans_eq (CharArray.size _).symm) rest).mpr count
  unfold joinAnswered parseMsgAck payload0
  rw [if_pos type, if_pos ⟨countType, namesType⟩, List.append_assoc, shown]
  rfl

theorem joinAnswered_nak {msg : SbcpMsg} (type : getMsgType msg = HeaderType.nak.code) (behind myName : List UInt8) :
    (joinAnswered msg behind myName).2 = false := by
  unfold joinAnswered
  rw [type, if_neg (by decide), if_pos rfl]

theorem routeMessage_shown (listed : Listed s (before ++ a :: after))
    (asked : getMsgType (castMsg l.buf) = HeaderType.join.code) (few : s.clients.length ≤ 32) :
    ∃ s' l' out msg, routeMessage maxClients r s l a = some (s', l', out) ∧ .write a msg ∈ out ∧ ∀ behind myName,
      (¬ Refuses maxClients r s (parseMsgJoin (castMsg l.buf) l.newName) →
        joinAnswered msg behind myName = (joinedLines myName (clientCount s - 1), true)) ∧
      (Refuses maxClients r s (parseMsgJoin (castMsg l.buf) l.newName) → (joinAnswered msg behind myName).2 = false) := by
  by_cases refuses : Refuses maxClients r s (parseMsgJoin (castMsg l.buf) l.newName)
  · obtain ⟨s', l', out, nak, done, sent, type⟩ := nak_of_refuses listed asked refuses
    exact ⟨s', l', out, nak, done, sent, fun behind myName =>
      ⟨fun accepted => absurd refuses accepted, fun _ => joinAnswered_nak type behind myName⟩⟩
  · obtain ⟨_, _, _, _, _, done⟩ := admitClient_of_few (r := r) (a := a)
      (l := { l with newName := parseMsgJoin (castMsg l.buf) l.newName }) few
    obtain ⟨usernames, ack, online, _, _, made, _, sent⟩ := admitClient_cases done
    rw [clientCount, named_clients] at made
    rw [routeMessage_admits asked refuses, done, sent]
    exact ⟨_, _, _, ack, rfl, List.mem_cons_self, fun behind myName =>
      ⟨fun _ => joinAnswered_ack few made behind myName, fun refused => absurd refused refuses⟩⟩

/-- A client goes on to its loop unless its JOIN is refused, and prints how many other connections there are. -/
theorem join_shown (run : Run maxClients (.start sockfd username) turns s (some ⟨r, l, some a⟩))
    (stays : received.numbytes ≠ 0) (asked : getMsgType (castMsg (l.read received).buf) = HeaderType.join.code)
    (few : s.clients.length ≤ 32) :
    ∃ s' l' out msg, turn maxClients r s l a received = some (s', l', out) ∧ .write a msg ∈ out ∧ ∀ behind myName,
      (¬ Refuses maxClients r s (parseMsgJoin (castMsg (l.read received).buf) l.newName) →
        joinAnswered msg behind myName = (joinedLines myName (clientCount s - 1), true)) ∧
      (Refuses maxClients r s (parseMsgJoin (castMsg (l.read received).buf) l.newName) → (joinAnswered msg behind myName).2 = false) := by
  obtain ⟨before, after, listed⟩ := run.at_node
  rw [turn_of_open _ _ _ _ _ stays]
  exact routeMessage_shown listed asked few

/-- The ACK of an accepted JOIN describes the chat exactly when all other connections have joined, and the
names fit into what is sent of the array and end in front of a slot that is empty. -/
theorem ack_describes_iff (run : Run maxClients (.start sockfd username) turns s (some ⟨r, l, some a⟩))
    (stays : received.numbytes ≠ 0) (asked : getMsgType (castMsg (l.read received).buf) = HeaderType.join.code)
    (accepted : ¬ Refuses maxClients r s (parseMsgJoin (castMsg (l.read received).buf) l.newName)) :
    AckDescribes a (turn maxClients r s l a received) ↔
      AckFits s l a (parseMsgJoin (castMsg (l.read received).buf) l.newName) := by
  obtain ⟨before, after, listed⟩ := run.at_node
  rw [turn_of_open _ _ _ _ _ stays, routeMessage_describes_iff listed asked accepted]
  exact ⟨fun fits => ⟨fits.joined, fits.listable⟩, fun fits => ⟨fits.joined, fits.listable⟩⟩

end

theorem joinLocals_accepted {s : Server} (room : clientCount s - 1 < 2)
    (apart : ∀ b ∈ s.clients, cstring (s.nodes.cell b).username.bytes ≠ [65]) :
    ¬ Refuses 2 joinRound s (parseMsgJoin (castMsg joinLocals.buf) joinRound.locals.newName) := by
  obtain ⟨_, named, name⟩ := joinLocals_asks
  rintro (full | duplicate)
  · omega
  · obtain ⟨b, member, same⟩ := (isDuplicateName_iff named _).mp duplicate
    exact apart b member (same.trans name)

/-- A client joins after another one, under the name B, has joined. -/
theorem ack_describes_two : ∃ turns s, Run 2 (.start 3 (.zero 16)) turns s (some ⟨joinRound, joinRound.locals, some 1⟩) ∧
    s.joined = [2] ∧ cstring (s.nodes.cell 2).username.bytes = [66] ∧
    AckDescribes 1 (turn 2 joinRound s joinRound.locals 1 (.data (joinMsg 65).bytes)) := by
  have served : (serve 2 [.accept 4, .accept 5, .receive [(5, .data (joinMsg 66).bytes)]] (.start 3 (.zero 16))).map
      (fun x => decide ((x.1.nodes.cell x.1.listenFd).next = some 1 ∧ x.1.clients = [1, 2] ∧ x.1.joined = [2] ∧
        clientCount x.1 - 1 < 2 ∧ (∀ b ∈ x.1.clients, cstring (x.1.nodes.cell b).username.bytes ≠ [65]) ∧
        (x.1.nodes.cell 2).acked = true ∧ 0 ∈ (x.1.nodes.cell 2).username.bytes ∧
        cstring (x.1.nodes.cell 2).username.bytes = [66])) = some true := by decide +kernel
  obtain ⟨⟨s, turns⟩, done, found⟩ := Option.map_eq_some_iff.mp served
  obtain ⟨first, clients, joined, room, apart, acked, ended, name⟩ := of_decide_eq_true found
  have clients : s.clients = [1, 2] := clients
  have run := joinRound_run done first
  obtain ⟨asked, _⟩ := joinLocals_asks
  let newName := parseMsgJoin (castMsg joinLocals.buf) joinRound.locals.newName
  have given : 0 ∈ newName.bytes ∧ cstring newName.bytes ≠ [] := by decide +kernel
  have names : s.clients.map (fun b => ((s.named 1 newName).nodes.cell b).username) =
      [newName, (s.nodes.cell 2).username] := by
    rw [clients, List.map_cons, List.map_singleton, named_self.1, named_other (by decide : (2 : Nat) ≠ 1)]
  refine ⟨turns, s, run, joined, name,
    (ack_describes_iff run (by decide +kernel) asked (joinLocals_accepted room apart)).mpr ⟨?_, ?_⟩⟩
  · intro b member other
    rw [clients] at member
    obtain rfl : b = 2 := by simpa [other] using member
    exact acked
  · change Listable (s.clients.map fun b => ((s.named 1 newName).nodes.cell b).username) _
    rw [names]
    have clear : joinRound.locals.usernames.bytes[32]? = some 0 := by decide
    refine ⟨Nat.le_of_ble_eq_true rfl, fun name' member => ?_, nofun, fun _ => clear⟩
    obtain rfl | member := List.mem_cons.mp member
    · exact given
    · obtain rfl := List.mem_singleton.mp member
      exact ⟨ended, by rw [name]; decide⟩

/-- Two clients are connected when the first one joins: it is told of another client in the chat. -/
theorem ack_counts_unjoined : ∃ turns s, Run 2 (.start 3 (.zero 16)) turns s (some ⟨joinRound, joinRound.locals, some 1⟩) ∧
    s.joined = [] ∧ getMsgType (castMsg joinLocals.buf) = HeaderType.join.code ∧
    ¬ Refuses 2 joinRound s (parseMsgJoin (castMsg joinLocals.buf) joinRound.locals.newName) ∧
    ¬ AckDescribes 1 (turn 2 joinRound s joinRound.locals 1 (.data (joinMsg 65).bytes)) := by
  have served : (serve 2 [.accept 4, .accept 5] (.start 3 (.zero 16))).map (fun x =>
      decide ((x.1.nodes.cell x.1.listenFd).next = some 1 ∧ x.1.joined = [] ∧ clientCount x.1 - 1 < 2 ∧
        (∀ b ∈ x.1.clients, cstring (x.1.nodes.cell b).username.bytes ≠ [65]) ∧
        2 ∈ x.1.clients ∧ (x.1.nodes.cell 2).acked = false)) = some true := by decide +kernel
  obtain ⟨⟨s, turns⟩, done, found⟩ := Option.map_eq_some_iff.mp served
  obtain ⟨first, joined, room, apart, member, unjoined⟩ := of_decide_eq_true found
  have run := joinRound_run done first
  obtain ⟨asked, _⟩ := joinLocals_asks
  obtain ⟨before, after, listed⟩ := run.at_node
  have accepted := joinLocals_accepted room apart
  refine ⟨turns, s, run, joined, asked, accepted, ?_⟩
  rw [turn_of_open 2 joinRound s joinRound.locals 1 (by decide +kernel)]
  intro describes
  have fits := (routeMessage_describes_iff listed asked accepted).mp describes
  have acked := fits.joined 2 member (by decide)
  rw [unjoined] at acked
  cases acked

end NetProjects.Chat
