import NetProjects.Chat.Client

/-!
# Idle time

When the client tells that it is idle: the flag and the accumulator of its loop against the time
it has waited since a line was typed.
-/

namespace NetProjects.Chat
open Bytes

/-- The client at the loop head after these turns. -/
def Client.afterTurns (c : Client) : List Wait → Option Client
  | [] => some c
  | w :: ws => do
    let turned ← c.turn w
    let c ← turned.next
    c.afterTurns ws

/-- `select` leaves between 0 and 2 seconds of the time it was given. -/
def Wait.Leaves (w : Wait) : Prop :=
  0 ≤ w.tv.usec + 1000000 * w.tv.sec ∧ w.tv.usec + 1000000 * w.tv.sec ≤ selectTimeout * 1000000

/-- The turns since the last one with a ready keyboard. -/
def quiet (ws : List Wait) : List Wait := ws.rtakeWhile fun w => w.typed.isNone

/-- In microseconds. -/
def waited (ws : List Wait) : Int := (ws.map fun w => elapsedTime w.tv).sum

/-- At an earlier loop head since the last ready keyboard the client had waited ten seconds. -/
def WasIdle (ws : List Wait) : Prop :=
  ∃ early, early <+: quiet ws ∧ early.length < (quiet ws).length ∧ idleTimeout * 1000000 ≤ waited early

/-- This is the first loop head since the last ready keyboard at which the client has waited ten seconds. -/
def IdleDue (ws : List Wait) : Prop := idleTimeout * 1000000 ≤ waited (quiet ws) ∧ ¬ WasIdle ws

/-- The accumulator fits into an `int`. -/
def InRange (idleCumulation : Int) : Prop := 0 ≤ idleCumulation ∧ idleCumulation ≤ 12000000

section

variable {c c' : Client} {w : Wait} {ws : List Wait} {turned : ClientTurn}

/-! ### Turns -/

theorem afterTurns_concat : c.afterTurns (ws ++ [w]) =
    (c.afterTurns ws).bind fun c => (c.turn w).bind ClientTurn.next := by
  induction ws generalizing c with
  | nil =>
    simp only [List.nil_append, Client.afterTurns, Option.bind_eq_bind, Option.bind_some]
    cases c.turn w with
    | none => rfl
    | some turned => cases next : turned.next <;> simp [next]
  | cons v ws ih =>
    simp only [List.cons_append, Client.afterTurns, Option.bind_eq_bind, ih, Option.bind_assoc]

/-- What a turn of the client is made of. -/
theorem turn_cases_client (happened : c.turn w = some turned) :
    ∃ c₁, (c.head.2.selected w.tv).keyboard w.typed = some (turned.sent, c₁) ∧ turned.idle = c.head.1 ∧
      ∀ c', turned.next = some c' → ∃ printed, c₁.socket w.behind w.received = some (printed, c') := by
  obtain ⟨⟨sent, c₁⟩, typed, happened⟩ := Option.bind_eq_some_iff.mp happened
  cases answered : c₁.socket w.behind w.received with
  | none =>
    simp only [answered] at happened
    obtain rfl := Option.some.inj happened
    exact ⟨c₁, typed, rfl, nofun⟩
  | some x =>
    obtain ⟨printed, c₂⟩ := x
    simp only [answered] at happened
    obtain rfl := Option.some.inj happened
    refine ⟨c₁, typed, rfl, fun c' next => ⟨printed, ?_⟩⟩
    rw [answered, ← Option.some.inj next]

theorem socket_idle {received : Option Received} {behind : List UInt8} {printed : List Printed}
    (answered : c.socket behind received = some (printed, c')) :
    c'.idleCumulation = c.idleCumulation ∧ c'.isIdle = c.isIdle := by
  unfold Client.socket at answered
  split at answered
  · obtain ⟨_, rfl⟩ := Option.some.inj answered
    exact ⟨rfl, rfl⟩
  · split at answered
    · cases answered
    · obtain ⟨_, rfl⟩ := Option.some.inj answered
      exact ⟨rfl, rfl⟩

/-- The texts that are sent are not IDLE messages, and a line typed starts the time anew. -/
theorem keyboard_idle {typed : Option (List UInt8)} {sent : List SbcpMsg} (done : c.keyboard typed = some (sent, c')) :
    (∀ m ∈ sent, getMsgType m = HeaderType.send.code) ∧
      (typed.isNone → c'.idleCumulation = c.idleCumulation ∧ c'.isIdle = c.isIdle) ∧
      (¬ typed.isNone → c'.idleCumulation = 0 ∧ c'.isIdle = false) := by
  cases typed with
  | none =>
    cases done
    exact ⟨nofun, fun _ => ⟨rfl, rfl⟩, fun some => absurd rfl some⟩
  | some new =>
    obtain ⟨⟨msg, sendBuf⟩, typed, done⟩ := Option.bind_eq_some_iff.mp done
    cases done
    refine ⟨fun m member => ?_, nofun, fun _ => ⟨rfl, rfl⟩⟩
    rw [List.mem_singleton.mp member]
    obtain ⟨_, _, typed⟩ := Option.bind_eq_some_iff.mp typed
    obtain ⟨_, _, typed⟩ := Option.bind_eq_some_iff.mp typed
    obtain ⟨_, _, typed⟩ := Option.bind_eq_some_iff.mp typed
    obtain ⟨msg, made, typed⟩ := Option.bind_eq_some_iff.mp typed
    cases typed
    obtain ⟨_, _, made⟩ := Option.bind_eq_some_iff.mp made
    cases made
    exact getMsgType_ofType .send

theorem turn_idle (happened : c.turn w = some turned) (next : turned.next = some c') :
    (w.typed.isNone → c'.idleCumulation = updateIdleTime c.head.2.idleCumulation w.tv c.head.2.isIdle ∧
        c'.isIdle = c.head.2.isIdle) ∧
      (¬ w.typed.isNone → c'.idleCumulation = 0 ∧ c'.isIdle = false) := by
  obtain ⟨c₁, typed, _, goes⟩ := turn_cases_client happened
  obtain ⟨printed, answered⟩ := goes c' next
  obtain ⟨cumulation, idle⟩ := socket_idle answered
  obtain ⟨_, kept, reset⟩ := keyboard_idle typed
  rw [cumulation, idle]
  exact ⟨kept, reset⟩

/-! ### Waiting -/

theorem Wait.Leaves.elapsed (leaves : w.Leaves) : 0 ≤ elapsedTime w.tv ∧ elapsedTime w.tv ≤ 2000000 := by
  unfold Wait.Leaves selectTimeout at leaves
  unfold elapsedTime selectTimeout
  omega

theorem quiet_ready (ready : ¬ w.typed.isNone) : quiet (ws ++ [w]) = [] := List.rtakeWhile_concat_neg _ _ _ ready

theorem quiet_waiting (waiting : w.typed.isNone) : quiet (ws ++ [w]) = quiet ws ++ [w] :=
  List.rtakeWhile_concat_pos _ _ _ waiting

theorem waited_concat : waited (ws ++ [w]) = waited ws + elapsedTime w.tv := by
  simp only [waited, List.map_append, List.map_cons, List.map_nil, List.sum_append, List.sum_cons, List.sum_nil, Int.add_zero]

theorem not_wasIdle_ready (ready : ¬ w.typed.isNone) : ¬ WasIdle (ws ++ [w]) := by
  rintro ⟨early, _, shorter, _⟩
  rw [quiet_ready ready] at shorter
  exact absurd shorter (Nat.not_lt_zero _)

/-- The loop heads before the next one are those before this one, and this one. -/
theorem wasIdle_waiting (waiting : w.typed.isNone) :
    WasIdle (ws ++ [w]) ↔ WasIdle ws ∨ idleTimeout * 1000000 ≤ waited (quiet ws) := by
  unfold WasIdle
  rw [quiet_waiting waiting]
  constructor
  · rintro ⟨early, inside, shorter, long⟩
    rw [List.length_append, List.length_singleton] at shorter
    have before : early <+: quiet ws :=
      List.prefix_of_prefix_length_le inside (List.prefix_append _ _) (by omega)
    by_cases same : early.length = (quiet ws).length
    · rw [before.eq_of_length same] at long
      exact Or.inr long
    · have length := before.length_le
      exact Or.inl ⟨early, before, by omega, long⟩
  · rintro (⟨early, inside, shorter, long⟩ | long)
    · refine ⟨early, inside.trans (List.prefix_append _ _), ?_, long⟩
      rw [List.length_append]
      omega
    · refine ⟨quiet ws, List.prefix_append _ _, ?_, long⟩
      rw [List.length_append, List.length_singleton]
      omega

/-! ### The invariant -/

/-- The flag tells whether an IDLE was due, and until then the accumulator is the time waited. -/
structure KeepsTime (ws : List Wait) (c : Client) : Prop where
  inRange : InRange c.idleCumulation
  flag : c.isIdle ↔ WasIdle ws
  time : ¬ c.isIdle → c.idleCumulation = waited (quiet ws)

theorem KeepsTime.start (sendBuf : CharArray maxMsgLen) (recvBuf : CharArray maxDataSize) :
    KeepsTime [] (.start sendBuf recvBuf) := by
  refine ⟨⟨Int.le_refl 0, Int.natCast_nonneg 12000000⟩, iff_of_false Bool.false_ne_true ?_, fun _ => rfl⟩
  rintro ⟨early, _, shorter, _⟩
  exact Nat.not_lt_zero _ shorter

theorem KeepsTime.due_iff (keeps : KeepsTime ws c) :
    IdleDue ws ↔ ¬ c.isIdle ∧ c.idleCumulation ≥ idleTimeout * 1000000 := by
  rw [IdleDue, ← keeps.flag]
  constructor
  · rintro ⟨long, fresh⟩
    exact ⟨fresh, (keeps.time fresh).symm ▸ long⟩
  · rintro ⟨fresh, long⟩
    exact ⟨keeps.time fresh ▸ long, fresh⟩

theorem head_due (due : ¬ c.isIdle ∧ c.idleCumulation ≥ idleTimeout * 1000000) :
    c.head = ([makeMsgIdleC], { c with isIdle := true }) := if_pos due

theorem head_not_due (due : ¬ (¬ c.isIdle ∧ c.idleCumulation ≥ idleTimeout * 1000000)) : c.head = ([], c) := if_neg due

/-- After `update_idle_time` the accumulator is still in range, and it is the time waited or the flag is set. -/
theorem KeepsTime.update (keeps : KeepsTime ws c) (leaves : w.Leaves) :
    InRange (updateIdleTime c.head.2.idleCumulation w.tv c.head.2.isIdle) ∧
      (c.head.2.isIdle ↔ WasIdle ws ∨ idleTimeout * 1000000 ≤ waited (quiet ws)) ∧
      (¬ c.head.2.isIdle → updateIdleTime c.head.2.idleCumulation w.tv c.head.2.isIdle =
        waited (quiet ws) + elapsedTime w.tv) := by
  obtain ⟨low, high⟩ := keeps.inRange
  obtain ⟨elapses, atMost⟩ := leaves.elapsed
  by_cases due : ¬ c.isIdle ∧ c.idleCumulation ≥ idleTimeout * 1000000
  · rw [head_due due]
    exact ⟨⟨low, high⟩, iff_of_true rfl (Or.inr (keeps.due_iff.mpr due).1), fun fresh => absurd rfl fresh⟩
  rw [head_not_due due]
  by_cases idle : c.isIdle
  · rw [updateIdleTime, if_pos idle]
    exact ⟨⟨low, high⟩, iff_of_true idle (Or.inl (keeps.flag.mp idle)), fun fresh => absurd idle fresh⟩
  · -- The ten seconds have not been reached, so that two more still fit.
    have short : c.idleCumulation < idleTimeout * 1000000 := not_le.mp fun long => due ⟨idle, long⟩
    have time := keeps.time idle
    rw [updateIdleTime, if_neg idle]
    refine ⟨⟨Int.add_nonneg low elapses, ?_⟩, iff_of_false idle ?_, fun _ => congrArg (· + elapsedTime w.tv) time⟩
    · change c.idleCumulation + elapsedTime w.tv ≤ 12000000
      unfold idleTimeout at short
      omega
    · rintro (was | long)
      · exact idle (keeps.flag.mpr was)
      · omega

theorem KeepsTime.turn (keeps : KeepsTime ws c) (leaves : w.Leaves) (happened : c.turn w = some turned)
    (next : turned.next = some c') : KeepsTime (ws ++ [w]) c' := by
  obtain ⟨inRange, flag, time⟩ := keeps.update leaves
  obtain ⟨kept, reset⟩ := turn_idle happened next
  by_cases waiting : w.typed.isNone
  · obtain ⟨cumulation, idle⟩ := kept waiting
    refine ⟨?_, ?_, fun fresh => ?_⟩
    · rwa [cumulation]
    · rw [idle, flag, wasIdle_waiting waiting]
    · rw [idle] at fresh
      rw [cumulation, quiet_waiting waiting, waited_concat, time fresh]
  · obtain ⟨zero, awake⟩ := reset waiting
    refine ⟨?_, ?_, fun _ => ?_⟩
    · rw [zero]
      exact ⟨le_rfl, by decide⟩
    · rw [awake]
      exact iff_of_false Bool.false_ne_true (not_wasIdle_ready waiting)
    · rw [zero, quiet_ready waiting]
      rfl

theorem keepsTime {sendBuf : CharArray maxMsgLen} {recvBuf : CharArray maxDataSize} (leaves : ∀ w ∈ ws, w.Leaves)
    (run : (Client.start sendBuf recvBuf).afterTurns ws = some c) : KeepsTime ws c := by
  induction ws using List.reverseRecOn generalizing c with
  | nil =>
    obtain rfl := Option.some.inj run
    exact .start sendBuf recvBuf
  | append_singleton ws w ih =>
    rw [afterTurns_concat] at run
    obtain ⟨c₁, before, last⟩ := Option.bind_eq_some_iff.mp run
    obtain ⟨turned, happened, next⟩ := Option.bind_eq_some_iff.mp last
    have keeps := ih (fun v member => leaves v (List.mem_append_left _ member)) before
    exact keeps.turn (leaves w (List.mem_append_right _ List.mem_cons_self)) happened next

/-- In every run an IDLE is written at a loop head exactly when the client has waited ten seconds for the
first time since the last ready keyboard, and the accumulator stays in range. -/
theorem idle_detection {sendBuf : CharArray maxMsgLen} {recvBuf : CharArray maxDataSize} (leaves : ∀ w ∈ ws, w.Leaves)
    (run : (Client.start sendBuf recvBuf).afterTurns ws = some c) :
    (c.head.1 = [makeMsgIdleC] ∧ getMsgType makeMsgIdleC = HeaderType.idle.code ∧ IdleDue ws ∨
        c.head.1 = [] ∧ ¬ IdleDue ws) ∧
      InRange c.idleCumulation ∧
      ∀ w, w.Leaves → InRange (updateIdleTime c.head.2.idleCumulation w.tv c.head.2.isIdle) ∧
        ∀ turned, c.turn w = some turned →
          turned.idle = c.head.1 ∧ ∀ m ∈ turned.sent, getMsgType m = HeaderType.send.code := by
  have keeps := keepsTime leaves run
  refine ⟨?_, keeps.inRange, fun w leavesNext => ⟨(keeps.update leavesNext).1, fun turned happened => ?_⟩⟩
  · rw [keeps.due_iff]
    by_cases due : ¬ c.isIdle ∧ c.idleCumulation ≥ idleTimeout * 1000000
    · rw [head_due due]
      exact Or.inl ⟨rfl, getMsgType_ofType .idle, due⟩
    · rw [head_not_due due]
      exact Or.inr ⟨rfl, due⟩
  · obtain ⟨_, typed, idle, _⟩ := turn_cases_client happened
    exact ⟨idle, (keyboard_idle typed).1⟩

end

/-- Nothing happens for two seconds. -/
def timeoutWait : Wait := { tv := { sec := 0, usec := 0 }, typed := none, received := none, behind := [] }

/-- The client is idle after five of them. -/
theorem idle_detection_five :
    ∃ c, (Client.start (.zero maxMsgLen) (.zero maxDataSize)).afterTurns (List.replicate 5 timeoutWait) = some c ∧
      c.head.1 = [makeMsgIdleC] ∧ getMsgType makeMsgIdleC = HeaderType.idle.code ∧
      IdleDue (List.replicate 5 timeoutWait) ∧ InRange c.idleCumulation := by
  let c : Client := { Client.start (.zero maxMsgLen) (.zero maxDataSize) with idleCumulation := 10000000 }
  have run : (Client.start (.zero maxMsgLen) (.zero maxDataSize)).afterTurns (List.replicate 5 timeoutWait) = some c := rfl
  have leaves : ∀ w ∈ List.replicate 5 timeoutWait, w.Leaves := by
    intro w member
    obtain rfl := List.eq_of_mem_replicate member
    exact ⟨by decide, by decide⟩
  have head : c.head.1 = [makeMsgIdleC] := rfl
  obtain ⟨⟨_, type, due⟩ | ⟨silent, _⟩, inRange, _⟩ := idle_detection leaves run
  · exact ⟨c, run, head, type, due, inRange⟩
  · cases head.symm.trans silent

end NetProjects.Chat
