import NetProjects.Tftp.Uploaders
import NetProjects.Tftp.WriteRuns

/-!
# One upload at a time

Uploads to one absent name are one upload exactly when no process looks for the file while another
one has found it absent and not opened it yet.
-/

namespace NetProjects.Tftp
open Bytes

/-! ### What a write appends -/

theorem writeNetascii_extends (left : Nat) (buf : List UInt8) (w : Writer) : w.fd <+: (writeNetascii left buf w).1.fd := by
  fun_induction writeNetascii left buf w with
  | case1 => exact List.prefix_rfl
  | case2 left buf w pending rest ih => exact (List.prefix_append _ _).trans ih
  | case3 => exact List.prefix_rfl
  | case4 => exact List.prefix_append _ _
  | case5 buf w idle c goes pair d left rest ih => exact (List.prefix_append _ _).trans ih
  | case6 left buf w idle c goes plain v rest ih =>
    have same : v.fd = w.fd := by
      unfold v
      split <;> rfl
    rw [← same]
    exact (List.prefix_append _ _).trans ih

theorem writeDataToFile_extends (mode buf : List UInt8) (n : Nat) (w : Writer) :
    w.fd <+: (writeDataToFile mode buf n w).1.fd := by
  unfold writeDataToFile
  split
  · exact writeNetascii_extends n buf w
  · split
    · exact List.prefix_append _ _
    · exact List.prefix_rfl

theorem wrqData_extends (mode : List UInt8) (s : WrqState) : s.writer.fd <+: (lastState (wrqData mode s)).writer.fd := by
  unfold wrqData
  dsimp only
  split
  · exact List.prefix_rfl
  · dsimp only [lastState]
    split
    · exact writeDataToFile_extends _ _ _ _
    · exact List.prefix_rfl

theorem wrqReact_extends (mode : List UInt8) (s : WrqState) (e : Event) :
    s.writer.fd <+: (lastState (wrqReact mode s e)).writer.fd := by
  have outcome := wrqReact_cases mode s e
  generalize wrqReact mode s e = next at outcome
  cases outcome with
  | waited | gaveUp | refused => exact List.prefix_rfl
  | @data d header =>
    have kept : (s.received d).writer = s.writer := rfl
    rw [← kept]
    exact wrqData_extends mode (s.received d)

theorem wrqTop_writer (s : WrqState) : (lastState (wrqTop s).2).writer = s.writer := by
  rw [wrqTop_eq]
  dsimp only
  split <;> rfl

/-! ### One process -/

/-- The process has found the file absent, and may write it. -/
def Phase.Past : Phase → Prop
  | .opening | .atHead _ | .waiting _ | .left _ _ => True
  | _ => False

/-- The phase of the process is what `wrq_handler` makes of the events that came. -/
def Uploader.Follows (filename : List UInt8) (r : Request) (p : Uploader) : Phase → Prop
  | .checking | .opening | .notOpened => p.sent = [] ∧ p.events = [] ∧ p.flushed = 0
  | .refused => p.sent = [fileExists filename r.client] ∧ p.events = []
  | .atHead s =>
    p.sent = [] ∧ p.events = [] ∧ s = .start r.client ∨
      ∃ es e t, p.events = es ++ [e] ∧ wrqHandler r.mode r.client es = (p.sent, .go t) ∧ wrqReact r.mode t e = .go s
  | .waiting s => wrqHandler r.mode r.client p.events = (p.sent, .go s)
  | .left x s => wrqHandler r.mode r.client p.events = (p.sent, .exit x s)

/-- What `wrq_handler` has written after the events of the process. -/
def Uploader.written (r : Request) (p : Uploader) : List UInt8 :=
  (lastState (wrqHandler r.mode r.client p.events).2).writer.fd

structure Uploader.Sound (filename : List UInt8) (r : Request) (p : Uploader) : Prop where
  follows : p.Follows filename r p.phase
  kept : p.flushed ≤ (p.written r).length

section

variable {filename : List UInt8} {r : Request} {p q : Uploader} {file next : Option (List UInt8)} {a : Action}
variable {s : WrqState} {e : Event}

theorem start_sound (filename : List UInt8) (r : Request) : Uploader.start.Sound filename r :=
  ⟨⟨rfl, rfl, rfl⟩, Nat.zero_le _⟩

theorem Phase.past_of_state {phase : Phase} (state : phase.state = some s) : phase.Past := by
  cases phase with
  | checking | refused | opening | notOpened => cases state
  | atHead | waiting | left => trivial

theorem Uploader.Follows.written (follows : p.Follows filename r p.phase) (state : p.phase.state = some s) :
    p.written r = s.writer.fd := by
  unfold Uploader.written
  generalize p.phase = phase at follows state
  cases phase with
  | checking | refused | opening | notOpened => cases state
  | atHead u =>
    obtain rfl := Option.some.inj state
    obtain ⟨_, none, rfl⟩ | ⟨es, e, t, events, run, react⟩ := follows
    · rw [none]
      exact congrArg Writer.fd (wrqTop_writer _)
    · rw [events, wrqHandler, EventLoop.run_append_go [] run react]
      exact congrArg Writer.fd (wrqTop_writer _)
  | waiting u | left x u =>
    obtain rfl := Option.some.inj state
    rw [show wrqHandler r.mode r.client p.events = _ from follows]
    rfl

theorem Uploader.Stepped.follows (stepped : Stepped filename r p file a q next)
    (follows : p.Follows filename r p.phase) : q.Follows filename r q.phase := by
  cases stepped with
  | refused phase =>
    rw [phase] at follows
    obtain ⟨sent, events, _⟩ := follows
    exact ⟨by rw [sent]; rfl, events⟩
  | passed phase | notOpened phase =>
    rw [phase] at follows
    exact follows
  | opened phase =>
    rw [phase] at follows
    exact Or.inl ⟨follows.1, follows.2.1, rfl⟩
  | acked phase top | finished phase top =>
    have head := fun m => EventLoop.run_of_top (m := wrqLoop m) top
    rw [phase] at follows
    unfold Uploader.Follows wrqHandler
    obtain ⟨sent, events, rfl⟩ | ⟨es, e, t, events, run, react⟩ := follows
    · rw [sent, events]
      exact head r.mode
    · rw [events, EventLoop.run_append_go [] run react, head]
  | reacted phase react =>
    rw [phase] at follows
    exact Or.inr ⟨_, _, _, rfl, follows, react⟩
  | ended phase react =>
    rw [phase] at follows
    exact EventLoop.run_append_stop [] follows react
  | flushed state =>
    unfold Uploader.Follows at follows ⊢
    cases phase : p.phase with
    | checking | refused | opening | notOpened =>
      rw [phase] at state
      cases state
    | atHead | waiting | left =>
      rw [phase] at follows
      exact follows

/-- A step keeps what was written in front of what is written then. -/
theorem Uploader.Stepped.extends (stepped : Stepped filename r p file a q next)
    (follows : p.Follows filename r p.phase) : p.written r <+: q.written r := by
  have after := stepped.follows follows
  cases stepped with
  | refused | passed | opened | notOpened | acked | finished | flushed => exact List.prefix_rfl
  | @reacted _ s t e phase react | @ended _ s t e x phase react =>
    have grows := wrqReact_extends r.mode s e
    rw [react] at grows
    rw [follows.written (by rw [phase]; rfl), after.written rfl]
    exact grows

theorem Uploader.Stepped.sound (stepped : Stepped filename r p file a q next) (sound : p.Sound filename r) :
    q.Sound filename r := by
  have grows := (stepped.extends sound.follows).length_le
  refine ⟨stepped.follows sound.follows, ?_⟩
  have kept := sound.kept
  cases stepped with
  | flushed state alive room =>
    have written := sound.follows.written state
    unfold Uploader.written at written ⊢
    rwa [written]
  | refused | passed | opened | notOpened | acked | finished | reacted | ended => exact Nat.le_trans kept grows

/-- The part of the upload that is in the file. -/
def Uploader.content (r : Request) (p : Uploader) : List UInt8 := (p.written r).take p.flushed

/-- A process leaves the file alone, creates it, or appends to it. -/
theorem Uploader.Stepped.file_cases (stepped : Stepped filename r p file a q next) (sound : p.Sound filename r) :
    (p.phase.state = none ∧ q.phase.state = none ∧ next = file) ∨
      (p.phase = .opening ∧ q.phase.state ≠ none ∧ q.content r = [] ∧ next = some (file.getD [])) ∨
      ∃ bytes, p.phase.state ≠ none ∧ q.phase.state ≠ none ∧ q.content r = p.content r ++ bytes ∧
        next = file.map (· ++ bytes) := by
  have grows := stepped.extends sound.follows
  have same : q.flushed = p.flushed → q.content r = p.content r ++ [] := by
    intro flushed
    obtain ⟨more, longer⟩ := grows
    rw [List.append_nil, Uploader.content, ← longer, flushed, List.take_append_of_le_length sound.kept, Uploader.content]
  have kept : file = file.map (· ++ []) := by simp
  cases stepped with
  | refused phase | passed phase | notOpened phase => exact Or.inl ⟨by rw [phase]; rfl, rfl, rfl⟩
  | opened phase =>
    have follows := sound.follows
    rw [phase] at follows
    refine Or.inr (Or.inl ⟨phase, Option.some_ne_none _, ?_, rfl⟩)
    unfold Uploader.content
    rw [show p.flushed = 0 from follows.2.2, List.take_zero]
  | acked phase | finished phase | reacted phase | ended phase =>
    exact Or.inr (Or.inr ⟨[], by rw [phase]; exact Option.some_ne_none _, Option.some_ne_none _, same rfl, kept⟩)
  | @flushed _ s n state alive room =>
    have some : p.phase.state ≠ none := by rw [state]; exact Option.some_ne_none _
    refine Or.inr (Or.inr ⟨(s.writer.fd.drop p.flushed).take n, some, some, ?_, rfl⟩)
    have written := sound.follows.written state
    unfold Uploader.content Uploader.written at *
    rw [written, List.take_add]

end

/-! ### All processes -/

/-- One process is past its check, the file is what it has flushed of its upload, and every other one that
has checked was told that the file exists, or could not open it. -/
structure SingleUpload {ι : Type} (filename : List UInt8) (request : ι → Request) (s : Uploads ι) : Prop where
  one : ∀ i j, (s.process i).phase.Past → (s.process j).phase.Past → i = j
  upload : ∀ content, s.store = some content →
    ∃ i, (s.process i).phase.state ≠ none ∧ content = (s.process i).content (request i)
  others : ∀ i, (s.process i).phase.Past ∨ (s.process i).phase = .checking ∨ (s.process i).phase = .notOpened ∨
    (s.process i).sent = [fileExists filename (request i).client]

/-- No process is between its check and its open. -/
def NoneOpening {ι : Type} (s : Uploads ι) (_ : ι) (a : Action) : Prop :=
  a = .access → ∀ j, (s.process j).phase ≠ .opening

structure UploadsSound {ι : Type} (filename : List UInt8) (request : ι → Request) (s : Uploads ι) : Prop where
  single : SingleUpload filename request s
  sound : ∀ i, (s.process i).Sound filename (request i)
  absent : s.store = none → ∀ i, (s.process i).phase.state = none

section

variable {ι : Type} {filename : List UInt8} {request : ι → Request} {s t : Uploads ι} {i : ι} {a : Action}

theorem uploads_start (filename : List UInt8) (request : ι → Request) : UploadsSound filename request (Uploads.start ι) where
  single.one := fun _ _ past => absurd past id
  single.upload := fun _ file => absurd file (Option.some_ne_none _).symm
  single.others := fun _ => Or.inr (Or.inl rfl)
  sound := fun i => start_sound filename (request i)
  absent := fun _ _ => rfl

theorem Phase.past_cases {phase : Phase} (past : phase.Past) : phase = .opening ∨ phase.state ≠ none := by
  cases phase with
  | checking | refused | notOpened => exact absurd past id
  | opening => exact Or.inl rfl
  | atHead | waiting | left => exact Or.inr (Option.some_ne_none _)

theorem Phase.past_of_state_ne {phase : Phase} (state : phase.state ≠ none) : phase.Past := by
  obtain ⟨s, state⟩ := Option.ne_none_iff_exists'.mp state
  exact past_of_state state

theorem Uploader.Follows.answered {filename : List UInt8} {r : Request} {p : Uploader}
    (follows : p.Follows filename r p.phase) :
    p.phase.Past ∨ p.phase = .checking ∨ p.phase = .notOpened ∨ p.sent = [fileExists filename r.client] := by
  cases phase : p.phase with
  | checking => exact Or.inr (Or.inl rfl)
  | notOpened => exact Or.inr (Or.inr (Or.inl rfl))
  | refused =>
    rw [phase] at follows
    exact Or.inr (Or.inr (Or.inr follows.1))
  | opening | atHead | waiting | left => exact Or.inl trivial

/-- A process gets past its check where it finds the file absent. -/
theorem Uploader.Stepped.past {filename : List UInt8} {r : Request} {p q : Uploader} {file next : Option (List UInt8)}
    (stepped : Stepped filename r p file a q next) (past : q.phase.Past) :
    p.phase.Past ∨ a = .access ∧ file = none := by
  cases stepped with
  | refused | notOpened => exact absurd past id
  | passed => exact Or.inr ⟨rfl, rfl⟩
  | flushed => exact Or.inl past
  | opened phase | acked phase | finished phase | reacted phase | ended phase =>
    rw [phase]
    exact Or.inl trivial

/-- Nobody gets past the check beside another process. -/
theorem UploadsSound.alone (sound : UploadsSound filename request s) (guard : NoneOpening s i a)
    (stepped : Uploader.Stepped filename (request i) (s.process i) s.store a (t.process i) t.store)
    (past : (t.process i).phase.Past) {j : ι} (other : j ≠ i) : ¬ (s.process j).phase.Past := by
  intro elsewhere
  obtain before | ⟨access, file⟩ := stepped.past past
  · exact other (sound.single.one j i elsewhere before)
  · obtain opening | state := Phase.past_cases elsewhere
    · exact guard access j opening
    · exact state (sound.absent file j)

theorem UploadsSound.one_past (sound : UploadsSound filename request s) (guard : NoneOpening s i a)
    (stepped : Uploader.Stepped filename (request i) (s.process i) s.store a (t.process i) t.store)
    (kept : ∀ j, j ≠ i → t.process j = s.process j) {j k : ι} (left : (t.process j).phase.Past)
    (right : (t.process k).phase.Past) : j = k := by
  by_cases mine : j = i
  · subst mine
    by_contra differ
    have other : k ≠ j := fun same => differ same.symm
    rw [kept k other] at right
    exact sound.alone guard stepped left other right
  · by_cases mine' : k = i
    · subst mine'
      rw [kept j mine] at left
      exact absurd left (sound.alone guard stepped right mine)
    · rw [kept j mine] at left
      rw [kept k mine'] at right
      exact sound.single.one j k left right

/-- The file is left alone, made empty by the first process that opens it, or gets more from its writer. -/
theorem UploadsSound.uploaded (sound : UploadsSound filename request s)
    (stepped : Uploader.Stepped filename (request i) (s.process i) s.store a (t.process i) t.store)
    (kept : ∀ j, j ≠ i → t.process j = s.process j) {content : List UInt8} (file : t.store = some content) :
    ∃ j, (t.process j).phase.state ≠ none ∧ content = (t.process j).content (request j) := by
  obtain ⟨before, after, store⟩ | ⟨opening, opened, empty, store⟩ | ⟨bytes, before, after, written, store⟩ :=
    stepped.file_cases (sound.sound i)
  · rw [store] at file
    obtain ⟨j, state, same⟩ := sound.single.upload content file
    have other : j ≠ i := fun same => state (same ▸ before)
    exact ⟨j, by rw [kept j other]; exact state, by rw [kept j other]; exact same⟩
  · refine ⟨i, opened, ?_⟩
    cases known : s.store with
    | none =>
      rw [known] at store
      rw [empty]
      exact (Option.some.inj (store.symm.trans file)).symm
    | some bytes =>
      -- The file has a writer, and it is not the process that opens it now.
      obtain ⟨j, state, _⟩ := sound.single.upload bytes known
      have mine := sound.single.one j i (Phase.past_of_state_ne state) (by rw [opening]; trivial)
      rw [mine, opening] at state
      exact absurd rfl state
  · refine ⟨i, after, ?_⟩
    cases known : s.store with
    | none => exact absurd (sound.absent known i) before
    | some earlier =>
      obtain ⟨j, state, same⟩ := sound.single.upload earlier known
      obtain rfl := sound.single.one j i (Phase.past_of_state_ne state) (Phase.past_of_state_ne before)
      rw [known] at store
      rw [written, ← same]
      exact (Option.some.inj (store.symm.trans file)).symm

variable [DecidableEq ι]

theorem UploadsSound.step (sound : UploadsSound filename request s) (guard : NoneOpening s i a)
    (step : s.step (uploaders filename request) i a = some t) : UploadsSound filename request t := by
  obtain ⟨taken, kept⟩ := Shared.step_cases step
  have stepped := Uploader.step_cases taken
  have follows : ∀ j, (t.process j).Sound filename (request j) := by
    intro j
    by_cases same : j = i
    · subst same
      exact stepped.sound (sound.sound j)
    · rw [kept j same]
      exact sound.sound j
  refine ⟨⟨fun j k => sound.one_past guard stepped kept, fun content => sound.uploaded stepped kept,
    fun j => (follows j).follows.answered⟩, follows, ?_⟩
  intro file j
  obtain ⟨before, after, store⟩ | ⟨opening, opened, empty, store⟩ | ⟨bytes, before, after, written, store⟩ :=
    stepped.file_cases (sound.sound i)
  · by_cases mine : j = i
    · rw [mine]
      exact after
    · rw [kept j mine]
      exact sound.absent (store.symm.trans file) j
  · exact absurd (store.symm.trans file) (Option.some_ne_none _)
  · exact absurd (sound.absent (Option.map_eq_none_iff.mp (store.symm.trans file)) i) before

/-- A check made while another process is about to open lets a second one past, or comes after one. -/
theorem noneOpening_of_single (before : SingleUpload filename request s) (after : SingleUpload filename request t)
    (step : s.step (uploaders filename request) i a = some t) : NoneOpening s i a := by
  rintro rfl j opening
  obtain ⟨taken, kept⟩ := Shared.step_cases step
  have stepped := Uploader.step_cases taken
  have past : (s.process j).phase.Past := by rw [opening]; trivial
  generalize q : t.process i = p at stepped
  generalize f : s.store = file at stepped
  generalize t.store = next at stepped
  cases stepped with
  | refused =>
    obtain ⟨k, state, _⟩ := before.upload _ f
    have mine := before.one k j (Phase.past_of_state_ne state) past
    rw [mine, opening] at state
    exact state rfl
  | passed phase =>
    have other : j ≠ i := by
      rintro rfl
      rw [phase] at opening
      exact Phase.noConfusion opening
    have mine := after.one j i (by rw [kept j other]; exact past) (by rw [q]; trivial)
    exact other mine

/-- Every state of a run holds a single upload exactly when no check is made while a process that found
the file absent has not opened it. -/
theorem single_upload_iff (filename : List UInt8) (request : ι → Request) (steps : List (ι × Action)) :
    Shared.Throughout (uploaders filename request) (SingleUpload filename request) (Uploads.start ι) steps ↔
      Shared.Guarded (uploaders filename request) NoneOpening (Uploads.start ι) steps := by
  constructor
  · exact Shared.guarded_of_throughout fun s i a t before after step => noneOpening_of_single before after step
  · intro guarded
    have sound := Shared.throughout_of_guarded (uploads_start filename request)
      (fun s i a t sound guard step => sound.step guard step) guarded
    exact sound.mono fun s sound => sound.single

end

/-- A one-byte upload: the request is acknowledged, the block taken and the byte flushed. -/
theorem writes_byte (client : SockAddr) (b : UInt8) :
    ∃ u v, wrqTop (.start client) = ([⟨client, ackDatagram 0⟩], .go u) ∧
      wrqReact octet u (dataEvent client 1 [b]) = .go v ∧ v.writer.fd = [b] := by
  obtain ⟨u, top, waits⟩ := wrqTop_more (wrqStart_at client) rfl
  obtain ⟨v, react, after, _⟩ := wrqReact_data waits (dataEvent_upload client 1 [b])
  refine ⟨u, v, top, react, ?_⟩
  have number := dataDatagram_block client 1 [b]
  have payload : Datagram.payload ⟨client, dataDatagram 1 [b]⟩ = [b] :=
    dataDatagram_payload client 1 (by rw [List.length_singleton]; decide)
  rw [after.file, Event.appends, number, payload]
  rfl

/-- Two requests that both find the file absent put their bytes into one file. -/
theorem two_uploads_mix :
    ¬ Shared.Throughout (uploaders (cstr "a") fun _ => ⟨octet, ⟨0, 69⟩⟩)
      (fun s => s.store = some [7, 9] → SingleUpload (cstr "a") (fun _ => ⟨octet, ⟨0, 69⟩⟩) s) (Uploads.start (Fin 2))
      [(0, .access), (1, .access), (0, .fopen true), (1, .fopen true), (0, .head), (0, .event (dataEvent ⟨0, 69⟩ 1 [7])),
        (0, .flush 1), (1, .head), (1, .event (dataEvent ⟨0, 69⟩ 1 [9])), (1, .flush 1)] := by
  intro throughout
  obtain ⟨u, v, top, react, byte⟩ := writes_byte ⟨0, 69⟩ 7
  obtain ⟨x, y, top', react', byte'⟩ := writes_byte ⟨0, 69⟩ 9
  have checked := throughout.2 _ (Shared.step_eq (Uploader.Stepped.passed rfl).step)
  have both := checked.2 _ (Shared.step_eq (Uploader.Stepped.passed rfl).step)
  have opened := both.2 _ (Shared.step_eq (Uploader.Stepped.opened rfl).step)
  have shared := opened.2 _ (Shared.step_eq (Uploader.Stepped.opened rfl).step)
  have acked := shared.2 _ (Shared.step_eq (Uploader.Stepped.acked rfl top).step)
  have taken := acked.2 _ (Shared.step_eq (Uploader.Stepped.reacted rfl react).step)
  have room : 0 + 1 ≤ v.writer.fd.length := by rw [byte]; exact Nat.le_refl 1
  have room' : 0 + 1 ≤ y.writer.fd.length := by rw [byte']; exact Nat.le_refl 1
  have seven := taken.2 _ (Shared.step_eq (Uploader.Stepped.flushed rfl (fun _ killed => Phase.noConfusion killed) room).step)
  have acked' := seven.2 _ (Shared.step_eq (Uploader.Stepped.acked rfl top').step)
  have taken' := acked'.2 _ (Shared.step_eq (Uploader.Stepped.reacted rfl react').step)
  have nine := taken'.2 _ (Shared.step_eq (Uploader.Stepped.flushed rfl (fun _ killed => Phase.noConfusion killed) room').step)
  have single := nine.here ?_
  · exact absurd (single.one 0 1 trivial trivial) (by decide)
  · show some (([] ++ (v.writer.fd.drop 0).take 1) ++ (y.writer.fd.drop 0).take 1) = some [7, 9]
    rw [byte, byte']
    rfl

end NetProjects.Tftp
