import NetProjects.Library.Shared
import NetProjects.Tftp.Reactions
import NetProjects.Tftp.Requests

/-!
# Uploads to one name

The processes forked for write requests of one file name share that file. A process finds the file
absent in one step and creates it in a later one, so what it found may no longer hold.
-/

namespace NetProjects.Tftp
open Bytes

/-- A write request for the name. -/
structure Request where
  mode : List UInt8
  client : SockAddr

inductive Phase where
  | checking
  | refused
  | opening
  | notOpened
  | atHead (s : WrqState)
  | waiting (s : WrqState)
  | left (r : Exit) (s : WrqState)

/-- A process with its file open. -/
def Phase.state : Phase → Option WrqState
  | .atHead s | .waiting s | .left _ s => some s
  | _ => none

structure Uploader where
  phase : Phase
  sent : List Datagram
  events : List Event
  /-- How many of the bytes written have left the buffer of the stream. -/
  flushed : Nat

def Uploader.start : Uploader := { phase := .checking, sent := [], events := [], flushed := 0 }

inductive Action where
  | access
  | fopen (opens : Bool)
  | head
  | event (e : Event)
  | flush (n : Nat)

def fileExists (filename : List UInt8) (client : SockAddr) : Datagram :=
  ⟨client, makeErrorPacket .fileExists (fileMessage filename "already exists.") emptyBuf⟩

/-- One step of `wrq_handler` and the file after it. The file is opened in mode `a`, which keeps its
contents and makes every flush append. -/
def Uploader.step (filename : List UInt8) (r : Request) (p : Uploader) (file : Option (List UInt8)) :
    Action → Option (Uploader × Option (List UInt8))
  | .access =>
    match p.phase with
    | .checking =>
      if file.isSome then some ({ p with phase := .refused, sent := p.sent ++ [fileExists filename r.client] }, file)
      else some ({ p with phase := .opening }, file)
    | _ => none
  | .fopen opens =>
    match p.phase with
    | .opening =>
      if opens then some ({ p with phase := .atHead (.start r.client) }, some (file.getD []))
      else some ({ p with phase := .notOpened }, file)
    | _ => none
  | .head =>
    match p.phase with
    | .atHead s =>
      match wrqTop s with
      | (out, .go t) => some ({ p with phase := .waiting t, sent := p.sent ++ out }, file)
      | (out, .exit x t) => some ({ p with phase := .left x t, sent := p.sent ++ out }, file)
    | _ => none
  | .event e =>
    match p.phase with
    | .waiting s =>
      match wrqReact r.mode s e with
      | .go t => some ({ p with phase := .atHead t, events := p.events ++ [e] }, file)
      | .exit x t => some ({ p with phase := .left x t, events := p.events ++ [e] }, file)
    | _ => none
  | .flush n =>
    match p.phase with
    -- A process that is killed takes its buffer with it.
    | .left .fault _ => none
    | phase =>
      match phase.state with
      | some s =>
        if p.flushed + n ≤ s.writer.fd.length then
          some ({ p with flushed := p.flushed + n }, file.map (· ++ (s.writer.fd.drop p.flushed).take n))
        else none
      | none => none

abbrev Uploads (ι : Type) := Shared ι Uploader (Option (List UInt8))

def Uploads.start (ι : Type) : Uploads ι := { store := none, process := fun _ => .start }

/-- The processes of the requests. -/
def uploaders {ι : Type} (filename : List UInt8) (request : ι → Request) :
    ι → Uploader → Option (List UInt8) → Action → Option (Uploader × Option (List UInt8)) :=
  fun i => Uploader.step filename (request i)

/-! ### What a step does -/

inductive Uploader.Stepped (filename : List UInt8) (r : Request) (p : Uploader) :
    Option (List UInt8) → Action → Uploader → Option (List UInt8) → Prop where
  | refused {content : List UInt8} (phase : p.phase = .checking) :
      Stepped filename r p (some content) .access
        { p with phase := .refused, sent := p.sent ++ [fileExists filename r.client] } (some content)
  | passed (phase : p.phase = .checking) : Stepped filename r p none .access { p with phase := .opening } none
  | opened {file : Option (List UInt8)} (phase : p.phase = .opening) :
      Stepped filename r p file (.fopen true) { p with phase := .atHead (.start r.client) } (some (file.getD []))
  | notOpened {file : Option (List UInt8)} (phase : p.phase = .opening) :
      Stepped filename r p file (.fopen false) { p with phase := .notOpened } file
  | acked {file : Option (List UInt8)} {s t : WrqState} {out : List Datagram} (phase : p.phase = .atHead s)
      (top : wrqTop s = (out, .go t)) :
      Stepped filename r p file .head { p with phase := .waiting t, sent := p.sent ++ out } file
  | finished {file : Option (List UInt8)} {s t : WrqState} {out : List Datagram} {x : Exit} (phase : p.phase = .atHead s)
      (top : wrqTop s = (out, .exit x t)) :
      Stepped filename r p file .head { p with phase := .left x t, sent := p.sent ++ out } file
  | reacted {file : Option (List UInt8)} {s t : WrqState} {e : Event} (phase : p.phase = .waiting s)
      (react : wrqReact r.mode s e = .go t) :
      Stepped filename r p file (.event e) { p with phase := .atHead t, events := p.events ++ [e] } file
  | ended {file : Option (List UInt8)} {s t : WrqState} {e : Event} {x : Exit} (phase : p.phase = .waiting s)
      (react : wrqReact r.mode s e = .exit x t) :
      Stepped filename r p file (.event e) { p with phase := .left x t, events := p.events ++ [e] } file
  | flushed {file : Option (List UInt8)} {s : WrqState} {n : Nat} (state : p.phase.state = some s)
      (alive : ∀ t, p.phase ≠ .left .fault t) (room : p.flushed + n ≤ s.writer.fd.length) :
      Stepped filename r p file (.flush n) { p with flushed := p.flushed + n }
        (file.map (· ++ (s.writer.fd.drop p.flushed).take n))

section

variable {filename : List UInt8} {r : Request} {p q : Uploader} {file next : Option (List UInt8)} {a : Action}

theorem Uploader.step_cases (taken : p.step filename r file a = some (q, next)) :
    Uploader.Stepped filename r p file a q next := by
  cases a with
  | access =>
    simp only [Uploader.step] at taken
    split at taken
    · rename_i phase
      cases file with
      | none =>
        cases taken
        exact .passed phase
      | some content =>
        cases taken
        exact .refused phase
    · cases taken
  | fopen opens =>
    simp only [Uploader.step] at taken
    split at taken
    · rename_i phase
      cases opens with
      | true =>
        cases taken
        exact .opened phase
      | false =>
        cases taken
        exact .notOpened phase
    · cases taken
  | head =>
    simp only [Uploader.step] at taken
    split at taken
    · rename_i s phase
      split at taken
      · rename_i out t top
        cases taken
        exact .acked phase top
      · rename_i out x t top
        cases taken
        exact .finished phase top
    · cases taken
  | event e =>
    simp only [Uploader.step] at taken
    split at taken
    · rename_i s phase
      split at taken
      · rename_i t react
        cases taken
        exact .reacted phase react
      · rename_i x t react
        cases taken
        exact .ended phase react
    · cases taken
  | flush n =>
    simp only [Uploader.step] at taken
    split at taken
    · cases taken
    · rename_i alive
      split at taken
      · rename_i s state
        split at taken
        · rename_i room
          cases taken
          exact .flushed state alive room
        · cases taken
      · cases taken

theorem Uploader.Stepped.step (stepped : Stepped filename r p file a q next) :
    p.step filename r file a = some (q, next) := by
  cases stepped with
  | refused phase | passed phase | opened phase | notOpened phase =>
    simp only [Uploader.step, phase]
    rfl
  | acked phase top | finished phase top => simp only [Uploader.step, phase, top]
  | reacted phase react | ended phase react => simp only [Uploader.step, phase, react]
  | flushed state alive room =>
    cases phase : p.phase with
    | checking | refused | opening | notOpened =>
      rw [phase] at state
      cases state
    | atHead t | waiting t =>
      rw [phase] at state
      obtain rfl := Option.some.inj state
      simp only [Uploader.step, phase, Phase.state, if_pos room]
    | left x t =>
      cases x with
      | fault => exact absurd phase (alive t)
      | ret code =>
        rw [phase] at state
        obtain rfl := Option.some.inj state
        simp only [Uploader.step, phase, Phase.state, if_pos room]

end

end NetProjects.Tftp
