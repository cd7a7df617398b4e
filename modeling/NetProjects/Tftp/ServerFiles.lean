import NetProjects.Tftp.Server

/-!
# The files of the server

What any run of the server, with any requests and its processes in any order, makes of the files: a file that
was there stays as it is, every file only grows, and a new one is a merge of what was uploaded to it.
-/

namespace NetProjects.Tftp
open Bytes

section

variable {filename : List UInt8} {r : Request} {p q : Uploader} {file next : Option (List UInt8)} {a : Action}

theorem Uploader.Stepped.grows (stepped : Stepped filename r p file a q next) (sound : p.Sound filename r) :
    Grows file next := by
  intro content here
  obtain ⟨_, _, rfl⟩ | ⟨_, _, _, rfl⟩ | ⟨bytes, _, _, _, rfl⟩ := stepped.file_cases sound
  · exact ⟨[], by rw [here, List.append_nil]⟩
  · exact ⟨[], by rw [here, List.append_nil]; rfl⟩
  · exact ⟨bytes, by rw [here]; rfl⟩

/-- A process without an open file has put nothing into it. -/
theorem Uploader.Sound.content_closed (sound : p.Sound filename r) (closed : p.phase.state = none) : p.content r = [] := by
  have follows := sound.follows
  have kept := sound.kept
  unfold Uploader.content
  cases phase : p.phase with
  | checking | opening | notOpened =>
    rw [phase] at follows
    rw [follows.2.2, List.take_zero]
  | refused =>
    rw [phase] at follows
    unfold Uploader.written
    rw [follows.2]
    exact (congrArg (List.take p.flushed) (congrArg Writer.fd (wrqTop_writer (.start r.client)))).trans List.take_nil
  | atHead | waiting | left =>
    rw [phase] at closed
    cases closed

end

/-- What the process has put into its file. -/
def Child.content (c : Child) : List UInt8 :=
  match c.work with
  | .writing p => p.content c.asked
  | _ => []

/-! ### What every process relies on -/

/-- A file that was there is still the same. -/
def Kept (was file : Option (List UInt8)) : Prop := ∀ content, was = some content → file = some content

/-- A writer is what its handler makes of its events, and has found only a file absent that was not there from the
start. -/
def Child.Writes (was : Option (List UInt8)) (c : Child) : Prop :=
  ∀ p, c.work = .writing p → p.Sound c.filename c.asked ∧ (p.phase.Past → was = none)

section

variable {κ : Type} {resolve : List UInt8 → κ} {files : κ → Option (List UInt8)}

/-- The process has its file open for writing. -/
def Child.Open (c : Child) : Prop := ∃ p, c.work = .writing p ∧ p.phase.state ≠ none

structure RelyKept (resolve : List UInt8 → κ) (files : κ → Option (List UInt8)) (_ : Nat) (c : Child)
    (file : Option (List UInt8)) : Prop where
  writes : c.Writes (files (resolve c.filename))
  kept : Kept (files (resolve c.filename)) file
  there : c.Open → file ≠ none

def AllowKept (files : κ → Option (List UInt8)) (k : κ) (file next : Option (List UInt8)) : Prop :=
  Grows file next ∧ (Kept (files k) file → Kept (files k) next)

theorem Child.Writes.closed {c : Child} {was : Option (List UInt8)} (writes : c.Writes was) (checking : c.work.Checking = true) :
    c.content = [] ∧ ¬ c.Open := by
  unfold Work.Checking at checking
  cases work : c.work with
  | gone =>
    rw [work] at checking
    cases checking
  | reading p =>
    refine ⟨by rw [Child.content, work], ?_⟩
    rintro ⟨q, other, _⟩
    cases work.symm.trans other
  | writing p =>
    rw [work] at checking
    dsimp only at checking
    split at checking
    · rename_i phase
      refine ⟨?_, ?_⟩
      · rw [Child.content, work]
        exact (writes p work).1.content_closed (by rw [phase]; rfl)
      · rintro ⟨q, other, state⟩
        cases work.symm.trans other
        rw [phase] at state
        exact state rfl
    · cases checking

/-- A step of a writer leaves its file alone, makes it, or appends to it. -/
theorem Child.Acted.file_cases {c d : Child} {was file next : Option (List UInt8)} {a : ChildAction}
    (acted : c.Acted file a d next) (writes : c.Writes was) :
    (¬ c.Open ∧ ¬ d.Open ∧ d.content = c.content ∧ next = file) ∨
      ∃ more, (∃ p, c.work = .writing p ∧ p.phase.Past) ∧ d.Open ∧ d.content = c.content ++ more ∧
        (c.Open → next = file.map (· ++ more)) ∧ (¬ c.Open → more = [] ∧ next = some (file.getD [])) := by
  cases acted with
  | noSocket checking =>
    obtain ⟨empty, closed⟩ := writes.closed checking
    refine Or.inl ⟨closed, ?_, empty.symm, rfl⟩
    rintro ⟨p, work, _⟩
    cases work
  | read work =>
    refine Or.inl ⟨?_, ?_, ?_, rfl⟩
    · rintro ⟨p, other, _⟩
      cases work.symm.trans other
    · rintro ⟨p, other, _⟩
      cases other
    · rw [Child.content, Child.content, work]
  | @wrote _ p q a work stepped =>
    obtain ⟨sound, _⟩ := writes p work
    have before : c.content = p.content c.asked := by rw [Child.content, work]
    have open_iff : c.Open ↔ p.phase.state ≠ none := by
      refine ⟨?_, fun state => ⟨p, work, state⟩⟩
      rintro ⟨p', work', state⟩
      cases work.symm.trans work'
      exact state
    rw [open_iff, before]
    obtain ⟨closed, after, rfl⟩ | ⟨opening, after, empty, rfl⟩ | ⟨bytes, state, after, added, rfl⟩ := stepped.file_cases sound
    · refine Or.inl ⟨not_not.mpr closed, ?_, ?_, rfl⟩
      · rintro ⟨q', work', state⟩
        cases work'
        exact state after
      · rw [sound.content_closed closed]
        exact (stepped.sound sound).content_closed after
    · have closed : p.phase.state = none := by rw [opening]; rfl
      refine Or.inr ⟨[], ⟨p, work, by rw [opening]; trivial⟩, ⟨q, rfl, after⟩, ?_, fun state => absurd closed state,
        fun _ => ⟨rfl, rfl⟩⟩
      rw [sound.content_closed closed]
      exact empty
    · exact Or.inr ⟨bytes, ⟨p, work, Phase.past_of_state_ne state⟩, ⟨q, rfl, after⟩, added, fun _ => rfl,
        fun closed => absurd state closed⟩

theorem Child.Acted.writes {c d : Child} {was file next : Option (List UInt8)} {a : ChildAction} (acted : c.Acted file a d next)
    (writes : c.Writes was) (kept : Kept was file) : d.Writes was := by
  cases acted with
  | noSocket | read => exact fun p work => Work.noConfusion work
  | @wrote _ p q a work stepped =>
    obtain ⟨sound, absent⟩ := writes p work
    intro p' work'
    cases work'
    refine ⟨stepped.sound sound, fun past => ?_⟩
    obtain before | ⟨_, rfl⟩ := stepped.past past
    · exact absent before
    · -- A file that was there would have been found.
      cases was with
      | none => rfl
      | some content => exact absurd (kept content rfl) (Option.some_ne_none content).symm

theorem Child.Acted.grows {c d : Child} {was file next : Option (List UInt8)} {a : ChildAction} (acted : c.Acted file a d next)
    (writes : c.Writes was) (there : c.Open → file ≠ none) :
    Grows file next ∧ (Kept was file → Kept was next) ∧ (d.Open → next ≠ none) := by
  obtain ⟨_, closed, _, rfl⟩ | ⟨more, ⟨p, work, past⟩, _, _, appends, makes⟩ := acted.file_cases writes
  · exact ⟨.refl _, id, fun isOpen => absurd isOpen closed⟩
  · have new : Kept was next := by
      intro content there
      cases ((writes p work).2 past).symm.trans there
    by_cases isOpen : c.Open
    · obtain ⟨content, rfl⟩ := Option.ne_none_iff_exists'.mp (there isOpen)
      rw [appends isOpen] at new ⊢
      refine ⟨?_, fun _ => new, fun _ => Option.some_ne_none _⟩
      intro before same
      cases same
      exact ⟨more, rfl⟩
    · rw [(makes isOpen).2] at new ⊢
      refine ⟨?_, fun _ => new, fun _ => Option.some_ne_none _⟩
      intro before same
      exact ⟨[], by rw [same, List.append_nil]; rfl⟩

theorem relies_kept (resolve : List UInt8 → κ) (files : κ → Option (List UInt8)) (first : Nat) :
    (tftpServer resolve).Relies files first (RelyKept resolve files) (AllowKept files) where
  refl k file := ⟨.refl file, id⟩
  trans := fun first second => ⟨first.1.trans second.1, second.2 ∘ first.2⟩
  born := by
    intro i b m b' c file _ round since
    obtain gone | reading | writing := mainRound_child round
    · refine ⟨fun p work => ?_, since.2 fun content there => there, ?_⟩
      · cases gone.symm.trans work
      · rintro ⟨p, work, _⟩
        cases gone.symm.trans work
    · refine ⟨fun p work => ?_, since.2 fun content there => there, ?_⟩
      · cases reading.symm.trans work
      · rintro ⟨p, work, _⟩
        cases reading.symm.trans work
    · refine ⟨fun p work => ?_, since.2 fun content there => there, ?_⟩
      · cases writing.symm.trans work
        exact ⟨start_sound _ _, fun past => absurd past id⟩
      · rintro ⟨p, work, state⟩
        cases writing.symm.trans work
        exact absurd rfl state
  acts := by
    intro i c file a d next rely acts
    have acted := Child.act_cases acts
    have same := acted.filename
    have writes := acted.writes rely.writes rely.kept
    obtain ⟨grows, kept, there⟩ := acted.grows rely.writes rely.there
    refine ⟨congrArg resolve same, ⟨?_, ?_, there⟩, grows, kept⟩
    · rw [same]
      exact writes
    · rw [same]
      exact kept rely.kept
  stable := by
    intro i c file next rely allowed
    refine ⟨rely.writes, allowed.2 rely.kept, fun isOpen => ?_⟩
    obtain ⟨content, rfl⟩ := Option.ne_none_iff_exists'.mp (rely.there isOpen)
    obtain ⟨more, rfl⟩ := allowed.1 content rfl
    exact Option.some_ne_none _

theorem rests_start (resolve : List UInt8 → κ) (rely : Nat → Child → Option (List UInt8) → Prop) (files : κ → Option (List UInt8)) (buf : List UInt8) :
    (tftpServer resolve).Rests rely (ServerState.start files buf) := fun _ _ child => by cases child

/-- A new file was opened by a process for it. -/
def Opened (resolve : List UInt8 → κ) (files : κ → Option (List UInt8)) (s : ServerState κ) : Prop :=
  ∀ k, files k = none → s.store k ≠ none → ∃ c ∈ s.children, resolve c.filename = k ∧ c.Open

variable [DecidableEq κ] {buf : List UInt8} {s t : ServerState κ}
variable {actions : List (Forking.Action (Datagram × Behind) ChildAction)}

theorem opened_step (rests : (tftpServer resolve).Rests (RelyKept resolve files) s) (opened : Opened resolve files s)
    {a : Forking.Action (Datagram × Behind) ChildAction} (stepped : (tftpServer resolve).Stepped s a t) :
    Opened resolve files t := by
  intro k new there
  cases stepped with
  | forked =>
    obtain ⟨c, member, own, isOpen⟩ := opened k new there
    exact ⟨c, List.mem_append_left _ member, own, isOpen⟩
  | @acted i a c d file here acts =>
    have acted := Child.act_cases acts
    have opens : c.Open ∨ file ≠ s.store ((tftpServer resolve).own c) → d.Open := by
      obtain ⟨closed, _, _, same⟩ | ⟨_, _, isOpen, _⟩ := acted.file_cases (rests i c here).writes
      · exact fun either => either.elim (absurd · closed) (absurd same)
      · exact fun _ => isOpen
    have inside := (List.getElem?_eq_some_iff.mp here).1
    have mine : d ∈ s.children.set i d := List.mem_of_getElem? (List.getElem?_set_self inside)
    have elsewhere : s.store k ≠ none → ∃ e ∈ s.children.set i d, resolve e.filename = k ∧ e.Open := by
      intro before
      obtain ⟨e, member, own, isOpen⟩ := opened k new before
      obtain ⟨j, child⟩ := List.mem_iff_getElem?.mp member
      by_cases same : i = j
      · subst same
        cases here.symm.trans child
        exact ⟨d, mine, by rw [acted.filename]; exact own, opens (Or.inl isOpen)⟩
      · exact ⟨e, List.mem_of_getElem? (by rw [List.getElem?_set_ne same]; exact child), own, isOpen⟩
    dsimp only at there
    by_cases own : k = (tftpServer resolve).own c
    · subst own
      by_cases before : s.store ((tftpServer resolve).own c) = none
      · rw [Function.update_self] at there
        exact ⟨d, mine, congrArg resolve acted.filename, opens (Or.inr fun same => there (same.trans before))⟩
      · exact elsewhere before
    · rw [Function.update_of_ne own] at there
      exact elsewhere there

/-- In every run files that were there from the start stay as they are, every file only grows from any point of the
run on, and a new file is one that a process forked for it has opened for writing. -/
theorem files_only_grow (run : (tftpServer resolve).run (ServerState.start files buf) actions = some t) :
    (∀ k content, files k = some content → t.store k = some content) ∧
      (∀ later u, (tftpServer resolve).run t later = some u → ∀ k, Grows (t.store k) (u.store k)) ∧
      ∀ k, files k = none → t.store k ≠ none → ∃ c ∈ t.children, resolve c.filename = k ∧ c.Open := by
  have relies := relies_kept resolve files 0
  have rests := rests_start resolve (RelyKept resolve files) files buf
  obtain ⟨final, since⟩ := relies.run rests (fun k => relies.refl k _) (Nat.zero_le _) run
  refine ⟨?_, ?_, ?_⟩
  · intro k content there
    exact (since k).2 (fun _ same => same) content there
  · intro later u more k
    exact ((relies.run final since (Nat.zero_le _) more).2 k).1
  · refine (relies.run_rule (Opened resolve files) rests (fun k => relies.refl k _) (Nat.zero_le _) ?_ ?_ run).2
    · intro u a v rests opened stepped
      exact opened_step rests opened stepped
    · intro k new there
      exact absurd new there

/-- An upload of `a` beside a file `b`. -/
theorem files_beside_upload :
    ∃ t, (tftpServer id).run (ServerState.start (fun name => if name = [98] then some [1] else none) (List.replicate 512 0))
        (.parent (requestOfA 2, .nuls) :: (putByte ⟨0, 69⟩ 7).map (.child 0)) = some t ∧
      t.store [98] = some [1] ∧ ∃ c ∈ t.children, c.filename = [97] ∧ c.Open := by
  obtain ⟨t, _, _, run, stored, _⟩ := putByte_run id
    (s := ServerState.start (fun name => if name = [98] then some [1] else none) (List.replicate 512 0))
    List.length_replicate (requestOfA_asks 2) (requestOfA_fits 2) .nuls rfl 7
  obtain ⟨kept, _, new⟩ := files_only_grow run
  exact ⟨t, run, kept [98] [1] rfl, new [97] rfl fun absent => Option.some_ne_none [7] (stored.symm.trans absent)⟩

/-! ### Concurrent uploads -/

/-- A process adds to its file what it adds to its own part of it. -/
theorem Child.Acted.adds {c d : Child} {was file next : Option (List UInt8)} {a : ChildAction} (acted : c.Acted file a d next)
    (writes : c.Writes was) (there : c.Open → file ≠ none) :
    ∃ more, d.content = c.content ++ more ∧ next.getD [] = file.getD [] ++ more := by
  obtain ⟨_, _, same, rfl⟩ | ⟨more, _, _, added, appends, makes⟩ := acted.file_cases writes
  · exact ⟨[], by rw [same, List.append_nil], (List.append_nil _).symm⟩
  · refine ⟨more, added, ?_⟩
    by_cases isOpen : c.Open
    · obtain ⟨content, rfl⟩ := Option.ne_none_iff_exists'.mp (there isOpen)
      rw [appends isOpen]
      rfl
    · obtain ⟨rfl, made⟩ := makes isOpen
      rw [made, List.append_nil]
      rfl

/-- What each process has put into file `k`. -/
def contents (resolve : List UInt8 → κ) (k : κ) (s : ServerState κ) : List (List UInt8) :=
  s.children.map fun c => if resolve c.filename = k then c.content else []

theorem mainRound_content {message : Datagram × Behind} {buf' : List UInt8} {c : Child}
    (round : mainRound buf message = some (buf', c)) : c.content = [] := by
  unfold Child.content
  obtain gone | reading | writing := mainRound_child round
  · rw [gone]
  · rw [reading]
  · rw [writing]
    exact List.take_zero

theorem contents_step (rests : (tftpServer resolve).Rests (RelyKept resolve files) s) {k : κ}
    (merge : Merge (contents resolve k s) ((s.store k).getD []))
    {a : Forking.Action (Datagram × Behind) ChildAction} (stepped : (tftpServer resolve).Stepped s a t) :
    Merge (contents resolve k t) ((t.store k).getD []) := by
  cases stepped with
  | @forked m b c round =>
    have nothing : (if resolve c.filename = k then c.content else []) = [] := by
      rw [mainRound_content round, ite_self]
    unfold contents
    rw [List.map_append, List.map_singleton, nothing]
    exact merge.concat
  | @acted i a c d file here acts =>
    have acted := Child.act_cases acts
    have place : (contents resolve k s)[i]? = some (if resolve c.filename = k then c.content else []) := by
      rw [contents, List.getElem?_map, here]
      rfl
    unfold contents at merge place ⊢
    dsimp only
    rw [List.map_set, acted.filename]
    by_cases own : k = (tftpServer resolve).own c
    · obtain ⟨more, added, longer⟩ := acted.adds (rests i c here).writes (rests i c here).there
      rw [if_pos (show resolve c.filename = k from own.symm)] at place ⊢
      rw [own, Function.update_self, added, longer, ← own]
      exact merge.append place more
    · rw [if_neg (show ¬ resolve c.filename = k from fun same => own same.symm)] at place ⊢
      rw [Merge.set_same place, Function.update_of_ne own]
      exact merge

theorem contents_run (run : (tftpServer resolve).run (ServerState.start files buf) actions = some t) {k : κ}
    (new : files k = none) :
    (tftpServer resolve).Rests (RelyKept resolve files) t ∧ Merge (contents resolve k t) ((t.store k).getD []) := by
  have relies := relies_kept resolve files 0
  apply relies.run_rule (fun u => Merge (contents resolve k u) ((u.store k).getD [])) (rests_start _ _ files buf)
    (fun k => relies.refl k _) (Nat.zero_le _) ?_ ?_ run
  · intro u a v rests merge stepped
    exact contents_step rests merge stepped
  · show Merge [] ((files k).getD [])
    rw [new]
    exact .nil 0

/-- In every run a file that was not there from the start is a merge of what its uploads have put into it: each byte that
left one of them is in the file once and in its order, and nothing else is. What an upload sends and writes does not
depend on the others. -/
theorem uploads_merge (run : (tftpServer resolve).run (ServerState.start files buf) actions = some t) {k : κ}
    (new : files k = none) :
    Merge (contents resolve k t) ((t.store k).getD []) ∧
      ∀ c ∈ t.children, ∀ p, c.work = .writing p →
        p.Follows c.filename c.asked p.phase ∧ c.content = (p.written c.asked).take p.flushed := by
  obtain ⟨rests, merge⟩ := contents_run run new
  refine ⟨merge, fun c member p work => ?_⟩
  obtain ⟨i, child⟩ := List.mem_iff_getElem?.mp member
  refine ⟨((rests i c child).writes p work).1.follows, ?_⟩
  rw [Child.content, work]
  rfl

/-- The steps of two processes that find no file, open it, and put their bytes into it in turn. -/
def twoUploads : List (Nat × Action) :=
  [(0, .access), (1, .access), (0, .fopen true), (1, .fopen true), (0, .head), (1, .head),
    (0, .event (dataEvent ⟨0, 69⟩ 1 [7, 8])), (1, .event (dataEvent ⟨0, 70⟩ 1 [5, 6])), (0, .head), (1, .head),
    (0, .flush 1), (1, .flush 1), (0, .flush 1), (1, .flush 1)]

theorem two_uploads_merge :
    ∃ t, (tftpServer id).run (ServerState.start (fun _ => none) (List.replicate 512 0))
        (.parent (requestOfA 2, .nuls) :: .parent (⟨⟨0, 70⟩, (requestOfA 2).bytes⟩, .nuls) ::
          twoUploads.map fun step => .child step.1 (.write step.2)) = some t ∧
      contents id [97] t = [[7, 8], [5, 6]] ∧ t.store [97] = some [7, 5, 8, 6] ∧
      Merge (contents id [97] t) [7, 5, 8, 6] := by
  have facts : ((tftpServer id).run (ServerState.start (fun _ => none) (List.replicate 512 0))
      (.parent (requestOfA 2, .nuls) :: .parent (⟨⟨0, 70⟩, (requestOfA 2).bytes⟩, .nuls) ::
        twoUploads.map fun step => .child step.1 (.write step.2))).map
      (fun t => (contents id [97] t, t.store [97])) = some ([[7, 8], [5, 6]], some [7, 5, 8, 6]) := by
    decide +kernel
  obtain ⟨t, run, facts⟩ := Option.map_eq_some_iff.mp facts
  obtain ⟨put, stored⟩ := Prod.mk.inj facts
  obtain ⟨merge, _⟩ := uploads_merge run (k := [97]) rfl
  rw [stored, Option.getD_some] at merge
  exact ⟨t, run, put, stored, merge⟩

/-! ### Reads beside uploads -/

/-- In every run, what an octet read has sent so far is the front of its file as it stands now, also where the file is
being written. -/
theorem downloads_front (run : (tftpServer resolve).run (ServerState.start files buf) actions = some t) {c : Child}
    {p : Downloader} (member : c ∈ t.children) (work : c.work = .reading p) (mode : c.mode = octet)
    (found : p.phase ≠ .refused) : p.payloads <+: (t.store (resolve c.filename)).getD [] := by
  have relies := (relies_kept resolve files 0).also
    (fun _ c file => ∀ p, c.work = .reading p → c.mode = octet → p.Fronts file p.phase)
    (by
      intro i b m b' c file _ round _ p work mode
      obtain gone | reading | writing := mainRound_child round
      · cases gone.symm.trans work
      · cases reading.symm.trans work
        exact ⟨rfl, rfl⟩
      · cases writing.symm.trans work)
    (by
      intro i c file a d next _ fronts acts p work mode
      have acted := Child.act_cases acts
      cases acted with
      | noSocket | wrote => cases work
      | @read p' q a before stepped =>
        cases work
        rw [show c.mode = octet from mode] at stepped
        exact stepped.fronts (fronts p' before mode))
    (fun fronts allowed p work mode => (fronts p work mode).grows allowed.1)
  obtain ⟨i, child⟩ := List.mem_iff_getElem?.mp member
  obtain ⟨rests, _⟩ := relies.run (rests_start _ _ files buf) (fun k => relies.refl k _) (Nat.zero_le _) run
  have fronts := (rests i c child).2 p work mode
  have nothing : p.sent = [] → p.payloads <+: (t.store (resolve c.filename)).getD [] := by
    intro sent
    rw [Downloader.payloads, sent]
    exact List.nil_prefix
  cases phase : p.phase with
  | refused => exact absurd phase found
  | checking | opening | notOpened =>
    rw [phase] at fronts
    exact nothing fronts.1
  | atHead s | waiting s | left x s =>
    rw [phase] at fronts
    obtain ⟨content, file, front⟩ := fronts
    rw [show t.store (resolve c.filename) = some content from file]
    exact (List.prefix_append _ _).trans front.front

theorem download_after_upload :
    ∃ t q, (tftpServer id).run (ServerState.start (fun _ => none) (List.replicate 512 0))
        ((.parent (requestOfA 2, .nuls) :: (putByte ⟨0, 69⟩ 7).map (.child 0)) ++
          .parent (requestOfA 1, .nuls) :: (getByte ⟨0, 69⟩).map (.child 1)) = some t ∧
      t.store [97] = some [7] ∧ (∃ c ∈ t.children, c.work = .reading q) ∧ q.payloads <+: [7] := by
  obtain ⟨s, t, p, u, q, v, put, _, _, _, _, get, stored, children, _, left⟩ := putGet_run .nuls
  have run := (Forker.run_append put).trans get
  have member : { request := requestOfA 1, filename := [97], mode := octet, work := .reading q } ∈ t.children := by
    rw [children]
    exact List.mem_cons_of_mem _ List.mem_cons_self
  have front := downloads_front run member rfl rfl (by rw [left]; exact fun refused => by cases refused)
  rw [show t.store (id [97]) = some [7] from stored] at front
  exact ⟨t, q, run, stored, ⟨_, member, rfl⟩, front⟩

end

end NetProjects.Tftp
