import NetProjects.Tftp.ReadRuns
import NetProjects.Tftp.ServerFiles
import NetProjects.Tftp.Uploads

/-!
# Put, then get

A file that was uploaded through the server is read back through it as it was, whatever other requests the server
takes before, between and after, and in any order of the steps of its processes.
-/

namespace NetProjects.Tftp
open Bytes

/-! ### A file that is there -/

section

variable {buf buf' : List UInt8} {message : Datagram × Behind} {c : Child}

/-- The writer will not write: it has not found the file absent, or has returned with its stream flushed. -/
def Uploader.Done (p : Uploader) : Prop := ¬ p.phase.Past ∨ ∃ x s, p.phase = .left x s ∧ p.flushed = s.writer.fd.length

theorem Uploader.Stepped.done {filename content : List UInt8} {r : Request} {p q : Uploader} {next : Option (List UInt8)}
    {a : Action} (stepped : Stepped filename r p (some content) a q next) (done : p.Done) : q.Done ∧ next = some content := by
  cases stepped with
  | refused => exact ⟨Or.inl id, rfl⟩
  | notOpened => exact ⟨Or.inl id, rfl⟩
  | opened phase | acked phase | finished phase | reacted phase | ended phase =>
    obtain closed | ⟨x, s, left, _⟩ := done
    · rw [phase] at closed
      exact absurd trivial closed
    · cases phase.symm.trans left
  | @flushed _ s n state alive room =>
    obtain closed | ⟨x, t, left, all⟩ := done
    · exact absurd (Phase.past_of_state state) closed
    · rw [left] at state
      cases state
      obtain rfl : n = 0 := by omega
      refine ⟨Or.inr ⟨x, s, left, all⟩, ?_⟩
      rw [List.take_zero]
      exact congrArg some (List.append_nil content)

theorem mainRound_done (round : mainRound buf message = some (buf', c)) (content : List UInt8) :
    (∀ p, c.work = .writing p → p.Done) ∧
      ∀ p, c.work = .reading p → p.Sound c.filename c.mode c.request.peer content := by
  obtain gone | reading | writing := mainRound_child round
  · rw [gone]
    exact ⟨fun p work => Work.noConfusion work, fun p work => Work.noConfusion work⟩
  · rw [reading]
    refine ⟨fun p work => Work.noConfusion work, fun p work => ?_⟩
    cases work
    exact Downloader.start_sound _ _ _ content
  · rw [writing]
    refine ⟨fun p work => ?_, fun p work => Work.noConfusion work⟩
    cases work
    exact Or.inl id

end

section

variable {κ : Type} {resolve : List UInt8 → κ} {k : κ} {content : List UInt8}

/-- The file holds the content and will keep it, and the reads from process `first` on are reads of it. -/
def RelySettled (resolve : List UInt8 → κ) (k : κ) (content : List UInt8) (first i : Nat) (c : Child)
    (file : Option (List UInt8)) : Prop :=
  resolve c.filename = k → file = some content ∧ (∀ p, c.work = .writing p → p.Done) ∧
    (first ≤ i → ∀ p, c.work = .reading p → p.Sound c.filename c.mode c.request.peer content)

def AllowSettled (k : κ) (content : List UInt8) (k' : κ) (file next : Option (List UInt8)) : Prop :=
  k' = k → file = some content → next = some content

theorem relies_settled (resolve : List UInt8 → κ) {origin : κ → Option (List UInt8)} (there : origin k = some content) (first : Nat) :
    (tftpServer resolve).Relies origin first (RelySettled resolve k content first) (AllowSettled k content) where
  refl := fun _ _ _ same => same
  trans := fun one two own same => two own (one own same)
  born := by
    intro i b m b' c file late round since own
    obtain ⟨writer, reader⟩ := mainRound_done round content
    refine ⟨since own ?_, writer, fun _ => reader⟩
    rw [show (tftpServer resolve).own c = k from own]
    exact there
  acts := by
    intro i c file a d next rely acts
    have acted := Child.act_cases acts
    refine ⟨congrArg resolve acted.filename, ?_⟩
    by_cases own : resolve c.filename = k
    · obtain ⟨rfl, writer, reader⟩ := rely own
      suffices settled : RelySettled resolve k content first i d next from
        ⟨settled, fun _ _ => (settled ((congrArg resolve acted.filename).trans own)).1⟩
      intro _
      cases acted with
      | noSocket => exact ⟨rfl, fun p work => Work.noConfusion work, fun _ p work => Work.noConfusion work⟩
      | @read p q a work stepped =>
        refine ⟨rfl, fun p work => Work.noConfusion work, fun late q' work' => ?_⟩
        cases work'
        exact stepped.sound (reader late p work)
      | @wrote next p q a work stepped =>
        obtain ⟨done, rfl⟩ := stepped.done (writer p work)
        refine ⟨rfl, fun q' work' => ?_, fun _ p work => Work.noConfusion work⟩
        cases work'
        exact done
    · refine ⟨fun own' => absurd ?_ own, fun own' => absurd own' own⟩
      rw [← acted.filename]
      exact own'
  stable := fun rely allowed own => ⟨allowed own (rely own).1, (rely own).2⟩

/-- A read of the content in which every block is acknowledged. -/
theorem Downloader.Sound.acked {filename : List UInt8} {client : SockAddr} {p : Downloader}
    (sound : p.Sound filename octet client content)
    (acks : p.events = ackEvents client 0 (content.length / maxBufLen + 1)) :
    p.sent = (List.range (content.length / maxBufLen + 1)).map (blockDatagram content client) ∧
      ∃ s, p.phase = .left (.ret .ok) s := by
  have inside : maxBufLen * (0 + content.length / maxBufLen) ≤ content.length := by
    rw [Nat.zero_add]
    exact Nat.mul_div_le _ _
  have short : content.length < maxBufLen * (0 + content.length / maxBufLen + 1) := by
    rw [Nat.zero_add]
    exact lt_blocks (by decide) content.length
  obtain ⟨sent, u, ok⟩ := rrq_acked_to_end (rrqStart_at content client) inside short
  rw [← acks] at sent ok
  rw [List.range_eq_range', ← sent]
  have follows := sound.follows
  have some : p.events ≠ [] := by
    rw [acks]
    exact List.cons_ne_nil _ _
  cases phase : p.phase with
  | checking | opening | notOpened =>
    rw [phase] at follows
    exact absurd follows.2.1 some
  | refused =>
    rw [phase] at follows
    exact absurd follows.2 some
  | atHead s =>
    rw [phase] at follows
    obtain ⟨_, none, _⟩ | ⟨es, e, t, events, run, react⟩ := follows
    · exact absurd none some
    · -- At the loop head the read goes on.
      rw [events, EventLoop.run_append_go [] run react] at ok
      cases ok
  | waiting s =>
    rw [phase] at follows
    cases ok.symm.trans (congrArg Prod.snd follows)
  | left x s =>
    rw [phase] at follows
    cases ok.symm.trans (congrArg Prod.snd follows)
    exact ⟨(congrArg Prod.fst follows).symm, s, rfl⟩

/-- The file of a single upload that has ended is what was uploaded. -/
theorem uploaded_file [DecidableEq κ] {files : κ → Option (List UInt8)} {buf data : List UInt8} {s : ServerState κ}
    {actions : List (Forking.Action (Datagram × Behind) ChildAction)} {i : Nat} {c : Child} {p : Uploader} {x : Exit} {u : WrqState}
    (put : (tftpServer resolve).run (ServerState.start files buf) actions = some s) (child : s.children[i]? = some c)
    (mode : c.mode = octet) (small : data.length ≤ 65535 * maxBufLen) (work : c.work = .writing p)
    (uploaded : p.events = upload c.request.peer data) (left : p.phase = .left x u) (flushed : p.flushed = u.writer.fd.length)
    (alone : ∀ (j : Nat) (other : Child) (q : Uploader), s.children[j]? = some other → resolve other.filename = resolve c.filename →
      other.work = .writing q → q.phase.Past → j = i) :
    s.store (resolve c.filename) = some data := by
  have relies := relies_kept resolve files 0
  obtain ⟨rests, _⟩ := relies.run (rests_start _ _ files buf) (fun k => relies.refl k _) (Nat.zero_le _) put
  obtain ⟨sound, absent⟩ := (rests i c child).writes p work
  have state : p.phase.state = some u := by
    rw [left]
    rfl
  have new := absent (Phase.past_of_state state)
  obtain ⟨_, merge⟩ := contents_run put new
  have mine : c.content = data := by
    obtain ⟨v, run, file⟩ := wrq_upload c.request.peer data
    have written := sound.follows.written state
    unfold Uploader.written at written
    rw [uploaded, show c.asked = ⟨octet, c.request.peer⟩ by rw [Child.asked, mode], run] at written
    rw [Child.content, work]
    dsimp only
    rw [Uploader.content, flushed, sound.follows.written state, List.take_length, ← written]
    exact file.trans ((kept_eq_iff data).mpr small)
  have whole : (s.store (resolve c.filename)).getD [] = data := merge.alone (i := i) ?_ ?_
  · have there := (rests i c child).there ⟨p, work, by rw [state]; exact Option.some_ne_none u⟩
    obtain ⟨content, file⟩ := Option.ne_none_iff_exists'.mp there
    have file : s.store (resolve c.filename) = some content := file
    rw [file] at whole ⊢
    exact congrArg some whole
  · rw [contents, List.getElem?_map, child, Option.map_some, if_pos rfl, mine]
  · intro j other differs member
    rw [contents, List.getElem?_map] at member
    obtain ⟨c', child', rfl⟩ := Option.map_eq_some_iff.mp member
    split
    · rename_i own
      unfold Child.content
      split
      · rename_i q work'
        refine ((rests j c' child').writes q work').1.content_closed ?_
        by_contra isOpen
        exact differs (alone j c' q child' own work' (Phase.past_of_state_ne isOpen))
      · rfl
    · rfl

/-- The buffer of `main` has its size, and every process its name and mode. -/
def NamesKept (s : ServerState κ) : Prop :=
  s.parent.length = maxBufLen ∧ ∀ (i : Nat) (c : Child), s.children[i]? = some c → c.Named

theorem namesKept_run [DecidableEq κ] {s t : ServerState κ} {actions : List (Forking.Action (Datagram × Behind) ChildAction)}
    (kept : NamesKept s) (run : (tftpServer resolve).run s actions = some t) : NamesKept t := by
  refine Forker.run_rule NamesKept ?_ kept run
  rintro u a v ⟨size, named⟩ stepped
  cases stepped with
  | forked round =>
    obtain ⟨after, child⟩ := mainRound_named size round
    refine ⟨after, fun j d member => ?_⟩
    obtain old | new := List.mem_append.mp (List.mem_of_getElem? member)
    · obtain ⟨i, here⟩ := List.mem_iff_getElem?.mp old
      exact named i d here
    · rw [List.mem_singleton.mp new]
      exact child
  | @acted i a c d file here acts =>
    refine ⟨size, fun j e member => ?_⟩
    obtain old | rfl := List.mem_or_eq_of_mem_set (List.mem_of_getElem? member)
    · obtain ⟨k, here⟩ := List.mem_iff_getElem?.mp old
      exact named k e here
    · exact (Child.act_cases acts).named (named i c here)

/-- An upload that has ended with its stream flushed, and that no other process takes part in, stands in the file in
every later state, and every read that is forked later and acknowledged to its end has sent just its blocks. The
requests may name the file differently. -/
theorem put_then_get [DecidableEq κ] {files : κ → Option (List UInt8)} {buf data name : List UInt8} {s t : ServerState κ}
    {before after : List (Forking.Action (Datagram × Behind) ChildAction)} {i : Nat} {c : Child} {p : Uploader} {x : Exit}
    {u : WrqState} (size : buf.length = maxBufLen) (small : data.length ≤ 65535 * maxBufLen)
    (put : (tftpServer resolve).run (ServerState.start files buf) before = some s) (child : s.children[i]? = some c)
    (asks : c.request.Asks 2 name) (work : c.work = .writing p) (uploaded : p.events = upload c.request.peer data)
    (left : p.phase = .left x u) (flushed : p.flushed = u.writer.fd.length)
    (alone : ∀ (j : Nat) (other : Child) (q : Uploader), s.children[j]? = some other → resolve other.filename = resolve name → other.work = .writing q →
      q.phase.Past → j = i)
    (later : (tftpServer resolve).run s after = some t) :
    t.store (resolve name) = some data ∧
      ∀ j reader q other, s.children.length ≤ j → t.children[j]? = some reader → reader.request.Asks 1 other →
        resolve other = resolve name → reader.work = .reading q →
        q.events = ackEvents reader.request.peer 0 (data.length / maxBufLen + 1) →
        q.sent = (List.range (data.length / maxBufLen + 1)).map (blockDatagram data reader.request.peer) ∧
          ∃ v, q.phase = .left (.ret .ok) v := by
  have start : NamesKept (ServerState.start files buf) := ⟨size, fun j d member => by cases member⟩
  have names := namesKept_run start put
  obtain ⟨filename, mode⟩ := names.2 i c child 2 name asks (by rw [work]; exact fun gone => Work.noConfusion gone)
  rw [← filename] at alone ⊢
  have file := uploaded_file put child mode small work uploaded left flushed alone
  have relies := relies_settled resolve file s.children.length
  have settled : (tftpServer resolve).Rests (RelySettled resolve (resolve c.filename) data s.children.length) s := by
    intro j other here own
    have inside := (List.getElem?_eq_some_iff.mp here).1
    refine ⟨?_, fun q writes => ?_, fun late => absurd inside (Nat.not_lt.mpr late)⟩
    · rw [show (tftpServer resolve).own other = resolve c.filename from own]
      exact file
    · by_cases past : q.phase.Past
      · obtain rfl := alone j other q here own writes past
        cases child.symm.trans here
        cases work.symm.trans writes
        exact Or.inr ⟨x, u, left, flushed⟩
      · exact Or.inl past
  obtain ⟨rests, since⟩ := relies.run settled (fun k => relies.refl k _) (Nat.le_refl _) later
  refine ⟨since _ rfl file, ?_⟩
  intro j reader q other late here asked same reads acks
  obtain ⟨named, octets⟩ := (namesKept_run names later).2 j reader here 1 other asked
    (by rw [reads]; exact fun gone => Work.noConfusion gone)
  have sound := (rests j reader here ((congrArg resolve named).trans same)).2.2 late q reads
  rw [octets] at sound
  exact sound.acked acks

theorem put_then_get_byte :
    ∃ s t q, (tftpServer id).run (ServerState.start (fun _ => none) (List.replicate 512 0))
        (.parent (requestOfA 2, .nuls) :: (putByte ⟨0, 69⟩ 7).map (.child 0)) = some s ∧
      (tftpServer id).run s (.parent (requestOfA 1, .nuls) :: (getByte ⟨0, 69⟩).map (.child 1)) = some t ∧
      t.store [97] = some [7] ∧ (∃ c ∈ t.children, c.work = .reading q) ∧ q.sent = [blockDatagram [7] ⟨0, 69⟩ 0] := by
  obtain ⟨s, t, p, u, q, v, put, child, events, left, flushed, get, _, children, acks, _⟩ := putGet_run .nuls
  have alone : ∀ (j : Nat) (other : Child) (r : Uploader), s.children[j]? = some other → id other.filename = id [97] →
      other.work = .writing r → r.phase.Past → j = 0 := by
    intro j other r here _ _ _
    rw [child] at here
    have inside := (List.getElem?_eq_some_iff.mp here).1
    exact Nat.lt_one_iff.mp inside
  have small : [(7 : UInt8)].length ≤ 65535 * maxBufLen := by decide
  obtain ⟨stored, reads⟩ := put_then_get (i := 0) List.length_replicate small put (by rw [child]; rfl)
    (requestOfA_asks 2) rfl events left flushed alone get
  have second : t.children[1]? = some { request := requestOfA 1, filename := [97], mode := octet, work := .reading q } := by
    rw [children]
    rfl
  obtain ⟨sent, _⟩ := reads 1 _ q [97] (by rw [child]; exact Nat.le_refl 1) second (requestOfA_asks 1) rfl rfl acks
  exact ⟨s, t, q, put, get, stored, ⟨_, List.mem_of_getElem? second, rfl⟩, sent⟩

end

end NetProjects.Tftp
