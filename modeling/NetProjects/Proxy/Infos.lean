import NetProjects.Proxy.Tracking

/-!
# What holds of every header that has been parsed

An `http_info_t` is zeroed with its node, and changed only by the two parsers and by the date of a 304.
-/

namespace NetProjects.Proxy
open Bytes

structure KeptInfo (P : HttpInfo → Prop) : Prop where
  zero : P .zero
  request : ∀ reqBuf memory i j, parseRequest reqBuf memory i = some j → P i → P j
  response : ∀ resBuf memory i j, parseResponse resBuf memory i = some j → P i → P { j with infoComplete := true }
  redated : ∀ (i j : HttpInfo) date, i.date.strcpy j.date.bytes = some date → P i → P j → P { i with date := date }

section

variable {P : HttpInfo → Prop} {s t : ProxyState} {f : Nat} {io : Io} {n m : CacheNode} {offset : Int}

theorem requested_keeps (kept : KeptInfo P) (request : n.requested offset io = some m) (holds : P n.httpInfo) :
    P m.httpInfo := by
  obtain ⟨filled, fill, request⟩ := Option.bind_eq_some_iff.mp request
  rw [← filled_info fill] at holds
  obtain ⟨ended, _, request⟩ := Option.bind_eq_some_iff.mp request
  split at request
  · obtain ⟨info, parsed, request⟩ := Option.bind_eq_some_iff.mp request
    exact Option.some.inj request ▸ kept.request _ _ _ _ parsed holds
  · exact Option.some.inj request ▸ holds

theorem heard_keeps (kept : KeptInfo P) (heard : n.heard offset io = some m) (holds : P n.httpInfo) : P m.httpInfo := by
  obtain ⟨filled, fill, heard⟩ := Option.bind_eq_some_iff.mp heard
  rw [← filled_info fill] at holds
  split at heard
  · exact Option.some.inj heard ▸ holds
  · obtain ⟨info, parsed, heard⟩ := Option.bind_eq_some_iff.mp heard
    exact Option.some.inj heard ▸ kept.response _ _ _ _ parsed holds

theorem update_keeps {content : Nat → CacheNode} (holds : ∀ a, P (content a).httpInfo) (new : P n.httpInfo) (c : Nat) :
    ∀ a, P (Function.update content c n a).httpInfo := by
  intro a
  by_cases same : a = c
  · rw [same, Function.update_self]
    exact new
  · rw [Function.update_of_ne same]
    exact holds a

theorem Shows.keeps {x : Snapshot} (shows : Shows t x) (holds : ∀ a, P (x.content a).httpInfo) :
    ∀ a, P (t.content a).httpInfo := by
  intro a
  rw [shows.info]
  exact holds a

theorem Served.keeps (kept : KeptInfo P) (holds : ∀ a, P (s.content a).httpInfo) (served : Served s f io t) :
    ∀ a, P (t.content a).httpInfo := by
  cases served with
  | still _ shows => exact shows.keeps holds
  | accepted _ shows => exact shows.keeps (update_keeps holds kept.zero _)
  | dropped _ request shows => exact shows.keeps (update_keeps holds (requested_keeps kept request (holds _)) _)
  | connected _ request shows => exact shows.keeps (update_keeps holds (requested_keeps kept request (holds _)) _)
  | sent _ _ _ _ shows => exact shows.keeps holds
  | asked _ _ _ shows => exact shows.keeps holds
  | answered _ _ _ shows => exact shows.keeps holds
  | received _ heard _ _ shows => exact shows.keeps (update_keeps holds (heard_keeps kept heard (holds _)) _)
  | @finished _ c d _ _ _ _ _ _ heard ends _ shows =>
    have here := heard_keeps kept heard (holds c)
    have updated := update_keeps holds here c
    cases ends with
    | closed => exact shows.keeps updated
    | @notModified _ date _ _ copied =>
      have redated : P ((s.content d).redated date).httpInfo := kept.redated _ _ _ copied (holds d) here
      exact shows.keeps (update_keeps updated redated d)

/-- It holds of every node after every run. -/
theorem Ran.keeps (kept : KeptInfo P) {slots : Nat} {history : List Transition} (two : 2 ≤ slots)
    (h : Ran slots history s) : ∀ a, P (s.content a).httpInfo := by
  induction h with
  | start h =>
    intro a
    rw [← info_eq_content, start_zero two h a]
    exact kept.zero
  | step h next ih =>
    obtain ⟨v, known⟩ := h.known two
    exact (known.served next).2.1.keeps kept ih

end

end NetProjects.Proxy
