import NetProjects.Proxy.HeaderLines

/-!
# Which headers are found

A name is recognised by the byte behind its colon, which is cleared only where the first header line is
long enough. The `Host:` of the client's own requests stands on the first line.
-/

namespace NetProjects.Proxy
open Bytes

namespace Header

/-- The values fit the fields that a request fills. -/
structure FitsRequest (h : Header) : Prop where
  host : h.name = cstr "Host" → h.value.length < 253
  userAgent : h.name = cstr "User-Agent" → h.value.length < 10
  connection : h.name = cstr "Connection" → h.value.length < 10

/-- The values fit the fields that a response fills. -/
structure FitsResponse (h : Header) : Prop where
  contentLength : h.name = cstr "Content-Length" → h.value.length < 10
  date : h.name = cstr "Date" → h.value.length < 30

end Header

/-- A line whose path, between `GET ` and ` HTTP/1.0`, fits its field. -/
structure RequestLine (line : List UInt8) : Prop where
  text : 13 ∉ line ∧ 0 ∉ line
  long : 13 ≤ line.length
  short : line.length ≤ 112

/-- A line whose status, behind `HTTP/1.0 `, fits its field. -/
structure ResponseLine (line : List UInt8) : Prop where
  text : 13 ∉ line ∧ 0 ∉ line
  long : 9 ≤ line.length
  short : line.length ≤ 28

def message (line : List UInt8) (headers : List Header) : List UInt8 := line ++ [13, 10] ++ headerText headers

def HasHeader (name : String) (headers : List Header) : Prop := ∃ h ∈ headers, h.name = cstr name

/-- The host is that of the last `Host` header, whatever the memory holds. -/
def FindsHost (line : List UInt8) (headers : List Header) : Prop :=
  ∀ (memory : Memory) (req : HttpInfo), memory.Holds headers → req.path = HttpInfo.zero.path →
    ∃ req', parseRequest (message line headers ++ 0 :: memory.after) memory req = some req' ∧
      req'.host.str = (lastValue (cstr "Host") headers).getD req.host.str

/-- The length and the date are those of the last such headers, whatever the memory holds. -/
def FindsLengthAndDate (line : List UInt8) (headers : List Header) : Prop :=
  ∀ (memory : Memory) (res : HttpInfo), memory.Holds headers → res.status = HttpInfo.zero.status →
    ∃ res', parseResponse (message line headers ++ 0 :: memory.after) memory res = some res' ∧
      res'.contentLength.str = (lastValue (cstr "Content-Length") headers).getD res.contentLength.str ∧
      res'.date.str = (lastValue (cstr "Date") headers).getD res.date.str

/-! ### Assignments -/

section

variable {h : Header} {c : UInt8} {info : HttpInfo}

/-- A key and a label of the source. -/
theorem strcmpLit_key (formed : h.WellFormed) (r : List UInt8) (name : String) (noColon : 58 ∉ cstr name) :
    strcmpLit (h.name ++ 58 :: c :: r) (cstr name ++ [58]) = some (decide (h.name = cstr name ∧ c = 0)) := by
  apply strcmpLit_label noColon _ (by decide)
  intro nul
  exact (formed.name 0 nul).1 rfl

theorem strcpy_value {k : Nat} (field : Field k) (formed : h.WellFormed) (short : h.value.length < k) (r : List UInt8) :
    ∃ d, field.strcpy (h.value ++ 0 :: r) = some d ∧ d.str = h.value := by
  have string : cstring (h.value ++ 0 :: r) = h.value := by
    rw [cstring_append_nul, cstring_eq_self formed.noNul.2]
  have terminated : 0 ∈ h.value ++ 0 :: r := List.mem_append_right _ List.mem_cons_self
  obtain ⟨d, copied, text⟩ := strcpy_text field terminated (by rw [string]; exact short)
  exact ⟨d, copied, text.trans string⟩

theorem assignRequest_fills : Fills assignRequest Header.FitsRequest (cstr "Host") (fun req => req.host.str) := by
  intro h c r r' info formed fits
  have host : strcmpLit (h.name ++ 58 :: c :: r) (cstr "Host:") = some (decide (h.name = cstr "Host" ∧ c = 0)) :=
    strcmpLit_key formed r "Host" (by decide)
  have agent : strcmpLit (h.name ++ 58 :: c :: r) (cstr "User-Agent:") =
      some (decide (h.name = cstr "User-Agent" ∧ c = 0)) := strcmpLit_key formed r "User-Agent" (by decide)
  have connection : strcmpLit (h.name ++ 58 :: c :: r) (cstr "Connection:") =
      some (decide (h.name = cstr "Connection" ∧ c = 0)) := strcmpLit_key formed r "Connection" (by decide)
  unfold assignRequest
  simp only [host, agent, connection, Option.bind_eq_bind, Option.bind_some, decide_eq_true_eq]
  by_cases isHost : h.name = cstr "Host" ∧ c = 0
  · obtain ⟨d, copied, text⟩ := strcpy_value info.host formed (fits.host isHost.1) r'
    rw [if_pos isHost, if_pos isHost, copied]
    exact ⟨_, rfl, text⟩
  rw [if_neg isHost, if_neg isHost]
  by_cases isAgent : h.name = cstr "User-Agent" ∧ c = 0
  · obtain ⟨d, copied, _⟩ := strcpy_value info.userAgent formed (fits.userAgent isAgent.1) r'
    rw [if_pos isAgent, copied]
    exact ⟨_, rfl, rfl⟩
  rw [if_neg isAgent]
  by_cases isConnection : h.name = cstr "Connection" ∧ c = 0
  · obtain ⟨d, copied, _⟩ := strcpy_value info.connection formed (fits.connection isConnection.1) r'
    rw [if_pos isConnection, copied]
    exact ⟨_, rfl, rfl⟩
  · rw [if_neg isConnection]
    exact ⟨_, rfl, rfl⟩

theorem assignResponse_found (formed : h.WellFormed) (fits : h.FitsResponse) (r r' : List UInt8) (info : HttpInfo) :
    ∃ info', assignResponse (h.name ++ 58 :: c :: r) (h.value ++ 0 :: r') info = some info' ∧
      (info'.contentLength.str = if h.name = cstr "Content-Length" ∧ c = 0 then h.value else info.contentLength.str) ∧
      info'.date.str = if h.name = cstr "Date" ∧ c = 0 then h.value else info.date.str := by
  have length : strcmpLit (h.name ++ 58 :: c :: r) (cstr "Content-Length:") =
      some (decide (h.name = cstr "Content-Length" ∧ c = 0)) := strcmpLit_key formed r "Content-Length" (by decide)
  have date : strcmpLit (h.name ++ 58 :: c :: r) (cstr "Date:") = some (decide (h.name = cstr "Date" ∧ c = 0)) :=
    strcmpLit_key formed r "Date" (by decide)
  unfold assignResponse
  simp only [length, date, Option.bind_eq_bind, Option.bind_some, decide_eq_true_eq]
  by_cases isLength : h.name = cstr "Content-Length" ∧ c = 0
  · have different : cstr "Content-Length" ≠ cstr "Date" := by decide
    have notDate : ¬ (h.name = cstr "Date" ∧ c = 0) := fun isDate => different (isLength.1.symm.trans isDate.1)
    obtain ⟨d, copied, text⟩ := strcpy_value info.contentLength formed (fits.contentLength isLength.1) r'
    rw [if_pos isLength, if_pos isLength, if_neg notDate, copied]
    exact ⟨_, rfl, text, rfl⟩
  rw [if_neg isLength, if_neg isLength]
  by_cases isDate : h.name = cstr "Date" ∧ c = 0
  · obtain ⟨d, copied, text⟩ := strcpy_value info.date formed (fits.date isDate.1) r'
    rw [if_pos isDate, if_pos isDate, copied]
    exact ⟨_, rfl, rfl, text⟩
  · rw [if_neg isDate, if_neg isDate]
    exact ⟨_, rfl, rfl, rfl⟩

theorem assignResponse_length :
    Fills assignResponse Header.FitsResponse (cstr "Content-Length") (fun res => res.contentLength.str) := by
  intro h c r r' info formed fits
  obtain ⟨info', assigned, length, _⟩ := assignResponse_found (c := c) formed fits r r' info
  exact ⟨info', assigned, length⟩

theorem assignResponse_date : Fills assignResponse Header.FitsResponse (cstr "Date") (fun res => res.date.str) := by
  intro h c r r' info formed fits
  obtain ⟨info', assigned, _, date⟩ := assignResponse_found (c := c) formed fits r r' info
  exact ⟨info', assigned, date⟩

end

/-! ### Whole messages -/

section

variable {headers : List Header} {line : List UInt8} {memory : Memory}

theorem message_split (line : List UInt8) (headers : List Header) (after : List UInt8) :
    message line headers ++ 0 :: after = line ++ 13 :: 10 :: (headerText headers ++ 0 :: after) := by
  unfold message
  simp

theorem strchr_message (text : 13 ∉ line ∧ 0 ∉ line) (headers : List Header) (after : List UInt8) :
    strchr 13 (message line headers ++ 0 :: after) = some (line.length : Int) := by
  rw [message_split, strchr_found _ text.1 text.2]

theorem message_short (short : (message line headers).length < maxDataSize) :
    (headerText headers).length < maxDataSize := by
  unfold message at short
  rw [List.length_append] at short
  omega

/-- The path is cut out of the first line, and the host is filled by the header lines. -/
theorem parseRequest_message (first : RequestLine line) (formed : ∀ h ∈ headers, h.WellFormed ∧ h.FitsRequest)
    (short : (message line headers).length < maxDataSize) (holds : memory.Holds headers) {req : HttpInfo}
    (blank : req.path = HttpInfo.zero.path) :
    ∃ req', parseRequest (message line headers ++ 0 :: memory.after) memory req = some req' ∧
      req'.path.str = (line.drop 4).take (line.length - 13) ∧
      Found (cstr "Host") (firstLength headers) headers memory.key req.host.str req'.host.str := by
  have long := first.long
  have fits := first.short
  have count : toSize ((line.length : Int) - 13) = line.length - 13 := by
    rw [toSize, if_pos (by omega)]
    omega
  have noNul : 0 ∉ line.drop 4 := fun nul => first.text.2 (List.mem_of_mem_drop nul)
  have size : line.length - 13 ≤ (line.drop 4).length := by
    rw [List.length_drop]
    omega
  have string : cstring ((message line headers ++ 0 :: memory.after).drop 4) =
      line.drop 4 ++ cstring (13 :: 10 :: (headerText headers ++ 0 :: memory.after)) := by
    rw [message_split, List.drop_append_of_le_length (by omega)]
    exact List.takeWhile_append_of_pos fun m member => decide_eq_true fun nul => noNul (nul ▸ member)
  obtain ⟨path, copied, text⟩ := strncpy_text (congrArg Field.bytes blank) (n := line.length - 13) (by omega) (by
    rw [string, List.length_append]
    omega)
  rw [string, List.take_append_of_le_length size] at text
  obtain ⟨req', lines, host⟩ : ∃ req', parseLines (fun _ => none) assignRequest
        (message line headers ++ 0 :: memory.after) line.length memory { req with path := path } = some req' ∧
      Found (cstr "Host") (firstLength headers) headers memory.key req.host.str req'.host.str :=
    parseLines_fills assignRequest_fills formed holds (message_short short)
  have kept : req'.path = path := by
    refine parseLines_keeps (P := fun info => info.path = path) ?_ ?_ lines rfl
    · intro _ _ impossible
      cases impossible
    · intro _ _ _ _ _ assigned same
      exact (assignRequest_same assigned).2.trans same
  refine ⟨req', ?_, ?_, host⟩
  · unfold parseRequest
    simp only [strchr_message first.text, count, copied, Option.bind_eq_bind, Option.bind_some]
    exact lines
  · rw [kept]
    exact text

/-- The status is cut out of the first line, and the length and the date are filled by the header lines. -/
theorem parseResponse_message (first : ResponseLine line) (formed : ∀ h ∈ headers, h.WellFormed ∧ h.FitsResponse)
    (short : (message line headers).length < maxDataSize) (holds : memory.Holds headers) {res : HttpInfo}
    (blank : res.status = HttpInfo.zero.status) :
    ∃ res', parseResponse (message line headers ++ 0 :: memory.after) memory res = some res' ∧
      Found (cstr "Content-Length") (firstLength headers) headers memory.key res.contentLength.str
        res'.contentLength.str ∧
      Found (cstr "Date") (firstLength headers) headers memory.key res.date.str res'.date.str := by
  obtain ⟨status, copied⟩ := memcpy_status blank first.long first.short
    (13 :: 10 :: (headerText headers ++ 0 :: memory.after))
  rw [← message_split] at copied
  obtain ⟨res', lines, length⟩ : ∃ res', parseLines some assignResponse (message line headers ++ 0 :: memory.after)
        line.length memory { res with status := status } = some res' ∧
      Found (cstr "Content-Length") (firstLength headers) headers memory.key res.contentLength.str
        res'.contentLength.str := parseLines_fills assignResponse_length formed holds (message_short short)
  obtain ⟨res'', again, date⟩ : ∃ res'', parseLines some assignResponse (message line headers ++ 0 :: memory.after)
        line.length memory { res with status := status } = some res'' ∧
      Found (cstr "Date") (firstLength headers) headers memory.key res.date.str res''.date.str :=
    parseLines_fills assignResponse_date formed holds (message_short short)
  obtain rfl : res' = res'' := Option.some.inj (lines.symm.trans again)
  refine ⟨res', ?_, length, date⟩
  unfold parseResponse
  simp only [strchr_message first.text, copied, Option.bind_eq_bind, Option.bind_some]
  exact lines

theorem lastValue_present {name : String} (present : HasHeader name headers) :
    ∃ value, lastValue (cstr name) headers = some value := by
  obtain ⟨h, member, same⟩ := present
  have nonempty : headers.filter (fun h => h.name = cstr name) ≠ [] :=
    List.ne_nil_of_mem (List.mem_filter.mpr ⟨member, decide_eq_true same⟩)
  unfold lastValue
  rw [List.getLast?_eq_some_getLast nonempty]
  exact ⟨_, rfl⟩

theorem Found.last {name : String} {n : Nat} {old before now : List UInt8}
    (found : Found (cstr name) n headers old before now) (long : HasHeader name headers → (cstr name).length + 1 < n) :
    now = (lastValue (cstr name) headers).getD before := by
  apply found.known
  by_cases present : HasHeader name headers
  · exact Or.inl (long present)
  · exact Or.inr fun h member same => present ⟨h, member, same⟩

/-- The header is there, and the field is as before. -/
theorem Found.lost {name : String} {n : Nat} {old before now : List UInt8}
    (found : Found (cstr name) n headers old before now) (present : HasHeader name headers)
    (short : n ≤ (cstr name).length + 1) (stale : 0 ∉ old) (other : lastValue (cstr name) headers ≠ some before) :
    now ≠ (lastValue (cstr name) headers).getD before := by
  obtain ⟨value, last⟩ := lastValue_present present
  rw [found.unknown short stale, last, Option.getD_some]
  intro same
  exact other (last.trans (congrArg some same.symm))

theorem zero_str {k : Nat} (pos : 0 < k) : (Field.zero pos).str = [] := by
  obtain ⟨k, rfl⟩ : ∃ j, k = j + 1 := ⟨k - 1, by omega⟩
  rfl

/-- A field can hold something else. -/
theorem Field.other {k : Nat} (size : 1 < k) (value : Option (List UInt8)) :
    ∃ field : Field k, value ≠ some field.str := by
  have terminated : (0 : UInt8) ∈ [97, 0] := by decide
  obtain ⟨letter, _, text⟩ := strcpy_text (Field.zero (Nat.zero_lt_of_lt size)) terminated size
  by_cases same : value = some letter.str
  · refine ⟨Field.zero (Nat.zero_lt_of_lt size), ?_⟩
    rw [zero_str, same, text]
    decide
  · exact ⟨letter, same⟩

/-- An allocated key has no NUL in it. -/
def Memory.full : Memory where
  after := List.replicate maxDataSize 0
  key := List.replicate maxDataSize 1
  value := List.replicate maxDataSize 0

theorem full_holds (short : (message line headers).length < maxDataSize) :
    Memory.full.Holds headers ∧ 0 ∉ Memory.full.key := by
  have text := (message_short short).le
  have size : ∀ byte : UInt8, (List.replicate maxDataSize byte).length = maxDataSize := fun _ => List.length_replicate
  refine ⟨⟨text.trans_eq (size 1).symm, text.trans_eq (size 0).symm, ?_⟩, ?_⟩
  · change maxDataSize ≤ _ + (List.replicate maxDataSize (0 : UInt8)).length
    rw [size]
    omega
  · intro member
    cases List.eq_of_mem_replicate member

theorem finds_host_iff (first : RequestLine line) (formed : ∀ h ∈ headers, h.WellFormed ∧ h.FitsRequest)
    (short : (message line headers).length < maxDataSize) :
    FindsHost line headers ↔ (HasHeader "Host" headers → 6 ≤ firstLength headers) := by
  constructor
  · intro finds present
    by_contra less
    obtain ⟨holds, stale⟩ := full_holds short
    obtain ⟨host, other⟩ := Field.other (k := 253) (by decide) (lastValue (cstr "Host") headers)
    let req : HttpInfo := { HttpInfo.zero with host := host }
    have blank : req.path = HttpInfo.zero.path := rfl
    obtain ⟨req', parsed, host⟩ := finds Memory.full req holds blank
    obtain ⟨req'', again, _, found⟩ := parseRequest_message first formed short holds blank
    obtain rfl : req' = req'' := Option.some.inj (parsed.symm.trans again)
    exact found.lost present (Nat.le_of_lt_succ (Nat.lt_of_not_le less)) stale other host
  · intro long memory req holds blank
    obtain ⟨req', parsed, _, found⟩ := parseRequest_message first formed short holds blank
    exact ⟨req', parsed, found.last long⟩

theorem finds_length_and_date_iff (first : ResponseLine line) (formed : ∀ h ∈ headers, h.WellFormed ∧ h.FitsResponse)
    (short : (message line headers).length < maxDataSize) :
    FindsLengthAndDate line headers ↔ (HasHeader "Content-Length" headers → 16 ≤ firstLength headers) ∧
      (HasHeader "Date" headers → 6 ≤ firstLength headers) := by
  constructor
  · intro finds
    obtain ⟨holds, stale⟩ := full_holds short
    obtain ⟨length, otherLength⟩ := Field.other (k := 10) (by decide) (lastValue (cstr "Content-Length") headers)
    obtain ⟨date, otherDate⟩ := Field.other (k := 30) (by decide) (lastValue (cstr "Date") headers)
    let res : HttpInfo := { HttpInfo.zero with contentLength := length, date := date }
    have blank : res.status = HttpInfo.zero.status := rfl
    obtain ⟨res', parsed, isLength, isDate⟩ := finds Memory.full res holds blank
    obtain ⟨res'', again, foundLength, foundDate⟩ := parseResponse_message first formed short holds blank
    obtain rfl : res' = res'' := Option.some.inj (parsed.symm.trans again)
    constructor
    · intro present
      by_contra less
      exact foundLength.lost present (Nat.le_of_lt_succ (Nat.lt_of_not_le less)) stale otherLength isLength
    · intro present
      by_contra less
      exact foundDate.lost present (Nat.le_of_lt_succ (Nat.lt_of_not_le less)) stale otherDate isDate
  · rintro ⟨longLength, longDate⟩ memory res holds blank
    obtain ⟨res', parsed, length, date⟩ := parseResponse_message first formed short holds blank
    exact ⟨res', parsed, length.last longLength, date.last longDate⟩

/-- The headers are found, whatever the memory holds, exactly when the first header line is longer than the
labels that occur with their colons. -/
theorem parse_finds_headers_iff (formed : ∀ h ∈ headers, h.WellFormed) :
    (∀ line, RequestLine line → (∀ h ∈ headers, h.FitsRequest) → (message line headers).length ≤ 1499 →
      (FindsHost line headers ↔ (HasHeader "Host" headers → 6 ≤ firstLength headers))) ∧
    (∀ line, ResponseLine line → (∀ h ∈ headers, h.FitsResponse) → (message line headers).length ≤ 1499 →
      (FindsLengthAndDate line headers ↔ (HasHeader "Content-Length" headers → 16 ≤ firstLength headers) ∧
        (HasHeader "Date" headers → 6 ≤ firstLength headers))) := by
  constructor
  · intro line first fits short
    exact finds_host_iff first (fun h member => ⟨formed h member, fits h member⟩) (Nat.lt_succ_of_le short)
  · intro line first fits short
    exact finds_length_and_date_iff first (fun h member => ⟨formed h member, fits h member⟩) (Nat.lt_succ_of_le short)

end

/-! ### Two lists of headers -/

instance (h : Header) : Decidable h.WellFormed :=
  decidable_of_iff
    (h.name.all (fun c => c ≠ 0 ∧ c ≠ 13 ∧ c ≠ 10 ∧ c ≠ 32) ∧ h.value.all fun c => c ≠ 0 ∧ c ≠ 13 ∧ c ≠ 10)
    ⟨fun both => ⟨by simpa using both.1, by simpa using both.2⟩,
      fun formed => ⟨by simpa using formed.name, by simpa using formed.value⟩⟩

instance (h : Header) : Decidable h.FitsRequest :=
  decidable_of_iff ((h.name = cstr "Host" → h.value.length < 253) ∧ (h.name = cstr "User-Agent" → h.value.length < 10) ∧
    (h.name = cstr "Connection" → h.value.length < 10))
    ⟨fun fits => ⟨fits.1, fits.2.1, fits.2.2⟩, fun fits => ⟨fits.host, fits.userAgent, fits.connection⟩⟩

instance (h : Header) : Decidable h.FitsResponse :=
  decidable_of_iff
    ((h.name = cstr "Content-Length" → h.value.length < 10) ∧ (h.name = cstr "Date" → h.value.length < 30))
    ⟨fun fits => ⟨fits.1, fits.2⟩, fun fits => ⟨fits.contentLength, fits.date⟩⟩

/-- The three headers behind a first line of 18 bytes. -/
def longFirst : List Header :=
  [⟨cstr "Server", cstr "Apache/2.4"⟩, ⟨cstr "Host", cstr "h"⟩, ⟨cstr "Content-Length", cstr "5"⟩,
    ⟨cstr "Date", cstr "today"⟩]

/-- The three headers behind a first line of 4 bytes. -/
def shortFirst : List Header :=
  [⟨cstr "A", cstr "b"⟩, ⟨cstr "Host", cstr "h"⟩, ⟨cstr "Content-Length", cstr "5"⟩, ⟨cstr "Date", cstr "today"⟩]

theorem getSlash : RequestLine (cstr "GET / HTTP/1.0") := ⟨by decide, by decide, by decide⟩

theorem okLine : ResponseLine (cstr "HTTP/1.0 200 OK") := ⟨by decide, by decide, by decide⟩

theorem long_first_finds :
    FindsHost (cstr "GET / HTTP/1.0") longFirst ∧ FindsLengthAndDate (cstr "HTTP/1.0 200 OK") longFirst := by
  have formed : ∀ h ∈ longFirst, h.WellFormed := by decide
  obtain ⟨request, response⟩ := parse_finds_headers_iff formed
  constructor
  · exact (request _ getSlash (by decide) (by decide)).mpr fun _ => by decide
  · exact (response _ okLine (by decide) (by decide)).mpr ⟨fun _ => by decide, fun _ => by decide⟩

theorem short_first_loses :
    (∀ h ∈ shortFirst, h.WellFormed ∧ h.FitsRequest ∧ h.FitsResponse) ∧
      lastValue (cstr "Host") shortFirst = some (cstr "h") ∧
      (∃ req', parseRequest (message (cstr "GET / HTTP/1.0") shortFirst ++ 0 :: Memory.full.after) Memory.full .zero =
        some req' ∧ req'.host.str = []) ∧
      ¬ FindsHost (cstr "GET / HTTP/1.0") shortFirst ∧ ¬ FindsLengthAndDate (cstr "HTTP/1.0 200 OK") shortFirst := by
  have request : ∀ h ∈ shortFirst, h.WellFormed ∧ h.FitsRequest := by decide
  have response : ∀ h ∈ shortFirst, h.WellFormed ∧ h.FitsResponse := by decide
  have short : (message (cstr "GET / HTTP/1.0") shortFirst).length < maxDataSize := by decide
  refine ⟨by decide, by decide, ?_, ?_, ?_⟩
  · obtain ⟨holds, stale⟩ := full_holds short
    obtain ⟨req', parsed, _, found⟩ := parseRequest_message getSlash request short holds rfl
    refine ⟨req', parsed, (found.unknown (by decide) stale).trans (zero_str (by decide))⟩
  · rw [finds_host_iff getSlash request short]
    intro long
    have six := long ⟨⟨cstr "Host", cstr "h"⟩, by decide, rfl⟩
    exact absurd six (by decide)
  · rw [finds_length_and_date_iff okLine response (by decide)]
    rintro ⟨long, _⟩
    have sixteen := long ⟨⟨cstr "Content-Length", cstr "5"⟩, by decide, rfl⟩
    exact absurd sixteen (by decide)

/-! ### The client's request -/

/-- What the client formats with `sprintf`. -/
def clientRequest (path host : List UInt8) : List UInt8 :=
  cstr "GET " ++ path ++ cstr " HTTP/1.0\r\nHost: " ++ host ++ cstr "\r\nUser-Agent: Team4\r\n\r\n"

def clientHeaders (host : List UInt8) : List Header := [⟨cstr "Host", host⟩, ⟨cstr "User-Agent", cstr "Team4"⟩]

theorem clientRequest_eq (path host : List UInt8) :
    clientRequest path host = message (cstr "GET " ++ path ++ cstr " HTTP/1.0") (clientHeaders host) := by
  have version : cstr " HTTP/1.0\r\nHost: " = cstr " HTTP/1.0" ++ [13, 10] ++ (cstr "Host" ++ [58, 32]) := by decide
  have agent : cstr "\r\nUser-Agent: Team4\r\n\r\n" =
      [13, 10] ++ (cstr "User-Agent" ++ 58 :: 32 :: cstr "Team4") ++ [13, 10, 13, 10] := by decide
  unfold clientRequest message headerText clientHeaders Header.line
  rw [version, agent]
  simp

theorem clientHeaders_formed {host : List UInt8} (text : 13 ∉ host ∧ 10 ∉ host ∧ 0 ∉ host) (short : host.length ≤ 252) :
    ∀ h ∈ clientHeaders host, h.WellFormed ∧ h.FitsRequest := by
  have agent : Header.WellFormed ⟨cstr "User-Agent", cstr "Team4"⟩ ∧
      Header.FitsRequest ⟨cstr "User-Agent", cstr "Team4"⟩ := by decide
  have host : Header.WellFormed ⟨cstr "Host", host⟩ ∧ Header.FitsRequest ⟨cstr "Host", host⟩ := by
    obtain ⟨noCr, noLf, noNul⟩ := text
    have others : cstr "Host" ≠ cstr "User-Agent" ∧ cstr "Host" ≠ cstr "Connection" := by decide
    refine ⟨⟨?_, ?_⟩, ⟨?_, ?_, ?_⟩⟩
    · exact (show Header.WellFormed ⟨cstr "Host", []⟩ by decide).name
    · intro c member
      exact ⟨fun nul => noNul (nul ▸ member), fun cr => noCr (cr ▸ member), fun lf => noLf (lf ▸ member)⟩
    · intro _
      exact Nat.lt_succ_of_le short
    · intro same
      exact absurd same others.1
    · intro same
      exact absurd same others.2
  intro h member
  obtain rfl | later := List.mem_cons.mp member
  · exact host
  · obtain rfl := List.mem_singleton.mp later
    exact agent

theorem clientRequest_line {path : List UInt8} (text : 13 ∉ path ∧ 0 ∉ path) (short : path.length ≤ 99) :
    RequestLine (cstr "GET " ++ path ++ cstr " HTTP/1.0") := by
  have get : (cstr "GET ").length = 4 ∧ 13 ∉ cstr "GET " ∧ 0 ∉ cstr "GET " := by decide
  have version : (cstr " HTTP/1.0").length = 9 ∧ 13 ∉ cstr " HTTP/1.0" ∧ 0 ∉ cstr " HTTP/1.0" := by decide
  constructor
  · simp only [List.mem_append, not_or]
    exact ⟨⟨⟨get.2.1, text.1⟩, version.2.1⟩, ⟨get.2.2, text.2⟩, version.2.2⟩
  · simp only [List.length_append, get.1, version.1]
    omega
  · simp only [List.length_append, get.1, version.1]
    omega

theorem length_clientHeaders (host : List UInt8) : (headerText (clientHeaders host)).length = host.length + 29 := by
  have names : (cstr "Host").length = 4 ∧ (cstr "User-Agent").length = 10 ∧ (cstr "Team4").length = 5 := by decide
  obtain ⟨hostName, agent, team⟩ := names
  simp only [headerText, clientHeaders, Header.line, List.flatMap_cons, List.flatMap_nil, List.length_append,
    List.length_cons, List.length_nil, hostName, agent, team]
  omega

theorem lastValue_clientHeaders (host : List UInt8) : lastValue (cstr "Host") (clientHeaders host) = some host := by
  have other : cstr "User-Agent" ≠ cstr "Host" := by decide
  simp [lastValue, clientHeaders, other]

/-- The path and the host of the client's request are found, whatever the memory holds. -/
theorem client_request_parsed {path host : List UInt8} (pathText : 13 ∉ path ∧ 0 ∉ path) (pathFits : path.length ≤ 99)
    (hostText : 13 ∉ host ∧ 10 ∉ host ∧ 0 ∉ host) (hostFits : host.length ≤ 252) {memory : Memory}
    (holds : memory.Holds (clientHeaders host)) :
    ∃ req, parseRequest (clientRequest path host ++ 0 :: memory.after) memory HttpInfo.zero = some req ∧
      req.path.str = path ∧ req.host.str = host := by
  have get : (cstr "GET ").length = 4 := by decide
  have version : (cstr " HTTP/1.0").length = 9 := by decide
  have lineLength : (cstr "GET " ++ path ++ cstr " HTTP/1.0").length = path.length + 13 := by
    simp only [List.length_append, get, version]
    omega
  have short : (message (cstr "GET " ++ path ++ cstr " HTTP/1.0") (clientHeaders host)).length < maxDataSize := by
    unfold message
    rw [List.length_append, List.length_append, lineLength, length_clientHeaders, List.length_cons,
      List.length_singleton]
    unfold maxDataSize
    omega
  have blank : HttpInfo.zero.path = HttpInfo.zero.path := rfl
  obtain ⟨req, parsed, pathFound, hostFound⟩ := parseRequest_message (clientRequest_line pathText pathFits)
    (clientHeaders_formed hostText hostFits) short holds blank
  refine ⟨req, ?_, ?_, ?_⟩
  · rw [clientRequest_eq]
    exact parsed
  · rw [pathFound, lineLength, Nat.add_sub_cancel, List.append_assoc, List.drop_left' get, List.take_left]
  · -- The line of the host is the first one, and longer than its label.
    have first : firstLength (clientHeaders host) = host.length + 6 := by
      have name : (cstr "Host").length = 4 := by decide
      have line := Header.length_line ⟨cstr "Host", host⟩
      dsimp only at line
      rw [name] at line
      exact line.trans (by omega)
    have label : (cstr "Host").length + 1 = 5 := by decide
    rw [hostFound.last, lastValue_clientHeaders, Option.getD_some]
    intro _
    rw [label, first]
    omega

theorem client_request_parsed_short :
    ∃ req, parseRequest (clientRequest (cstr "/a") (cstr "h") ++ 0 :: Memory.full.after) Memory.full HttpInfo.zero =
      some req ∧ req.path.str = cstr "/a" ∧ req.host.str = cstr "h" := by
  have short : (message [] (clientHeaders (cstr "h"))).length < maxDataSize := by decide
  exact client_request_parsed (by decide) (by decide) (by decide) (by decide) (full_holds short).1

end NetProjects.Proxy
