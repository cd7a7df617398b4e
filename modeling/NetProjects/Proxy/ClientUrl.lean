import NetProjects.Proxy.FoundHeaders

/-!
# The URL of the client

The host, the path and the file name are cut out of the URL in five arrays of its exact length, which nothing
clears or terminates.
-/

namespace NetProjects.Proxy
open Bytes

def isSlash (c : UInt8) : Bool := c = 47

/-- The loop of `get_filename`; `tmp` is not initialised. -/
def lastToken : Nat → List UInt8 → Nat → Option (List UInt8) → Option (List UInt8)
  | 0, _, _, _ => none
  | fuel + 1, buf, save, tmp =>
    match strtokR isSlash buf save with
    | none => tmp
    | some t => lastToken fuel t.buf t.save (some t.token)

def getFilename (str : List UInt8) : Option (List UInt8) := lastToken (str.length + 1) (str ++ [0]) 0 none

/-- What is in memory from each of the five arrays on. -/
structure Mallocs where
  url : List UInt8
  path : List UInt8
  host : List UInt8
  u : List UInt8
  p : List UInt8

structure Target where
  host : List UInt8
  path : List UInt8
  filename : List UInt8

/-- `main` up to where the host is: `_u`, and the place of its first slash. -/
def skipScheme (memory : Mallocs) (arg : List UInt8) : Option (Block × Int) := do
  let size := arg.length
  let url ← malloc memory.url size
  let url ← url.memcpy arg size
  let _ ← string url.view
  let u ← malloc memory.u size
  let p ← malloc memory.p size
  let pos ← strchr 47 url.view
  let u ← u.memcpy url.view size
  let p ← if 0 < pos then p.memcpy url.view pos.toNat else some p
  let http ← strcmpLit p.view (cstr "http:")
  let scheme ← if http then some true else strcmpLit p.view (cstr "https:")
  if scheme then
    let u ← u.memcpy (url.view.drop (pos + 2).toNat) size
    let pos ← strchr 47 u.view
    return (u, pos)
  else return (u, pos)

/-- `main` where the host and the path are copied out of `_u`. -/
def copyTarget (memory : Mallocs) (size : Nat) (u : Block) (pos : Int) : Option (Block × Block) := do
  let host ← malloc memory.host size
  let path ← malloc memory.path size
  if 0 < pos then
    let host ← host.memcpy u.view pos.toNat
    let path ← path.memcpy (u.view.drop pos.toNat) size
    return (host, path)
  else
    let host ← host.strcpy u.view
    let path ← path.strcpy (cstr "/" ++ [0])
    return (host, path)

/-- `main` up to the request and the name of the file; `none` where an array is left, or a string has no end. -/
def clientMain (memory : Mallocs) (arg : List UInt8) : Option Target := do
  let (u, pos) ← skipScheme memory arg
  let (host, path) ← copyTarget memory arg.length u pos
  let hostText ← string host.view
  let pathText ← string path.view
  if (clientRequest pathText hostText).length < maxDataSize then
    let filename ← getFilename pathText
    return { host := hostText, path := pathText, filename := filename }
  else none

inductive Scheme
  | none
  | http
  | https
  deriving DecidableEq

def Scheme.text : Scheme → List UInt8
  | .none => []
  | .http => cstr "http://"
  | .https => cstr "https://"

/-- A URL of one of the documented forms. -/
structure Url where
  scheme : Scheme
  host : List UInt8
  path : List UInt8
  nonempty : host ≠ []
  plain : 47 ∉ host ∧ 0 ∉ host ∧ host ≠ cstr "http:" ∧ host ≠ cstr "https:"
  rooted : path = [] ∨ ∃ rest, path = 47 :: rest
  noNul : 0 ∉ path

namespace Url

def text (url : Url) : List UInt8 := url.scheme.text ++ url.host ++ url.path

def segments (url : Url) : List (List UInt8) := tokens isSlash url.path

/-- The path that is asked for. -/
def target (url : Url) : List UInt8 := if url.path = [] then [47] else url.path

end Url

/-- The arrays can be allocated, and what is read behind them can be read. -/
structure Mallocs.Ample (memory : Mallocs) (n : Nat) : Prop where
  url : 2 * n + 8 ≤ memory.url.length
  path : 2 * n + 8 ≤ memory.path.length
  host : 2 * n + 8 ≤ memory.host.length
  u : 2 * n + 8 ≤ memory.u.length
  p : 2 * n + 8 ≤ memory.p.length

/-- Nothing but NULs, except in the array of the host. -/
structure Mallocs.Zeroed (memory : Mallocs) : Prop where
  url : ∀ c ∈ memory.url, c = 0
  path : ∀ c ∈ memory.path, c = 0
  u : ∀ c ∈ memory.u, c = 0
  p : ∀ c ∈ memory.p, c = 0

/-- The client has this host, this path, and the last segment as the name of its file. -/
def Understood (memory : Mallocs) (url : Url) : Prop :=
  ∃ target, clientMain memory url.text = some target ∧ target.host = url.host ∧ target.path = url.target ∧
    ∀ segment, url.segments.getLast? = some segment → target.filename = segment

/-! ### The name of the file -/

section

variable {text : List UInt8}

theorem lastToken_tokens {fuel : Nat} {done text rest : List UInt8} {tmp : Option (List UInt8)} (noNul : 0 ∉ text)
    (enough : (tokens isSlash text).length < fuel) :
    lastToken fuel (done ++ text ++ 0 :: rest) done.length tmp = (tokens isSlash text).getLast?.or tmp := by
  generalize pieces : tokens isSlash text = all at enough ⊢
  induction all generalizing fuel done text tmp with
  | nil =>
    obtain ⟨fuel, rfl⟩ := Nat.exists_eq_add_of_lt enough
    have ended : strtokR isSlash (done ++ text ++ 0 :: rest) done.length = none :=
      strtokR_end (tokens_eq_nil pieces) rfl rest
    rw [lastToken, ended]
    rfl
  | cons token others ih =>
    obtain ⟨fuel, rfl⟩ : ∃ k, fuel = k + 1 := ⟨fuel - 1, by omega⟩
    obtain ⟨done', text', found, later, noNul', _⟩ := strtokR_tokens noNul pieces done rest
    rw [List.length_cons] at enough
    rw [lastToken, found]
    dsimp only
    rw [ih noNul' later (by omega), List.getLast?_cons]
    cases others.getLast? <;> rfl

/-- The last segment; without one the pointer is not initialised. -/
theorem getFilename_eq (noNul : 0 ∉ text) : getFilename text = (tokens isSlash text).getLast? := by
  have count := length_tokens_le isSlash text
  have found : lastToken (text.length + 1) ([] ++ text ++ [0]) ([] : List UInt8).length none =
      (tokens isSlash text).getLast?.or none := lastToken_tokens noNul (Nat.lt_succ_of_le count)
  exact found.trans Option.or_none

end

/-! ### The scheme -/

section

variable {memory : Mallocs} {text lead more : List UInt8}

/-- With NULs in memory, the text in front of the first slash is compared. -/
theorem skipScheme_eq (zeroed : memory.Zeroed) (ample : memory.Ample text.length) (split : text = lead ++ 47 :: more)
    (noSlash : 47 ∉ lead) (noNul : 0 ∉ text) (nonempty : lead ≠ []) :
    ∃ u : Block, u.array.length = text.length ∧ u.view = text ++ memory.u.drop text.length ∧
      skipScheme memory text =
        if lead = cstr "http:" ∨ lead = cstr "https:" then do
          let u ← u.memcpy ((text ++ memory.url.drop text.length).drop (lead.length + 2)) text.length
          let pos ← strchr 47 u.view
          return (u, pos)
        else some (u, (lead.length : Int)) := by
  have size := congrArg List.length split
  rw [List.length_append, List.length_cons] at size
  have long := List.length_pos_iff.mpr nonempty
  have noNulLead : 0 ∉ lead := by
    rw [split, List.mem_append, not_or] at noNul
    exact noNul.1
  obtain ⟨urlRoom, _, _, uRoom, pRoom⟩ := ample
  obtain ⟨url₀, urlMade, urlSize, urlFresh⟩ : ∃ b, malloc memory.url text.length = some b ∧
      b.array.length = text.length ∧ b.view = memory.url := malloc_view (by omega)
  obtain ⟨url, urlCopied, _, urlView⟩ : ∃ b, url₀.memcpy text text.length = some b ∧
      b.array.length = url₀.array.length ∧ b.view = text.take text.length ++ url₀.view.drop text.length :=
    memcpy_view urlSize.ge (Nat.le_refl _)
  rw [List.take_length, urlFresh] at urlView
  obtain ⟨u₀, uMade, uSize, uFresh⟩ : ∃ b, malloc memory.u text.length = some b ∧
      b.array.length = text.length ∧ b.view = memory.u := malloc_view (by omega)
  obtain ⟨u, uCopied, uLength, uView⟩ : ∃ b, u₀.memcpy url.view text.length = some b ∧
      b.array.length = u₀.array.length ∧ b.view = url.view.take text.length ++ u₀.view.drop text.length := by
    apply memcpy_view uSize.ge
    rw [urlView, List.length_append]
    omega
  rw [urlView, List.take_left, uFresh] at uView
  obtain ⟨p₀, pMade, pSize, pFresh⟩ : ∃ b, malloc memory.p text.length = some b ∧
      b.array.length = text.length ∧ b.view = memory.p := malloc_view (by omega)
  obtain ⟨p, pCopied, _, pView⟩ : ∃ b, p₀.memcpy url.view lead.length = some b ∧
      b.array.length = p₀.array.length ∧ b.view = url.view.take lead.length ++ p₀.view.drop lead.length := by
    apply memcpy_view
    · omega
    · rw [urlView, List.length_append]
      omega
  obtain ⟨rest, terminated⟩ := drop_zeros zeroed.p (show lead.length < memory.p.length by omega)
  rw [urlView, split, List.append_assoc, List.take_left, pFresh, terminated] at pView
  obtain ⟨urlRest, urlEnd⟩ := drop_zeros zeroed.url (show text.length < memory.url.length by omega)
  have printed : string url.view = some text := by
    rw [urlView, urlEnd]
    exact string_nul noNul urlRest
  have slash : strchr 47 url.view = some (lead.length : Int) := by
    rw [urlView, split, List.append_assoc, List.cons_append]
    exact strchr_found _ noSlash noNulLead
  have compared : ∀ name : String, 0 ∉ cstr name → strcmpLit p.view (cstr name) = some (decide (lead = cstr name)) := by
    intro name text
    rw [pView, strcmpLit_string text (Or.inl (List.mem_append_right _ List.mem_cons_self)), cstring_append_nul,
      cstring_eq_self noNulLead]
  refine ⟨u, uLength.trans uSize, uView, ?_⟩
  unfold skipScheme
  simp only [urlMade, urlCopied, printed, uMade, pMade, slash, uCopied, Option.bind_eq_bind, Option.bind_some,
    Int.toNat_natCast]
  rw [if_pos (by omega), pCopied, Option.bind_some, compared "http:" (by decide), Option.bind_some,
    compared "https:" (by decide), urlView]
  have place : ((lead.length : Int) + 2).toNat = lead.length + 2 := by omega
  rw [place]
  by_cases http : lead = cstr "http:"
  · simp [http]
  by_cases https : lead = cstr "https:"
  · simp [https]
  · simp [http, https]

/-- Behind a scheme, `_u` is filled again with what follows it. -/
theorem skipScheme_scheme {host path : List UInt8} (zeroed : memory.Zeroed) (ample : memory.Ample text.length)
    (known : lead = cstr "http:" ∨ lead = cstr "https:") (split : text = lead ++ [47, 47] ++ host ++ 47 :: path)
    (noNul : 0 ∉ text) (noSlash : 47 ∉ host) :
    ∃ u rest, skipScheme memory text = some (u, (host.length : Int)) ∧ u.view = host ++ 47 :: path ++ 0 :: rest ∧
      text.length ≤ (47 :: path ++ 0 :: rest).length := by
  have size := congrArg List.length split
  have schemeLead : 47 ∉ lead ∧ lead ≠ [] := by
    obtain rfl | rfl := known <;> decide
  have noNulHost : 0 ∉ host := by
    rw [split, List.mem_append, List.mem_append, not_or, not_or] at noNul
    exact noNul.1.2
  have first : text = lead ++ 47 :: 47 :: (host ++ 47 :: path) := by
    rw [split]
    simp
  obtain ⟨u, uSize, uView, run⟩ := skipScheme_eq zeroed ample first schemeLead.1 noNul schemeLead.2
  obtain ⟨urlRoom, _, _, uRoom, _⟩ := ample
  obtain ⟨zeros, urlEnd⟩ := drop_zeros zeroed.url (show text.length < memory.url.length by omega)
  have behind : (text ++ memory.url.drop text.length).drop (lead.length + 2) =
      host ++ 47 :: path ++ 0 :: zeros := by
    have marks : (lead ++ [47, 47]).length = lead.length + 2 := List.length_append
    have parts : text = (lead ++ [47, 47]) ++ (host ++ 47 :: path) := by
      rw [split]
      simp
    rw [urlEnd, ← marks]
    conv_lhs => rw [parts]
    rw [List.append_assoc, List.drop_left]
  have zerosSize := congrArg List.length urlEnd
  rw [List.length_drop, List.length_cons] at zerosSize
  have count : text.length = (host ++ 47 :: path).length + (lead.length + 1 + 1) := by
    simp only [List.length_append, List.length_cons, List.length_nil] at size ⊢
    omega
  obtain ⟨u', uCopied, _, uView'⟩ : ∃ b, u.memcpy (host ++ 47 :: path ++ 0 :: zeros) text.length = some b ∧
      b.array.length = u.array.length ∧
        b.view = (host ++ 47 :: path ++ 0 :: zeros).take text.length ++ u.view.drop text.length := by
    apply memcpy_view uSize.ge
    rw [List.length_append, List.length_cons]
    omega
  have shown : u'.view =
      host ++ 47 :: path ++ 0 :: (zeros.take (lead.length + 1) ++ memory.u.drop text.length) := by
    rw [uView', uView, List.drop_left]
    conv_lhs => rw [count]
    rw [List.take_length_add_append, List.take_succ_cons, List.append_assoc, ← count]
    rfl
  have slash : strchr 47 u'.view = some (host.length : Int) := by
    rw [shown, List.append_assoc]
    exact strchr_found _ noSlash noNulHost
  refine ⟨u', _, ?_, shown, ?_⟩
  · rw [run, if_pos known, behind, uCopied]
    simp only [Option.bind_eq_bind, Option.bind_some, slash]
    rfl
  · simp only [List.length_append, List.length_cons, List.length_drop]
    omega

variable {url : Url}

theorem Url.noNul_text (url : Url) : 0 ∉ url.text := by
  have schemes : 0 ∉ url.scheme.text := by
    cases url.scheme <;> decide
  unfold Url.text
  simp only [List.mem_append, not_or]
  exact ⟨⟨schemes, url.plain.2.1⟩, url.noNul⟩

/-- The host and the path are in front of the first NUL of `_u`, whatever the scheme is. -/
theorem skipScheme_url (zeroed : memory.Zeroed) (ample : memory.Ample url.text.length) (rooted : url.path ≠ []) :
    ∃ u rest, skipScheme memory url.text = some (u, (url.host.length : Int)) ∧
      u.view = url.host ++ url.path ++ 0 :: rest ∧ url.text.length ≤ (url.path ++ 0 :: rest).length := by
  obtain ⟨path, split⟩ : ∃ path, url.path = 47 :: path := url.rooted.resolve_left rooted
  obtain ⟨noSlash, noNul, notHttp, notHttps⟩ := url.plain
  have text := url.noNul_text
  rw [split]
  cases scheme : url.scheme with
  | none =>
    have shape : url.text = url.host ++ 47 :: path := by
      unfold Url.text
      rw [scheme, split]
      rfl
    obtain ⟨u, _, uView, run⟩ := skipScheme_eq zeroed ample shape noSlash text url.nonempty
    have room := ample.u
    obtain ⟨rest, zeros⟩ := drop_zeros zeroed.u (show url.text.length < memory.u.length by omega)
    have size := congrArg List.length zeros
    rw [List.length_drop, List.length_cons] at size
    rw [zeros, shape] at uView
    refine ⟨u, rest, ?_, uView, ?_⟩
    · rw [run, if_neg (by simp [notHttp, notHttps])]
    · simp only [List.length_append, List.length_cons]
      omega
  | http =>
    refine skipScheme_scheme zeroed ample (Or.inl rfl) ?_ text noSlash
    unfold Url.text
    rw [scheme, split]
    rfl
  | https =>
    refine skipScheme_scheme zeroed ample (Or.inr rfl) ?_ text noSlash
    unfold Url.text
    rw [scheme, split]
    rfl

/-! ### Host, path and name -/

/-- What the client makes of a URL with a path: the host goes on with what was in its array. -/
theorem clientMain_url (zeroed : memory.Zeroed) (ample : memory.Ample url.text.length) (rooted : url.path ≠ []) :
    clientMain memory url.text = (string (url.host ++ memory.host.drop url.host.length)).bind fun hostText =>
      if (clientRequest url.path hostText).length < maxDataSize then
        url.segments.getLast?.map fun name => { host := hostText, path := url.path, filename := name }
      else none := by
  obtain ⟨u, rest, run, uView, long⟩ := skipScheme_url zeroed ample rooted
  have size : url.host.length + url.path.length ≤ url.text.length := by
    unfold Url.text
    rw [List.length_append, List.length_append]
    omega
  have positive := List.length_pos_iff.mpr url.nonempty
  obtain ⟨_, pathRoom, hostRoom, _, _⟩ := ample
  obtain ⟨host₀, hostMade, hostSize, hostFresh⟩ : ∃ b, malloc memory.host url.text.length = some b ∧
      b.array.length = url.text.length ∧ b.view = memory.host := malloc_view (by omega)
  obtain ⟨host, hostCopied, _, hostView⟩ : ∃ b, host₀.memcpy u.view url.host.length = some b ∧
      b.array.length = host₀.array.length ∧
        b.view = u.view.take url.host.length ++ host₀.view.drop url.host.length := by
    apply memcpy_view
    · omega
    · rw [uView, List.append_assoc, List.length_append]
      omega
  rw [uView, List.append_assoc, List.take_left, hostFresh] at hostView
  obtain ⟨path₀, pathMade, pathSize, _⟩ : ∃ b, malloc memory.path url.text.length = some b ∧
      b.array.length = url.text.length ∧ b.view = memory.path := malloc_view (by omega)
  obtain ⟨path, pathCopied, _, pathView⟩ : ∃ b,
      path₀.memcpy (u.view.drop url.host.length) url.text.length = some b ∧ b.array.length = path₀.array.length ∧
        b.view = (u.view.drop url.host.length).take url.text.length ++ path₀.view.drop url.text.length := by
    apply memcpy_view pathSize.ge
    rw [uView, List.append_assoc, List.drop_left]
    exact long
  have pathText : string path.view = some url.path := by
    obtain ⟨n, count⟩ : ∃ n, url.text.length = url.path.length + (n + 1) :=
      ⟨url.text.length - url.path.length - 1, by omega⟩
    rw [pathView, uView, List.append_assoc, List.drop_left, count, List.take_length_add_append, List.take_succ_cons,
      List.append_assoc]
    exact string_nul url.noNul _
  have copied : copyTarget memory url.text.length u url.host.length = some (host, path) := by
    unfold copyTarget
    simp only [hostMade, pathMade, Option.bind_eq_bind, Option.bind_some, Int.toNat_natCast]
    rw [if_pos (by omega), hostCopied, Option.bind_some, pathCopied]
    rfl
  unfold clientMain
  simp only [run, copied, Option.bind_eq_bind, Option.bind_some, Option.pure_def, pathText, hostView,
    getFilename_eq url.noNul]
  cases string (url.host ++ memory.host.drop url.host.length) with
  | none => rfl
  | some hostText =>
    rw [Option.bind_some, Option.bind_some, Option.map_eq_bind]
    rfl

/-- A path without segments leaves the pointer to the name uninitialised, whatever the memory holds. -/
theorem understood_segments (understood : Understood memory url) : url.segments ≠ [] := by
  obtain ⟨target, run, _, wanted, _⟩ := understood
  obtain ⟨⟨u, pos⟩, _, run⟩ := Option.bind_eq_some_iff.mp run
  obtain ⟨⟨host, path⟩, _, run⟩ := Option.bind_eq_some_iff.mp run
  obtain ⟨hostText, _, run⟩ := Option.bind_eq_some_iff.mp run
  obtain ⟨pathText, _, run⟩ := Option.bind_eq_some_iff.mp run
  split at run
  swap
  · cases run
  obtain ⟨name, named, run⟩ := Option.bind_eq_some_iff.mp run
  obtain rfl := Option.some.inj run
  have same : pathText = url.target := wanted
  have noNul : 0 ∉ url.target := by
    unfold Url.target
    split
    · decide
    · exact url.noNul
  have pieces : tokens isSlash url.target = url.segments := by
    unfold Url.target Url.segments
    split
    · rw [‹url.path = []›]
      rfl
    · rfl
  intro none
  rw [same, getFilename_eq noNul, pieces, none] at named
  cases named

/-- With NULs everywhere but in the array of the host, a URL is understood exactly when it has a segment, the
request has room, and the host happens to be terminated. -/
theorem understood_zeroed (zeroed : memory.Zeroed) (ample : memory.Ample url.text.length) :
    Understood memory url ↔ url.segments ≠ [] ∧ (clientRequest url.path url.host).length < maxDataSize ∧
      memory.host[url.host.length]? = some 0 := by
  by_cases rooted : url.path = []
  · have none : url.segments = [] := by
      unfold Url.segments
      rw [rooted]
      rfl
    exact iff_of_false (fun understood => understood_segments understood none) fun all => all.1 none
  have target : url.target = url.path := if_neg rooted
  unfold Understood
  rw [clientMain_url zeroed ample rooted, target, ← List.head?_drop, ← string_eq_iff url.plain.2.1]
  constructor
  · rintro ⟨target, run, host, path, _⟩
    obtain ⟨hostText, shown, run⟩ := Option.bind_eq_some_iff.mp run
    split at run
    swap
    · cases run
    obtain ⟨name, last, rfl⟩ := Option.map_eq_some_iff.mp run
    have same : hostText = url.host := host
    subst same
    refine ⟨fun none => ?_, ‹_›, shown⟩
    rw [none] at last
    cases last
  · rintro ⟨some, short, terminated⟩
    rw [terminated, Option.bind_some, if_pos short, List.getLast?_eq_some_getLast some]
    refine ⟨_, rfl, rfl, rfl, ?_⟩
    intro segment last
    exact Option.some.inj last

end

/-! ### Whatever the memory holds -/

/-- NULs, and `fill` in the array of the host. -/
def memoryWith (fill : UInt8) (n : Nat) : Mallocs where
  url := List.replicate (2 * n + 8) 0
  path := List.replicate (2 * n + 8) 0
  host := List.replicate (2 * n + 8) fill
  u := List.replicate (2 * n + 8) 0
  p := List.replicate (2 * n + 8) 0

theorem memoryWith_ample (fill : UInt8) (n : Nat) : (memoryWith fill n).Ample n := by
  constructor <;> exact List.length_replicate.ge

theorem memoryWith_zeroed (fill : UInt8) (n : Nat) : (memoryWith fill n).Zeroed := by
  constructor <;> exact fun c member => List.eq_of_mem_replicate member

theorem not_understood (url : Url) : ¬ Understood (memoryWith 1 url.text.length) url := by
  intro understood
  obtain ⟨_, _, terminated⟩ :=
    (understood_zeroed (memoryWith_zeroed 1 url.text.length) (memoryWith_ample 1 url.text.length)).mp understood
  have stale := List.mem_of_getElem? terminated
  cases List.eq_of_mem_replicate stale

/-- No URL is understood whatever the memory holds. Where all of it but the array of the host holds NULs, those with
a segment are, as long as the request has room and the byte behind the host is a NUL. -/
theorem url_understood_never (url : Url) :
    (¬ ∀ memory : Mallocs, memory.Ample url.text.length → Understood memory url) ∧
      (url.segments = [] → ∀ memory : Mallocs, ¬ Understood memory url) ∧
      ∀ memory : Mallocs, memory.Zeroed → memory.Ample url.text.length →
        (Understood memory url ↔ url.segments ≠ [] ∧ (clientRequest url.path url.host).length < maxDataSize ∧
          memory.host[url.host.length]? = some 0) := by
  refine ⟨fun always => ?_, fun none memory understood => understood_segments understood none, ?_⟩
  · exact not_understood url (always (memoryWith 1 url.text.length) (memoryWith_ample 1 url.text.length))
  · exact fun memory zeroed ample => understood_zeroed zeroed ample

def someUrl : Url where
  scheme := .https
  host := cstr "www.cpluscplus.com"
  path := cstr "/some"
  nonempty := by decide
  plain := by decide
  rooted := Or.inr ⟨cstr "some", by decide⟩
  noNul := by decide

def bareUrl : Url where
  scheme := .none
  host := cstr "www.cpluscplus.com"
  path := []
  nonempty := by decide
  plain := by decide
  rooted := Or.inl rfl
  noNul := List.not_mem_nil

theorem some_url_zeroed :
    Understood (memoryWith 0 someUrl.text.length) someUrl ∧
      ¬ ∀ memory : Mallocs, memory.Ample someUrl.text.length → Understood memory someUrl := by
  obtain ⟨never, _, zeroed⟩ := url_understood_never someUrl
  refine ⟨(zeroed _ (memoryWith_zeroed 0 _) (memoryWith_ample 0 _)).mpr ?_, never⟩
  decide +kernel

/-- A host in an array that is not cleared, and a URL without a path. -/
theorem urls_misread :
    ¬ Understood (memoryWith 1 someUrl.text.length) someUrl ∧
      ¬ Understood (memoryWith 0 bareUrl.text.length) bareUrl := by
  refine ⟨not_understood someUrl, fun understood => understood_segments understood ?_⟩
  decide

end NetProjects.Proxy
