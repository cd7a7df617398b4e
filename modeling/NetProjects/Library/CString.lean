import NetProjects.Library.Bytes

/-!
# C strings

The functions of `<string.h>` on a view of memory: the bytes from a pointer on, as far as they can
be read. `none` is a read that runs off the view or a write that leaves the destination.
-/

namespace NetProjects.Bytes

def cstring (mem : List UInt8) : List UInt8 := mem.takeWhile (· ≠ 0)

theorem cstring_cons {m : UInt8} (inside : m ≠ 0) (mem : List UInt8) : cstring (m :: mem) = m :: cstring mem :=
  List.takeWhile_cons_of_pos (decide_eq_true inside)

theorem take_cstring (mem : List UInt8) : mem.take (cstring mem).length = cstring mem :=
  (List.prefix_iff_eq_take.mp (List.takeWhile_prefix _)).symm

/-- A string with its terminator. -/
theorem take_cstring_succ {mem : List UInt8} (terminated : 0 ∈ mem) :
    mem.take ((cstring mem).length + 1) = cstring mem ++ [0] := by
  induction mem with
  | nil => cases terminated
  | cons m mem ih =>
    by_cases zero : m = 0
    · subst zero
      rfl
    · have later : 0 ∈ mem := (List.mem_cons.mp terminated).resolve_left fun same => zero same.symm
      rw [cstring_cons zero, List.length_cons, List.take_succ_cons, ih later, List.cons_append]

/-- A terminated string and what stands behind it. -/
theorem cstring_split {mem : List UInt8} (terminated : 0 ∈ mem) : ∃ rest, mem = cstring mem ++ 0 :: rest := by
  refine ⟨mem.drop ((cstring mem).length + 1), ?_⟩
  have whole := List.take_append_drop ((cstring mem).length + 1) mem
  rw [take_cstring_succ terminated, List.append_assoc] at whole
  exact whole.symm

theorem length_cstring_lt {mem : List UInt8} (terminated : 0 ∈ mem) : (cstring mem).length < mem.length := by
  have taken := congrArg List.length (take_cstring_succ terminated)
  rw [List.length_take, List.length_append, List.length_singleton] at taken
  omega

theorem cstring_append {mem rest : List UInt8} (terminated : 0 ∈ mem) : cstring (mem ++ rest) = cstring mem := by
  unfold cstring
  rw [List.takeWhile_append, if_neg]
  exact (length_cstring_lt terminated).ne

theorem cstring_append_nul (mem rest : List UInt8) : cstring (mem ++ 0 :: rest) = cstring mem := by
  induction mem with
  | nil => rfl
  | cons m mem ih =>
    by_cases nul : m = 0
    · subst nul
      rfl
    · rw [List.cons_append, cstring_cons nul, cstring_cons nul, ih]

theorem cstring_eq_self {mem : List UInt8} (noNul : 0 ∉ mem) : cstring mem = mem :=
  List.takeWhile_eq_self_iff.mpr fun _ member => decide_eq_true fun nul => noNul (nul ▸ member)

theorem cstring_take (mem : List UInt8) (n : Nat) : cstring (mem.take n) = (cstring mem).take n := by
  induction mem generalizing n with
  | nil => rw [List.take_nil, cstring, List.takeWhile_nil, List.take_nil]
  | cons m mem ih =>
    cases n with
    | zero => rfl
    | succ n =>
      by_cases nul : m = 0
      · subst nul
        rfl
      · rw [List.take_succ_cons, cstring_cons nul, cstring_cons nul, List.take_succ_cons, ih]

theorem not_mem_cstring (mem : List UInt8) : 0 ∉ cstring mem := by
  intro member
  have inside := List.mem_takeWhile_imp (p := fun m => decide (m ≠ 0)) member
  exact of_decide_eq_true inside rfl

theorem cstring_mono {mem longer : List UInt8} (h : mem <+: longer) : cstring mem <+: cstring longer := by
  obtain ⟨rest, rfl⟩ := h
  by_cases terminated : 0 ∈ mem
  · rw [cstring_append terminated]
  · rw [cstring_eq_self terminated, cstring, List.takeWhile_append_of_pos]
    · exact List.prefix_append _ _
    · exact fun m member => decide_eq_true fun nul => terminated (nul ▸ member)

/-- A string shorter than the memory in front is read without what stands behind it. -/
theorem cstring_append_eq_iff {mem name : List UInt8} (short : name.length < mem.length) (rest : List UInt8) :
    cstring (mem ++ rest) = name ↔ cstring mem = name := by
  by_cases terminated : 0 ∈ mem
  · rw [cstring_append terminated]
  · have longer := (cstring_mono (List.prefix_append mem rest)).length_le
    rw [cstring_eq_self terminated] at longer ⊢
    constructor
    · rintro rfl
      omega
    · rintro rfl
      omega

/-- An `int` passed as a `size_t`. -/
def toSize (i : Int) : Nat := if 0 ≤ i then i.toNat else 2 ^ 64 - i.natAbs

def strlen (mem : List UInt8) : Option Nat := if 0 ∈ mem then some (cstring mem).length else none

/-- The offset of the first `c`, or -1 where `strchr` returns NULL. -/
def strchr (c : UInt8) : List UInt8 → Option Int
  | [] => none
  | m :: mem =>
    if m = c then some 0
    else if m = 0 then some (-1)
    else (strchr c mem).map fun pos => if pos = -1 then -1 else pos + 1

/-- `strchr` finds the first `c` of the string. -/
theorem strchr_some {c : UInt8} {mem : List UInt8} {pos : Int} (h : strchr c mem = some pos) :
    pos = -1 ∧ c ∉ cstring mem ∨
      ∃ before after, mem = before ++ c :: after ∧ pos = before.length ∧ c ∉ before ∧ 0 ∉ before := by
  induction mem generalizing pos with
  | nil => cases h
  | cons m mem ih =>
    rw [strchr] at h
    split at h
    · rename_i same
      obtain rfl := Option.some.inj h
      exact .inr ⟨[], mem, by rw [same]; rfl, rfl, List.not_mem_nil, List.not_mem_nil⟩
    · rename_i other
      split at h
      · rename_i zero
        obtain rfl := Option.some.inj h
        refine .inl ⟨rfl, ?_⟩
        rw [cstring, zero, List.takeWhile_cons_of_neg (by decide)]
        exact List.not_mem_nil
      · rename_i inside
        obtain ⟨later, found, rfl⟩ := Option.map_eq_some_iff.mp h
        rcases ih found with ⟨rfl, absent⟩ | ⟨before, after, rfl, rfl, notC, notZero⟩
        · refine .inl ⟨if_pos rfl, ?_⟩
          rw [cstring_cons inside, List.mem_cons, not_or]
          exact ⟨fun same => other same.symm, absent⟩
        · refine .inr ⟨m :: before, after, rfl, ?_, ?_, ?_⟩
          · rw [if_neg (by omega), List.length_cons]
            omega
          · rw [List.mem_cons, not_or]
            exact ⟨fun same => other same.symm, notC⟩
          · rw [List.mem_cons, not_or]
            exact ⟨fun same => inside same.symm, notZero⟩

theorem strchr_found {c : UInt8} {before : List UInt8} (after : List UInt8) (notC : c ∉ before) (noNul : 0 ∉ before) :
    strchr c (before ++ c :: after) = some (before.length : Int) := by
  induction before with
  | nil => exact if_pos rfl
  | cons m before ih =>
    rw [List.mem_cons, not_or] at notC noNul
    rw [List.cons_append, strchr, if_neg (Ne.symm notC.1), if_neg (Ne.symm noNul.1), ih notC.2 noNul.2,
      Option.map_some, if_neg (by omega), List.length_cons, Nat.cast_succ]

theorem strchr_missing {c : UInt8} {before : List UInt8} (after : List UInt8) (notC : c ∉ before) (noNul : 0 ∉ before)
    (other : c ≠ 0) : strchr c (before ++ 0 :: after) = some (-1) := by
  induction before with
  | nil => rw [List.nil_append, strchr, if_neg (Ne.symm other), if_pos rfl]
  | cons m before ih =>
    rw [List.mem_cons, not_or] at notC noNul
    rw [List.cons_append, strchr, if_neg (Ne.symm notC.1), if_neg (Ne.symm noNul.1), ih notC.2 noNul.2]
    rfl

theorem strchr_absent {mem : List UInt8} (absent : 0 ∉ mem) : strchr 0 mem = none := by
  induction mem with
  | nil => rfl
  | cons m mem ih =>
    rw [List.mem_cons, not_or] at absent
    rw [strchr, if_neg (Ne.symm absent.1), if_neg (Ne.symm absent.1), ih absent.2, Option.map_none]

/-- A search for the terminator does not return NULL. -/
theorem strchr_nul {mem : List UInt8} {pos : Int} (h : strchr 0 mem = some pos) : 0 ≤ pos := by
  by_cases terminated : 0 ∈ mem
  · obtain ⟨before, after, rfl, noNul⟩ := List.eq_append_cons_of_mem terminated
    rw [strchr_found after noNul noNul] at h
    cases h
    omega
  · obtain ⟨_, absent⟩ | ⟨before, after, rfl, _⟩ := strchr_some h
    · exact absurd (strchr_absent terminated) (by rw [h]; simp)
    · exact absurd (List.mem_append_right _ List.mem_cons_self) terminated

def strcmpLit : List UInt8 → List UInt8 → Option Bool
  | [], _ => none
  | m :: _, [] => some (decide (m = 0))
  | m :: mem, c :: lit => if m = c then strcmpLit mem lit else some false

/-- The offset of the first occurrence of `lit`, or -1 where `strstr` returns NULL. -/
def strstr (lit : List UInt8) : List UInt8 → Option Int
  | [] => none
  | m :: mem =>
    if lit <+: m :: mem then some 0
    else if m = 0 then some (-1)
    else (strstr lit mem).map fun pos => if pos = -1 then -1 else pos + 1

/-- What is searched for stands behind `before`, and not earlier. -/
theorem strstr_found {lit before : List UInt8} (nonempty : lit ≠ []) (noNul : 0 ∉ before)
    (first : ¬ lit <:+: before ++ lit.dropLast) (after : List UInt8) :
    strstr lit (before ++ lit ++ after) = some (before.length : Int) := by
  have size : lit.dropLast.length + 1 = lit.length := by
    rw [List.length_dropLast, Nat.sub_add_cancel (List.length_pos_iff.mpr nonempty)]
  induction before with
  | nil =>
    obtain ⟨c, rest, rfl⟩ := List.exists_cons_of_ne_nil nonempty
    exact if_pos (List.prefix_append _ _)
  | cons m before ih =>
    rw [List.mem_cons, not_or] at noNul
    have later : ¬ lit <:+: before ++ lit.dropLast := fun inside => first (inside.trans (List.suffix_cons m _).isInfix)
    have notHere : ¬ lit <+: m :: (before ++ lit ++ after) := by
      intro here
      have whole : m :: (before ++ lit.dropLast) <+: m :: (before ++ lit ++ after) := by
        rw [List.append_assoc]
        exact List.cons_prefix_cons.mpr ⟨rfl, (List.prefix_append_right_inj before).mpr
          ((List.dropLast_prefix lit).trans (List.prefix_append _ _))⟩
      refine first (List.prefix_of_prefix_length_le here whole ?_).isInfix
      rw [List.length_cons, List.length_append]
      omega
    rw [List.cons_append, List.cons_append, strstr, if_neg notHere, if_neg (Ne.symm noNul.1), ih noNul.2 later,
      Option.map_some, if_neg (by omega), List.length_cons, Nat.cast_succ]

def isSpace (c : UInt8) : Bool := c = 32 || (9 ≤ c && c ≤ 13)

def isDigit (c : UInt8) : Bool := 48 ≤ c && c ≤ 57

def decimal (digits : List UInt8) : Nat := digits.foldl (fun n c => n * 10 + (c.toNat - 48)) 0

/-- `atoi` where the number fits an `int`. -/
def atoi (text : List UInt8) : Int :=
  match text.dropWhile isSpace with
  | 45 :: digits => -(decimal (digits.takeWhile isDigit) : Int)
  | 43 :: digits => decimal (digits.takeWhile isDigit)
  | digits => decimal (digits.takeWhile isDigit)

def strstrLit (mem lit : List UInt8) : Option Bool :=
  if lit <:+: cstring mem then some true
  else if 0 ∈ mem then some false
  else none

/-- `strncpy` into the array `dst`: the string, cut to `n` bytes or padded with NULs to `n`. -/
def strncpy (dst src : List UInt8) (n : Nat) : Option (List UInt8) :=
  if n ≤ dst.length ∧ (n ≤ src.length ∨ 0 ∈ src) then
    let bytes := (cstring src).take n
    some (memcpy dst 0 (bytes ++ List.replicate (n - bytes.length) 0))
  else none

def strcpy (dst src : List UInt8) : Option (List UInt8) :=
  if 0 ∈ src ∧ (cstring src).length < dst.length then some (memcpy dst 0 (cstring src ++ [0])) else none

/-- Only the string of the source is copied. -/
theorem strcpy_cstring (dst : List UInt8) {src : List UInt8} (terminated : 0 ∈ src) :
    strcpy dst (cstring src ++ [0]) = strcpy dst src := by
  have string : cstring (cstring src ++ [0]) = cstring src := by
    rw [cstring_append_nul, cstring_eq_self (not_mem_cstring src)]
  unfold strcpy
  rw [string]
  simp [terminated]

def memzero (dst : List UInt8) (n : Nat) : Option (List UInt8) :=
  if n ≤ dst.length then some (memcpy dst 0 (List.replicate n 0)) else none

def memread (mem : List UInt8) (off n : Nat) : Option (List UInt8) :=
  if off + n ≤ mem.length then some ((mem.drop off).take n) else none

/-- A `malloc`ed array and what can be read after it. -/
structure Block where
  array : List UInt8
  after : List UInt8

def malloc (mem : List UInt8) (n : Nat) : Option Block :=
  if n ≤ mem.length then some { array := mem.take n, after := mem.drop n } else none

def Block.view (b : Block) : List UInt8 := b.array ++ b.after

def Block.memcpy (b : Block) (src : List UInt8) (n : Nat) : Option Block :=
  if n ≤ b.array.length ∧ n ≤ src.length then some { b with array := Bytes.memcpy b.array 0 (src.take n) } else none

def Block.strcpy (b : Block) (src : List UInt8) : Option Block :=
  (Bytes.strcpy b.array src).map fun array => { b with array := array }

/-- The string at an address. -/
def string (mem : List UInt8) : Option (List UInt8) := if 0 ∈ mem then some (cstring mem) else none

section

variable {b : Block} {mem src zeros : List UInt8} {n k : Nat}

theorem malloc_view (room : n ≤ mem.length) : ∃ b, malloc mem n = some b ∧ b.array.length = n ∧ b.view = mem :=
  ⟨_, if_pos room, List.length_take_of_le room, List.take_append_drop n mem⟩

theorem memcpy_view (fits : n ≤ b.array.length) (inside : n ≤ src.length) :
    ∃ b', b.memcpy src n = some b' ∧ b'.array.length = b.array.length ∧ b'.view = src.take n ++ b.view.drop n := by
  have size : (src.take n).length = n := List.length_take_of_le inside
  refine ⟨_, if_pos ⟨fits, inside⟩, length_memcpy (by omega), ?_⟩
  unfold Block.view
  dsimp only
  rw [memcpy_zero, size, List.append_assoc, List.drop_append_of_le_length fits]

theorem drop_zeros (all : ∀ c ∈ zeros, c = 0) (inside : k < zeros.length) : ∃ rest, zeros.drop k = 0 :: rest := by
  refine ⟨zeros.drop (k + 1), ?_⟩
  rw [List.drop_eq_getElem_cons inside, all _ (List.getElem_mem inside)]

theorem string_nul (noNul : 0 ∉ src) (rest : List UInt8) : string (src ++ 0 :: rest) = some src := by
  unfold string
  rw [if_pos (List.mem_append_right _ List.mem_cons_self), cstring_append_nul, cstring_eq_self noNul]

theorem string_eq_iff {text rest : List UInt8} (noNul : 0 ∉ text) :
    string (text ++ rest) = some text ↔ rest.head? = some 0 := by
  cases rest with
  | nil =>
    rw [List.append_nil, string, if_neg noNul]
    exact iff_of_false (by rintro ⟨⟩) (by rintro ⟨⟩)
  | cons c rest =>
    by_cases nul : c = 0
    · subst nul
      exact iff_of_true (string_nul noNul rest) rfl
    · refine iff_of_false ?_ fun same => nul (Option.some.inj same)
      intro same
      unfold string at same
      split at same
      · have letters : ∀ m ∈ text ++ [c], decide (m ≠ 0) = true := by
          intro m member
          rw [List.mem_append, List.mem_singleton] at member
          obtain inText | rfl := member
          · exact decide_eq_true fun zero => noNul (zero ▸ inText)
          · exact decide_eq_true nul
        have longer := congrArg List.length (Option.some.inj same)
        rw [← List.singleton_append, ← List.append_assoc, cstring, List.takeWhile_append_of_pos letters,
          List.length_append, List.length_append, List.length_singleton] at longer
        omega
      · cases same

end

structure Token where
  token : List UInt8
  buf : List UInt8
  save : Nat

/-- `strtok_r` from offset `save` of the terminated string `buf`. -/
def strtokR (isDelim : UInt8 → Bool) (buf : List UInt8) (save : Nat) : Option Token :=
  let start := save + ((buf.drop save).takeWhile isDelim).length
  let token := (buf.drop start).takeWhile fun c => c ≠ 0 ∧ ¬ isDelim c
  let stop := start + token.length
  if token = [] then none
  else if buf.getD stop 0 = 0 then some { token := token, buf := buf, save := stop }
  else some { token := token, buf := buf.set stop 0, save := stop + 1 }

/-! ### Tokens -/

theorem takeWhile_stop {α : Type} {p : α → Bool} {xs : List α} {y : α} (inside : ∀ x ∈ xs, p x = true) (stop : p y = false)
    (ys : List α) : (xs ++ y :: ys).takeWhile p = xs := by
  rw [List.takeWhile_append_of_pos inside, List.takeWhile_cons_of_neg (by simp [stop]), List.append_nil]

section

variable {isDelim : UInt8 → Bool} {done skip token : List UInt8}

/-- The next token is what stands between the delimiters, the second of which becomes its terminator. -/
theorem strtokR_token {d : UInt8} (delims : ∀ c ∈ skip, isDelim c = true)
    (inside : ∀ c ∈ token, c ≠ 0 ∧ isDelim c = false) (nonempty : token ≠ []) (stop : isDelim d = true) (notNul : d ≠ 0)
    (rest : List UInt8) :
    strtokR isDelim (done ++ skip ++ token ++ d :: rest) done.length =
      some { token := token, buf := done ++ skip ++ token ++ 0 :: rest, save := (done ++ skip ++ token).length + 1 } := by
  obtain ⟨t, ts, rfl⟩ := List.exists_cons_of_ne_nil nonempty
  have first := inside t List.mem_cons_self
  have skipped : ((done ++ skip ++ t :: ts ++ d :: rest).drop done.length).takeWhile isDelim = skip := by
    rw [List.append_assoc, List.append_assoc, List.drop_left]
    exact takeWhile_stop delims first.2 _
  have here : (done ++ skip ++ t :: ts ++ d :: rest).drop (done.length + skip.length) = t :: ts ++ d :: rest := by
    rw [List.append_assoc, ← List.length_append, List.drop_left]
  have found : (t :: ts ++ d :: rest).takeWhile (fun c => decide (c ≠ 0 ∧ ¬ isDelim c = true)) = t :: ts := by
    refine takeWhile_stop (fun c member => ?_) (by simp [stop]) rest
    obtain ⟨notZero, other⟩ := inside c member
    simp [notZero, other]
  have place : done.length + skip.length + (t :: ts).length = (done ++ skip ++ t :: ts).length := by
    simp only [List.length_append]
  unfold strtokR
  dsimp only
  rw [skipped, here, found, if_neg (List.cons_ne_nil t ts), place, List.getD_append_right _ _ _ _ (Nat.le_refl _),
    Nat.sub_self, List.getD_cons_zero, if_neg notNul, List.set_append_right _ _ (Nat.le_refl _), Nat.sub_self,
    List.set_cons_zero]

theorem strtokR_inside {buf : List UInt8} {save : Nat} {t : Token} (h : strtokR isDelim buf save = some t) :
    ∀ c ∈ t.token, c ≠ 0 ∧ isDelim c = false := by
  have inside : ∀ (n : Nat), ∀ c ∈ (buf.drop n).takeWhile (fun c => decide (c ≠ 0 ∧ ¬ isDelim c = true)),
      c ≠ 0 ∧ isDelim c = false := by
    intro n c member
    have both := List.mem_takeWhile_imp (p := fun c => decide (c ≠ 0 ∧ ¬ isDelim c = true)) member
    obtain ⟨notNul, other⟩ := of_decide_eq_true both
    exact ⟨notNul, Bool.eq_false_iff.mpr other⟩
  unfold strtokR at h
  dsimp only at h
  split at h
  · cases h
  split at h
  · exact Option.some.inj h ▸ inside _
  · exact Option.some.inj h ▸ inside _

/-- Only delimiters are left in front of the terminator. -/
theorem strtokR_end (delims : ∀ c ∈ skip, isDelim c = true) (nul : isDelim 0 = false) (rest : List UInt8) :
    strtokR isDelim (done ++ skip ++ 0 :: rest) done.length = none := by
  have skipped : ((done ++ skip ++ 0 :: rest).drop done.length).takeWhile isDelim = skip := by
    rw [List.append_assoc, List.drop_left]
    exact takeWhile_stop delims nul _
  have here : (done ++ skip ++ 0 :: rest).drop (done.length + skip.length) = 0 :: rest := by
    rw [← List.length_append, List.drop_left]
  unfold strtokR
  dsimp only
  rw [skipped, here, List.takeWhile_cons_of_neg (by simp), if_pos rfl]

end

/-- A string is compared with a literal: the comparison stays inside where the memory has a NUL or is longer. -/
theorem strcmpLit_string {mem lit : List UInt8} (noNul : 0 ∉ lit) (inside : 0 ∈ mem ∨ lit.length < mem.length) :
    strcmpLit mem lit = some (decide (cstring mem = lit)) := by
  induction mem generalizing lit with
  | nil =>
    obtain terminated | short := inside
    · cases terminated
    · cases short
  | cons m mem ih =>
    cases lit with
    | nil =>
      by_cases zero : m = 0
      · subst zero
        rfl
      · simp [strcmpLit, cstring_cons, zero]
    | cons c lit =>
      rw [List.mem_cons, not_or] at noNul
      by_cases same : m = c
      · subst same
        have later : 0 ∈ mem ∨ lit.length < mem.length :=
          inside.imp (fun terminated => (List.mem_cons.mp terminated).resolve_left noNul.1) Nat.lt_of_succ_lt_succ
        rw [strcmpLit, if_pos rfl, ih noNul.2 later, cstring_cons (Ne.symm noNul.1)]
        simp
      · rw [strcmpLit, if_neg same, cstring, List.takeWhile_cons]
        split <;> simp [same]

/-- A label with a mark at its end is compared with another one: the names are the same, and nothing follows. -/
theorem strcmpLit_label {mark c : UInt8} {name lit : List UInt8} (noMark : mark ∉ lit) (noNul : 0 ∉ name) (nul : mark ≠ 0)
    (rest : List UInt8) :
    strcmpLit (name ++ mark :: c :: rest) (lit ++ [mark]) = some (decide (name = lit ∧ c = 0)) := by
  induction name generalizing lit with
  | nil =>
    cases lit with
    | nil => simp [strcmpLit]
    | cons b lit =>
      rw [List.mem_cons, not_or] at noMark
      simp [strcmpLit, noMark.1]
  | cons a name ih =>
    rw [List.mem_cons, not_or] at noNul
    cases lit with
    | nil =>
      by_cases same : a = mark
      · subst same
        cases name with
        | nil => simp [strcmpLit, nul]
        | cons b name =>
          rw [List.mem_cons, not_or] at noNul
          simp [strcmpLit, Ne.symm noNul.2.1]
      · simp [strcmpLit, same]
    | cons b lit =>
      rw [List.mem_cons, not_or] at noMark
      by_cases same : a = b
      · subst same
        have rest := ih noMark.2 noNul.2
        simp [strcmpLit, rest]
      · simp [strcmpLit, same]

end NetProjects.Bytes
