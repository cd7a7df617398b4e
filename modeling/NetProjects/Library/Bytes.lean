import Mathlib

/-!
# Byte buffers

Copies into fixed-size buffers, the little-endian layout of 16-bit words, and the
division of a byte string into blocks of a fixed size.
-/

namespace NetProjects.Bytes

variable {α : Type}

/-- `memcpy(dst + off, src, |src|)` where the destination holds `dst`. -/
def memcpy (dst : List α) (off : Nat) (src : List α) : List α :=
  dst.take off ++ src ++ dst.drop (off + src.length)

@[simp] theorem length_memcpy {dst src : List α} {off : Nat} (fits : off + src.length ≤ dst.length) :
    (memcpy dst off src).length = dst.length := by
  simp only [memcpy, List.length_append, List.length_take, List.length_drop]
  omega

theorem memcpy_zero (dst src : List α) : memcpy dst 0 src = src ++ dst.drop src.length := by
  simp [memcpy]

theorem take_memcpy_zero {dst src : List α} {n : Nat} (h : n ≤ src.length) :
    (memcpy dst 0 src).take n = src.take n := by
  rw [memcpy_zero, List.take_append_of_le_length h]

/-- `n` bytes copied one after the other, from the front, inside one buffer. -/
def copyForward (buf : List UInt8) (dst src : Nat) : Nat → List UInt8
  | 0 => buf
  | n + 1 => copyForward (buf.set dst (buf.getD src 0)) (dst + 1) (src + 1) n

/-- A copy towards the front may overlap its source. -/
theorem copyForward_eq {buf : List UInt8} {dst src n : Nat} (towards : dst ≤ src) (inside : src + n ≤ buf.length) :
    copyForward buf dst src n = memcpy buf dst ((buf.drop src).take n) := by
  induction n generalizing buf dst src with
  | zero =>
    rw [copyForward, List.take_zero, memcpy, List.append_nil, List.length_nil, Nat.add_zero, List.take_append_drop]
  | succ n ih =>
    have here : src < buf.length := by omega
    have first : buf.getD src 0 = buf[src] := by simp [here]
    have source : (buf.set dst buf[src]).drop (src + 1) = buf.drop (src + 1) := by
      rw [List.drop_set_of_lt (by omega)]
    have copied : (buf.drop src).take (n + 1) = buf[src] :: (buf.drop (src + 1)).take n := by
      rw [List.drop_eq_getElem_cons here, List.take_succ_cons]
    have front : (buf.set dst buf[src]).take (dst + 1) = buf.take dst ++ [buf[src]] := by
      rw [List.take_succ_eq_append_getElem (by rw [List.length_set]; omega), List.getElem_set_self]
      rw [List.take_set_of_le (Nat.le_refl _)]
    rw [copyForward, first, ih (by omega) (by rw [List.length_set]; omega), source, copied, memcpy, memcpy, front]
    simp only [List.append_assoc, List.cons_append, List.nil_append, List.length_cons]
    rw [List.drop_set_of_lt (by omega), Nat.add_right_comm, Nat.add_assoc dst]

def cstr (s : String) : List UInt8 := s.toList.map fun c => UInt8.ofNat c.toNat

/-- An occurrence of `x` is the first one, or behind it. -/
theorem append_cons_eq {x : α} {as bs cs ds : List α} (fresh : x ∉ as) (same : as ++ x :: bs = cs ++ x :: ds) :
    (cs = as ∧ bs = ds) ∨ ∃ es, cs = as ++ x :: es ∧ bs = es ++ x :: ds := by
  obtain ⟨tail, front, back⟩ | ⟨tail, front, back⟩ := List.append_eq_append_iff.mp same
  · cases tail with
    | nil =>
      rw [List.append_nil] at front
      exact Or.inl ⟨front, (List.cons.inj back).2⟩
    | cons y es =>
      obtain ⟨rfl, rest⟩ := List.cons.inj back
      exact Or.inr ⟨es, front, rest⟩
  · cases tail with
    | nil =>
      rw [List.append_nil] at front
      exact Or.inl ⟨front.symm, (List.cons.inj back).2.symm⟩
    | cons y es =>
      obtain ⟨rfl, _⟩ := List.cons.inj back
      rw [front] at fresh
      exact absurd (List.mem_append_right _ List.mem_cons_self) fresh

/-- A `char` as the machine compares it, where it is signed. -/
def signedChar (c : UInt8) : Int := if c.toNat < 128 then c.toNat else (c.toNat : Int) - 256

theorem signedChar_eof (c : UInt8) : signedChar c = -1 ↔ c = 255 := by
  have := c.toNat_lt
  rw [← UInt8.toNat_inj, show (255 : UInt8).toNat = 255 from rfl]
  unfold signedChar
  split <;> omega

/-! ### Sizes -/

def sizeMax : Nat := 2 ^ 64 - 1

/-- Addition and subtraction of `size_t` values. -/
def sizeAdd (a b : Nat) : Nat := if a + b ≤ sizeMax then a + b else a + b - 2 ^ 64

def sizeSub (a b : Nat) : Nat := if b ≤ a then a - b else a + 2 ^ 64 - b

/-! ### Blocks -/

/-- Block `k` of `xs` in blocks of `n`: the last one may be short, later ones are empty. -/
def chunk (n : Nat) (xs : List α) (k : Nat) : List α := (xs.drop (n * k)).take n

theorem length_chunk (n : Nat) (xs : List α) (k : Nat) :
    (chunk n xs k).length = min n (xs.length - n * k) := by
  simp [chunk]

theorem length_chunk_le (n : Nat) (xs : List α) (k : Nat) : (chunk n xs k).length ≤ n := by
  rw [length_chunk]
  exact Nat.min_le_left _ _

theorem chunk_short_iff {n : Nat} (pos : 0 < n) (xs : List α) (k : Nat) :
    (chunk n xs k).length < n ↔ xs.length < n * (k + 1) := by
  rw [length_chunk, Nat.mul_succ]
  omega

theorem chunk_full {n : Nat} {xs : List α} {k : Nat} (h : n * (k + 1) ≤ xs.length) :
    (chunk n xs k).length = n := by
  rw [length_chunk]
  rw [Nat.mul_succ] at h
  omega

theorem chunk_eq_nil_iff {n : Nat} (pos : 0 < n) (xs : List α) (k : Nat) :
    chunk n xs k = [] ↔ xs.length ≤ n * k := by
  rw [← List.length_eq_zero_iff, length_chunk]
  omega

theorem take_append_chunk (n : Nat) (xs : List α) (k : Nat) :
    xs.take (n * k) ++ chunk n xs k = xs.take (n * (k + 1)) := by
  rw [chunk, Nat.mul_succ, List.take_add]

theorem flatMap_chunk (n : Nat) (xs : List α) (m : Nat) :
    (List.range m).flatMap (chunk n xs) = xs.take (n * m) := by
  induction m with
  | zero => simp
  | succ m ih =>
    rw [List.range_succ, List.flatMap_append, ih, List.flatMap_singleton, take_append_chunk]

theorem chunk_append_left {n k : Nat} {xs : List α} (inside : n * (k + 1) ≤ xs.length) (ys : List α) :
    chunk n (xs ++ ys) k = chunk n xs k := by
  rw [Nat.mul_succ] at inside
  rw [chunk, List.drop_append_of_le_length (by omega), List.take_append_of_le_length (by rw [List.length_drop]; omega), chunk]

theorem chunk_take {n k m : Nat} (inside : n * (k + 1) ≤ m) (xs : List α) : chunk n (xs.take m) k = chunk n xs k := by
  rw [Nat.mul_succ] at inside
  rw [chunk, List.drop_take, List.take_take, Nat.min_eq_left (by omega), chunk]

/-- The blocks of a text that is put together from blocks. -/
theorem chunk_flatten {n k : Nat} {units : List (List α)} {u : List α} (uniform : ∀ u ∈ units, u.length = n)
    (at_k : units[k]? = some u) (rest : List α) : chunk n (units.flatten ++ rest) k = u := by
  induction units generalizing k with
  | nil => cases at_k
  | cons v units ih =>
    have size := uniform v List.mem_cons_self
    cases k with
    | zero =>
      obtain rfl := Option.some.inj at_k
      rw [chunk, Nat.mul_zero, List.drop_zero, List.flatten_cons, List.append_assoc, List.take_left' size]
    | succ k =>
      have later := ih (fun w member => uniform w (List.mem_cons_of_mem _ member)) at_k
      rw [chunk] at later ⊢
      rw [Nat.mul_succ, Nat.add_comm, ← List.drop_drop, List.flatten_cons, List.append_assoc, List.drop_left' size, later]

theorem lt_blocks {n : Nat} (pos : 0 < n) (len : Nat) : len < n * (len / n + 1) := by
  have := Nat.div_add_mod len n
  have := Nat.mod_lt len pos
  rw [Nat.mul_succ]
  omega

theorem flatMap_omit_length_le {ι : Type} (p : ι → Prop) [DecidablePred p] (f : ι → List α) (ks : List ι) :
    (ks.flatMap fun k => if p k then [] else f k).length ≤ (ks.flatMap f).length := by
  induction ks with
  | nil => exact Nat.le_refl _
  | cons k ks ih =>
    simp only [List.flatMap_cons, List.length_append]
    split
    · exact Nat.le_trans (by simp) (Nat.add_le_add_left ih _)
    · exact Nat.add_le_add_left ih _

/-- Leaving pieces out of a concatenation goes unnoticed only when they are empty. -/
theorem flatMap_omit_eq_iff {ι : Type} (p : ι → Prop) [DecidablePred p] (f : ι → List α) (ks : List ι) :
    (ks.flatMap fun k => if p k then [] else f k) = ks.flatMap f ↔ ∀ k ∈ ks, p k → f k = [] := by
  induction ks with
  | nil => simp
  | cons k ks ih =>
    rw [List.flatMap_cons, List.flatMap_cons, List.forall_mem_cons, ← ih]
    by_cases omitted : p k
    · rw [if_pos omitted, List.nil_append]
      constructor
      · intro same
        have shorter := flatMap_omit_length_le p f ks
        have empty : f k = [] := by
          apply List.eq_nil_of_length_eq_zero
          rw [same, List.length_append] at shorter
          omega
        rw [empty, List.nil_append] at same
        exact ⟨fun _ => empty, same⟩
      · rintro ⟨empty, same⟩
        rw [empty omitted, same, List.nil_append]
    · rw [if_neg omitted, List.append_cancel_left_eq]
      exact ⟨fun same => ⟨fun h => absurd h omitted, same⟩, fun h => h.2⟩

/-! ### 16-bit words -/

def storeLE (w : UInt16) : List UInt8 := [UInt8.ofNat w.toNat, UInt8.ofNat (w.toNat / 256)]

def loadLE (bytes : List UInt8) : UInt16 :=
  UInt16.ofNat ((bytes.getD 0 0).toNat + 256 * (bytes.getD 1 0).toNat)

/-- `bswap_16`: the two bytes of the word exchanged. -/
def bswap16 (w : UInt16) : UInt16 := UInt16.ofNat (w.toNat % 256 * 256 + w.toNat / 256)

def networkOrder (w : UInt16) : List UInt8 := [UInt8.ofNat (w.toNat / 256), UInt8.ofNat w.toNat]

@[simp] theorem length_networkOrder (w : UInt16) : (networkOrder w).length = 2 := rfl

theorem bswap16_toNat (w : UInt16) : (bswap16 w).toNat = w.toNat % 256 * 256 + w.toNat / 256 := by
  have := w.toNat_lt
  rw [bswap16, UInt16.toNat_ofNat', Nat.mod_eq_of_lt]
  omega

theorem bswap16_high (w : UInt16) : (bswap16 w).toNat / 256 = w.toNat % 256 := by
  have bound := w.toNat_lt
  rw [bswap16_toNat]
  generalize high : w.toNat / 256 = q
  have : q < 256 := by omega
  omega

theorem bswap16_low (w : UInt16) : (bswap16 w).toNat % 256 = w.toNat / 256 := by
  have bound := w.toNat_lt
  rw [bswap16_toNat]
  omega

theorem bswap16_loadLE (bytes : List UInt8) :
    (bswap16 (loadLE bytes)).toNat = 256 * (bytes.getD 0 0).toNat + (bytes.getD 1 0).toNat := by
  have low := (bytes.getD 0 0).toNat_lt
  have high := (bytes.getD 1 0).toNat_lt
  rw [bswap16_toNat, loadLE, UInt16.toNat_ofNat']
  omega

@[simp] theorem bswap16_bswap16 (w : UInt16) : bswap16 (bswap16 w) = w := by
  apply UInt16.toNat_inj.mp
  rw [bswap16_toNat (bswap16 w), bswap16_high, bswap16_low]
  omega

@[simp] theorem storeLE_bswap16 (w : UInt16) : storeLE (bswap16 w) = networkOrder w := by
  have low : UInt8.ofNat (bswap16 w).toNat = UInt8.ofNat (w.toNat / 256) := by
    apply UInt8.toNat_inj.mp
    have := bswap16_low w
    simp only [UInt8.toNat_ofNat']
    omega
  have high : UInt8.ofNat ((bswap16 w).toNat / 256) = UInt8.ofNat w.toNat := by
    apply UInt8.toNat_inj.mp
    rw [bswap16_high]
    simp only [UInt8.toNat_ofNat']
    omega
  rw [storeLE, networkOrder, low, high]

theorem loadLE_networkOrder (w : UInt16) (rest : List UInt8) :
    loadLE (networkOrder w ++ rest) = bswap16 w := by
  have bound := w.toNat_lt
  rw [loadLE, bswap16, networkOrder]
  simp only [List.cons_append, List.nil_append, List.getD_cons_zero, List.getD_cons_succ,
    UInt8.toNat_ofNat']
  congr 1
  omega

theorem loadLE_append {xs : List UInt8} (ys : List UInt8) (h : 2 ≤ xs.length) :
    loadLE (xs ++ ys) = loadLE xs := by
  simp only [loadLE, List.getD_eq_getElem?_getD]
  rw [List.getElem?_append_left (by omega), List.getElem?_append_left (by omega)]

theorem loadLE_take (xs : List UInt8) {n : Nat} (h : 2 ≤ n) : loadLE (xs.take n) = loadLE xs := by
  simp only [loadLE, List.getD_eq_getElem?_getD]
  rw [List.getElem?_take_of_lt (by omega), List.getElem?_take_of_lt (by omega)]

theorem loadLE_storeLE (w : UInt16) (rest : List UInt8) : loadLE (storeLE w ++ rest) = w := by
  have bound := w.toNat_lt
  rw [loadLE, storeLE]
  simp only [List.cons_append, List.nil_append, List.getD_cons_zero, List.getD_cons_succ, UInt8.toNat_ofNat']
  apply UInt16.toNat_inj.mp
  rw [UInt16.toNat_ofNat']
  omega

theorem storeLE_loadLE {xs : List UInt8} (two : 2 ≤ xs.length) : storeLE (loadLE xs) = xs.take 2 := by
  obtain ⟨a, b, rest, rfl⟩ : ∃ a b rest, xs = a :: b :: rest := by
    match xs, two with
    | a :: b :: rest, _ => exact ⟨a, b, rest, rfl⟩
  have := a.toNat_lt
  have := b.toNat_lt
  have value : (loadLE (a :: b :: rest)).toNat = a.toNat + 256 * b.toNat := by
    simp only [loadLE, List.getD_cons_zero, List.getD_cons_succ, UInt16.toNat_ofNat']
    omega
  have low : UInt8.ofNat (loadLE (a :: b :: rest)).toNat = a := by
    apply UInt8.toNat_inj.mp
    rw [UInt8.toNat_ofNat', value]
    omega
  have high : UInt8.ofNat ((loadLE (a :: b :: rest)).toNat / 256) = b := by
    apply UInt8.toNat_inj.mp
    rw [UInt8.toNat_ofNat', value]
    omega
  rw [storeLE, low, high]
  rfl

/-! ### 32-bit words -/

def storeLE32 (w : UInt32) : List UInt8 :=
  [UInt8.ofNat w.toNat, UInt8.ofNat (w.toNat / 256), UInt8.ofNat (w.toNat / 65536), UInt8.ofNat (w.toNat / 16777216)]

def loadLE32 (bytes : List UInt8) : UInt32 :=
  UInt32.ofNat ((bytes.getD 0 0).toNat + 256 * (bytes.getD 1 0).toNat + 65536 * (bytes.getD 2 0).toNat +
    16777216 * (bytes.getD 3 0).toNat)

theorem loadLE32_storeLE32 (w : UInt32) (rest : List UInt8) : loadLE32 (storeLE32 w ++ rest) = w := by
  have bound := w.toNat_lt
  rw [loadLE32, storeLE32]
  simp only [List.cons_append, List.nil_append, List.getD_cons_zero, List.getD_cons_succ, UInt8.toNat_ofNat']
  apply UInt32.toNat_inj.mp
  rw [UInt32.toNat_ofNat']
  omega

theorem storeLE32_loadLE32 {xs : List UInt8} (four : 4 ≤ xs.length) : storeLE32 (loadLE32 xs) = xs.take 4 := by
  obtain ⟨a, b, c, d, rest, rfl⟩ : ∃ a b c d rest, xs = a :: b :: c :: d :: rest := by
    match xs, four with
    | a :: b :: c :: d :: rest, _ => exact ⟨a, b, c, d, rest, rfl⟩
  have := a.toNat_lt
  have := b.toNat_lt
  have := c.toNat_lt
  have := d.toNat_lt
  have value : (loadLE32 (a :: b :: c :: d :: rest)).toNat =
      a.toNat + 256 * b.toNat + 65536 * c.toNat + 16777216 * d.toNat := by
    simp only [loadLE32, List.getD_cons_zero, List.getD_cons_succ, UInt32.toNat_ofNat']
    omega
  have bytes : ∀ {x : UInt8} {n : Nat}, n % 256 = x.toNat → UInt8.ofNat n = x := by
    intro x n same
    apply UInt8.toNat_inj.mp
    rw [UInt8.toNat_ofNat', ← same]
  rw [storeLE32, value, bytes (x := a) (by omega), bytes (x := b) (by omega), bytes (x := c) (by omega),
    bytes (x := d) (by omega)]
  rfl

end NetProjects.Bytes
