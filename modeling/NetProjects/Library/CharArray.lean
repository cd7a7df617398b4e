import NetProjects.Library.Bytes

/-!
# Arrays of characters

C arrays of a fixed number of bytes, with the copies into and out of them.
-/

namespace NetProjects.Bytes

structure CharArray (n : Nat) where
  bytes : List UInt8
  size : bytes.length = n
  deriving DecidableEq

namespace CharArray

variable {n m : Nat}

@[ext] theorem ext {a b : CharArray n} (same : a.bytes = b.bytes) : a = b := by
  cases a
  cases b
  cases same
  rfl

def zero (n : Nat) : CharArray n := { bytes := List.replicate n 0, size := List.length_replicate }

def slice (a : CharArray n) (off m : Nat) (inside : off + m ≤ n) : CharArray m :=
  { bytes := (a.bytes.drop off).take m
    size := by rw [List.length_take, List.length_drop, a.size]; omega }

/-- The bytes `src`, as many as fit, at the start of the array. -/
def fill (a : CharArray n) (src : List UInt8) : CharArray n :=
  { bytes := src.take n ++ a.bytes.drop src.length
    size := by rw [List.length_append, List.length_take, List.length_drop, a.size]; omega }

/-- `memcpy(dst + off, src, |src|)`; `none` where it leaves the array. -/
def memcpy (a : CharArray n) (off : Nat) (src : List UInt8) : Option (CharArray n) :=
  if fits : off + src.length ≤ n then
    some { bytes := Bytes.memcpy a.bytes off src
           size := (length_memcpy (fits.trans_eq a.size.symm)).trans a.size }
  else none

theorem bytes_fill {a : CharArray n} {src : List UInt8} (fits : src.length ≤ n) :
    (a.fill src).bytes = src ++ a.bytes.drop src.length :=
  congrArg (· ++ a.bytes.drop src.length) (List.take_of_length_le fits)

theorem memcpy_of_fits (a : CharArray n) (off : Nat) (src : List UInt8) (fits : off + src.length ≤ n) :
    ∃ b, a.memcpy off src = some b ∧ b.bytes = Bytes.memcpy a.bytes off src :=
  ⟨_, dif_pos fits, rfl⟩

/-- What a copy that stays inside has done. -/
theorem memcpy_eq_some {a b : CharArray n} {off : Nat} {src : List UInt8} (copied : a.memcpy off src = some b) :
    off + src.length ≤ n ∧ b.bytes = Bytes.memcpy a.bytes off src := by
  unfold memcpy at copied
  split at copied
  · obtain rfl := Option.some.inj copied
    exact ⟨‹_›, rfl⟩
  · cases copied

theorem memcpy_isSome {a : CharArray n} {off : Nat} {src : List UInt8} :
    (a.memcpy off src).isSome ↔ off + src.length ≤ n := by
  unfold memcpy
  split
  · exact iff_of_true rfl ‹_›
  · exact iff_of_false Bool.false_ne_true ‹_›

end CharArray

end NetProjects.Bytes
