import Mathlib

/-!
# Go's `append` on byte slices

A byte slice is its length and the bytes of its backing array from its start
up to its capacity; `s[:hi]` may reach past the length up to the capacity.
`append` writes in place where the capacity holds the new length, and else
copies into a new array as long as the runtime's `growslice` makes it: the
capacity doubled, or the new length where doubling falls short, from a length
of 1024 on grown by quarters, then rounded up to a size class of the
allocator. The new array is zeroed past the new length, so a slice built from
`make([]byte, 0)` by appends has zero bytes between its length and its
capacity (`ZeroTail`). The rule and the classes are those of Go 1.12, the
toolchain the repository builds with; the allocation limit is not modelled.
-/

namespace GoSlice

/-- The size classes of the allocator below `32768` bytes; `0` is the size of
nothing. -/
def sizeClasses : List Nat :=
  [0, 8, 16, 32, 48, 64, 80, 96, 112, 128, 144, 160, 176, 192, 208, 224, 240, 256, 288, 320, 352, 384,
    416, 448, 480, 512, 576, 640, 704, 768, 896, 1024, 1152, 1280, 1408, 1536, 1792, 2048, 2304, 2688, 3072,
    3200, 3456, 4096, 4864, 5376, 6144, 6528, 6784, 6912, 8192, 9472, 9728, 10240, 10880, 12288, 13568,
    14336, 16384, 18432, 19072, 20480, 21760, 24576, 27264, 28672, 32768]

/-- `roundupsize`: the smallest size class that holds `size` bytes, and past
the classes `size` rounded up to whole pages of 8192 bytes. -/
def roundupsize (size : Nat) : Nat :=
  if size < 32768 then (sizeClasses.find? (size ≤ ·)).getD size
  else (size + 8191) / 8192 * 8192

/-- The loop `for 0 < newcap && newcap < cap { newcap += newcap / 4 }` of
`growslice`. It is entered with a capacity of at least 1024, where every round
adds to it; below 4 a round adds nothing and Go's loop would not end, which
cannot happen there, and the capacity is left as it is. -/
def growQuarters (newcap need : Nat) : Nat :=
  if 0 < newcap / 4 ∧ newcap < need then growQuarters (newcap + newcap / 4) need else newcap
termination_by need - newcap
decreasing_by omega

/-- `growslice` for bytes: the capacity of the array a slice of length `len`
and capacity `cap` is copied to, to hold `need` bytes. -/
def growCap (len cap need : Nat) : Nat :=
  roundupsize (if need > cap + cap then need else if len < 1024 then cap + cap else growQuarters cap need)

/-- The capacity after appending `n` bytes to a slice of length `len` and
capacity `cap`. -/
def capAfter (len cap n : Nat) : Nat :=
  if len + n ≤ cap then cap else growCap len cap (len + n)

theorem le_roundupsize (size : Nat) : size ≤ roundupsize size := by
  unfold roundupsize
  split
  · cases found : sizeClasses.find? (size ≤ ·) with
    | none => exact Nat.le_refl size
    | some c => simpa using List.find?_some found
  · omega

/-- From a capacity of at least 4 the loop grows past what it is asked for. -/
theorem le_growQuarters {newcap need : Nat} (big : 4 ≤ newcap) : need ≤ growQuarters newcap need := by
  fun_induction growQuarters newcap need with
  | case1 newcap grows ih => exact ih (by omega)
  | case2 newcap stops => omega

/-- The capacity `growslice` gives holds what it is asked for, from a
capacity that holds the length. -/
theorem le_growCap {len cap need : Nat} (le : len ≤ cap) : need ≤ growCap len cap need := by
  unfold growCap
  split
  · exact le_roundupsize need
  · split
    · exact le_trans (by omega) (le_roundupsize _)
    · exact le_trans (le_growQuarters (by omega)) (le_roundupsize _)

/-- The capacity after `n` appends of `size` bytes each to a slice of length
`len` and capacity `cap`. -/
def appendsCap (size : Nat) : Nat → Nat → Nat → Nat
  | 0, _, cap => cap
  | n + 1, len, cap => appendsCap size n (len + size) (capAfter len cap size)

/-- The capacity after an append holds the new length. -/
theorem le_capAfter {len cap : Nat} (le : len ≤ cap) (n : Nat) : len + n ≤ capAfter len cap n := by
  unfold capAfter
  split
  · assumption
  · exact le_growCap le

/-- After `n` appends of `size` bytes the capacity holds them all. -/
theorem le_appendsCap (size : Nat) : ∀ (n len cap : Nat), len ≤ cap → len + n * size ≤ appendsCap size n len cap
  | 0, _, _, le => by simpa [appendsCap] using le
  | n + 1, len, cap, le => by
    have step := le_appendsCap size n (len + size) (capAfter len cap size) (le_capAfter le size)
    rw [appendsCap]
    calc len + (n + 1) * size = len + size + n * size := by ring
      _ ≤ _ := step

/-- A byte slice: the bytes of its backing array from its start up to its
capacity, of which the first `len` are the slice's. -/
structure Bytes where
  buf : List UInt8
  len : Nat
  len_le : len ≤ buf.length

namespace Bytes

/-- `make([]byte, 0)`. -/
def empty : Bytes := ⟨[], 0, Nat.le_refl 0⟩

/-- `cap(s)`. -/
def cap (s : Bytes) : Nat := s.buf.length

/-- The bytes of the slice. -/
def bytes (s : Bytes) : List UInt8 := s.buf.take s.len

@[simp] theorem len_empty : empty.len = 0 := rfl

@[simp] theorem cap_empty : empty.cap = 0 := rfl

@[simp] theorem bytes_empty : empty.bytes = [] := rfl

@[simp] theorem length_bytes (s : Bytes) : s.bytes.length = s.len := by
  simp [bytes, s.len_le]

/-- `append(s, xs...)`: in place where the capacity holds the new length, else
into a new array of `growCap` bytes, zeroed past the new length. -/
def append (s : Bytes) (xs : List UInt8) : Bytes :=
  if s.len + xs.length ≤ s.cap then
    ⟨s.bytes ++ xs ++ s.buf.drop (s.len + xs.length), s.len + xs.length, by simp⟩
  else
    ⟨s.bytes ++ xs ++ List.replicate (growCap s.len s.cap (s.len + xs.length) - (s.len + xs.length)) 0,
      s.len + xs.length, by simp⟩

/-- The bytes between the length and the capacity are zero. -/
def ZeroTail (s : Bytes) : Prop := s.buf.drop s.len = List.replicate (s.cap - s.len) 0

@[simp] theorem len_append (s : Bytes) (xs : List UInt8) : (s.append xs).len = s.len + xs.length := by
  unfold append
  split <;> rfl

@[simp] theorem bytes_append (s : Bytes) (xs : List UInt8) : (s.append xs).bytes = s.bytes ++ xs := by
  have keep : ∀ rest : List UInt8, (s.bytes ++ xs ++ rest).take (s.len + xs.length) = s.bytes ++ xs := fun rest => by
    rw [List.take_append_of_le_length (by simp), List.take_of_length_le (by simp)]
  unfold append
  split <;> exact keep _

theorem len_le_cap (s : Bytes) : s.len ≤ s.cap := s.len_le

theorem cap_append (s : Bytes) (xs : List UInt8) : (s.append xs).cap = capAfter s.len s.cap xs.length := by
  have grown : s.len + xs.length ≤ growCap s.len s.cap (s.len + xs.length) := le_growCap s.len_le_cap
  unfold append capAfter
  split
  · rename_i fits
    simp only [cap, List.length_append, length_bytes, List.length_drop] at fits ⊢
    omega
  · simp only [cap, List.length_append, length_bytes, List.length_replicate] at grown ⊢
    omega

theorem zeroTail_empty : empty.ZeroTail := rfl

/-- Appending keeps the zero bytes past the length: in place the tail only
gets shorter, and a new array is zeroed past the new length. -/
theorem ZeroTail.append {s : Bytes} (tail : s.ZeroTail) (xs : List UInt8) : (s.append xs).ZeroTail := by
  have grown : s.len + xs.length ≤ growCap s.len s.cap (s.len + xs.length) := le_growCap s.len_le_cap
  have front : ∀ rest : List UInt8, (s.bytes ++ xs ++ rest).drop (s.len + xs.length) = rest := fun rest => by
    rw [List.drop_append_of_le_length (by simp), List.drop_of_length_le (by simp), List.nil_append]
  unfold ZeroTail Bytes.append
  split
  · rename_i fits
    -- in place: the tail past the new length is the old tail, shorter
    have rest : s.buf.drop (s.len + xs.length) = List.replicate (s.cap - (s.len + xs.length)) 0 := by
      rw [← List.drop_drop, tail, List.drop_replicate]
      congr 1
      omega
    simp only [front, rest, cap, List.length_append, length_bytes, List.length_replicate]
    congr 1
    omega
  · simp only [front, cap, List.length_append, length_bytes, List.length_replicate]
    congr 1
    omega

/-- A slice with a zero tail is its bytes, then zeros up to its capacity. -/
theorem ZeroTail.buf_eq {s : Bytes} (tail : s.ZeroTail) : s.buf = s.bytes ++ List.replicate (s.cap - s.len) 0 := by
  rw [← tail, bytes, List.take_append_drop]

end Bytes

end GoSlice
