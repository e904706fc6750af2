import FiscoBcos.Lib.Bitset
import FiscoBcos.Lib.Except
import Mathlib

/-!
# Sparse bitset compression

`common/bitutil/compress.go`. A byte string with at least two bytes is
encoded as the encoding of its bitset of nonzero bytes, followed by the
nonzero bytes themselves; the bitset is one bit per byte, in
`(len + 7) / 8` bytes, so the format nests until one byte is left. A string
of zero bytes encodes to nothing. `CompressBytes` keeps the data as it is
when the encoding is not shorter, and `DecompressBytes` tells the two apart
by the length it is given.

Decoding reads the bitset back with the same decoder, at the smaller target
size and from the same input, and then distributes the bytes after it over
the set bits, rejecting a missing byte, a set bit past the target and a zero
byte where a nonzero one belongs.

The errors carry no position; the pointer `bitsetDecodePartialBytes`
returns beside an error is read by no caller and is left out.
-/

namespace FiscoBcos.Bitutil

/-- The errors of decompression. -/
inductive CompressError where
  /-- `missing bytes on input` -/
  | missingData
  /-- `extra bytes on input` -/
  | unreferencedData
  /-- `target data size exceeded` -/
  | exceededTarget
  /-- `zero byte in input content` -/
  | zeroContent
deriving DecidableEq, Repr

/-! ## Encoding -/

/-- The loop of `bitsetEncodeBytes` from index `i`: the bit of every
nonzero byte set in `bs`. -/
def nonZeroBitsetLoop : List UInt8 → Nat → List UInt8 → List UInt8
  | [], _, bs => bs
  | b :: data, i, bs => nonZeroBitsetLoop data (i + 1) (if b ≠ 0 then Bitset.set bs i else bs)

/-- `nonZeroBitset`: one bit per byte of `data`, set for the nonzero ones. -/
def nonZeroBitset (data : List UInt8) : List UInt8 :=
  nonZeroBitsetLoop data 0 (List.replicate ((data.length + 7) / 8) 0)

theorem length_nonZeroBitsetLoop (data : List UInt8) (i : Nat) (bs : List UInt8) :
    (nonZeroBitsetLoop data i bs).length = bs.length := by
  induction data generalizing i bs with
  | nil => rfl
  | cons b data ih =>
    rw [nonZeroBitsetLoop, ih]
    split_ifs <;> simp

@[simp] theorem length_nonZeroBitset (data : List UInt8) :
    (nonZeroBitset data).length = (data.length + 7) / 8 := by
  simp [nonZeroBitset, length_nonZeroBitsetLoop]

/-- `bitsetEncodeBytes`. -/
def bitsetEncodeBytes (data : List UInt8) : List UInt8 :=
  match data with
  -- Empty slices get compressed to nil
  | [] => []
  -- One byte slices compress to nil or retain the single byte
  | [b] => if b = 0 then [] else [b]
  | a :: b :: rest =>
    let nonZeroBytes := (a :: b :: rest).filter (· != 0)
    if nonZeroBytes = [] then []
    else bitsetEncodeBytes (nonZeroBitset (a :: b :: rest)) ++ nonZeroBytes
termination_by data.length
decreasing_by
  simp only [length_nonZeroBitset, List.length_cons]
  omega

/-- `CompressBytes`: the encoding, unless it is not shorter than the data. -/
def CompressBytes (data : List UInt8) : List UInt8 :=
  let out := bitsetEncodeBytes data
  if out.length < data.length then out else data

/-! ## Decoding -/

/-- One round of the loop of `bitsetDecodePartialBytes`, at bit `i` of the
bitset, with the output so far and the read pointer. -/
def distribute (data nonZeroBitset : List UInt8) (acc : List UInt8 × Nat) (i : Nat) :
    Except CompressError (List UInt8 × Nat) :=
  let (decomp, ptr) := acc
  if Bitset.test nonZeroBitset i then
    -- Make sure we have enough data to push into the correct slot
    if ptr ≥ data.length then .error .missingData
    else if i ≥ decomp.length then .error .exceededTarget
    -- Make sure the data is valid and push into the slot
    else if data.getD ptr 0 = 0 then .error .zeroContent
    else .ok (decomp.set i (data.getD ptr 0), ptr + 1)
  else .ok (decomp, ptr)

/-- `bitsetDecodePartialBytes`: the output of `target` bytes and the length
of the input it was decoded from. -/
def bitsetDecodePartialBytes (data : List UInt8) (target : Nat) :
    Except CompressError (List UInt8 × Nat) :=
  -- Sanity check 0 targets to avoid infinite recursion
  if _h0 : target = 0 then .ok ([], 0)
  else match data with
    | [] => .ok (List.replicate target 0, 0)
    | d :: rest =>
      if _h1 : target = 1 then .ok ([d], if d ≠ 0 then 1 else 0)
      else
        -- Decompress the bitset of set bytes and distribute the non zero bytes
        match bitsetDecodePartialBytes (d :: rest) ((target + 7) / 8) with
        | .error e => .error e
        | .ok (nonZeroBitset, ptr) =>
          (List.range (8 * nonZeroBitset.length)).foldlM (distribute (d :: rest) nonZeroBitset)
            (List.replicate target 0, ptr)
termination_by target
decreasing_by omega

/-- `bitsetDecodeBytes`: every input byte must be used. -/
def bitsetDecodeBytes (data : List UInt8) (target : Nat) : Except CompressError (List UInt8) :=
  match bitsetDecodePartialBytes data target with
  | .error e => .error e
  | .ok (out, size) => if size ≠ data.length then .error .unreferencedData else .ok out

/-- `DecompressBytes`: data as long as the target was stored as it is. -/
def DecompressBytes (data : List UInt8) (target : Nat) : Except CompressError (List UInt8) :=
  if data.length > target then .error .exceededTarget
  else if data.length = target then .ok data
  else bitsetDecodeBytes data target

/-! ## The encoder -/

theorem test_nonZeroBitsetLoop (data : List UInt8) (i : Nat) (bs : List UInt8)
    (room : (i + data.length + 7) / 8 ≤ bs.length) (j : Nat) :
    Bitset.test (nonZeroBitsetLoop data i bs) j = true ↔
      Bitset.test bs j = true ∨ (i ≤ j ∧ j < i + data.length ∧ data.getD (j - i) 0 ≠ 0) := by
  induction data generalizing i bs with
  | nil =>
    simp only [nonZeroBitsetLoop, List.length_nil, Nat.add_zero]
    exact ⟨.inl, fun h => h.elim id fun ⟨le, lt, _⟩ => absurd lt (by omega)⟩
  | cons b data ih =>
    have len : (b :: data).length = data.length + 1 := rfl
    have inside : i / 8 < bs.length := by omega
    have room' : (i + 1 + data.length + 7) / 8 ≤ (if b ≠ 0 then Bitset.set bs i else bs).length := by
      split_ifs
      · rw [Bitset.length_set]; omega
      · omega
    rw [nonZeroBitsetLoop, ih (i + 1) _ room']
    -- the byte at `i` is `b`, the others are those of `data`
    by_cases here : j = i
    · subst here
      by_cases hb : b = 0
      · simp [hb]
      · simp [hb, Bitset.test_set inside]
    · have shift : i + 1 ≤ j → (b :: data).getD (j - i) 0 = data.getD (j - (i + 1)) 0 := by
        intro le
        obtain ⟨m, rfl⟩ := Nat.exists_eq_add_of_le le
        simp [show i + 1 + m - i = m + 1 by omega]
      have set_bit : (Bitset.test (if b ≠ 0 then Bitset.set bs i else bs) j = true) ↔
          Bitset.test bs j = true := by
        split_ifs
        · simp [Bitset.test_set inside, here]
        · rfl
      rw [set_bit]
      constructor
      · rintro (h | ⟨le, lt, ne⟩)
        · exact .inl h
        · exact .inr ⟨by omega, by omega, by rwa [shift le]⟩
      · rintro (h | ⟨le, lt, ne⟩)
        · exact .inl h
        · have le' : i + 1 ≤ j := by omega
          exact .inr ⟨le', by omega, by rwa [← shift le']⟩

/-- Bit `j` of the bitset is set exactly for the nonzero bytes. -/
theorem test_nonZeroBitset (data : List UInt8) (j : Nat) :
    Bitset.test (nonZeroBitset data) j = true ↔ j < data.length ∧ data.getD j 0 ≠ 0 := by
  rw [nonZeroBitset, test_nonZeroBitsetLoop _ _ _ (by simp)]
  simp

theorem filter_eq_nil_iff (data : List UInt8) : data.filter (· != 0) = [] ↔ ∀ b ∈ data, b = 0 := by
  simp [List.filter_eq_nil_iff]

/-- The encoding is empty exactly for the strings of zero bytes. -/
theorem bitsetEncodeBytes_eq_nil_iff (data : List UInt8) :
    bitsetEncodeBytes data = [] ↔ ∀ b ∈ data, b = 0 := by
  match data with
  | [] => simp [bitsetEncodeBytes]
  | [b] => by_cases hb : b = 0 <;> simp [bitsetEncodeBytes, hb]
  | a :: b :: rest =>
    rw [bitsetEncodeBytes, ← filter_eq_nil_iff]
    by_cases zero : (a :: b :: rest).filter (· != 0) = []
    · simp only [zero, if_true]
    · simp only [zero, if_false, List.append_eq_nil_iff, and_false]

/-- A string with a nonzero byte has a nonzero bitset. -/
theorem exists_ne_zero_nonZeroBitset {data : List UInt8} (nonzero : ∃ b ∈ data, b ≠ 0) :
    ∃ b ∈ nonZeroBitset data, b ≠ 0 := by
  obtain ⟨b, mem, hb⟩ := nonzero
  obtain ⟨j, lt, rfl⟩ := List.getElem_of_mem mem
  exact Bitset.exists_ne_zero_of_test
    ((test_nonZeroBitset data j).mpr ⟨lt, by rwa [List.getD_eq_getElem _ _ lt]⟩)

/-- Two or more bytes, not all zero: the encoded bitset, then the nonzero
bytes. -/
theorem bitsetEncodeBytes_long {data : List UInt8} (two : 2 ≤ data.length)
    (nonzero : ∃ b ∈ data, b ≠ 0) :
    bitsetEncodeBytes data = bitsetEncodeBytes (nonZeroBitset data) ++ data.filter (· != 0) := by
  match data, two with
  | a :: b :: rest, _ =>
    have kept : (a :: b :: rest).filter (· != 0) ≠ [] := by
      rw [ne_eq, filter_eq_nil_iff]
      obtain ⟨c, mem, hc⟩ := nonzero
      exact fun zero => hc (zero c mem)
    rw [bitsetEncodeBytes, if_neg kept]

/-! ## The decoder -/

theorem bitsetDecodePartialBytes_zero (data : List UInt8) :
    bitsetDecodePartialBytes data 0 = .ok ([], 0) := by
  rw [bitsetDecodePartialBytes.eq_def, dif_pos rfl]

theorem bitsetDecodePartialBytes_nil {target : Nat} (h : target ≠ 0) :
    bitsetDecodePartialBytes [] target = .ok (List.replicate target 0, 0) := by
  rw [bitsetDecodePartialBytes.eq_def, dif_neg h]

theorem bitsetDecodePartialBytes_one (d : UInt8) (rest : List UInt8) :
    bitsetDecodePartialBytes (d :: rest) 1 = .ok ([d], if d ≠ 0 then 1 else 0) := by
  rw [bitsetDecodePartialBytes.eq_def, dif_neg one_ne_zero]
  rfl

/-- Two or more bytes from a nonempty input: the bitset first, then the
loop over its bits. -/
theorem bitsetDecodePartialBytes_long {data : List UInt8} {target : Nat} (ne : data ≠ [])
    (two : 2 ≤ target) :
    bitsetDecodePartialBytes data target =
      (bitsetDecodePartialBytes data ((target + 7) / 8)).bind fun (nonZeroBitset, ptr) =>
        (List.range (8 * nonZeroBitset.length)).foldlM (distribute data nonZeroBitset)
          (List.replicate target 0, ptr) := by
  obtain ⟨d, rest, rfl⟩ := List.exists_cons_of_ne_nil ne
  rw [bitsetDecodePartialBytes.eq_def, dif_neg (by omega)]
  simp only [dif_neg (show target ≠ 1 by omega)]
  cases bitsetDecodePartialBytes (d :: rest) ((target + 7) / 8) <;> rfl

theorem distribute_clear {data bs : List UInt8} {i : Nat} (clear : Bitset.test bs i = false)
    (acc : List UInt8 × Nat) : distribute data bs acc i = .ok acc := by
  obtain ⟨decomp, ptr⟩ := acc
  simp [distribute, clear]

theorem distribute_set {data bs decomp : List UInt8} {i ptr : Nat} (set : Bitset.test bs i = true)
    (inData : ptr < data.length) (inTarget : i < decomp.length) (nonzero : data.getD ptr 0 ≠ 0) :
    distribute data bs (decomp, ptr) i = .ok (decomp.set i (data.getD ptr 0), ptr + 1) := by
  simp only [distribute, set, if_true, ge_iff_le, Nat.not_le.mpr inData, Nat.not_le.mpr inTarget,
    nonzero, if_false]

/-- What one successful round of the loop can do. -/
theorem distribute_eq_ok {data bs decomp : List UInt8} {i ptr : Nat} {acc : List UInt8 × Nat}
    (h : distribute data bs (decomp, ptr) i = .ok acc) :
    (Bitset.test bs i = false ∧ acc = (decomp, ptr)) ∨
      (Bitset.test bs i = true ∧ ptr < data.length ∧ i < decomp.length ∧ data.getD ptr 0 ≠ 0 ∧
        acc = (decomp.set i (data.getD ptr 0), ptr + 1)) := by
  unfold distribute at h
  by_cases set : Bitset.test bs i = true
  · simp only [set, if_true] at h
    split_ifs at h with missing target zero
    · exact .inr ⟨set, by omega, by omega, zero, (Except.ok.inj h).symm⟩
  · simp only [set, Bool.false_eq_true, if_false, Except.ok.injEq] at h
    exact .inl ⟨by simpa using set, h.symm⟩

/-- Bits that are clear leave the loop's state as it is. -/
theorem foldlM_distribute_clear {data bs : List UInt8} {is : List Nat}
    (clear : ∀ i ∈ is, Bitset.test bs i = false) (acc : List UInt8 × Nat) :
    is.foldlM (distribute data bs) acc = .ok acc := by
  induction is with
  | nil => rfl
  | cons i is ih =>
    rw [List.foldlM_cons, distribute_clear (clear i List.mem_cons_self)]
    exact ih fun j mem => clear j (List.mem_cons_of_mem i mem)

/-! ## Decoding an encoding -/

theorem getD_append_left {xs ys : List UInt8} {i : Nat} (h : i < xs.length) :
    (xs ++ ys).getD i 0 = xs.getD i 0 := by
  simp [List.getD_eq_getElem?_getD, List.getElem?_append_left h]

theorem getD_append_length (xs ys : List UInt8) (i : Nat) :
    (xs ++ ys).getD (xs.length + i) 0 = ys.getD i 0 := by
  simp [List.getD_eq_getElem?_getD, List.getElem?_append_right]

/-- The nonzero bytes before index `k` come before the byte at `k` among
all the nonzero bytes. -/
theorem filter_take_succ (x : List UInt8) {k : Nat} (lt : k < x.length) :
    (x.take (k + 1)).filter (· != 0) = (x.take k).filter (· != 0) ++ [x[k]].filter (· != 0) := by
  rw [List.take_succ_eq_append_getElem lt, List.filter_append]

theorem getD_filter_take {x : List UInt8} {k : Nat} (lt : k < x.length) (nonzero : x[k] ≠ 0) :
    ((x.filter (· != 0)).getD ((x.take k).filter (· != 0)).length 0 = x[k]) ∧
      ((x.take k).filter (· != 0)).length < (x.filter (· != 0)).length := by
  have split : x.filter (· != 0) = (x.take k).filter (· != 0) ++ x[k] :: (x.drop (k + 1)).filter (· != 0) := by
    conv_lhs => rw [← List.take_append_drop (k + 1) x, List.filter_append, filter_take_succ x lt]
    simp [nonzero]
  rw [split]
  exact ⟨by simp, by simp⟩

/-- The output after the bits below `k` of an encoding's bitset: the bytes
below `k` in place, zeros above. -/
theorem foldlM_distribute_range {x pre rest : List UInt8} {k : Nat} (hk : k ≤ x.length) :
    (List.range k).foldlM (distribute (pre ++ (x.filter (· != 0) ++ rest)) (nonZeroBitset x))
        (List.replicate x.length 0, pre.length) =
      .ok (x.take k ++ List.replicate (x.length - k) 0,
        pre.length + ((x.take k).filter (· != 0)).length) := by
  induction k with
  | zero => simp
  | succ k ih =>
    have lt : k < x.length := by omega
    have bit := test_nonZeroBitset x k
    rw [List.getD_eq_getElem _ _ lt] at bit
    have after : x.length - k = x.length - (k + 1) + 1 := by omega
    rw [List.range_succ, List.foldlM_append, ih (by omega)]
    simp only [List.foldlM_cons, List.foldlM_nil, Except.bind_eq_bind, Except.bind_ok_eq,
      Except.bind_pure_eq]
    by_cases zero : x[k] = 0
    · -- a zero byte: its bit is clear and the output already holds it
      rw [distribute_clear (by simpa [lt, zero] using bit)]
      have take : x.take (k + 1) = x.take k ++ [0] := by rw [List.take_succ_eq_append_getElem lt, zero]
      simp [take, after, List.replicate_succ]
    · -- a nonzero byte: the next of the nonzero bytes goes to its place
      obtain ⟨next, fewer⟩ := getD_filter_take lt zero
      have inData : pre.length + ((x.take k).filter (· != 0)).length <
          (pre ++ (x.filter (· != 0) ++ rest)).length := by
        simp only [List.length_append]; omega
      have value : (pre ++ (x.filter (· != 0) ++ rest)).getD
          (pre.length + ((x.take k).filter (· != 0)).length) 0 = x[k] := by
        rw [getD_append_length, getD_append_left fewer, next]
      rw [distribute_set (bit.mpr ⟨lt, zero⟩) inData (by simp; omega) (by rw [value]; exact zero), value]
      have placed : (x.take k ++ List.replicate (x.length - k) 0).set k x[k] =
          x.take (k + 1) ++ List.replicate (x.length - (k + 1)) 0 := by
        rw [List.set_append_right _ _ (by rw [List.length_take]; omega), List.length_take, after, List.replicate_succ,
          show k - min k x.length = 0 by omega, List.set_cons_zero,
          List.take_succ_eq_append_getElem lt, List.append_assoc, List.singleton_append]
      simp [placed, filter_take_succ x lt, zero, Nat.add_assoc]

/-- The bits of an encoding's bitset past the data are clear. -/
theorem test_nonZeroBitset_of_le {x : List UInt8} {j : Nat} (le : x.length ≤ j) :
    Bitset.test (nonZeroBitset x) j = false := by
  have bit := test_nonZeroBitset x j
  cases h : Bitset.test (nonZeroBitset x) j
  · rfl
  · exact absurd (bit.mp h).1 (by omega)

/-- A string with a nonzero byte is read back from its encoding, whatever
follows the encoding; the recursion is on the length, through the bitset. -/
theorem bitsetDecodePartialBytes_encode (x : List UInt8) (nonzero : ∃ b ∈ x, b ≠ 0)
    (rest : List UInt8) :
    bitsetDecodePartialBytes (bitsetEncodeBytes x ++ rest) x.length =
      .ok (x, (bitsetEncodeBytes x).length) := by
  induction h : x.length using Nat.strong_induction_on generalizing x rest with
  | _ n ih =>
    subst h
    match x, nonzero with
    | [b], nonzero =>
      have hb : b ≠ 0 := by simpa using nonzero
      simp [bitsetEncodeBytes, hb, bitsetDecodePartialBytes_one]
    | a :: b :: r, nonzero =>
      set x := a :: b :: r with hx
      have two : 2 ≤ x.length := by simp [hx]
      set bs := nonZeroBitset x
      have bslen : bs.length = (x.length + 7) / 8 := length_nonZeroBitset x
      -- the bitset is read back first, by the induction hypothesis
      have inner := ih bs.length (by omega) bs (exists_ne_zero_nonZeroBitset nonzero)
        (x.filter (· != 0) ++ rest) rfl
      have ne : bitsetEncodeBytes bs ++ (x.filter (· != 0) ++ rest) ≠ [] := by
        have encoded := (bitsetEncodeBytes_eq_nil_iff bs).not.mpr (by
          obtain ⟨c, mem, hc⟩ := exists_ne_zero_nonZeroBitset nonzero
          exact fun zero => hc (zero c mem))
        exact fun empty => encoded (List.append_eq_nil_iff.mp empty).1
      -- then the bits up to the data's length place the bytes, the others are clear
      have range : List.range (8 * bs.length) =
          List.range' 0 x.length ++ List.range' x.length (8 * bs.length - x.length) := by
        have split := @List.range'_append 0 x.length (8 * bs.length - x.length) 1
        rw [Nat.zero_add, Nat.one_mul] at split
        rw [List.range_eq_range', split]
        congr 1
        omega
      have clear : ∀ j ∈ List.range' x.length (8 * bs.length - x.length),
          Bitset.test bs j = false := fun j mem =>
        test_nonZeroBitset_of_le (List.mem_range'_1.mp mem).1
      rw [bitsetEncodeBytes_long two nonzero, List.append_assoc,
        bitsetDecodePartialBytes_long ne two, ← bslen, inner, Except.bind_ok_eq]
      simp only
      rw [range, List.foldlM_append, ← List.range_eq_range',
        @foldlM_distribute_range x (bitsetEncodeBytes bs) rest x.length (le_refl _)]
      simp only [Except.bind_eq_bind, Except.bind_ok_eq, List.take_length, Nat.sub_self,
        List.replicate_zero, List.append_nil, List.length_append]
      exact foldlM_distribute_clear clear _

/-- An encoding decodes to its data. -/
theorem bitsetDecodeBytes_encode (data : List UInt8) :
    bitsetDecodeBytes (bitsetEncodeBytes data) data.length = .ok data := by
  by_cases nonzero : ∃ b ∈ data, b ≠ 0
  · have read := bitsetDecodePartialBytes_encode data nonzero []
    rw [List.append_nil] at read
    simp [bitsetDecodeBytes, read]
  · -- only zero bytes: the encoding is empty and the output all zeros
    have zero : ∀ b ∈ data, b = 0 := by simpa using nonzero
    rw [(bitsetEncodeBytes_eq_nil_iff data).mpr zero]
    by_cases empty : data.length = 0
    · rw [List.length_eq_zero_iff.mp empty]
      simp [bitsetDecodeBytes, bitsetDecodePartialBytes_zero]
    · have all : List.replicate data.length 0 = data :=
        (List.eq_replicate_iff.mpr ⟨rfl, zero⟩).symm
      simp [bitsetDecodeBytes, bitsetDecodePartialBytes_nil empty, all]

/-- Compressed data decompresses to itself, stored or encoded. -/
theorem decompressBytes_compress (data : List UInt8) :
    DecompressBytes (CompressBytes data) data.length = .ok data := by
  unfold CompressBytes
  by_cases shorter : (bitsetEncodeBytes data).length < data.length
  · simp only [shorter, if_true, DecompressBytes, Nat.not_lt.mpr shorter.le,
      Nat.ne_of_lt shorter, if_false]
    exact bitsetDecodeBytes_encode data
  · simp [shorter, DecompressBytes]

/-! ## Only encodings decode -/

theorem getD_set_ne (l : List UInt8) {i j : Nat} (v : UInt8) (ne : i ≠ j) :
    (l.set i v).getD j 0 = l.getD j 0 := by
  simp [List.getD_eq_getElem?_getD, List.getElem?_set_ne ne]

theorem getD_set_self {l : List UInt8} {i : Nat} (v : UInt8) (lt : i < l.length) :
    (l.set i v).getD i 0 = v := by
  simp [List.getD_eq_getElem?_getD, List.getElem?_set_self lt]

/-- The loop of the decoder once the bits below `k` are distributed, with the
bytes after the bitset read from `start` on: the output has its length, its
nonzero bytes sit exactly at the set bits, no bit past the target is set, and
the nonzero bytes are the input bytes read. -/
structure Distributed (data bs : List UInt8) (target start k : Nat) (out : List UInt8) (ptr : Nat) :
    Prop where
  length : out.length = target
  start_le : start ≤ ptr
  le_length : ptr ≤ data.length
  below : ∀ i < k, i < target → (out.getD i 0 ≠ 0 ↔ Bitset.test bs i = true)
  past : ∀ i < k, target ≤ i → Bitset.test bs i = false
  above : ∀ i, k ≤ i → out.getD i 0 = 0
  bytes : (out.take k).filter (· != 0) = (data.drop start).take (ptr - start)

theorem distributed_zero {data bs : List UInt8} {target start : Nat} (h : start ≤ data.length) :
    Distributed data bs target start 0 (List.replicate target 0) start where
  length := List.length_replicate
  start_le := le_refl _
  le_length := h
  below _ lt := absurd lt (Nat.not_lt_zero _)
  past _ lt := absurd lt (Nat.not_lt_zero _)
  above i _ := by
    rw [List.getD_eq_getElem?_getD, List.getElem?_replicate]
    split <;> rfl
  bytes := by simp

/-- One round keeps the invariant, for a clear bit and for a set one. -/
theorem Distributed.step {data bs out out' : List UInt8} {target start k ptr ptr' : Nat}
    (inv : Distributed data bs target start k out ptr)
    (h : distribute data bs (out, ptr) k = .ok (out', ptr')) :
    Distributed data bs target start (k + 1) out' ptr' := by
  rcases distribute_eq_ok h with ⟨clear, same⟩ | ⟨set, inData, inTarget, nonzero, placed⟩
  · obtain ⟨rfl, rfl⟩ := Prod.mk.inj same.symm
    have zero : out.getD k 0 = 0 := inv.above k (le_refl k)
    refine ⟨inv.length, inv.start_le, inv.le_length, fun i lt within => ?_, fun i lt far => ?_,
      fun i le => inv.above i (by omega), ?_⟩
    · rcases Nat.lt_succ_iff_lt_or_eq.mp lt with lt | rfl
      · exact inv.below i lt within
      · rw [zero]
        simp [clear]
    · rcases Nat.lt_succ_iff_lt_or_eq.mp lt with lt | rfl
      · exact inv.past i lt far
      · exact clear
    · -- the byte at `k` is zero, or past the output
      by_cases inside : k < out.length
      · rw [List.take_succ_eq_append_getElem inside, List.filter_append, ← inv.bytes]
        rw [List.getD_eq_getElem _ _ inside] at zero
        simp [zero]
      · have bytes := inv.bytes
        rw [List.take_of_length_le (by omega)] at bytes
        rwa [List.take_of_length_le (by omega)]
  · obtain ⟨rfl, rfl⟩ := Prod.mk.inj placed
    have len : (out.set k (data.getD ptr 0)).length = target := by simp [inv.length]
    refine ⟨len, by have := inv.start_le; omega, inData, fun i lt within => ?_, fun i lt far => ?_,
      fun i le => ?_, ?_⟩
    · rcases Nat.lt_succ_iff_lt_or_eq.mp lt with lt | rfl
      · rw [getD_set_ne _ _ (by omega)]
        exact inv.below i lt within
      · rw [getD_set_self _ inTarget]
        exact ⟨fun _ => set, fun _ => nonzero⟩
    · rcases Nat.lt_succ_iff_lt_or_eq.mp lt with lt | rfl
      · exact inv.past i lt far
      · exact absurd far (by rw [← inv.length]; omega)
    · rw [getD_set_ne _ _ (by omega)]
      exact inv.above i (by omega)
    · -- the byte read goes to position `k`, after the bytes read before it
      have start_le := inv.start_le
      have read : ptr - start < (data.drop start).length := by simp; omega
      have next : (data.drop start)[ptr - start] = data.getD ptr 0 := by
        rw [List.getElem_drop, List.getD_eq_getElem _ _ inData]
        congr 1
        omega
      rw [List.take_succ_eq_append_getElem (by simpa using inTarget), List.take_set,
        List.set_eq_of_length_le (by simp only [List.length_take]; exact Nat.min_le_left _ _),
        List.filter_append, inv.bytes,
        show ptr + 1 - start = ptr - start + 1 by omega, List.take_succ_eq_append_getElem read, next]
      simpa [List.getD_eq_getElem?_getD] using nonzero

/-- The loop keeps the invariant over every bit it visits. -/
theorem distributed_range {data bs : List UInt8} {target start : Nat} (h : start ≤ data.length) :
    ∀ k out ptr, (List.range k).foldlM (distribute data bs) (List.replicate target 0, start) =
      .ok (out, ptr) → Distributed data bs target start k out ptr := by
  intro k
  induction k with
  | zero =>
    intro out ptr run
    obtain ⟨rfl, rfl⟩ := Prod.mk.inj (Except.ok.inj run).symm
    exact distributed_zero h
  | succ k ih =>
    intro out ptr run
    rw [List.range_succ, List.foldlM_append, Except.bind_eq_bind, Except.bind_eq_ok_iff] at run
    obtain ⟨⟨mid, midPtr⟩, first, last⟩ := run
    simp only [List.foldlM_cons, List.foldlM_nil, Except.bind_eq_bind, Except.bind_pure_eq] at last
    exact (ih mid midPtr first).step last

/-- After every bit of the bitset, the bitset is the bitset of the output. -/
theorem Distributed.bitset {data bs out : List UInt8} {target start ptr : Nat}
    (inv : Distributed data bs target start (8 * bs.length) out ptr)
    (len : bs.length = (target + 7) / 8) : nonZeroBitset out = bs := by
  refine Bitset.ext_test (by rw [length_nonZeroBitset, inv.length, len]) fun i => ?_
  rw [Bool.eq_iff_iff, test_nonZeroBitset, inv.length]
  by_cases visited : i < 8 * bs.length
  · by_cases within : i < target
    · exact ⟨fun h => (inv.below i visited within).mp h.2,
        fun h => ⟨within, (inv.below i visited within).mpr h⟩⟩
    · rw [inv.past i visited (by omega)]
      simp [within]
  · rw [Bitset.test_of_length_le (by omega)]
    simp only [Bool.false_eq_true, iff_false, not_and]
    intro lt
    omega

/-- Zero bytes have a clear bitset. -/
theorem nonZeroBitset_zeros {x : List UInt8} (zeros : ∀ b ∈ x, b = 0) :
    nonZeroBitset x = List.replicate ((x.length + 7) / 8) 0 := by
  refine Bitset.ext_test (by simp) fun i => ?_
  rw [Bitset.test_replicate_zero, Bool.eq_false_iff, ne_eq, test_nonZeroBitset]
  rintro ⟨lt, ne⟩
  exact ne (by rw [List.getD_eq_getElem _ _ lt]; exact zeros _ (List.getElem_mem lt))

/-- A decoding is the prefix of the input it read, encoded: the recursion
is on the target, through the bitset read at the smaller target. -/
theorem bitsetDecodePartialBytes_sound {data : List UInt8} {target : Nat} {out : List UInt8}
    {ptr : Nat} (h : bitsetDecodePartialBytes data target = .ok (out, ptr)) :
    ptr ≤ data.length ∧ out.length = target ∧ bitsetEncodeBytes out = data.take ptr := by
  induction target using Nat.strong_induction_on generalizing out ptr with
  | _ target ih =>
    by_cases zero : target = 0
    · subst zero
      rw [bitsetDecodePartialBytes_zero] at h
      obtain ⟨rfl, rfl⟩ := Prod.mk.inj (Except.ok.inj h).symm
      simp [bitsetEncodeBytes]
    match data, h with
    | [], h =>
      rw [bitsetDecodePartialBytes_nil zero] at h
      obtain ⟨rfl, rfl⟩ := Prod.mk.inj (Except.ok.inj h).symm
      exact ⟨le_refl 0, List.length_replicate, by
        rw [List.take_nil, bitsetEncodeBytes_eq_nil_iff]
        simp [List.mem_replicate]⟩
    | d :: rest, h =>
      by_cases one : target = 1
      · subst one
        rw [bitsetDecodePartialBytes_one] at h
        obtain ⟨rfl, rfl⟩ := Prod.mk.inj (Except.ok.inj h).symm
        by_cases hd : d = 0 <;> simp [hd, bitsetEncodeBytes]
      · rw [bitsetDecodePartialBytes_long (List.cons_ne_nil d rest) (by omega),
          Except.bind_eq_ok_iff] at h
        obtain ⟨⟨bs, start⟩, inner, loop⟩ := h
        obtain ⟨start_le, len, encoded⟩ := ih ((target + 7) / 8) (by omega) inner
        have inv := distributed_range start_le _ out ptr loop
        have bitset := inv.bitset len
        have bytes : out.filter (· != 0) = ((d :: rest).drop start).take (ptr - start) := by
          rw [← inv.bytes, List.take_of_length_le (by rw [inv.length, len]; omega)]
        refine ⟨inv.le_length, inv.length, ?_⟩
        have split : (d :: rest).take ptr =
            (d :: rest).take start ++ ((d :: rest).drop start).take (ptr - start) := by
          rw [← List.take_add, Nat.add_sub_cancel' inv.start_le]
        by_cases nonzero : ∃ b ∈ out, b ≠ 0
        · rw [bitsetEncodeBytes_long (by rw [inv.length]; omega) nonzero, bitset, encoded, bytes, split]
        · -- no nonzero byte: nothing was read after the bitset, which is clear
          have zeros : ∀ b ∈ out, b = 0 := by simpa using nonzero
          have none : ((d :: rest).drop start).take (ptr - start) = [] := by
            rw [← bytes, filter_eq_nil_iff]
            exact zeros
          have clear : ∀ b ∈ bs, b = 0 := by
            rw [← bitset, nonZeroBitset_zeros zeros]
            exact fun b mem => (List.mem_replicate.mp mem).2
          rw [(bitsetEncodeBytes_eq_nil_iff out).mpr zeros, split, none, List.append_nil, ← encoded,
            (bitsetEncodeBytes_eq_nil_iff bs).mpr clear]

/-- Whatever decodes is the encoding of what it decodes to. -/
theorem bitsetEncodeBytes_decode {data : List UInt8} {target : Nat} {out : List UInt8}
    (h : bitsetDecodeBytes data target = .ok out) : bitsetEncodeBytes out = data := by
  unfold bitsetDecodeBytes at h
  rcases read : bitsetDecodePartialBytes data target with e | ⟨decoded, size⟩ <;>
    rw [read] at h
  · cases h
  · by_cases used : size = data.length
    · simp only [used, ne_eq, not_true_eq_false, if_false, Except.ok.injEq] at h
      subst h
      obtain ⟨-, -, encoded⟩ := bitsetDecodePartialBytes_sound read
      rw [encoded, used, List.take_length]
    · simp [used] at h

/-- The sparse bitset format is a bijection onto its image: encoding then
decoding at the data's length gives the data back, as does compressing then
decompressing, and whatever decodes is the encoding of its result. -/
theorem bitset_codec_bijective :
    (∀ data, bitsetDecodeBytes (bitsetEncodeBytes data) data.length = .ok data) ∧
      (∀ data, DecompressBytes (CompressBytes data) data.length = .ok data) ∧
      (∀ data target out, bitsetDecodeBytes data target = .ok out → bitsetEncodeBytes out = data) :=
  ⟨bitsetDecodeBytes_encode, decompressBytes_compress, fun _ _ _ h => bitsetEncodeBytes_decode h⟩

/-- The bitset `0x40` marks the second of two bytes: `[0x40, 7]` decodes to
`[0, 7]` and is its encoding. -/
theorem bitset_codec_bijective_sparse :
    bitsetDecodeBytes [0x40, 7] 2 = .ok [0, 7] ∧ bitsetEncodeBytes [0, 7] = [0x40, 7] :=
  have decoded : bitsetDecodeBytes [0x40, 7] 2 = .ok [0, 7] := by
    rw [bitsetDecodeBytes, bitsetDecodePartialBytes_long (List.cons_ne_nil _ _) (le_refl 2),
      bitsetDecodePartialBytes_one]
    rfl
  ⟨decoded, bitset_codec_bijective.2.2 _ _ _ decoded⟩

end FiscoBcos.Bitutil
