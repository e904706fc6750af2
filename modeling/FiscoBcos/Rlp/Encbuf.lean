import FiscoBcos.Lib.BigEndian
import Mathlib

/-!
# The RLP encoding buffer

`encbuf` from `rlp/encode.go`. The encoder writes all string data into
`str` and records each list header separately in `lheads`: `list()` opens a
header at the current string offset, `listEnd` fixes its payload size once the
elements are written, and `toBytes` splices the headers back into the string
data. `lhsize` is the total length of the headers closed so far, so
`size = len(str) + lhsize` is the length of the final output.

Header sizes are `uint64` in the source (`puthead`, `putint`, `intsize`); the
model keeps them as `UInt64` so that the conversion `uint64(size)` stays
visible.
-/

namespace FiscoBcos.Rlp

/-! ## Integer and header encodings -/

/-- `putint`: the big-endian bytes of `i`, as few as `i` needs (one byte for
zero). The bounds are the source's `1 << 8`, ..., `1 << 56`. -/
def putint (i : UInt64) : List UInt8 :=
  if i < 0x100 then [i.toUInt8]
  else if i < 0x10000 then [(i >>> 8).toUInt8, i.toUInt8]
  else if i < 0x1000000 then [(i >>> 16).toUInt8, (i >>> 8).toUInt8, i.toUInt8]
  else if i < 0x100000000 then
    [(i >>> 24).toUInt8, (i >>> 16).toUInt8, (i >>> 8).toUInt8, i.toUInt8]
  else if i < 0x10000000000 then
    [(i >>> 32).toUInt8, (i >>> 24).toUInt8, (i >>> 16).toUInt8, (i >>> 8).toUInt8,
      i.toUInt8]
  else if i < 0x1000000000000 then
    [(i >>> 40).toUInt8, (i >>> 32).toUInt8, (i >>> 24).toUInt8, (i >>> 16).toUInt8,
      (i >>> 8).toUInt8, i.toUInt8]
  else if i < 0x100000000000000 then
    [(i >>> 48).toUInt8, (i >>> 40).toUInt8, (i >>> 32).toUInt8, (i >>> 24).toUInt8,
      (i >>> 16).toUInt8, (i >>> 8).toUInt8, i.toUInt8]
  else
    [(i >>> 56).toUInt8, (i >>> 48).toUInt8, (i >>> 40).toUInt8, (i >>> 32).toUInt8,
      (i >>> 24).toUInt8, (i >>> 16).toUInt8, (i >>> 8).toUInt8, i.toUInt8]

/-- The loop of `intsize`: shift right by a byte until nothing is left. A
`uint64` is zero after eight shifts, so eight rounds are all the loop runs. -/
def intsizeLoop : Nat → UInt64 → Nat → Nat
  | 0, _, size => size
  | rounds + 1, i, size => if i >>> 8 = 0 then size else intsizeLoop rounds (i >>> 8) (size + 1)

/-- `intsize`: the minimum number of bytes needed to store `i`. -/
def intsize (i : UInt64) : Nat := intsizeLoop 8 i 1

/-- `headsize`: the length of a string or list header for a payload of
`size` bytes. -/
def headsize (size : UInt64) : Nat := if size < 56 then 1 else 1 + intsize size

/-- `puthead`: the header bytes for a payload of `size` bytes, with the tag
pair `0x80`/`0xB7` for strings and `0xC0`/`0xF7` for lists. -/
def puthead (smalltag largetag : UInt8) (size : UInt64) : List UInt8 :=
  if size < 56 then [smalltag + size.toUInt8]
  else
    let sizebytes := putint size
    (largetag + sizebytes.length.toUInt8) :: sizebytes

/-! ## The buffer -/

/-- `listhead`: where a list header goes in the string data, and the size of
the list's encoded payload once `listEnd` has run. -/
structure Listhead where
  offset : Nat
  size : Nat
deriving DecidableEq, Repr

/-- `listhead.encode`: the list header for the recorded payload size. -/
def Listhead.encode (head : Listhead) : List UInt8 := puthead 0xC0 0xF7 head.size.toUInt64

/-- `encbuf`: string data, the list headers in order of opening, and the
total size of the closed headers. -/
structure Encbuf where
  str : List UInt8
  lheads : List Listhead
  lhsize : Nat
deriving DecidableEq, Repr

namespace Encbuf

/-- A reset buffer, as `EncodeToBytes` starts from. -/
def empty : Encbuf := ⟨[], [], 0⟩

/-- `encbuf.size`: the length of the final output. -/
def size (w : Encbuf) : Nat := w.str.length + w.lhsize

/-- `encbuf.encodeStringHeader`. -/
def encodeStringHeader (w : Encbuf) (size : Nat) : Encbuf :=
  if size < 56 then { w with str := w.str ++ [0x80 + size.toUInt8] }
  else
    let sizebytes := putint size.toUInt64
    { w with str := w.str ++ ((0xB7 + sizebytes.length.toUInt8) :: sizebytes) }

/-- The test `len(b) == 1 && b[0] <= 0x7F` of `encodeString`: such a byte
is its own encoding. -/
def isSingleByte : List UInt8 → Bool
  | [b0] => b0 ≤ 0x7F
  | _ => false

/-- `encbuf.encodeString`. -/
def encodeString (w : Encbuf) (b : List UInt8) : Encbuf :=
  if isSingleByte b then { w with str := w.str ++ b }
  else
    let w := w.encodeStringHeader b.length
    { w with str := w.str ++ b }

/-- `encbuf.list`: open a header at the current string offset. Its `size`
field holds `lhsize` until `listEnd` replaces it. The returned index stands
for the `*listhead` pointer of the source. -/
def list (w : Encbuf) : Encbuf × Nat :=
  ({ w with lheads := w.lheads ++ [⟨w.str.length, w.lhsize⟩] }, w.lheads.length)

/-- `encbuf.listEnd`: the payload is everything written since the header was
opened, string data and inner headers alike. -/
def listEnd (w : Encbuf) (lh : Nat) : Encbuf :=
  match w.lheads[lh]? with
  | none => w
  | some head =>
    let size := w.size - head.offset - head.size
    { w with
      lheads := w.lheads.set lh { head with size := size }
      lhsize := if size < 56 then w.lhsize + 1 else w.lhsize + 1 + intsize size.toUInt64 }

/-- One round of the loop of `toBytes`: copy the string data up to the next
header's offset, then the header. -/
def toBytesStep (str : List UInt8) (acc : List UInt8 × Nat) (head : Listhead) :
    List UInt8 × Nat :=
  (acc.1 ++ (str.drop acc.2).take (head.offset - acc.2) ++ head.encode, head.offset)

/-- `encbuf.toBytes`: the string data with every list header spliced in at
its offset. The source copies into a buffer of `size()` bytes, which the
splice fills exactly for every buffer the writers build. -/
def toBytes (w : Encbuf) : List UInt8 :=
  let spliced := w.lheads.foldl (toBytesStep w.str) ([], 0)
  spliced.1 ++ w.str.drop spliced.2

end Encbuf

/-! ## Specifications of the integer encodings -/

theorem value_putint (i : UInt64) : BigEndian.value (putint i) = i.toNat := by
  have hi := i.toNat_lt
  unfold putint
  split_ifs <;>
    simp_all [BigEndian.value_cons, UInt64.lt_iff_toNat_lt, UInt64.toNat_shiftRight,
      Nat.shiftRight_eq_div_pow] <;> omega

theorem head_putint_ne_zero {i : UInt64} (h : i ≠ 0) : (putint i).head? ≠ some 0 := by
  have hi := i.toNat_lt
  have hpos : i.toNat ≠ 0 := fun h0 => h (UInt64.toNat_inj.mp (by simpa using h0))
  unfold putint
  split_ifs <;>
    simp_all [UInt64.lt_iff_toNat_lt, UInt64.toNat_shiftRight, Nat.shiftRight_eq_div_pow,
      ← UInt8.toNat_inj] <;> omega

/-- For a nonzero argument `putint` writes the minimal numeral. -/
theorem putint_eq_bytes {i : UInt64} (h : i ≠ 0) : putint i = BigEndian.bytes i.toNat := by
  rw [← value_putint i, BigEndian.bytes_value (head_putint_ne_zero h)]

private theorem intsizeLoop_eq (rounds : Nat) (i : UInt64) (size : Nat)
    (h : i.toNat < 256 ^ (rounds + 1)) :
    intsizeLoop rounds i size = size + max 1 (BigEndian.bytes i.toNat).length - 1 := by
  induction rounds generalizing i size with
  | zero =>
      have short : (BigEndian.bytes i.toNat).length ≤ 1 := BigEndian.length_bytes_le_iff.mpr h
      simp only [intsizeLoop]
      omega
  | succ rounds ih =>
      have shift : (i >>> 8).toNat = i.toNat / 256 := by
        simp [UInt64.toNat_shiftRight, Nat.shiftRight_eq_div_pow]
      simp only [intsizeLoop]
      split_ifs with last
      · have small : i.toNat < 256 := by
          have := congrArg UInt64.toNat last
          simp only [shift, UInt64.toNat_zero] at this
          omega
        have short : (BigEndian.bytes i.toNat).length ≤ 1 :=
          BigEndian.length_bytes_le_iff.mpr (by simpa using small)
        omega
      · have big : 256 ≤ i.toNat := by
          by_contra small
          exact last (UInt64.toNat_inj.mp (by simp [shift]; omega))
        have bound : (i >>> 8).toNat < 256 ^ (rounds + 1) := by
          rw [shift, Nat.div_lt_iff_lt_mul (by decide)]
          simpa [Nat.pow_succ] using h
        have tail : 1 ≤ (BigEndian.bytes (i.toNat / 256)).length := by
          by_contra none
          have := BigEndian.length_bytes_le_iff.mp
            (show (BigEndian.bytes (i.toNat / 256)).length ≤ 0 by omega)
          omega
        rw [ih (i >>> 8) (size + 1) bound, shift,
          BigEndian.length_bytes_div (show i.toNat ≠ 0 by omega)]
        omega

theorem intsize_eq (i : UInt64) : intsize i = max 1 (BigEndian.bytes i.toNat).length := by
  rw [intsize, intsizeLoop_eq 8 i 1 (lt_of_lt_of_le i.toNat_lt (by norm_num))]
  omega

/-- `putint` writes as many bytes as `intsize` counts for the header. -/
theorem length_putint (i : UInt64) : (putint i).length = intsize i := by
  rw [intsize_eq]
  by_cases zero : i = 0
  · subst zero
    decide
  · have pos : 1 ≤ (BigEndian.bytes i.toNat).length := by
      by_contra none
      have := BigEndian.bytes_eq_nil_iff.mp
        (List.eq_nil_of_length_eq_zero (show (BigEndian.bytes i.toNat).length = 0 by omega))
      exact zero (UInt64.toNat_inj.mp (by simpa using this))
    rw [putint_eq_bytes zero]
    omega

end FiscoBcos.Rlp
