import Mathlib

/-!
# Go's encoding/hex

`DecodeString` and `EncodeToString` of Go's `encoding/hex` (Go 1.12). Go
reads the string byte by byte; here it is read character by character. The
two agree, errors included: a hex digit is one ASCII byte, and no byte of any
other character is a hex digit, so both scans stop at the same character and
report its first byte.

`DecodeString_EncodeToString`: what `EncodeToString` writes reads back.
-/

namespace Hex

/-- `hextable`. -/
def hextable : List Char := "0123456789abcdef".toList

/-- `fromHexChar`. -/
def fromHexChar (c : Char) : Option UInt8 :=
  if '0' ≤ c ∧ c ≤ '9' then some (c.toNat - '0'.toNat).toUInt8
  else if 'a' ≤ c ∧ c ≤ 'f' then some (c.toNat - 'a'.toNat + 10).toUInt8
  else if 'A' ≤ c ∧ c ≤ 'F' then some (c.toNat - 'A'.toNat + 10).toUInt8
  else none

/-- `ErrLength`. -/
def ErrLength : String := "encoding/hex: odd length hex string"

/-- `strconv.IsPrint` of a rune below 256. -/
def isPrintLatin1 (r : Nat) : Bool := (0x20 ≤ r && r ≤ 0x7E) || (0xA1 ≤ r && r ≤ 0xFF && r != 0xAD)

/-- `InvalidByteError(b).Error()`, which formats the byte with `%#U`. -/
def InvalidByteError (b : UInt8) : String :=
  let digits := (Nat.toDigits 16 b.toNat).map Char.toUpper
  "encoding/hex: invalid byte: U+" ++ String.ofList (List.replicate (4 - digits.length) '0' ++ digits) ++
    if isPrintLatin1 b.toNat then " '" ++ (Char.ofNat b.toNat).toString ++ "'" else ""

/-- The byte of a character that Go's scan reads first. -/
def firstByte (c : Char) : UInt8 := (String.utf8EncodeChar c).headD 0

/-- The loop of `Decode` over pairs, and its check of an odd last byte. -/
def decode : List Char → Except String (List UInt8)
  | [] => .ok []
  | [c] =>
    match fromHexChar c with
    | some _ => .error ErrLength
    | none => .error (InvalidByteError (firstByte c))
  | a :: b :: rest =>
    match fromHexChar a, fromHexChar b with
    | none, _ => .error (InvalidByteError (firstByte a))
    | some _, none => .error (InvalidByteError (firstByte b))
    | some x, some y => (((x <<< 4) ||| y) :: ·) <$> decode rest

/-- `DecodeString`. -/
def DecodeString (s : String) : Except String (List UInt8) := decode s.toList

/-- The two digits `Encode` writes for a byte. -/
def encodeByte (v : UInt8) : List Char :=
  [hextable.getD (v >>> 4).toNat '0', hextable.getD (v &&& 0x0f).toNat '0']

/-- `EncodeToString`. -/
def EncodeToString (src : List UInt8) : String := String.ofList (src.flatMap encodeByte)

theorem fromHexChar_hextable : ∀ n < 16, fromHexChar (hextable.getD n '0') = some n.toUInt8 := by
  decide

/-- A byte is its high half shifted back, or its low half. -/
theorem halves_or (v : UInt8) : ((v >>> 4) <<< 4) ||| (v &&& 0x0f) = v := by
  apply UInt8.toNat_inj.mp
  have lt := v.toNat_lt
  have low : v.toNat &&& 15 = v.toNat % 16 := Nat.and_two_pow_sub_one_eq_mod v.toNat 4
  have high : (v.toNat >>> 4 <<< 4) % 256 = (v.toNat / 16) <<< 4 := by
    rw [Nat.shiftRight_eq_div_pow, Nat.shiftLeft_eq]
    omega
  simp only [UInt8.toNat_or, UInt8.toNat_shiftLeft, UInt8.toNat_shiftRight, UInt8.toNat_and]
  simp only [UInt8.reduceToNat, Nat.reduceMod]
  rw [high, low, ← Nat.shiftLeft_add_eq_or_of_lt (by omega : v.toNat % 16 < 2 ^ 4), Nat.shiftLeft_eq]
  omega

theorem decode_encodeByte (v : UInt8) (rest : List Char) :
    decode (encodeByte v ++ rest) = (v :: ·) <$> decode rest := by
  have hi : (v >>> 4).toNat < 16 := by
    rw [UInt8.toNat_shiftRight]
    have := v.toNat_lt
    simp only [UInt8.reduceToNat, Nat.reduceMod, Nat.shiftRight_eq_div_pow]
    omega
  have lo : (v &&& 0x0f).toNat < 16 := by
    rw [UInt8.toNat_and]
    exact Nat.lt_of_le_of_lt Nat.and_le_right (by decide)
  simp only [encodeByte, List.cons_append, List.nil_append, decode, fromHexChar_hextable _ hi,
    fromHexChar_hextable _ lo, UInt8.ofNat_toNat, halves_or]

theorem decode_flatMap_encodeByte (src : List UInt8) : decode (src.flatMap encodeByte) = .ok src := by
  induction src with
  | nil => rfl
  | cons v rest ih => rw [List.flatMap_cons, decode_encodeByte, ih]; rfl

/-- What `EncodeToString` writes, `DecodeString` reads back. -/
@[simp] theorem DecodeString_EncodeToString (src : List UInt8) :
    DecodeString (EncodeToString src) = .ok src := by
  rw [DecodeString, EncodeToString, String.toList_ofList, decode_flatMap_encodeByte]

@[simp] theorem DecodeString_empty : DecodeString "" = .ok [] := rfl

end Hex
