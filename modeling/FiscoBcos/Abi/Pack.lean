import FiscoBcos.Abi.Type
import Mathlib

/-!
# Packing arguments

`Arguments.Pack` of `accounts/abi/argument.go` and what it calls:
`typeCheck` and `sliceTypeCheck` (`error.go`), `Type.pack` (`type.go`),
`packElement`, `packNum` and `packBytesSlice` (`pack.go`), with the padding
helpers of `common` and `common/math`.

Slices, arrays, tuples and argument lists are all laid out the same way:
static components in place, dynamic ones as a 32-byte offset in the head and
their encoding in the tail. The loops return the head and the tail
separately, as the source accumulates them. A tuple's components and the
arguments share one loop, `packFields`, which is the loop of both
`Type.pack` for tuples and `Arguments.Pack`.
-/

namespace FiscoBcos.Abi

/-- `reflect.Kind.String`. -/
def Kind.name : Kind → String
  | .bool => "bool" | .int => "int" | .int8 => "int8" | .int16 => "int16"
  | .int32 => "int32" | .int64 => "int64" | .uint8 => "uint8" | .uint16 => "uint16"
  | .uint32 => "uint32" | .uint64 => "uint64" | .array => "array" | .ptr => "ptr"
  | .slice => "slice" | .string => "string" | .struct => "struct"

/-- `math.PaddedBigBytes`: the big-endian bytes of `x`, left-padded to `n`
bytes unless they are that long already. -/
def paddedBigBytes (x n : Nat) : List UInt8 :=
  if BigInt.bitLen x / 8 ≥ n then BigEndian.bytes x else BigEndian.leftPad n (BigEndian.bytes x)

/-- `U256`: `math.U256` reduces the number modulo `2^256`, in two's
complement for a negative one, and the word is padded to 32 bytes. -/
def u256 (n : Int) : List UInt8 := paddedBigBytes (n % 2 ^ 256).toNat 32

/-- `common.RightPadBytes`. -/
def rightPadBytes (slice : List UInt8) (l : Nat) : List UInt8 :=
  if l ≤ slice.length then slice else slice ++ List.replicate (l - slice.length) 0

/-- `common.LeftPadBytes`. -/
def leftPadBytes (slice : List UInt8) (l : Nat) : List UInt8 :=
  if l ≤ slice.length then slice else List.replicate (l - slice.length) 0 ++ slice

/-- `packNum`: an integer of any kind, or a `*big.Int`, as a 256-bit word.
Lengths and offsets, of kind `int`, are packed by `u256` directly. -/
def packNum : Value → Except AbiError (List UInt8)
  | .int _ n => .ok (u256 n)
  | _ => .error (.panic "abi: fatal error")

/-- `packBytesSlice`: the length, then the bytes right-padded to a multiple
of 32. -/
def packBytesSlice (bytes : List UInt8) (l : Nat) : List UInt8 :=
  u256 l ++ rightPadBytes bytes ((l + 31) / 32 * 32)

/-- The bytes of a byte slice or array; `Bytes` panics on anything else. -/
def bytesOf (v : Value) : Except AbiError (List UInt8) :=
  match v.bytes? with
  | some b => .ok b
  | none => .error (.panic "reflect: call of reflect.Value.Bytes on non-byte value")

/-- `packElement`: the elementary types. -/
def packElement (t : AbiType) (v : Value) : Except AbiError (List UInt8) :=
  match t, v with
  | .int _, v | .uint _, v => packNum v
  | .string, .string s => .ok (packBytesSlice s s.length)
  | .address, v => (bytesOf v).map (leftPadBytes · 32)
  | .bool, .bool b => .ok (paddedBigBytes (if b then 1 else 0) 32)
  | .bytes, v => (bytesOf v).map fun b => packBytesSlice b b.length
  | .fixedBytes _, v | .function, v => (bytesOf v).map (rightPadBytes · 32)
  | _, _ => .error (.panic "abi: fatal error")

/-- `formatSliceString`: a slice size of `-1` is a slice, any other an
array. -/
def formatSliceString (kind : Kind) (sliceSize : Int) : String :=
  if sliceSize = -1 then "[]" ++ kind.name else "[" ++ toString sliceSize ++ "]" ++ kind.name

/-- The element type of a slice or array type. -/
def AbiType.elem? : AbiType → Option AbiType
  | .slice elem | .array _ elem => some elem
  | _ => none

/-- `sliceTypeCheck`. The element of a slice of slices or arrays is checked
on the first element of the value: for a slice of arrays, also when there is
none, where `val.Index(0)` panics. -/
def sliceTypeCheck : AbiType → Value → Except AbiError Unit
  | t, .seq kind elemKind vs =>
    let elem := t.elem?.getD default
    let wrongLength : Bool := match t with
      | .array size _ => vs.length != size
      | _ => false
    if wrongLength then
      .error (.typeErr (formatSliceString elem.kind t.size))
    else
      let checkKind : Except AbiError Unit :=
        if elemKind ≠ elem.kind then .error (.typeErr (formatSliceString elem.kind t.size))
        else .ok ()
      match t with
      | .slice (.slice inner) | .array _ (.slice inner) => match vs with
        | v :: _ => sliceTypeCheck (.slice inner) v
        | [] => checkKind
      | .slice (.array n inner) | .array _ (.array n inner) => match vs with
        | v :: _ => sliceTypeCheck (.array n inner) v
        | [] =>
          .error (.panic (if kind = .array then "reflect: array index out of range"
            else "reflect: slice index out of range"))
      | _ => checkKind
  | t, _ => .error (.typeErr (formatSliceString t.kind t.size))

/-- The length `Len` reports: of a string, a slice or an array. -/
def Value.len : Value → Nat
  | .string s => s.length
  | .seq _ _ vs => vs.length
  | _ => 0

/-- `typeCheck`. -/
def typeCheck (t : AbiType) (v : Value) : Except AbiError Unit :=
  match t with
  | .slice _ | .array _ _ => sliceTypeCheck t v
  | _ =>
    if t.kind ≠ v.kind then .error (.typeErr t.kind.name)
    else match t with
      | .fixedBytes size =>
        if size ≠ v.len then .error (.typeErr ("[" ++ toString size ++ "]uint8")) else .ok ()
      | _ => .ok ()

mutual
/-- `Type.pack`. -/
def AbiType.pack (t : AbiType) (v : Value) : Except AbiError (List UInt8) :=
  match typeCheck t v with
  | .error e => .error e
  | .ok () => match t, v with
    | .slice elem, .seq _ _ vs =>
      let offset := if elem.isDynamicType then elem.getTypeSize * vs.length else 0
      (packElems elem elem.isDynamicType vs offset).map fun (ret, tail) =>
        u256 vs.length ++ ret ++ tail
    | .array _ elem, .seq _ _ vs =>
      let offset := if elem.isDynamicType then elem.getTypeSize * vs.length else 0
      (packElems elem elem.isDynamicType vs offset).map fun (ret, tail) => ret ++ tail
    | .tuple elems, .struct fields =>
      (packFields elems fields (AbiType.getTypeSizes elems)).map fun (ret, tail) => ret ++ tail
    | t, v => packElement t v
/-- The element loop of `Type.pack`: the head words and the tail. -/
def packElems (elem : AbiType) (offsetReq : Bool) :
    List Value → Nat → Except AbiError (List UInt8 × List UInt8)
  | [], _ => .ok ([], [])
  | v :: vs, offset => match elem.pack v with
    | .error e => .error e
    | .ok val =>
      if !offsetReq then (packElems elem offsetReq vs offset).map fun (ret, tail) => (val ++ ret, tail)
      else (packElems elem offsetReq vs (offset + val.length)).map fun (ret, tail) =>
        (u256 offset ++ ret, val ++ tail)
/-- The component loop of `Type.pack` for tuples and of `Arguments.Pack`:
the head and the tail, with offsets counted from `offset`. -/
def packFields : List (String × AbiType) → List Value → Nat →
    Except AbiError (List UInt8 × List UInt8)
  | [], _, _ => .ok ([], [])
  | (name, _) :: _, [], _ => .error (.msg ("field " ++ name ++ " for tuple not found in the given struct"))
  | (_, elem) :: elems, field :: fields, offset => match elem.pack field with
    | .error e => .error e
    | .ok val =>
      if elem.isDynamicType then
        (packFields elems fields (offset + val.length)).map fun (ret, tail) =>
          (u256 offset ++ ret, val ++ tail)
      else (packFields elems fields offset).map fun (ret, tail) => (val ++ ret, tail)
end

/-- `Arguments.Pack`: every argument, indexed or not, with dynamic values
placed after the head, whose size `getTypeSize` gives. -/
def Arguments.pack (args : List Argument) (values : List Value) : Except AbiError (List UInt8) :=
  if values.length ≠ args.length then
    .error (.msg ("argument count mismatch: " ++ toString values.length ++ " for " ++
      toString args.length))
  else
    let fields := args.map fun a => (a.name, a.type)
    (packFields fields values (AbiType.getTypeSizes fields)).map fun (ret, variableInput) =>
      ret ++ variableInput

/-! ## Words -/

/-- `PaddedBigBytes` is the left-padded numeral: a number of at least `8 n`
bits has `n` bytes already. -/
theorem paddedBigBytes_eq (x n : Nat) :
    paddedBigBytes x n = BigEndian.leftPad n (BigEndian.bytes x) := by
  unfold paddedBigBytes
  split_ifs with wide
  · have long : n ≤ (BigEndian.bytes x).length := by
      by_contra short
      have lt : x < 2 ^ (8 * (n - 1)) := by
        have := BigEndian.length_bytes_le_iff.mp (show (BigEndian.bytes x).length ≤ n - 1 by omega)
        rwa [show (256 : Nat) = 2 ^ 8 from rfl, ← pow_mul] at this
      have := BigInt.bitLen_le_iff.mpr (show (x : Int).natAbs < 2 ^ (8 * (n - 1)) by simpa using lt)
      omega
    rw [BigEndian.leftPad, Nat.sub_eq_zero_of_le long, List.replicate_zero, List.nil_append]
  · rfl

/-- The word of a number in range is its numeral, left-padded to 32 bytes. -/
theorem u256_of_lt {n : Int} (nonneg : 0 ≤ n) (lt : n < 2 ^ 256) :
    u256 n = BigEndian.leftPad 32 (BigEndian.bytes n.toNat) := by
  rw [u256, paddedBigBytes_eq, Int.emod_eq_of_lt nonneg lt]

end FiscoBcos.Abi
