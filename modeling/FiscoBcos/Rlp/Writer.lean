import FiscoBcos.Rlp.Encbuf
import FiscoBcos.Rlp.Reflect
import Mathlib

/-!
# The typed RLP writers

`makeWriter` in `rlp/encode.go` picks one writer per Go type. `writeValue`
is that dispatch, applied to a value: the leaf writers append string data,
slices, arrays and structs open a list header around their elements (unless a
slice carries the `tail` tag), pointers write their pointee, and interfaces
write their dynamic value. A nil pointer is written by `nilfunc`, which for
most element types writes the element type's zero value: `writeZero` is the
writer run on a zero value, by recursion on the type.

A value whose shape does not match its type cannot occur in Go, where
reflection keeps them together; the model reports it as `notSerializable`.
-/

namespace FiscoBcos.Rlp

namespace Encbuf

/-- Append raw string data. -/
def append (w : Encbuf) (b : List UInt8) : Encbuf := { w with str := w.str ++ b }

/-- `writeUint`: zero is the empty string, values below 128 are a single
byte, larger ones a short string of their `putint` bytes. -/
def writeUint (w : Encbuf) (i : UInt64) : Encbuf :=
  if i = 0 then w.append [0x80]
  else if i < 128 then w.append [i.toUInt8]
  else
    let s := putint i
    w.append ((0x80 + s.length.toUInt8) :: s)

/-- `writeBool`. -/
def writeBool (w : Encbuf) (b : Bool) : Encbuf :=
  if b then w.append [0x01] else w.append [0x80]

/-- `writeBigInt`: negative numbers are refused, zero is the empty string,
others the string of `i.Bytes()`. -/
def writeBigInt (w : Encbuf) (i : Int) : Except Error Encbuf :=
  if i < 0 then .error .negativeBigInt
  else if i = 0 then .ok (w.append [0x80])
  else .ok (w.encodeString (BigEndian.bytes i.toNat))

/-- `writeString`: the source repeats the body of `encodeString` for the
bytes of a Go string. -/
def writeString (w : Encbuf) (s : List UInt8) : Encbuf := w.encodeString s

end Encbuf

/-- Whether a type is a slice, as the `tail` tag requires. -/
def GoType.isSlice : GoType → Bool
  | .slice _ => true
  | _ => false

/-- A writer run `n` times, as the array writer runs the element writer on
each of `n` zero elements. -/
def writeTimes (write : Encbuf → Except Error Encbuf) : Nat → Encbuf → Except Error Encbuf
  | 0, w => .ok w
  | n + 1, w => match write w with
    | .error e => .error e
    | .ok w => writeTimes write n w

mutual
/-- The writer of `ty` applied to the zero value of `ty`. The zero value of
a pointer is nil. -/
def writeZero : GoType → Tags → Encbuf → Except Error Encbuf
  | .uint _, _, w => .ok (w.writeUint 0)
  | .bool, _, w => .ok (w.writeBool false)
  | .string, _, w => .ok (w.writeString [])
  | .bigInt, _, w => w.writeBigInt 0
  | .ptr elem, _, w => match elem with
    -- `nilfunc` of `makePtrWriter`
    | .array _ (.uint 8) => .ok (w.append [0x80])
    | .struct _ | .array _ _ =>
      -- the zero value of a struct or array could recurse forever
      let (w, lh) := w.list
      .ok (w.listEnd lh)
    -- `writeBigIntPtr` writes a nil `*big.Int` as the empty string
    | .bigInt => .ok (w.append [0x80])
    | elem => writeZero elem Tags.none w
  | .slice elem, ts, w =>
    if elem.isByte then .ok (w.encodeString [])
    else if ts.tail then .ok w
    else
      let (w, lh) := w.list
      .ok (w.listEnd lh)
  | .array n elem, _, w =>
    if elem.isByte then .ok (w.encodeString (List.replicate n 0))
    else
      let (w, lh) := w.list
      (writeTimes (writeZero elem Tags.none) n w).map (·.listEnd lh)
  | .struct fields, _, w => match structFields fields with
    | .error e => .error e
    | .ok _ =>
      let (w, lh) := w.list
      (writeZeroFields fields w).map (·.listEnd lh)
  | .iface, _, w => .ok (w.append [0xC0])
/-- The zero fields of a struct. -/
def writeZeroFields : List (GoType × Tags) → Encbuf → Except Error Encbuf
  | [], w => .ok w
  | (ty, ts) :: fields, w =>
    if ts.ignored then writeZeroFields fields w
    else match writeZero ty ts w with
      | .error e => .error e
      | .ok w => writeZeroFields fields w
end

/-- `nilfunc` of `makePtrWriter`: how a nil pointer to `elem` is written,
which is the writer of the pointer type applied to its zero value. -/
def writeNil (elem : GoType) (w : Encbuf) : Except Error Encbuf := writeZero (.ptr elem) Tags.none w

mutual
/-- The writer `makeWriter(ty, ts)` applied to `v`. -/
def writeValue (ty : GoType) (ts : Tags) : GoValue → Encbuf → Except Error Encbuf
  | .uint i, w => match ty with
    | .uint _ => .ok (w.writeUint i)
    | _ => .error .notSerializable
  | .bool b, w => match ty with
    | .bool => .ok (w.writeBool b)
    | _ => .error .notSerializable
  | .string s, w => match ty with
    | .string => .ok (w.writeString s)
    | _ => .error .notSerializable
  | .bigInt i, w => match ty with
    | .bigInt => w.writeBigInt i
    | _ => .error .notSerializable
  | .bytes b, w => match ty with
    -- `writeBytes` and `writeByteArray`
    | .slice elem => if elem.isByte then .ok (w.encodeString b) else .error .notSerializable
    | .array _ elem => if elem.isByte then .ok (w.encodeString b) else .error .notSerializable
    | _ => .error .notSerializable
  | .ptr none, w => match ty with
    | .ptr elem => writeNil elem w
    | _ => .error .notSerializable
  | .ptr (some v), w => match ty with
    -- `writeBigIntPtr` comes before the generic pointer writer
    | .ptr .bigInt => match v with
      | .bigInt i => w.writeBigInt i
      | _ => .error .notSerializable
    | .ptr elem => writeValue elem Tags.none v w
    | _ => .error .notSerializable
  | .slice vs, w => match ty with
    | .slice elem =>
      if ts.tail then writeElems elem vs w
      else
        let (w, lh) := w.list
        (writeElems elem vs w).map (·.listEnd lh)
    | .array _ elem =>
      let (w, lh) := w.list
      (writeElems elem vs w).map (·.listEnd lh)
    | _ => .error .notSerializable
  | .struct vs, w => match ty with
    | .struct fields => match structFields fields with
      | .error e => .error e
      | .ok _ =>
        let (w, lh) := w.list
        (writeFields fields vs w).map (·.listEnd lh)
    | _ => .error .notSerializable
  | .iface none, w => match ty with
    -- `writeInterface` writes a nil interface as an empty list
    | .iface => .ok (w.append [0xC0])
    | _ => .error .notSerializable
  | .iface (some (dyn, v)), w => match ty with
    | .iface => writeValue dyn Tags.none v w
    | _ => .error .notSerializable
/-- The element loop of `makeSliceWriter`. -/
def writeElems (elem : GoType) : List GoValue → Encbuf → Except Error Encbuf
  | [], w => .ok w
  | v :: vs, w => match writeValue elem Tags.none v w with
    | .error e => .error e
    | .ok w => writeElems elem vs w
/-- The field loop of `makeStructWriter`, skipping fields tagged `rlp:"-"`. -/
def writeFields : List (GoType × Tags) → List GoValue → Encbuf → Except Error Encbuf
  | (ty, ts) :: fields, v :: vs, w =>
    if ts.ignored then writeFields fields vs w
    else match writeValue ty ts v w with
      | .error e => .error e
      | .ok w => writeFields fields vs w
  | _, _, w => .ok w
end

/-- `EncodeToBytes(val)`, for `val` of dynamic type `ty` holding `v`. -/
def encodeToBytes (ty : GoType) (v : GoValue) : Except Error (List UInt8) :=
  (writeValue ty Tags.none v Encbuf.empty).map Encbuf.toBytes

end FiscoBcos.Rlp
