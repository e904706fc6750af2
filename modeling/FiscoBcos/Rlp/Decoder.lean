import FiscoBcos.Rlp.Stream
import Mathlib

/-!
# The typed RLP decoders

`makeDecoder` in `rlp/decode.go` picks one decoder per Go type, and
`DecodeBytes` runs the decoder of the target type on a stream over the input.
`decodeValue` is that dispatch. Every decoder here decodes into a fresh
target, as `DecodeBytes(b, &y)` does for a fresh `y`: pointers are nil and
slices empty before decoding, so a decoder's result depends on the input only.
A field tagged `rlp:"-"` keeps its zero value.

The element loops of `decodeSliceElems` and the recursion of
`decodeInterface` end when the input does. The model gives them fuel: the loop
of a list runs at most once per remaining input byte and once more for the
closing `EOL`, and `decodeInterface` nests no deeper than the input is long.
-/

namespace FiscoBcos.Rlp

/-- `wrapStreamError`: stream errors that concern the target type become a
`*decodeError` with the source's message. -/
def wrapStreamError : Error → Error
  | .errCanonInt => .decodeError "non-canonical integer (leading zero bytes)"
  | .errCanonSize => .decodeError "non-canonical size information"
  | .errExpectedList => .decodeError "expected input list"
  | .errExpectedString => .decodeError "expected input string or byte"
  | .errUintOverflow => .decodeError "input string too long"
  | .errNotAtEOL => .decodeError "input list has too many elements"
  | e => e

/-- A decoder: the value read and the stream after it. -/
abbrev Dec (α : Type) := Stream → Except Error α × Stream

section Loops

variable {α : Type}

/-- `decodeSliceElems`: decode elements until the list reports `EOL`. -/
def decodeSliceElems (elemdec : Dec α) : Nat → Dec (List α)
  | 0, s => (.error .fuelExhausted, s)
  | rounds + 1, s => match elemdec s with
    | (.error .eol, s) => (.ok [], s)
    | (.error e, s) => (.error e, s)
    | (.ok v, s) => match decodeSliceElems elemdec rounds s with
      | (.error e, s) => (.error e, s)
      | (.ok vs, s) => (.ok (v :: vs), s)

/-- `decodeListSlice`: a list of elements; `ListEnd` checks that none is left
over. -/
def decodeListSlice (elemdec : Dec α) (s : Stream) : Except Error (List α) × Stream :=
  match s.List with
  | (.error e, s) => (.error (wrapStreamError e), s)
  | (.ok 0, s) => match s.ListEnd with
    | (some e, s) => (.error e, s)
    | (none, s) => (.ok [], s)
  | (.ok _, s) => match decodeSliceElems elemdec (s.r.length + 1) s with
    | (.error e, s) => (.error e, s)
    | (.ok vs, s) => match s.ListEnd with
      | (some e, s) => (.error e, s)
      | (none, s) => (.ok vs, s)

/-- The element loop of `decodeListArray`: at most `vlen` elements, fewer if
the list ends first. -/
def decodeArrayElems (elemdec : Dec α) : Nat → Dec (List α)
  | 0, s => (.ok [], s)
  | vlen + 1, s => match elemdec s with
    | (.error .eol, s) => (.ok [], s)
    | (.error e, s) => (.error e, s)
    | (.ok v, s) => match decodeArrayElems elemdec vlen s with
      | (.error e, s) => (.error e, s)
      | (.ok vs, s) => (.ok (v :: vs), s)

/-- `decodeListArray`: a list of exactly `vlen` elements. -/
def decodeListArray (vlen : Nat) (elemdec : Dec α) (s : Stream) :
    Except Error (List α) × Stream :=
  match s.List with
  | (.error e, s) => (.error (wrapStreamError e), s)
  | (.ok _, s) => match decodeArrayElems elemdec vlen s with
    | (.error e, s) => (.error e, s)
    | (.ok vs, s) =>
      if vs.length < vlen then (.error (.decodeError "input list has too few elements"), s)
      else match s.ListEnd with
        | (some e, s) => (.error (wrapStreamError e), s)
        | (none, s) => (.ok vs, s)

end Loops

/-! ## Decoders of the leaf types -/

/-- `decodeUint` for a type of `bits` bits. -/
def decodeUint (bits : Nat) : Dec GoValue := fun s =>
  match s.uint bits with
  | (.error e, s) => (.error (wrapStreamError e), s)
  | (.ok n, s) => (.ok (.uint n), s)

/-- `decodeBool`. -/
def decodeBool : Dec GoValue := fun s =>
  match s.Bool with
  | (.error e, s) => (.error (wrapStreamError e), s)
  | (.ok b, s) => (.ok (.bool b), s)

/-- `decodeString`. -/
def decodeString : Dec GoValue := fun s =>
  match s.Bytes with
  | (.error e, s) => (.error (wrapStreamError e), s)
  | (.ok b, s) => (.ok (.string b), s)

/-- `decodeBigInt`: the contents of a string, without leading zero bytes. -/
def decodeBigInt : Dec Int := fun s =>
  match s.Bytes with
  | (.error e, s) => (.error (wrapStreamError e), s)
  | (.ok b, s) =>
    if b.head? = some 0 then (.error (wrapStreamError .errCanonInt), s)
    else (.ok (BigEndian.value b), s)

/-- `decodeByteSlice`. -/
def decodeByteSlice : Dec GoValue := fun s =>
  match s.Bytes with
  | (.error e, s) => (.error (wrapStreamError e), s)
  | (.ok b, s) => (.ok (.bytes b), s)

/-- `decodeByteArray` for a `[vlen]byte`. A single byte goes through
`s.Uint()`, whose error is ignored: on a zero byte `Uint` fails with
`ErrCanonInt` before re-arming `Kind`, and the array gets the zero that
`Uint` returns with it. -/
def decodeByteArray (vlen : Nat) : Dec GoValue := fun s =>
  match s.Kind with
  | ((_, _, some e), s) => (.error e, s)
  | ((.byte, _, none), s) =>
    if vlen = 0 then (.error (.decodeError "input string too long"), s)
    else if vlen > 1 then (.error (.decodeError "input string too short"), s)
    else
      let (bv, s) := s.Uint
      (.ok (.bytes [(bv.toOption.getD 0).toUInt8]), s)
  | ((.string, size, none), s) =>
    if vlen < size then (.error (.decodeError "input string too long"), s)
    else if vlen > size then (.error (.decodeError "input string too short"), s)
    else match s.readFull vlen with
      | (.error e, s) => (.error e, s)
      | (.ok b, s) =>
        if size = 1 ∧ b.head?.getD 0 < 128 then (.error (wrapStreamError .errCanonSize), s)
        else (.ok (.bytes b), s)
  | ((.list, _, none), s) => (.error (wrapStreamError .errExpectedString), s)

/-! ## Interface values -/

/-- `decodeInterface`: a list becomes an `[]interface{}` of its elements, a
string a `[]byte`. -/
def decodeInterface : Nat → Dec GoValue
  | 0, s => (.error .fuelExhausted, s)
  | depth + 1, s => match s.Kind with
    | ((_, _, some e), s) => (.error e, s)
    | ((.list, _, none), s) => match decodeListSlice (decodeInterface depth) s with
      | (.error e, s) => (.error e, s)
      | (.ok vs, s) => (.ok (.iface (some (ifsliceType, .slice vs))), s)
    | ((_, _, none), s) => match s.Bytes with
      | (.error e, s) => (.error e, s)
      | (.ok b, s) => (.ok (.iface (some (bytesType, .bytes b))), s)

/-! ## The dispatch -/

/-- The pointer decoders run the element decoder into a new value. -/
def decodePtr (elemdec : Dec GoValue) : Dec GoValue := fun s =>
  match elemdec s with
  | (.error e, s) => (.error e, s)
  | (.ok v, s) => (.ok (.ptr (some v)), s)

/-- `makeOptionalPtrDecoder`: an empty string or list, or an error of `Kind`,
leaves the pointer nil and skips the value. -/
def decodeOptionalPtr (elemdec : Dec GoValue) : Dec GoValue := fun s =>
  match s.Kind with
  | ((_, _, some e), s) => (.error e, { s with kind := none })
  | ((kind, size, none), s) =>
    if size = 0 ∧ kind ≠ .byte then (.ok (.ptr none), { s with kind := none })
    else decodePtr elemdec s

mutual
/-- The decoder `makeDecoder(ty, ts)`. -/
def decodeValue : GoType → Tags → Dec GoValue
  | .uint bits, _, s => decodeUint bits s
  | .bool, _, s => decodeBool s
  | .string, _, s => decodeString s
  | .bigInt, _, s => match decodeBigInt s with
    | (.error e, s) => (.error e, s)
    | (.ok i, s) => (.ok (.bigInt i), s)
  -- `*big.Int` is matched before the pointer decoders, tags or not
  | .ptr .bigInt, _, s => match decodeBigInt s with
    | (.error e, s) => (.error e, s)
    | (.ok i, s) => (.ok (.ptr (some (.bigInt i))), s)
  | .ptr elem, ts, s =>
    if ts.nilOK then decodeOptionalPtr (decodeValue elem Tags.none) s
    else decodePtr (decodeValue elem Tags.none) s
  | .slice elem, ts, s =>
    if elem.isByte then decodeByteSlice s
    else if ts.tail then
      -- the struct decoder has entered the list already
      match decodeSliceElems (decodeValue elem Tags.none) (s.r.length + 1) s with
      | (.error e, s) => (.error e, s)
      | (.ok vs, s) => (.ok (.slice vs), s)
    else match decodeListSlice (decodeValue elem Tags.none) s with
      | (.error e, s) => (.error e, s)
      | (.ok vs, s) => (.ok (.slice vs), s)
  | .array vlen elem, _, s =>
    if elem.isByte then decodeByteArray vlen s
    else match decodeListArray vlen (decodeValue elem Tags.none) s with
      | (.error e, s) => (.error e, s)
      | (.ok vs, s) => (.ok (.slice vs), s)
  | .struct fields, _, s => match structFields fields with
    | .error e => (.error e, s)
    | .ok _ => match s.List with
      | (.error e, s) => (.error (wrapStreamError e), s)
      | (.ok _, s) => match decodeFields fields s with
        | (.error e, s) => (.error e, s)
        | (.ok vs, s) => match s.ListEnd with
          | (some e, s) => (.error (wrapStreamError e), s)
          | (none, s) => (.ok (.struct vs), s)
  | .iface, _, s => decodeInterface (s.r.length + 1) s
/-- The field loop of `makeStructDecoder`. -/
def decodeFields : List (GoType × Tags) → Dec (List GoValue)
  | [], s => (.ok [], s)
  | (ty, ts) :: fields, s =>
    let field : Except Error GoValue × Stream :=
      if ts.ignored then (.ok ty.zero, s)
      else match decodeValue ty ts s with
        | (.error .eol, s) => (.error (.decodeError "too few elements"), s)
        | result => result
    match field with
    | (.error e, s) => (.error e, s)
    | (.ok v, s) => match decodeFields fields s with
      | (.error e, s) => (.error e, s)
      | (.ok vs, s) => (.ok (v :: vs), s)
end

/-- `Stream.Decode(&y)` for `y` of type `ty`: the decoder of the type on the
stream. -/
protected def Stream.Decode (s : Stream) (ty : GoType) : Except Error GoValue × Stream :=
  decodeValue ty Tags.none s

/-- `DecodeBytes(b, &y)` for `y` of type `ty`: exactly one value, and no
input left after it. -/
def decodeBytes (ty : GoType) (b : List UInt8) : Except Error GoValue :=
  match decodeValue ty Tags.none (Stream.reset b b.length) with
  | (.error e, _) => .error e
  | (.ok v, s) => if s.r.length > 0 then .error .errMoreThanOneValue else .ok v

end FiscoBcos.Rlp
