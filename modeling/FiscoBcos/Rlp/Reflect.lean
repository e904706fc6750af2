import FiscoBcos.Rlp.Item
import Mathlib

/-!
# The reflection view of Go values

The rlp package chooses a writer and a decoder for each Go type by
reflection (`makeWriter`, `makeDecoder`). This module fixes the Go types that
choice distinguishes, the struct tags it reads, the values those types hold,
and the errors the package returns.

Only exported struct fields appear in a `GoType.struct`: `structFields`
skips the others, so they take no part in encoding or decoding. A byte slice
or byte array holds a `GoValue.bytes`; every other slice or array holds a
`GoValue.slice`.
-/

namespace FiscoBcos.Rlp

/-- The struct tags `rlp:"nil"`, `rlp:"tail"` and `rlp:"-"`. -/
structure Tags where
  nilOK : Bool
  tail : Bool
  ignored : Bool
deriving DecidableEq, Repr

/-- A field, slice element or pointee without tags. -/
def Tags.none : Tags := ⟨false, false, false⟩

/-- The Go types the rlp package serialises. `uint` covers `uint`,
`uint8`, ..., `uint64` and `uintptr` by their bit width; `*big.Int` is
`ptr bigInt`. -/
inductive GoType where
  | uint (bits : Nat)
  | bool
  | string
  | bigInt
  | ptr (elem : GoType)
  | slice (elem : GoType)
  | array (len : Nat) (elem : GoType)
  | struct (fields : List (GoType × Tags))
  | iface
deriving Repr, Inhabited

/-- `isByte`: the element kind of a byte slice or byte array. -/
def GoType.isByte : GoType → Bool
  | .uint 8 => true
  | _ => false

/-- A Go value as reflection sees it. A nil pointer is `ptr none` and a nil
interface `iface none`; a non-nil interface carries its dynamic type. -/
inductive GoValue where
  | uint (n : UInt64)
  | bool (b : Bool)
  | string (s : List UInt8)
  | bigInt (i : Int)
  | bytes (b : List UInt8)
  | ptr (v : Option GoValue)
  | slice (vs : List GoValue)
  | struct (fields : List GoValue)
  | iface (v : Option (GoType × GoValue))
deriving Repr, Inhabited

/-- Errors of the rlp package, under the source's names. `decodeError`
stands for the `*decodeError` values with their message (the target type and
the field path they also carry only decorate the message). `fuelExhausted`
is the model's own: its decoding loops run on fuel. -/
inductive Error where
  | eol
  | errExpectedString
  | errExpectedList
  | errCanonInt
  | errCanonSize
  | errElemTooLarge
  | errValueTooLarge
  | errMoreThanOneValue
  | errNotInList
  | errNotAtEOL
  | errUintOverflow
  | ioEOF
  | ioErrUnexpectedEOF
  | decodeError (msg : String)
  | invalidBool (num : UInt64)
  | negativeBigInt
  | invalidTailTag
  | notSerializable
  | fuelExhausted
deriving DecidableEq, Repr

/-- `structFields`: the fields that are not tagged `rlp:"-"`, with their
positions. A `tail` tag must sit on the last field and on a slice. -/
def structFields (fields : List (GoType × Tags)) : Except Error (List (Nat × GoType × Tags)) :=
  let indexed := (List.range fields.length).zip fields
  if indexed.any fun (i, ty, ts) =>
      ts.tail && (i + 1 != fields.length || !(match ty with | .slice _ => true | _ => false))
  then .error .invalidTailTag
  else .ok (indexed.filter fun (_, _, ts) => !ts.ignored)

mutual
/-- The zero value of a type, which a fresh decoding target holds. -/
def GoType.zero : GoType → GoValue
  | .uint _ => .uint 0
  | .bool => .bool false
  | .string => .string []
  | .bigInt => .bigInt 0
  | .ptr _ => .ptr none
  | .slice elem => if elem.isByte then .bytes [] else .slice []
  | .array n elem => if elem.isByte then .bytes (List.replicate n 0) else .slice (GoType.zeros n elem)
  | .struct fields => .struct (GoType.zeroFields fields)
  | .iface => .iface none
/-- `n` zero elements. -/
def GoType.zeros : Nat → GoType → List GoValue
  | 0, _ => []
  | n + 1, elem => elem.zero :: GoType.zeros n elem
/-- The zero values of a struct's fields. -/
def GoType.zeroFields : List (GoType × Tags) → List GoValue
  | [] => []
  | (ty, _) :: fields => ty.zero :: GoType.zeroFields fields
end

/-! ## RLP items as interface values -/

/-- The type `[]byte`. -/
def bytesType : GoType := .slice (.uint 8)

/-- The type `[]interface{}`. -/
def ifsliceType : GoType := .slice .iface

/-- The dynamic type of the interface value that stands for an item. -/
def Item.goType : Item → GoType
  | .bytes _ => bytesType
  | .list _ => ifsliceType

mutual
/-- The dynamic value that stands for an item: a `[]byte` for a string and an
`[]interface{}` for a list, as `decodeInterface` builds them. -/
def Item.goValue : Item → GoValue
  | .bytes b => .bytes b
  | .list items => .slice (Item.ifaces items)
/-- The elements of the `[]interface{}` that stands for a list. -/
def Item.ifaces : List Item → List GoValue
  | [] => []
  | item :: items => .iface (some (item.goType, item.goValue)) :: Item.ifaces items
end

end FiscoBcos.Rlp
