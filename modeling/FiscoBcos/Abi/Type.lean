import FiscoBcos.Lib.BigEndian
import Mathlib

/-!
# ABI types and the Go values they describe

`Type` from `accounts/abi/type.go`, as `NewType` builds it: the type
enumerator `T` with what each kind carries (element type, size, tuple
components and their raw names). The reflection `Kind` of a type and of a Go
value is what `typeCheck` compares. `HashTy` and `FixedPointTy` are never
built by `NewType` and are left out.

A Go value is modelled by its reflection view: an integer of some kind (a
`*big.Int` has kind `ptr`), a bool, a string, a slice or array with the kind
of its element type, or a struct. A byte slice is a slice of `uint8`
integers. Tuple values are the structs `NewType` declares for the tuple,
whose fields are the components in order.
-/

namespace FiscoBcos.Abi

/-- The `reflect.Kind`s that ABI types and their values take. `int` is the
kind of a Go `int`, which lengths and offsets have. -/
inductive Kind where
  | bool | int | int8 | int16 | int32 | int64 | uint8 | uint16 | uint32 | uint64
  | array | ptr | slice | string | struct
deriving DecidableEq, Repr

/-- `Type`. -/
inductive AbiType where
  | int (size : Nat)
  | uint (size : Nat)
  | bool
  | string
  | slice (elem : AbiType)
  | array (size : Nat) (elem : AbiType)
  | tuple (elems : List (String × AbiType))
  | address
  | fixedBytes (size : Nat)
  | bytes
  | function
deriving Repr, Inhabited

/-- `reflectIntKindAndType`: sizes other than 8, 16, 32 and 64 bits are
`*big.Int`. -/
def reflectIntKind (unsigned : Bool) (size : Nat) : Kind :=
  match size with
  | 8 => if unsigned then .uint8 else .int8
  | 16 => if unsigned then .uint16 else .int16
  | 32 => if unsigned then .uint32 else .int32
  | 64 => if unsigned then .uint64 else .int64
  | _ => .ptr

namespace AbiType

/-- `t.Kind`. -/
def kind : AbiType → Kind
  | .int size => reflectIntKind false size
  | .uint size => reflectIntKind true size
  | .bool => .bool
  | .string => .string
  | .slice _ | .bytes => .slice
  | .array _ _ | .address | .fixedBytes _ | .function => .array
  | .tuple _ => .struct

/-- `t.Size`. -/
def size : AbiType → Nat
  | .int size | .uint size | .array size _ | .fixedBytes size => size
  | .address => 20
  | .function => 24
  | _ => 0

/-- `requiresLengthPrefix`. -/
def requiresLengthPrefix : AbiType → Bool
  | .string | .bytes | .slice _ => true
  | _ => false

mutual
/-- `isDynamicType`. -/
def isDynamicType : AbiType → Bool
  | .tuple elems => isDynamicTypes elems
  | .string | .bytes | .slice _ => true
  | .array _ elem => isDynamicType elem
  | _ => false
/-- Whether some tuple component is dynamic. -/
def isDynamicTypes : List (String × AbiType) → Bool
  | [] => false
  | (_, elem) :: elems => isDynamicType elem || isDynamicTypes elems
end

mutual
/-- `getTypeSize`: the bytes a value of the type takes in the head of its
enclosing encoding. A static array counts 32 bytes per element unless its
elements are arrays themselves. -/
def getTypeSize : AbiType → Nat
  | .array size elem =>
    if !elem.isDynamicType then
      match elem with
      | .array _ _ => size * getTypeSize elem
      | _ => size * 32
    else 32
  | .tuple elems => if !isDynamicTypes elems then getTypeSizes elems else 32
  | _ => 32
/-- The sum of `getTypeSize` over tuple components. -/
def getTypeSizes : List (String × AbiType) → Nat
  | [] => 0
  | (_, elem) :: elems => getTypeSize elem + getTypeSizes elems
end

end AbiType

/-- A Go value, as reflection sees it. -/
inductive Value where
  | int (kind : Kind) (n : Int)
  | bool (b : Bool)
  | string (s : List UInt8)
  | seq (kind : Kind) (elemKind : Kind) (vs : List Value)
  | struct (fields : List Value)
deriving Repr, Inhabited

namespace Value

/-- `v.Kind()`. -/
def kind : Value → Kind
  | .int kind _ => kind
  | .bool _ => .bool
  | .string _ => .string
  | .seq kind _ _ => kind
  | .struct _ => .struct

/-- `v.Bytes()` of a byte slice or byte array. -/
def bytes? : Value → Option (List UInt8)
  | .seq _ .uint8 vs => vs.mapM fun
    | .int .uint8 n => some n.toNat.toUInt8
    | _ => none
  | _ => none

/-- A byte slice (`kind = slice`) or byte array (`kind = array`). -/
def ofBytes (kind : Kind) (b : List UInt8) : Value :=
  .seq kind .uint8 (b.map fun x => .int .uint8 x.toNat)

@[simp] theorem kind_ofBytes (kind : Kind) (b : List UInt8) : (ofBytes kind b).kind = kind := rfl

@[simp] theorem bytes?_ofBytes (kind : Kind) (b : List UInt8) : (ofBytes kind b).bytes? = some b := by
  unfold bytes? ofBytes
  induction b with
  | nil => rfl
  | cons x xs ih =>
    simp only [List.map_cons, List.mapM_cons] at ih ⊢
    rw [ih]
    simp

end Value

/-- The errors of packing and unpacking. Errors built with `fmt.Errorf`
carry their text; a panic carries its message. -/
inductive AbiError where
  /-- `typeErr`: "abi: cannot use ... as type `expected` as argument"; the
  text also names the Go type of the value, which is left out. -/
  | typeErr (expected : String)
  | msg (text : String)
  | panic (msg : String)
deriving DecidableEq, Repr

/-- `Argument`. -/
structure Argument where
  name : String
  type : AbiType
  indexed : Bool
deriving Repr

end FiscoBcos.Abi
