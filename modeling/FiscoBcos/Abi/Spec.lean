import FiscoBcos.Abi.Unpack
import Mathlib

/-!
# The contract ABI encoding

The encoding `enc` of the Solidity contract ABI specification, over the
model's types and values, as the specification of `Arguments.Pack`: an
argument list is encoded as the tuple of its arguments. Elementary values
are 32-byte words (`bytes`, `string` and their length), fixed-size arrays
and tuples are head/tail layouts of their components, and a dynamic array is
its length followed by the layout of its elements. Which types are dynamic
is `isDynamicType`, which follows the specification's definition.

The head of a layout holds each static component in place, so a static
component takes `headSize` bytes there. `Pack` and `UnpackValues` use
`getTypeSize` instead, which counts 32 bytes per element of a static array
of static tuples.
-/

/-!
## Head/tail layouts

A sequence of components laid out as a head followed by a tail: a static
component sits in the head as it is; a dynamic one puts a word holding the
offset of its bytes into the head and its bytes into the tail. Offsets are
counted from the start of the layout, so the first tail offset is the size
of the head. This is the layout of tuple encodings in contract ABIs.

`word` writes an offset as a head word of `wordSize` bytes.
-/

namespace HeadTail

/-- A component: its bytes, and whether they go to the tail. -/
structure Part where
  dynamic : Bool
  bytes : List UInt8
deriving DecidableEq, Repr

variable (word : Nat → List UInt8) (wordSize : Nat)

/-- The bytes a component takes in the head. -/
def Part.headSize (p : Part) : Nat := if p.dynamic then wordSize else p.bytes.length

/-- The size of the head. -/
def headSize (parts : List Part) : Nat := (parts.map (Part.headSize wordSize)).sum

/-- The head and the tail of `parts`, with the first tail offset `offset`. -/
def layoutFrom : Nat → List Part → List UInt8 × List UInt8
  | _, [] => ([], [])
  | offset, p :: ps =>
    if p.dynamic then
      let (head, tail) := layoutFrom (offset + p.bytes.length) ps
      (word offset ++ head, p.bytes ++ tail)
    else
      let (head, tail) := layoutFrom offset ps
      (p.bytes ++ head, tail)

/-- The layout: the head, whose dynamic words point past it, then the tail. -/
def layout (parts : List Part) : List UInt8 :=
  let (head, tail) := layoutFrom word (headSize wordSize parts) parts
  head ++ tail

end HeadTail

namespace FiscoBcos.Abi

open HeadTail

mutual
/-- The size of the encoding of a static type; a dynamic type takes one
offset word in the head. -/
def headSize : AbiType → Nat
  | .array size elem => if elem.isDynamicType then 32 else size * headSize elem
  | .tuple elems => if AbiType.isDynamicTypes elems then 32 else headSizes elems
  | _ => 32
/-- The sum of `headSize` over tuple components. -/
def headSizes : List (String × AbiType) → Nat
  | [] => 0
  | (_, elem) :: elems => headSize elem + headSizes elems
end

/-- An offset in the head: a 256-bit word. -/
def offsetWord (offset : Nat) : List UInt8 := u256 offset

/-- The encoding of a byte string: its length, then its bytes right-padded
to a multiple of 32. -/
def encBytes (b : List UInt8) : List UInt8 := u256 b.length ++ rightPadBytes b ((b.length + 31) / 32 * 32)

mutual
/-- `enc(X)` of the specification, for a value of the type; `none` for a
value of another type. -/
def enc : AbiType → Value → Option (List UInt8)
  | .uint _, .int _ n | .int _, .int _ n => some (u256 n)
  | .bool, .bool b => some (u256 (if b then 1 else 0))
  | .address, v => v.bytes?.map (BigEndian.leftPad 32)
  | .fixedBytes _, v | .function, v => v.bytes?.map (rightPadBytes · 32)
  | .bytes, v => v.bytes?.map encBytes
  | .string, .string s => some (encBytes s)
  | .array _ elem, .seq _ _ vs => (encElems elem vs).map (layout offsetWord 32)
  | .slice elem, .seq _ _ vs => (encElems elem vs).map fun parts => u256 vs.length ++ layout offsetWord 32 parts
  | .tuple elems, .struct fields => (encFields elems fields).map (layout offsetWord 32)
  | _, _ => none
/-- The elements of an array as layout components. -/
def encElems (elem : AbiType) : List Value → Option (List Part)
  | [] => some []
  | v :: vs => match enc elem v, encElems elem vs with
    | some b, some parts => some (⟨elem.isDynamicType, b⟩ :: parts)
    | _, _ => none
/-- The components of a tuple as layout components. -/
def encFields : List (String × AbiType) → List Value → Option (List Part)
  | [], [] => some []
  | (_, elem) :: elems, v :: vs => match enc elem v, encFields elems vs with
    | some b, some parts => some (⟨elem.isDynamicType, b⟩ :: parts)
    | _, _ => none
  | _, _ => none
end

/-! ## Head sizes -/

mutual
/-- The type has no static array whose elements are static tuples. -/
def AbiType.tupleArrayFree : AbiType → Bool
  | .array _ elem =>
    (match elem with
      | .tuple elems => AbiType.isDynamicTypes elems
      | _ => true) && elem.tupleArrayFree
  | .slice elem => elem.tupleArrayFree
  | .tuple elems => tupleArrayFrees elems
  | _ => true
/-- No tuple component has a static array of static tuples. -/
def tupleArrayFrees : List (String × AbiType) → Bool
  | [] => true
  | (_, elem) :: elems => elem.tupleArrayFree && tupleArrayFrees elems
end

mutual
/-- Without static arrays of static tuples, `getTypeSize` is the size a
type takes in the head. -/
theorem getTypeSize_eq_headSize : ∀ t : AbiType, t.tupleArrayFree = true →
    t.getTypeSize = headSize t
  | .array size elem, h => by
    simp only [AbiType.tupleArrayFree, Bool.and_eq_true] at h
    obtain ⟨static_tuples, free⟩ := h
    have ih := getTypeSize_eq_headSize elem free
    by_cases dyn : elem.isDynamicType
    · simp [AbiType.getTypeSize, headSize, dyn]
    · -- a static element: an array counts its elements' size, anything else one word
      have static : elem.isDynamicType = false := by simpa using dyn
      cases elem with
      | array n inner =>
        have lhs : (AbiType.array size (.array n inner)).getTypeSize =
            size * (AbiType.array n inner).getTypeSize := by
          rw [AbiType.getTypeSize]
          simp [static]
        have rhs : headSize (.array size (.array n inner)) = size * headSize (.array n inner) := by
          rw [headSize]
          simp [static]
        rw [lhs, rhs, ih]
      | tuple elems =>
        simp only [AbiType.isDynamicType] at static
        simp [static] at static_tuples
      | _ => simp [AbiType.getTypeSize, headSize, static]
  | .tuple elems, h => by
    have ih := getTypeSizes_eq_headSizes elems h
    cases dyn : AbiType.isDynamicTypes elems <;> simp [AbiType.getTypeSize, headSize, dyn, ih]
  | .int _, _ | .uint _, _ | .bool, _ | .string, _ | .slice _, _ | .address, _
  | .fixedBytes _, _ | .bytes, _ | .function, _ => rfl
/-- `getTypeSizes` is the head size of the components. -/
theorem getTypeSizes_eq_headSizes : ∀ elems : List (String × AbiType), tupleArrayFrees elems = true →
    AbiType.getTypeSizes elems = headSizes elems
  | [], _ => rfl
  | (_, elem) :: elems, h => by
    simp only [tupleArrayFrees, Bool.and_eq_true] at h
    simp [AbiType.getTypeSizes, headSizes, getTypeSize_eq_headSize elem h.1,
      getTypeSizes_eq_headSizes elems h.2]
end

/-! ## A static array of static tuples -/

/-- `Pack` counts one word for the array `(uint256,uint256)[1]`, which takes
two in the head, so the offset of the string after it points into the head;
the specification's offset is 96. -/
theorem pack_staticTupleArray_offset :
    Arguments.pack [⟨"x", .array 1 (.tuple [("a", .uint 256), ("b", .uint 256)]), false⟩,
        ⟨"s", .string, false⟩] [.seq .array .struct [.struct [.int .ptr 1, .int .ptr 0]], .string []] =
      .ok (u256 1 ++ u256 0 ++ u256 64 ++ u256 0) ∧
    enc (.tuple [("x", .array 1 (.tuple [("a", .uint 256), ("b", .uint 256)])), ("s", .string)])
        (.struct [.seq .array .struct [.struct [.int .ptr 1, .int .ptr 0]], .string []]) =
      some (u256 1 ++ u256 0 ++ u256 96 ++ u256 0) :=
  ⟨rfl, rfl⟩

set_option maxRecDepth 4000 in
/-- Unpacking what `Pack` wrote reads the string's offset from the second
word, inside the array, and returns another string. `Pack` panics on an empty
slice of arrays, where `sliceTypeCheck` looks at its first element. -/
theorem unpackValues_pack_staticTupleArray :
    (Arguments.pack [⟨"x", .array 1 (.tuple [("a", .uint 256), ("b", .uint 256)]), false⟩,
        ⟨"s", .string, false⟩] [.seq .array .struct [.struct [.int .ptr 1, .int .ptr 0]], .string []]).bind
        (Arguments.unpackValues [⟨"x", .array 1 (.tuple [("a", .uint 256), ("b", .uint 256)]), false⟩,
          ⟨"s", .string, false⟩]) =
      .ok [.seq .array .struct [.struct [.int .ptr 1, .int .ptr 0]], .string [0]] ∧
    Arguments.pack [⟨"x", .slice (.array 2 (.uint 256)), false⟩] [.seq .slice .array []] =
      .error (.panic "reflect: slice index out of range") :=
  ⟨rfl, rfl⟩

end FiscoBcos.Abi
