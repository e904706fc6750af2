import FiscoBcos.Abi.Pack
import Mathlib

/-!
# Unpacking values

`Arguments.UnpackValues` of `accounts/abi/argument.go` and `toGoType` with
its helpers from `unpack.go`. Every value is read at a byte index of the
output: static values in place, dynamic ones through the offset word found
there. Within a tuple and within an argument list the index of the next
component is counted in words, with `getTypeSize / 32 - 1` extra words
after a static array or static tuple (the `virtualArgs`); within a slice or
array, elements are `getTypeSize` bytes apart. The tuple loop and the
argument loop are one loop, `unpackFields`.
-/

namespace FiscoBcos.Abi

/-- `maxInt256`. -/
def maxInt256 : Nat := 2 ^ 255 - 1

/-- `maxUint256`. -/
def maxUint256 : Nat := 2 ^ 256 - 1

/-- A Go conversion of an unsigned number of `bits` bits to the signed type
of that width. -/
def toSigned (bits n : Nat) : Int := if n < 2 ^ (bits - 1) then n else (n : Int) - 2 ^ bits

/-- `readInteger`: the low bytes of the word for the fixed-size kinds, the
whole word as a `*big.Int` otherwise, negative for a signed type above
`maxInt256`. -/
def readInteger (unsigned : Bool) (kind : Kind) (b : List UInt8) : Value :=
  let low (n : Nat) : Nat := BigEndian.value (b.drop (b.length - n))
  match kind with
  | .uint8 => .int .uint8 (low 1)
  | .uint16 => .int .uint16 (low 2)
  | .uint32 => .int .uint32 (low 4)
  | .uint64 => .int .uint64 (low 8)
  | .int8 => .int .int8 (toSigned 8 (low 1))
  | .int16 => .int .int16 (toSigned 16 (low 2))
  | .int32 => .int .int32 (toSigned 32 (low 4))
  | .int64 => .int .int64 (toSigned 64 (low 8))
  | _ =>
    let ret := BigEndian.value b
    if unsigned then .int .ptr ret
    else if ret > maxInt256 then .int .ptr (-((maxUint256 - ret : Int) + 1))
    else .int .ptr ret

/-- `errBadBool`. -/
def errBadBool : AbiError := .msg "abi: improperly encoded boolean value"

/-- `readBool`: a word holding 0 or 1. -/
def readBool (word : List UInt8) : Except AbiError Value :=
  if (word.take 31).any (· ≠ 0) then .error errBadBool
  else match word.getD 31 0 with
    | 0 => .ok (.bool false)
    | 1 => .ok (.bool true)
    | _ => .error errBadBool

/-- A byte slice as `%v` prints it. -/
def formatBytes (b : List UInt8) : String :=
  "[" ++ " ".intercalate (b.map fun x => toString x.toNat) ++ "]"

/-- `readFunctionType`: 24 bytes of address and selector, then zeros. -/
def readFunctionType (word : List UInt8) : Except AbiError Value :=
  if BigEndian.value ((word.drop 24).take 8) ≠ 0 then
    .error (.msg ("abi: got improperly encoded function type, got " ++ formatBytes word))
  else .ok (Value.ofBytes .array (word.take 24))

/-- `readFixedBytes` for a `bytes<size>`: the first `size` bytes of the
word. -/
def readFixedBytes (size : Nat) (word : List UInt8) : Except AbiError Value :=
  if size > word.length then .error (.panic "runtime error: slice bounds out of range")
  else .ok (Value.ofBytes .array (word.take size))

/-- `lengthPrefixPointsTo`: the start and length of a length-prefixed value
whose offset word is at `index`. -/
def lengthPrefixPointsTo (index : Nat) (output : List UInt8) : Except AbiError (Nat × Nat) :=
  let bigOffsetEnd := BigEndian.value ((output.drop index).take 32) + 32
  let outputLength := output.length
  if bigOffsetEnd > outputLength then
    .error (.msg ("abi: cannot marshal in to go slice: offset " ++ toString bigOffsetEnd ++
      " would go over slice boundary (len=" ++ toString outputLength ++ ")"))
  else if BigInt.bitLen bigOffsetEnd > 63 then
    .error (.msg ("abi offset larger than int64: " ++ toString bigOffsetEnd))
  else
    let offsetEnd := bigOffsetEnd
    let lengthBig := BigEndian.value ((output.drop (offsetEnd - 32)).take 32)
    let totalSize := bigOffsetEnd + lengthBig
    if BigInt.bitLen totalSize > 63 then
      .error (.msg ("abi: length larger than int64: " ++ toString totalSize))
    else if totalSize > outputLength then
      .error (.msg ("abi: cannot marshal in to go type: length insufficient " ++
        toString outputLength ++ " require " ++ toString totalSize))
    else .ok (offsetEnd, lengthBig)

/-- `tuplePointsTo`: the start of a dynamic tuple whose offset word is at
`index`. -/
def tuplePointsTo (index : Nat) (output : List UInt8) : Except AbiError Nat :=
  let offset := BigEndian.value ((output.drop index).take 32)
  if offset > output.length then
    .error (.msg ("abi: cannot marshal in to go slice: offset " ++ toString offset ++
      " would go over slice boundary (len=" ++ toString output.length ++ ")"))
  else if BigInt.bitLen offset > 63 then
    .error (.msg ("abi offset larger than int64: " ++ toString offset))
  else .ok offset

/-- The element loop of `forEachUnpack`: `size` elements read `elemSize`
bytes apart from `i`. -/
def unpackElems (read : Nat → Except AbiError Value) (elemSize : Nat) :
    Nat → Nat → Except AbiError (List Value)
  | 0, _ => .ok []
  | size + 1, i => match read i with
    | .error e => .error e
    | .ok v => (unpackElems read elemSize size (i + elemSize)).map (v :: ·)

/-- The extra words a component takes beyond its first: the rest of a
static array or static tuple. Go computes it as an `int`, so a static array
or tuple of no bytes takes `-1`. -/
def virtualWords (elem : AbiType) : Int :=
  match elem with
  | .array _ _ | .tuple _ => if !elem.isDynamicType then ((elem.getTypeSize / 32 : Nat) : Int) - 1 else 0
  | _ => 0

/-- `forEachUnpack`: `size` elements of type `elem` from the start of
`output`, into a slice or an array. `read` is `toGoType` for `elem`. -/
def forEachUnpack (kind : Kind) (elem : AbiType) (read : Nat → List UInt8 → Except AbiError Value)
    (output : List UInt8) (size : Nat) : Except AbiError Value :=
  if 32 * size > output.length then
    .error (.msg ("abi: cannot marshal in to go array: offset " ++ toString output.length ++
      " would go over slice boundary (len=" ++ toString (32 * size) ++ ")"))
  else
    (unpackElems (fun i => read i output) elem.getTypeSize size 0).map (.seq kind elem.kind)

mutual
/-- `toGoType`: the value of type `t` whose head is at `index`. -/
def toGoType (index : Nat) (t : AbiType) (output : List UInt8) : Except AbiError Value :=
  if index + 32 > output.length then
    .error (.msg ("abi: cannot marshal in to go type: length insufficient " ++
      toString output.length ++ " require " ++ toString (index + 32)))
  else
    let returnOutput := (output.drop index).take 32
    match t with
    | .tuple elems =>
      if AbiType.isDynamicTypes elems then
        match tuplePointsTo index output with
        | .error e => .error e
        | .ok begin => (unpackFields elems 0 0 (output.drop begin)).map .struct
      else (unpackFields elems 0 0 (output.drop index)).map .struct
    | .slice elem => match lengthPrefixPointsTo index output with
      | .error e => .error e
      | .ok (begin, length) => forEachUnpack .slice elem (toGoType · elem ·) (output.drop begin) length
    | .array size elem =>
      if elem.isDynamicType then
        -- `int64` of the word's low eight bytes
        let offset := BigEndian.value (returnOutput.drop 24)
        if offset ≥ 2 ^ 63 ∨ offset > output.length then
          .error (.panic "runtime error: slice bounds out of range")
        else forEachUnpack .array elem (toGoType · elem ·) (output.drop offset) size
      else forEachUnpack .array elem (toGoType · elem ·) (output.drop index) size
    | .string => match lengthPrefixPointsTo index output with
      | .error e => .error e
      | .ok (begin, length) => .ok (.string ((output.drop begin).take length))
    | .int size => .ok (readInteger false (reflectIntKind false size) returnOutput)
    | .uint size => .ok (readInteger true (reflectIntKind true size) returnOutput)
    | .bool => readBool returnOutput
    | .address => .ok (Value.ofBytes .array (returnOutput.drop 12))
    | .bytes => match lengthPrefixPointsTo index output with
      | .error e => .error e
      | .ok (begin, length) => .ok (Value.ofBytes .slice ((output.drop begin).take length))
    | .fixedBytes size => readFixedBytes size returnOutput
    | .function => readFunctionType returnOutput
/-- The component loop of `forTupleUnpack` and of `UnpackValues`: the
component at word `index + virtualArgs`. A negative index passes the length
check of `toGoType` and panics on the slice `output[index:index+32]`. -/
def unpackFields : List (String × AbiType) → Nat → Int → List UInt8 → Except AbiError (List Value)
  | [], _, _, _ => .ok []
  | (_, elem) :: elems, index, virtualArgs, output =>
    if index + virtualArgs < 0 then .error (.panic "runtime error: slice bounds out of range")
    else match toGoType ((index + virtualArgs) * 32).toNat elem output with
    | .error e => .error e
    | .ok v => (unpackFields elems (index + 1) (virtualArgs + virtualWords elem) output).map (v :: ·)
end

/-- `Arguments.UnpackValues`: the values of the arguments that are not
indexed. -/
def Arguments.unpackValues (args : List Argument) (data : List UInt8) :
    Except AbiError (List Value) :=
  unpackFields ((args.filter fun a => !a.indexed).map fun a => (a.name, a.type)) 0 0 data

end FiscoBcos.Abi
