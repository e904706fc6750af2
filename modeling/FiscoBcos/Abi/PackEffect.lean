import FiscoBcos.Abi.Pack
import Mathlib

/-!
# What packing does to its arguments

`packNum` hands a `*big.Int` argument to `U256`, and `math.U256` is
`x.And(x, tt256m1)`: it overwrites the caller's integer with its residue
modulo `2 ^ 256`. `Type.pack` reaches the `*big.Int`s of an argument through
slices, arrays and tuple fields, so `Pack` leaves each one it packs reduced.
An integer of a fixed-size kind reaches `packNum` as a copy and is not
touched.

`AbiType.packEffect` is the value as the caller holds it once `Type.pack`
returns: it follows the walk of `AbiType.pack` and stops where that stops,
on an error. `Arguments.packEffect` is the same for `Arguments.Pack`.
Arguments whose `*big.Int`s are all in `[0, 2 ^ 256)` come back as they were
(`packEffect_of_inRange`); a negative `int256` comes back as its residue
(`pack_overwrites_bigInt`).
-/

namespace FiscoBcos.Abi

/-- `math.U256` on the value `packNum` is handed: a `*big.Int` is
overwritten with its residue modulo `2 ^ 256`. -/
def Value.afterPackNum : Value → Value
  | .int .ptr n => .int .ptr (n % 2 ^ 256)
  | v => v

mutual
/-- The value `Type.pack` was handed, after it returns. -/
def AbiType.packEffect (t : AbiType) (v : Value) : Value :=
  match typeCheck t v with
  | .error _ => v
  | .ok () => match t, v with
    | .slice elem, .seq kind elemKind vs => .seq kind elemKind (packElemsEffect elem vs)
    | .array _ elem, .seq kind elemKind vs => .seq kind elemKind (packElemsEffect elem vs)
    | .tuple elems, .struct fields => .struct (packFieldsEffect elems fields)
    | .int _, v | .uint _, v => v.afterPackNum
    | _, v => v
/-- The elements after the element loop of `Type.pack`, which stops at the
first element that fails. -/
def packElemsEffect (elem : AbiType) : List Value → List Value
  | [] => []
  | v :: vs => elem.packEffect v :: match elem.pack v with
    | .error _ => vs
    | .ok _ => packElemsEffect elem vs
/-- The fields after the component loop of `packFields`. -/
def packFieldsEffect : List (String × AbiType) → List Value → List Value
  | [], fields => fields
  | _ :: _, [] => []
  | (_, elem) :: elems, field :: fields => elem.packEffect field :: match elem.pack field with
    | .error _ => fields
    | .ok _ => packFieldsEffect elems fields
end

/-- The arguments after `Arguments.Pack`. -/
def Arguments.packEffect (args : List Argument) (values : List Value) : List Value :=
  if values.length ≠ args.length then values
  else packFieldsEffect (args.map fun a => (a.name, a.type)) values

mutual
/-- Every `*big.Int` in the value is in `[0, 2 ^ 256)`. -/
def Value.bigsInRange : Value → Bool
  | .int .ptr n => 0 ≤ n && n < 2 ^ 256
  | .seq _ _ vs => Value.bigsInRangeList vs
  | .struct fields => Value.bigsInRangeList fields
  | _ => true
/-- `bigsInRange` of every value of a list. -/
def Value.bigsInRangeList : List Value → Bool
  | [] => true
  | v :: vs => v.bigsInRange && Value.bigsInRangeList vs
end

/-! ## Values in range are left as they were -/

theorem afterPackNum_of_inRange {v : Value} (h : v.bigsInRange = true) : v.afterPackNum = v := by
  match v with
  | .int .ptr n =>
    simp only [Value.bigsInRange, Bool.and_eq_true, decide_eq_true_eq] at h
    rw [Value.afterPackNum, Int.emod_eq_of_lt h.1 h.2]
  | .int .bool _ | .int .int _ | .int .int8 _ | .int .int16 _ | .int .int32 _ | .int .int64 _
  | .int .uint8 _ | .int .uint16 _ | .int .uint32 _ | .int .uint64 _ | .int .array _
  | .int .slice _ | .int .string _ | .int .struct _ | .bool _ | .string _ | .seq _ _ _
  | .struct _ => rfl

mutual
theorem packEffect_of_inRange (t : AbiType) (v : Value) (h : v.bigsInRange = true) :
    t.packEffect v = v := by
  unfold AbiType.packEffect
  split
  · rfl
  split
  · rw [packElemsEffect_of_inRange _ _ (by simpa [Value.bigsInRange] using h)]
  · rw [packElemsEffect_of_inRange _ _ (by simpa [Value.bigsInRange] using h)]
  · rw [packFieldsEffect_of_inRange _ _ (by simpa [Value.bigsInRange] using h)]
  · exact afterPackNum_of_inRange h
  · exact afterPackNum_of_inRange h
  · rfl

theorem packElemsEffect_of_inRange (elem : AbiType) (vs : List Value)
    (h : Value.bigsInRangeList vs = true) : packElemsEffect elem vs = vs := by
  match vs with
  | [] => rfl
  | v :: vs =>
    simp only [Value.bigsInRangeList, Bool.and_eq_true] at h
    rw [packElemsEffect, packEffect_of_inRange elem v h.1]
    split
    · rfl
    · rw [packElemsEffect_of_inRange elem vs h.2]

theorem packFieldsEffect_of_inRange (elems : List (String × AbiType)) (fields : List Value)
    (h : Value.bigsInRangeList fields = true) : packFieldsEffect elems fields = fields := by
  match elems, fields with
  | [], _ => rw [packFieldsEffect]
  | _ :: _, [] => rw [packFieldsEffect]
  | (_, elem) :: elems, field :: fields =>
    simp only [Value.bigsInRangeList, Bool.and_eq_true] at h
    rw [packFieldsEffect, packEffect_of_inRange elem field h.1]
    split
    · rfl
    · rw [packFieldsEffect_of_inRange elems fields h.2]
end

/-- `Arguments.Pack` leaves arguments in range as they were. -/
theorem Arguments.packEffect_of_inRange (args : List Argument) {values : List Value}
    (h : Value.bigsInRangeList values = true) : Arguments.packEffect args values = values := by
  unfold Arguments.packEffect
  split
  · rfl
  · exact packFieldsEffect_of_inRange _ _ h

/-- Packing the `int256` value `-1` writes its two's complement word and
leaves the caller's `*big.Int` holding `2 ^ 256 - 1`. -/
theorem pack_overwrites_bigInt :
    Arguments.pack [⟨"x", .int 256, false⟩] [.int .ptr (-1)] = .ok (u256 (-1)) ∧
      Arguments.packEffect [⟨"x", .int 256, false⟩] [.int .ptr (-1)] = [.int .ptr (2 ^ 256 - 1)] := by
  have packed : (AbiType.int 256).pack (.int .ptr (-1)) = .ok (u256 (-1)) := rfl
  refine ⟨rfl, ?_⟩
  simp [Arguments.packEffect, packFieldsEffect, AbiType.packEffect, typeCheck, AbiType.kind,
    reflectIntKind, Value.kind, Value.afterPackNum, packed]

end FiscoBcos.Abi
