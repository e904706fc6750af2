import FiscoBcos.Abi.Unpack
import Mathlib

/-!
# Unpacking untrusted output

`UnpackValues` reads what a contract returned, which the caller does not
control. Every region it slices is checked against the output first and
reported as an error, with two exceptions: the offset word of a fixed-size
array of dynamic elements, which `toGoType` converts to `int64` and slices
with (`output[offset:]`), and the first `Size` bytes of the word of a
`bytes<Size>`, which `NewType` accepts for every size. Argument types with
neither (`AbiType.unpackSafe`) unpack every input to a value or an error
(`unpackValues_noPanic`). With either of them, a single word makes
`UnpackValues` panic (`unpackValues_panics`).

The component loop indexes the output at word `index + virtualArgs`, where
`virtualArgs` may go down by one per component; it never goes below zero,
since `index` goes up by one each time (`unpackFields_noPanic`).
-/

namespace FiscoBcos.Abi

/-- A result that is a value or a returned error, not a panic. -/
def NoPanic {α : Type} (r : Except AbiError α) : Prop := ∀ msg, r ≠ .error (.panic msg)

namespace NoPanic

variable {α β : Type}

theorem ok (a : α) : NoPanic (.ok a : Except AbiError α) := fun _ h => by cases h

theorem error_msg (text : String) : NoPanic (.error (.msg text) : Except AbiError α) :=
  fun _ h => by cases h

/-- An error passed on from a step that does not panic is not a panic. -/
theorem error_of {r : Except AbiError α} {e : AbiError} (h : NoPanic r) (he : r = .error e) :
    NoPanic (.error e : Except AbiError β) := by
  intro msg eq
  cases eq
  exact h msg he

theorem map {r : Except AbiError α} (f : α → β) (h : NoPanic r) : NoPanic (r.map f) := by
  cases r with
  | error e => exact h.error_of rfl
  | ok a => exact ok (f a)

end NoPanic

/-! ## The reads that do not panic -/

theorem lengthPrefixPointsTo_noPanic (index : Nat) (output : List UInt8) :
    NoPanic (lengthPrefixPointsTo index output) := by
  unfold lengthPrefixPointsTo
  dsimp only
  split_ifs
  all_goals first | exact NoPanic.error_msg _ | exact NoPanic.ok _

theorem tuplePointsTo_noPanic (index : Nat) (output : List UInt8) :
    NoPanic (tuplePointsTo index output) := by
  unfold tuplePointsTo
  dsimp only
  split_ifs
  all_goals first | exact NoPanic.error_msg _ | exact NoPanic.ok _

theorem readBool_noPanic (word : List UInt8) : NoPanic (readBool word) := by
  unfold readBool
  split_ifs
  · exact NoPanic.error_msg _
  · split
    all_goals first | exact NoPanic.error_msg _ | exact NoPanic.ok _

theorem readFunctionType_noPanic (word : List UInt8) : NoPanic (readFunctionType word) := by
  unfold readFunctionType
  split_ifs
  · exact NoPanic.error_msg _
  · exact NoPanic.ok _

/-- A `bytes<Size>` of at most a word reads within the word. -/
theorem readFixedBytes_noPanic {size : Nat} {word : List UInt8} (h : size ≤ word.length) :
    NoPanic (readFixedBytes size word) := by
  rw [readFixedBytes, if_neg (by omega)]
  exact NoPanic.ok _

theorem unpackElems_noPanic {read : Nat → Except AbiError Value} (elemSize : Nat)
    (h : ∀ i, NoPanic (read i)) : ∀ size i, NoPanic (unpackElems read elemSize size i)
  | 0, _ => NoPanic.ok _
  | size + 1, i => by
    rw [unpackElems]
    split
    · exact (h i).error_of ‹_›
    · exact (unpackElems_noPanic elemSize h size (i + elemSize)).map _

theorem forEachUnpack_noPanic (kind : Kind) (elem : AbiType)
    {read : Nat → List UInt8 → Except AbiError Value} {output : List UInt8} (size : Nat)
    (h : ∀ i, NoPanic (read i output)) : NoPanic (forEachUnpack kind elem read output size) := by
  unfold forEachUnpack
  split_ifs
  · exact NoPanic.error_msg _
  · exact (unpackElems_noPanic _ h size 0).map _

/-! ## Types that unpack without panicking -/

mutual
/-- The type has no fixed-size array of dynamic elements and no
`bytes<Size>` wider than a word. -/
def AbiType.unpackSafe : AbiType → Bool
  | .array _ elem => !elem.isDynamicType && elem.unpackSafe
  | .slice elem => elem.unpackSafe
  | .tuple elems => AbiType.unpackSafes elems
  | .fixedBytes size => size ≤ 32
  | _ => true
/-- `unpackSafe` of every component. -/
def AbiType.unpackSafes : List (String × AbiType) → Bool
  | [] => true
  | (_, elem) :: elems => elem.unpackSafe && AbiType.unpackSafes elems
end

theorem unpackSafes_iff : ∀ elems : List (String × AbiType),
    AbiType.unpackSafes elems = true ↔ ∀ e ∈ elems, e.2.unpackSafe = true
  | [] => by simp [AbiType.unpackSafes]
  | (_, elem) :: elems => by simp [AbiType.unpackSafes, unpackSafes_iff elems]

theorem virtualWords_ge (elem : AbiType) : -1 ≤ virtualWords elem := by
  unfold virtualWords
  split
  · split_ifs <;> omega
  · split_ifs <;> omega
  · omega

mutual
theorem toGoType_noPanic (index : Nat) (t : AbiType) (output : List UInt8)
    (safe : t.unpackSafe = true) : NoPanic (toGoType index t output) := by
  unfold toGoType
  split
  · exact NoPanic.error_msg _
  rename_i fits
  match t with
  | .tuple elems =>
    simp only [AbiType.unpackSafe] at safe
    dsimp only
    split
    · split
      · exact (tuplePointsTo_noPanic index output).error_of ‹_›
      · exact (unpackFields_noPanic elems 0 0 _ (le_refl _) safe).map _
    · exact (unpackFields_noPanic elems 0 0 _ (le_refl _) safe).map _
  | .slice elem =>
    simp only [AbiType.unpackSafe] at safe
    dsimp only
    split
    · exact (lengthPrefixPointsTo_noPanic index output).error_of ‹_›
    · exact forEachUnpack_noPanic _ _ _ fun i => toGoType_noPanic i elem _ safe
  | .array size elem =>
    -- a static element: the elements lie in place, after the checked word
    simp only [AbiType.unpackSafe, Bool.and_eq_true, Bool.not_eq_true'] at safe
    dsimp only
    rw [if_neg (by simp [safe.1])]
    exact forEachUnpack_noPanic _ _ _ fun i => toGoType_noPanic i elem _ safe.2
  | .string =>
    dsimp only
    split
    · exact (lengthPrefixPointsTo_noPanic index output).error_of ‹_›
    · exact NoPanic.ok _
  | .bytes =>
    dsimp only
    split
    · exact (lengthPrefixPointsTo_noPanic index output).error_of ‹_›
    · exact NoPanic.ok _
  | .fixedBytes size =>
    simp only [AbiType.unpackSafe, decide_eq_true_eq] at safe
    have word : ((output.drop index).take 32).length = 32 := by simp; omega
    exact readFixedBytes_noPanic (by omega)
  | .int _ | .uint _ | .address => exact NoPanic.ok _
  | .bool => exact readBool_noPanic _
  | .function => exact readFunctionType_noPanic _

theorem unpackFields_noPanic (elems : List (String × AbiType)) (index : Nat) (virtualArgs : Int)
    (output : List UInt8) (nonneg : 0 ≤ (index : Int) + virtualArgs)
    (safe : AbiType.unpackSafes elems = true) :
    NoPanic (unpackFields elems index virtualArgs output) := by
  match elems with
  | [] =>
    rw [unpackFields]
    exact NoPanic.ok _
  | (_, elem) :: elems =>
    simp only [AbiType.unpackSafes, Bool.and_eq_true] at safe
    rw [unpackFields, if_neg (by omega)]
    split
    · exact (toGoType_noPanic _ elem output safe.1).error_of ‹_›
    · have next : 0 ≤ ((index + 1 : Nat) : Int) + (virtualArgs + virtualWords elem) := by
        have := virtualWords_ge elem
        omega
      exact (unpackFields_noPanic elems (index + 1) _ output next safe.2).map _
end

/-- Without fixed-size arrays of dynamic elements and `bytes<Size>` wider
than a word, `UnpackValues` returns values or an error for every input. -/
theorem unpackValues_noPanic (args : List Argument) (data : List UInt8)
    (safe : ∀ a ∈ args, a.type.unpackSafe = true) : NoPanic (Arguments.unpackValues args data) := by
  refine unpackFields_noPanic _ 0 0 data (le_refl _) ((unpackSafes_iff _).mpr ?_)
  intro e he
  obtain ⟨a, ha, rfl⟩ := List.mem_map.mp he
  exact safe a (List.mem_of_mem_filter ha)

theorem unpackValues_noPanic_slice :
    (∀ a ∈ [(⟨"x", .slice (.uint 8), false⟩ : Argument)], a.type.unpackSafe = true) ∧
      NoPanic (Arguments.unpackValues [⟨"x", .slice (.uint 8), false⟩] (List.replicate 31 0)) :=
  ⟨by decide, unpackValues_noPanic _ _ (by decide)⟩

set_option maxRecDepth 4000 in
/-- `string[1]` on a word holding 64, whose offset lies past the 32 bytes of
output, and `bytes33` on a word of zeros, which has no 33 bytes. -/
theorem unpackValues_panics :
    Arguments.unpackValues [⟨"a", .array 1 .string, false⟩] (u256 64) =
        .error (.panic "runtime error: slice bounds out of range") ∧
      Arguments.unpackValues [⟨"a", .fixedBytes 33, false⟩] (u256 0) =
        .error (.panic "runtime error: slice bounds out of range") :=
  ⟨rfl, rfl⟩

end FiscoBcos.Abi
