import FiscoBcos.Abi.Type
import Mathlib

/-!
# Parsing type strings

`NewType` of `accounts/abi/type.go`: the type a JSON ABI names with its text
and, for a tuple, its components, together with the text `Type.String()`
prints, from which `Method.Sig` builds a signature. Go strings are byte
strings; the ones these functions take apart are read as lists of
characters, and the two regular expressions as the scans they perform
(`digitRuns`, `typeRegexMatch`).

The text is parsed from the right: with brackets, the element type is the
text before the last `[`, and what follows it is a slice or an array size.
Without, the first run of letters names the type and the digits after it its
size. `String()` is the input text, except that a slice or array whose
element is a tuple prints the tuple's components in place of `tuple`.
-/

namespace FiscoBcos.Abi

/-- `ArgumentMarshaling`: a tuple component as the JSON ABI describes it. -/
structure ArgumentMarshaling where
  name : String
  type : String
  components : List ArgumentMarshaling

/-! ## Text -/

/-- `ToCamelCase`: the parts between underscores, each with its first
letter upper-cased, joined. -/
def ToCamelCase (input : List Char) : List Char :=
  ((input.splitOn '_').map fun
    | [] => []
    | c :: cs => c.toUpper :: cs).flatten

/-- `t[:i]` and `t[i:]` for `i = strings.LastIndex(t, "[")`. -/
def splitAtLastBracket : List Char → Option (List Char × List Char)
  | [] => none
  | c :: cs => match splitAtLastBracket cs with
    | some (pre, sliced) => some (c :: pre, sliced)
    | none => if c = '[' then some ([], c :: cs) else none

/-- The maximal runs of digits after `run`, the digits of the run in
progress, read backwards. -/
def digitRunsFrom : List Char → List Char → List (List Char)
  | [], run => if run = [] then [] else [run.reverse]
  | c :: cs, run =>
    if c.isDigit then digitRunsFrom cs (c :: run)
    else if run = [] then digitRunsFrom cs []
    else run.reverse :: digitRunsFrom cs []

/-- `regexp.MustCompile("[0-9]+").FindAllString(s, -1)`. -/
def digitRuns (s : List Char) : List (List Char) := digitRunsFrom s []

/-- The message of a `strconv.Atoi` error on `s`. -/
def atoiError (s : List Char) (err : String) : String :=
  "strconv.Atoi: parsing \"" ++ String.ofList s ++ "\": " ++ err

/-- The digit loop of `strconv.ParseUint`: a character other than a digit
is a syntax error, and a value past 64 bits is out of range at once. -/
def parseUintFrom (s : List Char) : List Char → Nat → Except String Nat
  | [], n => .ok n
  | c :: cs, n =>
    if !c.isDigit then .error (atoiError s "invalid syntax")
    else if 10 * n + (c.toNat - '0'.toNat) ≥ 2 ^ 64 then .error (atoiError s "value out of range")
    else parseUintFrom s cs (10 * n + (c.toNat - '0'.toNat))

/-- `strconv.Atoi`, on the strings the regular expressions give (digits,
and an `x` among them): an `int` holds less than `2 ^ 63`. -/
def Atoi (s : List Char) : Except String Nat :=
  if s = [] then .error (atoiError s "invalid syntax")
  else match parseUintFrom s s 0 with
    | .error e => .error e
    | .ok n => if n ≥ 2 ^ 63 then .error (atoiError s "value out of range") else .ok n

/-- The groups of the first match of
`([a-zA-Z]+)(([0-9]+)(x([0-9]+))?)?`: the whole match, the letters, and
the size text with its leading digits. -/
structure TypeMatch where
  whole : List Char
  letters : List Char
  sizes : List Char
  digits : List Char
deriving DecidableEq, Repr

/-- `typeRegex.FindAllStringSubmatch(t, -1)[0]`: the leftmost match starts
at the first letter and takes every letter, then the longest size. -/
def typeRegexMatch (t : List Char) : Option TypeMatch :=
  match t.dropWhile (fun c => !c.isAlpha) with
  | [] => none
  | rest =>
    let letters := rest.takeWhile Char.isAlpha
    let afterLetters := rest.dropWhile Char.isAlpha
    let digits := afterLetters.takeWhile Char.isDigit
    let frac := match afterLetters.dropWhile Char.isDigit with
      | 'x' :: more => if (more.takeWhile Char.isDigit) = [] then [] else 'x' :: more.takeWhile Char.isDigit
      | _ => []
    let sizes := if digits = [] then [] else digits ++ frac
    some ⟨letters ++ sizes, letters, sizes, digits⟩

/-- `isValidFieldName`, for ASCII names: a letter or `_`, then letters,
digits and `_`. -/
def isValidFieldName : List Char → Bool
  | [] => false
  | c :: cs => (c.isAlpha || c = '_') && cs.all fun d => d.isAlphanum || d = '_'

/-- The panic of `reflect.StructOf` on the field names: the first field, in
order, whose name is not valid or repeats one before it. -/
def structOfPanic : List (List Char) → List (List Char) → Option String
  | _, [] => none
  | seen, name :: names =>
    if !isValidFieldName name then
      some ("reflect.StructOf: field " ++ String.ofList name ++ " has invalid name")
    else if name ∈ seen then some ("reflect.StructOf: duplicate field " ++ String.ofList name)
    else structOfPanic (name :: seen) names

theorem splitAtLastBracket_length : ∀ {s pre sliced : List Char},
    splitAtLastBracket s = some (pre, sliced) → pre.length < s.length
  | [], _, _, h => by simp [splitAtLastBracket] at h
  | c :: cs, pre, sliced, h => by
    rw [splitAtLastBracket] at h
    split at h
    · rename_i pre' sliced' inner
      simp only [Option.some.injEq, Prod.mk.injEq] at h
      obtain ⟨rfl, rfl⟩ := h
      have := splitAtLastBracket_length inner
      simp only [List.length_cons]
      omega
    · split_ifs at h
      simp only [Option.some.injEq, Prod.mk.injEq] at h
      obtain ⟨rfl, rfl⟩ := h
      simp

mutual
/-- A bound on the recursion of `NewType` below a component: the characters
of the component types, at every depth, and two for each component. -/
def ArgumentMarshaling.weight : ArgumentMarshaling → Nat
  | ⟨_, type, components⟩ => 2 + type.length + weight components
/-- `ArgumentMarshaling.weight` summed over the components. -/
def weight : List ArgumentMarshaling → Nat
  | [] => 0
  | c :: cs => c.weight + weight cs
end

theorem weight_cons (c : ArgumentMarshaling) (cs : List ArgumentMarshaling) :
    weight (c :: cs) = 2 + c.type.length + weight c.components + weight cs := by
  cases c
  rw [weight, ArgumentMarshaling.weight]

/-! ## `NewType` -/

mutual
/-- `NewType(t, components)`: the type, and its `stringKind`. -/
def NewType (t : String) (components : List ArgumentMarshaling) :
    Except AbiError (AbiType × String) :=
  if t.toList.count '[' ≠ t.toList.count ']' then .error (.msg "invalid arg type in abi")
  else match _h : splitAtLastBracket t.toList with
  | some (pre, sliced) =>
    match NewType (String.ofList pre) components with
    | .error e => .error e
    | .ok (embedded, embeddedKind) =>
      -- `stringKind` is rewritten only when the element itself is a tuple
      let stringKind := match embedded with
        | .tuple _ => embeddedKind ++ String.ofList sliced
        | _ => t
      match digitRuns sliced with
      | [] => .ok (.slice embedded, stringKind)
      | [intz] => match Atoi intz with
        | .error err => .error (.msg ("abi: error parsing variable size: " ++ err))
        | .ok size => .ok (.array size embedded, stringKind)
      | _ => .error (.msg "invalid formatting of array type")
  | none =>
    match typeRegexMatch t.toList with
    | none => .error (.msg ("invalid type '" ++ t ++ "'"))
    | some m =>
      let varSize : Except AbiError Nat :=
        if m.digits ≠ [] then
          match Atoi m.sizes with
          | .error err => .error (.msg ("abi: error parsing variable size: " ++ err))
          | .ok n => .ok n
        else if m.whole = "uint".toList ∨ m.whole = "int".toList then
          .error (.msg ("unsupported arg type: " ++ t))
        else .ok 0
      match varSize with
      | .error e => .error e
      | .ok varSize => match String.ofList m.letters with
        | "int" => .ok (.int varSize, t)
        | "uint" => .ok (.uint varSize, t)
        | "bool" => .ok (.bool, t)
        | "address" => .ok (.address, t)
        | "string" => .ok (.string, t)
        | "bytes" => .ok (if varSize = 0 then .bytes else .fixedBytes varSize, t)
        | "tuple" => match tupleComponents components with
          | .error e => .error e
          | .ok (elems, kinds) =>
            match structOfPanic [] (components.map fun c => ToCamelCase c.name.toList) with
            | some msg => .error (.panic msg)
            | none => .ok (.tuple elems, "(" ++ ",".intercalate kinds ++ ")")
        | "function" => .ok (.function, t)
        | _ => .error (.msg ("unsupported arg type: " ++ t))
termination_by t.length + weight components + 1
decreasing_by
  · -- the text before the last bracket, with the same components
    have := splitAtLastBracket_length _h
    rw [String.length_ofList, ← String.length_toList]
    omega
  · omega
/-- The component loop of the `tuple` case: each component's type and
`stringKind`, and the check of its name. -/
def tupleComponents : List ArgumentMarshaling →
    Except AbiError (List (String × AbiType) × List String)
  | [] => .ok ([], [])
  | c :: cs => match NewType c.type c.components with
    | .error e => .error e
    | .ok (cType, cKind) =>
      if ToCamelCase c.name.toList = [] then
        .error (.msg "abi: purely anonymous or underscored field is not supported")
      else (tupleComponents cs).map fun (elems, kinds) => ((c.name, cType) :: elems, cKind :: kinds)
termination_by cs => weight cs
decreasing_by
  all_goals rw [weight_cons]
  all_goals omega
end

/-- `Type.String()`. -/
def typeString (parsed : AbiType × String) : String := parsed.2

/-- `Method.Sig`: the name and the input types' strings. -/
def Method.Sig (name : String) (inputs : List String) : String :=
  name ++ "(" ++ ",".intercalate inputs ++ ")"

/-! ## The canonical type strings -/

mutual
/-- The canonical type string of the ABI specification, which signatures
are built from: a tuple is the parenthesised list of its components, at
every depth of arrays. -/
def AbiType.canonical : AbiType → String
  | .int size => "int" ++ toString size
  | .uint size => "uint" ++ toString size
  | .bool => "bool"
  | .string => "string"
  | .slice elem => elem.canonical ++ "[]"
  | .array size elem => elem.canonical ++ "[" ++ toString size ++ "]"
  | .tuple elems => "(" ++ ",".intercalate (AbiType.canonicals elems) ++ ")"
  | .address => "address"
  | .fixedBytes size => "bytes" ++ toString size
  | .bytes => "bytes"
  | .function => "function"
/-- The canonical strings of tuple components. -/
def AbiType.canonicals : List (String × AbiType) → List String
  | [] => []
  | (_, elem) :: elems => elem.canonical :: AbiType.canonicals elems
end

/-- A slice of slices of a tuple prints as `tuple[][]`, though its
canonical string is `(uint256)[][]`: the element of the outer slice is a
slice, so its `stringKind` stays the input text. `uint7`, whose size is no
multiple of 8, is accepted as well. -/
theorem newType_tuple_slice_slice :
    (NewType "tuple[][]" [⟨"a", "uint256", []⟩]).map (fun p => (typeString p, p.1.canonical)) =
        .ok ("tuple[][]", "(uint256)[][]") ∧
      (NewType "uint7" []).map (fun p => (typeString p, p.1.canonical)) = .ok ("uint7", "uint7") :=
  ⟨by decide +kernel, by decide +kernel⟩

end FiscoBcos.Abi
