import Mathlib

/-!
# Go's encoding/json, on decoded values

The values that `json.Unmarshal` decodes into `interface{}` and the rules by
which it stores them into strings, ints, structs and `map[string]interface{}`
(Go 1.12). The JSON text is not modelled: a value here is what the text
parses to, and a number is its exact value (Go rounds it to a `float64`,
which changes no integer below 2^53). A member's key names a field when it is
the field's tag; Go also matches keys up to case folding, which is left out.

A struct is decoded member by member, in order, so that a later member of a
key overrides an earlier one; `null` leaves a string, an int or a struct as
it is and sets a map to `nil`. The first type error is the result.

`Any` is a value of `interface{}`: a decoded value, or an `int` that Go code
stored. `lookup_insertMembers_marshal`: a map that `json.Marshal` wrote
decodes to the same lookups, with each `int` read back as a number.
-/

namespace GoJson

/-- A JSON value as `encoding/json` decodes it into `interface{}`. -/
inductive Json where
  | null
  | bool (b : Bool)
  | number (x : ℚ)
  | string (s : String)
  | array (xs : List Json)
  | object (members : List (String × Json))

/-- The word that `UnmarshalTypeError` uses for a value. -/
def Json.kind : Json → String
  | .null => "null"
  | .bool _ => "bool"
  | .number _ => "number"
  | .string _ => "string"
  | .array _ => "array"
  | .object _ => "object"

/-- `UnmarshalTypeError` at a field of a struct. -/
def fieldError (struct field type value : String) : String :=
  "json: cannot unmarshal " ++ value ++ " into Go struct field " ++ struct ++ "." ++ field ++ " of type " ++ type

/-- `UnmarshalTypeError` at the top-level value. -/
def valueError (type value : String) : String :=
  "json: cannot unmarshal " ++ value ++ " into Go value of type " ++ type

/-- A value of `interface{}`: a decoded JSON value, or an `int` that Go code
stored. -/
inductive Any where
  | json (v : Json)
  | int (n : Int)

/-- The `nil` interface, which also decodes from `null`. -/
def Any.nil : Any := .json .null

/-- The dynamic type that a failed type assertion names. -/
def Any.typeName : Any → String
  | .json .null => "nil"
  | .json (.bool _) => "bool"
  | .json (.number _) => "float64"
  | .json (.string _) => "string"
  | .json (.array _) => "[]interface {}"
  | .json (.object _) => "map[string]interface {}"
  | .int _ => "int"

/-- The panic of a failed type assertion `x.(T)`. -/
def typeAssertionError (x : Any) (type : String) : String :=
  "interface conversion: interface {} is " ++ x.typeName ++ ", not " ++ type

/-- What `json.Marshal` writes for a value of `interface{}`. -/
def Any.toJson : Any → Json
  | .json v => v
  | .int n => .number n

@[simp] theorem Any.toJson_json (v : Json) : (Any.json v).toJson = v := rfl

@[simp] theorem Any.toJson_int (n : Int) : (Any.int n).toJson = .number n := rfl

/-- A `map[string]interface{}`. -/
abbrev Map := AList fun _ : String => Any

/-- `m[key]`: the `nil` interface at a key that is absent. -/
def Map.index (m : Map) (key : String) : Any := (m.lookup key).getD .nil

/-- What `json.Marshal` writes for a map. Go sorts the members by key; no
decoder here reads their order. -/
def marshalMap (m : Map) : Json := .object (m.entries.map fun e => (e.1, e.2.toJson))

section Decode

variable {σ : Type}

/-- Decoding into a string. `mismatch` gives the error for a value of another
kind. -/
def decodeString (mismatch : String → String) (cur : String) : Json → Except String String
  | .string s => .ok s
  | .null => .ok cur
  | v => .error (mismatch v.kind)

/-- Decoding into an `int`: an integer in the range of a 64-bit `int`. -/
def decodeInt (mismatch : String → String) (cur : Int) : Json → Except String Int
  | .number x => if x.den = 1 ∧ -2 ^ 63 ≤ x.num ∧ x.num < 2 ^ 63 then .ok x.num else .error (mismatch "number")
  | .null => .ok cur
  | v => .error (mismatch v.kind)

/-- The members of an object, decoded in order into the fields that `setter`
names; the members of other keys are skipped. -/
def decodeMembers (setter : String → Option (σ → Json → Except String σ)) :
    σ → List (String × Json) → Except String σ
  | s, [] => .ok s
  | s, (key, v) :: rest =>
    match setter key with
    | none => decodeMembers setter s rest
    | some set => set s v >>= fun s' => decodeMembers setter s' rest

/-- Decoding into a struct. -/
def decodeStruct (setter : String → Option (σ → Json → Except String σ)) (mismatch : String → String)
    (cur : σ) : Json → Except String σ
  | .object members => decodeMembers setter cur members
  | .null => .ok cur
  | v => .error (mismatch v.kind)

/-- Storing the members of an object into a map, a later key over an earlier. -/
def insertMembers (m : Map) (members : List (String × Json)) : Map :=
  members.foldl (fun acc member => acc.insert member.1 (.json member.2)) m

/-- Decoding into a `map[string]interface{}`: an object's members are stored
into the map that is there, and `null` sets it to `nil`. -/
def decodeMap (mismatch : String → String) (cur : Map) : Json → Except String Map
  | .object members => .ok (insertMembers cur members)
  | .null => .ok ∅
  | v => .error (mismatch v.kind)

end Decode

/-- An integer in range decodes into an `int` as itself. -/
theorem decodeInt_intCast (mismatch : String → String) (cur n : Int) (range : -2 ^ 63 ≤ n ∧ n < 2 ^ 63) :
    decodeInt mismatch cur (.number n) = .ok n := by
  simp only [decodeInt, Rat.den_intCast, Rat.num_intCast, true_and]
  rw [if_pos range]

/-- Storing a list of entries of distinct keys: the stored value at a key of
the list, the map's value at any other. -/
theorem lookup_foldl_insert (g : Any → Any) (key : String) :
    ∀ (l : List (Σ _ : String, Any)) (acc : Map), l.NodupKeys →
      (l.foldl (fun acc e => acc.insert e.1 (g e.2)) acc).lookup key =
        match l.dlookup key with
        | some v => some (g v)
        | none => acc.lookup key
  | [], _, _ => rfl
  | ⟨k, v⟩ :: rest, acc, nodup => by
    rw [List.nodupKeys_cons] at nodup
    rw [List.foldl_cons, lookup_foldl_insert g key rest _ nodup.2]
    by_cases same : key = k
    · subst same
      rw [List.dlookup_cons_eq, List.dlookup_eq_none.mpr nodup.1, AList.lookup_insert]
    · rw [List.dlookup_cons_ne _ _ same]
      cases rest.dlookup key with
      | some w => rfl
      | none => exact AList.lookup_insert_ne same

/-- A map that `json.Marshal` wrote, stored into a `nil` map, reads as the
map did, each value read back from what was written for it. -/
theorem lookup_insertMembers_marshal (m : Map) (key : String) :
    (insertMembers ∅ (m.entries.map fun e => (e.1, e.2.toJson))).lookup key =
      (m.lookup key).map fun v => .json v.toJson := by
  rw [insertMembers, List.foldl_map,
    lookup_foldl_insert (fun v => Any.json v.toJson) key m.entries ∅ m.nodupKeys]
  cases h : m.entries.dlookup key <;> simp [AList.lookup, h]

end GoJson
