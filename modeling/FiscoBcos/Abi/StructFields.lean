import FiscoBcos.Abi.NewType
import Mathlib

/-!
# Mapping arguments to struct fields

`mapArgNamesToStructFields` of `accounts/abi/reflect.go` decides which field
of a struct each output of a call is unpacked into, for the struct case of
`Arguments.unpackTuple`. The first round pairs every field that passes its
test for an exported name and carries an `abi` tag with the argument of that
name; the second pairs each argument left with the field `ToCamelCase` names,
if there is one, and marks the name as used either way.

Go reads a missing key of a `map[string]string` as `""`; the maps are
functions here, `""` for a key that is not in them, and `m[k] = v` is
`Function.update`.

Every argument is mapped to a field tagged with it or, when no field is, to
its camel-case field, and every tagged field is mapped from its tag
(`mapArgNamesToStructFields_paired`); the mapping is injective when the
field names are distinct (`mapArgNamesToStructFields_injective`). Both are
stated for the fields that pass the code's test for an exported name, that
`strings.ToUpper` leaves the first byte unchanged. On names that start with
a letter that is Go's rule (`passesExportCheck_of_letter`), but a name that
starts with `_` passes it though Go does not export it, and a struct may
have several blank fields `_` (`mapArgNamesToStructFields_unexported`).
-/

namespace FiscoBcos.Abi

/-- A field of a struct type: its name, and its `abi` tag if it has one
(`Tag.Lookup("abi")`). A Go field name is never empty. -/
structure StructField where
  name : List Char
  tag : Option (List Char)
  name_ne_nil : name ≠ []

/-- A struct type, by its fields in order. Only the blank name `_` may
repeat. -/
structure StructType where
  fields : List StructField
  distinct : ((fields.map StructField.name).filter (· ≠ ['_'])).Nodup

/-- A `map[string]string`: a key that is not in it reads as `""`. -/
abbrev GoMap := List Char → List Char

/-- `value.FieldByName(name)` on the fields of the struct itself: the first
field of that name. -/
def fieldByName (fields : List StructField) (name : List Char) : Option StructField :=
  fields.find? (·.name = name)

/-- The test of the first round that skips private fields,
`structFieldName[:1] != strings.ToUpper(structFieldName[:1])`, on the first
byte: an ASCII byte other than a lower-case letter passes it, and the first
byte of a longer character, which `ToUpper` turns into U+FFFD, fails it. -/
def passesExportCheck : List Char → Bool
  | [] => false
  | c :: _ => c.toNat < 128 && c.toUpper == c

/-- Go's rule for a field that reflection may hand out: its name starts with
an upper-case letter (of ASCII, here). -/
def isExported : List Char → Bool
  | [] => false
  | c :: _ => c.isUpper

/-- The test and Go's rule agree on the ASCII characters that are letters. -/
theorem passesExportCheck_ascii : ∀ n < 128, (Char.ofNat n).isAlpha = true →
    passesExportCheck [Char.ofNat n] = isExported [Char.ofNat n] := by
  decide

/-- A name that starts with a letter passes the test exactly when Go exports
it; a name that starts with `_` passes it and is not exported. -/
theorem passesExportCheck_of_letter {c : Char} (cs : List Char) (letter : c.isAlpha = true) :
    passesExportCheck (c :: cs) = isExported (c :: cs) := by
  have small : c.toNat < 128 := by
    obtain ⟨_, hi⟩ | ⟨_, hi⟩ : (65 ≤ c.toNat ∧ c.toNat ≤ 90) ∨ (97 ≤ c.toNat ∧ c.toNat ≤ 122) := by
      simpa [Char.isAlpha, Char.isUpper, Char.isLower, UInt32.le_iff_toNat_le] using letter
    all_goals omega
  have agree := passesExportCheck_ascii c.toNat small (by rwa [Char.ofNat_toNat])
  rwa [Char.ofNat_toNat] at agree

theorem passesExportCheck_of_letter_a :
    'a'.isAlpha = true ∧ passesExportCheck ['a', 'b'] = isExported ['a', 'b'] :=
  ⟨by decide, passesExportCheck_of_letter ['b'] (by decide)⟩

/-! ## The two rounds -/

/-- The argument loop of the first round for the field `name` tagged
`tagName`: the argument equal to the tag is paired with the field, and
`found` records that it was; a second one is an error. -/
def pairTagged (name tagName : List Char) :
    List (List Char) → GoMap → GoMap → Bool → Except AbiError (GoMap × GoMap × Bool)
  | [], abi2struct, struct2abi, found => .ok (abi2struct, struct2abi, found)
  | arg :: args, abi2struct, struct2abi, found =>
    if arg = tagName then
      if abi2struct arg ≠ [] then
        .error (.msg ("struct: abi tag in '" ++ String.ofList name ++ "' already mapped"))
      else
        pairTagged name tagName args (Function.update abi2struct arg name)
          (Function.update struct2abi name arg) true
    else pairTagged name tagName args abi2struct struct2abi found

/-- The first round, over the fields in order. -/
def firstRound (argNames : List (List Char)) :
    List StructField → GoMap → GoMap → Except AbiError (GoMap × GoMap)
  | [], abi2struct, struct2abi => .ok (abi2struct, struct2abi)
  | f :: fs, abi2struct, struct2abi =>
    if !passesExportCheck f.name then firstRound argNames fs abi2struct struct2abi
    else match f.tag with
    | none => firstRound argNames fs abi2struct struct2abi
    | some tagName =>
      if tagName = [] then
        .error (.msg ("struct: abi tag in '" ++ String.ofList f.name ++ "' is empty"))
      else match pairTagged f.name tagName argNames abi2struct struct2abi false with
      | .error e => .error e
      | .ok (abi2struct, struct2abi, found) =>
        if !found then
          .error (.msg ("struct: abi tag '" ++ String.ofList tagName ++ "' defined but not found in abi"))
        else firstRound argNames fs abi2struct struct2abi

/-- The second round, over the argument names in order. -/
def secondRound (fields : List StructField) :
    List (List Char) → GoMap → GoMap → Except AbiError GoMap
  | [], abi2struct, _ => .ok abi2struct
  | argName :: argNames, abi2struct, struct2abi =>
    let structFieldName := ToCamelCase argName
    if structFieldName = [] then .error (.msg "abi: purely underscored output cannot unpack to struct")
    else if abi2struct argName ≠ [] then
      -- paired in the first round: an error if the camel-case field is another, unused one
      if abi2struct argName ≠ structFieldName ∧ struct2abi structFieldName = [] ∧
          (fieldByName fields structFieldName).isSome then
        .error (.msg ("abi: multiple variables maps to the same abi field '" ++
          String.ofList argName ++ "'"))
      else secondRound fields argNames abi2struct struct2abi
    else if struct2abi structFieldName ≠ [] then
      .error (.msg ("abi: multiple outputs mapping to the same struct field '" ++
        String.ofList structFieldName ++ "'"))
    else if (fieldByName fields structFieldName).isSome then
      secondRound fields argNames (Function.update abi2struct argName structFieldName)
        (Function.update struct2abi structFieldName argName)
    else
      -- not paired, but marked as used, so that `value` and `_value` collide
      secondRound fields argNames abi2struct (Function.update struct2abi structFieldName argName)

/-- `mapArgNamesToStructFields(argNames, value)`: the map `abi2struct`. -/
def mapArgNamesToStructFields (argNames : List (List Char)) (typ : StructType) :
    Except AbiError GoMap :=
  match firstRound argNames typ.fields (fun _ => []) (fun _ => []) with
  | .error e => .error e
  | .ok (abi2struct, struct2abi) => secondRound typ.fields argNames abi2struct struct2abi

/-- The struct case of `Arguments.unpackTuple`: the field each non-indexed
argument is unpacked into, in order. `unpack` is the unpacking of the
argument's value into the field; `field.Addr().Interface()` before it panics
on a field that is not exported. -/
def unpackTupleFields (unpack : Argument → StructField → Except AbiError Unit)
    (args : List Argument) (typ : StructType) : Except AbiError (List StructField) :=
  let nonIndexed := args.filter fun a => !a.indexed
  match mapArgNamesToStructFields (nonIndexed.map fun a => a.name.toList) typ with
  | .error e => .error e
  | .ok abi2struct => nonIndexed.mapM fun arg =>
    match fieldByName typ.fields (abi2struct arg.name.toList) with
    | none => .error (.msg ("abi: field " ++ arg.name ++ " can't be found in the given value"))
    | some field =>
      if !isExported field.name then
        .error (.panic "reflect.Value.Interface: cannot return value obtained from unexported field or method")
      else (unpack arg field).map fun () => field

/-! ## What one step of each round does -/

section Steps

variable {fields : List StructField} {argNames : List (List Char)}

/-- The argument loop pairs the tag with the field once, where it was not
paired, or finds no argument of that name. -/
theorem pairTagged_eq_ok {name tagName : List Char} (named : name ≠ []) :
    ∀ {args : List (List Char)} {a2s s2a : GoMap} {found : Bool} {r : GoMap × GoMap × Bool},
    pairTagged name tagName args a2s s2a found = .ok r →
    (tagName ∉ args ∧ r = (a2s, s2a, found)) ∨
      (a2s tagName = [] ∧
        r = (Function.update a2s tagName name, Function.update s2a name tagName, true))
  | [], _, _, _, _, h => by
    rw [pairTagged, Except.ok.injEq] at h
    exact .inl ⟨List.not_mem_nil, h.symm⟩
  | arg :: args, a2s, s2a, found, r, h => by
    rw [pairTagged] at h
    split_ifs at h with same paired
    · subst same
      rcases pairTagged_eq_ok named h with ⟨_, rfl⟩ | ⟨again, _⟩
      · exact .inr ⟨not_not.mp paired, rfl⟩
      · -- the tag is paired now, so a second argument of its name is an error
        rw [Function.update_self] at again
        exact absurd again named
    · rcases pairTagged_eq_ok named h with ⟨absent, rfl⟩ | pairs
      · exact .inl ⟨fun mem => (List.mem_cons.mp mem).elim (fun eq => same eq.symm) absent, rfl⟩
      · exact .inr pairs

/-- A field of the first round is skipped, or pairs its tag, which was not
paired before, with its name. -/
theorem firstRound_cons_eq_ok {f : StructField} {fs : List StructField} {a2s s2a : GoMap}
    {r : GoMap × GoMap} (h : firstRound argNames (f :: fs) a2s s2a = .ok r) :
    ((passesExportCheck f.name = false ∨ f.tag = none) ∧ firstRound argNames fs a2s s2a = .ok r) ∨
      ∃ t, passesExportCheck f.name = true ∧ f.tag = some t ∧ t ≠ [] ∧ a2s t = [] ∧
        firstRound argNames fs (Function.update a2s t f.name) (Function.update s2a f.name t) = .ok r := by
  rw [firstRound] at h
  split_ifs at h with private_
  · exact .inl ⟨.inl (by simpa using private_), h⟩
  rcases tagged : f.tag with _ | t
  · rw [tagged] at h
    exact .inl ⟨.inr rfl, h⟩
  rw [tagged] at h
  dsimp only at h
  split_ifs at h with empty
  rcases paired : pairTagged f.name t argNames a2s s2a false with e | ⟨a2s', s2a', found⟩
  · rw [paired] at h
    cases h
  rw [paired] at h
  dsimp only at h
  split_ifs at h with notFound
  rcases pairTagged_eq_ok f.name_ne_nil paired with ⟨_, same⟩ | ⟨unpaired, same⟩
  · simp only [Prod.mk.injEq] at same
    simp [same.2.2] at notFound
  · simp only [Prod.mk.injEq] at same
    obtain ⟨rfl, rfl, rfl⟩ := same
    exact .inr ⟨t, by simpa using private_, rfl, empty, unpaired, h⟩

/-- An argument of the second round was paired in the first, or is paired
with its camel-case field, or marks that name used. -/
theorem secondRound_cons_eq_ok {a : List Char} {as : List (List Char)} {a2s s2a m : GoMap}
    (h : secondRound fields (a :: as) a2s s2a = .ok m) :
    ToCamelCase a ≠ [] ∧
      ((a2s a ≠ [] ∧ secondRound fields as a2s s2a = .ok m) ∨
        (a2s a = [] ∧ s2a (ToCamelCase a) = [] ∧ (fieldByName fields (ToCamelCase a)).isSome ∧
          secondRound fields as (Function.update a2s a (ToCamelCase a))
            (Function.update s2a (ToCamelCase a) a) = .ok m) ∨
        (a2s a = [] ∧ s2a (ToCamelCase a) = [] ∧ (fieldByName fields (ToCamelCase a)).isSome = false ∧
          secondRound fields as a2s (Function.update s2a (ToCamelCase a) a) = .ok m)) := by
  rw [secondRound] at h
  split_ifs at h with underscored paired collides used found
  · exact ⟨underscored, .inl ⟨paired, h⟩⟩
  · exact ⟨underscored, .inr (.inl ⟨not_not.mp paired, not_not.mp used, found, h⟩)⟩
  · exact ⟨underscored, .inr (.inr ⟨not_not.mp paired, not_not.mp used, by simpa using found, h⟩)⟩

end Steps

/-! ## The invariants of the rounds -/

/-- The field `name`, which passes the export test, is tagged `a`. -/
def TaggedField (fields : List StructField) (a name : List Char) : Prop :=
  ∃ f ∈ fields, passesExportCheck f.name = true ∧ f.tag = some a ∧ f.name = name

/-- No field that passes the export test is tagged `a`, and `name` is the
field `ToCamelCase a` names. -/
def CamelCaseField (fields : List StructField) (a name : List Char) : Prop :=
  (∀ f ∈ fields, passesExportCheck f.name = true → f.tag ≠ some a) ∧ name = ToCamelCase a ∧
    (fieldByName fields name).isSome

/-- What `abi2struct` holds from the end of the first round on: only
arguments are keys, each is paired with a field tagged with it or with its
camel-case field, and every tagged field is paired with its tag. -/
structure Paired (fields : List StructField) (abi2struct : GoMap) : Prop where
  nil : abi2struct [] = []
  sound : ∀ a, abi2struct a ≠ [] →
    TaggedField fields a (abi2struct a) ∨ CamelCaseField fields a (abi2struct a)
  complete : ∀ f ∈ fields, passesExportCheck f.name = true → ∀ t, f.tag = some t →
    abi2struct t = f.name

/-- `struct2abi` holds every argument `abi2struct` pairs at its field. -/
def Inverse (abi2struct struct2abi : GoMap) : Prop :=
  ∀ a, abi2struct a ≠ [] → struct2abi (abi2struct a) = a

theorem ToCamelCase_nil : ToCamelCase [] = [] := rfl

/-- Pairing an unpaired key keeps every pair already made. -/
theorem update_of_paired {a2s : GoMap} {t a name : List Char} (unpaired : a2s t = [])
    (paired : a2s a ≠ []) : Function.update a2s t name a = a2s a := by
  refine Function.update_of_ne ?_ _ _
  rintro rfl
  exact paired unpaired

theorem ne_nil_of_camelCase {a : List Char} (named : ToCamelCase a ≠ []) : a ≠ [] := by
  rintro rfl
  exact named ToCamelCase_nil

/-- A field `struct2abi` does not use holds no pair. -/
theorem Inverse.ne_of_unused {a2s s2a : GoMap} (back : Inverse a2s s2a) (nil : a2s [] = [])
    {name : List Char} (unused : s2a name = []) {b : List Char} (paired : a2s b ≠ []) :
    a2s b ≠ name := by
  intro eq
  have held := back b paired
  rw [eq, unused] at held
  subst held
  exact paired nil

section Runs

variable {fields : List StructField} {argNames : List (List Char)}

/-- The first round keeps every pair made before it. -/
theorem firstRound_keeps : ∀ {fs : List StructField} {a2s s2a : GoMap} {r : GoMap × GoMap},
    firstRound argNames fs a2s s2a = .ok r → ∀ a, a2s a ≠ [] → r.1 a = a2s a
  | [], _, _, _, h, _, _ => by
    rw [firstRound, Except.ok.injEq] at h
    rw [← h]
  | f :: _, a2s, _, _, h, a, paired => by
    rcases firstRound_cons_eq_ok h with ⟨_, rest⟩ | ⟨t, _, _, _, unpaired, rest⟩
    · exact firstRound_keeps rest a paired
    · have kept : Function.update a2s t f.name a = a2s a := update_of_paired unpaired paired
      rw [firstRound_keeps rest a (kept ▸ paired), kept]

/-- After the first round every field of it that passes the export test and
carries a tag is paired with the tag. -/
theorem firstRound_complete : ∀ {fs : List StructField} {a2s s2a : GoMap} {r : GoMap × GoMap},
    firstRound argNames fs a2s s2a = .ok r →
    ∀ f ∈ fs, passesExportCheck f.name = true → ∀ t, f.tag = some t → r.1 t = f.name
  | [], _, _, _, _, _, mem, _, _, _ => absurd mem List.not_mem_nil
  | g :: _, a2s, _, _, h, f, mem, passes, t, tagged => by
    rcases List.mem_cons.mp mem with rfl | later
    · rcases firstRound_cons_eq_ok h with ⟨skipped, _⟩ | ⟨t', _, tagged', _, _, rest⟩
      · rcases skipped with fails | untagged
        · simp [passes] at fails
        · simp [tagged] at untagged
      · obtain rfl : t = t' := Option.some.inj (tagged.symm.trans tagged')
        have now : Function.update a2s t f.name t ≠ [] := by
          rw [Function.update_self]
          exact f.name_ne_nil
        rw [firstRound_keeps rest t now, Function.update_self]
    · rcases firstRound_cons_eq_ok h with ⟨_, rest⟩ | ⟨_, _, _, _, _, rest⟩
      · exact firstRound_complete rest f later passes t tagged
      · exact firstRound_complete rest f later passes t tagged

/-- The first round pairs arguments only with the fields of the struct
tagged with them. -/
theorem firstRound_sound : ∀ {fs : List StructField} {a2s s2a : GoMap} {r : GoMap × GoMap},
    (∀ f ∈ fs, f ∈ fields) → firstRound argNames fs a2s s2a = .ok r →
    a2s [] = [] → (∀ a, a2s a ≠ [] → TaggedField fields a (a2s a)) →
    r.1 [] = [] ∧ ∀ a, r.1 a ≠ [] → TaggedField fields a (r.1 a)
  | [], _, _, _, _, h, nil, sound => by
    rw [firstRound, Except.ok.injEq] at h
    exact h ▸ ⟨nil, sound⟩
  | f :: _, a2s, _, _, sub, h, nil, sound => by
    have rest_sub : ∀ g ∈ _, g ∈ fields := fun g mem => sub g (List.mem_cons_of_mem f mem)
    rcases firstRound_cons_eq_ok h with ⟨_, rest⟩ | ⟨t, passes, tagged, named, _, rest⟩
    · exact firstRound_sound rest_sub rest nil sound
    · refine firstRound_sound rest_sub rest ?_ ?_
      · rw [Function.update_of_ne (Ne.symm named), nil]
      · intro a paired
        rcases eq_or_ne a t with rfl | other
        · rw [Function.update_self]
          exact ⟨f, sub f List.mem_cons_self, passes, tagged, rfl⟩
        · rw [Function.update_of_ne other] at paired ⊢
          exact sound a paired

/-- With distinct field names, each field the first round pairs was not
paired before, so `struct2abi` holds every pair back. -/
theorem firstRound_inverse : ∀ {fs : List StructField} {a2s s2a : GoMap} {r : GoMap × GoMap},
    (fs.map StructField.name).Nodup → firstRound argNames fs a2s s2a = .ok r →
    (∀ a, a2s a ≠ [] → a2s a ∉ fs.map StructField.name) → Inverse a2s s2a → Inverse r.1 r.2
  | [], _, _, _, _, h, _, back => by
    rw [firstRound, Except.ok.injEq] at h
    exact h ▸ back
  | f :: fs, a2s, s2a, _, distinct, h, fresh, back => by
    have fresh_rest : ∀ a, a2s a ≠ [] → a2s a ∉ fs.map StructField.name := fun a paired mem =>
      fresh a paired (List.mem_cons_of_mem _ mem)
    have distinct_rest := (List.nodup_cons.mp distinct).2
    rcases firstRound_cons_eq_ok h with ⟨_, rest⟩ | ⟨t, _, _, _, unpaired, rest⟩
    · exact firstRound_inverse distinct_rest rest fresh_rest back
    · refine firstRound_inverse distinct_rest rest ?_ ?_
      · intro a paired
        rcases eq_or_ne a t with rfl | other
        · rw [Function.update_self]
          exact (List.nodup_cons.mp distinct).1
        · rw [Function.update_of_ne other] at paired ⊢
          exact fresh_rest a paired
      · intro a paired
        rcases eq_or_ne a t with rfl | other
        · rw [Function.update_self, Function.update_self]
        · rw [Function.update_of_ne other] at paired ⊢
          -- the field's name is fresh, so the old pair is untouched
          have other : a2s a ≠ f.name := fun eq => fresh a paired (eq ▸ List.mem_cons_self)
          rw [Function.update_of_ne other, back a paired]

/-- The second round keeps `Paired`: it pairs only an argument no tagged
field claims, with its camel-case field. -/
theorem secondRound_paired : ∀ {as : List (List Char)} {a2s s2a m : GoMap},
    Paired fields a2s → secondRound fields as a2s s2a = .ok m → Paired fields m
  | [], _, _, _, inv, h => by
    rw [secondRound, Except.ok.injEq] at h
    exact h ▸ inv
  | a :: _, a2s, _, _, inv, h => by
    obtain ⟨named, step⟩ := secondRound_cons_eq_ok h
    rcases step with ⟨_, rest⟩ | ⟨unpaired, _, found, rest⟩ | ⟨_, _, _, rest⟩
    · exact secondRound_paired inv rest
    · have untagged : ∀ f ∈ fields, passesExportCheck f.name = true → f.tag ≠ some a :=
        fun f mem passes tagged => f.name_ne_nil (inv.complete f mem passes a tagged ▸ unpaired)
      refine secondRound_paired ⟨?_, ?_, ?_⟩ rest
      · rw [Function.update_of_ne (ne_nil_of_camelCase named).symm, inv.nil]
      · intro b paired
        rcases eq_or_ne b a with rfl | other
        · rw [Function.update_self]
          exact .inr ⟨untagged, rfl, found⟩
        · rw [Function.update_of_ne other] at paired ⊢
          exact inv.sound b paired
      · intro f mem passes t tagged
        have before := inv.complete f mem passes t tagged
        have paired : a2s t ≠ [] := before ▸ f.name_ne_nil
        rw [update_of_paired unpaired paired, before]
    · exact secondRound_paired inv rest

/-- The second round keeps `Inverse`: the field it pairs is unused. -/
theorem secondRound_inverse : ∀ {as : List (List Char)} {a2s s2a m : GoMap},
    a2s [] = [] → Inverse a2s s2a → secondRound fields as a2s s2a = .ok m →
    ∃ s2a', m [] = [] ∧ Inverse m s2a'
  | [], _, s2a, _, nil, back, h => by
    rw [secondRound, Except.ok.injEq] at h
    exact ⟨s2a, h ▸ nil, h ▸ back⟩
  | a :: _, a2s, s2a, _, nil, back, h => by
    obtain ⟨named, step⟩ := secondRound_cons_eq_ok h
    rcases step with ⟨_, rest⟩ | ⟨_, unused, _, rest⟩ | ⟨_, unused, _, rest⟩
    · exact secondRound_inverse nil back rest
    · refine secondRound_inverse ?_ ?_ rest
      · rw [Function.update_of_ne (ne_nil_of_camelCase named).symm, nil]
      · intro b paired
        rcases eq_or_ne b a with rfl | other
        · rw [Function.update_self, Function.update_self]
        · rw [Function.update_of_ne other] at paired ⊢
          rw [Function.update_of_ne (back.ne_of_unused nil unused paired), back b paired]
    · refine secondRound_inverse nil ?_ rest
      intro b paired
      rw [Function.update_of_ne (back.ne_of_unused nil unused paired), back b paired]

end Runs

/-! ## The mapping -/

theorem mapArgNamesToStructFields_eq_ok {argNames : List (List Char)} {typ : StructType} {m : GoMap}
    (h : mapArgNamesToStructFields argNames typ = .ok m) :
    ∃ a2s s2a, firstRound argNames typ.fields (fun _ => []) (fun _ => []) = .ok (a2s, s2a) ∧
      secondRound typ.fields argNames a2s s2a = .ok m := by
  unfold mapArgNamesToStructFields at h
  rcases first : firstRound argNames typ.fields (fun _ => []) (fun _ => []) with e | ⟨a2s, s2a⟩
  · rw [first] at h
    cases h
  · rw [first] at h
    exact ⟨a2s, s2a, rfl, h⟩

/-- Every argument the mapping pairs goes to a field, which passes the
export test, tagged with it or, when no such field is, to its camel-case
field; every field that passes the export test and carries a tag is paired
with its tag. -/
theorem mapArgNamesToStructFields_paired {argNames : List (List Char)} {typ : StructType} {m : GoMap}
    (h : mapArgNamesToStructFields argNames typ = .ok m) : Paired typ.fields m := by
  obtain ⟨a2s, s2a, first, second⟩ := mapArgNamesToStructFields_eq_ok h
  have tagged := firstRound_sound (fun f mem => mem) first rfl fun _ paired => absurd rfl paired
  exact secondRound_paired
    ⟨tagged.1, fun a paired => .inl (tagged.2 a paired), firstRound_complete first⟩ second

/-- One argument, tagged on the field `A`. -/
def taggedStruct : StructType := ⟨[⟨['A'], some ['a'], by decide⟩], by decide⟩

theorem mapArgNamesToStructFields_paired_tagged :
    ∃ m, mapArgNamesToStructFields [['a']] taggedStruct = .ok m ∧ Paired taggedStruct.fields m := by
  obtain ⟨m, h⟩ : ∃ m, mapArgNamesToStructFields [['a']] taggedStruct = .ok m := ⟨_, rfl⟩
  exact ⟨m, h, mapArgNamesToStructFields_paired h⟩

/-- With distinct field names, no two arguments are paired with one field. -/
theorem mapArgNamesToStructFields_injective {argNames : List (List Char)} {typ : StructType}
    {m : GoMap} (distinct : (typ.fields.map StructField.name).Nodup)
    (h : mapArgNamesToStructFields argNames typ = .ok m) {a b : List Char} (mapped : m a ≠ [])
    (same : m a = m b) : a = b := by
  obtain ⟨a2s, s2a, first, second⟩ := mapArgNamesToStructFields_eq_ok h
  have nil := (firstRound_sound (fun f mem => mem) first rfl fun _ paired => absurd rfl paired).1
  have inverse := firstRound_inverse distinct first (fun _ paired => absurd rfl paired)
    fun _ paired => absurd rfl paired
  obtain ⟨s2a', -, back⟩ := secondRound_inverse nil inverse second
  have held_a := back a mapped
  have held_b := back b (same ▸ mapped)
  rw [← same] at held_b
  exact held_a.symm.trans held_b

theorem mapArgNamesToStructFields_injective_tagged :
    ∃ m, mapArgNamesToStructFields [['a']] taggedStruct = .ok m ∧ m ['a'] = ['A'] ∧ ['a'] = ['a'] := by
  obtain ⟨m, h⟩ : ∃ m, mapArgNamesToStructFields [['a']] taggedStruct = .ok m := ⟨_, rfl⟩
  have value : m ['a'] = ['A'] := by
    have read : (mapArgNamesToStructFields [['a']] taggedStruct).map (fun m => m ['a']) = .ok ['A'] := rfl
    rw [h] at read
    exact Except.ok.inj read
  exact ⟨m, h, value, mapArgNamesToStructFields_injective (by decide) h (by rw [value]; decide) rfl⟩

/-- The field `_x`, which Go does not export, passes the test: the argument
`a` is paired with it and unpacking into it panics, whatever `unpack` does.
Two blank fields tagged `a` and `b` are paired with both arguments under the
one name `_`. -/
theorem mapArgNamesToStructFields_unexported (unpack : Argument → StructField → Except AbiError Unit) :
    (mapArgNamesToStructFields [['a']] ⟨[⟨['_', 'x'], some ['a'], by decide⟩], by decide⟩).map
        (fun m => m ['a']) = .ok ['_', 'x'] ∧
      isExported ['_', 'x'] = false ∧
      unpackTupleFields unpack [⟨"a", .uint 256, false⟩] ⟨[⟨['_', 'x'], some ['a'], by decide⟩], by decide⟩ =
        .error (.panic "reflect.Value.Interface: cannot return value obtained from unexported field or method") ∧
      (mapArgNamesToStructFields [['a'], ['b']]
          ⟨[⟨['_'], some ['a'], by decide⟩, ⟨['_'], some ['b'], by decide⟩], by decide⟩).map
        (fun m => (m ['a'], m ['b'])) = .ok (['_'], ['_']) :=
  ⟨rfl, rfl, rfl, rfl⟩

end FiscoBcos.Abi
