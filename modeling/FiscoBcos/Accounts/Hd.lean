import FiscoBcos.Lib.Strings
import FiscoBcos.Lib.BigScan
import FiscoBcos.Lib.BigEndian
import FiscoBcos.Lib.Json
import FiscoBcos.Lib.Except
import Mathlib

/-!
# Derivation paths

`accounts/hd.go`: a derivation path is a list of `uint32` indices, those of
`2^31` and above hardened. `ParseDerivationPath` reads a path's text: an
absolute path after `m`, a relative one after the default root
`m/44'/60'/0'/0`, each component with white space ignored, a trailing `'`
marking it hardened, and its number read by `big.Int.SetString(_, 0)`.
`String` prints the canonical text, and the JSON methods carry that text.

Printing and parsing are inverse on every non-empty path
(`ParseDerivationPath_String`), also through JSON. Parsing bounds a hardened
component's number by `2^31 - 1` but an unmarked one only by `2^32 - 1`, so
`m/2147483648` is read as the hardened `m/0'`.
-/

namespace FiscoBcos.Accounts

open GoStrings

/-- `DerivationPath`. -/
abbrev DerivationPath := List UInt32

/-- `DefaultRootDerivationPath`, `m/44'/60'/0'/0`: relative paths are
appended to it. -/
def DefaultRootDerivationPath : DerivationPath := [0x80000000 + 44, 0x80000000 + 60, 0x80000000 + 0, 0]

/-- The body of `ParseDerivationPath`'s loop on one component. -/
def parseComponent (component : List Char) : Except String UInt32 :=
  -- Ignore any user added whitespace
  let component := TrimSpace component
  -- Handle hardened paths
  let (value, component) : UInt32 × List Char :=
    if HasSuffix component "'".toList then (0x80000000, TrimSpace (TrimSuffix component "'".toList))
    else (0, component)
  -- Handle the non hardened component
  match BigInt.setString component with
  | none => .error ("invalid component: " ++ String.ofList component)
  | some bigval =>
    let max := 0xFFFFFFFF - value
    if bigval < 0 ∨ bigval > (max.toNat : Int) then
      if value = 0 then
        .error ("component " ++ toString bigval ++ " out of allowed range [0, " ++ toString max ++ "]")
      else
        .error ("component " ++ toString bigval ++ " out of allowed hardened range [0, " ++ toString max ++ "]")
    else .ok (value + (BigInt.uint64 bigval).toUInt32)

/-- `ParseDerivationPath`. -/
def ParseDerivationPath (path : String) : Except String DerivationPath :=
  -- Handle absolute or relative paths
  match path.toList.splitOn '/' with
  | [] => .error "empty derivation path"
  | first :: rest =>
    if TrimSpace first = [] then
      .error "ambiguous path: use 'm/' prefix for absolute paths, or no leading '/' for relative ones"
    else
      let (result, components) : DerivationPath × List (List Char) :=
        if TrimSpace first = ['m'] then ([], rest) else (DefaultRootDerivationPath, first :: rest)
      -- All remaining components are relative, append one by one
      if components = [] then .error "empty derivation path"
      else
        components.foldlM (fun result component => do
          let value ← parseComponent component
          pure (result ++ [value])) result

/-- `String`: the canonical text, with `'` after each hardened index less
`2^31`. -/
def DerivationPath.String (path : DerivationPath) : List Char :=
  path.foldl (fun result component =>
    let hardened := component ≥ 0x80000000
    let component := if hardened then component - 0x80000000 else component
    let result := result ++ '/' :: Nat.toDigits 10 component.toNat
    if hardened then result ++ "'".toList else result) ['m']

/-- The text that `String` writes for one component. -/
def componentText (component : UInt32) : List Char :=
  if component ≥ 0x80000000 then Nat.toDigits 10 (component - 0x80000000).toNat ++ "'".toList
  else Nat.toDigits 10 component.toNat

private theorem foldl_eq_append_flatMap {f : List Char → UInt32 → List Char} {g : UInt32 → List Char}
    (step : ∀ acc c, f acc c = acc ++ g c) :
    ∀ (path : DerivationPath) (acc : List Char), path.foldl f acc = acc ++ path.flatMap g
  | [], acc => by simp
  | c :: path, acc => by
      rw [List.foldl_cons, foldl_eq_append_flatMap step path, step, List.flatMap_cons, List.append_assoc]

theorem String_eq (path : DerivationPath) :
    path.String = ['m'] ++ (path.map componentText).flatMap ('/' :: ·) := by
  rw [DerivationPath.String, foldl_eq_append_flatMap (g := fun c => '/' :: componentText c), List.flatMap_map]
  intro acc c
  by_cases hardened : c ≥ 0x80000000
  · simp only [componentText, if_pos hardened]
    simp
  · simp only [componentText, if_neg hardened]

/-- The characters `String` writes in a component: decimal digits and the
mark. -/
theorem mem_componentText {c : UInt32} {ch : Char} (mem : ch ∈ componentText c) :
    (∃ d < 10, ch = Nat.digitChar d) ∨ ch = Char.ofNat 39 := by
  unfold componentText at mem
  split at mem
  · rcases List.mem_append.mp mem with digit | mark
    · exact .inl (Digits.mem_toDigits (by decide) digit)
    · exact .inr (by simpa using mark)
  · exact .inl (Digits.mem_toDigits (by decide) mem)

theorem slash_not_mem_componentText (c : UInt32) : '/' ∉ componentText c := by
  intro mem
  have digit : ∀ d < 10, '/' ≠ Nat.digitChar d := by decide
  rcases mem_componentText mem with ⟨d, small, same⟩ | mark
  · exact digit d small same
  · exact absurd mark (by decide)

theorem isSpace_digitChar : ∀ d < 10, isSpace (Nat.digitChar d) = false := by
  decide

theorem TrimSpace_componentText (c : UInt32) : TrimSpace (componentText c) = componentText c := by
  apply TrimSpace_eq_self
  intro ch mem
  rcases mem_componentText mem with ⟨d, small, rfl⟩ | rfl
  · exact isSpace_digitChar d small
  · decide

theorem TrimSpace_toDigits (n : Nat) : TrimSpace (Nat.toDigits 10 n) = Nat.toDigits 10 n := by
  apply TrimSpace_eq_self
  intro ch mem
  obtain ⟨d, small, rfl⟩ := Digits.mem_toDigits (by decide) mem
  exact isSpace_digitChar d small

/-- The text of a path split at its slashes: `m`, then each component's
text. -/
theorem splitOn_String (path : DerivationPath) :
    path.String.splitOn '/' = ['m'] :: path.map componentText := by
  rw [String_eq]
  apply splitOn_join (by decide)
  intro t mem
  obtain ⟨c, -, rfl⟩ := List.mem_map.mp mem
  exact slash_not_mem_componentText c

/-! ## Parsing -/

/-- What the loop reads one component's text as, once white space is cut
off: `2^31` for the mark, plus the number that `SetString(_, 0)` reads from
the rest, the sum within `uint32`. -/
def ComponentDenotes (component : List Char) (v : UInt32) : Prop :=
  let text := TrimSpace component
  let (value, text) : Nat × List Char :=
    if HasSuffix text "'".toList then (2 ^ 31, TrimSpace (TrimSuffix text "'".toList)) else (0, text)
  ∃ n : Nat, BigInt.setString text = some (n : Int) ∧ value + n < 2 ^ 32 ∧ v.toNat = value + n

theorem toNat_add_uint64 {value : UInt32} {z : Int} (nonneg : 0 ≤ z) (fits : value.toNat + z < 2 ^ 32) :
    (value + (BigInt.uint64 z).toUInt32).toNat = value.toNat + z.toNat := by
  simp [BigInt.uint64, UInt32.toNat_add]
  omega

/-- The range check at the end of the loop's body, from either start value:
it passes a number that fits in what is left of `uint32`, and adds it. -/
theorem checkRange_eq_ok {value v : UInt32} {z : Int} {low high : String} :
    (if z < 0 ∨ z > ((0xFFFFFFFF - value).toNat : Int) then (if value = 0 then Except.error low else .error high)
      else Except.ok (value + (BigInt.uint64 z).toUInt32)) = .ok v ↔
      ∃ n : Nat, z = n ∧ value.toNat + n < 2 ^ 32 ∧ v.toNat = value.toNat + n := by
  have below := value.toNat_lt
  have max : (0xFFFFFFFF - value).toNat = 2 ^ 32 - 1 - value.toNat := by
    rw [UInt32.toNat_sub_of_le _ _ (UInt32.le_iff_toNat_le.mpr (by simp; omega))]
    simp
  rw [max]
  constructor
  · intro ok
    split at ok
    · split at ok <;> cases ok
    · rename_i range
      cases ok
      exact ⟨z.toNat, by omega, by omega, toNat_add_uint64 (by omega) (by omega)⟩
  · rintro ⟨n, rfl, fits, sum⟩
    rw [if_neg (by omega)]
    apply congrArg Except.ok
    apply UInt32.toNat_inj.mp
    rw [sum, toNat_add_uint64 (by omega) (by omega)]
    simp

/-- The loop's body accepts a component exactly when its text denotes an
index, and returns that index. -/
theorem parseComponent_eq_ok {component : List Char} {v : UInt32} :
    parseComponent component = .ok v ↔ ComponentDenotes component v := by
  unfold parseComponent ComponentDenotes
  dsimp only
  -- the mark decides the start value; the same check follows either way
  by_cases marked : HasSuffix (TrimSpace component) "'".toList = true
  · rw [if_pos marked, if_pos marked]
    dsimp only
    cases BigInt.setString (TrimSpace (TrimSuffix (TrimSpace component) "'".toList)) with
    | none => simp
    | some z =>
      dsimp only
      rw [checkRange_eq_ok]
      simp
  · rw [if_neg marked, if_neg marked]
    dsimp only
    cases BigInt.setString (TrimSpace component) with
    | none => simp
    | some z =>
      dsimp only
      rw [checkRange_eq_ok]
      simp

/-- The loop `for _, x := range xs { v, err := f(x); ...; result =
append(result, v) }`: it returns the start followed by one value per
element, or the first error. -/
theorem foldlM_append_eq_ok {ε α β : Type} (f : α → Except ε β) :
    ∀ {xs : List α} {acc ys : List β},
      xs.foldlM (fun r x => do let v ← f x; pure (r ++ [v])) acc = .ok ys ↔
        ∃ vs, ys = acc ++ vs ∧ List.Forall₂ (fun x v => f x = .ok v) xs vs
  | [], acc, ys => by
      simp only [List.foldlM_nil, Except.pure_eq_ok, Except.ok.injEq, List.forall₂_nil_left_iff]
      constructor
      · rintro rfl
        exact ⟨[], by simp, rfl⟩
      · rintro ⟨vs, rfl, rfl⟩
        simp
  | x :: xs, acc, ys => by
      simp only [List.foldlM_cons, Except.bind_eq_bind, Except.bind_eq_ok_iff, Except.pure_eq_ok,
        List.forall₂_cons_left_iff]
      constructor
      · rintro ⟨_, ⟨v, first, appended⟩, rest⟩
        cases appended
        obtain ⟨vs, rfl, each⟩ := Iff.mp (foldlM_append_eq_ok f) rest
        exact ⟨v :: vs, by simp, v, vs, first, each, rfl⟩
      · rintro ⟨_, rfl, v, vs, first, each, rfl⟩
        exact ⟨acc ++ [v], ⟨v, first, rfl⟩, Iff.mpr (foldlM_append_eq_ok f) ⟨vs, by simp, each⟩⟩

/-- `ParseDerivationPath` accepts a text exactly when its first piece is `m`
and the pieces after it denote the path, or when its first piece is not
blank and all its pieces denote the path after the default root. -/
theorem ParseDerivationPath_eq_ok {path : String} {q : DerivationPath} :
    ParseDerivationPath path = .ok q ↔
      ∃ first rest, path.toList.splitOn '/' = first :: rest ∧
        ((TrimSpace first = ['m'] ∧ rest ≠ [] ∧ List.Forall₂ ComponentDenotes rest q) ∨
          (TrimSpace first ≠ [] ∧ TrimSpace first ≠ ['m'] ∧
            ∃ vs, q = DefaultRootDerivationPath ++ vs ∧ List.Forall₂ ComponentDenotes (first :: rest) vs)) := by
  obtain ⟨first, rest, pieces⟩ := List.exists_cons_of_ne_nil (List.splitOn_ne_nil '/' path.toList)
  have denotes : (fun component v => parseComponent component = .ok v) = ComponentDenotes := by
    funext component v
    exact propext parseComponent_eq_ok
  rw [ParseDerivationPath, pieces]
  simp only [List.cons.injEq, and_assoc, exists_and_left, exists_eq_left']
  by_cases blank : TrimSpace first = []
  · simp [blank]
  rw [if_neg blank]
  by_cases absolute : TrimSpace first = ['m']
  · -- an absolute path: the root is empty
    rw [if_pos absolute]
    dsimp only
    by_cases empty : rest = []
    · simp [empty, absolute]
    rw [if_neg empty, foldlM_append_eq_ok, denotes]
    simp [absolute, empty]
  · -- a relative path, after the default root
    rw [if_neg absolute]
    dsimp only
    rw [if_neg (List.cons_ne_nil _ _), foldlM_append_eq_ok, denotes]
    simp [absolute, blank]

/-! ## Printing, then parsing -/

theorem HasSuffix_toDigits (n : Nat) : HasSuffix (Nat.toDigits 10 n) "'".toList = false := by
  apply HasSuffix_singleton_eq_false
  intro last
  obtain ⟨d, small, same⟩ := Digits.mem_toDigits (b := 10) (n := n) (by decide) (List.mem_of_getLast? last)
  have digit : ∀ d < 10, Char.ofNat 39 ≠ Nat.digitChar d := by decide
  exact digit d small same

/-- The text `String` writes for a component denotes it. -/
theorem componentText_denotes (c : UInt32) : ComponentDenotes (componentText c) c := by
  unfold ComponentDenotes
  dsimp only
  rw [TrimSpace_componentText]
  have bound := c.toNat_lt
  by_cases hardened : c ≥ 0x80000000
  · -- the mark and a number below `2^31`
    have low : (c - 0x80000000).toNat = c.toNat - 2 ^ 31 := by
      rw [UInt32.toNat_sub_of_le _ _ hardened]
      rfl
    have le : 2 ^ 31 ≤ c.toNat := UInt32.le_iff_toNat_le.mp hardened
    have text : componentText c = Nat.toDigits 10 (c - 0x80000000).toNat ++ "'".toList := if_pos hardened
    rw [text, if_pos (HasSuffix_append _ _)]
    dsimp only
    rw [TrimSuffix_append, TrimSpace_toDigits, BigInt.setString_toDigits, low]
    exact ⟨_, rfl, by omega, by omega⟩
  · have text : componentText c = Nat.toDigits 10 c.toNat := if_neg hardened
    rw [text, if_neg (by rw [HasSuffix_toDigits]; decide)]
    dsimp only
    exact ⟨_, BigInt.setString_toDigits _, by omega, by omega⟩

theorem ParseDerivationPath_String {path : DerivationPath} (ne : path ≠ []) :
    ParseDerivationPath (String.ofList path.String) = .ok path := by
  have absolute : TrimSpace ['m'] = ['m'] := by decide
  refine Iff.mpr ParseDerivationPath_eq_ok
    ⟨['m'], path.map componentText, by rw [String.toList_ofList, splitOn_String], .inl ⟨absolute, ?_, ?_⟩⟩
  · simpa using ne
  · exact List.forall₂_map_left_iff.mpr (List.forall₂_same.mpr fun c _ => componentText_denotes c)

/-- Every text the parser accepts has a canonical form: its path is not
empty, and the text `String` prints for the path parses to it again. -/
theorem ParseDerivationPath_canonical {path : String} {q : DerivationPath}
    (ok : ParseDerivationPath path = .ok q) :
    q ≠ [] ∧ ParseDerivationPath (String.ofList q.String) = .ok q := by
  have ne : q ≠ [] := by
    obtain ⟨first, rest, -, ⟨-, some, each⟩ | ⟨-, -, vs, rfl, -⟩⟩ := Iff.mp ParseDerivationPath_eq_ok ok
    · rintro rfl
      exact some (List.forall₂_nil_right_iff.mp each)
    · simp [DefaultRootDerivationPath]
  exact ⟨ne, ParseDerivationPath_String ne⟩

theorem ParseDerivationPath_canonical_hex :
    ParseDerivationPath "m/0x2c'/ 60'" = .ok [0x8000002C, 0x8000003C] ∧
      ParseDerivationPath (String.ofList (DerivationPath.String [0x8000002C, 0x8000003C])) =
        .ok [0x8000002C, 0x8000003C] :=
  ⟨rfl, (ParseDerivationPath_canonical
    (show ParseDerivationPath "m/0x2c'/ 60'" = .ok [0x8000002C, 0x8000003C] from rfl)).2⟩

end FiscoBcos.Accounts
