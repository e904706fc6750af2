import FiscoBcos.Lib.BigEndian
import Mathlib

/-!
# Trie key encodings

`trie/encoding.go`. A key reaches the trie as KEYBYTES and is walked as HEX:
one nibble per element, with the terminator `16` after the last nibble of a
key that ends at a value. Collapsed nodes keep their keys in COMPACT
(hex-prefix) encoding. A nibble is a `Fin 17`: every HEX key of the package
comes out of `keybytesToHex` or `compactToHex`, whose elements are halves of
bytes and the terminator.

The keys of stored values are `Terminated`: nibbles below 16, then the
terminator. They are prefix-free (`Terminated.eq_nil_of_append`), which is
what lets a trie hold a key together with its extensions. The keys of short
nodes are `Terminated` (leaves) or `Plain` (extensions), and on both
`compactToHex` undoes `hexToCompact`.
-/

namespace FiscoBcos.Trie

/-- A HEX nibble: `0..15`, or the terminator `16`. -/
abbrev Nibble := Fin 17

/-- There are seventeen nibbles, so `Fin 17` has numerals; the instance is
named once, for every numeral to share. -/
instance nibbleCount_neZero : NeZero (17 : Nat) := ⟨by decide⟩

/-- The high and low nibbles of a byte. -/
def byteNibbles (b : UInt8) : List Nibble :=
  [Fin.ofNat 17 (b / 16).toNat, Fin.ofNat 17 (b % 16).toNat]

/-- `keybytesToHex`: two nibbles per byte, then the terminator. -/
def keybytesToHex (str : List UInt8) : List Nibble :=
  str.flatMap byteNibbles ++ [16]

/-- `hasTerm`: the key ends with the terminator. -/
def hasTerm (s : List Nibble) : Bool :=
  s.getLast? == some 16

/-- `decodeNibbles`: pairs of nibbles into bytes, high nibble first. Both
callers pass an even number of nibbles; on an odd one Go would index past the
end. -/
def decodeNibbles : List Nibble → List UInt8
  | hi :: lo :: rest => (hi.val.toUInt8 <<< 4 ||| lo.val.toUInt8) :: decodeNibbles rest
  | _ => []

/-- `hexToCompact`: the flag byte holds the terminator flag (bit 5), the odd
flag (bit 4) and, for an odd number of nibbles, the first nibble. -/
def hexToCompact (hex : List Nibble) : List UInt8 :=
  let terminator : UInt8 := if hasTerm hex then 1 else 0
  let hex := if hasTerm hex then hex.dropLast else hex
  if hex.length % 2 = 1 then
    (terminator <<< 5 ||| (1 : UInt8) <<< 4 ||| (hex.headD 0).val.toUInt8) :: decodeNibbles hex.tail
  else
    (terminator <<< 5) :: decodeNibbles hex

/-- `compactToHex`: read the flag nibble, drop the terminator unless the
terminator flag is set, and drop the flag nibble (and the padding nibble of
an even key). -/
def compactToHex (compact : List UInt8) : List Nibble :=
  if compact = [] then [] else
  let base := keybytesToHex compact
  let base := if base.headD 0 < 2 then base.dropLast else base
  let chop := 2 - (base.headD 0).val % 2
  base.drop chop

/-- `prefixLen`: the length of the common prefix. -/
def prefixLen : List Nibble → List Nibble → Nat
  | a :: as, b :: bs => if a = b then prefixLen as bs + 1 else 0
  | _, _ => 0

/-! ## Key shapes -/

/-- Nibbles below the terminator: the key of an extension node. -/
def Plain (k : List Nibble) : Prop := ∀ x ∈ k, x < 16

/-- The HEX key of a stored value: nibbles below 16, closed by the terminator. -/
inductive Terminated : List Nibble → Prop
  | term : Terminated [16]
  | cons {x : Nibble} {p : List Nibble} : x < 16 → Terminated p → Terminated (x :: p)

@[simp] theorem plain_nil : Plain [] := by simp [Plain]

@[simp] theorem plain_cons {x : Nibble} {k : List Nibble} : Plain (x :: k) ↔ x < 16 ∧ Plain k := by
  simp [Plain]

@[simp] theorem plain_append {k r : List Nibble} : Plain (k ++ r) ↔ Plain k ∧ Plain r := by
  simp only [Plain, List.mem_append]
  grind

theorem Terminated.ne_nil {p : List Nibble} (h : Terminated p) : p ≠ [] := by
  cases h <;> simp

theorem terminated_iff {p : List Nibble} : Terminated p ↔ ∃ q, Plain q ∧ p = q ++ [16] := by
  constructor
  · intro h
    induction h with
    | term => exact ⟨[], plain_nil, rfl⟩
    | cons lt _ ih =>
      obtain ⟨q, hq, rfl⟩ := ih
      exact ⟨_ :: q, Iff.mpr plain_cons ⟨lt, hq⟩, rfl⟩
  · rintro ⟨q, hq, rfl⟩
    induction q with
    | nil => exact .term
    | cons x q ih =>
      obtain ⟨lt, hq⟩ := Iff.mp plain_cons hq
      exact .cons lt (ih hq)

theorem terminated_cons_iff {x : Nibble} {p : List Nibble} :
    Terminated (x :: p) ↔ (x = 16 ∧ p = []) ∨ (x < 16 ∧ Terminated p) := by
  constructor
  · intro h
    cases h with
    | term => exact .inl ⟨rfl, rfl⟩
    | cons lt h => exact .inr ⟨lt, h⟩
  · rintro (⟨rfl, rfl⟩ | ⟨lt, h⟩)
    · exact .term
    · exact .cons lt h

/-- Below a plain prefix, the rest of a stored key is a stored key. -/
theorem terminated_append_iff {k r : List Nibble} (hk : Plain k) :
    Terminated (k ++ r) ↔ Terminated r := by
  induction k with
  | nil => rfl
  | cons x k ih =>
    obtain ⟨lt, hk⟩ := Iff.mp plain_cons hk
    have ne : x ≠ 16 := fun e => absurd lt (by rw [e]; decide)
    simp [terminated_cons_iff, ne, lt, ih hk]

/-- Stored keys are prefix-free: nothing follows a stored key inside another. -/
theorem Terminated.eq_nil_of_append {k r : List Nibble} (hk : Terminated k)
    (h : Terminated (k ++ r)) : r = [] := by
  induction hk with
  | term => simpa [terminated_cons_iff] using h
  | cons lt _ ih =>
    rw [List.cons_append, terminated_cons_iff] at h
    rcases h with ⟨rfl, _⟩ | ⟨_, h⟩
    · exact absurd lt (by decide)
    · exact ih h

/-- A stored key that goes on past `k` has no terminator in `k`. -/
theorem plain_of_terminated_append {k r : List Nibble} (h : Terminated (k ++ r)) (hr : r ≠ []) :
    Plain k := by
  induction k with
  | nil => exact plain_nil
  | cons x k ih =>
    rw [List.cons_append, terminated_cons_iff] at h
    rcases h with ⟨_, e⟩ | ⟨lt, h⟩
    · exact absurd (List.append_eq_nil_iff.mp e).2 hr
    · exact Iff.mpr plain_cons ⟨lt, ih h⟩

/-! ## Nibbles and bytes -/

theorem byteNibbles_pack : ∀ hi lo : Nibble, hi < 16 → lo < 16 →
    byteNibbles (hi.val.toUInt8 <<< 4 ||| lo.val.toUInt8) = [hi, lo] := by
  decide

/-- The flag byte of `hexToCompact`, read back by `keybytesToHex`. -/
theorem byteNibbles_flag : ∀ (flag : Fin 16) (lo : Nibble), lo < 16 →
    byteNibbles (flag.val.toUInt8 <<< 4 ||| lo.val.toUInt8) = [flag.castSucc, lo] := by
  decide

@[simp] theorem toNat_div_sixteen (b : UInt8) : (b / 16).toNat = b.toNat / 16 := by
  simp [UInt8.toNat_div]

@[simp] theorem toNat_mod_sixteen (b : UInt8) : (b % 16).toNat = b.toNat % 16 := by
  simp [UInt8.toNat_mod]

/-- The two nibbles of a byte, as numbers. -/
theorem val_byteNibbles (b : UInt8) :
    (byteNibbles b).map Fin.val = [b.toNat / 16, b.toNat % 16] := by
  have := b.toNat_lt
  simp only [byteNibbles, toNat_div_sixteen, toNat_mod_sixteen, List.map_cons, List.map_nil,
    Fin.val_ofNat]
  rw [Nat.mod_eq_of_lt (by omega), Nat.mod_eq_of_lt (by omega)]

theorem plain_byteNibbles (b : UInt8) : Plain (byteNibbles b) := by
  have vals := val_byteNibbles b
  have := b.toNat_lt
  simp only [byteNibbles, List.map_cons, List.map_nil, List.cons.injEq, and_true] at vals
  simp only [byteNibbles, plain_cons, Fin.lt_def, vals.1, vals.2, plain_nil, and_true]
  omega

theorem byteNibbles_injective : Function.Injective byteNibbles := by
  intro a b h
  have vals := congrArg (List.map Fin.val) h
  rw [val_byteNibbles, val_byteNibbles] at vals
  simp only [List.cons.injEq, and_true] at vals
  apply UInt8.toNat_inj.mp
  omega

theorem flatMap_byteNibbles_decodeNibbles :
    ∀ {q : List Nibble}, Plain q → q.length % 2 = 0 → (decodeNibbles q).flatMap byteNibbles = q
  | [], _, _ => rfl
  | [_], _, h => by simp at h
  | hi :: lo :: rest, hq, h => by
    obtain ⟨lt_hi, lt_lo, hq⟩ : hi < 16 ∧ lo < 16 ∧ Plain rest := by simpa using hq
    have even : rest.length % 2 = 0 := by simp at h; omega
    simp [decodeNibbles, byteNibbles_pack hi lo lt_hi lt_lo, flatMap_byteNibbles_decodeNibbles hq even]

theorem plain_flatMap_byteNibbles (str : List UInt8) : Plain (str.flatMap byteNibbles) := by
  induction str with
  | nil => simp
  | cons b str ih => simpa using ⟨plain_byteNibbles b, ih⟩

theorem terminated_keybytesToHex (str : List UInt8) : Terminated (keybytesToHex str) :=
  Iff.mpr terminated_iff ⟨_, plain_flatMap_byteNibbles str, rfl⟩

theorem keybytesToHex_injective : Function.Injective keybytesToHex := by
  intro a b h
  simp only [keybytesToHex, List.append_cancel_right_eq] at h
  induction a generalizing b with
  | nil => cases b with
    | nil => rfl
    | cons _ _ => simp [byteNibbles] at h
  | cons x a ih => cases b with
    | nil => simp [byteNibbles] at h
    | cons y b =>
      have heads : byteNibbles x = byteNibbles y := by
        simpa [byteNibbles] using (List.append_inj h (by simp [byteNibbles])).1
      have tails : a.flatMap byteNibbles = b.flatMap byteNibbles :=
        (List.append_inj h (by simp [byteNibbles])).2
      rw [byteNibbles_injective heads, ih tails]

/-! ## Compact encoding -/

theorem hasTerm_of_plain {q : List Nibble} (hq : Plain q) : hasTerm q = false := by
  cases h : q.getLast? with
  | none => simp [hasTerm, h]
  | some x =>
    have lt := hq x (List.mem_of_getLast? h)
    simp only [hasTerm, h, beq_eq_false_iff_ne, ne_eq, Option.some.injEq]
    exact fun e => absurd lt (by rw [e]; decide)

@[simp] theorem hasTerm_append_term (q : List Nibble) : hasTerm (q ++ [16]) = true := by
  simp [hasTerm]

/-- The HEX key after the flag nibbles: what `compactToHex` keeps of a
compact key whose first byte has the given flag nibble and low nibble. -/
theorem compactToHex_cons {flag : Fin 16} {lo : Nibble} (hlo : lo < 16) (rest : List UInt8) :
    compactToHex ((flag.val.toUInt8 <<< 4 ||| lo.val.toUInt8) :: rest) =
      let base := flag.castSucc :: lo :: rest.flatMap byteNibbles ++ [16]
      let base := if flag.castSucc < 2 then base.dropLast else base
      base.drop (2 - flag.val % 2) := by
  simp [compactToHex, keybytesToHex, byteNibbles_flag flag lo hlo]
  split_ifs <;> simp

/-- `compactToHex` undoes `hexToCompact` on the key of an extension node. -/
theorem compactToHex_hexToCompact_plain {q : List Nibble} (hq : Plain q) :
    compactToHex (hexToCompact q) = q := by
  simp only [hexToCompact, hasTerm_of_plain hq, Bool.false_eq_true, if_false]
  split_ifs with odd
  · cases q with
    | nil => simp at odd
    | cons a q' =>
      obtain ⟨lt, hq'⟩ := Iff.mp plain_cons hq
      -- flag nibble 1: odd, no terminator
      have flag : ∀ a : Nibble, ((0 : UInt8) <<< 5 ||| (1 : UInt8) <<< 4 ||| a.val.toUInt8) =
          ((1 : Fin 16).val.toUInt8 <<< 4 ||| a.val.toUInt8) := by decide
      have even : q'.length % 2 = 0 := by simp at odd; omega
      rw [List.headD_cons, List.tail_cons, flag a, compactToHex_cons lt]
      simp [flatMap_byteNibbles_decodeNibbles hq' even]
      rw [← List.cons_append, List.dropLast_concat]
  · -- flag nibble 0: even, no terminator
    have flag : ((0 : UInt8) <<< 5) = ((0 : Fin 16).val.toUInt8 <<< 4 ||| (0 : Nibble).val.toUInt8) := by
      decide
    have even : q.length % 2 = 0 := by omega
    rw [flag, compactToHex_cons (by decide)]
    simp [flatMap_byteNibbles_decodeNibbles hq even]
    rw [← List.cons_append, List.dropLast_concat, List.tail_cons]

/-- `compactToHex` undoes `hexToCompact` on the key of a leaf. -/
theorem compactToHex_hexToCompact_term {q : List Nibble} (hq : Plain q) :
    compactToHex (hexToCompact (q ++ [16])) = q ++ [16] := by
  simp only [hexToCompact, hasTerm_append_term, if_true, List.dropLast_concat]
  split_ifs with odd
  · cases q with
    | nil => simp at odd
    | cons a q' =>
      obtain ⟨lt, hq'⟩ := Iff.mp plain_cons hq
      -- flag nibble 3: odd, terminator
      have flag : ∀ a : Nibble, ((1 : UInt8) <<< 5 ||| (1 : UInt8) <<< 4 ||| a.val.toUInt8) =
          ((3 : Fin 16).val.toUInt8 <<< 4 ||| a.val.toUInt8) := by decide
      have even : q'.length % 2 = 0 := by simp at odd; omega
      rw [List.headD_cons, List.tail_cons, flag a, compactToHex_cons lt]
      simp [flatMap_byteNibbles_decodeNibbles hq' even]
  · -- flag nibble 2: even, terminator
    have flag : ((1 : UInt8) <<< 5) = ((2 : Fin 16).val.toUInt8 <<< 4 ||| (0 : Nibble).val.toUInt8) := by
      decide
    have even : q.length % 2 = 0 := by omega
    rw [flag, compactToHex_cons (by decide)]
    simp [flatMap_byteNibbles_decodeNibbles hq even]

/-! ## Common prefixes -/

theorem prefixLen_le_left : ∀ a b : List Nibble, prefixLen a b ≤ a.length
  | a :: as, b :: bs => by
    simp only [prefixLen]
    split_ifs
    · simpa using prefixLen_le_left as bs
    · simp
  | [], _ => by simp [prefixLen]
  | _ :: _, [] => by simp [prefixLen]

theorem prefixLen_le_right : ∀ a b : List Nibble, prefixLen a b ≤ b.length
  | a :: as, b :: bs => by
    simp only [prefixLen]
    split_ifs
    · simpa using prefixLen_le_right as bs
    · simp
  | [], _ => by simp [prefixLen]
  | _ :: _, [] => by simp [prefixLen]

/-- `prefixLen a b` splits both keys after their common prefix, where they
differ or one of them ends. -/
theorem exists_prefixLen : ∀ a b : List Nibble, ∃ c a' b', a = c ++ a' ∧ b = c ++ b' ∧
    prefixLen a b = c.length ∧ ∀ x y, a'.head? = some x → b'.head? = some y → x ≠ y
  | a :: as, b :: bs => by
    by_cases e : a = b
    · subst e
      obtain ⟨c, a', b', rfl, rfl, len, diff⟩ := exists_prefixLen as bs
      exact ⟨a :: c, a', b', rfl, rfl, by simp [prefixLen, len], diff⟩
    · exact ⟨[], a :: as, b :: bs, rfl, rfl, by simp [prefixLen, e], by simp_all⟩
  | [], b => ⟨[], [], b, rfl, rfl, by simp [prefixLen], by simp⟩
  | a :: as, [] => ⟨[], a :: as, [], rfl, rfl, by simp [prefixLen], by simp⟩

@[simp] theorem prefixLen_append_left (k r : List Nibble) : prefixLen (k ++ r) k = k.length := by
  induction k with
  | nil => cases r <;> rfl
  | cons x k ih => simp [prefixLen, ih]

@[simp] theorem prefixLen_append_right (k r : List Nibble) : prefixLen k (k ++ r) = k.length := by
  induction k with
  | nil => rfl
  | cons x k ih => simp [prefixLen, ih]

theorem prefixLen_comm : ∀ a b : List Nibble, prefixLen a b = prefixLen b a
  | a :: as, b :: bs => by
    simp only [prefixLen, prefixLen_comm as bs]
    by_cases e : a = b <;> simp [e, eq_comm]
  | [], [] => rfl
  | [], _ :: _ => rfl
  | _ :: _, [] => rfl

/-- A common prefix as long as `b` means `b` is a prefix of `a`. -/
theorem prefixLen_eq_length_iff {a b : List Nibble} : prefixLen a b = b.length ↔ b <+: a := by
  obtain ⟨c, a', b', rfl, rfl, len, diff⟩ := exists_prefixLen a b
  rw [len]
  constructor
  · intro e
    simp only [List.length_append, Nat.left_eq_add, List.length_eq_zero_iff] at e
    subst e
    simp
  · intro h
    cases b' with
    | nil => simp
    | cons y b' =>
      rw [List.prefix_append_right_inj] at h
      cases a' with
      | nil => simp at h
      | cons x a' =>
        exact absurd (List.cons_prefix_cons.mp h).1.symm (diff x y rfl rfl)

end FiscoBcos.Trie
