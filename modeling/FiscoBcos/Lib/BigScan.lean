import FiscoBcos.Lib.Digits
import Mathlib

/-!
# `(*big.Int).SetString` with base 0

`SetString(s, 0)` reads an optional sign, then the number in the base its
prefix names: `0b` or `0B` binary, `0o`, `0O` or a bare `0` octal, `0x` or `0X`
hexadecimal, decimal otherwise. An underscore may stand after a prefix and
between two digits. The whole text must be read, or the result is `(nil,
false)`, here `none`. This is `nat.scan` of Go 1.13 on: `scanBase` finds the
base, `scanDigits` is its loop and `natScan` its end. The loop's grouping of
digits into machine words computes the same number as the plain
`value * b + d` here.

`setString_toDigits`: the decimal digits that `%d` writes read back as their
number.
-/

namespace BigInt

/-- What `nat.scan` remembers of the previous character: a digit, a
separator `_`, or anything else. -/
inductive Prev where
  | digit
  | sep
  | other
  deriving DecidableEq, Repr

/-- The errors of `nat.scan` and of the sign before it: the text ended
(`io.EOF`), `errNoDigits` and `errInvalSep`. -/
inductive ScanError where
  | eof
  | noDigits
  | invalSep
  deriving DecidableEq, Repr

/-- The state of `nat.scan`'s loop: the number read so far, the digits
counted, the previous character's kind, and whether a separator stood where
none may. -/
structure ScanState where
  value : Nat
  count : Nat
  prev : Prev
  invalSep : Bool
  deriving DecidableEq, Repr

/-- The digit a character stands for in base `b` (`MaxBase + 1`, 63, for a
character that is no digit); above base 36 upper case letters count from
36. -/
def digitValue (b : Nat) (ch : Char) : Nat :=
  if '0' ≤ ch ∧ ch ≤ '9' then ch.toNat - '0'.toNat
  else if 'a' ≤ ch ∧ ch ≤ 'z' then ch.toNat - 'a'.toNat + 10
  else if 'A' ≤ ch ∧ ch ≤ 'Z' then
    if b ≤ 36 then ch.toNat - 'A'.toNat + 10 else ch.toNat - 'A'.toNat + 36
  else 63

/-- The base that a prefix names, the prefix, the loop's first state and the
text after the prefix. The `0` of a prefix stands as the digit before a
separator, and counts as a digit only when nothing follows it. -/
def scanBase : List Char → Nat × Option Char × ScanState × List Char
  | '0' :: ch :: rest =>
    if ch = 'b' ∨ ch = 'B' then (2, some 'b', ⟨0, 0, .digit, false⟩, rest)
    else if ch = 'o' ∨ ch = 'O' then (8, some 'o', ⟨0, 0, .digit, false⟩, rest)
    else if ch = 'x' ∨ ch = 'X' then (16, some 'x', ⟨0, 0, .digit, false⟩, rest)
    else (8, some '0', ⟨0, 0, .digit, false⟩, ch :: rest)
  | ['0'] => (10, none, ⟨0, 1, .digit, false⟩, [])
  | s => (10, none, ⟨0, 0, .other, false⟩, s)

/-- The loop of `nat.scan` in base `b`: separators and digits, up to the
first character that is no digit of the base, which is put back. -/
def scanDigits (b : Nat) : List Char → ScanState → ScanState × List Char
  | [], st => (st, [])
  | ch :: rest, st =>
    if ch = '_' then
      scanDigits b rest { st with prev := .sep, invalSep := st.invalSep || st.prev != .digit }
    else if b ≤ digitValue b ch then (st, ch :: rest)
    else
      scanDigits b rest
        { st with value := st.value * b + digitValue b ch, count := st.count + 1, prev := .digit }

/-- `nat.scan` with base 0: the number and the text after it. -/
def natScan (s : List Char) : Except ScanError (Nat × List Char) :=
  let (b, pre, st, rest) := scanBase s
  let (st, rest) := scanDigits b rest st
  -- other errors take precedence over invalid separators
  let sepErr := st.invalSep || st.prev == .sep
  if st.count = 0 then
    -- only the octal prefix `0`, with no digit after it, reads as 0
    if pre = some '0' then (if sepErr then .error .invalSep else .ok (0, rest))
    else .error .noDigits
  else if sepErr then .error .invalSep
  else .ok (st.value, rest)

/-- `scanSign`: a leading `-` or `+`. -/
def scanSign : List Char → Except ScanError (Bool × List Char)
  | [] => .error .eof
  | ch :: rest =>
    if ch = '-' then .ok (true, rest) else if ch = '+' then .ok (false, rest) else .ok (false, ch :: rest)

/-- `(*big.Int).SetString(s, 0)`; zero has no sign. -/
def setString (s : List Char) : Option Int :=
  match scanSign s with
  | .error _ => none
  | .ok (neg, rest) =>
    match natScan rest with
    | .error _ => none
    | .ok (abs, []) => some (if neg then -(abs : Int) else abs)
    -- the entire content must have been consumed
    | .ok (_, _ :: _) => none

/-! ## Decimal digits -/

theorem digitValue_digitChar : ∀ d < 10, digitValue 10 (Nat.digitChar d) = d := by
  decide

/-- A run of digits of the base, read by the loop. -/
theorem scanDigits_digits {b : Nat} (hb : b ≤ 63) :
    ∀ (ds rest : List Char) (c : Char) (st : ScanState), (∀ d ∈ c :: ds, digitValue b d < b) →
      scanDigits b (c :: ds ++ rest) st =
        scanDigits b rest ⟨(c :: ds).foldl (fun acc d => acc * b + digitValue b d) st.value,
          st.count + ds.length + 1, .digit, st.invalSep⟩
  | [], rest, c, st, digits => by
      have digit := digits c (by simp)
      -- a digit is never the separator, whose value 63 is no digit of the base
      have notSep : c ≠ '_' := by
        rintro rfl
        simp [digitValue] at digit
        omega
      simp only [List.cons_append, List.nil_append, scanDigits, if_neg notSep, if_neg (Nat.not_le.mpr digit)]
      simp
  | d :: ds, rest, c, st, digits => by
      have digit := digits c (by simp)
      have notSep : c ≠ '_' := by
        rintro rfl
        simp [digitValue] at digit
        omega
      have later := scanDigits_digits hb ds rest d
        { st with value := st.value * b + digitValue b c, count := st.count + 1, prev := .digit }
        fun x mem => digits x (List.mem_cons_of_mem c mem)
      rw [List.cons_append, scanDigits, if_neg notSep, if_neg (Nat.not_le.mpr digit), later]
      simp only [List.foldl_cons, List.length_cons]
      congr 2
      omega

theorem toDigits_head_ne_zero {n : Nat} (pos : 0 < n) : (Nat.toDigits 10 n).head? ≠ some '0' := by
  by_cases long : 1 < (Nat.toDigits 10 n).length
  · exact Digits.toDigits_head (by decide) n long
  · -- a single digit is `n` itself, which is not zero
    have small : n < 10 := by
      by_contra big
      rw [Nat.toDigits_eq_if (by decide), if_neg big, List.length_append] at long
      simp at long
    rw [Nat.toDigits_of_lt_base small]
    intro head
    have := digitValue_digitChar n small
    simp only [List.head?_cons, Option.some.injEq] at head
    rw [head] at this
    simp [digitValue] at this
    omega

theorem scanBase_of_head {s : List Char} (head : s.head? ≠ some '0') :
    scanBase s = (10, none, ⟨0, 0, .other, false⟩, s) := by
  match s, head with
  | [], _ => rfl
  | c :: cs, head =>
      have : c ≠ '0' := fun same => head (by rw [same]; rfl)
      unfold scanBase
      split <;> simp_all

theorem natScan_toDigits (n : Nat) : natScan (Nat.toDigits 10 n) = .ok (n, []) := by
  rcases Nat.eq_zero_or_pos n with rfl | pos
  · rfl
  · have digits : ∀ d ∈ Nat.toDigits 10 n, digitValue 10 d < 10 := by
      intro d mem
      obtain ⟨k, small, rfl⟩ := Digits.mem_toDigits (by decide) mem
      rw [digitValue_digitChar k small]
      exact small
    obtain ⟨c, ds, split⟩ := List.exists_cons_of_ne_nil (Nat.toDigits_ne_nil (n := n) (b := 10))
    have value : (c :: ds).foldl (fun acc d => acc * 10 + digitValue 10 d) 0 = n := by
      have readBack := Digits.value_toDigits (digitValue 10) (by decide) digitValue_digitChar n
      rwa [Digits.value, List.foldl_map, split] at readBack
    have head : (c :: ds).head? ≠ some '0' := split ▸ toDigits_head_ne_zero pos
    have run := scanDigits_digits (b := 10) (by decide) ds [] c ⟨0, 0, .other, false⟩ (split ▸ digits)
    rw [List.append_nil, value] at run
    rw [split]
    simp only [natScan, scanBase_of_head head, run, scanDigits]
    simp

/-- The decimal digits of a number read back as that number. -/
theorem setString_toDigits (n : Nat) : setString (Nat.toDigits 10 n) = some (n : Int) := by
  obtain ⟨c, ds, split⟩ := List.exists_cons_of_ne_nil (Nat.toDigits_ne_nil (n := n) (b := 10))
  -- a digit is no sign
  have unsigned : c ≠ '-' ∧ c ≠ '+' := by
    obtain ⟨k, small, same⟩ := Digits.mem_toDigits (b := 10) (by decide) (split ▸ List.mem_cons_self)
    have sign : ∀ k < 10, Nat.digitChar k ≠ '-' ∧ Nat.digitChar k ≠ '+' := by decide
    rw [same]
    exact sign k small
  have scan := natScan_toDigits n
  rw [split] at scan
  simp only [setString, split, scanSign, if_neg unsigned.1, if_neg unsigned.2, scan]
  simp

end BigInt
