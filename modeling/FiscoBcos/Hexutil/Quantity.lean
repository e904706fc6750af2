import FiscoBcos.Lib.Digits
import FiscoBcos.Lib.BigEndian
import FiscoBcos.Lib.Except
import Mathlib

/-!
# Hex quantities

The numbers of `common/hexutil`: `EncodeBig` and `EncodeUint64` write `0x`
and the lower-case digits; `DecodeBig`, `DecodeUint64` and the
`UnmarshalText` methods of `Big` and `Uint64` read them. A Go string is its
bytes.

`DecodeBig` and `Big.UnmarshalText` read the digits into `big.Word`s from the
end, `bigWordNibbles` digits to a word; the words are the digits' value
(`decodeWords_eq`), on both word sizes. The two readers differ in one branch
only: `checkNumberText` lets the empty input through.
-/

namespace FiscoBcos.Hexutil

/-- The bytes of an ASCII literal. -/
def ascii (s : String) : List UInt8 := s.toList.map Char.toUInt8

/-! ## Errors -/

def ErrEmptyString : String := "empty hex string"
def ErrSyntax : String := "invalid hex string"
def ErrMissingPrefix : String := "hex string without 0x prefix"
def ErrEmptyNumber : String := "hex string \"0x\""
def ErrLeadingZero : String := "hex number with leading zero digits"
def ErrUint64Range : String := "hex number > 64 bits"
def ErrBig256Range : String := "hex number > 256 bits"

/-- The `Err` of a `*strconv.NumError`. -/
inductive NumError where
  | ErrRange
  | ErrSyntax
deriving DecidableEq, Repr

/-- `mapError` on the errors of `strconv.ParseUint`. -/
def mapError : NumError → String
  | .ErrRange => ErrUint64Range
  | .ErrSyntax => ErrSyntax

/-! ## Checks -/

def has0xPrefix (input : List UInt8) : Bool :=
  match input with
  | c0 :: c1 :: _ => c0 == 48 && (c1 == 120 || c1 == 88)
  | _ => false

/-- `bytesHave0xPrefix`, the same test on a `[]byte`. -/
def bytesHave0xPrefix (input : List UInt8) : Bool := has0xPrefix input

def checkNumber (input : List UInt8) : Except String (List UInt8) :=
  if input.length = 0 then .error ErrEmptyString
  else if !has0xPrefix input then .error ErrMissingPrefix
  else
    let input := input.drop 2
    if input.length = 0 then .error ErrEmptyNumber
    else if input.length > 1 ∧ input.head? = some 48 then .error ErrLeadingZero
    else .ok input

/-- `checkNumberText`: as `checkNumber`, but an empty input is allowed. -/
def checkNumberText (input : List UInt8) : Except String (List UInt8) :=
  if input.length = 0 then .ok []
  else if !bytesHave0xPrefix input then .error ErrMissingPrefix
  else
    let input := input.drop 2
    if input.length = 0 then .error ErrEmptyNumber
    else if input.length > 1 ∧ input.head? = some 48 then .error ErrLeadingZero
    else .ok input

/-! ## Digits -/

def badNibble : Nat := 2 ^ 64 - 1

def decodeNibble (c : UInt8) : Nat :=
  if 48 ≤ c ∧ c ≤ 57 then (c - 48).toNat
  else if 65 ≤ c ∧ c ≤ 70 then (c - 65 + 10).toNat
  else if 97 ≤ c ∧ c ≤ 102 then (c - 97 + 10).toNat
  else badNibble

/-- One round of the digit loops, `words[i] *= 16; words[i] += big.Word(nib)`
in a word of `wordBits` bits. -/
def nibbleStep (wordBits : Nat) (w : Nat) (c : UInt8) : Except String Nat :=
  let nib := decodeNibble c
  if nib = badNibble then .error ErrSyntax else .ok ((w * 16 + nib) % 2 ^ wordBits)

/-- The digit loop into one word: the inner loop of `DecodeBig` and
`Big.UnmarshalText` over `raw[start:end]`, and the loop of
`Uint64.UnmarshalText` with a word of 64 bits. -/
def decodeWord (wordBits : Nat) (chunk : List UInt8) : Except String Nat :=
  chunk.foldlM (nibbleStep wordBits) 0

/-- The loop over `words`: word `i` takes `raw[start:end]`, the last
`nibbles` digits before `end` (or all of them, when fewer are left), and
`end` moves to `start`. -/
def decodeWords (nibbles : Nat) (raw : List UInt8) : Nat → Nat → Except String (List Nat)
  | 0, _ => .ok []
  | count + 1, stop => do
    let start := stop - nibbles
    let w ← decodeWord (4 * nibbles) ((raw.take stop).drop start)
    let ws ← decodeWords nibbles raw count start
    .ok (w :: ws)

/-- The size of `big.Word`, which `init` tells from `len(b.Bits())`. -/
inductive WordSize where
  | w32
  | w64
deriving DecidableEq, Repr

def WordSize.bigWordNibbles : WordSize → Nat
  | .w32 => 8
  | .w64 => 16

/-! ## Big -/

/-- What `DecodeBig` and `Big.UnmarshalText` do with the digits that their
check lets through. -/
def decodeBigDigits (size : WordSize) (raw : List UInt8) : Except String Int :=
  if raw.length > 64 then .error ErrBig256Range
  else do
    let words ← decodeWords size.bigWordNibbles raw (raw.length / size.bigWordNibbles + 1) raw.length
    .ok (BigInt.setBits (4 * size.bigWordNibbles) words)

def DecodeBig (size : WordSize) (input : List UInt8) : Except String Int := do
  let raw ← checkNumber input
  decodeBigDigits size raw

/-- `(*Big).UnmarshalText`: the number it stores. -/
def Big.UnmarshalText (size : WordSize) (input : List UInt8) : Except String Int := do
  let raw ← checkNumberText input
  decodeBigDigits size raw

/-- The lower-case hex digits of `n`, with no leading zero, as
`strconv.AppendUint` and `big.Int`'s formatting write them. -/
def lowerHexDigits (n : Nat) : List UInt8 := (Nat.toDigits 16 n).map Char.toUInt8

/-- `fmt.Sprintf("%#x", bigint)`: the sign, `0x` and the digits of the
absolute value. -/
def formatHex (bigint : Int) : List UInt8 :=
  (if bigint < 0 then ascii "-" else []) ++ ascii "0x" ++ lowerHexDigits bigint.natAbs

def EncodeBig (bigint : Int) : List UInt8 :=
  if BigInt.bitLen bigint = 0 then ascii "0x0" else formatHex bigint

/-! ## Uint64 -/

def maxUint64 : Nat := 2 ^ 64 - 1

/-- The digit switch of `strconv.ParseUint`. -/
def digitValue (d : UInt8) : Option Nat :=
  if 48 ≤ d ∧ d ≤ 57 then some (d - 48).toNat
  else if 97 ≤ d ∧ d ≤ 122 then some (d - 97 + 10).toNat
  else if 65 ≤ d ∧ d ≤ 90 then some (d - 65 + 10).toNat
  else none

/-- One round of the loop of `strconv.ParseUint`, in `uint64` arithmetic:
`cutoff` is the least `n` for which `n*base` overflows. -/
def parseUintStep (base bitSize : Nat) (n : Nat) (d : UInt8) : Except NumError Nat :=
  let cutoff := maxUint64 / base + 1
  let maxVal := 2 ^ bitSize - 1
  match digitValue d with
  | none => .error .ErrSyntax
  | some v =>
    if v ≥ base then .error .ErrSyntax
    else if n ≥ cutoff then .error .ErrRange
    else
      let n := n * base % 2 ^ 64
      let n1 := (n + v) % 2 ^ 64
      if n1 < n ∨ n1 > maxVal then .error .ErrRange else .ok n1

/-- `strconv.ParseUint(s, base, bitSize)` for a base from 2 to 36 and a bit
size from 1 to 64. -/
def ParseUint (s : List UInt8) (base bitSize : Nat) : Except NumError Nat :=
  if s.length = 0 then .error .ErrSyntax else s.foldlM (parseUintStep base bitSize) 0

def DecodeUint64 (input : List UInt8) : Except String Nat := do
  let raw ← checkNumber input
  match ParseUint raw 16 64 with
  | .ok dec => .ok dec
  | .error err => .error (mapError err)

def EncodeUint64 (i : Nat) : List UInt8 := ascii "0x" ++ lowerHexDigits i

/-- `(*Uint64).UnmarshalText`: the number it stores. -/
def Uint64.UnmarshalText (input : List UInt8) : Except String Nat := do
  let raw ← checkNumberText input
  if raw.length > 16 then .error ErrUint64Range
  else decodeWord 64 raw

/-! ## What a quantity is -/

/-- A hex digit: `0`-`9`, `a`-`f` or `A`-`F`. -/
def isHexDigit (c : UInt8) : Bool := (48 ≤ c && c ≤ 57) || (97 ≤ c && c ≤ 102) || (65 ≤ c && c ≤ 70)

/-- ASCII lower case, as `strings.ToLower` maps the bytes of a quantity. -/
def lowerAscii (c : UInt8) : UInt8 := if 65 ≤ c ∧ c ≤ 90 then c + 32 else c

/-- A quantity: `0x` or `0X`, then 1 to 64 hex digits with no leading zero
unless the digit `0` is all there is. -/
def IsQuantity (s : List UInt8) : Prop :=
  ∃ x digits, s = 48 :: x :: digits ∧ (x = 120 ∨ x = 88) ∧ digits ≠ [] ∧ digits.length ≤ 64 ∧
    digits.all isHexDigit ∧ (1 < digits.length → digits.head? ≠ some 48)

/-- The value of hex digits. -/
def hexValue (raw : List UInt8) : Nat := Digits.value 16 (raw.map decodeNibble)

/-! ## One digit -/

private theorem eq_ofNat_add_sub {c : UInt8} {lo : Nat} (above : lo ≤ c.toNat) :
    c = UInt8.ofNat (lo + (c.toNat - lo)) := by
  rw [Nat.add_sub_cancel' above, UInt8.ofNat_toNat]

/-- A hex digit is one of the three runs of the alphabet. -/
theorem isHexDigit_cases {c : UInt8} (hex : isHexDigit c) :
    (∃ d < 10, c = UInt8.ofNat (48 + d)) ∨ (∃ d < 6, c = UInt8.ofNat (97 + d)) ∨
      ∃ d < 6, c = UInt8.ofNat (65 + d) := by
  simp only [isHexDigit, Bool.or_eq_true, Bool.and_eq_true, decide_eq_true_eq, UInt8.le_iff_toNat_le] at hex
  simp only [UInt8.toNat_ofNat] at hex
  rcases hex with (⟨lo, hi⟩ | ⟨lo, hi⟩) | ⟨lo, hi⟩
  · exact .inl ⟨c.toNat - 48, by omega, eq_ofNat_add_sub lo⟩
  · exact .inr (.inl ⟨c.toNat - 97, by omega, eq_ofNat_add_sub lo⟩)
  · exact .inr (.inr ⟨c.toNat - 65, by omega, eq_ofNat_add_sub lo⟩)

/-- What the readers and the writers do with one hex digit: `decodeNibble`
reads a digit below 16, which is `0` only for the byte `0`, and
`Nat.digitChar` writes it back in lower case. -/
theorem decodeNibble_of_isHexDigit {c : UInt8} (hex : isHexDigit c) :
    decodeNibble c < 16 ∧ (decodeNibble c = 0 → c = 48) ∧
      (Nat.digitChar (decodeNibble c)).toUInt8 = lowerAscii c := by
  rcases isHexDigit_cases hex with ⟨d, lt, rfl⟩ | ⟨d, lt, rfl⟩ | ⟨d, lt, rfl⟩ <;> revert d <;> decide

/-- A byte that is no hex digit is a bad nibble. -/
theorem decodeNibble_of_not_isHexDigit {c : UInt8} (other : isHexDigit c = false) : decodeNibble c = badNibble := by
  simp only [isHexDigit, Bool.or_eq_false_iff, Bool.and_eq_false_iff, decide_eq_false_iff_not] at other
  obtain ⟨⟨digit, lower⟩, upper⟩ := other
  rw [decodeNibble, if_neg (by tauto), if_neg (by tauto), if_neg (by tauto)]

/-- What the readers make of the digits that the writers write. -/
theorem digitChar_toUInt8 {d : Nat} (lt : d < 16) :
    isHexDigit (Nat.digitChar d).toUInt8 ∧ decodeNibble (Nat.digitChar d).toUInt8 = d ∧
      digitValue (Nat.digitChar d).toUInt8 = some d ∧ ((Nat.digitChar d).toUInt8 = 48 → d = 0) := by
  revert d
  decide

/-! ## The digit loops -/

theorem hexValue_cons (c : UInt8) (raw : List UInt8) :
    hexValue (c :: raw) = decodeNibble c * 16 ^ raw.length + hexValue raw := by
  rw [hexValue, List.map_cons, Digits.value_cons, List.length_map, hexValue]

theorem hexValue_append (xs ys : List UInt8) : hexValue (xs ++ ys) = hexValue xs * 16 ^ ys.length + hexValue ys := by
  rw [hexValue, List.map_append, Digits.value_append, List.length_map, hexValue, hexValue]

private theorem sixteen_pow (k : Nat) : 16 ^ k = 2 ^ (4 * k) := by
  rw [Nat.pow_mul]

/-- The digit loop from `acc`, in a word with room for `acc` and every digit
left: the mod of the word never cuts, so the loop reads the digits' value, or
fails at the first byte that is no digit. -/
theorem foldlM_nibbleStep {wordBits : Nat} :
    ∀ (chunk : List UInt8) {acc m : Nat}, acc < 16 ^ m → 4 * (m + chunk.length) ≤ wordBits →
      chunk.foldlM (nibbleStep wordBits) acc =
        if chunk.all isHexDigit then .ok (acc * 16 ^ chunk.length + hexValue chunk) else .error ErrSyntax
  | [], acc, m, _, _ => by simp [hexValue]
  | c :: rest, acc, m, small, room => by
    rw [List.foldlM_cons, List.all_cons]
    cases hex : isHexDigit c with
    | false =>
      simp [nibbleStep, decodeNibble_of_not_isHexDigit hex]
    | true =>
      obtain ⟨digit, -, -⟩ := decodeNibble_of_isHexDigit hex
      -- the new accumulator is below `16 ^ (m + 1)`, which the word holds
      have fits : acc * 16 + decodeNibble c < 16 ^ (m + 1) := by rw [Nat.pow_succ]; omega
      have word : 16 ^ (m + 1) ≤ 2 ^ wordBits := by
        rw [sixteen_pow]
        exact Nat.pow_le_pow_right (by omega) (by simp at room; omega)
      have step : nibbleStep wordBits acc c = .ok (acc * 16 + decodeNibble c) := by
        rw [nibbleStep, if_neg (by simp [badNibble]; omega), Nat.mod_eq_of_lt (by omega)]
      rw [step, Except.bind_eq_bind, Except.bind_ok_eq,
        foldlM_nibbleStep rest fits (by simp at room ⊢; omega), Bool.true_and, hexValue_cons, List.length_cons,
        Nat.pow_succ]
      congr 2
      ring

/-- A word of at most `wordBits / 4` digits reads their value. -/
theorem decodeWord_eq {wordBits : Nat} {chunk : List UInt8} (room : 4 * chunk.length ≤ wordBits) :
    decodeWord wordBits chunk = if chunk.all isHexDigit then .ok (hexValue chunk) else .error ErrSyntax := by
  rw [decodeWord, foldlM_nibbleStep chunk (m := 0) (by decide) (by simpa using room)]
  simp

/-- The word loop of `DecodeBig` over the first `stop` digits, with words
enough to hold them: the words, least significant first, are the digits'
value. Each round takes the last `nibbles` digits before `stop`; the first
`start` digits are the later words, worth `2 ^ (4 * nibbles)` times as much. -/
theorem decodeWords_eq {nibbles : Nat} (pos : 0 < nibbles) (raw : List UInt8) :
    ∀ (count stop : Nat), stop ≤ raw.length → stop ≤ nibbles * count →
      Nat.ofDigits (2 ^ (4 * nibbles)) <$> decodeWords nibbles raw count stop =
        if (raw.take stop).all isHexDigit then .ok (hexValue (raw.take stop)) else .error ErrSyntax
  | 0, stop, _, room => by
    obtain rfl : stop = 0 := by simpa using room
    simp [decodeWords, hexValue]
  | count + 1, stop, within, room => by
    have within' : stop - nibbles ≤ raw.length := by omega
    have room' : stop - nibbles ≤ nibbles * count := by rw [Nat.mul_succ] at room; omega
    have later := decodeWords_eq pos raw count (stop - nibbles) within' room'
    -- the digits of this round, after the digits of the later rounds
    have round : decodeWords nibbles raw (count + 1) stop =
        (decodeWord (4 * nibbles) ((raw.take stop).drop (stop - nibbles))).bind fun w =>
          (decodeWords nibbles raw count (stop - nibbles)).bind fun ws => .ok (w :: ws) := rfl
    have split : raw.take stop = raw.take (stop - nibbles) ++ (raw.take stop).drop (stop - nibbles) := by
      conv_lhs => rw [← List.take_append_drop (stop - nibbles) (raw.take stop)]
      rw [List.take_take, Nat.min_eq_left (by omega)]
    have length : ((raw.take stop).drop (stop - nibbles)).length = stop - (stop - nibbles) := by
      simp only [List.length_drop, List.length_take]
      omega
    set chunk := (raw.take stop).drop (stop - nibbles)
    set front := raw.take (stop - nibbles)
    -- the later words count `2 ^ (4 * nibbles)` each, or there are no later digits
    have shift : hexValue front * 16 ^ chunk.length = 2 ^ (4 * nibbles) * hexValue front := by
      by_cases first : stop - nibbles = 0
      · simp [front, first, hexValue]
      · rw [length, show stop - (stop - nibbles) = nibbles by omega, sixteen_pow, Nat.mul_comm]
    rw [round, decodeWord_eq (by omega), split, List.all_append, hexValue_append, shift]
    by_cases here : chunk.all isHexDigit
    · rw [if_pos here, Except.bind_ok_eq]
      cases words : decodeWords nibbles raw count (stop - nibbles) with
      | error e =>
        rw [words] at later
        by_cases valid : front.all isHexDigit
        · simp [valid] at later
        · simp [valid] at later
          simp [valid, later]
      | ok ws =>
        rw [words] at later
        by_cases valid : front.all isHexDigit
        · simp only [valid, if_true, Except.map_eq_map, Except.map_ok_eq, Except.ok.injEq] at later
          simp [valid, here, Nat.ofDigits_cons, later, Nat.add_comm]
        · simp [valid] at later
    · simp [here]

theorem WordSize.bigWordNibbles_pos (size : WordSize) : 0 < size.bigWordNibbles := by
  cases size <;> decide

/-- The digits that the check lets through: at most 64 digits read as their
value, on either word size. -/
theorem decodeBigDigits_eq (size : WordSize) (raw : List UInt8) :
    decodeBigDigits size raw =
      if raw.length > 64 then .error ErrBig256Range
      else if raw.all isHexDigit then .ok (hexValue raw) else .error ErrSyntax := by
  have pos := size.bigWordNibbles_pos
  have words := decodeWords_eq pos raw (raw.length / size.bigWordNibbles + 1) raw.length le_rfl
    (Nat.le_of_lt (Nat.lt_mul_div_succ _ pos))
  rw [List.take_length] at words
  rw [decodeBigDigits]
  split
  · rfl
  · cases read : decodeWords size.bigWordNibbles raw (raw.length / size.bigWordNibbles + 1) raw.length with
    | error e =>
      rw [read] at words
      by_cases valid : raw.all isHexDigit <;> simp_all
    | ok ws =>
      rw [read] at words
      by_cases valid : raw.all isHexDigit <;> simp_all [BigInt.setBits]

/-! ## The checks -/

/-- What `checkNumber` lets through: the digits after `0x` or `0X`, when
there are some and they have no leading zero. -/
theorem checkNumber_eq_ok {input raw : List UInt8} :
    checkNumber input = .ok raw ↔
      ∃ x, input = 48 :: x :: raw ∧ (x = 120 ∨ x = 88) ∧ raw ≠ [] ∧ (1 < raw.length → raw.head? ≠ some 48) := by
  rcases input with _ | ⟨c0, _ | ⟨c1, rest⟩⟩
  · simp [checkNumber]
  · simp [checkNumber, has0xPrefix]
  · simp only [checkNumber, has0xPrefix, List.drop_succ_cons, List.drop_zero]
    split_ifs <;> grind

/-- On an input that is not empty, `checkNumberText` is `checkNumber`. -/
theorem checkNumberText_of_ne_nil {input : List UInt8} (ne : input ≠ []) : checkNumberText input = checkNumber input := by
  have : input.length ≠ 0 := by simpa using ne
  rw [checkNumberText, checkNumber, if_neg this, if_neg this]
  rfl

/-! ## What the writers write -/

@[simp] theorem ascii_zeroX : ascii "0x" = [48, 120] := by decide

theorem mem_lowerHexDigits {n : Nat} {c : UInt8} (mem : c ∈ lowerHexDigits n) :
    ∃ d < 16, c = (Nat.digitChar d).toUInt8 := by
  obtain ⟨ch, written, rfl⟩ := List.mem_map.mp mem
  obtain ⟨d, lt, rfl⟩ := Digits.mem_toDigits (b := 16) (by decide) written
  exact ⟨d, lt, rfl⟩

theorem lowerHexDigits_ne_nil (n : Nat) : lowerHexDigits n ≠ [] := by
  simp [lowerHexDigits]

theorem all_isHexDigit_lowerHexDigits (n : Nat) : (lowerHexDigits n).all isHexDigit := by
  rw [List.all_eq_true]
  intro c mem
  obtain ⟨d, lt, rfl⟩ := mem_lowerHexDigits mem
  exact (digitChar_toUInt8 lt).1

theorem hexValue_lowerHexDigits (n : Nat) : hexValue (lowerHexDigits n) = n := by
  rw [hexValue, lowerHexDigits, List.map_map]
  exact Digits.value_toDigits _ (by decide) (fun d lt => (digitChar_toUInt8 lt).2.1) n

theorem head_lowerHexDigits (n : Nat) (long : 1 < (lowerHexDigits n).length) :
    (lowerHexDigits n).head? ≠ some 48 := by
  rw [lowerHexDigits, List.length_map] at long
  have lead := Digits.toDigits_head (by decide) n long
  rw [lowerHexDigits, List.head?_map]
  cases first : (Nat.toDigits 16 n).head? with
  | none => simp
  | some ch =>
    -- the first character is the digit character of a digit that is not zero
    obtain ⟨d, lt, rfl⟩ := Digits.mem_toDigits (b := 16) (by decide) (List.mem_of_head? first)
    have : d ≠ 0 := fun zero => lead (by rw [first, zero]; rfl)
    simpa using fun same => this ((digitChar_toUInt8 lt).2.2.2 same)

theorem length_lowerHexDigits_le {n e : Nat} (pos : 0 < e) (small : n < 16 ^ e) : (lowerHexDigits n).length ≤ e := by
  rw [lowerHexDigits, List.length_map]
  exact Nat.toDigits_length 16 n e pos small

/-- `checkNumber` lets the digits of `0x` and `lowerHexDigits` through. -/
theorem checkNumber_lowerHexDigits (n : Nat) : checkNumber (ascii "0x" ++ lowerHexDigits n) = .ok (lowerHexDigits n) :=
  Iff.mpr checkNumber_eq_ok ⟨120, rfl, .inl rfl, lowerHexDigits_ne_nil n, head_lowerHexDigits n⟩

/-- A non-negative `big.Int` is written as `0x` and its digits; zero too, as
`0x0`. -/
theorem EncodeBig_of_nonneg {n : Int} (nonneg : 0 ≤ n) : EncodeBig n = ascii "0x" ++ lowerHexDigits n.toNat := by
  by_cases zero : n = 0
  · subst zero
    decide
  · have : BigInt.bitLen n ≠ 0 := by simp [BigInt.bitLen, zero]
    have abs : n.natAbs = n.toNat := by omega
    rw [EncodeBig, if_neg this, formatHex, if_neg (by omega), List.nil_append, abs]

/-! ## Reading back -/

/-- `DecodeBig` succeeds exactly on the digits that `checkNumber` lets
through when there are at most 64 of them, all hex digits, and reads their
value. -/
theorem DecodeBig_eq_ok {size : WordSize} {input : List UInt8} {v : Int} :
    DecodeBig size input = .ok v ↔
      ∃ raw, checkNumber input = .ok raw ∧ raw.length ≤ 64 ∧ raw.all isHexDigit ∧ v = hexValue raw := by
  rw [DecodeBig, Except.bind_eq_bind, Except.bind_eq_ok_iff]
  refine exists_congr fun raw => and_congr_right fun _ => ?_
  rw [decodeBigDigits_eq]
  split_ifs with long valid
  · simp only [false_iff]
    omega
  · rw [Except.ok.injEq]
    constructor
    · rintro rfl
      exact ⟨by omega, valid, rfl⟩
    · rintro ⟨-, -, rfl⟩
      rfl
  · simp [valid]

/-- On an input that is not empty, `Big.UnmarshalText` is `DecodeBig`. -/
theorem UnmarshalText_eq_DecodeBig (size : WordSize) {input : List UInt8} (ne : input ≠ []) :
    Big.UnmarshalText size input = DecodeBig size input := by
  rw [Big.UnmarshalText, DecodeBig, checkNumberText_of_ne_nil ne]

theorem DecodeBig_lowerHexDigits (size : WordSize) {n : Nat} (small : n < 2 ^ 256) :
    DecodeBig size (ascii "0x" ++ lowerHexDigits n) = .ok n := by
  have length := length_lowerHexDigits_le (n := n) (e := 64) (by decide) (by simpa using small)
  exact Iff.mpr DecodeBig_eq_ok ⟨_, checkNumber_lowerHexDigits n, length, all_isHexDigit_lowerHexDigits n,
    by rw [hexValue_lowerHexDigits]⟩

/-- The writers' digits of the value of a quantity's digits are its digits
in lower case. -/
theorem lowerHexDigits_hexValue {raw : List UInt8} (ne : raw ≠ []) (all : raw.all isHexDigit)
    (lead : 1 < raw.length → raw.head? ≠ some 48) : lowerHexDigits (hexValue raw) = raw.map lowerAscii := by
  have hex : ∀ c ∈ raw, isHexDigit c := List.all_eq_true.mp all
  have digits : ∀ d ∈ raw.map decodeNibble, d < 16 := by
    intro d mem
    obtain ⟨c, inRaw, rfl⟩ := List.mem_map.mp mem
    exact (decodeNibble_of_isHexDigit (hex c inRaw)).1
  -- the leading digit is not zero, or it is the only one
  have first : 1 < (raw.map decodeNibble).length → (raw.map decodeNibble).head? ≠ some 0 := by
    intro long
    rw [List.length_map] at long
    rw [List.head?_map]
    cases top : raw.head? with
    | none => simp
    | some c =>
      have : c ≠ 48 := fun same => lead long (by rw [top, same])
      simpa using fun zero => this ((decodeNibble_of_isHexDigit (hex c (List.mem_of_head? top))).2.1 zero)
  rw [lowerHexDigits, hexValue, Digits.toDigits_value (by decide) (by simpa using ne) digits first,
    List.map_map, List.map_map]
  exact List.map_congr_left fun c mem => (decodeNibble_of_isHexDigit (hex c mem)).2.2

/-! ## `Uint64` -/

/-- The loop of `strconv.ParseUint` from `acc`, on digits below the base
whose value with `acc` in front fits `bitSize` bits: neither overflow test
fires, and the loop reads the value. -/
theorem foldlM_parseUintStep {base bitSize : Nat} (hb : 1 < base) (bits : bitSize ≤ 64) :
    ∀ (s : List UInt8) {acc : Nat}, (∀ c ∈ s, ∃ v < base, digitValue c = some v) →
      acc * base ^ s.length + Digits.value base (s.map fun c => (digitValue c).getD 0) < 2 ^ bitSize →
      s.foldlM (parseUintStep base bitSize) acc =
        .ok (acc * base ^ s.length + Digits.value base (s.map fun c => (digitValue c).getD 0))
  | [], acc, _, _ => by simp
  | c :: rest, acc, digits, fits => by
    obtain ⟨v, lt, read⟩ := digits c (List.mem_cons_self ..)
    rw [List.map_cons, Digits.value_cons, read, Option.getD_some, List.length_map, List.length_cons] at fits ⊢
    -- the whole value is at least the value of the digits read so far
    have total : acc * base ^ (rest.length + 1) + (v * base ^ rest.length + Digits.value base
        (rest.map fun c => (digitValue c).getD 0)) =
        (acc * base + v) * base ^ rest.length + Digits.value base (rest.map fun c => (digitValue c).getD 0) := by
      ring
    have grown : acc * base + v ≤ (acc * base + v) * base ^ rest.length :=
      Nat.le_mul_of_pos_right _ (Nat.pow_pos (by omega))
    have word : 2 ^ bitSize ≤ 2 ^ 64 := Nat.pow_le_pow_right (by omega) bits
    have below : acc < maxUint64 / base + 1 := by
      have : acc * base ≤ maxUint64 := by unfold maxUint64; omega
      have := (Nat.le_div_iff_mul_le (by omega)).mpr this
      omega
    have step : parseUintStep base bitSize acc c = .ok (acc * base + v) := by
      simp only [parseUintStep, read]
      rw [if_neg (by omega), if_neg (by omega), Nat.mod_eq_of_lt (by omega), Nat.mod_eq_of_lt (by omega),
        if_neg (by omega)]
    rw [List.foldlM_cons, step, Except.bind_eq_bind, Except.bind_ok_eq,
      foldlM_parseUintStep hb bits rest (fun c mem => digits c (List.mem_cons_of_mem _ mem)) (by omega), total]

theorem ParseUint_lowerHexDigits {n : Nat} (small : n < 2 ^ 64) : ParseUint (lowerHexDigits n) 16 64 = .ok n := by
  have digits : ∀ c ∈ lowerHexDigits n, ∃ v < 16, digitValue c = some v := by
    intro c mem
    obtain ⟨d, lt, rfl⟩ := mem_lowerHexDigits mem
    exact ⟨d, lt, (digitChar_toUInt8 lt).2.2.1⟩
  have value : Digits.value 16 ((lowerHexDigits n).map fun c => (digitValue c).getD 0) = n := by
    rw [lowerHexDigits, List.map_map]
    exact Digits.value_toDigits _ (by decide) (fun d lt => by simp [(digitChar_toUInt8 lt).2.2.1]) n
  rw [ParseUint, if_neg (by simpa using lowerHexDigits_ne_nil n),
    foldlM_parseUintStep (by decide) le_rfl _ digits (by simpa [value] using small)]
  simp [value]

theorem DecodeUint64_lowerHexDigits {n : Nat} (small : n < 2 ^ 64) :
    DecodeUint64 (ascii "0x" ++ lowerHexDigits n) = .ok n := by
  rw [DecodeUint64, checkNumber_lowerHexDigits, Except.bind_eq_bind, Except.bind_ok_eq, ParseUint_lowerHexDigits small]

theorem UnmarshalText_lowerHexDigits {n : Nat} (small : n < 2 ^ 64) :
    Uint64.UnmarshalText (ascii "0x" ++ lowerHexDigits n) = .ok n := by
  have length := length_lowerHexDigits_le (n := n) (e := 16) (by decide) (by simpa using small)
  rw [Uint64.UnmarshalText, checkNumberText_of_ne_nil (by simp), checkNumber_lowerHexDigits, Except.bind_eq_bind,
    Except.bind_ok_eq, if_neg (by omega), decodeWord_eq (by omega), if_pos (all_isHexDigit_lowerHexDigits n),
    hexValue_lowerHexDigits]

/-! ## The codec -/

/-- The quantity codec is exact, on both word sizes: `DecodeBig` and
`Big.UnmarshalText` read back every number below `2 ^ 256` that `EncodeBig`
writes, `DecodeUint64` and `Uint64.UnmarshalText` every `uint64` that
`EncodeUint64` writes; and on an input that is not empty, `DecodeBig`
succeeds exactly on the quantities, `Big.UnmarshalText` agrees with it, and
`EncodeBig` writes what it read in lower case. -/
theorem quantity_codec_exact (size : WordSize) :
    (∀ n : Int, 0 ≤ n → n < 2 ^ 256 →
      DecodeBig size (EncodeBig n) = .ok n ∧ Big.UnmarshalText size (EncodeBig n) = .ok n) ∧
    (∀ n : Nat, n < 2 ^ 64 →
      DecodeUint64 (EncodeUint64 n) = .ok n ∧ Uint64.UnmarshalText (EncodeUint64 n) = .ok n) ∧
    (∀ s : List UInt8, s ≠ [] →
      ((∃ v, DecodeBig size s = .ok v) ↔ IsQuantity s) ∧ Big.UnmarshalText size s = DecodeBig size s ∧
        ∀ v, DecodeBig size s = .ok v → EncodeBig v = s.map lowerAscii) := by
  refine ⟨fun n nonneg small => ?_, fun n small => ⟨DecodeUint64_lowerHexDigits small,
    UnmarshalText_lowerHexDigits small⟩, fun s ne => ⟨⟨?_, ?_⟩, UnmarshalText_eq_DecodeBig size ne, ?_⟩⟩
  · -- the round trip of `big.Int`
    have read := DecodeBig_lowerHexDigits size (n := n.toNat) (by omega)
    rw [Int.toNat_of_nonneg nonneg] at read
    rw [EncodeBig_of_nonneg nonneg, UnmarshalText_eq_DecodeBig size (by simp)]
    exact ⟨read, read⟩
  · rintro ⟨v, read⟩
    obtain ⟨raw, check, length, all, -⟩ := Iff.mp DecodeBig_eq_ok read
    obtain ⟨x, rfl, x_is, raw_ne, lead⟩ := Iff.mp checkNumber_eq_ok check
    exact ⟨x, raw, rfl, x_is, raw_ne, length, all, lead⟩
  · rintro ⟨x, raw, rfl, x_is, raw_ne, length, all, lead⟩
    exact ⟨_, Iff.mpr DecodeBig_eq_ok ⟨raw, Iff.mpr checkNumber_eq_ok ⟨x, rfl, x_is, raw_ne, lead⟩, length, all, rfl⟩⟩
  · intro v read
    obtain ⟨raw, check, -, all, rfl⟩ := Iff.mp DecodeBig_eq_ok read
    obtain ⟨x, rfl, x_is, raw_ne, lead⟩ := Iff.mp checkNumber_eq_ok check
    have lowered : lowerAscii 48 = 48 ∧ lowerAscii x = 120 := by
      rcases x_is with rfl | rfl <;> decide
    rw [EncodeBig_of_nonneg (by omega), Int.toNat_natCast, lowerHexDigits_hexValue raw_ne all lead, List.map_cons,
      List.map_cons, lowered.1, lowered.2, ascii_zeroX]
    rfl

/-- `0xff` both ways, on both word sizes, and the quantity `0X1A`, which
`EncodeBig` writes back as `0x1a`. -/
theorem quantity_codec_exact_ff :
    DecodeBig .w64 (EncodeBig 255) = .ok 255 ∧ Big.UnmarshalText .w32 (EncodeBig 255) = .ok 255 ∧
      DecodeUint64 (EncodeUint64 255) = .ok 255 ∧ Uint64.UnmarshalText (EncodeUint64 255) = .ok 255 ∧
      IsQuantity (ascii "0X1A") ∧ EncodeBig 26 = (ascii "0X1A").map lowerAscii := by
  have read : DecodeBig .w64 (ascii "0X1A") = .ok 26 := by rfl
  obtain ⟨quantity, -, lower⟩ := (quantity_codec_exact .w64).2.2 (ascii "0X1A") (by decide)
  exact ⟨((quantity_codec_exact .w64).1 255 (by norm_num) (by norm_num)).1,
    ((quantity_codec_exact .w32).1 255 (by norm_num) (by norm_num)).2,
    ((quantity_codec_exact .w64).2.1 255 (by norm_num)).1, ((quantity_codec_exact .w64).2.1 255 (by norm_num)).2,
    quantity.mp ⟨26, read⟩, lower 26 read⟩

end FiscoBcos.Hexutil
