import FiscoBcos.Abi.NewType
import FiscoBcos.Abi.Unpack
import Mathlib

/-!
# Event topics

`makeTopics` and `parseTopics` of `accounts/abi/bind/topics.go`, which turn
the indexed arguments of an event into the 32-byte topics of a log filter
and back. A topic of a static value should be the word `Type.pack` writes
for it, as the EVM logs it.

An integer topic is the minimal big-endian bytes of the integer,
right-aligned: `big.Int.Bytes` drops the sign, so a negative value gets the
topic of its absolute value where the ABI has its two's complement
(`makeTopics_negative_int8`). Every other static value, and every integer
that is not negative, gets its ABI word (`makeTopic_eq_pack`), and
`parseTopics` reads it back into a field of its type (`parseTopic_makeTopic`).
-/

namespace FiscoBcos.Abi

/-- `common.Hash`. -/
structure Hash where
  bytes : List UInt8
  length : bytes.length = 32
deriving DecidableEq

/-- `common.Address`. -/
structure Address where
  bytes : List UInt8
  length : bytes.length = 20
deriving DecidableEq

/-- The bit widths of Go's fixed-size integers. -/
def GoIntWidth (bits : Nat) : Prop := bits = 8 ∨ bits = 16 ∨ bits = 32 ∨ bits = 64

/-- The Go values a topic is made from and read into, by their type:
`int` and `uint` are `int8` to `int64` and `uint8` to `uint64`, holding a
value of their width; `byteArray` is a `[N]byte`; `other` is any other
type, by its name. -/
inductive TopicValue where
  | hash (h : Hash)
  | address (a : Address)
  | bigInt (n : Int)
  | bool (b : Bool)
  | int (bits : Nat) (n : Int) (width : GoIntWidth bits)
      (range : -2 ^ (bits - 1) ≤ n ∧ n < 2 ^ (bits - 1))
  | uint (bits : Nat) (n : Nat) (width : GoIntWidth bits) (range : n < 2 ^ bits)
  | string (s : List UInt8)
  | bytes (b : List UInt8)
  | byteArray (b : List UInt8)
  | other (typeName : String)
deriving DecidableEq

/-! ## `makeTopics` -/

/-- `copy(topic[HashLength-len(blob):], blob)`: `blob` right-aligned in a
zero word; a blob of more than 32 bytes is a negative slice start. -/
def rightAligned (blob : List UInt8) : Except AbiError Hash :=
  if h : blob.length ≤ 32 then .ok ⟨BigEndian.leftPad 32 blob, BigEndian.length_leftPad h⟩
  else .error (.panic "runtime error: slice bounds out of range")

/-- `reflect.Copy(reflect.ValueOf(topic[:val.Len()]), val)`: `b`
left-aligned in a zero word. -/
def leftAligned (b : List UInt8) : Except AbiError Hash :=
  if h : b.length ≤ 32 then .ok ⟨b ++ List.replicate (32 - b.length) 0, by simp; omega⟩
  else .error (.panic "runtime error: slice bounds out of range")

/-- The topic of one rule of a filter; `keccak` is `crypto.Keccak256Hash`. -/
def makeTopic (keccak : List UInt8 → Hash) : TopicValue → Except AbiError Hash
  | .hash h => .ok h
  | .address a => rightAligned a.bytes
  | .bigInt n => rightAligned (BigInt.bytes n)
  | .bool b => .ok ⟨List.replicate 31 0 ++ [if b then 1 else 0], by simp⟩
  | .int _ n _ _ => rightAligned (BigInt.bytes n)
  | .uint _ n _ _ => rightAligned (BigEndian.bytes n)
  | .string s => .ok (keccak s)
  | .bytes b => .ok (keccak b)
  | .byteArray b => leftAligned b
  | .other name => .error (.msg ("unsupported indexed type: " ++ name))

/-- `makeTopics`: the topics of every rule of every filter. -/
def makeTopics (keccak : List UInt8 → Hash) (query : List (List TopicValue)) :
    Except AbiError (List (List Hash)) :=
  query.mapM fun filter => filter.mapM (makeTopic keccak)

/-! ## `parseTopics` -/

/-- A field of the struct `parseTopics` fills, with the value it holds. -/
structure OutField where
  name : List Char
  value : TopicValue
deriving DecidableEq

theorem toSigned_range {bits m : Nat} (pos : 0 < bits) (lt : m < 2 ^ bits) :
    -2 ^ (bits - 1) ≤ toSigned bits m ∧ toSigned bits m < 2 ^ (bits - 1) := by
  have double : (2 : Int) ^ bits = 2 * 2 ^ (bits - 1) := by
    rw [← pow_succ', Nat.sub_add_cancel pos]
  have lt' : (m : Int) < 2 ^ bits := by exact_mod_cast lt
  unfold toSigned
  split_ifs with low
  · have : (m : Int) < 2 ^ (bits - 1) := by exact_mod_cast low
    omega
  · have : (2 : Int) ^ (bits - 1) ≤ m := by exact_mod_cast Nat.le_of_not_lt low
    omega

theorem GoIntWidth.pos {bits : Nat} (h : GoIntWidth bits) : 0 < bits := by
  rcases h with rfl | rfl | rfl | rfl <;> decide

/-- What the topic sets a field holding `field` to, by the field's type;
`none` leaves the field as it was. The integer kinds take the low bits of
the word, read unsigned: `int8(num.Int64())` and `uint8(num.Uint64())`. -/
def parseTopic (arg : Argument) (field : TopicValue) (topic : Hash) :
    Except AbiError (Option TopicValue) :=
  let num := BigEndian.value topic.bytes
  match field with
  | .bool _ => .ok (if topic.bytes.getD 31 0 = 1 then some (.bool true) else none)
  | .int bits _ width _ =>
    .ok (some (.int bits (toSigned bits (num % 2 ^ bits)) width
      (toSigned_range width.pos (Nat.mod_lt _ (Nat.two_pow_pos bits)))))
  | .uint bits _ width _ => .ok (some (.uint bits (num % 2 ^ bits) width (Nat.mod_lt _ (Nat.two_pow_pos bits))))
  | .hash _ => .ok (some (.hash topic))
  | .address _ => .ok (some (.address ⟨topic.bytes.drop 12, by simp [topic.length]⟩))
  | .bigInt _ => .ok (some (.bigInt num))
  | field => match arg.type with
    | .fixedBytes size =>
      if size > 32 then .error (.panic "runtime error: slice bounds out of range")
      else match field with
        -- `reflect.Copy` into an array or a slice copies as many bytes as both have
        | .byteArray old =>
          .ok (some (.byteArray (topic.bytes.take (min size old.length) ++ old.drop (min size old.length))))
        | .bytes old =>
          .ok (some (.bytes (topic.bytes.take (min size old.length) ++ old.drop (min size old.length))))
        | _ => .error (.panic "reflect: call of reflect.Copy on non-array Value")
    | t => .error (.msg ("unsupported indexed type: " ++ t.canonical))

/-- Set the field `name` to `v`, or leave it. -/
def setField (out : List OutField) (name : List Char) : Option TopicValue → List OutField
  | none => out
  | some v => out.map fun f => if f.name = name then { f with value := v } else f

/-- The field loop of `parseTopics`, one topic per argument. The fields set
before an error stay set. -/
def parseTopicsLoop : List Argument → List Hash → List OutField → Option AbiError × List OutField
  | arg :: args, topic :: topics, out =>
    if !arg.indexed then (some (.msg "non-indexed field in topic reconstruction"), out)
    else match out.find? (·.name = ToCamelCase arg.name.toList) with
      -- `FieldByName` of a missing field is the zero `Value`, whose `Type` panics
      | none => (some (.panic "reflect: call of reflect.Value.Type on zero Value"), out)
      | some field => match parseTopic arg field.value topic with
        | .error e => (some e, out)
        | .ok v => parseTopicsLoop args topics (setField out field.name v)
  | _, _, out => (none, out)

/-- `parseTopics(out, fields, topics)`: the error it returns and the fields of
`out` after it. -/
def parseTopics (out : List OutField) (fields : List Argument) (topics : List Hash) :
    Option AbiError × List OutField :=
  if fields.length ≠ topics.length then (some (.msg "topic/field count mismatch"), out)
  else parseTopicsLoop fields topics out

/-! ## Topics and ABI words -/

/-- The ABI type and value of an indexed argument of a static type. A
`*big.Int` stands for an `int256`; a `uint256` packs it to the same word. -/
def TopicValue.abiArg : TopicValue → Option (AbiType × Value)
  | .hash h => some (.fixedBytes 32, Value.ofBytes .array h.bytes)
  | .bool b => some (.bool, .bool b)
  | .int bits n _ _ => some (.int bits, .int (reflectIntKind false bits) n)
  | .uint bits n _ _ => some (.uint bits, .int (reflectIntKind true bits) n)
  | .bigInt n => some (.int 256, .int .ptr n)
  | .address a => some (.address, Value.ofBytes .array a.bytes)
  | .byteArray b => some (.fixedBytes b.length, Value.ofBytes .array b)
  | _ => none

/-- The static values whose topic is their word: an integer that is not
negative, a `*big.Int` below `2 ^ 256`, a `[N]byte` of at most a word. -/
def TopicValue.WordFits : TopicValue → Prop
  | .int _ n _ _ => 0 ≤ n
  | .bigInt n => 0 ≤ n ∧ n < 2 ^ 256
  | .byteArray b => b.length ≤ 32
  | _ => True

theorem GoIntWidth.le {bits : Nat} (h : GoIntWidth bits) : bits ≤ 64 := by
  rcases h with rfl | rfl | rfl | rfl <;> decide

@[simp] theorem Value.len_ofBytes (kind : Kind) (b : List UInt8) : (Value.ofBytes kind b).len = b.length := by
  simp [Value.ofBytes, Value.len]

theorem length_bytes_of_lt {n : Nat} (lt : n < 2 ^ 256) : (BigEndian.bytes n).length ≤ 32 :=
  BigEndian.length_bytes_le_iff.mpr (lt_of_lt_of_eq lt (by decide))

/-- An integer below `2 ^ 256` that is not negative is topic-aligned as its word. -/
theorem rightAligned_bytes {n : Int} (nonneg : 0 ≤ n) (lt : n < 2 ^ 256) :
    (rightAligned (BigInt.bytes n)).map Hash.bytes = .ok (u256 n) := by
  have abs : BigInt.bytes n = BigEndian.bytes n.toNat := by
    rw [BigInt.bytes, show n.natAbs = n.toNat by omega]
  have short : (BigInt.bytes n).length ≤ 32 := by
    rw [abs]
    exact length_bytes_of_lt (by omega)
  rw [rightAligned, dif_pos short, u256_of_lt nonneg lt]
  show Except.ok (BigEndian.leftPad 32 (BigInt.bytes n)) = _
  rw [abs]

theorem makeTopic_eq_pack (keccak : List UInt8 → Hash) {v : TopicValue} {t : AbiType} {x : Value}
    (arg : v.abiArg = some (t, x)) (fits : v.WordFits) :
    (makeTopic keccak v).map Hash.bytes = t.pack x := by
  cases v with
  | bool b =>
    simp only [TopicValue.abiArg, Option.some.injEq, Prod.mk.injEq] at arg
    obtain ⟨rfl, rfl⟩ := arg
    cases b <;> simp only [makeTopic] <;> decide
  | int bits n width range =>
    simp only [TopicValue.abiArg, Option.some.injEq, Prod.mk.injEq] at arg
    obtain ⟨rfl, rfl⟩ := arg
    have lt : n < 2 ^ 256 := lt_of_lt_of_le range.2 (pow_le_pow_right₀ (by decide) (by have := width.le; omega))
    rw [makeTopic, rightAligned_bytes fits lt]
    simp [AbiType.pack, typeCheck, AbiType.kind, Value.kind, packElement, packNum]
  | uint bits n width range =>
    simp only [TopicValue.abiArg, Option.some.injEq, Prod.mk.injEq] at arg
    obtain ⟨rfl, rfl⟩ := arg
    have lt : (n : Int) < 2 ^ 256 := by
      have : n < 2 ^ 256 := lt_of_lt_of_le range (Nat.pow_le_pow_right (by decide) (by have := width.le; omega))
      exact_mod_cast this
    have topic := rightAligned_bytes (Int.natCast_nonneg n) lt
    simp only [BigInt.bytes, Int.natAbs_natCast] at topic
    rw [makeTopic, topic]
    simp [AbiType.pack, typeCheck, AbiType.kind, Value.kind, packElement, packNum]
  | bigInt n =>
    simp only [TopicValue.abiArg, Option.some.injEq, Prod.mk.injEq] at arg
    obtain ⟨rfl, rfl⟩ := arg
    rw [makeTopic, rightAligned_bytes fits.1 fits.2]
    simp [AbiType.pack, typeCheck, AbiType.kind, Value.kind, packElement, packNum, reflectIntKind]
  | address a =>
    simp only [TopicValue.abiArg, Option.some.injEq, Prod.mk.injEq] at arg
    obtain ⟨rfl, rfl⟩ := arg
    simp [makeTopic, rightAligned, AbiType.pack, typeCheck, AbiType.kind,
      packElement, bytesOf, leftPadBytes, BigEndian.leftPad, a.length, Except.map]
  | byteArray b =>
    simp only [TopicValue.abiArg, Option.some.injEq, Prod.mk.injEq] at arg
    obtain ⟨rfl, rfl⟩ := arg
    simp only [TopicValue.WordFits] at fits
    simp only [makeTopic, leftAligned, dif_pos fits, AbiType.pack, typeCheck, AbiType.kind,
      Value.kind_ofBytes, Value.len_ofBytes, packElement, bytesOf, Value.bytes?_ofBytes, rightPadBytes]
    by_cases full : 32 ≤ b.length
    · have : b.length = 32 := by omega
      simp [this, Except.map]
    · simp [full, Except.map]
  | hash h =>
    simp only [TopicValue.abiArg, Option.some.injEq, Prod.mk.injEq] at arg
    obtain ⟨rfl, rfl⟩ := arg
    simp [makeTopic, AbiType.pack, typeCheck, AbiType.kind, h.length, packElement, bytesOf,
      rightPadBytes, Except.map]
  | string _ | bytes _ | other _ => simp [TopicValue.abiArg] at arg

theorem makeTopic_eq_pack_five :
    (TopicValue.bigInt 5).abiArg = some (.int 256, .int .ptr 5) ∧ (TopicValue.bigInt 5).WordFits ∧
      (makeTopic (fun _ => ⟨List.replicate 32 0, List.length_replicate⟩) (.bigInt 5)).map Hash.bytes =
        (AbiType.int 256).pack (.int .ptr 5) :=
  ⟨rfl, ⟨by decide, by decide⟩, makeTopic_eq_pack _ rfl ⟨by decide, by decide⟩⟩

/-- The fields a topic value is read back into: of its kind, and of its
width or length. -/
def TopicValue.SameType : TopicValue → TopicValue → Prop
  | .bool _, .bool _ | .hash _, .hash _ | .address _, .address _ | .bigInt _, .bigInt _ => True
  | .int b _ _ _, .int b' _ _ _ | .uint b _ _ _, .uint b' _ _ _ => b = b'
  | .byteArray b, .byteArray b' => b.length = b'.length
  | _, _ => False

theorem value_rightAligned {n : Int} (nonneg : 0 ≤ n) (lt : n < 2 ^ 256) {topic : Hash}
    (made : rightAligned (BigInt.bytes n) = .ok topic) : BigEndian.value topic.bytes = n.toNat := by
  have word := rightAligned_bytes nonneg lt
  rw [made, u256_of_lt nonneg lt] at word
  simp only [Except.map, Except.ok.injEq] at word
  rw [word, BigEndian.value_leftPad, BigEndian.value_bytes]

/-- The topic of a static value that fits its word is read back into a field
of its type as the value, except that `false` leaves a `bool` field as it
was. -/
theorem parseTopic_makeTopic (keccak : List UInt8 → Hash) {v : TopicValue} {t : AbiType} {x : Value}
    (arg : v.abiArg = some (t, x)) (fits : v.WordFits) {field : TopicValue} (same : field.SameType v)
    {a : Argument} (ty : a.type = t) {topic : Hash} (made : makeTopic keccak v = .ok topic) :
    parseTopic a field topic = .ok (if v = .bool false then none else some v) := by
  cases v with
  | bool b =>
    cases field <;> simp only [TopicValue.SameType] at same
    simp only [makeTopic, Except.ok.injEq] at made
    subst made
    cases b <;> simp [parseTopic]
  | int bits n width range =>
    cases field <;> simp only [TopicValue.SameType] at same
    rename_i fieldBits _ _ _
    subst fieldBits
    have lt : n < 2 ^ 256 := lt_of_lt_of_le range.2 (pow_le_pow_right₀ (by decide) (by have := width.le; omega))
    have value := value_rightAligned fits lt made
    have small : n.toNat < 2 ^ (bits - 1) := by
      have := range.2
      zify [fits]
      rwa [Int.toNat_of_nonneg fits]
    have below : n.toNat < 2 ^ bits := lt_of_lt_of_le small (Nat.pow_le_pow_right (by decide) (Nat.sub_le _ _))
    simp only [parseTopic, value, Nat.mod_eq_of_lt below, toSigned, if_pos small, Int.toNat_of_nonneg fits]
    simp
  | uint bits n width range =>
    cases field <;> simp only [TopicValue.SameType] at same
    rename_i fieldBits _ _ _
    subst fieldBits
    have lt : (n : Int) < 2 ^ 256 := by
      have : n < 2 ^ 256 := lt_of_lt_of_le range (Nat.pow_le_pow_right (by decide) (by have := width.le; omega))
      exact_mod_cast this
    have value := value_rightAligned (Int.natCast_nonneg n) lt (by simpa [makeTopic, BigInt.bytes] using made)
    simp [parseTopic, value, Nat.mod_eq_of_lt range]
  | bigInt n =>
    cases field <;> simp only [TopicValue.SameType] at same
    have value := value_rightAligned fits.1 fits.2 made
    simp [parseTopic, value, Int.toNat_of_nonneg fits.1]
  | hash h =>
    cases field <;> simp only [TopicValue.SameType] at same
    simp only [makeTopic, Except.ok.injEq] at made
    simp [parseTopic, made]
  | address addr =>
    cases field <;> simp only [TopicValue.SameType] at same
    have short : addr.bytes.length ≤ 32 := by rw [addr.length]; omega
    simp only [makeTopic, rightAligned, dif_pos short, Except.ok.injEq] at made
    subst made
    simp [parseTopic, BigEndian.leftPad, addr.length]
  | byteArray b =>
    cases field <;> simp only [TopicValue.SameType] at same
    rename_i old
    simp only [TopicValue.abiArg, Option.some.injEq, Prod.mk.injEq] at arg
    simp only [TopicValue.WordFits] at fits
    simp only [makeTopic, leftAligned, dif_pos fits, Except.ok.injEq] at made
    subst made
    simp [parseTopic, ty, ← arg.1, not_lt.mpr fits, same]
  | string _ | bytes _ | other _ => simp [TopicValue.abiArg] at arg

theorem parseTopic_makeTopic_five :
    ∃ topic, makeTopic (fun _ => ⟨List.replicate 32 0, List.length_replicate⟩) (.bigInt 5) = .ok topic ∧
      parseTopic ⟨"x", .int 256, true⟩ (.bigInt 0) topic =
        .ok (if TopicValue.bigInt 5 = .bool false then none else some (.bigInt 5)) := by
  obtain ⟨topic, made⟩ :
      ∃ topic, makeTopic (fun _ => ⟨List.replicate 32 0, List.length_replicate⟩) (.bigInt 5) = .ok topic :=
    ⟨_, rfl⟩
  have fits : (TopicValue.bigInt 5).WordFits := ⟨by decide, by decide⟩
  have same : (TopicValue.bigInt 0).SameType (.bigInt 5) := trivial
  exact ⟨topic, made, parseTopic_makeTopic _ rfl fits same rfl made⟩

/-- The `int8` value `-1` gets the topic of `1`: its ABI word is all ones,
and `parseTopics` reads the topic back into the `int8` field as `1`. -/
theorem makeTopics_negative_int8 (keccak : List UInt8 → Hash) :
    (makeTopics keccak [[.int 8 (-1) (.inl rfl) (by decide)]]).map (·.map (·.map Hash.bytes)) =
        .ok [[u256 1]] ∧
      (AbiType.int 8).pack (.int .int8 (-1)) = .ok (u256 (-1)) ∧ u256 1 ≠ u256 (-1) ∧
      parseTopics [⟨['A'], .int 8 0 (.inl rfl) (by decide)⟩] [⟨"a", .int 8, true⟩] [⟨u256 1, by decide⟩] =
        (none, [⟨['A'], .int 8 1 (.inl rfl) (by decide)⟩]) := by
  refine ⟨?_, by decide, by decide, by decide⟩
  -- the topic of an integer does not hash
  simp only [makeTopics, List.mapM_cons, List.mapM_nil, makeTopic]
  decide

end FiscoBcos.Abi
