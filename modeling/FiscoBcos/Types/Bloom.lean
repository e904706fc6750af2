import FiscoBcos.Lib.Bitset
import FiscoBcos.Lib.BigEndian
import FiscoBcos.State.Journal
import Mathlib

/-!
# Log blooms

`core/types/bloom9.go`: a bloom is 2048 bits in 256 bytes, held big-endian,
as a `*big.Int` reads them. `bloom9` hashes a byte string and sets three of
the bits, chosen by the first six bytes of the hash; `LogsBloom` and
`CreateBloom` OR together the blooms of every log address and topic, and
`BloomLookup` tests whether all three bits of a value are set.

Insertion and `BloomLookup` hash the same bytes, so a bloom built from
receipts holds every address and topic of their logs (`BloomLookup_CreateBloom`).
`TestBytes` goes through `big.Int.SetBytes`, which drops leading zero bytes,
so it hashes other bytes than insertion did for a value that starts with a
zero byte (`TestBytes_eq`), and it can then miss a log's own address
(`TestBytes_misses_leading_zero`). `Add` followed by `Test` of the same
integer always finds it (`Test_Add`).

`crypto.Keccak256` is a parameter, read with `getD`: its digests have 32
bytes, more than the six `bloom9` reads. Left out: the text encodings.
-/

namespace FiscoBcos.Types

open State (Log)

/-- `BloomByteLength`. -/
def BloomByteLength : Nat := 256

/-- `BloomBitLength`. -/
def BloomBitLength : Nat := 8 * BloomByteLength

/-- `Bloom`, a `[BloomByteLength]byte`. -/
structure Bloom where
  bytes : List UInt8
  length_bytes : bytes.length = BloomByteLength

/-- The part of `Receipt` that the bloom reads. -/
structure Receipt where
  Logs : List Log

section

variable (keccak256 : List UInt8 → List UInt8)

/-- `bloom9`: for `i = 0, 2, 4`, the bit `(b[i+1] + b[i] << 8) & 2047` of the
hash `b`. -/
def bloom9 (b : List UInt8) : Nat :=
  let b := keccak256 b
  [0, 2, 4].foldl (fun r i =>
    r ||| 1 <<< (((b.getD (i + 1) 0).toNat + ((b.getD i 0).toNat <<< 8)) &&& 2047)) 0

namespace Bloom

/-- `Bloom.SetBytes`: `d` copied into the last `len(d)` bytes. -/
def SetBytes (b : Bloom) (d : List UInt8) : Except String Bloom :=
  if h : d.length ≤ BloomByteLength then
    .ok ⟨b.bytes.take (BloomByteLength - d.length) ++ d, by
      simp only [List.length_append, List.length_take, b.length_bytes]
      omega⟩
  else .error ("bloom bytes too big " ++ toString BloomByteLength ++ " " ++ toString d.length)

/-- `Bloom.Big`. -/
def Big (b : Bloom) : Nat := BigEndian.value b.bytes

/-- `Bloom.Add`. -/
def Add (b : Bloom) (d : Int) : Except String Bloom :=
  b.SetBytes (BigEndian.bytes (b.Big ||| bloom9 keccak256 (BigInt.bytes d)))

end Bloom

/-- The zero bloom, as `var bloom Bloom` declares it. -/
def zeroBloom : Bloom := ⟨List.replicate BloomByteLength 0, List.length_replicate⟩

/-- `BytesToBloom`. -/
def BytesToBloom (b : List UInt8) : Except String Bloom := zeroBloom.SetBytes b

/-- `BloomLookup`, given the `Bytes()` of the value looked up. -/
def BloomLookup (bin : Bloom) (topic : List UInt8) : Bool :=
  let bloom := bin.Big
  let cmp := bloom9 keccak256 topic
  (bloom &&& cmp) == cmp

namespace Bloom

/-- `Bloom.Test`: the lookup of the integer's `Bytes()`. -/
def Test (b : Bloom) (test : Int) : Bool := BloomLookup keccak256 b (BigInt.bytes test)

/-- `Bloom.TestBytes`. -/
def TestBytes (b : Bloom) (test : List UInt8) : Bool := b.Test keccak256 (BigInt.setBytes test)

end Bloom

/-- `LogsBloom`: the addresses' and topics' blooms ORed together. -/
def LogsBloom (logs : List Log) : Nat :=
  logs.foldl (fun bin log =>
    log.Topics.foldl (fun bin b => bin ||| bloom9 keccak256 b) (bin ||| bloom9 keccak256 log.Address)) 0

/-- The integer `CreateBloom` builds before it converts it. -/
def receiptsBloom (receipts : List Receipt) : Nat :=
  receipts.foldl (fun bin receipt => bin ||| LogsBloom keccak256 receipt.Logs) 0

/-- `CreateBloom`. -/
def CreateBloom (receipts : List Receipt) : Except String Bloom :=
  BytesToBloom (BigEndian.bytes (receiptsBloom keccak256 receipts))

end

/-! ## The three bits of a value -/

section

variable {keccak256 : List UInt8 → List UInt8}

/-- The bit index `bloom9` takes from the hash bytes `b[i]` and `b[i+1]`. -/
def bloomBit (hash : List UInt8) (i : Nat) : Nat :=
  ((hash.getD (i + 1) 0).toNat + ((hash.getD i 0).toNat <<< 8)) &&& 2047

theorem bloomBit_lt (hash : List UInt8) (i : Nat) : bloomBit hash i < 2048 := by
  unfold bloomBit
  exact lt_of_le_of_lt Nat.and_le_right (by decide)

private theorem testBit_or_one_shiftLeft (r k j : Nat) :
    (r ||| 1 <<< k).testBit j = (r.testBit j || decide (k = j)) := by
  rw [Nat.testBit_or, Nat.one_shiftLeft, Nat.testBit_two_pow]

theorem bloom9_eq (b : List UInt8) :
    bloom9 keccak256 b = ((0 ||| 1 <<< bloomBit (keccak256 b) 0) ||| 1 <<< bloomBit (keccak256 b) 2) |||
      1 <<< bloomBit (keccak256 b) 4 := rfl

/-- The bits `bloom9` sets. -/
theorem testBit_bloom9 (b : List UInt8) (j : Nat) :
    (bloom9 keccak256 b).testBit j = true ↔
      j = bloomBit (keccak256 b) 0 ∨ j = bloomBit (keccak256 b) 2 ∨ j = bloomBit (keccak256 b) 4 := by
  rw [bloom9_eq]
  simp only [testBit_or_one_shiftLeft, Nat.zero_testBit, Bool.false_or, Bool.or_eq_true,
    decide_eq_true_eq]
  constructor <;> intro h <;> omega

theorem bloom9_lt (b : List UInt8) : bloom9 keccak256 b < 2 ^ BloomBitLength := by
  apply Nat.lt_pow_two_of_testBit
  intro j hj
  rw [← Bool.not_eq_true, testBit_bloom9]
  have := bloomBit_lt (keccak256 b) 0
  have := bloomBit_lt (keccak256 b) 2
  have := bloomBit_lt (keccak256 b) 4
  simp only [BloomBitLength, BloomByteLength] at hj
  omega

/-- `x &&& c = c` says that the bits of `c` are bits of `x`. -/
theorem land_eq_self_iff {x c : Nat} : x &&& c = c ↔ ∀ j, c.testBit j = true → x.testBit j = true := by
  constructor
  · intro eq j hc
    rw [← eq, Nat.testBit_and] at hc
    exact (Bool.and_eq_true_iff.mp hc).1
  · intro sub
    apply Nat.eq_of_testBit_eq
    intro j
    rw [Nat.testBit_and]
    cases hc : c.testBit j
    · simp
    · simp [sub j hc]

/-- `BloomLookup` holds when the bloom has every bit `bloom9` sets for the value. -/
theorem BloomLookup_iff (bin : Bloom) (topic : List UInt8) :
    BloomLookup keccak256 bin topic = true ↔
      ∀ j, (bloom9 keccak256 topic).testBit j = true → bin.Big.testBit j = true := by
  rw [BloomLookup, beq_iff_eq, land_eq_self_iff]

/-! ## Building a bloom from receipts -/

/-- The 2048 bits are the 256 bytes. -/
theorem two_pow_BloomBitLength : (2 : Nat) ^ BloomBitLength = 256 ^ BloomByteLength := by
  rw [BloomBitLength, pow_mul]
  norm_num

/-- The bits of a fold whose step ORs in the bits `F a` of each element. -/
theorem testBit_foldl {α : Type*} {step : Nat → α → Nat} {F : α → Nat → Bool}
    (bits : ∀ bin a j, (step bin a).testBit j = (bin.testBit j || F a j)) (l : List α) (init j : Nat) :
    (l.foldl step init).testBit j = (init.testBit j || l.any fun a => F a j) := by
  induction l generalizing init with
  | nil => simp
  | cons a rest ih => rw [List.foldl_cons, ih, bits, List.any_cons, Bool.or_assoc]

theorem testBit_LogsBloom (logs : List Log) (j : Nat) :
    (LogsBloom keccak256 logs).testBit j =
      logs.any fun log =>
        (bloom9 keccak256 log.Address).testBit j || log.Topics.any fun t => (bloom9 keccak256 t).testBit j := by
  have topics : ∀ (topics : List (List UInt8)) bin j,
      (topics.foldl (fun bin b => bin ||| bloom9 keccak256 b) bin).testBit j =
        (bin.testBit j || topics.any fun t => (bloom9 keccak256 t).testBit j) :=
    testBit_foldl fun bin b j => Nat.testBit_or bin _ j
  unfold LogsBloom
  rw [testBit_foldl (fun bin log j => by rw [topics, Nat.testBit_or, Bool.or_assoc]), Nat.zero_testBit,
    Bool.false_or]

theorem testBit_receiptsBloom (receipts : List Receipt) (j : Nat) :
    (receiptsBloom keccak256 receipts).testBit j =
      receipts.any fun receipt => (LogsBloom keccak256 receipt.Logs).testBit j := by
  have bits := testBit_foldl (F := fun (receipt : Receipt) j => (LogsBloom keccak256 receipt.Logs).testBit j)
    (fun bin receipt j => Nat.testBit_or bin _ j) receipts 0 j
  rwa [Nat.zero_testBit, Bool.false_or] at bits

theorem receiptsBloom_lt (receipts : List Receipt) : receiptsBloom keccak256 receipts < 2 ^ BloomBitLength := by
  apply Nat.lt_pow_two_of_testBit
  intro j hj
  have clear : ∀ b, (bloom9 keccak256 b).testBit j = false := fun b =>
    Nat.testBit_eq_false_of_lt (lt_of_lt_of_le (bloom9_lt b) (Nat.pow_le_pow_right Nat.two_pos hj))
  simp [testBit_receiptsBloom, testBit_LogsBloom, clear]

/-- `BytesToBloom` of at most 256 bytes holds their value. -/
theorem BytesToBloom_ok {d : List UInt8} (h : d.length ≤ BloomByteLength) :
    ∃ bloom, BytesToBloom d = .ok bloom ∧ bloom.Big = BigEndian.value d := by
  refine ⟨_, dif_pos h, ?_⟩
  show BigEndian.value ((List.replicate BloomByteLength 0).take (BloomByteLength - d.length) ++ d) = _
  rw [List.take_replicate, BigEndian.value_append, BigEndian.value_replicate_zero, Nat.zero_mul,
    Nat.zero_add]

/-- `CreateBloom` never panics, and its bloom holds the ORed blooms. -/
theorem CreateBloom_ok (receipts : List Receipt) :
    ∃ bloom, CreateBloom keccak256 receipts = .ok bloom ∧
      bloom.Big = receiptsBloom keccak256 receipts := by
  have short : (BigEndian.bytes (receiptsBloom keccak256 receipts)).length ≤ BloomByteLength := by
    rw [BigEndian.length_bytes_le_iff]
    exact two_pow_BloomBitLength ▸ receiptsBloom_lt receipts
  obtain ⟨bloom, ok, big⟩ := BytesToBloom_ok short
  exact ⟨bloom, ok, by rw [big, BigEndian.value_bytes]⟩

/-- A bloom built from receipts finds every address and topic of their logs. -/
theorem BloomLookup_CreateBloom {receipts : List Receipt} {bloom : Bloom}
    (ok : CreateBloom keccak256 receipts = .ok bloom) {receipt : Receipt} (inReceipts : receipt ∈ receipts)
    {log : Log} (inLogs : log ∈ receipt.Logs) :
    BloomLookup keccak256 bloom log.Address = true ∧
      ∀ t ∈ log.Topics, BloomLookup keccak256 bloom t = true := by
  obtain ⟨bloom', ok', big⟩ := @CreateBloom_ok keccak256 receipts
  rw [ok] at ok'
  cases ok'
  -- every bit of the log's blooms is a bit of the receipts' bloom
  have holds : ∀ j, ((bloom9 keccak256 log.Address).testBit j ||
      log.Topics.any fun t => (bloom9 keccak256 t).testBit j) = true → bloom.Big.testBit j = true := by
    intro j bit
    rw [big, testBit_receiptsBloom, List.any_eq_true]
    refine ⟨receipt, inReceipts, ?_⟩
    rw [testBit_LogsBloom, List.any_eq_true]
    exact ⟨log, inLogs, bit⟩
  refine ⟨(BloomLookup_iff bloom _).mpr fun j bit => holds j (by simp [bit]), fun t mem => ?_⟩
  refine (BloomLookup_iff bloom _).mpr fun j bit => holds j ?_
  simp only [Bool.or_eq_true, List.any_eq_true]
  exact .inr ⟨t, mem, bit⟩

/-! ## `Add` and `Test` -/

theorem Big_lt (bloom : Bloom) : bloom.Big < 2 ^ BloomBitLength := by
  rw [two_pow_BloomBitLength, ← bloom.length_bytes]
  exact BigEndian.value_lt bloom.bytes

/-- `SetBytes` of a value at least the bloom's: the bytes it keeps in front
are zero, so the bloom then holds the value. -/
theorem Big_SetBytes {bloom bloom' : Bloom} {n : Nat} (ge : bloom.Big ≤ n)
    (ok : bloom.SetBytes (BigEndian.bytes n) = .ok bloom') : bloom'.Big = n := by
  unfold Bloom.SetBytes at ok
  split_ifs at ok with short
  cases ok
  set k := BloomByteLength - (BigEndian.bytes n).length
  have split : bloom.Big =
      BigEndian.value (bloom.bytes.take k) * 256 ^ (bloom.bytes.drop k).length +
        BigEndian.value (bloom.bytes.drop k) := by
    rw [Bloom.Big, ← BigEndian.value_append, List.take_append_drop]
  have rest : (bloom.bytes.drop k).length = (BigEndian.bytes n).length := by
    rw [List.length_drop, bloom.length_bytes]
    omega
  have below : n < 256 ^ (BigEndian.bytes n).length := by
    simpa using BigEndian.value_lt (BigEndian.bytes n)
  -- a nonzero front would make the bloom at least `256 ^ len`, above `n`
  have front : BigEndian.value (bloom.bytes.take k) = 0 := by
    by_contra ne
    have big : 256 ^ (BigEndian.bytes n).length ≤ bloom.Big := by
      rw [split, rest]
      exact le_trans (Nat.le_mul_of_pos_left _ (Nat.pos_of_ne_zero ne)) (Nat.le_add_right _ _)
    omega
  show BigEndian.value (bloom.bytes.take k ++ BigEndian.bytes n) = n
  rw [BigEndian.value_append, front, Nat.zero_mul, Nat.zero_add, BigEndian.value_bytes]

/-- `Add` never panics. -/
theorem Add_ok (bloom : Bloom) (d : Int) : ∃ bloom', bloom.Add keccak256 d = .ok bloom' := by
  have lt : bloom.Big ||| bloom9 keccak256 (BigInt.bytes d) < 2 ^ BloomBitLength :=
    Nat.or_lt_two_pow (Big_lt bloom) (bloom9_lt _)
  have short : (BigEndian.bytes (bloom.Big ||| bloom9 keccak256 (BigInt.bytes d))).length ≤ BloomByteLength := by
    rw [BigEndian.length_bytes_le_iff]
    exact two_pow_BloomBitLength ▸ lt
  exact ⟨_, dif_pos short⟩

/-- After `Add(d)`, `Test(d)` holds: `Add` sets the bits `Test` reads. -/
theorem Test_Add {bloom bloom' : Bloom} {d : Int} (ok : bloom.Add keccak256 d = .ok bloom') :
    bloom'.Test keccak256 d = true := by
  have big : bloom'.Big = bloom.Big ||| bloom9 keccak256 (BigInt.bytes d) :=
    Big_SetBytes Nat.left_le_or ok
  rw [Bloom.Test, BloomLookup_iff, big]
  intro j bit
  rw [Nat.testBit_or, bit, Bool.or_true]

/-- `Add` never fails, and `Test` of the value added holds afterwards. -/
theorem Add_Test (bloom : Bloom) (d : Int) :
    ∃ bloom', bloom.Add keccak256 d = .ok bloom' ∧ bloom'.Test keccak256 d = true := by
  obtain ⟨bloom', ok⟩ := @Add_ok keccak256 bloom d
  exact ⟨bloom', ok, Test_Add ok⟩

/-! ## `TestBytes` -/

/-- `TestBytes` looks up the bytes `big.Int.SetBytes` keeps: the value without
its leading zero bytes. -/
theorem TestBytes_eq (bloom : Bloom) (x : List UInt8) :
    bloom.TestBytes keccak256 x = BloomLookup keccak256 bloom (BigEndian.bytes (BigEndian.value x)) := by
  simp [Bloom.TestBytes, Bloom.Test, BigInt.bytes, BigInt.setBytes]

end

/-- A bloom built from one log, under a hash function that sends the 20-byte
address elsewhere than the 19 bytes `SetBytes` leaves of it: `BloomLookup`
finds the address and `TestBytes` does not. -/
theorem TestBytes_misses_leading_zero :
    let keccak256 : List UInt8 → List UInt8 := fun b =>
      if b.length = 20 then List.replicate 32 0 else List.replicate 32 1
    let log : Log := ⟨0 :: List.replicate 19 1, [], [], [], 0, [], 0⟩
    ∃ bloom, CreateBloom keccak256 [⟨[log]⟩] = .ok bloom ∧
      BloomLookup keccak256 bloom log.Address = true ∧ bloom.TestBytes keccak256 log.Address = false := by
  intro keccak256 log
  obtain ⟨bloom, ok, big⟩ := @CreateBloom_ok keccak256 [⟨[log]⟩]
  have one : receiptsBloom keccak256 [⟨[log]⟩] = 1 := by decide
  have stripped : BigEndian.bytes (BigEndian.value log.Address) = List.replicate 19 1 := by
    have lead : BigEndian.value log.Address = BigEndian.value (List.replicate 19 1) := by
      simp [log, BigEndian.value_cons]
    rw [lead, BigEndian.bytes_value (by decide)]
  refine ⟨bloom, ok, (BloomLookup_CreateBloom ok (List.mem_singleton_self _) (List.mem_singleton_self _)).1, ?_⟩
  rw [TestBytes_eq, stripped, BloomLookup, big, one]
  decide

end FiscoBcos.Types
