import FiscoBcos.Lib.BigEndian
import Mathlib

/-!
# The signature primitives of `crypto`

`crypto.Sign`, `crypto.Ecrecover` and Keccak-256 call into secp256k1 and
sha3 code outside the repository: the model takes them as `Primitives`, a
record of functions, and states what the signing code assumes of them as
`Primitives.Sound`. `ValidateSignatureValues`, `PubkeyToAddress` and
`common.BytesToAddress` are the repository's own and are modelled as written.

Addresses and hashes are byte lists: 20 and 32 bytes wherever the source
builds them.
-/

namespace FiscoBcos.Crypto

/-- `secp256k1N`, the order of the curve's group. -/
def secp256k1N : Int := 0xfffffffffffffffffffffffffffffffebaaedce6af48a03bbfd25e8cd0364141

/-- `secp256k1halfN`. -/
def secp256k1halfN : Int := secp256k1N / 2

/-- `ValidateSignatureValues`: `r` and `s` in range, `s` in the lower half
under the homestead rules, and a recovery id of 0 or 1. -/
def validateSignatureValues (v : UInt8) (r s : Int) (homestead : Bool) : Bool :=
  if r < 1 ∨ s < 1 then false
  else if homestead ∧ s > secp256k1halfN then false
  else decide (r < secp256k1N ∧ s < secp256k1N ∧ (v = 0 ∨ v = 1))

/-- The homestead rules are the stricter ones. -/
theorem validateSignatureValues_of_homestead {v : UInt8} {r s : Int} (homestead : Bool)
    (h : validateSignatureValues v r s true = true) : validateSignatureValues v r s homestead = true := by
  unfold validateSignatureValues at h ⊢
  split_ifs at h ⊢ <;> simp_all

theorem recid_of_validate {v : UInt8} {r s : Int} {homestead : Bool}
    (h : validateSignatureValues v r s homestead = true) : v = 0 ∨ v = 1 := by
  unfold validateSignatureValues at h
  split_ifs at h
  exact (of_decide_eq_true h).2.2

/-- `common.BytesToAddress`: the last 20 bytes, right-aligned in the address. -/
def bytesToAddress (b : List UInt8) : List UInt8 := BigEndian.leftPad 20 (b.drop (b.length - 20))

/-- The primitives the signing code calls. `sign` is `crypto.Sign`,
`ecrecover` is `crypto.Ecrecover`, `fromECDSAPub` gives the uncompressed
public key of a private key; their errors are Go error messages. -/
structure Primitives (PrivateKey : Type) where
  keccak256 : List UInt8 → List UInt8
  sign : List UInt8 → PrivateKey → Except String (List UInt8)
  ecrecover : List UInt8 → List UInt8 → Except String (List UInt8)
  fromECDSAPub : PrivateKey → List UInt8

variable {PrivateKey : Type}

/-- `PubkeyToAddress`: the last 20 bytes of the Keccak-256 hash of the public
key without its format byte. -/
def Primitives.pubkeyToAddress (c : Primitives PrivateKey) (k : PrivateKey) : List UInt8 :=
  bytesToAddress ((c.keccak256 ((c.fromECDSAPub k).drop 1)).drop 12)

/-- A signature in the `[R || S || V]` format whose values
`ValidateSignatureValues` accepts under the homestead rules: a low `s` and a
recovery id of 0 or 1. -/
structure Canonical (sig : List UInt8) : Prop where
  length : sig.length = 65
  valid : validateSignatureValues (sig.getD 64 0) (BigInt.setBytes (sig.take 32))
    (BigInt.setBytes ((sig.drop 32).take 32)) true = true

namespace Canonical

variable {sig : List UInt8}

theorem recid (h : Canonical sig) : sig.getD 64 0 = 0 ∨ sig.getD 64 0 = 1 :=
  recid_of_validate h.valid

/-- A canonical signature is its `R`, `S` and `V` parts. -/
theorem parts (h : Canonical sig) : sig.take 32 ++ (sig.drop 32).take 32 ++ [sig.getD 64 0] = sig := by
  have one : (sig.drop 64).length = 1 := by simp [h.length]
  obtain ⟨b, hb⟩ := List.length_eq_one_iff.mp one
  have last : sig.getD 64 0 = b := by
    have : sig[64]? = some b := by
      rw [show (64 : Nat) = 64 + 0 from rfl, ← List.getElem?_drop, hb]
      rfl
    simp [List.getD_eq_getElem?_getD, this]
  conv_rhs => rw [← List.take_append_drop 32 sig, ← List.take_append_drop 32 (sig.drop 32)]
  rw [List.drop_drop, hb, last, List.append_assoc]

theorem length_r (h : Canonical sig) : (sig.take 32).length = 32 := by simp [h.length]

theorem length_s (h : Canonical sig) : ((sig.drop 32).take 32).length = 32 := by simp [h.length]

end Canonical

/-- What the signing code assumes of its primitives: hashes of 32 bytes,
signing succeeds on them with a canonical signature, recovery on the signed
hash gives the signer's public key back, and public keys are uncompressed. -/
structure Primitives.Sound (c : Primitives PrivateKey) : Prop where
  keccak_length : ∀ b, (c.keccak256 b).length = 32
  sign_ok : ∀ h k, h.length = 32 → ∃ sig, c.sign h k = .ok sig ∧ Canonical sig
  recover : ∀ h k sig, c.sign h k = .ok sig → c.ecrecover h sig = .ok (c.fromECDSAPub k)
  uncompressed : ∀ k, (c.fromECDSAPub k).head? = some 4

end FiscoBcos.Crypto
