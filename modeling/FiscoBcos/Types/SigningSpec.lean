import FiscoBcos.Types.TransactionSigning
import Mathlib

/-!
# Signing, then recovering the sender

Under `Primitives.Sound`, a transaction signed by the Frontier or Homestead
signer, or by an EIP-155 signer with a positive chain id, names its signer:
`Sender` recovers the address of the private key that signed it. Recovery
has to undo the signer's arithmetic on `V` and hash the same fields the
signer hashed; the signature fields themselves are never hashed.

An EIP-155 signer with chain id zero signs the EIP-155 hash but writes a
Homestead `V`, so recovery takes the Homestead path and checks the signature
against the Frontier hash, which covers other fields.
-/

namespace FiscoBcos.Types

open FiscoBcos.Rlp FiscoBcos.Crypto

variable {PrivateKey : Type}

/-- `copy(addr[:], b)` of exactly 20 bytes is `BytesToAddress`. -/
theorem copy_eq_bytesToAddress {b : List UInt8} (h : b.length = 20) :
    b.take 20 ++ List.replicate (20 - b.length) 0 = bytesToAddress b := by
  simp [bytesToAddress, BigEndian.leftPad, h]

/-! ## The arithmetic on `V` -/

/-- The legacy `V` of a canonical signature: 27 or 28. -/
theorem setBytes_legacyV {v : UInt8} (hv : v = 0 ∨ v = 1) :
    BigInt.setBytes [v + 27] = v.toNat + 27 := by
  rcases hv with rfl | rfl <;> rfl

theorem isProtectedV_legacy {v : UInt8} (hv : v = 0 ∨ v = 1) :
    isProtectedV (v.toNat + 27) = false := by
  rcases hv with rfl | rfl <;> decide

theorem toNat_add_35 {v : UInt8} (hv : v = 0 ∨ v = 1) : (v + 35).toNat = v.toNat + 35 := by
  rcases hv with rfl | rfl <;> rfl

/-- The EIP-155 `V` of a canonical signature, as a number. -/
theorem eip155V_eq {v : UInt8} (hv : v = 0 ∨ v = 1) (chainId : Int) :
    ((v + 35).toNat : Int) + chainId * 2 = v.toNat + 35 + chainId * 2 := by
  rw [toNat_add_35 hv]
  push_cast
  ring

/-- An EIP-155 `V` with a positive chain id is replay protected. -/
theorem isProtectedV_eip155 {v : UInt8} (hv : v = 0 ∨ v = 1) {chainId : Int} (hc : 0 < chainId) :
    isProtectedV (((v + 35).toNat : Int) + chainId * 2) = true := by
  rw [eip155V_eq hv]
  generalize hV : (v.toNat : Int) + 35 + chainId * 2 = V
  have least : 37 ≤ V := by omega
  unfold isProtectedV
  dsimp only
  split_ifs with small
  · have value := BigInt.toNat_uint64 (x := V) (by have := BigInt.bitLen_le_iff.mp small; omega)
    have abs : (V.natAbs : Int) = V := Int.natAbs_of_nonneg (by omega)
    have ne27 : BigInt.uint64 V ≠ 27 := by
      intro h
      rw [h] at value
      simp at value
      omega
    have ne28 : BigInt.uint64 V ≠ 28 := by
      intro h
      rw [h] at value
      simp at value
      omega
    simp [ne27, ne28]
  · rfl

/-- `deriveChainId` reads the chain id back out of an EIP-155 `V`, on the
`uint64` path and on the big-integer path alike. -/
theorem deriveChainId_eip155 {v : UInt8} (hv : v = 0 ∨ v = 1) {chainId : Int} (hc : 0 ≤ chainId) :
    deriveChainId (((v + 35).toNat : Int) + chainId * 2) = chainId := by
  have hvn : v.toNat ≤ 1 := by rcases hv with rfl | rfl <;> decide
  rw [eip155V_eq hv]
  generalize hV : (v.toNat : Int) + 35 + chainId * 2 = V
  have abs : (V.natAbs : Int) = V := Int.natAbs_of_nonneg (by omega)
  unfold deriveChainId
  dsimp only
  split_ifs with small legacy
  · -- a `V` of 35 or more is not a legacy 27 or 28
    have value := BigInt.toNat_uint64 (x := V) (BigInt.bitLen_le_iff.mp small)
    rcases legacy with h | h <;> rw [h] at value <;> simp at value <;> omega
  · have value := BigInt.toNat_uint64 (x := V) (BigInt.bitLen_le_iff.mp small)
    have le : (35 : UInt64) ≤ BigInt.uint64 V := by
      rw [UInt64.le_iff_toNat_le, value]
      simp
      omega
    rw [UInt64.toNat_div, UInt64.toNat_sub_of_le _ _ le, value]
    simp
    omega
  · omega

/-! ## Signature values and recovery -/

/-- The values `FrontierSigner.SignatureValues` reads from a canonical
signature. -/
theorem frontierSignatureValues_canonical {sig : List UInt8} (h : Canonical sig) :
    Signer.frontierSignatureValues sig = .ok (BigInt.setBytes (sig.take 32),
      BigInt.setBytes ((sig.drop 32).take 32), (sig.getD 64 0).toNat + 27) := by
  simp only [Signer.frontierSignatureValues, h.length, ne_eq, not_true_eq_false, if_false,
    setBytes_legacyV h.recid]

/-- `recoverPlain` on the values of a canonical signature with a legacy `V`
rebuilds that signature and recovers with it. -/
theorem recoverPlain_canonical {c : Primitives PrivateKey} {sig : List UInt8} (h : Canonical sig)
    (homestead : Bool) {sighash pub : List UInt8} (hrec : c.ecrecover sighash sig = .ok pub)
    (hpub : pub.head? = some 4) (hlen : (c.keccak256 (pub.drop 1)).length = 32) :
    recoverPlain c sighash (BigInt.setBytes (sig.take 32)) (BigInt.setBytes ((sig.drop 32).take 32))
      ((sig.getD 64 0).toNat + 27) homestead =
        .ok (bytesToAddress ((c.keccak256 (pub.drop 1)).drop 12)) := by
  have short : ¬BigInt.bitLen (((sig.getD 64 0).toNat : Int) + 27) > 8 := by
    rcases h.recid with hv | hv <;> rw [hv] <;> decide
  have recid : (BigInt.uint64 (((sig.getD 64 0).toNat : Int) + 27) - 27).toUInt8 = sig.getD 64 0 := by
    rcases h.recid with hv | hv <;> rw [hv] <;> decide
  have valid := validateSignatureValues_of_homestead homestead h.valid
  -- the rebuilt signature is the one that was signed
  have rebuilt : BigEndian.leftPad 32 (BigInt.bytes (BigInt.setBytes (sig.take 32))) ++
      BigEndian.leftPad 32 (BigInt.bytes (BigInt.setBytes ((sig.drop 32).take 32))) ++
      [sig.getD 64 0] = sig := by
    rw [BigInt.leftPad_bytes_setBytes h.length_r, BigInt.leftPad_bytes_setBytes h.length_s, h.parts]
  have addr : ((c.keccak256 (pub.drop 1)).drop 12).length = 20 := by
    simp only [List.length_drop, hlen]
  simp only [recoverPlain, short, if_false, recid, valid, Bool.not_true, Bool.false_eq_true,
    rebuilt, hrec, hpub, ne_eq, not_true_eq_false]
  rw [copy_eq_bytesToAddress addr]

/-! ## The signers -/

namespace Signer

/-- The signature fields are not hashed. -/
theorem hash_signed (c : Primitives PrivateKey) (signer : Signer) (tx : Transaction)
    (r s v : Int) (cache : Option (Signer × List UInt8)) :
    signer.hash c { data := { tx.data with r := r, s := s, v := v }, «from» := cache } =
      signer.hash c tx := by
  cases signer <;> rfl

theorem length_hash {c : Primitives PrivateKey} (sound : c.Sound) (signer : Signer)
    (tx : Transaction) : (signer.hash c tx).length = 32 := by
  cases signer <;> exact sound.keccak_length _

end Signer

/-- `SignTx` once `crypto.Sign` has returned a signature. -/
theorem signTx_of_sign {c : Primitives PrivateKey} {tx : Transaction} {signer : Signer}
    {k : PrivateKey} {sig : List UInt8} (hsign : c.sign (signer.hash c tx) k = .ok sig) :
    signTx c tx signer k = tx.withSignature signer sig := by
  simp [signTx, hsign]

/-- `Sender` of a transaction with an empty cache asks the signer. -/
theorem sender_uncached (c : Primitives PrivateKey) (signer : Signer) {tx : Transaction}
    (hfrom : tx.«from» = none) : (sender c signer tx).1 = signer.sender c tx := by
  unfold sender
  rw [hfrom]
  cases signer.sender c tx <;> rfl

/-- `WithSignature` on the values of a signature: a fresh transaction
carrying them, whose hashes are those of the transaction signed. -/
theorem withSignature_ok (c : Primitives PrivateKey) (tx : Transaction) {signer : Signer}
    {sig : List UInt8} {r s v : Int} (h : signer.signatureValues sig = .ok (r, s, v)) :
    ∃ signed, tx.withSignature signer sig = .ok signed ∧ signed.data.r = r ∧
      signed.data.s = s ∧ signed.data.v = v ∧ signed.«from» = none ∧
      ∀ hasher : Signer, hasher.hash c signed = hasher.hash c tx :=
  ⟨_, by simp [Transaction.withSignature, h], rfl, rfl, rfl, rfl,
    fun hasher => Signer.hash_signed c hasher tx r s v none⟩

/-! ## Sign, then recover -/

/-- A transaction signed by the Frontier or Homestead signer, or by an
EIP-155 signer with a positive chain id, names its signer: `Sender` recovers
the address of the private key that signed it. -/
theorem sender_signTx {c : Primitives PrivateKey} (sound : c.Sound) {signer : Signer}
    (hs : signer = .frontier ∨ signer = .homestead ∨
      ∃ chainId, 0 < chainId ∧ signer = newEIP155Signer (some chainId))
    (tx : Transaction) (k : PrivateKey) :
    ∃ signed, signTx c tx signer k = .ok signed ∧
      (sender c signer signed).1 = .ok (c.pubkeyToAddress k) := by
  obtain ⟨sig, hsign, canon⟩ := sound.sign_ok _ k (Signer.length_hash sound signer tx)
  -- recovery with the signature's own values against the signed hash
  have recovered : ∀ homestead, recoverPlain c (signer.hash c tx) (BigInt.setBytes (sig.take 32))
      (BigInt.setBytes ((sig.drop 32).take 32)) ((sig.getD 64 0).toNat + 27) homestead =
        .ok (c.pubkeyToAddress k) := fun homestead =>
    recoverPlain_canonical canon homestead (sound.recover _ _ _ hsign) (sound.uncompressed k)
      (sound.keccak_length _)
  rcases hs with rfl | rfl | ⟨chainId, hc, rfl⟩
  · have values : Signer.frontier.signatureValues sig = .ok (BigInt.setBytes (sig.take 32),
        BigInt.setBytes ((sig.drop 32).take 32), (sig.getD 64 0).toNat + 27) :=
      frontierSignatureValues_canonical canon
    obtain ⟨signed, hw, hr, hs, hv, hfrom, hhash⟩ := withSignature_ok c tx values
    refine ⟨signed, by rw [signTx_of_sign hsign, hw], ?_⟩
    rw [sender_uncached c _ hfrom, Signer.sender, hhash, hr, hs, hv]
    exact recovered false
  · have values : Signer.homestead.signatureValues sig = .ok (BigInt.setBytes (sig.take 32),
        BigInt.setBytes ((sig.drop 32).take 32), (sig.getD 64 0).toNat + 27) :=
      frontierSignatureValues_canonical canon
    obtain ⟨signed, hw, hr, hs, hv, hfrom, hhash⟩ := withSignature_ok c tx values
    refine ⟨signed, by rw [signTx_of_sign hsign, hw], ?_⟩
    rw [sender_uncached c _ hfrom, Signer.sender, hhash, hr, hs, hv]
    exact recovered true
  · have values : (newEIP155Signer (some chainId)).signatureValues sig =
        .ok (BigInt.setBytes (sig.take 32), BigInt.setBytes ((sig.drop 32).take 32),
          ((sig.getD 64 0 + 35).toNat : Int) + chainId * 2) := by
      simp [newEIP155Signer, Signer.signatureValues, frontierSignatureValues_canonical canon,
        hc.ne']
    obtain ⟨signed, hw, hr, hs, hv, hfrom, hhash⟩ := withSignature_ok c tx values
    refine ⟨signed, by rw [signTx_of_sign hsign, hw], ?_⟩
    -- the recovery path undoes the EIP-155 arithmetic on `V`
    have prot : signed.protected = true := by
      rw [Transaction.protected, hv]
      exact isProtectedV_eip155 canon.recid hc
    have chain : signed.chainId = chainId := by
      rw [Transaction.chainId, hv]
      exact deriveChainId_eip155 canon.recid hc.le
    have legacyV : signed.data.v - chainId * 2 - 8 = (sig.getD 64 0).toNat + 27 := by
      rw [hv, eip155V_eq canon.recid]
      ring
    rw [sender_uncached c _ hfrom]
    simp only [newEIP155Signer, Option.getD_some, Signer.sender, prot, chain, Bool.not_true,
      Bool.false_eq_true, if_false, ne_eq, not_true_eq_false]
    rw [legacyV, hhash, hr, hs]
    exact recovered true

/-! ## Chain id zero -/

/-- An EIP-155 signer with chain id zero writes the Homestead `V`. -/
theorem signatureValues_eip155_zero (chainIdMul : Int) (sig : List UInt8) :
    (Signer.eip155 0 chainIdMul).signatureValues sig = Signer.homestead.signatureValues sig := by
  simp only [Signer.signatureValues, ne_eq, not_true_eq_false, if_false]
  cases Signer.frontierSignatureValues sig <;> rfl

/-- An EIP-155 signer hands an unprotected transaction to Homestead recovery. -/
theorem sender_eip155_unprotected (c : Primitives PrivateKey) (chainId chainIdMul : Int)
    {tx : Transaction} (h : tx.protected = false) :
    (Signer.eip155 chainId chainIdMul).sender c tx = Signer.homestead.sender c tx := by
  simp [Signer.sender, h]

/-- With chain id zero, the EIP-155 signer signs the EIP-155 hash, but
`Sender` checks the signature against the Frontier hash. -/
theorem sender_signTx_eip155_zero {c : Primitives PrivateKey} (sound : c.Sound)
    (tx : Transaction) (k : PrivateKey) :
    ∃ sig signed, c.sign ((newEIP155Signer (some 0)).hash c tx) k = .ok sig ∧
      signTx c tx (newEIP155Signer (some 0)) k = .ok signed ∧
      (sender c (newEIP155Signer (some 0)) signed).1 =
        recoverPlain c (Signer.frontier.hash c tx) (BigInt.setBytes (sig.take 32))
          (BigInt.setBytes ((sig.drop 32).take 32)) ((sig.getD 64 0).toNat + 27) true := by
  obtain ⟨sig, hsign, canon⟩ := sound.sign_ok _ k (Signer.length_hash sound _ tx)
  have values : (newEIP155Signer (some 0)).signatureValues sig = .ok (BigInt.setBytes (sig.take 32),
      BigInt.setBytes ((sig.drop 32).take 32), (sig.getD 64 0).toNat + 27) := by
    rw [newEIP155Signer, Option.getD_some, signatureValues_eip155_zero]
    exact frontierSignatureValues_canonical canon
  obtain ⟨signed, hw, hr, hs, hv, hfrom, hhash⟩ := withSignature_ok c tx values
  refine ⟨sig, signed, hsign, by rw [signTx_of_sign hsign, hw], ?_⟩
  -- a Homestead `V` is not replay protected
  have unprotected : signed.protected = false := by
    rw [Transaction.protected, hv]
    exact isProtectedV_legacy canon.recid
  rw [sender_uncached c _ hfrom, newEIP155Signer, Option.getD_some,
    sender_eip155_unprotected c _ _ unprotected, Signer.sender, hhash, hr, hs, hv]
  rfl

/-- Primitives over one-byte private keys that meet `Primitives.Sound`. A
signature carries the first 30 bytes of the hash in `R` and the key in `S`;
recovery against a hash whose first 30 bytes differ returns the next key, as
ECDSA recovery against another hash returns another key. -/
def byteKeyPrimitives : Primitives UInt8 where
  keccak256 b := BigEndian.leftPad 32 (b.drop (b.length - 32))
  sign h k :=
    if h.length = 32 then .ok ([0, 1] ++ h.take 30 ++ (List.replicate 30 0 ++ [k, 1]) ++ [0])
    else .error "hash is required to be exactly 32 bytes"
  ecrecover h sig :=
    if sig.take 32 = [0, 1] ++ h.take 30 then .ok [4, sig.getD 62 0] else .ok [4, sig.getD 62 0 + 1]
  fromECDSAPub k := [4, k]

theorem byteKeyPrimitives_canonical {h : List UInt8} (hh : h.length = 32) (k : UInt8) :
    Canonical ([0, 1] ++ h.take 30 ++ (List.replicate 30 0 ++ [k, 1]) ++ [0]) := by
  have h30 : (h.take 30).length = 30 := by simp [hh]
  have r_part : ([0, 1] ++ h.take 30 ++ (List.replicate 30 0 ++ [k, 1]) ++ [0]).take 32 =
      [0, 1] ++ h.take 30 := by
    simp [h30]
  have s_part : (([0, 1] ++ h.take 30 ++ (List.replicate 30 0 ++ [k, 1]) ++ [0]).drop 32).take 32 =
      List.replicate 30 0 ++ [k, 1] := by
    simp [h30]
  have x_lt := BigEndian.value_lt (h.take 30)
  have k_lt := k.toNat_lt
  have r_val : BigInt.setBytes ([0, 1] ++ h.take 30) = 256 ^ 30 + BigEndian.value (h.take 30) := by
    simp [BigInt.setBytes, BigEndian.value_cons, h30]
  have s_val : BigInt.setBytes (List.replicate 30 0 ++ [k, 1]) = k.toNat * 256 + 1 := by
    simp [BigInt.setBytes, BigEndian.value_cons]
  refine ⟨by simp [h30], ?_⟩
  rw [r_part, s_part, r_val, s_val, h30] at *
  have v_part : ([0, 1] ++ h.take 30 ++ (List.replicate 30 0 ++ [k, 1]) ++ [0]).getD 64 0 = 0 := by
    simp [List.getD_eq_getElem?_getD, hh]
  rw [v_part]
  simp only [validateSignatureValues, secp256k1halfN, secp256k1N]
  norm_num at x_lt ⊢
  omega

theorem byteKeyPrimitives_sound : byteKeyPrimitives.Sound where
  keccak_length b := BigEndian.length_leftPad (by simp; omega)
  sign_ok h k hh := ⟨_, if_pos hh, byteKeyPrimitives_canonical hh k⟩
  recover h k sig hsign := by
    simp only [byteKeyPrimitives] at hsign ⊢
    split_ifs at hsign with hh
    cases hsign
    have h30 : (h.take 30).length = 30 := by simp [hh]
    simp [List.getD_eq_getElem?_getD, h30]
  uncompressed _ := rfl

theorem sender_signTx_chainId_zero :
    byteKeyPrimitives.Sound ∧
      (signTx byteKeyPrimitives ⟨⟨0, 0, 0, 0, none, 0, [], 0, 0, [], 0, 0, 0⟩, none⟩
          (newEIP155Signer (some 0)) 7).map
          (fun signed => (sender byteKeyPrimitives (newEIP155Signer (some 0)) signed).1) =
        .ok (.ok (byteKeyPrimitives.pubkeyToAddress 8)) ∧
      byteKeyPrimitives.pubkeyToAddress 8 ≠ byteKeyPrimitives.pubkeyToAddress 7 :=
  ⟨byteKeyPrimitives_sound, rfl, by decide⟩

/-- A transaction signed with the key `7` by the Homestead signer names that
key's address. -/
theorem sender_signTx_homestead :
    ∃ signed, signTx byteKeyPrimitives ⟨⟨0, 0, 0, 0, none, 0, [], 0, 0, [], 0, 0, 0⟩, none⟩ .homestead 7 = .ok signed ∧
      (sender byteKeyPrimitives .homestead signed).1 = .ok (byteKeyPrimitives.pubkeyToAddress 7) :=
  sender_signTx byteKeyPrimitives_sound (.inr (.inl rfl)) _ 7

/-- The same transaction signed with the key `7` by the EIP-155 signer of
chain id zero: `Sender` recovers against the Frontier hash. -/
theorem sender_signTx_eip155_zero_byteKey :
    ∃ sig signed, byteKeyPrimitives.sign ((newEIP155Signer (some 0)).hash byteKeyPrimitives
          ⟨⟨0, 0, 0, 0, none, 0, [], 0, 0, [], 0, 0, 0⟩, none⟩) 7 = .ok sig ∧
      signTx byteKeyPrimitives ⟨⟨0, 0, 0, 0, none, 0, [], 0, 0, [], 0, 0, 0⟩, none⟩ (newEIP155Signer (some 0)) 7 =
        .ok signed ∧
      (sender byteKeyPrimitives (newEIP155Signer (some 0)) signed).1 =
        recoverPlain byteKeyPrimitives (Signer.frontier.hash byteKeyPrimitives
            ⟨⟨0, 0, 0, 0, none, 0, [], 0, 0, [], 0, 0, 0⟩, none⟩) (BigInt.setBytes (sig.take 32))
          (BigInt.setBytes ((sig.drop 32).take 32)) ((sig.getD 64 0).toNat + 27) true :=
  sender_signTx_eip155_zero byteKeyPrimitives_sound _ 7

end FiscoBcos.Types
