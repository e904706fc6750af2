import FiscoBcos.Types.Transaction
import Mathlib

/-!
# Transaction signing

The signers of `core/types/transaction_signing.go`. A signer chooses the hash
that is signed and puts the recovery id into `V`: Frontier and Homestead as
`27 + v`, EIP-155 as `35 + 2 * chainId + v`, unless its chain id is zero, in
which case it keeps the Homestead form. Recovery reverses that arithmetic and
hands the signature to `crypto.Ecrecover`.

The functions are generic in the private key type and take the primitives
`c` as a parameter.
-/

namespace FiscoBcos.Types

open FiscoBcos.Rlp FiscoBcos.Crypto

/-- The errors of signing and recovery. -/
inductive TxError where
  /-- `ErrInvalidChainId`: "invalid chain id for signer". -/
  | errInvalidChainId
  /-- `ErrInvalidSig`: "invalid transaction v, r, s values". -/
  | errInvalidSig
  /-- "invalid public key", from `recoverPlain`. -/
  | invalidPublicKey
  /-- An error of `crypto.Sign` or `crypto.Ecrecover`. -/
  | crypto (msg : String)
  /-- `FrontierSigner.SignatureValues` panics on a signature that is not
  65 bytes long. -/
  | panic (msg : String)
deriving DecidableEq, Repr

variable {PrivateKey : Type}

/-- `NewEIP155Signer`: a nil chain id is zero. -/
def newEIP155Signer (chainId : Option Int) : Signer :=
  let chainId := chainId.getD 0
  .eip155 chainId (chainId * 2)

namespace Signer

/-- `Equal`: the same kind of signer, and for EIP-155 the same chain id. -/
def equal : Signer → Signer → Bool
  | .eip155 chainId _, .eip155 chainId' _ => chainId' == chainId
  | .homestead, .homestead => true
  | .frontier, .frontier => true
  | _, _ => false

/-- `Hash`: the hash to be signed. `HomesteadSigner` inherits Frontier's. -/
def hash (c : Primitives PrivateKey) : Signer → Transaction → List UInt8
  | .eip155 chainId _, tx => hashFields c.keccak256 (tx.data.eip155Fields chainId)
  | .homestead, tx | .frontier, tx => hashFields c.keccak256 tx.data.frontierFields

/-- `FrontierSigner.SignatureValues`, which `HomesteadSigner` calls. -/
def frontierSignatureValues (sig : List UInt8) : Except TxError (Int × Int × Int) :=
  if sig.length ≠ 65 then
    .error (.panic ("wrong size for signature: got " ++ toString sig.length ++ ", want 65"))
  else
    let r := BigInt.setBytes (sig.take 32)
    let s := BigInt.setBytes ((sig.drop 32).take 32)
    let v := BigInt.setBytes [sig.getD 64 0 + 27]
    .ok (r, s, v)

/-- `SignatureValues`: `R`, `S` and `V` from a signature in the
`[R || S || V]` format. -/
def signatureValues : Signer → List UInt8 → Except TxError (Int × Int × Int)
  | .eip155 chainId chainIdMul, sig => match frontierSignatureValues sig with
    | .error e => .error e
    | .ok (r, s, v) =>
      if chainId ≠ 0 then .ok (r, s, ((sig.getD 64 0 + 35).toNat : Int) + chainIdMul)
      else .ok (r, s, v)
  | .homestead, sig | .frontier, sig => frontierSignatureValues sig

end Signer

/-- `recoverPlain`: check the signature values, rebuild the 65-byte
signature and recover the signer's address from it. -/
def recoverPlain (c : Primitives PrivateKey) (sighash : List UInt8) (R S Vb : Int)
    (homestead : Bool) : Except TxError (List UInt8) :=
  if BigInt.bitLen Vb > 8 then .error .errInvalidSig
  else
    let V := (BigInt.uint64 Vb - 27).toUInt8
    if !validateSignatureValues V R S homestead then .error .errInvalidSig
    else
      -- `R` and `S` are below the curve order here, so their bytes fit the
      -- 32-byte halves they are copied into
      let sig := BigEndian.leftPad 32 (BigInt.bytes R) ++ BigEndian.leftPad 32 (BigInt.bytes S) ++ [V]
      match c.ecrecover sighash sig with
      | .error e => .error (.crypto e)
      | .ok pub =>
        if pub.head? ≠ some 4 then .error .invalidPublicKey
        else
          -- `copy(addr[:], Keccak256(pub[1:])[12:])`
          let h := (c.keccak256 (pub.drop 1)).drop 12
          .ok (h.take 20 ++ List.replicate (20 - h.length) 0)

namespace Signer

/-- `Sender` of the signer: the address that signed the transaction. An
EIP-155 signer hands an unprotected transaction to the Homestead rules. -/
def sender (c : Primitives PrivateKey) : Signer → Transaction → Except TxError (List UInt8)
  | .eip155 chainId chainIdMul, tx =>
    if !tx.protected then recoverPlain c (Signer.homestead.hash c tx) tx.data.r tx.data.s tx.data.v true
    else if tx.chainId ≠ chainId then .error .errInvalidChainId
    else
      let V := tx.data.v - chainIdMul - 8
      recoverPlain c ((Signer.eip155 chainId chainIdMul).hash c tx) tx.data.r tx.data.s V true
  | .homestead, tx => recoverPlain c (Signer.homestead.hash c tx) tx.data.r tx.data.s tx.data.v true
  | .frontier, tx => recoverPlain c (Signer.frontier.hash c tx) tx.data.r tx.data.s tx.data.v false

end Signer

/-- `WithSignature`: a new transaction, with an empty sender cache, carrying
the signature's values. -/
def Transaction.withSignature (tx : Transaction) (signer : Signer) (sig : List UInt8) :
    Except TxError Transaction :=
  match signer.signatureValues sig with
  | .error e => .error e
  | .ok (r, s, v) => .ok { data := { tx.data with r := r, s := s, v := v }, «from» := none }

/-- `SignTx`. -/
def signTx (c : Primitives PrivateKey) (tx : Transaction) (s : Signer) (prv : PrivateKey) :
    Except TxError Transaction :=
  match c.sign (s.hash c tx) prv with
  | .error e => .error (.crypto e)
  | .ok sig => tx.withSignature s sig

/-- `Sender`: the cached address when the cache was filled by an equal
signer, otherwise the signer's answer, which is then cached. -/
def sender (c : Primitives PrivateKey) (signer : Signer) (tx : Transaction) :
    Except TxError (List UInt8) × Transaction :=
  let derive : Except TxError (List UInt8) × Transaction :=
    match signer.sender c tx with
    | .error e => (.error e, tx)
    | .ok addr => (.ok addr, { tx with «from» := some (signer, addr) })
  match tx.«from» with
  | some (cached, addr) => if cached.equal signer then (.ok addr, tx) else derive
  | none => derive

end FiscoBcos.Types
