import FiscoBcos.Crypto.Signature
import FiscoBcos.Rlp.Writer
import Mathlib

/-!
# Transactions

`Transaction` and `txdata` from `core/types/transaction.go`, with the parts
of the signature handling that live there: the replay-protection test
`isProtectedV` and `deriveChainId`, which read the chain id back out of `V`.

The big integers of a transaction are never nil here; `Recipient` is nil for
a contract creation. Of the transaction's caches only `from`, the sender
cache, is read by a modelled function; it is kept with the signer that filled
it, so `Signer` is declared here too.
-/

namespace FiscoBcos.Types

open FiscoBcos.Rlp FiscoBcos.Crypto

/-- `txdata`. The JSON-only `Hash` field is left out. -/
structure Txdata where
  randomId : UInt64
  price : Int
  gasLimit : UInt64
  blockLimit : UInt64
  recipient : Option (List UInt8)
  amount : Int
  payload : List UInt8
  chainId : Int
  groupId : Int
  extraData : List UInt8
  v : Int
  r : Int
  s : Int
deriving DecidableEq, Repr

/-- The `Signer` implementations of `transaction_signing.go`: an
`EIP155Signer` keeps its chain id and twice the chain id. -/
inductive Signer where
  | eip155 (chainId chainIdMul : Int)
  | homestead
  | frontier
deriving DecidableEq, Repr

/-- `Transaction` with its sender cache `from`, which holds a `sigCache`. -/
structure Transaction where
  data : Txdata
  «from» : Option (Signer × List UInt8)
deriving DecidableEq, Repr

/-- `isProtectedV`: a `V` of 27 or 28 is a signature without replay
protection. -/
def isProtectedV (V : Int) : Bool :=
  if BigInt.bitLen V ≤ 8 then
    let v := BigInt.uint64 V
    v ≠ 27 && v ≠ 28
  else true

/-- `deriveChainId`. A `V` of up to 64 bits is worked on as a `uint64`, where
the subtraction wraps; a larger one as a big integer. -/
def deriveChainId (v : Int) : Int :=
  if BigInt.bitLen v ≤ 64 then
    let v := BigInt.uint64 v
    if v = 27 ∨ v = 28 then 0 else ((v - 35) / 2).toNat
  else (v - 35) / 2

/-- `(*Transaction).ChainId`. -/
def Transaction.chainId (tx : Transaction) : Int := deriveChainId tx.data.v

/-- `(*Transaction).Protected`. -/
def Transaction.protected (tx : Transaction) : Bool := isProtectedV tx.data.v

/-! ## Hashes of transaction fields -/

/-- `rlpHash(x)`: Keccak-256 of the encoding of `x`. `rlp.Encode` writes
nothing when the encoding fails, so the hash is then that of no input. -/
def rlpHash (keccak256 : List UInt8 → List UInt8) (ty : GoType) (v : GoValue) : List UInt8 :=
  keccak256 ((encodeToBytes ty v).toOption.getD [])

/-- The hash of an `[]interface{}` holding the given typed values. -/
def hashFields (keccak256 : List UInt8 → List UInt8) (fields : List (GoType × GoValue)) :
    List UInt8 :=
  rlpHash keccak256 ifsliceType (.slice (fields.map fun f => .iface (some f)))

/-- A `uint64`, or a Go `uint`. -/
def uintField (i : UInt64) : GoType × GoValue := (.uint 64, .uint i)

/-- A non-nil `*big.Int`. -/
def bigIntField (i : Int) : GoType × GoValue := (.ptr .bigInt, .ptr (some (.bigInt i)))

/-- A `[]byte`. -/
def bytesField (b : List UInt8) : GoType × GoValue := (bytesType, .bytes b)

/-- A `*common.Address`. -/
def addressField (a : Option (List UInt8)) : GoType × GoValue :=
  (.ptr (.array 20 (.uint 8)), .ptr (a.map GoValue.bytes))

/-- The fields `FrontierSigner.Hash` hashes: every field but the signature,
the FISCO BCOS fields `BlockLimit`, `ChainId`, `GroupId` and `ExtraData`
included. -/
def Txdata.frontierFields (d : Txdata) : List (GoType × GoValue) :=
  [uintField d.randomId, bigIntField d.price, uintField d.gasLimit, uintField d.blockLimit,
    addressField d.recipient, bigIntField d.amount, bytesField d.payload,
    bigIntField d.chainId, bigIntField d.groupId, bytesField d.extraData]

/-- The fields `EIP155Signer.Hash` hashes: the Ethereum fields, then the
signer's chain id and two zeros. -/
def Txdata.eip155Fields (d : Txdata) (chainId : Int) : List (GoType × GoValue) :=
  [uintField d.randomId, bigIntField d.price, uintField d.gasLimit, addressField d.recipient,
    bigIntField d.amount, bytesField d.payload, bigIntField chainId, uintField 0, uintField 0]

end FiscoBcos.Types
