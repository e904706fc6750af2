import FiscoBcos.Lib.BigEndian
import FiscoBcos.Lib.Except
import FiscoBcos.Lib.GoSlice
import Mathlib

/-!
# ECIES

`Encrypt` and `PrivateKey.Decrypt` of `crypto/ecies`, with the parameter
sets of `params.go`. The curve arithmetic, the hashes, HMAC and AES-CTR are
outside the repository: the model takes them as `Primitives`, and what the
round trip needs of them as `Primitives.Laws`. `elliptic.Marshal` and
`elliptic.Unmarshal` are modelled as the standard library writes them. The
random source is what it supplies: the ephemeral private key that
`GenerateKey` draws and the bytes `generateIV` reads.

On secp256k1 and P-256 a message that is not empty decrypts to itself
(`Decrypt_Encrypt`). The empty message gets no ciphertext, P-384 asks for
more shared key than its coordinates have, and on P-521 `Decrypt` reads the
ephemeral key one byte short (`Encrypt_Decrypt_unsupported`).
-/

namespace FiscoBcos.Ecies

/-- The curves `paramsFromCurve` registers. -/
inductive Curve where
  | S256
  | P256
  | P384
  | P521
deriving DecidableEq, Repr

/-- `Params().BitSize`, the size of the field. -/
def Curve.BitSize : Curve → Nat
  | .S256 | .P256 => 256
  | .P384 => 384
  | .P521 => 521

/-- The hash functions of the parameter sets. -/
inductive HashAlgo where
  | sha256
  | sha384
  | sha512
deriving DecidableEq, Repr

/-- `hash.Size()`. -/
def HashAlgo.Size : HashAlgo → Nat
  | .sha256 => 32
  | .sha384 => 48
  | .sha512 => 64

/-- `hash.BlockSize()`. -/
def HashAlgo.BlockSize : HashAlgo → Nat
  | .sha256 => 64
  | .sha384 | .sha512 => 128

/-- `ECIESParams`: the hash, the block size of the cipher (AES in every
set) and the length of its key. -/
structure ECIESParams where
  Hash : HashAlgo
  BlockSize : Nat
  KeyLen : Nat
deriving DecidableEq, Repr

def ECIES_AES128_SHA256 : ECIESParams := ⟨.sha256, 16, 16⟩
def ECIES_AES256_SHA256 : ECIESParams := ⟨.sha256, 16, 32⟩
def ECIES_AES256_SHA384 : ECIESParams := ⟨.sha384, 16, 32⟩
def ECIES_AES256_SHA512 : ECIESParams := ⟨.sha512, 16, 32⟩

/-- `ParamsFromCurve`, the map `paramsFromCurve`. -/
def ParamsFromCurve : Curve → ECIESParams
  | .S256 | .P256 => ECIES_AES128_SHA256
  | .P384 => ECIES_AES256_SHA384
  | .P521 => ECIES_AES256_SHA512

/-- An ECIES public key: the point, its curve, and its parameters, `none`
for `nil`. -/
structure PublicKey where
  X : Nat
  Y : Nat
  curve : Curve
  Params : Option ECIESParams

/-- An ECIES private key. -/
structure PrivateKey where
  PublicKey : PublicKey
  D : Nat

/-- The parameters `Encrypt` and `Decrypt` use: the key's, or those of its
curve when it has none. -/
def PublicKey.params (pub : PublicKey) : ECIESParams := pub.Params.getD (ParamsFromCurve pub.curve)

/-- The errors: the package's own values by their text, the standard
library's, and runtime panics by their message. -/
inductive EciesError where
  | err (text : String)
  | panic (msg : String)
deriving DecidableEq, Repr

def ErrInvalidCurve : EciesError := .err "ecies: invalid elliptic curve"
def ErrInvalidPublicKey : EciesError := .err "ecies: invalid public key"
def ErrSharedKeyIsPointAtInfinity : EciesError := .err "ecies: shared key is point at infinity"
def ErrSharedKeyTooBig : EciesError := .err "ecies: shared key params are too big"
def ErrKeyDataTooLong : EciesError := .err "ecies: can't supply requested key data"
def ErrInvalidMessage : EciesError := .err "ecies: invalid message"

/-- The cryptography ECIES calls. `N` and `P` are the order of a curve's
group and its field prime, `scalarBaseMult` and `scalarMult` its
arithmetic (a scalar as its big-endian bytes; `none` is the point at
infinity); `digest` hashes the bytes written to the hash and `hmac` tags a
message under a key, both of the hash's size; `keyStream` is the AES-CTR
key stream under a key and an IV, byte by byte. -/
structure Primitives where
  N : Curve → Nat
  P : Curve → Nat
  scalarBaseMult : Curve → List UInt8 → Nat × Nat
  scalarMult : Curve → Nat × Nat → List UInt8 → Option (Nat × Nat)
  isOnCurve : Curve → Nat × Nat → Bool
  digest : (hash : HashAlgo) → List UInt8 → { d : List UInt8 // d.length = hash.Size }
  hmac : (hash : HashAlgo) → List UInt8 → List UInt8 → { d : List UInt8 // d.length = hash.Size }
  keyStream : List UInt8 → List UInt8 → Nat → UInt8

/-- What the round trip needs of the curve arithmetic, for private keys in
`[1, N)`: both sides of the exchange compute one point, a finite point of
the field, and a key's point lies on the curve; the field fits the bit
size. -/
structure Primitives.Laws (prim : Primitives) : Prop where
  agree : ∀ c a b, 0 < a → a < prim.N c → 0 < b → b < prim.N c →
    prim.scalarMult c (prim.scalarBaseMult c (BigEndian.bytes b)) (BigEndian.bytes a) =
      prim.scalarMult c (prim.scalarBaseMult c (BigEndian.bytes a)) (BigEndian.bytes b)
  shared : ∀ c a b, 0 < a → a < prim.N c → 0 < b → b < prim.N c →
    ∃ x y, prim.scalarMult c (prim.scalarBaseMult c (BigEndian.bytes b)) (BigEndian.bytes a) = some (x, y) ∧
      x < prim.P c
  onCurve : ∀ c k, 0 < k → k < prim.N c → prim.isOnCurve c (prim.scalarBaseMult c (BigEndian.bytes k)) = true
  inField : ∀ c k, 0 < k → k < prim.N c →
    (prim.scalarBaseMult c (BigEndian.bytes k)).1 < prim.P c ∧ (prim.scalarBaseMult c (BigEndian.bytes k)).2 < prim.P c
  P_le : ∀ c, prim.P c ≤ 2 ^ c.BitSize

variable (prim : Primitives)

/-- `cipher.NewCTR(block, iv).XORKeyStream(dst, src)`: each byte XORed with
the key stream at its position. -/
def xorKeyStream (key iv m : List UInt8) : List UInt8 :=
  m.mapIdx fun i b => b ^^^ prim.keyStream key iv i

/-! ## Points -/

/-- `elliptic.Marshal`: the uncompressed form, `4`, then both coordinates
in `(BitSize + 7) / 8` bytes. -/
def Marshal (curve : Curve) (x y : Nat) : List UInt8 :=
  let byteLen := (curve.BitSize + 7) / 8
  4 :: BigEndian.leftPad byteLen (BigEndian.bytes x) ++ BigEndian.leftPad byteLen (BigEndian.bytes y)

/-- `elliptic.Unmarshal`: the point of an uncompressed form of the curve's
length, with coordinates in the field, on the curve. -/
def Unmarshal (curve : Curve) (data : List UInt8) : Option (Nat × Nat) :=
  let byteLen := (curve.BitSize + 7) / 8
  if data.length ≠ 1 + 2 * byteLen then none
  else if data.head? ≠ some 4 then none
  else
    let x := BigEndian.value ((data.drop 1).take byteLen)
    let y := BigEndian.value (data.drop (1 + byteLen))
    if x ≥ prim.P curve ∨ y ≥ prim.P curve then none
    else if !prim.isOnCurve curve (x, y) then none
    else some (x, y)

/-- `GenerateKey(rand, curve, params)`, for the private key `k` the random
source supplies: `elliptic.GenerateKey` returns its bytes and its point. -/
def GenerateKey (curve : Curve) (params : ECIESParams) (k : Nat) : PrivateKey :=
  let pub := prim.scalarBaseMult curve (BigEndian.bytes k)
  ⟨⟨pub.1, pub.2, curve, some params⟩, k⟩

/-! ## The shared key -/

/-- `MaxSharedKeyLength`. -/
def MaxSharedKeyLength (pub : PublicKey) : Nat := (pub.curve.BitSize + 7) / 8

/-- `prv.GenerateShared(pub, skLen, macLen)`: the x-coordinate of the shared
point, right-aligned in `skLen + macLen` bytes. The copy into
`sk[len(sk)-len(skBytes):]` panics when the coordinate is longer. -/
def GenerateShared (prv : PrivateKey) (pub : PublicKey) (skLen macLen : Nat) :
    Except EciesError (List UInt8) :=
  if prv.PublicKey.curve ≠ pub.curve then .error ErrInvalidCurve
  else if skLen + macLen > MaxSharedKeyLength pub then .error ErrSharedKeyTooBig
  else match prim.scalarMult pub.curve (pub.X, pub.Y) (BigEndian.bytes prv.D) with
    | none => .error ErrSharedKeyIsPointAtInfinity
    | some (x, _) =>
      let skBytes := BigEndian.bytes x
      if skBytes.length > skLen + macLen then .error (.panic "runtime error: slice bounds out of range")
      else .ok (BigEndian.leftPad (skLen + macLen) skBytes)

/-- `incCounter`: the four bytes as a big-endian counter, one up. -/
def incCounter : List UInt8 → List UInt8
  | [c0, c1, c2, c3] =>
    if c3 + 1 ≠ 0 then [c0, c1, c2, c3 + 1]
    else if c2 + 1 ≠ 0 then [c0, c1, c2 + 1, 0]
    else if c1 + 1 ≠ 0 then [c0, c1 + 1, 0, 0]
    else [c0 + 1, 0, 0, 0]
  | ctr => ctr

/-- The bytes the loop of `concatKDF` appends: `n` blocks, each the hash of
the counter, `z` and `s1`. -/
def kdfBlocks (hash : HashAlgo) (z s1 : List UInt8) : Nat → List UInt8 → List UInt8
  | 0, _ => []
  | n + 1, counter =>
    (prim.digest hash (counter ++ z ++ s1)).1 ++ kdfBlocks hash z s1 n (incCounter counter)

/-- The loop of `concatKDF`: `n` rounds, each appending to `k` the hash of the
counter, `z` and `s1`. -/
def kdfAppend (hash : HashAlgo) (z s1 : List UInt8) : Nat → List UInt8 → GoSlice.Bytes → GoSlice.Bytes
  | 0, _, k => k
  | n + 1, counter, k =>
    kdfAppend hash z s1 n (incCounter counter) (k.append (prim.digest hash (counter ++ z ++ s1)).1)

/-- `concatKDF(hash, z, s1, kdLen)`, NIST SP 800-56 concatenation KDF. The
number of blocks is counted with the hash's block size. `k[:kdLen]` reaches
up to the capacity that the appends grew the slice to, and panics past it. -/
def concatKDF (hash : HashAlgo) (z s1 : List UInt8) (kdLen : Nat) : Except EciesError (List UInt8) :=
  let reps := ((kdLen + 7) * 8) / (hash.BlockSize * 8)
  if reps > 2 ^ 32 - 1 then .error ErrKeyDataTooLong
  else
    let k := kdfAppend prim hash z s1 (reps + 1) [0, 0, 0, 1] GoSlice.Bytes.empty
    if kdLen > k.cap then .error (.panic "runtime error: slice bounds out of range")
    else .ok (k.buf.take kdLen)

/-- `messageTag`: the HMAC of the message and the shared information. -/
def messageTag (hash : HashAlgo) (km msg shared : List UInt8) : List UInt8 :=
  (prim.hmac hash km (msg ++ shared)).1

/-! ## The cipher -/

/-- `aes.NewCipher`: keys of 16, 24 and 32 bytes. -/
def Cipher (key : List UInt8) : Except EciesError Unit :=
  if key.length = 16 ∨ key.length = 24 ∨ key.length = 32 then .ok ()
  else .error (.err ("crypto/aes: invalid key size " ++ toString key.length))

/-- `generateIV`: `io.ReadFull` of a block from the random source. -/
def generateIV (params : ECIESParams) (rand : List UInt8) : Except EciesError (List UInt8) :=
  if rand.length < params.BlockSize then .error (.err "unexpected EOF")
  else .ok (rand.take params.BlockSize)

/-- `symEncrypt`: the IV, then the message under the key stream. -/
def symEncrypt (rand : List UInt8) (params : ECIESParams) (key m : List UInt8) :
    Except EciesError (List UInt8) := do
  Cipher key
  let iv ← generateIV params rand
  return iv ++ xorKeyStream prim key iv m

/-- `symDecrypt`: the message after the IV, under the key stream. A
ciphertext shorter than a block is a negative `make`. -/
def symDecrypt (params : ECIESParams) (key ct : List UInt8) : Except EciesError (List UInt8) := do
  Cipher key
  if ct.length < params.BlockSize then throw (.panic "runtime error: makeslice: len out of range")
  return xorKeyStream prim key (ct.take params.BlockSize) (ct.drop params.BlockSize)

/-! ## Encrypt and Decrypt -/

/-- `Encrypt(rand, pub, m, s1, s2)`; `k` is the ephemeral private key and
`rand` the bytes the random source supplies after it. A ciphertext of the
cipher no longer than a block is returned as no ciphertext, without an
error. -/
def Encrypt (k : Nat) (rand : List UInt8) (pub : PublicKey) (m s1 s2 : List UInt8) :
    Except EciesError (List UInt8) := do
  let params := pub.params
  let R := GenerateKey prim pub.curve params k
  let z ← GenerateShared prim R pub params.KeyLen params.KeyLen
  let K ← concatKDF prim params.Hash z s1 (params.KeyLen + params.KeyLen)
  let Ke := K.take params.KeyLen
  let Km := (prim.digest params.Hash (K.drop params.KeyLen)).1
  let em ← symEncrypt prim rand params Ke m
  if em.length ≤ params.BlockSize then return []
  let d := messageTag prim params.Hash Km em s2
  return Marshal pub.curve R.PublicKey.X R.PublicKey.Y ++ em ++ d

/-- `prv.Decrypt(c, s1, s2)`. The ephemeral key is read as the first
`(BitSize + 7) / 4` bytes. -/
def Decrypt (prv : PrivateKey) (c s1 s2 : List UInt8) : Except EciesError (List UInt8) :=
  match c with
  | [] => .error ErrInvalidMessage
  | c0 :: _ =>
    let params := prv.PublicKey.params
    let hLen := params.Hash.Size
    if c0 = 2 ∨ c0 = 3 ∨ c0 = 4 then
      let rLen := (prv.PublicKey.curve.BitSize + 7) / 4
      if c.length < rLen + hLen + 1 then .error ErrInvalidMessage
      else
        let mEnd := c.length - hLen
        let em := (c.take mEnd).drop rLen
        match Unmarshal prim prv.PublicKey.curve (c.take rLen) with
        | none => .error ErrInvalidPublicKey
        | some (x, y) =>
          if !prim.isOnCurve prv.PublicKey.curve (x, y) then .error ErrInvalidCurve
          else do
            let R : PublicKey := ⟨x, y, prv.PublicKey.curve, none⟩
            let z ← GenerateShared prim prv R params.KeyLen params.KeyLen
            let K ← concatKDF prim params.Hash z s1 (params.KeyLen + params.KeyLen)
            let Ke := K.take params.KeyLen
            let Km := (prim.digest params.Hash (K.drop params.KeyLen)).1
            let d := messageTag prim params.Hash Km em s2
            if c.drop mEnd ≠ d then throw ErrInvalidMessage
            symDecrypt prim params Ke em
    else .error ErrInvalidPublicKey

/-! ## What each step computes -/

@[simp] theorem length_xorKeyStream (key iv m : List UInt8) :
    (xorKeyStream prim key iv m).length = m.length := by
  simp [xorKeyStream]

/-- The key stream undoes itself. -/
theorem xorKeyStream_xorKeyStream (key iv m : List UInt8) :
    xorKeyStream prim key iv (xorKeyStream prim key iv m) = m :=
  KeyStream.mapIdx_xor_mapIdx_xor _ m

theorem symEncrypt_eq_ok {rand : List UInt8} {params : ECIESParams} {key m em : List UInt8} :
    symEncrypt prim rand params key m = .ok em ↔
      Cipher key = .ok () ∧ params.BlockSize ≤ rand.length ∧
        em = rand.take params.BlockSize ++ xorKeyStream prim key (rand.take params.BlockSize) m := by
  simp only [symEncrypt, generateIV, Except.bind_eq_bind, Except.bind_eq_ok_iff, Except.pure_eq_ok,
    Except.ok.injEq]
  constructor
  · rintro ⟨u, cipher, iv, read, rfl⟩
    split_ifs at read with short
    rw [Except.ok.injEq] at read
    exact ⟨cipher, Nat.le_of_not_lt short, by rw [read]⟩
  · rintro ⟨cipher, enough, rfl⟩
    exact ⟨(), cipher, _, if_neg (Nat.not_lt_of_le enough), rfl⟩

/-- `symDecrypt` takes back what `symEncrypt` wrote. -/
theorem symDecrypt_symEncrypt {rand : List UInt8} {params : ECIESParams} {key m em : List UInt8}
    (h : symEncrypt prim rand params key m = .ok em) : symDecrypt prim params key em = .ok m := by
  obtain ⟨cipher, enough, rfl⟩ := (symEncrypt_eq_ok prim).mp h
  have iv : (rand.take params.BlockSize).length = params.BlockSize := by
    rw [List.length_take]
    omega
  simp only [symDecrypt, cipher, Except.bind_eq_bind, Except.bind_ok_eq, List.length_append, iv,
    List.take_left' iv, List.drop_left' iv, xorKeyStream_xorKeyStream]
  rw [if_neg (by omega)]
  rfl

theorem GenerateShared_too_big {prv : PrivateKey} {pub : PublicKey} {skLen macLen : Nat}
    (same : prv.PublicKey.curve = pub.curve) (big : MaxSharedKeyLength pub < skLen + macLen) :
    GenerateShared prim prv pub skLen macLen = .error ErrSharedKeyTooBig := by
  rw [GenerateShared, if_neg (not_not.mpr same), if_pos big]

/-- The shared key is the x-coordinate of the product, padded to its length. -/
theorem GenerateShared_of_scalarMult {prv : PrivateKey} {pub : PublicKey} {skLen macLen x y : Nat}
    (same : prv.PublicKey.curve = pub.curve) (fits : skLen + macLen ≤ MaxSharedKeyLength pub)
    (mult : prim.scalarMult pub.curve (pub.X, pub.Y) (BigEndian.bytes prv.D) = some (x, y))
    (short : (BigEndian.bytes x).length ≤ skLen + macLen) :
    GenerateShared prim prv pub skLen macLen =
      .ok (BigEndian.leftPad (skLen + macLen) (BigEndian.bytes x)) := by
  rw [GenerateShared, if_neg (not_not.mpr same), if_neg (Nat.not_lt_of_le fits), mult]
  dsimp only
  rw [if_neg (Nat.not_lt_of_le short)]

theorem length_kdfBlocks (hash : HashAlgo) (z s1 : List UInt8) :
    ∀ (n : Nat) (counter : List UInt8), (kdfBlocks prim hash z s1 n counter).length = n * hash.Size
  | 0, _ => by simp [kdfBlocks]
  | n + 1, counter => by
    rw [kdfBlocks, List.length_append, (prim.digest _ _).2, length_kdfBlocks hash z s1 n]
    ring

/-- The loop appends the blocks, and keeps the zero bytes past the length. -/
theorem kdfAppend_spec (hash : HashAlgo) (z s1 : List UInt8) :
    ∀ (n : Nat) (counter : List UInt8) (k : GoSlice.Bytes), k.ZeroTail →
      (kdfAppend prim hash z s1 n counter k).bytes = k.bytes ++ kdfBlocks prim hash z s1 n counter ∧
        (kdfAppend prim hash z s1 n counter k).cap = GoSlice.appendsCap hash.Size n k.len k.cap ∧
        (kdfAppend prim hash z s1 n counter k).ZeroTail
  | 0, _, k, tail => ⟨by simp [kdfAppend, kdfBlocks], rfl, tail⟩
  | n + 1, counter, k, tail => by
    obtain ⟨bytes, cap, tail'⟩ := kdfAppend_spec hash z s1 n (incCounter counter) _ (tail.append _)
    refine ⟨?_, ?_, tail'⟩
    · rw [kdfAppend, bytes, GoSlice.Bytes.bytes_append, kdfBlocks, List.append_assoc]
    · rw [kdfAppend, cap, GoSlice.Bytes.len_append, GoSlice.Bytes.cap_append, (prim.digest _ _).2,
        GoSlice.appendsCap]

/-- `concatKDF` returns the first `kdLen` bytes of the blocks its loop
appends, then of the zero bytes of the slice's capacity past them, and panics
past the capacity. -/
theorem concatKDF_eq_blocks {hash : HashAlgo} {z s1 : List UInt8} {kdLen : Nat}
    (few : ((kdLen + 7) * 8) / (hash.BlockSize * 8) ≤ 2 ^ 32 - 1) :
    concatKDF prim hash z s1 kdLen =
      let n := ((kdLen + 7) * 8) / (hash.BlockSize * 8) + 1
      if kdLen > GoSlice.appendsCap hash.Size n 0 0 then .error (.panic "runtime error: slice bounds out of range")
      else .ok ((kdfBlocks prim hash z s1 n [0, 0, 0, 1] ++
        List.replicate (GoSlice.appendsCap hash.Size n 0 0 - n * hash.Size) 0).take kdLen) := by
  obtain ⟨bytes, cap, tail⟩ := kdfAppend_spec prim hash z s1 (((kdLen + 7) * 8) / (hash.BlockSize * 8) + 1)
    [0, 0, 0, 1] GoSlice.Bytes.empty GoSlice.Bytes.zeroTail_empty
  have len : (kdfAppend prim hash z s1 (((kdLen + 7) * 8) / (hash.BlockSize * 8) + 1) [0, 0, 0, 1]
      GoSlice.Bytes.empty).len = (((kdLen + 7) * 8) / (hash.BlockSize * 8) + 1) * hash.Size := by
    rw [← GoSlice.Bytes.length_bytes, bytes, GoSlice.Bytes.bytes_empty, List.nil_append, length_kdfBlocks]
  rw [concatKDF]
  dsimp only
  rw [if_neg (Nat.not_lt_of_le few), tail.buf_eq, bytes, GoSlice.Bytes.bytes_empty, List.nil_append, len, cap,
    GoSlice.Bytes.len_empty, GoSlice.Bytes.cap_empty]

/-- Where the blocks it counts cover the key, `concatKDF` returns the start of
the blocks. -/
theorem concatKDF_of_covered {hash : HashAlgo} {z s1 : List UInt8} {kdLen : Nat}
    (few : ((kdLen + 7) * 8) / (hash.BlockSize * 8) ≤ 2 ^ 32 - 1)
    (covered : kdLen ≤ (((kdLen + 7) * 8) / (hash.BlockSize * 8) + 1) * hash.Size) :
    concatKDF prim hash z s1 kdLen =
      .ok ((kdfBlocks prim hash z s1 (((kdLen + 7) * 8) / (hash.BlockSize * 8) + 1) [0, 0, 0, 1]).take kdLen) := by
  -- the capacity holds the blocks, which hold the key
  have room := GoSlice.le_appendsCap hash.Size (((kdLen + 7) * 8) / (hash.BlockSize * 8) + 1) 0 0 (Nat.le_refl 0)
  rw [concatKDF_eq_blocks prim few]
  dsimp only
  rw [if_neg (by omega), List.take_append_of_le_length (by rw [length_kdfBlocks]; exact covered)]

/-- A key no longer than a block less seven bytes, and no longer than the
hash, is the start of the first block. -/
theorem concatKDF_of_lt {hash : HashAlgo} {z s1 : List UInt8} {kdLen : Nat}
    (one : kdLen + 7 < hash.BlockSize) (fits : kdLen ≤ hash.Size) :
    concatKDF prim hash z s1 kdLen = .ok ((prim.digest hash ([0, 0, 0, 1] ++ z ++ s1)).1.take kdLen) := by
  have reps : ((kdLen + 7) * 8) / (hash.BlockSize * 8) = 0 := Nat.div_eq_of_lt (by omega)
  rw [concatKDF_of_covered prim (by rw [reps]; decide) (by rw [reps]; omega), reps, kdfBlocks, kdfBlocks,
    List.append_nil]

/-- A coordinate in the field fits the bytes `Marshal` gives it. -/
theorem length_bytes_le_of_lt_P (laws : prim.Laws) {c : Curve} {x : Nat} (lt : x < prim.P c) :
    (BigEndian.bytes x).length ≤ (c.BitSize + 7) / 8 := by
  rw [BigEndian.length_bytes_le_iff]
  calc x < prim.P c := lt
    _ ≤ 2 ^ c.BitSize := laws.P_le c
    _ ≤ 2 ^ (8 * ((c.BitSize + 7) / 8)) := Nat.pow_le_pow_right (by decide) (by omega)
    _ = 256 ^ ((c.BitSize + 7) / 8) := by rw [pow_mul]; norm_num

theorem length_Marshal (laws : prim.Laws) {c : Curve} {x y : Nat} (hx : x < prim.P c)
    (hy : y < prim.P c) : (Marshal c x y).length = 1 + 2 * ((c.BitSize + 7) / 8) := by
  simp only [Marshal, List.length_cons, List.length_append,
    BigEndian.length_leftPad (length_bytes_le_of_lt_P prim laws hx),
    BigEndian.length_leftPad (length_bytes_le_of_lt_P prim laws hy)]
  omega

/-- `Unmarshal` reads back the point `Marshal` wrote. -/
theorem Unmarshal_Marshal (laws : prim.Laws) {c : Curve} {x y : Nat} (hx : x < prim.P c)
    (hy : y < prim.P c) (on : prim.isOnCurve c (x, y) = true) :
    Unmarshal prim c (Marshal c x y) = some (x, y) := by
  have px := BigEndian.length_leftPad (length_bytes_le_of_lt_P prim laws hx)
  have coordX : BigEndian.value (((Marshal c x y).drop 1).take ((c.BitSize + 7) / 8)) = x := by
    rw [Marshal, List.cons_append, List.drop_one, List.tail_cons, List.take_left' px,
      BigEndian.value_leftPad, BigEndian.value_bytes]
  have coordY : BigEndian.value ((Marshal c x y).drop (1 + (c.BitSize + 7) / 8)) = y := by
    rw [Marshal, List.cons_append, Nat.add_comm, List.drop_succ_cons, List.drop_left' px,
      BigEndian.value_leftPad, BigEndian.value_bytes]
  have form : (Marshal c x y).head? = some 4 := rfl
  rw [Unmarshal]
  dsimp only
  rw [if_neg (not_not.mpr (length_Marshal prim laws hx hy)), if_neg (not_not.mpr form), coordX, coordY,
    if_neg (by omega), on]
  rfl

theorem isOnCurve_of_Unmarshal {c : Curve} {data : List UInt8} {p : Nat × Nat}
    (h : Unmarshal prim c data = some p) : prim.isOnCurve c p = true := by
  rw [Unmarshal] at h
  dsimp only at h
  split_ifs at h with _ _ _ on
  cases h
  simpa using on

theorem Unmarshal_of_length {curve : Curve} {data : List UInt8}
    (h : data.length ≠ 1 + 2 * ((curve.BitSize + 7) / 8)) : Unmarshal prim curve data = none := by
  rw [Unmarshal, if_pos h]


/-- What `Encrypt` returns when it returns: each step succeeded, and the
result is nothing for a cipher text of at most a block. -/
theorem Encrypt_eq_ok {k : Nat} {rand : List UInt8} {pub : PublicKey} {m s1 s2 ct : List UInt8}
    (h : Encrypt prim k rand pub m s1 s2 = .ok ct) :
    ∃ z K em, GenerateShared prim (GenerateKey prim pub.curve pub.params k) pub pub.params.KeyLen
        pub.params.KeyLen = .ok z ∧
      concatKDF prim pub.params.Hash z s1 (pub.params.KeyLen + pub.params.KeyLen) = .ok K ∧
      symEncrypt prim rand pub.params (K.take pub.params.KeyLen) m = .ok em ∧
      ct = if em.length ≤ pub.params.BlockSize then [] else
        Marshal pub.curve (GenerateKey prim pub.curve pub.params k).PublicKey.X
            (GenerateKey prim pub.curve pub.params k).PublicKey.Y ++ em ++
          messageTag prim pub.params.Hash (prim.digest pub.params.Hash (K.drop pub.params.KeyLen)).1 em s2 := by
  simp only [Encrypt, Except.bind_eq_bind, Except.bind_eq_ok_iff, Except.pure_eq_ok] at h
  obtain ⟨z, shared, K, kdf, em, cipher, last⟩ := h
  refine ⟨z, K, em, shared, kdf, cipher, ?_⟩
  split_ifs at last ⊢ <;> simpa using last.symm

/-- `Encrypt` when each step succeeds and the cipher text is longer than a
block: the ephemeral key, the cipher text and its tag. -/
theorem Encrypt_of_parts {k : Nat} {rand : List UInt8} {pub : PublicKey} {m s1 s2 z K em : List UInt8}
    (shared : GenerateShared prim (GenerateKey prim pub.curve pub.params k) pub pub.params.KeyLen
      pub.params.KeyLen = .ok z)
    (kdf : concatKDF prim pub.params.Hash z s1 (pub.params.KeyLen + pub.params.KeyLen) = .ok K)
    (cipher : symEncrypt prim rand pub.params (K.take pub.params.KeyLen) m = .ok em)
    (long : pub.params.BlockSize < em.length) :
    Encrypt prim k rand pub m s1 s2 = .ok (Marshal pub.curve (GenerateKey prim pub.curve pub.params k).PublicKey.X
        (GenerateKey prim pub.curve pub.params k).PublicKey.Y ++ em ++
      messageTag prim pub.params.Hash (prim.digest pub.params.Hash (K.drop pub.params.KeyLen)).1 em s2) := by
  simp only [Encrypt, Except.bind_eq_bind, shared, kdf, cipher, Except.bind_ok_eq]
  rw [if_neg (Nat.not_le_of_lt long)]
  rfl

/-- `Decrypt` of an ephemeral key that reads back, a cipher text and the tag
of the key the exchange gives: the cipher text's plain text. -/
theorem Decrypt_of_parts {prv : PrivateKey} {Rb em : List UInt8} {x y : Nat} {z K s1 s2 : List UInt8}
    (form : ∃ rest, Rb = 4 :: rest) (rLen : Rb.length = (prv.PublicKey.curve.BitSize + 7) / 4)
    (point : Unmarshal prim prv.PublicKey.curve Rb = some (x, y)) (nonempty : em ≠ [])
    (shared : GenerateShared prim prv ⟨x, y, prv.PublicKey.curve, none⟩ prv.PublicKey.params.KeyLen
      prv.PublicKey.params.KeyLen = .ok z)
    (kdf : concatKDF prim prv.PublicKey.params.Hash z s1
      (prv.PublicKey.params.KeyLen + prv.PublicKey.params.KeyLen) = .ok K) :
    Decrypt prim prv (Rb ++ em ++ messageTag prim prv.PublicKey.params.Hash
        (prim.digest prv.PublicKey.params.Hash (K.drop prv.PublicKey.params.KeyLen)).1 em s2) s1 s2 =
      symDecrypt prim prv.PublicKey.params (K.take prv.PublicKey.params.KeyLen) em := by
  obtain ⟨rest, rfl⟩ := form
  set tag := messageTag prim prv.PublicKey.params.Hash
    (prim.digest prv.PublicKey.params.Hash (K.drop prv.PublicKey.params.KeyLen)).1 em s2 with tagged
  have tagLen : tag.length = prv.PublicKey.params.Hash.Size := (prim.hmac _ _ _).2
  have emLen : 0 < em.length := List.length_pos_of_ne_nil nonempty
  -- where `Decrypt` cuts the cipher text
  have mEnd : (4 :: rest ++ em ++ tag).length - prv.PublicKey.params.Hash.Size =
      (4 :: rest ++ em).length := by
    rw [List.length_append, tagLen]
    omega
  have long : ¬(4 :: rest ++ em ++ tag).length <
      (prv.PublicKey.curve.BitSize + 7) / 4 + prv.PublicKey.params.Hash.Size + 1 := by
    rw [List.length_append, List.length_append, tagLen, ← rLen]
    omega
  have readR : (4 :: rest ++ em ++ tag).take ((prv.PublicKey.curve.BitSize + 7) / 4) = 4 :: rest := by
    rw [← rLen, List.append_assoc, List.take_left]
  have readEm : ((4 :: rest ++ em ++ tag).take (4 :: rest ++ em).length).drop
      ((prv.PublicKey.curve.BitSize + 7) / 4) = em := by
    rw [List.take_left, ← rLen, List.drop_left]
  have readTag : (4 :: rest ++ em ++ tag).drop (4 :: rest ++ em).length = tag := List.drop_left
  have shape : 4 :: rest ++ em ++ tag = 4 :: (rest ++ em ++ tag) := by simp
  rw [shape, Decrypt, ← shape]
  dsimp only
  rw [if_pos (by decide), if_neg long, readR, point]
  dsimp only
  rw [if_neg (by simp [isOnCurve_of_Unmarshal prim point])]
  simp only [Except.bind_eq_bind, shared, kdf, Except.bind_ok_eq, mEnd, readEm, readTag]
  rw [← tagged, if_neg (not_not.mpr rfl)]



/-- The keys of an exchange on secp256k1 or P-256 between a key `d` and an
ephemeral key `k`, both in `[1, N)`: the sender and the receiver derive one
shared key `z` and one key material `K`, whose first half is a key that
`aes.NewCipher` takes. -/
theorem exchange_keys (laws : prim.Laws) {c : Curve} (small : c = .S256 ∨ c = .P256)
    {d k : Nat} (hd : 0 < d ∧ d < prim.N c) (hk : 0 < k ∧ k < prim.N c) (s1 : List UInt8) :
    let prv := GenerateKey prim c (ParamsFromCurve c) d
    ∃ z K, GenerateShared prim (GenerateKey prim c prv.PublicKey.params k) prv.PublicKey
        prv.PublicKey.params.KeyLen prv.PublicKey.params.KeyLen = .ok z ∧
      GenerateShared prim prv
        ⟨(prim.scalarBaseMult c (BigEndian.bytes k)).1, (prim.scalarBaseMult c (BigEndian.bytes k)).2, c, none⟩
        prv.PublicKey.params.KeyLen prv.PublicKey.params.KeyLen = .ok z ∧
      concatKDF prim prv.PublicKey.params.Hash z s1
        (prv.PublicKey.params.KeyLen + prv.PublicKey.params.KeyLen) = .ok K ∧
      Cipher (K.take prv.PublicKey.params.KeyLen) = .ok () := by
  intro prv
  have params : prv.PublicKey.params = ECIES_AES128_SHA256 := by
    rcases small with rfl | rfl <;> rfl
  have bits : c.BitSize = 256 := by
    rcases small with rfl | rfl <;> rfl
  have keyLen : prv.PublicKey.params.KeyLen = 16 := by rw [params]; rfl
  -- the shared point, as the sender and the receiver compute it
  obtain ⟨x, y, mult, xlt⟩ := laws.shared c k d hk.1 hk.2 hd.1 hd.2
  have short : (BigEndian.bytes x).length ≤ prv.PublicKey.params.KeyLen + prv.PublicKey.params.KeyLen := by
    have := length_bytes_le_of_lt_P prim laws xlt
    rw [bits] at this
    rw [keyLen]
    exact this
  have fits : prv.PublicKey.params.KeyLen + prv.PublicKey.params.KeyLen ≤ MaxSharedKeyLength prv.PublicKey := by
    rw [keyLen, MaxSharedKeyLength]
    exact (by rw [bits] : 16 + 16 ≤ (c.BitSize + 7) / 8)
  have sender : GenerateShared prim (GenerateKey prim c prv.PublicKey.params k) prv.PublicKey
      prv.PublicKey.params.KeyLen prv.PublicKey.params.KeyLen =
        .ok (BigEndian.leftPad (prv.PublicKey.params.KeyLen + prv.PublicKey.params.KeyLen) (BigEndian.bytes x)) :=
    GenerateShared_of_scalarMult prim rfl fits mult short
  -- the receiver multiplies the ephemeral point by its own key: the same point
  have receiver : GenerateShared prim prv
      ⟨(prim.scalarBaseMult c (BigEndian.bytes k)).1, (prim.scalarBaseMult c (BigEndian.bytes k)).2, c, none⟩
      prv.PublicKey.params.KeyLen prv.PublicKey.params.KeyLen =
        .ok (BigEndian.leftPad (prv.PublicKey.params.KeyLen + prv.PublicKey.params.KeyLen) (BigEndian.bytes x)) :=
    GenerateShared_of_scalarMult prim rfl fits ((laws.agree c d k hd.1 hd.2 hk.1 hk.2).trans mult) short
  set z := BigEndian.leftPad (prv.PublicKey.params.KeyLen + prv.PublicKey.params.KeyLen) (BigEndian.bytes x)
  set K := (prim.digest prv.PublicKey.params.Hash ([0, 0, 0, 1] ++ z ++ s1)).1.take
    (prv.PublicKey.params.KeyLen + prv.PublicKey.params.KeyLen) with key
  have kdf : concatKDF prim prv.PublicKey.params.Hash z s1
      (prv.PublicKey.params.KeyLen + prv.PublicKey.params.KeyLen) = .ok K :=
    concatKDF_of_lt prim (by rw [params]; decide) (by rw [params]; decide)
  -- the cipher key is the first half, 16 bytes
  have hashSize : prv.PublicKey.params.Hash.Size = 32 := by rw [params]; rfl
  have keyBytes : (K.take prv.PublicKey.params.KeyLen).length = 16 := by
    rw [key, List.length_take, List.length_take, (prim.digest _ _).2, hashSize, keyLen]
    rfl
  exact ⟨z, K, sender, receiver, kdf, by rw [Cipher, if_pos (Or.inl keyBytes)]⟩

/-- The ephemeral point of `k` on secp256k1 or P-256, as `Encrypt` writes it:
a `4`, the length `Decrypt` reads, and the point back. -/
theorem ephemeral_reads_back (laws : prim.Laws) {c : Curve} (small : c = .S256 ∨ c = .P256)
    {k : Nat} (hk : 0 < k ∧ k < prim.N c) :
    let R := prim.scalarBaseMult c (BigEndian.bytes k)
    (∃ rest, Marshal c R.1 R.2 = 4 :: rest) ∧ (Marshal c R.1 R.2).length = (c.BitSize + 7) / 4 ∧
      Unmarshal prim c (Marshal c R.1 R.2) = some R := by
  intro R
  have bits : c.BitSize = 256 := by
    rcases small with rfl | rfl <;> rfl
  have ephemeral := laws.inField c k hk.1 hk.2
  have rLen := length_Marshal prim laws ephemeral.1 ephemeral.2
  rw [bits] at rLen
  exact ⟨⟨_, rfl⟩, by rw [rLen, bits], Unmarshal_Marshal prim laws ephemeral.1 ephemeral.2 (laws.onCurve c k hk.1 hk.2)⟩

/-- On secp256k1 and P-256, for a key pair with its curve's parameters and
an ephemeral key both in `[1, N)`, and a random source with a block of
bytes left, a message that is not empty decrypts to itself. -/
theorem Decrypt_Encrypt (laws : prim.Laws) {c : Curve} (small : c = .S256 ∨ c = .P256)
    {d k : Nat} (hd : 0 < d ∧ d < prim.N c) (hk : 0 < k ∧ k < prim.N c)
    {rand : List UInt8} (enough : 16 ≤ rand.length) {m : List UInt8} (nonempty : m ≠ [])
    (s1 s2 : List UInt8) :
    ∃ ct, Encrypt prim k rand (GenerateKey prim c (ParamsFromCurve c) d).PublicKey m s1 s2 = .ok ct ∧
      Decrypt prim (GenerateKey prim c (ParamsFromCurve c) d) ct s1 s2 = .ok m := by
  set prv := GenerateKey prim c (ParamsFromCurve c) d
  obtain ⟨z, K, sender, receiver, kdf, cipherOk⟩ := exchange_keys prim laws small hd hk s1
  have block : prv.PublicKey.params.BlockSize = 16 := by
    rcases small with rfl | rfl <;> rfl
  have cipher : symEncrypt prim rand prv.PublicKey.params (K.take prv.PublicKey.params.KeyLen) m = .ok
      (rand.take prv.PublicKey.params.BlockSize ++ xorKeyStream prim (K.take prv.PublicKey.params.KeyLen)
        (rand.take prv.PublicKey.params.BlockSize) m) :=
    (symEncrypt_eq_ok prim).mpr ⟨cipherOk, by rw [block]; exact enough, rfl⟩
  have emLen : (rand.take prv.PublicKey.params.BlockSize ++ xorKeyStream prim (K.take prv.PublicKey.params.KeyLen)
      (rand.take prv.PublicKey.params.BlockSize) m).length = 16 + m.length := by
    rw [List.length_append, List.length_take, length_xorKeyStream, block]
    omega
  have long : m.length > 0 := List.length_pos_of_ne_nil nonempty
  refine ⟨_, Encrypt_of_parts prim sender kdf cipher (by rw [emLen, block]; omega), ?_⟩
  -- the receiver reads the ephemeral point back
  obtain ⟨form, rLen, point⟩ := ephemeral_reads_back prim laws small hk
  exact (Decrypt_of_parts prim form rLen point
    (List.ne_nil_of_length_pos (by rw [emLen]; omega)) receiver kdf).trans (symDecrypt_symEncrypt prim cipher)

/-! ## Where the round trip fails -/

/-- The empty message gets no ciphertext: its cipher text is the IV alone,
which `Encrypt` returns as nothing, without an error. -/
theorem Encrypt_nil (k : Nat) (rand : List UInt8) (pub : PublicKey) (s1 s2 : List UInt8) :
    Encrypt prim k rand pub [] s1 s2 = .ok [] ∨ ∃ e, Encrypt prim k rand pub [] s1 s2 = .error e := by
  rcases encrypted : Encrypt prim k rand pub [] s1 s2 with e | ct
  · exact .inr ⟨e, rfl⟩
  obtain ⟨_, _, em, _, _, cipher, rfl⟩ := Encrypt_eq_ok prim encrypted
  obtain ⟨_, _, rfl⟩ := (symEncrypt_eq_ok prim).mp cipher
  left
  rw [if_pos (by simp)]

/-- On P-384 the two keys of 32 bytes ask for 64 bytes of a 48-byte
coordinate. -/
theorem Encrypt_P384 (k : Nat) (rand : List UInt8) (X Y : Nat) (m s1 s2 : List UInt8) :
    Encrypt prim k rand ⟨X, Y, .P384, some (ParamsFromCurve .P384)⟩ m s1 s2 = .error ErrSharedKeyTooBig := by
  rw [Encrypt, GenerateShared_too_big]
  · rfl
  · rfl
  · exact (by decide : (384 + 7) / 8 < 32 + 32)

/-- On P-521 `Decrypt` takes `(521 + 7) / 4 = 132` bytes for the ephemeral
key, which `Marshal` writes in 133: no input decrypts. -/
theorem Decrypt_P521 (X Y D : Nat) (c s1 s2 : List UInt8) :
    ∃ e, Decrypt prim ⟨⟨X, Y, .P521, some (ParamsFromCurve .P521)⟩, D⟩ c s1 s2 = .error e := by
  rcases c with _ | ⟨c0, rest⟩
  · exact ⟨_, rfl⟩
  rw [Decrypt]
  dsimp only
  split_ifs with form short
  · exact ⟨_, rfl⟩
  · have rLen : (Curve.P521.BitSize + 7) / 4 = 132 := rfl
    have hLen : (⟨X, Y, .P521, some (ParamsFromCurve .P521)⟩ : PublicKey).params.Hash.Size = 64 := rfl
    rw [rLen, hLen] at short
    have read : ((c0 :: rest).take 132).length = 132 := by
      rw [List.length_take]
      omega
    rw [rLen, Unmarshal_of_length prim (by rw [read]; decide)]
    exact ⟨_, rfl⟩
  · exact ⟨_, rfl⟩

/-- The round trip fails for the empty message on every curve, for every
message on P-384, whose `Encrypt` always fails, and on P-521, whose
`Decrypt` always fails. -/
theorem Encrypt_Decrypt_unsupported :
    (∀ k rand pub s1 s2, Encrypt prim k rand pub [] s1 s2 = .ok [] ∨
        ∃ e, Encrypt prim k rand pub [] s1 s2 = .error e) ∧
      (∀ prv s1 s2, Decrypt prim prv [] s1 s2 = .error ErrInvalidMessage) ∧
      (∀ k rand X Y m s1 s2,
        Encrypt prim k rand ⟨X, Y, .P384, some (ParamsFromCurve .P384)⟩ m s1 s2 = .error ErrSharedKeyTooBig) ∧
      (∀ X Y D c s1 s2, ∃ e, Decrypt prim ⟨⟨X, Y, .P521, some (ParamsFromCurve .P521)⟩, D⟩ c s1 s2 = .error e) :=
  ⟨Encrypt_nil prim, fun _ _ _ => rfl, Encrypt_P384 prim, Decrypt_P521 prim⟩

/-! ## A short body with the right tag -/

/-- The sender of the ephemeral key derives the same keys as the receiver,
so it can tag any body. A body shorter than a block, sent with its tag,
passes the tag check and reaches the negative `make` of `symDecrypt`: on
secp256k1 and P-256 every key pair has such a ciphertext. -/
theorem Decrypt_short_body_panics (laws : prim.Laws) {c : Curve} (small : c = .S256 ∨ c = .P256)
    {d k : Nat} (hd : 0 < d ∧ d < prim.N c) (hk : 0 < k ∧ k < prim.N c)
    {em : List UInt8} (nonempty : em ≠ []) (short : em.length < 16) (s1 s2 : List UInt8) :
    ∃ ct, Decrypt prim (GenerateKey prim c (ParamsFromCurve c) d) ct s1 s2 =
      .error (.panic "runtime error: makeslice: len out of range") := by
  set prv := GenerateKey prim c (ParamsFromCurve c) d
  obtain ⟨z, K, -, receiver, kdf, cipherOk⟩ := exchange_keys prim laws small hd hk s1
  obtain ⟨form, rLen, point⟩ := ephemeral_reads_back prim laws small hk
  have block : prv.PublicKey.params.BlockSize = 16 := by
    rcases small with rfl | rfl <;> rfl
  refine ⟨_, (Decrypt_of_parts prim form rLen point nonempty receiver kdf).trans ?_⟩
  -- `symDecrypt` accepts the key, and the body is shorter than the IV it takes
  rw [symDecrypt, cipherOk]
  simp only [Except.bind_eq_bind, Except.bind_ok_eq]
  rw [if_pos (by rw [block]; exact short)]
  rfl

/-- Primitives of a curve of one point with constant hashes. They satisfy
the laws, so the results that assume the laws hold of at least one model. -/
def pointPrimitives : Primitives where
  N _ := 2
  P _ := 2
  scalarBaseMult _ _ := (1, 1)
  scalarMult _ _ _ := some (1, 1)
  isOnCurve _ _ := true
  digest hash _ := ⟨List.replicate hash.Size 0, List.length_replicate⟩
  hmac hash _ _ := ⟨List.replicate hash.Size 0, List.length_replicate⟩
  keyStream _ _ _ := 0

theorem pointPrimitives_laws : pointPrimitives.Laws where
  agree _ _ _ _ _ _ _ := rfl
  shared _ _ _ _ _ _ _ := ⟨1, 1, rfl, Nat.one_lt_two⟩
  onCurve _ _ _ _ := rfl
  inField _ _ _ _ := ⟨Nat.one_lt_two, Nat.one_lt_two⟩
  P_le c := Nat.le_self_pow (by cases c <;> decide) 2

/-- The one-byte body `[0]` under the key pair of `d = 1` on secp256k1, with
the ephemeral key `k = 1`. -/
theorem Decrypt_short_body_panics_point :
    ∃ ct, Decrypt pointPrimitives (GenerateKey pointPrimitives .S256 (ParamsFromCurve .S256) 1) ct [] [] =
      .error (.panic "runtime error: makeslice: len out of range") :=
  Decrypt_short_body_panics pointPrimitives pointPrimitives_laws (.inl rfl) (k := 1) ⟨by decide, by decide⟩
    ⟨by decide, by decide⟩ (List.cons_ne_nil 0 []) (by decide) [] []

/-- The message `[5]` under the key pair of `d = 1` on secp256k1, with the
ephemeral key `k = 1` and a block of zero bytes from the random source. -/
theorem Decrypt_Encrypt_point :
    ∃ ct, Encrypt pointPrimitives 1 (List.replicate 16 0)
        (GenerateKey pointPrimitives .S256 (ParamsFromCurve .S256) 1).PublicKey [5] [] [] = .ok ct ∧
      Decrypt pointPrimitives (GenerateKey pointPrimitives .S256 (ParamsFromCurve .S256) 1) ct [] [] = .ok [5] :=
  Decrypt_Encrypt pointPrimitives pointPrimitives_laws (.inl rfl) ⟨by decide, by decide⟩ ⟨by decide, by decide⟩
    (by decide) (List.cons_ne_nil 5 []) [] []

/-! ## The key derivation against SP 800-56

The key stream of the standard is `H(ctr(1) || z || s1) || H(ctr(2) || z || s1) || ...`
with `ctr(i)` the counter `i` in four big-endian bytes. `incCounter` steps
`ctr(i)` to `ctr(i + 1)` modulo `2 ^ 32`, so the loop of `concatKDF` writes
that stream (`kdfBlocks_eq_kdfStream`). What it gets wrong is the count: the
blocks are counted with the hash's input block size, and a key longer than
the hash's output but shorter than its block size less seven bytes gets a
single block, too short for it. Past the blocks, `k[:kdLen]` reads the zero
bytes of the slice's capacity, where the appends left any. -/

/-- `ctr(i)`: the counter `i` as four big-endian bytes, `i` taken mod `2 ^ 32`. -/
def ctr (i : Nat) : List UInt8 :=
  [UInt8.ofNat (i / 2 ^ 24), UInt8.ofNat (i / 2 ^ 16), UInt8.ofNat (i / 2 ^ 8), UInt8.ofNat i]

/-- The first `n` blocks of the key stream of SP 800-56, counted from `ctr(1)`. -/
def kdfStream (hash : HashAlgo) (z s1 : List UInt8) (n : Nat) : List UInt8 :=
  (List.range n).flatMap fun i => (prim.digest hash (ctr (i + 1) ++ z ++ s1)).1

theorem ofNat_eq_ofNat_iff {a b : Nat} : UInt8.ofNat a = UInt8.ofNat b ↔ a % 256 = b % 256 := by
  rw [← UInt8.toNat_inj, UInt8.toNat_ofNat', UInt8.toNat_ofNat']

theorem ofNat_add_one (a : Nat) : UInt8.ofNat a + 1 = UInt8.ofNat (a + 1) := by
  rw [← UInt8.toNat_inj, UInt8.toNat_add, UInt8.toNat_ofNat', UInt8.toNat_ofNat']
  simp only [UInt8.reduceToNat, Nat.reducePow]
  omega

theorem ofNat_eq_zero_iff {a : Nat} : UInt8.ofNat a = 0 ↔ a % 256 = 0 := by
  rw [← UInt8.toNat_inj, UInt8.toNat_ofNat']
  rfl

theorem zero_eq_ofNat_iff {a : Nat} : 0 = UInt8.ofNat a ↔ a % 256 = 0 := by
  rw [eq_comm, ofNat_eq_zero_iff]

theorem ctr_mod (i : Nat) : ctr (i % 2 ^ 32) = ctr i := by
  simp only [ctr, List.cons.injEq, ofNat_eq_ofNat_iff, and_true, Nat.reducePow]
  omega

/-- `incCounter` steps the counter by one, with the carry through all four
bytes and the wrap at `2 ^ 32`. -/
theorem incCounter_ctr (i : Nat) : incCounter (ctr i) = ctr ((i + 1) % 2 ^ 32) := by
  rw [ctr_mod]
  simp only [ctr, incCounter, ofNat_add_one, ne_eq, ofNat_eq_zero_iff, Nat.reducePow]
  -- one case per byte the carry stops at
  split_ifs with c3 c2 c1 <;>
    simp only [List.cons.injEq, ofNat_eq_ofNat_iff, zero_eq_ofNat_iff, and_true] <;> omega

theorem length_kdfStream (hash : HashAlgo) (z s1 : List UInt8) (n : Nat) :
    (kdfStream prim hash z s1 n).length = n * hash.Size := by
  simp [kdfStream, List.length_flatMap, (prim.digest _ _).2]

/-- The loop from `ctr(j)` hashes `ctr(j)`, `ctr(j + 1)`, ... in turn. -/
theorem kdfBlocks_ctr (hash : HashAlgo) (z s1 : List UInt8) :
    ∀ (n j : Nat), kdfBlocks prim hash z s1 n (ctr j) =
      (List.range n).flatMap fun i => (prim.digest hash (ctr (j + i) ++ z ++ s1)).1
  | 0, _ => rfl
  | n + 1, j => by
    rw [kdfBlocks, incCounter_ctr, ctr_mod, kdfBlocks_ctr hash z s1 n (j + 1), List.range_succ_eq_map,
      List.flatMap_cons, List.flatMap_map]
    simp only [Nat.add_assoc, Nat.add_comm 1, Nat.add_zero, Nat.succ_eq_add_one]

theorem kdfBlocks_eq_kdfStream (hash : HashAlgo) (z s1 : List UInt8) (n : Nat) :
    kdfBlocks prim hash z s1 n [0, 0, 0, 1] = kdfStream prim hash z s1 n := by
  have one : ([0, 0, 0, 1] : List UInt8) = ctr 1 := rfl
  rw [one, kdfBlocks_ctr, kdfStream]
  simp only [Nat.add_comm 1]

/-- Where the blocks it counts cover the key, `concatKDF` returns its first
`kdLen` bytes of the key stream. -/
theorem concatKDF_eq_take {hash : HashAlgo} {z s1 : List UInt8} {kdLen : Nat}
    (few : ((kdLen + 7) * 8) / (hash.BlockSize * 8) ≤ 2 ^ 32 - 1)
    (covered : kdLen ≤ (((kdLen + 7) * 8) / (hash.BlockSize * 8) + 1) * hash.Size) :
    concatKDF prim hash z s1 kdLen =
      .ok ((kdfStream prim hash z s1 (((kdLen + 7) * 8) / (hash.BlockSize * 8) + 1)).take kdLen) := by
  rw [concatKDF_of_covered prim few covered, kdfBlocks_eq_kdfStream]

-- The key of ECIES_AES128_SHA256, two 16-byte keys, is the first block.
example : concatKDF pointPrimitives .sha256 [] [] 32 = .ok ((kdfStream pointPrimitives .sha256 [] [] 1).take 32) :=
  concatKDF_eq_take pointPrimitives (by decide) (by decide)

/-- One append to the empty slice gives it a capacity of the hash's size,
which is a size class. -/
theorem appendsCap_one (hash : HashAlgo) : GoSlice.appendsCap hash.Size 1 0 0 = hash.Size := by
  cases hash <;> decide

/-- A key longer than the hash's output, while the block count still reads
zero, gets one block and panics at `k[:kdLen]`: for SHA-256 the lengths 33
to 56, for SHA-384 49 to 120, for SHA-512 65 to 120. -/
theorem concatKDF_panics_past_first_block {hash : HashAlgo} {z s1 : List UInt8} {kdLen : Nat}
    (one : kdLen + 7 < hash.BlockSize) (long : hash.Size < kdLen) :
    concatKDF prim hash z s1 kdLen = .error (.panic "runtime error: slice bounds out of range") := by
  have reps : ((kdLen + 7) * 8) / (hash.BlockSize * 8) = 0 := Nat.div_eq_of_lt (by omega)
  rw [concatKDF_eq_blocks prim (by rw [reps]; decide)]
  dsimp only
  rw [reps, appendsCap_one, if_pos long]

theorem concatKDF_panics_sha256_33 :
    33 + 7 < HashAlgo.sha256.BlockSize ∧ HashAlgo.sha256.Size < 33 ∧
      concatKDF pointPrimitives .sha256 [] [] 33 = .error (.panic "runtime error: slice bounds out of range") :=
  ⟨by decide, by decide, concatKDF_panics_past_first_block pointPrimitives (by decide) (by decide)⟩

/-- With SHA-256 a key of 121 to 128 bytes gets three blocks, 96 bytes, in a
slice the third append grew to 128: `k[:kdLen]` reads zero bytes past the
blocks. -/
theorem concatKDF_sha256_zero_tail {z s1 : List UInt8} {kdLen : Nat} (long : 120 < kdLen) (short : kdLen ≤ 128) :
    concatKDF prim .sha256 z s1 kdLen = .ok (kdfStream prim .sha256 z s1 3 ++ List.replicate (kdLen - 96) 0) := by
  have reps : ((kdLen + 7) * 8) / (HashAlgo.sha256.BlockSize * 8) = 2 := by
    simp only [HashAlgo.BlockSize]
    omega
  have cap : GoSlice.appendsCap HashAlgo.sha256.Size (2 + 1) 0 0 = 128 := by decide
  have blocks : (kdfStream prim .sha256 z s1 (2 + 1)).length = 96 := by
    rw [length_kdfStream]
    rfl
  have zeros : min (kdLen - 96) (128 - (2 + 1) * HashAlgo.sha256.Size) = kdLen - 96 := by
    simp only [HashAlgo.Size]
    omega
  rw [concatKDF_eq_blocks prim (by rw [reps]; decide)]
  dsimp only
  rw [reps, cap, if_neg (by omega), kdfBlocks_eq_kdfStream, List.take_append, blocks,
    List.take_of_length_le (by rw [blocks]; omega), List.take_replicate, zeros]

theorem concatKDF_sha256_zero_tail_121 :
    120 < 121 ∧ 121 ≤ 128 ∧
      concatKDF pointPrimitives .sha256 [] [] 121 =
        .ok (kdfStream pointPrimitives .sha256 [] [] 3 ++ List.replicate 25 0) :=
  ⟨by decide, by decide, concatKDF_sha256_zero_tail pointPrimitives (by decide) (by decide)⟩

end FiscoBcos.Ecies
