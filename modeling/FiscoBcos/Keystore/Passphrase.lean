import FiscoBcos.Keystore.Kdf
import FiscoBcos.Lib.Hex
import FiscoBcos.Lib.BigEndian
import Mathlib

/-!
# Encrypting and decrypting key files

`accounts/keystore/passphrase.go`: `EncryptDataV3` and `EncryptKey`, which
write a version 3 key file, and `DecryptKey`, which reads a file of version 1
or 3, with the AES helpers of `presale.go`. The hashes, the block cipher, the
curve and the UUID codec are parameters; a key file is given as the JSON
value it parses to.

`getKDFKey` reads the KDF parameters of the file with unchecked type
assertions: a salt that is not a string panics (`getKDFKey_salt_not_string`),
before the password is used, so `DecryptKey` panics on a file that has no
salt (`DecryptKey_panics_without_salt`). What `EncryptKey` writes decrypts
to the key it was given (`DecryptKey_EncryptKey`).
-/

namespace FiscoBcos.Keystore

open GoJson

/-- The primitives that the keystore calls. -/
structure Primitives where
  /-- HMAC-SHA256 of a message under a key. -/
  hmacSHA256 : List UInt8 → List UInt8 → { d : List UInt8 // d.length = 32 }
  /-- scrypt's `smix` of one block, for `r` and `N`. -/
  smix : List UInt8 → Int → Int → List UInt8
  Keccak256 : List UInt8 → { d : List UInt8 // d.length = 32 }
  /-- The key stream of AES-128 in CTR mode under a key and an IV, by position. -/
  ctrKeyStream : List UInt8 → List UInt8 → Nat → UInt8
  /-- AES decryption of one block under a key. -/
  decryptBlock : List UInt8 → List UInt8 → { d : List UInt8 // d.length = 16 }
  /-- secp256k1's `ScalarBaseMult`, with its own panics. -/
  ScalarBaseMult : List UInt8 → Except KeystoreError (Nat × Nat)
  /-- `uuid.Parse`. -/
  uuidParse : String → List UInt8
  /-- `UUID.String`. -/
  uuidString : List UInt8 → String

variable (prim : Primitives)

/-- HMAC-SHA256 as the PRF of `pbkdf2.Key`. -/
def Primitives.prf (key msg : List UInt8) : List UInt8 := (prim.hmacSHA256 key msg).1

def keyHeaderKDF : String := "scrypt"

def version : Int := 3

def scryptR : Int := 8

def scryptDKLen : Int := 32

/-- `ErrDecrypt`. -/
def ErrDecrypt : KeystoreError := .err "could not decrypt key with given passphrase"

/-- The panic of a nil pointer dereference. -/
def nilDereference : KeystoreError := .panic "runtime error: invalid memory address or nil pointer dereference"

/-- The order of secp256k1, `secp256k1N` of `crypto.go`. -/
def secp256k1N : Nat := 0xfffffffffffffffffffffffffffffffebaaedce6af48a03bbfd25e8cd0364141

/-! ## Reading the parameters -/

/-- The assertion `x.(string)`. -/
def assertString (x : Any) : Except KeystoreError String :=
  match x with
  | .json (.string s) => .ok s
  | _ => .error (.panic (typeAssertionError x "string"))

/-- `ensureInt`: `x.(int)`, or else `int(x.(float64))`, which truncates. -/
def ensureInt (x : Any) : Except KeystoreError Int :=
  match x with
  | .int n => .ok n
  | .json (.number f) => .ok (f.num.tdiv f.den)
  | _ => .error (.panic (typeAssertionError x "float64"))

/-- `hex.DecodeString`, whose error is returned. -/
def decodeHex (s : String) : Except KeystoreError (List UInt8) := (Hex.DecodeString s).mapError .err

/-- `getKDFKey`. -/
def getKDFKey (cryptoJSON : CryptoJSON) (auth : List UInt8) : Except KeystoreError Slice := do
  let salt ← decodeHex (← assertString (cryptoJSON.KDFParams.index "salt"))
  let dkLen ← ensureInt (cryptoJSON.KDFParams.index "dklen")
  if cryptoJSON.KDF = keyHeaderKDF then
    let n ← ensureInt (cryptoJSON.KDFParams.index "n")
    let r ← ensureInt (cryptoJSON.KDFParams.index "r")
    let p ← ensureInt (cryptoJSON.KDFParams.index "p")
    scryptKey prim.prf prim.smix auth salt n r p dkLen
  else if cryptoJSON.KDF = "pbkdf2" then
    let c ← ensureInt (cryptoJSON.KDFParams.index "c")
    let prf ← assertString (cryptoJSON.KDFParams.index "prf")
    if prf ≠ "hmac-sha256" then throw (.err ("Unsupported PBKDF2 PRF: " ++ prf))
    pbkdf2Key prim.prf auth salt c dkLen
  else throw (.err ("Unsupported KDF: " ++ cryptoJSON.KDF))

/-! ## AES, from presale.go -/

/-- `aes.NewCipher`, which takes keys of 16, 24 and 32 bytes. -/
def NewCipher (key : List UInt8) : Except KeystoreError Unit :=
  if key.length = 16 ∨ key.length = 24 ∨ key.length = 32 then .ok ()
  else .error (.err ("crypto/aes: invalid key size " ++ toString key.length))

/-- `aesCTRXOR`. `cipher.NewCTR` panics on an IV that is not one block. -/
def aesCTRXOR (key inText iv : List UInt8) : Except KeystoreError (List UInt8) := do
  NewCipher key
  if iv.length ≠ 16 then throw (.panic "cipher.NewCTR: IV length must equal block size")
  return inText.mapIdx fun i b => b ^^^ prim.ctrKeyStream key iv i

/-- CBC decryption of the blocks after `prev`. -/
def cbcDecrypt (key : List UInt8) : List UInt8 → List (List UInt8) → List UInt8
  | _, [] => []
  | prev, c :: rest => List.zipWith (· ^^^ ·) (prim.decryptBlock key c).1 prev ++ cbcDecrypt key c rest

/-- `pkcs7Unpad`; `none` is its `nil`. -/
def pkcs7Unpad (input : List UInt8) : Option (List UInt8) :=
  match input.getLast? with
  | none => none
  | some padding =>
    if padding.toNat > input.length ∨ padding > 16 then none
    else if padding = 0 then none
    else if (input.drop (input.length - padding.toNat)).all (· = padding) then
      some (input.take (input.length - padding.toNat))
    else none

/-- `aesCBCDecrypt`. `cipher.NewCBCDecrypter` panics on an IV that is not one
block, and `CryptBlocks` on a ciphertext that is not whole blocks. -/
def aesCBCDecrypt (key cipherText iv : List UInt8) : Except KeystoreError (List UInt8) := do
  NewCipher key
  if iv.length ≠ 16 then throw (.panic "cipher.NewCBCDecrypter: IV length must equal block size")
  if cipherText.length % 16 ≠ 0 then throw (.panic "crypto/cipher: input not full blocks")
  match pkcs7Unpad (cbcDecrypt prim key iv (cipherText.toChunks 16)) with
  | none => throw ErrDecrypt
  | some plaintext => return plaintext

/-! ## Decrypting -/

/-- `DecryptDataV3`. -/
def DecryptDataV3 (cryptoJson : CryptoJSON) (auth : List UInt8) : Except KeystoreError (List UInt8) := do
  if cryptoJson.Cipher ≠ "aes-128-ctr" then throw (.err ("Cipher not supported: " ++ cryptoJson.Cipher))
  let mac ← decodeHex cryptoJson.MAC
  let iv ← decodeHex cryptoJson.CipherParams.IV
  let cipherText ← decodeHex cryptoJson.CipherText
  let derivedKey ← getKDFKey prim cryptoJson auth
  let calculatedMAC := (prim.Keccak256 ((← derivedKey.slice 16 32) ++ cipherText)).1
  if calculatedMAC ≠ mac then throw ErrDecrypt
  aesCTRXOR prim (← derivedKey.slice 0 16) cipherText iv

/-- `decryptKeyV3`: the plaintext and the key id. -/
def decryptKeyV3 (keyProtected : encryptedKeyJSONV3) (auth : List UInt8) :
    Except KeystoreError (List UInt8 × List UInt8) := do
  if keyProtected.Version ≠ version then throw (.err ("Version not supported: " ++ toString keyProtected.Version))
  let keyId := prim.uuidParse keyProtected.Id
  let plainText ← DecryptDataV3 prim keyProtected.Crypto auth
  return (plainText, keyId)

/-- `decryptKeyV1`, which does not read the cipher's name. -/
def decryptKeyV1 (keyProtected : encryptedKeyJSONV1) (auth : List UInt8) :
    Except KeystoreError (List UInt8 × List UInt8) := do
  let keyId := prim.uuidParse keyProtected.Id
  let mac ← decodeHex keyProtected.Crypto.MAC
  let iv ← decodeHex keyProtected.Crypto.CipherParams.IV
  let cipherText ← decodeHex keyProtected.Crypto.CipherText
  let derivedKey ← getKDFKey prim keyProtected.Crypto auth
  let calculatedMAC := (prim.Keccak256 ((← derivedKey.slice 16 32) ++ cipherText)).1
  if calculatedMAC ≠ mac then throw ErrDecrypt
  let plainText ← aesCBCDecrypt prim ((prim.Keccak256 (← derivedKey.slice 0 16)).1.take 16) cipherText iv
  return (plainText, keyId)

/-- The private key of `ecdsa.PrivateKey`, with its public point. -/
structure PrivateKey where
  D : Nat
  X : Nat
  Y : Nat

/-- `toECDSA(d, false)`, which `ToECDSAUnsafe` calls: `none` is its `nil`, for
a scalar of zero or at least the order. -/
def toECDSA (d : List UInt8) : Except KeystoreError (Option PrivateKey) := do
  let D := BigEndian.value d
  if secp256k1N ≤ D then return none
  if D = 0 then return none
  let (X, Y) ← prim.ScalarBaseMult d
  return some ⟨D, X, Y⟩

/-- `PubkeyToAddress`: the last 20 bytes of the hash of the point, each
coordinate in 32 bytes. -/
def PubkeyToAddress (X Y : Nat) : List UInt8 :=
  (prim.Keccak256 (BigEndian.leftPad 32 (BigEndian.bytes X) ++ BigEndian.leftPad 32 (BigEndian.bytes Y))).1.drop 12

/-- `Key`. -/
structure Key where
  Id : List UInt8
  Address : List UInt8
  PrivateKey : PrivateKey

/-- The last lines of `DecryptKey`: the `Key` of the plaintext, whose
address reads the public key, a nil dereference when `ToECDSAUnsafe` gave
`nil`. -/
def newKey (keyBytes keyId : List UInt8) : Except KeystoreError Key := do
  match ← toECDSA prim keyBytes with
  | none => throw nilDereference
  | some key => return ⟨keyId, PubkeyToAddress prim key.X key.Y, key⟩

/-- `DecryptKey(keyjson, auth)`: a file whose `version` is the string "1" is
read as version 1, any other as version 3. -/
def DecryptKey (keyjson : Json) (auth : List UInt8) : Except KeystoreError Key := do
  let m ← (unmarshalMap keyjson).mapError .err
  let (keyBytes, keyId) ← match m.index "version" with
    | .json (.string "1") => do
      let k ← (unmarshalV1 keyjson).mapError .err
      decryptKeyV1 prim k auth
    | _ => do
      let k ← (unmarshalV3 keyjson).mapError .err
      decryptKeyV3 prim k auth
  newKey prim keyBytes keyId

/-! ## Encrypting -/

/-- `math.PaddedBigBytes`. -/
def PaddedBigBytes (n : Nat) (width : Nat) : List UInt8 := BigEndian.leftPad width (BigEndian.bytes n)

/-- The map of scrypt parameters that `EncryptDataV3` stores, `int`s and the
salt in hex. -/
def scryptParamsJSON (scryptN scryptP : Int) (salt : List UInt8) : Map :=
  ((((((∅ : Map).insert "n" (.int scryptN)).insert "r" (.int scryptR)).insert "p" (.int scryptP)).insert
    "dklen" (.int scryptDKLen)).insert "salt" (.json (.string (Hex.EncodeToString salt))))

/-- `EncryptDataV3(data, auth, scryptN, scryptP)`; `salt` and `iv` are the 32
and 16 bytes it reads from `rand.Reader`. -/
def EncryptDataV3 (data auth : List UInt8) (scryptN scryptP : Int) (salt iv : List UInt8) :
    Except KeystoreError CryptoJSON := do
  let derivedKey ← scryptKey prim.prf prim.smix auth salt scryptN scryptR scryptP scryptDKLen
  let encryptKey ← derivedKey.slice 0 16
  let cipherText ← aesCTRXOR prim encryptKey data iv
  let mac := (prim.Keccak256 ((← derivedKey.slice 16 32) ++ cipherText)).1
  return { Cipher := "aes-128-ctr", CipherText := Hex.EncodeToString cipherText,
           CipherParams := ⟨Hex.EncodeToString iv⟩, KDF := keyHeaderKDF,
           KDFParams := scryptParamsJSON scryptN scryptP salt, MAC := Hex.EncodeToString mac }

/-- `EncryptKey(key, auth, scryptN, scryptP)`: the file it marshals. -/
def EncryptKey (key : Key) (auth : List UInt8) (scryptN scryptP : Int) (salt iv : List UInt8) :
    Except KeystoreError Json := do
  let keyBytes := PaddedBigBytes key.PrivateKey.D 32
  let cryptoStruct ← EncryptDataV3 prim keyBytes auth scryptN scryptP salt iv
  return encryptedKeyJSONV3.toJson
    { Address := Hex.EncodeToString key.Address, Crypto := cryptoStruct, Id := prim.uuidString key.Id,
      Version := version }

/-! ## A file without a salt -/

/-- A salt that is not a string panics at its assertion, whatever the
password. -/
theorem getKDFKey_salt_not_string {cryptoJSON : CryptoJSON} (auth : List UInt8)
    (notString : ∀ s, cryptoJSON.KDFParams.index "salt" ≠ .json (.string s)) :
    getKDFKey prim cryptoJSON auth =
      .error (.panic (typeAssertionError (cryptoJSON.KDFParams.index "salt") "string")) := by
  have assertion : assertString (cryptoJSON.KDFParams.index "salt") =
      .error (.panic (typeAssertionError (cryptoJSON.KDFParams.index "salt") "string")) := by
    unfold assertString
    split
    · exact absurd ‹_› (notString _)
    · rfl
  simp [getKDFKey, assertion]

/-- Past the cipher's name and the three hex fields, `DecryptDataV3` fails as
`getKDFKey` fails. -/
theorem DecryptDataV3_of_getKDFKey_error {cryptoJson : CryptoJSON} {auth : List UInt8} {e : KeystoreError}
    (cipher : cryptoJson.Cipher = "aes-128-ctr")
    (hex : ∃ mac iv cipherText, decodeHex cryptoJson.MAC = .ok mac ∧
      decodeHex cryptoJson.CipherParams.IV = .ok iv ∧ decodeHex cryptoJson.CipherText = .ok cipherText)
    (kdf : getKDFKey prim cryptoJson auth = .error e) :
    DecryptDataV3 prim cryptoJson auth = .error e := by
  obtain ⟨mac, iv, cipherText, hmac, hiv, hct⟩ := hex
  simp [DecryptDataV3, cipher, hmac, hiv, hct, kdf]

/-- The map of a version 3 file reads its `version` as a number. -/
theorem index_version_toJson (k : encryptedKeyJSONV3) :
    (insertMembers ∅ [("address", .string k.Address), ("crypto", k.Crypto.toJson), ("id", .string k.Id),
      ("version", .number k.Version)]).index "version" = .json (.number k.Version) := by
  simp [insertMembers, Map.index]

/-- A file that `json.Marshal` wrote of a version 3 structure is decrypted as
that structure, its KDF parameters read back. -/
theorem DecryptKey_toJson (k : encryptedKeyJSONV3) (auth : List UInt8)
    (range : -2 ^ 63 ≤ k.Version ∧ k.Version < 2 ^ 63) :
    DecryptKey prim k.toJson auth = (decryptKeyV3 prim k.readBack auth).bind fun r => newKey prim r.1 r.2 := by
  rw [DecryptKey, encryptedKeyJSONV3.toJson, unmarshalMap_object]
  simp only [Except.bind_eq_bind, Except.mapError_ok_eq, Except.bind_ok_eq, index_version_toJson]
  rw [← encryptedKeyJSONV3.toJson, unmarshalV3_toJson k range]
  simp only [Except.mapError_ok_eq, Except.bind_ok_eq]

/-- A version 3 file whose KDF parameters have no salt panics in
`DecryptKey` with every password, once its cipher is AES-128-CTR and its hex
fields decode: the assertion `KDFParams["salt"].(string)` meets `nil`. -/
theorem DecryptKey_panics_without_salt (k : encryptedKeyJSONV3) (auth : List UInt8)
    (v3 : k.Version = version) (cipher : k.Crypto.Cipher = "aes-128-ctr")
    (hex : ∃ mac iv cipherText, decodeHex k.Crypto.MAC = .ok mac ∧
      decodeHex k.Crypto.CipherParams.IV = .ok iv ∧ decodeHex k.Crypto.CipherText = .ok cipherText)
    (noSalt : k.Crypto.KDFParams.lookup "salt" = none) :
    DecryptKey prim k.toJson auth = .error (.panic "interface conversion: interface {} is nil, not string") := by
  have range : -2 ^ 63 ≤ k.Version ∧ k.Version < 2 ^ 63 := by
    rw [v3, version]
    decide
  have salt : k.Crypto.readBack.KDFParams.index "salt" = .nil := by
    simp [Map.index, lookup_readBackParams, noSalt]
  have kdf : getKDFKey prim k.Crypto.readBack auth = .error (.panic (typeAssertionError Any.nil "string")) := by
    rw [← salt]
    exact getKDFKey_salt_not_string prim auth (by rw [salt]; intro s h; cases h)
  have data : DecryptDataV3 prim k.Crypto.readBack auth = .error (.panic (typeAssertionError Any.nil "string")) :=
    DecryptDataV3_of_getKDFKey_error prim cipher hex kdf
  rw [DecryptKey_toJson prim k auth range]
  simp [decryptKeyV3, v3, data]
  rfl

/-- Primitives that return constants, for the witnesses. -/
def constPrimitives : Primitives where
  hmacSHA256 _ _ := ⟨List.replicate 32 0, List.length_replicate⟩
  smix block _ _ := block
  Keccak256 _ := ⟨List.replicate 32 0, List.length_replicate⟩
  ctrKeyStream _ _ _ := 0
  decryptBlock _ _ := ⟨List.replicate 16 0, List.length_replicate⟩
  ScalarBaseMult _ := .ok (1, 1)
  uuidParse _ := []
  uuidString _ := ""

/-- The file `{"address":"","crypto":{"cipher":"aes-128-ctr","ciphertext":"",
"cipherparams":{"iv":""},"kdf":"","kdfparams":{},"mac":""},"id":"","version":3}`,
with the empty password. -/
theorem DecryptKey_panics_without_salt_file :
    DecryptKey constPrimitives ({ Crypto := { Cipher := "aes-128-ctr" }, Version := 3 } : encryptedKeyJSONV3).toJson [] =
      .error (.panic "interface conversion: interface {} is nil, not string") :=
  DecryptKey_panics_without_salt constPrimitives _ [] rfl rfl ⟨[], [], [], rfl, rfl, rfl⟩ rfl

/-! ## What EncryptKey writes, DecryptKey reads -/

theorem aesCTRXOR_eq_ok {key m iv out : List UInt8} :
    aesCTRXOR prim key m iv = .ok out ↔
      NewCipher key = .ok () ∧ iv.length = 16 ∧ out = m.mapIdx fun i b => b ^^^ prim.ctrKeyStream key iv i := by
  unfold aesCTRXOR
  cases h : NewCipher key with
  | error e => simp
  | ok u =>
    by_cases iv16 : iv.length = 16
    · simp [iv16, eq_comm]
    · simp [iv16]
      exact nofun

theorem ensureInt_intCast (n : Int) : ensureInt (.json (.number n)) = .ok n := by
  simp [ensureInt]

/-- The parameters that `EncryptDataV3` stored, read back from the file, give
`getKDFKey` the scrypt call that derived the key. -/
theorem getKDFKey_readBack_scryptParamsJSON (c : CryptoJSON) (auth : List UInt8) (scryptN scryptP : Int)
    (salt : List UInt8) (scrypt : c.KDF = keyHeaderKDF) (params : c.KDFParams = scryptParamsJSON scryptN scryptP salt) :
    getKDFKey prim c.readBack auth = scryptKey prim.prf prim.smix auth salt scryptN scryptR scryptP scryptDKLen := by
  simp [-AList.insert_empty, getKDFKey, scrypt, params, Map.index, lookup_readBackParams, scryptParamsJSON,
    assertString, decodeHex, ensureInt_intCast]

/-- What a successful `EncryptDataV3` did: the scrypt key, its two halves,
and the ciphertext under the first. -/
theorem EncryptDataV3_eq_ok {data auth salt iv : List UInt8} {scryptN scryptP : Int} {c : CryptoJSON}
    (h : EncryptDataV3 prim data auth scryptN scryptP salt iv = .ok c) :
    ∃ derivedKey encryptKey macKey,
      scryptKey prim.prf prim.smix auth salt scryptN scryptR scryptP scryptDKLen = .ok derivedKey ∧
      derivedKey.slice 0 16 = .ok encryptKey ∧ derivedKey.slice 16 32 = .ok macKey ∧
      NewCipher encryptKey = .ok () ∧ iv.length = 16 ∧
      c = { Cipher := "aes-128-ctr",
            CipherText := Hex.EncodeToString (data.mapIdx fun i b => b ^^^ prim.ctrKeyStream encryptKey iv i),
            CipherParams := ⟨Hex.EncodeToString iv⟩, KDF := keyHeaderKDF,
            KDFParams := scryptParamsJSON scryptN scryptP salt,
            MAC := Hex.EncodeToString
              (prim.Keccak256 (macKey ++ data.mapIdx fun i b => b ^^^ prim.ctrKeyStream encryptKey iv i)).1 } := by
  simp only [EncryptDataV3, Except.bind_eq_bind, Except.bind_eq_ok_iff, Except.pure_eq_ok] at h
  obtain ⟨derivedKey, kdf, encryptKey, low, cipherText, ctr, macKey, high, done⟩ := h
  obtain ⟨cipher, iv16, rfl⟩ := (aesCTRXOR_eq_ok prim).mp ctr
  exact ⟨derivedKey, encryptKey, macKey, kdf, low, high, cipher, iv16, (Except.ok.inj done).symm⟩

/-- `DecryptDataV3` takes back what `EncryptDataV3` wrote, read back from its
file. -/
theorem DecryptDataV3_readBack {data auth salt iv : List UInt8} {scryptN scryptP : Int} {c : CryptoJSON}
    (h : EncryptDataV3 prim data auth scryptN scryptP salt iv = .ok c) :
    DecryptDataV3 prim c.readBack auth = .ok data := by
  obtain ⟨derivedKey, encryptKey, macKey, kdf, low, high, cipher, iv16, hc⟩ := EncryptDataV3_eq_ok prim h
  have derive := getKDFKey_readBack_scryptParamsJSON prim c auth scryptN scryptP salt (by rw [hc]) (by rw [hc])
  have decrypt : aesCTRXOR prim encryptKey
      (data.mapIdx fun i b => b ^^^ prim.ctrKeyStream encryptKey iv i) iv = .ok data :=
    (aesCTRXOR_eq_ok prim).mpr ⟨cipher, iv16, (KeyStream.mapIdx_xor_mapIdx_xor _ data).symm⟩
  subst hc
  simp [DecryptDataV3, decodeHex, derive, kdf, high, low, decrypt]

/-- The key of a plaintext whose value is a scalar of the curve. -/
theorem newKey_of_scalar {keyBytes keyId : List UInt8} {D X Y : Nat} (value : BigEndian.value keyBytes = D)
    (scalar : 0 < D ∧ D < secp256k1N) (pair : prim.ScalarBaseMult keyBytes = .ok (X, Y)) :
    newKey prim keyBytes keyId = .ok ⟨keyId, PubkeyToAddress prim X Y, ⟨D, X, Y⟩⟩ := by
  have lt : ¬secp256k1N ≤ D := by omega
  have pos : D ≠ 0 := by omega
  simp [newKey, toECDSA, value, lt, pos, pair]

/-- A key file that `EncryptKey` wrote decrypts, with the same password, to
the key it was given: for a key whose scalar is on the curve, whose address
is that of its public key, and whose id reads back from its text. -/
theorem DecryptKey_EncryptKey {key : Key} {auth salt iv : List UInt8} {scryptN scryptP : Int} {keyjson : Json}
    (written : EncryptKey prim key auth scryptN scryptP salt iv = .ok keyjson)
    (scalar : 0 < key.PrivateKey.D ∧ key.PrivateKey.D < secp256k1N)
    (pair : prim.ScalarBaseMult (PaddedBigBytes key.PrivateKey.D 32) = .ok (key.PrivateKey.X, key.PrivateKey.Y))
    (address : key.Address = PubkeyToAddress prim key.PrivateKey.X key.PrivateKey.Y)
    (id : prim.uuidParse (prim.uuidString key.Id) = key.Id) :
    DecryptKey prim keyjson auth = .ok key := by
  simp only [EncryptKey, Except.bind_eq_bind, Except.bind_eq_ok_iff, Except.pure_eq_ok] at written
  obtain ⟨c, encrypted, done⟩ := written
  cases Except.ok.inj done
  have range : -2 ^ 63 ≤ version ∧ version < 2 ^ 63 := by decide
  have key' : newKey prim (PaddedBigBytes key.PrivateKey.D 32) key.Id = .ok key := by
    have value : BigEndian.value (PaddedBigBytes key.PrivateKey.D 32) = key.PrivateKey.D := by
      rw [PaddedBigBytes, BigEndian.value_leftPad, BigEndian.value_bytes]
    rw [newKey_of_scalar prim value scalar pair, ← address]
  rw [DecryptKey_toJson prim _ auth range]
  simp [decryptKeyV3, encryptedKeyJSONV3.readBack, DecryptDataV3_readBack prim encrypted, id, key']

/-- `EncryptKey` succeeds on an IV of one block and scrypt parameters that
pass `scrypt.Key`'s checks at `r = 8`. -/
theorem EncryptKey_ok (key : Key) (auth salt iv : List UInt8) (scryptN scryptP : Int)
    (iv16 : iv.length = 16) (hN : 1 < scryptN) (power : scryptN.toNat &&& (scryptN.toNat - 1) = 0)
    (hp : 0 < scryptP) (small : scryptR * scryptP < 2 ^ 30) (bound_p : scryptR ≤ (maxInt.tdiv 128).tdiv scryptP)
    (bound_N : scryptN ≤ (maxInt.tdiv 128).tdiv scryptR) :
    ∃ keyjson, EncryptKey prim key auth scryptN scryptP salt iv = .ok keyjson := by
  obtain ⟨derivedKey, derived, -, room⟩ := @scryptKey_eq_ok prim.prf (fun k m => (prim.hmacSHA256 k m).2)
    prim.smix auth salt scryptN scryptR scryptP scryptDKLen hN power (by decide) hp small bound_p (by decide)
    bound_N (by decide)
  have full : 32 ≤ derivedKey.buf.length := by
    rw [room]
    decide
  have low : derivedKey.slice 0 16 = .ok ((derivedKey.buf.take 16).drop 0) :=
    Slice.slice_of_room (by decide) (by omega)
  have key16 : ((derivedKey.buf.take 16).drop 0).length = 16 := by
    simp only [List.drop_zero, List.length_take]
    omega
  have ctr := (aesCTRXOR_eq_ok prim (m := PaddedBigBytes key.PrivateKey.D 32)).mpr
    ⟨by rw [NewCipher, if_pos (.inl key16)], iv16, rfl⟩
  simp only [EncryptKey, EncryptDataV3, Except.bind_eq_bind, derived, Except.bind_ok_eq, low, ctr,
    Slice.slice_of_room (by decide : 16 ≤ 32) full, Except.pure_eq_ok]
  exact ⟨_, rfl⟩

/-- A key of scalar 1 under the constant primitives, written with `N = 2` and
`p = 1`, reads back. -/
example : ∃ keyjson, EncryptKey constPrimitives
      ⟨[], PubkeyToAddress constPrimitives 1 1, ⟨1, 1, 1⟩⟩ [] 2 1 (List.replicate 32 0) (List.replicate 16 0) =
        .ok keyjson ∧
      DecryptKey constPrimitives keyjson [] = .ok ⟨[], PubkeyToAddress constPrimitives 1 1, ⟨1, 1, 1⟩⟩ := by
  obtain ⟨keyjson, written⟩ := EncryptKey_ok constPrimitives ⟨[], PubkeyToAddress constPrimitives 1 1, ⟨1, 1, 1⟩⟩
    [] (List.replicate 32 0) (List.replicate 16 0) 2 1 List.length_replicate (by decide) (by decide) (by decide)
    (by decide) (by decide) (by decide)
  exact ⟨keyjson, written, DecryptKey_EncryptKey constPrimitives written (by decide) rfl rfl rfl⟩

end FiscoBcos.Keystore
