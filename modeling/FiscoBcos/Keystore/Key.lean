import FiscoBcos.Lib.Json
import FiscoBcos.Lib.Except
import Mathlib

/-!
# Key files

The structures of `accounts/keystore/key.go` that a key file is read into,
how `json.Unmarshal` fills them from the decoded file, and what
`json.Marshal` writes for them.

A version 3 file written by `json.Marshal` reads back as the structure it
was written from, except that the `int`s of its KDF parameters read back as
numbers (`unmarshalV3_toJson`).
-/

namespace FiscoBcos.Keystore

open GoJson

/-- What a keystore function gives instead of a value: an error it returns,
or a Go panic. -/
inductive KeystoreError where
  | err (msg : String)
  | panic (msg : String)
deriving DecidableEq, Repr

/-- `cipherparamsJSON`. Fields default to Go's zero values. -/
structure cipherparamsJSON where
  IV : String := ""

/-- `CryptoJSON`. -/
structure CryptoJSON where
  Cipher : String := ""
  CipherText : String := ""
  CipherParams : cipherparamsJSON := {}
  KDF : String := ""
  KDFParams : Map := ∅
  MAC : String := ""

/-- `encryptedKeyJSONV3`. -/
structure encryptedKeyJSONV3 where
  Address : String := ""
  Crypto : CryptoJSON := {}
  Id : String := ""
  Version : Int := 0

/-- `encryptedKeyJSONV1`, whose version is a string. -/
structure encryptedKeyJSONV1 where
  Address : String := ""
  Crypto : CryptoJSON := {}
  Id : String := ""
  Version : String := ""

/-! ## Unmarshal -/

/-- The field of `cipherparamsJSON` that a key names. -/
def cipherparamsJSON.setter : String → Option (cipherparamsJSON → Json → Except String cipherparamsJSON)
  | "iv" => some fun p v =>
    (fun s => { p with IV := s }) <$> decodeString (fieldError "cipherparamsJSON" "iv" "string") p.IV v
  | _ => none

/-- The field of `CryptoJSON` that a key names. -/
def CryptoJSON.setter : String → Option (CryptoJSON → Json → Except String CryptoJSON)
  | "cipher" => some fun c v =>
    (fun s => { c with Cipher := s }) <$> decodeString (fieldError "CryptoJSON" "cipher" "string") c.Cipher v
  | "ciphertext" => some fun c v =>
    (fun s => { c with CipherText := s }) <$>
      decodeString (fieldError "CryptoJSON" "ciphertext" "string") c.CipherText v
  | "cipherparams" => some fun c v =>
    (fun p => { c with CipherParams := p }) <$>
      decodeStruct cipherparamsJSON.setter
        (fieldError "CryptoJSON" "cipherparams" "keystore.cipherparamsJSON") c.CipherParams v
  | "kdf" => some fun c v =>
    (fun s => { c with KDF := s }) <$> decodeString (fieldError "CryptoJSON" "kdf" "string") c.KDF v
  | "kdfparams" => some fun c v =>
    (fun m => { c with KDFParams := m }) <$>
      decodeMap (fieldError "CryptoJSON" "kdfparams" "map[string]interface {}") c.KDFParams v
  | "mac" => some fun c v =>
    (fun s => { c with MAC := s }) <$> decodeString (fieldError "CryptoJSON" "mac" "string") c.MAC v
  | _ => none

/-- Decoding the `crypto` member of a key file. -/
def decodeCrypto (struct : String) (c : CryptoJSON) (v : Json) : Except String CryptoJSON :=
  decodeStruct CryptoJSON.setter (fieldError struct "crypto" "keystore.CryptoJSON") c v

/-- The field of `encryptedKeyJSONV3` that a key names. -/
def encryptedKeyJSONV3.setter : String → Option (encryptedKeyJSONV3 → Json → Except String encryptedKeyJSONV3)
  | "address" => some fun k v =>
    (fun s => { k with Address := s }) <$>
      decodeString (fieldError "encryptedKeyJSONV3" "address" "string") k.Address v
  | "crypto" => some fun k v => (fun c => { k with Crypto := c }) <$> decodeCrypto "encryptedKeyJSONV3" k.Crypto v
  | "id" => some fun k v =>
    (fun s => { k with Id := s }) <$> decodeString (fieldError "encryptedKeyJSONV3" "id" "string") k.Id v
  | "version" => some fun k v =>
    (fun n => { k with Version := n }) <$> decodeInt (fieldError "encryptedKeyJSONV3" "version" "int") k.Version v
  | _ => none

/-- The field of `encryptedKeyJSONV1` that a key names. -/
def encryptedKeyJSONV1.setter : String → Option (encryptedKeyJSONV1 → Json → Except String encryptedKeyJSONV1)
  | "address" => some fun k v =>
    (fun s => { k with Address := s }) <$>
      decodeString (fieldError "encryptedKeyJSONV1" "address" "string") k.Address v
  | "crypto" => some fun k v => (fun c => { k with Crypto := c }) <$> decodeCrypto "encryptedKeyJSONV1" k.Crypto v
  | "id" => some fun k v =>
    (fun s => { k with Id := s }) <$> decodeString (fieldError "encryptedKeyJSONV1" "id" "string") k.Id v
  | "version" => some fun k v =>
    (fun s => { k with Version := s }) <$>
      decodeString (fieldError "encryptedKeyJSONV1" "version" "string") k.Version v
  | _ => none

/-- `json.Unmarshal(keyjson, &m)` into the map of `DecryptKey`. -/
def unmarshalMap (keyjson : Json) : Except String Map :=
  decodeMap (valueError "map[string]interface {}") ∅ keyjson

/-- `json.Unmarshal(keyjson, k)` into a new `encryptedKeyJSONV3`. -/
def unmarshalV3 (keyjson : Json) : Except String encryptedKeyJSONV3 :=
  decodeStruct encryptedKeyJSONV3.setter (valueError "keystore.encryptedKeyJSONV3") {} keyjson

/-- `json.Unmarshal(keyjson, k)` into a new `encryptedKeyJSONV1`. -/
def unmarshalV1 (keyjson : Json) : Except String encryptedKeyJSONV1 :=
  decodeStruct encryptedKeyJSONV1.setter (valueError "keystore.encryptedKeyJSONV1") {} keyjson

/-! ## Marshal -/

/-- `json.Marshal` of a `cipherparamsJSON`. -/
def cipherparamsJSON.toJson (p : cipherparamsJSON) : Json := .object [("iv", .string p.IV)]

/-- `json.Marshal` of a `CryptoJSON`, its members in the order of its fields. -/
def CryptoJSON.toJson (c : CryptoJSON) : Json :=
  .object [("cipher", .string c.Cipher), ("ciphertext", .string c.CipherText),
    ("cipherparams", c.CipherParams.toJson), ("kdf", .string c.KDF), ("kdfparams", marshalMap c.KDFParams),
    ("mac", .string c.MAC)]

/-- `json.Marshal` of an `encryptedKeyJSONV3`. -/
def encryptedKeyJSONV3.toJson (k : encryptedKeyJSONV3) : Json :=
  .object [("address", .string k.Address), ("crypto", k.Crypto.toJson), ("id", .string k.Id),
    ("version", .number k.Version)]

/-- The map that the KDF parameters read back as. -/
def readBackParams (m : Map) : Map := insertMembers ∅ (m.entries.map fun e => (e.1, e.2.toJson))

/-- What a `CryptoJSON` reads back as: its KDF parameters read back. -/
def CryptoJSON.readBack (c : CryptoJSON) : CryptoJSON := { c with KDFParams := readBackParams c.KDFParams }

/-- What an `encryptedKeyJSONV3` reads back as. -/
def encryptedKeyJSONV3.readBack (k : encryptedKeyJSONV3) : encryptedKeyJSONV3 :=
  { k with Crypto := k.Crypto.readBack }

section ReadBack

variable (c : CryptoJSON) (k : encryptedKeyJSONV3)

@[simp] theorem CryptoJSON.readBack_Cipher : c.readBack.Cipher = c.Cipher := rfl
@[simp] theorem CryptoJSON.readBack_CipherText : c.readBack.CipherText = c.CipherText := rfl
@[simp] theorem CryptoJSON.readBack_CipherParams : c.readBack.CipherParams = c.CipherParams := rfl
@[simp] theorem CryptoJSON.readBack_KDF : c.readBack.KDF = c.KDF := rfl
@[simp] theorem CryptoJSON.readBack_KDFParams : c.readBack.KDFParams = readBackParams c.KDFParams := rfl
@[simp] theorem CryptoJSON.readBack_MAC : c.readBack.MAC = c.MAC := rfl
@[simp] theorem encryptedKeyJSONV3.readBack_Crypto : k.readBack.Crypto = k.Crypto.readBack := rfl
@[simp] theorem encryptedKeyJSONV3.readBack_Id : k.readBack.Id = k.Id := rfl
@[simp] theorem encryptedKeyJSONV3.readBack_Version : k.readBack.Version = k.Version := rfl

end ReadBack

/-- What the KDF parameters read back as, key by key. -/
theorem lookup_readBackParams (m : Map) (key : String) :
    (readBackParams m).lookup key = (m.lookup key).map fun v => .json v.toJson :=
  lookup_insertMembers_marshal m key

/-- A version 3 structure that `json.Marshal` wrote reads back. -/
theorem unmarshalV3_toJson (k : encryptedKeyJSONV3) (range : -2 ^ 63 ≤ k.Version ∧ k.Version < 2 ^ 63) :
    unmarshalV3 k.toJson = .ok k.readBack := by
  simp [unmarshalV3, decodeStruct, decodeMembers, encryptedKeyJSONV3.setter, decodeCrypto,
    encryptedKeyJSONV3.toJson, CryptoJSON.toJson, CryptoJSON.setter, cipherparamsJSON.toJson,
    cipherparamsJSON.setter, decodeString, marshalMap, decodeMap, readBackParams, decodeInt_intCast _ _ _ range,
    encryptedKeyJSONV3.readBack, CryptoJSON.readBack]

/-- `unmarshalMap` reads the members of a key file. -/
theorem unmarshalMap_object (members : List (String × Json)) :
    unmarshalMap (.object members) = .ok (insertMembers ∅ members) := rfl

end FiscoBcos.Keystore
