import FiscoBcos.Trie.Hasher
import Mathlib

/-!
# State objects

`core/state/state_object.go`: an account as the state holds it while
transactions run. The object keeps the account's consensus data, its storage
trie as it was committed, the storage slots written since (`dirtyStorage`),
the code once it is loaded or set, and the `suicided` and `deleted` flags.

Objects are values here. Go mutates a `*stateObject` that sits in the live map
of its `StateDB`; the model writes the changed object back into that map
(`StateDB.setStateObject`), which is what the mutation does, since a live
object is reachable from its address only. The setters of this module are the
unjournaled ones (`setBalance`, `setNonce`, `setCode`, `setState`); the
journaled ones append to the `StateDB`'s journal and are in `State.StateDB`.

Left out: `addrHash`, which the caching database does not read; the
`originStorage` cache, which holds what the storage trie holds; `dirtyCode`
and `dbErr`, which only `Commit` reads; and the code cache that `Code` fills,
which stores what a later call loads again.
-/

namespace FiscoBcos.State

open Trie (hashLen bytesToHash)

/-- `common.Address`. -/
abbrev Address := List UInt8

/-- `common.Hash`. -/
abbrev Hash := List UInt8

/-- `common.Hash{}`. -/
def zeroHash : Hash := List.replicate hashLen 0

/-- `crypto.Keccak256`, a parameter of the model, with its 32-byte digests. -/
structure Keccak where
  hash : List UInt8 → List UInt8
  length_hash : ∀ b, (hash b).length = hashLen

/-- A hash of zeros for every input, enough to run the model. -/
def zeroKeccak : Keccak := ⟨fun _ => zeroHash, fun _ => List.length_replicate⟩

/-- `emptyCodeHash = crypto.Keccak256(nil)`. -/
def emptyCodeHash (keccak : Keccak) : List UInt8 := keccak.hash []

/-- `Account`, as the account trie holds it; a nil `Balance` is `0`. An account
RLP decodes from the trie never has a nil `CodeHash`: an empty string decodes
to `[]byte{}`, which is `[]` here. -/
structure Account where
  RandomId : UInt64
  Balance : Int
  Root : Hash
  CodeHash : List UInt8
  deriving DecidableEq

/-- The parts of the state's `Database` that an object reads. The caching
database ignores the address hash both take. -/
structure Database where
  /-- `OpenStorageTrie(addrHash, root)`, read through `TryGet` as
  `GetCommittedState` reads it: the committed value of each key, with
  `common.Hash{}` where the trie has none. -/
  OpenStorageTrie : Hash → Hash → Hash
  /-- `ContractCode(addrHash, codeHash)`. -/
  ContractCode : Hash → List UInt8

/-- `stateObject`. -/
structure StateObject where
  address : Address
  data : Account
  /-- The storage trie, opened at `data.Root`. -/
  trie : Hash → Hash
  /-- The contract code, `none` (nil) until it is set. -/
  code : Option (List UInt8)
  dirtyStorage : Hash → Option Hash
  suicided : Bool
  deleted : Bool

namespace StateObject

variable (keccak : Keccak) (db : Database)

/-- `newObject`: a nil code hash becomes `emptyCodeHash`. Go tells a nil slice
from an empty one, and `nilCodeHash` says that `data.CodeHash` is nil, which
only `createObject`'s `Account{}` is; an empty code hash decoded from the trie
is kept. Go opens the storage trie at its first use; nothing changes
`data.Root` before that. -/
def newObject (address : Address) (data : Account) (nilCodeHash : Bool) : StateObject where
  address := address
  data := { data with CodeHash := if nilCodeHash then emptyCodeHash keccak else data.CodeHash }
  trie := db.OpenStorageTrie data.Root
  code := none
  dirtyStorage := fun _ => none
  suicided := false
  deleted := false

/-- `empty`: the account is empty in the sense of EIP-161. -/
def empty (self : StateObject) : Bool :=
  self.data.RandomId == 0 && self.data.Balance == 0 && self.data.CodeHash == emptyCodeHash keccak

/-- `Code`: the code set on the object, or the code the database keeps under
its hash. -/
def Code (self : StateObject) : List UInt8 :=
  match self.code with
  | some code => code
  | none =>
    if self.data.CodeHash = emptyCodeHash keccak then []
    else db.ContractCode (bytesToHash self.data.CodeHash)

/-- `GetCommittedState`. -/
def GetCommittedState (self : StateObject) (key : Hash) : Hash := self.trie key

/-- `GetState`: a dirty slot, else the committed one. -/
def GetState (self : StateObject) (key : Hash) : Hash :=
  match self.dirtyStorage key with
  | some value => value
  | none => self.GetCommittedState key

/-- `setBalance`. -/
def setBalance (self : StateObject) (amount : Int) : StateObject :=
  { self with data := { self.data with Balance := amount } }

/-- `setNonce`. -/
def setNonce (self : StateObject) (nonce : UInt64) : StateObject :=
  { self with data := { self.data with RandomId := nonce } }

/-- `setCode`: `codeHash` is a `common.Hash`. -/
def setCode (self : StateObject) (codeHash : Hash) (code : List UInt8) : StateObject :=
  { self with code := some code, data := { self.data with CodeHash := codeHash } }

/-- `setState`. -/
def setState (self : StateObject) (key value : Hash) : StateObject :=
  { self with dirtyStorage := Function.update self.dirtyStorage key (some value) }

/-- `markSuicided`. -/
def markSuicided (self : StateObject) : StateObject := { self with suicided := true }

/-! ## What the setters leave -/

variable {keccak db}

@[simp] theorem Code_setBalance (self : StateObject) (amount : Int) :
    (self.setBalance amount).Code keccak db = self.Code keccak db := rfl

@[simp] theorem Code_setNonce (self : StateObject) (nonce : UInt64) :
    (self.setNonce nonce).Code keccak db = self.Code keccak db := rfl

@[simp] theorem Code_setState (self : StateObject) (key value : Hash) :
    (self.setState key value).Code keccak db = self.Code keccak db := rfl

@[simp] theorem Code_setCode (self : StateObject) (codeHash : Hash) (code : List UInt8) :
    (self.setCode codeHash code).Code keccak db = code := rfl

/-- A written slot reads back; the others read as before. -/
theorem GetState_setState (self : StateObject) (key value k : Hash) :
    (self.setState key value).GetState k = if k = key then value else self.GetState k := by
  by_cases same : k = key
  · subst same
    simp [GetState, setState]
  · simp [GetState, GetCommittedState, setState, same]

/-- A new object's code hash is a hash. -/
theorem length_newObject_CodeHash {address : Address} {data : Account} {nilCodeHash : Bool}
    (wf : nilCodeHash = true ∨ data.CodeHash.length = hashLen) :
    (newObject keccak db address data nilCodeHash).data.CodeHash.length = hashLen := by
  cases nilCodeHash with
  | true => exact keccak.length_hash []
  | false => exact wf.resolve_left Bool.false_ne_true

end StateObject

end FiscoBcos.State
