import FiscoBcos.State.Journal
import FiscoBcos.Lib.Search
import Mathlib

/-!
# The state database

`core/state/statedb.go` and the journaled methods of `stateObject`: the
setters a transaction calls, each appending the entries that undo it, the
getters, and `Snapshot` and `RevertToSnapshot`.

A setter of an account goes through `GetOrNewStateObject`, which makes the
account when there is none (`createObject`): the journal then records either
its creation or the account it replaced. `SetState` of the value already there
and `AddBalance` of zero record nothing, or a touch of an empty account;
`AddPreimage` of a known hash records nothing; `SubRefund` panics below zero.

`Snapshot` pushes a revision: a fresh id and the journal's length.
`RevertToSnapshot` finds the revision by `sort.Search` over the ids, which
`Snapshot` hands out in increasing order, reverts the journal to its index and
drops it and every later revision.

The getters return what they read: the object that `getStateObject` may load
into the live set on the way is the one a later call loads again.
`GetCodeSize` is not modelled; `Finalise` and `Commit` are in `State.Commit`,
`Copy` in `State.Copy`.
-/

namespace FiscoBcos.State

open StateObject

namespace StateDB

variable (keccak : Keccak)

/-- `createObject`: a new account at `addr`, journaled as a creation, or as a
reset of the account it replaces. -/
def createObject (s : StateDB) (addr : Address) : StateObject × Option StateObject × StateDB :=
  let (prev, s) := s.getStateObject keccak addr
  -- `Account{}`, whose code hash is nil; `setNonce(0)` marks the object dirty
  let newobj := (newObject keccak s.db addr ⟨0, 0, zeroHash, []⟩ true).setNonce 0
  let entry := match prev with
    | none => JournalEntry.createObjectChange addr
    | some prev => .resetObjectChange prev
  (newobj, prev, { s with journal := s.journal.append entry }.setStateObject newobj)

/-- `GetOrNewStateObject`. -/
def GetOrNewStateObject (s : StateDB) (addr : Address) : StateObject × StateDB :=
  match s.getStateObject keccak addr with
  | (some stateObject, s) =>
    if stateObject.deleted then
      let (newobj, _, s) := s.createObject keccak addr
      (newobj, s)
    else (stateObject, s)
  | (none, s) =>
    let (newobj, _, s) := s.createObject keccak addr
    (newobj, s)

end StateDB

/-! ## The journaled methods of a live object -/

namespace StateObject

variable (keccak : Keccak)

/-- `touch`. -/
def touch (c : StateObject) (s : StateDB) : StateDB :=
  { s with journal := s.journal.append (.touchChange c.address) }

/-- `SetBalance`. -/
def SetBalance (self : StateObject) (s : StateDB) (amount : Int) : StateDB :=
  { s with journal := s.journal.append (.balanceChange self.address self.data.Balance) }.setStateObject
    (self.setBalance amount)

/-- `AddBalance`: adding zero touches an empty account and changes nothing. -/
def AddBalance (c : StateObject) (s : StateDB) (amount : Int) : StateDB :=
  if amount = 0 then
    if c.empty keccak then c.touch s else s
  else c.SetBalance s (c.data.Balance + amount)

/-- `SubBalance`. -/
def SubBalance (c : StateObject) (s : StateDB) (amount : Int) : StateDB :=
  if amount = 0 then s else c.SetBalance s (c.data.Balance - amount)

/-- `SetNonce`. -/
def SetNonce (self : StateObject) (s : StateDB) (nonce : UInt64) : StateDB :=
  { s with journal := s.journal.append (.nonceChange self.address self.data.RandomId) }.setStateObject
    (self.setNonce nonce)

/-- `SetCode`: the journal keeps the code `Code` loads and the raw code hash. -/
def SetCode (self : StateObject) (s : StateDB) (codeHash : Hash) (code : List UInt8) : StateDB :=
  let prevcode := self.Code keccak s.db
  { s with journal := s.journal.append (.codeChange self.address prevcode self.data.CodeHash) }.setStateObject
    (self.setCode codeHash code)

/-- `SetState`: writing the value already there records nothing. -/
def SetState (self : StateObject) (s : StateDB) (key value : Hash) : StateDB :=
  let prev := self.GetState key
  if prev = value then s
  else
    { s with journal := s.journal.append (.storageChange self.address key prev) }.setStateObject
      (self.setState key value)

end StateObject

namespace StateDB

variable (keccak : Keccak)

/-! ## Setters -/

/-- `AddBalance`. -/
def AddBalance (s : StateDB) (addr : Address) (amount : Int) : StateDB :=
  let (stateObject, s) := s.GetOrNewStateObject keccak addr
  stateObject.AddBalance keccak s amount

/-- `SubBalance`. -/
def SubBalance (s : StateDB) (addr : Address) (amount : Int) : StateDB :=
  let (stateObject, s) := s.GetOrNewStateObject keccak addr
  stateObject.SubBalance s amount

/-- `SetBalance`. -/
def SetBalance (s : StateDB) (addr : Address) (amount : Int) : StateDB :=
  let (stateObject, s) := s.GetOrNewStateObject keccak addr
  stateObject.SetBalance s amount

/-- `SetNonce`. -/
def SetNonce (s : StateDB) (addr : Address) (nonce : UInt64) : StateDB :=
  let (stateObject, s) := s.GetOrNewStateObject keccak addr
  stateObject.SetNonce s nonce

/-- `SetCode`, under `crypto.Keccak256Hash(code)`. -/
def SetCode (s : StateDB) (addr : Address) (code : List UInt8) : StateDB :=
  let (stateObject, s) := s.GetOrNewStateObject keccak addr
  stateObject.SetCode keccak s (Trie.bytesToHash (keccak.hash code)) code

/-- `SetState`. -/
def SetState (s : StateDB) (addr : Address) (key value : Hash) : StateDB :=
  let (stateObject, s) := s.GetOrNewStateObject keccak addr
  stateObject.SetState s key value

/-- `Suicide`: marks the account and clears its balance; false, with nothing
recorded, where there is no account. -/
def Suicide (s : StateDB) (addr : Address) : Bool × StateDB :=
  match s.getStateObject keccak addr with
  | (none, s) => (false, s)
  | (some stateObject, s) =>
    let s := { s with
      journal := s.journal.append (.suicideChange addr stateObject.suicided stateObject.data.Balance) }
    (true, s.setStateObject (stateObject.markSuicided.setBalance 0))

/-- `CreateAccount`: the new account keeps the balance of the one it
replaces. -/
def CreateAccount (s : StateDB) (addr : Address) : StateDB :=
  let (newObj, prev, s) := s.createObject keccak addr
  match prev with
  | some prev => s.setStateObject (newObj.setBalance prev.data.Balance)
  | none => s

/-- `AddLog`: the log at `log`, which holds `value` when the call is made,
takes the transaction's hashes and the running index, written through the
pointer, and the state keeps the pointer. -/
def AddLog (s : StateDB) (log : LogPointer) (value : Log) : StateDB :=
  let s := { s with journal := s.journal.append (.addLogChange s.thash) }
  let heap := Function.update s.heap log
    { value with TxHash := s.thash, BlockHash := s.bhash, TxIndex := s.txIndex, Index := s.logSize }
  { s with heap, logs := Function.update s.logs s.thash (s.logs s.thash ++ [log]), logSize := s.logSize + 1 }

/-- `Prepare`: the hashes and the index `AddLog` gives the transaction's logs,
the index converted as `uint(self.txIndex)` converts it. -/
def Prepare (s : StateDB) (thash bhash : Hash) (ti : Int) : StateDB :=
  { s with thash := thash, bhash := bhash, txIndex := UInt64.ofInt ti }

/-- `AddPreimage`: a hash already known keeps its preimage. -/
def AddPreimage (s : StateDB) (hash : Hash) (preimage : List UInt8) : StateDB :=
  match s.preimages hash with
  | some _ => s
  | none =>
    { s with journal := s.journal.append (.addPreimageChange hash),
             preimages := Function.update s.preimages hash (some preimage) }

/-- `AddRefund`. -/
def AddRefund (s : StateDB) (gas : UInt64) : StateDB :=
  let s := { s with journal := s.journal.append (.refundChange s.refund) }
  { s with refund := s.refund + gas }

/-- `SubRefund`: the entry is appended before the check. -/
def SubRefund (s : StateDB) (gas : UInt64) : Except String StateDB :=
  let s := { s with journal := s.journal.append (.refundChange s.refund) }
  if gas > s.refund then .error "Refund counter below zero"
  else .ok { s with refund := s.refund - gas }

/-! ## Snapshots -/

/-- `Snapshot`. -/
def Snapshot (s : StateDB) : Nat × StateDB :=
  let id := s.nextRevisionId
  (id, { s with nextRevisionId := id + 1, validRevisions := s.validRevisions ++ [⟨id, s.journal.length⟩] })

/-- The panic of `RevertToSnapshot` for an id it does not know. -/
def cannotRevert (revid : Nat) : String := "revision id " ++ toString revid ++ " cannot be reverted"

/-- `RevertToSnapshot`. -/
def RevertToSnapshot (s : StateDB) (revid : Nat) : Except String StateDB :=
  let idx := Search.search s.validRevisions.length fun i => decide (revid ≤ (s.validRevisions.getD i default).id)
  match s.validRevisions[idx]? with
  | none => .error (cannotRevert revid)
  | some r =>
    if r.id ≠ revid then .error (cannotRevert revid)
    else (s.journal.revert keccak s r.journalIndex).map fun s => { s with validRevisions := s.validRevisions.take idx }

/-! ## Getters -/

/-- `Exist`: suicided accounts exist too. -/
def Exist (s : StateDB) (addr : Address) : Bool := (s.getStateObject keccak addr).1.isSome

/-- `Empty`. -/
def Empty (s : StateDB) (addr : Address) : Bool :=
  match (s.getStateObject keccak addr).1 with
  | none => true
  | some so => so.empty keccak

/-- `GetBalance`. -/
def GetBalance (s : StateDB) (addr : Address) : Int :=
  match (s.getStateObject keccak addr).1 with
  | some stateObject => stateObject.data.Balance
  | none => 0

/-- `GetNonce`. -/
def GetNonce (s : StateDB) (addr : Address) : UInt64 :=
  match (s.getStateObject keccak addr).1 with
  | some stateObject => stateObject.data.RandomId
  | none => 0

/-- `GetCode`. -/
def GetCode (s : StateDB) (addr : Address) : List UInt8 :=
  match (s.getStateObject keccak addr).1 with
  | some stateObject => stateObject.Code keccak s.db
  | none => []

/-- `GetCodeHash`. -/
def GetCodeHash (s : StateDB) (addr : Address) : Hash :=
  match (s.getStateObject keccak addr).1 with
  | some stateObject => Trie.bytesToHash stateObject.data.CodeHash
  | none => zeroHash

/-- `GetState`. -/
def GetState (s : StateDB) (addr : Address) (hash : Hash) : Hash :=
  match (s.getStateObject keccak addr).1 with
  | some stateObject => stateObject.GetState hash
  | none => zeroHash

/-- `HasSuicided`. -/
def HasSuicided (s : StateDB) (addr : Address) : Bool :=
  match (s.getStateObject keccak addr).1 with
  | some stateObject => stateObject.suicided
  | none => false

/-- `GetRefund`. -/
def GetRefund (s : StateDB) : UInt64 := s.refund

/-- `GetLogs`: the logs the transaction's pointers point to. -/
def GetLogs (s : StateDB) (hash : Hash) : List Log := (s.logs hash).map s.heap

/-- `Preimages`. -/
def Preimages (s : StateDB) : Hash → Option (List UInt8) := s.preimages

/-- `New`: a state over the account trie at a root, with nothing live. -/
def New (db : Database) (trie : Address → Option Account) : StateDB where
  db := db
  trie := trie
  stateObjects := fun _ => none
  refund := 0
  thash := zeroHash
  bhash := zeroHash
  txIndex := 0
  logs := fun _ => []
  heap := fun _ => default
  logSize := 0
  preimages := fun _ => none
  journal := ⟨[]⟩
  validRevisions := []
  nextRevisionId := 0

end StateDB

end FiscoBcos.State
