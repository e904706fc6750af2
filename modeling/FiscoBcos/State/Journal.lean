import FiscoBcos.State.Object
import FiscoBcos.Lib.UndoLog
import Mathlib

/-!
# The journal

`core/state/journal.go`, with the parts of `StateDB` (`statedb.go`) that its
entries revert: the map of live objects, the refund counter, the logs and the
preimages. Each change a `StateDB` makes appends an entry that records what it
overwrote, and `journal.revert` undoes the entries after a snapshot's index,
the last one first (`UndoLog.revertAll`).

An entry that names an account finds it through `getStateObject`, which may
load it from the account trie into the live map. The entries for balances,
nonces, code and storage dereference what it returns, and panic on nil; the
entry for a log slices the transaction's logs one short, and panics when there
are none.

Left out: `journal.dirties` and `stateObjectsDirty`, which only `Finalise` and
`Commit` read; the ripemd `dirty` hack is the same.
-/

namespace FiscoBcos.State

open StateObject

/-- `types.Log`: the fields `AddLog` sets, and the ones it keeps. -/
structure Log where
  Address : Address
  Topics : List Hash
  Data : List UInt8
  TxHash : Hash
  TxIndex : UInt64
  BlockHash : Hash
  Index : UInt64
  deriving DecidableEq, Inhabited

/-- A `*types.Log`: where a log sits in memory. -/
abbrev LogPointer := Nat

/-- `journalEntry`: one change, with what it overwrote. -/
inductive JournalEntry where
  | createObjectChange (account : Address)
  | resetObjectChange (prev : StateObject)
  | suicideChange (account : Address) (prev : Bool) (prevbalance : Int)
  | balanceChange (account : Address) (prev : Int)
  | nonceChange (account : Address) (prev : UInt64)
  | storageChange (account : Address) (key prevalue : Hash)
  | codeChange (account : Address) (prevcode prevhash : List UInt8)
  | refundChange (prev : UInt64)
  | addLogChange (txhash : Hash)
  | addPreimageChange (hash : Hash)
  | touchChange (account : Address)

/-- `journal`: its entries. -/
structure Journal where
  entries : List JournalEntry

/-- `revision`. -/
structure Revision where
  id : Nat
  journalIndex : Nat
  deriving DecidableEq, Inhabited

/-- `StateDB`. -/
structure StateDB where
  db : Database
  /-- The account trie at the state's root, `TryGet(addr)` decoded as an
  `Account`; `none` where it holds nothing or what it holds does not decode. -/
  trie : Address → Option Account
  stateObjects : Address → Option StateObject
  refund : UInt64
  thash : Hash
  bhash : Hash
  /-- The transaction index `Prepare` sets, converted as `AddLog` converts it. -/
  txIndex : UInt64
  /-- The pointers `AddLog` was given, for each transaction. -/
  logs : Hash → List LogPointer
  /-- The logs in memory, which the pointers point to. -/
  heap : LogPointer → Log
  logSize : UInt64
  preimages : Hash → Option (List UInt8)
  journal : Journal
  validRevisions : List Revision
  nextRevisionId : Nat

namespace Journal

/-- `journal.append`. -/
def append (j : Journal) (entry : JournalEntry) : Journal := ⟨j.entries ++ [entry]⟩

/-- `journal.length`. -/
def length (j : Journal) : Nat := j.entries.length

@[simp] theorem entries_append (j : Journal) (entry : JournalEntry) :
    (j.append entry).entries = j.entries ++ [entry] := rfl

@[simp] theorem length_append (j : Journal) (entry : JournalEntry) :
    (j.append entry).length = j.length + 1 := by
  simp [length, append]

end Journal

namespace StateDB

variable (keccak : Keccak)

/-- `setStateObject`. -/
def setStateObject (s : StateDB) (object : StateObject) : StateDB :=
  { s with stateObjects := Function.update s.stateObjects object.address (some object) }

/-- `getStateObject`: a live object unless it is deleted, else the account
the trie holds, which then joins the live set. -/
def getStateObject (s : StateDB) (addr : Address) : Option StateObject × StateDB :=
  match s.stateObjects addr with
  | some obj => if obj.deleted then (none, s) else (some obj, s)
  | none =>
    match s.trie addr with
    | none => (none, s)
    | some data =>
      -- decoded from RLP, so its code hash is not nil
      let obj := newObject keccak s.db addr data false
      (some obj, s.setStateObject obj)

end StateDB

/-- The panic of a method called on a nil `*stateObject`. -/
def nilDereference : String := "runtime error: invalid memory address or nil pointer dereference"

namespace JournalEntry

variable (keccak : Keccak)

/-- The entries for balances, nonces, code and storage: set a field of the
object `getStateObject` returns, which they dereference. -/
def revertField (s : StateDB) (account : Address) (set : StateObject → StateObject) :
    Except String StateDB :=
  match s.getStateObject keccak account with
  | (some obj, s) => .ok (s.setStateObject (set obj))
  | (none, _) => .error nilDereference

/-- `journalEntry.revert`. -/
def revert : JournalEntry → StateDB → Except String StateDB
  | .createObjectChange account, s =>
    .ok { s with stateObjects := Function.update s.stateObjects account none }
  | .resetObjectChange prev, s => .ok (s.setStateObject prev)
  | .suicideChange account prev prevbalance, s =>
    match s.getStateObject keccak account with
    | (some obj, s) => .ok (s.setStateObject ({ obj with suicided := prev }.setBalance prevbalance))
    | (none, s) => .ok s
  | .touchChange _, s => .ok s
  | .balanceChange account prev, s => revertField keccak s account fun obj => obj.setBalance prev
  | .nonceChange account prev, s => revertField keccak s account fun obj => obj.setNonce prev
  | .codeChange account prevcode prevhash, s =>
    revertField keccak s account fun obj => obj.setCode (Trie.bytesToHash prevhash) prevcode
  | .storageChange account key prevalue, s =>
    revertField keccak s account fun obj => obj.setState key prevalue
  | .refundChange prev, s => .ok { s with refund := prev }
  | .addLogChange txhash, s =>
    let logs := s.logs txhash
    if logs.length = 1 then
      .ok { s with logs := Function.update s.logs txhash [], logSize := s.logSize - 1 }
    else if logs.length = 0 then .error "runtime error: slice bounds out of range [:-1]"
    else
      .ok { s with logs := Function.update s.logs txhash (logs.take (logs.length - 1)),
                   logSize := s.logSize - 1 }
  | .addPreimageChange hash, s => .ok { s with preimages := Function.update s.preimages hash none }

end JournalEntry

/-- `journal.revert`: undo the entries from `snapshot` on, the last first, and
drop them. -/
def Journal.revert (keccak : Keccak) (j : Journal) (statedb : StateDB) (snapshot : Nat) :
    Except String StateDB :=
  (UndoLog.revertAll (JournalEntry.revert keccak) (j.entries.drop snapshot) statedb).map
    fun s => { s with journal := ⟨j.entries.take snapshot⟩ }

end FiscoBcos.State
