import FiscoBcos.Lib.Except
import FiscoBcos.State.View
import Mathlib

/-!
# Finalise and Commit

`Finalise`, `IntermediateRoot` and `Commit` of `core/state/statedb.go`, and
the dirty tracking they read. `journal.dirties` holds the addresses that the
journal's entries name (`journalEntry.dirtied`): `append` counts an entry's
address up, `revert` counts it down, so an address is there exactly while an
entry names it. `stateObjectsDirty` holds the addresses an earlier `Finalise`
wrote; `Block` is a `StateDB` with it.

`Finalise` writes each object that the journal names into the account trie,
or deletes it when it has suicided, and clears the journal. `Commit` adds the
journal's addresses to `stateObjectsDirty` and then visits every live object:
a suicided one is deleted, and a dirty one has its code and storage committed
and is written. A live object that no entry names is left out. The order in
which Go's `range` visits the live map is an argument (`order`), and the
results hold for every order that enumerates it.

The account trie is its contents (`StateDB.trie`), so the root that `Commit`
returns opens the trie it leaves: `New(root, db)` is `StateDB.New` over that
trie and the database that `Commit` wrote code and storage into. A storage
trie is its contents too, and its root is `storageRoot` of them, a parameter:
`updateRoot` sets it, and `CommitTrie` stores the contents under it.

`Commit_trie` says what `Commit` leaves at each address (`committed`), and
`Commit_persists_dirty` that the accounts it writes reopen as the state
reported them. `CreateAccount` over an account the trie holds journals only
`resetObjectChange`, which names no address: nothing makes the new account
dirty, and `Commit` keeps the old one.

Left out: the ripemd `dirty` hack; `dbErr`, since the storage reads of the
model cannot fail; `dirtyCode`, which is set exactly while the model's `code`
is (only `setCode` sets it); the references that the account trie's commit
adds; and the removal from `stateObjectsDirty` in `createObjectChange.revert`,
which drops an address that is then not live, and that `Commit` writes only if
a later entry names it.
-/

namespace FiscoBcos.State

open StateObject StateDB
open Trie (hashLen bytesToHash)

/-- `%x` of a byte string. -/
def hexString (b : List UInt8) : String :=
  String.join (b.map fun x => String.ofList [Nat.digitChar (x.toNat / 16), Nat.digitChar (x.toNat % 16)])

/-- `journalEntry.dirtied`: the account an entry changes, if any. -/
def JournalEntry.dirtied : JournalEntry → Option Address
  | .createObjectChange account => some account
  | .resetObjectChange _ => none
  | .suicideChange account _ _ => some account
  | .touchChange account => some account
  | .balanceChange account _ => some account
  | .nonceChange account _ => some account
  | .codeChange account _ _ => some account
  | .storageChange account _ _ => some account
  | .refundChange _ => none
  | .addLogChange _ => none
  | .addPreimageChange _ => none

/-- `journal.dirties`: the addresses the entries name. -/
def Journal.dirties (j : Journal) : List Address := j.entries.filterMap JournalEntry.dirtied

/-! ## Writing an object back -/

namespace StateObject

variable (storageRoot : (Hash → Hash) → Hash)

/-- `updateTrie`: the dirty slots written into the storage trie, and cleared.
A slot set to `common.Hash{}` is deleted, which reads back as `common.Hash{}`,
and one set to its committed value is skipped. -/
def updateTrie (self : StateObject) : StateObject :=
  { self with trie := self.GetState, dirtyStorage := fun _ => none }

/-- `updateRoot`: the root of the updated storage trie. -/
def updateRoot (self : StateObject) : StateObject :=
  let self := self.updateTrie
  { self with data := { self.data with Root := storageRoot self.trie } }

/-- `CommitTrie`: `updateRoot`, with the storage trie stored under its root. -/
def CommitTrie (self : StateObject) (db : Database) : StateObject × Database :=
  let self := self.updateRoot storageRoot
  (self, { db with OpenStorageTrie := Function.update db.OpenStorageTrie self.data.Root self.trie })

@[simp] theorem address_updateRoot (self : StateObject) : (self.updateRoot storageRoot).address = self.address :=
  rfl

@[simp] theorem fst_CommitTrie (self : StateObject) (db : Database) :
    (self.CommitTrie storageRoot db).1 = self.updateRoot storageRoot := rfl

@[simp] theorem data_updateRoot (self : StateObject) :
    (self.updateRoot storageRoot).data = { self.data with Root := storageRoot self.GetState } := rfl

end StateObject

/-- A state between transactions: a `StateDB` and its `stateObjectsDirty`. -/
structure Block where
  state : StateDB
  stateObjectsDirty : List Address

namespace StateDB

variable (keccak : Keccak) (storageRoot : (Hash → Hash) → Hash)

/-- `updateStateObject`: the object's account written to the trie. The RLP
encoder refuses a negative balance, and the panic names the address. -/
def updateStateObject (s : StateDB) (stateObject : StateObject) : Except String StateDB :=
  if stateObject.data.Balance < 0 then
    .error ("can't encode object at " ++ hexString stateObject.address ++
      ": rlp: cannot encode negative *big.Int")
  else .ok { s with trie := Function.update s.trie stateObject.address (some stateObject.data) }

/-- `deleteStateObject`: the account removed from the trie, and the live
object marked deleted. -/
def deleteStateObject (s : StateDB) (stateObject : StateObject) : StateDB :=
  { s with trie := Function.update s.trie stateObject.address none }.setStateObject
    { stateObject with deleted := true }

/-- `clearJournalAndRefund`. -/
def clearJournalAndRefund (s : StateDB) : StateDB :=
  { s with journal := ⟨[]⟩, validRevisions := [], refund := 0 }

/-- `InsertBlob` of the code an object holds, under its code hash. -/
def insertCode (db : Database) (stateObject : StateObject) : Database :=
  match stateObject.code with
  | some code => { db with ContractCode := Function.update db.ContractCode (bytesToHash stateObject.data.CodeHash) code }
  | none => db

end StateDB

namespace Block

variable (keccak : Keccak) (storageRoot : (Hash → Hash) → Hash)

/-- One round of `Finalise`'s loop: an address the journal names, written or
deleted when it is live, and marked for `Commit`. -/
def finaliseObject (deleteEmptyObjects : Bool) (b : Block) (addr : Address) : Except String Block :=
  match b.state.stateObjects addr with
  | none => .ok b
  | some stateObject =>
    let dirty := addr :: b.stateObjectsDirty
    if stateObject.suicided || (deleteEmptyObjects && stateObject.empty keccak) then
      .ok ⟨b.state.deleteStateObject stateObject, dirty⟩
    else
      let stateObject := stateObject.updateRoot storageRoot
      ((b.state.setStateObject stateObject).updateStateObject stateObject).map fun s => ⟨s, dirty⟩

/-- `Finalise`: each address of `journal.dirties` once. -/
def Finalise (deleteEmptyObjects : Bool) (b : Block) : Except String Block :=
  (b.state.journal.dirties.dedup.foldlM (finaliseObject keccak storageRoot deleteEmptyObjects) b).map
    fun b => { b with state := b.state.clearJournalAndRefund }

/-- `IntermediateRoot`: `Finalise`, and the account trie it leaves. -/
def IntermediateRoot (deleteEmptyObjects : Bool) (b : Block) :
    Except String ((Address → Option Account) × Block) :=
  (b.Finalise keccak storageRoot deleteEmptyObjects).map fun b => (b.state.trie, b)

/-- One round of `Commit`'s loop, at a live address. -/
def commitObject (deleteEmptyObjects : Bool) (isDirty : Address → Bool) (s : StateDB) (addr : Address) :
    Except String StateDB :=
  match s.stateObjects addr with
  | none => .ok s
  | some stateObject =>
    if stateObject.suicided || (isDirty addr && deleteEmptyObjects && stateObject.empty keccak) then
      .ok (s.deleteStateObject stateObject)
    else if isDirty addr then
      let (stateObject, db) := stateObject.CommitTrie storageRoot (insertCode s.db stateObject)
      ({ s with db := db }.setStateObject stateObject).updateStateObject stateObject
    else .ok s

/-- `Commit`, visiting the live objects in `order`. The account trie it
leaves is the root it returns. -/
def Commit (deleteEmptyObjects : Bool) (order : List Address) (b : Block) : Except String Block :=
  let dirty := b.state.journal.dirties ++ b.stateObjectsDirty
  (order.foldlM (commitObject keccak storageRoot deleteEmptyObjects fun addr => decide (addr ∈ dirty)) b.state).map
    fun s => ⟨s.clearJournalAndRefund, dirty.filter fun addr => addr ∉ order⟩

end Block

/-! ## What one round of `Commit` writes -/

namespace StateDB

/-- Every live object sits at its own address. -/
def Placed (s : StateDB) : Prop := ∀ a o, s.stateObjects a = some o → o.address = a

variable {s : StateDB}

@[simp] theorem stateObjects_setStateObject (o : StateObject) :
    (s.setStateObject o).stateObjects = Function.update s.stateObjects o.address (some o) := rfl

@[simp] theorem trie_setStateObject (o : StateObject) : (s.setStateObject o).trie = s.trie := rfl

@[simp] theorem stateObjects_deleteStateObject (o : StateObject) :
    (s.deleteStateObject o).stateObjects = Function.update s.stateObjects o.address (some { o with deleted := true }) :=
  rfl

@[simp] theorem trie_deleteStateObject (o : StateObject) :
    (s.deleteStateObject o).trie = Function.update s.trie o.address none := rfl

/-- A write succeeds when the balance encodes, and changes the trie only. -/
theorem updateStateObject_ok {o : StateObject} {s' : StateDB} (h : s.updateStateObject o = .ok s') :
    s'.trie = Function.update s.trie o.address (some o.data) ∧ s'.stateObjects = s.stateObjects := by
  unfold updateStateObject at h
  split at h
  · cases h
  · cases h
    exact ⟨rfl, rfl⟩

theorem Placed.setStateObject (placed : Placed s) (o : StateObject) : Placed (s.setStateObject o) := by
  intro a o' live
  by_cases own : a = o.address
  · subst own
    simp only [stateObjects_setStateObject, Function.update_self, Option.some.injEq] at live
    rw [← live]
  · rw [stateObjects_setStateObject, Function.update_of_ne own] at live
    exact placed a o' live

end StateDB

theorem Consistent.placed {s : StateDB} (wf : Consistent s) : s.Placed :=
  fun a o live => (wf.objects a o live).address

namespace Block

variable (keccak : Keccak) (storageRoot : (Hash → Hash) → Hash)

/-- What `Commit` leaves in the account trie at an address. -/
def committed (deleteEmptyObjects : Bool) (isDirty : Address → Bool) (s : StateDB) (addr : Address) :
    Option Account :=
  match s.stateObjects addr with
  | none => s.trie addr
  | some o =>
    if o.suicided || (isDirty addr && deleteEmptyObjects && o.empty keccak) then none
    else if isDirty addr then some (o.updateRoot storageRoot).data
    else s.trie addr

variable {keccak storageRoot} {deleteEmptyObjects : Bool} {isDirty : Address → Bool}

/-- `committed` reads the live object and the trie at the address only. -/
theorem committed_congr {s t : StateDB} {a : Address} (objects : t.stateObjects a = s.stateObjects a)
    (trie : t.trie a = s.trie a) :
    committed keccak storageRoot deleteEmptyObjects isDirty t a =
      committed keccak storageRoot deleteEmptyObjects isDirty s a := by
  simp only [committed, objects, trie]

/-- A round at `addr` writes the trie at `addr` only, as `committed` says, and
changes no other live object. -/
theorem commitObject_ok {s s' : StateDB} {addr : Address} (placed : Placed s)
    (h : commitObject keccak storageRoot deleteEmptyObjects isDirty s addr = .ok s') :
    s'.trie = Function.update s.trie addr (committed keccak storageRoot deleteEmptyObjects isDirty s addr) ∧
      (∀ a, a ≠ addr → s'.stateObjects a = s.stateObjects a) ∧ Placed s' := by
  unfold commitObject at h
  unfold committed
  cases look : s.stateObjects addr with
  | none =>
    rw [look] at h
    cases h
    exact ⟨(Function.update_eq_self addr s.trie).symm, fun _ _ => rfl, placed⟩
  | some o =>
    have own : o.address = addr := placed addr o look
    rw [look] at h
    dsimp only at h ⊢
    by_cases gone : (o.suicided || (isDirty addr && deleteEmptyObjects && o.empty keccak)) = true
    · -- the object is deleted: the trie loses the account
      rw [if_pos gone] at h
      cases h
      refine ⟨by rw [if_pos gone, trie_deleteStateObject, own], fun a ne => ?_, ?_⟩
      · rw [stateObjects_deleteStateObject, Function.update_of_ne (own ▸ ne)]
      · exact placed.setStateObject _
    · rw [if_neg gone] at h ⊢
      by_cases dirty : isDirty addr = true
      · -- the object is committed and written
        rw [if_pos dirty] at h ⊢
        simp only [fst_CommitTrie] at h
        obtain ⟨trie, objects⟩ := updateStateObject_ok h
        refine ⟨by rw [trie, trie_setStateObject, address_updateRoot, own], fun a ne => ?_, ?_⟩
        · rw [objects, stateObjects_setStateObject, address_updateRoot, Function.update_of_ne (own ▸ ne)]
        · intro a o' live
          rw [objects] at live
          exact Placed.setStateObject (s := { s with db := _ }) placed _ a o' live
      · rw [if_neg dirty] at h ⊢
        cases h
        exact ⟨(Function.update_eq_self addr s.trie).symm, fun _ _ => rfl, placed⟩

/-- The whole loop: each address of `order` as `committed` says, every other
as it was. The induction is on `order`; each round writes its own address
only and leaves the objects that later rounds read. -/
theorem foldlM_commitObject {order : List Address} : ∀ {s s' : StateDB}, Placed s → order.Nodup →
    order.foldlM (commitObject keccak storageRoot deleteEmptyObjects isDirty) s = .ok s' →
    ∀ a, s'.trie a = if a ∈ order then committed keccak storageRoot deleteEmptyObjects isDirty s a else s.trie a := by
  induction order with
  | nil =>
    intro s s' _ _ h a
    cases h
    rfl
  | cons b rest ih =>
    intro s s' placed nodup h a
    rw [List.foldlM_cons, Except.bind_eq_bind, Except.bind_eq_ok_iff] at h
    obtain ⟨s₁, round, loop⟩ := h
    obtain ⟨trie₁, objects₁, placed₁⟩ := commitObject_ok placed round
    obtain ⟨fresh, nodup⟩ := List.nodup_cons.mp nodup
    rw [ih placed₁ nodup loop a]
    by_cases later : a ∈ rest
    · have ne : a ≠ b := fun same => fresh (same ▸ later)
      rw [if_pos later, if_pos (List.mem_cons_of_mem b later)]
      exact committed_congr (objects₁ a ne) (by rw [trie₁, Function.update_of_ne ne])
    · rw [if_neg later, trie₁]
      by_cases first : a = b
      · subst first
        simp
      · rw [Function.update_of_ne first, if_neg]
        simp [first, later]

/-- What `Commit` leaves in the account trie, for every order that visits
each live object once: at every address what `committed` says, with the
addresses of the journal and of `stateObjectsDirty` dirty. -/
theorem Commit_trie {b b' : Block} {order : List Address} (placed : Placed b.state) (nodup : order.Nodup)
    (live : ∀ a, (b.state.stateObjects a).isSome → a ∈ order)
    (h : b.Commit keccak storageRoot deleteEmptyObjects order = .ok b') (a : Address) :
    b'.state.trie a = committed keccak storageRoot deleteEmptyObjects
      (fun addr => decide (addr ∈ b.state.journal.dirties ++ b.stateObjectsDirty)) b.state a := by
  unfold Commit at h
  rw [Except.map_eq_ok_iff] at h
  obtain ⟨s', loop, rfl⟩ := h
  rw [show s'.clearJournalAndRefund.trie = s'.trie from rfl, foldlM_commitObject placed nodup loop a]
  by_cases visited : a ∈ order
  · rw [if_pos visited]
  · rw [if_neg visited]
    cases look : b.state.stateObjects a with
    | none => simp [committed, look]
    | some o => exact absurd (live a (by simp [look])) visited

end Block

/-! ## Reopening the state at the root `Commit` returns -/

namespace StateDB

variable {keccak : Keccak} {a : Address}

/-- A state opened over a trie finds the account the trie holds. -/
theorem fst_getStateObject_New (db : Database) (trie : Address → Option Account) :
    ((New db trie).getStateObject keccak a).1 = (trie a).map fun data => newObject keccak db a data false := by
  simp only [getStateObject, New]
  cases trie a <;> rfl

/-- A live object that is not deleted is what `getStateObject` finds. -/
theorem fst_getStateObject_live {s : StateDB} {o : StateObject} (look : s.stateObjects a = some o)
    (alive : o.deleted = false) : (s.getStateObject keccak a).1 = some o := by
  simp [getStateObject, look, alive]

end StateDB

namespace Block

variable {keccak : Keccak} {storageRoot : (Hash → Hash) → Hash} {deleteEmptyObjects : Bool}
variable {b b' : Block} {order : List Address}

section Reopen

variable (wf : Consistent b.state) (nodup : order.Nodup) (live : ∀ a, (b.state.stateObjects a).isSome → a ∈ order)
  (h : b.Commit keccak storageRoot deleteEmptyObjects order = .ok b')
include wf nodup live h

/-- `Commit` persists every live account that an entry names or `Finalise`
wrote and that it does not delete: reopened at the root it returns, the state
reports for the account what it reported before. -/
theorem Commit_persists_dirty {a : Address} {o : StateObject} (look : b.state.stateObjects a = some o)
    (alive : o.deleted = false) (kept : (o.suicided || (deleteEmptyObjects && o.empty keccak)) = false)
    (dirty : a ∈ b.state.journal.dirties ∨ a ∈ b.stateObjectsDirty) :
    let s' := StateDB.New b'.state.db b'.state.trie
    s'.Exist keccak a = b.state.Exist keccak a ∧ s'.GetNonce keccak a = b.state.GetNonce keccak a ∧
      s'.GetBalance keccak a = b.state.GetBalance keccak a ∧
      s'.GetCodeHash keccak a = b.state.GetCodeHash keccak a := by
  intro s'
  have isDirty : decide (a ∈ b.state.journal.dirties ++ b.stateObjectsDirty) = true := by simpa using dirty
  have written : b'.state.trie a = some (o.updateRoot storageRoot).data := by
    rw [Commit_trie wf.placed nodup live h a]
    simp only [committed, look, isDirty, Bool.true_and]
    rw [if_neg (by simp [kept]), if_pos trivial]
  -- decoded from the trie, the code hash is not nil, and `newObject` keeps it
  have reopened :
      (s'.getStateObject keccak a).1 = some (newObject keccak b'.state.db a (o.updateRoot storageRoot).data false) := by
    rw [fst_getStateObject_New, written]
    rfl
  have before : (b.state.getStateObject keccak a).1 = some o := fst_getStateObject_live look alive
  refine ⟨?_, ?_, ?_, ?_⟩
  all_goals simp only [Exist, GetNonce, GetBalance, GetCodeHash, reopened, before]
  all_goals simp [newObject]

/-- `Commit` deletes every suicided live account. -/
theorem Commit_deletes_suicided {a : Address} {o : StateObject} (look : b.state.stateObjects a = some o)
    (suicided : o.suicided = true) : (StateDB.New b'.state.db b'.state.trie).Exist keccak a = false := by
  have deleted : b'.state.trie a = none := by
    rw [Commit_trie wf.placed nodup live h a]
    simp [committed, look, suicided]
  simp [Exist, fst_getStateObject_New, deleted]

/-- `Commit` leaves the trie as it was at every address that neither an entry
nor `Finalise` names, unless the object there suicided. -/
theorem Commit_skips_clean {a : Address}
    (clean : a ∉ b.state.journal.dirties ∧ a ∉ b.stateObjectsDirty)
    (kept : ∀ o, b.state.stateObjects a = some o → o.suicided = false) :
    b'.state.trie a = b.state.trie a := by
  have isDirty : decide (a ∈ b.state.journal.dirties ++ b.stateObjectsDirty) = false := by simpa using clean
  rw [Commit_trie wf.placed nodup live h a]
  cases look : b.state.stateObjects a with
  | none => simp [committed, look]
  | some o => simp only [committed, look, isDirty, kept o look, Bool.false_and, Bool.false_or,
      Bool.false_eq_true, if_false]

end Reopen

end Block

/-! ## A block with one loaded account -/

/-- An account trie with one account at `[1]`, nonce 5 and balance 7, whose
code hash is a hash. -/
def hashedAccount : Address → Option Account :=
  fun a => if a = [1] then some ⟨5, 7, zeroHash, zeroHash⟩ else none

/-- The state over `hashedAccount` once `getStateObject` has loaded the account. -/
def loadedState : StateDB :=
  ((StateDB.New ⟨fun _ _ => zeroHash, fun _ => []⟩ hashedAccount).getStateObject zeroKeccak [1]).2

/-- The object `getStateObject` loaded. -/
def loadedObject : StateObject :=
  newObject zeroKeccak ⟨fun _ _ => zeroHash, fun _ => []⟩ [1] ⟨5, 7, zeroHash, zeroHash⟩ false

theorem consistent_loadedState : Consistent loadedState := by
  refine Consistent.getStateObject (Consistent.New _ fun a data held => ?_) [1]
  by_cases at1 : a = [1]
  · simp only [hashedAccount, at1, if_true, Option.some.injEq] at held
    rw [← held]
    rfl
  · simp [hashedAccount, at1] at held

theorem stateObjects_loadedState (a : Address) :
    loadedState.stateObjects a = if a = [1] then some loadedObject else none := by
  by_cases at1 : a = [1]
  · subst at1
    rfl
  · rw [if_neg at1]
    show Function.update (fun _ => none) loadedObject.address (some loadedObject) a = none
    exact Function.update_of_ne at1 _ _

/-- A state whose only live object sits at `[1]` has its live objects in the
order `[[1]]`. -/
theorem mem_one_of_isSome {s : StateDB} {o : StateObject}
    (objects : ∀ a, s.stateObjects a = if a = [1] then some o else none) (a : Address)
    (some : (s.stateObjects a).isSome) : a ∈ [[1]] := by
  by_cases at1 : a = [1]
  · exact List.mem_singleton.mpr at1
  · simp [objects, at1] at some

theorem Commit_persists_dirty_loaded :
    ∃ b', Block.Commit zeroKeccak (fun _ => zeroHash) false [[1]] ⟨loadedState, [[1]]⟩ = .ok b' ∧
      let s' := StateDB.New b'.state.db b'.state.trie
      s'.Exist zeroKeccak [1] = loadedState.Exist zeroKeccak [1] ∧
        s'.GetNonce zeroKeccak [1] = loadedState.GetNonce zeroKeccak [1] ∧
        s'.GetBalance zeroKeccak [1] = loadedState.GetBalance zeroKeccak [1] ∧
        s'.GetCodeHash zeroKeccak [1] = loadedState.GetCodeHash zeroKeccak [1] := by
  obtain ⟨b', h⟩ : ∃ b', Block.Commit zeroKeccak (fun _ => zeroHash) false [[1]] ⟨loadedState, [[1]]⟩ = .ok b' :=
    ⟨_, rfl⟩
  exact ⟨b', h, Block.Commit_persists_dirty consistent_loadedState (by decide)
    (mem_one_of_isSome stateObjects_loadedState) h
    (stateObjects_loadedState [1]) rfl rfl (.inr (List.mem_singleton_self _))⟩

/-- The loaded state with its account suicided. -/
def suicidedState : StateDB := loadedState.setStateObject { loadedObject with suicided := true }

theorem stateObjects_suicidedState (a : Address) :
    suicidedState.stateObjects a = if a = [1] then some { loadedObject with suicided := true } else none := by
  by_cases at1 : a = [1]
  · subst at1
    rfl
  · have ne : a ≠ ({ loadedObject with suicided := true } : StateObject).address := at1
    rw [suicidedState, stateObjects_setStateObject, Function.update_of_ne ne, stateObjects_loadedState, if_neg at1,
      if_neg at1]

theorem Commit_deletes_suicided_loaded :
    ∃ b', Block.Commit zeroKeccak (fun _ => zeroHash) false [[1]] ⟨suicidedState, []⟩ = .ok b' ∧
      (StateDB.New b'.state.db b'.state.trie).Exist zeroKeccak [1] = false := by
  have wf : Consistent suicidedState := consistent_loadedState.setStateObject ⟨rfl, rfl, fun h => by cases h⟩
  obtain ⟨b', h⟩ : ∃ b', Block.Commit zeroKeccak (fun _ => zeroHash) false [[1]] ⟨suicidedState, []⟩ = .ok b' :=
    ⟨_, rfl⟩
  exact ⟨b', h, Block.Commit_deletes_suicided wf (by decide) (mem_one_of_isSome stateObjects_suicidedState) h
    (stateObjects_suicidedState [1]) rfl⟩

theorem Commit_skips_clean_loaded :
    ∃ b', Block.Commit zeroKeccak (fun _ => zeroHash) false [[1]] ⟨loadedState, []⟩ = .ok b' ∧
      b'.state.trie [1] = loadedState.trie [1] := by
  obtain ⟨b', h⟩ : ∃ b', Block.Commit zeroKeccak (fun _ => zeroHash) false [[1]] ⟨loadedState, []⟩ = .ok b' :=
    ⟨_, rfl⟩
  refine ⟨b', h, Block.Commit_skips_clean consistent_loadedState (by decide)
    (mem_one_of_isSome stateObjects_loadedState) h
    ⟨by decide, List.not_mem_nil⟩ fun o look => ?_⟩
  rw [stateObjects_loadedState, if_pos rfl, Option.some.injEq] at look
  rw [← look]
  rfl

/-! ## `CreateAccount` over an account that exists -/

namespace StateDB

variable {keccak : Keccak} {s : StateDB}

/-- `getStateObject` loads into the live set at its own address only. -/
theorem getStateObject_frame {a b : Address} (ne : b ≠ a) :
    (s.getStateObject keccak a).2.stateObjects b = s.stateObjects b := by
  rcases getStateObject_cases keccak s a with ⟨_, _, _, eq⟩ | ⟨_, _, _, eq⟩ | ⟨_, _, eq⟩ | ⟨data, _, _, eq⟩
  · rw [eq]
  · rw [eq]
  · rw [eq]
  · rw [eq, stateObjects_setStateObject]
    exact Function.update_of_ne ne _ _

/-- `CreateAccount` over an account that exists: a new account with the old
balance replaces it, and the journal names no new address, since the one
entry it appends, `resetObjectChange`, names none. -/
theorem CreateAccount_existing {addr : Address} {prev : StateObject}
    (found : (s.getStateObject keccak addr).1 = some prev) :
    let t := s.CreateAccount keccak addr
    t.stateObjects addr =
        some (((newObject keccak s.db addr ⟨0, 0, zeroHash, []⟩ true).setNonce 0).setBalance prev.data.Balance) ∧
      (∀ a, a ≠ addr → t.stateObjects a = s.stateObjects a) ∧
      t.journal.dirties = s.journal.dirties ∧ t.trie = s.trie ∧ t.db = s.db := by
  intro t
  have keeps : Keeps s (s.getStateObject keccak addr).2 := keeps_getStateObject addr
  have others : ∀ a, a ≠ addr → (s.getStateObject keccak addr).2.stateObjects a = s.stateObjects a :=
    fun a ne => getStateObject_frame ne
  rcases loaded : s.getStateObject keccak addr with ⟨prev', s'⟩
  rw [loaded] at found keeps others
  dsimp only at keeps others
  cases found
  simp only [t, CreateAccount, createObject, loaded]
  refine ⟨?_, fun a ne => ?_, ?_, keeps.trie, keeps.db⟩
  · simp [newObject, setNonce, setBalance, keeps.db]
  · simp [newObject, setNonce, setBalance, Function.update_of_ne ne, others a ne]
  · simp [Journal.dirties, JournalEntry.dirtied, setStateObject, keeps.journal]

end StateDB

/-- An account trie with one account, at `addr`: nonce 5, balance 7. -/
def heldAccount (addr : Address) : Address → Option Account :=
  fun a => if a = addr then some ⟨5, 7, zeroHash, []⟩ else none

theorem CreateAccount_reset_dropped_by_Commit (keccak : Keccak) (storageRoot : (Hash → Hash) → Hash)
    (db : Database) (addr : Address) :
    let s := (StateDB.New db (heldAccount addr)).CreateAccount keccak addr
    (∀ a, (s.stateObjects a).isSome ↔ a ∈ [addr]) ∧ s.journal.dirties = [] ∧
      s.GetNonce keccak addr = 0 ∧ s.GetBalance keccak addr = 7 ∧
      ∃ b', Block.Commit keccak storageRoot false [addr] ⟨s, []⟩ = .ok b' ∧
        (StateDB.New b'.state.db b'.state.trie).GetNonce keccak addr = 5 := by
  dsimp only
  have found : ((StateDB.New db (heldAccount addr)).getStateObject keccak addr).1 =
      some (newObject keccak db addr ⟨5, 7, zeroHash, []⟩ false) := by
    simp [fst_getStateObject_New, heldAccount]
  obtain ⟨look, others, dirties, trie, -⟩ := CreateAccount_existing found
  have alive : (((StateDB.New db (heldAccount addr)).CreateAccount keccak addr).getStateObject keccak addr).1 =
      some _ := fst_getStateObject_live look rfl
  -- the reset names no address, so `Commit` visits the new account as clean
  have clean : (StateDB.New db (heldAccount addr)).journal.dirties = [] := rfl
  have loop : Block.Commit keccak storageRoot false [addr]
      ⟨(StateDB.New db (heldAccount addr)).CreateAccount keccak addr, []⟩ =
      .ok ⟨((StateDB.New db (heldAccount addr)).CreateAccount keccak addr).clearJournalAndRefund, []⟩ := by
    simp only [Block.Commit, dirties, clean, List.nil_append, List.foldlM_cons, List.foldlM_nil,
      Block.commitObject, look]
    rfl
  have reopened :
      ((StateDB.New db (heldAccount addr)).CreateAccount keccak addr).clearJournalAndRefund.trie addr =
        some ⟨5, 7, zeroHash, []⟩ := by
    rw [show ∀ t : StateDB, t.clearJournalAndRefund.trie = t.trie from fun _ => rfl, trie]
    simp [StateDB.New, heldAccount]
  refine ⟨fun a => ?_, ?_, ?_, ?_, _, loop, ?_⟩
  · by_cases same : a = addr
    · subst same
      simp [look]
    · rw [others a same]
      simp [StateDB.New, same]
  · rw [dirties, clean]
  · rw [GetNonce, alive]
    rfl
  · rw [GetBalance, alive]
    rfl
  · rw [GetNonce, fst_getStateObject_New, reopened]
    rfl

end FiscoBcos.State
