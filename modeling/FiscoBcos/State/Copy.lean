import FiscoBcos.State.Commit
import Mathlib

/-!
# Copying a state

`Copy` in `core/state/statedb.go`: the copy shares the database, holds the
same account trie, and copies the refund, the logs and the preimages. Of the
live objects it copies only those that the journal or an earlier `Finalise`
names (`journal.dirties` and `stateObjectsDirty`); it reloads every other
account from the trie when it is read.

`Copy_view` says what the copy shows: what the state shows at the named
addresses, and what the trie holds everywhere else. The two agree wherever
the live object is named or there is none. A live object that nothing names
is lost: after `CreateAccount` over an existing account, whose
`resetObjectChange` names no address, the copy reads the old account back
(`Copy_reloads_reset_account`).
-/

namespace FiscoBcos.State

open StateObject StateDB

namespace Block

/-- `Copy`. Objects are values here, so `deepCopy` gives the object itself,
and `CopyTrie` gives a trie with the same accounts. The fields that `Copy`
does not set (`thash`, `bhash`, `txIndex` and the revisions) take Go's zero
values. -/
def Copy (b : Block) : Except String Block :=
  let s := b.state
  -- the first loop: the journal's addresses that have a live object
  let fromJournal := s.journal.dirties.filter fun addr => (s.stateObjects addr).isSome
  -- the second loop: the rest of `stateObjectsDirty`, where `deepCopy` of a nil object panics
  let rest := b.stateObjectsDirty.filter fun addr => addr ∉ fromJournal
  if rest.all fun addr => (s.stateObjects addr).isSome then
    let copied := fromJournal ++ rest
    .ok ⟨{ db := s.db, trie := s.trie
           stateObjects := fun addr => if addr ∈ copied then s.stateObjects addr else none
           refund := s.refund, thash := zeroHash, bhash := zeroHash, txIndex := 0
           logs := s.logs, heap := s.heap, logSize := s.logSize, preimages := s.preimages
           journal := ⟨[]⟩, validRevisions := [], nextRevisionId := 0 }, copied⟩
  else .error nilDereference

variable {keccak : Keccak} {b : Block}

section Live

variable (live : ∀ addr ∈ b.stateObjectsDirty, (b.state.stateObjects addr).isSome)
include live

/-- The two loops copy the named addresses that have a live object. -/
theorem mem_copied {addr : Address} :
    addr ∈ (b.state.journal.dirties.filter fun a => (b.state.stateObjects a).isSome) ++
        b.stateObjectsDirty.filter
          (fun a => a ∉ b.state.journal.dirties.filter fun a => (b.state.stateObjects a).isSome) ↔
      addr ∈ b.state.journal.dirties ++ b.stateObjectsDirty ∧ (b.state.stateObjects addr).isSome := by
  simp only [List.mem_append, List.mem_filter, decide_eq_true_eq]
  constructor
  · rintro (⟨mem, some⟩ | ⟨mem, -⟩)
    · exact ⟨.inl mem, some⟩
    · exact ⟨.inr mem, live addr mem⟩
  · rintro ⟨mem | mem, some⟩
    · exact .inl ⟨mem, some⟩
    · by_cases fromJournal : addr ∈ b.state.journal.dirties
      · exact .inl ⟨fromJournal, some⟩
      · exact .inr ⟨mem, fun both => fromJournal both.1⟩

/-- What `Copy` returns when every address of `stateObjectsDirty` is live:
the objects at the named addresses, and nothing live elsewhere. -/
theorem Copy_ok :
    ∃ c, b.Copy = .ok c ∧
      (∀ addr, c.state.stateObjects addr =
        if addr ∈ b.state.journal.dirties ++ b.stateObjectsDirty then b.state.stateObjects addr
        else none) ∧
      c.state.db = b.state.db ∧ c.state.trie = b.state.trie ∧ c.state.refund = b.state.refund ∧
      c.state.logs = b.state.logs ∧ c.state.heap = b.state.heap ∧ c.state.logSize = b.state.logSize ∧
      c.state.preimages = b.state.preimages := by
  unfold Copy
  dsimp only
  rw [if_pos (List.all_eq_true.mpr fun addr mem => live addr (List.mem_filter.mp mem).1)]
  refine ⟨_, rfl, fun addr => ?_, rfl, rfl, rfl, rfl, rfl, rfl, rfl⟩
  dsimp only
  simp only [mem_copied live]
  -- a named address with no live object reads `none` either way
  by_cases named : addr ∈ b.state.journal.dirties ++ b.stateObjectsDirty
  · cases hlive : b.state.stateObjects addr with
    | none => simp
    | some o => simp [named]
  · simp [named]

end Live

end Block

/-- `Copy` after `CreateAccount` over an account that exists: the state shows
the new account, nonce 0, and the copy reads the old one, nonce 5, from the
trie. -/
theorem Copy_reloads_reset_account (keccak : Keccak) (db : Database) (addr : Address) :
    let s := (StateDB.New db (heldAccount addr)).CreateAccount keccak addr
    s.GetNonce keccak addr = 0 ∧
      ∃ c, Block.Copy ⟨s, []⟩ = .ok c ∧ c.state.GetNonce keccak addr = 5 := by
  dsimp only
  have found : ((StateDB.New db (heldAccount addr)).getStateObject keccak addr).1 =
      some (newObject keccak db addr ⟨5, 7, zeroHash, []⟩ false) := by
    simp [fst_getStateObject_New, heldAccount]
  obtain ⟨look, -, dirties, trie, -⟩ := CreateAccount_existing found
  have clean : (StateDB.New db (heldAccount addr)).journal.dirties = [] := rfl
  obtain ⟨c, eq, objects, cdb, ctrie, -⟩ :=
    Block.Copy_ok (b := ⟨(StateDB.New db (heldAccount addr)).CreateAccount keccak addr, []⟩)
      (fun _ mem => absurd mem List.not_mem_nil)
  refine ⟨?_, c, eq, ?_⟩
  · rw [GetNonce, fst_getStateObject_live look rfl]
    rfl
  · -- nothing names `addr`, so the copy has no live object there and loads the trie's
    have none : c.state.stateObjects addr = none := by
      rw [objects addr, dirties, clean]
      rfl
    have held : c.state.trie addr = some ⟨5, 7, zeroHash, []⟩ := by
      rw [ctrie, trie]
      simp [StateDB.New, heldAccount]
    simp [GetNonce, getStateObject, none, held, newObject]

end FiscoBcos.State
