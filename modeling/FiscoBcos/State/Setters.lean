import FiscoBcos.State.View
import Mathlib

/-!
# Every setter journals its own undo

`Journaled keccak s t`: the state `t` follows `s` by changes that appended to
the journal entries whose undo (`revertView`) takes the view of `t` back to
the view of `s`, and `t` is consistent and keeps the database, the trie and
the revisions. It is reflexive and transitive, so a setter made of steps is
journaled when each step is.

The steps are `getStateObject` (which changes no view), `createObject` (whose
one entry undoes any later write to the address, `journaled_createObject`), a
write back of a live object with the entry for the field it changes
(`journaled_write`), and the entries of the refund counter, the logs and the
preimages. A setter that records nothing changes nothing the getters see:
`SetState` of the value already there, `AddBalance` and `SubBalance` of zero,
and `AddPreimage` of a known hash.
-/

namespace FiscoBcos.State

open StateObject StateDB
open Trie (hashLen bytesToHash)

variable (keccak : Keccak)

/-- `t` follows `s` by journaled changes that undo back to the view of `s`. -/
structure Journaled (s t : StateDB) : Prop where
  consistent : Consistent t
  db : t.db = s.db
  trie : t.trie = s.trie
  validRevisions : t.validRevisions = s.validRevisions
  nextRevisionId : t.nextRevisionId = s.nextRevisionId
  undoes : ∃ es, t.journal.entries = s.journal.entries ++ es ∧
    UndoLog.Undoes (revertView keccak s.db s.trie) (s.view keccak) es (t.view keccak)

namespace Journaled

variable {keccak} {s t u : StateDB}

theorem refl (wf : Consistent s) : Journaled keccak s s :=
  ⟨wf, rfl, rfl, rfl, rfl, [], (List.append_nil _).symm, UndoLog.Undoes.nil _⟩

theorem trans (h₁ : Journaled keccak s t) (h₂ : Journaled keccak t u) : Journaled keccak s u := by
  obtain ⟨es₁, journal₁, undo₁⟩ := h₁.undoes
  obtain ⟨es₂, journal₂, undo₂⟩ := h₂.undoes
  refine ⟨h₂.consistent, h₂.db.trans h₁.db, h₂.trie.trans h₁.trie,
    h₂.validRevisions.trans h₁.validRevisions, h₂.nextRevisionId.trans h₁.nextRevisionId, es₁ ++ es₂,
    by rw [journal₂, journal₁, List.append_assoc], ?_⟩
  rw [h₁.db, h₁.trie] at undo₂
  exact undo₁.append undo₂

/-- A change that appends one entry whose undo takes its view back. -/
theorem single (wf : Consistent t) (db : t.db = s.db) (trie : t.trie = s.trie)
    (revisions : t.validRevisions = s.validRevisions) (next : t.nextRevisionId = s.nextRevisionId)
    {e : JournalEntry} (journal : t.journal.entries = s.journal.entries ++ [e])
    (undo : revertView keccak s.db s.trie e (t.view keccak) = some (s.view keccak)) : Journaled keccak s t :=
  ⟨wf, db, trie, revisions, next, [e], journal, UndoLog.Undoes.single undo⟩

end Journaled

section Steps

variable {keccak} {s : StateDB}

theorem journaled_getStateObject (wf : Consistent s) (a : Address) :
    Journaled keccak s (s.getStateObject keccak a).2 := by
  have keeps : Keeps s (s.getStateObject keccak a).2 := keeps_getStateObject a
  refine ⟨wf.getStateObject a, keeps.db, keeps.trie, keeps.validRevisions, keeps.nextRevisionId, [],
    by rw [keeps.journal, List.append_nil], ?_⟩
  rw [view_getStateObject]
  exact UndoLog.Undoes.nil _

/-- Writing back a live object, with an entry whose undo gives the old view back. -/
theorem journaled_write (wf : Consistent s) {e : JournalEntry} (valid : e.Valid s.trie) {o : StateObject}
    {a : Address} (validO : o.Valid a s.trie) (alive : o.deleted = false)
    (undo : revertView keccak s.db s.trie e ((s.view keccak).setAccount a (some (objectView keccak s.db o))) =
      some (s.view keccak)) :
    Journaled keccak s ({ s with journal := s.journal.append e }.setStateObject o) :=
  Journaled.single ((wf.append valid).setStateObject validO) rfl rfl rfl rfl rfl
    (by rw [view_write validO.address alive]; exact undo)

/-- A second write at one address replaces the first. -/
theorem setStateObject_setStateObject {o o' : StateObject} (same : o'.address = o.address) :
    (s.setStateObject o).setStateObject o' = s.setStateObject o' := by
  simp [setStateObject, same]

/-- Writing back the object already live at its address changes nothing. -/
theorem setStateObject_of_live {o : StateObject} (live : s.stateObjects o.address = some o) :
    s.setStateObject o = s := by
  simp only [setStateObject, ← live, Function.update_eq_self]

/-- `createObject` leaves a fresh live object, and its one entry undoes any
write of a live object at its address that follows. -/
theorem journaled_createObject (wf : Consistent s) {addr : Address} {newobj : StateObject}
    {prev : Option StateObject} {t : StateDB} (h : s.createObject keccak addr = (newobj, prev, t)) :
    t.stateObjects addr = some newobj ∧ newobj.Valid addr t.trie ∧ newobj.deleted = false ∧
      ∀ o : StateObject, o.Valid addr s.trie → o.deleted = false → Journaled keccak s (t.setStateObject o) := by
  rcases found : s.getStateObject keccak addr with ⟨prev', s'⟩
  rw [createObject, found] at h
  simp only [Prod.mk.injEq] at h
  obtain ⟨rfl, rfl, rfl⟩ := h
  have step : Journaled keccak s (s.getStateObject keccak addr).2 := journaled_getStateObject wf addr
  have keeps : Keeps s (s.getStateObject keccak addr).2 := keeps_getStateObject addr
  have seen : (s.view keccak).accounts addr = prev'.map (objectView keccak s.db) := by
    rw [view_accounts, found]
  rw [found] at step keeps
  dsimp only at step keeps
  refine ⟨by simp [setStateObject, newObject, setNonce], ⟨rfl, keccak.length_hash [], fun h => by cases h⟩, rfl, ?_⟩
  intro o valid alive
  rw [setStateObject_setStateObject valid.address]
  have validO : o.Valid addr s'.trie := by rw [keeps.trie]; exact valid
  have sameView : (s.getStateObject keccak addr).2.view keccak = s.view keccak := view_getStateObject addr
  rw [found] at sameView
  dsimp only at sameView
  cases prev' with
  | none =>
    -- a creation: the trie holds nothing at the address, as the view showed
    have missing : (s.getStateObject keccak addr).1 = none := by rw [found]
    have absent : s'.trie addr = none := by rw [keeps.trie]; exact (getStateObject_none wf missing).2
    have seen' : (s'.view keccak).accounts addr = committedView keccak s'.db s'.trie addr := by
      rw [sameView, seen, committedView, absent]
      rfl
    have validCreate : (JournalEntry.createObjectChange addr).Valid s'.trie := trivial
    refine step.trans (journaled_write step.consistent validCreate validO alive ?_)
    show some (((s'.view keccak).setAccount addr _).setAccount addr _) = _
    rw [View.setAccount_setAccount, View.setAccount_self seen']
  | some p =>
    -- a reset: it reinstates the live object the view showed
    have present : (s.getStateObject keccak addr).1 = some p := by rw [found]
    obtain ⟨-, alive', validP⟩ := getStateObject_some wf present
    have seen' : (s'.view keccak).accounts addr = liveView keccak s'.db p := by
      rw [sameView, seen, keeps.db, liveView, alive']
      rfl
    have validReset : (JournalEntry.resetObjectChange p).Valid s'.trie := by
      show p.Valid p.address s'.trie
      rw [keeps.trie, validP.address]
      exact validP
    refine step.trans (journaled_write step.consistent validReset validO alive ?_)
    show some (((s'.view keccak).setAccount addr _).setAccount p.address (liveView keccak s'.db p)) = _
    rw [validP.address, View.setAccount_setAccount, View.setAccount_self seen']

/-- The trie is not read of an object that is not deleted. -/
theorem StateObject.Valid.of_alive {o : StateObject} {a : Address} {trie trie' : Address → Option Account}
    (valid : o.Valid a trie) (alive : o.deleted = false) : o.Valid a trie' :=
  ⟨valid.address, valid.codeHash, fun d => by rw [alive] at d; cases d⟩

/-- `GetOrNewStateObject` leaves a live object at the address. -/
theorem journaled_GetOrNewStateObject (wf : Consistent s) (addr : Address) :
    Journaled keccak s (s.GetOrNewStateObject keccak addr).2 ∧
      (s.GetOrNewStateObject keccak addr).2.stateObjects (s.GetOrNewStateObject keccak addr).1.address =
        some (s.GetOrNewStateObject keccak addr).1 ∧
      (s.GetOrNewStateObject keccak addr).1.deleted = false := by
  have step : Journaled keccak s (s.getStateObject keccak addr).2 := journaled_getStateObject wf addr
  rcases found : s.getStateObject keccak addr with ⟨_ | o, s'⟩
  · -- nothing there: `createObject` makes it
    rw [found] at step
    dsimp only at step
    rcases made : s'.createObject keccak addr with ⟨newobj, prev, t⟩
    obtain ⟨live, valid, alive, later⟩ := journaled_createObject step.consistent made
    have same : t.setStateObject newobj = t := by rw [← valid.address] at live; exact setStateObject_of_live live
    have made' := later newobj (valid.of_alive alive) alive
    rw [same] at made'
    have eq : s.GetOrNewStateObject keccak addr = (newobj, t) := by
      rw [GetOrNewStateObject, found]
      dsimp only
      rw [made]
    rw [eq]
    exact ⟨step.trans made', by rw [valid.address]; exact live, alive⟩
  · -- a live object: itself
    have present : (s.getStateObject keccak addr).1 = some o := by rw [found]
    obtain ⟨live, alive, valid⟩ := getStateObject_some wf present
    rw [found] at step live
    have eq : s.GetOrNewStateObject keccak addr = (o, s') := by
      rw [GetOrNewStateObject, found]
      simp [alive]
    rw [eq]
    exact ⟨step, by rw [valid.address]; exact live, alive⟩

/-- A setter of an account: a method that is journaled on any live object, run
on the one `GetOrNewStateObject` leaves. -/
theorem journaled_onObject (wf : Consistent s) (addr : Address) {M : StateObject → StateDB → StateDB}
    (method : ∀ t o, Consistent t → t.stateObjects o.address = some o → o.deleted = false →
      Journaled keccak t (M o t)) :
    Journaled keccak s (M (s.GetOrNewStateObject keccak addr).1 (s.GetOrNewStateObject keccak addr).2) := by
  obtain ⟨step, live, alive⟩ := journaled_GetOrNewStateObject wf addr
  exact step.trans (method _ _ step.consistent live alive)

end Steps

/-! ## The journaled methods of a live object -/

namespace StateObject

variable {keccak} {s : StateDB} {self : StateObject}

theorem view_self (live : s.stateObjects self.address = some self) (alive : self.deleted = false) :
    (s.view keccak).accounts self.address = some (objectView keccak s.db self) := by
  simp [view, live, liveView, alive]

/-- Writing back a changed copy of a live object, with an entry whose undo sets
the changed field back. -/
theorem journaled_field (wf : Consistent s) (live : s.stateObjects self.address = some self)
    (alive : self.deleted = false) {e : JournalEntry} (valid : e.Valid s.trie) {f : AccountView → AccountView}
    (undo : ∀ v, revertView keccak s.db s.trie e v = v.modify self.address f) {o : StateObject}
    (addr : o.address = self.address) (hash : o.data.CodeHash.length = hashLen) (alive' : o.deleted = false)
    (restore : f (objectView keccak s.db o) = objectView keccak s.db self) :
    Journaled keccak s ({ s with journal := s.journal.append e }.setStateObject o) :=
  journaled_write wf valid ⟨addr, hash, fun d => by rw [alive'] at d; cases d⟩ alive'
    (by rw [undo]; exact View.modify_setAccount_undo (view_self live alive) restore)

theorem journaled_SetBalance (wf : Consistent s) (live : s.stateObjects self.address = some self)
    (alive : self.deleted = false) (amount : Int) : Journaled keccak s (self.SetBalance s amount) :=
  journaled_field wf live alive (by trivial) (fun _ => rfl) rfl (wf.objects _ _ live).codeHash alive rfl

theorem journaled_SetNonce (wf : Consistent s) (live : s.stateObjects self.address = some self)
    (alive : self.deleted = false) (nonce : UInt64) : Journaled keccak s (self.SetNonce s nonce) :=
  journaled_field wf live alive (by trivial) (fun _ => rfl) rfl (wf.objects _ _ live).codeHash alive rfl

/-- The journal keeps the raw code hash, a 32-byte hash that `BytesToHash`
gives back as it is. -/
theorem journaled_SetCode (wf : Consistent s) (live : s.stateObjects self.address = some self)
    (alive : self.deleted = false) {codeHash : Hash} (hash : codeHash.length = hashLen) (code : List UInt8) :
    Journaled keccak s (self.SetCode keccak s codeHash code) :=
  journaled_field wf live alive (by trivial) (fun _ => rfl) rfl hash alive
    (by rw [Trie.bytesToHash_of_length (wf.objects _ _ live).codeHash]; rfl)

theorem journaled_SetState (wf : Consistent s) (live : s.stateObjects self.address = some self)
    (alive : self.deleted = false) (key value : Hash) : Journaled keccak s (self.SetState s key value) := by
  unfold StateObject.SetState
  dsimp only
  split
  · exact Journaled.refl wf
  · refine journaled_field wf live alive (by trivial) (fun _ => rfl) rfl (wf.objects _ _ live).codeHash alive ?_
    rw [objectView_setState]
    simp only [Function.update_idem, Function.update_eq_self]
    rfl

theorem journaled_touch (wf : Consistent s) (c : StateObject) : Journaled keccak s (c.touch s) :=
  Journaled.single (wf.append (by trivial)) rfl rfl rfl rfl rfl rfl

theorem journaled_AddBalance (wf : Consistent s) (live : s.stateObjects self.address = some self)
    (alive : self.deleted = false) (amount : Int) : Journaled keccak s (self.AddBalance keccak s amount) := by
  unfold StateObject.AddBalance
  split
  · split
    · exact journaled_touch wf self
    · exact Journaled.refl wf
  · exact journaled_SetBalance wf live alive _

theorem journaled_SubBalance (wf : Consistent s) (live : s.stateObjects self.address = some self)
    (alive : self.deleted = false) (amount : Int) : Journaled keccak s (self.SubBalance s amount) := by
  unfold StateObject.SubBalance
  split
  · exact Journaled.refl wf
  · exact journaled_SetBalance wf live alive _

end StateObject

/-! ## The setters of a state -/

namespace StateDB

variable {keccak} {s : StateDB}

theorem journaled_AddBalance (wf : Consistent s) (addr : Address) (amount : Int) :
    Journaled keccak s (s.AddBalance keccak addr amount) :=
  journaled_onObject (M := fun o t => o.AddBalance keccak t amount) wf addr
    fun _ _ wf live alive => StateObject.journaled_AddBalance wf live alive amount

theorem journaled_SubBalance (wf : Consistent s) (addr : Address) (amount : Int) :
    Journaled keccak s (s.SubBalance keccak addr amount) :=
  journaled_onObject (M := fun o t => o.SubBalance t amount) wf addr
    fun _ _ wf live alive => StateObject.journaled_SubBalance wf live alive amount

theorem journaled_SetBalance (wf : Consistent s) (addr : Address) (amount : Int) :
    Journaled keccak s (s.SetBalance keccak addr amount) :=
  journaled_onObject (M := fun o t => o.SetBalance t amount) wf addr
    fun _ _ wf live alive => StateObject.journaled_SetBalance wf live alive amount

theorem journaled_SetNonce (wf : Consistent s) (addr : Address) (nonce : UInt64) :
    Journaled keccak s (s.SetNonce keccak addr nonce) :=
  journaled_onObject (M := fun o t => o.SetNonce t nonce) wf addr
    fun _ _ wf live alive => StateObject.journaled_SetNonce wf live alive nonce

theorem journaled_SetCode (wf : Consistent s) (addr : Address) (code : List UInt8) :
    Journaled keccak s (s.SetCode keccak addr code) :=
  journaled_onObject (M := fun o t => o.SetCode keccak t (bytesToHash (keccak.hash code)) code) wf addr
    fun _ _ wf live alive => StateObject.journaled_SetCode wf live alive (Trie.length_bytesToHash _) code

theorem journaled_SetState (wf : Consistent s) (addr : Address) (key value : Hash) :
    Journaled keccak s (s.SetState keccak addr key value) :=
  journaled_onObject (M := fun o t => o.SetState t key value) wf addr
    fun _ _ wf live alive => StateObject.journaled_SetState wf live alive key value

/-- `Suicide` of an account the state has: its entry keeps the flag and the
balance it clears. -/
theorem journaled_Suicide (wf : Consistent s) (addr : Address) :
    Journaled keccak s (s.Suicide keccak addr).2 := by
  have step : Journaled keccak s (s.getStateObject keccak addr).2 := journaled_getStateObject wf addr
  rcases found : s.getStateObject keccak addr with ⟨_ | o, s'⟩
  · rw [found] at step
    rw [Suicide, found]
    exact step
  · have present : (s.getStateObject keccak addr).1 = some o := by rw [found]
    obtain ⟨live, alive, valid⟩ := getStateObject_some wf present
    rw [found] at step live
    dsimp only at step live
    have seen : (s'.view keccak).accounts addr = some (objectView keccak s'.db o) := by
      rw [← valid.address] at live ⊢
      exact StateObject.view_self live alive
    rw [Suicide, found]
    refine step.trans (journaled_write step.consistent (by trivial)
      ((valid.of_alive alive : o.Valid addr s'.trie) |> fun v => ⟨v.address, v.codeHash, v.deleted⟩) alive ?_)
    show some ((((s'.view keccak).setAccount addr _).modify addr _).getD _) = _
    rw [View.modify_setAccount_undo seen rfl]
    rfl

/-- `CreateAccount`: the new account's balance is written past the journal, and
the reset that `createObject` journaled undoes it too. -/
theorem journaled_CreateAccount (wf : Consistent s) (addr : Address) :
    Journaled keccak s (s.CreateAccount keccak addr) := by
  rcases made : s.createObject keccak addr with ⟨newobj, prev, t⟩
  obtain ⟨live, valid, alive, later⟩ := journaled_createObject wf made
  rw [CreateAccount, made]
  cases prev with
  | none =>
    have same : t.setStateObject newobj = t := by rw [← valid.address] at live; exact setStateObject_of_live live
    dsimp only
    rw [← same]
    exact later newobj (valid.of_alive alive) alive
  | some p =>
    exact later (newobj.setBalance p.data.Balance) ⟨valid.address, valid.codeHash, fun d => by
      rw [show (newobj.setBalance p.data.Balance).deleted = newobj.deleted from rfl, alive] at d; cases d⟩ alive

theorem consistent_AddLog (wf : Consistent s) (log : LogPointer) (value : Log) : Consistent (s.AddLog log value) :=
  (wf.append (by trivial)).congr rfl rfl rfl rfl rfl

/-- A log the state does not point to yet: writing it changes no log the
state shows, so dropping its pointer again gives the view back. -/
theorem journaled_AddLog (wf : Consistent s) {log : LogPointer} (fresh : ∀ h, log ∉ s.logs h) (value : Log) :
    Journaled keccak s (s.AddLog log value) := by
  refine Journaled.single (consistent_AddLog wf log value) rfl rfl rfl rfl rfl ?_
  have kept : ∀ h, (s.logs h).map (Function.update s.heap log
      { value with TxHash := s.thash, BlockHash := s.bhash, TxIndex := s.txIndex, Index := s.logSize }) =
        (s.logs h).map s.heap := fun h =>
    List.map_congr_left fun p mem => Function.update_of_ne (fun (e : p = log) => fresh h (e ▸ mem)) _ _
  simp [revertView, view, AddLog, kept]
  funext h
  by_cases e : h = s.thash
  · subst e
    simp
  · simp [e, kept]

theorem journaled_AddPreimage (wf : Consistent s) (hash : Hash) (preimage : List UInt8) :
    Journaled keccak s (s.AddPreimage hash preimage) := by
  unfold AddPreimage
  cases known : s.preimages hash with
  | some _ => exact Journaled.refl wf
  | none =>
    refine Journaled.single ((wf.append (by trivial)).congr rfl rfl rfl rfl rfl) rfl rfl rfl rfl rfl ?_
    simp only [revertView, view, Function.update_idem, ← known, Function.update_eq_self]

theorem journaled_AddRefund (wf : Consistent s) (gas : UInt64) : Journaled keccak s (s.AddRefund gas) :=
  Journaled.single ((wf.append (by trivial)).congr rfl rfl rfl rfl rfl) rfl rfl rfl rfl rfl rfl

/-- `SubRefund` that does not panic. -/
theorem journaled_SubRefund (wf : Consistent s) {gas : UInt64} {t : StateDB} (h : s.SubRefund gas = .ok t) :
    Journaled keccak s t := by
  unfold SubRefund at h
  dsimp only at h
  split at h
  · cases h
  · cases h
    exact Journaled.single ((wf.append (by trivial)).congr rfl rfl rfl rfl rfl) rfl rfl rfl rfl rfl rfl

end StateDB

end FiscoBcos.State
