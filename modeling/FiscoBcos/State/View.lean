import FiscoBcos.State.StateDB
import Mathlib

/-!
# What a state shows, and what reverting an entry does to it

The getters of a `StateDB` read an account through `getStateObject` (the live
object unless deleted, else what the account trie holds) and otherwise read
the refund counter, the logs and the preimages. `View` is what they read, and
`StateDB.view` is the view of a state: two states with one view answer every
getter alike (`State.Snapshot`).

`revertView` says what reverting each entry does to a view: the creation of
an account gives back what the trie holds, a reset gives back the object it
replaced, and the changes of one account set back the field they changed. The
simulation (`revert_view`) is that the concrete `JournalEntry.revert` of a
consistent state does what `revertView` says, and keeps it consistent, with
no panic where `revertView` is defined. Over a whole suffix of the journal
this is `UndoLog.revertAll_of_undoes` (`Journal.revert_view`).

`Consistent` is what the proofs need of a state: every live object sits at its
own address and has a 32-byte code hash, the trie no longer holds the account
of a deleted object, the trie's code hashes are hashes or nil, the objects the
journal will reinstate are live objects, and the revisions are increasing and
older than the next id.
-/

namespace FiscoBcos.State

open StateObject
open Trie (hashLen bytesToHash)

/-- What the getters read of one account. -/
structure AccountView where
  RandomId : UInt64
  Balance : Int
  CodeHash : List UInt8
  code : List UInt8
  storage : Hash → Hash
  suicided : Bool

/-- What the getters read of a state. -/
@[ext] structure View where
  accounts : Address → Option AccountView
  refund : UInt64
  logs : Hash → List Log
  logSize : UInt64
  preimages : Hash → Option (List UInt8)

namespace View

/-- Set the view of one account. -/
def setAccount (v : View) (a : Address) (acc : Option AccountView) : View :=
  { v with accounts := Function.update v.accounts a acc }

/-- Change the view of an account that exists; `none` where there is none. -/
def modify (v : View) (a : Address) (f : AccountView → AccountView) : Option View :=
  (v.accounts a).map fun acc => v.setAccount a (some (f acc))

variable {v : View} {a : Address}

@[simp] theorem setAccount_setAccount (x y : Option AccountView) :
    (v.setAccount a x).setAccount a y = v.setAccount a y := by
  simp [setAccount]

theorem setAccount_self {x : Option AccountView} (h : v.accounts a = x) : v.setAccount a x = v := by
  subst h
  simp [setAccount]

theorem modify_setAccount (acc : AccountView) (f : AccountView → AccountView) :
    (v.setAccount a (some acc)).modify a f = some (v.setAccount a (some (f acc))) := by
  simp [modify, setAccount]

/-- Undoing a change of an account gives the view back when it restores the
account's old view. -/
theorem modify_setAccount_undo {old new : AccountView} {f : AccountView → AccountView}
    (h : v.accounts a = some old) (undo : f new = old) :
    (v.setAccount a (some new)).modify a f = some v := by
  rw [modify_setAccount, undo, setAccount_self h]

end View

variable (keccak : Keccak)

/-- The view of an object. -/
def objectView (db : Database) (o : StateObject) : AccountView :=
  ⟨o.data.RandomId, o.data.Balance, o.data.CodeHash, o.Code keccak db, o.GetState, o.suicided⟩

/-- The view of a live object: none once it is deleted. -/
def liveView (db : Database) (o : StateObject) : Option AccountView :=
  if o.deleted then none else some (objectView keccak db o)

/-- The view of the account the trie holds at `a`. -/
def committedView (db : Database) (trie : Address → Option Account) (a : Address) :
    Option AccountView :=
  (trie a).map fun data => objectView keccak db (newObject keccak db a data false)

/-- The view of a state. -/
def StateDB.view (s : StateDB) : View where
  accounts a :=
    match s.stateObjects a with
    | some o => liveView keccak s.db o
    | none => committedView keccak s.db s.trie a
  refund := s.refund
  logs h := (s.logs h).map s.heap
  logSize := s.logSize
  preimages := s.preimages

/-- What reverting each entry does to a view; `none` where the revert panics. -/
def revertView (db : Database) (trie : Address → Option Account) : JournalEntry → View → Option View
  | .createObjectChange account, v => some (v.setAccount account (committedView keccak db trie account))
  | .resetObjectChange prev, v => some (v.setAccount prev.address (liveView keccak db prev))
  | .suicideChange account prev prevbalance, v =>
    some ((v.modify account fun acc => { acc with suicided := prev, Balance := prevbalance }).getD v)
  | .touchChange _, v => some v
  | .balanceChange account prev, v => v.modify account fun acc => { acc with Balance := prev }
  | .nonceChange account prev, v => v.modify account fun acc => { acc with RandomId := prev }
  | .codeChange account prevcode prevhash, v =>
    v.modify account fun acc => { acc with code := prevcode, CodeHash := bytesToHash prevhash }
  | .storageChange account key prevalue, v =>
    v.modify account fun acc => { acc with storage := Function.update acc.storage key prevalue }
  | .refundChange prev, v => some { v with refund := prev }
  | .addLogChange txhash, v =>
    if v.logs txhash = [] then none
    else some { v with logs := Function.update v.logs txhash (v.logs txhash).dropLast, logSize := v.logSize - 1 }
  | .addPreimageChange hash, v => some { v with preimages := Function.update v.preimages hash none }

/-! ## Consistent states -/

/-- A live object at `a`. -/
structure StateObject.Valid (o : StateObject) (a : Address) (trie : Address → Option Account) : Prop where
  address : o.address = a
  codeHash : o.data.CodeHash.length = hashLen
  deleted : o.deleted = true → trie a = none

/-- An entry the journal can revert: an object it reinstates is a live one. -/
def JournalEntry.Valid (trie : Address → Option Account) : JournalEntry → Prop
  | .resetObjectChange prev => prev.Valid prev.address trie
  | _ => True

/-- What the proofs need of a state. -/
structure Consistent (s : StateDB) : Prop where
  objects : ∀ a o, s.stateObjects a = some o → o.Valid a s.trie
  trie : ∀ a data, s.trie a = some data → data.CodeHash.length = hashLen
  journal : ∀ e ∈ s.journal.entries, e.Valid s.trie
  sorted : s.validRevisions.Pairwise fun r r' => r.id < r'.id
  fresh : ∀ r ∈ s.validRevisions, r.id < s.nextRevisionId

namespace Consistent

variable {s t : StateDB}

/-- Consistency reads the live map, the trie, the journal and the revisions. -/
theorem congr (wf : Consistent s) (objects : t.stateObjects = s.stateObjects) (trie : t.trie = s.trie)
    (journal : t.journal = s.journal) (revisions : t.validRevisions = s.validRevisions)
    (next : t.nextRevisionId = s.nextRevisionId) : Consistent t := by
  constructor
  · rw [objects, trie]; exact wf.objects
  · rw [trie]; exact wf.trie
  · rw [journal, trie]; exact wf.journal
  · rw [revisions]; exact wf.sorted
  · rw [revisions, next]; exact wf.fresh

theorem setStateObject (wf : Consistent s) {o : StateObject} {a : Address} (valid : o.Valid a s.trie) :
    Consistent (s.setStateObject o) := by
  have address : o.address = a := valid.address
  subst address
  refine ⟨?_, wf.trie, wf.journal, wf.sorted, wf.fresh⟩
  intro a o' live
  by_cases same : a = o.address
  · subst same
    simp only [StateDB.setStateObject, Function.update_self, Option.some.injEq] at live
    subst live
    exact valid
  · simp only [StateDB.setStateObject, Function.update_of_ne same] at live
    exact wf.objects a o' live

theorem append (wf : Consistent s) {e : JournalEntry} (valid : e.Valid s.trie) :
    Consistent { s with journal := s.journal.append e } := by
  refine ⟨wf.objects, wf.trie, ?_, wf.sorted, wf.fresh⟩
  intro e' mem
  rcases List.mem_append.mp mem with old | new
  · exact wf.journal e' old
  · rw [List.mem_singleton.mp new]
    exact valid

theorem delete (wf : Consistent s) (a : Address) :
    Consistent { s with stateObjects := Function.update s.stateObjects a none } := by
  refine ⟨?_, wf.trie, wf.journal, wf.sorted, wf.fresh⟩
  intro a' o live
  by_cases same : a' = a
  · subst same
    simp at live
  · simp only [Function.update_of_ne same] at live
    exact wf.objects a' o live

theorem take_journal (wf : Consistent s) (n : Nat) :
    Consistent { s with journal := ⟨s.journal.entries.take n⟩ } :=
  ⟨wf.objects, wf.trie, fun e mem => wf.journal e (List.mem_of_mem_take mem), wf.sorted, wf.fresh⟩

/-- A new state is consistent over a trie whose code hashes are hashes. -/
theorem New (db : Database) {trie : Address → Option Account}
    (hashes : ∀ a data, trie a = some data → data.CodeHash.length = hashLen) :
    Consistent (StateDB.New db trie) := by
  refine ⟨?_, hashes, ?_, List.Pairwise.nil, ?_⟩
  · intro a o live
    simp [StateDB.New] at live
  · intro e mem
    simp [StateDB.New] at mem
  · intro r mem
    simp [StateDB.New] at mem

end Consistent

/-! ## The view of the live map -/

namespace StateDB

variable {keccak} {s : StateDB}

theorem view_setStateObject (o : StateObject) :
    (s.setStateObject o).view keccak = (s.view keccak).setAccount o.address (liveView keccak s.db o) := by
  ext1
  · funext a
    by_cases same : a = o.address
    · subst same
      simp [view, setStateObject, View.setAccount]
    · simp [view, setStateObject, View.setAccount, Function.update_of_ne same]
  all_goals rfl

theorem view_delete (a : Address) :
    ({ s with stateObjects := Function.update s.stateObjects a none } : StateDB).view keccak =
      (s.view keccak).setAccount a (committedView keccak s.db s.trie a) := by
  ext1
  · funext a'
    by_cases same : a' = a
    · subst same
      simp [view, View.setAccount]
    · simp [view, View.setAccount, Function.update_of_ne same]
  all_goals rfl

/-- What `getStateObject` does: a deleted live object is none, a live one is
itself, and an account only the trie holds is loaded into the live set. -/
theorem getStateObject_cases (keccak : Keccak) (s : StateDB) (a : Address) :
    (∃ o, s.stateObjects a = some o ∧ o.deleted = true ∧ s.getStateObject keccak a = (none, s)) ∨
    (∃ o, s.stateObjects a = some o ∧ o.deleted = false ∧ s.getStateObject keccak a = (some o, s)) ∨
    (s.stateObjects a = none ∧ s.trie a = none ∧ s.getStateObject keccak a = (none, s)) ∨
    (∃ data, s.stateObjects a = none ∧ s.trie a = some data ∧
      s.getStateObject keccak a =
        (some (newObject keccak s.db a data false), s.setStateObject (newObject keccak s.db a data false))) := by
  cases hlive : s.stateObjects a with
  | some o =>
    cases hd : o.deleted with
    | true => exact .inl ⟨o, rfl, hd, by simp [getStateObject, hlive, hd]⟩
    | false => exact .inr (.inl ⟨o, rfl, hd, by simp [getStateObject, hlive, hd]⟩)
  | none =>
    cases htrie : s.trie a with
    | none => exact .inr (.inr (.inl ⟨rfl, rfl, by simp [getStateObject, hlive, htrie]⟩))
    | some data => exact .inr (.inr (.inr ⟨data, rfl, rfl, by simp [getStateObject, hlive, htrie]⟩))

/-- `getStateObject` returns what the view shows. -/
theorem view_accounts (a : Address) :
    (s.view keccak).accounts a = (s.getStateObject keccak a).1.map (objectView keccak s.db) := by
  rcases getStateObject_cases keccak s a with ⟨o, live, del, eq⟩ | ⟨o, live, del, eq⟩ | ⟨live, absent, eq⟩ |
    ⟨data, live, present, eq⟩
  all_goals simp [view, liveView, committedView, *]

/-- `getStateObject` changes the live map only. -/
theorem getStateObject_snd (a : Address) :
    (s.getStateObject keccak a).2 = { s with stateObjects := (s.getStateObject keccak a).2.stateObjects } := by
  rcases getStateObject_cases keccak s a with ⟨_, _, _, eq⟩ | ⟨_, _, _, eq⟩ | ⟨_, _, eq⟩ | ⟨_, _, _, eq⟩
  · rw [eq]
  · rw [eq]
  · rw [eq]
  · rw [eq]
    rfl

/-- Loading an account into the live set leaves the view as it was. -/
theorem view_getStateObject (a : Address) : (s.getStateObject keccak a).2.view keccak = s.view keccak := by
  rcases getStateObject_cases keccak s a with ⟨_, _, _, eq⟩ | ⟨_, _, _, eq⟩ | ⟨_, _, eq⟩ |
    ⟨data, live, present, eq⟩
  · rw [eq]
  · rw [eq]
  · rw [eq]
  · rw [eq, view_setStateObject]
    apply View.setAccount_self
    simp [view, live, present, liveView, committedView, newObject]

/-- What `getStateObject` finds is live and consistent. -/
theorem getStateObject_some (wf : Consistent s) {a : Address} {o : StateObject}
    (h : (s.getStateObject keccak a).1 = some o) :
    (s.getStateObject keccak a).2.stateObjects a = some o ∧ o.deleted = false ∧ o.Valid a s.trie := by
  rcases getStateObject_cases keccak s a with ⟨_, _, _, eq⟩ | ⟨o', live, del, eq⟩ | ⟨_, _, eq⟩ |
    ⟨data, live, present, eq⟩
  · rw [eq] at h; cases h
  · rw [eq] at h ⊢
    cases h
    exact ⟨live, del, wf.objects a o live⟩
  · rw [eq] at h; cases h
  · rw [eq] at h ⊢
    cases h
    refine ⟨by simp [setStateObject, newObject], rfl, rfl, length_newObject_CodeHash (.inr (wf.trie a data present)), ?_⟩
    intro h
    cases h

/-- What `getStateObject` does not find, the trie does not hold. -/
theorem getStateObject_none (wf : Consistent s) {a : Address} (h : (s.getStateObject keccak a).1 = none) :
    (s.getStateObject keccak a).2 = s ∧ s.trie a = none := by
  rcases getStateObject_cases keccak s a with ⟨o, live, del, eq⟩ | ⟨_, _, _, eq⟩ | ⟨_, absent, eq⟩ |
    ⟨_, _, _, eq⟩
  · rw [eq]
    exact ⟨rfl, (wf.objects a o live).deleted del⟩
  · rw [eq] at h; cases h
  · rw [eq]
    exact ⟨rfl, absent⟩
  · rw [eq] at h; cases h

end StateDB

theorem Consistent.getStateObject {keccak : Keccak} {s : StateDB} (wf : Consistent s) (a : Address) :
    Consistent (s.getStateObject keccak a).2 := by
  rcases StateDB.getStateObject_cases keccak s a with ⟨_, _, _, eq⟩ | ⟨_, _, _, eq⟩ | ⟨_, _, eq⟩ |
    ⟨data, live, present, eq⟩
  · rw [eq]; exact wf
  · rw [eq]; exact wf
  · rw [eq]; exact wf
  · rw [eq]
    exact wf.setStateObject ⟨rfl, length_newObject_CodeHash (.inr (wf.trie a data present)), fun h => by cases h⟩

namespace StateDB

variable {keccak} {s : StateDB}

/-! ## Reverting an entry -/

/-- `t` keeps what reverting an entry leaves alone. -/
structure Keeps (s t : StateDB) : Prop where
  db : t.db = s.db
  trie : t.trie = s.trie
  journal : t.journal = s.journal
  validRevisions : t.validRevisions = s.validRevisions
  nextRevisionId : t.nextRevisionId = s.nextRevisionId

theorem Keeps.refl (s : StateDB) : Keeps s s := ⟨rfl, rfl, rfl, rfl, rfl⟩

theorem Keeps.trans {t u : StateDB} (h₁ : Keeps s t) (h₂ : Keeps t u) : Keeps s u :=
  ⟨h₂.db.trans h₁.db, h₂.trie.trans h₁.trie, h₂.journal.trans h₁.journal,
    h₂.validRevisions.trans h₁.validRevisions, h₂.nextRevisionId.trans h₁.nextRevisionId⟩

theorem Keeps.of_stateObjects {t : StateDB} (h : t = { s with stateObjects := t.stateObjects }) : Keeps s t := by
  rw [h]
  exact ⟨rfl, rfl, rfl, rfl, rfl⟩

theorem keeps_getStateObject (a : Address) : Keeps s (s.getStateObject keccak a).2 :=
  Keeps.of_stateObjects (getStateObject_snd a)

/-- Writing back a live object sets the view of its account. -/
theorem view_write {o : StateObject} {a : Address} (addr : o.address = a) (alive : o.deleted = false) :
    (s.setStateObject o).view keccak = (s.view keccak).setAccount a (some (objectView keccak s.db o)) := by
  simp only [view_setStateObject, liveView, alive, addr, Bool.false_eq_true, if_false]

theorem objectView_setState (db : Database) (o : StateObject) (key value : Hash) :
    objectView keccak db (o.setState key value) =
      { objectView keccak db o with storage := Function.update o.GetState key value } := by
  have storage : (o.setState key value).GetState = Function.update o.GetState key value := by
    funext k
    rw [GetState_setState, Function.update_apply]
  unfold objectView
  rw [Code_setState, storage]
  rfl

/-- The entries for one field of an account revert as `View.modify` says, when
setting the field changes the object's view as `f` changes it. -/
theorem revertField_view (wf : Consistent s) {a : Address} {set : StateObject → StateObject}
    {f : AccountView → AccountView} {v : View}
    (keep : ∀ o, o.Valid a s.trie → o.deleted = false → (set o).Valid a s.trie ∧ (set o).deleted = false)
    (agree : ∀ o, objectView keccak s.db (set o) = f (objectView keccak s.db o))
    (h : (s.view keccak).modify a f = some v) :
    ∃ t, JournalEntry.revertField keccak s a set = .ok t ∧ t.view keccak = v ∧ Consistent t ∧ Keeps s t := by
  obtain ⟨acc, seen, rfl⟩ := Option.map_eq_some_iff.mp h
  rw [view_accounts] at seen
  obtain ⟨o, found, rfl⟩ := Option.map_eq_some_iff.mp seen
  obtain ⟨live, alive, valid⟩ := getStateObject_some wf found
  obtain ⟨valid', alive'⟩ := keep o valid alive
  have keeps : Keeps s (s.getStateObject keccak a).2 := keeps_getStateObject a
  have hg : s.getStateObject keccak a = (some o, (s.getStateObject keccak a).2) := Prod.ext found rfl
  refine ⟨_, by rw [JournalEntry.revertField, hg], ?_, ?_, ?_⟩
  · rw [view_write valid'.address alive', view_getStateObject, keeps.db, agree]
  · exact (wf.getStateObject a).setStateObject (by rw [keeps.trie]; exact valid')
  · exact keeps.trans (Keeps.of_stateObjects rfl)

/-- Reverting a log slices it one short. -/
theorem revert_addLogChange {txhash : Hash} (nonempty : s.logs txhash ≠ []) :
    (JournalEntry.addLogChange txhash).revert keccak s =
      .ok { s with logs := Function.update s.logs txhash (s.logs txhash).dropLast, logSize := s.logSize - 1 } := by
  have some : (s.logs txhash).length ≠ 0 := by simpa using nonempty
  by_cases one : (s.logs txhash).length = 1
  · obtain ⟨log, single⟩ := List.length_eq_one_iff.mp one
    simp [JournalEntry.revert, single]
  · simp [JournalEntry.revert, one, some, List.dropLast_eq_take]

/-- Reverting an entry of a consistent state does to its view what
`revertView` says, with no panic where `revertView` is defined. -/
theorem revert_view (wf : Consistent s) {e : JournalEntry} (valid : e.Valid s.trie) {v : View}
    (h : revertView keccak s.db s.trie e (s.view keccak) = some v) :
    ∃ t, e.revert keccak s = .ok t ∧ t.view keccak = v ∧ Consistent t ∧ Keeps s t := by
  cases e with
  | createObjectChange account =>
    cases h
    exact ⟨_, rfl, view_delete account, wf.delete account, Keeps.of_stateObjects rfl⟩
  | resetObjectChange prev =>
    cases h
    exact ⟨_, rfl, view_setStateObject prev, wf.setStateObject valid, Keeps.of_stateObjects rfl⟩
  | suicideChange account prev prevbalance =>
    cases h
    cases found : (s.getStateObject keccak account).1 with
    | none =>
      -- no account: the revert changes nothing, and neither does the view's
      obtain ⟨same, -⟩ := getStateObject_none wf found
      have seen : (s.view keccak).accounts account = none := by rw [view_accounts, found]; rfl
      refine ⟨s, ?_, by simp [View.modify, seen], wf, Keeps.refl s⟩
      rw [JournalEntry.revert, show s.getStateObject keccak account = (none, s) from Prod.ext found same]
    | some o =>
      obtain ⟨-, alive, valid⟩ := getStateObject_some wf found
      have keeps : Keeps s (s.getStateObject keccak account).2 := keeps_getStateObject account
      have seen : (s.view keccak).accounts account = some (objectView keccak s.db o) := by
        rw [view_accounts, found]; rfl
      refine ⟨(s.getStateObject keccak account).2.setStateObject ({ o with suicided := prev }.setBalance prevbalance),
        ?_, ?_, ?_, keeps.trans (Keeps.of_stateObjects rfl)⟩
      · rw [JournalEntry.revert, show s.getStateObject keccak account =
          (some o, (s.getStateObject keccak account).2) from Prod.ext found rfl]
      · have addr : ({ o with suicided := prev }.setBalance prevbalance).address = account := valid.address
        have alive' : ({ o with suicided := prev }.setBalance prevbalance).deleted = false := alive
        rw [view_write addr alive', view_getStateObject, keeps.db, View.modify, seen]
        rfl
      · exact (wf.getStateObject account).setStateObject
          (by rw [keeps.trie]; exact ⟨valid.address, valid.codeHash, valid.deleted⟩)
  | touchChange account =>
    cases h
    exact ⟨s, rfl, rfl, wf, Keeps.refl s⟩
  | balanceChange account prev =>
    exact revertField_view wf (fun o valid alive => ⟨⟨valid.address, valid.codeHash, valid.deleted⟩, alive⟩)
      (fun o => rfl) h
  | nonceChange account prev =>
    exact revertField_view wf (fun o valid alive => ⟨⟨valid.address, valid.codeHash, valid.deleted⟩, alive⟩)
      (fun o => rfl) h
  | codeChange account prevcode prevhash =>
    exact revertField_view wf
      (fun o valid alive => ⟨⟨valid.address, Trie.length_bytesToHash prevhash, valid.deleted⟩, alive⟩)
      (fun o => rfl) h
  | storageChange account key prevalue =>
    exact revertField_view wf (fun o valid alive => ⟨⟨valid.address, valid.codeHash, valid.deleted⟩, alive⟩)
      (fun o => objectView_setState s.db o key prevalue) h
  | refundChange prev =>
    cases h
    exact ⟨_, rfl, rfl, wf.congr rfl rfl rfl rfl rfl, ⟨rfl, rfl, rfl, rfl, rfl⟩⟩
  | addLogChange txhash =>
    simp only [revertView] at h
    split at h
    · cases h
    · rename_i nonempty
      cases h
      have held : s.logs txhash ≠ [] := fun e => nonempty (by simp [view, e])
      -- dropping the last pointer drops the last log the view shows
      have logs : (fun h => (Function.update s.logs txhash (s.logs txhash).dropLast h).map s.heap) =
          Function.update (s.view keccak).logs txhash ((s.view keccak).logs txhash).dropLast := by
        funext h
        by_cases e : h = txhash
        · subst e
          simp [view, List.map_dropLast]
        · simp [view, e]
      exact ⟨_, revert_addLogChange held, View.ext rfl rfl logs rfl rfl, wf.congr rfl rfl rfl rfl rfl,
        ⟨rfl, rfl, rfl, rfl, rfl⟩⟩
  | addPreimageChange hash =>
    cases h
    exact ⟨_, rfl, rfl, wf.congr rfl rfl rfl rfl rfl, ⟨rfl, rfl, rfl, rfl, rfl⟩⟩

/-- The entries for one field of an account keep a state consistent when
setting the field keeps a live object valid. -/
theorem revertField_consistent (wf : Consistent s) {a : Address} {set : StateObject → StateObject}
    {t : StateDB} (h : JournalEntry.revertField keccak s a set = .ok t)
    (keep : ∀ o, o.Valid a s.trie → (set o).Valid a s.trie) : Consistent t ∧ Keeps s t := by
  cases found : (s.getStateObject keccak a).1 with
  | none =>
    rw [JournalEntry.revertField, show s.getStateObject keccak a = (none, (s.getStateObject keccak a).2)
      from Prod.ext found rfl] at h
    cases h
  | some o =>
    obtain ⟨-, -, valid⟩ := getStateObject_some wf found
    have keeps : Keeps s (s.getStateObject keccak a).2 := keeps_getStateObject a
    rw [JournalEntry.revertField, show s.getStateObject keccak a = (some o, (s.getStateObject keccak a).2)
      from Prod.ext found rfl] at h
    cases h
    exact ⟨(wf.getStateObject a).setStateObject (by rw [keeps.trie]; exact keep o valid),
      keeps.trans (Keeps.of_stateObjects rfl)⟩

/-- Reverting any entry of a consistent state keeps it consistent, where the
revert does not panic. -/
theorem consistent_revert (wf : Consistent s) {e : JournalEntry} (valid : e.Valid s.trie) {t : StateDB}
    (h : e.revert keccak s = .ok t) : Consistent t ∧ Keeps s t := by
  cases e with
  | createObjectChange account =>
    cases h
    exact ⟨wf.delete account, Keeps.of_stateObjects rfl⟩
  | resetObjectChange prev =>
    cases h
    exact ⟨wf.setStateObject valid, Keeps.of_stateObjects rfl⟩
  | suicideChange account prev prevbalance =>
    cases found : (s.getStateObject keccak account).1 with
    | none =>
      obtain ⟨same, -⟩ := getStateObject_none wf found
      rw [JournalEntry.revert, show s.getStateObject keccak account = (none, s) from Prod.ext found same] at h
      cases h
      exact ⟨wf, Keeps.refl s⟩
    | some o =>
      obtain ⟨-, -, valid⟩ := getStateObject_some wf found
      have keeps : Keeps s (s.getStateObject keccak account).2 := keeps_getStateObject account
      rw [JournalEntry.revert, show s.getStateObject keccak account =
        (some o, (s.getStateObject keccak account).2) from Prod.ext found rfl] at h
      cases h
      exact ⟨(wf.getStateObject account).setStateObject
          (by rw [keeps.trie]; exact ⟨valid.address, valid.codeHash, valid.deleted⟩),
        keeps.trans (Keeps.of_stateObjects rfl)⟩
  | touchChange account =>
    cases h
    exact ⟨wf, Keeps.refl s⟩
  | balanceChange account prev =>
    rw [JournalEntry.revert] at h
    exact revertField_consistent wf h fun o valid => ⟨valid.address, valid.codeHash, valid.deleted⟩
  | nonceChange account prev =>
    rw [JournalEntry.revert] at h
    exact revertField_consistent wf h fun o valid => ⟨valid.address, valid.codeHash, valid.deleted⟩
  | codeChange account prevcode prevhash =>
    rw [JournalEntry.revert] at h
    exact revertField_consistent wf h fun o valid =>
      ⟨valid.address, Trie.length_bytesToHash prevhash, valid.deleted⟩
  | storageChange account key prevalue =>
    rw [JournalEntry.revert] at h
    exact revertField_consistent wf h fun o valid => ⟨valid.address, valid.codeHash, valid.deleted⟩
  | refundChange prev =>
    cases h
    exact ⟨wf.congr rfl rfl rfl rfl rfl, ⟨rfl, rfl, rfl, rfl, rfl⟩⟩
  | addLogChange txhash =>
    -- one log, several, or none (the panic)
    simp only [JournalEntry.revert] at h
    split at h
    · cases h
      exact ⟨wf.congr rfl rfl rfl rfl rfl, ⟨rfl, rfl, rfl, rfl, rfl⟩⟩
    · split at h
      · cases h
      · cases h
        exact ⟨wf.congr rfl rfl rfl rfl rfl, ⟨rfl, rfl, rfl, rfl, rfl⟩⟩
  | addPreimageChange hash =>
    cases h
    exact ⟨wf.congr rfl rfl rfl rfl rfl, ⟨rfl, rfl, rfl, rfl, rfl⟩⟩

end StateDB

/-- Reverting the journal to a snapshot gives the view that undoing its entries
from there gives, keeps the state consistent, and drops those entries. -/
theorem Journal.revert_view {keccak : Keccak} {s : StateDB} (wf : Consistent s) {snapshot : Nat} {v : View}
    (h : UndoLog.Undoes (revertView keccak s.db s.trie) v (s.journal.entries.drop snapshot) (s.view keccak)) :
    ∃ t, s.journal.revert keccak s snapshot = .ok t ∧ t.view keccak = v ∧ Consistent t ∧
      t.journal.entries = s.journal.entries.take snapshot ∧ t.db = s.db ∧ t.trie = s.trie ∧
      t.validRevisions = s.validRevisions ∧ t.nextRevisionId = s.nextRevisionId := by
  -- each entry of the suffix reverts as `revertView` says, in any state that keeps the frame
  have sim : ∀ e ∈ s.journal.entries.drop snapshot, ∀ t v, Consistent t ∧ StateDB.Keeps s t →
      revertView keccak s.db s.trie e (t.view keccak) = some v →
      ∃ t', e.revert keccak t = .ok t' ∧ t'.view keccak = v ∧ (Consistent t' ∧ StateDB.Keeps s t') := by
    intro e mem t v ⟨good, keeps⟩ undo
    have valid : e.Valid t.trie := good.journal e (by rw [keeps.journal]; exact List.mem_of_mem_drop mem)
    rw [← keeps.db, ← keeps.trie] at undo
    obtain ⟨t', run, seen, good', keeps'⟩ := StateDB.revert_view good valid undo
    exact ⟨t', run, seen, good', keeps.trans keeps'⟩
  have all : ∀ {t v}, Consistent t ∧ StateDB.Keeps s t →
      UndoLog.Undoes (revertView keccak s.db s.trie) v (s.journal.entries.drop snapshot) (t.view keccak) →
      ∃ t', UndoLog.revertAll (JournalEntry.revert keccak) (s.journal.entries.drop snapshot) t = .ok t' ∧
        t'.view keccak = v ∧ (Consistent t' ∧ StateDB.Keeps s t') :=
    UndoLog.revertAll_of_undoes sim
  obtain ⟨t, run, seen, good, keeps⟩ := all ⟨wf, StateDB.Keeps.refl s⟩ h
  have good' : Consistent { t with journal := ⟨s.journal.entries.take snapshot⟩ } := by
    rw [← keeps.journal]
    exact good.take_journal snapshot
  refine ⟨{ t with journal := ⟨s.journal.entries.take snapshot⟩ }, ?_, seen, good', rfl, keeps.db, keeps.trie,
    keeps.validRevisions, keeps.nextRevisionId⟩
  rw [Journal.revert, run]
  rfl

/-- Reverting the journal to any index keeps a consistent state consistent,
where no entry panics. -/
theorem Journal.consistent_revert {keccak : Keccak} {s t : StateDB} (wf : Consistent s) {snapshot : Nat}
    (h : s.journal.revert keccak s snapshot = .ok t) :
    Consistent t ∧ t.journal.entries = s.journal.entries.take snapshot ∧ t.db = s.db ∧ t.trie = s.trie ∧
      t.validRevisions = s.validRevisions ∧ t.nextRevisionId = s.nextRevisionId := by
  -- each entry of the suffix keeps the state consistent and the frame of `s`
  have step : ∀ e ∈ s.journal.entries.drop snapshot, ∀ t t', Consistent t ∧ StateDB.Keeps s t →
      e.revert keccak t = .ok t' → Consistent t' ∧ StateDB.Keeps s t' := by
    intro e mem t t' ⟨good, keeps⟩ run
    have valid : e.Valid t.trie := good.journal e (by rw [keeps.journal]; exact List.mem_of_mem_drop mem)
    obtain ⟨good', keeps'⟩ := StateDB.consistent_revert good valid run
    exact ⟨good', keeps.trans keeps'⟩
  obtain ⟨t₀, run, rfl⟩ := Except.map_eq_ok_iff.mp h
  obtain ⟨good, keeps⟩ := UndoLog.revertAll_invariant step ⟨wf, StateDB.Keeps.refl s⟩ run
  have good' : Consistent { t₀ with journal := ⟨s.journal.entries.take snapshot⟩ } := by
    rw [← keeps.journal]
    exact good.take_journal snapshot
  exact ⟨good', rfl, keeps.db, keeps.trie, keeps.validRevisions, keeps.nextRevisionId⟩

end FiscoBcos.State
