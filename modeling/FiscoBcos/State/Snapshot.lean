import FiscoBcos.State.Setters
import Mathlib

/-!
# A revert to a snapshot restores what the getters see

`Op` is a call a transaction makes on a `StateDB`, and `Op.runAll` runs calls
in order and stops at the first panic.

After `Snapshot` returns its id in the state `base`, every call keeps
`Tracked base`: the state is consistent and keeps the database and the trie,
its journal extends the one of `base` with entries that undo back to the view
of `base`, and its revisions are those of `base` followed by later ones whose
journal indices lie past the snapshot's and increase. The setters keep it
because they are journaled (`State.Setters`); a nested `Snapshot` pushes a
later revision; a `RevertToSnapshot` of a later id finds a later revision and
reverts to a point inside the tracked part of the journal
(`UndoLog.Undoes.split`).

`RevertToSnapshot` of the snapshot's own id then finds it where `Snapshot` put
it (`Search.search_eq`), undoes the whole tracked part and drops every later
revision: each getter answers as right after the snapshot, and every revision
older than the snapshot can still be reverted to (`RevertToSnapshot_restores`).
-/

namespace FiscoBcos.State

open StateObject StateDB

/-- A call on a `StateDB`. -/
inductive Op where
  | AddBalance (addr : Address) (amount : Int)
  | SubBalance (addr : Address) (amount : Int)
  | SetBalance (addr : Address) (amount : Int)
  | SetNonce (addr : Address) (nonce : UInt64)
  | SetCode (addr : Address) (code : List UInt8)
  | SetState (addr : Address) (key value : Hash)
  | Suicide (addr : Address)
  | CreateAccount (addr : Address)
  | AddLog (log : LogPointer) (value : Log)
  | AddPreimage (hash : Hash) (preimage : List UInt8)
  | AddRefund (gas : UInt64)
  | SubRefund (gas : UInt64)
  | Snapshot
  | RevertToSnapshot (revid : Nat)

namespace Op

variable (keccak : Keccak)

/-- One call; a panic is an error. -/
def run : Op → StateDB → Except String StateDB
  | .AddBalance addr amount, s => .ok (s.AddBalance keccak addr amount)
  | .SubBalance addr amount, s => .ok (s.SubBalance keccak addr amount)
  | .SetBalance addr amount, s => .ok (s.SetBalance keccak addr amount)
  | .SetNonce addr nonce, s => .ok (s.SetNonce keccak addr nonce)
  | .SetCode addr code, s => .ok (s.SetCode keccak addr code)
  | .SetState addr key value, s => .ok (s.SetState keccak addr key value)
  | .Suicide addr, s => .ok (s.Suicide keccak addr).2
  | .CreateAccount addr, s => .ok (s.CreateAccount keccak addr)
  | .AddLog log value, s => .ok (s.AddLog log value)
  | .AddPreimage hash preimage, s => .ok (s.AddPreimage hash preimage)
  | .AddRefund gas, s => .ok (s.AddRefund gas)
  | .SubRefund gas, s => s.SubRefund gas
  | .Snapshot, s => .ok s.Snapshot.2
  | .RevertToSnapshot revid, s => s.RevertToSnapshot keccak revid

/-- Calls in order, up to the first panic. -/
def runAll : List Op → StateDB → Except String StateDB
  | [], s => .ok s
  | op :: ops, s => (op.run keccak s).bind (runAll ops)

/-- A call that gives `AddLog` a log the state does not point to yet. -/
def Fresh (s : StateDB) : Op → Prop
  | .AddLog log _ => ∀ h, log ∉ s.logs h
  | _ => True

/-- Every call of a run gives `AddLog` a log the state does not point to yet. -/
def FreshLogs : List Op → StateDB → Prop
  | [], _ => True
  | op :: ops, s => op.Fresh s ∧ ∀ t, op.run keccak s = .ok t → FreshLogs ops t

end Op

/-! ## What `RevertToSnapshot` does -/

namespace StateDB

variable {keccak : Keccak} {s t : StateDB}

/-- The predicate `sort.Search` runs over the revisions. -/
def revisionAtLeast (vr : List Revision) (revid : Nat) (i : Nat) : Bool :=
  decide (revid ≤ (vr.getD i default).id)

/-- Over increasing ids it is monotone. -/
theorem monotone_revisionAtLeast {vr : List Revision} (sorted : vr.Pairwise fun r r' => r.id < r'.id)
    (revid : Nat) : Search.MonotoneBelow (revisionAtLeast vr revid) vr.length := by
  intro i j le lt hit
  simp only [revisionAtLeast, decide_eq_true_eq, List.getD_eq_getElem?_getD] at hit ⊢
  rw [List.getElem?_eq_getElem lt, Option.getD_some]
  rw [List.getElem?_eq_getElem (Nat.lt_of_le_of_lt le lt), Option.getD_some] at hit
  rcases Nat.lt_or_eq_of_le le with lt' | rfl
  · exact Nat.le_of_lt (Nat.lt_of_le_of_lt hit (List.pairwise_iff_getElem.mp sorted i j _ lt lt'))
  · exact hit

/-- A successful `RevertToSnapshot` found its revision and reverted to it. -/
theorem RevertToSnapshot_eq_ok {revid : Nat} (h : s.RevertToSnapshot keccak revid = .ok t) :
    ∃ idx r t₀, s.validRevisions[idx]? = some r ∧ r.id = revid ∧
      s.journal.revert keccak s r.journalIndex = .ok t₀ ∧ t = { t₀ with validRevisions := t₀.validRevisions.take idx } := by
  unfold RevertToSnapshot at h
  dsimp only at h
  split at h
  · cases h
  · rename_i r found
    split at h
    · cases h
    · rename_i same
      obtain ⟨t₀, run, rfl⟩ := Except.map_eq_ok_iff.mp h
      exact ⟨_, r, t₀, found, not_not.mp same, run, rfl⟩

/-- `RevertToSnapshot` of a revision `sort.Search` finds. -/
theorem RevertToSnapshot_of_found {revid idx : Nat} {r : Revision} {t₀ : StateDB}
    (search : Search.search s.validRevisions.length (revisionAtLeast s.validRevisions revid) = idx)
    (found : s.validRevisions[idx]? = some r) (same : r.id = revid)
    (run : s.journal.revert keccak s r.journalIndex = .ok t₀) :
    s.RevertToSnapshot keccak revid = .ok { t₀ with validRevisions := t₀.validRevisions.take idx } := by
  unfold RevertToSnapshot
  dsimp only
  rw [show (fun i => decide (revid ≤ (s.validRevisions.getD i default).id)) =
    revisionAtLeast s.validRevisions revid from rfl, search, found]
  simp [same, run]

end StateDB

/-- Dropping the later revisions keeps a state consistent. -/
theorem Consistent.take_revisions {s : StateDB} (wf : Consistent s) (idx : Nat) :
    Consistent { s with validRevisions := s.validRevisions.take idx } :=
  ⟨wf.objects, wf.trie, wf.journal, wf.sorted.sublist (List.take_sublist _ _),
    fun r mem => wf.fresh r (List.mem_of_mem_take mem)⟩

/-- `Snapshot` pushes an id newer than every revision. -/
theorem Consistent.Snapshot {s : StateDB} (wf : Consistent s) : Consistent s.Snapshot.2 := by
  refine ⟨wf.objects, wf.trie, wf.journal, ?_, ?_⟩
  · exact List.pairwise_append.mpr ⟨wf.sorted, List.pairwise_singleton _ _,
      fun r mem r' mem' => by rw [List.mem_singleton.mp mem']; exact wf.fresh r mem⟩
  · intro r mem
    rcases List.mem_append.mp mem with old | new
    · exact Nat.lt_succ_of_lt (wf.fresh r old)
    · rw [List.mem_singleton.mp new]
      exact Nat.lt_succ_self _

/-- A revert to any revision keeps a state consistent. -/
theorem Consistent.RevertToSnapshot {keccak : Keccak} {s t : StateDB} (wf : Consistent s) {revid : Nat}
    (h : s.RevertToSnapshot keccak revid = .ok t) : Consistent t := by
  obtain ⟨idx, r, t₀, -, -, run, rfl⟩ := RevertToSnapshot_eq_ok h
  exact (Journal.consistent_revert wf run).1.take_revisions idx

/-! ## The run after a snapshot -/

variable (keccak : Keccak)

/-- The run after a snapshot taken in `base`. -/
structure Tracked (base s : StateDB) : Prop where
  consistent : Consistent s
  db : s.db = base.db
  trie : s.trie = base.trie
  length : base.journal.length ≤ s.journal.length
  undoes : UndoLog.Undoes (revertView keccak base.db base.trie) (base.view keccak)
    (s.journal.entries.drop base.journal.length) (s.view keccak)
  next : base.nextRevisionId ≤ s.nextRevisionId
  older : ∀ r ∈ base.validRevisions, r.id < base.nextRevisionId
  revisions : ∃ later, s.validRevisions = base.validRevisions ++ later ∧
    (∀ r ∈ later, base.nextRevisionId ≤ r.id ∧ base.journal.length ≤ r.journalIndex ∧
      r.journalIndex ≤ s.journal.length) ∧
    later.Pairwise fun r r' => r.journalIndex ≤ r'.journalIndex

namespace Tracked

variable {keccak} {base s t : StateDB}

theorem start (wf : Consistent base) : Tracked keccak base base := by
  refine ⟨wf, rfl, rfl, Nat.le_refl _, ?_, Nat.le_refl _, wf.fresh, [], (List.append_nil _).symm,
    fun _ mem => absurd mem List.not_mem_nil, List.Pairwise.nil⟩
  rw [Journal.length, List.drop_length]
  exact UndoLog.Undoes.nil _

/-- A journaled change extends the tracked part of the journal. -/
theorem journaled (tr : Tracked keccak base s) (j : Journaled keccak s t) : Tracked keccak base t := by
  obtain ⟨es, journal, undo⟩ := j.undoes
  obtain ⟨later, revisions, bounds, sorted⟩ := tr.revisions
  have grows : s.journal.length ≤ t.journal.length := by
    simp only [Journal.length, journal, List.length_append]
    omega
  refine ⟨j.consistent, j.db.trans tr.db, j.trie.trans tr.trie, Nat.le_trans tr.length grows, ?_,
    j.nextRevisionId ▸ tr.next, tr.older, later, j.validRevisions.trans revisions, fun r mem => ?_, sorted⟩
  · rw [journal, List.drop_append_of_le_length tr.length]
    rw [tr.db, tr.trie] at undo
    exact tr.undoes.append undo
  · obtain ⟨newer, past, within⟩ := bounds r mem
    exact ⟨newer, past, Nat.le_trans within grows⟩

/-- A nested `Snapshot` pushes a later revision. -/
theorem Snapshot (tr : Tracked keccak base s) : Tracked keccak base s.Snapshot.2 := by
  obtain ⟨later, revisions, bounds, sorted⟩ := tr.revisions
  refine ⟨tr.consistent.Snapshot, tr.db, tr.trie, tr.length, tr.undoes, Nat.le_succ_of_le tr.next, tr.older,
    later ++ [⟨s.nextRevisionId, s.journal.length⟩], ?_, ?_, ?_⟩
  · show s.validRevisions ++ _ = _
    rw [revisions, List.append_assoc]
  · intro r mem
    rcases List.mem_append.mp mem with old | new
    · exact bounds r old
    · rw [List.mem_singleton.mp new]
      exact ⟨tr.next, tr.length, Nat.le_refl _⟩
  · exact List.pairwise_append.mpr ⟨sorted, List.pairwise_singleton _ _,
      fun r mem r' mem' => by rw [List.mem_singleton.mp mem']; exact (bounds r mem).2.2⟩

/-- What a list holds at an index starts its suffix there. -/
theorem mem_drop_of_getElem? {α : Type} {l : List α} {k : Nat} {x : α} (h : l[k]? = some x) : x ∈ l.drop k :=
  List.mem_iff_getElem?.mpr ⟨0, by rw [List.getElem?_drop, Nat.add_zero, h]⟩

/-- A `RevertToSnapshot` of a later id reverts to a point of the tracked part. -/
theorem RevertToSnapshot (tr : Tracked keccak base s) {revid : Nat} (newer : base.nextRevisionId ≤ revid)
    (h : s.RevertToSnapshot keccak revid = .ok t) : Tracked keccak base t := by
  obtain ⟨idx, r, t₀, found, same, run, rfl⟩ := RevertToSnapshot_eq_ok h
  obtain ⟨later, revisions, bounds, sorted⟩ := tr.revisions
  rw [revisions] at found
  -- the revision is a later one: those of `base` are older than `revid`
  have past : base.validRevisions.length ≤ idx := by
    refine Nat.le_of_not_lt fun lt => ?_
    rw [List.getElem?_append_left lt] at found
    have older := tr.older r (List.mem_of_getElem? found)
    omega
  rw [List.getElem?_append_right past] at found
  obtain ⟨_, after, within⟩ := bounds r (List.mem_of_getElem? found)
  -- undoing to the revision's index passes through the view it was taken in
  have split : s.journal.entries.drop base.journal.length =
      (s.journal.entries.take r.journalIndex).drop base.journal.length ++ s.journal.entries.drop r.journalIndex := by
    conv_lhs => rw [← List.take_append_drop r.journalIndex s.journal.entries]
    rw [List.drop_append_of_le_length (by rw [List.length_take]; exact Nat.le_min.mpr ⟨after, tr.length⟩)]
  have undo := tr.undoes
  rw [split] at undo
  obtain ⟨u, toMark, fromMark⟩ := UndoLog.Undoes.split undo
  rw [← tr.db, ← tr.trie] at toMark
  obtain ⟨t₁, run₁, seen, good, journal, db, trie, keptRevisions, next⟩ := Journal.revert_view tr.consistent toMark
  rw [run] at run₁
  cases run₁
  have shortened : ({ t₀ with validRevisions := t₀.validRevisions.take idx } : StateDB).journal.length =
      r.journalIndex := by
    show t₀.journal.entries.length = _
    rw [journal, List.length_take, Nat.min_eq_left (show r.journalIndex ≤ s.journal.entries.length from within)]
  refine ⟨?_, db.trans tr.db, trie.trans tr.trie, by rw [shortened]; exact after, ?_, next ▸ tr.next, tr.older,
    later.take (idx - base.validRevisions.length), ?_, fun r' mem => ?_, sorted.sublist (List.take_sublist _ _)⟩
  · exact good.take_revisions idx
  · show UndoLog.Undoes _ _ (t₀.journal.entries.drop _) (t₀.view keccak)
    rw [journal, seen]
    exact fromMark
  · show t₀.validRevisions.take idx = _
    rw [keptRevisions, revisions, List.take_append, List.take_of_length_le past]
  · obtain ⟨newer', after', -⟩ := bounds r' (List.mem_of_mem_take mem)
    refine ⟨newer', after', ?_⟩
    rw [shortened]
    -- the earlier revisions have indices no larger than the one reverted to
    have parts := List.pairwise_append.mp
      ((List.take_append_drop (idx - base.validRevisions.length) later).symm ▸ sorted)
    exact parts.2.2 r' mem r (mem_drop_of_getElem? found)

end Tracked

/-- What one call of a consistent state does: a journaled change, a snapshot
or a revert. -/
theorem Op.run_cases {s t : StateDB} (wf : Consistent s) {op : Op} (fresh : op.Fresh s)
    (run : op.run keccak s = .ok t) :
    Journaled keccak s t ∨ (op = .Snapshot ∧ t = s.Snapshot.2) ∨
      ∃ revid, op = .RevertToSnapshot revid ∧ s.RevertToSnapshot keccak revid = .ok t := by
  cases op with
  | AddBalance addr amount => cases run; exact .inl (journaled_AddBalance wf addr amount)
  | SubBalance addr amount => cases run; exact .inl (journaled_SubBalance wf addr amount)
  | SetBalance addr amount => cases run; exact .inl (journaled_SetBalance wf addr amount)
  | SetNonce addr nonce => cases run; exact .inl (journaled_SetNonce wf addr nonce)
  | SetCode addr code => cases run; exact .inl (journaled_SetCode wf addr code)
  | SetState addr key value => cases run; exact .inl (journaled_SetState wf addr key value)
  | Suicide addr => cases run; exact .inl (journaled_Suicide wf addr)
  | CreateAccount addr => cases run; exact .inl (journaled_CreateAccount wf addr)
  | AddLog log value => cases run; exact .inl (journaled_AddLog wf fresh value)
  | AddPreimage hash preimage => cases run; exact .inl (journaled_AddPreimage wf hash preimage)
  | AddRefund gas => cases run; exact .inl (journaled_AddRefund wf gas)
  | SubRefund gas => exact .inl (journaled_SubRefund wf run)
  | Snapshot => cases run; exact .inr (.inl ⟨rfl, rfl⟩)
  | RevertToSnapshot revid => exact .inr (.inr ⟨revid, rfl, run⟩)

/-- One call keeps the run tracked, a revert only to a later id. -/
theorem Op.run_tracked {base s t : StateDB} (tr : Tracked keccak base s) {op : Op}
    (newer : ∀ revid, op = .RevertToSnapshot revid → base.nextRevisionId ≤ revid) (fresh : op.Fresh s)
    (run : op.run keccak s = .ok t) : Tracked keccak base t := by
  rcases Op.run_cases keccak tr.consistent fresh run with j | ⟨-, rfl⟩ | ⟨revid, rfl, revert⟩
  · exact tr.journaled j
  · exact tr.Snapshot
  · exact tr.RevertToSnapshot (newer revid rfl) revert

/-- One call keeps a state consistent, a revert to any id included. -/
theorem Op.run_consistent {s t : StateDB} (wf : Consistent s) {op : Op} (run : op.run keccak s = .ok t) :
    Consistent t := by
  -- a log given twice changes what the state shows, but not its consistency
  by_cases fresh : op.Fresh s
  swap
  · cases op with
    | AddLog log value => cases run; exact consistent_AddLog wf log value
    | _ => exact absurd trivial fresh
  rcases Op.run_cases keccak wf fresh run with j | ⟨-, rfl⟩ | ⟨revid, -, revert⟩
  · exact j.consistent
  · exact wf.Snapshot
  · exact wf.RevertToSnapshot revert

/-- A run of calls keeps the run tracked, its reverts only to later ids. -/
theorem Op.runAll_tracked {base : StateDB} {ops : List Op}
    (newer : ∀ revid, Op.RevertToSnapshot revid ∈ ops → base.nextRevisionId ≤ revid) :
    ∀ {s t : StateDB}, Tracked keccak base s → Op.FreshLogs keccak ops s → Op.runAll keccak ops s = .ok t →
      Tracked keccak base t := by
  induction ops with
  | nil =>
    intro s t tr _ run
    cases run
    exact tr
  | cons op ops ih =>
    intro s t tr fresh run
    rw [Op.runAll] at run
    obtain ⟨u, first, rest⟩ := Except.bind_eq_ok_iff.mp run
    have step := Op.run_tracked keccak tr (fun revid same => newer revid (same ▸ List.mem_cons_self ..)) fresh.1
      first
    exact ih (fun revid mem => newer revid (List.mem_cons_of_mem op mem)) step (fresh.2 u first) rest

/-! ## Reachable states -/

/-- The states a transaction reaches: a new state over an account trie whose
code hashes are hashes, then `Prepare` and calls that do not panic. -/
inductive Reachable : StateDB → Prop where
  | New (db : Database) {trie : Address → Option Account}
      (hashes : ∀ a data, trie a = some data → data.CodeHash.length = Trie.hashLen) :
      Reachable (StateDB.New db trie)
  | Prepare {s : StateDB} (thash bhash : Hash) (ti : Int) : Reachable s → Reachable (s.Prepare thash bhash ti)
  | run {s t : StateDB} (op : Op) : Reachable s → op.run keccak s = .ok t → Reachable t

/-- Every reachable state is consistent. -/
theorem Reachable.consistent {s : StateDB} (h : Reachable keccak s) : Consistent s := by
  induction h with
  | New db hashes => exact Consistent.New db hashes
  | Prepare thash bhash ti _ ih => exact ih.congr rfl rfl rfl rfl rfl
  | run op _ run ih => exact Op.run_consistent keccak ih run

/-! ## The getters read the view -/

namespace StateDB

variable {keccak} {s t : StateDB}

-- each getter reads the object `getStateObject` finds through its view
theorem Exist_eq_view (a : Address) : s.Exist keccak a = ((s.view keccak).accounts a).isSome := by
  rw [Exist, view_accounts, Option.isSome_map]

theorem Empty_eq_view (a : Address) :
    s.Empty keccak a = (((s.view keccak).accounts a).map fun acc =>
      acc.RandomId == 0 && acc.Balance == 0 && acc.CodeHash == emptyCodeHash keccak).getD true := by
  rw [view_accounts]
  unfold Empty
  cases (s.getStateObject keccak a).1 <;> rfl

theorem GetBalance_eq_view (a : Address) :
    s.GetBalance keccak a = (((s.view keccak).accounts a).map (·.Balance)).getD 0 := by
  rw [view_accounts]
  unfold GetBalance
  cases (s.getStateObject keccak a).1 <;> rfl

theorem GetNonce_eq_view (a : Address) :
    s.GetNonce keccak a = (((s.view keccak).accounts a).map (·.RandomId)).getD 0 := by
  rw [view_accounts]
  unfold GetNonce
  cases (s.getStateObject keccak a).1 <;> rfl

theorem GetCode_eq_view (a : Address) :
    s.GetCode keccak a = (((s.view keccak).accounts a).map (·.code)).getD [] := by
  rw [view_accounts]
  unfold GetCode
  cases (s.getStateObject keccak a).1 <;> rfl

theorem GetCodeHash_eq_view (a : Address) :
    s.GetCodeHash keccak a =
      (((s.view keccak).accounts a).map fun acc => Trie.bytesToHash acc.CodeHash).getD zeroHash := by
  rw [view_accounts]
  unfold GetCodeHash
  cases (s.getStateObject keccak a).1 <;> rfl

theorem GetState_eq_view (a : Address) (hash : Hash) :
    s.GetState keccak a hash =
      (((s.view keccak).accounts a).map fun acc => acc.storage hash).getD zeroHash := by
  rw [view_accounts]
  unfold GetState
  cases (s.getStateObject keccak a).1 <;> rfl

theorem HasSuicided_eq_view (a : Address) :
    s.HasSuicided keccak a = (((s.view keccak).accounts a).map (·.suicided)).getD false := by
  rw [view_accounts]
  unfold HasSuicided
  cases (s.getStateObject keccak a).1 <;> rfl

/-- States with one view answer every getter alike. -/
theorem getters_eq_of_view (h : s.view keccak = t.view keccak) (a : Address) (k hash : Hash) :
    s.Exist keccak a = t.Exist keccak a ∧ s.Empty keccak a = t.Empty keccak a ∧
      s.GetBalance keccak a = t.GetBalance keccak a ∧ s.GetNonce keccak a = t.GetNonce keccak a ∧
      s.GetCode keccak a = t.GetCode keccak a ∧ s.GetCodeHash keccak a = t.GetCodeHash keccak a ∧
      s.GetState keccak a k = t.GetState keccak a k ∧ s.HasSuicided keccak a = t.HasSuicided keccak a ∧
      s.GetLogs hash = t.GetLogs hash ∧ s.GetRefund = t.GetRefund ∧ s.Preimages = t.Preimages := by
  refine ⟨?_, ?_, ?_, ?_, ?_, ?_, ?_, ?_, congrArg (fun v => v.logs hash) h, congrArg View.refund h,
    congrArg View.preimages h⟩
  · rw [Exist_eq_view, Exist_eq_view, h]
  · rw [Empty_eq_view, Empty_eq_view, h]
  · rw [GetBalance_eq_view, GetBalance_eq_view, h]
  · rw [GetNonce_eq_view, GetNonce_eq_view, h]
  · rw [GetCode_eq_view, GetCode_eq_view, h]
  · rw [GetCodeHash_eq_view, GetCodeHash_eq_view, h]
  · rw [GetState_eq_view, GetState_eq_view, h]
  · rw [HasSuicided_eq_view, HasSuicided_eq_view, h]

end StateDB

/-! ## Reverting to the snapshot -/

/-- `RevertToSnapshot` of a snapshot's id, after any calls that revert only to
later ids, succeeds; every getter then answers as right after `Snapshot`
returned the id, and the revisions are those from before the snapshot. -/
theorem RevertToSnapshot_restores {s : StateDB} (wf : Consistent s) {ops : List Op}
    (later : ∀ revid, Op.RevertToSnapshot revid ∈ ops → s.Snapshot.1 < revid)
    (fresh : Op.FreshLogs keccak ops s.Snapshot.2)
    {s' : StateDB} (run : Op.runAll keccak ops s.Snapshot.2 = .ok s') :
    ∃ s'', s'.RevertToSnapshot keccak s.Snapshot.1 = .ok s'' ∧
      (∀ a k hash, s''.Exist keccak a = s.Snapshot.2.Exist keccak a ∧
        s''.Empty keccak a = s.Snapshot.2.Empty keccak a ∧
        s''.GetBalance keccak a = s.Snapshot.2.GetBalance keccak a ∧
        s''.GetNonce keccak a = s.Snapshot.2.GetNonce keccak a ∧
        s''.GetCode keccak a = s.Snapshot.2.GetCode keccak a ∧
        s''.GetCodeHash keccak a = s.Snapshot.2.GetCodeHash keccak a ∧
        s''.GetState keccak a k = s.Snapshot.2.GetState keccak a k ∧
        s''.HasSuicided keccak a = s.Snapshot.2.HasSuicided keccak a ∧
        s''.GetLogs hash = s.Snapshot.2.GetLogs hash ∧ s''.GetRefund = s.Snapshot.2.GetRefund ∧
        s''.Preimages = s.Snapshot.2.Preimages) ∧
      s''.validRevisions = s.validRevisions := by
  -- the run from the snapshot stays tracked
  have start : Tracked keccak s.Snapshot.2 s.Snapshot.2 := Tracked.start wf.Snapshot
  have newer : ∀ revid, Op.RevertToSnapshot revid ∈ ops → s.Snapshot.2.nextRevisionId ≤ revid := later
  have tracked : Tracked keccak s.Snapshot.2 s' := Op.runAll_tracked keccak newer start fresh run
  obtain ⟨later', revisions, -, -⟩ := tracked.revisions
  have vr : s'.validRevisions = s.validRevisions ++ ⟨s.nextRevisionId, s.journal.length⟩ :: later' := by
    rw [revisions]
    simp [StateDB.Snapshot]
  -- `sort.Search` finds the snapshot's revision where `Snapshot` pushed it
  have found : s'.validRevisions[s.validRevisions.length]? = some ⟨s.nextRevisionId, s.journal.length⟩ := by
    rw [vr, List.getElem?_append_right (Nat.le_refl _), Nat.sub_self]
    rfl
  have search : Search.search s'.validRevisions.length (revisionAtLeast s'.validRevisions s.Snapshot.1) =
      s.validRevisions.length := by
    apply Search.search_eq (monotone_revisionAtLeast tracked.consistent.sorted _)
    · rw [vr, List.length_append]
      omega
    · intro i lt
      have at_i : s'.validRevisions.getD i default = s.validRevisions[i] := by
        rw [List.getD_eq_getElem?_getD, vr, List.getElem?_append_left lt, List.getElem?_eq_getElem lt,
          Option.getD_some]
      have older := wf.fresh _ (List.getElem_mem lt)
      simp only [revisionAtLeast, at_i, decide_eq_false_iff_not, Nat.not_le]
      exact older
    · intro _
      simp [revisionAtLeast, List.getD_eq_getElem?_getD, found, StateDB.Snapshot]
  -- undoing the whole tracked part of the journal gives the snapshot's view
  have undo := tracked.undoes
  rw [← tracked.db, ← tracked.trie] at undo
  obtain ⟨t₀, run₀, seen, -, -, -, -, kept, -⟩ := Journal.revert_view tracked.consistent undo
  -- dropping the later revisions changes nothing a getter reads
  have seen' : ({ t₀ with validRevisions := t₀.validRevisions.take s.validRevisions.length } : StateDB).view keccak =
      s.Snapshot.2.view keccak := seen
  refine ⟨_, RevertToSnapshot_of_found search found rfl run₀, getters_eq_of_view seen', ?_⟩
  show t₀.validRevisions.take _ = _
  rw [kept, vr, List.take_left' rfl]

/-- On an empty state, a revert undoes the creation of an account, a nested
snapshot and a refund. -/
theorem RevertToSnapshot_restores_new :
    Consistent (StateDB.New ⟨fun _ _ => zeroHash, fun _ => []⟩ fun _ => none) ∧
      Op.FreshLogs zeroKeccak [.SetBalance [1] 7, .Snapshot, .AddLog 0 default, .SetNonce [1] 3]
        (StateDB.New ⟨fun _ _ => zeroHash, fun _ => []⟩ fun _ => none).Snapshot.2 ∧
      ∃ s', Op.runAll zeroKeccak [.SetBalance [1] 7, .Snapshot, .AddLog 0 default, .SetNonce [1] 3]
          (StateDB.New ⟨fun _ _ => zeroHash, fun _ => []⟩ fun _ => none).Snapshot.2 = .ok s' ∧
        ∃ s'', s'.RevertToSnapshot zeroKeccak 0 = .ok s'' ∧
          s''.Exist zeroKeccak [1] = false ∧ s''.GetBalance zeroKeccak [1] = 0 ∧ s''.GetLogs zeroHash = [] := by
  have wf : Consistent (StateDB.New ⟨fun _ _ => zeroHash, fun _ => []⟩ fun _ => none) :=
    Consistent.New _ fun _ _ none => by cases none
  -- the one log is given once, to a state that points to none
  have fresh : Op.FreshLogs zeroKeccak [.SetBalance [1] 7, .Snapshot, .AddLog 0 default, .SetNonce [1] 3]
      (StateDB.New ⟨fun _ _ => zeroHash, fun _ => []⟩ fun _ => none).Snapshot.2 :=
    ⟨trivial, fun _ r => by
      cases r
      exact ⟨trivial, fun _ r => by
        cases r
        exact ⟨fun _ => List.not_mem_nil, fun _ r => by cases r; exact ⟨trivial, fun _ _ => trivial⟩⟩⟩⟩
  obtain ⟨s', run⟩ : ∃ s', Op.runAll zeroKeccak [.SetBalance [1] 7, .Snapshot, .AddLog 0 default, .SetNonce [1] 3]
      (StateDB.New ⟨fun _ _ => zeroHash, fun _ => []⟩ fun _ => none).Snapshot.2 = .ok s' := ⟨_, rfl⟩
  obtain ⟨s'', revert, getters, -⟩ :=
    RevertToSnapshot_restores zeroKeccak wf (fun revid mem => by simp at mem) fresh run
  obtain ⟨exist, -, balance, -, -, -, -, -, logs, -, -⟩ := getters [1] zeroHash zeroHash
  exact ⟨wf, fresh, s', run, s'', revert, exist.trans rfl, balance.trans rfl, logs.trans rfl⟩

/-- Two ways the getters fail to come back. A log given to `AddLog` again
after the snapshot is written through its pointer: reverting drops the second
pointer, but the log keeps the index the second call gave it. An account whose
code hash in the trie has 33 bytes, the last 32 of them `emptyCodeHash`, is not
empty; `SetCode` journals that hash, and reverting sets the code hash to the
`common.Hash` of it, `emptyCodeHash`, which makes the account empty. -/
theorem RevertToSnapshot_fails :
    (let s := (StateDB.New ⟨fun _ _ => zeroHash, fun _ => []⟩ fun _ => none).AddLog 0 default;
      (s.Snapshot.2.GetLogs zeroHash).map (·.Index) = [0] ∧
        ∃ s' s'', Op.runAll zeroKeccak [.AddLog 0 (s.Snapshot.2.heap 0)] s.Snapshot.2 = .ok s' ∧
          s'.RevertToSnapshot zeroKeccak 0 = .ok s'' ∧ (s''.GetLogs zeroHash).map (·.Index) = [1]) ∧
    (let s := StateDB.New ⟨fun _ _ => zeroHash, fun _ => []⟩
        (fun a => if a = [1] then some ⟨0, 0, zeroHash, 0 :: emptyCodeHash zeroKeccak⟩ else none);
      s.Snapshot.2.Empty zeroKeccak [1] = false ∧
        ∃ s' s'', Op.runAll zeroKeccak [.SetCode [1] [1]] s.Snapshot.2 = .ok s' ∧
          s'.RevertToSnapshot zeroKeccak 0 = .ok s'' ∧ s''.Empty zeroKeccak [1] = true) := by
  -- the kernel evaluates the reverts, through `sort.Search` and `getStateObject`
  have indexed : ((((StateDB.New ⟨fun _ _ => zeroHash, fun _ => []⟩ fun _ => none).AddLog 0 default).Snapshot.2.AddLog 0 (((StateDB.New ⟨fun _ _ => zeroHash, fun _ => []⟩ fun _ => none).AddLog 0 default).Snapshot.2.heap 0)).RevertToSnapshot zeroKeccak 0).toOption.map
      (fun s => (s.GetLogs zeroHash).map (·.Index)) = some [1] := by
    decide +kernel
  have empty : ((StateDB.SetCode zeroKeccak (StateDB.New ⟨fun _ _ => zeroHash, fun _ => []⟩
      (fun a => if a = [1] then some ⟨0, 0, zeroHash, 0 :: emptyCodeHash zeroKeccak⟩ else none)).Snapshot.2
        [1] [1]).RevertToSnapshot zeroKeccak 0).toOption.map (fun s => s.Empty zeroKeccak [1]) = some true := by
    decide +kernel
  cases logs : (((StateDB.New ⟨fun _ _ => zeroHash, fun _ => []⟩ fun _ => none).AddLog 0 default).Snapshot.2.AddLog 0 (((StateDB.New ⟨fun _ _ => zeroHash, fun _ => []⟩ fun _ => none).AddLog 0 default).Snapshot.2.heap 0)).RevertToSnapshot zeroKeccak 0 with
  | error e => rw [logs] at indexed; cases indexed
  | ok s₁ =>
    rw [logs] at indexed
    cases code : (StateDB.SetCode zeroKeccak (StateDB.New ⟨fun _ _ => zeroHash, fun _ => []⟩
      (fun a => if a = [1] then some ⟨0, 0, zeroHash, 0 :: emptyCodeHash zeroKeccak⟩ else none)).Snapshot.2
        [1] [1]).RevertToSnapshot zeroKeccak 0 with
    | error e => rw [code] at empty; cases empty
    | ok s₂ =>
      rw [code] at empty
      exact ⟨⟨rfl, _, s₁, rfl, logs, Option.some.inj indexed⟩,
        ⟨by decide +kernel, _, s₂, rfl, code, Option.some.inj empty⟩⟩

end FiscoBcos.State
