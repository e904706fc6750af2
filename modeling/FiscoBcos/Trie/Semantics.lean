import FiscoBcos.Trie.Canonical
import Mathlib

/-!
# The trie is a map of byte strings

`TryGet`, `TryUpdate` and `TryDelete` of `trie.go` on a trie built in memory.
Such a trie holds the map `Trie.contents` from byte keys to values: `TryGet`
reads it and leaves the trie as it is, `TryUpdate` sets a key (the empty value
removes it) and `TryDelete` removes it, each keeping the root in the shape
`Node.Wf`. Over a run of updates and deletions (`Trie.runOps`), every call
succeeds and the trie holds what the same run does to a map (`Op.apply`).

The budget of hash resolutions plays no part: a trie built in memory has no
hash nodes.
-/

namespace FiscoBcos.Trie

set_option linter.dupNamespace false

/-! ## The operations with any budget -/

/-- `insert` with any budget, on a node of the shape. -/
theorem insert_spec (t : Trie) (fuel : Nat) (v : List UInt8) {n : HexNode} {key : List Nibble}
    (wf : n.Wf) (hkey : Terminated key) (pre : List Nibble) :
    ∃ dirty n', t.insert fuel n pre key (.value v) = .ok (dirty, n') ∧
      InsertSpec n key v dirty n' := by
  cases fuel <;> exact insertWith_spec _ t v n pre key wf hkey

/-- `delete` with any budget, on a node of the shape. -/
theorem delete_spec (t : Trie) (fuel : Nat) {n : HexNode} {key : List Nibble}
    (wf : n.Wf) (hkey : Terminated key) (pre : List Nibble) :
    ∃ dirty n', t.delete fuel n pre key = .ok (dirty, n') ∧ DeleteSpec n key dirty n' := by
  cases fuel <;> exact deleteWith_spec _ t n pre key wf hkey

/-! ## The map a trie holds -/

/-- The value a trie holds at a byte key: its root's at the key's HEX form. -/
def Trie.contents (t : Trie) (key : List UInt8) : Option (List UInt8) :=
  t.root.lookup (keybytesToHex key)

/-- A change of one HEX key's value is a change of one byte key's. -/
theorem contents_update (t : Trie) {n' : HexNode} {key : List UInt8} {r : Option (List UInt8)}
    (h : ∀ p, Terminated p → n'.lookup p = if p = keybytesToHex key then r else t.root.lookup p) :
    ({ t with root := n' } : Trie).contents = Function.update t.contents key r := by
  funext k
  simp only [Trie.contents, h _ (terminated_keybytesToHex k), Function.update_apply,
    Function.Injective.eq_iff keybytesToHex_injective]

/-- A trie as the operations keep it: a root of the shape, holding values
only at the HEX forms of byte keys. -/
structure Trie.Live (t : Trie) : Prop where
  wf : t.root.Wf
  keyed : ∀ p, Terminated p → t.root.lookup p ≠ none → ∃ k, p = keybytesToHex k

/-- The empty trie is live. -/
theorem live_empty (db : Database) : ({ db, root := .nil } : Trie).Live :=
  ⟨trivial, fun _ _ held => absurd (Node.lookup_nil _) held⟩

/-- A root that changes one byte key's value keeps the trie live. -/
theorem live_update {t : Trie} (live : t.Live) {n' : HexNode} (wf : n'.Wf) {key : List UInt8}
    {r : Option (List UInt8)}
    (h : ∀ p, Terminated p → n'.lookup p = if p = keybytesToHex key then r else t.root.lookup p) :
    ({ t with root := n' } : Trie).Live := by
  refine ⟨wf, fun p hp held => ?_⟩
  change n'.lookup p ≠ none at held
  rw [h p hp] at held
  by_cases e : p = keybytesToHex key
  · exact ⟨key, e⟩
  · rw [if_neg e] at held
    exact live.keyed p hp held

/-- Two live tries that hold the same map have the same root. -/
theorem root_eq_of_contents_eq {t₁ t₂ : Trie} (live₁ : t₁.Live) (live₂ : t₂.Live)
    (same : t₁.contents = t₂.contents) : t₁.root = t₂.root := by
  refine eq_of_lookup_eq t₁.root t₂.root live₁.wf live₂.wf fun p hp => ?_
  by_cases byteKey : ∃ k, p = keybytesToHex k
  · obtain ⟨k, rfl⟩ := byteKey
    exact congrFun same k
  · -- a key no byte key maps to: neither trie holds a value there
    have none₁ : t₁.root.lookup p = none := by
      by_contra held
      exact byteKey (live₁.keyed p hp held)
    have none₂ : t₂.root.lookup p = none := by
      by_contra held
      exact byteKey (live₂.keyed p hp held)
    rw [none₁, none₂]

/-- A live trie that holds nothing has no root node. -/
theorem root_eq_nil_of_contents {t : Trie} (live : t.Live) (empty : t.contents = fun _ => none) :
    t.root = .nil := by
  refine eq_nil_of_lookup_none live.wf fun p hp => ?_
  by_contra held
  obtain ⟨k, rfl⟩ := live.keyed p hp held
  exact held (congrFun empty k)

/-- A change asked of the trie: `TryUpdate` of a key to a value, or
`TryDelete` of a key. -/
inductive Op where
  | update (key value : List UInt8)
  | delete (key : List UInt8)

/-- What a change does to a map of byte strings; the empty value removes the
key. -/
def Op.apply : Op → (List UInt8 → Option (List UInt8)) → List UInt8 → Option (List UInt8)
  | .update key value, m => Function.update m key (if value = [] then none else some value)
  | .delete key, m => Function.update m key none

namespace Trie

/-- The Go call of a change. -/
def step (t : Trie) (fuel : Nat) : Op → Except TrieError Unit × Trie
  | .update key value => t.TryUpdate fuel key value
  | .delete key => t.TryDelete fuel key

/-- A run of changes that stops at the first error, as a caller checking each
returned error does. -/
def runOps (t : Trie) (fuel : Nat) : List Op → Except TrieError Trie
  | [] => .ok t
  | op :: ops =>
    match t.step fuel op with
    | (.ok (), t') => t'.runOps fuel ops
    | (.error e, _) => .error e

/-- `TryGet` on a trie of the shape reads its map and resolves nothing. -/
theorem tryGet_contents (t : Trie) (fuel : Nat) (key : List UInt8) (wf : t.root.Wf) :
    t.TryGet fuel key = (.ok (t.contents key), t) := by
  have run := tryGetWith_wf (t.tryGet (keybytesToHex key) (fuel - 1)) t (keybytesToHex key) t.root 0
    wf (by simpa using terminated_keybytesToHex key)
  have run0 := tryGetWith_wf (fun _ _ => .error .fuelExhausted) t (keybytesToHex key) t.root 0
    wf (by simpa using terminated_keybytesToHex key)
  cases fuel <;> simp_all [TryGet, Trie.tryGet, contents]

/-- The trie after a change: same database, still live, the map changed as
the change says. -/
structure StepSpec (t : Trie) (op : Op) (t' : Trie) : Prop where
  db : t'.db = t.db
  live : t'.Live
  contents : t'.contents = op.apply t.contents

/-- `TryDelete` on a trie of the shape. -/
theorem tryDelete_spec (t : Trie) (fuel : Nat) (key : List UInt8) (live : t.Live) :
    ∃ t', t.TryDelete fuel key = (.ok (), t') ∧ StepSpec t (.delete key) t' := by
  obtain ⟨d, n', run, spec⟩ := delete_spec t fuel live.wf (terminated_keybytesToHex key) []
  exact ⟨{ t with root := n' }, by simp [TryDelete, run],
    ⟨rfl, live_update live spec.wf spec.lookup, contents_update t spec.lookup⟩⟩

/-- `TryUpdate` on a trie of the shape: an insertion, or for the empty value
a deletion. -/
theorem tryUpdate_spec (t : Trie) (fuel : Nat) (key value : List UInt8) (live : t.Live) :
    ∃ t', t.TryUpdate fuel key value = (.ok (), t') ∧ StepSpec t (.update key value) t' := by
  have hkey := terminated_keybytesToHex key
  by_cases empty : value = []
  · subst empty
    obtain ⟨d, n', run, spec⟩ := delete_spec t fuel live.wf hkey []
    refine ⟨{ t with root := n' }, by simp [TryUpdate, run], rfl,
      live_update live spec.wf spec.lookup, ?_⟩
    simpa [Op.apply] using contents_update t spec.lookup
  · obtain ⟨d, n', run, spec⟩ := insert_spec t fuel value live.wf hkey []
    have nonempty : value.length ≠ 0 := by simpa using empty
    refine ⟨{ t with root := n' }, by simp [TryUpdate, nonempty, run], rfl,
      live_update live spec.wf spec.lookup, ?_⟩
    simpa [Op.apply, empty] using contents_update t spec.lookup

/-- One change on a trie of the shape succeeds. -/
theorem step_spec (t : Trie) (fuel : Nat) (op : Op) (live : t.Live) :
    ∃ t', t.step fuel op = (.ok (), t') ∧ StepSpec t op t' := by
  cases op with
  | update key value => simp only [step]; exact tryUpdate_spec t fuel key value live
  | delete key => simp only [step]; exact tryDelete_spec t fuel key live

/-- A run of changes on a live trie: every call succeeds, the trie stays
live, and it holds the map the run makes of its own. The induction is on the
run, with `Trie.Live` as the invariant. -/
theorem runOps_spec (fuel : Nat) (ops : List Op) :
    ∀ t : Trie, t.Live → ∃ t', t.runOps fuel ops = .ok t' ∧ t'.db = t.db ∧ t'.Live ∧
      t'.contents = ops.foldl (fun m op => op.apply m) t.contents := by
  induction ops with
  | nil => intro t live; exact ⟨t, rfl, rfl, live, rfl⟩
  | cons op ops ih =>
    intro t live
    obtain ⟨t1, run1, spec1⟩ := step_spec t fuel op live
    obtain ⟨t', run, db, live', contents⟩ := ih t1 spec1.live
    refine ⟨t', by simp [runOps, run1, run], db.trans spec1.db, live', ?_⟩
    rw [contents, spec1.contents, List.foldl_cons]

/-- The empty trie holds nothing. -/
theorem contents_empty (db : Database) : ({ db, root := .nil } : Trie).contents = fun _ => none :=
  rfl

/-- Changes on an empty trie: every call succeeds, and `TryGet` of every key
then returns what the same changes leave at it in a map, without changing
the trie. -/
theorem tryGet_runOps_empty (db : Database) (fuel : Nat) (ops : List Op) :
    ∃ t, ({ db, root := .nil } : Trie).runOps fuel ops = .ok t ∧
      ∀ (fuel' : Nat) (key : List UInt8),
        t.TryGet fuel' key = (.ok (ops.foldl (fun m op => op.apply m) (fun _ => none) key), t) := by
  obtain ⟨t, run, _, live, contents⟩ := runOps_spec fuel ops { db, root := .nil } (live_empty db)
  refine ⟨t, run, fun fuel' key => ?_⟩
  rw [tryGet_contents t fuel' key live.wf, contents, contents_empty]

end Trie

end FiscoBcos.Trie
