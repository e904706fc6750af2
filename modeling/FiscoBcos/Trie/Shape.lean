import FiscoBcos.Trie.Expand
import Mathlib

/-!
# The shape of a trie, clause by clause

The nodes of a trie in memory have a shape that `insert` and `delete` of
`trie.go` rely on: a short node has a non-empty key and, below it, a value or
a branch; its child is a value exactly when its key ends in the terminator 16;
a full node has at least two children, and a value in slot 16 only; the path
from the root to a value is nibbles below 16 closed by one terminator.
`Node.ShapeAt` states these clauses for a node at a path from the root of
the trie reachable from the root: the tree the root stands for over the
database (`Expands`), each hash node replaced by the node it loads. On a root
they are the shape `Node.Wf` that the proofs of `insert` and `delete` carry
(`shapeAt_nil_iff_wf`), so both operations keep every clause, on a trie in
memory and on one whose nodes the database holds alike
(`insert_delete_keep_shape`).

The clause on the child of a short node cannot be weakened to "a child that
is not a short node": a short node over a nil child passes every other
clause, and `insert` fills the nil child with a short node
(`insert_short_nil`).
-/

namespace FiscoBcos.Trie

namespace Node

variable {K : Type}

/-- A value node. -/
def isValue : Node K → Bool
  | .value _ => true
  | _ => false

/-- The clauses of the shape, for a node at `path` from the root. -/
def ShapeAt : List Nibble → HexNode → Prop
  | _, .nil => True
  -- the path to a value ends in exactly one terminator
  | path, .value _ => Terminated path
  | path, .short k v =>
    k ≠ [] ∧ (v.isFull = true ∨ v.isValue = true) ∧ (v.isValue = true ↔ k.getLast? = some 16) ∧
      ShapeAt (path ++ k) v
  | path, .full cs =>
    2 ≤ (nonNil cs).length ∧ (∀ i, (cs i).isValue = true → i = 16) ∧ ∀ i, ShapeAt (path ++ [i]) (cs i)
  | _, .hash _ => False

theorem isValue_of_wf {n : HexNode} (wf : n.Wf) : n.isValue = false := by
  cases n with
  | value => exact absurd wf id
  | _ => rfl

theorem isValue_of_isFull {n : HexNode} (full : n.isFull = true) : n.isValue = false := by
  cases n <;> simp_all [isFull, isValue]

end Node

open Node

theorem Terminated.getLast? {k : List Nibble} (h : Terminated k) : k.getLast? = some 16 := by
  induction h with
  | term => rfl
  | cons _ _ ih => simp [List.getLast?_cons, ih]

theorem Plain.getLast? {k : List Nibble} (h : Plain k) : k.getLast? ≠ some 16 := by
  intro last
  have := h 16 (List.mem_of_getLast? last)
  exact absurd this (lt_irrefl _)

theorem not_terminated_nil : ¬Terminated [] := nofun

/-- A nibble other than the terminator is below it. -/
theorem lt_sixteen {i : Nibble} (h : i ≠ 16) : i < 16 :=
  lt_of_le_of_ne (Fin.le_last i) h

/-! ## The shape `insert` and `delete` carry has the clauses -/

theorem shapeAt_of_wf : ∀ (n : HexNode) {path : List Nibble}, Plain path → n.Wf → n.ShapeAt path := by
  intro n
  induction n with
  | nil => intro _ _ _; trivial
  | value => intro _ _ wf; exact absurd wf id
  | hash => intro _ _ wf; exact absurd wf id
  | short k v ih =>
    intro path plainPath wf
    rcases wf with ⟨leaf, w, rfl⟩ | ⟨ne, plain, full, wfv⟩
    · -- a leaf: the key ends in the terminator, the path to its value too
      refine ⟨leaf.ne_nil, .inr rfl, ⟨fun _ => leaf.getLast?, fun _ => rfl⟩, ?_⟩
      exact (terminated_append_iff plainPath).mpr leaf
    · -- an extension: plain nibbles down to a branch
      have notValue := isValue_of_isFull full
      refine ⟨ne, .inl full, ⟨fun h => (by rw [notValue] at h; cases h), fun h => absurd h plain.getLast?⟩,
        ?_⟩
      exact ih (Iff.mpr plain_append ⟨plainPath, plain⟩) wfv
  | full cs ih =>
    intro path plainPath wf
    obtain ⟨slot, sub, two⟩ := wf
    refine ⟨two, fun i value => ?_, fun i => ?_⟩
    · by_contra ne
      rw [isValue_of_wf (sub i ne)] at value
      cases value
    · by_cases e : i = 16
      · subst e
        rcases slot with hn | ⟨w, hw⟩
        · rw [hn]
          trivial
        · rw [hw]
          exact (terminated_append_iff plainPath).mpr .term
      · exact ih i (Iff.mpr plain_append ⟨plainPath, Iff.mpr plain_cons ⟨lt_sixteen e, plain_nil⟩⟩) (sub i e)

/-! ## The clauses give the shape -/

/-- A node of the shape other than nil holds a value, at a path that
continues its own unless it is the value. -/
theorem exists_leaf : ∀ (n : HexNode) {path : List Nibble}, n.ShapeAt path → n ≠ .nil →
    ∃ r, Terminated (path ++ r) ∧ (n.isValue = false → r ≠ []) := by
  intro n
  induction n with
  | nil => intro _ _ ne; exact absurd rfl ne
  | value =>
    intro path shape _
    refine ⟨[], ?_, fun h => by cases h⟩
    rw [List.append_nil]
    exact shape
  | hash => intro _ shape; exact absurd shape id
  | short k v ih =>
    intro path shape _
    obtain ⟨ne, child, -, sub⟩ := shape
    have nonNil : v ≠ .nil := by
      rintro rfl
      simp [isFull, isValue] at child
    obtain ⟨r, ends, -⟩ := ih sub nonNil
    refine ⟨k ++ r, by rwa [← List.append_assoc], fun _ => ?_⟩
    simp [ne]
  | full cs ih =>
    intro path shape _
    obtain ⟨two, -, sub⟩ := shape
    obtain ⟨i, mem⟩ := List.exists_mem_of_length_pos (by omega : 0 < (nonNil cs).length)
    obtain ⟨r, ends, -⟩ := ih i (sub i) (Iff.mp mem_nonNil mem)
    exact ⟨[i] ++ r, by rwa [← List.append_assoc], fun _ => by simp⟩

/-- Below a path, a node of the shape that holds no value itself lies on
plain nibbles only. -/
theorem plain_of_shapeAt {n : HexNode} {path : List Nibble} (shape : n.ShapeAt path) (ne : n ≠ .nil)
    (notValue : n.isValue = false) : Plain path := by
  obtain ⟨r, ends, pos⟩ := exists_leaf n shape ne
  exact plain_of_terminated_append ends (pos notValue)

theorem wf_of_shapeAt : ∀ (n : HexNode) {path : List Nibble}, Plain path → n.ShapeAt path →
    n.isValue = false → n.Wf := by
  intro n
  induction n with
  | nil => intro _ _ _ _; trivial
  | value => intro _ _ _ notValue; cases notValue
  | hash => intro _ _ shape; exact absurd shape id
  | short k v ih =>
    intro path plainPath shape _
    obtain ⟨ne, child, last, sub⟩ := shape
    rcases child with full | value
    · -- a branch below: the key is plain, the branch of the shape
      have notValue := isValue_of_isFull full
      have plainBelow := plain_of_shapeAt sub (ne_nil_of_isFull full) notValue
      exact .inr ⟨ne, (Iff.mp plain_append plainBelow).2, full, ih plainBelow sub notValue⟩
    · -- a value below: the key is the rest of a stored key
      cases v with
      | value w =>
        exact .inl ⟨(terminated_append_iff plainPath).mp sub, w, rfl⟩
      | _ => cases value
  | full cs ih =>
    intro path plainPath shape _
    obtain ⟨two, onlySixteen, sub⟩ := shape
    refine ⟨?_, fun i ne => ?_, two⟩
    · -- slot 16 holds nothing or a value: anything else would put a
      -- terminator inside the path to a value
      cases h : cs 16 with
      | nil => exact .inl rfl
      | value w => exact .inr ⟨w, rfl⟩
      | hash => have := sub 16; rw [h] at this; exact absurd this id
      | short k v =>
        have below := sub 16
        rw [h] at below
        have := plain_of_shapeAt below (by simp) rfl
        simp at this
      | full gs =>
        have below := sub 16
        rw [h] at below
        have := plain_of_shapeAt below (by simp) rfl
        simp at this
    · have notValue : (cs i).isValue = false := by
        cases value : (cs i).isValue
        · rfl
        · exact absurd (onlySixteen i value) ne
      exact ih i (Iff.mpr plain_append ⟨plainPath, Iff.mpr plain_cons ⟨lt_sixteen ne, plain_nil⟩⟩)
        (sub i) notValue

/-- A root has the clauses of the shape exactly when it has the shape
`insert` and `delete` carry. -/
theorem shapeAt_nil_iff_wf (n : HexNode) : n.ShapeAt [] ↔ n.Wf := by
  constructor
  · intro shape
    refine wf_of_shapeAt n plain_nil shape ?_
    cases n with
    | value => exact absurd shape not_terminated_nil
    | _ => rfl
  · exact shapeAt_of_wf n plain_nil

/-! ## Insertion and deletion keep the shape -/

/-- Insertion and deletion keep the shape of the trie reachable from the root,
the tree the root stands for over the database, with the budget of loads it
takes. -/
theorem insert_delete_keep_shape (t : Trie) (fuel : Nat) {e : HexNode} (expands : Expands t.db fuel t.root e)
    {key : List Nibble} (hkey : Terminated key) (v : List UInt8) (shape : e.ShapeAt []) :
    (∃ dirty n' e', t.insert fuel t.root [] key (.value v) = .ok (dirty, n') ∧
        Expands t.db fuel n' e' ∧ e'.ShapeAt []) ∧
      ∃ dirty n' e', t.delete fuel t.root [] key = .ok (dirty, n') ∧ Expands t.db fuel n' e' ∧ e'.ShapeAt [] := by
  have wf := (shapeAt_nil_iff_wf e).mp shape
  -- what the operations give in the tree, then over the database
  obtain ⟨d, e', inTree, spec⟩ := insertWith_spec (fun _ _ _ _ => .error .fuelExhausted) t v e [] key wf hkey
  obtain ⟨-, n', run, expands'⟩ := insert_expands t v expands _ [] key d e' inTree
  obtain ⟨d₂, e₂, inTree₂, spec₂⟩ := deleteWith_spec (fun _ _ _ => .error .fuelExhausted) t e [] key wf hkey
  obtain ⟨-, n₂, run₂, expands₂, -⟩ := delete_expands t expands _ [] key d₂ e₂ inTree₂
  exact ⟨⟨d, n', e', run, expands', (shapeAt_nil_iff_wf e').mpr spec.wf⟩,
    ⟨d₂, n₂, e₂, run₂, expands₂, (shapeAt_nil_iff_wf e₂).mpr spec₂.wf⟩⟩

theorem insert_delete_keep_shape_empty :
    Expands (NewDatabase fun _ => none) 0 .nil .nil ∧ Terminated [16] ∧ (Node.nil : HexNode).ShapeAt [] ∧
      ((∃ dirty n' e', (⟨NewDatabase fun _ => none, .nil⟩ : Trie).insert 0 .nil [] [16] (.value [1]) =
          .ok (dirty, n') ∧ Expands (NewDatabase fun _ => none) 0 n' e' ∧ e'.ShapeAt []) ∧
        ∃ dirty n' e', (⟨NewDatabase fun _ => none, .nil⟩ : Trie).delete 0 .nil [] [16] =
          .ok (dirty, n') ∧ Expands (NewDatabase fun _ => none) 0 n' e' ∧ e'.ShapeAt []) :=
  ⟨.nil, .term, trivial, insert_delete_keep_shape ⟨NewDatabase fun _ => none, .nil⟩ 0 .nil .term [1] trivial⟩

/-- A short node over a nil child: its key is not empty and does not end in
the terminator, and its child is neither a short node nor a value. `insert`
fills the child with a short node, and the clauses of the shape refuse the
node before the insertion. -/
theorem insert_short_nil :
    ([1] : List Nibble) ≠ [] ∧ ([1] : List Nibble).getLast? ≠ some 16 ∧
      (∀ k v, (Node.nil : HexNode) ≠ .short k v) ∧ (Node.nil : HexNode).isValue = false ∧
      ({ db := NewDatabase fun _ => none, root := .nil } : Trie).insert 0 (.short [1] .nil) [] [1, 0, 16]
          (.value [5]) =
        .ok (true, .short [1] (.short [0, 16] (.value [5]))) ∧
      ¬(Node.short [1] .nil : HexNode).ShapeAt [] :=
  ⟨by simp, by decide, fun _ _ => nofun, rfl, rfl, fun shape => by simp [ShapeAt, isFull, isValue] at shape⟩

end FiscoBcos.Trie
