import FiscoBcos.Trie.IteratorSpec
import FiscoBcos.Trie.Expand
import FiscoBcos.Lib.Except
import Mathlib

/-!
# Iterating a trie over a database

A trie opened from a database holds hash nodes, which the iterator loads as it
reaches them (`nodeIteratorState.resolve`). When every hash node below the
root loads, the iterator goes in step with the iterator of the tree in memory
that the root stands for (`Expands`): the states on the two stacks hold nodes
that stand for one another, with the same `index` and path length, and the two
iterators have the same path and error (`NodeIterator.StandsFor`). The hashes
the states keep differ, but nothing that `Iterator.Next` returns reads them.
`peek`, `push`, `pop`, `seek` and `Next` each keep the two in step, with the
same answer or the same error (`Except.Rel`), so the two yield the same pairs
(`Iterator.yields_standsFor`, `Iterator.yields_of_standsFor`).

So a trie over a database is iterated as the tree it stands for: the pairs
are exactly the entries `TryGet` finds from the start key on, in strictly
increasing order (`NewIterator_yields_entries`). A trie whose database lacks a
node it references is not walked past that node
(`NewIterator_stops_at_missing_node`).
-/

namespace FiscoBcos.Trie

open Node

variable (keccak : List UInt8 → List UInt8)

/-- A state of an iterator over the database against a state of an iterator
over the tree in memory: its node is loaded and stands for the other's, with
the same `index` and path length. -/
structure IteratorState.StandsFor (db : Database) (st st' : IteratorState) : Prop where
  node : ∃ fuel, Expands db fuel st.node st'.node
  loaded : st.node.isHash = false
  index : st.index = st'.index
  pathlen : st.pathlen = st'.pathlen

/-- `resolve` keeps a state whose node is no hash node. -/
theorem IteratorState.resolve_of_isHash (t : Trie) {st : IteratorState} (h : st.node.isHash = false)
    (path : List Nibble) : st.resolve t path = .ok st := by
  unfold IteratorState.resolve
  cases hn : st.node with
  | hash _ => simp [hn, isHash] at h
  | _ => rfl

/-- `resolve` over the database loads a state that stands for the state over
the tree, which `resolve` keeps. -/
theorem IteratorState.resolve_standsFor (t t' : Trie) (st st' : IteratorState) {fuel : Nat}
    (node : Expands t.db fuel st.node st'.node) (index : st.index = st'.index) (pathlen : st.pathlen = st'.pathlen)
    (path : List Nibble) :
    ∃ s, st.resolve t path = .ok s ∧ s.StandsFor t.db st' ∧ st'.resolve t' path = .ok st' := by
  have memory := IteratorState.resolve_of_isHash t' node.isHash_eq path
  cases hn : st.node with
  | hash h =>
    rw [hn] at node
    cases node with
    | hash stored loaded below =>
      refine ⟨{ st with node := _, hash := bytesToHash h }, ?_,
        ⟨⟨_, below⟩, isHash_of_isLoaded loaded, index, pathlen⟩, memory⟩
      simp [IteratorState.resolve, hn, Trie.resolveHash, stored]
  | _ =>
    exact ⟨st, IteratorState.resolve_of_isHash t (by rw [hn]; rfl) path,
      ⟨⟨fuel, node⟩, by rw [hn]; rfl, index, pathlen⟩, memory⟩

/-- The next child of a state over the database stands for the next child of
the state over the tree: a full node's children are set at the same nibbles,
and a short node has the same key. -/
theorem nextChild_standsFor {db : Database} {parent parent' : IteratorState} (sim : parent.StandsFor db parent')
    (path : List Nibble) (anc anc' : List UInt8) :
    (nextChild keccak path parent anc = none ∧ nextChild keccak path parent' anc' = none) ∨
      ∃ c c' childPath q q', nextChild keccak path parent anc = some (childState keccak c anc path.length, childPath, q) ∧
        nextChild keccak path parent' anc' = some (childState keccak c' anc' path.length, childPath, q') ∧
        (∃ fuel, Expands db fuel c c') ∧ q.StandsFor db q' := by
  obtain ⟨⟨fuel, node⟩, loaded, index, pathlen⟩ := sim
  unfold nextChild
  rw [← index]
  -- the two nodes are of one kind: split on how the one stands for the other
  generalize hn : parent.node = n at node loaded ⊢
  generalize hn' : parent'.node = n' at node ⊢
  cases node with
  | @full _ cs es each =>
    have nils : ∀ i, (cs i).isNil = (es i).isNil := fun i => ((each i).isNil_eq).symm
    simp only [nils]
    cases found : (List.finRange 17).find? fun i => decide (parent.index < i.val) && !(es i).isNil with
    | none => exact .inl ⟨rfl, rfl⟩
    | some i =>
      exact .inr ⟨cs i, es i, path ++ [i], _, _, rfl, rfl, ⟨fuel, each i⟩,
        ⟨⟨fuel, .full each⟩, rfl, rfl, pathlen⟩⟩
  | @short _ k v e below =>
    by_cases negative : parent.index < 0
    · refine .inr ⟨v, e, path ++ k, parent, parent', by simp [negative], by simp [negative], ⟨fuel, below⟩,
        ⟨⟨fuel, by rw [hn, hn']; exact .short k below⟩, by rw [hn]; rfl, index, pathlen⟩⟩
    · exact .inl ⟨by simp [negative], by simp [negative]⟩
  | nil => exact .inl ⟨rfl, rfl⟩
  | value => exact .inl ⟨rfl, rfl⟩
  | hash => simp [isHash] at loaded

/-- What `peekLoop` returns over the database against what it returns over
the tree: stacks in step, the same path, and the same error or states in step
at the same path. -/
structure PeekStandsFor (db : Database)
    (r r' : List IteratorState × List Nibble × Except IteratorError (IteratorState × List Nibble)) : Prop where
  stack : List.Forall₂ (IteratorState.StandsFor db) r.1 r'.1
  path : r.2.1 = r'.2.1
  next : Except.Rel (fun x x' => x.1.StandsFor db x'.1 ∧ x.2 = x'.2) r.2.2 r'.2.2

/-- `peekLoop` over stacks in step. The induction is on the two stacks. -/
theorem peekLoop_standsFor (t t' : Trie) {stack stack' : List IteratorState}
    (sim : List.Forall₂ (IteratorState.StandsFor t.db) stack stack') :
    ∀ path, PeekStandsFor t.db (peekLoop keccak t stack path) (peekLoop keccak t' stack' path) := by
  induction sim with
  | nil => intro path; exact ⟨.nil, rfl, .error _⟩
  | @cons parent parent' rest rest' top below ih =>
    intro path
    rcases nextChild_standsFor keccak top path parent.ancestor parent'.ancestor with
      ⟨none₁, none₂⟩ | ⟨c, c', childPath, q, q', some₁, some₂, ⟨fuel, child⟩, hq⟩
    · -- neither top has a child left: both are popped
      simp only [peekLoop, none₁, none₂, top.pathlen]
      exact ih _
    · obtain ⟨s, resolved, hs, resolved'⟩ := IteratorState.resolve_standsFor t t'
        (childState keccak c parent.ancestor path.length) (childState keccak c' parent'.ancestor path.length)
        child rfl rfl childPath
      simp only [peekLoop, some₁, some₂, resolved, resolved']
      exact ⟨.cons hq below, rfl, .ok ⟨hs, rfl⟩⟩

namespace NodeIterator

/-- An iterator of `t` over the database against an iterator of `t'`, whose
root is the tree in memory that `t`'s root stands for: stacks in step, the
same path and the same error. -/
structure StandsFor (t t' : Trie) (it it' : NodeIterator) : Prop where
  trie : it.trie = some t
  trie' : it'.trie = some t'
  root : ∃ fuel, Expands t.db fuel t.root t'.root
  stack : List.Forall₂ (IteratorState.StandsFor t.db) it.stack it'.stack
  path : it.path = it'.path
  err : it.err = it'.err

variable {t t' : Trie} {it it' : NodeIterator}

theorem StandsFor.stack_nil (sim : it.StandsFor t t' it') (empty : it.stack = []) : it'.stack = [] := by
  have stack := sim.stack
  rw [empty] at stack
  exact List.forall₂_nil_left_iff.mp stack

theorem StandsFor.stack_cons (sim : it.StandsFor t t' it') {top : IteratorState} {rest : List IteratorState}
    (cons : it.stack = top :: rest) :
    ∃ top' rest', it'.stack = top' :: rest' ∧ top.StandsFor t.db top' ∧
      List.Forall₂ (IteratorState.StandsFor t.db) rest rest' := by
  have stack := sim.stack
  rw [cons] at stack
  obtain ⟨top', rest', htop, hrest, cons'⟩ := List.forall₂_cons_left_iff.mp stack
  exact ⟨top', rest', cons', htop, hrest⟩

theorem StandsFor.with_err (sim : it.StandsFor t t' it') (err : Option IteratorError) :
    ({ it with err := err } : NodeIterator).StandsFor t t' { it' with err := err } :=
  ⟨sim.trie, sim.trie', sim.root, sim.stack, sim.path, rfl⟩

theorem StandsFor.pop (sim : it.StandsFor t t' it') : it.pop.StandsFor t t' it'.pop := by
  unfold NodeIterator.pop
  cases hs : it.stack with
  | nil =>
    rw [sim.stack_nil hs]
    exact sim
  | cons top rest =>
    obtain ⟨top', rest', cons', htop, hrest⟩ := sim.stack_cons hs
    simp only [cons']
    exact ⟨sim.trie, sim.trie', sim.root, hrest, by rw [sim.path, htop.pathlen], sim.err⟩

/-- Moving the `index` of the two tops on keeps them in step. -/
theorem forall₂_bumpIndex {db : Database} {stack stack' : List IteratorState}
    (sim : List.Forall₂ (IteratorState.StandsFor db) stack stack') :
    List.Forall₂ (IteratorState.StandsFor db) (bumpIndex stack) (bumpIndex stack') := by
  cases sim with
  | nil => exact .nil
  | cons top below => exact .cons ⟨top.node, top.loaded, by simp [top.index], top.pathlen⟩ below

theorem StandsFor.push (sim : it.StandsFor t t' it') {state state' : IteratorState}
    (hs : state.StandsFor t.db state') (parentIndex : Bool) (path : List Nibble) :
    (it.push state parentIndex path).StandsFor t t' (it'.push state' parentIndex path) := by
  cases parentIndex
  · exact ⟨sim.trie, sim.trie', sim.root, .cons hs sim.stack, rfl, sim.err⟩
  · refine ⟨sim.trie, sim.trie', sim.root, ?_, rfl, sim.err⟩
    rw [push_true_stack, push_true_stack]
    exact .cons hs (forall₂_bumpIndex sim.stack)

/-- The iterator `peek` starts from, popped unless it descends. -/
theorem StandsFor.base (sim : it.StandsFor t t' it') (descend : Bool) :
    (if descend then it else it.pop).StandsFor t t' (if descend then it' else it'.pop) := by
  cases descend
  · exact sim.pop
  · exact sim

/-- `peek` over the database finds what it finds over the tree. -/
theorem peek_standsFor (sim : it.StandsFor t t' it') (descend : Bool) :
    Except.Rel (fun r r' => r.1.StandsFor t t' r'.1 ∧
        Except.Rel (fun x x' => x.1.StandsFor t.db x'.1 ∧ x.2 = x'.2) r.2 r'.2)
      (it.peek keccak descend) (it'.peek keccak descend) := by
  unfold NodeIterator.peek
  rw [sim.trie, sim.trie']
  cases hs : it.stack with
  | nil =>
    -- the first step loads the root
    obtain ⟨fuel, root⟩ := sim.root
    obtain ⟨s, resolved, hs', resolved'⟩ := IteratorState.resolve_standsFor t t'
      (rootState keccak t) (rootState keccak t') root rfl rfl []
    simp only [sim.stack_nil hs, resolved, resolved', Except.mapError_ok_eq, Except.map_ok_eq]
    exact .ok ⟨sim, .ok ⟨hs', rfl⟩⟩
  | cons top rest =>
    obtain ⟨top', rest', cons', -, -⟩ := sim.stack_cons hs
    have base := sim.base descend
    have loop := peekLoop_standsFor keccak t t' base.stack (if descend then it else it.pop).path
    simp only [cons', ← base.path]
    generalize peekLoop keccak t (if descend then it else it.pop).stack (if descend then it else it.pop).path = r
      at loop ⊢
    generalize peekLoop keccak t' (if descend then it' else it'.pop).stack
      (if descend then it else it.pop).path = r' at loop ⊢
    obtain ⟨stack₁, path₁, next₁⟩ := r
    obtain ⟨stack₂, path₂, next₂⟩ := r'
    obtain ⟨hstack, hpath, hnext⟩ := loop
    refine .ok ⟨⟨base.trie, base.trie', base.root, hstack, hpath, base.err⟩, hnext.map ?_⟩
    rintro x x' ⟨hx, same⟩
    exact ⟨hx, by rw [same]⟩

/-- `seek` over the database goes in step with `seek` over the tree. The
induction is on the fuel. -/
theorem seekLoop_standsFor (key : List Nibble) (pre : List UInt8) (fuel : Nat) :
    ∀ {it it' : NodeIterator}, it.StandsFor t t' it' →
      Except.Rel (fun r r' => r.1.StandsFor t t' r'.1 ∧ r.2 = r'.2)
        (it.seekLoop keccak key pre fuel) (it'.seekLoop keccak key pre fuel) := by
  induction fuel with
  | zero => intro it it' sim; exact .ok ⟨sim, rfl⟩
  | succ fuel ih =>
    intro it it' sim
    simp only [seekLoop, Except.bind_eq_bind, sim.path]
    refine Except.Rel.bind (peek_standsFor keccak sim _) fun r r' hr => ?_
    obtain ⟨i, next⟩ := r
    obtain ⟨i', next'⟩ := r'
    obtain ⟨hi, hnext⟩ := hr
    cases hnext with
    | error e => cases e <;> exact .ok ⟨hi, rfl⟩
    | @ok x x' hx =>
      obtain ⟨s, parentIndex, path⟩ := x
      obtain ⟨s', parentIndex', path'⟩ := x'
      obtain ⟨hs, same⟩ := hx
      obtain ⟨rfl, rfl⟩ := Prod.mk.inj same
      dsimp only
      split_ifs
      · exact .ok ⟨hi, rfl⟩
      · exact ih (hi.push hs parentIndex path)

/-- A step of `Next` past its checks over the database goes in step with one
over the tree. -/
theorem step_standsFor (sim : it.StandsFor t t' it') (descend : Bool) :
    Except.Rel (fun r r' => r.1 = r'.1 ∧ r.2.StandsFor t t' r'.2) (it.step keccak descend) (it'.step keccak descend) := by
  simp only [step, Except.bind_eq_bind]
  refine Except.Rel.bind (peek_standsFor keccak sim descend) fun r r' hr => ?_
  obtain ⟨i, next⟩ := r
  obtain ⟨i', next'⟩ := r'
  obtain ⟨hi, hnext⟩ := hr
  cases hnext with
  | error e => exact .ok ⟨rfl, hi.with_err _⟩
  | @ok x x' hx =>
    obtain ⟨s, parentIndex, path⟩ := x
    obtain ⟨s', parentIndex', path'⟩ := x'
    obtain ⟨hs, same⟩ := hx
    obtain ⟨rfl, rfl⟩ := Prod.mk.inj same
    exact .ok ⟨rfl, (hi.push hs parentIndex path).with_err none⟩

/-- `Next` over the database goes in step with `Next` over the tree. -/
theorem Next_standsFor (sim : it.StandsFor t t' it') (fuel : Nat) (descend : Bool) :
    Except.Rel (fun r r' => r.1 = r'.1 ∧ r.2.StandsFor t t' r'.2)
      (it.Next keccak fuel descend) (it'.Next keccak fuel descend) := by
  unfold NodeIterator.Next
  rw [← sim.err]
  cases herr : it.err with
  | none => exact step_standsFor keccak sim descend
  | some e =>
    cases e with
    | iteratorEnd => exact .ok ⟨rfl, sim⟩
    | trie _ => exact step_standsFor keccak sim descend
    | seekError key _ =>
      -- a failed `seek` is tried again first, alike on both sides
      simp only [seek, Except.bind_eq_bind]
      refine Except.Rel.bind (seekLoop_standsFor keccak _ key fuel sim) fun r r' hr => ?_
      obtain ⟨i, err⟩ := r
      obtain ⟨i', err'⟩ := r'
      obtain ⟨hi, same⟩ := hr
      cases same
      cases err with
      | some e => exact .ok ⟨rfl, hi.with_err _⟩
      | none => exact step_standsFor keccak (hi.with_err none) descend

theorem StandsFor.Leaf_eq (sim : it.StandsFor t t' it') : it.Leaf = it'.Leaf := by
  rw [Leaf, Leaf, sim.path]

theorem StandsFor.Error_eq (sim : it.StandsFor t t' it') : it.Error = it'.Error := by
  rw [Error, Error, sim.err]

/-- The key and the value at the top of the stack: a state over the database
holds a value exactly where the state over the tree holds it. -/
theorem StandsFor.leaves_eq (sim : it.StandsFor t t' it') : it.LeafKey = it'.LeafKey ∧ it.LeafBlob = it'.LeafBlob := by
  unfold LeafKey LeafBlob
  cases hs : it.stack with
  | nil => rw [sim.stack_nil hs]; exact ⟨rfl, rfl⟩
  | cons top rest =>
    obtain ⟨top', rest', cons', ⟨⟨fuel, node⟩, loaded, -, -⟩, -⟩ := sim.stack_cons hs
    simp only [cons', sim.path]
    generalize top.node = n at node loaded ⊢
    generalize top'.node = n' at node ⊢
    cases node <;> first | exact ⟨rfl, rfl⟩ | simp [isHash] at loaded

end NodeIterator

namespace Iterator

variable {t t' : Trie}

/-- An `Iterator` over the database against one over the tree: node
iterators in step, and the same key, value and error. -/
structure StandsFor (t t' : Trie) (it it' : Iterator) : Prop where
  nodeIt : it.nodeIt.StandsFor t t' it'.nodeIt
  Key : it.Key = it'.Key
  Value : it.Value = it'.Value
  Err : it.Err = it'.Err

/-- The loop of `Iterator.Next` over the database goes in step with the loop
over the tree. The induction is on the loop's bound. -/
theorem nextLoop_standsFor {it it' : Iterator} (sim : it.StandsFor t t' it') (fuel n : Nat) :
    ∀ {nodeIt nodeIt' : NodeIterator}, nodeIt.StandsFor t t' nodeIt' →
      Except.Rel (fun r r' => r.1 = r'.1 ∧ r.2.StandsFor t t' r'.2)
        (it.nextLoop keccak fuel n nodeIt) (it'.nextLoop keccak fuel n nodeIt') := by
  induction n with
  | zero => intro nodeIt nodeIt' hn; exact .ok ⟨rfl, ⟨hn, rfl, rfl, rfl⟩⟩
  | succ n ih =>
    intro nodeIt nodeIt' hn
    simp only [nextLoop, Except.bind_eq_bind]
    refine Except.Rel.bind (NodeIterator.Next_standsFor keccak hn fuel true) fun r r' hr => ?_
    obtain ⟨more, i⟩ := r
    obtain ⟨more', i'⟩ := r'
    obtain ⟨same, hi⟩ := hr
    cases same
    obtain ⟨key, blob⟩ := hi.leaves_eq
    dsimp only
    rw [hi.Leaf_eq, key, blob, hi.Error_eq]
    split_ifs
    · exact Except.Rel.bind_same fun _ => Except.Rel.bind_same fun _ => .ok ⟨rfl, ⟨hi, rfl, rfl, sim.Err⟩⟩
    · exact ih hi
    · exact .ok ⟨rfl, ⟨hi, rfl, rfl, rfl⟩⟩

theorem Next_standsFor {it it' : Iterator} (sim : it.StandsFor t t' it') (fuel : Nat) :
    Except.Rel (fun r r' => r.1 = r'.1 ∧ r.2.StandsFor t t' r'.2) (it.Next keccak fuel) (it'.Next keccak fuel) :=
  nextLoop_standsFor keccak sim fuel fuel sim.nodeIt

/-- What `Iterator.Next` yields over the database, it yields over the tree. -/
theorem yields_standsFor (fuel : Nat) {it : Iterator} {kvs : List (List UInt8 × List UInt8)}
    (yields : it.Yields keccak fuel kvs) : ∀ {it' : Iterator}, it.StandsFor t t' it' → it'.Yields keccak fuel kvs := by
  induction yields with
  | done next =>
    intro it' sim
    obtain ⟨⟨more, i'⟩, next', same, -⟩ := Except.Rel.of_ok_left (Next_standsFor keccak sim fuel) next
    cases same
    exact .done next'
  | next next _ ih =>
    intro it' sim
    obtain ⟨⟨more, i'⟩, next', same, hi⟩ := Except.Rel.of_ok_left (Next_standsFor keccak sim fuel) next
    cases same
    rw [hi.Key, hi.Value]
    exact .next next' (ih hi)

/-- What `Iterator.Next` yields over the tree, it yields over the database. -/
theorem yields_of_standsFor (fuel : Nat) {it' : Iterator} {kvs : List (List UInt8 × List UInt8)}
    (yields : it'.Yields keccak fuel kvs) : ∀ {it : Iterator}, it.StandsFor t t' it' → it.Yields keccak fuel kvs := by
  induction yields with
  | done next =>
    intro it sim
    obtain ⟨⟨more, i⟩, next', same, -⟩ := Except.Rel.of_ok_right (Next_standsFor keccak sim fuel) next
    cases same
    exact .done next'
  | next next _ ih =>
    intro it sim
    obtain ⟨⟨more, i⟩, next', same, hi⟩ := Except.Rel.of_ok_right (Next_standsFor keccak sim fuel) next
    cases same
    rw [← hi.Key, ← hi.Value]
    exact .next next' (ih hi)

end Iterator

/-! ## Iteration enumerates the entries -/

/-- Iterating a trie over a database from a start key yields exactly the
entries `TryGet` finds at HEX keys at or after the start key's without its
terminator, each once, in strictly increasing order of HEX keys. The root
stands for a live tree in memory: every hash node below it loads from the
database, and the tree has the shape and holds its values at byte keys; a
trie in memory stands for itself (`Expands.of_wf`). The root hash must not be
`emptyState`, the hash of no bytes, for which `newNodeIterator` keeps no trie;
the fuel covers the walk. -/
theorem NewIterator_yields_entries (t : Trie) {depth : Nat} {e : HexNode} (expands : Expands t.db depth t.root e)
    (live : ({ t with root := e } : Trie).Live) (hashed : t.Hash keccak ≠ emptyState keccak) (start : List UInt8)
    (fuel : Nat) (enough : (walk e []).length < fuel) :
    ∃ it, newNodeIterator keccak fuel t start = .ok it ∧ (∃ kvs, (NewIterator it).Yields keccak fuel kvs) ∧
      ∀ kvs, (NewIterator it).Yields keccak fuel kvs →
        (∀ k v, (k, v) ∈ kvs ↔ (t.TryGet depth k).1 = .ok (some v) ∧
          (keybytesToHex start).dropLast ≤ keybytesToHex k) ∧
        (kvs.map fun kv => keybytesToHex kv.1).Pairwise (· < ·) ∧ kvs.Nodup := by
  obtain ⟨it', err, seek', yields', entries'⟩ := seek_yields_entries keccak { t with root := e } live start fuel enough
  -- the iterator over the database seeks in step with the one over the tree
  have fresh : (⟨some t, [], [], none⟩ : NodeIterator).StandsFor t { t with root := e }
      ⟨some { t with root := e }, [], [], none⟩ := ⟨rfl, rfl, ⟨depth, expands⟩, .nil, rfl, rfl⟩
  rw [NodeIterator.seek] at seek'
  obtain ⟨⟨it, err₁⟩, seek, sim, same⟩ :=
    Except.Rel.of_ok_right (NodeIterator.seekLoop_standsFor keccak _ start fuel fresh) seek'
  cases same
  have sim' : (NewIterator { it with err := err }).StandsFor t { t with root := e }
      (NewIterator { it' with err := err }) := ⟨sim.with_err err, rfl, rfl, rfl⟩
  refine ⟨{ it with err := err }, ?_, ?_, fun kvs yields => ?_⟩
  · simp [newNodeIterator, hashed, NodeIterator.seek, seek]
  · obtain ⟨kvs, run⟩ := yields'
    exact ⟨kvs, Iterator.yields_of_standsFor keccak fuel run sim'⟩
  · obtain ⟨mem, sorted, nodup⟩ := entries' kvs (Iterator.yields_standsFor keccak fuel yields sim')
    refine ⟨fun k v => ?_, sorted, nodup⟩
    rw [mem k v, TryGet_expands t expands live.wf k]
    simp [Trie.contents]

/-- A trie whose root is a hash node that its database loads: a leaf of the
byte key `0x12`, which iterating from the start yields. -/
theorem NewIterator_yields_entries_loaded :
    let db : Database :=
      { diskdb := fun _ => none
        cleans := fun _ => none
        dirties := fun h => if h = bytesToHash [1] then some (.short (hexToCompact (keybytesToHex [0x12])) (.value [5]))
          else none }
    let t : Trie := { db, root := .hash [1] }
    let e : HexNode := .short (keybytesToHex [0x12]) (.value [5])
    Expands t.db 1 t.root e ∧ ({ t with root := e } : Trie).Live ∧ t.Hash id ≠ emptyState id ∧
      (walk e []).length < 3 ∧
      ∃ it, newNodeIterator id 3 t [] = .ok it ∧ (∃ kvs, (NewIterator it).Yields id 3 kvs) ∧
        ∀ kvs, (NewIterator it).Yields id 3 kvs →
          (∀ k v, (k, v) ∈ kvs ↔ (t.TryGet 1 k).1 = .ok (some v) ∧
            (keybytesToHex []).dropLast ≤ keybytesToHex k) ∧
          (kvs.map fun kv => keybytesToHex kv.1).Pairwise (· < ·) ∧ kvs.Nodup := by
  intro db t e
  have loads : db.node (bytesToHash [1]) = .ok (some e) := rfl
  have expands : Expands t.db 1 t.root e := .hash loads rfl (.short _ (.value [5]))
  -- the tree is what one update of the empty trie builds
  obtain ⟨t₁, run, -, live, -⟩ := Trie.runOps_spec 0 [.update [0x12] [5]] { db, root := .nil } (live_empty db)
  have built : ({ db, root := .nil } : Trie).runOps 0 [.update [0x12] [5]] = .ok { t with root := e } := rfl
  rw [built, Except.ok.injEq] at run
  rw [← run] at live
  have hashed : t.Hash id ≠ emptyState id := by decide
  exact ⟨expands, live, hashed, by decide, NewIterator_yields_entries id t expands live hashed [] 3 (by decide)⟩

/-- A trie whose database lacks a node it references: `TryGet` finds the
value under the root's second child, but iterating stops at the missing first
child and yields nothing. -/
theorem NewIterator_stops_at_missing_node :
    (Trie.TryGet
        { db := NewDatabase fun _ => none
          root := .full fun i => if i = 0 then .hash [7] else if i = 1 then .short [0, 16] (.value [5]) else .nil }
        4 [16]).1 = .ok (some [5]) ∧
      ∃ it, newNodeIterator id 4
          { db := NewDatabase fun _ => none
            root := .full fun i => if i = 0 then .hash [7] else if i = 1 then .short [0, 16] (.value [5]) else .nil }
          [] = .ok it ∧ (NewIterator it).Yields id 4 [] :=
  ⟨rfl, _, rfl, .done rfl⟩

end FiscoBcos.Trie
