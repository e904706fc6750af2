import FiscoBcos.Trie.Iterator
import FiscoBcos.Lib.PathOrder
import Mathlib

/-!
# What the iterator walks

The abstract side of `trie/iterator.go`: `walk` lists the nodes of a trie in
pre-order, each with its path from the root, the children of a full node in
the order of their nibbles. On a trie held in memory (`InMemory`: no hash
node, no short node with an empty key) the walk lists its paths in strictly
increasing order, and its value nodes are the entries of the trie's map
(`mem_walk_value`).

The node iterator's stack is a cursor into that walk. Each state has left
the walks of its children after its `index` (`IteratorState.rest`), and the
stack has left the states' rests from the top down (`stackRest`), each under
the path cut to the state's `pathlen`. `NodeIterator.Walking` is the
invariant: a step of `Next` takes the head off what is left
(`Next_of_remaining_cons`), `seek` leaves what is at or after its key
(`seekLoop_remaining`), and `Iterator.Next` reads the leaves off in order
(`Iterator.yields_spec`). So seeking and iterating a live trie yields its
entries from the start key on, in strictly increasing order
(`seek_yields_entries`); `Trie.IteratorExpand` carries this over to tries
over a database.
-/

namespace FiscoBcos.Trie

open Node

variable (keccak : List UInt8 → List UInt8)

/-- A node of the walk, with its path from the root. -/
abbrev Visit := List Nibble × HexNode

/-- The pre-order walk below a node at path `p`: the node, then the walks of
its children, the set children of a full node in the order of their nibbles. -/
def walk : HexNode → List Nibble → List Visit
  | .full cs, p => (p, .full cs) :: (nonNil cs).flatMap fun i => walk (cs i) (p ++ [i])
  | .short k v, p => (p, .short k v) :: walk v (p ++ k)
  | n, p => [(p, n)]

/-- A node held in memory whole, as the iterator walks it: no hash node below
it, and no short node with an empty key. -/
def InMemory : HexNode → Prop
  | .full cs => ∀ i, InMemory (cs i)
  | .short k v => k ≠ [] ∧ InMemory v
  | .hash _ => False
  | _ => True

-- The equations of `walk`, one per kind of node, and its induction rule:
-- the proofs below rewrite with these and never unfold `walk` itself.
theorem walk_full (cs : Fin 17 → HexNode) (p : List Nibble) :
    walk (.full cs) p = (p, .full cs) :: (nonNil cs).flatMap fun i => walk (cs i) (p ++ [i]) := rfl

theorem walk_short (k : List Nibble) (v : HexNode) (p : List Nibble) :
    walk (.short k v) p = (p, .short k v) :: walk v (p ++ k) := rfl

theorem walk_nil (p : List Nibble) : walk .nil p = [(p, .nil)] := rfl

theorem walk_value (w : List UInt8) (p : List Nibble) : walk (.value w) p = [(p, .value w)] := rfl

theorem walk_hash (h : List UInt8) (p : List Nibble) : walk (.hash h) p = [(p, .hash h)] := rfl

theorem walk_leaf {n : HexNode} (full : ∀ cs, n ≠ .full cs) (short : ∀ k v, n ≠ .short k v)
    (p : List Nibble) : walk n p = [(p, n)] := by
  cases n with
  | full cs => exact absurd rfl (full cs)
  | short k v => exact absurd rfl (short k v)
  | nil => rfl
  | value w => rfl
  | hash h => rfl

/-- Induction along `walk`: over the children of a full node, the child of a
short node, and the leaves. -/
theorem walk_induction {motive : HexNode → List Nibble → Prop}
    (full : ∀ cs p, (∀ i, motive (cs i) (p ++ [i])) → motive (.full cs) p)
    (short : ∀ k v p, motive v (p ++ k) → motive (.short k v) p)
    (leaf : ∀ n p, (∀ cs, n ≠ .full cs) → (∀ k v, n ≠ .short k v) → motive n p) :
    ∀ n p, motive n p := by
  intro n
  induction n with
  | full cs ih => exact fun p => full cs p fun i => ih i _
  | short k v ih => exact fun p => short k v p (ih _)
  | nil => exact fun p => leaf .nil p (fun _ => nofun) (fun _ _ => nofun)
  | value w => exact fun p => leaf (.value w) p (fun _ => nofun) (fun _ _ => nofun)
  | hash h => exact fun p => leaf (.hash h) p (fun _ => nofun) (fun _ _ => nofun)

theorem walk_eq_cons (n : HexNode) (p : List Nibble) : walk n p = (p, n) :: (walk n p).tail := by
  cases n <;> rfl

/-- Every node of the walk below `p` lies at an extension of `p`. -/
theorem prefix_of_mem_walk {n : HexNode} {p : List Nibble} {x : Visit} (mem : x ∈ walk n p) : p <+: x.1 := by
  induction n, p using walk_induction with
  | full cs p ih =>
    simp only [walk_full, List.mem_cons, List.mem_flatMap] at mem
    rcases mem with rfl | ⟨i, -, below⟩
    · exact List.prefix_refl _
    · exact (List.prefix_append p [i]).trans (ih i below)
  | short k v p ih =>
    simp only [walk_short, List.mem_cons] at mem
    rcases mem with rfl | below
    · exact List.prefix_refl _
    · exact (List.prefix_append p k).trans (ih below)
  | leaf n p full short =>
    have : walk n p = [(p, n)] := walk_leaf full short p
    rw [this, List.mem_singleton] at mem
    subst mem
    exact List.prefix_refl _

/-- Every node of the walk of a node in memory is in memory. -/
theorem inMemory_of_mem_walk {n : HexNode} {p : List Nibble} (loaded : InMemory n) {x : Visit}
    (mem : x ∈ walk n p) : InMemory x.2 := by
  induction n, p using walk_induction with
  | full cs p ih =>
    simp only [walk_full, List.mem_cons, List.mem_flatMap] at mem
    rcases mem with rfl | ⟨i, -, below⟩
    · exact loaded
    · exact ih i (loaded i) below
  | short k v p ih =>
    simp only [walk_short, List.mem_cons] at mem
    rcases mem with rfl | below
    · exact loaded
    · exact ih loaded.2 below
  | leaf n p full short =>
    have : walk n p = [(p, n)] := walk_leaf full short p
    rw [this, List.mem_singleton] at mem
    subst mem
    exact loaded

/-- The walk of a node in memory lists its paths in strictly increasing
order: a node before its children, and the walks below two children in the
order of their nibbles. -/
theorem walk_sorted {n : HexNode} {p : List Nibble} (loaded : InMemory n) :
    (walk n p).Pairwise fun x y => x.1 < y.1 := by
  induction n, p using walk_induction with
  | full cs p ih =>
    refine List.pairwise_cons.mpr ⟨fun y mem => ?_, ?_⟩
    · -- the node's own path comes before every path below it
      obtain ⟨i, -, below⟩ := List.mem_flatMap.mp mem
      obtain ⟨r, hr⟩ := prefix_of_mem_walk below
      rw [← hr, List.append_assoc]
      exact PathOrder.lt_append_of_ne_nil p (by simp)
    · refine List.pairwise_flatMap.mpr ⟨fun i _ => ih i (loaded i), ?_⟩
      refine ((List.pairwise_lt_finRange 17).filter _).imp fun {i j} lt x xmem y ymem => ?_
      obtain ⟨r, hr⟩ := prefix_of_mem_walk xmem
      obtain ⟨s, hs⟩ := prefix_of_mem_walk ymem
      rw [← hr, ← hs]
      exact PathOrder.append_singleton_append_lt p r s lt
  | short k v p ih =>
    refine List.pairwise_cons.mpr ⟨fun y mem => ?_, ih loaded.2⟩
    obtain ⟨r, hr⟩ := prefix_of_mem_walk mem
    rw [← hr, List.append_assoc]
    exact PathOrder.lt_append_of_ne_nil p (by simp [loaded.1])
  | leaf n p full short =>
    have : walk n p = [(p, n)] := walk_leaf full short p
    rw [this]
    exact List.pairwise_singleton _ _

/-- The value nodes of the walk are the entries of the node's map, each at
its path. -/
theorem mem_walk_value {n : HexNode} {p q : List Nibble} {w : List UInt8} :
    (q, .value w) ∈ walk n p ↔ ∃ r, q = p ++ r ∧ n.lookup r = some w := by
  induction n, p using walk_induction generalizing q with
  | full cs p ih =>
    simp only [walk_full, List.mem_cons, Prod.mk.injEq, reduceCtorEq, and_false, false_or, List.mem_flatMap, ih]
    constructor
    · rintro ⟨i, -, r, rfl, found⟩
      exact ⟨i :: r, by simp, found⟩
    · rintro ⟨_ | ⟨i, r⟩, rfl, found⟩
      · simp at found
      · -- a nil child holds nothing, so the key runs through a set child
        have set : (cs i).isNil = false := by
          cases h : cs i <;> simp_all
        exact ⟨i, by simp [nonNil, set], r, by simp, found⟩
  | short k v p ih =>
    simp only [walk_short, List.mem_cons, Prod.mk.injEq, reduceCtorEq, and_false, false_or, ih, lookup_short]
    constructor
    · rintro ⟨r, rfl, found⟩
      exact ⟨k ++ r, by simp, by simpa using found⟩
    · rintro ⟨r, rfl, found⟩
      split at found
      · next pre =>
        obtain ⟨s, rfl⟩ := pre
        exact ⟨s, by simp, by simpa using found⟩
      · simp at found
  | leaf n p full short =>
    cases n with
    | full cs => exact absurd rfl (full cs)
    | short k v => exact absurd rfl (short k v)
    | nil => simp [walk_nil]
    | hash h => simp [walk_hash, lookup]
    | value v =>
      simp only [walk_value, List.mem_singleton, Prod.mk.injEq, Node.value.injEq, lookup_value]
      constructor
      · rintro ⟨rfl, rfl⟩
        exact ⟨[], by simp, by simp⟩
      · rintro ⟨r, rfl, found⟩
        split at found
        · next empty => simp_all
        · simp at found

/-- A well-formed node is in memory. -/
theorem inMemory_of_wf : ∀ {n : HexNode}, n.Wf → InMemory n
  | .nil, _ => trivial
  | .value _, wf => wf.elim
  | .hash _, wf => wf.elim
  | .short k v, wf => by
    rcases wf with ⟨leaf, w, rfl⟩ | ⟨ne, -, -, wf⟩
    · exact ⟨leaf.ne_nil, trivial⟩
    · exact ⟨ne, inMemory_of_wf wf⟩
  | .full cs, wf => fun i => by
    obtain ⟨slot, below, -⟩ := wf
    by_cases last : i = 16
    · subst last
      rcases slot with h | ⟨w, h⟩ <;> rw [h] <;> trivial
    · exact inMemory_of_wf (below i last)

/-- In the walk of a well-formed node below a plain path, a path is plain
unless it is a stored key holding a value. -/
theorem shape_of_mem_walk {n : HexNode} {p : List Nibble} (wf : n.Wf) (plain : Plain p) {x : Visit}
    (mem : x ∈ walk n p) : Plain x.1 ∨ (Terminated x.1 ∧ ∃ w, x.2 = .value w) := by
  induction n, p using walk_induction with
  | full cs p ih =>
    simp only [walk_full, List.mem_cons, List.mem_flatMap] at mem
    rcases mem with rfl | ⟨i, set, below⟩
    · exact .inl plain
    obtain ⟨slot, children, -⟩ := wf
    by_cases last : i = 16
    · -- slot 16 holds a value, at the path closed by the terminator
      subst last
      rcases slot with h | ⟨w, h⟩
      · simp [nonNil, h] at set
      · rw [h] at below
        simp only [walk_value, List.mem_singleton] at below
        subst below
        exact .inr ⟨(terminated_append_iff plain).mpr .term, w, rfl⟩
    · have small : i < 16 := lt_of_le_of_ne (Fin.le_last i) last
      exact ih i (children i last) (Iff.mpr plain_append ⟨plain, by simpa using small⟩) below
  | short k v p ih =>
    simp only [walk_short, List.mem_cons] at mem
    rcases mem with rfl | below
    · exact .inl plain
    rcases wf with ⟨leaf, w, rfl⟩ | ⟨-, key, -, wf⟩
    · simp only [walk_value, List.mem_singleton] at below
      subst below
      exact .inr ⟨(terminated_append_iff plain).mpr leaf, w, rfl⟩
    · exact ih wf (Iff.mpr plain_append ⟨plain, key⟩) below
  | leaf n p full short =>
    have : walk n p = [(p, n)] := walk_leaf full short p
    rw [this, List.mem_singleton] at mem
    exact .inl (mem ▸ plain)

/-! ## What the stack has left -/

/-- What a state has left of the walk below its node at `path`: the walks of
the set children of a full node after `index`, the child of a short node
while `index` is negative. -/
def IteratorState.rest (st : IteratorState) (path : List Nibble) : List Visit :=
  match st.node with
  | .full cs =>
    ((List.finRange 17).filter fun i => decide (st.index < i.val) && !(cs i).isNil).flatMap
      fun i => walk (cs i) (path ++ [i])
  | .short k v => if st.index < 0 then walk v (path ++ k) else []
  | _ => []

/-- What a stack has left of the walk: the rests of its states from the top
down, each under the path cut to the length of its parent's. -/
def stackRest : List IteratorState → List Nibble → List Visit
  | [], _ => []
  | st :: stack, path => st.rest path ++ stackRest stack (path.take st.pathlen)

/-- The stack below a state that `push` pushes under a parent: the parent's
`index` moved on. -/
def bumpIndex : List IteratorState → List IteratorState
  | top :: rest => { top with index := top.index + 1 } :: rest
  | [] => []

@[simp] theorem stackRest_nil (path : List Nibble) : stackRest [] path = [] := rfl

@[simp] theorem stackRest_cons (st : IteratorState) (stack : List IteratorState) (path : List Nibble) :
    stackRest (st :: stack) path = st.rest path ++ stackRest stack (path.take st.pathlen) := rfl

theorem push_true_stack (it : NodeIterator) (state : IteratorState) (path : List Nibble) :
    (it.push state true path).stack = state :: bumpIndex it.stack := by
  unfold NodeIterator.push
  cases it.stack <;> rfl

/-- A freshly pushed state has the whole walk below its node left, past the
node itself. -/
theorem rest_fresh {st : IteratorState} (fresh : st.index = -1) (path : List Nibble) :
    st.rest path = (walk st.node path).tail := by
  unfold IteratorState.rest
  cases st.node with
  | full cs =>
    simp only [walk_full, List.tail_cons, nonNil, fresh]
    congr 1
  | short k v => simp [walk_short, fresh]
  | _ => rfl

/-- A state with nothing left below it has no next child. -/
theorem nextChild_of_rest_nil {path : List Nibble} {parent : IteratorState} (ancestor : List UInt8)
    (empty : parent.rest path = []) : nextChild keccak path parent ancestor = none := by
  cases h : parent.node with
  | full cs =>
    simp only [IteratorState.rest, h] at empty
    have none_left : (List.finRange 17).filter (fun i => decide (parent.index < i.val) && !(cs i).isNil) = [] := by
      refine List.eq_nil_iff_forall_not_mem.mpr fun i mem => ?_
      have := List.flatMap_eq_nil_iff.mp empty i mem
      rw [walk_eq_cons] at this
      exact List.cons_ne_nil _ _ this
    simp only [nextChild, h]
    rw [← List.head?_filter, none_left]
    rfl
  | short k v =>
    simp only [IteratorState.rest, h] at empty
    split at empty
    · rw [walk_eq_cons] at empty
      exact absurd empty (List.cons_ne_nil _ _)
    · next done => simp [nextChild, h, done]
  | _ => simp [nextChild, h]

/-- The next child of a state heads what the state has left: `nextChild`
returns the child's state and path, and the parent with its `index` one short
of the child, so that it still has the child left; with the `index` moved on,
the parent has left what follows the child's walk. -/
theorem nextChild_of_rest_cons {path : List Nibble} {parent : IteratorState} (ancestor : List UInt8)
    (indexed : -1 ≤ parent.index) {x : Visit} {w : List Visit} (next : parent.rest path = x :: w) :
    ∃ parent', nextChild keccak path parent ancestor =
        some (childState keccak x.2 ancestor path.length, x.1, parent') ∧
      parent'.rest path = x :: w ∧ -1 ≤ parent'.index ∧ parent'.pathlen = parent.pathlen ∧
      x.1.take path.length = path ∧ x :: w = walk x.2 x.1 ++ { parent' with index := parent'.index + 1 }.rest path := by
  cases h : parent.node with
  | full cs =>
    simp only [IteratorState.rest, h] at next
    obtain ⟨i, later, first⟩ : ∃ i later, (List.finRange 17).filter
        (fun j => decide (parent.index < j.val) && !(cs j).isNil) = i :: later := by
      cases hf : (List.finRange 17).filter (fun j => decide (parent.index < j.val) && !(cs j).isNil) with
      | nil => rw [hf] at next; simp at next
      | cons i later => exact ⟨i, later, rfl⟩
    have hit : parent.index < i.val := by
      have := (List.mem_filter.mp (first ▸ List.mem_cons_self : i ∈ _)).2
      simp only [Bool.and_eq_true, decide_eq_true_eq] at this
      exact this.1
    have split_next := next
    rw [first, List.flatMap_cons, walk_eq_cons, List.cons_append, List.cons.injEq] at split_next
    obtain ⟨rfl, -⟩ := split_next
    -- moved back to just before `i`, and on past it, the filter of set children
    have onward : ∀ b ∈ List.finRange 17, (decide ((i.val : Int) - 1 < b.val) && !(cs b).isNil) =
        (decide (i ≤ b) && (decide (parent.index < b.val) && !(cs b).isNil)) := by
      intro b _
      cases (cs b).isNil
      · rw [Bool.eq_iff_iff]
        simp only [Bool.not_false, Bool.and_true, Bool.and_eq_true, decide_eq_true_eq, Fin.le_def]
        omega
      · simp
    have after : ∀ b ∈ List.finRange 17, (decide ((i.val : Int) - 1 + 1 < b.val) && !(cs b).isNil) =
        (decide (i < b) && (decide (parent.index < b.val) && !(cs b).isNil)) := by
      intro b _
      cases (cs b).isNil
      · rw [Bool.eq_iff_iff]
        simp only [Bool.not_false, Bool.and_true, Bool.and_eq_true, decide_eq_true_eq, Fin.lt_def]
        omega
      · simp
    refine ⟨{ parent with index := i.val - 1 }, ?_, ?_, show -1 ≤ (i.val : Int) - 1 by omega, rfl, by simp, ?_⟩
    · simp only [nextChild, h]
      rw [← List.head?_filter, first]
      rfl
    · simp only [IteratorState.rest, h]
      rw [PathOrder.filter_eq_of_filter_eq_cons_le (List.pairwise_lt_finRange 17) first onward, ← first]
      exact next
    · simp only [IteratorState.rest, h]
      rw [PathOrder.filter_eq_of_filter_eq_cons (List.pairwise_lt_finRange 17) first after, ← next, first,
        List.flatMap_cons]
  | short k v =>
    simp only [IteratorState.rest, h] at next
    split at next
    · next negative =>
      have split_next := next
      rw [walk_eq_cons, List.cons.injEq] at split_next
      obtain ⟨rfl, -⟩ := split_next
      have moved_on : ¬ parent.index + 1 < 0 := by omega
      refine ⟨parent, by simp [nextChild, h, negative], ?_, indexed, rfl, by simp, ?_⟩
      · simp [IteratorState.rest, h, negative, next]
      · simp [IteratorState.rest, h, moved_on, next]
    · simp at next
  | _ => simp [IteratorState.rest, h] at next

/-- A node in memory resolves to itself. -/
theorem resolve_of_inMemory (t : Trie) {st : IteratorState} (loaded : InMemory st.node) (path : List Nibble) :
    st.resolve t path = .ok st := by
  unfold IteratorState.resolve
  cases h : st.node with
  | hash _ => rw [h] at loaded; exact loaded.elim
  | _ => rfl

/-- What `peekLoop` leaves when it finds the node `x` heading the walk
`x :: w` that its stack has left: the child's fresh state under a stack and
path that still have `x :: w` left, and have `x`'s walk split off once the
top's `index` moves on. -/
structure Found (x : Visit) (w : List Visit) (stack : List IteratorState) (path : List Nibble)
    (state : IteratorState) : Prop where
  node : state.node = x.2
  fresh : state.index = -1
  pathlen : state.pathlen = path.length
  below : x.1.take path.length = path
  ne_nil : stack ≠ []
  indexed : ∀ st ∈ stack, -1 ≤ st.index
  left : stackRest stack path = x :: w
  split : x :: w = walk x.2 x.1 ++ stackRest (bumpIndex stack) path

/-- A stack with nothing left pops to the end. -/
theorem peekLoop_of_stackRest_nil (t : Trie) :
    ∀ (stack : List IteratorState) (path : List Nibble), stackRest stack path = [] →
      ∃ path', peekLoop keccak t stack path = ([], path', .error .iteratorEnd)
  | [], path, _ => ⟨path, rfl⟩
  | parent :: rest, path, empty => by
    rw [stackRest_cons, List.append_eq_nil_iff] at empty
    simp only [peekLoop, nextChild_of_rest_nil keccak _ empty.1]
    exact peekLoop_of_stackRest_nil t rest _ empty.2

/-- `peekLoop` finds the head of what its stack has left, popping the states
with nothing left. -/
theorem peekLoop_of_stackRest_cons (t : Trie) {x : Visit} {w : List Visit} (loaded : InMemory x.2) :
    ∀ (stack : List IteratorState) (path : List Nibble), (∀ st ∈ stack, -1 ≤ st.index) →
      stackRest stack path = x :: w →
      ∃ stack' path' state, peekLoop keccak t stack path = (stack', path', .ok (state, x.1)) ∧
        Found x w stack' path' state
  | [], _, _, left => by simp at left
  | parent :: rest, path, indexed, left => by
    rw [stackRest_cons] at left
    cases h : parent.rest path with
    | nil =>
      -- the top has nothing left: it is popped
      rw [h, List.nil_append] at left
      simp only [peekLoop, nextChild_of_rest_nil keccak _ h]
      exact peekLoop_of_stackRest_cons t loaded rest _ (fun st mem => indexed st (by simp [mem])) left
    | cons y ys =>
      rw [h, List.cons_append, List.cons.injEq] at left
      obtain ⟨rfl, rfl⟩ := left
      obtain ⟨parent', child, same, indexed', pathlen, below, split⟩ :=
        nextChild_of_rest_cons keccak parent.ancestor (indexed parent (by simp)) h
      refine ⟨parent' :: rest, path, childState keccak y.2 parent.ancestor path.length, ?_, ?_⟩
      · simp only [peekLoop, child, resolve_of_inMemory t (show InMemory (childState keccak y.2 _ _).node from loaded)]
      · refine ⟨rfl, rfl, rfl, below, List.cons_ne_nil _ _, ?_, ?_, ?_⟩
        · intro st mem
          rcases List.mem_cons.mp mem with rfl | mem
          · exact indexed'
          · exact indexed st (by simp [mem])
        · rw [stackRest_cons, same, pathlen, List.cons_append]
        · rw [bumpIndex, stackRest_cons, ← List.append_assoc, ← split, pathlen, List.cons_append]

/-- Moving the top's `index` on keeps every index at least `-1`. -/
theorem indexed_bumpIndex {stack : List IteratorState} (indexed : ∀ st ∈ stack, -1 ≤ st.index) :
    ∀ st ∈ bumpIndex stack, -1 ≤ st.index := by
  cases stack with
  | nil => simp [bumpIndex]
  | cons top rest =>
    intro st mem
    rcases List.mem_cons.mp mem with rfl | mem
    · have := indexed top (by simp)
      show -1 ≤ top.index + 1
      omega
    · exact indexed st (by simp [mem])

/-- Pushing the state `peekLoop` found leaves the walk past its node. -/
theorem Found.push {x : Visit} {w : List Visit} {it : NodeIterator} {state : IteratorState}
    (found : Found x w it.stack it.path state) :
    stackRest (it.push state true x.1).stack x.1 = w ∧ ∀ st ∈ (it.push state true x.1).stack, -1 ≤ st.index := by
  rw [push_true_stack]
  constructor
  · have split := found.split
    rw [walk_eq_cons, List.cons_append, List.cons.injEq] at split
    rw [stackRest_cons, rest_fresh found.fresh, found.node, found.pathlen, found.below, split.2]
  · intro st mem
    rcases List.mem_cons.mp mem with rfl | mem
    · exact le_of_eq found.fresh.symm
    · exact indexed_bumpIndex found.indexed st mem

namespace NodeIterator

/-- What an iterator of `t` has left of the walk of `t`: all of it before
the first step, nothing once it has ended, else what its stack has left. -/
def remaining (t : Trie) (it : NodeIterator) : List Visit :=
  match it.err, it.stack with
  | some .iteratorEnd, _ => []
  | _, [] => walk t.root []
  | _, st :: stack => stackRest (st :: stack) it.path

/-- An iterator walking the trie `t` in memory: it has not failed, its
indices are at least `-1`, and what it has left is in memory and in strictly
increasing order of paths. -/
structure Walking (t : Trie) (it : NodeIterator) : Prop where
  trie : it.trie = some t
  err : it.err = none ∨ it.err = some .iteratorEnd
  indexed : ∀ st ∈ it.stack, -1 ≤ st.index
  inMemory : ∀ x ∈ it.remaining t, InMemory x.2
  sorted : (it.remaining t).Pairwise fun x y => x.1 < y.1

variable {t : Trie} {it : NodeIterator}

theorem remaining_of_ended (ended : it.err = some .iteratorEnd) : it.remaining t = [] := by
  simp [remaining, ended]

theorem remaining_of_fresh (err : it.err = none) (empty : it.stack = []) : it.remaining t = walk t.root [] := by
  simp [remaining, err, empty]

theorem remaining_of_cons (err : it.err = none) {top : IteratorState} {stack : List IteratorState}
    (cons : it.stack = top :: stack) : it.remaining t = stackRest it.stack it.path := by
  simp [remaining, err, cons]

/-- An iterator with what is left of a walking iterator's walk, or less, walks. -/
theorem Walking.of_sublist {it' : NodeIterator} (walking : it.Walking t) (trie : it'.trie = some t)
    (err : it'.err = none ∨ it'.err = some .iteratorEnd) (indexed : ∀ st ∈ it'.stack, -1 ≤ st.index)
    (sub : (it'.remaining t).Sublist (it.remaining t)) : it'.Walking t :=
  ⟨trie, err, indexed, fun x mem => walking.inMemory x (sub.subset mem), walking.sorted.sublist sub⟩

/-- An iterator that has not ended, with a stack that has left part of a
walking iterator's walk, walks. -/
theorem Walking.of_stackRest {it' : NodeIterator} {w : List Visit} (walking : it.Walking t)
    (trie : it'.trie = some t) (err : it'.err = none) (ne : it'.stack ≠ []) (indexed : ∀ st ∈ it'.stack, -1 ≤ st.index)
    (left : stackRest it'.stack it'.path = w) (sub : w.Sublist (it.remaining t)) :
    it'.Walking t ∧ it'.remaining t = w := by
  obtain ⟨top, stack, cons⟩ := List.exists_cons_of_ne_nil ne
  have remaining_eq : it'.remaining t = w := (remaining_of_cons err cons).trans left
  exact ⟨walking.of_sublist trie (.inl err) indexed (remaining_eq ▸ sub), remaining_eq⟩

theorem Walking.err_of_cons {x : Visit} {w : List Visit} (walking : it.Walking t) (next : it.remaining t = x :: w) :
    it.err = none :=
  walking.err.resolve_right fun ended => by simp [remaining_of_ended ended] at next

@[simp] theorem pop_trie (it : NodeIterator) : it.pop.trie = it.trie := by
  unfold pop
  split <;> rfl

@[simp] theorem pop_err (it : NodeIterator) : it.pop.err = it.err := by
  unfold pop
  split <;> rfl

@[simp] theorem push_trie (it : NodeIterator) (state : IteratorState) (parentIndex : Bool) (path : List Nibble) :
    (it.push state parentIndex path).trie = it.trie := rfl

/-- The first `peek` finds the root. -/
theorem peek_fresh (trie : it.trie = some t) (empty : it.stack = []) (loaded : InMemory t.root) (descend : Bool) :
    it.peek keccak descend = .ok (it, .ok (rootState keccak t, false, [])) := by
  simp only [peek, trie, empty, @resolve_of_inMemory t (rootState keccak t) loaded]
  rfl

/-- A `peek` that has nothing left, after popping the current node unless it
descends, ends. -/
theorem peek_of_stackRest_nil (trie : it.trie = some t) (ne : it.stack ≠ []) {descend : Bool}
    {base : NodeIterator} (hbase : base = if descend then it else it.pop) (empty : stackRest base.stack base.path = []) :
    ∃ it₁, it.peek keccak descend = .ok (it₁, .error .iteratorEnd) ∧ it₁.trie = it.trie ∧ it₁.err = it.err ∧
      it₁.stack = [] := by
  obtain ⟨path', loop⟩ := peekLoop_of_stackRest_nil keccak t base.stack base.path empty
  have same : base.trie = it.trie ∧ base.err = it.err := by
    subst hbase
    cases descend <;> simp
  refine ⟨{ base with stack := [], path := path' }, ?_, same.1, same.2, rfl⟩
  obtain ⟨top, stack, cons⟩ := List.exists_cons_of_ne_nil ne
  simp only [peek, trie, cons, ← hbase, loop]
  rfl

/-- A `peek` finds the head of what is left, after popping the current node
unless it descends. -/
theorem peek_of_stackRest_cons (trie : it.trie = some t) (ne : it.stack ≠ []) {descend : Bool}
    {base : NodeIterator} (hbase : base = if descend then it else it.pop) (indexed : ∀ st ∈ base.stack, -1 ≤ st.index)
    {x : Visit} {w : List Visit} (left : stackRest base.stack base.path = x :: w) (loaded : InMemory x.2) :
    ∃ it₁ state, it.peek keccak descend = .ok (it₁, .ok (state, true, x.1)) ∧ it₁.trie = it.trie ∧
      it₁.err = it.err ∧ Found x w it₁.stack it₁.path state := by
  obtain ⟨stack', path', state, loop, found⟩ :=
    peekLoop_of_stackRest_cons keccak t loaded base.stack base.path indexed left
  have same : base.trie = it.trie ∧ base.err = it.err := by
    subst hbase
    cases descend <;> simp
  refine ⟨{ base with stack := stack', path := path' }, state, ?_, same.1, same.2, found⟩
  obtain ⟨top, stack, cons⟩ := List.exists_cons_of_ne_nil ne
  simp only [peek, trie, cons, ← hbase, loop]
  rfl

/-- A step of `Next` takes the head off what an iterator has left: the new
iterator stands at that node, fresh on top of its stack, with the rest left. -/
theorem Next_of_remaining_cons (walking : it.Walking t) {x : Visit} {w : List Visit} (next : it.remaining t = x :: w)
    (fuel : Nat) :
    ∃ it', it.Next keccak fuel true = .ok (true, it') ∧ it'.Walking t ∧ it'.err = none ∧ it'.remaining t = w ∧
      it'.path = x.1 ∧ ∃ top stack, it'.stack = top :: stack ∧ top.node = x.2 ∧ top.index = -1 := by
  have err := walking.err_of_cons next
  have loaded := walking.inMemory x (by simp [next])
  cases hs : it.stack with
  | nil =>
    -- the first step pushes the root
    rw [remaining_of_fresh err hs, walk_eq_cons, List.cons.injEq] at next
    obtain ⟨rfl, rfl⟩ := next
    let it' := { it.push (rootState keccak t) false [] with err := none }
    have stack' : it'.stack = [rootState keccak t] := by simp [it', push, hs]
    have left : stackRest it'.stack it'.path = (walk t.root []).tail := by
      rw [stack', stackRest_cons, rest_fresh rfl, stackRest_nil, List.append_nil]
      rfl
    obtain ⟨walking', left'⟩ := @Walking.of_stackRest t it it' _ walking walking.trie rfl (by simp [stack'])
      (by simp [stack', rootState]) left (by rw [remaining_of_fresh err hs]; exact List.tail_sublist _)
    refine ⟨it', ?_, walking', rfl, left', rfl, rootState keccak t, [], stack', rfl, rfl⟩
    simp [Next, err, step, peek_fresh keccak walking.trie hs loaded, it']
  | cons top stack =>
    have left : stackRest it.stack it.path = x :: w := remaining_of_cons err hs ▸ next
    obtain ⟨it₁, state, peeked, trie₁, err₁, found⟩ := peek_of_stackRest_cons keccak walking.trie (by simp [hs])
      (show it = if true then it else it.pop from rfl) walking.indexed left loaded
    have pushed := found.push
    let it' := { it₁.push state true x.1 with err := none }
    obtain ⟨walking', left'⟩ := @Walking.of_stackRest t it it' _ walking (trie₁.trans walking.trie) rfl
      (by simp [it', push_true_stack]) pushed.2 pushed.1 (by rw [next]; exact List.sublist_cons_self x w)
    refine ⟨it', ?_, walking', rfl, left', rfl, state, bumpIndex it₁.stack, push_true_stack it₁ state x.1, found.node,
      found.fresh⟩
    simp [Next, err, step, peeked, it']

/-- With nothing left, `Next` ends with no error. -/
theorem Next_of_remaining_nil (walking : it.Walking t) (ended : it.remaining t = []) (fuel : Nat) :
    ∃ it', it.Next keccak fuel true = .ok (false, it') ∧ it'.Walking t ∧ it'.remaining t = [] ∧ it'.Error = none := by
  rcases walking.err with err | err
  · cases hs : it.stack with
    | nil =>
      rw [remaining_of_fresh err hs, walk_eq_cons] at ended
      exact absurd ended (List.cons_ne_nil _ _)
    | cons top stack =>
      have empty : stackRest it.stack it.path = [] := remaining_of_cons err hs ▸ ended
      obtain ⟨it₁, peeked, trie₁, err₁, stack₁⟩ := peek_of_stackRest_nil keccak walking.trie (by simp [hs])
        (show it = if true then it else it.pop from rfl) empty
      let it' := { it₁ with err := some .iteratorEnd }
      have left : it'.remaining t = [] := remaining_of_ended rfl
      refine ⟨it', by simp [Next, err, step, peeked, it'], ?_, left, rfl⟩
      refine walking.of_sublist (trie₁.trans walking.trie) (.inr rfl) (by simp [it', stack₁]) ?_
      rw [left]
      exact List.nil_sublist _
  · exact ⟨it, by simp [Next, err], walking, ended, by simp [Error, err]⟩

theorem with_err_eq {it : NodeIterator} {e : Option IteratorError} (h : it.err = e) : { it with err := e } = it := by
  subst h
  rfl

/-- Where `seek` towards `key` stands: an iterator of `t` that has not ended,
has left every node of the walk at or after `key`, and past its first step
stands at a fresh node before `key`. -/
structure Seeking (t : Trie) (key : List Nibble) (it : NodeIterator) : Prop where
  walking : it.Walking t
  err : it.err = none
  after : (it.remaining t).filter (fun x => decide (key ≤ x.1)) = (walk t.root []).filter fun x => decide (key ≤ x.1)
  current : ∀ top stack, it.stack = top :: stack → top.index = -1 ∧ it.path < key

variable {key : List Nibble}

/-- What `peek` starts from in `seek`: the iterator itself when its path is a
prefix of the key, else the iterator with its current node popped, whose
subtree lies before the key. Either way it keeps what is at or after the key. -/
theorem Seeking.base (seeking : it.Seeking t key) {top : IteratorState} {stack : List IteratorState}
    (cons : it.stack = top :: stack) {base : NodeIterator}
    (hbase : base = if it.path.isPrefixOf key then it else it.pop) :
    (stackRest base.stack base.path).Sublist (it.remaining t) ∧
      (stackRest base.stack base.path).filter (fun x => decide (key ≤ x.1)) =
        (it.remaining t).filter (fun x => decide (key ≤ x.1)) ∧
      ∀ st ∈ base.stack, -1 ≤ st.index := by
  have remaining_eq := @remaining_of_cons t it seeking.err top stack cons
  obtain ⟨fresh, before⟩ := seeking.current top stack cons
  by_cases descend : it.path.isPrefixOf key = true
  · rw [descend, if_pos rfl] at hbase
    subst hbase
    exact ⟨remaining_eq ▸ List.Sublist.refl _, by rw [remaining_eq], seeking.walking.indexed⟩
  · rw [if_neg descend] at hbase
    subst hbase
    have popped : it.pop.stack = stack ∧ it.pop.path = it.path.take top.pathlen := by
      simp [pop, cons]
    -- the subtree of the current node parts from the key before it, so lies before it
    have skipped : (top.rest it.path).filter (fun x => decide (key ≤ x.1)) = [] := by
      refine List.filter_eq_nil_iff.mpr fun y mem => ?_
      rw [rest_fresh fresh] at mem
      obtain ⟨r, hr⟩ := prefix_of_mem_walk (List.mem_of_mem_tail mem)
      have parts : ¬ it.path <+: key := fun pre => descend (List.isPrefixOf_iff_prefix.mpr pre)
      have : y.1 < key := hr ▸ PathOrder.append_lt_of_not_prefix r before parts
      simpa using this
    rw [popped.1, popped.2, remaining_eq, cons, stackRest_cons]
    refine ⟨List.sublist_append_right _ _, by rw [List.filter_append, skipped, List.nil_append], ?_⟩
    exact fun st mem => seeking.walking.indexed st (by simp [cons, mem])

/-- `seek` stops just before the first node at or after its key, or at the
end: the iterator it leaves, with the error it returns, has left exactly the
nodes of the walk at or after the key. -/
theorem seekLoop_remaining (pre : List UInt8) :
    ∀ (fuel : Nat) (it : NodeIterator), it.Seeking t key → (it.remaining t).length < fuel →
      ∃ it' err, it.seekLoop keccak key pre fuel = .ok (it', err) ∧ { it' with err := err }.Walking t ∧
        { it' with err := err }.remaining t = (walk t.root []).filter fun x => decide (key ≤ x.1)
  | 0, _, _, bound => absurd bound (Nat.not_lt_zero _)
  | fuel + 1, it, seeking, bound => by
    cases hs : it.stack with
    | nil =>
      -- the first step finds the root
      have fresh := @remaining_of_fresh t it seeking.err hs
      have loaded : InMemory t.root :=
        seeking.walking.inMemory ([], t.root) (by rw [fresh, walk_eq_cons]; exact List.mem_cons_self)
      by_cases stop : key ≤ []
      · refine ⟨it, none, by simp [seekLoop, peek_fresh keccak seeking.walking.trie hs loaded, stop], ?_, ?_⟩
        · rw [with_err_eq seeking.err]
          exact seeking.walking
        · rw [with_err_eq seeking.err, fresh]
          exact (List.filter_eq_self.mpr fun x _ => decide_eq_true (le_trans stop (PathOrder.nil_le _))).symm
      · let it₁ := it.push (rootState keccak t) false []
        have stack₁ : it₁.stack = [rootState keccak t] := by simp [it₁, push, hs]
        have left : stackRest it₁.stack it₁.path = (walk t.root []).tail := by
          rw [stack₁, stackRest_cons, rest_fresh rfl, stackRest_nil, List.append_nil]
          rfl
        obtain ⟨walking₁, left₁⟩ := @Walking.of_stackRest t it it₁ _ seeking.walking seeking.walking.trie
          seeking.err (by simp [stack₁]) (by simp [stack₁, rootState]) left
          (by rw [fresh]; exact List.tail_sublist _)
        have seeking₁ : it₁.Seeking t key := by
          refine ⟨walking₁, seeking.err, ?_, ?_⟩
          · rw [left₁, ← seeking.after, fresh, walk_eq_cons (p := []), List.filter_cons_of_neg (by simpa using stop)]
            rfl
          · intro top stack cons
            rw [stack₁, List.cons.injEq] at cons
            rw [← cons.1]
            exact ⟨rfl, lt_of_not_ge stop⟩
        have bound₁ : (it₁.remaining t).length < fuel := by
          have pos : 0 < (walk t.root []).length := by
            rw [walk_eq_cons]
            exact List.length_pos_of_mem List.mem_cons_self
          rw [left₁, List.length_tail]
          rw [fresh] at bound
          omega
        obtain ⟨it', err, loop, result⟩ := seekLoop_remaining pre fuel it₁ seeking₁ bound₁
        exact ⟨it', err, by simp [seekLoop, peek_fresh keccak seeking.walking.trie hs loaded, stop, it₁, loop], result⟩
    | cons top stack =>
      obtain ⟨sub, same, indexed⟩ := seeking.base hs rfl
      cases hR : stackRest (if it.path.isPrefixOf key then it else it.pop).stack
          (if it.path.isPrefixOf key then it else it.pop).path with
      | nil =>
        -- nothing is left at or after the key: `seek` ends
        obtain ⟨it₁, peeked, trie₁, err₁, stack₁⟩ :=
          peek_of_stackRest_nil keccak seeking.walking.trie (by simp [hs]) rfl hR
        refine ⟨it₁, some .iteratorEnd, by simp [seekLoop, peeked], ?_, remaining_of_ended rfl |>.trans ?_⟩
        · refine seeking.walking.of_sublist (trie₁.trans seeking.walking.trie) (.inr rfl) (by simp [stack₁]) ?_
          rw [remaining_of_ended rfl]
          exact List.nil_sublist _
        · rw [← seeking.after, ← same, hR, List.filter_nil]
      | cons x w =>
        have loaded := seeking.walking.inMemory x (sub.subset (by rw [hR]; exact List.mem_cons_self))
        obtain ⟨it₁, state, peeked, trie₁, err₁, found⟩ :=
          peek_of_stackRest_cons keccak seeking.walking.trie (by simp [hs]) rfl indexed hR loaded
        have err₁' : it₁.err = none := err₁.trans seeking.err
        by_cases stop : key ≤ x.1
        · -- the node found is at or after the key: `seek` stops before it
          obtain ⟨walking₁, left₁⟩ := @Walking.of_stackRest t it it₁ _ seeking.walking
            (trie₁.trans seeking.walking.trie) err₁' found.ne_nil found.indexed found.left (hR ▸ sub)
          have sorted := walking₁.sorted
          rw [left₁] at sorted
          have kept : (x :: w).filter (fun y => decide (key ≤ y.1)) = x :: w := by
            refine List.filter_eq_self.mpr fun y mem => ?_
            rcases List.mem_cons.mp mem with rfl | mem
            · exact decide_eq_true stop
            · exact decide_eq_true (le_of_lt (lt_of_le_of_lt stop (List.rel_of_pairwise_cons sorted mem)))
          refine ⟨it₁, none, by simp [seekLoop, peeked, stop], ?_, ?_⟩
          · rw [with_err_eq err₁']
            exact walking₁
          · rw [with_err_eq err₁', left₁, ← kept, ← hR, same, seeking.after]
        · -- the node found is before the key: `seek` pushes it and goes on
          let it₂ := it₁.push state true x.1
          have pushed := found.push
          obtain ⟨walking₂, left₂⟩ := @Walking.of_stackRest t it it₂ _ seeking.walking
            (trie₁.trans seeking.walking.trie) err₁' (by simp [it₂, push_true_stack]) pushed.2 pushed.1
            ((List.sublist_cons_self x w).trans (hR ▸ sub))
          have seeking₂ : it₂.Seeking t key := by
            refine ⟨walking₂, err₁', ?_, ?_⟩
            · rw [left₂, ← seeking.after, ← same, hR, List.filter_cons_of_neg (by simpa using stop)]
            · intro top' stack' cons
              rw [push_true_stack, List.cons.injEq] at cons
              rw [← cons.1]
              exact ⟨found.fresh, lt_of_not_ge stop⟩
          have bound₂ : (it₂.remaining t).length < fuel := by
            have shorter := (hR ▸ sub).length_le
            rw [left₂]
            simp only [List.length_cons] at shorter
            omega
          obtain ⟨it', err, loop, result⟩ := seekLoop_remaining pre fuel it₂ seeking₂ bound₂
          exact ⟨it', err, by simp [seekLoop, peeked, stop, it₂, loop], result⟩

end NodeIterator

/-! ## Reading the leaves -/

set_option maxRecDepth 8000 in
/-- The two nibbles of a byte read back into it. -/
theorem decodeNibbles_byteNibbles (b : UInt8) : decodeNibbles (byteNibbles b) = [b] := by
  have all : ∀ n < 256, decodeNibbles (byteNibbles (UInt8.ofNat n)) = [UInt8.ofNat n] := by decide
  simpa using all b.toNat b.toNat_lt

theorem decodeNibbles_flatMap_byteNibbles (k : List UInt8) : decodeNibbles (k.flatMap byteNibbles) = k := by
  induction k with
  | nil => rfl
  | cons b k ih =>
    -- the nibbles of `b` are one pair, read in one step
    have pair : decodeNibbles (byteNibbles b ++ k.flatMap byteNibbles) =
        decodeNibbles (byteNibbles b) ++ decodeNibbles (k.flatMap byteNibbles) := rfl
    rw [List.flatMap_cons, pair, decodeNibbles_byteNibbles, ih, List.singleton_append]

/-- `LeafKey` reads back the key of a HEX key. -/
theorem hexToKeybytes_keybytesToHex (k : List UInt8) : hexToKeybytes (keybytesToHex k) = .ok k := by
  have even : (k.flatMap byteNibbles).length % 2 = 0 := by
    induction k with
    | nil => rfl
    | cons b k ih =>
      rw [List.flatMap_cons, List.length_append]
      simp only [byteNibbles, List.length_cons, List.length_nil] at ih ⊢
      omega
  unfold hexToKeybytes
  rw [keybytesToHex, hasTerm_append_term, if_pos rfl, List.dropLast_concat, if_neg (by rw [even]; decide),
    decodeNibbles_flatMap_byteNibbles]

/-- The key encodings of the package undo each other: the compact key of an
extension or of a leaf reads back to its HEX form, and a HEX key to its bytes. -/
theorem key_encodings_round_trip (h : List Nibble) (plain : Plain h) (k : List UInt8) :
    compactToHex (hexToCompact h) = h ∧ compactToHex (hexToCompact (h ++ [16])) = h ++ [16] ∧
      hexToKeybytes (keybytesToHex k) = .ok k :=
  ⟨compactToHex_hexToCompact_plain plain, compactToHex_hexToCompact_term plain, hexToKeybytes_keybytesToHex k⟩

/-- An odd HEX key, and a key byte, at both encodings. -/
theorem key_encodings_round_trip_odd :
    Plain [1, 2, 3] ∧
      (compactToHex (hexToCompact [1, 2, 3]) = [1, 2, 3] ∧
        compactToHex (hexToCompact ([1, 2, 3] ++ [16])) = [1, 2, 3] ++ [16] ∧
        hexToKeybytes (keybytesToHex [0xab]) = .ok [0xab]) :=
  ⟨by simp, key_encodings_round_trip [1, 2, 3] (by simp) [0xab]⟩

/-- The node of the walk a pair of `Iterator` stands for: the value at the
HEX form of its key. -/
def entryVisit (kv : List UInt8 × List UInt8) : Visit := (keybytesToHex kv.1, .value kv.2)

theorem entryVisit_injective : Function.Injective entryVisit := by
  intro a b same
  simp only [entryVisit, Prod.mk.injEq, Node.value.injEq] at same
  exact Prod.ext (keybytesToHex_injective same.1) same.2

/-- Every leaf of a walk, a node at a path closed by the terminator, is the
value of a byte key. -/
def LeafKeyed (w : List Visit) : Prop := ∀ x ∈ w, hasTerm x.1 = true → ∃ kv, x = entryVisit kv

theorem LeafKeyed.sublist {w w' : List Visit} (keyed : LeafKeyed w) (sub : w'.Sublist w) : LeafKeyed w' :=
  fun x mem leaf => keyed x (sub.subset mem) leaf

/-- The leaves of a live trie's walk are its values at byte keys. -/
theorem leafKeyed_walk {t : Trie} (live : t.Live) : LeafKeyed (walk t.root []) := by
  intro x mem leaf
  rcases shape_of_mem_walk live.wf plain_nil mem with plain | ⟨stored, w, value⟩
  · rw [hasTerm_of_plain plain] at leaf
    exact absurd leaf (by decide)
  · have held : t.root.lookup x.1 = some w := by
      have : (x.1, Node.value w) ∈ walk t.root [] := value ▸ mem
      obtain ⟨r, hr, found⟩ := Iff.mp mem_walk_value this
      rw [hr, List.nil_append]
      exact found
    obtain ⟨k, hk⟩ := live.keyed x.1 stored (by simp [held])
    exact ⟨(k, w), Prod.ext hk value⟩

namespace Iterator

variable {t : Trie}

/-- The loop of `Iterator.Next` steps over the nodes that are no leaves and
stops at the first leaf of what is left, with its key and value, or at the
end, when nothing left is a leaf. -/
theorem nextLoop_spec (fuel : Nat) (it : Iterator) :
    ∀ (n : Nat) (nodeIt : NodeIterator), nodeIt.Walking t → LeafKeyed (nodeIt.remaining t) →
      (nodeIt.remaining t).length < n →
      ∃ more it', it.nextLoop keccak fuel n nodeIt = .ok (more, it') ∧ it'.nodeIt.Walking t ∧
        (it'.nodeIt.remaining t).Sublist (nodeIt.remaining t) ∧
        ((more = true ∧ (nodeIt.remaining t).filter (fun x => hasTerm x.1) =
            entryVisit (it'.Key, it'.Value) :: (it'.nodeIt.remaining t).filter (fun x => hasTerm x.1) ∧
            (it'.nodeIt.remaining t).length < (nodeIt.remaining t).length) ∨
          (more = false ∧ (nodeIt.remaining t).filter (fun x => hasTerm x.1) = []))
  | 0, _, _, _, bound => absurd bound (Nat.not_lt_zero _)
  | n + 1, nodeIt, walking, keyed, bound => by
    cases hR : nodeIt.remaining t with
    | nil =>
      obtain ⟨it₁, next, walking₁, left₁, -⟩ := NodeIterator.Next_of_remaining_nil keccak walking hR fuel
      refine ⟨false, { it with nodeIt := it₁, Key := [], Value := [], Err := it₁.Error }, ?_, walking₁, ?_,
        .inr ⟨rfl, rfl⟩⟩
      · simp [nextLoop, next]
      · rw [left₁]
    | cons x w =>
      obtain ⟨it₁, next, walking₁, -, left₁, path₁, top, stack, stack₁, node₁, -⟩ :=
        NodeIterator.Next_of_remaining_cons keccak walking hR fuel
      rw [hR] at keyed bound
      by_cases leaf : hasTerm x.1 = true
      · -- a leaf: its key and value are read off the top of the stack
        obtain ⟨kv, rfl⟩ := keyed x (List.mem_cons_self) leaf
        have key : it₁.LeafKey = .ok kv.1 := by
          simp [NodeIterator.LeafKey, stack₁, node₁, entryVisit, path₁, hexToKeybytes_keybytesToHex]
        have value : it₁.LeafBlob = .ok kv.2 := by
          simp [NodeIterator.LeafBlob, stack₁, node₁, entryVisit]
        have isLeaf : it₁.Leaf = true := by
          rw [NodeIterator.Leaf, path₁]
          exact leaf
        refine ⟨true, { it with nodeIt := it₁, Key := kv.1, Value := kv.2 }, ?_, walking₁, ?_, .inl ⟨rfl, ?_, ?_⟩⟩
        · simp [nextLoop, next, isLeaf, key, value]
        · rw [left₁]
          exact List.sublist_cons_self _ w
        · rw [List.filter_cons_of_pos (p := fun x : Visit => hasTerm x.1) leaf, left₁]
        · simp [left₁]
      · -- not a leaf: the loop goes on
        have step : it.nextLoop keccak fuel (n + 1) nodeIt = it.nextLoop keccak fuel n it₁ := by
          have : it₁.Leaf = false := by
            rw [NodeIterator.Leaf, path₁]
            simpa using leaf
          simp [nextLoop, next, this]
        obtain ⟨more, it', loop, walking', sub, result⟩ := nextLoop_spec fuel it n it₁ walking₁
          (left₁ ▸ keyed.sublist (List.sublist_cons_self x w)) (by rw [left₁]; simp at bound; omega)
        refine ⟨more, it', step ▸ loop, walking', ?_, ?_⟩
        · exact (left₁ ▸ sub).trans (List.sublist_cons_self x w)
        · rcases result with ⟨rfl, found, shorter⟩ | ⟨rfl, none_left⟩
          · refine .inl ⟨rfl, ?_, ?_⟩
            · rw [List.filter_cons_of_neg (p := fun x : Visit => hasTerm x.1) leaf, ← left₁, found]
            · rw [left₁] at shorter
              rw [List.length_cons]
              omega
          · refine .inr ⟨rfl, ?_⟩
            rw [List.filter_cons_of_neg (p := fun x : Visit => hasTerm x.1) leaf, ← left₁, none_left]

/-- The pairs of any run of `Iterator.Next` are the leaves of what its node
iterator has left, in order. -/
theorem yields_spec (fuel : Nat) {it : Iterator} {kvs : List (List UInt8 × List UInt8)}
    (yields : it.Yields keccak fuel kvs) (walking : it.nodeIt.Walking t) (keyed : LeafKeyed (it.nodeIt.remaining t))
    (bound : (it.nodeIt.remaining t).length < fuel) :
    kvs.map entryVisit = (it.nodeIt.remaining t).filter fun x => hasTerm x.1 := by
  induction yields with
  | @done it it' next =>
    obtain ⟨more, it'', loop, -, -, result⟩ := nextLoop_spec keccak fuel it fuel it.nodeIt walking keyed bound
    rw [Iterator.Next, loop, Except.ok.injEq, Prod.mk.injEq] at next
    rcases result with ⟨rfl, -⟩ | ⟨-, none_left⟩
    · exact absurd next.1 (by decide)
    · rw [none_left, List.map_nil]
  | @next it it' kvs next _ ih =>
    obtain ⟨more, it'', loop, walking', sub, result⟩ := nextLoop_spec keccak fuel it fuel it.nodeIt walking keyed bound
    rw [Iterator.Next, loop, Except.ok.injEq, Prod.mk.injEq] at next
    obtain ⟨rfl, rfl⟩ := next
    rcases result with ⟨-, found, shorter⟩ | ⟨never, -⟩
    · rw [List.map_cons, found, ih walking' (keyed.sublist sub) (by omega)]
    · exact absurd never (by decide)

/-- `Iterator.Next`, called until it returns false, ends. -/
theorem yields_exists (fuel : Nat) :
    ∀ (n : Nat) (it : Iterator), it.nodeIt.Walking t → LeafKeyed (it.nodeIt.remaining t) →
      (it.nodeIt.remaining t).length < fuel → (it.nodeIt.remaining t).length ≤ n →
      ∃ kvs, it.Yields keccak fuel kvs := by
  intro n
  induction n with
  | zero =>
    intro it walking keyed bound short
    obtain ⟨more, it', loop, -, -, result⟩ := nextLoop_spec keccak fuel it fuel it.nodeIt walking keyed bound
    rcases result with ⟨-, -, shorter⟩ | ⟨rfl, -⟩
    · omega
    · exact ⟨[], .done loop⟩
  | succ n ih =>
    intro it walking keyed bound short
    obtain ⟨more, it', loop, walking', sub, result⟩ := nextLoop_spec keccak fuel it fuel it.nodeIt walking keyed bound
    rcases result with ⟨rfl, -, shorter⟩ | ⟨rfl, -⟩
    · obtain ⟨kvs, rest⟩ := ih it' walking' (keyed.sublist sub) (by omega) (by omega)
      exact ⟨_, .next loop rest⟩
    · exact ⟨[], .done loop⟩

end Iterator

/-! ## Iteration enumerates the entries -/

/-- The entries of a live trie at or after a key are the leaves of its walk
from there on. -/
theorem entryVisit_mem_filter_walk {t : Trie} {key : List Nibble} (k v : List UInt8) :
    entryVisit (k, v) ∈ ((walk t.root []).filter fun x => decide (key ≤ x.1)).filter (fun x => hasTerm x.1) ↔
      t.contents k = some v ∧ key ≤ keybytesToHex k := by
  have held : entryVisit (k, v) ∈ walk t.root [] ↔ t.contents k = some v := by
    rw [entryVisit, mem_walk_value]
    simp [Trie.contents]
  have leaf : hasTerm (keybytesToHex k) = true := hasTerm_append_term _
  rw [List.mem_filter, List.mem_filter, held, decide_eq_true_eq]
  simp only [entryVisit, leaf, and_true]

/-- Seeking the start key in a live trie held in memory, and reading the
leaves from there: the pairs are exactly its entries whose HEX keys are at or
after the start key's without its terminator, each once, in strictly
increasing order of HEX keys. `seek` leaves what is at or after the key, and
`Iterator.Next` reads off the leaves of what is left of the walk; the fuel
covers the walk. -/
theorem seek_yields_entries (t : Trie) (live : t.Live) (start : List UInt8) (fuel : Nat)
    (enough : (walk t.root []).length < fuel) :
    ∃ it err, NodeIterator.seek keccak fuel start ⟨some t, [], [], none⟩ = .ok (it, err) ∧
      (∃ kvs, (NewIterator { it with err := err }).Yields keccak fuel kvs) ∧
      ∀ kvs, (NewIterator { it with err := err }).Yields keccak fuel kvs →
        (∀ k v, (k, v) ∈ kvs ↔ t.contents k = some v ∧ (keybytesToHex start).dropLast ≤ keybytesToHex k) ∧
        (kvs.map fun kv => keybytesToHex kv.1).Pairwise (· < ·) ∧ kvs.Nodup := by
  have sorted := walk_sorted (p := []) (inMemory_of_wf live.wf)
  have seeking : (⟨some t, [], [], none⟩ : NodeIterator).Seeking t (keybytesToHex start).dropLast :=
    ⟨⟨rfl, .inl rfl, by simp, fun x mem => inMemory_of_mem_walk (inMemory_of_wf live.wf) mem, sorted⟩, rfl, rfl,
      by simp⟩
  obtain ⟨it, err, loop, walking, left⟩ := NodeIterator.seekLoop_remaining keccak start fuel _ seeking enough
  have keyed : LeafKeyed ({ it with err := err }.remaining t) :=
    left ▸ (leafKeyed_walk live).sublist (List.filter_sublist)
  have bound : ({ it with err := err }.remaining t).length < fuel :=
    left ▸ lt_of_le_of_lt (List.length_filter_le _ _) enough
  refine ⟨it, err, loop, Iterator.yields_exists keccak fuel _ (NewIterator _) walking keyed bound le_rfl,
    fun kvs yields => ?_⟩
  -- the pairs stand for the leaves of the walk at or after the start
  have visits : kvs.map entryVisit = ({ it with err := err }.remaining t).filter fun x => hasTerm x.1 :=
    Iterator.yields_spec keccak fuel yields walking keyed bound
  rw [left] at visits
  have keys : (kvs.map fun kv => keybytesToHex kv.1) =
      (((walk t.root []).filter fun x => decide ((keybytesToHex start).dropLast ≤ x.1)).filter
        fun x => hasTerm x.1).map Prod.fst := by
    rw [← visits, List.map_map]
    rfl
  have increasing : (kvs.map fun kv => keybytesToHex kv.1).Pairwise (· < ·) := by
    rw [keys, List.pairwise_map]
    exact sorted.sublist (List.filter_sublist.trans List.filter_sublist)
  refine ⟨fun k v => ?_, increasing, ?_⟩
  · rw [← List.mem_map_of_injective entryVisit_injective, visits]
    exact entryVisit_mem_filter_walk k v
  · exact (List.pairwise_map.mp increasing).imp fun lt => ne_of_apply_ne (fun kv => keybytesToHex kv.1) (ne_of_lt lt)

end FiscoBcos.Trie
