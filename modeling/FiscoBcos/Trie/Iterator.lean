import FiscoBcos.Trie.Hasher
import Mathlib

/-!
# The node iterator

`nodeIterator` and `Iterator` of `trie/iterator.go`. A `nodeIterator` walks a
trie in pre-order with an explicit stack of states, one per node from the root
down to the current one. A state holds its node, its cached hash, the hash of
its nearest hashed ancestor, the index of the child being walked and the
length of the path to its parent. `peek` finds the next state: the root when
the stack is empty, else the next child of the top state after its `index`,
popping the states that have none left. `push` moves the parent's `index` on
to the child it pushes. Go writes `index` through a pointer into the stack;
the model returns the parent with its new `index`, and writes it back.

`seek` moves forward until just before the first node whose path is not
before the start key: it descends into a node only when the node's path is a
prefix of the key. The first node it finds is not pushed; `Next` finds it
again.

`Iterator` steps its node iterator until a leaf and reads its key and value
off it.

The stack is a list with its top first. A cached hash is the one the hasher
gives the node (`cachedHash`): `NodeIterator` hashes the trie before it walks
it, and only a node whose encoding takes 32 bytes or more is cached by its
hash. `newNodeIterator` returns `new(nodeIterator)`, with no trie, for a trie
whose root hash is `emptyState`, and its first `peek` dereferences the nil
trie. The loop of `seek`, and the one of `Iterator.Next`, take fuel; when it
runs out, the iterator stops with a `fuelExhausted` error. `LeafProof` is not
modelled.
-/

namespace FiscoBcos.Trie

/-- `emptyState`: `crypto.Keccak256Hash(nil)`. -/
def emptyState (keccak : List UInt8 → List UInt8) : List UInt8 := bytesToHash (keccak [])

/-- `nodeIteratorState`. -/
structure IteratorState where
  hash : List UInt8
  node : HexNode
  parent : List UInt8
  index : Int
  pathlen : Nat

/-- What `nodeIterator.err` holds. -/
inductive IteratorError where
  /-- `errIteratorEnd`. -/
  | iteratorEnd
  /-- `seekError`: the start key and the error of the `peek` that failed. -/
  | seekError (key : List UInt8) (err : IteratorError)
  /-- An error resolving a node. -/
  | trie (err : TrieError)

/-- `nodeIterator`, its stack top first. -/
structure NodeIterator where
  trie : Option Trie
  stack : List IteratorState
  path : List Nibble
  err : Option IteratorError

/-- The panic of a method called through a nil pointer. -/
def nilDereference : String := "runtime error: invalid memory address or nil pointer dereference"

/-- `hexToKeybytes`: the terminator dropped, pairs of nibbles into bytes. -/
def hexToKeybytes (hex : List Nibble) : Except String (List UInt8) :=
  let hex := if hasTerm hex then hex.dropLast else hex
  if hex.length % 2 ≠ 0 then .error "can't convert hex key of odd length"
  else .ok (decodeNibbles hex)

section Iterator

variable (keccak : List UInt8 → List UInt8)

/-- `node.cache()` as a `common.Hash`: the hash the hasher gives a full or
short node whose encoding takes 32 bytes or more; `common.Hash{}` for any
other node, which caches no hash. -/
def cachedHash (n : HexNode) : List UInt8 :=
  match n with
  | .full _ | .short _ _ =>
    match (hasherHash keccak n false).1 with
    | .hash h => bytesToHash h
    | _ => zeroHash
  | _ => zeroHash

/-- The state of the root, as `peek` starts from it: its hash is the root
hash, unless that is `emptyRoot`. -/
def rootState (t : Trie) : IteratorState :=
  let root := t.Hash keccak
  { hash := if root = emptyRoot then zeroHash else root, node := t.root, parent := zeroHash, index := -1,
    pathlen := 0 }

/-- The state `nextChild` makes for a child. -/
def childState (child : HexNode) (ancestor : List UInt8) (pathlen : Nat) : IteratorState :=
  { hash := cachedHash keccak child, node := child, parent := ancestor, index := -1, pathlen := pathlen }

/-- `nodeIteratorState.resolve`: a hash node loaded from the database, under
its hash. -/
def IteratorState.resolve (t : Trie) (st : IteratorState) (path : List Nibble) :
    Except TrieError IteratorState :=
  match st.node with
  | .hash h => (t.resolveHash h path).map fun n => { st with node := n, hash := bytesToHash h }
  | _ => .ok st

/-- `ancestor` in `peek`: the state's hash, or the one it keeps of its hashed
ancestor when it has none. -/
def IteratorState.ancestor (st : IteratorState) : List UInt8 :=
  if st.hash = zeroHash then st.parent else st.hash

/-- `nextChild`: the state of the first child of `parent` after its `index`,
the child's path, and `parent` with its `index` one short of the child's, for
`push` to move on; `none` when no child is left. -/
def nextChild (path : List Nibble) (parent : IteratorState) (ancestor : List UInt8) :
    Option (IteratorState × List Nibble × IteratorState) :=
  match parent.node with
  | .full cs =>
    match (List.finRange 17).find? fun i => decide (parent.index < i.val) && !(cs i).isNil with
    | some i => some (childState keccak (cs i) ancestor path.length, path ++ [i], { parent with index := i.val - 1 })
    | none => none
  | .short k v =>
    if parent.index < 0 then some (childState keccak v ancestor path.length, path ++ k, parent) else none
  | _ => none

/-- The loop of `peek`: the next child of the top state, else pop it and go
on below. Returns the stack and the path it leaves, and the child's state and
path, `errIteratorEnd`, or the error resolving the child. -/
def peekLoop (t : Trie) : List IteratorState → List Nibble →
    List IteratorState × List Nibble × Except IteratorError (IteratorState × List Nibble)
  | [], path => ([], path, .error .iteratorEnd)
  | parent :: rest, path =>
    match nextChild keccak path parent parent.ancestor with
    | some (state, childPath, parent) =>
      match state.resolve t childPath with
      | .ok state => (parent :: rest, path, .ok (state, childPath))
      | .error e => (parent :: rest, path, .error (.trie e))
    | none => peekLoop t rest (path.take parent.pathlen)

namespace NodeIterator

/-- `pop`. -/
def pop (it : NodeIterator) : NodeIterator :=
  match it.stack with
  | top :: rest => { it with stack := rest, path := it.path.take top.pathlen }
  | [] => it

/-- `push`: `parentIndex` says whether the state has a parent, whose `index`
moves on to it. -/
def push (it : NodeIterator) (state : IteratorState) (parentIndex : Bool) (path : List Nibble) :
    NodeIterator :=
  let stack := if parentIndex then
      match it.stack with
      | top :: rest => { top with index := top.index + 1 } :: rest
      | [] => []
    else it.stack
  { it with path := path, stack := state :: stack }

/-- `peek`: the next state, whether it has a parent, and its path, with the
iterator as `peek` leaves it. Without `descend` the current state is popped
first. Every state on the stack comes from the trie, so an iterator with no
trie has an empty stack, and its `peek` begins with `it.trie.Hash()`. -/
def peek (descend : Bool) (it : NodeIterator) :
    Except String (NodeIterator × Except IteratorError (IteratorState × Bool × List Nibble)) :=
  match it.trie with
  | none => .error nilDereference
  | some t =>
    match it.stack with
    | [] => .ok (it, (((rootState keccak t).resolve t []).mapError .trie).map fun state => (state, false, []))
    | _ =>
      let it := if descend then it else it.pop
      let (stack, path, next) := peekLoop keccak t it.stack it.path
      .ok ({ it with stack := stack, path := path }, next.map fun (state, childPath) => (state, true, childPath))

/-- The loop of `seek`, towards the HEX key `key` of the start key `pre`. -/
def seekLoop (key : List Nibble) (pre : List UInt8) : Nat → NodeIterator →
    Except String (NodeIterator × Option IteratorError)
  | 0, it => .ok (it, some (.seekError pre (.trie .fuelExhausted)))
  | fuel + 1, it => do
    let (it, next) ← it.peek keccak (it.path.isPrefixOf key)
    match next with
    | .error .iteratorEnd => return (it, some .iteratorEnd)
    | .error e => return (it, some (.seekError pre e))
    | .ok (state, parentIndex, path) =>
      if key ≤ path then return (it, none)
      else seekLoop key pre fuel (it.push state parentIndex path)

/-- `seek`: the HEX key without its terminator. -/
def seek (fuel : Nat) (pre : List UInt8) (it : NodeIterator) : Except String (NodeIterator × Option IteratorError) :=
  seekLoop keccak (keybytesToHex pre).dropLast pre fuel it

/-- The step of `Next` past its checks of `err`: `peek`, then `push` what it
found, or keep its error. -/
def step (descend : Bool) (it : NodeIterator) : Except String (Bool × NodeIterator) := do
  let (it, next) ← it.peek keccak descend
  match next with
  | .error e => return (false, { it with err := some e })
  | .ok (state, parentIndex, path) => return (true, { it.push state parentIndex path with err := none })

/-- `Next`: nothing at the end; a failed `seek` is tried again first. -/
def Next (fuel : Nat) (descend : Bool) (it : NodeIterator) : Except String (Bool × NodeIterator) :=
  match it.err with
  | some .iteratorEnd => .ok (false, it)
  | some (.seekError key _) => do
    let (it, err) ← it.seek keccak fuel key
    match err with
    | some e => return (false, { it with err := some e })
    | none => step keccak descend { it with err := none }
  | _ => step keccak descend it

/-- `Hash`. -/
def Hash (it : NodeIterator) : List UInt8 :=
  match it.stack with
  | top :: _ => top.hash
  | [] => zeroHash

/-- `Parent`. -/
def Parent (it : NodeIterator) : List UInt8 :=
  match it.stack with
  | top :: _ => top.parent
  | [] => zeroHash

/-- `Leaf`. -/
def Leaf (it : NodeIterator) : Bool := hasTerm it.path

/-- `LeafKey`. -/
def LeafKey (it : NodeIterator) : Except String (List UInt8) :=
  match it.stack with
  | top :: _ =>
    match top.node with
    | .value _ => hexToKeybytes it.path
    | _ => .error "not at leaf"
  | [] => .error "not at leaf"

/-- `LeafBlob`. -/
def LeafBlob (it : NodeIterator) : Except String (List UInt8) :=
  match it.stack with
  | top :: _ =>
    match top.node with
    | .value v => .ok v
    | _ => .error "not at leaf"
  | [] => .error "not at leaf"

/-- `Error`: none at the end, the cause of a failed `seek`. -/
def Error (it : NodeIterator) : Option IteratorError :=
  match it.err with
  | some .iteratorEnd => none
  | some (.seekError _ e) => some e
  | e => e

end NodeIterator

/-- `newNodeIterator`, as `Trie.NodeIterator` calls it. -/
def newNodeIterator (fuel : Nat) (t : Trie) (start : List UInt8) : Except String NodeIterator :=
  if t.Hash keccak = emptyState keccak then .ok ⟨none, [], [], none⟩
  else do
    let (it, err) ← NodeIterator.seek keccak fuel start ⟨some t, [], [], none⟩
    return { it with err := err }

/-- `Iterator`. -/
structure Iterator where
  nodeIt : NodeIterator
  Key : List UInt8
  Value : List UInt8
  Err : Option IteratorError

/-- `NewIterator`. -/
def NewIterator (it : NodeIterator) : Iterator := ⟨it, [], [], none⟩

/-- The loop of `Iterator.Next`: steps of the node iterator until a leaf. -/
def Iterator.nextLoop (fuel : Nat) (it : Iterator) : Nat → NodeIterator → Except String (Bool × Iterator)
  | 0, nodeIt => .ok (false, { it with nodeIt := nodeIt, Key := [], Value := [], Err := some (.trie .fuelExhausted) })
  | n + 1, nodeIt => do
    let (more, nodeIt) ← nodeIt.Next keccak fuel true
    if more then
      if nodeIt.Leaf then
        let key ← nodeIt.LeafKey
        let value ← nodeIt.LeafBlob
        return (true, { it with nodeIt := nodeIt, Key := key, Value := value })
      else Iterator.nextLoop fuel it n nodeIt
    else return (false, { it with nodeIt := nodeIt, Key := [], Value := [], Err := nodeIt.Error })

/-- `Iterator.Next`. -/
def Iterator.Next (fuel : Nat) (it : Iterator) : Except String (Bool × Iterator) :=
  it.nextLoop keccak fuel fuel it.nodeIt

/-- The pairs that successive calls of `Iterator.Next` produce, up to the
call that returns false. -/
inductive Iterator.Yields (fuel : Nat) : Iterator → List (List UInt8 × List UInt8) → Prop where
  | done {it it' : Iterator} : it.Next keccak fuel = .ok (false, it') → Iterator.Yields fuel it []
  | next {it it' : Iterator} {kvs : List (List UInt8 × List UInt8)} :
    it.Next keccak fuel = .ok (true, it') → Iterator.Yields fuel it' kvs →
      Iterator.Yields fuel it ((it'.Key, it'.Value) :: kvs)

end Iterator

end FiscoBcos.Trie
