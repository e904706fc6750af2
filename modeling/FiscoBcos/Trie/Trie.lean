import FiscoBcos.Trie.Database
import Mathlib

/-!
# Trie operations

`trie/trie.go`: `TryGet`, `TryUpdate` and `TryDelete` over a root node that
loads its unresolved parts (hash nodes) from the database.

Each of `tryGet`, `insert` and `delete` recurses on the node, except where
it meets a hash node: there it resolves the hash and starts again on the
loaded node at the same place in the key. The model writes one level of
each as a function on the node (`tryGetWith`, `insertWith`, `deleteWith`)
that takes the function to go on with after a resolution, and the
operation itself as that level applied to the operation with one resolution
less. A trie built in memory has no hash nodes; there the budget is never
touched (`Trie.Map`).
-/

namespace FiscoBcos.Trie

set_option linter.dupNamespace false

/-- `emptyRoot`: the root hash of the empty trie. -/
def emptyRoot : List UInt8 :=
  [0x56, 0xe8, 0x1f, 0x17, 0x1b, 0xcc, 0x55, 0xa6, 0xff, 0x83, 0x45, 0xe6, 0x92, 0xc0, 0xf8, 0x6e,
   0x5b, 0x48, 0xe0, 0x1b, 0x99, 0x6c, 0xad, 0xc0, 0x01, 0x62, 0x2f, 0xb5, 0xe3, 0x63, 0xb4, 0x21]

/-- `Trie`: the root node and the database it loads nodes from. -/
structure Trie where
  db : Database
  root : Node (List Nibble)

/-- A hex-keyed node: the nodes of a live trie. -/
abbrev HexNode := Node (List Nibble)

/-- The results of `tryGet`: the value, the node with what was resolved, and
whether anything was. -/
abbrev GetResult := Except TrieError (Option (List UInt8) × HexNode × Bool)

/-- The results of `insert` and `delete`: whether the node changed, and the
new node. -/
abbrev UpdateResult := Except TrieError (Bool × HexNode)

/-- `insert` into the nil node, as the branch-out of `insert` does it: the
value itself at the end of the key, a short node before it. -/
def insertNil (key : List Nibble) (value : HexNode) : HexNode :=
  if key = [] then value else .short key value

/-- The full node `insert` branches out into: what follows nibble `i` in the
short node's key leads to its value, what follows nibble `j` in the new key
to the new value. -/
def branch (i : Nibble) (krest : List Nibble) (kval : HexNode) (j : Nibble) (rest : List Nibble)
    (value : HexNode) : HexNode :=
  .full (Function.update (Function.update (fun _ => .nil) i (insertNil krest kval))
    j (insertNil rest value))

/-- The loop of `delete` over the children of a full node: `-1` while none is
set, the index of the only one set, `-2` once a second one is. Go leaves the
loop at `-2`; going on leaves it `-2`. -/
def remainingPos {K : Type} (cs : Fin 17 → Node K) : Int :=
  (List.finRange 17).foldl (fun pos i => if (cs i).isNil then pos else if pos = -1 then i.val else -2) (-1)

namespace Trie

/-- `resolveHash`: load a node, or a `MissingNodeError`. -/
def resolveHash (t : Trie) (n : List UInt8) (pre : List Nibble) : Except TrieError HexNode :=
  let hash := bytesToHash n
  match t.db.node hash with
  | .error e => .error e
  | .ok (some node) => .ok node
  | .ok none => .error (.missingNode hash pre)

/-- `resolve`: load a hash node, keep any other. -/
def resolve (t : Trie) (n : HexNode) (pre : List Nibble) : Except TrieError HexNode :=
  match n with
  | .hash h => t.resolveHash h pre
  | n => .ok n

/-! ## Lookup -/

/-- One level of `tryGet` at `pos` in `key`; `get` goes on from a resolved
node. -/
def tryGetWith (get : HexNode → Nat → GetResult) (t : Trie) (key : List Nibble) :
    HexNode → Nat → GetResult
  | .nil, _ => .ok (none, .nil, false)
  | .value v, _ => .ok (some v, .value v, false)
  | .short k v, pos =>
    if key.length < pos + k.length ∨ k ≠ (key.drop pos).take k.length then
      -- key not found in trie
      .ok (none, .short k v, false)
    else
      (tryGetWith get t key v (pos + k.length)).map fun (value, newnode, didResolve) =>
        (value, if didResolve then .short k newnode else .short k v, didResolve)
  | .full cs, pos =>
    match key[pos]? with
    | none => .error (.panic "index out of range")
    | some i =>
      (tryGetWith get t key (cs i) (pos + 1)).map fun (value, newnode, didResolve) =>
        (value, if didResolve then .full (Function.update cs i newnode) else .full cs, didResolve)
  | .hash h, pos =>
    match t.resolveHash h (key.take pos) with
    | .error e => .error e
    | .ok child => (get child pos).map fun (value, newnode, _) => (value, newnode, true)

section TryGetWithEquations

variable (get : HexNode → Nat → GetResult) (t : Trie) (key : List Nibble)

-- One equation per kind of node, so that proofs about `tryGet` rewrite with
-- these instead of unfolding `tryGetWith` each time.
theorem tryGetWith_nil (pos : Nat) : t.tryGetWith get key .nil pos = .ok (none, .nil, false) := rfl

theorem tryGetWith_value (v : List UInt8) (pos : Nat) :
    t.tryGetWith get key (.value v) pos = .ok (some v, .value v, false) := rfl

theorem tryGetWith_short (k : List Nibble) (v : HexNode) (pos : Nat) :
    t.tryGetWith get key (.short k v) pos =
      if key.length < pos + k.length ∨ k ≠ (key.drop pos).take k.length then
        .ok (none, .short k v, false)
      else
        (tryGetWith get t key v (pos + k.length)).map fun (value, newnode, didResolve) =>
          (value, if didResolve then .short k newnode else .short k v, didResolve) := rfl

theorem tryGetWith_full_some (cs : Fin 17 → HexNode) {pos : Nat} {i : Nibble} (h : key[pos]? = some i) :
    t.tryGetWith get key (.full cs) pos =
      (tryGetWith get t key (cs i) (pos + 1)).map fun (value, newnode, didResolve) =>
        (value, if didResolve then .full (Function.update cs i newnode) else .full cs, didResolve) := by
  rw [tryGetWith, h]

theorem tryGetWith_hash_ok (h : List UInt8) {pos : Nat} {child : HexNode}
    (resolved : t.resolveHash h (key.take pos) = .ok child) :
    t.tryGetWith get key (.hash h) pos = (get child pos).map fun (value, newnode, _) => (value, newnode, true) := by
  rw [tryGetWith, resolved]

end TryGetWithEquations

/-- `tryGet`, with `fuel` hash resolutions. -/
def tryGet (t : Trie) (key : List Nibble) : Nat → HexNode → Nat → GetResult
  | 0 => tryGetWith (fun _ _ => .error .fuelExhausted) t key
  | fuel + 1 => tryGetWith (tryGet t key fuel) t key

/-- `TryGet`: the value of a key, and the trie with the nodes it loaded. -/
def TryGet (t : Trie) (fuel : Nat) (key : List UInt8) : Except TrieError (Option (List UInt8)) × Trie :=
  match t.tryGet (keybytesToHex key) fuel t.root 0 with
  | .ok (value, newroot, didResolve) => (.ok value, if didResolve then { t with root := newroot } else t)
  | .error e => (.error e, t)

/-! ## Update -/

/-- One level of `insert`; `ins` goes on from a resolved node. -/
def insertWith (ins : HexNode → List Nibble → List Nibble → HexNode → UpdateResult) (t : Trie) :
    HexNode → List Nibble → List Nibble → HexNode → UpdateResult
  | n, _, [], value =>
    match n, value with
    | .value v, .value w => .ok (v != w, value)
    -- Go's type assertion value.(valueNode)
    | .value _, _ => .error (.panic "interface conversion: node is not valueNode")
    | _, _ => .ok (true, value)
  | .short nk nv, pre, key@(_ :: _), value =>
    let matchlen := prefixLen key nk
    if matchlen = nk.length then
      -- the whole key of the short node matches: update its value
      match insertWith ins t nv (pre ++ key.take matchlen) (key.drop matchlen) value with
      | .error e => .error e
      | .ok (false, _) => .ok (false, .short nk nv)
      | .ok (true, nn) => .ok (true, .short nk nn)
    else
      -- branch out at the index where they differ
      match nk[matchlen]?, key[matchlen]? with
      | some i, some j =>
        let branch := branch i (nk.drop (matchlen + 1)) nv j (key.drop (matchlen + 1)) value
        if matchlen = 0 then .ok (true, branch) else .ok (true, .short (key.take matchlen) branch)
      | _, _ => .error (.panic "index out of range")
  | .full cs, pre, k :: key, value =>
    match insertWith ins t (cs k) (pre ++ [k]) key value with
    | .error e => .error e
    | .ok (false, _) => .ok (false, .full cs)
    | .ok (true, nn) => .ok (true, .full (Function.update cs k nn))
  | .nil, _, key@(_ :: _), value => .ok (true, .short key value)
  | .hash h, pre, key@(_ :: _), value =>
    match t.resolveHash h pre with
    | .error e => .error e
    | .ok rn =>
      match ins rn pre key value with
      | .error e => .error e
      | .ok (false, _) => .ok (false, rn)
      | .ok (true, nn) => .ok (true, nn)
  | .value _, _, _ :: _, _ => .error (.panic "invalid node")

/-- `insert`, with `fuel` hash resolutions. -/
def insert (t : Trie) : Nat → HexNode → List Nibble → List Nibble → HexNode → UpdateResult
  | 0 => insertWith (fun _ _ _ _ => .error .fuelExhausted) t
  | fuel + 1 => insertWith (insert t fuel) t

/-- The short node that replaces a full node left with one child at `i`: the
child's key with `i` in front when the child (loaded for the check) is a
short node, else a one-nibble short node over the child. -/
def collapseTo (t : Trie) (cs : Fin 17 → HexNode) (i : Fin 17) (pre : List Nibble) : UpdateResult :=
  if i ≠ 16 then
    match t.resolve (cs i) pre with
    | .error e => .error e
    | .ok (.short ck cv) => .ok (true, .short (i :: ck) cv)
    | .ok _ => .ok (true, .short [i] (cs i))
  else .ok (true, .short [i] (cs i))

/-- One level of `delete`; `del` goes on from a resolved node. -/
def deleteWith (del : HexNode → List Nibble → List Nibble → UpdateResult) (t : Trie) :
    HexNode → List Nibble → List Nibble → UpdateResult
  | .short nk nv, pre, key =>
    let matchlen := prefixLen key nk
    if matchlen < nk.length then .ok (false, .short nk nv)
    else if matchlen = key.length then .ok (true, .nil)
    else
      match deleteWith del t nv (pre ++ key.take nk.length) (key.drop nk.length) with
      | .error e => .error e
      | .ok (false, _) => .ok (false, .short nk nv)
      -- merge a short child into this node
      | .ok (true, .short ck cv) => .ok (true, .short (nk ++ ck) cv)
      | .ok (true, child) => .ok (true, .short nk child)
  | .full cs, pre, key =>
    match key with
    | [] => .error (.panic "index out of range")
    | k :: key =>
      match deleteWith del t (cs k) (pre ++ [k]) key with
      | .error e => .error e
      | .ok (false, _) => .ok (false, .full cs)
      | .ok (true, nn) =>
        let cs := Function.update cs k nn
        let pos := remainingPos cs
        if 0 ≤ pos then t.collapseTo cs (Fin.ofNat 17 pos.toNat) pre
        else .ok (true, .full cs)
  | .value _, _, _ => .ok (true, .nil)
  | .nil, _, _ => .ok (false, .nil)
  | .hash h, pre, key =>
    match t.resolveHash h pre with
    | .error e => .error e
    | .ok rn =>
      match del rn pre key with
      | .error e => .error e
      | .ok (false, _) => .ok (false, rn)
      | .ok (true, nn) => .ok (true, nn)

/-- `delete`, with `fuel` hash resolutions. -/
def delete (t : Trie) : Nat → HexNode → List Nibble → List Nibble → UpdateResult
  | 0 => deleteWith (fun _ _ _ => .error .fuelExhausted) t
  | fuel + 1 => deleteWith (delete t fuel) t

/-- `TryUpdate`: an empty value deletes the key. -/
def TryUpdate (t : Trie) (fuel : Nat) (key value : List UInt8) : Except TrieError Unit × Trie :=
  let k := keybytesToHex key
  let result := if value.length ≠ 0 then t.insert fuel t.root [] k (.value value)
    else t.delete fuel t.root [] k
  match result with
  | .ok (_, n) => (.ok (), { t with root := n })
  | .error e => (.error e, t)

/-- `TryDelete`. -/
def TryDelete (t : Trie) (fuel : Nat) (key : List UInt8) : Except TrieError Unit × Trie :=
  match t.delete fuel t.root [] (keybytesToHex key) with
  | .ok (_, n) => (.ok (), { t with root := n })
  | .error e => (.error e, t)

end Trie

/-- `New`: an empty trie on the zero hash and on `emptyRoot`, else the root
node loaded from the database. -/
def New (root : List UInt8) (db : Database) : Except TrieError Trie :=
  let trie : Trie := { db, root := .nil }
  if root ≠ zeroHash ∧ root ≠ emptyRoot then
    (trie.resolveHash root []).map fun rootnode => { trie with root := rootnode }
  else .ok trie

end FiscoBcos.Trie
