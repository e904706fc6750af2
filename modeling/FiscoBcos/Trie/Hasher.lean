import FiscoBcos.Trie.Semantics
import Mathlib

/-!
# The hasher and the root hash

`trie/hasher.go` with `Hash` and `hashRoot` of `trie.go`. A node is collapsed
bottom up: its key goes to COMPACT form, and a child whose encoding takes 32
bytes or more is replaced by the hash of that encoding, while a smaller one
stays embedded in its parent; the root is hashed whatever its size. The nodes
replaced by their hashes are the ones `Commit` writes to the database, and
`hashChildren` returns them beside the collapsed node, in the order Go writes
them.

Keccak-256 is the parameter `keccak`. The `nodeFlag` cache of hashes is not
modelled (`Trie.Node`): the nodes the hasher meets have no cached hash, as in
a trie built by updates since it was last hashed.

A live trie's root is a function of its map (`root_eq_of_contents_eq`), so its
hash is too: two runs of changes that leave the same map leave the same root
hash (`Hash_runOps_eq`).
-/

namespace FiscoBcos.Trie

set_option linter.dupNamespace false

/-- The nodes `store` writes to the database: their hashes and collapsed
nodes. -/
abbrev Writes := List (List UInt8 × Node (List UInt8))

/-- A HEX key as Go holds it, a nibble a byte: the form of a key in a node
that `hashChildren` copies without converting. -/
def hexBytes (k : List Nibble) : List UInt8 := k.map fun x => x.val.toUInt8

/-- `common.BytesToHash` keeps a 32-byte hash. -/
theorem bytesToHash_of_length {b : List UInt8} (h : b.length = hashLen) : bytesToHash b = b := by
  simp [bytesToHash, BigEndian.leftPad, h]

/-- `common.BytesToHash` gives 32 bytes. -/
theorem length_bytesToHash (b : List UInt8) : (bytesToHash b).length = hashLen :=
  BigEndian.length_leftPad (by simp only [List.length_drop]; omega)

section Hasher

-- Keccak-256, the hash of `makeHashNode`
variable (keccak : List UInt8 → List UInt8)

/-- `store`: a node whose encoding takes 32 bytes or more, or any node when
`force`d, is replaced by the hash of its encoding and written to the
database; nil and hash nodes are kept as they are. -/
def store (n : Node (List UInt8)) (force : Bool) : Node (List UInt8) × Writes :=
  match n with
  | .nil => (.nil, [])
  | .hash h => (.hash h, [])
  | n =>
    if n.encode.length < 32 ∧ force = false then (n, [])
    else
      let hash := keccak n.encode
      (.hash hash, [(bytesToHash hash, n)])

/-- `hashChildren`: the node with its key in COMPACT form and its children
hashed. The hash of a child, `store` after `hashChildren`, is written out in
place, so that the recursion is on the child. A value below a short node and
slot 16 of a full node are copied; the other children of a full node are
hashed in index order. -/
def hashChildren : HexNode → Node (List UInt8) × Writes
  | .short k v =>
    match v with
    | .value w => (.short (hexToCompact k) (.value w), [])
    | v =>
      let (cv, ws) := hashChildren v
      let (hv, ws') := store keccak cv false
      (.short (hexToCompact k) hv, ws ++ ws')
  | .full cs =>
    (.full fun i =>
        if i = 16 then (cs 16).mapKey hexBytes
        else if (cs i).isNil then .nil
        else (store keccak (hashChildren (cs i)).1 false).1,
      (List.finRange 17).flatMap fun i =>
        if i = 16 ∨ (cs i).isNil then []
        else (hashChildren (cs i)).2 ++ (store keccak (hashChildren (cs i)).1 false).2)
  | .value v => (.value v, [])
  | .hash h => (.hash h, [])
  | .nil => (.nil, [])

/-- `hash`: collapse the node's children, then store it. -/
def hasherHash (n : HexNode) (force : Bool) : Node (List UInt8) × Writes :=
  let (c, ws) := hashChildren keccak n
  let (h, ws') := store keccak c force
  (h, ws ++ ws')

/-- `hashRoot`: `emptyRoot` for no root node, else the root stored by
force. -/
def hashRoot (root : HexNode) : Node (List UInt8) × Writes :=
  match root with
  | .nil => (.hash emptyRoot, [])
  | root => hasherHash keccak root true

/-- A node stored by force is a hash node, unless it is nil. -/
theorem store_force {n : Node (List UInt8)} (hn : n ≠ .nil) :
    ∃ h, (store keccak n true).1 = .hash h := by
  cases n with
  | nil => exact absurd rfl hn
  | hash h => exact ⟨h, rfl⟩
  | _ => simp [store]

theorem hashChildren_ne_nil {n : HexNode} (hn : n ≠ .nil) : (hashChildren keccak n).1 ≠ .nil := by
  cases n with
  | nil => exact absurd rfl hn
  | short k v => cases v <;> simp [hashChildren]
  | _ => simp [hashChildren]

/-- `hashRoot` returns a hash node for every root: the type assertion of
`Hash` holds. -/
theorem hashRoot_eq_hash (root : HexNode) : ∃ h, (hashRoot keccak root).1 = .hash h := by
  by_cases hr : root = .nil
  · subst hr
    exact ⟨emptyRoot, rfl⟩
  · have forced : hashRoot keccak root = hasherHash keccak root true := by
      cases root <;> simp_all [hashRoot]
    rw [forced]
    exact store_force keccak (hashChildren_ne_nil keccak hr)

end Hasher

namespace Trie

/-- `Hash`: the root hash. The type assertion of Go holds for every root
(`hashRoot_eq_hash`); the other branch is not reached. -/
def Hash (keccak : List UInt8 → List UInt8) (t : Trie) : List UInt8 :=
  match (hashRoot keccak t.root).1 with
  | .hash h => bytesToHash h
  | _ => []

/-- The empty trie hashes to `emptyRoot`. -/
theorem Hash_nil (keccak : List UInt8 → List UInt8) {t : Trie} (h : t.root = .nil) :
    t.Hash keccak = emptyRoot := by
  simp only [Hash, hashRoot, h]
  exact bytesToHash_of_length rfl

/-- Two runs of changes on empty tries that leave the same map leave tries
with the same root hash, and a run that leaves the empty map leaves the hash
`emptyRoot`, whatever the hash function. -/
theorem Hash_runOps_eq (keccak : List UInt8 → List UInt8) (db₁ db₂ : Database) (fuel₁ fuel₂ : Nat)
    (ops₁ ops₂ : List Op)
    (same : ops₁.foldl (fun m op => op.apply m) (fun _ => none) =
      ops₂.foldl (fun m op => op.apply m) (fun _ => none)) :
    ∃ t₁ t₂, ({ db := db₁, root := .nil } : Trie).runOps fuel₁ ops₁ = .ok t₁ ∧
      ({ db := db₂, root := .nil } : Trie).runOps fuel₂ ops₂ = .ok t₂ ∧
      t₁.Hash keccak = t₂.Hash keccak ∧
      (ops₁.foldl (fun m op => op.apply m) (fun _ => none) = (fun _ => none) →
        t₁.Hash keccak = emptyRoot) := by
  obtain ⟨t₁, run₁, _, live₁, contents₁⟩ := runOps_spec fuel₁ ops₁ _ (live_empty db₁)
  obtain ⟨t₂, run₂, _, live₂, contents₂⟩ := runOps_spec fuel₂ ops₂ _ (live_empty db₂)
  rw [contents_empty] at contents₁ contents₂
  have roots : t₁.root = t₂.root :=
    root_eq_of_contents_eq live₁ live₂ (by rw [contents₁, contents₂, same])
  refine ⟨t₁, t₂, run₁, run₂, by simp only [Hash, roots], fun empty => ?_⟩
  exact Hash_nil keccak (root_eq_nil_of_contents live₁ (contents₁.trans empty))

/-- An update undone by a deletion: the same hash as no change at all. -/
theorem Hash_runOps_eq_undone :
    ∃ t₁ t₂, ({ db := NewDatabase fun _ => none, root := .nil } : Trie).runOps 0
        [.update [1] [2], .delete [1]] = .ok t₁ ∧
      ({ db := NewDatabase fun _ => none, root := .nil } : Trie).runOps 0 [] = .ok t₂ ∧
      t₁.Hash id = t₂.Hash id ∧
      ([Op.update [1] [2], .delete [1]].foldl (fun m op => op.apply m) (fun _ => none) =
          (fun _ => none) → t₁.Hash id = emptyRoot) :=
  Hash_runOps_eq id _ _ 0 0 [.update [1] [2], .delete [1]] [] (by funext k; simp [Op.apply])

end Trie

end FiscoBcos.Trie
