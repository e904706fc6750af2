import FiscoBcos.Trie.Hasher
import Mathlib

/-!
# Merkle proofs

`trie/proof.go`: `Prove` writes the encodings of the nodes on the path of a
key to a proof database, each under its hash, and `VerifyProof` follows the
key from a root hash through such a database, decoding each node it reads,
to the value of the key or to the place where the key leaves the trie.

A proof element is a node on the path that the hasher stores by its hash, or
the root. `VerifyProof` reads the elements from the root down; `get` follows
the key through the nodes embedded in each element.

On the empty trie `Prove` writes nothing, and `VerifyProof` of its root hash
`emptyRoot` finds no proof node (`verifyProof_empty`).
-/

namespace FiscoBcos.Trie

set_option linter.dupNamespace false

/-- A key-value store of byte strings: the `ethdb` a proof is written to and
read from. -/
abbrev KeyValueStore := List UInt8 → Option (List UInt8)

/-- Go's `copy(dst, src)`: the first bytes of `dst` overwritten by those of
`src`, as many as fit. -/
def copyInto (dst src : List UInt8) : List UInt8 := src.take dst.length ++ dst.drop src.length

namespace Trie

/-! ## Prove -/

/-- One level of the loop of `Prove` that collects the nodes on the path of
`key`; `coll` goes on from a resolved node. -/
def proofPathWith (coll : HexNode → List Nibble → Except TrieError (List HexNode)) (t : Trie) :
    HexNode → List Nibble → Except TrieError (List HexNode)
  | _, [] => .ok []
  | .nil, _ :: _ => .ok []
  | .short k v, key@(_ :: _) =>
    if key.length < k.length ∨ k ≠ key.take k.length then
      -- the trie doesn't contain the key
      .ok [.short k v]
    else (proofPathWith coll t v (key.drop k.length)).map (.short k v :: ·)
  | .full cs, i :: key => (proofPathWith coll t (cs i) key).map (.full cs :: ·)
  | .hash h, key@(_ :: _) =>
    match t.resolveHash h [] with
    | .error e => .error e
    | .ok n => coll n key
  | .value _, _ :: _ => .error (.panic "invalid node")

/-- The nodes on the path of a key, with `fuel` hash resolutions. -/
def proofPath (t : Trie) : Nat → HexNode → List Nibble → Except TrieError (List HexNode)
  | 0 => proofPathWith (fun _ _ => .error .fuelExhausted) t
  | fuel + 1 => proofPathWith (proofPath t fuel) t

end Trie

section Prove

-- Keccak-256, the hash of `makeHashNode`
variable (keccak : List UInt8 → List UInt8)

/-- The loop of `Prove` over the nodes of the path, from the `i`th on: a node
that the hasher stores by its hash, or the root, is a proof element; the
first `fromLevel` elements are skipped, the others written under their
hashes. -/
def putProofs : List HexNode → Nat → Nat → KeyValueStore → KeyValueStore
  | [], _, _, proofDb => proofDb
  | n :: nodes, i, fromLevel, proofDb =>
    let n := (hashChildren keccak n).1
    let hn := (store keccak n false).1
    if hn.isHash ∨ i = 0 then
      if fromLevel > 0 then putProofs nodes (i + 1) (fromLevel - 1) proofDb
      else
        let enc := n.encode
        let hash := match hn with
          | .hash h => h
          | _ => keccak enc
        putProofs nodes (i + 1) fromLevel (Function.update proofDb hash (some enc))
    else putProofs nodes (i + 1) fromLevel proofDb

/-- `Prove`: the proof database with the proof elements of the path of `key`
written to it. -/
def Trie.Prove (t : Trie) (fuel : Nat) (key : List UInt8) (fromLevel : Nat)
    (proofDb : KeyValueStore) : Except TrieError KeyValueStore :=
  (t.proofPath fuel t.root (keybytesToHex key)).map fun nodes => putProofs keccak nodes 0 fromLevel proofDb

end Prove

/-! ## VerifyProof -/

/-- The errors of `VerifyProof`: a missing or undecodable proof node, a panic
of `get`, or the end of the model's budget of proof nodes (a proof database
whose nodes refer to each other in a cycle makes Go loop). -/
inductive ProofError where
  /-- `proof node %d (hash %064x) missing` -/
  | missing (i : Nat) (hash : List UInt8)
  /-- `bad proof node %d: %v` -/
  | bad (i : Nat) (e : DecodeError)
  | trie (e : TrieError)

/-- `get` of `proof.go`: follow `key` through a decoded node, to the hash of
the next proof node with the rest of the key, to a value, or to nothing. -/
def proofGet : HexNode → List Nibble → Except TrieError (List Nibble × HexNode)
  | .short k v, key =>
    if key.length < k.length ∨ k ≠ key.take k.length then .ok ([], .nil)
    else proofGet v (key.drop k.length)
  | .full cs, key =>
    match key with
    | [] => .error (.panic "index out of range")
    | i :: key => proofGet (cs i) key
  | .hash h, key => .ok (key, .hash h)
  | .nil, key => .ok (key, .nil)
  | .value v, _ => .ok ([], .value v)

/-- The loop of `VerifyProof` at its `i`th proof node, with a budget of
`fuel` more: the value, the number of nodes, and the error. -/
def verifyProofLoop (proofDb : KeyValueStore) :
    Nat → Nat → List UInt8 → List Nibble → Option (List UInt8) × Nat × Option ProofError
  | 0, i, _, _ => (none, i, some (.trie .fuelExhausted))
  | fuel + 1, i, wantHash, key =>
    match proofDb wantHash with
    | none => (none, i, some (.missing i wantHash))
    | some buf =>
      match decodeNode buf with
      | .error e => (none, i, some (.bad i e))
      | .ok n =>
        match proofGet n key with
        | .error e => (none, i, some (.trie e))
        -- the trie doesn't contain the key
        | .ok (_, .nil) => (none, i, none)
        | .ok (keyrest, .hash h) => verifyProofLoop proofDb fuel (i + 1) (copyInto wantHash h) keyrest
        | .ok (_, .value v) => (some v, i + 1, none)
        -- not returned by get; Go's switch goes on with the next round
        | .ok (_, _) => verifyProofLoop proofDb fuel (i + 1) wantHash key

/-- `VerifyProof`, with a budget of `fuel` proof nodes. -/
def VerifyProof (fuel : Nat) (rootHash key : List UInt8) (proofDb : KeyValueStore) :
    Option (List UInt8) × Nat × Option ProofError :=
  verifyProofLoop proofDb fuel 0 rootHash (keybytesToHex key)

/-! ## Proofs of the empty trie and of absent keys -/

/-- The empty trie has no path. -/
theorem proofPathWith_nil (coll : HexNode → List Nibble → Except TrieError (List HexNode)) (t : Trie)
    (key : List Nibble) : t.proofPathWith coll .nil key = .ok [] := by
  cases key <;> rfl

/-- On the empty trie `Prove` writes nothing, so `VerifyProof` of its root
hash `emptyRoot` finds no proof node to start from, whatever the key. -/
theorem verifyProof_empty (keccak : List UInt8 → List UInt8) (db : Database) (fuel fuel' : Nat)
    (key : List UInt8) (proofDb : KeyValueStore) (absent : proofDb emptyRoot = none) :
    ({ db, root := .nil } : Trie).Prove keccak fuel key 0 proofDb = .ok proofDb ∧
      VerifyProof (fuel' + 1) (({ db, root := .nil } : Trie).Hash keccak) key proofDb =
        (none, 0, some (.missing 0 emptyRoot)) := by
  constructor
  · cases fuel <;> simp [Trie.Prove, Trie.proofPath, proofPathWith_nil, putProofs]
  · rw [Trie.Hash_nil keccak rfl]
    simp [VerifyProof, verifyProofLoop, absent]

/-- A fresh proof database: `Prove` of any key on the empty trie succeeds and
`VerifyProof` fails. -/
theorem verifyProof_empty_fresh :
    (fun _ => none : KeyValueStore) emptyRoot = none ∧
      (({ db := NewDatabase fun _ => none, root := .nil } : Trie).Prove id 0 [1] 0 fun _ => none) =
        .ok (fun _ => none) ∧
      VerifyProof 1 (({ db := NewDatabase fun _ => none, root := .nil } : Trie).Hash id) [1]
        (fun _ => none) = (none, 0, some (.missing 0 emptyRoot)) :=
  ⟨rfl, verifyProof_empty id (NewDatabase fun _ => none) 0 0 [1] (fun _ => none) rfl⟩

end FiscoBcos.Trie
