import FiscoBcos.Trie.Node
import Mathlib

/-!
# The trie database

The part of `trie/database.go` that a trie reads and writes: `node`, which
loads a node by its hash, and `insert`, which the hasher calls to keep a
collapsed node among the dirty nodes. A loaded node comes from the clean
cache or the disk, as an encoding decoded by `mustDecodeNode`, or from the
dirty nodes, expanded back to HEX keys by `expandNode`.

Not modelled: the reference counts, sizes and flush-list of the dirty nodes,
which decide only what garbage collection and `Commit` to disk write; raw
blobs (`InsertBlob`), which no trie operation reads; the preimages of the
secure trie; and the copy of a disk read into the clean cache, which holds
the same bytes. `simplifyNode` drops only the cache flags of the nodes it
copies, and the model has no flags.
-/

namespace FiscoBcos.Trie

/-- The errors of trie operations: `MissingNodeError`, a Go panic, or the
end of the model's budget of hash resolutions (a database whose nodes refer
to each other in a cycle makes Go loop). -/
inductive TrieError where
  | missingNode (nodeHash : List UInt8) (path : List Nibble)
  | panic (msg : String)
  | fuelExhausted

/-- `Database`: the clean cache and the disk map hashes to encodings, the
dirty nodes map hashes to collapsed nodes. -/
structure Database where
  diskdb : List UInt8 → Option (List UInt8)
  cleans : List UInt8 → Option (List UInt8)
  dirties : List UInt8 → Option (Node (List UInt8))

/-- `common.Hash{}`, the hash of the metaroot among the dirty nodes. -/
def zeroHash : List UInt8 := List.replicate hashLen 0

/-- `NewDatabase`: no clean cache, and the metaroot as the only dirty node. -/
def NewDatabase (diskdb : List UInt8 → Option (List UInt8)) : Database where
  diskdb := diskdb
  cleans := fun _ => none
  dirties := fun hash => if hash = zeroHash then some .nil else none

/-- `mustDecodeNode`: a node that does not decode is a panic. -/
def mustDecodeNode (hash buf : List UInt8) : Except TrieError (Node (List Nibble)) :=
  match decodeNode buf with
  | .ok n => .ok n
  | .error _ => .error (.panic s!"node {hash}: decode error")

/-- `cachedNode.obj`: a dirty node expanded; the metaroot has no node, and
`expandNode` panics on it. -/
def obj (n : Node (List UInt8)) : Except TrieError (Node (List Nibble)) :=
  match n with
  | .nil => .error (.panic "unknown node type: <nil>")
  | n => .ok (expandNode n)

namespace Database

/-- `node`: the node of a hash, from the clean cache, the dirty nodes or the
disk, in that order, or none. -/
def node (db : Database) (hash : List UInt8) : Except TrieError (Option (Node (List Nibble))) :=
  match db.cleans hash with
  | some enc => (mustDecodeNode hash enc).map some
  | none =>
    match db.dirties hash with
    | some dirty => (obj dirty).map some
    | none =>
      match db.diskdb hash with
      | some enc => (mustDecodeNode hash enc).map some
      | none => .ok none

/-- `insert`: keep a collapsed node among the dirty nodes, unless its hash is
there already. -/
def insert (db : Database) (hash : List UInt8) (n : Node (List UInt8)) : Database :=
  if (db.dirties hash).isSome then db
  else { db with dirties := fun h => if h = hash then some n else db.dirties h }

@[simp] theorem insert_diskdb (db : Database) (hash : List UInt8) (n : Node (List UInt8)) :
    (db.insert hash n).diskdb = db.diskdb := by
  unfold insert; split <;> rfl

end Database

end FiscoBcos.Trie
